import MulanLsm.Basic
import MulanLsm.Library.Groups

/-! Variable-length integers: each byte carries seven bits of the value, and its high bit says
whether another byte follows. -/

namespace MulanLsm

/-- Varints of 32 bits take at most five bytes. -/
def maxVarint32Len : Nat := 5

/-- Varints of 64 bits take at most ten bytes. -/
def maxVarint64Len : Nat := 10

/-- The bytes of `value`, of at most `n + 1` bytes. -/
def encodeVarintLoop : Nat → Nat → Bytes
  | 0, value => [UInt8.ofNat value]
  | n + 1, value =>
    if value ≥ 0x80 then UInt8.ofNat (value % 128 + 128) :: encodeVarintLoop n (value >>> 7)
    else [UInt8.ofNat value]

/-- The varint of a `u32`. -/
def encodeVarint32 (value : Nat) : Bytes := encodeVarintLoop (maxVarint32Len - 1) value

/-- The varint of a `u64`. -/
def encodeVarint64 (value : Nat) : Bytes := encodeVarintLoop (maxVarint64Len - 1) value

/-- The loop of `decode_varint`: at most `n` more bytes, the bits so far in `result`, a `u64`, and
`i` bytes read. -/
def decodeVarintLoop (maxLen : Nat) : Nat → Bytes → Nat → Nat → Nat → Result (Nat × Nat)
  | n + 1, byte :: buf, result, shift, i =>
    let result := result ||| ((byte.toNat % 128) <<< shift) % 2 ^ 64
    if byte.toNat < 0x80 then .ok (result, i + 1)
    else decodeVarintLoop maxLen n buf result (shift + 7) (i + 1)
  | _, _, _, _, _ =>
    .error (.corrupted s!"varint too long or unterminated (max {maxLen} bytes)")

/-- The value of the varint at the start of `buf`, as a `u64`, and its length. -/
def decodeVarint (buf : Bytes) (maxLen : Nat) : Result (Nat × Nat) :=
  decodeVarintLoop maxLen maxLen buf 0 0 0

def decodeVarint32 (buf : Bytes) : Result (Nat × Nat) :=
  (decodeVarint buf maxVarint32Len).map fun p => (asU32 p.1, p.2)

def decodeVarint64 (buf : Bytes) : Result (Nat × Nat) := decodeVarint buf maxVarint64Len

/-- The number that the bytes of a varint stand for. -/
def varintValue (bs : Bytes) : Nat := (bs.mapIdx fun i b => b.toNat % 128 * 2 ^ (7 * i)).sum

/-- The first `n` bytes are a varint. -/
abbrev StartsVarint (buf : Bytes) (n : Nat) : Prop := Groups.Starts UInt8.toNat 128 buf n

theorem varintValue_eq (bs : Bytes) : varintValue bs = Groups.value UInt8.toNat 128 bs := by
  rw [Groups.value, Nat.ofDigits_eq_sum_mapIdx, varintValue]
  congr 1
  exact List.ext_getElem? fun i => by simp [pow_mul, Function.comp_def]

section Encoding

variable {n value : Nat}

theorem encodeVarintLoop_length_pos (n value : Nat) : 0 < (encodeVarintLoop n value).length := by
  cases n with
  | zero => simp [encodeVarintLoop]
  | succ n => rw [encodeVarintLoop]; split <;> simp

theorem encodeVarintLoop_length_le (n value : Nat) : (encodeVarintLoop n value).length ≤ n + 1 := by
  induction n generalizing value with
  | zero => exact le_refl _
  | succ n ih =>
    rw [encodeVarintLoop]
    split
    · exact Nat.succ_le_succ (ih _)
    · simp

/-- The bytes of a value are a varint that stands for it. -/
theorem encodeVarintLoop_spec (h : value < 2 ^ (7 * (n + 1))) :
    Groups.Whole UInt8.toNat 128 (encodeVarintLoop n value) ∧
      Groups.value UInt8.toNat 128 (encodeVarintLoop n value) = value := by
  have hLast : ∀ {value : Nat}, value < 128 →
      Groups.Whole UInt8.toNat 128 [UInt8.ofNat value] ∧
        Groups.value UInt8.toNat 128 [UInt8.ofNat value] = value := by
    intro value hLt
    have hByte : (UInt8.ofNat value).toNat = value := by
      rw [UInt8.toNat_ofNat']
      omega
    refine ⟨(Groups.whole_cons_of_lt (hByte.trans_lt hLt)).mpr rfl, ?_⟩
    rw [Groups.value_cons, hByte, Nat.mod_eq_of_lt hLt]
    rfl
  induction n generalizing value with
  | zero => exact hLast h
  | succ n ih =>
    rw [encodeVarintLoop]
    split
    · have hByte : (UInt8.ofNat (value % 128 + 128)).toNat = value % 128 + 128 := by
        rw [UInt8.toNat_ofNat']
        omega
      have hDiv : value >>> 7 = value / 128 := Nat.shiftRight_eq_div_pow value 7
      have hNext : value / 128 < 2 ^ (7 * (n + 1)) := by
        rw [Nat.div_lt_iff_lt_mul (by decide)]
        exact h.trans_eq (pow_add 2 (7 * (n + 1)) 7)
      rw [Groups.whole_cons_of_le (by omega), Groups.value_cons, hByte, hDiv]
      refine ⟨(ih hNext).1, ?_⟩
      rw [(ih hNext).2]
      omega
    · exact hLast (by omega)

end Encoding

section Decoding

variable {buf : Bytes} {maxLen n result shift i v j : Nat}

theorem or_shiftLeft {x : Nat} (hr : result < 2 ^ shift) (h64 : result < 2 ^ 64) :
    result ||| (x <<< shift) % 2 ^ 64 = (result + x * 2 ^ shift) % 2 ^ 64 := by
  calc result ||| (x <<< shift) % 2 ^ 64 = (x <<< shift ||| result) % 2 ^ 64 := by
        rw [Nat.or_mod_two_pow, Nat.mod_eq_of_lt h64, Nat.or_comm]
    _ = (result + x * 2 ^ shift) % 2 ^ 64 := by
        rw [← Nat.shiftLeft_add_eq_or_of_lt hr, Nat.shiftLeft_eq, Nat.add_comm]

/-- The loop reads a varint of at most `n` bytes and puts its value in front of the bits so far, as
far as a `u64` has room. -/
theorem decodeVarintLoop_eq_ok (hr : result < 2 ^ shift) (h64 : result < 2 ^ 64) :
    decodeVarintLoop maxLen n buf result shift i = .ok (v, j) ↔
      ∃ m ≤ n, StartsVarint buf m ∧ j = i + m ∧
        (result + Groups.value UInt8.toNat 128 (buf.take m) * 2 ^ shift) % 2 ^ 64 = v := by
  induction n generalizing buf result shift i with
  | zero => simp [decodeVarintLoop]
  | succ n ih =>
    cases buf with
    | nil => simp [decodeVarintLoop]
    | cons byte buf =>
      have hx : byte.toNat % 128 < 128 := Nat.mod_lt _ (by decide)
      have hPow : (2 : Nat) ^ (shift + 7) = 2 ^ shift * 128 := pow_add 2 shift 7
      have hSum : result + byte.toNat % 128 * 2 ^ shift < 2 ^ (shift + 7) := by
        have := Nat.mul_le_mul_right (2 ^ shift) (Nat.le_sub_one_of_lt hx)
        omega
      have hNext : (result + byte.toNat % 128 * 2 ^ shift) % 2 ^ 64 < 2 ^ (shift + 7) :=
        (Nat.mod_le _ _).trans_lt hSum
      rw [decodeVarintLoop, or_shiftLeft hr h64]
      split
      · next hLast =>
        have hValue : Groups.value UInt8.toNat 128 ((byte :: buf).take 1) = byte.toNat % 128 := by
          rw [List.take_succ_cons, List.take_zero, Groups.value_cons, Groups.value_nil]
          omega
        rw [Except.ok.injEq, Prod.mk.injEq]
        constructor
        · rintro ⟨rfl, rfl⟩
          exact ⟨1, by omega, (Groups.starts_cons_of_lt hLast).mpr rfl, rfl, by rw [hValue]⟩
        · rintro ⟨m, -, hStarts, rfl, rfl⟩
          cases m with
          | zero => exact absurd hStarts Groups.not_starts_zero
          | succ m =>
            obtain rfl := (Groups.starts_cons_of_lt hLast).mp hStarts
            exact ⟨by rw [hValue], rfl⟩
      · next hMore =>
        rw [ih hNext (Nat.mod_lt _ (by decide))]
        -- The bits so far are reduced at each byte, the sum only once.
        have hValue : ∀ m, ((result + byte.toNat % 128 * 2 ^ shift) % 2 ^ 64 +
            Groups.value UInt8.toNat 128 (buf.take m) * 2 ^ (shift + 7)) % 2 ^ 64 =
            (result + Groups.value UInt8.toNat 128 ((byte :: buf).take (m + 1)) * 2 ^ shift) %
              2 ^ 64 := by
          intro m
          rw [Nat.mod_add_mod, List.take_succ_cons, Groups.value_cons, hPow]
          congr 1
          ring
        constructor
        · rintro ⟨m, hm, hStarts, rfl, rfl⟩
          exact ⟨m + 1, by omega, (Groups.starts_cons_of_le (Nat.not_lt.mp hMore)).mpr hStarts,
            by omega, (hValue m).symm⟩
        · rintro ⟨m, hm, hStarts, rfl, rfl⟩
          cases m with
          | zero => exact absurd hStarts Groups.not_starts_zero
          | succ m =>
            exact ⟨m, by omega, (Groups.starts_cons_of_le (Nat.not_lt.mp hMore)).mp hStarts,
              by omega, hValue m⟩

theorem decodeVarint_eq_ok : decodeVarint buf maxLen = .ok (v, n) ↔
    n ≤ maxLen ∧ StartsVarint buf n ∧ varintValue (buf.take n) % 2 ^ 64 = v := by
  rw [decodeVarint, decodeVarintLoop_eq_ok (by decide) (by decide), varintValue_eq]
  constructor
  · rintro ⟨m, hm, hStarts, rfl, rfl⟩
    rw [Nat.zero_add, Nat.zero_add, pow_zero, mul_one]
    exact ⟨hm, hStarts, rfl⟩
  · rintro ⟨hn, hStarts, rfl⟩
    exact ⟨n, hn, hStarts, (Nat.zero_add n).symm, by rw [Nat.zero_add, pow_zero, mul_one]⟩

theorem decodeVarint64_eq_ok : decodeVarint64 buf = .ok (v, n) ↔
    n ≤ maxVarint64Len ∧ StartsVarint buf n ∧ varintValue (buf.take n) % 2 ^ 64 = v :=
  decodeVarint_eq_ok

theorem decodeVarint32_eq_ok : decodeVarint32 buf = .ok (v, n) ↔
    n ≤ maxVarint32Len ∧ StartsVarint buf n ∧ varintValue (buf.take n) % 2 ^ 32 = v := by
  have hMod : ∀ x : Nat, asU32 (x % 2 ^ 64) = x % 2 ^ 32 := fun x =>
    Nat.mod_mod_of_dvd x (by decide)
  rw [decodeVarint32]
  constructor
  · intro h
    cases hDecode : decodeVarint buf maxVarint32Len with
    | error e =>
      rw [hDecode] at h
      cases h
    | ok p =>
      rw [hDecode] at h
      obtain ⟨rfl, rfl⟩ := Prod.mk.inj (Except.ok.inj h)
      obtain ⟨hLe, hStarts, hValue⟩ := decodeVarint_eq_ok.mp hDecode
      rw [← hValue, hMod]
      exact ⟨hLe, hStarts, rfl⟩
  · rintro ⟨hLe, hStarts, rfl⟩
    rw [decodeVarint_eq_ok.mpr ⟨hLe, hStarts, rfl⟩, ← hMod]
    rfl

theorem decodeVarint64_encode {value : Nat} (h : value < 2 ^ 64) (rest : Bytes) :
    decodeVarint64 (encodeVarint64 value ++ rest) =
      .ok (value, (encodeVarint64 value).length) := by
  obtain ⟨hWhole, hValue⟩ := encodeVarintLoop_spec (n := maxVarint64Len - 1) (h.trans (by decide))
  refine decodeVarint64_eq_ok.mpr ⟨encodeVarintLoop_length_le _ _, hWhole.starts rest, ?_⟩
  rw [encodeVarint64, List.take_left' rfl, varintValue_eq, hValue, Nat.mod_eq_of_lt h]

theorem decodeVarint32_encode {value : Nat} (h : value < 2 ^ 32) (rest : Bytes) :
    decodeVarint32 (encodeVarint32 value ++ rest) =
      .ok (value, (encodeVarint32 value).length) := by
  obtain ⟨hWhole, hValue⟩ := encodeVarintLoop_spec (n := maxVarint32Len - 1) (h.trans (by decide))
  refine decodeVarint32_eq_ok.mpr ⟨encodeVarintLoop_length_le _ _, hWhole.starts rest, ?_⟩
  rw [encodeVarint32, List.take_left' rfl, varintValue_eq, hValue, Nat.mod_eq_of_lt h]

/-- A varint ends in the bytes it is read from. -/
theorem decodeVarint64_le (h : decodeVarint64 buf = .ok (v, n)) : n ≤ 10 ∧ n ≤ buf.length := by
  obtain ⟨hLe, hStarts, -⟩ := decodeVarint64_eq_ok.mp h
  exact ⟨hLe, hStarts.1⟩

theorem decodeVarint32_le (h : decodeVarint32 buf = .ok (v, n)) :
    v < 2 ^ 32 ∧ n ≤ 5 ∧ n ≤ buf.length := by
  obtain ⟨hLe, hStarts, rfl⟩ := decodeVarint32_eq_ok.mp h
  exact ⟨Nat.mod_lt _ (by decide), hLe, hStarts.1⟩

theorem decodeVarint32_pos (h : decodeVarint32 buf = .ok (v, n)) : 0 < n := by
  obtain ⟨-, hStarts, -⟩ := decodeVarint32_eq_ok.mp h
  exact Nat.pos_of_ne_zero fun hZero => Groups.not_starts_zero (hZero ▸ hStarts)

end Decoding

section Exactness

variable {buf : Bytes} {n full extra : Nat}

/-- The first `n` bytes of `buf` are a varint of at most `maxLen` bytes for `v`, of `bits` bits. -/
structure IsVarint (bits maxLen : Nat) (buf : Bytes) (v n : Nat) : Prop where
  length : n ≤ maxLen
  starts : StartsVarint buf n
  value : varintValue (buf.take n) = v
  fits : v < 2 ^ bits

/-- What an exact decoder answers: the varint at the start of `buf`, or an error if none is
there. -/
def DecodesExactly (bits maxLen : Nat) (buf : Bytes) : Result (Nat × Nat) → Prop
  | .ok (v, n) => IsVarint bits maxLen buf v n
  | .error _ => ∀ v n, ¬IsVarint bits maxLen buf v n

/-- The last of the bytes that a varint may have, behind `full` bytes that go on, is `limit` or
more. -/
def Spills (full limit : Nat) (buf : Bytes) : Prop :=
  (∀ byte ∈ buf.take full, 128 ≤ byte.toNat) ∧
    ∃ byte ∈ buf[full]?, limit ≤ byte.toNat ∧ byte.toNat < 128

instance (full limit : Nat) (buf : Bytes) : Decidable (Spills full limit buf) :=
  decidable_of_iff ((buf.take full).all (128 ≤ ·.toNat) ∧
    buf[full]?.any fun byte => limit ≤ byte.toNat ∧ byte.toNat < 128)
    (by simp [Spills, Option.any_eq_true])

theorem pow_base (n extra : Nat) : (2 : Nat) ^ (7 * n + extra) = 128 ^ n * 2 ^ extra := by
  rw [pow_add, pow_mul]
  rfl

theorem Spills.starts {limit : Nat} (h : Spills full limit buf) : StartsVarint buf (full + 1) := by
  obtain ⟨hRest, byte, hByte, -, hLast⟩ := h
  exact Groups.starts_succ.mpr ⟨hRest, byte, hByte, hLast⟩

/-- The value of a varint fits but where its last byte spills. -/
theorem varintValue_lt_iff (extra : Nat) (h : StartsVarint buf n) (hn : n ≤ full + 1) :
    varintValue (buf.take n) < 2 ^ (7 * full + extra) ↔
      ¬(n = full + 1 ∧ Spills full (2 ^ extra) buf) := by
  rw [varintValue_eq, pow_base]
  rcases Nat.lt_or_ge n (full + 1) with hLt | hGe
  · have hValue : Groups.value UInt8.toNat 128 (buf.take n) < 128 ^ n := by
      have := Groups.value_lt UInt8.toNat (buf.take n) (by decide : 1 < 128)
      rwa [List.length_take_of_le h.1] at this
    have hPow : 128 ^ n ≤ 128 ^ full := Nat.pow_le_pow_right (by decide) (by omega)
    have hMul : 128 ^ full ≤ 128 ^ full * 2 ^ extra := Nat.le_mul_of_pos_right _ (Nat.two_pow_pos _)
    exact iff_of_true ((hValue.trans_le hPow).trans_le hMul) fun hEq => by omega
  · obtain rfl : n = full + 1 := by omega
    obtain ⟨hRest, byte, hByte, hLast⟩ := Groups.starts_succ.mp h
    obtain ⟨hLength, rfl⟩ := List.getElem?_eq_some_iff.mp hByte
    have hTake : (buf.take full).length = full := List.length_take_of_le (Nat.le_of_lt hLength)
    have hIff := Groups.value_concat_lt UInt8.toNat (buf.take full) buf[full] (2 ^ extra)
      (by decide : 1 < 128)
    rw [hTake, Nat.mod_eq_of_lt hLast] at hIff
    rw [List.take_succ_eq_append_getElem hLength, hIff, ← Nat.not_le, not_iff_not]
    constructor
    · exact fun hLimit => ⟨rfl, hRest, _, hByte, hLimit, hLast⟩
    · rintro ⟨-, -, other, hOther, hLimit, -⟩
      obtain rfl := Option.some.inj (hByte.symm.trans hOther)
      exact hLimit

/-- A decoder that reads values up to `bits` bits is exact where the last byte does not spill. -/
theorem decodesExactly_iff (full extra : Nat) {r : Result (Nat × Nat)}
    (hRead : ∀ v n, r = .ok (v, n) ↔ n ≤ full + 1 ∧ StartsVarint buf n ∧
      varintValue (buf.take n) % 2 ^ (7 * full + extra) = v) :
    DecodesExactly (7 * full + extra) (full + 1) buf r ↔ ¬Spills full (2 ^ extra) buf := by
  constructor
  · intro hExact hSpills
    have hStarts := hSpills.starts
    rw [(hRead _ (full + 1)).mpr ⟨le_rfl, hStarts, rfl⟩] at hExact
    have hFits := hExact.fits
    rw [← hExact.value, varintValue_lt_iff extra hStarts le_rfl] at hFits
    exact hFits ⟨rfl, hSpills⟩
  · intro hNot
    cases r with
    | ok p =>
      obtain ⟨hLe, hStarts, hValue⟩ := (hRead p.1 p.2).mp rfl
      have hFits := (varintValue_lt_iff extra hStarts hLe).mpr fun h => hNot h.2
      rw [Nat.mod_eq_of_lt hFits] at hValue
      exact ⟨hLe, hStarts, hValue, hValue ▸ hFits⟩
    | error e =>
      rintro v n ⟨hLe, hStarts, rfl, hFits⟩
      have := (hRead _ n).mpr ⟨hLe, hStarts, Nat.mod_eq_of_lt hFits⟩
      contradiction

/-- Decoding is exact unless the fifth byte of a `u32` is 16 or more, or the tenth of a `u64` is 2
or more; what was encoded is always read back. -/
theorem varint_exact_iff (buf : Bytes) :
    (DecodesExactly 32 maxVarint32Len buf (decodeVarint32 buf) ↔ ¬Spills 4 0x10 buf) ∧
      (DecodesExactly 64 maxVarint64Len buf (decodeVarint64 buf) ↔ ¬Spills 9 0x02 buf) ∧
      (∀ value < 2 ^ 32, decodeVarint32 (encodeVarint32 value ++ buf) =
        .ok (value, (encodeVarint32 value).length)) ∧
      ∀ value < 2 ^ 64, decodeVarint64 (encodeVarint64 value ++ buf) =
        .ok (value, (encodeVarint64 value).length) := by
  refine ⟨?_, ?_, ?_, ?_⟩
  · exact decodesExactly_iff 4 4 fun v n => decodeVarint32_eq_ok
  · exact decodesExactly_iff 9 1 fun v n => decodeVarint64_eq_ok
  · exact fun value h => decodeVarint32_encode h buf
  · exact fun value h => decodeVarint64_encode h buf

theorem varint_exact_largest :
    DecodesExactly 32 maxVarint32Len [0xFF, 0xFF, 0xFF, 0xFF, 0x0F]
        (decodeVarint32 [0xFF, 0xFF, 0xFF, 0xFF, 0x0F]) ∧
      decodeVarint32 (encodeVarint32 300 ++ [0xFF, 0xFF, 0xFF, 0xFF, 0x0F]) = .ok (300, 2) ∧
      decodeVarint64 (encodeVarint64 300 ++ [0xFF, 0xFF, 0xFF, 0xFF, 0x0F]) = .ok (300, 2) := by
  obtain ⟨h32, -, hBack32, hBack64⟩ := varint_exact_iff [0xFF, 0xFF, 0xFF, 0xFF, 0x0F]
  exact ⟨h32.mpr (by decide), hBack32 300 (by decide), hBack64 300 (by decide)⟩

/-- `2 ^ 32` and `2 ^ 64` are read as zero. -/
theorem varint_spills :
    ¬DecodesExactly 32 maxVarint32Len [0x80, 0x80, 0x80, 0x80, 0x10]
        (decodeVarint32 [0x80, 0x80, 0x80, 0x80, 0x10]) ∧
      ¬DecodesExactly 64 maxVarint64Len
        [0x80, 0x80, 0x80, 0x80, 0x80, 0x80, 0x80, 0x80, 0x80, 0x02]
        (decodeVarint64 [0x80, 0x80, 0x80, 0x80, 0x80, 0x80, 0x80, 0x80, 0x80, 0x02]) := by
  constructor
  · intro h
    have hExact : IsVarint 32 maxVarint32Len [0x80, 0x80, 0x80, 0x80, 0x10] 0 5 := h
    exact absurd hExact.value (by decide)
  · intro h
    have hExact : IsVarint 64 maxVarint64Len
      [0x80, 0x80, 0x80, 0x80, 0x80, 0x80, 0x80, 0x80, 0x80, 0x02] 0 10 := h
    exact absurd hExact.value (by decide)

end Exactness

end MulanLsm
