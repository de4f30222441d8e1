import MulanLsm.Table

/-! The bloom filter, read.  A key that was inserted is never taken for one that was not, unless the
count of the bits wraps around to zero. -/

namespace MulanLsm

namespace BloomFilter

/-- Whether the `k` bits of a key are all set. -/
def testBits (nbits : Nat) (delta : UInt32) : Nat → UInt32 → Bytes → Bool
  | 0, _, _ => true
  | k + 1, h, bits =>
    let bitpos := h.toNat % nbits
    if bits.getD (bitpos / 8) 0 &&& UInt8.ofNat (2 ^ (bitpos % 8)) = 0 then false
    else testBits nbits delta k (h + delta) bits

def mayContain (f : BloomFilter) (key : Bytes) : Bool :=
  let nbits := asU32 (f.bits.length * 8)
  if nbits = 0 then false
  else
    let h := bloomHash key
    testBits nbits (max (h >>> 17) 1) f.k h f.bits

def fromBytes (data : Bytes) : Option BloomFilter :=
  if data = [] then none
  else some { bits := data.take (data.length - 1), k := (data.getD (data.length - 1) 0).toNat }

/-- The bit `p` is set. -/
def HasBit (bits : Bytes) (p : Nat) : Prop := bits.getD (p / 8) 0 &&& UInt8.ofNat (2 ^ (p % 8)) ≠ 0

section Bits

variable {bits : Bytes} {p q nbits k : Nat} {delta h : UInt32}

theorem and_or_ne_zero {b m n : UInt8} (h : b &&& n ≠ 0 ∨ m &&& n ≠ 0) : (b ||| m) &&& n ≠ 0 := by
  have hDistrib : (b ||| m) &&& n = (b &&& n) ||| (m &&& n) := by
    rw [← UInt8.toBitVec_inj]
    ext i hi
    simp [Bool.and_or_distrib_right]
  rw [hDistrib, Ne, UInt8.or_eq_zero_iff]
  exact fun hBoth => h.elim (· hBoth.1) (· hBoth.2)

theorem mask_ne_zero (p : Nat) : UInt8.ofNat (2 ^ (p % 8)) ≠ 0 := by
  have hMasks : ∀ i < 8, UInt8.ofNat (2 ^ i) ≠ 0 := by decide
  exact hMasks _ (Nat.mod_lt _ (by decide))

theorem hasBit_modify {f : UInt8 → UInt8} (h : ∀ b n : UInt8, b &&& n ≠ 0 → f b &&& n ≠ 0)
    (hp : HasBit bits p) : HasBit (bits.modify q f) p := by
  unfold HasBit at hp ⊢
  rw [List.getD_eq_getElem?_getD, List.getElem?_modify]
  rw [List.getD_eq_getElem?_getD] at hp
  cases hByte : bits[p / 8]? with
  | none => simp [hByte] at hp
  | some b =>
    rw [hByte] at hp
    by_cases hq : q = p / 8
    · simpa [hq] using h b _ hp
    · simpa [hq] using hp

theorem hasBit_set (hp : p / 8 < bits.length) :
    HasBit (bits.modify (p / 8) fun b => b ||| UInt8.ofNat (2 ^ (p % 8))) p := by
  unfold HasBit
  rw [List.getD_eq_getElem?_getD, List.getElem?_modify, List.getElem?_eq_getElem hp]
  simpa using and_or_ne_zero (b := bits[p / 8])
    (.inr (by rw [UInt8.and_self]; exact mask_ne_zero p))

@[simp] theorem setBits_length : (setBits nbits delta k h bits).length = bits.length := by
  induction k generalizing h bits with
  | zero => rfl
  | succ k ih => rw [setBits, ih, List.length_modify]

theorem setBits_hasBit (hp : HasBit bits p) : HasBit (setBits nbits delta k h bits) p := by
  induction k generalizing h bits with
  | zero => exact hp
  | succ k ih => exact ih (hasBit_modify (fun b n hb => and_or_ne_zero (.inl hb)) hp)

theorem testBits_of {bits' : Bytes} (hBits : ∀ p, HasBit bits p → HasBit bits' p)
    (h' : testBits nbits delta k h bits = true) : testBits nbits delta k h bits' = true := by
  induction k generalizing h with
  | zero => rfl
  | succ k ih =>
    rw [testBits] at h' ⊢
    split at h'
    · contradiction
    · next hBit =>
      rw [if_neg (hBits _ hBit)]
      exact ih h'

/-- The bits that were set are found set. -/
theorem testBits_setBits (hn : 0 < nbits) (hle : nbits ≤ bits.length * 8) :
    testBits nbits delta k h (setBits nbits delta k h bits) = true := by
  induction k generalizing h bits with
  | zero => rfl
  | succ k ih =>
    have hPos : h.toNat % nbits / 8 < bits.length := by
      have := Nat.mod_lt h.toNat hn
      omega
    rw [testBits, setBits]
    rw [if_neg (setBits_hasBit (hasBit_set hPos))]
    exact ih (by simpa using hle)

end Bits

variable {f : BloomFilter} {key key' : Bytes}

@[simp] theorem insert_length (f : BloomFilter) (key : Bytes) :
    (f.insert key).bits.length = f.bits.length := by
  unfold insert
  simp only
  split <;> simp

@[simp] theorem insert_k (f : BloomFilter) (key : Bytes) : (f.insert key).k = f.k := by
  unfold insert
  simp only
  split <;> rfl

/-- A key that was inserted may be contained. -/
theorem mayContain_insert (h : asU32 (f.bits.length * 8) ≠ 0) :
    (f.insert key).mayContain key = true := by
  rw [mayContain, insert_length, insert_k]
  simp only [insert, h, if_false]
  exact testBits_setBits (Nat.pos_of_ne_zero h) (Nat.mod_le _ _)

theorem mayContain_mono (h : f.mayContain key = true) :
    (f.insert key').mayContain key = true := by
  unfold mayContain at h
  simp only at h
  split at h
  · contradiction
  · next hBits =>
    rw [mayContain, insert_length, insert_k]
    simp only [insert, hBits, if_false]
    exact testBits_of (fun p hp => setBits_hasBit hp) h

/-- A filter whose count of bits does not wrap around to zero has no false negatives. -/
theorem mayContain_foldl {keys : List Bytes} (h : asU32 (f.bits.length * 8) ≠ 0)
    (hKey : key ∈ keys) :
    (keys.foldl insert f).mayContain key = true := by
  have hKeep : ∀ (keys : List Bytes) (f : BloomFilter), f.mayContain key = true →
      (keys.foldl insert f).mayContain key = true := by
    intro keys
    induction keys with
    | nil => exact fun _ h => h
    | cons k keys ih => exact fun f h => ih _ (mayContain_mono h)
  induction keys generalizing f with
  | nil => contradiction
  | cons k keys ih =>
    rcases List.mem_cons.mp hKey with rfl | hMem
    · exact hKeep keys _ (mayContain_insert h)
    · exact ih (by rwa [insert_length]) hMem

theorem fromBytes_finish (h : f.k < 256) : fromBytes f.finish = some f := by
  have hLast : f.finish.getD (f.finish.length - 1) 0 = UInt8.ofNat f.k := by
    simp [finish]
  have hByte : (UInt8.ofNat f.k).toNat = f.k := by
    rw [UInt8.toNat_ofNat']
    exact Nat.mod_eq_of_lt h
  rw [fromBytes, if_neg (by simp [finish]), hLast, hByte]
  simp [finish]

/-- The count of bits that `ensureCapacity` asks for, a whole number of bytes. -/
def bitCount (numKeys bitsPerKey : Nat) : Nat := (max (numKeys * bitsPerKey) 64 + 7) / 8 * 8

section Sized

variable {b numKeys bitsPerKey : Nat} {keys : List Bytes}

theorem new_k_lt (b : Nat) : (new b).k < 256 := by
  have hMost : (new b).k ≤ 30 := Nat.min_le_right _ _
  omega

@[simp] theorem foldl_insert_k (f : BloomFilter) (keys : List Bytes) :
    (keys.foldl insert f).k = f.k := by
  induction keys generalizing f with
  | nil => rfl
  | cons key keys ih => rw [List.foldl_cons, ih, insert_k]

@[simp] theorem foldl_insert_length (f : BloomFilter) (keys : List Bytes) :
    (keys.foldl insert f).bits.length = f.bits.length := by
  induction keys generalizing f with
  | nil => rfl
  | cons key keys ih => rw [List.foldl_cons, ih, insert_length]

theorem ensureCapacity_length (f : BloomFilter) (h : numKeys * bitsPerKey < 2 ^ 64) :
    (f.ensureCapacity numKeys bitsPerKey).bits.length * 8 = bitCount numKeys bitsPerKey := by
  have hFits : asUsize (numKeys * bitsPerKey) = numKeys * bitsPerKey := Nat.mod_eq_of_lt h
  rw [ensureCapacity, List.length_replicate, hFits, bitCount]

/-- A filter whose count of bits wraps around to zero contains nothing. -/
theorem mayContain_of_wrapped (h : asU32 (f.bits.length * 8) = 0) : f.mayContain key = false := by
  rw [mayContain, h]
  rfl

/-- A filter that was sized by `ensureCapacity` has no false negatives, before it is written and
after it is read back, unless its count of bits is a multiple of `2 ^ 32`. -/
theorem no_false_negatives_iff (b numKeys bitsPerKey : Nat) (keys : List Bytes)
    (h : numKeys * bitsPerKey < 2 ^ 64) :
    (∀ key ∈ keys,
      (keys.foldl insert ((new b).ensureCapacity numKeys bitsPerKey)).mayContain key = true ∧
      (fromBytes (keys.foldl insert ((new b).ensureCapacity numKeys bitsPerKey)).finish).map
        (·.mayContain key) = some true) ↔
      keys = [] ∨ ¬ 2 ^ 32 ∣ bitCount numKeys bitsPerKey := by
  have hRead : fromBytes (keys.foldl insert ((new b).ensureCapacity numKeys bitsPerKey)).finish =
      some (keys.foldl insert ((new b).ensureCapacity numKeys bitsPerKey)) := by
    apply fromBytes_finish
    rw [foldl_insert_k]
    exact new_k_lt b
  have hBits : ((new b).ensureCapacity numKeys bitsPerKey).bits.length * 8 =
      bitCount numKeys bitsPerKey := ensureCapacity_length (new b) h
  rw [hRead]
  constructor
  · intro hAll
    by_cases hNil : keys = []
    · exact .inl hNil
    · obtain ⟨key, hKey⟩ := List.exists_mem_of_ne_nil keys hNil
      refine .inr fun hDvd => ?_
      have hWrapped : (keys.foldl insert
          ((new b).ensureCapacity numKeys bitsPerKey)).mayContain key = false := by
        apply mayContain_of_wrapped
        rw [foldl_insert_length, hBits]
        exact Nat.mod_eq_zero_of_dvd hDvd
      rw [(hAll key hKey).1] at hWrapped
      cases hWrapped
  · intro hFit key hKey
    rcases hFit with rfl | hFit
    · cases hKey
    · have hFound : (keys.foldl insert
          ((new b).ensureCapacity numKeys bitsPerKey)).mayContain key = true := by
        apply mayContain_foldl _ hKey
        rw [hBits]
        exact fun hZero => hFit (Nat.dvd_of_mod_eq_zero hZero)
      exact ⟨hFound, congrArg some hFound⟩

/-- A table of a hundred keys, ten bits each, has its keys found. -/
theorem no_false_negatives_small :
    100 * 10 < 2 ^ 64 ∧ ∀ key ∈ [[97], [98]],
      ([[97], [98]].foldl insert ((new 10).ensureCapacity 100 10)).mayContain key = true ∧
      (fromBytes ([[97], [98]].foldl insert ((new 10).ensureCapacity 100 10)).finish).map
        (·.mayContain key) = some true :=
  ⟨by decide, (no_false_negatives_iff 10 100 10 [[97], [98]] (by decide)).mpr (.inr (by decide))⟩

/-- With `2 ^ 29` keys of eight bits each, a key that was inserted is not found. -/
theorem false_negative_at_wrap :
    ¬ ∀ key ∈ [[97]],
      ([[97]].foldl insert ((new 8).ensureCapacity (2 ^ 29) 8)).mayContain key = true ∧
      (fromBytes ([[97]].foldl insert ((new 8).ensureCapacity (2 ^ 29) 8)).finish).map
        (·.mayContain key) = some true := by
  intro hAll
  have hWrapped : ([[97]].foldl insert
      ((new 8).ensureCapacity (2 ^ 29) 8)).mayContain [97] = false := by
    apply mayContain_of_wrapped
    rw [foldl_insert_length, ensureCapacity_length _ (by decide)]
    decide
  rw [(hAll [97] (List.mem_singleton_self _)).1] at hWrapped
  cases hWrapped

end Sized

end BloomFilter

end MulanLsm
