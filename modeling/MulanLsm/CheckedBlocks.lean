import MulanLsm.CheckedDecoding
import MulanLsm.Sstable

/-! Blocks, keys and filters, read with the checks that the language makes.  Where the source asks
whether a sum fits or whether a part is there, it gets an answer; where it adds, subtracts or takes
a slice outright, a check can fail on malformed bytes.  In a block none does, but for the search of
a block that has no restart points; in a filter only the count of its bits does. -/

namespace MulanLsm

open Slice

namespace Checks

open Checked

/-- `.ok()` -/
def ok {ε α : Type} (c : Checked ε α) : Checked Unit α := mapError (fun _ => ()) c

def BlockHandle.decode (buf : Bytes) : Checked MulanError (BlockHandle × Nat) := do
  let (offset, n1) ← decodeVarint64 buf
  let (size, n2) ← decodeVarint64 (← sliceFrom buf n1)
  return ({ offset, size }, ← add 64 n1 n2)

section Keys

def lookupKey {ε : Type} (userKey : Bytes) (seq : Nat) : Checked ε Bytes := do
  let _capacity ← add 64 userKey.length keyFooterLen
  return MulanLsm.lookupKey userKey seq

def userKeyOfInternalKey {ε : Type} (bytes : Bytes) : Checked ε Bytes := do
  if bytes.length < keyFooterLen then return bytes
  else slice bytes 0 (← sub bytes.length keyFooterLen)

def seqOfInternalKey (bytes : Bytes) : Checked Unit Nat := do
  if bytes.length < keyFooterLen then throw ()
  else
    let start ← sub bytes.length keyFooterLen
    return fromLeBytes (← slice bytes start (← add 64 start 8))

def vtypeOfInternalKey (bytes : Bytes) : Checked Unit ValueType := do
  if bytes.length < keyFooterLen then throw ()
  else ofOption (ValueType.fromU8 (← index bytes (← sub bytes.length 1)))

def internalKeyCmp {ε : Type} (a b : Bytes) : Checked ε Ordering := do
  let aKey ← userKeyOfInternalKey a
  let bKey ← userKeyOfInternalKey b
  if aKey ≠ bKey then return cmp aKey bKey
  else
    let aSeq := (← attempt (seqOfInternalKey a)).toOption.getD 0
    let bSeq := (← attempt (seqOfInternalKey b)).toOption.getD 0
    return (cmp aSeq bSeq).swap

end Keys

section Parts

variable {ε : Type} {data bytes : Bytes}

theorem ok_lift {α : Type} (r : Except ε α) : ok (lift r) = ofOption r.toOption := by
  cases r <;> rfl

theorem bind_eq_ok {α β : Type} {r : Except ε α} {f : α → Except ε β} {y : β} :
    r >>= f = .ok y ↔ ∃ x, r = .ok x ∧ f x = .ok y := by
  cases r with
  | error e => exact ⟨fun h => (by cases h), fun ⟨_, h, _⟩ => (by cases h)⟩
  | ok x => exact ⟨fun h => ⟨x, rfl, h⟩, fun ⟨_, h, h'⟩ => Except.ok.inj h ▸ h'⟩

theorem BlockHandle.decode_eq (buf : Bytes) :
    BlockHandle.decode buf = lift (MulanLsm.BlockHandle.decode buf) := by
  rw [BlockHandle.decode, MulanLsm.BlockHandle.decode, decodeVarint64_eq]
  apply lift_bind
  rintro ⟨offset, n1⟩ hOffset
  obtain ⟨hn1, hle⟩ := decodeVarint64_le hOffset
  simp only [sliceFrom_of_le hle, pure_eq_lift, lift_ok_bind, decodeVarint64_eq]
  apply lift_bind
  rintro ⟨size, n2⟩ hSize
  obtain ⟨hn2, -⟩ := decodeVarint64_le hSize
  rw [add_of_lt (by omega)]
  rfl

theorem userKeyOfInternalKey_eq (bytes : Bytes) :
    (userKeyOfInternalKey bytes : Checked ε Bytes) =
      lift (.ok (MulanLsm.userKeyOfInternalKey bytes)) := by
  rw [userKeyOfInternalKey, MulanLsm.userKeyOfInternalKey]
  by_cases hShort : bytes.length < keyFooterLen
  · rw [if_pos hShort, if_pos hShort]
    rfl
  · rw [if_neg hShort, if_neg hShort, sub_of_le (Nat.not_lt.mp hShort), pure_eq_lift, lift_ok_bind,
      slice_of_le (Nat.zero_le _) (Nat.sub_le _ _)]
    rfl

theorem seqOfInternalKey_eq (h : bytes.length < 2 ^ 64) :
    seqOfInternalKey bytes = ofOption (MulanLsm.seqOfInternalKey bytes) := by
  rw [seqOfInternalKey, MulanLsm.seqOfInternalKey]
  by_cases hShort : bytes.length < keyFooterLen
  · rw [if_pos hShort, if_pos hShort]
    rfl
  · rw [keyFooterLen] at hShort
    rw [keyFooterLen, if_neg hShort, if_neg hShort, sub_of_le (by omega), pure_eq_lift,
      lift_ok_bind, add_of_lt (by omega), pure_eq_lift, lift_ok_bind, slice_add (by omega)]
    rfl

theorem vtypeOfInternalKey_eq (bytes : Bytes) :
    vtypeOfInternalKey bytes = ofOption (MulanLsm.vtypeOfInternalKey bytes) := by
  rw [vtypeOfInternalKey, MulanLsm.vtypeOfInternalKey]
  by_cases hShort : bytes.length < keyFooterLen
  · rw [if_pos hShort, if_pos hShort]
    rfl
  · rw [keyFooterLen] at hShort
    rw [keyFooterLen, if_neg hShort, if_neg hShort, sub_of_le (by omega), pure_eq_lift,
      lift_ok_bind, index_of_lt (by omega) 0, pure_eq_lift, lift_ok_bind]

theorem internalKeyCmp_eq {a b : Bytes} (ha : a.length < 2 ^ 64) (hb : b.length < 2 ^ 64) :
    (internalKeyCmp a b : Checked ε Ordering) = lift (.ok (internalKeyBytesCmp a b)) := by
  have hSeq : ∀ x : Option Nat, (attempt (ofOption x) : Checked ε (Except Unit Nat)) =
      lift (.ok (x.elim (.error ()) .ok)) := fun _ => rfl
  have hOption : ∀ x : Option Nat,
      (x.elim (.error ()) Except.ok : Except Unit Nat).toOption = x := by
    intro x
    cases x <;> rfl
  rw [internalKeyCmp, internalKeyBytesCmp, userKeyOfInternalKey_eq, lift_ok_bind,
    userKeyOfInternalKey_eq, lift_ok_bind]
  by_cases hKey : MulanLsm.userKeyOfInternalKey a ≠ MulanLsm.userKeyOfInternalKey b
  · rw [if_pos hKey, if_pos hKey]
    rfl
  · rw [if_neg hKey, if_neg hKey, seqOfInternalKey_eq ha, hSeq, lift_ok_bind,
      seqOfInternalKey_eq hb, hSeq, lift_ok_bind, hOption, hOption]
    rfl

end Parts

namespace BloomFilter

/-- The loop of `may_contain`. -/
def testBits {ε : Type} (nbits : Nat) (delta : UInt32) :
    Nat → UInt32 → Bytes → Checked ε Bool
  | 0, _, _ => return true
  | k + 1, h, bits => do
    let bitpos := h.toNat % nbits
    if (← index bits (bitpos / 8)) &&& UInt8.ofNat (← shl 8 1 (bitpos % 8)) = 0 then return false
    else testBits nbits delta k (h + delta) bits

def mayContain {ε : Type} (f : BloomFilter) (key : Bytes) : Checked ε Bool := do
  let nbits := asU32 (← mul 64 f.bits.length 8)
  if nbits = 0 then return false
  else
    let h := MulanLsm.BloomFilter.bloomHash key
    testBits nbits (max (h >>> 17) 1) f.k h f.bits

def fromBytes (data : Bytes) : Checked Unit BloomFilter := do
  if data = [] then throw ()
  else
    let k ← index data (← sub data.length 1)
    return { bits := ← slice data 0 (← sub data.length 1), k := k.toNat }

variable {ε : Type} {f : BloomFilter} {nbits k : Nat} {delta h : UInt32} {bits : Bytes}

theorem testBits_eq (hPos : 0 < nbits) (hLe : nbits ≤ bits.length * 8) :
    (testBits nbits delta k h bits : Checked ε Bool) =
      lift (.ok (MulanLsm.BloomFilter.testBits nbits delta k h bits)) := by
  induction k generalizing h with
  | zero => rfl
  | succ k ih =>
    have hBit : h.toNat % nbits < nbits := Nat.mod_lt _ hPos
    have hMask : 1 <<< (h.toNat % nbits % 8) % 2 ^ 8 = 2 ^ (h.toNat % nbits % 8) := by
      rw [Nat.one_shiftLeft]
      exact Nat.mod_eq_of_lt (Nat.pow_lt_pow_right (by decide) (Nat.mod_lt _ (by decide)))
    rw [testBits, MulanLsm.BloomFilter.testBits]
    simp only [index_of_lt (show h.toNat % nbits / 8 < bits.length by omega) 0,
      shl_of_lt (show h.toNat % nbits % 8 < 8 by omega), pure_eq_lift, lift_ok_bind, hMask, ih]
    split <;> rfl

theorem mayContain_eq (f : BloomFilter) (key : Bytes) :
    (mayContain f key : Checked ε Bool) =
      if f.bits.length * 8 < 2 ^ 64 then lift (.ok (f.mayContain key)) else fail := by
  rw [mayContain, mul, MulanLsm.BloomFilter.mayContain]
  by_cases h : f.bits.length * 8 < 2 ^ 64
  · simp only [if_pos h, pure_eq_lift, lift_ok_bind]
    by_cases hZero : asU32 (f.bits.length * 8) = 0
    · rw [if_pos hZero, if_pos hZero]
    · rw [if_neg hZero, if_neg hZero]
      exact testBits_eq (Nat.pos_of_ne_zero hZero) (Nat.mod_le _ _)
  · rw [if_neg h, if_neg h, fail_bind]

theorem fromBytes_eq (data : Bytes) :
    fromBytes data = ofOption (MulanLsm.BloomFilter.fromBytes data) := by
  rw [fromBytes, MulanLsm.BloomFilter.fromBytes]
  by_cases hNil : data = []
  · rw [if_pos hNil, if_pos hNil]
    rfl
  · have := List.length_pos_iff.mpr hNil
    rw [if_neg hNil, if_neg hNil]
    simp only [sub_of_le (show 1 ≤ data.length by omega), pure_eq_lift, lift_ok_bind,
      index_of_lt (show data.length - 1 < data.length by omega) 0,
      slice_of_le (Nat.zero_le _) (show data.length - 1 ≤ data.length by omega)]
    rfl

end BloomFilter

namespace Block

/-- An order of keys, as the searches are given one. -/
abbrev Cmp := Bytes → Bytes → Checked Unit Ordering

def new (data : Bytes) : Checked MulanError Block := do
  if data.length < 4 then throw (.corrupted "block too short for num_restarts")
  else
    let numRestarts := fromLeBytes (← sliceFrom data (← sub data.length 4))
    let restartsBytes ← mul 64 numRestarts 4
    if data.length < (← add 64 4 restartsBytes) then
      throw (.corrupted s!"block too short for {numRestarts} restarts")
    else
      let restartsOffset ← sub (← sub data.length 4) restartsBytes
      return { data, restartsOffset, numRestarts }

def restartOffset {ε : Type} (b : Block) (i : Nat) : Checked ε Nat := do
  let start ← add 64 b.restartsOffset (← mul 64 i 4)
  return fromLeBytes (← slice b.data start (← add 64 start 4))

/-- `.ok_or_else(..)` -/
def corrupted {α : Type} (msg : String) (x : Option α) : Checked MulanError α :=
  lift (x.elim (.error (.corrupted msg)) .ok)

def entryAt (b : Block) (offset : Nat) : Checked MulanError (Bytes × Bytes × Nat) := do
  let (_, n1) ← decodeVarint32 (← corrupted "entry_at: offset out of bounds"
    (getFrom b.data offset))
  let (nonShared, n2) ← decodeVarint32 (← corrupted "entry_at: non_shared varint out of bounds"
    (getFrom b.data (← add 64 offset n1)))
  let (valueLen, n3) ← decodeVarint32 (← corrupted "entry_at: value_len varint out of bounds"
    (getFrom b.data (← add 64 (← add 64 offset n1) n2)))
  let headerLen ← add 64 (← add 64 n1 n2) n3
  let keyDeltaStart ← corrupted "entry_at: header_len overflow" (checkedAdd offset headerLen)
  let keyDeltaEnd ← corrupted "entry_at: non_shared overflow" (checkedAdd keyDeltaStart nonShared)
  let valueEnd ← corrupted "entry_at: value_len overflow" (checkedAdd keyDeltaEnd valueLen)
  let keyDelta ← corrupted "entry_at: key_delta out of bounds"
    (getRange b.data keyDeltaStart keyDeltaEnd)
  let value ← corrupted "entry_at: value out of bounds" (getRange b.data keyDeltaEnd valueEnd)
  return (keyDelta, value, valueEnd)

def parseEntry (b : Block) (offset : Nat) (lastKey : Bytes) : Checked Unit ParsedEntry := do
  let (shared, n1) ← ok (decodeVarint32 (← ofOption (getFrom b.data offset)))
  let (nonShared, n2) ← ok (decodeVarint32 (← ofOption (getFrom b.data (← add 64 offset n1))))
  let (valueLen, n3) ← ok (decodeVarint32 (← ofOption
    (getFrom b.data (← add 64 (← add 64 offset n1) n2))))
  let headerLen ← add 64 (← add 64 n1 n2) n3
  let keyDeltaStart ← ofOption (checkedAdd offset headerLen)
  let keyDeltaEnd ← ofOption (checkedAdd keyDeltaStart nonShared)
  let valueEnd ← ofOption (checkedAdd keyDeltaEnd valueLen)
  if valueEnd > b.restartsOffset then throw ()
  else
    let keyDelta ← ofOption (getRange b.data keyDeltaStart keyDeltaEnd)
    if shared > lastKey.length then throw ()
    else
      let _capacity ← add 64 shared nonShared
      let key := (← slice lastKey 0 shared) ++ keyDelta
      return { key
               value := ← ofOption (getRange b.data keyDeltaEnd valueEnd)
               nextOffset := valueEnd }

def restartingKeyAt (b : Block) (i : Nat) : Checked Unit Bytes := do
  let offset ← restartOffset b i
  let (keyDelta, _, _) ← ok (entryAt b offset)
  return keyDelta

def valueAtRestart (b : Block) (i : Nat) : Checked Unit Bytes := do
  let offset ← restartOffset b i
  let (_, value, _) ← ok (entryAt b offset)
  return value

/-- The loop over the entries of the searches, for at most `fuel` turns. -/
def scan (b : Block) (target : Bytes) (cmp : Cmp) : Nat → Nat → Bytes → Checked Unit ParsedEntry
  | 0, _, _ => fail
  | fuel + 1, offset, lastKey => do
    let entry ← parseEntry b offset lastKey
    if (← cmp target entry.key) = .gt then
      if b.isPastEntries entry.nextOffset then throw ()
      else scan b target cmp fuel entry.nextOffset entry.key
    else return entry

/-- The loop over the restart points of `lower_bound`, for at most `fuel` turns. -/
def bisect (b : Block) (target : Bytes) (cmp : Cmp) : Nat → Nat → Nat → Checked Unit Nat
  | 0, _, _ => fail
  | fuel + 1, lo, hi => do
    if lo < hi then
      let mid := (← add 64 lo hi) / 2
      let restartKey ← restartingKeyAt b mid
      if (← cmp target restartKey) = .gt then bisect b target cmp fuel (← add 64 mid 1) hi
      else bisect b target cmp fuel lo mid
    else return lo

def lowerBoundEntry (b : Block) (target : Bytes) (cmp : Cmp) : Checked Unit ParsedEntry := do
  let lo ← bisect b target cmp (b.numRestarts + 1) 0 b.numRestarts
  let startRestart := min (lo - 1) (← sub b.numRestarts 1)
  let offset ← restartOffset b startRestart
  let lastKey ← restartingKeyAt b startRestart
  scan b target cmp (b.restartsOffset + 1) offset lastKey

def lowerBound (b : Block) (target : Bytes) (cmp : Cmp) : Checked Unit Bytes := do
  return (← lowerBoundEntry b target cmp).value

def lowerBoundKv (b : Block) (target : Bytes) (cmp : Cmp) : Checked Unit (Bytes × Bytes) := do
  let entry ← lowerBoundEntry b target cmp
  return (entry.key, entry.value)

/-- The loop over the restart points of `get`, for at most `fuel` turns. -/
def getLoop (b : Block) (target : Bytes) (cmp : Cmp) : Nat → Nat → Nat → Checked Unit (Nat ⊕ Nat)
  | 0, _, _ => fail
  | fuel + 1, lo, hi => do
    if lo < hi then
      let mid := (← add 64 lo hi) / 2
      let restartKey ← restartingKeyAt b mid
      match ← cmp target restartKey with
      | .lt => getLoop b target cmp fuel lo mid
      | .eq => return .inl mid
      | .gt => getLoop b target cmp fuel (← add 64 mid 1) hi
    else return .inr lo

def get (b : Block) (target : Bytes) (cmp : Cmp) : Checked Unit Bytes := do
  match ← getLoop b target cmp (b.numRestarts + 1) 0 b.numRestarts with
  | .inl mid => valueAtRestart b mid
  | .inr lo =>
    if lo = 0 then throw ()
    else
      let startRestart ← sub lo 1
      let offset ← restartOffset b startRestart
      let lastKey ← restartingKeyAt b startRestart
      let entry ← scan b target cmp (b.restartsOffset + 1) offset lastKey
      if (← cmp target entry.key) = .eq then return entry.value else throw ()

/-- The entries that `BlockIter` gives from `offset` on, for at most `fuel` turns. -/
def iterFrom {ε : Type} (b : Block) : Nat → Nat → Bytes → Checked ε (List (Bytes × Bytes))
  | 0, _, _ => fail
  | fuel + 1, offset, lastKey => do
    if b.isPastEntries offset then return []
    else
      match ← attempt (parseEntry b offset lastKey) with
      | .error _ => return []
      | .ok entry => return (entry.key, entry.value) ::
          (← iterFrom b fuel entry.nextOffset entry.key)

def iter {ε : Type} (b : Block) : Checked ε (List (Bytes × Bytes)) :=
  iterFrom b (b.restartsOffset + 1) 0 []

variable {ε : Type} {b : Block} {data : Bytes} {i offset : Nat}

/-- What `new` makes: the restart points stand between the entries and their count. -/
structure Parsed (b : Block) : Prop where
  length_lt : b.data.length < 2 ^ 63
  restarts : b.restartsOffset + b.numRestarts * 4 + 4 = b.data.length
  numRestarts_lt : b.numRestarts < 2 ^ 32

theorem fromLeBytes_four {bs : Bytes} (h : bs.length ≤ 4) : fromLeBytes bs < 2 ^ 32 :=
  calc fromLeBytes bs < 256 ^ bs.length := fromLeBytes_lt bs
    _ ≤ 256 ^ 4 := Nat.pow_le_pow_right (by decide) h

theorem new_parsed (hLen : data.length < 2 ^ 63) (h : MulanLsm.Block.new data = .ok b) :
    Parsed b := by
  rw [MulanLsm.Block.new] at h
  split at h
  · cases h
  · simp only at h
    split at h
    · cases h
    · obtain rfl := Except.ok.inj h
      refine ⟨hLen, ?_, fromLeBytes_four ?_⟩
      · simp only
        omega
      · rw [List.length_drop]
        omega

theorem new_eq (hLen : data.length < 2 ^ 63) : new data = lift (MulanLsm.Block.new data) := by
  rw [new, MulanLsm.Block.new]
  by_cases hShort : data.length < 4
  · rw [if_pos hShort, if_pos hShort]
    rfl
  · have hNum : fromLeBytes (data.drop (data.length - 4)) < 2 ^ 32 :=
      fromLeBytes_four (by rw [List.length_drop]; omega)
    rw [if_neg hShort, if_neg hShort]
    simp only [sub_of_le (Nat.not_lt.mp hShort), sliceFrom_of_le (Nat.sub_le data.length 4),
      pure_eq_lift, lift_ok_bind,
      mul_of_lt (show fromLeBytes (data.drop (data.length - 4)) * 4 < 2 ^ 64 by omega),
      add_of_lt (show 4 + fromLeBytes (data.drop (data.length - 4)) * 4 < 2 ^ 64 by omega)]
    by_cases hRestarts : data.length < 4 + fromLeBytes (data.drop (data.length - 4)) * 4
    · rw [if_pos hRestarts, if_pos hRestarts]
      rfl
    · rw [if_neg hRestarts, if_neg hRestarts, sub_of_le (by omega)]
      rfl

theorem restartOffset_eq (h : Parsed b) (hi : i < b.numRestarts) :
    (restartOffset b i : Checked ε Nat) = lift (.ok (b.restartOffset i)) := by
  have hLen := h.length_lt
  have hRestarts := h.restarts
  rw [restartOffset, mul_of_lt (by omega), pure_eq_lift, lift_ok_bind, add_of_lt (by omega),
    pure_eq_lift, lift_ok_bind, add_of_lt (by omega), pure_eq_lift, lift_ok_bind,
    slice_add (by omega)]
  rfl

theorem restartOffset_lt (b : Block) (i : Nat) : b.restartOffset i < 2 ^ 32 :=
  fromLeBytes_four (List.length_take_le _ _)

theorem corrupted_eq {α : Type} (msg : String) (x : Option α) :
    corrupted msg x = lift (x.elim (.error (.corrupted msg)) .ok) := rfl

theorem entryAt_eq (hOffset : offset < 2 ^ 63) :
    entryAt b offset = lift (b.entryAt offset) := by
  rw [entryAt, MulanLsm.Block.entryAt]
  simp only [corrupted_eq, decodeVarint32_eq]
  refine lift_bind fun rest₁ _ => lift_bind ?_
  rintro ⟨_, n1⟩ h₁
  obtain ⟨-, hn1, -⟩ := decodeVarint32_le h₁
  simp only [add_of_lt (show offset + n1 < 2 ^ 64 by omega), pure_eq_lift, lift_ok_bind]
  refine lift_bind fun rest₂ _ => lift_bind ?_
  rintro ⟨nonShared, n2⟩ h₂
  obtain ⟨-, hn2, -⟩ := decodeVarint32_le h₂
  simp only [add_of_lt (show offset + n1 + n2 < 2 ^ 64 by omega), pure_eq_lift, lift_ok_bind]
  refine lift_bind fun rest₃ _ => lift_bind ?_
  rintro ⟨valueLen, n3⟩ h₃
  obtain ⟨-, hn3, -⟩ := decodeVarint32_le h₃
  simp only [add_of_lt (show n1 + n2 < 2 ^ 64 by omega),
    add_of_lt (show n1 + n2 + n3 < 2 ^ 64 by omega), pure_eq_lift, lift_ok_bind]
  refine lift_bind fun keyDeltaStart _ => lift_bind fun keyDeltaEnd _ => ?_
  exact lift_bind fun valueEnd _ => lift_bind fun keyDelta _ => lift_bind fun value _ => rfl

theorem parseEntry_eq (hOffset : offset < 2 ^ 63) (lastKey : Bytes) :
    parseEntry b offset lastKey = ofOption (b.parseEntry offset lastKey) := by
  rw [parseEntry, MulanLsm.Block.parseEntry]
  simp only [decodeVarint32_eq, ok_lift]
  refine ofOption_bind fun rest₁ _ => ofOption_bind ?_
  rintro ⟨shared, n1⟩ h₁
  obtain ⟨hShared, hn1, -⟩ := decodeVarint32_le (eq_ok_of_toOption h₁)
  simp only [add_of_lt (show offset + n1 < 2 ^ 64 by omega), pure_eq_lift, lift_ok_bind]
  refine ofOption_bind fun rest₂ _ => ofOption_bind ?_
  rintro ⟨nonShared, n2⟩ h₂
  obtain ⟨hNonShared, hn2, -⟩ := decodeVarint32_le (eq_ok_of_toOption h₂)
  simp only [add_of_lt (show offset + n1 + n2 < 2 ^ 64 by omega), pure_eq_lift, lift_ok_bind]
  refine ofOption_bind fun rest₃ _ => ofOption_bind ?_
  rintro ⟨valueLen, n3⟩ h₃
  obtain ⟨-, hn3, -⟩ := decodeVarint32_le (eq_ok_of_toOption h₃)
  simp only [add_of_lt (show n1 + n2 < 2 ^ 64 by omega),
    add_of_lt (show n1 + n2 + n3 < 2 ^ 64 by omega), pure_eq_lift, lift_ok_bind]
  refine ofOption_bind fun keyDeltaStart _ => ofOption_bind fun keyDeltaEnd _ =>
    ofOption_bind fun valueEnd _ => ?_
  by_cases hEnd : valueEnd > b.restartsOffset
  · rw [if_pos hEnd, if_pos hEnd]
    rfl
  · rw [if_neg hEnd, if_neg hEnd]
    refine ofOption_bind fun keyDelta _ => ?_
    by_cases hLast : shared > lastKey.length
    · rw [if_pos hLast, if_pos hLast]
      rfl
    · rw [if_neg hLast, if_neg hLast, add_of_lt (by omega), pure_eq_lift, lift_ok_bind,
        slice_of_le (Nat.zero_le _) (Nat.le_of_not_gt hLast)]
      exact ofOption_bind fun value _ => rfl

theorem restartingKeyAt_eq (h : Parsed b) (hi : i < b.numRestarts) :
    restartingKeyAt b i = ofOption (b.restartingKeyAt i) := by
  have hOffset := restartOffset_lt b i
  rw [restartingKeyAt, MulanLsm.Block.restartingKeyAt, restartOffset_eq h hi, lift_ok_bind,
    entryAt_eq (by omega), ok_lift]
  cases b.entryAt (b.restartOffset i) <;> rfl

theorem valueAtRestart_eq (h : Parsed b) (hi : i < b.numRestarts) :
    valueAtRestart b i = ofOption (b.valueAtRestart i) := by
  have hOffset := restartOffset_lt b i
  rw [valueAtRestart, MulanLsm.Block.valueAtRestart, restartOffset_eq h hi, lift_ok_bind,
    entryAt_eq (by omega), ok_lift]
  cases b.entryAt (b.restartOffset i) <;> rfl

theorem getRange_length {α : Type} {xs ys : List α} {i j : Nat} (h : getRange xs i j = some ys) :
    ys.length ≤ xs.length := by
  rw [getRange] at h
  split at h
  · obtain rfl := Option.some.inj h
    rw [List.length_take, List.length_drop]
    omega
  · cases h

/-- The key of an entry fits a word, and the next entry does not stand behind the restart points. -/
theorem parseEntry_bounds {lastKey : Bytes} {e : ParsedEntry} (hLen : b.data.length < 2 ^ 63)
    (h : b.parseEntry offset lastKey = some e) :
    e.key.length < 2 ^ 64 ∧ e.nextOffset ≤ b.restartsOffset := by
  obtain ⟨_, _, _, _, _, _, hDecode, -, hEnd, hDelta, hKey⟩ := MulanLsm.Block.parseEntry_eq_some h
  have hShared := (decodeVarint32_le (eq_ok_of_toOption hDecode)).1
  have hLength := getRange_length hDelta
  refine ⟨?_, hEnd⟩
  rw [hKey, List.length_append, List.length_take]
  omega

theorem entryAt_length {e : Bytes × Bytes × Nat} (h : b.entryAt offset = .ok e) :
    e.1.length ≤ b.data.length := by
  have hElim : ∀ {α : Type} {msg : String} {x : Option α} {a : α},
      (x.elim (.error (.corrupted msg)) .ok : Result α) = .ok a → x = some a := by
    rintro α msg (_ | _) a hx
    · cases hx
    · exact congrArg some (Except.ok.inj hx)
  simp only [MulanLsm.Block.entryAt, bind_eq_ok] at h
  obtain ⟨_, -, _, -, _, -, _, -, _, -, _, -, _, -, _, -, _, -, keyDelta, hDelta, _, -, h⟩ := h
  obtain rfl := Except.ok.inj h
  exact getRange_length (hElim hDelta)

theorem restartingKeyAt_length {key : Bytes} (hLen : b.data.length < 2 ^ 63)
    (h : b.restartingKeyAt i = some key) : key.length < 2 ^ 64 := by
  rw [MulanLsm.Block.restartingKeyAt] at h
  obtain ⟨e, hEntry, rfl⟩ := Option.map_eq_some_iff.mp h
  have := entryAt_length (eq_ok_of_toOption hEntry)
  omega

theorem scan_key_length {before : Bytes → Bool} {lastKey : Bytes} {e : ParsedEntry}
    (hLen : b.data.length < 2 ^ 63) (h : b.scan before offset lastKey = some e) :
    e.key.length < 2 ^ 64 := by
  fun_induction MulanLsm.Block.scan b before offset lastKey with
  | case1 => cases h
  | case2 => cases h
  | case3 offset lastKey entry hParse hBefore hPast ih => exact ih h
  | case4 offset lastKey entry hParse hBefore =>
    obtain rfl := Option.some.inj h
    exact (parseEntry_bounds hLen hParse).1

section Searching

variable {cmp : Cmp} {cmp' : Bytes → Bytes → Ordering} {target lastKey : Bytes}

theorem scan_eq (hcmp : ∀ key, key.length < 2 ^ 64 → cmp target key = lift (.ok (cmp' target key)))
    (h : Parsed b) {fuel : Nat} (hOffset : offset < 2 ^ 63)
    (hFuel : b.restartsOffset - offset < fuel) :
    scan b target cmp fuel offset lastKey =
      ofOption (b.scan (fun key => cmp' target key == .gt) offset lastKey) := by
  induction fuel generalizing offset lastKey with
  | zero => omega
  | succ fuel ih =>
    rw [scan, MulanLsm.Block.scan, parseEntry_eq hOffset]
    cases hParse : b.parseEntry offset lastKey with
    | none => rfl
    | some entry =>
      obtain ⟨hKey, hNext⟩ := parseEntry_bounds h.length_lt hParse
      have hLt := MulanLsm.Block.lt_of_parseEntry hParse
      have hLen := h.length_lt
      have hRestarts := h.restarts
      simp only [ofOption_some, lift_ok_bind, hcmp entry.key hKey, beq_iff_eq]
      by_cases hGt : cmp' target entry.key = .gt
      · rw [if_pos hGt, if_pos hGt]
        by_cases hPast : b.isPastEntries entry.nextOffset
        · rw [if_pos hPast, dif_pos hPast]
          rfl
        · have hBefore : entry.nextOffset < b.restartsOffset := by
            simpa [MulanLsm.Block.isPastEntries] using hPast
          rw [if_neg hPast, dif_neg hPast]
          exact ih (by omega) (by omega)
      · rw [if_neg hGt, if_neg hGt]
        rfl

theorem bisect_eq (hcmp : ∀ key, key.length < 2 ^ 64 →
    cmp target key = lift (.ok (cmp' target key)))
    (h : Parsed b) {fuel lo hi : Nat} (hHi : hi ≤ b.numRestarts) (hFuel : hi - lo < fuel) :
    bisect b target cmp fuel lo hi = ofOption (Search.bisect
      (fun mid => (b.restartingKeyAt mid).map fun key => cmp' target key == .gt) lo hi) := by
  induction fuel generalizing lo hi with
  | zero => omega
  | succ fuel ih =>
    have hNum := h.numRestarts_lt
    rw [bisect, Search.bisect]
    by_cases hMore : lo < hi
    · rw [if_pos hMore, if_pos hMore, add_of_lt (by omega), pure_eq_lift, lift_ok_bind]
      simp only [restartingKeyAt_eq h (show (lo + hi) / 2 < b.numRestarts by omega)]
      cases hKey : b.restartingKeyAt ((lo + hi) / 2) with
      | none => rfl
      | some key =>
        simp only [ofOption_some, lift_ok_bind, hcmp key (restartingKeyAt_length h.length_lt hKey),
          Option.map_some]
        by_cases hGt : cmp' target key = .gt
        · simp only [add_of_lt (show (lo + hi) / 2 + 1 < 2 ^ 64 by omega),
            pure_eq_lift, lift_ok_bind, hGt, beq_self_eq_true]
          exact ih hHi (by omega)
        · have hNot : (cmp' target key == .gt) = false := by simpa using hGt
          simp only [if_neg hGt, hNot]
          exact ih (by omega) (by omega)
    · rw [if_neg hMore, if_neg hMore]
      rfl

/-- The search for a lower bound needs a restart point. -/
theorem lowerBoundEntry_eq
    (hcmp : ∀ key, key.length < 2 ^ 64 → cmp target key = lift (.ok (cmp' target key)))
    (h : Parsed b) :
    lowerBoundEntry b target cmp =
      if 0 < b.numRestarts then ofOption (b.lowerBoundEntry target cmp') else fail := by
  rw [lowerBoundEntry, bisect_eq hcmp h (Nat.le_refl _) (by omega)]
  by_cases hPos : 0 < b.numRestarts
  · rw [if_pos hPos, MulanLsm.Block.lowerBoundEntry]
    refine ofOption_bind fun lo hLo => ?_
    have hStart : min (lo - 1) (b.numRestarts - 1) < b.numRestarts := by omega
    have hOffset := restartOffset_lt b (min (lo - 1) (b.numRestarts - 1))
    simp only [sub_of_le (show 1 ≤ b.numRestarts from hPos), pure_eq_lift, lift_ok_bind,
      restartOffset_eq h hStart, restartingKeyAt_eq h hStart]
    refine ofOption_bind fun lastKey _ => ?_
    exact scan_eq hcmp h (by omega) (by omega)
  · obtain hZero : b.numRestarts = 0 := by omega
    rw [if_neg hPos, hZero, Search.bisect, if_neg (Nat.lt_irrefl 0)]
    rfl

theorem getLoop_eq (hcmp : ∀ key, key.length < 2 ^ 64 →
    cmp target key = lift (.ok (cmp' target key)))
    (h : Parsed b) {fuel lo hi : Nat} (hHi : hi ≤ b.numRestarts) (hFuel : hi - lo < fuel) :
    getLoop b target cmp fuel lo hi = ofOption (b.getLoop target cmp' lo hi) := by
  induction fuel generalizing lo hi with
  | zero => omega
  | succ fuel ih =>
    have hNum := h.numRestarts_lt
    rw [getLoop, MulanLsm.Block.getLoop]
    by_cases hMore : lo < hi
    · rw [if_pos hMore, if_pos hMore, add_of_lt (by omega), pure_eq_lift, lift_ok_bind]
      simp only [restartingKeyAt_eq h (show (lo + hi) / 2 < b.numRestarts by omega)]
      cases hKey : b.restartingKeyAt ((lo + hi) / 2) with
      | none => rfl
      | some key =>
        simp only [ofOption_some, lift_ok_bind, hcmp key (restartingKeyAt_length h.length_lt hKey)]
        cases cmp' target key with
        | lt => exact ih (by omega) (by omega)
        | eq => rfl
        | gt =>
          simp only [add_of_lt (show (lo + hi) / 2 + 1 < 2 ^ 64 by omega), pure_eq_lift,
            lift_ok_bind]
          exact ih hHi (by omega)
    · rw [if_neg hMore, if_neg hMore]
      rfl

/-- Where the loop of `get` ends is a restart point, or behind one. -/
theorem getLoop_bounds {lo hi : Nat} {r : Nat ⊕ Nat} (hLe : lo ≤ hi)
    (h : b.getLoop target cmp' lo hi = some r) : r.elim (· < hi) (· ≤ hi) := by
  fun_induction MulanLsm.Block.getLoop b target cmp' lo hi with
  | case1 lo hi hlt mid hMid => cases h
  | case2 lo hi hlt mid key hMid hCmp ih =>
    have := ih (by omega) h
    cases r <;> simp only [Sum.elim_inl, Sum.elim_inr] at this ⊢ <;> omega
  | case3 lo hi hlt mid key hMid hCmp =>
    obtain rfl := Option.some.inj h
    show mid < hi
    omega
  | case4 lo hi hlt mid key hMid hCmp ih => exact ih (by omega) h
  | case5 lo hi hge =>
    obtain rfl := Option.some.inj h
    exact hLe

/-- A lookup needs no restart point. -/
theorem get_eq (hcmp : ∀ key, key.length < 2 ^ 64 → cmp target key = lift (.ok (cmp' target key)))
    (h : Parsed b) : get b target cmp = ofOption (b.get target cmp') := by
  rw [get, MulanLsm.Block.get, getLoop_eq hcmp h (Nat.le_refl _) (by omega)]
  refine ofOption_bind fun r hr => ?_
  have hBounds := getLoop_bounds (Nat.zero_le _) hr
  cases r with
  | inl mid => exact valueAtRestart_eq h hBounds
  | inr lo =>
    by_cases hZero : lo = 0
    · simp only [if_pos hZero]
      rfl
    · have hStart : lo - 1 < b.numRestarts := by
        simp only [Sum.elim_inr] at hBounds
        omega
      have hOffset := restartOffset_lt b (lo - 1)
      simp only [if_neg hZero, sub_of_le (show 1 ≤ lo by omega), pure_eq_lift, lift_ok_bind,
        restartOffset_eq h hStart, restartingKeyAt_eq h hStart]
      refine ofOption_bind fun lastKey _ => ?_
      rw [scan_eq hcmp h (by omega) (by omega)]
      refine ofOption_bind fun entry hEntry => ?_
      rw [hcmp entry.key (scan_key_length h.length_lt hEntry), lift_ok_bind]
      split <;> rfl

end Searching

theorem iterFrom_eq (h : Parsed b) {fuel : Nat} {lastKey : Bytes} (hOffset : offset < 2 ^ 63)
    (hFuel : b.restartsOffset - offset < fuel) :
    (iterFrom b fuel offset lastKey : Checked ε (List (Bytes × Bytes))) =
      lift (.ok (b.iterFrom offset lastKey)) := by
  induction fuel generalizing offset lastKey with
  | zero => omega
  | succ fuel ih =>
    rw [iterFrom, MulanLsm.Block.iterFrom]
    by_cases hPast : b.isPastEntries offset
    · rw [if_pos hPast, dif_pos hPast]
      rfl
    · rw [if_neg hPast, dif_neg hPast, parseEntry_eq hOffset]
      cases hParse : b.parseEntry offset lastKey with
      | none => rfl
      | some entry =>
        have hNext := (parseEntry_bounds h.length_lt hParse).2
        have hLt := MulanLsm.Block.lt_of_parseEntry hParse
        have hLen := h.length_lt
        have hRestarts := h.restarts
        have hBefore : offset < b.restartsOffset := by
          simpa [MulanLsm.Block.isPastEntries] using hPast
        simp only [ofOption_some, attempt_lift, lift_ok_bind,
          ih (show entry.nextOffset < 2 ^ 63 by omega)
            (show b.restartsOffset - entry.nextOffset < fuel by omega)]
        rfl

theorem iter_eq (h : Parsed b) :
    (iter b : Checked ε (List (Bytes × Bytes))) = lift (.ok b.iter) :=
  iterFrom_eq h (by decide) (by omega)

end Block

end Checks

end MulanLsm
