import MulanLsm.Library.Merge
import MulanLsm.InternalKey

/-! Internal keys as bytes, as tables and iterators hold them: their parts and their order. -/

namespace MulanLsm

def userKeyOfInternalKey (bytes : Bytes) : Bytes :=
  if bytes.length < keyFooterLen then bytes else bytes.take (bytes.length - keyFooterLen)

def seqOfInternalKey (bytes : Bytes) : Option Nat :=
  if bytes.length < keyFooterLen then none
  else some (fromLeBytes ((bytes.drop (bytes.length - keyFooterLen)).take 8))

def vtypeOfInternalKey (bytes : Bytes) : Option ValueType :=
  if bytes.length < keyFooterLen then none
  else ValueType.fromU8 (bytes.getD (bytes.length - 1) 0)

/-- The order of encoded keys: by user key, then newest first. -/
def internalKeyBytesCmp (a b : Bytes) : Ordering :=
  if userKeyOfInternalKey a ≠ userKeyOfInternalKey b then
    cmp (userKeyOfInternalKey a) (userKeyOfInternalKey b)
  else (cmp ((seqOfInternalKey a).getD 0) ((seqOfInternalKey b).getD 0)).swap

/-- The key that a reader of `userKey` at `seq` looks for. -/
def lookupKey (userKey : Bytes) (seq : Nat) : Bytes :=
  ({ userKey, seq, vtype := .put } : InternalKey).encode

/-- An entry as a table holds it. -/
def Entry.encode (e : Entry) : Bytes × Bytes := (e.1.encode, e.2)

section Parts

variable {k a b : InternalKey}

theorem InternalKey.not_short (k : InternalKey) : ¬k.encode.length < keyFooterLen := by
  rw [InternalKey.encode_length]
  omega

theorem InternalKey.encode_split (k : InternalKey) : k.encode.length - keyFooterLen =
    k.userKey.length := by
  simp

@[simp] theorem userKeyOf_encode (k : InternalKey) : userKeyOfInternalKey k.encode = k.userKey := by
  rw [userKeyOfInternalKey, if_neg k.not_short, k.encode_split, InternalKey.encode,
    List.append_assoc, List.take_left' rfl]

theorem seqOf_encode (h : k.seq < 2 ^ 64) : seqOfInternalKey k.encode = some k.seq := by
  rw [seqOfInternalKey, if_neg k.not_short, k.encode_split, InternalKey.encode, List.append_assoc,
    List.drop_left' rfl, List.take_left' (toLeBytes_length 8 k.seq),
    fromLeBytes_toLeBytes_of_lt (by rw [show (256 : Nat) ^ 8 = 2 ^ 64 by norm_num]; exact h)]

@[simp] theorem vtypeOf_encode (k : InternalKey) : vtypeOfInternalKey k.encode = some k.vtype := by
  have hLast : k.encode.getD (k.encode.length - 1) 0 = k.vtype.toU8 := by
    rw [InternalKey.encode_length, keyFooterLen, InternalKey.encode,
      List.getD_append_right _ _ _ _ (by simp)]
    simp
  rw [vtypeOfInternalKey, if_neg k.not_short, hLast, ValueType.fromU8_toU8]

/-- The order of the bytes is that of the keys. -/
theorem internalKeyBytesCmp_encode (ha : a.seq < 2 ^ 64) (hb : b.seq < 2 ^ 64) :
    internalKeyBytesCmp a.encode b.encode = internalKeyCmp a b := by
  rw [internalKeyBytesCmp, internalKeyCmp, userKeyOf_encode, userKeyOf_encode, seqOf_encode ha,
    seqOf_encode hb]
  rfl

end Parts

/-- The key whose place in the order is that of the bytes. -/
def keyOf (bytes : Bytes) : InternalKey :=
  { userKey := userKeyOfInternalKey bytes, seq := (seqOfInternalKey bytes).getD 0, vtype := .put }

theorem internalKeyBytesCmp_eq (a b : Bytes) :
    internalKeyBytesCmp a b = internalKeyCmp (keyOf a) (keyOf b) := rfl

instance : Std.TransCmp internalKeyBytesCmp where
  eq_swap {a b} := (internalKeyCmp_swap (keyOf b) (keyOf a)).symm
  isLE_trans hab hbc := by
    rw [internalKeyBytesCmp_eq] at hab hbc ⊢
    exact Std.TransCmp.isLE_trans hab hbc

end MulanLsm
