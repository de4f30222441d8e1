import Mathlib.Data.List.Pairwise
import Mathlib.Order.Compare
import MulanLsm.Basic
import MulanLsm.Library.Versioned

/-! Internal keys: a user key with a sequence number and the type of the write.  A user key's
versions sort newest first. -/

namespace MulanLsm

/-- The largest sequence number of a write; `u64::MAX` is kept for lookups. -/
def maxSequence : Nat := 2 ^ 64 - 2

/-- An internal key ends in eight bytes of sequence number and one of type. -/
def keyFooterLen : Nat := 9

/-- The type of a write: a deletion writes a marker. -/
inductive ValueType
  | put
  | delete
  deriving DecidableEq, Repr

namespace ValueType

def toU8 : ValueType → UInt8
  | put => 0
  | delete => 1

def fromU8 : UInt8 → Option ValueType
  | 0 => some put
  | 1 => some delete
  | _ => none

@[simp] theorem fromU8_toU8 (v : ValueType) : fromU8 v.toU8 = some v := by cases v <;> rfl

end ValueType

structure InternalKey where
  userKey : Bytes
  seq : Nat
  vtype : ValueType
  deriving DecidableEq, Repr

namespace InternalKey

/-- The user key, the sequence number in little-endian order, and the type. -/
def encode (k : InternalKey) : Bytes := k.userKey ++ toLeBytes 8 k.seq ++ [k.vtype.toU8]

def decode (bytes : Bytes) : Result InternalKey :=
  if bytes.length < keyFooterLen then
    .error (.corrupted s!"internal key too short: {bytes.length} bytes")
  else
    let start := bytes.length - keyFooterLen
    let vtypeByte := bytes.getD (bytes.length - 1) 0
    match ValueType.fromU8 vtypeByte with
    | none => .error (.corrupted s!"unknown value type byte: {vtypeByte}")
    | some vtype =>
      .ok { userKey := bytes.take start, seq := fromLeBytes ((bytes.drop start).take 8), vtype }

/-- The order of internal keys (`Ord`): by user key, then newest first, then by type. -/
def ord (a b : InternalKey) : Ordering :=
  match cmp a.userKey b.userKey with
  | .eq =>
    match (cmp a.seq b.seq).swap with
    | .eq => cmp a.vtype.toU8 b.vtype.toU8
    | o => o
  | o => o

@[simp] theorem encode_length (k : InternalKey) :
    k.encode.length = k.userKey.length + keyFooterLen := by
  simp [encode, keyFooterLen]

theorem decode_encode {k : InternalKey} (h : k.seq < 2 ^ 64) : decode k.encode = .ok k := by
  have hStart : k.encode.length - keyFooterLen = k.userKey.length := by simp
  have hLast : k.encode.getD (k.encode.length - 1) 0 = k.vtype.toU8 := by
    rw [encode_length, keyFooterLen, encode, List.getD_append_right _ _ _ _ (by simp)]
    simp
  have hKey : k.encode.take k.userKey.length = k.userKey := by
    rw [encode, List.append_assoc, List.take_left' rfl]
  have hSeq : (k.encode.drop k.userKey.length).take 8 = toLeBytes 8 k.seq := by
    rw [encode, List.append_assoc, List.drop_left' rfl,
      List.take_left' (toLeBytes_length 8 k.seq)]
  rw [decode, if_neg (by rw [encode_length]; omega)]
  simp only [hLast, ValueType.fromU8_toU8, hStart, hKey, hSeq]
  rw [fromLeBytes_toLeBytes_of_lt (by rw [show (256 : Nat) ^ 8 = 2 ^ 64 by norm_num]; exact h)]

end InternalKey

/-- The order of encoded keys (`internal_key_cmp`), on the keys they encode: by user key, then
newest first.  It does not look at the type. -/
def internalKeyCmp (a b : InternalKey) : Ordering :=
  if a.userKey ≠ b.userKey then cmp a.userKey b.userKey
  else (cmp a.seq b.seq).swap

/-- `a` comes strictly before `b` in the order of encoded keys. -/
def KeyLt (a b : InternalKey) : Prop :=
  a.userKey < b.userKey ∨ a.userKey = b.userKey ∧ b.seq < a.seq

instance : DecidableRel KeyLt := fun a b => by unfold KeyLt; infer_instance

theorem cmp_bytes_lt {a b : Bytes} : cmp a b = .lt ↔ a < b := by
  unfold cmp cmpUsing
  by_cases h : a < b <;> by_cases h' : b < a <;> simp [h, h']

theorem cmp_bytes_gt {a b : Bytes} : cmp a b = .gt ↔ b < a := by
  rw [← cmp_swap, Ordering.swap_eq_gt, cmp_bytes_lt]

theorem cmp_bytes_self (a : Bytes) : cmp a a = .eq := by
  unfold cmp cmpUsing
  simp

/-- The order of user keys is a total order. -/
instance : Std.TransCmp (cmp : Bytes → Bytes → Ordering) where
  eq_swap := (cmp_swap _ _).symm
  isLE_trans {a b c} hab hbc := by
    rw [Ordering.isLE_iff_ne_gt, cmp_bytes_gt, not_lt] at hab hbc ⊢
    exact hab.trans hbc

instance : Std.LawfulEqCmp (cmp : Bytes → Bytes → Ordering) where
  compare_self := cmp_bytes_self _
  eq_of_compare {a b} h := by
    refine le_antisymm ?_ ?_
    · rw [← not_lt, ← cmp_bytes_gt, h]
      exact nofun
    · rw [← not_lt, ← cmp_bytes_lt, h]
      exact nofun

theorem internalKeyCmp_lt {a b : InternalKey} : internalKeyCmp a b = .lt ↔ KeyLt a b := by
  unfold internalKeyCmp KeyLt
  by_cases h : a.userKey = b.userKey
  · rw [if_neg (not_not.mpr h), Ordering.swap_eq_lt, cmp_eq_gt_iff]
    simp [h]
  · rw [if_pos h, cmp_bytes_lt]
    simp [h]

theorem KeyLt.trans {a b c : InternalKey} (h : KeyLt a b) (h' : KeyLt b c) : KeyLt a c := by
  rcases h with h | ⟨he, hs⟩ <;> rcases h' with h' | ⟨he', hs'⟩
  · exact .inl (h.trans h')
  · exact .inl (he' ▸ h)
  · exact .inl (he ▸ h')
  · exact .inr ⟨he.trans he', hs'.trans hs⟩

theorem KeyLt.irrefl (a : InternalKey) : ¬KeyLt a a := by
  rintro (h | ⟨-, h⟩)
  · exact lt_irrefl _ h
  · exact lt_irrefl _ h

theorem KeyLt.asymm {a b : InternalKey} (h : KeyLt a b) : ¬KeyLt b a := fun h' =>
  KeyLt.irrefl a (h.trans h')

theorem KeyLt.userKey_le {a b : InternalKey} (h : KeyLt a b) : a.userKey ≤ b.userKey :=
  h.elim le_of_lt fun h => h.1.le

/-- Two keys that neither come before the other agree on the user key and the sequence number. -/
theorem KeyLt.total {a b : InternalKey} (h : ¬KeyLt a b) (h' : ¬KeyLt b a) :
    a.userKey = b.userKey ∧ a.seq = b.seq := by
  simp only [KeyLt, not_or, not_and, not_lt] at h h'
  have hk : a.userKey = b.userKey := le_antisymm h'.1 h.1
  exact ⟨hk, le_antisymm (h.2 hk) (h'.2 hk.symm)⟩

theorem KeyLt.not_trans {a b c : InternalKey} (h : ¬KeyLt b a) (h' : ¬KeyLt c b) : ¬KeyLt c a := by
  intro hca
  by_cases hab : KeyLt a b
  · exact h' (hca.trans hab)
  · obtain ⟨hk, hs⟩ := KeyLt.total hab h
    unfold KeyLt at hca h'
    rw [hk, hs] at hca
    exact h' hca

theorem internalKeyCmp_swap (a b : InternalKey) :
    (internalKeyCmp a b).swap = internalKeyCmp b a := by
  unfold internalKeyCmp
  by_cases h : a.userKey = b.userKey
  · rw [if_neg (not_not.mpr h), if_neg (not_not.mpr h.symm), cmp_swap, cmp_swap]
  · rw [if_pos h, if_pos (Ne.symm h), cmp_swap]

theorem internalKeyCmp_gt {a b : InternalKey} : internalKeyCmp a b = .gt ↔ KeyLt b a := by
  rw [← internalKeyCmp_swap, Ordering.swap_eq_gt, internalKeyCmp_lt]

/-- The order of encoded keys is a total preorder. -/
instance : Std.TransCmp internalKeyCmp where
  eq_swap := (internalKeyCmp_swap _ _).symm
  isLE_trans {a b c} hab hbc := by
    rw [Ordering.isLE_iff_ne_gt, internalKeyCmp_gt] at hab hbc ⊢
    exact KeyLt.not_trans hab hbc

/-- An entry of a table: an internal key and a value. -/
abbrev Entry := InternalKey × Bytes

/-- The value an entry gives its user key: none where the entry is a deletion marker. -/
def Entry.value (e : Entry) : Option Bytes :=
  match e.1.vtype with
  | .put => some e.2
  | .delete => none

instance : Versioned.Version Entry Bytes Bytes where
  key e := e.1.userKey
  seq e := e.1.seq
  value := Entry.value

@[simp] theorem Entry.version_key (e : Entry) : Versioned.Version.key e = e.1.userKey := rfl

@[simp] theorem Entry.version_seq (e : Entry) : Versioned.Version.seq e = e.1.seq := rfl

@[simp] theorem Entry.version_value (e : Entry) : Versioned.Version.value e = e.value := rfl

/-- Entries in strictly ascending order of their keys, as a table holds them. -/
def Ascending (es : List Entry) : Prop := es.Pairwise fun a b => KeyLt a.1 b.1

instance (es : List Entry) : Decidable (Ascending es) := by unfold Ascending; infer_instance

/-- Entries of which none comes before one in front of it. -/
def InOrder (es : List Entry) : Prop := es.Pairwise fun a b => ¬KeyLt b.1 a.1

theorem Ascending.inOrder {es : List Entry} (h : Ascending es) : InOrder es :=
  h.imp fun hab => hab.asymm

/-- The entries of a list, as a set of versions. -/
def versions (es : List Entry) : Set Entry := {e | e ∈ es}

@[simp] theorem mem_versions {e : Entry} {es : List Entry} : e ∈ versions es ↔ e ∈ es := Iff.rfl

theorem Ascending.eq_or {es : List Entry} (h : Ascending es) {x y : Entry} (hx : x ∈ es)
    (hy : y ∈ es) (hne : x ≠ y) : KeyLt x.1 y.1 ∨ KeyLt y.1 x.1 := by
  have : Std.Symm fun a b : Entry => KeyLt a.1 b.1 ∨ KeyLt b.1 a.1 := ⟨fun _ _ => Or.symm⟩
  have hp : es.Pairwise fun a b => KeyLt a.1 b.1 ∨ KeyLt b.1 a.1 := h.imp Or.inl
  exact hp.forall hx hy hne

theorem Ascending.nodup {es : List Entry} (h : Ascending es) : es.Nodup := by
  refine h.imp fun {a b} hab he => ?_
  subst he
  exact KeyLt.irrefl _ hab

/-- Entries in ascending order have distinct sequence numbers for each user key. -/
theorem Ascending.distinct {es : List Entry} (h : Ascending es) :
    Versioned.Distinct (versions es) := by
  have hlt : ∀ {a b : Entry}, KeyLt a.1 b.1 → a.1.userKey = b.1.userKey → a.1.seq ≠ b.1.seq := by
    rintro a b (h | ⟨-, h⟩) hk
    · exact absurd hk h.ne
    · exact h.ne'
  intro x hx y hy hk hs
  by_contra hne
  rcases h.eq_or hx hy hne with h | h
  · exact hlt h hk hs
  · exact hlt h hk.symm hs.symm

end MulanLsm
