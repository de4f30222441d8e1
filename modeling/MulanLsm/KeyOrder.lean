import MulanLsm.KeyBytes
import MulanLsm.LinkedMemTable

/-! The two orders of internal keys: that of the keys, in which a memory table lists its entries,
and that of their bytes, in which tables are searched and merged.  The second does not look at the
type of the write. -/

namespace MulanLsm

/-- Two keys of one version: the same user key with the same sequence number. -/
def SameVersion (a b : InternalKey) : Prop := a.userKey = b.userKey ∧ a.seq = b.seq

instance : DecidableRel SameVersion := fun a b => by unfold SameVersion; infer_instance

section Orders

variable {a b : InternalKey} {xs : List Entry}

theorem SameVersion.symm (h : SameVersion a b) : SameVersion b a := ⟨h.1.symm, h.2.symm⟩

theorem internalKeyCmp_eq : internalKeyCmp a b = .eq ↔ SameVersion a b := by
  constructor
  · intro hEq
    refine KeyLt.total (fun hLt => ?_) fun hGt => ?_
    · rw [internalKeyCmp_lt.mpr hLt] at hEq
      cases hEq
    · rw [internalKeyCmp_gt.mpr hGt] at hEq
      cases hEq
  · rintro ⟨hKey, hSeq⟩
    rw [internalKeyCmp, if_neg (not_not.mpr hKey), hSeq, cmp_self_eq_eq]
    rfl

/-- The order of the keys is that of their bytes, and that of the types behind it. -/
theorem ord_eq_then (a b : InternalKey) :
    a.ord b = (internalKeyCmp a b).then (cmp a.vtype.toU8 b.vtype.toU8) := by
  unfold InternalKey.ord internalKeyCmp
  by_cases hKey : a.userKey = b.userKey
  · rw [if_neg (not_not.mpr hKey), hKey, cmp_bytes_self]
    cases (cmp a.seq b.seq).swap <;> rfl
  · rw [if_pos hKey]
    cases hCmp : cmp a.userKey b.userKey with
    | lt => rfl
    | gt => rfl
    | eq => exact absurd (Std.LawfulEqCmp.eq_of_compare hCmp) hKey

/-- The orders agree on two keys unless these are a put and a deletion of one version. -/
theorem internalKeyCmp_eq_ord :
    internalKeyCmp a b = a.ord b ↔ (SameVersion a b → a.vtype = b.vtype) := by
  rw [ord_eq_then, ← internalKeyCmp_eq]
  have hTypes : .eq = cmp a.vtype.toU8 b.vtype.toU8 ↔ a.vtype = b.vtype := by
    cases a.vtype <;> cases b.vtype <;> decide
  cases internalKeyCmp a b with
  | lt => exact iff_of_true rfl nofun
  | gt => exact iff_of_true rfl nofun
  | eq => exact hTypes.trans ⟨fun h _ => h, fun h => h rfl⟩

theorem KeyLt.not_sameVersion (h : KeyLt a b) : ¬SameVersion a b := by
  rw [← internalKeyCmp_eq, internalKeyCmp_lt.mpr h]
  exact nofun

/-- A sequence in the order of the keys is strictly in the order of their bytes when it has no
version twice. -/
theorem Sorted.pairwise_keyLt (h : Sorted xs) :
    (xs.Pairwise fun x y => KeyLt x.1 y.1) ↔ xs.Pairwise fun x y => ¬SameVersion x.1 y.1 := by
  constructor
  · exact List.Pairwise.imp KeyLt.not_sameVersion
  · intro hVersions
    refine (h.and hVersions).imp fun {x y} hxy => ?_
    by_contra hLt
    exact hxy.2 (KeyLt.total hLt fun hGt => hxy.1 hGt.before)

theorem pairwise_encode (hSeqs : ∀ x ∈ xs, x.1.seq < 2 ^ 64) :
    ((xs.map fun x => x.1.encode).Pairwise fun x y => internalKeyBytesCmp x y = .lt) ↔
      xs.Pairwise fun x y => KeyLt x.1 y.1 := by
  rw [List.pairwise_map]
  refine List.Pairwise.iff_of_mem fun {x y} hx hy => ?_
  rw [internalKeyBytesCmp_encode (hSeqs x hx) (hSeqs y hy), internalKeyCmp_lt]

end Orders

/-- The order of encoded keys is total and transitive.  It is that of the keys, and antisymmetric,
except on a put and a deletion of one version; a memory table lists its entries strictly in it
exactly when no version was written twice. -/
theorem key_orders_agree_iff (a b : InternalKey) (x y z : Bytes) (seq : Nat)
    (ops : List (MemOp × (Nat → Nat))) :
    (a.seq < 2 ^ 64 → b.seq < 2 ^ 64 →
      (internalKeyBytesCmp a.encode b.encode = a.ord b ∧
        internalKeyBytesCmp b.encode a.encode = (internalKeyBytesCmp a.encode b.encode).swap ∧
        (internalKeyBytesCmp a.encode b.encode = .eq → a.encode = b.encode) ↔
          (SameVersion a b → a.vtype = b.vtype))) ∧
    ((internalKeyBytesCmp x y).isLE → (internalKeyBytesCmp y z).isLE →
      (internalKeyBytesCmp x z).isLE) ∧
    ((∀ e ∈ MemOp.entries seq (ops.map Prod.fst), e.1.seq < 2 ^ 64) →
      ∃ m es, MemOp.runAll (.withInitialSequence seq) ops = some m ∧ m.skiplist.iter = some es ∧
        es.Perm (MemOp.entries seq (ops.map Prod.fst)) ∧
        (((es.map fun e => e.1.encode).Pairwise fun x y => internalKeyBytesCmp x y = .lt) ↔
          (MemOp.entries seq (ops.map Prod.fst)).Pairwise fun x y => ¬SameVersion x.1 y.1)) := by
  refine ⟨fun ha hb => ?_, Std.TransCmp.isLE_trans, fun hSeqs => ?_⟩
  · rw [internalKeyBytesCmp_encode ha hb, internalKeyBytesCmp_encode hb ha, internalKeyCmp_swap,
      internalKeyCmp_eq_ord, internalKeyCmp_eq]
    refine ⟨And.left, fun hTypes => ⟨hTypes, rfl, fun hSame => ?_⟩⟩
    rw [InternalKey.encode, InternalKey.encode, hSame.1, hSame.2, hTypes hSame]
  · have hStart : (LinkedMemTable.withInitialSequence seq).Has seq [] :=
      ⟨rfl, [], Skiplist.Holds.new, List.Perm.refl _⟩
    obtain ⟨m, _, hRun, xs, hHas, hPerm⟩ := hStart.runAll ops
    obtain ⟨es, hHolds, hEs⟩ := hHas.skiplist
    rw [List.append_nil] at hPerm
    have hAll : es.Perm (MemOp.entries seq (ops.map Prod.fst)) := hEs.trans hPerm
    have hSorted : Sorted es := hHolds.sorted.imp keyBefore_eq_false.mp
    refine ⟨m, es, hRun, hHolds.iter, hAll, ?_⟩
    rw [pairwise_encode fun e he => hSeqs e (hAll.mem_iff.mp he), hSorted.pairwise_keyLt]
    exact hAll.pairwise_iff fun hxy hyx => hxy hyx.symm

/-- A put and a deletion with one sequence number come one behind the other in the order of the
keys, and neither before the other in the order of the bytes. -/
theorem key_orders_differ :
    ¬(internalKeyBytesCmp ({ userKey := [97], seq := 1, vtype := .put } : InternalKey).encode
        ({ userKey := [97], seq := 1, vtype := .delete } : InternalKey).encode =
      ({ userKey := [97], seq := 1, vtype := .put } : InternalKey).ord
        { userKey := [97], seq := 1, vtype := .delete }) := by
  decide

end MulanLsm
