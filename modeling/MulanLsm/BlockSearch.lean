import MulanLsm.Block
import MulanLsm.KeyBytes

/-! Searches in a block against searches in its entries, for whatever order the entries are in. -/

namespace MulanLsm

namespace Block

open BlockBuilder

/-- In ascending entries, the keys that come before a target are in front. -/
theorem before_of_ascending {cmp : Bytes → Bytes → Ordering} [Std.TransCmp cmp]
    {es : List (Bytes × Bytes)} (hAsc : es.Pairwise fun x y => cmp x.1 y.1 = .lt) (target : Bytes) :
    es.Pairwise fun x y => cmp target y.1 ≠ .lt → cmp target x.1 = .gt := by
  refine hAsc.imp fun {x y} hxy hTarget => ?_
  rw [Std.OrientedCmp.gt_iff_lt]
  have hLe : (cmp y.1 target).isLE :=
    Std.OrientedCmp.isGE_iff_isLE.mp (Ordering.isGE_iff_ne_lt.mpr hTarget)
  exact Std.TransCmp.lt_of_lt_of_isLE hxy hLe

/-- Looking in a block for the first key from a target on finds the first such entry, and its
value. -/
theorem lowerBound_linear (cmp : Bytes → Bytes → Ordering) [Std.TransCmp cmp]
    (es : List (Bytes × Bytes)) (hAsc : es.Pairwise fun x y => cmp x.1 y.1 = .lt)
    (hSmall : (of es).finish.length < 2 ^ 32) :
    ∃ b, Block.new (of es).finish = .ok b ∧ ∀ target,
      b.lowerBoundKv target cmp = es.find? (fun e => (cmp e.1 target).isGE) ∧
      b.lowerBound target cmp = (es.find? fun e => (cmp e.1 target).isGE).map (·.2) := by
  obtain ⟨b, hNew, hContains⟩ := new_finish hSmall
  refine ⟨b, hNew, fun target => ?_⟩
  have hFirst : (fun e : Bytes × Bytes => (cmp e.1 target).isGE) =
      fun e => !(cmp target e.1 == .gt) := by
    funext e
    have hSwap : cmp e.1 target = (cmp target e.1).swap := Std.OrientedCmp.eq_swap
    rw [hSwap]
    cases cmp target e.1 <;> rfl
  have hKv : b.lowerBoundKv target cmp = es.find? (fun e => (cmp e.1 target).isGE) := by
    rw [hFirst]
    refine hContains.lowerBoundEntry ((before_of_ascending hAsc target).imp fun h hGt => ?_)
    exact h (by rw [hGt]; exact nofun)
  refine ⟨hKv, ?_⟩
  rw [← hKv, lowerBound, lowerBoundKv, Option.map_map]
  rfl

/-- The entries of two versions of one key, in a block. -/
theorem lowerBound_linear_versions :
    ∃ b, Block.new (of [([97, 2, 0, 0, 0, 0, 0, 0, 0, 1], []),
        ([97, 1, 0, 0, 0, 0, 0, 0, 0, 0], [120])]).finish = .ok b ∧ ∀ target,
      b.lowerBoundKv target internalKeyBytesCmp =
        [([97, 2, 0, 0, 0, 0, 0, 0, 0, 1], []), ([97, 1, 0, 0, 0, 0, 0, 0, 0, 0], [120])].find?
          (fun e => (internalKeyBytesCmp e.1 target).isGE) ∧
      b.lowerBound target internalKeyBytesCmp =
        ([([97, 2, 0, 0, 0, 0, 0, 0, 0, 1], []), ([97, 1, 0, 0, 0, 0, 0, 0, 0, 0], [120])].find?
          fun e => (internalKeyBytesCmp e.1 target).isGE).map (·.2) :=
  lowerBound_linear internalKeyBytesCmp _ (by decide) (by decide)

/-- Looking for the empty key in a block without entries finds an empty value: what is read is the
array of the restart points, behind the entries. -/
theorem Contains.get_nil {b : Block} (h : b.Contains []) {cmp : Bytes → Bytes → Ordering}
    [Std.LawfulEqCmp cmp] (target : Bytes) :
    b.get target cmp = if target = [] then some [] else none := by
  have hNum : b.numRestarts = 1 := h.numRestarts
  obtain ⟨hOff, hKey, hParse⟩ := h.nil [] 0 (by omega)
  have hFirst : b.valueAtRestart 0 = some [] := by
    obtain ⟨data, off, num⟩ := b
    obtain ⟨rfl, rfl, rfl, -⟩ := h
    rfl
  have hEmpty : ∀ i, b.getLoop target cmp i i = some (.inr i) := fun i => by
    rw [Block.getLoop, if_neg (Nat.lt_irrefl i)]
  rw [Block.get, hNum, Block.getLoop, if_pos Nat.one_pos]
  simp only [Nat.zero_add, Nat.reduceDiv, hKey]
  by_cases hTarget : target = []
  · have hSelf : cmp [] [] = .eq := Std.ReflCmp.compare_self
    simpa [hTarget, hSelf] using hFirst
  · rw [if_neg hTarget]
    cases hCmp : cmp target [] with
    | lt =>
      simp only [hEmpty]
      rfl
    | eq => exact absurd (Std.LawfulEqCmp.eq_of_compare hCmp) hTarget
    | gt =>
      simp only [hEmpty, Option.bind_eq_bind, Option.bind_some, Nat.sub_self, hKey, hOff]
      rw [Block.scan, hParse]
      rfl

/-- Looking for a key in a block finds the value of the entry with the key, or nothing, exactly when
the block has entries or the key is not empty. -/
theorem get_linear_iff (cmp : Bytes → Bytes → Ordering) [Std.TransCmp cmp] [Std.LawfulEqCmp cmp]
    (es : List (Bytes × Bytes)) (hAsc : es.Pairwise fun x y => cmp x.1 y.1 = .lt)
    (hSmall : (of es).finish.length < 2 ^ 32) (target : Bytes) :
    ∃ b, Block.new (of es).finish = .ok b ∧
      (b.get target cmp = (es.find? fun e => e.1 = target).map (·.2) ↔ es ≠ [] ∨ target ≠ []) := by
  obtain ⟨b, hNew, hContains⟩ := new_finish hSmall
  refine ⟨b, hNew, ?_⟩
  by_cases hNil : es = []
  · subst hNil
    rw [hContains.get_nil]
    by_cases hTarget : target = [] <;> simp [hTarget]
  · have hEqual : (fun e : Bytes × Bytes => cmp target e.1 == .eq) =
        fun e => decide (e.1 = target) := by
      funext e
      rw [Bool.eq_iff_iff, beq_iff_eq, decide_eq_true_iff, Std.LawfulEqCmp.compare_eq_iff_eq]
      exact eq_comm
    rw [hContains.get hNil (before_of_ascending hAsc target), hEqual]
    exact iff_of_true rfl (.inl hNil)

/-- Two keys in the order of their bytes. -/
theorem get_linear_two :
    ∃ b, Block.new (of [([97], [1]), ([97, 98], [2])]).finish = .ok b ∧
      (b.get [97, 98] cmp =
        ([([97], [1]), ([97, 98], [2])].find? fun e => e.1 = [97, 98]).map (·.2) ↔
          [(([97] : Bytes), ([1] : Bytes)), ([97, 98], [2])] ≠ [] ∨ ([97, 98] : Bytes) ≠ []) :=
  get_linear_iff cmp _ (by decide) (by decide) _

/-- The empty key is not in a block without entries, and is found there. -/
theorem get_empty_block :
    ¬∃ b, Block.new (of []).finish = .ok b ∧
      b.get [] cmp = (([] : List (Bytes × Bytes)).find? fun e => e.1 = []).map (·.2) := by
  rintro ⟨b, hNew, hGet⟩
  have hSmall : (of []).finish.length < 2 ^ 32 := by decide
  obtain ⟨b', hNew', hContains⟩ := new_finish hSmall
  obtain rfl : b' = b := Except.ok.inj (hNew'.symm.trans hNew)
  rw [hContains.get_nil, if_pos rfl] at hGet
  cases hGet

end Block

end MulanLsm
