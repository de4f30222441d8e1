import Mathlib.Data.List.Basic
import Mathlib.Order.Lattice
import Mathlib.Order.Nat
import Mathlib.Tactic.Common

/-! The binary search for the end of the part of a list in which a predicate holds.  It halves the
size of the part that it has left to look at; on a list that is not partitioned by the predicate it
returns an index, but not one to rely on.  The same search among numbers, where looking at one may
fail.  And the scan for the number with the highest score. -/

namespace Search

variable {α : Type}

/-- The loop of the search: `size` elements from `base` on are left, and at most `fuel` turns. -/
def partitionLoop (p : α → Bool) (xs : List α) : Nat → Nat → Nat → Nat
  | 0, _, base => base
  | fuel + 1, size, base =>
    if size > 1 then
      let half := size / 2
      let mid := base + half
      let base := if xs[mid]?.any p then mid else base
      partitionLoop p xs fuel (size - half) base
    else base

/-- The number of elements in front of the first that does not satisfy `p`. -/
def partitionPoint (p : α → Bool) (xs : List α) : Nat :=
  if xs = [] then 0
  else
    let base := partitionLoop p xs xs.length xs.length 0
    if xs[base]?.any p then base + 1 else base

/-- `p` holds of the first `n` elements of `xs` and of no others. -/
def Partitioned (p : α → Bool) (xs : List α) (n : Nat) : Prop :=
  ∀ i (hi : i < xs.length), p xs[i] = true ↔ i < n

/-- A list in which `p` holds in front of every element that satisfies it is partitioned by `p`. -/
theorem partitioned_takeWhile {p : α → Bool} {xs : List α}
    (h : xs.Pairwise fun x y => p y = true → p x = true) :
    Partitioned p xs (xs.takeWhile p).length := by
  induction xs with
  | nil => exact fun i hi => absurd hi (Nat.not_lt_zero i)
  | cons x xs ih =>
    obtain ⟨hx, hxs⟩ := List.pairwise_cons.mp h
    intro i hi
    by_cases hp : p x = true
    · rw [List.takeWhile_cons_of_pos hp, List.length_cons]
      cases i with
      | zero => simpa using hp
      | succ i =>
        have := ih hxs i (by simpa using hi)
        simpa using this
    · rw [List.takeWhile_cons_of_neg hp, List.length_nil]
      have hNot : p (x :: xs)[i] ≠ true := by
        cases i with
        | zero => exact hp
        | succ i => exact fun hpi => hp (hx _ (List.getElem_mem _) hpi)
      simp [hNot]

theorem Partitioned.any {p : α → Bool} {xs : List α} {n i : Nat} (h : Partitioned p xs n)
    (hi : i < xs.length) : xs[i]?.any p = true ↔ i < n := by
  rw [List.getElem?_eq_getElem hi]
  exact h i hi

/-- What is left to look at contains the last element that satisfies `p`, if there is one. -/
theorem partitionLoop_spec {p : α → Bool} {xs : List α} {n fuel size base : Nat}
    (h : Partitioned p xs n) (hFuel : size ≤ fuel) (hSize : 0 < size)
    (hRange : base + size ≤ xs.length) (hLow : 0 < base → base < n) (hHigh : n ≤ base + size) :
    let r := partitionLoop p xs fuel size base
    r < xs.length ∧ (0 < r → r < n) ∧ n ≤ r + 1 := by
  induction fuel generalizing size base with
  | zero => omega
  | succ fuel ih =>
    rw [partitionLoop]
    split
    · next hMore =>
      have hMid : base + size / 2 < xs.length := by omega
      have hHolds := h.any hMid
      simp only
      split
      · next hp =>
        have := hHolds.mp hp
        exact ih (by omega) (by omega) (by omega) (fun _ => this) (by omega)
      · next hp =>
        have : ¬base + size / 2 < n := fun h => hp (hHolds.mpr h)
        exact ih (by omega) (by omega) (by omega) hLow (by omega)
    · exact ⟨by omega, hLow, by omega⟩

/-- On a partitioned list the search finds where `p` ends. -/
theorem partitionPoint_eq {p : α → Bool} {xs : List α} {n : Nat} (h : Partitioned p xs n)
    (hn : n ≤ xs.length) : partitionPoint p xs = n := by
  unfold partitionPoint
  split
  · next hNil =>
    subst hNil
    exact (Nat.le_zero.mp hn).symm
  · next hNil =>
    have hPos : 0 < xs.length := List.length_pos_iff.mpr hNil
    obtain ⟨hLt, hLow, hHigh⟩ :=
      partitionLoop_spec h (Nat.le_refl _) hPos (by omega) (by omega) (by omega : n ≤ 0 + xs.length)
    have hHolds := h.any hLt
    simp only
    split
    · next hp =>
      have := hHolds.mp hp
      omega
    · next hp =>
      have : ¬partitionLoop p xs xs.length xs.length 0 < n := fun h => hp (hHolds.mpr h)
      omega

/-- Of pieces in order, the first whose last element satisfies `p` has the first element that
does. -/
theorem find?_flatten {p : α → Bool} {pieces : List (List α)}
    (h : pieces.flatten.Pairwise fun x y => p x = true → p y = true) :
    pieces.flatten.find? p = (pieces.find? fun piece => piece.getLast?.any p).bind (·.find? p) := by
  induction pieces with
  | nil => rfl
  | cons piece pieces ih =>
    rw [List.flatten_cons] at h ⊢
    obtain ⟨hPiece, hRest, -⟩ := List.pairwise_append.mp h
    rw [List.find?_append]
    cases hLast : piece.getLast?.any p with
    | true =>
      rw [List.find?_cons_of_pos (by exact hLast), Option.bind_some]
      obtain ⟨x, hx, hp⟩ := (Option.any_eq_true _ _).mp hLast
      have hSome : (piece.find? p).isSome :=
        List.find?_isSome.mpr ⟨x, List.mem_of_getLast? hx, hp⟩
      obtain ⟨y, hy⟩ := Option.isSome_iff_exists.mp hSome
      rw [hy, Option.some_or]
    | false =>
      rw [List.find?_cons_of_neg (by simp [hLast]), ih hRest]
      have hNone : piece.find? p = none := by
        refine List.find?_eq_none.mpr fun x hx hp => ?_
        rcases List.eq_nil_or_concat' piece with rfl | ⟨init, y, rfl⟩
        · contradiction
        · rw [List.getLast?_concat, Option.any_some] at hLast
          rcases List.mem_append.mp hx with hx | hx
          · have := (List.pairwise_append.mp hPiece).2.2 x hx y (List.mem_singleton_self y) hp
            rw [hLast] at this
            contradiction
          · rw [List.mem_singleton.mp hx, hLast] at hp
            contradiction
      rw [hNone, Option.none_or]

section Bisect

variable {before : Nat → Option Bool} {lo hi n : Nat}

/-- The search between `lo` and `hi` for the first number that `before` does not hold of. -/
def bisect (before : Nat → Option Bool) (lo hi : Nat) : Option Nat :=
  if lo < hi then
    let mid := (lo + hi) / 2
    match before mid with
    | none => none
    | some true => bisect before (mid + 1) hi
    | some false => bisect before lo mid
  else some lo
termination_by hi - lo

/-- The search finds where `before` ends. -/
theorem bisect_eq (before : Nat → Option Bool) (h : ∀ i < hi, before i = some (decide (i < n)))
    (hLow : lo ≤ n) (hHigh : n ≤ hi) :
    bisect before lo hi = some n := by
  fun_induction bisect before lo hi with
  | case1 lo hi hlt mid hMid =>
    rw [h mid (by omega)] at hMid
    contradiction
  | case2 lo hi hlt mid hMid ih =>
    have : mid < n := by simpa [h mid (by omega)] using hMid
    exact ih h (by omega) hHigh
  | case3 lo hi hlt mid hMid ih =>
    have : n ≤ mid := by simpa [h mid (by omega)] using hMid
    exact ih (fun i hi => h i (by omega)) hLow this
  | case4 lo hi hge => rw [show lo = n by omega]

/-- Where every look succeeds, the search does, within its bounds. -/
theorem bisect_isSome (before : Nat → Option Bool) (h : ∀ i < hi, (before i).isSome)
    (hle : lo ≤ hi) :
    ∃ i, bisect before lo hi = some i ∧ i ≤ hi := by
  fun_induction bisect before lo hi with
  | case1 lo hi hlt mid hMid =>
    have := h mid (by omega)
    rw [hMid] at this
    contradiction
  | case2 lo hi hlt mid hMid ih => exact ih h (by omega)
  | case3 lo hi hlt mid hMid ih =>
    obtain ⟨i, hi, hle⟩ := ih (fun i hi => h i (by omega)) (by omega)
    exact ⟨i, hi, by omega⟩
  | case4 lo hi hge => exact ⟨lo, rfl, hle⟩

end Bisect

section Best

variable {β : Type} [LinearOrder β] [Zero β] {score : Nat → Option β} {n a : Nat} {s : β}

/-- The better of the best so far and `a`, which has to have a higher score, and a positive one. -/
def better (score : Nat → Option β) (best : Option (Nat × β)) (a : Nat) : Option (Nat × β) :=
  match score a with
  | none => best
  | some s => if s > 0 ∧ best.all (fun b => s > b.2) then some (a, s) else best

/-- `a` is the first below `n` with the highest score, `s`, and that is positive. -/
structure IsFirstBest (score : Nat → Option β) (n a : Nat) (s : β) : Prop where
  lt : a < n
  eq : score a = some s
  pos : 0 < s
  max : ∀ b < n, ∀ t, score b = some t → t ≤ s ∧ (b < a → t < s)

/-- What `best` is after the numbers below `n`. -/
def BestOf (score : Nat → Option β) (n : Nat) : Option (Nat × β) → Prop
  | none => ∀ b < n, ∀ t, score b = some t → t ≤ 0
  | some (a, s) => IsFirstBest score n a s

theorem IsFirstBest.succ (h : IsFirstBest score n a s) (hn : ∀ t, score n = some t → t ≤ s) :
    IsFirstBest score (n + 1) a s := by
  refine ⟨h.lt.trans (Nat.lt_succ_self n), h.eq, h.pos, Nat.forall_lt_succ_right.mpr ⟨h.max, ?_⟩⟩
  exact fun t ht => ⟨hn t ht, fun hlt => absurd (hlt.trans h.lt) (lt_irrefl n)⟩

theorem isFirstBest_last (hs : score n = some s) (hPos : 0 < s)
    (h : ∀ b < n, ∀ t, score b = some t → t < s) : IsFirstBest score (n + 1) n s := by
  refine ⟨Nat.lt_succ_self n, hs, hPos, Nat.forall_lt_succ_right.mpr ⟨fun b hb t ht => ?_, ?_⟩⟩
  · exact ⟨(h b hb t ht).le, fun _ => h b hb t ht⟩
  · exact fun t ht => ⟨(Option.some.inj (ht.symm.trans hs)).le, fun hlt => absurd hlt (lt_irrefl n)⟩

theorem BestOf.better {best : Option (Nat × β)} (h : BestOf score n best) :
    BestOf score (n + 1) (better score best n) := by
  unfold Search.better
  cases hn : score n with
  | none =>
    have hNone : ∀ {P : β → Prop} t, score n = some t → P t := by
      intro P t ht
      rw [hn] at ht
      contradiction
    cases best with
    | none => exact Nat.forall_lt_succ_right.mpr ⟨h, hNone⟩
    | some b => exact IsFirstBest.succ h hNone
  | some t =>
    have hSome : ∀ {P : β → Prop}, P t → ∀ u, score n = some u → P u := fun hP u hu =>
      Option.some.inj (hn.symm.trans hu) ▸ hP
    cases best with
    | none =>
      by_cases ht : 0 < t
      · simp only [ht, gt_iff_lt, Option.all_none, and_self, if_true]
        exact isFirstBest_last hn ht fun b hb u hu => (h b hb u hu).trans_lt ht
      · simp only [ht, gt_iff_lt, false_and, if_false]
        exact Nat.forall_lt_succ_right.mpr ⟨h, hSome (not_lt.mp ht)⟩
    | some b =>
      obtain ⟨a, s⟩ := b
      replace h : IsFirstBest score n a s := h
      by_cases hst : s < t
      · simp only [hst, h.pos.trans hst, gt_iff_lt, Option.all_some, decide_true, and_self, if_true]
        exact isFirstBest_last hn (h.pos.trans hst) fun b hb u hu =>
          (h.max b hb u hu).1.trans_lt hst
      · simp only [hst, gt_iff_lt, Option.all_some, decide_false, Bool.false_eq_true, and_false,
          if_false]
        exact h.succ (hSome (not_lt.mp hst))

theorem bestOf_foldl (score : Nat → Option β) (n : Nat) :
    BestOf score n ((List.range n).foldl (better score) none) := by
  induction n with
  | zero => exact fun b hb => absurd hb (Nat.not_lt_zero b)
  | succ n ih =>
    rw [List.range_succ, List.foldl_append]
    exact ih.better

/-- The scan of the numbers below `n` finds the first with the highest score. -/
theorem foldl_better_eq_some :
    (List.range n).foldl (better score) none = some (a, s) ↔ IsFirstBest score n a s := by
  have h := bestOf_foldl score n
  constructor
  · intro hBest
    rwa [hBest] at h
  · intro hFirst
    cases hBest : (List.range n).foldl (better score) none with
    | none =>
      rw [hBest] at h
      exact absurd hFirst.pos (not_lt.mpr (h a hFirst.lt s hFirst.eq))
    | some b =>
      obtain ⟨b, t⟩ := b
      rw [hBest] at h
      have ha := IsFirstBest.max h a hFirst.lt s hFirst.eq
      have hb := hFirst.max b (IsFirstBest.lt h) t (IsFirstBest.eq h)
      obtain rfl : s = t := le_antisymm ha.1 hb.1
      obtain rfl : a = b := le_antisymm (not_lt.mp fun hlt => lt_irrefl s (hb.2 hlt))
        (not_lt.mp fun hlt => lt_irrefl s (ha.2 hlt))
      rfl

theorem foldl_better_eq_none :
    (List.range n).foldl (better score) none = none ↔ ∀ b < n, ∀ t, score b = some t → t ≤ 0 := by
  have h := bestOf_foldl score n
  constructor
  · intro hBest
    rwa [hBest] at h
  · intro hNone
    cases hBest : (List.range n).foldl (better score) none with
    | none => rfl
    | some b =>
      rw [hBest] at h
      exact absurd (IsFirstBest.pos h)
        (not_lt.mpr (hNone b.1 (IsFirstBest.lt h) _ (IsFirstBest.eq h)))

end Best

end Search
