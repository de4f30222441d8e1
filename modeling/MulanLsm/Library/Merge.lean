import Mathlib.Data.List.Basic
import Mathlib.Data.List.Perm.Basic
import Mathlib.Tactic.Common

/-! Merging ascending sequences.  The merger holds the first element left of each sequence in a
heap; it gives out one that no other comes before, and takes the next of that sequence. -/

namespace Merge

variable {α : Type}

/-- A merger: what is left of each sequence behind its first element, and the first elements, each
with the number of its sequence. -/
structure Merger (α : Type) where
  iters : List (List α)
  heap : List (α × Nat)

/-- The first of the elements that none comes before, and the others. -/
def popMin (lt : α → α → Bool) : List (α × Nat) → Option ((α × Nat) × List (α × Nat))
  | [] => none
  | x :: xs =>
    match popMin lt xs with
    | none => some (x, [])
    | some (y, ys) => if lt y.1 x.1 then some (y, x :: ys) else some (x, xs)

/-- The first elements of sequences that are numbered from `src` on. -/
def heads (src : Nat) : List (List α) → List (α × Nat)
  | [] => []
  | [] :: iters => heads (src + 1) iters
  | (x :: _) :: iters => (x, src) :: heads (src + 1) iters

namespace Merger

def new (iters : List (List α)) : Merger α :=
  { iters := iters.map List.tail, heap := heads 0 iters }

/-- The next element, and the merger after it. -/
def next (lt : α → α → Bool) (m : Merger α) : Option (α × Merger α) :=
  match popMin lt m.heap with
  | none => none
  | some ((x, src), heap) =>
    match m.iters.getD src [] with
    | [] => some (x, { m with heap })
    | y :: ys => some (x, { iters := m.iters.set src ys, heap := heap ++ [(y, src)] })

/-- The elements that a merger gives out, at most `fuel` of them. -/
def drainLoop (lt : α → α → Bool) : Nat → Merger α → List α
  | 0, _ => []
  | fuel + 1, m =>
    match m.next lt with
    | none => []
    | some (x, m) => x :: drainLoop lt fuel m

/-- The next element, which stays. -/
def peek (lt : α → α → Bool) (m : Merger α) : Option α := (popMin lt m.heap).map (·.1.1)

/-- What a merger has left to give out. -/
def left (m : Merger α) : List α := m.heap.map (·.1) ++ m.iters.flatten

/-- All elements that a merger gives out. -/
def drain (lt : α → α → Bool) (m : Merger α) : List α := drainLoop lt m.left.length m

end Merger

variable {lt : α → α → Bool} {x y : α} {src : Nat} {heap rest : List (α × Nat)}

theorem popMin_eq_none (h : popMin lt heap = none) : heap = [] := by
  cases heap with
  | nil => rfl
  | cons x xs =>
    rw [popMin] at h
    split at h
    · contradiction
    · split at h <;> contradiction

theorem popMin_perm (h : popMin lt heap = some ((x, src), rest)) :
    heap.Perm ((x, src) :: rest) := by
  induction heap generalizing x src rest with
  | nil => contradiction
  | cons z zs ih =>
    rw [popMin] at h
    split at h
    · next hNone =>
      obtain ⟨rfl, rfl⟩ := Prod.mk.inj (Option.some.inj h)
      rw [popMin_eq_none hNone]
    · next y ys hSome =>
      have hPerm := ih (x := y.1) hSome
      split at h
      · obtain ⟨rfl, rfl⟩ := Prod.mk.inj (Option.some.inj h)
        exact (hPerm.cons z).trans (List.Perm.swap _ _ _)
      · obtain ⟨rfl, rfl⟩ := Prod.mk.inj (Option.some.inj h)
        exact List.Perm.refl _

/-- What a comparison must satisfy: that `y` does not come before `x` is transitive in `x` and `y`,
and no element comes before one that comes before it. -/
structure Weak (lt : α → α → Bool) : Prop where
  trans : ∀ x y z, lt y x = false → lt z y = false → lt z x = false
  asymm : ∀ x y, lt x y = true → lt y x = false

theorem Weak.irrefl (hlt : Weak lt) (x : α) : lt x x = false := by
  cases h : lt x x with
  | false => rfl
  | true => rw [← h, hlt.asymm x x h]

theorem Weak.comap {β : Type} (hlt : Weak lt) (f : β → α) : Weak fun x y => lt (f x) (f y) :=
  ⟨fun x y z => hlt.trans (f x) (f y) (f z), fun x y => hlt.asymm (f x) (f y)⟩

theorem popMin_le (hlt : Weak lt) (h : popMin lt heap = some ((x, src), rest)) :
    ∀ y ∈ heap, lt y.1 x = false := by
  induction heap generalizing x src rest with
  | nil => contradiction
  | cons z zs ih =>
    rw [popMin] at h
    split at h
    · next hNone =>
      obtain ⟨rfl, rfl⟩ := Prod.mk.inj (Option.some.inj h)
      rw [popMin_eq_none hNone]
      simpa using hlt.irrefl x
    · next y ys hSome =>
      have hLe := ih (x := y.1) hSome
      split at h
      · next hyz =>
        obtain ⟨rfl, rfl⟩ := Prod.mk.inj (Option.some.inj h)
        intro w hw
        rcases List.mem_cons.mp hw with rfl | hw
        · exact hlt.asymm _ _ hyz
        · exact hLe w hw
      · next hyz =>
        obtain ⟨rfl, rfl⟩ := Prod.mk.inj (Option.some.inj h)
        intro w hw
        rcases List.mem_cons.mp hw with rfl | hw
        · exact hlt.irrefl _
        · exact hlt.trans _ _ _ (by simpa using hyz) (hLe w hw)

theorem flatten_set {iters : List (List α)} {ys : List α} (h : iters.getD src [] = y :: ys) :
    iters.flatten.Perm (y :: (iters.set src ys).flatten) := by
  induction iters generalizing src with
  | nil => simp at h
  | cons xs iters ih =>
    cases src with
    | zero =>
      obtain rfl : xs = y :: ys := h
      exact List.Perm.refl _
    | succ src =>
      have hPerm := (ih (by simpa using h)).append_left xs
      exact hPerm.trans List.perm_middle

/-- Every sequence that is not used up has an element in the heap, and each element of the heap
comes with or before what its sequence has left, which is in order. -/
structure InOrder (lt : α → α → Bool) (m : Merger α) : Prop where
  head : ∀ x ∈ m.heap, ∀ z ∈ m.iters.getD x.2 [], lt z x.1 = false
  sorted : ∀ i, (m.iters.getD i []).Pairwise fun x y => lt y x = false
  present : ∀ i, m.iters.getD i [] ≠ [] → ∃ x, (x, i) ∈ m.heap

variable {m m' : Merger α}

theorem next_perm (h : m.next lt = some (x, m')) : m.left.Perm (x :: m'.left) := by
  unfold Merger.next at h
  split at h
  · contradiction
  · next x' src heap hPop =>
    have hPerm := (popMin_perm hPop).map (·.1)
    split at h
    · obtain ⟨rfl, rfl⟩ := Prod.mk.inj (Option.some.inj h)
      exact hPerm.append_right _
    · next y ys hIter =>
      obtain ⟨rfl, rfl⟩ := Prod.mk.inj (Option.some.inj h)
      have hFlat := flatten_set hIter
      refine (hPerm.append hFlat).trans ?_
      simp only [Merger.left, List.map_cons, List.map_append, List.map_nil, List.cons_append,
        List.append_assoc, List.nil_append]
      exact List.Perm.refl _

/-- An element that is given out comes with or before all that are left. -/
theorem next_le (hlt : Weak lt) (hm : InOrder lt m) (h : m.next lt = some (x, m')) :
    ∀ z ∈ m.left, lt z x = false := by
  unfold Merger.next at h
  split at h
  · contradiction
  · next x' src heap hPop =>
    have hLe := popMin_le hlt hPop
    have hx : x' = x := by
      split at h <;> exact (Prod.mk.inj (Option.some.inj h)).1
    subst hx
    intro z hz
    rcases List.mem_append.mp hz with hz | hz
    · obtain ⟨w, hw, rfl⟩ := List.mem_map.mp hz
      exact hLe w hw
    · obtain ⟨iter, hIter, hz⟩ := List.mem_flatten.mp hz
      obtain ⟨i, hi, rfl⟩ := List.getElem_of_mem hIter
      have hGet : m.iters.getD i [] = m.iters[i] := by simp [List.getD, hi]
      obtain ⟨w, hw⟩ := hm.present i (by rw [hGet]; exact List.ne_nil_of_mem hz)
      exact hlt.trans _ _ _ (hLe _ hw) (hm.head _ hw z (by rw [hGet]; exact hz))

theorem getD_set {iters : List (List α)} (ys : List α) (h : iters.getD src [] ≠ []) (i : Nat) :
    (iters.set src ys).getD i [] = if i = src then ys else iters.getD i [] := by
  have hLen : src < iters.length := by
    by_contra hLen
    exact h (by simp [List.getD, List.getElem?_eq_none (Nat.not_lt.mp hLen)])
  by_cases hi : i = src
  · subst hi
    simp [List.getD, hLen]
  · simp [List.getD, List.getElem?_set_ne (Ne.symm hi), hi]

theorem next_inOrder (hm : InOrder lt m) (h : m.next lt = some (x, m')) : InOrder lt m' := by
  unfold Merger.next at h
  split at h
  · contradiction
  · next x' src heap hPop =>
    have hPerm := popMin_perm hPop
    have hMem : ∀ w ∈ heap, w ∈ m.heap := fun w hw => hPerm.mem_iff.mpr (List.mem_cons_of_mem _ hw)
    have hOther : ∀ i w, (w, i) ∈ m.heap → i ≠ src → (w, i) ∈ heap := by
      intro i w hw hi
      rcases List.mem_cons.mp (hPerm.mem_iff.mp hw) with h | h
      · exact absurd (Prod.mk.inj h).2 hi
      · exact h
    split at h
    · next hIter =>
      obtain ⟨rfl, rfl⟩ := Prod.mk.inj (Option.some.inj h)
      refine ⟨fun w hw => hm.head w (hMem w hw), hm.sorted, fun i hi => ?_⟩
      obtain ⟨w, hw⟩ := hm.present i hi
      refine ⟨w, hOther i w hw ?_⟩
      rintro rfl
      exact hi hIter
    · next y ys hIter =>
      obtain ⟨rfl, rfl⟩ := Prod.mk.inj (Option.some.inj h)
      have hSet := getD_set ys (by rw [hIter]; exact List.cons_ne_nil _ _ :
        m.iters.getD src [] ≠ [])
      have hSorted := hm.sorted src
      rw [hIter, List.pairwise_cons] at hSorted
      constructor
      · intro w hw z hz
        rw [hSet] at hz
        rcases List.mem_append.mp hw with hw | hw
        · split at hz
          · next hi =>
            exact hm.head w (hMem w hw) z
              (by rw [hi, hIter]; exact List.mem_cons_of_mem _ hz)
          · exact hm.head w (hMem w hw) z hz
        · obtain rfl := List.mem_singleton.mp hw
          rw [if_pos rfl] at hz
          exact hSorted.1 z hz
      · intro i
        rw [hSet]
        split
        · exact hSorted.2
        · exact hm.sorted i
      · intro i hi
        rw [hSet] at hi
        by_cases hEq : i = src
        · exact ⟨y, by simp [hEq]⟩
        · rw [if_neg hEq] at hi
          obtain ⟨w, hw⟩ := hm.present i hi
          exact ⟨w, List.mem_append_left _ (hOther i w hw hEq)⟩

theorem next_eq_none (hm : InOrder lt m) (h : m.next lt = none) : m.left = [] := by
  unfold Merger.next at h
  split at h
  · next hPop =>
    have hHeap := popMin_eq_none hPop
    have hIters : ∀ iter ∈ m.iters, iter = [] := by
      intro iter hIter
      obtain ⟨i, hi, rfl⟩ := List.getElem_of_mem hIter
      by_contra hne
      obtain ⟨w, hw⟩ := hm.present i (by simpa [List.getD, hi] using hne)
      rw [hHeap] at hw
      contradiction
    rw [Merger.left, hHeap, List.flatten_eq_nil_iff.mpr hIters]
    rfl
  · split at h <;> contradiction

theorem drainLoop_spec {fuel : Nat} (hlt : Weak lt) (hm : InOrder lt m)
    (hFuel : m.left.length ≤ fuel) :
    (Merger.drainLoop lt fuel m).Perm m.left ∧
      (Merger.drainLoop lt fuel m).Pairwise fun x y => lt y x = false := by
  induction fuel generalizing m with
  | zero =>
    rw [List.length_eq_zero_iff.mp (Nat.le_zero.mp hFuel)]
    exact ⟨.nil, .nil⟩
  | succ fuel ih =>
    rw [Merger.drainLoop]
    split
    · next h =>
      rw [next_eq_none hm h]
      exact ⟨.nil, .nil⟩
    · next x m' h =>
      have hPerm := next_perm h
      have hLen := hPerm.length_eq
      rw [List.length_cons] at hLen
      obtain ⟨hRest, hSorted⟩ := ih (next_inOrder hm h) (by omega)
      refine ⟨(hRest.cons x).trans hPerm.symm, List.pairwise_cons.mpr ⟨fun z hz => ?_, hSorted⟩⟩
      exact next_le hlt hm h z (hPerm.mem_iff.mpr (List.mem_cons_of_mem _ (hRest.mem_iff.mp hz)))

theorem mem_heads {iters : List (List α)} {i : Nat} :
    (x, i) ∈ heads src iters ↔ ∃ j ys, iters[j]? = some (x :: ys) ∧ i = src + j := by
  induction iters generalizing src with
  | nil => simp [heads]
  | cons xs iters ih =>
    have hSucc : (∃ j ys, iters[j]? = some (x :: ys) ∧ i = src + 1 + j) ↔
        ∃ j ys, (xs :: iters)[j + 1]? = some (x :: ys) ∧ i = src + (j + 1) := by
      simp only [List.getElem?_cons_succ, Nat.add_assoc, Nat.add_comm 1]
    cases xs with
    | nil =>
      rw [heads, ih, hSucc]
      constructor
      · rintro ⟨j, h⟩
        exact ⟨j + 1, h⟩
      · rintro ⟨j, ys, h, hi⟩
        cases j with
        | zero => simp at h
        | succ j => exact ⟨j, ys, h, hi⟩
    | cons z zs =>
      rw [heads, List.mem_cons, ih, hSucc]
      constructor
      · rintro (h | ⟨j, h⟩)
        · obtain ⟨rfl, rfl⟩ := Prod.mk.inj h
          exact ⟨0, zs, rfl, rfl⟩
        · exact ⟨j + 1, h⟩
      · rintro ⟨j, ys, h, hi⟩
        cases j with
        | zero =>
          obtain ⟨rfl, -⟩ := List.cons.inj (Option.some.inj h)
          exact .inl (by rw [hi, Nat.add_zero])
        | succ j => exact .inr ⟨j, ys, h, hi⟩

theorem heads_perm (src : Nat) (iters : List (List α)) :
    ((heads src iters).map (·.1) ++ (iters.map List.tail).flatten).Perm iters.flatten := by
  induction iters generalizing src with
  | nil => exact .nil
  | cons xs iters ih =>
    cases xs with
    | nil => simpa [heads] using ih (src + 1)
    | cons x xs =>
      simp only [heads, List.map_cons, List.flatten_cons, List.tail_cons, List.cons_append]
      apply List.Perm.cons x
      refine List.Perm.trans ?_ ((ih (src + 1)).append_left xs)
      rw [← List.append_assoc, ← List.append_assoc]
      exact List.perm_append_comm.append_right _

theorem new_inOrder {iters : List (List α)}
    (h : ∀ iter ∈ iters, iter.Pairwise fun x y => lt y x = false) :
    InOrder lt (Merger.new iters) := by
  have hGet : ∀ i, (iters.map List.tail).getD i [] = (iters.getD i []).tail := by
    intro i
    by_cases hi : i < iters.length
    · simp [List.getD, hi]
    · simp [List.getD, hi]
  have hSorted : ∀ i, (iters.getD i []).Pairwise fun x y => lt y x = false := by
    intro i
    by_cases hi : i < iters.length
    · simpa [List.getD, hi] using h _ (List.getElem_mem hi)
    · simp [List.getD, hi]
  constructor
  · rintro ⟨x, i⟩ hx z hz
    obtain ⟨j, ys, hj, hi⟩ := mem_heads.mp hx
    rw [Nat.zero_add] at hi
    subst hi
    have hIter : iters.getD i [] = x :: ys := by simp [List.getD, hj]
    have hPair := hSorted i
    rw [hIter, List.pairwise_cons] at hPair
    simp only [Merger.new] at hz
    rw [hGet, hIter] at hz
    exact hPair.1 z hz
  · intro i
    rw [Merger.new, hGet]
    exact (hSorted i).tail
  · intro i hi
    simp only [Merger.new] at hi
    rw [hGet] at hi
    cases hIter : iters.getD i [] with
    | nil => exact absurd (by rw [hIter]; rfl) hi
    | cons x ys =>
      refine ⟨x, mem_heads.mpr ⟨i, ys, ?_, (Nat.zero_add i).symm⟩⟩
      have hLen : i < iters.length := by
        by_contra hLen
        simp [List.getD, List.getElem?_eq_none (Nat.not_lt.mp hLen)] at hIter
      rw [List.getElem?_eq_getElem hLen]
      simpa [List.getD, hLen] using hIter

/-- Merging sequences that are in order gives all their elements, in order. -/
theorem drain_new {iters : List (List α)} (hlt : Weak lt)
    (h : ∀ iter ∈ iters, iter.Pairwise fun x y => lt y x = false) :
    ((Merger.new iters).drain lt).Perm iters.flatten ∧
      ((Merger.new iters).drain lt).Pairwise fun x y => lt y x = false := by
  obtain ⟨hPerm, hSorted⟩ := drainLoop_spec hlt (new_inOrder h) (Nat.le_refl _)
  exact ⟨hPerm.trans (heads_perm 0 iters), hSorted⟩

theorem drain_of_next (h : m.next lt = some (x, m')) : m.drain lt = x :: m'.drain lt := by
  have hLen := (next_perm h).length_eq
  rw [List.length_cons] at hLen
  rw [Merger.drain, hLen, Merger.drainLoop, h]
  rfl

theorem drain_of_next_none (hm : InOrder lt m) (h : m.next lt = none) : m.drain lt = [] := by
  rw [Merger.drain, next_eq_none hm h]
  rfl

theorem length_drain (hlt : Weak lt) (hm : InOrder lt m) : (m.drain lt).length = m.left.length :=
  (drainLoop_spec hlt hm (Nat.le_refl _)).1.length_eq

/-- The next element is the first that the merger gives out. -/
theorem peek_eq (hm : InOrder lt m) : m.peek lt = (m.drain lt).head? := by
  cases h : m.next lt with
  | none =>
    rw [drain_of_next_none hm h]
    unfold Merger.next at h
    unfold Merger.peek
    split at h
    · next hPop => rw [hPop]; rfl
    · split at h <;> contradiction
  | some r =>
    obtain ⟨x, m'⟩ := r
    rw [drain_of_next h, List.head?_cons]
    unfold Merger.next at h
    unfold Merger.peek
    split at h
    · contradiction
    · next hPop =>
      rw [hPop]
      split at h <;> simp only [Option.some.injEq, Prod.mk.injEq] at h <;>
        simp only [Option.map_some, h.1]

end Merge
