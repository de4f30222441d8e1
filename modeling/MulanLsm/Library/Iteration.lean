import Mathlib.Data.List.Basic
import Mathlib.Logic.Function.Iterate

/-! Iterators: a state with a call for its next element, which may give none.  An iterator may also
show an element without going on; it previews the next call when that is what the call returns, and
it shows none exactly when no later call returns any. -/

namespace Iteration

variable {σ α : Type} (next : σ → Option α × σ)

/-- The state after `n` calls. -/
def after (n : Nat) (s : σ) : σ := (fun s => (next s).2)^[n] s

/-- The calls return these elements, and then none. -/
inductive Yields : σ → List α → Prop
  | done {s : σ} (h : (next s).1 = none) : Yields s []
  | more {s s' : σ} {x : α} {xs : List α} (h : next s = (some x, s')) (rest : Yields s' xs) :
      Yields s (x :: xs)

/-- No later call returns an element. -/
def Exhausted (s : σ) : Prop := ∀ n, (next (after next n s)).1 = none

/-- What is shown is what the next call returns, and nothing when there is no more. -/
structure Previews (peek : σ → Option α) (s : σ) : Prop where
  shows : ∀ x, peek s = some x ↔ (next s).1 = some x
  exhausted : peek s = none ↔ Exhausted next s

/-- The calls take one element after the other from a list that the state stands for. -/
structure Lists (left : σ → List α) : Prop where
  head : ∀ s, (next s).1 = (left s).head?
  tail : ∀ s, left (next s).2 = (left s).tail

section Lemmas

variable {next} {peek : σ → Option α} {left : σ → List α} {s : σ} {n : Nat}

@[simp] theorem after_zero (s : σ) : after next 0 s = s := rfl

theorem after_succ (n : Nat) (s : σ) : after next (n + 1) s = (next (after next n s)).2 :=
  Function.iterate_succ_apply' _ n s

/-- An iterator that stands still once it has given out its last element. -/
theorem exhausted_of_fixed (h : (next s).1 = none) (hFixed : (next s).2 = s) :
    Exhausted next s := by
  intro n
  rw [after, Function.iterate_fixed hFixed]
  exact h

/-- An iterator that shows what its next call returns, and stands still at the end. -/
theorem previews_of_fixed (hPeek : peek s = (next s).1)
    (hFixed : (next s).1 = none → (next s).2 = s) : Previews next peek s := by
  refine ⟨fun x => by rw [hPeek], ?_⟩
  rw [hPeek]
  exact ⟨fun h => exhausted_of_fixed h (hFixed h), fun h => h 0⟩

theorem Lists.after (h : Lists next left) (n : Nat) (s : σ) :
    left (after next n s) = (left s).drop n := by
  induction n with
  | zero => rfl
  | succ n ih => rw [after_succ, h.tail, ih, List.tail_drop]

theorem Lists.exhausted_iff (h : Lists next left) : Exhausted next s ↔ left s = [] := by
  constructor
  · intro hNone
    have hHead := hNone 0
    rwa [after_zero, h.head, List.head?_eq_none_iff] at hHead
  · intro hNil n
    rw [h.head, h.after, hNil, List.drop_nil]
    rfl

/-- A preview is right exactly when it shows the first element that is left. -/
theorem Lists.previews_iff (h : Lists next left) :
    Previews next peek s ↔ peek s = (left s).head? := by
  constructor
  · intro hPeek
    cases hHead : (left s).head? with
    | none =>
      rw [List.head?_eq_none_iff] at hHead
      exact hPeek.exhausted.mpr (h.exhausted_iff.mpr hHead)
    | some x => exact (hPeek.shows x).mpr ((h.head s).trans hHead)
  · intro hPeek
    refine ⟨fun x => by rw [hPeek, h.head], ?_⟩
    rw [hPeek, h.exhausted_iff, List.head?_eq_none_iff]

theorem Lists.yields (h : Lists next left) (s : σ) : Yields next s (left s) := by
  induction hLeft : left s generalizing s with
  | nil => exact .done (by rw [h.head, hLeft, List.head?_nil])
  | cons x xs ih =>
    have hStep : next s = (some x, (next s).2) := by
      refine Prod.ext ?_ rfl
      rw [h.head, hLeft, List.head?_cons]
    exact .more hStep (ih _ (by rw [h.tail, hLeft, List.tail_cons]))

end Lemmas

end Iteration
