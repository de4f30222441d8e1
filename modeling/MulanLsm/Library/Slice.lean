import Mathlib.Tactic.Common

/-! Slices of lists.  A part of a list is read by its place, and reading finds what stands there. -/

namespace Slice

variable {α : Type} {xs ys zs pre post : List α} {i n : Nat}

/-- The rest of `xs` from `i` on, if `xs` reaches that far. -/
def getFrom (xs : List α) (i : Nat) : Option (List α) :=
  if i ≤ xs.length then some (xs.drop i) else none

/-- The part of `xs` from `i` up to `j`, if `xs` has it. -/
def getRange (xs : List α) (i j : Nat) : Option (List α) :=
  if i ≤ j ∧ j ≤ xs.length then some ((xs.drop i).take (j - i)) else none

/-- `ys` stands at `i` in `xs`. -/
def At (xs : List α) (i : Nat) (ys : List α) : Prop :=
  ∃ pre post, xs = pre ++ ys ++ post ∧ pre.length = i

theorem at_append (pre ys post : List α) : At (pre ++ ys ++ post) pre.length ys :=
  ⟨pre, post, rfl, rfl⟩

theorem at_length (pre ys : List α) : At (pre ++ ys) pre.length ys := ⟨pre, [], by simp, rfl⟩

theorem at_zero (ys post : List α) : At (ys ++ post) 0 ys := ⟨[], post, rfl, rfl⟩

theorem At.left (h : At xs i (ys ++ zs)) : At xs i ys := by
  obtain ⟨pre, post, rfl, rfl⟩ := h
  exact ⟨pre, zs ++ post, by simp, rfl⟩

theorem At.right (h : At xs i (ys ++ zs)) : At xs (i + ys.length) zs := by
  obtain ⟨pre, post, rfl, rfl⟩ := h
  exact ⟨pre ++ ys, post, by simp, List.length_append⟩

/-- What stands in a part stands in the whole. -/
theorem At.trans (h : At xs i ys) (h' : At ys n zs) : At xs (i + n) zs := by
  obtain ⟨pre, post, rfl, rfl⟩ := h
  obtain ⟨pre', post', rfl, rfl⟩ := h'
  exact ⟨pre ++ pre', post' ++ post, by simp, List.length_append⟩

theorem At.le (h : At xs i ys) : i + ys.length ≤ xs.length := by
  obtain ⟨pre, post, rfl, rfl⟩ := h
  simp

theorem At.getFrom (h : At xs i ys) : ∃ post, getFrom xs i = some (ys ++ post) := by
  obtain ⟨pre, post, rfl, rfl⟩ := h
  exact ⟨post, by simp [Slice.getFrom]⟩

theorem At.getRange (h : At xs i ys) (hn : ys.length = n) : getRange xs i (i + n) = some ys := by
  obtain ⟨pre, post, rfl, rfl⟩ := h
  simp [Slice.getRange, hn]

theorem At.take_drop (h : At xs i ys) (hn : ys.length = n) : (xs.drop i).take n = ys := by
  obtain ⟨pre, post, rfl, rfl⟩ := h
  simp [← hn]

/-- Of pieces of one length, in a row, the piece `i` stands at `i` times the length. -/
theorem at_flatMap {β : Type} {f : β → List α} {bs : List β} {b : β} (hf : ∀ b, (f b).length = n)
    (hb : bs[i]? = some b) : At (bs.flatMap f) (i * n) (f b) := by
  induction bs generalizing i with
  | nil => simp at hb
  | cons c bs ih =>
    rw [List.flatMap_cons]
    cases i with
    | zero =>
      obtain rfl : c = b := by simpa using hb
      simpa using at_zero (f c) (bs.flatMap f)
    | succ i =>
      have h := (at_length (f c) (bs.flatMap f)).trans (ih (by simpa using hb))
      rw [hf] at h
      rwa [Nat.succ_mul, Nat.add_comm]

end Slice
