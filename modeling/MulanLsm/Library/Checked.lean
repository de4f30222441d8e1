import Mathlib.Algebra.Group.Nat.Defs
import MulanLsm.Library.Slice

/-! Computations on machine words and lists that check what they do.  A sum that does not fit its
word, a difference below zero, a shift by more than the word, and a place or a part that a list does
not have stop the computation, and so does a loop that runs out of its turns: then it has no
outcome, neither a value nor an error.  A computation in which no check fails is one without
checks. -/

/-- A computation with a value or an error for its outcome, unless a check fails. -/
abbrev Checked (ε α : Type) := ExceptT ε Option α

namespace Checked

variable {ε ε' α β : Type}

/-- A check failed. -/
def fail : Checked ε α := ExceptT.mk none

/-- A computation without checks. -/
def lift (r : Except ε α) : Checked ε α := ExceptT.mk (some r)

/-- A value that may be absent, which is no error. -/
def ofOption (o : Option α) : Checked Unit α := lift (o.elim (.error ()) .ok)

/-- The computation whose errors are those of `f`. -/
def mapError (f : ε → ε') (c : Checked ε α) : Checked ε' α :=
  ExceptT.mk (c.run.map (Except.mapError f))

/-- The outcome, an error or a value, as a value. -/
def attempt (c : Checked ε α) : Checked ε' (Except ε α) := ExceptT.mk (c.run.map .ok)

/-- The value, unless it is absent. -/
def unwrap : Option α → Checked ε α
  | some a => pure a
  | none => fail

/-- A sum in a word of `w` bits. -/
def add (w a b : Nat) : Checked ε Nat := if a + b < 2 ^ w then pure (a + b) else fail

/-- A product in a word of `w` bits. -/
def mul (w a b : Nat) : Checked ε Nat := if a * b < 2 ^ w then pure (a * b) else fail

def sub (a b : Nat) : Checked ε Nat := if b ≤ a then pure (a - b) else fail

/-- A word of `w` bits, shifted to the left.  The bits that leave the word are lost. -/
def shl (w a n : Nat) : Checked ε Nat := if n < w then pure ((a <<< n) % 2 ^ w) else fail

def index (xs : List α) (i : Nat) : Checked ε α := unwrap xs[i]?

def sliceFrom (xs : List α) (i : Nat) : Checked ε (List α) := unwrap (Slice.getFrom xs i)

def slice (xs : List α) (i j : Nat) : Checked ε (List α) := unwrap (Slice.getRange xs i j)

section Checks

variable {w a b n : Nat} {xs : List α} {i j : Nat}

theorem unwrap_some (a : α) : unwrap (some a) = (pure a : Checked ε α) := rfl

theorem add_of_lt (h : a + b < 2 ^ w) : add w a b = (pure (a + b) : Checked ε Nat) := if_pos h

theorem add_of_not_lt (h : ¬a + b < 2 ^ w) : add w a b = (fail : Checked ε Nat) := if_neg h

theorem mul_of_lt (h : a * b < 2 ^ w) : mul w a b = (pure (a * b) : Checked ε Nat) := if_pos h

theorem sub_of_le (h : b ≤ a) : sub a b = (pure (a - b) : Checked ε Nat) := if_pos h

theorem shl_of_lt (h : n < w) : shl w a n = (pure ((a <<< n) % 2 ^ w) : Checked ε Nat) := if_pos h

theorem index_of_lt (h : i < xs.length) (d : α) :
    index xs i = (pure (xs.getD i d) : Checked ε α) := by
  rw [index, List.getD_eq_getElem?_getD, List.getElem?_eq_getElem h, unwrap_some, Option.getD_some]

theorem sliceFrom_of_le (h : i ≤ xs.length) :
    sliceFrom xs i = (pure (xs.drop i) : Checked ε (List α)) := by
  rw [sliceFrom, Slice.getFrom, if_pos h, unwrap_some]

theorem slice_of_le (h : i ≤ j) (h' : j ≤ xs.length) :
    slice xs i j = (pure ((xs.drop i).take (j - i)) : Checked ε (List α)) := by
  rw [slice, Slice.getRange, if_pos ⟨h, h'⟩, unwrap_some]

/-- The part of a length. -/
theorem slice_add (h : i + n ≤ xs.length) :
    slice xs i (i + n) = (pure ((xs.drop i).take n) : Checked ε (List α)) := by
  rw [slice_of_le (Nat.le_add_right i n) h, Nat.add_sub_cancel_left]

end Checks

section Binding

variable {c : Checked ε α} {f : α → Checked ε β}

@[simp] theorem pure_eq_lift (a : α) : (pure a : Checked ε α) = lift (.ok a) := rfl

@[simp] theorem throw_eq_lift (e : ε) : (throw e : Checked ε α) = lift (.error e) := rfl

@[simp] theorem lift_ok_bind (a : α) (f : α → Checked ε β) : lift (.ok a) >>= f = f a := rfl

@[simp] theorem lift_error_bind (e : ε) (f : α → Checked ε β) :
    lift (.error e) >>= f = lift (.error e) := rfl

@[simp] theorem fail_bind (f : α → Checked ε β) : fail >>= f = fail := rfl

/-- What goes on without checks from each value goes on without checks. -/
theorem lift_bind {r : Except ε α} {g : α → Except ε β} (h : ∀ a, r = .ok a → f a = lift (g a)) :
    lift r >>= f = lift (r >>= g) := by
  cases r with
  | error e => rfl
  | ok a => exact h a rfl

theorem mapM_lift {xs : List α} {f : α → Checked ε β} {g : α → Except ε β}
    (h : ∀ x ∈ xs, f x = lift (g x)) : xs.mapM f = lift (xs.mapM g) := by
  induction xs with
  | nil => rfl
  | cons x xs ih =>
    rw [List.mapM_cons, List.mapM_cons, h x List.mem_cons_self,
      ih fun y hy => h y (List.mem_cons_of_mem _ hy)]
    exact lift_bind fun _ _ => lift_bind fun _ _ => rfl

theorem foldlM_lift {xs : List α} {f : β → α → Checked ε β} {g : β → α → Except ε β}
    (h : ∀ b x, f b x = lift (g b x)) (b : β) : xs.foldlM f b = lift (xs.foldlM g b) := by
  induction xs generalizing b with
  | nil => rfl
  | cons x xs ih =>
    rw [List.foldlM_cons, List.foldlM_cons, h]
    exact lift_bind fun b _ => ih b

@[simp] theorem ofOption_none : ofOption (none : Option α) = lift (.error ()) := rfl

@[simp] theorem ofOption_some (a : α) : ofOption (some a) = lift (.ok a) := rfl

theorem ofOption_bind {o : Option α} {f : α → Checked Unit β} {g : α → Option β}
    (h : ∀ a, o = some a → f a = ofOption (g a)) : ofOption o >>= f = ofOption (o >>= g) := by
  cases o with
  | none => rfl
  | some a => exact h a rfl

@[simp] theorem mapError_lift (f : ε → ε') (r : Except ε α) :
    mapError f (lift r) = lift (r.mapError f) := rfl

@[simp] theorem attempt_lift (r : Except ε α) :
    (attempt (lift r) : Checked ε' (Except ε α)) = lift (.ok r) := rfl

@[simp] theorem mapError_fail (f : ε → ε') : mapError f (fail : Checked ε α) = fail := rfl

end Binding

/-- No check fails. -/
def Total (c : Checked ε α) : Prop := ∃ r, c = lift r

section Totality

variable {c : Checked ε α} {f : α → Checked ε β} {r : Except ε α}

@[simp] theorem total_lift (r : Except ε α) : Total (lift r) := ⟨r, rfl⟩

@[simp] theorem not_total_fail : ¬Total (fail : Checked ε α) := by
  rintro ⟨r, h⟩
  cases h

/-- A computation goes on without a failed check if it does from each value. -/
theorem total_lift_bind : Total (lift r >>= f) ↔ ∀ a, r = .ok a → Total (f a) := by
  cases r with
  | error e => simp
  | ok a => simp

theorem eq_fail_or_lift (c : Checked ε α) : c = fail ∨ ∃ r, c = lift r :=
  match c with
  | none => .inl rfl
  | some r => .inr ⟨r, rfl⟩

/-- What is done with the value does not matter where no check of it can fail. -/
theorem total_bind_iff (h : ∀ a, Total (f a)) : Total (c >>= f) ↔ Total c := by
  obtain rfl | ⟨r, rfl⟩ := eq_fail_or_lift c
  · simp
  · rw [total_lift_bind]
    exact ⟨fun _ => total_lift r, fun _ a _ => h a⟩

end Totality

section Readers

/-! A reader by place takes a value at a place of `xs` and says where it goes on; a reader by rest
takes it from the front of what is left. -/

variable {xs : List α} {γ : Type} {i : Nat}

/-- From `i` on, the reader by place `c` does what the reader by rest `r` does, without a failed
check. -/
def Follows (xs : List α) (i : Nat) (c : Checked ε (β × Nat)) (r : Except ε (β × List α)) : Prop :=
  match r with
  | .error e => c = lift (.error e)
  | .ok (b, rest) => ∃ j, i ≤ j ∧ j ≤ xs.length ∧ rest = xs.drop j ∧ c = lift (.ok (b, j))

theorem Follows.ok {j : Nat} (hi : i ≤ j) (hj : j ≤ xs.length) (b : β) :
    Follows xs i (lift (.ok (b, j)) : Checked ε (β × Nat)) (.ok (b, xs.drop j)) :=
  ⟨j, hi, hj, rfl, rfl⟩

theorem Follows.error (e : ε) :
    Follows xs i (lift (.error e) : Checked ε (β × Nat)) (.error e) := rfl

/-- One reader after another. -/
theorem Follows.bind {c : Checked ε (β × Nat)} {r : Except ε (β × List α)}
    {f : β × Nat → Checked ε (γ × Nat)} {g : β × List α → Except ε (γ × List α)}
    (h : Follows xs i c r)
    (h' : ∀ b j, j ≤ xs.length → r = .ok (b, xs.drop j) →
      Follows xs j (f (b, j)) (g (b, xs.drop j))) :
    Follows xs i (c >>= f) (r >>= g) := by
  cases r with
  | error e =>
    obtain rfl : c = lift (.error e) := h
    rfl
  | ok p =>
    obtain ⟨b, rest⟩ := p
    obtain ⟨j, hi, hj, rfl, rfl⟩ := h
    have hNext := h' b j hj rfl
    simp only [lift_ok_bind]
    show Follows xs i (f (b, j)) (g (b, xs.drop j))
    cases hg : g (b, xs.drop j) with
    | error e =>
      rw [hg] at hNext
      exact hNext
    | ok q =>
      rw [hg] at hNext
      obtain ⟨k, hk, hNext⟩ := hNext
      exact ⟨k, Nat.le_trans hi hk, hNext⟩

/-- A step that reads nothing. -/
theorem Follows.lift_bind {r : Except ε β} {f : β → Checked ε (γ × Nat)}
    {g : β → Except ε (γ × List α)} (h : ∀ b, r = .ok b → Follows xs i (f b) (g b)) :
    Follows xs i (lift r >>= f) (r >>= g) := by
  cases r with
  | error e => rfl
  | ok b => exact h b rfl

end Readers

end Checked
