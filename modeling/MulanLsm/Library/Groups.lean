import Mathlib.Data.Nat.Digits.Lemmas
import Mathlib.Tactic.Ring

/-! Numbers in groups: digits in a base, the lowest first, in elements that also say whether another
follows.  An element at or above the base goes on; one below the base is the last. -/

namespace Groups

variable {α : Type} (num : α → Nat) (b : Nat)

/-- Every element but the last goes on. -/
def Whole : List α → Prop
  | [] => False
  | x :: xs => if num x < b then xs = [] else Whole xs

/-- The number that the elements stand for. -/
def value (xs : List α) : Nat := Nat.ofDigits b (xs.map (num · % b))

/-- The first `n` elements are a number. -/
def Starts (xs : List α) (n : Nat) : Prop := n ≤ xs.length ∧ Whole num b (xs.take n)

variable {num b} {xs : List α} {x : α} {n : Nat}

instance decidableWhole : (xs : List α) → Decidable (Whole num b xs)
  | [] => inferInstanceAs (Decidable False)
  | x :: xs =>
    have := decidableWhole xs
    inferInstanceAs (Decidable (if num x < b then xs = [] else Whole num b xs))

instance : Decidable (Starts num b xs n) := inferInstanceAs (Decidable (_ ∧ _))

@[simp] theorem not_whole_nil : ¬Whole num b [] := id

theorem whole_cons_of_lt (h : num x < b) : Whole num b (x :: xs) ↔ xs = [] := by
  rw [Whole, if_pos h]

theorem whole_cons_of_le (h : b ≤ num x) : Whole num b (x :: xs) ↔ Whole num b xs := by
  rw [Whole, if_neg (Nat.not_lt.mpr h)]

theorem whole_concat : Whole num b (xs ++ [x]) ↔ (∀ y ∈ xs, b ≤ num y) ∧ num x < b := by
  induction xs with
  | nil => simp [Whole]
  | cons y xs ih =>
    rw [List.cons_append, List.forall_mem_cons, and_assoc, ← ih]
    rcases Nat.lt_or_ge (num y) b with h | h
    · simp [whole_cons_of_lt h, Nat.not_le.mpr h]
    · simp [whole_cons_of_le h, h]

theorem Whole.starts (h : Whole num b xs) (ys : List α) : Starts num b (xs ++ ys) xs.length := by
  refine ⟨by simp, ?_⟩
  rwa [List.take_left' rfl]

@[simp] theorem not_starts_zero : ¬Starts num b xs 0 := fun h => h.2

@[simp] theorem not_starts_nil : ¬Starts num b [] n := fun h => by simpa using h.2

theorem starts_cons_of_lt (h : num x < b) : Starts num b (x :: xs) (n + 1) ↔ n = 0 := by
  rw [Starts, List.take_succ_cons, whole_cons_of_lt h, List.take_eq_nil_iff, List.length_cons]
  constructor
  · rintro ⟨hn, rfl | rfl⟩
    · rfl
    · simpa using hn
  · rintro rfl
    simp

theorem starts_cons_of_le (h : b ≤ num x) : Starts num b (x :: xs) (n + 1) ↔ Starts num b xs n := by
  rw [Starts, Starts, List.take_succ_cons, whole_cons_of_le h, List.length_cons,
    Nat.add_le_add_iff_right]

/-- The elements in front of the last go on. -/
theorem starts_succ : Starts num b xs (n + 1) ↔
    (∀ y ∈ xs.take n, b ≤ num y) ∧ ∃ x, xs[n]? = some x ∧ num x < b := by
  constructor
  · rintro ⟨hLe, hWhole⟩
    rw [List.take_succ_eq_append_getElem hLe, whole_concat] at hWhole
    exact ⟨hWhole.1, xs[n], List.getElem?_eq_getElem hLe, hWhole.2⟩
  · rintro ⟨hRest, x, hx, hLast⟩
    obtain ⟨hLt, rfl⟩ := List.getElem?_eq_some_iff.mp hx
    refine ⟨hLt, ?_⟩
    rw [List.take_succ_eq_append_getElem hLt, whole_concat]
    exact ⟨hRest, hLast⟩

@[simp] theorem value_nil : value num b [] = 0 := rfl

theorem value_cons : value num b (x :: xs) = num x % b + b * value num b xs := by
  rw [value, List.map_cons, Nat.ofDigits_cons]
  rfl

theorem value_concat :
    value num b (xs ++ [x]) = value num b xs + b ^ xs.length * (num x % b) := by
  rw [value, List.map_append, List.map_singleton, Nat.ofDigits_append, Nat.ofDigits_singleton,
    List.length_map]
  rfl

theorem value_lt (num : α → Nat) (xs : List α) (hb : 1 < b) : value num b xs < b ^ xs.length := by
  have hDigits : ∀ d ∈ xs.map (num · % b), d < b := by
    intro d hd
    obtain ⟨x, -, rfl⟩ := List.mem_map.mp hd
    exact Nat.mod_lt _ (by omega)
  have := Nat.ofDigits_lt_base_pow_length hb hDigits
  rwa [List.length_map] at this

/-- The last element alone says whether a number is below a multiple of its weight. -/
theorem value_concat_lt (num : α → Nat) (xs : List α) (x : α) (m : Nat) (hb : 1 < b) :
    value num b (xs ++ [x]) < b ^ xs.length * m ↔ num x % b < m := by
  have hLow := value_lt num xs hb
  rw [value_concat]
  constructor
  · intro h
    by_contra hNot
    have := Nat.mul_le_mul_left (b ^ xs.length) (Nat.not_lt.mp hNot)
    omega
  · intro h
    calc value num b xs + b ^ xs.length * (num x % b)
        < b ^ xs.length + b ^ xs.length * (num x % b) := Nat.add_lt_add_right hLow _
      _ = b ^ xs.length * (num x % b + 1) := by ring
      _ ≤ b ^ xs.length * m := Nat.mul_le_mul_left _ h

end Groups
