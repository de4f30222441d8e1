import Mathlib.Algebra.GroupWithZero.Nat
import Mathlib.Data.List.Basic
import Mathlib.Order.Lattice
import Mathlib.Tactic.Common

/-! Weighing intervals.  Intervals that lie apart are kept in order, each with a weight.  A cursor
that moves over them with ascending points weighs the intervals that hold one of the points, modulo
some number; an interval between two points that follow one another is not weighed. -/

namespace Intervals

variable {α κ : Type} [LinearOrder κ] (lo hi : α → κ) (w : α → Nat) (m : Nat)

/-- The weight of the elements that satisfy `p`. -/
def weight (p : α → Bool) (xs : List α) : Nat := ((xs.filter p).map w).sum

/-- Intervals in order, of which no two meet. -/
structure Apart (xs : List α) : Prop where
  valid : ∀ x ∈ xs, lo x ≤ hi x
  apart : xs.Pairwise fun x y => hi x < lo y

/-- One of the points is in the interval. -/
def holds (ks : List κ) (x : α) : Bool := ks.any fun k => lo x ≤ k ∧ k ≤ hi x

/-- The interval meets the one from `a` to `b`. -/
def meets (a b : κ) (x : α) : Bool := lo x ≤ b ∧ a ≤ hi x

/-- The interval lies between two of the points that follow one another. -/
def between (ks : List κ) (x : α) : Bool := (ks.zip ks.tail).any fun p => p.1 < lo x ∧ hi x < p.2

/-- The interval holds none of the points `counted` although it lies among the points `ks`. -/
def unseen (counted ks : List κ) (x : α) : Bool :=
  holds lo hi ks x && !holds lo hi counted x || between lo hi ks x

/-- Move the cursor past the intervals that begin at `k` or to its left, and weigh those that hold
`k`. -/
def sweep (k : κ) : List α → Nat × Nat → Nat × Nat
  | [], s => s
  | x :: xs, (i, n) =>
    if k > hi x then sweep k xs (i + 1, n)
    else if k < lo x then (i, n)
    else sweep k xs (i + 1, (n + w x) % m)

/-- The cursor `i` has passed the intervals up to the points `ks`, and `n` is the weight of those
that hold one of them, modulo `m`. -/
structure Swept (xs : List α) (ks : List κ) (i n : Nat) : Prop where
  passed : ∀ x ∈ xs.take i, ∃ k ∈ ks, lo x ≤ k
  ahead : ∀ x ∈ xs.drop i, ∀ k ∈ ks, k < lo x
  weighed : n = weight w (holds lo hi ks) xs % m

section Weight

variable {w} {p q : α → Bool} {xs ys : List α}

theorem weight_cons (x : α) :
    weight w p (x :: xs) = (if p x then w x else 0) + weight w p xs := by
  unfold weight
  cases h : p x <;> simp [h]

theorem weight_append : weight w p (xs ++ ys) = weight w p xs + weight w p ys := by
  simp [weight]

theorem weight_congr (h : ∀ x ∈ xs, p x = q x) : weight w p xs = weight w q xs := by
  rw [weight, weight, List.filter_congr h]

theorem weight_eq_zero (h : ∀ x ∈ xs, p x = false) : weight w p xs = 0 := by
  rw [weight_congr (q := fun _ => false) h]
  simp [weight]

theorem weight_or (h : ∀ x ∈ xs, p x = true → q x = false) :
    weight w (fun x => p x || q x) xs = weight w p xs + weight w q xs := by
  induction xs with
  | nil => rfl
  | cons x xs ih =>
    rw [weight_cons, weight_cons, weight_cons, ih fun y hy => h y (List.mem_cons_of_mem _ hy)]
    have hx := h x List.mem_cons_self
    cases hp : p x with
    | false => simp only [Bool.false_or, Bool.false_eq_true, if_false]; omega
    | true => simp only [Bool.true_or, hx hp, Bool.false_eq_true, if_true, if_false]; omega

theorem weight_mono (h : ∀ x ∈ xs, p x = true → q x = true) : weight w p xs ≤ weight w q xs := by
  induction xs with
  | nil => exact Nat.le_refl _
  | cons x xs ih =>
    rw [weight_cons, weight_cons]
    have hRest := ih fun y hy => h y (List.mem_cons_of_mem _ hy)
    have hx := h x List.mem_cons_self
    cases hp : p x with
    | false => simp only [Bool.false_eq_true, if_false]; omega
    | true => simp only [hx hp, if_true]; omega

end Weight

section Sweeping

variable {lo hi w m} {xs : List α} {ks : List κ} {i n : Nat} {k a b : κ}

@[simp] theorem holds_singleton {x : α} : holds lo hi [k] x = true ↔ lo x ≤ k ∧ k ≤ hi x := by
  simp [holds]

theorem holds_cons {j : κ} {x : α} :
    holds lo hi (j :: ks) x = true ↔ (lo x ≤ j ∧ j ≤ hi x) ∨ holds lo hi ks x = true := by
  simp [holds]

theorem holds_append {js : List κ} {x : α} :
    holds lo hi (ks ++ js) x = (holds lo hi ks x || holds lo hi js x) := List.any_append

theorem Apart.tail {x : α} (h : Apart lo hi (x :: xs)) : Apart lo hi xs :=
  ⟨fun y hy => h.valid y (List.mem_cons_of_mem _ hy), (List.pairwise_cons.mp h.apart).2⟩

theorem Apart.drop (h : Apart lo hi xs) (i : Nat) : Apart lo hi (xs.drop i) :=
  ⟨fun y hy => h.valid y (List.mem_of_mem_drop hy), h.apart.sublist (List.drop_sublist i xs)⟩

/-- No interval behind one that begins to the right of `k` holds `k`. -/
theorem Apart.ahead {x : α} (h : Apart lo hi (x :: xs)) (hk : k < lo x) :
    ∀ y ∈ x :: xs, k < lo y := by
  intro y hy
  rcases List.mem_cons.mp hy with rfl | hy
  · exact hk
  · have hxy := (List.pairwise_cons.mp h.apart).1 y hy
    exact hk.trans ((h.valid x List.mem_cons_self).trans_lt hxy)

/-- A sweep passes the intervals that begin at `k` or to its left. -/
theorem sweep_spec (h : Apart lo hi xs) (k : κ) (i n : Nat) :
    ∃ j, sweep lo hi w m k xs (i, n % m) = (i + j, (n + weight w (holds lo hi [k]) xs) % m) ∧
      (∀ x ∈ xs.take j, lo x ≤ k) ∧ ∀ x ∈ xs.drop j, k < lo x := by
  induction xs generalizing i n with
  | nil => exact ⟨0, rfl, by simp, by simp⟩
  | cons x xs ih =>
    rw [sweep]
    split
    · next hRight =>
      -- The interval is passed without `k`.
      obtain ⟨j, hSweep, hTake, hDrop⟩ := ih h.tail (i + 1) n
      have hNot : ¬holds lo hi [k] x = true := by
        rw [holds_singleton]
        exact fun hx => absurd hx.2 (not_le.mpr hRight)
      refine ⟨j + 1, ?_, ?_, by simpa using hDrop⟩
      · rw [hSweep, weight_cons, if_neg hNot, Nat.zero_add]
        congr 1
        omega
      · rw [List.take_succ_cons, List.forall_mem_cons]
        exact ⟨(h.valid x List.mem_cons_self).trans (le_of_lt hRight), hTake⟩
    · split
      · next hLeft =>
        have hAhead := h.ahead hLeft
        have hZero : weight w (holds lo hi [k]) (x :: xs) = 0 := by
          refine weight_eq_zero fun y hy => ?_
          rw [← Bool.not_eq_true, holds_singleton]
          exact fun hk => absurd hk.1 (not_le.mpr (hAhead y hy))
        exact ⟨0, by rw [hZero]; rfl, by simp, by simpa using hAhead⟩
      · next hRight hLeft =>
        have hHolds : holds lo hi [k] x = true :=
          holds_singleton.mpr ⟨not_lt.mp hLeft, not_lt.mp hRight⟩
        obtain ⟨j, hSweep, hTake, hDrop⟩ := ih h.tail (i + 1) (n + w x)
        refine ⟨j + 1, ?_, ?_, by simpa using hDrop⟩
        · rw [Nat.mod_add_mod, hSweep, weight_cons, if_pos hHolds, Nat.add_assoc n]
          congr 1
          omega
        · rw [List.take_succ_cons, List.forall_mem_cons]
          exact ⟨not_lt.mp hLeft, hTake⟩

theorem Swept.start (xs : List α) : Swept lo hi w m xs [] 0 0 where
  passed := by simp
  ahead := by simp
  weighed := by
    have hZero : weight w (holds lo hi []) xs = 0 := weight_eq_zero fun _ _ => rfl
    rw [hZero, Nat.zero_mod]

/-- One more point, to the right of the ones before. -/
theorem Swept.step (h : Swept lo hi w m xs ks i n) (hApart : Apart lo hi xs)
    (hk : ∀ j ∈ ks, j ≤ k) :
    Swept lo hi w m xs (ks ++ [k]) (sweep lo hi w m k (xs.drop i) (i, n)).1
      (sweep lo hi w m k (xs.drop i) (i, n)).2 := by
  obtain ⟨j, hSweep, hTake, hDrop⟩ :=
    sweep_spec (w := w) (m := m) (hApart.drop i) k i (weight w (holds lo hi ks) xs)
  rw [h.weighed, hSweep]
  refine ⟨?_, ?_, ?_⟩
  · rw [List.take_add]
    intro x hx
    rcases List.mem_append.mp hx with hx | hx
    · obtain ⟨j, hj, hle⟩ := h.passed x hx
      exact ⟨j, List.mem_append_left _ hj, hle⟩
    · exact ⟨k, by simp, hTake x hx⟩
  · rw [← List.drop_drop]
    intro x hx j hj
    rcases List.mem_append.mp hj with hj | hj
    · exact h.ahead x (List.mem_of_mem_drop hx) j hj
    · rw [List.mem_singleton.mp hj]
      exact hDrop x hx
  · -- An interval that was passed and holds `k` holds an earlier point.
    have hPassed : weight w (holds lo hi (ks ++ [k])) (xs.take i) =
        weight w (holds lo hi ks) (xs.take i) := by
      refine weight_congr fun x hx => ?_
      rw [holds_append, Bool.or_eq_left_iff_imp, holds_singleton]
      intro hxk
      obtain ⟨j, hj, hle⟩ := h.passed x hx
      exact List.any_eq_true.mpr ⟨j, hj, by simpa using ⟨hle, (hk j hj).trans hxk.2⟩⟩
    have hAhead : ∀ x ∈ xs.drop i, holds lo hi ks x = false := by
      intro x hx
      rw [holds, List.any_eq_false]
      intro j hj
      simpa using fun hle => absurd hle (not_le.mpr (h.ahead x hx j hj))
    have hRest : weight w (holds lo hi (ks ++ [k])) (xs.drop i) =
        weight w (holds lo hi [k]) (xs.drop i) := by
      refine weight_congr fun x hx => ?_
      rw [holds_append, hAhead x hx, Bool.false_or]
    have hOld : weight w (holds lo hi ks) xs = weight w (holds lo hi ks) (xs.take i) := by
      calc weight w (holds lo hi ks) xs
          = weight w (holds lo hi ks) (xs.take i) + weight w (holds lo hi ks) (xs.drop i) := by
            rw [← weight_append, List.take_append_drop]
        _ = weight w (holds lo hi ks) (xs.take i) := by rw [weight_eq_zero hAhead, Nat.add_zero]
    rw [← hRest, hOld, ← hPassed, ← weight_append, List.take_append_drop]

theorem between_cons {j : κ} {x : α} :
    between lo hi (j :: k :: ks) x = true ↔
      (j < lo x ∧ hi x < k) ∨ between lo hi (k :: ks) x = true := by
  simp [between]

/-- An interval between two of the points that ascend holds none of them. -/
theorem not_holds_of_between {x : α} (hks : ks.Pairwise (· ≤ ·)) (h : between lo hi ks x = true) :
    holds lo hi ks x = false := by
  induction ks with
  | nil => cases h
  | cons j ks ih =>
    cases ks with
    | nil => cases h
    | cons k ks =>
      obtain ⟨hj, hTail⟩ := List.pairwise_cons.mp hks
      obtain ⟨hk, -⟩ := List.pairwise_cons.mp hTail
      rw [between_cons] at h
      rw [holds, List.any_eq_false]
      intro l hl
      rcases List.mem_cons.mp hl with rfl | hl
      · -- The first point lies to the left of the interval.
        have hLeft : l < lo x := by
          rcases h with h | h
          · exact h.1
          · obtain ⟨p, hp, hpx⟩ := List.any_eq_true.mp h
            have hMem := (List.of_mem_zip (show (p.1, p.2) ∈ _ from hp)).1
            exact (hj p.1 hMem).trans_lt (by simpa using hpx : p.1 < lo x ∧ _).1
        simpa using fun hle => absurd hle (not_le.mpr hLeft)
      · rcases h with h | h
        · have hkl : k ≤ l := by
            rcases List.mem_cons.mp hl with rfl | hl
            · exact le_rfl
            · exact hk l hl
          simpa using fun _ => h.2.trans_le hkl
        · exact List.any_eq_false.mp (ih hTail h) l hl

/-- The intervals that meet the one from the first of some points to the last hold one of them or
lie between two of them. -/
theorem meets_eq {x : α} (hValid : lo x ≤ hi x) (hks : ks.Pairwise (· ≤ ·)) (ha : ks.head? = some a)
    (hb : ks.getLast? = some b) :
    meets lo hi a b x = (holds lo hi ks x || between lo hi ks x) := by
  induction ks generalizing a with
  | nil => cases ha
  | cons j ks ih =>
    obtain rfl : j = a := Option.some.inj ha
    cases ks with
    | nil =>
      obtain rfl : j = b := Option.some.inj hb
      simp [meets, holds, between]
    | cons k ks =>
      obtain ⟨hj, hTail⟩ := List.pairwise_cons.mp hks
      have hjk : j ≤ k := hj k List.mem_cons_self
      have hLast : (k :: ks).getLast? = some b := by rw [← hb, List.getLast?_cons_cons]
      have hkb : k ≤ b := by
        rcases List.mem_cons.mp (List.mem_of_getLast? hLast) with rfl | hMem
        · exact le_rfl
        · exact (List.pairwise_cons.mp hTail).1 b hMem
      have hSplit : meets lo hi j b x = true ↔ (lo x ≤ j ∧ j ≤ hi x) ∨ (j < lo x ∧ hi x < k) ∨
          meets lo hi k b x = true := by
        simp only [meets, decide_eq_true_eq]
        constructor
        · intro hx
          by_cases hk : k ≤ hi x
          · exact .inr (.inr ⟨hx.1, hk⟩)
          · by_cases hLeft : lo x ≤ j
            · exact .inl ⟨hLeft, hx.2⟩
            · exact .inr (.inl ⟨not_le.mp hLeft, not_le.mp hk⟩)
        · rintro (hx | hx | hx)
          · exact ⟨hx.1.trans (hjk.trans hkb), hx.2⟩
          · exact ⟨hValid.trans (hx.2.le.trans hkb), hx.1.le.trans hValid⟩
          · exact ⟨hx.1, hjk.trans hx.2⟩
      have hHolds : holds lo hi (j :: k :: ks) x = true ↔
          (lo x ≤ j ∧ j ≤ hi x) ∨ holds lo hi (k :: ks) x = true := holds_cons
      rw [Bool.eq_iff_iff, hSplit, ih hTail rfl hLast, Bool.or_eq_true, Bool.or_eq_true, hHolds,
        between_cons, or_assoc, or_left_comm (b := holds lo hi (k :: ks) x = true)]

/-- What is weighed and what is not seen are the intervals that meet the one from the first of the
points to the last. -/
theorem weight_unseen {counted : List κ} (hValid : ∀ x ∈ xs, lo x ≤ hi x)
    (hks : ks.Pairwise (· ≤ ·)) (hCounted : ∀ k ∈ counted, k ∈ ks) (ha : ks.head? = some a)
    (hb : ks.getLast? = some b) :
    weight w (holds lo hi counted) xs + weight w (unseen lo hi counted ks) xs =
      weight w (meets lo hi a b) xs := by
  have hHolds : ∀ x, holds lo hi counted x = true → holds lo hi ks x = true := by
    intro x hx
    obtain ⟨k, hk, hkx⟩ := List.any_eq_true.mp hx
    exact List.any_eq_true.mpr ⟨k, hCounted k hk, hkx⟩
  rw [← weight_or]
  · refine weight_congr fun x hx => ?_
    rw [meets_eq (hValid x hx) hks ha hb, unseen]
    cases hSeen : holds lo hi counted x with
    | false => simp
    | true => simp [hHolds x hSeen]
  · intro x _ hSeen
    cases hBetween : between lo hi ks x with
    | false => simp [unseen, hSeen, hBetween]
    | true =>
      have hNone := not_holds_of_between hks hBetween
      rw [hHolds x hSeen] at hNone
      cases hNone

theorem weight_meets_mono {b' : κ} (h : b ≤ b') :
    weight w (meets lo hi a b) xs ≤ weight w (meets lo hi a b') xs := by
  refine weight_mono fun x _ hx => ?_
  have hx : lo x ≤ b ∧ a ≤ hi x := by simpa [meets] using hx
  simpa [meets] using ⟨hx.1.trans h, hx.2⟩

end Sweeping

end Intervals
