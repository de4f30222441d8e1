import Mathlib.Algebra.Order.Round
import Mathlib.Data.Int.Log
import Mathlib.Data.Rat.Floor
import Mathlib.Tactic.Linarith

/-! Division of 64-bit floating-point numbers, as the rationals they stand for.  A number that has
no such form is rounded to the nearest that has, of two that are as near to the one with the even
mantissa.  The exponent has no bounds here: quotients of 64-bit whole numbers are far from where
those of a double lie. -/

namespace Binary64

variable {x y a b : ℚ} {m n : Nat}

/-- The whole number nearest to `x`, of two that are as near the even one. -/
def toNearest (x : ℚ) : ℤ :=
  let n := ⌊x⌋
  if x - n < 1 / 2 then n
  else if 1 / 2 < x - n then n + 1
  else if n % 2 = 0 then n
  else n + 1

/-- The nearest number with a mantissa of 53 bits. -/
def round (x : ℚ) : ℚ :=
  let exponent := Int.log 2 |x| - 52
  toNearest (x / 2 ^ exponent) * 2 ^ exponent

/-- A whole number, taken as a double. -/
def ofNat (n : Nat) : ℚ := round n

def div (x y : ℚ) : ℚ := round (x / y)

theorem floor_le_toNearest (x : ℚ) : ⌊x⌋ ≤ toNearest x := by
  unfold toNearest
  dsimp only
  split_ifs <;> omega

theorem toNearest_le_floor (x : ℚ) : toNearest x ≤ ⌊x⌋ + 1 := by
  unfold toNearest
  dsimp only
  split_ifs <;> omega

theorem toNearest_intCast (n : ℤ) : toNearest n = n := by
  unfold toNearest
  dsimp only
  rw [Int.floor_intCast, if_pos (by rw [sub_self]; decide +kernel)]

theorem toNearest_mono (h : x ≤ y) : toNearest x ≤ toNearest y := by
  rcases (Int.floor_mono h).lt_or_eq with hLt | hEq
  · have := toNearest_le_floor x
    have := floor_le_toNearest y
    omega
  · -- Both are in one interval between whole numbers, and a test that `x` passes `y` passes too.
    unfold toNearest
    dsimp only
    rw [hEq]
    split_ifs <;> first | omega | (exfalso; linarith)

/-- The number is rounded within the powers of two that it is between. -/
theorem round_mem (hx : 0 < x) :
    2 ^ Int.log 2 x ≤ round x ∧ round x ≤ 2 ^ (Int.log 2 x + 1) := by
  have hLow : (2 : ℚ) ^ Int.log 2 x ≤ x := by
    exact_mod_cast Int.zpow_log_le_self (R := ℚ) Nat.one_lt_two hx
  have hHigh : x < (2 : ℚ) ^ (Int.log 2 x + 1) := by
    exact_mod_cast Int.lt_zpow_succ_log_self (R := ℚ) Nat.one_lt_two x
  have hPos : (0 : ℚ) < 2 ^ (Int.log 2 x - 52) := zpow_pos two_pos _
  have hShift (k : ℤ) (j : Nat) (hk : k = j + (Int.log 2 x - 52)) :
      (2 : ℚ) ^ k = ((2 ^ j : ℤ) : ℚ) * 2 ^ (Int.log 2 x - 52) := by
    rw [hk, zpow_add₀ two_ne_zero]
    norm_cast
  rw [hShift (Int.log 2 x) 52 (by omega)] at hLow ⊢
  rw [hShift (Int.log 2 x + 1) 53 (by omega)] at hHigh ⊢
  unfold round
  dsimp only
  rw [abs_of_pos hx]
  refine ⟨mul_le_mul_of_nonneg_right ?_ hPos.le, mul_le_mul_of_nonneg_right ?_ hPos.le⟩
  · have h := toNearest_mono ((le_div_iff₀ hPos).mpr hLow)
    rw [toNearest_intCast] at h
    exact_mod_cast h
  · have h := toNearest_mono ((div_le_iff₀ hPos).mpr hHigh.le)
    rw [toNearest_intCast] at h
    exact_mod_cast h

theorem round_zero : round 0 = 0 := by decide +kernel

theorem round_pos (hx : 0 < x) : 0 < round x :=
  (zpow_pos two_pos _).trans_le (round_mem hx).1

theorem round_nonneg (hx : 0 ≤ x) : 0 ≤ round x := by
  rcases hx.eq_or_lt with rfl | hx
  · exact round_zero.ge
  · exact (round_pos hx).le

theorem round_mono (hx : 0 ≤ x) (h : x ≤ y) : round x ≤ round y := by
  rcases hx.eq_or_lt with rfl | hx
  · rw [round_zero]
    exact round_nonneg h
  have hy := hx.trans_le h
  rcases (Int.log_mono_right (b := 2) hx h).lt_or_eq with hLt | hEq
  · calc round x ≤ 2 ^ (Int.log 2 x + 1) := (round_mem hx).2
      _ ≤ 2 ^ Int.log 2 y := zpow_le_zpow_right₀ one_le_two hLt
      _ ≤ round y := (round_mem hy).1
  · unfold round
    dsimp only
    rw [abs_of_pos hx, abs_of_pos hy, hEq]
    have hPos : (0 : ℚ) < 2 ^ (Int.log 2 y - 52) := zpow_pos two_pos _
    apply mul_le_mul_of_nonneg_right _ hPos.le
    exact_mod_cast toNearest_mono (div_le_div_of_nonneg_right h hPos.le)

@[simp] theorem ofNat_zero : ofNat 0 = 0 := round_zero

theorem ofNat_pos (h : 0 < n) : 0 < ofNat n := round_pos (by exact_mod_cast h)

theorem ofNat_nonneg (n : Nat) : 0 ≤ ofNat n := round_nonneg (Nat.cast_nonneg n)

theorem ofNat_mono (h : m ≤ n) : ofNat m ≤ ofNat n :=
  round_mono (Nat.cast_nonneg m) (by exact_mod_cast h)

@[simp] theorem div_zero_left (y : ℚ) : div 0 y = 0 := by
  rw [div, zero_div, round_zero]

theorem div_is_pos (hx : 0 < x) (hy : 0 < y) : 0 < div x y := round_pos (div_pos hx hy)

/-- A quotient is no smaller with a larger number above and a smaller one below. -/
theorem div_mono (ha : 0 ≤ a) (hb : 0 < y) (hx : a ≤ x) (hy : y ≤ b) : div a b ≤ div x y :=
  round_mono (div_nonneg ha (hb.le.trans hy)) (div_le_div₀ (ha.trans hx) hx hb hy)

-- The two whole numbers next to `2 ^ 53 + 1` are as near, and the one below has the even mantissa.
example : ofNat (2 ^ 53 + 1) = 2 ^ 53 ∧ ofNat (2 ^ 53 + 3) = 2 ^ 53 + 4 := by decide +kernel

example : div 1 10 = 3602879701896397 / 2 ^ 55 := by decide +kernel

end Binary64
