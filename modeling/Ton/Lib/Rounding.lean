import Mathlib
/-!
# Rounded division

The quotient of two integers rounded down, to the nearest integer with ties up,
or up. Each of them is the only integer that leaves a remainder in its range.
-/

/-- `x / y` rounded down for a negative mode, to the nearest for zero and up for a positive one. -/
def roundDiv (mode x y : Int) : Int :=
  if mode < 0 then x.fdiv y
  else if mode = 0 then (2 * x + y).fdiv (2 * y)
  else -(-x).fdiv y

/-- The remainders that a rounded division leaves. -/
def IsRemainder (mode y r : Int) : Prop :=
  if mode < 0 then 0 ≤ r ∧ r < y ∨ y < r ∧ r ≤ 0
  else if mode = 0 then -y ≤ 2 * r ∧ 2 * r < y ∨ y < 2 * r ∧ 2 * r ≤ -y
  else -y < r ∧ r ≤ 0 ∨ 0 ≤ r ∧ r < -y

instance (mode y r : Int) : Decidable (IsRemainder mode y r) := by
  unfold IsRemainder
  infer_instance

section
variable {mode x y q : Int}

theorem fdiv_bounds (x : Int) (hy : y ≠ 0) : 0 ≤ x - x.fdiv y * y ∧ x - x.fdiv y * y < y ∨ y < x - x.fdiv y * y ∧ x - x.fdiv y * y ≤ 0 := by
  have hmod := Int.fmod_add_fdiv_mul x y
  rcases lt_or_gt_of_ne hy with hneg | hpos
  · have h1 := Int.fmod_nonneg_of_pos (-x) (show 0 < -y by omega)
    have h2 := Int.fmod_lt_of_pos (-x) (show 0 < -y by omega)
    rw [Int.neg_fmod_neg] at h1 h2
    exact .inr ⟨by omega, by omega⟩
  · have h1 := Int.fmod_nonneg_of_pos x hpos
    have h2 := Int.fmod_lt_of_pos x hpos
    exact .inl ⟨by omega, by omega⟩

theorem roundDiv_remainder (mode x : Int) (hy : y ≠ 0) : IsRemainder mode y (x - roundDiv mode x y * y) := by
  unfold IsRemainder roundDiv
  split
  · exact fdiv_bounds x hy
  split
  · have h := fdiv_bounds (2 * x + y) (y := 2 * y) (by omega)
    rw [show 2 * x + y - (2 * x + y).fdiv (2 * y) * (2 * y) = 2 * (x - (2 * x + y).fdiv (2 * y) * y) + y by ring] at h
    omega
  · have h := fdiv_bounds (-x) hy
    rw [show -x - (-x).fdiv y * y = -(x - -(-x).fdiv y * y) by ring] at h
    omega

theorem IsRemainder.abs_sub_lt {r r' : Int} (h : IsRemainder mode y r) (h' : IsRemainder mode y r') : |r' - r| < |y| := by
  unfold IsRemainder at h h'
  rw [abs_lt]
  by_cases h0 : mode < 0
  · rw [if_pos h0] at h h'
    rcases abs_cases y with hy | hy <;> omega
  rw [if_neg h0] at h h'
  by_cases h1 : mode = 0
  · rw [if_pos h1] at h h'
    rcases abs_cases y with hy | hy <;> omega
  · rw [if_neg h1] at h h'
    rcases abs_cases y with hy | hy <;> omega

theorem IsRemainder.unique {q' : Int} (h : IsRemainder mode y (x - q * y)) (h' : IsRemainder mode y (x - q' * y)) : q = q' := by
  have hlt := h.abs_sub_lt h'
  rw [show x - q' * y - (x - q * y) = (q - q') * y by ring, abs_mul] at hlt
  have h0 : |q - q'| < 1 := by
    by_contra hge
    have := mul_le_mul_of_nonneg_right (not_lt.1 hge) (abs_nonneg y)
    omega
  have := Int.abs_lt_one_iff.1 h0
  omega

theorem roundDiv_eq (hy : y ≠ 0) (h : IsRemainder mode y (x - q * y)) : roundDiv mode x y = q :=
  (roundDiv_remainder mode x hy).unique h

theorem roundDiv_add_mul (mode a : Int) (hy : y ≠ 0) (c : Int) : roundDiv mode (a + y * c) y = roundDiv mode a y + c := by
  apply roundDiv_eq hy
  rw [show a + y * c - (roundDiv mode a y + c) * y = a - roundDiv mode a y * y by ring]
  exact roundDiv_remainder mode a hy

@[simp] theorem roundDiv_one (mode x : Int) : roundDiv mode x 1 = x := by
  apply roundDiv_eq one_ne_zero
  unfold IsRemainder
  split_ifs <;> simp

end

/-! ## Dividing by a positive number -/

section
variable {x y : Int}

theorem roundDiv_neg {mode : Int} (hm : mode < 0) (hy : 0 < y) (x : Int) : roundDiv mode x y = x / y := by
  rw [roundDiv, if_pos hm, Int.fdiv_eq_ediv_of_nonneg _ hy.le]

theorem roundDiv_zero (hy : 0 < y) (x : Int) : roundDiv 0 x (2 * y) = (x + y) / (2 * y) := by
  rw [roundDiv, if_neg (lt_irrefl 0), if_pos rfl, Int.fdiv_eq_ediv_of_nonneg _ (by omega),
    show 2 * x + 2 * y = 2 * (x + y) by ring, Int.mul_ediv_mul_of_pos _ _ two_pos]

theorem roundDiv_pos {mode : Int} (hm : 0 < mode) (hy : 0 < y) (x : Int) : roundDiv mode x y = (x - 1) / y + 1 := by
  apply roundDiv_eq hy.ne'
  have h1 := Int.emod_add_mul_ediv (x - 1) y
  have h2 := Int.emod_nonneg (x - 1) hy.ne'
  have h3 := Int.emod_lt_of_pos (x - 1) hy
  have h4 : x - ((x - 1) / y + 1) * y = (x - 1) % y + 1 - y := by linear_combination -h1
  unfold IsRemainder
  rw [if_neg (by omega), if_neg (by omega), h4]
  omega

theorem roundDiv_small {mode : Int} (h1 : -y < 2 * x) (h2 : 2 * x < y) :
    roundDiv mode x y = if mode = 0 then 0 else if mode < 0 then (if x < 0 then -1 else 0) else (if x > 0 then 1 else 0) := by
  apply roundDiv_eq (by omega)
  unfold IsRemainder
  split_ifs <;> omega

end
