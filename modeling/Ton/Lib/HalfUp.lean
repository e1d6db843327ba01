import Mathlib
/-!
# Quotients rounded half up

`halfUp v m` is the integer nearest to `v / (2 * m)`. A real number has a nearest integer, and
one between 0 and 1 has a power of two that brings it to a given number of bits.
-/

def halfUp (v m : Nat) : Nat := (v + m) / (2 * m)

section
variable {v m c : Nat}

theorem abs_halfUp_sub_le (v : Nat) (hm : 0 < m) : |(halfUp v m : ℝ) - v / (2 * m)| ≤ 1 / 2 := by
  have h2m : 0 < 2 * m := by omega
  have hle : halfUp v m * (2 * m) ≤ v + m := Nat.div_mul_le_self _ _
  have hlt : v + m < (halfUp v m + 1) * (2 * m) := by
    rw [halfUp, Nat.add_mul, Nat.one_mul]
    exact Nat.lt_div_mul_add h2m
  have hle' : (halfUp v m : ℝ) * (2 * m) ≤ v + m := by exact_mod_cast hle
  have hlt' : (v : ℝ) + m < (halfUp v m + 1) * (2 * m) := by exact_mod_cast hlt
  have hpos : (0 : ℝ) < 2 * m := by exact_mod_cast h2m
  have hmul : (halfUp v m : ℝ) - v / (2 * m) = (halfUp v m * (2 * m) - v) / (2 * m) := by
    field_simp
  rw [hmul, abs_le, le_div_iff₀ hpos, div_le_iff₀ hpos]
  constructor
  · linarith
  · linarith

theorem halfUp_le (hm : 0 < m) (h : v ≤ c * (2 * m)) : halfUp v m ≤ c := by
  rw [halfUp, ← Nat.lt_succ_iff, Nat.div_lt_iff_lt_mul (by omega), Nat.succ_mul]
  omega

theorem halfUp_two_pow (v j : Nat) : halfUp v (2 ^ j) = (v / 2 ^ j + 1) / 2 := by
  rw [halfUp, Nat.mul_comm, ← Nat.div_div_eq_div_mul, Nat.add_div_right _ (Nat.two_pow_pos j)]

end

/-! ## Nearest integers -/

def IsNearest (n : Nat) (r : ℝ) : Prop := |(n : ℝ) - r| ≤ 1 / 2

noncomputable def nearest (r : ℝ) : Nat := ⌊r + 1 / 2⌋₊

/-- `r` in units of `2 ^ -k`. -/
noncomputable def scaled (r : ℝ) (k : Nat) : ℝ := r * 2 ^ k

section
variable {r : ℝ} {n m : Nat}

theorem isNearest_nearest (hr : 0 ≤ r) : IsNearest (nearest r) r := by
  have h0 : 0 ≤ r + 1 / 2 := by linarith
  have hle := Nat.floor_le h0
  have hlt := Nat.lt_floor_add_one (r + 1 / 2)
  rw [IsNearest, nearest, abs_le]
  constructor
  · linarith
  · linarith

theorem IsNearest.eq (h : IsNearest n r) (hm : |r - m| < 1 / 2) : n = m := by
  have hdist : |(n : ℝ) - m| < 1 := by
    calc |(n : ℝ) - m| = |((n : ℝ) - r) + (r - m)| := by ring_nf
      _ ≤ |(n : ℝ) - r| + |r - m| := abs_add_le _ _
      _ < 1 / 2 + 1 / 2 := add_lt_add_of_le_of_lt h hm
      _ = 1 := by norm_num
  have hint : |(n : ℤ) - m| < 1 := by exact_mod_cast hdist
  have hzero := Int.abs_lt_one_iff.1 hint
  omega

theorem exists_normal {e : ℝ} (h0 : 0 < e) (h1 : e < 1) {w : Nat} (hw : 0 < w) :
    ∃ j n : Nat, 0 < j ∧ 2 ^ w ≤ n ∧ n < 2 ^ (w + 1) ∧ IsNearest n (e * 2 ^ j) := by
  have hlarge : ∃ j : Nat, 2 ^ w ≤ ⌊e * 2 ^ j + 1 / 2⌋₊ := by
    obtain ⟨j, hj⟩ := pow_unbounded_of_one_lt (2 ^ w / e : ℝ) one_lt_two
    refine ⟨j, Nat.le_floor ?_⟩
    rw [div_lt_iff₀ h0] at hj
    push_cast
    linarith [mul_comm e ((2 : ℝ) ^ j)]
  classical
  have hfind := Nat.find_spec hlarge
  have hmin : ∀ i, i < Nat.find hlarge → ¬2 ^ w ≤ ⌊e * 2 ^ i + 1 / 2⌋₊ := fun i hi => Nat.find_min hlarge hi
  generalize Nat.find hlarge = j at hfind hmin
  cases j with
  | zero =>
    have hsmall : ⌊e * 2 ^ 0 + 1 / 2⌋₊ < 2 := by
      rw [Nat.floor_lt (by positivity)]
      push_cast
      linarith
    have hpow : 2 ^ 1 ≤ 2 ^ w := Nat.pow_le_pow_right (by decide) hw
    omega
  | succ i =>
    have hbefore := hmin i (Nat.lt_succ_self i)
    rw [not_le, Nat.floor_lt (by positivity)] at hbefore
    push_cast at hbefore
    refine ⟨i + 1, ⌊e * 2 ^ (i + 1) + 1 / 2⌋₊, Nat.succ_pos i, hfind, ?_, isNearest_nearest (by positivity)⟩
    rw [Nat.floor_lt (by positivity)]
    push_cast
    rw [pow_succ, pow_succ]
    linarith

end
