import Mathlib
/-!
# Operations on the bits of integers

An operation that works on each bit of two's complement numbers works on the low
and the high bits apart, so a number can be taken in pieces.
-/

/-- `op` computes `f` on each bit. -/
def Bitwise (f : Bool → Bool → Bool) (op : Int → Int → Int) : Prop :=
  ∀ a m b n, op (Int.bit a m) (Int.bit b n) = Int.bit (f a b) (op m n)

namespace Bitwise
open Int

theorem land : Bitwise and Int.land := land_bit

theorem lor : Bitwise or Int.lor := lor_bit

theorem xor : Bitwise Bool.xor Int.xor := lxor_bit

variable {f : Bool → Bool → Bool} {op : Int → Int → Int} (h : Bitwise f op)
include h

theorem eq_bit (m n : Int) : op m n = 2 * op (m / 2) (n / 2) + cond (f (m.bodd) (n.bodd)) 1 0 := by
  conv_lhs => rw [← bit_decomp m, ← bit_decomp n, h, bit_val, div2_val, div2_val]

theorem div_two (m n : Int) : op m n / 2 = op (m / 2) (n / 2) := by
  rw [h.eq_bit m n]
  cases f m.bodd n.bodd
  · simp
  · simp only [cond_true]
    omega

/-- The low bits of a result come from the low bits, the others from the others. -/
theorem split (k : Nat) (a b m n : Int) :
    op (a + 2 ^ k * m) (b + 2 ^ k * n) = op a b % 2 ^ k + 2 ^ k * op (a / 2 ^ k + m) (b / 2 ^ k + n) := by
  induction k generalizing a b with
  | zero => simp
  | succ k ih =>
    have hhalf : ∀ c t : Int, (c + 2 ^ (k + 1) * t) / 2 = c / 2 + 2 ^ k * t := by
      intro c t
      rw [pow_succ, mul_comm _ (2 : Int), mul_assoc, add_mul_ediv_left _ _ two_ne_zero]
    have hodd : ∀ c t : Int, (c + 2 ^ (k + 1) * t).bodd = c.bodd := by
      intro c t
      rw [pow_succ, bodd_add, bodd_mul, bodd_mul]
      simp [bodd_two]
    have hdiv : ∀ c : Int, c / 2 / 2 ^ k = c / 2 ^ (k + 1) := by
      intro c
      rw [pow_succ, mul_comm, ediv_ediv_of_nonneg zero_le_two]
    -- the lowest bit beside those below `2 ^ (k + 1)`
    have hmod : op a b % 2 ^ (k + 1) = 2 * (op (a / 2) (b / 2) % 2 ^ k) + cond (f a.bodd b.bodd) 1 0 := by
      have h0 := emod_nonneg (op (a / 2) (b / 2)) (show (2 : Int) ^ k ≠ 0 by positivity)
      have h1 := emod_lt_of_pos (op (a / 2) (b / 2)) (show (0 : Int) < 2 ^ k by positivity)
      have h2 := emod_add_mul_ediv (op (a / 2) (b / 2)) (2 ^ k)
      have hc : (0 : Int) ≤ cond (f a.bodd b.bodd) 1 0 ∧ cond (f a.bodd b.bodd) (1 : Int) 0 ≤ 1 := by
        cases f a.bodd b.bodd <;> simp
      rw [h.eq_bit a b, show 2 * op (a / 2) (b / 2) + cond (f a.bodd b.bodd) 1 0 =
        2 * (op (a / 2) (b / 2) % 2 ^ k) + cond (f a.bodd b.bodd) 1 0 + 2 ^ (k + 1) * (op (a / 2) (b / 2) / 2 ^ k) by
          rw [pow_succ]; linear_combination -2 * h2, add_mul_emod_self_left]
      exact emod_eq_of_lt (by omega) (by rw [pow_succ]; omega)
    rw [h.eq_bit (a + _), hhalf, hhalf, hodd, hodd, ih, hmod, hdiv, hdiv, pow_succ]
    ring

theorem div_pow (k : Nat) (m n : Int) : op m n / 2 ^ k = op (m / 2 ^ k) (n / 2 ^ k) := by
  have hpos : (0 : Int) < 2 ^ k := by positivity
  have hs := h.split k (m % 2 ^ k) (n % 2 ^ k) (m / 2 ^ k) (n / 2 ^ k)
  rw [emod_add_mul_ediv, emod_add_mul_ediv, ediv_eq_zero_of_lt (emod_nonneg _ hpos.ne') (emod_lt_of_pos _ hpos),
    ediv_eq_zero_of_lt (emod_nonneg _ hpos.ne') (emod_lt_of_pos _ hpos), zero_add, zero_add] at hs
  rw [hs, add_mul_ediv_left _ _ hpos.ne', ediv_eq_zero_of_lt (emod_nonneg _ hpos.ne') (emod_lt_of_pos _ hpos), zero_add]

theorem sign {m n : Int} (hm : m = 0 ∨ m = -1) (hn : n = 0 ∨ n = -1) : op m n = 0 ∨ op m n = -1 := by
  have hfix := h.div_two m n
  rw [show m / 2 = m by omega, show n / 2 = n by omega] at hfix
  omega

omit h in
theorem eq_of_lowest {g k : Int → Int} (hg : ∀ w, g w - 2 * g (w / 2) = k w - 2 * k (w / 2)) (w : Int) : g w = k w := by
  induction hn : w.natAbs using Nat.strong_induction_on generalizing w with
  | _ n ih =>
    have hw := hg w
    by_cases hfix : w / 2 = w
    · rw [hfix] at hw
      omega
    · have := ih (w / 2).natAbs (by omega) (w / 2) rfl
      omega

/-- The number all of whose bits are `a`. -/
def all (a : Bool) : Int := if a then -1 else 0

omit h in
theorem all_div_two (a : Bool) : all a / 2 = all a := by cases a <;> rfl

omit h in
theorem bodd_all (a : Bool) : (all a).bodd = a := by cases a <;> rfl

omit h in
theorem bit_eq (w : Int) : w - 2 * (w / 2) = cond w.bodd 1 0 := by
  have := bodd_add_div2 w
  rw [div2_val] at this
  omega

theorem all_left {a : Bool} (ha : ∀ b, f a b = b) (w : Int) : op (all a) w = w := by
  refine eq_of_lowest (g := op (all a)) (k := id) (fun w => ?_) w
  rw [h.eq_bit, all_div_two, bodd_all, ha, id, id, bit_eq]
  ring

theorem all_right {a : Bool} (ha : ∀ b, f b a = b) (w : Int) : op w (all a) = w := by
  refine eq_of_lowest (g := fun w => op w (all a)) (k := id) (fun w => ?_) w
  rw [h.eq_bit, all_div_two, bodd_all, ha, id, id, bit_eq]
  ring

theorem const_left {a e : Bool} (ha : ∀ b, f a b = e) (w : Int) : op (all a) w = all e := by
  refine eq_of_lowest (g := op (all a)) (k := fun _ => all e) (fun w => ?_) w
  rw [h.eq_bit, all_div_two, bodd_all, ha]
  cases e <;> simp [all]

theorem const_right {a e : Bool} (ha : ∀ b, f b a = e) (w : Int) : op w (all a) = all e := by
  refine eq_of_lowest (g := fun w => op w (all a)) (k := fun _ => all e) (fun w => ?_) w
  rw [h.eq_bit, all_div_two, bodd_all, ha]
  cases e <;> simp [all]

end Bitwise
