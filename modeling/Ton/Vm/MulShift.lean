import Ton.BigInt.Columns
import Ton.Vm.Shift
/-!
# Shifted products on the stack

`exec_mulshrmod` shifts the columns of a product, or takes their remainder, before
they are normalised. What it pushes is exact where the columns carry nothing across
the exponent that the rounding does not expect, and a bit or more off elsewhere.
-/

namespace Ton.Vm

open BigInt SignedDigits Result

def exec_mulshrmod (args mode : Nat) (st : Stack) : Except Excno Stack := do
  let (a, st) ← pop_shift_args 2 args mode st
  let (y, st) ← pop_int st
  let (x, st) ← pop_int st
  let tmp := (bigInt 514 [0]).add_mul_any x y
  push_results a.variant (make_refint (tmp.rshift_any a.exponent a.mode).normalize_bool_any)
    (make_refint (tmp.mod_pow2_round a.exponent a.mode).normalize_bool_any) (mode % 2 = 1) st

/-! ## Pushing an integer with more words -/

section
variable {r : AnyIntView} {w : Int}

@[simp] theorem max_size_make_refint (x : AnyIntView) : (make_refint x).max_size = 5 := by
  unfold make_refint
  split
  · next h =>
    unfold AnyIntView.set_any at h
    split at h <;> cases h
    rfl
  · rfl

/-- A normalised number of more words, which is not a number when it has no 257 bits. -/
theorem make_refint_computes (hr : Normal Half r.digits) : Computes (make_refint r) r.toInt := by
  unfold make_refint AnyIntView.set_any
  by_cases hsize : r.size ≤ (bigInt 257 []).max_size
  · rw [if_pos hsize]
    exact AnyIntView.Is.computes ⟨hr, rfl, hsize⟩
  · rw [if_neg hsize]
    refine computes_nan rfl fun hfit => hsize ?_
    exact hr.length_le_of_inRange base_eq half_pos (Nat.succ_pos 4) hfit.inRange

theorem make_refint_is (hr : r.Is w) : Computes (make_refint r) w := hr.toInt ▸ make_refint_computes hr.normal

end

/-! ## Exactness -/

/-- A variant of `exec_mulshrmod` pushes the exact results. -/
def MulShiftExact (x y : Int257) (z : Nat) (mode : Int) (variant : Nat) : Prop :=
  let q := roundDiv mode (x.toInt * y.toInt) (2 ^ z)
  PushesExactly exec_mulshrmod [.int y.view, .int x.view] z mode variant q (x.toInt * y.toInt - q * 2 ^ z)

section
variable {mode : Int} {z variant : Nat}

theorem exec_mulshrmod_eq {x y : AnyIntView} {args m : Nat} {a : ShiftArgs} {st₀ st : Stack}
    (hpop : pop_shift_args 2 args m st₀ = .ok (a, .int y :: .int x :: st)) :
    exec_mulshrmod args m st₀ =
      push_results a.variant (make_refint (((bigInt 514 [0]).add_mul_any x y).rshift_any a.exponent a.mode).normalize_bool_any)
        (make_refint (((bigInt 514 [0]).add_mul_any x y).mod_pow2_round a.exponent a.mode).normalize_bool_any) (m % 2 = 1) st := by
  unfold exec_mulshrmod
  rw [hpop, ok_bind]
  rfl

/-- How many columns a product has. -/
def column_count (x y : Int257) : Nat := x.view.size + y.view.size

/-- The last column of a product: the high word of the product of the highest digits. -/
def last_column (x y : Int257) : Int := x.view.top_word * y.view.top_word / Base

theorem product_bounds (x y : Int257) : -2 ^ 512 ≤ x.toInt * y.toInt ∧ x.toInt * y.toInt ≤ 2 ^ 512 := by
  have h1 : |x.toInt| ≤ 2 ^ 256 := abs_le.2 ⟨x.fits.1, x.fits.2.le⟩
  have h2 : |y.toInt| ≤ 2 ^ 256 := abs_le.2 ⟨y.fits.1, y.fits.2.le⟩
  have h3 := mul_le_mul h1 h2 (abs_nonneg _) (by norm_num)
  rw [← abs_mul, ← pow_add] at h3
  exact abs_le.1 h3

theorem quotient_inRange (x y : Int257) (mode : Int) (z : Nat) :
    InRange Base Half 10 (roundDiv mode (x.toInt * y.toInt) (2 ^ z)) := by
  have hp : (1 : Int) ≤ 2 ^ z := one_le_pow₀ one_le_two
  obtain ⟨h1, h2⟩ := product_bounds x y
  have hrem := roundDiv_remainder mode (x.toInt * y.toInt) (show (2 : Int) ^ z ≠ 0 by omega)
  have habs : -2 ^ z ≤ x.toInt * y.toInt - roundDiv mode (x.toInt * y.toInt) (2 ^ z) * 2 ^ z ∧
      x.toInt * y.toInt - roundDiv mode (x.toInt * y.toInt) (2 ^ z) * 2 ^ z ≤ 2 ^ z := by
    unfold IsRemainder at hrem
    split at hrem
    · omega
    split at hrem <;> omega
  generalize x.toInt * y.toInt = v at *
  generalize roundDiv mode v (2 ^ z) = q at *
  generalize (2 : Int) ^ z = p at *
  have hq : -2 ^ 512 - 1 ≤ q ∧ q ≤ 2 ^ 512 + 1 := by
    constructor
    · by_contra hlt
      have hmul := mul_le_mul_of_nonneg_right (show q + 2 ^ 512 + 2 ≤ 0 by omega) (show 0 ≤ p by omega)
      rw [Int.add_mul, Int.add_mul] at hmul
      omega
    · by_contra hgt
      have hmul := mul_le_mul_of_nonneg_right (show 0 ≤ q - 2 ^ 512 - 2 by omega) (show 0 ≤ p by omega)
      rw [Int.sub_mul, Int.sub_mul] at hmul
      omega
  simp only [InRange, ones, Base, Half]
  omega

end

end Ton.Vm
