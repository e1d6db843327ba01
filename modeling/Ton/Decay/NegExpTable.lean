import Ton.Lib.HalfUp
/-!
# Exponential decay of a counter

`NegExpInt64Table::umulnexps32` of `bigexp.cpp`: three products with entries of tables, on words of
64 and 128 bits. An array is a function of the index. `exact` is what the words compute when no
bits are lost.
-/

namespace Ton.Decay
open BitVec hiding not_or shiftLeft_eq
open Nat

/-! ## `td::uint128` -/

/-- `from_unsigned(x).mult(y)`. -/
def mult (x y : BitVec 64) : BitVec 128 := x.setWidth 128 * y.setWidth 128

def rounded_hi (v : BitVec 128) : BitVec 64 := ((v + 1#128 <<< 63) >>> 64).setWidth 64

def lo (v : BitVec 128) : BitVec 64 := v.setWidth 64

/-- `count_leading_zeroes_non_zero64`. -/
def count_leading_zeroes (x : BitVec 64) : Nat := 63 - x.toNat.log2

/-! ## The table -/

def max_exp : Nat := 45

structure NegExpInt64Table where
  table0_shift : Nat → BitVec 8
  table0 : Nat → BitVec 64
  table1 : Nat → BitVec 64
  table2 : Nat → BitVec 64

namespace NegExpInt64Table

variable (T : NegExpInt64Table)

def mul_low (x : BitVec 64) (k2 : Nat) : BitVec 64 :=
  if k2 ≠ 0 then x - ((rounded_hi (mult x (T.table2 k2)) + 0x80) >>> 8) else x

def mul_middle (x : BitVec 64) (k1 : Nat) : BitVec 64 :=
  if k1 ≠ 0 then x - rounded_hi (mult x (T.table1 k1)) else x

/-- The part for whole exponents, which undoes the shift by `s` too. -/
def mul_high (x : BitVec 64) (k0 s : Nat) (trunc : Bool) : BitVec 64 :=
  if k0 ≠ 0 then
    if trunc then lo (mult x (T.table0 k0) >>> ((T.table0_shift k0).toNat + s + 1))
    else (lo (mult x (T.table0 k0) >>> ((T.table0_shift k0).toNat + s)) + 1) >>> 1
  else if s = 0 then x
  else if trunc then x >>> s
  else ((x >>> (s - 1)) + 1) >>> 1

/-- `x * exp(-k / 2^16)`. -/
def umulnexps32 (x : BitVec 64) (k : BitVec 32) (trunc : Bool) : BitVec 64 :=
  if k = 0 ∨ x = 0 then x
  else
    let k0 := (k >>> 16).toNat
    if k0 > max_exp then 0
    else
      let s := count_leading_zeroes x
      let k1 := ((k >>> 8) &&& 0xff).toNat
      let k2 := (k &&& 0xff).toNat
      T.mul_high (T.mul_middle (T.mul_low (x <<< s) k2) k1) k0 s trunc

/-! ## Without words -/

def exact_low (x k2 : Nat) : Nat := if k2 ≠ 0 then x - halfUp (halfUp (x * (T.table2 k2).toNat) (2 ^ 63)) (2 ^ 7) else x

def exact_middle (x k1 : Nat) : Nat := if k1 ≠ 0 then x - halfUp (x * (T.table1 k1).toNat) (2 ^ 63) else x

def exact_high (x k0 s : Nat) : Nat :=
  if k0 ≠ 0 then halfUp (x * (T.table0 k0).toNat) (2 ^ ((T.table0_shift k0).toNat + s))
  else if s = 0 then x
  else halfUp x (2 ^ (s - 1))

/-- The product is rounded, and no step is cut to a word. -/
def exact (x k : Nat) : Nat :=
  if k = 0 ∨ x = 0 then x
  else if k / 2 ^ 16 > max_exp then 0
  else T.exact_high (T.exact_middle (T.exact_low (x * 2 ^ (63 - x.log2)) (k % 2 ^ 8)) (k / 2 ^ 8 % 2 ^ 8)) (k / 2 ^ 16) (63 - x.log2)

end NegExpInt64Table

/-! ## No bits are lost -/

theorem mult_toNat (x y : BitVec 64) : (mult x y).toNat = x.toNat * y.toNat := by
  have hlt : x.toNat * y.toNat < 2 ^ 128 := lt_of_lt_of_eq (Nat.mul_lt_mul'' x.isLt y.isLt) (by norm_num)
  have hx : x.toNat < 2 ^ 128 := lt_trans x.isLt (by decide)
  have hy : y.toNat < 2 ^ 128 := lt_trans y.isLt (by decide)
  rw [mult, toNat_mul, toNat_setWidth, toNat_setWidth, mod_eq_of_lt hx, mod_eq_of_lt hy, mod_eq_of_lt hlt]

theorem rounded_hi_mult (x y : BitVec 64) : (rounded_hi (mult x y)).toNat = halfUp (x.toNat * y.toNat) (2 ^ 63) := by
  have hx := x.isLt
  have hy := y.isLt
  have hmul : x.toNat * y.toNat ≤ (2 ^ 64 - 1) * (2 ^ 64 - 1) := Nat.mul_le_mul (by omega) (by omega)
  have hone : (1#128 <<< 63).toNat = 2 ^ 63 := by decide
  have hsum : x.toNat * y.toNat + 2 ^ 63 < 2 ^ 128 := by omega
  have hdiv : (x.toNat * y.toNat + 2 ^ 63) / 2 ^ 64 < 2 ^ 64 := by omega
  rw [rounded_hi, toNat_setWidth, toNat_ushiftRight, toNat_add, mult_toNat, hone, mod_eq_of_lt hsum,
    shiftRight_eq_div_pow, mod_eq_of_lt hdiv]
  rfl

/-- The top bit is set after the shift, and no bit is shifted out. -/
theorem shift_bounds {x : Nat} (h0 : x ≠ 0) (h : x < 2 ^ 64) :
    x.log2 ≤ 63 ∧ 2 ^ 63 ≤ x * 2 ^ (63 - x.log2) ∧ x * 2 ^ (63 - x.log2) < 2 ^ 64 := by
  have hlog : x.log2 ≤ 63 := by
    have := (log2_lt h0).2 h
    omega
  have hlow := log2_self_le h0
  have hhigh := lt_log2_self (n := x)
  have h63 : 2 ^ 63 = 2 ^ x.log2 * 2 ^ (63 - x.log2) := by
    rw [← Nat.pow_add]
    congr 1
    omega
  have h64 : 2 ^ 64 = 2 ^ (x.log2 + 1) * 2 ^ (63 - x.log2) := by
    rw [← Nat.pow_add]
    congr 1
    omega
  refine ⟨hlog, ?_, ?_⟩
  · rw [h63]
    exact Nat.mul_le_mul_right _ hlow
  · rw [h64]
    exact Nat.mul_lt_mul_of_pos_right hhigh (Nat.two_pow_pos _)

theorem shift_toNat {x : BitVec 64} (h0 : x ≠ 0) : (x <<< count_leading_zeroes x).toNat = x.toNat * 2 ^ (63 - x.toNat.log2) := by
  have hne : x.toNat ≠ 0 := fun h => h0 (eq_of_toNat_eq h)
  rw [toNat_shiftLeft, count_leading_zeroes, shiftLeft_eq, mod_eq_of_lt (shift_bounds hne x.isLt).2.2]

namespace NegExpInt64Table

variable {T : NegExpInt64Table}

theorem exact_low_le (x k2 : Nat) : T.exact_low x k2 ≤ x := by
  unfold exact_low
  split
  · exact sub_le _ _
  · exact le_refl _

theorem exact_middle_le (x k1 : Nat) : T.exact_middle x k1 ≤ x := by
  unfold exact_middle
  split
  · exact sub_le _ _
  · exact le_refl _

theorem middle_fits (x t : BitVec 64) : halfUp (x.toNat * t.toNat) (2 ^ 63) ≤ x.toNat := by
  have ht := t.isLt
  exact halfUp_le (by decide) (Nat.mul_le_mul_left _ (by omega))

theorem low_fits {x t : Nat} (hx : 2 ^ 63 ≤ x) (hx' : x < 2 ^ 64) (ht : t ≤ 255 * 2 ^ 56) :
    halfUp (x * t) (2 ^ 63) ≤ 255 * 2 ^ 56 ∧ halfUp (halfUp (x * t) (2 ^ 63)) (2 ^ 7) ≤ x := by
  have hhi : halfUp (x * t) (2 ^ 63) ≤ 255 * 2 ^ 56 := by
    refine halfUp_le (by decide) ?_
    rw [Nat.mul_comm]
    exact Nat.mul_le_mul ht (by omega)
  have hr : halfUp (x * t) (2 ^ 63) ≤ x * (2 * 2 ^ 7) := by
    calc halfUp (x * t) (2 ^ 63) ≤ 255 * 2 ^ 56 := hhi
      _ ≤ 2 ^ 63 * (2 * 2 ^ 7) := by norm_num
      _ ≤ x * (2 * 2 ^ 7) := Nat.mul_le_mul_right _ hx
  exact ⟨hhi, halfUp_le (Nat.two_pow_pos 7) hr⟩

theorem mul_low_toNat {x : BitVec 64} {k2 : Nat} (hx : 2 ^ 63 ≤ x.toNat) (ht : (T.table2 k2).toNat ≤ 255 * 2 ^ 56) :
    (T.mul_low x k2).toNat = T.exact_low x.toNat k2 := by
  unfold mul_low exact_low
  split
  · obtain ⟨hhi, hle⟩ := low_fits hx x.isLt ht
    have hadd : (rounded_hi (mult x (T.table2 k2)) + 0x80).toNat = halfUp (x.toNat * (T.table2 k2).toNat) (2 ^ 63) + 128 := by
      rw [toNat_add, rounded_hi_mult]
      exact mod_eq_of_lt (by show _ + 128 < 2 ^ 64; omega)
    have hshift : ((rounded_hi (mult x (T.table2 k2)) + 0x80) >>> 8).toNat = halfUp (halfUp (x.toNat * (T.table2 k2).toNat) (2 ^ 63)) (2 ^ 7) := by
      rw [toNat_ushiftRight, hadd, shiftRight_eq_div_pow]
      rfl
    rw [toNat_sub_of_le, hshift]
    rw [le_def, hshift]
    exact hle
  · rfl

theorem mul_middle_toNat (x : BitVec 64) (k1 : Nat) : (T.mul_middle x k1).toNat = T.exact_middle x.toNat k1 := by
  unfold mul_middle exact_middle
  split
  · have hle := middle_fits x (T.table1 k1)
    rw [toNat_sub_of_le, rounded_hi_mult]
    rw [le_def, rounded_hi_mult]
    exact hle
  · rfl

theorem mul_high_toNat {x : BitVec 64} {k0 s : Nat} (hx1 : s ≠ 0 → x.toNat + 1 < 2 ^ 64)
    (hshift : k0 ≠ 0 → T.table0 k0 = 0 ∨ 64 ≤ (T.table0_shift k0).toNat) :
    (T.mul_high x k0 s false).toNat = T.exact_high x.toNat k0 s := by
  unfold mul_high exact_high
  split
  · next hk0 =>
    have hx := x.isLt
    have ht := (T.table0 k0).isLt
    have hprod : x.toNat * (T.table0 k0).toNat ≤ (2 ^ 64 - 1) * (2 ^ 64 - 1) := Nat.mul_le_mul (by omega) (by omega)
    have hquot : x.toNat * (T.table0 k0).toNat / 2 ^ ((T.table0_shift k0).toNat + s) + 1 < 2 ^ 64 := by
      rcases hshift hk0 with h0 | h64
      · rw [h0]
        simp
      · have hpow : 2 ^ 64 ≤ 2 ^ ((T.table0_shift k0).toNat + s) := Nat.pow_le_pow_right (by decide) (by omega)
        have hdiv : x.toNat * (T.table0 k0).toNat / 2 ^ ((T.table0_shift k0).toNat + s) ≤ x.toNat * (T.table0 k0).toNat / 2 ^ 64 :=
          div_le_div_left hpow (Nat.two_pow_pos 64)
        omega
    rw [if_neg Bool.false_ne_true, halfUp_two_pow, toNat_ushiftRight, toNat_add, lo, toNat_setWidth,
      toNat_ushiftRight, mult_toNat, shiftRight_eq_div_pow, shiftRight_eq_div_pow]
    rw [mod_eq_of_lt (a := _ / 2 ^ ((T.table0_shift k0).toNat + s)) (by omega)]
    show (_ + 1) % 2 ^ 64 / 2 ^ 1 = _
    rw [mod_eq_of_lt hquot]
  · split
    · rfl
    · next h0 =>
      have hquot : x.toNat / 2 ^ (s - 1) + 1 < 2 ^ 64 := lt_of_le_of_lt (succ_le_succ (Nat.div_le_self _ _)) (hx1 h0)
      rw [if_neg Bool.false_ne_true, halfUp_two_pow, toNat_ushiftRight, toNat_add, toNat_ushiftRight,
        shiftRight_eq_div_pow, shiftRight_eq_div_pow]
      show (_ + 1) % 2 ^ 64 / 2 ^ 1 = _
      rw [mod_eq_of_lt hquot]

/-- The function computes its exact value: no product, sum or shift loses high bits. -/
theorem umulnexps32_toNat (ht2 : ∀ i < 256, (T.table2 i).toNat ≤ 255 * 2 ^ 56)
    (ht0 : ∀ i, i ≠ 0 → i ≤ max_exp → T.table0 i = 0 ∨ 64 ≤ (T.table0_shift i).toNat) (x : BitVec 64) (k : BitVec 32) :
    (T.umulnexps32 x k false).toNat = T.exact x.toNat k.toNat := by
  have hk0 : (k >>> 16).toNat = k.toNat / 2 ^ 16 := by rw [toNat_ushiftRight, shiftRight_eq_div_pow]
  have hmask : ∀ y : BitVec 32, (y &&& 0xff).toNat = y.toNat % 2 ^ 8 := by
    intro y
    rw [toNat_and]
    exact and_two_pow_sub_one_eq_mod y.toNat 8
  have hk1 : ((k >>> 8) &&& 0xff).toNat = k.toNat / 2 ^ 8 % 2 ^ 8 := by
    rw [hmask, toNat_ushiftRight, shiftRight_eq_div_pow]
  have hk2 : (k &&& 0xff).toNat = k.toNat % 2 ^ 8 := hmask k
  have hzero : (k = 0 ∨ x = 0) ↔ (k.toNat = 0 ∨ x.toNat = 0) := by
    rw [← toNat_inj, ← toNat_inj]
    rfl
  unfold umulnexps32 exact
  simp only [hzero, hk0, hk1, hk2]
  split
  · rfl
  · next hne =>
    split
    · rfl
    · next hmax =>
      rw [not_or] at hne
      have hx0 : x ≠ 0 := fun h => hne.2 (congrArg BitVec.toNat h)
      obtain ⟨hlog, hlow, hhigh⟩ := shift_bounds hne.2 x.isLt
      have hshift := shift_toNat hx0
      have h2 := T.mul_low_toNat (x := x <<< count_leading_zeroes x) (hshift ▸ hlow) (ht2 (k.toNat % 2 ^ 8) (mod_lt _ (by decide)))
      have hs : count_leading_zeroes x = 63 - x.toNat.log2 := rfl
      rw [mul_high_toNat, mul_middle_toNat, h2, hshift, hs]
      · -- one is added to a number that is even, or was made smaller
        intro hs0
        rw [mul_middle_toNat, h2, hshift]
        have hle := (exact_middle_le (T := T) (T.exact_low (x.toNat * 2 ^ (63 - x.toNat.log2)) (k.toNat % 2 ^ 8)) (k.toNat / 2 ^ 8 % 2 ^ 8)).trans
          (exact_low_le (T := T) (x.toNat * 2 ^ (63 - x.toNat.log2)) (k.toNat % 2 ^ 8))
        have heven : x.toNat * 2 ^ (63 - x.toNat.log2) % 2 = 0 := by
          obtain ⟨j, hj⟩ := exists_eq_succ_of_ne_zero (hs ▸ hs0)
          rw [hj, Nat.pow_succ, ← Nat.mul_assoc, mul_mod_left]
        omega
      · intro h
        exact ht0 _ h (not_lt.1 hmax)

end NegExpInt64Table

end Ton.Decay
