import Mathlib.Data.Int.ModEq
import Mathlib.Data.Nat.ModEq
import Mathlib.Tactic.Ring
import Mathlib.Tactic.Linarith
/-!
# Numbers of 128 bits

`uint128.h`: `uint128_emulated` keeps two words of 64 bits and `uint128_intrinsic` one
number that the compiler knows how to add, multiply and divide. Which of them is `uint128`
depends on the platform. `toNat` says what a pair of words is worth; each operation on
pairs is compared with the operation on numbers.
-/

namespace Ton.Td
open BitVec hiding neg_neg shiftLeft_eq
open Option Nat

abbrev U64 := BitVec 64

/-- `count_leading_zeroes64` of `bits.h`. -/
def count_leading_zeroes64 (x : U64) : Nat := if x = 0 then 64 else 63 - x.toNat.log2

structure uint128_emulated where
  hi : U64
  lo : U64
  deriving DecidableEq

namespace uint128_emulated

def rounded_hi (x : uint128_emulated) : U64 := x.hi + x.lo >>> 63

/-- `x` is an `int64`. -/
def from_signed (x : U64) : uint128_emulated := if 0 ≤ x.toInt then ⟨0, x⟩ else ⟨BitVec.allOnes 64, x⟩

def from_unsigned (x : U64) : uint128_emulated := ⟨0, x⟩

def add (x other : uint128_emulated) : uint128_emulated :=
  let res : uint128_emulated := ⟨other.hi + x.hi, other.lo + x.lo⟩
  if res.lo < x.lo then { res with hi := res.hi + 1 } else res

def shl (x : uint128_emulated) (cnt : Nat) : uint128_emulated :=
  if cnt = 0 then x
  else if cnt < 64 then ⟨x.hi <<< cnt ||| x.lo >>> (64 - cnt), x.lo <<< cnt⟩
  else if cnt < 128 then ⟨x.lo <<< (cnt - 64), 0⟩
  else ⟨0, 0⟩

def shr (x : uint128_emulated) (cnt : Nat) : uint128_emulated :=
  if cnt = 0 then x
  else if cnt < 64 then ⟨x.hi >>> cnt, x.lo >>> cnt ||| x.hi <<< (64 - cnt)⟩
  else if cnt < 128 then ⟨0, x.hi >>> (cnt - 64)⟩
  else ⟨0, 0⟩

def mult (x other : uint128_emulated) : uint128_emulated :=
  let a_lo := x.lo &&& 0xffffffff
  let a_hi := x.lo >>> 32
  let b_lo := other.lo &&& 0xffffffff
  let b_hi := other.lo >>> 32
  let res : uint128_emulated := ⟨x.lo * other.hi + x.hi * other.lo + a_hi * b_hi, a_lo * b_lo⟩
  let add1 : uint128_emulated := ⟨0, a_lo * b_hi⟩
  let add2 : uint128_emulated := ⟨0, a_hi * b_lo⟩
  (res.add (add1.shl 32)).add (add2.shl 32)

/-- `mult` of a `uint64`. -/
def mult64 (x : uint128_emulated) (other : U64) : uint128_emulated := x.mult ⟨0, other⟩

def mult_signed (x : uint128_emulated) (other : U64) : uint128_emulated := x.mult (from_signed other)

def is_zero (x : uint128_emulated) : Bool := x.lo = 0 ∧ x.hi = 0

def sub (x other : uint128_emulated) : uint128_emulated :=
  let carry : U64 := if other.lo > x.lo then 1 else 0
  ⟨x.hi - other.hi - carry, x.lo - other.lo⟩

def is_negative (x : uint128_emulated) : Bool := x.hi >>> 63 = 1

def count_leading_zeroes (x : uint128_emulated) : Nat :=
  if x.hi = 0 then 64 + count_leading_zeroes64 x.lo else count_leading_zeroes64 x.hi

def set_lower_bit (x : uint128_emulated) : uint128_emulated := ⟨x.hi, x.lo ||| 1⟩

def greater_or_equal (x other : uint128_emulated) : Bool := x.hi > other.hi ∨ x.hi = other.hi ∧ x.lo ≥ other.lo

def negate (x : uint128_emulated) : uint128_emulated :=
  let res : uint128_emulated := ⟨~~~x.hi, ~~~x.lo + 1⟩
  if res.lo = 0 then ⟨res.hi + 1, 0⟩ else res

/-- The loop of `divmod` from `i - 1` down. -/
def divmod_loop (other : uint128_emulated) : Nat → uint128_emulated → uint128_emulated → uint128_emulated × uint128_emulated
  | 0, from_, res => (res, from_)
  | i + 1, from_, res =>
    let sub := other.shl i
    let res := res.shl 1
    if from_.greater_or_equal sub then divmod_loop other i (from_.sub sub) res.set_lower_bit
    else divmod_loop other i from_ res

/-- The quotient and the remainder; `none` is a failed `CHECK`. -/
def divmod (x other : uint128_emulated) : Option (uint128_emulated × uint128_emulated) :=
  if other.is_zero then none
  else
    let ctz := x.count_leading_zeroes
    let other_ctz := other.count_leading_zeroes
    if ctz > other_ctz then some (⟨0, 0⟩, x)
    else some (divmod_loop other (other_ctz - ctz + 1) x ⟨0, 0⟩)

def div (x other : uint128_emulated) : Option uint128_emulated := (x.divmod other).map Prod.fst

def mod (x other : uint128_emulated) : Option uint128_emulated := (x.divmod other).map Prod.snd

/-- The quotient and the remainder as `int64`, negated as words are: the least number, whose negation
C++ leaves undefined, is its own. -/
def divmod_signed (x : uint128_emulated) (y : U64) : Option (U64 × U64) :=
  if y = 0 then none
  else
    let x_sgn := x.is_negative
    let y_sgn : Bool := y.toInt < 0
    let ux := if x_sgn then x.negate else x
    let uy := from_signed y
    let uy := if uy.is_negative then uy.negate else uy
    (ux.divmod uy).map fun r =>
      (if x_sgn ≠ y_sgn then -r.1.lo else r.1.lo, if x_sgn then -r.2.lo else r.2.lo)

end uint128_emulated

/-- `value_` is an `unsigned __int128`. -/
structure uint128_intrinsic where
  value : BitVec 128
  deriving DecidableEq

namespace uint128_intrinsic

/-- The constructor from two words. -/
def ofWords (hi lo : U64) : uint128_intrinsic := ⟨hi.setWidth 128 <<< 64 ||| lo.setWidth 128⟩

def from_signed (x : U64) : uint128_intrinsic := ⟨x.signExtend 128⟩

def from_unsigned (x : U64) : uint128_intrinsic := ⟨x.setWidth 128⟩

def hi (x : uint128_intrinsic) : U64 := (x.value >>> 64).setWidth 64

def lo (x : uint128_intrinsic) : U64 := (x.value &&& 0xffffffffffffffff).setWidth 64

def rounded_hi (x : uint128_intrinsic) : U64 := ((x.value + 1 <<< 63) >>> 64).setWidth 64

def add (x other : uint128_intrinsic) : uint128_intrinsic := ⟨x.value + other.value⟩

def sub (x other : uint128_intrinsic) : uint128_intrinsic := ⟨x.value - other.value⟩

def shl (x : uint128_intrinsic) (cnt : Nat) : uint128_intrinsic := if cnt ≥ 128 then ⟨0⟩ else ⟨x.value <<< cnt⟩

def shr (x : uint128_intrinsic) (cnt : Nat) : uint128_intrinsic := if cnt ≥ 128 then ⟨0⟩ else ⟨x.value >>> cnt⟩

def mult (x other : uint128_intrinsic) : uint128_intrinsic := ⟨x.value * other.value⟩

/-- `mult` of a `uint64`. -/
def mult64 (x : uint128_intrinsic) (other : U64) : uint128_intrinsic := ⟨x.value * other.setWidth 128⟩

def mult_signed (x : uint128_intrinsic) (other : U64) : uint128_intrinsic := ⟨x.value * other.signExtend 128⟩

def is_zero (x : uint128_intrinsic) : Bool := x.value = 0

def divmod (x other : uint128_intrinsic) : Option (uint128_intrinsic × uint128_intrinsic) :=
  if other.is_zero then none else some (⟨x.value / other.value⟩, ⟨x.value % other.value⟩)

def div (x other : uint128_intrinsic) : Option uint128_intrinsic :=
  if other.is_zero then none else some ⟨x.value / other.value⟩

def mod (x other : uint128_intrinsic) : Option uint128_intrinsic :=
  if other.is_zero then none else some ⟨x.value % other.value⟩

/-- `/` and `%` of `__int128`, which round toward zero. -/
def divmod_signed (x : uint128_intrinsic) (y : U64) : Option (U64 × U64) :=
  if y = 0 then none
  else some ((x.value.sdiv (y.signExtend 128)).setWidth 64, (x.value.srem (y.signExtend 128)).setWidth 64)

end uint128_intrinsic

/-- The same number, as the tests convert it. -/
def uint128_emulated.to_intrinsic (x : uint128_emulated) : uint128_intrinsic := .ofWords x.hi x.lo

/-! ## What a pair of words is worth -/

namespace uint128_emulated

def toNat (x : uint128_emulated) : Nat := x.hi.toNat * 2 ^ 64 + x.lo.toNat

/-- The number as an `__int128`. -/
def toInt (x : uint128_emulated) : Int := if x.toNat < 2 ^ 127 then x.toNat else x.toNat - 2 ^ 128

section
variable {x y : uint128_emulated} {cnt : Nat}

theorem word_zero : (0 : U64).toNat = 0 := rfl

theorem word_one : (1 : U64).toNat = 1 := rfl

theorem toNat_lt (x : uint128_emulated) : x.toNat < 2 ^ 128 := by
  have h1 := x.hi.isLt
  have h2 := x.lo.isLt
  unfold toNat
  omega

theorem toNat_inj (h : x.toNat = y.toNat) : x = y := by
  have h1 := x.lo.isLt
  have h2 := y.lo.isLt
  unfold toNat at h
  have hhi : x.hi = y.hi := eq_of_toNat_eq (by omega)
  have hlo : x.lo = y.lo := eq_of_toNat_eq (by omega)
  cases x
  cases y
  simp_all

@[simp] theorem toNat_zero : toNat ⟨0, 0⟩ = 0 := rfl

@[simp] theorem toNat_word (a : U64) : toNat ⟨0, a⟩ = a.toNat := by simp [toNat]

theorem is_zero_iff : x.is_zero = true ↔ x.toNat = 0 := by
  simp only [is_zero, decide_eq_true_eq, ← BitVec.toNat_inj]
  unfold toNat
  simp
  omega

theorem toNat_add (x y : uint128_emulated) : (x.add y).toNat = (x.toNat + y.toNat) % 2 ^ 128 := by
  have h1 := x.lo.isLt
  have h2 := y.lo.isLt
  unfold add
  dsimp only
  split
  · next h =>
    rw [lt_def, BitVec.toNat_add] at h
    simp only [toNat, BitVec.toNat_add, word_one]
    omega
  · next h =>
    rw [lt_def, BitVec.toNat_add] at h
    simp only [toNat, BitVec.toNat_add]
    omega

theorem toNat_sub (x y : uint128_emulated) : (x.sub y).toNat = (2 ^ 128 - y.toNat + x.toNat) % 2 ^ 128 := by
  have h1 := x.lo.isLt
  have h2 := y.lo.isLt
  have h3 := x.hi.isLt
  have h4 := y.hi.isLt
  unfold sub
  dsimp only
  split
  · next h =>
    rw [gt_iff_lt, lt_def] at h
    simp only [toNat, BitVec.toNat_sub, word_one]
    omega
  · next h =>
    rw [gt_iff_lt, lt_def] at h
    simp only [toNat, BitVec.toNat_sub, word_zero]
    omega

theorem greater_or_equal_iff : x.greater_or_equal y = true ↔ y.toNat ≤ x.toNat := by
  have h1 := x.lo.isLt
  have h2 := y.lo.isLt
  simp only [greater_or_equal, decide_eq_true_eq, gt_iff_lt, ge_iff_le, lt_def, le_def, ← BitVec.toNat_inj]
  unfold toNat
  omega

theorem toNat_negate (x : uint128_emulated) : x.negate.toNat = (2 ^ 128 - x.toNat) % 2 ^ 128 := by
  have h1 := x.lo.isLt
  have h2 := x.hi.isLt
  unfold negate
  dsimp only
  split
  · next h =>
    rw [← BitVec.toNat_inj, BitVec.toNat_add, toNat_not] at h
    simp only [toNat, BitVec.toNat_add, toNat_not, word_one, word_zero] at h ⊢
    omega
  · next h =>
    rw [← BitVec.toNat_inj, BitVec.toNat_add, toNat_not] at h
    simp only [toNat, BitVec.toNat_add, toNat_not, word_one, word_zero] at h ⊢
    omega

theorem is_negative_iff : x.is_negative = true ↔ 2 ^ 127 ≤ x.toNat := by
  have h1 := x.lo.isLt
  have h2 := x.hi.isLt
  simp only [is_negative, decide_eq_true_eq, ← BitVec.toNat_inj, toNat_ushiftRight, shiftRight_eq_div_pow, word_one]
  unfold toNat
  omega

/-! ### Shifts -/

theorem or_eq_add {a b k : Nat} (hb : b < 2 ^ k) : a * 2 ^ k ||| b = a * 2 ^ k + b := by
  rw [← shiftLeft_eq, shiftLeft_add_eq_or_of_lt hb]

theorem toNat_shl (x : uint128_emulated) (h : cnt < 128) : (x.shl cnt).toNat = x.toNat * 2 ^ cnt % 2 ^ 128 := by
  have h1 := x.lo.isLt
  have h2 := x.hi.isLt
  unfold shl
  split
  · next h0 => rw [h0, Nat.pow_zero, Nat.mul_one, mod_eq_of_lt x.toNat_lt]
  split
  · next h0 h64 =>
    have hpq : 2 ^ 64 = 2 ^ (64 - cnt) * 2 ^ cnt := by rw [← Nat.pow_add, Nat.sub_add_cancel h64.le]
    have hlo : x.lo.toNat / 2 ^ (64 - cnt) < 2 ^ cnt := Nat.div_lt_of_lt_mul (by rw [← hpq]; exact h1)
    have hmod : ∀ a : Nat, a * 2 ^ cnt % 2 ^ 64 = a % 2 ^ (64 - cnt) * 2 ^ cnt := fun a => by rw [hpq, mul_mod_mul_right]
    have e : x.toNat * 2 ^ cnt = toNat ⟨x.hi <<< cnt ||| x.lo >>> (64 - cnt), x.lo <<< cnt⟩ + x.hi.toNat / 2 ^ (64 - cnt) * 2 ^ 128 := by
      simp only [toNat, toNat_or, toNat_shiftLeft, toNat_ushiftRight, shiftRight_eq_div_pow, shiftLeft_eq]
      rw [hmod, hmod, or_eq_add hlo, show (2 : Nat) ^ 128 = 2 ^ 64 * 2 ^ 64 by norm_num]
      nth_rewrite 1 [← div_add_mod x.hi.toNat (2 ^ (64 - cnt)), ← div_add_mod x.lo.toNat (2 ^ (64 - cnt))]
      generalize x.hi.toNat / 2 ^ (64 - cnt) = a, x.hi.toNat % 2 ^ (64 - cnt) = b, x.lo.toNat / 2 ^ (64 - cnt) = c,
        x.lo.toNat % 2 ^ (64 - cnt) = d
      rw [hpq]
      ring
    rw [e, add_mul_mod_self_right, mod_eq_of_lt (toNat_lt _)]
  · next h0 h64 =>
    have hcnt : 2 ^ cnt = 2 ^ (cnt - 64) * 2 ^ 64 := by rw [← Nat.pow_add, Nat.sub_add_cancel (by omega)]
    simp only [toNat, toNat_shiftLeft, shiftLeft_eq, word_zero, Nat.add_zero]
    rw [hcnt, ← Nat.mul_assoc, show (2 : Nat) ^ 128 = 2 ^ 64 * 2 ^ 64 by norm_num, mul_mod_mul_right, Nat.add_mul,
      Nat.mul_right_comm, mul_add_mod_self_right]

theorem toNat_shr (x : uint128_emulated) (h : cnt < 128) : (x.shr cnt).toNat = x.toNat / 2 ^ cnt := by
  have h1 := x.lo.isLt
  unfold shr
  split
  · next h0 => rw [h0, Nat.pow_zero, Nat.div_one]
  split
  · next h0 h64 =>
    have hpq : 2 ^ 64 = 2 ^ cnt * 2 ^ (64 - cnt) := by rw [← Nat.pow_add, Nat.add_sub_cancel' h64.le]
    have hlo : x.lo.toNat / 2 ^ cnt < 2 ^ (64 - cnt) := Nat.div_lt_of_lt_mul (by rw [← hpq]; exact h1)
    have hhi : x.hi.toNat * 2 ^ (64 - cnt) % 2 ^ 64 = x.hi.toNat % 2 ^ cnt * 2 ^ (64 - cnt) := by rw [hpq, mul_mod_mul_right]
    simp only [toNat, toNat_or, toNat_shiftLeft, toNat_ushiftRight, shiftRight_eq_div_pow, shiftLeft_eq]
    rw [hhi, Nat.or_comm, or_eq_add hlo]
    have hdiv : (x.hi.toNat * 2 ^ 64 + x.lo.toNat) / 2 ^ cnt = x.hi.toNat * 2 ^ (64 - cnt) + x.lo.toNat / 2 ^ cnt := by
      rw [hpq, Nat.mul_left_comm, mul_add_div (Nat.two_pow_pos cnt)]
    rw [hdiv]
    nth_rewrite 3 [← div_add_mod x.hi.toNat (2 ^ cnt)]
    rw [hpq]
    ring
  · next h0 h64 =>
    have hcnt : 2 ^ cnt = 2 ^ 64 * 2 ^ (cnt - 64) := by rw [← Nat.pow_add, Nat.add_sub_cancel' (by omega)]
    simp only [toNat_word, toNat_ushiftRight, shiftRight_eq_div_pow]
    rw [hcnt, ← Nat.div_div_eq_div_mul, toNat, Nat.mul_comm, mul_add_div (by norm_num), div_eq_of_lt h1, Nat.add_zero]

/-! ### Products -/

theorem toNat_mult (x y : uint128_emulated) : (x.mult y).toNat = x.toNat * y.toNat % 2 ^ 128 := by
  have hlow : ∀ a : U64, (a &&& 0xffffffff).toNat = a.toNat % 2 ^ 32 := by
    intro a
    rw [toNat_and, show (0xffffffff : U64).toNat = 2 ^ 32 - 1 by rfl, and_two_pow_sub_one_eq_mod]
  have hhigh : ∀ a : U64, (a >>> 32).toNat = a.toNat / 2 ^ 32 := fun a => by
    rw [toNat_ushiftRight, shiftRight_eq_div_pow]
  have hprod : ∀ a b : U64, a.toNat < 2 ^ 32 → b.toNat < 2 ^ 32 → (a * b).toNat = a.toNat * b.toNat := by
    intro a b ha hb
    have := Nat.mul_lt_mul'' ha hb
    rw [toNat_mul, mod_eq_of_lt (by omega)]
  have hxl : (x.lo &&& 0xffffffff).toNat < 2 ^ 32 := by rw [hlow]; exact mod_lt _ (by norm_num)
  have hyl : (y.lo &&& 0xffffffff).toNat < 2 ^ 32 := by rw [hlow]; exact mod_lt _ (by norm_num)
  have hxh : (x.lo >>> 32).toNat < 2 ^ 32 := by rw [hhigh]; have := x.lo.isLt; omega
  have hyh : (y.lo >>> 32).toNat < 2 ^ 32 := by rw [hhigh]; have := y.lo.isLt; omega
  have hx : x.lo.toNat = (x.lo >>> 32).toNat * 2 ^ 32 + (x.lo &&& 0xffffffff).toNat := by rw [hlow, hhigh]; omega
  have hy : y.lo.toNat = (y.lo >>> 32).toNat * 2 ^ 32 + (y.lo &&& 0xffffffff).toNat := by rw [hlow, hhigh]; omega
  unfold mult
  dsimp only
  rw [toNat_add, toNat_add, toNat_shl _ (by omega), toNat_shl _ (by omega), toNat_word, toNat_word, hprod _ _ hxl hyh, hprod _ _ hxh hyl]
  simp only [toNat, BitVec.toNat_add, toNat_mul, hprod _ _ hxl hyl]
  rw [hx, hy]
  generalize (x.lo >>> 32).toNat = a, (x.lo &&& 0xffffffff).toNat = b, (y.lo >>> 32).toNat = c, (y.lo &&& 0xffffffff).toNat = d,
    x.hi.toNat = e, y.hi.toNat = f
  have hH : ∀ h : Nat, h % 2 ^ 64 * 2 ^ 64 = h * 2 ^ 64 % 2 ^ 128 := fun h => by
    rw [show (2 : Nat) ^ 128 = 2 ^ 64 * 2 ^ 64 by norm_num, mul_mod_mul_right]
  simp only [add_mod_mod, mod_add_mod, hH, -Nat.reducePow]
  rw [show (e * 2 ^ 64 + (a * 2 ^ 32 + b)) * (f * 2 ^ 64 + (c * 2 ^ 32 + d)) =
    ((a * 2 ^ 32 + b) * f + e * (c * 2 ^ 32 + d) + a * c) * 2 ^ 64 + b * d + b * c * 2 ^ 32 + a * d * 2 ^ 32 + e * f * 2 ^ 128 by ring,
    add_mul_mod_self_right]
  simp only [Nat.add_assoc, mod_add_mod, -Nat.reducePow]

/-! ### Division -/

theorem count_leading_zeroes64_spec {a : U64} (h : a ≠ 0) :
    count_leading_zeroes64 a ≤ 63 ∧ 2 ^ (63 - count_leading_zeroes64 a) ≤ a.toNat ∧ a.toNat < 2 ^ (64 - count_leading_zeroes64 a) := by
  have hne : a.toNat ≠ 0 := fun e => h (eq_of_toNat_eq e)
  have hlog : a.toNat.log2 < 64 := (log2_lt hne).2 a.isLt
  rw [count_leading_zeroes64, if_neg h, show 63 - (63 - a.toNat.log2) = a.toNat.log2 by omega,
    show 64 - (63 - a.toNat.log2) = a.toNat.log2 + 1 by omega]
  exact ⟨sub_le _ _, log2_self_le hne, lt_log2_self⟩

theorem count_leading_zeroes_spec (h : x.toNat ≠ 0) : x.count_leading_zeroes ≤ 127 ∧ 2 ^ (127 - x.count_leading_zeroes) ≤ x.toNat ∧
    x.toNat < 2 ^ (128 - x.count_leading_zeroes) := by
  unfold count_leading_zeroes
  have h1 := x.lo.isLt
  split
  · next hhi =>
    have e : x.toNat = x.lo.toNat := by rw [toNat, hhi, word_zero, Nat.zero_mul, Nat.zero_add]
    obtain ⟨c1, c2, c3⟩ := count_leading_zeroes64_spec (a := x.lo) fun e0 => h (by rw [e, e0, word_zero])
    rw [e, show 127 - (64 + count_leading_zeroes64 x.lo) = 63 - count_leading_zeroes64 x.lo by omega,
      show 128 - (64 + count_leading_zeroes64 x.lo) = 64 - count_leading_zeroes64 x.lo by omega]
    exact ⟨by omega, c2, c3⟩
  · next hhi =>
    obtain ⟨c1, c2, c3⟩ := count_leading_zeroes64_spec hhi
    rw [show 127 - count_leading_zeroes64 x.hi = 63 - count_leading_zeroes64 x.hi + 64 by omega,
      show 128 - count_leading_zeroes64 x.hi = 64 - count_leading_zeroes64 x.hi + 64 by omega, Nat.pow_add, Nat.pow_add]
    unfold toNat
    generalize 2 ^ (63 - count_leading_zeroes64 x.hi) = p at *
    generalize 2 ^ (64 - count_leading_zeroes64 x.hi) = q at *
    exact ⟨by omega, by omega, by omega⟩

theorem count_leading_zeroes_zero (h : x.toNat = 0) : x.count_leading_zeroes = 128 := by
  obtain rfl : x = ⟨0, 0⟩ := toNat_inj h
  rfl

theorem toNat_set_lower_bit (h : x.toNat % 2 = 0) : x.set_lower_bit.toNat = x.toNat + 1 := by
  have hlo : x.lo.toNat = x.lo.toNat / 2 * 2 ^ 1 := by
    unfold toNat at h
    omega
  have hor : x.lo.toNat ||| 1 = x.lo.toNat + 1 := by
    rw [hlo, or_eq_add (by norm_num)]
  rw [set_lower_bit, toNat, toNat_or, word_one, hor, toNat, Nat.add_assoc]

/-- `res` is what the higher bits of the quotient make, and `from_` what they leave. -/
theorem divmod_loop_spec {other : uint128_emulated} (n : Nat) (from_ res : uint128_emulated) (hd : 0 < other.toNat)
    (hfrom : from_.toNat < other.toNat * 2 ^ n) (hother : n ≠ 0 → other.toNat * 2 ^ (n - 1) < 2 ^ 128)
    (hres : (res.toNat + 1) * 2 ^ n ≤ 2 ^ 128) :
    (divmod_loop other n from_ res).1.toNat = res.toNat * 2 ^ n + from_.toNat / other.toNat ∧
      (divmod_loop other n from_ res).2.toNat = from_.toNat % other.toNat := by
  induction n generalizing from_ res with
  | zero =>
    rw [Nat.pow_zero, Nat.mul_one] at hfrom
    rw [Nat.pow_zero, Nat.mul_one, div_eq_of_lt hfrom, mod_eq_of_lt hfrom]
    exact ⟨(Nat.add_zero _).symm, rfl⟩
  | succ i ih =>
    have hother := hother (succ_ne_zero i)
    rw [Nat.add_sub_cancel] at hother
    have hi : 1 ≤ 2 ^ i := Nat.one_le_two_pow
    have hlt : i < 128 := by
      by_contra hge
      have h2 := Nat.pow_le_pow_right (show 0 < 2 by norm_num) (show 128 ≤ i by omega)
      have h3 := Nat.le_mul_of_pos_left (2 ^ i) hd
      omega
    rw [Nat.pow_succ] at hfrom hres
    have hres2 : (res.toNat * 2 + 2) * 2 ^ i ≤ 2 ^ 128 := by
      calc (res.toNat * 2 + 2) * 2 ^ i = (res.toNat + 1) * (2 ^ i * 2) := by ring
        _ ≤ 2 ^ 128 := hres
    have hshl : (res.shl 1).toNat = res.toNat * 2 := by
      have h2 := Nat.mul_le_mul_left (res.toNat * 2 + 2) hi
      rw [toNat_shl _ (by norm_num), Nat.pow_one, mod_eq_of_lt (by omega)]
    have hsub : (other.shl i).toNat = other.toNat * 2 ^ i := by rw [toNat_shl _ hlt, mod_eq_of_lt hother]
    have hnext : i ≠ 0 → other.toNat * 2 ^ (i - 1) < 2 ^ 128 := fun _ =>
      lt_of_le_of_lt (Nat.mul_le_mul_left _ (Nat.pow_le_pow_right (by norm_num) (sub_le i 1))) hother
    have hpow : res.toNat * (2 ^ i * 2) = res.toNat * 2 * 2 ^ i := by ring
    unfold divmod_loop
    dsimp only
    split
    · next h =>
      rw [greater_or_equal_iff, hsub] at h
      have hf : (from_.sub (other.shl i)).toNat = from_.toNat - other.toNat * 2 ^ i := by
        have h1 := from_.toNat_lt
        rw [toNat_sub, hsub]
        omega
      have hr : (res.shl 1).set_lower_bit.toNat = res.toNat * 2 + 1 := by rw [toNat_set_lower_bit (by omega), hshl]
      have hdiv : from_.toNat = from_.toNat - other.toNat * 2 ^ i + other.toNat * 2 ^ i := by omega
      obtain ⟨g1, g2⟩ := ih (from_.sub (other.shl i)) (res.shl 1).set_lower_bit (by rw [hf]; rw [← Nat.mul_assoc] at hfrom; omega) hnext
        (by rw [hr]; exact hres2)
      rw [g1, g2, hf, hr, Nat.pow_succ, hpow]
      constructor
      · conv_rhs => rw [hdiv, add_mul_div_left _ _ hd]
        ring
      · conv_rhs => rw [hdiv, add_mul_mod_self_left]
    · next h =>
      rw [greater_or_equal_iff, hsub] at h
      obtain ⟨g1, g2⟩ := ih from_ (res.shl 1) (by omega) hnext
        (by rw [hshl]; exact le_trans (Nat.mul_le_mul_right _ (by omega)) hres2)
      rw [g1, g2, hshl, Nat.pow_succ, hpow]
      exact ⟨rfl, rfl⟩

theorem divmod_spec (x : uint128_emulated) (h : y.toNat ≠ 0) : ∃ q r, x.divmod y = some (q, r) ∧ q.toNat = x.toNat / y.toNat ∧
    r.toNat = x.toNat % y.toNat := by
  obtain ⟨d1, d2, d3⟩ := count_leading_zeroes_spec h
  have hz : ¬y.is_zero = true := fun e => h (is_zero_iff.1 e)
  rw [divmod, if_neg hz]
  dsimp only
  by_cases hx : x.toNat = 0
  · rw [if_pos (by rw [count_leading_zeroes_zero hx]; omega), hx, Nat.zero_div, zero_mod]
    exact ⟨_, _, rfl, rfl, hx⟩
  obtain ⟨c1, c2, c3⟩ := count_leading_zeroes_spec hx
  split
  · next hgt =>
    -- a number with more zeros before it is less than the divisor
    have hle := Nat.pow_le_pow_right (show 0 < 2 by norm_num) (show 128 - x.count_leading_zeroes ≤ 127 - y.count_leading_zeroes by omega)
    have hlt : x.toNat < y.toNat := by omega
    rw [div_eq_of_lt hlt, mod_eq_of_lt hlt]
    exact ⟨_, _, rfl, rfl, rfl⟩
  · next hle =>
    have hshift : y.count_leading_zeroes - x.count_leading_zeroes + 1 - 1 = y.count_leading_zeroes - x.count_leading_zeroes := rfl
    have hfrom : x.toNat < y.toNat * 2 ^ (y.count_leading_zeroes - x.count_leading_zeroes + 1) := by
      have h2 := Nat.mul_le_mul_right (2 ^ (y.count_leading_zeroes - x.count_leading_zeroes + 1)) d2
      rw [← Nat.pow_add, show 127 - y.count_leading_zeroes + (y.count_leading_zeroes - x.count_leading_zeroes + 1) =
        128 - x.count_leading_zeroes by omega] at h2
      omega
    have hother : y.toNat * 2 ^ (y.count_leading_zeroes - x.count_leading_zeroes) < 2 ^ 128 := by
      have h2 := Nat.mul_lt_mul_of_pos_right d3 (Nat.two_pow_pos (y.count_leading_zeroes - x.count_leading_zeroes))
      rw [← Nat.pow_add] at h2
      exact lt_of_lt_of_le h2 (Nat.pow_le_pow_right (by norm_num) (by omega))
    have hres : (toNat ⟨0, 0⟩ + 1) * 2 ^ (y.count_leading_zeroes - x.count_leading_zeroes + 1) ≤ 2 ^ 128 := by
      rw [toNat_zero, Nat.zero_add, Nat.one_mul]
      exact Nat.pow_le_pow_right (by norm_num) (by omega)
    obtain ⟨g1, g2⟩ := divmod_loop_spec _ x ⟨0, 0⟩ (Nat.pos_of_ne_zero h) hfrom (fun _ => by rw [hshift]; exact hother) hres
    rw [toNat_zero, Nat.zero_mul, Nat.zero_add] at g1
    exact ⟨_, _, rfl, g1, g2⟩

/-! ### Signed division -/

theorem neg_iff : x.toInt < 0 ↔ x.is_negative = true := by
  have h := x.toNat_lt
  rw [is_negative_iff, toInt]
  split <;> omega

theorem toNat_magnitude (x : uint128_emulated) : (if x.is_negative then x.negate else x).toNat = x.toInt.natAbs := by
  have h := x.toNat_lt
  unfold toInt
  split
  · next hneg =>
    rw [is_negative_iff] at hneg
    rw [toNat_negate, if_neg (by omega)]
    omega
  · next hneg =>
    rw [is_negative_iff] at hneg
    rw [if_pos (by omega)]
    omega

theorem toInt_from_signed (a : U64) : (from_signed a).toInt = a.toInt := by
  have h := a.isLt
  have hones : (BitVec.allOnes 64).toNat = 2 ^ 64 - 1 := toNat_allOnes
  have ha := toInt_eq_toNat_cond a
  unfold from_signed
  split
  · next h0 =>
    rw [toInt, toNat_word, if_pos (by omega), ha, if_pos (by omega)]
  · next h0 =>
    rw [toInt, toNat, hones, if_neg (by dsimp only; omega), ha, if_neg (by omega)]
    dsimp only
    omega

theorem lo_eq (x : uint128_emulated) : x.lo = BitVec.ofInt 64 x.toNat := by
  have h := x.lo.isLt
  refine eq_of_toNat_eq ?_
  rw [toNat_ofInt, toNat]
  omega

/-- The sign of a quotient toward zero and of its remainder, in words. -/
theorem signed_words {v w : Int} (q r : U64) (hq : q = BitVec.ofInt 64 ((v.natAbs : Int).tdiv w.natAbs))
    (hr : r = BitVec.ofInt 64 ((v.natAbs : Int).tmod w.natAbs)) :
    (if decide (v < 0) ≠ decide (w < 0) then -q else q) = BitVec.ofInt 64 (v.tdiv w) ∧
      (if v < 0 then -r else r) = BitVec.ofInt 64 (v.tmod w) := by
  subst hq hr
  rw [← ofInt_neg, ← ofInt_neg]
  rcases lt_or_ge v 0 with hv | hv <;> rcases lt_or_ge w 0 with hw | hw
  · obtain ⟨h1, h2⟩ : (v.natAbs : Int) = -v ∧ (w.natAbs : Int) = -w := by omega
    rw [if_neg (by simp [hv, hw]), if_pos hv, h1, h2, Int.neg_tdiv, Int.tdiv_neg, Int.neg_tmod, Int.tmod_neg, neg_neg, neg_neg]
    exact ⟨rfl, rfl⟩
  · obtain ⟨h1, h2⟩ : (v.natAbs : Int) = -v ∧ (w.natAbs : Int) = w := by omega
    rw [if_pos (by simp [hv, hw]), if_pos hv, h1, h2, Int.neg_tdiv, Int.neg_tmod, neg_neg, neg_neg]
    exact ⟨rfl, rfl⟩
  · obtain ⟨h1, h2⟩ : (v.natAbs : Int) = v ∧ (w.natAbs : Int) = -w := by omega
    rw [if_pos (by simp [hv, hw]), if_neg (by omega), h1, h2, Int.tdiv_neg, Int.tmod_neg, neg_neg]
    exact ⟨rfl, rfl⟩
  · obtain ⟨h1, h2⟩ : (v.natAbs : Int) = v ∧ (w.natAbs : Int) = w := by omega
    rw [if_neg (by simp [not_lt.2 hv, not_lt.2 hw]), if_neg (by omega), h1, h2]
    exact ⟨rfl, rfl⟩

theorem toInt_ne_zero {a : U64} (ha : a ≠ 0) : a.toInt ≠ 0 := fun e => ha (eq_of_toInt_eq (e.trans toInt_zero.symm))

/-- What is left of the quotient toward zero and of its remainder in words of 64 bits. -/
theorem divmod_signed_spec (x : uint128_emulated) {a : U64} (ha : a ≠ 0) :
    x.divmod_signed a = some (BitVec.ofInt 64 (x.toInt.tdiv a.toInt), BitVec.ofInt 64 (x.toInt.tmod a.toInt)) := by
  have hx : x.is_negative = decide (x.toInt < 0) := by rw [Bool.eq_iff_iff, decide_eq_true_eq, neg_iff]
  have hy := toNat_magnitude (from_signed a)
  rw [toInt_from_signed] at hy
  have hne := toInt_ne_zero ha
  unfold divmod_signed
  rw [if_neg ha]
  dsimp only
  obtain ⟨q, r, hqr, hq, hr⟩ := divmod_spec (if x.is_negative then x.negate else x) (y := if (from_signed a).is_negative then
    (from_signed a).negate else from_signed a) (by omega)
  rw [toNat_magnitude, hy] at hq hr
  obtain ⟨h1, h2⟩ := signed_words q.lo r.lo (by rw [lo_eq, hq, Int.ofNat_tdiv]) (by rw [lo_eq, hr, Int.ofNat_tmod])
  rw [hqr, map_some, hx, h1]
  simp only [decide_eq_true_eq]
  rw [h2]

end

end uint128_emulated

/-! ## The same in one number -/

namespace uint128_intrinsic

open uint128_emulated

theorem toNat_ofWords (hi lo : U64) : (ofWords hi lo).value.toNat = hi.toNat * 2 ^ 64 + lo.toNat := by
  have h1 := hi.isLt
  have h2 := lo.isLt
  rw [ofWords, toNat_or, toNat_shiftLeft, toNat_setWidth, toNat_setWidth, shiftLeft_eq,
    mod_eq_of_lt (show hi.toNat < 2 ^ 128 by omega), mod_eq_of_lt (show lo.toNat < 2 ^ 128 by omega),
    mod_eq_of_lt (show hi.toNat * 2 ^ 64 < 2 ^ 128 by omega), or_eq_add h2]

theorem toNat_hi (x : uint128_intrinsic) : x.hi.toNat = x.value.toNat / 2 ^ 64 := by
  have h := x.value.isLt
  rw [hi, toNat_setWidth, toNat_ushiftRight, shiftRight_eq_div_pow]
  omega

theorem toNat_lo (x : uint128_intrinsic) : x.lo.toNat = x.value.toNat % 2 ^ 64 := by
  rw [lo, toNat_setWidth, toNat_and, show (0xffffffffffffffff : BitVec 128).toNat = 2 ^ 64 - 1 by rfl,
    and_two_pow_sub_one_eq_mod, mod_mod]

end uint128_intrinsic

namespace uint128_emulated

open uint128_intrinsic (ofWords toNat_ofWords toNat_hi toNat_lo)

variable {x y : uint128_emulated} {v : BitVec 128} {a : U64} {cnt : Nat}

theorem toNat_to_intrinsic (x : uint128_emulated) : x.to_intrinsic.value.toNat = x.toNat := toNat_ofWords x.hi x.lo

theorem to_intrinsic_eq (h : x.toNat = v.toNat) : x.to_intrinsic = ⟨v⟩ := by
  have e : x.to_intrinsic.value = v := eq_of_toNat_eq (by rw [toNat_to_intrinsic, h])
  rw [← e]

theorem toInt_to_intrinsic (x : uint128_emulated) : x.to_intrinsic.value.toInt = x.toInt := by
  rw [toInt_eq_toNat_cond, toNat_to_intrinsic, toInt]
  split <;> split <;> omega

theorem hi_to_intrinsic (x : uint128_emulated) : x.to_intrinsic.hi = x.hi := by
  have h := x.lo.isLt
  refine eq_of_toNat_eq ?_
  rw [toNat_hi, toNat_to_intrinsic, toNat]
  omega

theorem lo_to_intrinsic (x : uint128_emulated) : x.to_intrinsic.lo = x.lo := by
  have h := x.lo.isLt
  refine eq_of_toNat_eq ?_
  rw [toNat_lo, toNat_to_intrinsic, toNat]
  omega

theorem rounded_hi_to_intrinsic (x : uint128_emulated) : x.to_intrinsic.rounded_hi = x.rounded_hi := by
  have h1 := x.lo.isLt
  have h2 := x.hi.isLt
  have e : (1 <<< 63 : BitVec 128).toNat = 2 ^ 63 := rfl
  refine eq_of_toNat_eq ?_
  rw [uint128_intrinsic.rounded_hi, rounded_hi, toNat_setWidth, toNat_ushiftRight, BitVec.toNat_add, e, toNat_to_intrinsic,
    BitVec.toNat_add, toNat_ushiftRight, shiftRight_eq_div_pow, shiftRight_eq_div_pow, toNat]
  omega

theorem from_unsigned_to_intrinsic (a : U64) : (from_unsigned a).to_intrinsic = .from_unsigned a := by
  have h := a.isLt
  refine to_intrinsic_eq ?_
  rw [from_unsigned, toNat_word, toNat_setWidth]
  omega

theorem from_signed_to_intrinsic (a : U64) : (from_signed a).to_intrinsic = .from_signed a := by
  have e : (from_signed a).to_intrinsic.value = a.signExtend 128 :=
    eq_of_toInt_eq (by rw [toInt_to_intrinsic, toInt_from_signed, toInt_signExtend_of_le (by decide)])
  rw [uint128_intrinsic.from_signed, ← e]

theorem add_to_intrinsic (x y : uint128_emulated) : (x.add y).to_intrinsic = x.to_intrinsic.add y.to_intrinsic := by
  refine to_intrinsic_eq ?_
  rw [toNat_add, BitVec.toNat_add, toNat_to_intrinsic, toNat_to_intrinsic]

theorem sub_to_intrinsic (x y : uint128_emulated) : (x.sub y).to_intrinsic = x.to_intrinsic.sub y.to_intrinsic := by
  refine to_intrinsic_eq ?_
  rw [toNat_sub, BitVec.toNat_sub, toNat_to_intrinsic, toNat_to_intrinsic]

theorem mult_to_intrinsic (x y : uint128_emulated) : (x.mult y).to_intrinsic = x.to_intrinsic.mult y.to_intrinsic := by
  refine to_intrinsic_eq ?_
  rw [toNat_mult, toNat_mul, toNat_to_intrinsic, toNat_to_intrinsic]

section
variable (x : uint128_emulated)

theorem mult64_to_intrinsic (a : U64) : (x.mult64 a).to_intrinsic = x.to_intrinsic.mult64 a := by
  have h := from_unsigned_to_intrinsic a
  rw [mult64, ← from_unsigned, mult_to_intrinsic, h]
  rfl

theorem mult_signed_to_intrinsic (a : U64) : (x.mult_signed a).to_intrinsic = x.to_intrinsic.mult_signed a := by
  rw [mult_signed, mult_to_intrinsic, from_signed_to_intrinsic]
  rfl

theorem shl_to_intrinsic (cnt : Nat) : (x.shl cnt).to_intrinsic = x.to_intrinsic.shl cnt := by
  unfold uint128_intrinsic.shl
  split
  · next h =>
    rw [shl, if_neg (by omega), if_neg (by omega), if_neg (by omega)]
    rfl
  · next h =>
    refine to_intrinsic_eq ?_
    rw [toNat_shl _ (by omega), toNat_shiftLeft, toNat_to_intrinsic, shiftLeft_eq]

theorem shr_to_intrinsic (cnt : Nat) : (x.shr cnt).to_intrinsic = x.to_intrinsic.shr cnt := by
  unfold uint128_intrinsic.shr
  split
  · next h =>
    rw [shr, if_neg (by omega), if_neg (by omega), if_neg (by omega)]
    rfl
  · next h =>
    refine to_intrinsic_eq ?_
    rw [toNat_shr _ (by omega), toNat_ushiftRight, toNat_to_intrinsic, shiftRight_eq_div_pow]

theorem is_zero_to_intrinsic : x.to_intrinsic.is_zero = x.is_zero := by
  rw [Bool.eq_iff_iff, is_zero_iff, ← toNat_to_intrinsic, uint128_intrinsic.is_zero, decide_eq_true_eq, ← BitVec.toNat_inj]
  rfl

end

theorem divmod_to_intrinsic (x y : uint128_emulated) :
    (x.divmod y).map (fun r => (r.1.to_intrinsic, r.2.to_intrinsic)) = x.to_intrinsic.divmod y.to_intrinsic := by
  rw [uint128_intrinsic.divmod, is_zero_to_intrinsic]
  by_cases hz : y.is_zero = true
  · rw [if_pos hz, divmod, if_pos hz]
    rfl
  · obtain ⟨q, r, hqr, hq, hr⟩ := divmod_spec x fun h => hz (is_zero_iff.2 h)
    rw [if_neg hz, hqr, map_some, to_intrinsic_eq (x := q) (v := x.to_intrinsic.value / y.to_intrinsic.value),
      to_intrinsic_eq (x := r) (v := x.to_intrinsic.value % y.to_intrinsic.value)]
    · rw [hr, toNat_umod, toNat_to_intrinsic, toNat_to_intrinsic]
    · rw [hq, toNat_udiv, toNat_to_intrinsic, toNat_to_intrinsic]

theorem div_to_intrinsic (x y : uint128_emulated) : (x.div y).map to_intrinsic = x.to_intrinsic.div y.to_intrinsic := by
  have h := congrArg (Option.map Prod.fst) (divmod_to_intrinsic x y)
  rw [map_map] at h
  rw [div, map_map, uint128_intrinsic.div]
  refine h.trans ?_
  unfold uint128_intrinsic.divmod
  split <;> rfl

theorem mod_to_intrinsic (x y : uint128_emulated) : (x.mod y).map to_intrinsic = x.to_intrinsic.mod y.to_intrinsic := by
  have h := congrArg (Option.map Prod.snd) (divmod_to_intrinsic x y)
  rw [map_map] at h
  rw [mod, map_map, uint128_intrinsic.mod]
  refine h.trans ?_
  unfold uint128_intrinsic.divmod
  split <;> rfl

/-- The low word of a number is what a word keeps of it as an integer. -/
theorem setWidth_eq (v : BitVec 128) {i : Int} (h : v.toInt = i.bmod (2 ^ 128)) : v.setWidth 64 = BitVec.ofInt 64 i := by
  refine eq_of_toNat_eq ?_
  have hv := toInt_eq_toNat_cond v
  have hlt := v.isLt
  rw [toNat_setWidth, toNat_ofInt]
  rw [Int.bmod_def] at h
  split at h <;> split at hv <;> omega

theorem divmod_signed_to_intrinsic (x : uint128_emulated) (a : U64) : x.to_intrinsic.divmod_signed a = x.divmod_signed a := by
  unfold uint128_intrinsic.divmod_signed
  by_cases ha : a = 0
  · rw [if_pos ha, divmod_signed, if_pos ha]
  · have hext : (a.signExtend 128).toInt = a.toInt := toInt_signExtend_of_le (by decide)
    have hdiv := toInt_sdiv x.to_intrinsic.value (a.signExtend 128)
    have hmod := toInt_srem x.to_intrinsic.value (a.signExtend 128)
    rw [toInt_to_intrinsic, hext] at hdiv hmod
    have hsmall : (x.toInt.tmod a.toInt).bmod (2 ^ 128) = x.toInt.tmod a.toInt := by
      rw [← hmod]
      exact toInt_bmod_cancel _
    rw [if_neg ha, divmod_signed_spec x ha, setWidth_eq _ hdiv, setWidth_eq _ (hmod.trans hsmall.symm)]

theorem toNat_sub_int (x y : uint128_emulated) : ((x.sub y).toNat : Int) = ((x.toNat : Int) - y.toNat) % 2 ^ 128 := by
  have h := y.toNat_lt
  rw [toNat_sub]
  omega

theorem toInt_tmod (x : uint128_emulated) (ha : a ≠ 0) : (BitVec.ofInt 64 (x.toInt.tmod a.toInt)).toInt = x.toInt.tmod a.toInt := by
  have hne := toInt_ne_zero ha
  have h1 := toInt_eq_toNat_cond a
  have h2 := a.isLt
  have h3 := Int.tmod_lt_of_pos x.toInt (show (0 : Int) < a.toInt.natAbs by omega)
  have h4 := Int.lt_tmod_of_pos x.toInt (show (0 : Int) < a.toInt.natAbs by omega)
  have habs : x.toInt.tmod a.toInt.natAbs = x.toInt.tmod a.toInt := by
    rcases Int.natAbs_eq a.toInt with e | e
    · rw [← e]
    · conv_rhs => rw [e, Int.tmod_neg]
  rw [habs] at h3 h4
  rw [toInt_ofInt, Int.bmod_def]
  split at h1 <;> omega

/-- Each operation on two words is the operation on numbers, and what the compiler's numbers do. -/
theorem operations_exact (x y : uint128_emulated) (cnt : Nat) (a : U64) :
    (x.add y).toNat = (x.toNat + y.toNat) % 2 ^ 128 ∧ ((x.sub y).toNat : Int) = ((x.toNat : Int) - y.toNat) % 2 ^ 128 ∧
    (x.mult y).toNat = x.toNat * y.toNat % 2 ^ 128 ∧
    (cnt < 128 → (x.shl cnt).toNat = x.toNat * 2 ^ cnt % 2 ^ 128 ∧ (x.shr cnt).toNat = x.toNat / 2 ^ cnt) ∧
    (y.toNat ≠ 0 → ∃ q r, x.divmod y = some (q, r) ∧ q.toNat = x.toNat / y.toNat ∧ r.toNat = x.toNat % y.toNat) ∧
    (a ≠ 0 → -2 ^ 63 ≤ x.toInt.tdiv a.toInt → x.toInt.tdiv a.toInt < 2 ^ 63 → ∃ q r : U64, x.divmod_signed a = some (q, r) ∧
      q.toInt = x.toInt.tdiv a.toInt ∧ r.toInt = x.toInt.tmod a.toInt) ∧
    (x.to_intrinsic.hi = x.hi ∧ x.to_intrinsic.lo = x.lo ∧ x.to_intrinsic.rounded_hi = x.rounded_hi ∧
      (from_signed a).to_intrinsic = .from_signed a ∧ (from_unsigned a).to_intrinsic = .from_unsigned a ∧
      (x.add y).to_intrinsic = x.to_intrinsic.add y.to_intrinsic ∧ (x.sub y).to_intrinsic = x.to_intrinsic.sub y.to_intrinsic ∧
      (x.shl cnt).to_intrinsic = x.to_intrinsic.shl cnt ∧ (x.shr cnt).to_intrinsic = x.to_intrinsic.shr cnt ∧
      (x.mult y).to_intrinsic = x.to_intrinsic.mult y.to_intrinsic ∧ (x.mult64 a).to_intrinsic = x.to_intrinsic.mult64 a ∧
      (x.mult_signed a).to_intrinsic = x.to_intrinsic.mult_signed a ∧ x.to_intrinsic.is_zero = x.is_zero ∧
      (x.divmod y).map (fun r => (r.1.to_intrinsic, r.2.to_intrinsic)) = x.to_intrinsic.divmod y.to_intrinsic ∧
      (x.div y).map to_intrinsic = x.to_intrinsic.div y.to_intrinsic ∧ (x.mod y).map to_intrinsic = x.to_intrinsic.mod y.to_intrinsic ∧
      x.to_intrinsic.divmod_signed a = x.divmod_signed a) := by
  refine ⟨toNat_add x y, toNat_sub_int x y, toNat_mult x y, fun h => ⟨toNat_shl x h, toNat_shr x h⟩, divmod_spec x, fun ha h1 h2 => ?_,
    hi_to_intrinsic x, lo_to_intrinsic x, rounded_hi_to_intrinsic x, from_signed_to_intrinsic a, from_unsigned_to_intrinsic a,
    add_to_intrinsic x y, sub_to_intrinsic x y, shl_to_intrinsic x cnt, shr_to_intrinsic x cnt, mult_to_intrinsic x y,
    mult64_to_intrinsic x a, mult_signed_to_intrinsic x a, is_zero_to_intrinsic x, divmod_to_intrinsic x y, div_to_intrinsic x y,
    mod_to_intrinsic x y, divmod_signed_to_intrinsic x a⟩
  refine ⟨_, _, divmod_signed_spec x ha, ?_, toInt_tmod x ha⟩
  rw [toInt_ofInt, Int.bmod_def]
  omega

/-- Seven below zero, halved. -/
theorem operations_exact_halved : toInt ⟨BitVec.allOnes 64, BitVec.ofInt 64 (-7)⟩ = -7 ∧
    ∃ q r : U64, divmod_signed ⟨BitVec.allOnes 64, BitVec.ofInt 64 (-7)⟩ 2 = some (q, r) ∧
      q.toInt = (toInt ⟨BitVec.allOnes 64, BitVec.ofInt 64 (-7)⟩).tdiv (2 : U64).toInt ∧
      r.toInt = (toInt ⟨BitVec.allOnes 64, BitVec.ofInt 64 (-7)⟩).tmod (2 : U64).toInt :=
  ⟨by decide +kernel, (operations_exact ⟨BitVec.allOnes 64, BitVec.ofInt 64 (-7)⟩ ⟨0, 2⟩ 1 2).2.2.2.2.2.1 (by decide) (by decide +kernel)
    (by decide +kernel)⟩

end uint128_emulated

/-! ## Either of them -/

/-- What is asked of `uint128`, whichever it is. -/
class Uint128 (α : Type) where
  ofWords : U64 → U64 → α
  from_unsigned : U64 → α
  hi : α → U64
  lo : α → U64
  add : α → α → α
  mult64 : α → U64 → α
  shl : α → Nat → α
  shr : α → Nat → α
  is_zero : α → Bool
  toNat : α → Nat
  toNat_ofWords (h l : U64) : toNat (ofWords h l) = h.toNat * 2 ^ 64 + l.toNat
  toNat_from_unsigned (a : U64) : toNat (from_unsigned a) = a.toNat
  toNat_hi (x : α) : (hi x).toNat = toNat x / 2 ^ 64
  toNat_lo (x : α) : (lo x).toNat = toNat x % 2 ^ 64
  toNat_add (x y : α) : toNat (add x y) = (toNat x + toNat y) % 2 ^ 128
  toNat_mult64 (x : α) (a : U64) : toNat (mult64 x a) = toNat x * a.toNat % 2 ^ 128
  toNat_shl (x : α) {cnt : Nat} (h : cnt < 128) : toNat (shl x cnt) = toNat x * 2 ^ cnt % 2 ^ 128
  toNat_shr (x : α) {cnt : Nat} (h : cnt < 128) : toNat (shr x cnt) = toNat x / 2 ^ cnt
  is_zero_iff (x : α) : is_zero x = true ↔ toNat x = 0

instance : Uint128 uint128_emulated where
  ofWords := uint128_emulated.mk
  from_unsigned := uint128_emulated.from_unsigned
  hi := uint128_emulated.hi
  lo := uint128_emulated.lo
  add := uint128_emulated.add
  mult64 := uint128_emulated.mult64
  shl := uint128_emulated.shl
  shr := uint128_emulated.shr
  is_zero := uint128_emulated.is_zero
  toNat := uint128_emulated.toNat
  toNat_ofWords _ _ := rfl
  toNat_from_unsigned a := uint128_emulated.toNat_word a
  toNat_hi x := by
    have h := x.lo.isLt
    unfold uint128_emulated.toNat
    omega
  toNat_lo x := by
    have h := x.lo.isLt
    unfold uint128_emulated.toNat
    omega
  toNat_add := uint128_emulated.toNat_add
  toNat_mult64 x a := by rw [uint128_emulated.mult64, uint128_emulated.toNat_mult, uint128_emulated.toNat_word]
  toNat_shl x _ h := uint128_emulated.toNat_shl x h
  toNat_shr x _ h := uint128_emulated.toNat_shr x h
  is_zero_iff _ := uint128_emulated.is_zero_iff

instance : Uint128 uint128_intrinsic where
  ofWords := uint128_intrinsic.ofWords
  from_unsigned := uint128_intrinsic.from_unsigned
  hi := uint128_intrinsic.hi
  lo := uint128_intrinsic.lo
  add := uint128_intrinsic.add
  mult64 := uint128_intrinsic.mult64
  shl := uint128_intrinsic.shl
  shr := uint128_intrinsic.shr
  is_zero := uint128_intrinsic.is_zero
  toNat x := x.value.toNat
  toNat_ofWords := uint128_intrinsic.toNat_ofWords
  toNat_from_unsigned a := by
    have h := a.isLt
    rw [uint128_intrinsic.from_unsigned, toNat_setWidth]
    omega
  toNat_hi := uint128_intrinsic.toNat_hi
  toNat_lo := uint128_intrinsic.toNat_lo
  toNat_add x y := BitVec.toNat_add x.value y.value
  toNat_mult64 x a := by
    have h := a.isLt
    rw [uint128_intrinsic.mult64, toNat_mul, toNat_setWidth, mod_eq_of_lt (show a.toNat < 2 ^ 128 by omega)]
  toNat_shl x _ h := by
    rw [uint128_intrinsic.shl, if_neg (by omega), toNat_shiftLeft, shiftLeft_eq]
  toNat_shr x _ h := by
    rw [uint128_intrinsic.shr, if_neg (by omega), toNat_ushiftRight, shiftRight_eq_div_pow]
  is_zero_iff x := by
    unfold uint128_intrinsic.is_zero
    rw [decide_eq_true_eq, ← BitVec.toNat_inj]
    rfl

end Ton.Td
