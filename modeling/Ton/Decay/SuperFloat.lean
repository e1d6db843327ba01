import Mathlib.Algebra.Order.Field.Basic
import Mathlib.Data.Rat.Cast.Order
import Mathlib.Tactic.FieldSimp
import Ton.BigInt.Export
import Ton.BigInt.Shift
/-!
# Numbers with a mantissa of 128 bits

`SuperFloat` of `bigexp.h`. A number whose 129 highest bits are all ones is rounded up to
`2 ^ 128`, which the exporter refuses; and `normalize` throws the shifted mantissa away.
-/

namespace Ton.Decay
open BigInt Td Int
open BitVec (allOnes intMin ofInt)

/-- `m * 2 ^ s`; `s` is an `int`. -/
structure SuperFloat (α : Type) where
  m : α
  s : BitVec 32
  deriving DecidableEq

namespace SuperFloat

variable {α : Type} [Uint128 α]

def is_nan (f : SuperFloat α) : Bool := f.s = intMin 32

def is_zero (f : SuperFloat α) : Bool := Uint128.is_zero f.m

/-- Eight bytes of the buffer, read as the machine reads a word. -/
def word64 (t : List (BitVec 8)) : U64 := ofInt 64 (lsb t)

def as_uint128 (x : AnyIntView) : α :=
  match x.export_bytes_lsb_any 16 false with
  | none => Uint128.ofWords (allOnes 64) 0
  | some t => Uint128.ofWords (word64 (t.drop 8)) (word64 (t.take 8))

/-- The constructor from a `BigInt256`. -/
def ofBigInt256 (x : AnyIntView) : SuperFloat α :=
  if x.unsigned_fits_bits_any 128 then ⟨as_uint128 x, 0⟩
  else if x.sgn = 1 then
    let s : Int := x.bit_size_any false - 128
    ⟨as_uint128 (x.rshift_any s.toNat 0).normalize_bool_any, ofInt 32 s⟩
  else ⟨Uint128.ofWords 0 0, intMin 32⟩

def normalize (f : SuperFloat α) : Bool × SuperFloat α :=
  if f.is_nan then (false, f)
  else if f.is_zero then (true, { f with s := 0 })
  else
    let t := if Uint128.hi f.m ≠ 0 then count_leading_zeroes64 (Uint128.hi f.m) else 64 + count_leading_zeroes64 (Uint128.lo f.m)
    -- `m.shl(t)` returns the shifted number, which nothing takes
    (true, { f with s := f.s - BitVec.ofNat 32 t })

/-- The number that is meant. -/
def value (f : SuperFloat α) : ℚ := Uint128.toNat f.m * 2 ^ f.s.toInt

/-- `x` to 128 bits. -/
def Represents (x : Int) (f : SuperFloat α) : Prop :=
  f.is_nan = false ∧ |f.value - x| ≤ x / 2 ^ 127 ∧ (x < 2 ^ 128 → f.value = x)

/-- The same number, with the highest bit of the mantissa set unless it is zero. -/
def Normalizes (f : SuperFloat α) : Prop :=
  f.normalize.2.value = f.value ∧ (Uint128.toNat f.normalize.2.m = 0 ∨ 2 ^ 127 ≤ Uint128.toNat f.normalize.2.m)

/-- The 129 highest bits are ones. -/
def RoundsUp (x : Int) : Prop := ∃ k : Nat, 2 ^ (k + 129) - 2 ^ k ≤ x ∧ x < 2 ^ (k + 129)

/-! ## The mantissa -/

theorem toNat_word64 {t : List (BitVec 8)} (h : t.length = 8) : ((word64 t).toNat : Int) = lsb t := by
  obtain ⟨h1, h2⟩ := lsb_bounds t
  rw [h] at h2
  rw [word64, BitVec.toNat_ofInt]
  omega

theorem as_uint128_spec {x : AnyIntView} {v : Int} (hx : x.Is v) (hv : 0 ≤ v) :
    (Uint128.toNat (as_uint128 x : α) : Int) = if v < 2 ^ 128 then v else 2 ^ 128 - 2 ^ 64 := by
  have h := hx.export_bytes_lsb (n := 16) (by norm_num)
  rw [as_uint128]
  cases he : x.export_bytes_lsb_any 16 false with
  | none =>
    rw [he] at h
    rw [if_neg (by omega), Uint128.toNat_ofWords]
    rfl
  | some t =>
    rw [he] at h
    obtain ⟨hlen, hlsb⟩ := h
    have hsplit : lsb t = lsb (t.take 8) + 256 ^ 8 * lsb (t.drop 8) := by
      conv_lhs => rw [← List.take_append_drop 8 t, lsb_append, List.length_take, hlen]
      rfl
    obtain ⟨-, hlt⟩ := lsb_bounds t
    rw [hlen] at hlt
    rw [if_pos (by omega), Uint128.toNat_ofWords, Nat.cast_add, Nat.cast_mul, toNat_word64 (by simp [hlen]), toNat_word64 (by simp [hlen]),
      ← hlsb, hsplit]
    push_cast
    ring

/-! ## The constructor -/

section Constructor
variable {x : AnyIntView} {v : Int} {k : Nat}

theorem value_exponent (m : α) (s : Nat) (hs : s < 2 ^ 31) : value ⟨m, ofInt 32 s⟩ = Uint128.toNat m * 2 ^ s := by
  have h : (ofInt 32 (s : Int)).toInt = s := by
    rw [BitVec.toInt_ofInt, bmod_def]
    omega
  rw [value, h, zpow_natCast]

section
variable (hx : x.Is v) (hroom : x.max_size = 5) (hlow : 2 ^ (k + 128) ≤ v) (hhigh : v < 2 ^ (k + 129)) (hk : k < 128)
include hx hroom hlow hhigh hk

/-- What the constructor makes of a number of more than 128 bits. -/
theorem ofBigInt256_large :
    ∃ m : α, ofBigInt256 x = ⟨m, ofInt 32 (k + 1 : Nat)⟩ ∧
      (Uint128.toNat m : Int) = if (v + 2 ^ k) / 2 ^ (k + 1) < 2 ^ 128 then (v + 2 ^ k) / 2 ^ (k + 1) else 2 ^ 128 - 2 ^ 64 := by
  have hpow : (2 : Int) ^ 128 ≤ 2 ^ (k + 128) := pow_le_pow_right₀ (by norm_num) (by omega)
  have hpos : 0 < v := by omega
  have hfits : ¬x.unsigned_fits_bits_any 128 = true := by
    rw [hx.unsigned_fits_bits, UnsignedFits]
    omega
  have hsize : x.bit_size_any false = k + 129 := by
    obtain ⟨n, hn, h1, h2⟩ := hx.bit_size false hpos
    have h3 := (pow_lt_pow_iff_right₀ (show (1 : Int) < 2 by norm_num)).1 (lt_of_le_of_lt hlow h2)
    have h4 := (pow_lt_pow_iff_right₀ (show (1 : Int) < 2 by norm_num)).1 (lt_of_le_of_lt h1 hhigh)
    rw [hn, Bool.toNat_false]
    omega
  have hround : AnyIntView.Holds (x.rshift_any (k + 1) 0) ((v + 2 ^ k) / 2 ^ (k + 1)) := by
    have h := hx.rshift (k + 1) 0
    rwa [pow_succ', roundDiv_zero (by positivity), ← pow_succ'] at h
  have hdiv : 0 ≤ (v + 2 ^ k) / 2 ^ (k + 1) ∧ (v + 2 ^ k) / 2 ^ (k + 1) ≤ 2 ^ 128 := by
    have hp : (0 : Int) < 2 ^ k := by positivity
    refine ⟨by positivity, le_of_lt_add_one (Int.ediv_lt_of_lt_mul (by positivity) ?_)⟩
    rw [show (2 : Int) ^ (k + 1) = 2 * 2 ^ k by ring]
    rw [show (2 : Int) ^ (k + 129) = 2 ^ 129 * 2 ^ k by ring] at hhigh
    linarith
  have hrange : SignedDigits.InRange Base Half 5 ((v + 2 ^ k) / 2 ^ (k + 1)) := Fits257.inRange ⟨by omega, by omega⟩
  have his := hround.normalize (by rwa [AnyIntView.max_size_rshift_any, hroom])
  refine ⟨as_uint128 (x.rshift_any (k + 1) 0).normalize_bool_any, ?_, as_uint128_spec his hdiv.1⟩
  have hs : ((k + 129 : Nat) : Int) - 128 = (k + 1 : Nat) := by omega
  rw [ofBigInt256, if_neg hfits, hx.sgn_eq, sign_eq_one_of_pos hpos, if_pos rfl, hsize, hs]
  rfl

/-- Half a unit in the last of 128 places, or the largest word in the place of `2 ^ 128`. -/
theorem represents_large :
    Represents v (ofBigInt256 x : SuperFloat α) ↔ v < 2 ^ (k + 129) - 2 ^ k := by
  obtain ⟨m, hm, hval⟩ := ofBigInt256_large (α := α) hx hroom hlow hhigh hk
  have hnan : is_nan (⟨m, ofInt 32 (k + 1 : Nat)⟩ : SuperFloat α) = false := by
    have h : (ofInt 32 ((k + 1 : Nat) : Int)).toNat = k + 1 := by
      rw [BitVec.toNat_ofInt]
      omega
    rw [is_nan, decide_eq_false_iff_not]
    intro he
    dsimp only at he
    rw [he] at h
    have : (intMin 32).toNat = 2 ^ 31 := by decide
    omega
  have hp : (0 : Int) < 2 ^ k := by positivity
  have hbig : ¬v < 2 ^ 128 := by
    have : (2 : Int) ^ 128 ≤ 2 ^ (k + 128) := pow_le_pow_right₀ (by norm_num) (by omega)
    omega
  have hvalue : value (⟨m, ofInt 32 (k + 1 : Nat)⟩ : SuperFloat α) = ((Uint128.toNat m : Int) * 2 ^ (k + 1) : Int) := by
    rw [value_exponent m (k + 1) (by omega)]
    push_cast
    rfl
  have hscale : |value (⟨m, ofInt 32 (k + 1 : Nat)⟩ : SuperFloat α) - v| ≤ v / 2 ^ 127 ↔
      |(Uint128.toNat m : Int) * 2 ^ (k + 1) - v| * 2 ^ 127 ≤ v := by
    rw [hvalue, le_div_iff₀ (by positivity)]
    exact_mod_cast Iff.rfl
  rw [hm, Represents, hscale]
  simp only [hnan, true_and, hbig, false_imp_iff, and_true]
  rw [show (2 : Int) ^ (k + 129) = 2 ^ 129 * 2 ^ k by ring] at hhigh ⊢
  rw [show (2 : Int) ^ (k + 128) = 2 ^ 128 * 2 ^ k by ring] at hlow
  rw [show (2 : Int) ^ (k + 1) = 2 * 2 ^ k by ring] at hval ⊢
  generalize (2 : Int) ^ k = p at *
  have hdiv := mul_ediv_add_emod (v + p) (2 * p)
  have hmod := emod_nonneg (v + p) (show 2 * p ≠ 0 by omega)
  have hmod' := emod_lt_of_pos (v + p) (show 0 < 2 * p by omega)
  generalize (v + p) / (2 * p) = q at *
  generalize (v + p) % (2 * p) = r at *
  by_cases hq : q < 2 ^ 128
  · -- rounded to the nearest
    rw [if_pos hq] at hval
    rw [hval]
    have habs : |q * (2 * p) - v| ≤ p := abs_le.2 ⟨by linarith, by linarith⟩
    have hlt : v < 2 ^ 129 * p - p := by nlinarith
    refine iff_of_true ?_ hlt
    linarith
  · rw [if_neg hq] at hval
    rw [hval]
    have hge : ¬v < 2 ^ 129 * p - p := by nlinarith
    refine iff_of_false ?_ hge
    intro habs
    have := neg_le_abs ((2 ^ 128 - 2 ^ 64) * (2 * p) - v)
    linarith

end

theorem represents_small (hx : x.Is v) (hpos : 0 < v) (hsmall : v < 2 ^ 128) : Represents v (ofBigInt256 x : SuperFloat α) := by
  have hfits : x.unsigned_fits_bits_any 128 = true := (hx.unsigned_fits_bits 128).2 ⟨hpos.le, hsmall⟩
  have hvalue : value (ofBigInt256 x : SuperFloat α) = v := by
    have hm := as_uint128_spec (α := α) hx hpos.le
    rw [if_pos hsmall] at hm
    have h := value_exponent (as_uint128 x : α) 0 (by norm_num)
    rw [ofBigInt256, if_pos hfits]
    rw [pow_zero, mul_one] at h
    refine h.trans ?_
    exact_mod_cast hm
  refine ⟨?_, ?_, fun _ => hvalue⟩
  · rw [ofBigInt256, if_pos hfits]
    rfl
  · rw [hvalue, sub_self, abs_zero]
    positivity

theorem represents_iff (x : Int257) (hx : 0 < x.toInt) :
    Represents x.toInt (ofBigInt256 x.view : SuperFloat α) ↔ ¬RoundsUp x.toInt := by
  by_cases hsmall : x.toInt < 2 ^ 128
  · refine iff_of_true (represents_small x.is hx hsmall) ?_
    rintro ⟨k, hk, -⟩
    have : (1 : Int) ≤ 2 ^ k := one_le_pow₀ (by norm_num)
    rw [show (2 : Int) ^ (k + 129) = 2 ^ 129 * 2 ^ k by ring] at hk
    omega
  · obtain ⟨n, -, hlow, hhigh⟩ := x.is.bit_size false hx
    have hfits := x.fits
    have h1 := (pow_lt_pow_iff_right₀ (show (1 : Int) < 2 by norm_num)).1 (lt_of_le_of_lt (not_lt.1 hsmall) hhigh)
    have h2 := (pow_lt_pow_iff_right₀ (show (1 : Int) < 2 by norm_num)).1 (lt_of_le_of_lt hlow hfits.2)
    obtain ⟨k, rfl⟩ := Nat.exists_eq_add_of_le' (show 128 ≤ n by omega)
    rw [represents_large x.is rfl hlow hhigh (by omega), ← not_le, not_iff_not]
    constructor
    · exact fun h => ⟨k, h, hhigh⟩
    · rintro ⟨j, hj1, hj2⟩
      have hhalf : (2 : Int) ^ (j + 128) ≤ 2 ^ (j + 129) - 2 ^ j := by
        have hp : (0 : Int) < 2 ^ j := by positivity
        rw [show (2 : Int) ^ (j + 128) = 2 ^ 128 * 2 ^ j by ring, show (2 : Int) ^ (j + 129) = 2 ^ 129 * 2 ^ j by ring]
        linarith
      have h3 := (pow_lt_pow_iff_right₀ (show (1 : Int) < 2 by norm_num)).1 (lt_of_le_of_lt (hhalf.trans hj1) hhigh)
      have h4 := (pow_lt_pow_iff_right₀ (show (1 : Int) < 2 by norm_num)).1 (lt_of_le_of_lt hlow hj2)
      obtain rfl : j = k := by omega
      exact hj1

end Constructor

/-! ## Normalising -/

theorem normalizes_iff (f : SuperFloat α) (hf : f.is_nan = false) :
    Normalizes f ↔ Uint128.toNat f.m = 0 ∨ 2 ^ 127 ≤ Uint128.toNat f.m := by
  have hm : f.normalize.2.m = f.m := by
    rw [normalize]
    split
    · rfl
    split <;> rfl
  rw [Normalizes, hm, and_iff_right_iff_imp]
  rintro (h0 | htop)
  · rw [value, value, hm, h0, Nat.cast_zero, zero_mul, zero_mul]
  · have hnot : f.is_zero = false := by
      rw [is_zero, Bool.eq_false_iff, ne_eq, Uint128.is_zero_iff]
      omega
    have hhi := Uint128.toNat_hi f.m
    have hlt := (Uint128.hi f.m).isLt
    have hne : Uint128.hi f.m ≠ 0 := by
      intro h
      rw [h] at hhi
      have : (0 : U64).toNat = 0 := rfl
      omega
    have hlog : (Uint128.hi f.m).toNat.log2 = 63 := (Nat.log2_eq_iff (by omega)).2 ⟨by omega, by omega⟩
    have ht : count_leading_zeroes64 (Uint128.hi f.m) = 0 := by rw [count_leading_zeroes64, if_neg hne, hlog]
    have hs : f.normalize.2.s = f.s := by
      rw [normalize, hf, hnot, if_neg Bool.false_ne_true, if_neg Bool.false_ne_true]
      dsimp only
      rw [if_pos hne, ht]
      exact BitVec.sub_zero f.s
    rw [value, value, hm, hs]

/-- When the constructor is accurate and when `normalize` keeps the number. -/
theorem keeps_iff (x : Int257) (hx : 0 < x.toInt) (f : SuperFloat α) (hf : f.is_nan = false) :
    (Represents x.toInt (ofBigInt256 x.view : SuperFloat α) ∧ Normalizes f) ↔
      ¬RoundsUp x.toInt ∧ (Uint128.toNat f.m = 0 ∨ 2 ^ 127 ≤ Uint128.toNat f.m) :=
  and_congr (represents_iff x hx) (normalizes_iff f hf)

def one : Int257 := Int257.ofInt 1 (by decide)

def high_bit : SuperFloat uint128_emulated := ⟨⟨intMin 64, 0⟩, 5⟩

theorem keeps_iff_one : (Represents one.toInt (ofBigInt256 one.view : SuperFloat uint128_emulated) ∧ Normalizes high_bit) ↔
    ¬RoundsUp one.toInt ∧ (Uint128.toNat high_bit.m = 0 ∨ 2 ^ 127 ≤ Uint128.toNat high_bit.m) :=
  keeps_iff one (by rw [one, Int257.toInt_ofInt]; exact one_pos) high_bit (by decide)

def ones : Int257 := Int257.ofInt (2 ^ 129 - 1) (by decide)

/-- `2 ^ 129 - 1` is rounded up and becomes smaller by almost `2 ^ 65`, and `1` becomes `2 ^ (-127)`. -/
theorem not_keeps : (ofBigInt256 ones.view : SuperFloat uint128_emulated) = ⟨⟨allOnes 64, 0⟩, 1⟩ ∧
    ¬Represents ones.toInt (ofBigInt256 ones.view : SuperFloat uint128_emulated) ∧
    (normalize (⟨⟨0, 1⟩, 0⟩ : SuperFloat uint128_emulated)).2 = ⟨⟨0, 1⟩, -127⟩ ∧
    ¬Normalizes (⟨⟨0, 1⟩, 0⟩ : SuperFloat uint128_emulated) := by
  have hones : ones.toInt = 2 ^ 129 - 1 := Int257.toInt_ofInt _
  refine ⟨by decide +kernel, ?_, by decide +kernel, ?_⟩
  · rw [represents_iff ones (by rw [hones]; norm_num), not_not, hones]
    exact ⟨0, by norm_num, by norm_num⟩
  · rw [normalizes_iff _ (by decide)]
    decide

end SuperFloat

end Ton.Decay
