import Ton.Decay.NegExpTable
/-!
# How exact the decay is

The tables hold real numbers rounded to the nearest integer, as the constructor's comments name
them. Each of the three products is off by half a unit of its last place and by the error of its
entry; the shift back makes all of it smaller but the last rounding.
-/

namespace Ton.Decay
open Real NegExpInt64Table

/-- The entries are the numbers of the constructor's comments, rounded to nearest: `exp(-i) : table0 / 2^(table0_shift + 1)`
with the top bit set, or zero if the exponent does not fit, `1 - exp(-i/256) : table1 / 2^64` and `1 - exp(-i/2^16) : table2 / 2^72`. -/
structure Rounded (T : NegExpInt64Table) : Prop where
  table0 : ∀ i, i ≠ 0 → i ≤ max_exp → (T.table0 i = 0 ∧ exp (-i) < 1 / 2 ^ 64) ∨
    (2 ^ 63 ≤ (T.table0 i).toNat ∧ IsNearest (T.table0 i).toNat (exp (-i) * 2 ^ ((T.table0_shift i).toNat + 1)))
  table1 : ∀ i < 256, IsNearest (T.table1 i).toNat ((1 - exp (-(i / 256))) * 2 ^ 64)
  table2 : ∀ i < 256, IsNearest (T.table2 i).toNat ((1 - exp (-(i / 65536))) * 2 ^ 72)

/-! ## The entries -/

theorem exp_neg_le_of_ne_zero {i : Nat} (hi : i ≠ 0) : exp (-i) ≤ 3 / 8 := by
  have h1 : exp (-i : ℝ) ≤ exp (-1) := by
    apply exp_le_exp.2
    have : (1 : ℝ) ≤ i := by exact_mod_cast Nat.one_le_iff_ne_zero.2 hi
    linarith
  have h2 : exp (-1 : ℝ) ≤ 3 / 8 := by
    rw [exp_neg, inv_le_comm₀ (exp_pos 1) (by norm_num)]
    have := exp_one_gt_d9
    norm_num
    linarith
  exact h1.trans h2

namespace Rounded

variable {T : NegExpInt64Table}

theorem table2_le (h : Rounded T) {i : Nat} (hi : i < 256) : (T.table2 i).toNat ≤ 255 * 2 ^ 56 := by
  have hnear := abs_le.1 (h.table2 i hi)
  have hexp := add_one_le_exp (-(i / 65536) : ℝ)
  have hi' : (i : ℝ) ≤ 255 := by exact_mod_cast Nat.le_of_lt_succ hi
  have hle : ((T.table2 i).toNat : ℝ) < 255 * 2 ^ 56 + 1 := by linarith [hnear.2]
  exact Nat.le_of_lt_succ (by exact_mod_cast hle)

theorem shift_ge (h : Rounded T) (i : Nat) (hi : i ≠ 0) (hmax : i ≤ max_exp) : T.table0 i = 0 ∨ 64 ≤ (T.table0_shift i).toNat := by
  rcases h.table0 i hi hmax with ⟨h0, -⟩ | ⟨hbig, hnear⟩
  · exact .inl h0
  · right
    by_contra hlt
    have hnear := abs_le.1 hnear
    have hexp := exp_neg_le_of_ne_zero hi
    have hpow : (2 : ℝ) ^ ((T.table0_shift i).toNat + 1) ≤ 2 ^ 64 := pow_le_pow_right₀ one_le_two (by omega)
    have hprod : exp (-i) * 2 ^ ((T.table0_shift i).toNat + 1) ≤ 3 / 8 * 2 ^ 64 :=
      mul_le_mul hexp hpow (by positivity) (by norm_num)
    have hbig' : ((2 : ℝ) ^ 63) ≤ (T.table0 i).toNat := by exact_mod_cast hbig
    linarith [hnear.1]

theorem umulnexps32_toNat (h : Rounded T) (x : BitVec 64) (k : BitVec 32) :
    (T.umulnexps32 x k false).toNat = T.exact x.toNat k.toNat :=
  NegExpInt64Table.umulnexps32_toNat (fun _ hi => h.table2_le hi) h.shift_ge x k

/-! ## One product -/

theorem product_error {x : Nat} {t r c : ℝ} (hx : x < 2 ^ 64) (ht : |t - r| ≤ 1 / 2) (hc : 0 < c) :
    |x * t / c - x * r / c| ≤ 2 ^ 63 / c := by
  have hx' : (x : ℝ) ≤ 2 ^ 64 := by exact_mod_cast hx.le
  have hmul : (x : ℝ) * t / c - x * r / c = x * (t - r) / c := by ring
  rw [hmul, abs_div, abs_mul, Nat.abs_cast, abs_of_pos hc, div_le_div_iff_of_pos_right hc]
  calc (x : ℝ) * |t - r| ≤ 2 ^ 64 * (1 / 2) := mul_le_mul hx' ht (abs_nonneg _) (by positivity)
    _ = 2 ^ 63 := by norm_num

theorem low_error (h : Rounded T) {x k2 : Nat} (hx : 2 ^ 63 ≤ x) (hx' : x < 2 ^ 64) (hk : k2 < 256) :
    |(T.exact_low x k2 : ℝ) - x * exp (-(k2 / 65536))| ≤ 129 / 256 := by
  unfold exact_low
  split
  · have hfits := (low_fits hx hx' (h.table2_le hk)).2
    have hinner := abs_halfUp_sub_le (x * (T.table2 k2).toNat) (Nat.two_pow_pos 63)
    have houter := abs_halfUp_sub_le (halfUp (x * (T.table2 k2).toNat) (2 ^ 63)) (Nat.two_pow_pos 7)
    have hentry := product_error (c := 2 ^ 72) hx' (h.table2 k2 hk) (by norm_num)
    rw [Nat.cast_sub hfits]
    generalize halfUp (x * (T.table2 k2).toNat) (2 ^ 63) = hi at hinner houter ⊢
    generalize halfUp hi (2 ^ 7) = q at houter ⊢
    push_cast at hinner houter
    rw [abs_le] at hinner houter hentry ⊢
    norm_num at hinner houter hentry ⊢
    constructor
    · linarith [hinner.1, hinner.2, houter.1, houter.2, hentry.1, hentry.2]
    · linarith [hinner.1, hinner.2, houter.1, houter.2, hentry.1, hentry.2]
  · next hk0 =>
    rw [not_not.1 hk0]
    norm_num

theorem middle_error (h : Rounded T) {z k1 : Nat} (hz : z < 2 ^ 64) (hk : k1 < 256) :
    |(T.exact_middle z k1 : ℝ) - z * exp (-(k1 / 256))| ≤ 1 := by
  unfold exact_middle
  split
  · have hfits := middle_fits (BitVec.ofNat 64 z) (T.table1 k1)
    rw [BitVec.toNat_ofNat, Nat.mod_eq_of_lt hz] at hfits
    have hround := abs_halfUp_sub_le (z * (T.table1 k1).toNat) (Nat.two_pow_pos 63)
    have hentry := product_error (c := 2 ^ 64) hz (h.table1 k1 hk) (by norm_num)
    rw [Nat.cast_sub hfits]
    generalize halfUp (z * (T.table1 k1).toNat) (2 ^ 63) = q at hround ⊢
    push_cast at hround
    rw [abs_le] at hround hentry ⊢
    norm_num at hround hentry ⊢
    constructor
    · linarith [hround.1, hround.2, hentry.1, hentry.2]
    · linarith [hround.1, hround.2, hentry.1, hentry.2]
  · next hk0 =>
    rw [not_not.1 hk0]
    norm_num

theorem fraction_error (h : Rounded T) {x k1 k2 : Nat} (hx : 2 ^ 63 ≤ x) (hx' : x < 2 ^ 64) (hk1 : k1 < 256) (hk2 : k2 < 256) :
    |(T.exact_middle (T.exact_low x k2) k1 : ℝ) - x * (exp (-(k1 / 256)) * exp (-(k2 / 65536)))| ≤ 385 / 256 := by
  have hlow := h.low_error hx hx' hk2
  have hmid := h.middle_error (lt_of_le_of_lt (exact_low_le (T := T) x k2) hx') hk1
  generalize T.exact_low x k2 = z at hlow hmid ⊢
  have hexp : exp (-(k1 / 256)) ≤ 1 := exp_le_one_iff.2 (by rw [neg_nonpos]; positivity)
  have hscaled : |exp (-(k1 / 256)) * ((z : ℝ) - x * exp (-(k2 / 65536)))| ≤ 129 / 256 := by
    rw [abs_mul, abs_of_pos (exp_pos _)]
    calc exp (-(k1 / 256)) * |(z : ℝ) - x * exp (-(k2 / 65536))| ≤ 1 * (129 / 256) :=
          mul_le_mul hexp hlow (abs_nonneg _) zero_le_one
      _ = 129 / 256 := one_mul _
  calc |(T.exact_middle z k1 : ℝ) - x * (exp (-(k1 / 256)) * exp (-(k2 / 65536)))|
      = |((T.exact_middle z k1 : ℝ) - z * exp (-(k1 / 256))) + exp (-(k1 / 256)) * (z - x * exp (-(k2 / 65536)))| := by ring_nf
    _ ≤ |(T.exact_middle z k1 : ℝ) - z * exp (-(k1 / 256))| + |exp (-(k1 / 256)) * (z - x * exp (-(k2 / 65536)))| := abs_add_le _ _
    _ ≤ 1 + 129 / 256 := add_le_add hmid hscaled
    _ = 385 / 256 := by norm_num

/-! ## The shift back -/

theorem shifted {a d : ℝ} (s : Nat) (hd : |d| ≤ a) : |d / 2 ^ s| ≤ a / 2 ^ s := by
  rw [abs_div, abs_of_pos (show (0 : ℝ) < 2 ^ s by positivity)]
  exact div_le_div_of_nonneg_right hd (pow_pos two_pos s).le

theorem div_pow_le {a : ℝ} (ha : 0 ≤ a) {i s : Nat} (h : i ≤ s) : a / 2 ^ s ≤ a / 2 ^ i :=
  div_le_div_of_nonneg_left ha (pow_pos two_pos i) (pow_le_pow_right₀ one_le_two h)

theorem last_rounding {y r e a : ℝ} {s : Nat} (ha : 0 ≤ a) (hround : |y - r| ≤ 1 / 2) (herr : |r - e| ≤ a / 2 ^ s) {i : Nat} (h : i ≤ s) :
    |y - e| ≤ 1 / 2 + a / 2 ^ i := by
  calc |y - e| = |(y - r) + (r - e)| := by ring_nf
    _ ≤ |y - r| + |r - e| := abs_add_le _ _
    _ ≤ 1 / 2 + a / 2 ^ i := add_le_add hround (herr.trans (div_pow_le ha h))

theorem high_error (h : Rounded T) {x z k0 s : Nat} {e : ℝ} (hX : x * 2 ^ s < 2 ^ 64) (hz : z ≤ x * 2 ^ s) (he0 : 0 ≤ e) (he1 : e ≤ 1)
    (hfraction : |(z : ℝ) - (x * 2 ^ s : ℕ) * e| ≤ 385 / 256) (hk0 : k0 ≤ max_exp) :
    |(T.exact_high z k0 s : ℝ) - x * (exp (-k0) * e)| ≤ 385 / 256 ∧ (2 ≤ s → |(T.exact_high z k0 s : ℝ) - x * (exp (-k0) * e)| < 1) := by
  have hpow : (0 : ℝ) < 2 ^ s := pow_pos two_pos s
  push_cast at hfraction
  have hback : |(z : ℝ) / 2 ^ s - x * e| ≤ 385 / 256 / 2 ^ s := by
    have hdiv : (z : ℝ) / 2 ^ s - x * e = (z - x * 2 ^ s * e) / 2 ^ s := by
      field_simp
    rw [hdiv]
    exact shifted s hfraction
  unfold exact_high
  split
  · next hne =>
    rcases h.table0 k0 hne hk0 with ⟨hzero, hsmall⟩ | ⟨hbig, hnear⟩
    · -- the entry is zero, and so is the exact value but for a fraction
      have hvalue : halfUp (z * (T.table0 k0).toNat) (2 ^ ((T.table0_shift k0).toNat + s)) = 0 := by
        rw [hzero, halfUp_two_pow]
        simp
      have hx : (x : ℝ) < 2 ^ 64 := by
        exact_mod_cast lt_of_le_of_lt (Nat.le_mul_of_pos_right x (Nat.two_pow_pos s)) hX
      have hlt : |((0 : ℕ) : ℝ) - x * (exp (-k0) * e)| < 1 := by
        rw [Nat.cast_zero, zero_sub, abs_neg, abs_of_nonneg (by positivity)]
        calc (x : ℝ) * (exp (-k0) * e) ≤ x * (exp (-k0) * 1) := by gcongr
          _ = x * exp (-k0) := by rw [mul_one]
          _ ≤ 2 ^ 64 * exp (-k0) := by gcongr
          _ < 2 ^ 64 * (1 / 2 ^ 64) := by gcongr
          _ = 1 := by norm_num
      rw [hvalue]
      exact ⟨hlt.le.trans (by norm_num), fun _ => hlt⟩
    · have hshift : 64 ≤ (T.table0_shift k0).toNat := by
        rcases h.shift_ge k0 hne hk0 with h0 | h64
        · rw [h0] at hbig
          exact absurd hbig (by decide)
        · exact h64
      generalize (T.table0_shift k0).toNat = sh at hnear hshift ⊢
      generalize (T.table0 k0).toNat = t at hnear ⊢
      have hround := abs_halfUp_sub_le (z * t) (Nat.two_pow_pos (sh + s))
      have hz' : (z : ℝ) ≤ 2 ^ 64 := by exact_mod_cast (hz.trans hX.le)
      have hentry : |(z : ℝ) * (t - exp (-k0) * 2 ^ (sh + 1)) / 2 ^ (sh + 1)| ≤ 1 / 4 := by
        have h65 : (2 : ℝ) ^ 65 ≤ 2 ^ (sh + 1) := pow_le_pow_right₀ one_le_two (by omega)
        rw [abs_div, abs_mul, Nat.abs_cast, abs_of_pos (show (0 : ℝ) < 2 ^ (sh + 1) by positivity), div_le_iff₀ (pow_pos two_pos (sh + 1))]
        calc (z : ℝ) * |(t : ℝ) - exp (-k0) * 2 ^ (sh + 1)| ≤ 2 ^ 64 * (1 / 2) := mul_le_mul hz' hnear (abs_nonneg _) (by positivity)
          _ = 1 / 4 * 2 ^ 65 := by norm_num
          _ ≤ 1 / 4 * 2 ^ (sh + 1) := by gcongr
      have hwhole : |exp (-k0) * ((z : ℝ) - x * 2 ^ s * e)| ≤ 3 / 8 * (385 / 256) := by
        rw [abs_mul, abs_of_pos (exp_pos _)]
        exact mul_le_mul (exp_neg_le_of_ne_zero hne) hfraction (abs_nonneg _) (by norm_num)
      have hsum : |((z * t : ℕ) : ℝ) / (2 * (2 ^ (sh + s) : ℕ)) - x * (exp (-k0) * e)| ≤ (1 / 4 + 3 / 8 * (385 / 256)) / 2 ^ s := by
        have hsplit : ((z * t : ℕ) : ℝ) / (2 * (2 ^ (sh + s) : ℕ)) - x * (exp (-k0) * e) =
            ((z : ℝ) * (t - exp (-k0) * 2 ^ (sh + 1)) / 2 ^ (sh + 1) + exp (-k0) * ((z : ℝ) - x * 2 ^ s * e)) / 2 ^ s := by
          push_cast
          rw [pow_add, pow_succ]
          field_simp
          ring
        rw [hsplit]
        exact shifted s ((abs_add_le _ _).trans (add_le_add hentry hwhole))
      constructor
      · refine (last_rounding (by norm_num) hround hsum (Nat.zero_le s)).trans ?_
        norm_num
      · intro h2
        refine (last_rounding (by norm_num) hround hsum h2).trans_lt ?_
        norm_num
  · next hk =>
    have hone : exp (-(k0 : ℝ)) = 1 := by
      rw [not_not.1 hk]
      simp
    rw [hone, one_mul]
    split
    · next hs =>
      rw [hs, pow_zero, mul_one] at hfraction
      refine ⟨hfraction, fun h2 => ?_⟩
      omega
    · next hs =>
      have hround := abs_halfUp_sub_le z (Nat.two_pow_pos (s - 1))
      have hdouble : (2 : ℝ) * (2 ^ (s - 1) : ℕ) = 2 ^ s := by
        push_cast
        rw [← pow_succ', Nat.sub_add_cancel (Nat.one_le_iff_ne_zero.2 hs)]
      rw [hdouble] at hround
      constructor
      · refine (last_rounding (by norm_num) hround hback (Nat.one_le_iff_ne_zero.2 hs)).trans ?_
        norm_num
      · intro h2
        refine (last_rounding (by norm_num) hround hback h2).trans_lt ?_
        norm_num

theorem high_le (h : Rounded T) {x z k0 s : Nat} (hz : z ≤ x * 2 ^ s) (hk0 : k0 ≤ max_exp) : T.exact_high z k0 s ≤ x := by
  unfold exact_high
  split
  · next hne =>
    rcases h.shift_ge k0 hne hk0 with h0 | h64
    · rw [h0, halfUp_two_pow]
      simp
    · refine halfUp_le (Nat.two_pow_pos _) ?_
      have ht : (T.table0 k0).toNat ≤ 2 * 2 ^ (T.table0_shift k0).toNat := by
        rw [← Nat.pow_succ']
        exact (T.table0 k0).isLt.le.trans (Nat.pow_le_pow_right (by decide) (by omega))
      calc z * (T.table0 k0).toNat ≤ x * 2 ^ s * (2 * 2 ^ (T.table0_shift k0).toNat) := Nat.mul_le_mul hz ht
        _ = x * (2 * 2 ^ ((T.table0_shift k0).toNat + s)) := by
          rw [Nat.pow_add]
          ring
  · split
    · next hs =>
      rw [hs, pow_zero, mul_one] at hz
      exact hz
    · next hs =>
      refine halfUp_le (Nat.two_pow_pos _) ?_
      rw [← Nat.pow_succ', Nat.succ_eq_add_one, Nat.sub_add_cancel (Nat.one_le_iff_ne_zero.2 hs)]
      exact hz

theorem exp_split (k : Nat) : exp (-(k / 65536)) =
    exp (-((k / 2 ^ 16 : ℕ) : ℝ)) * (exp (-(((k / 2 ^ 8 % 2 ^ 8 : ℕ) : ℝ) / 256)) * exp (-(((k % 2 ^ 8 : ℕ) : ℝ) / 65536))) := by
  have hk : k = k / 2 ^ 16 * 65536 + k / 2 ^ 8 % 2 ^ 8 * 256 + k % 2 ^ 8 := by omega
  have hk' : (k : ℝ) = (k / 2 ^ 16 : ℕ) * 65536 + (k / 2 ^ 8 % 2 ^ 8 : ℕ) * 256 + (k % 2 ^ 8 : ℕ) := by exact_mod_cast hk
  rw [← exp_add, ← exp_add]
  congr 1
  rw [hk']
  ring

/-- Less than one off for numbers under 2^62, and less than 385/256 for all; never more than the number. -/
theorem exact_error (h : Rounded T) {x k : Nat} (hx : x < 2 ^ 64) :
    T.exact x k ≤ x ∧ |(T.exact x k : ℝ) - x * exp (-(k / 65536))| ≤ 385 / 256 ∧
      (x < 2 ^ 62 → |(T.exact x k : ℝ) - x * exp (-(k / 65536))| < 1) := by
  unfold NegExpInt64Table.exact
  split
  · next h0 =>
    have hsame : (x : ℝ) - x * exp (-(k / 65536)) = 0 := by
      rcases h0 with hk | hx0
      · rw [hk]
        simp
      · rw [hx0]
        simp
    rw [hsame]
    norm_num
  · next hne =>
    rw [not_or] at hne
    split
    · next hmax =>
      have hlt : |((0 : ℕ) : ℝ) - x * exp (-(k / 65536))| < 1 := by
        have hk : (46 : ℝ) ≤ k / 65536 := by
          have hk' : 46 * 65536 ≤ k := by
            have : 46 ≤ k / 2 ^ 16 := hmax
            omega
          rw [le_div_iff₀ (by norm_num)]
          exact_mod_cast hk'
        have hexp : exp (-(k / 65536)) ≤ (3 / 8) ^ 46 := by
          calc exp (-(k / 65536)) ≤ exp (46 * (-1)) := exp_le_exp.2 (by linarith)
            _ = exp (-1) ^ 46 := by rw [← exp_nat_mul]; norm_num
            _ ≤ (3 / 8) ^ 46 := by
              have h1 := exp_neg_le_of_ne_zero one_ne_zero
              rw [Nat.cast_one] at h1
              exact pow_le_pow_left₀ (exp_pos _).le h1 46
        have hx' : (x : ℝ) ≤ 2 ^ 64 := by exact_mod_cast hx.le
        rw [Nat.cast_zero, zero_sub, abs_neg, abs_of_nonneg (by positivity)]
        calc (x : ℝ) * exp (-(k / 65536)) ≤ 2 ^ 64 * (3 / 8) ^ 46 := mul_le_mul hx' hexp (exp_pos _).le (by positivity)
          _ < 1 := by norm_num
      exact ⟨Nat.zero_le _, hlt.le.trans (by norm_num), fun _ => hlt⟩
    · next hmax =>
      obtain ⟨-, hlow, hhigh⟩ := shift_bounds hne.2 hx
      have hk1 : k / 2 ^ 8 % 2 ^ 8 < 256 := Nat.mod_lt _ (by decide)
      have hk2 : k % 2 ^ 8 < 256 := Nat.mod_lt _ (by decide)
      have hfraction := h.fraction_error hlow hhigh hk1 hk2
      have hz := (exact_middle_le (T := T) (T.exact_low (x * 2 ^ (63 - x.log2)) (k % 2 ^ 8)) (k / 2 ^ 8 % 2 ^ 8)).trans
        (exact_low_le (T := T) (x * 2 ^ (63 - x.log2)) (k % 2 ^ 8))
      generalize T.exact_middle (T.exact_low (x * 2 ^ (63 - x.log2)) (k % 2 ^ 8)) (k / 2 ^ 8 % 2 ^ 8) = z at hfraction hz ⊢
      have he1 : exp (-(((k / 2 ^ 8 % 2 ^ 8 : ℕ) : ℝ) / 256)) * exp (-(((k % 2 ^ 8 : ℕ) : ℝ) / 65536)) ≤ 1 := by
        rw [← exp_add, exp_le_one_iff]
        have h1 : (0 : ℝ) ≤ ((k / 2 ^ 8 % 2 ^ 8 : ℕ) : ℝ) / 256 := by positivity
        have h2 : (0 : ℝ) ≤ ((k % 2 ^ 8 : ℕ) : ℝ) / 65536 := by positivity
        linarith
      have herror := h.high_error hhigh hz (by positivity) he1 hfraction (not_lt.1 hmax)
      rw [← exp_split] at herror
      refine ⟨h.high_le hz (not_lt.1 hmax), herror.1, fun h62 => herror.2 ?_⟩
      have hlog := (Nat.log2_lt hne.2).2 h62
      omega

/-- The value is within 385/256 of `x * exp(-k / 2^16)`, and within one for `x` under 2^62; it is not more than `x`,
and it is the one that is computed without words. -/
theorem decay_accurate (h : Rounded T) (x : BitVec 64) (k : BitVec 32) :
    (T.umulnexps32 x k false).toNat = T.exact x.toNat k.toNat ∧ T.umulnexps32 x k false ≤ x ∧
      |((T.umulnexps32 x k false).toNat : ℝ) - x.toNat * exp (-(k.toNat / 65536))| ≤ 385 / 256 ∧
      (x.toNat < 2 ^ 62 → |((T.umulnexps32 x k false).toNat : ℝ) - x.toNat * exp (-(k.toNat / 65536))| < 1) := by
  have hexact := h.umulnexps32_toNat x k
  rw [BitVec.le_def, hexact]
  exact ⟨rfl, h.exact_error x.isLt⟩

end Rounded

end Ton.Decay
