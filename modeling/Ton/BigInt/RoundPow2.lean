import Ton.BigInt.ModPow2
import Ton.BigInt.Shift
/-!
# Remainders of normalised numbers

For digits that are normalised, or the negatives of such, the words that
`mod_pow2_any` leaves stand for the remainder, except where there is no word left
for the power above a negative number, and where a last digit `2 ^ 51` is taken for
`-2 ^ 51`. Rounding to the nearest adds that the power is subtracted as an `int`.
-/

namespace Ton.BigInt
open SignedDigits List Int

namespace AnyIntView

/-- A view that stands for a number, if there is one. -/
def Leaves (x : AnyIntView) : Option Int → Prop
  | some w => x.Holds w
  | none => x.digits = []

theorem Leaves.normalize_iff {x : AnyIntView} {o : Option Int} {u : Int} (h : x.Leaves o) (hu : InRange Base Half x.max_size u) :
    x.normalize_bool_any.Is u ↔ o = some u := by
  match o, h with
  | none, h =>
    refine iff_of_false (fun hi => hi.normal.ne_nil (normalize_nan h)) (by simp)
  | some w, h =>
    constructor
    · intro hi
      rcases h.normalize_cases with ⟨-, hw⟩ | ⟨-, hd⟩
      · rw [hw.unique hi]
      · exact absurd hd hi.normal.ne_nil
    · rintro ⟨⟩
      exact h.normalize hu

section
variable {x : AnyIntView} {v w : Int} {e : Nat} {ds : List Int}

/-- The digits below a place are less than a unit there, and the highest of them has the sign of their number. -/
def SignedAt (ds : List Int) (k : Nat) : Prop :=
  (-Base ^ k < value Base (ds.take k) ∧ value Base (ds.take k) < Base ^ k) ∧ (lead (ds.take k) < 0 ↔ value Base (ds.take k) < 0)

theorem balanced_signed (hd : Balanced Half ds) (k : Nat) : SignedAt ds k :=
  ⟨hd.abs_value_take_lt base_eq half_pos k, lead_neg_iff fun d hm => hd d (mem_of_mem_take hm)⟩

theorem lead_map_neg (ds : List Int) : lead (ds.map (- ·)) = -lead ds := by
  induction ds with
  | nil => rfl
  | cons d ds ih =>
    rw [map_cons, lead, ih, lead]
    by_cases h : lead ds = 0 <;> simp [h]

theorem signed_map_neg (hd : Balanced Half ds) (k : Nat) : SignedAt (ds.map (- ·)) k := by
  obtain ⟨h1, h2⟩ := hd.abs_value_take_lt base_eq half_pos k
  have hbal : Balanced Half (ds.take k) := fun d hm => hd d (mem_of_mem_take hm)
  have hsign := hbal.sign_lead base_eq half_pos
  have hpos : 0 < lead (ds.take k) ↔ 0 < value Base (ds.take k) := by
    rw [← sign_pos_iff, hsign, sign_pos_iff]
  unfold SignedAt
  rw [← map_take, value_map_neg, lead_map_neg]
  exact ⟨⟨by omega, by omega⟩, by omega⟩

theorem kept_eq (hs : SignedAt ds (e / word_shift)) : kept e ds = value Base ds % 2 ^ e := by
  obtain ⟨⟨h1, h2⟩, hlead⟩ := hs
  have hsplit := two_pow_split e
  have hp : (0 : Int) < 2 ^ (e % word_shift) := by positivity
  have hb := pow_pos base_pos (e / word_shift)
  have hv0 := emod_nonneg (ds.getD (e / word_shift) 0) hp.ne'
  have hv1 := emod_lt_of_pos (ds.getD (e / word_shift) 0) hp
  have hrange : 0 ≤ kept e ds ∧ kept e ds < 2 ^ e := by
    rw [hsplit]
    unfold kept kept_bits
    dsimp only
    generalize Base ^ (e / word_shift) = b at *
    generalize (2 : Int) ^ (e % word_shift) = p at *
    generalize ds.getD (e / word_shift) 0 % p = u at *
    split
    · next h =>
      have hneg := hlead.1 h.2
      constructor <;> nlinarith
    · next h =>
      by_cases hu : u = 0
      · have := not_lt.1 fun hl => h ⟨hu, hlead.2 hl⟩
        rw [hu]
        constructor <;> nlinarith
      · constructor <;> nlinarith [show 1 ≤ u by omega]
  obtain ⟨c, hc⟩ := kept_dvd e ds
  rw [show value Base ds = kept e ds + 2 ^ e * c by omega, add_mul_emod_self_left, emod_eq_of_lt hrange.1 hrange.2]

theorem inRange_pow {n : Nat} {u : Int} (he : e + 1 < n * word_shift) (hu : -2 ^ e < u ∧ u < 2 ^ e) : InRange Base Half n u := by
  obtain ⟨m, rfl⟩ := Nat.exists_eq_succ_of_ne_zero (show n ≠ 0 by rintro rfl; omega)
  have h1 : (2 : Int) ^ e ≤ 2 ^ (m * word_shift + 50) := pow_le_pow_right₀ one_le_two (by unfold word_shift at *; omega)
  have h2 := ones_mul Base m
  have h3 := ones_nonneg base_nonneg m
  rw [pow_add, ← base_pow_eq] at h1
  unfold InRange
  rw [Nat.succ_eq_add_one, ones_add]
  simp only [ones, mul_zero, add_zero, mul_one, Base, Half] at *
  constructor <;> nlinarith

/-! ## Rounding down -/

/-- The power above the words there are, within one of them. -/
def AboveWords (x : AnyIntView) (e : Nat) : Prop := x.size * word_shift ≤ e ∧ e < (x.size - 1) * word_shift + word_bits

instance (x : AnyIntView) (e : Nat) : Decidable (x.AboveWords e) := inferInstanceAs (Decidable (_ ∧ _))

theorem Is.not_signBit (hx : x.Is v) : ¬x.SignBit e := by
  rintro ⟨h0, hl, -⟩
  by_cases hv : v = 0
  · subst hv
    obtain ⟨d, hd⟩ := length_eq_one_iff.1 hx.size_zero
    rw [hd] at hl
    exact absurd hl (lt_irrefl 0)
  · exact hx.top_ne_zero hv h0

theorem Is.top_sign (hx : x.Is v) : x.top_word.sign = v.sign := by
  have h := hx.sgn_eq
  rwa [sgn, if_pos hx.is_valid] at h

theorem Is.abs_lt (hx : x.Is v) : -Base ^ x.size < v ∧ v < Base ^ x.size := by
  have h := hx.normal.balanced.abs_value_lt base_eq half_pos
  rwa [show value Base x.digits = v from hx.toInt] at h

theorem base_pow_le (he : x.size * word_shift ≤ e) : Base ^ x.size ≤ 2 ^ e := by
  rw [base_pow_eq]
  exact pow_le_pow_right₀ one_le_two he

theorem Is.residue_eq (hx : x.Is v) (h : ¬(v < 0 ∧ x.size + 1 = x.max_size ∧ x.AboveWords e)) : x.residue e = some (v % 2 ^ e) := by
  have hv : value Base x.digits = v := hx.toInt
  have hsign := hx.top_sign
  have hbal := hx.top_balanced
  unfold residue
  split
  · rw [kept_eq (balanced_signed hx.normal.balanced _), hv]
  next he1 =>
  obtain ⟨h1, h2⟩ := hx.abs_lt
  have hle := base_pow_le (not_lt.1 he1)
  rw [show x.toInt = v from hx.toInt]
  rcases lt_trichotomy v 0 with hneg | rfl | hpos
  · have htop : x.top_word < 0 := by rwa [sign_eq_neg_one_of_neg hneg, sign_eq_neg_one_iff_neg] at hsign
    have hmod : v % 2 ^ e = v + 2 ^ e := by
      rw [← add_emod_right]
      exact emod_eq_of_lt (by omega) (by omega)
    rw [hmod]
    split
    · next he2 =>
      rw [if_neg htop.ne, if_neg (fun hc : 0 < x.top_word ∧ x.top_word < Half => absurd hc.1 (not_lt.2 htop.le)),
        sub_zero, if_neg (fun hf => h ⟨hneg, hf, not_lt.1 he1, he2⟩)]
    · rw [if_neg (not_le.2 htop)]
  · have htop : x.top_word = 0 := by rwa [Int.sign_zero, sign_eq_zero_iff_zero] at hsign
    have hlead : 0 ≤ lead x.digits.dropLast := by
      obtain ⟨d, hd⟩ := length_eq_one_iff.1 hx.size_zero
      rw [hd]
      exact le_rfl
    rw [if_pos htop, if_pos hlead, if_pos htop.ge, zero_emod]
    split <;> rfl
  · have htop : 0 < x.top_word := by rwa [sign_eq_one_of_pos hpos, sign_eq_one_iff_pos] at hsign
    rw [if_neg htop.ne', if_pos (And.intro htop hbal.2), if_pos htop.le, emod_eq_of_lt hpos.le (by omega)]
    split <;> rfl

theorem Is.residue_none (hx : x.Is v) (h : v < 0 ∧ x.size + 1 = x.max_size ∧ x.AboveWords e) : x.residue e = none := by
  obtain ⟨hneg, hfull, he1, he2⟩ := h
  have hsign := hx.top_sign
  have htop : x.top_word < 0 := by rwa [sign_eq_neg_one_of_neg hneg, sign_eq_neg_one_iff_neg] at hsign
  rw [residue, if_neg (not_lt.2 he1), if_pos he2, if_neg htop.ne, if_neg (fun hc => absurd hc.1 (not_lt.2 htop.le)), if_pos hfull]

theorem Is.mod_pow2_cases (hx : x.Is v) (he0 : 0 < e) (hmax : e < x.max_size * word_shift) :
    match x.residue e with
    | some w => (x.mod_pow2_any e).HoldsSmall w
    | none => (x.mod_pow2_any e).digits = [] :=
  hx.holds.mod_pow2_cases ((balanced_bounded hx.normal.balanced).mono (by decide)) ⟨hx.top_balanced.1, hx.top_balanced.2.le⟩ he0 hmax
    hx.not_signBit

@[simp] theorem max_size_mod_pow2_any (x : AnyIntView) (e : Nat) : (x.mod_pow2_any e).max_size = x.max_size := by
  unfold mod_pow2_any mod_pow2_word
  dsimp only
  split_ifs <;> rfl

theorem Is.mod_pow2_floor (hx : x.Is v) (he0 : 0 < e) (hmax : e + 1 < x.max_size * word_shift) :
    (x.mod_pow2_any e).normalize_bool_any.Is (v % 2 ^ e) ↔ ¬(v < 0 ∧ x.size + 1 = x.max_size ∧ x.AboveWords e) := by
  have hp : (0 : Int) < 2 ^ e := by positivity
  have h1 := emod_nonneg v hp.ne'
  have h2 := emod_lt_of_pos v hp
  have hcases := hx.mod_pow2_cases he0 (by omega)
  by_cases h : v < 0 ∧ x.size + 1 = x.max_size ∧ x.AboveWords e
  · rw [hx.residue_none h] at hcases
    exact iff_of_false (fun hi => hi.normal.ne_nil (normalize_nan hcases)) (not_not.2 h)
  · rw [hx.residue_eq h] at hcases
    refine iff_of_true (hcases.1.normalize ?_) h
    rw [max_size_mod_pow2_any]
    exact inRange_pow hmax ⟨by omega, h2⟩

/-! ## Rounding up -/

theorem Is.negate_digits (hx : x.Is v) : x.negate_any.digits = x.digits.map (- ·) := by
  apply map_congr_left
  intro d hd
  have := hx.normal.balanced d hd
  simp only [Half] at this
  exact word_eq (by omega) (by omega)

theorem Is.negate_top (hx : x.Is v) : x.negate_any.top_word = -x.top_word := by
  obtain ⟨es, hd, -⟩ := top_word_eq hx.normal.ne_nil
  conv_lhs => rw [top_word, hx.negate_digits, hd, map_append]
  simp

theorem HoldsSmall.negate (hx : x.HoldsSmall v) : x.negate_any.HoldsSmall (-v) := by
  obtain ⟨h1, h2⟩ := map_mul_spec (M := 2 ^ 62) (-1) (f := fun d => word (-d)) (by simp) (by decide) fun d hd => by
    have := hx.2 d hd
    omega
  refine ⟨⟨by simpa [negate_any] using hx.1.ne_nil, by simpa [negate_any, size] using hx.1.room, h2.roomy, ?_⟩, h2⟩
  rw [AnyIntView.toInt, negate_any, h1, mul_neg_one]
  exact congrArg Neg.neg hx.1.toInt

theorem Is.holdsSmall (hx : x.Is v) : x.HoldsSmall v := ⟨hx.holds, hx.small⟩

/-- Where `-x` has no word left for the power, or loses its last digit. -/
def CeilOutside (x : AnyIntView) (v : Int) (e : Nat) : Prop :=
  x.size + 1 = x.max_size ∧ x.AboveWords e ∧ (0 < v ∨ x.top_word = -Half) ∨
    x.top_word = -Half ∧ x.AboveWords e ∧ e ≠ x.size * word_shift

instance (x : AnyIntView) (v : Int) (e : Nat) : Decidable (x.CeilOutside v e) := inferInstanceAs (Decidable (_ ∨ _))

theorem Is.negate_not_signBit (hx : x.Is v) : ¬x.negate_any.SignBit e := by
  rintro ⟨h0, hl, -⟩
  rw [hx.negate_top, neg_eq_zero] at h0
  by_cases hv : v = 0
  · subst hv
    obtain ⟨d, hd⟩ := length_eq_one_iff.1 hx.size_zero
    rw [hx.negate_digits, hd] at hl
    exact absurd hl (lt_irrefl 0)
  · exact hx.top_ne_zero hv h0

theorem Is.residue_negate (hx : x.Is v) : x.negate_any.residue e = some (-v % 2 ^ e) ↔ ¬x.CeilOutside v e := by
  have hv : value Base x.negate_any.digits = -v := hx.negate.toInt
  have hsign := hx.top_sign
  have hbal := hx.top_balanced
  have hsize : x.negate_any.size = x.size := by simp [size, negate_any]
  obtain ⟨h1, h2⟩ := hx.abs_lt
  unfold residue CeilOutside AboveWords
  rw [hsize, max_size_negate_any, hx.negate_top, show x.negate_any.toInt = -v from hv]
  by_cases he1 : e < x.size * word_shift
  · rw [if_pos he1, kept_eq (hx.negate_digits ▸ signed_map_neg hx.normal.balanced _), hv]
    refine iff_of_true rfl ?_
    rintro (⟨-, h, -⟩ | ⟨-, h, -⟩) <;> exact absurd he1 (not_lt.2 h.1)
  have hle := base_pow_le (not_lt.1 he1)
  have hb := pow_pos base_pos x.size
  rw [if_neg he1]
  rcases lt_trichotomy v 0 with hneg | rfl | hpos
  · have htop : x.top_word < 0 := by rwa [sign_eq_neg_one_of_neg hneg, sign_eq_neg_one_iff_neg] at hsign
    have hmod : -v % 2 ^ e = -v := emod_eq_of_lt (by omega) (by omega)
    have hpow : Base ^ x.size = 2 ^ e ↔ e = x.size * word_shift := by
      rw [base_pow_eq]
      constructor
      · intro h
        exact (Nat.pow_right_injective (le_refl 2) (by exact_mod_cast h)).symm
      · rintro rfl
        rfl
    rw [hmod]
    by_cases he2 : e < (x.size - 1) * word_shift + word_bits
    · rw [if_pos he2, if_neg (by omega)]
      by_cases hhalf : x.top_word = -Half
      · rw [if_neg (by omega), if_neg (show ¬-x.top_word < 0 by omega)]
        by_cases hfull : x.size + 1 = x.max_size
        · rw [if_pos hfull]
          exact iff_of_false (by simp) fun h => h (.inl ⟨hfull, ⟨not_lt.1 he1, he2⟩, .inr hhalf⟩)
        · rw [if_neg hfull, Option.some_inj]
          constructor
          · rintro h (⟨hf, -⟩ | ⟨-, -, hne⟩)
            · exact hfull hf
            · exact hne (hpow.1 (by omega))
          · intro h
            have := hpow.2 (not_not.1 fun hne => h (.inr ⟨hhalf, ⟨not_lt.1 he1, he2⟩, hne⟩))
            omega
      · rw [if_pos (by omega)]
        refine iff_of_true rfl ?_
        rintro (⟨-, -, h⟩ | ⟨h, -⟩) <;> omega
    · rw [if_neg he2, if_pos (by omega)]
      refine iff_of_true rfl ?_
      rintro (⟨-, h, -⟩ | ⟨-, h, -⟩) <;> exact he2 h.2
  · have htop : x.top_word = 0 := by rwa [Int.sign_zero, sign_eq_zero_iff_zero] at hsign
    have hlead : 0 ≤ lead x.negate_any.digits.dropLast := by
      obtain ⟨d, hd⟩ := length_eq_one_iff.1 hx.size_zero
      rw [hx.negate_digits, hd]
      exact le_rfl
    rw [htop, neg_zero, zero_emod, if_pos rfl, if_pos hlead, if_pos le_rfl]
    refine iff_of_true (by split <;> rfl) ?_
    rintro (⟨-, -, h⟩ | ⟨h, -⟩) <;> simp [Half] at h
  · have htop : 0 < x.top_word := by rwa [sign_eq_one_of_pos hpos, sign_eq_one_iff_pos] at hsign
    have hmod : -v % 2 ^ e = -v + 2 ^ e := by
      rw [← add_emod_right]
      exact emod_eq_of_lt (by omega) (by omega)
    rw [hmod]
    by_cases he2 : e < (x.size - 1) * word_shift + word_bits
    · rw [if_pos he2, if_neg (by omega), if_neg (by omega), if_pos (show -x.top_word < 0 by omega), sub_zero]
      by_cases hfull : x.size + 1 = x.max_size
      · rw [if_pos hfull]
        exact iff_of_false (by simp) fun h => h (.inl ⟨hfull, ⟨not_lt.1 he1, he2⟩, .inl hpos⟩)
      · rw [if_neg hfull]
        refine iff_of_true rfl ?_
        rintro (⟨h, -⟩ | ⟨h, -⟩)
        · exact hfull h
        · simp only [Half] at h
          omega
    · rw [if_neg he2, if_neg (by omega)]
      refine iff_of_true rfl ?_
      rintro (⟨-, h, -⟩ | ⟨-, h, -⟩) <;> exact he2 h.2

theorem Is.mod_pow2_ceil (hx : x.Is v) (he0 : 0 < e) (hmax : e + 1 < x.max_size * word_shift) :
    (x.negate_any.mod_pow2_any e).negate_any.normalize_bool_any.Is (-(-v % 2 ^ e)) ↔ ¬x.CeilOutside v e := by
  have hp : (0 : Int) < 2 ^ e := by positivity
  have h1 := emod_nonneg (-v) hp.ne'
  have h2 := emod_lt_of_pos (-v) hp
  have hneg := hx.holdsSmall.negate
  have hbounded : Bounded (2 ^ 60) x.negate_any.digits := by
    rw [hx.negate_digits]
    intro d hd
    obtain ⟨c, hc, rfl⟩ := mem_map.1 hd
    have := hx.normal.balanced c hc
    simp only [Half] at this
    omega
  have htop : -Half ≤ x.negate_any.top_word ∧ x.negate_any.top_word ≤ Half := by
    have := hx.top_balanced
    rw [hx.negate_top]
    omega
  have hcases := hneg.1.mod_pow2_cases hbounded htop he0 (by rw [max_size_negate_any]; omega) hx.negate_not_signBit
  rw [← hx.residue_negate]
  have hleaves : (x.negate_any.mod_pow2_any e).negate_any.Leaves ((x.negate_any.residue e).map (- ·)) := by
    cases hr : x.negate_any.residue e with
    | none =>
      rw [hr] at hcases
      simp only [Option.map_none, Leaves, negate_any, map_eq_nil_iff]
      exact hcases
    | some w =>
      rw [hr] at hcases
      exact hcases.negate.1
  rw [hleaves.normalize_iff (by simpa using inRange_pow hmax ⟨by omega, by omega⟩)]
  cases x.negate_any.residue e with
  | none => simp
  | some w => simp

/-! ## Rounding to the nearest -/

theorem below_half_iff (hs : ∀ k ≤ e / word_shift, SignedAt ds k) (he0 : 0 < e) : below_half e ds ↔ 2 * (value Base ds % 2 ^ e) < 2 ^ e := by
  have hr : e % word_shift < word_shift := Nat.mod_lt _ (by decide)
  have hdm := Nat.div_add_mod e word_shift
  have hsplit := two_pow_split e
  obtain ⟨⟨h1, h2⟩, hlead⟩ := hs (e / word_shift) le_rfl
  rw [← kept_eq (hs _ le_rfl)]
  unfold below_half kept
  dsimp only
  by_cases hr0 : e % word_shift = 0
  · obtain ⟨j, hj⟩ := Nat.exists_eq_succ_of_ne_zero (show e / word_shift ≠ 0 by intro h; rw [h, hr0] at hdm; omega)
    rw [Nat.succ_eq_add_one] at hj
    obtain ⟨⟨g1, g2⟩, glead⟩ := hs j (by omega)
    have hlow : value Base (ds.take (j + 1)) = value Base (ds.take j) + Base ^ j * ds.getD j 0 := by
      by_cases hlt : j < ds.length
      · rw [take_add_one, getD_eq_getElem?_getD, getElem?_eq_getElem hlt, Option.toList_some, value_append, length_take,
          min_eq_left hlt.le, value_singleton]
        rfl
      · rw [getD_eq_default _ _ (not_lt.1 hlt), take_of_length_le (by omega), take_of_length_le (by omega), mul_zero,
          add_zero]
    have hbits : kept_bits e ds = if lead (ds.take (e / word_shift)) < 0 then 1 else 0 := by
      unfold kept_bits
      simp [hr0]
    rw [if_pos hr0, hbits, hsplit, hr0, hj, Nat.add_sub_cancel, pow_zero, mul_one, pow_succ, hlow]
    generalize lead (ds.take (j + 1)) = l
    rw [show Base ^ j * Base = Base ^ j * (2 * Half) by rw [base_eq]]
    have hlt : ∀ b : Int, value Base (ds.take j) + Base ^ j * (ds.getD j 0) < Base ^ j * b ↔
        ds.getD j 0 < b ∨ ds.getD j 0 = b ∧ lead (ds.take j) < 0 := by
      intro b
      rw [glead]
      exact add_mul_lt_iff g1 g2
    split
    · rw [← hlt]
      constructor <;> intro h <;> linarith
    · rw [← hlt]
      constructor <;> intro h <;> linarith
  · have hhalf : (2 : Int) ^ (e % word_shift) = 2 * 2 ^ (e % word_shift - 1) := by
      rw [← pow_succ', Nat.sub_add_cancel (Nat.pos_of_ne_zero hr0)]
    rw [if_neg hr0, hlead, ← add_mul_lt_iff h1 h2, hsplit, hhalf]
    constructor <;> intro h <;> linarith

theorem shift_int_neg_one (r : Nat) : shift_int (-1) r = -2 ^ (r % 32) := by
  have hlt : r % 32 < 32 := Nat.mod_lt _ (by decide)
  unfold shift_int
  generalize r % 32 = m at *
  interval_cases m <;> decide

theorem shift_int_bounds (r : Nat) : -2 ^ 31 ≤ shift_int (-1) r ∧ shift_int (-1) r < 0 ∧ -2 ^ r ≤ shift_int (-1) r := by
  have h1 : (2 : Int) ^ (r % 32) ≤ 2 ^ 31 := pow_le_pow_right₀ one_le_two (by omega)
  have h2 : (2 : Int) ^ (r % 32) ≤ 2 ^ r := pow_le_pow_right₀ one_le_two (Nat.mod_le r 32)
  have h3 : (0 : Int) < 2 ^ (r % 32) := by positivity
  rw [shift_int_neg_one]
  exact ⟨by omega, by omega, by omega⟩

/-- The power as an `int` is the power while it has at most 31 bits. -/
theorem shift_int_eq (r : Nat) : shift_int (-1) r = -2 ^ r ↔ r ≤ 31 := by
  rw [shift_int_neg_one, neg_inj]
  constructor
  · intro h
    have := Nat.pow_right_injective (le_refl 2) (show 2 ^ (r % 32) = 2 ^ r by exact_mod_cast h)
    omega
  · intro h
    rw [Nat.mod_eq_of_lt (by omega)]

theorem HoldsSmall.add_pow2 (hx : x.HoldsSmall v) (he : e < x.max_size * word_shift) :
    (x.add_pow2_any e (-1)).Holds (v + Base ^ (e / word_shift) * shift_int (-1) (e % word_shift)) := by
  have hk : e / word_shift < x.max_size := Nat.div_lt_of_lt_mul (by rwa [mul_comm] at he)
  have hshift := shift_int_bounds (e % word_shift)
  have hroom := hx.1.room
  have hval := value_extend (e / word_shift + 1) x.digits
  have hb := bounded_extend (by decide) hx.2 (e / word_shift + 1)
  unfold add_pow2_any
  rw [if_neg (not_le.2 he), is_valid_iff.2 hx.1.ne_nil, if_neg (by simp)]
  dsimp only
  generalize e / word_shift = k at *
  generalize shift_int (-1) (e % word_shift) = c at *
  have hlen : k < (extend (k + 1) x.digits).length ∧ (extend (k + 1) x.digits).length ≤ x.max_size := by
    rw [extend, length_append, length_replicate]
    unfold size at hroom
    omega
  have hf : ∀ d ∈ extend (k + 1) x.digits, word (d + c) = d + c := by
    intro d hd
    have := hb d hd
    exact word_eq (by omega) (by omega)
  refine ⟨ne_nil_of_length_pos (by rw [length_modify]; omega), ?_, forall_mem_modify hb.roomy ?_ _, ?_⟩
  · unfold size
    rw [length_modify]
    exact hlen.2
  · intro d hd
    have := hb d hd
    rw [hf d hd]
    omega
  · rw [AnyIntView.toInt, value_modify Base hlen.1 c hf, hval]
    exact congrArg (· + _) hx.1.toInt

/-- The words of a number with no room in half of the power, at the end of them. -/
theorem Is.nearest_above (hx : x.Is v) (he : x.size * word_shift ≤ e) (hfit : ¬SignedFits e v) :
    e = x.size * word_shift ∧ v < 0 ∧ x.top_word < 0 ∧ 2 * v < -2 ^ e := by
  obtain ⟨h1, h2⟩ := hx.inRange
  have h3 := half_ones_lt base_eq half_pos x.size
  have h4 := ones_mul Base x.size
  have h5 := ones_nonneg base_nonneg x.size
  have hb := pow_pos base_pos x.size
  have hsign := hx.top_sign
  have hle : e = x.size * word_shift := by
    by_contra hne
    have hpow : (2 : Int) ^ (x.size * word_shift + 1) ≤ 2 ^ e := pow_le_pow_right₀ one_le_two (by omega)
    rw [pow_succ, ← base_pow_eq] at hpow
    obtain ⟨g1, g2⟩ := hx.abs_lt
    exact hfit ⟨by linarith, by linarith⟩
  have hpow := base_pow_eq x.size
  rw [← hle] at hpow
  have hlow : ¬-2 ^ e ≤ 2 * v := by
    intro hlow
    refine hfit ⟨hlow, ?_⟩
    rw [← hpow]
    simp only [Base, Half] at *
    linarith
  have hneg : v < 0 := by
    rw [← hpow] at hlow
    omega
  rw [sign_eq_neg_one_of_neg hneg, sign_eq_neg_one_iff_neg] at hsign
  exact ⟨hle, hneg, hsign, not_le.1 hlow⟩

/-- Where rounding to the nearest leaves the remainder. -/
def NearestInside (x : AnyIntView) (v : Int) (e : Nat) : Prop :=
  SignedFits e v ∨
    ¬(x.size + 1 = x.max_size ∧ e = x.size * word_shift ∧ 2 * v < -2 ^ e) ∧ (e % word_shift ≤ 31 ∨ 2 * (v % 2 ^ e) < 2 ^ e)

instance (x : AnyIntView) (v : Int) (e : Nat) : Decidable (x.NearestInside v e) := inferInstanceAs (Decidable (_ ∨ _))

theorem nearest_remainder {p : Int} (hp : 0 < p) (v : Int) :
    v - roundDiv 0 v p * p = if 2 * (v % p) < p then v % p else v % p - p := by
  have h1 := emod_nonneg v hp.ne'
  have h2 := emod_lt_of_pos v hp
  have h3 := emod_add_mul_ediv v p
  split
  · next h =>
    rw [roundDiv_eq (q := v / p) hp.ne']
    · linear_combination -h3
    · rw [show v - v / p * p = v % p by linear_combination -h3]
      exact .inl ⟨by omega, h⟩
  · next h =>
    rw [roundDiv_eq (q := v / p + 1) hp.ne']
    · linear_combination -h3
    · rw [show v - (v / p + 1) * p = v % p - p by linear_combination -h3]
      exact .inl ⟨by omega, by omega⟩

theorem mod_pow2_round_fits (hvalid : x.is_valid = true) (he0 : 0 < e) (hfit : x.signed_fits_bits_any e = true) :
    x.mod_pow2_round e 0 = x := by
  unfold mod_pow2_round
  rw [if_neg (lt_irrefl 0), hvalid, if_neg (by simp), if_neg he0.ne', if_neg (lt_irrefl 0), if_pos hfit]

theorem roundDiv_fits (hfit : SignedFits e v) : roundDiv 0 v (2 ^ e) = 0 := by
  apply roundDiv_eq (by positivity)
  rw [zero_mul, sub_zero]
  exact .inl hfit

theorem Holds.nearest_low (hx : x.Holds v) (hM : Bounded (2 ^ 60) x.digits) (he0 : 0 < e) (hmax : e + 1 < x.max_size * word_shift)
    (hfit : x.signed_fits_bits_any e = false) (he : e < x.size * word_shift) (hkept : kept e x.digits = v % 2 ^ e)
    (hbelow : below_half e x.digits ↔ 2 * (v % 2 ^ e) < 2 ^ e) :
    (x.mod_pow2_round e 0).normalize_bool_any.Is (v - roundDiv 0 v (2 ^ e) * 2 ^ e) ↔
      e % word_shift ≤ 31 ∨ 2 * (v % 2 ^ e) < 2 ^ e := by
  have hp : (0 : Int) < 2 ^ e := by positivity
  have h1 := emod_nonneg v hp.ne'
  have h2 := emod_lt_of_pos v hp
  have hfits : (x.mod_pow2_any e).unsigned_fits_bits_any (e - 1) = true ↔ 2 * (v % 2 ^ e) < 2 ^ e := by
    rw [mod_pow2_any_low hx.room he0 he, unsigned_fits_kept he0 he, hbelow]
  have hr := hx.mod_pow2_low hM he0 he
  rw [hkept] at hr
  unfold mod_pow2_round
  rw [if_neg (lt_irrefl 0), is_valid_iff.2 hx.ne_nil, if_neg (by simp), if_neg he0.ne', if_neg (lt_irrefl 0),
    if_neg (by simp [hfit])]
  dsimp only
  rw [is_valid_iff.2 hr.1.ne_nil, if_neg (by simp), nearest_remainder hp]
  by_cases hhalf : 2 * (v % 2 ^ e) < 2 ^ e
  · rw [hfits.2 hhalf, if_neg (by simp), if_pos hhalf]
    refine iff_of_true (hr.1.normalize ?_) (.inr hhalf)
    rw [max_size_mod_pow2_any]
    exact inRange_pow hmax ⟨by omega, h2⟩
  · rw [Bool.eq_false_iff.2 (fun h => hhalf (hfits.1 h)), if_pos Bool.not_false, if_neg hhalf]
    have hadd := hr.add_pow2 (e := e) (by rw [max_size_mod_pow2_any]; omega)
    have hleaves : ((x.mod_pow2_any e).add_pow2_any e (-1)).Leaves (some _) := hadd
    have hmaxsize : ((x.mod_pow2_any e).add_pow2_any e (-1)).max_size = x.max_size := by
      unfold add_pow2_any
      dsimp only
      split_ifs <;> simp
    rw [hleaves.normalize_iff (by rw [hmaxsize]; exact inRange_pow hmax ⟨by omega, by omega⟩), Option.some_inj,
      ← shift_int_eq, or_iff_left hhalf]
    have hb := pow_pos base_pos (e / word_shift)
    have hsplit := two_pow_split e
    constructor
    · intro h
      apply mul_left_cancel₀ hb.ne'
      linarith
    · intro h
      rw [h, hsplit]
      ring

theorem Is.mod_pow2_nearest (hx : x.Is v) (he0 : 0 < e) (hmax : e + 1 < x.max_size * word_shift) :
    (x.mod_pow2_round e 0).normalize_bool_any.Is (v - roundDiv 0 v (2 ^ e) * 2 ^ e) ↔ x.NearestInside v e := by
  have hp : (0 : Int) < 2 ^ e := by positivity
  unfold NearestInside
  by_cases hfit : SignedFits e v
  · rw [mod_pow2_round_fits hx.is_valid he0 ((hx.signed_fits_bits e).2 hfit), hx.normalize, roundDiv_fits hfit, zero_mul, sub_zero]
    exact iff_of_true hx (.inl hfit)
  rw [or_iff_right hfit]
  by_cases he : e < x.size * word_shift
  · have hsigned := balanced_signed hx.normal.balanced
    have hv : value Base x.digits = v := hx.toInt
    rw [hx.holds.nearest_low ((balanced_bounded hx.normal.balanced).mono (by decide)) he0 hmax
      (Bool.eq_false_iff.2 fun h => hfit ((hx.signed_fits_bits e).1 h)) he (hv ▸ kept_eq (hsigned _))
      (hv ▸ below_half_iff (fun k _ => hsigned k) he0), and_iff_right fun h => absurd h.2.1 he.ne]
  obtain ⟨hsize, hneg, htop, hlow⟩ := hx.nearest_above (not_lt.1 he) hfit
  have hpos := hx.size_pos
  have hbeyond : e < (x.size - 1) * word_shift + word_bits := by
    unfold word_shift word_bits at *
    omega
  have hmod : v % 2 ^ e = v + 2 ^ e := by
    obtain ⟨h1, -⟩ := hx.abs_lt
    rw [← add_emod_right]
    rw [base_pow_eq, ← hsize] at h1
    exact emod_eq_of_lt (by omega) (by omega)
  have hdigits := mod_pow2_any_neg hx.normal.ne_nil ⟨hx.top_balanced.1, htop⟩ (not_lt.1 he) hbeyond
  unfold mod_pow2_round
  rw [if_neg (lt_irrefl 0), hx.is_valid, if_neg (by simp), if_neg he0.ne', if_neg (lt_irrefl 0),
    if_neg (fun h => hfit ((hx.signed_fits_bits e).1 h)), hdigits]
  by_cases hfull : x.size + 1 = x.max_size
  · rw [if_pos hfull]
    exact iff_of_false (fun h => h.normal.ne_nil (normalize_nan rfl)) fun h => h.1 ⟨hfull, hsize, hlow⟩
  · rw [if_neg hfull, ← hsize, Nat.sub_self, pow_zero]
    have hnormal : Normal Half (x.digits ++ [1]) :=
      (normal_append_singleton hx.normal.ne_nil).2 ⟨hx.normal.balanced, by decide, one_ne_zero⟩
    have his : Is ⟨x.max_size, x.digits ++ [1]⟩ (v + 2 ^ e) := by
      refine ⟨hnormal, ?_, ?_⟩
      · rw [AnyIntView.toInt, value_append, value_singleton, mul_one, hsize, ← base_pow_eq]
        exact congrArg (· + _) hx.toInt
      · have hlt : x.size < x.max_size := by
          unfold word_shift at hsize hmax
          omega
        rw [size, length_append, length_singleton]
        exact hlt
    have hfits : (AnyIntView.mk x.max_size (x.digits ++ [1])).unsigned_fits_bits_any (e - 1) = true := by
      rw [his.unsigned_fits_bits]
      have hpow : (2 : Int) ^ e = 2 * 2 ^ (e - 1) := by rw [← pow_succ', Nat.sub_add_cancel he0]
      obtain ⟨h1, -⟩ := hx.abs_lt
      rw [base_pow_eq, ← hsize] at h1
      exact ⟨by omega, by omega⟩
    dsimp only
    rw [his.is_valid, hfits, if_neg (by simp), if_neg (by simp), his.normalize, nearest_remainder hp, hmod, if_pos (by omega)]
    exact iff_of_true his ⟨fun h => hfull h.1, .inr (by omega)⟩

/-- Where `mod_pow2` with a rounding mode leaves the remainder of a normalised number. -/
def PowInside (mode : Int) (x : AnyIntView) (v : Int) (e : Nat) : Prop :=
  e = 0 ∨
    if mode < 0 then ¬(v < 0 ∧ x.size + 1 = x.max_size ∧ x.AboveWords e)
    else if mode > 0 then ¬x.CeilOutside v e
    else x.NearestInside v e

instance (mode : Int) (x : AnyIntView) (v : Int) (e : Nat) : Decidable (PowInside mode x v e) := by
  unfold PowInside
  infer_instance

theorem is_zero (hroom : 0 < x.max_size) : (x.assign 0).Is 0 :=
  ⟨normal_singleton.2 (by decide), by simp [assign, AnyIntView.toInt], hroom⟩

theorem mod_pow2_round_zero (hvalid : x.is_valid = true) (mode : Int) : x.mod_pow2_round 0 mode = x.assign 0 := by
  unfold mod_pow2_round mod_pow2_any
  rw [hvalid]
  by_cases hm : mode < 0
  · rw [if_pos hm, if_neg (by simp), if_pos rfl]
  · rw [if_neg hm, if_neg (by simp), if_pos rfl]

theorem mod_pow2_round_ceil (hvalid : x.is_valid = true) {mode : Int} (hm : 0 < mode) (he0 : 0 < e) :
    x.mod_pow2_round e mode = (x.negate_any.mod_pow2_any e).negate_any := by
  rw [mod_pow2_round, if_neg (not_lt.2 hm.le), hvalid, if_neg (by simp), if_neg he0.ne', if_pos hm]

theorem floor_remainder {mode : Int} (hm : mode < 0) (v : Int) (e : Nat) : v - roundDiv mode v (2 ^ e) * 2 ^ e = v % 2 ^ e := by
  rw [roundDiv_neg hm (by positivity)]
  linear_combination -(emod_add_mul_ediv v (2 ^ e))

theorem ceil_remainder {mode : Int} (hm : 0 < mode) (v : Int) (e : Nat) : v - roundDiv mode v (2 ^ e) * 2 ^ e = -(-v % 2 ^ e) := by
  rw [roundDiv, if_neg (not_lt.2 hm.le), if_neg hm.ne', fdiv_eq_ediv_of_nonneg _ (by positivity)]
  linear_combination emod_add_mul_ediv (-v) (2 ^ e)

theorem Is.mod_pow2_iff (hx : x.Is v) (mode : Int) (hmax : e + 1 < x.max_size * word_shift) :
    (x.mod_pow2_round e mode).normalize_bool_any.Is (v - roundDiv mode v (2 ^ e) * 2 ^ e) ↔ PowInside mode x v e := by
  have hzero := is_zero (hx.size_pos.trans_le hx.room)
  unfold PowInside
  rcases Nat.eq_zero_or_pos e with rfl | he0
  · rw [mod_pow2_round_zero hx.is_valid, pow_zero, roundDiv_one, mul_one, sub_self, hzero.normalize]
    exact iff_of_true hzero (.inl rfl)
  rw [or_iff_right he0.ne']
  rcases lt_trichotomy mode 0 with hm | rfl | hm
  · rw [if_pos hm, mod_pow2_round, if_pos hm, floor_remainder hm]
    exact hx.mod_pow2_floor he0 hmax
  · rw [if_neg (lt_irrefl 0), if_neg (lt_irrefl 0)]
    exact hx.mod_pow2_nearest he0 hmax
  · rw [if_neg (not_lt.2 hm.le), if_pos hm, mod_pow2_round_ceil hx.is_valid hm he0, ceil_remainder hm]
    exact hx.mod_pow2_ceil he0 hmax

end

end AnyIntView

end Ton.BigInt
