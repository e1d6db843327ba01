import Ton.BigInt.AnyInt
/-!
# Range tests

`unsigned_fits_bits_any` and `signed_fits_bits_any` look at the digits only. On
normalised digits they decide the range of the number.
-/

namespace Ton.BigInt
open SignedDigits Int

/-- The range of a signed number of some bits: zero alone when there are none. -/
def SignedFits (nbits : Nat) (v : Int) : Prop := -2 ^ nbits ≤ 2 * v ∧ 2 * v < 2 ^ nbits

/-- The range of an unsigned number of some bits. -/
def UnsignedFits (nbits : Nat) (v : Int) : Prop := 0 ≤ v ∧ v < 2 ^ nbits

instance (nbits : Nat) (v : Int) : Decidable (SignedFits nbits v) := inferInstanceAs (Decidable (_ ∧ _))

theorem signedFits_succ {n : Nat} {v : Int} : SignedFits (n + 1) v ↔ -2 ^ n ≤ v ∧ v < 2 ^ n := by
  unfold SignedFits
  rw [pow_succ]
  omega

theorem signedFits_257 {v : Int} : SignedFits 257 v ↔ Fits257 v := signedFits_succ

theorem signedFits_zero (n : Nat) : SignedFits n 0 := by
  have := pow_pos (show (0 : Int) < 2 by decide) n
  constructor <;> omega

namespace AnyIntView

/-- The words from the one with bit `rem` on; `last` is the answer where those below decide. -/
def top_below (s : Int) (rem : Nat) (last : Bool) : List Int → Bool
  | [] => true
  | [d] =>
    let val := if s > 0 then d else -d
    let pow : Int := 2 ^ rem
    if val > pow then false else if val < pow then true else last
  | [d, d1] =>
    if rem ≠ word_shift - 1 then false
    else if d1 ≠ s then false
    else
      let val := if s > 0 then d else -d
      if val > -Half then false else if val < -Half then true else last
  | _ => false

/-- What both tests do from `std::div(m, word_shift)` on, for a number of sign `s`. -/
def below_pow2 (s : Int) (m : Nat) (digits : List Int) : Bool :=
  let lower := lead (digits.take (m / word_shift))
  let last : Bool := if lower < 0 then 0 < s else s < 0
  top_below s (m % word_shift) last (digits.drop (m / word_shift))

def unsigned_fits_bits_any (x : AnyIntView) (nbits : Nat) : Bool :=
  if !x.is_valid then false
  else if x.sgn < 0 then false
  else if x.sgn = 0 then true
  else if nbits ≥ x.size * word_shift then true
  else below_pow2 1 nbits x.digits

def signed_fits_bits_any (x : AnyIntView) (nbits : Nat) : Bool :=
  if !x.is_valid then false
  else if nbits > x.size * word_shift then true
  else
    let s := x.sgn
    if s = 0 then true
    else if nbits = 0 then false
    else below_pow2 s (nbits - 1) x.digits

end AnyIntView

theorem two_pow_split (m : Nat) : (2 : Int) ^ m = Base ^ (m / word_shift) * 2 ^ (m % word_shift) := by
  rw [show Base = 2 ^ word_shift from rfl, ← pow_mul, ← pow_add, Nat.div_add_mod]

theorem two_pow_rem_le (m : Nat) : (2 : Int) ^ (m % word_shift) ≤ Half :=
  pow_le_pow_right₀ (by decide) (by have := Nat.mod_lt m (show 0 < word_shift by decide); simp only [word_shift] at *; omega)

theorem two_pow_rem_lt {m : Nat} (h : m % word_shift ≠ word_shift - 1) : (2 : Int) ^ (m % word_shift) < Half :=
  pow_lt_pow_right₀ (by decide) (by have := Nat.mod_lt m (show 0 < word_shift by decide); simp only [word_shift] at *; omega)

theorem base_pow_eq (k : Nat) : Base ^ k = 2 ^ (k * word_shift) := by
  rw [show Base = 2 ^ word_shift from rfl, ← pow_mul, mul_comm]

variable {ds : List Int}

theorem lead_neg_iff (hd : Balanced Half ds) : lead ds < 0 ↔ value Base ds < 0 := by
  rw [← sign_eq_neg_one_iff_neg, hd.sign_lead base_eq half_pos, sign_eq_neg_one_iff_neg]

theorem long_cases (hn : Normal Half ds) (hlen : 2 < ds.length) : value Base ds < -Half ∨ Half < value Base ds := by
  by_contra hin
  have := hn.length_le_of_inRange base_eq half_pos (n := 2) (by decide) ?_
  · omega
  · simp only [InRange, ones, Base, Half] at *
    omega

theorem below_pow2_eq {s : Int} {m : Nat} (hn : Normal Half ds) (hs : s = (value Base ds).sign) (h0 : s ≠ 0) :
    AnyIntView.below_pow2 s m ds = true ↔ -2 ^ m ≤ value Base ds ∧ value Base ds < 2 ^ m := by
  have hsplit := value_take_drop Base (m / word_shift) ds
  obtain ⟨hl1, hl2⟩ := hn.balanced.abs_value_take_lt base_eq half_pos (m / word_shift)
  have hlead := lead_neg_iff (show Balanced Half (ds.take (m / word_shift)) from fun d hm => hn.balanced d (List.mem_of_mem_take hm))
  have hle := two_pow_rem_le m
  have hpos : (0 : Int) < 2 ^ (m % word_shift) := by positivity
  -- the digits below decide only where the others are at a bound
  have hhigh := add_mul_lt_iff (c := value Base (ds.drop (m / word_shift))) (m := 2 ^ (m % word_shift)) hl1 hl2
  have hlow := le_add_mul_iff (c := value Base (ds.drop (m / word_shift))) (m := -2 ^ (m % word_shift)) hl1 hl2
  have hup := add_mul_pos_iff (c := value Base (ds.drop (m / word_shift))) hl1 hl2
  have hdown := add_mul_neg_iff (c := value Base (ds.drop (m / word_shift))) hl1 hl2
  rw [← hsplit, ← two_pow_split m] at hhigh
  rw [← hsplit, mul_neg, ← two_pow_split m] at hlow
  rw [← hsplit] at hup hdown
  have hsign : s = 1 ∧ 0 < value Base ds ∨ s = -1 ∧ value Base ds < 0 := by
    rcases lt_trichotomy (value Base ds) 0 with hv | hv | hv
    · exact .inr ⟨hs.trans (sign_eq_neg_one_of_neg hv), hv⟩
    · rw [hs, hv] at h0
      exact absurd Int.sign_zero h0
    · exact .inl ⟨hs.trans (sign_eq_one_of_pos hv), hv⟩
  have htop : ds.drop (m / word_shift) ≠ [] → Normal Half (ds.drop (m / word_shift)) := by
    intro hne
    exact (hn.drop (by rw [ne_eq, List.drop_eq_nil_iff] at hne; omega)).1
  rw [hlow, hhigh]
  rw [hup, hdown] at hsign
  unfold AnyIntView.below_pow2 AnyIntView.top_below
  dsimp only
  generalize value Base (ds.take (m / word_shift)) = l at *
  generalize lead (ds.take (m / word_shift)) = e at *
  generalize ds.drop (m / word_shift) = top at *
  clear hsplit hup hdown hhigh hlow hs
  split
  · simp only [value_nil, true_iff] at *
    omega
  · next d =>
    simp only [value_singleton] at *
    generalize (2 : Int) ^ (m % word_shift) = p at *
    rcases hsign with ⟨rfl, hs⟩ | ⟨rfl, hs⟩ <;> split_ifs <;> simp <;> omega
  · next d d1 =>
    obtain ⟨⟨hd1, hd2⟩, hn1, hne⟩ := (normal_cons (by simp)).1 (htop (by simp))
    have h1 : d1 ≠ 0 := by simpa using hne
    simp only [value_cons, value_nil, mul_zero, add_zero] at *
    by_cases hrem : m % word_shift = word_shift - 1
    · rw [hrem, show (2 : Int) ^ (word_shift - 1) = Half from rfl]
      rcases hsign with ⟨rfl, hs⟩ | ⟨rfl, hs⟩ <;> simp only [Base, Half] at * <;> split_ifs <;> simp <;> omega
    · have hlt := two_pow_rem_lt hrem
      generalize (2 : Int) ^ (m % word_shift) = p at *
      simp only [ne_eq, hrem, not_false_eq_true, if_true, Base, Half, Bool.false_eq_true, false_iff] at *
      omega
  · next hd0 hd1 hd2 =>
    have hlong : 2 < top.length := by
      rcases top with _ | ⟨d, _ | ⟨d1, _ | ⟨d2, rest⟩⟩⟩
      · exact absurd rfl hd0
      · exact absurd rfl (hd1 d)
      · exact absurd rfl (hd2 d d1)
      · simp
    have := long_cases (htop (List.ne_nil_of_length_pos (by omega))) hlong
    simp only [Bool.false_eq_true, false_iff]
    omega

namespace AnyIntView

/-- The loop of `to_long_any`: whether `w` is what the words stand for. -/
def to_long_check : Int → List Int → Bool
  | _, [] => false
  | w, [d] => w = d
  | w, d :: ds =>
    let w := word (w - d)
    if w % Base ≠ 0 then false else to_long_check (w / Base) ds

/-- `to_long_any`: `-2 ^ 63` for a number that does not fit. -/
def to_long_any (x : AnyIntView) : Int :=
  match x.digits with
  | [] => -2 ^ 63
  | [d] => d
  | d :: d1 :: ds =>
    let v := word (d + word (d1 * Base))
    let w := word (v % Base - d) / Base
    let w := word (w + v / Base)
    if to_long_check w (d1 :: ds) then v else -2 ^ 63

end AnyIntView

namespace AnyIntView.Is

variable {x : AnyIntView} {v : Int}

theorem unsigned_fits_bits (hx : x.Is v) (n : Nat) : x.unsigned_fits_bits_any n = true ↔ UnsignedFits n v := by
  rw [unsigned_fits_bits_any, hx.is_valid, hx.sgn_eq]
  unfold UnsignedFits
  rcases lt_trichotomy v 0 with hv | rfl | hv
  · simp [sign_eq_neg_one_of_neg hv, hv]
  · simp
  · have h1 : (1 : Int) = (value Base x.digits).sign := by
      rw [show value Base x.digits = v from hx.toInt, sign_eq_one_of_pos hv]
    have hbelow := below_pow2_eq (m := n) hx.normal h1 one_ne_zero
    rw [show value Base x.digits = v from hx.toInt] at hbelow
    simp only [sign_eq_one_of_pos hv]
    by_cases hn : n ≥ x.size * word_shift
    · have hlt := (hx.normal.balanced.abs_value_lt base_eq half_pos).2
      rw [show value Base x.digits = v from hx.toInt, base_pow_eq] at hlt
      have hpow : (2 : Int) ^ (x.digits.length * word_shift) ≤ 2 ^ n := pow_le_pow_right₀ (by decide) hn
      simp only [hn, if_true]
      simp
      omega
    · have hpow : (0 : Int) < 2 ^ n := by positivity
      simp [hn, hbelow]
      omega

theorem signed_fits_bits (hx : x.Is v) (n : Nat) : x.signed_fits_bits_any n = true ↔ SignedFits n v := by
  have htoInt : value Base x.digits = v := hx.toInt
  rw [signed_fits_bits_any, hx.is_valid, hx.sgn_eq]
  by_cases hn : n > x.size * word_shift
  · obtain ⟨h1, h2⟩ := hx.normal.balanced.abs_value_lt base_eq half_pos
    obtain ⟨k, rfl⟩ : ∃ k, n = k + 1 := ⟨n - 1, by omega⟩
    rw [htoInt, base_pow_eq] at h1 h2
    have hpow : (2 : Int) ^ (x.digits.length * word_shift) ≤ 2 ^ k := pow_le_pow_right₀ (by decide) (by unfold size at hn; omega)
    rw [signedFits_succ]
    simp only [hn, if_true]
    simp
    omega
  · by_cases h0 : v = 0
    · subst h0
      simp [hn, signedFits_zero]
    · have hsign : v.sign ≠ 0 := by rwa [ne_eq, sign_eq_zero_iff_zero]
      cases n with
      | zero =>
        simp [SignedFits, hsign]
        omega
      | succ k =>
        have hbelow := below_pow2_eq (m := k) hx.normal (congrArg Int.sign htoInt.symm) hsign
        rw [htoInt] at hbelow
        rw [signedFits_succ, ← hbelow]
        simp [hn, hsign]

theorem fits257 (hx : x.Is v) : x.signed_fits_bits_any 257 = true ↔ Fits257 v := (hx.signed_fits_bits 257).trans signedFits_257

end AnyIntView.Is

theorem to_long_check_eq {w : Int} (hd : Balanced Half ds) (hne : ds ≠ []) (hw : -2 ^ 52 ≤ w ∧ w ≤ 2 ^ 52) :
    AnyIntView.to_long_check w ds = true ↔ w = value Base ds := by
  induction ds generalizing w with
  | nil => exact absurd rfl hne
  | cons d ds ih =>
    obtain ⟨hd1, hd2⟩ := balanced_cons.1 hd
    cases ds with
    | nil => simp [AnyIntView.to_long_check]
    | cons e es =>
      rw [AnyIntView.to_long_check]
      · simp only [Half] at hd1
        rw [word_eq (by omega) (by omega), value_cons]
        have hmod := emod_add_mul_ediv (w - d) Base
        by_cases h0 : (w - d) % Base = 0
        · rw [if_neg (not_not.2 h0), ih hd2 (by simp) (by simp only [Base]; omega)]
          rw [h0, zero_add] at hmod
          constructor
          · intro h
            rw [h] at hmod
            omega
          · intro h
            have : Base * ((w - d) / Base) = Base * value Base (e :: es) := by omega
            exact mul_left_cancel₀ base_pos.ne' this
        · rw [if_pos h0]
          simp only [Bool.false_eq_true, false_iff]
          intro h
          apply h0
          rw [h, show d + Base * value Base (e :: es) - d = Base * value Base (e :: es) by ring]
          exact mul_emod_right ..
      · simp

theorem AnyIntView.Is.to_long {x : AnyIntView} {v : Int} (hx : x.Is v) :
    x.to_long_any = if -2 ^ 63 ≤ v ∧ v < 2 ^ 63 then v else -2 ^ 63 := by
  have hbal := hx.normal.balanced
  rw [← hx.toInt]
  unfold AnyIntView.to_long_any AnyIntView.toInt
  match hd : x.digits with
  | [] => exact absurd hd hx.normal.ne_nil
  | [d] =>
    rw [hd] at hbal
    have := hbal d (by simp)
    simp only [Half] at this
    rw [value_singleton, if_pos (by omega)]
  | d :: d1 :: ds =>
    rw [hd] at hbal
    obtain ⟨hd1, hrest⟩ := balanced_cons.1 hbal
    obtain ⟨hd2, -⟩ := balanced_cons.1 hrest
    obtain ⟨u, hu⟩ : ∃ u, u = word (d + word (d1 * Base)) := ⟨_, rfl⟩
    -- the first two words give the number modulo `2 ^ 64`
    have hmod : ∃ k, u = d + Base * d1 + 2 ^ 64 * k := by
      refine ⟨-((d1 * Base + 2 ^ 63) / 2 ^ 64) - (d + word (d1 * Base) + 2 ^ 63) / 2 ^ 64, ?_⟩
      rw [hu]
      unfold word
      simp only [Base]
      omega
    have hrange : -2 ^ 63 ≤ u ∧ u < 2 ^ 63 := by
      rw [hu]
      unfold word
      omega
    simp only [Half] at hd1
    have hw : word (u % Base - d) / Base + u / Base = (u - d) / Base := by
      obtain ⟨k, hk⟩ := hmod
      simp only [Base] at *
      rw [word_eq (by omega) (by omega)]
      omega
    have hw' : word (word (u % Base - d) / Base + u / Base) = (u - d) / Base := by
      rw [hw]
      simp only [Base]
      exact word_eq (by omega) (by omega)
    have hcheck := to_long_check_eq (w := (u - d) / Base) hrest (by simp) (by simp only [Base]; omega)
    dsimp only
    rw [← hu, hw', value_cons]
    have hdiv : Base * ((u - d) / Base) = u - d := by
      obtain ⟨k, hk⟩ := hmod
      simp only [Base] at *
      omega
    have hiff : (u - d) / Base = value Base (d1 :: ds) ↔ -2 ^ 63 ≤ d + Base * value Base (d1 :: ds) ∧ d + Base * value Base (d1 :: ds) < 2 ^ 63 := by
      constructor
      · intro h
        rw [← h, hdiv]
        omega
      · rintro ⟨h1, h2⟩
        obtain ⟨k, hk⟩ := hmod
        rw [value_cons] at h1 h2 ⊢
        simp only [Base] at *
        omega
    by_cases h : (u - d) / Base = value Base (d1 :: ds)
    · rw [if_pos (hcheck.2 h), if_pos (hiff.1 h), ← h, hdiv]
      ring
    · rw [if_neg (fun hc => h (hcheck.1 hc)), if_neg fun hc => h (hiff.2 hc)]

theorem signed_fits_bits_invalid {x : AnyIntView} (hx : x.digits = []) (n : Nat) : x.signed_fits_bits_any n = false := by
  simp [AnyIntView.signed_fits_bits_any, AnyIntView.is_valid, AnyIntView.size, hx]

/-- The result of an operation whose exact value is `v`: the number, or one that the range test of
`push_int_quiet` turns down. -/
def Computes (x : AnyIntView) (v : Int) : Prop := (Fits257 v → x.Is v) ∧ (¬Fits257 v → x.signed_fits_bits_any 257 = false)

theorem computes_nan {x : AnyIntView} {v : Int} (hx : x.digits = []) (hv : ¬Fits257 v) : Computes x v :=
  ⟨fun h => absurd h hv, fun _ => signed_fits_bits_invalid hx 257⟩

theorem AnyIntView.Is.computes {x : AnyIntView} {v : Int} (hx : x.Is v) : Computes x v :=
  ⟨fun _ => hx, fun h => by rwa [← hx.fits257, Bool.not_eq_true] at h⟩

theorem AnyIntView.Holds.computes {x : AnyIntView} {v : Int} (hx : x.Holds v) (hmax : 5 ≤ x.max_size) : Computes x.normalize_bool_any v := by
  rcases hx.normalize_cases with ⟨-, h⟩ | ⟨h, hd⟩
  · exact h.computes
  · exact computes_nan hd fun hv => h (inRange_mono base_eq half_pos hmax hv.inRange)

end Ton.BigInt
