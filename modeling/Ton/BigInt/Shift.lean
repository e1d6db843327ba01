import Ton.BigInt.Ring
import Ton.Lib.Rounding
/-!
# Shifts

`rshift_any` carries what lies below the new first word up to it, rounds there,
and moves the other words by the bits within a word. It is exact for any digits
with room for the carries, but for the shortcut for a large exponent, which
trusts the sign of the last word.
-/

namespace Ton.BigInt
open SignedDigits List Int

namespace AnyIntView

/-- `v += digits[i]; v >>= word_shift` for some words. -/
def carry_down : Int → List Int → Int
  | v, [] => v
  | v, d :: ds => carry_down (word (v + d) / Base) ds

/-- The words above the first one, moved down by `r` bits; `v` is what the first one leaves. -/
def move_down (r : Nat) : Int → List Int → List Int
  | v, [] => [v]
  | v, w :: ws => word (v + w % 2 ^ r * 2 ^ (word_shift - r)) :: move_down r (w / 2 ^ r) ws

/-- `1` for rounding up. -/
def up (round_mode : Int) : Int := if round_mode > 0 then 1 else 0

/-- `rshift_any` from `word_t v` on, for `q` words and `r` bits. -/
def rshift_digits (q r : Nat) (round_mode : Int) (digits : List Int) : List Int :=
  let v := carry_down (if round_mode > 0 then -1 else 0) (digits.take q)
  match digits.drop q with
  | [] => [if round_mode = 0 then (v / 2 ^ (r - 1) + 1) / 2 else v / 2 ^ r + up round_mode]
  | d :: ds =>
    if r = 0 then word (d + (v + up round_mode)) :: ds
    else
      let v := word (v + d)
      move_down r (if round_mode = 0 then (v / 2 ^ (r - 1) + 1) / 2 else v / 2 ^ r + up round_mode) ds

def rshift_any (x : AnyIntView) (exponent : Nat) (round_mode : Int) : AnyIntView :=
  if exponent = 0 then x
  else if exponent > x.size * word_shift + word_bits - word_shift then
    if round_mode = 0 then x.assign 0
    else if round_mode < 0 then x.assign (if x.sgn < 0 then -1 else 0)
    else x.assign (if x.sgn > 0 then 1 else 0)
  else
    let q := exponent / word_shift
    let r := exponent % word_shift
    if round_mode = 0 ∧ r = 0 then
      { x with digits := rshift_digits q r (-1) (x.digits.modify (q - 1) fun d => word (d + Half)) }
    else { x with digits := rshift_digits q r round_mode x.digits }

/-- The loop of `lshift_any`: the words moved up by `r` bits, and what is left of the last one. -/
def move_up (r : Nat) : Int → List Int → List Int × Int
  | v, [] => ([], v)
  | v, w :: ws =>
    let (ds, last) := move_up r (w / 2 ^ (word_shift - r)) ws
    (word (v + w % 2 ^ (word_shift - r) * 2 ^ r) :: ds, last)

def lshift_any (x : AnyIntView) (exponent : Nat) : AnyIntView :=
  if exponent = 0 then x
  else
    let q := exponent / word_shift
    let r := exponent % word_shift
    if x.size + q > x.max_size then x.invalidate
    else if r = 0 then { x with digits := List.replicate q 0 ++ x.digits }
    else
      let (ds, v) := move_up r 0 x.digits
      if v = 0 then { x with digits := List.replicate q 0 ++ ds }
      else if x.size + q < x.max_size then { x with digits := List.replicate q 0 ++ (ds ++ [v]) }
      else if v ≠ -1 then x.invalidate
      else { x with digits := List.replicate q 0 ++ add_top (word (v * Base)) ds }

/-! ## Down -/

theorem ediv_two_pow_split (a : Int) (e : Nat) : a / 2 ^ e = a / Base ^ (e / word_shift) / 2 ^ (e % word_shift) := by
  rw [ediv_ediv_of_nonneg (pow_nonneg base_nonneg _), ← two_pow_split]

theorem ediv_bounds {w p M : Int} (hp : 0 < p) (hM : 0 ≤ M) (hw : -M ≤ w ∧ w ≤ M) : -M ≤ w / p ∧ w / p ≤ M := by
  constructor
  · apply (Int.le_ediv_iff_mul_le hp).2
    nlinarith
  · apply Int.ediv_le_of_le_mul hp
    nlinarith

theorem carry_down_eq {v M : Int} {ds : List Int} (hM : M ≤ 2 ^ 61) (hv : -2 ^ 60 ≤ v ∧ v ≤ 2 ^ 60) (hd : Bounded M ds) :
    carry_down v ds = (v + value Base ds) / Base ^ ds.length ∧ -2 ^ 60 ≤ carry_down v ds ∧ carry_down v ds ≤ 2 ^ 60 := by
  induction ds generalizing v with
  | nil => simpa [carry_down] using hv
  | cons d ds ih =>
    obtain ⟨hd1, hd2⟩ := bounded_cons.1 hd
    have hdiv : -2 ^ 60 ≤ (v + d) / Base ∧ (v + d) / Base ≤ 2 ^ 60 := by
      simp only [Base]
      omega
    obtain ⟨h1, h2⟩ := ih hdiv hd2
    rw [carry_down, word_eq (by omega) (by omega)]
    refine ⟨?_, h2⟩
    rw [h1, value_cons, length_cons, pow_succ', ← ediv_ediv_of_nonneg base_nonneg, ← add_assoc,
      add_mul_ediv_left _ _ base_pos.ne']

theorem move_down_spec {r : Nat} (hr : r < word_shift) {v : Int} {ws : List Int} (hv : -2 ^ 61 ≤ v ∧ v ≤ 2 ^ 61) (hw : Bounded (2 ^ 61) ws) :
    value Base (move_down r v ws) = v + 2 ^ (word_shift - r) * value Base ws ∧ Small (move_down r v ws) ∧
      (move_down r v ws).length = ws.length + 1 := by
  induction ws generalizing v with
  | nil => simpa [move_down] using (by omega : -2 ^ 62 ≤ v ∧ v ≤ 2 ^ 62)
  | cons w ws ih =>
    obtain ⟨hw1, hw2⟩ := bounded_cons.1 hw
    have hpow : (2 : Int) ^ r * 2 ^ (word_shift - r) = Base := by
      rw [← pow_add, Nat.add_sub_cancel' hr.le]
      rfl
    have hp : (0 : Int) < 2 ^ r := by positivity
    have hp' : (0 : Int) < 2 ^ (word_shift - r) := by positivity
    have h1 := emod_nonneg w hp.ne'
    have h2 := emod_lt_of_pos w hp
    have h3 := emod_add_mul_ediv w (2 ^ r)
    have h4 : 0 ≤ w % 2 ^ r * 2 ^ (word_shift - r) := mul_nonneg h1 hp'.le
    have h5 : w % 2 ^ r * 2 ^ (word_shift - r) < Base := by
      rw [← hpow]
      exact mul_lt_mul_of_pos_right h2 hp'
    have h6 := ediv_bounds hp (by decide) hw1
    obtain ⟨g1, g2, g3⟩ := ih h6 hw2
    have hB : Base = 2 ^ 52 := rfl
    rw [move_down, word_eq (by omega) (by omega)]
    refine ⟨?_, bounded_cons.2 ⟨by omega, g2⟩, by simp [g3]⟩
    rw [value_cons, g1, value_cons]
    linear_combination (2 : Int) ^ (word_shift - r) * h3 - (w / 2 ^ r) * hpow

/-- What the rounding computes from the words brought up to the first one. -/
theorem round_bits {mode a : Int} {k r : Nat} (hr : mode = 0 → 0 < r) :
    (if mode = 0 then (((if mode > 0 then -1 else 0) + a) / Base ^ k / 2 ^ (r - 1) + 1) / 2
      else ((if mode > 0 then -1 else 0) + a) / Base ^ k / 2 ^ r + up mode) = roundDiv mode a (Base ^ k * 2 ^ r) := by
  have hB := pow_pos base_pos k
  have hpos : 0 < Base ^ k * 2 ^ r := by positivity
  rcases lt_trichotomy mode 0 with hm | rfl | hm
  · rw [if_neg hm.ne, if_neg (by omega), roundDiv_neg hm hpos, up, if_neg (by omega), zero_add, add_zero,
      ediv_ediv_of_nonneg hB.le]
  · have hr' : (2 : Int) ^ r = 2 * 2 ^ (r - 1) := by
      rw [← pow_succ', Nat.sub_add_cancel (hr rfl)]
    have hpos' : 0 < Base ^ k * 2 ^ (r - 1) := by positivity
    rw [if_pos rfl, if_neg (lt_irrefl 0), zero_add, hr', show Base ^ k * (2 * 2 ^ (r - 1)) = 2 * (Base ^ k * 2 ^ (r - 1)) by ring,
      roundDiv_zero hpos', ediv_ediv_of_nonneg hB.le, ← add_mul_ediv_right a 1 hpos'.ne', one_mul,
      ediv_ediv_of_nonneg hpos'.le, mul_comm 2]
  · rw [if_neg hm.ne', if_pos hm, roundDiv_pos hm hpos, up, if_pos hm, ediv_ediv_of_nonneg hB.le, neg_add_eq_sub]

theorem rshift_digits_spec {q r : Nat} {mode : Int} {ds : List Int} (hr : r < word_shift) (hmode : mode = 0 → 0 < r)
    (hq : q ≤ ds.length) (hd : Bounded (2 ^ 61) ds) (hne : ds ≠ []) :
    value Base (rshift_digits q r mode ds) = roundDiv mode (value Base ds) (Base ^ q * 2 ^ r) ∧ Small (rshift_digits q r mode ds) ∧
      0 < (rshift_digits q r mode ds).length ∧ (rshift_digits q r mode ds).length ≤ ds.length := by
  have hsplit := value_take_drop Base q ds
  have hstart : -2 ^ 60 ≤ (if mode > 0 then -1 else 0 : Int) ∧ (if mode > 0 then -1 else 0 : Int) ≤ 2 ^ 60 := by split <;> omega
  obtain ⟨h1, h2⟩ := carry_down_eq (M := 2 ^ 61) le_rfl hstart (fun d hm => hd d (mem_of_mem_take hm) : Bounded (2 ^ 61) (ds.take q))
  rw [length_take, min_eq_left hq] at h1
  have hp : (0 : Int) < 2 ^ r := by positivity
  have hup : 0 ≤ up mode ∧ up mode ≤ 1 := by
    unfold up
    split <;> omega
  have hlen := length_pos_of_ne_nil hne
  unfold rshift_digits
  dsimp only
  cases hdrop : ds.drop q with
  | nil =>
    rw [hdrop, value_nil, mul_zero, add_zero] at hsplit
    dsimp only
    refine ⟨?_, ?_, Nat.one_pos, hlen⟩
    · rw [value_singleton, h1, round_bits hmode, hsplit]
    · refine bounded_cons.2 ⟨?_, bounded_nil _⟩
      have h3 := ediv_bounds hp (by decide) h2
      have h4 := ediv_bounds (show (0 : Int) < 2 ^ (r - 1) by positivity) (by decide) h2
      split <;> omega
  | cons u us =>
    have hmem : ∀ d ∈ u :: us, -2 ^ 61 ≤ d ∧ d ≤ 2 ^ 61 := fun d hm => hd d (mem_of_mem_drop (hdrop ▸ hm))
    obtain ⟨hu, hus⟩ := forall_mem_cons.1 hmem
    have hlen' : us.length + 1 + q = ds.length := by
      have := congrArg List.length hdrop
      rw [length_drop, length_cons] at this
      omega
    rw [hdrop, value_cons] at hsplit
    -- the number with the words up to the first one that stays, and the others
    have htotal : value Base ds = value Base (ds.take q) + Base ^ q * u + Base ^ q * Base * value Base us := by
      rw [hsplit]
      ring
    have hfirst : carry_down (if mode > 0 then -1 else 0) (ds.take q) + u =
        ((if mode > 0 then -1 else 0) + (value Base (ds.take q) + Base ^ q * u)) / Base ^ q := by
      rw [h1, ← add_assoc, add_mul_ediv_left _ _ (pow_pos base_pos q).ne']
    dsimp only
    by_cases hr0 : r = 0
    · subst hr0
      have hm : mode ≠ 0 := fun h => by have := hmode h; omega
      have hword : word (u + (carry_down (if mode > 0 then -1 else 0) (ds.take q) + up mode)) =
          ((if mode > 0 then -1 else 0) + (value Base (ds.take q) + Base ^ q * u)) / Base ^ q / 2 ^ 0 + up mode := by
        rw [word_eq (by omega) (by omega), ← hfirst, pow_zero, ediv_one]
        ring
      rw [if_pos rfl, hword]
      have hround := @round_bits mode (value Base (ds.take q) + Base ^ q * u) q 0 fun h => absurd h hm
      rw [if_neg hm] at hround
      rw [hround]
      refine ⟨?_, ?_, by simp, by simp; omega⟩
      · rw [value_cons, htotal, pow_zero, mul_one, mul_assoc,
          roundDiv_add_mul mode (value Base (ds.take q) + Base ^ q * u) (pow_pos base_pos q).ne']
      · refine bounded_cons.2 ⟨?_, fun d hm => ?_⟩
        · rw [← hround, ← hword, word_eq (by omega) (by omega)]
          omega
        · have := hus d hm
          omega
    · rw [if_neg hr0, word_eq (by omega) (by omega), hfirst]
      have hv : -2 ^ 61 ≤ roundDiv mode (value Base (ds.take q) + Base ^ q * u) (Base ^ q * 2 ^ r) ∧
          roundDiv mode (value Base (ds.take q) + Base ^ q * u) (Base ^ q * 2 ^ r) ≤ 2 ^ 61 := by
        have hw : -(3 * 2 ^ 60) ≤ carry_down (if mode > 0 then -1 else 0) (ds.take q) + u ∧
            carry_down (if mode > 0 then -1 else 0) (ds.take q) + u ≤ 3 * 2 ^ 60 := ⟨by omega, by omega⟩
        rw [← round_bits hmode, ← hfirst]
        generalize carry_down (if mode > 0 then -1 else 0) (ds.take q) + u = w at *
        have h3 := ediv_bounds (show (0 : Int) < 2 ^ (r - 1) by positivity) (by decide) hw
        have h4 := ediv_bounds (show (0 : Int) < 2 ^ (r - 1) by positivity) (by decide) (show -(3 * 2 ^ 59) ≤ w / 2 ∧ w / 2 ≤ 3 * 2 ^ 59 by omega)
        rw [ediv_ediv_of_nonneg zero_le_two, ← pow_succ', Nat.sub_add_cancel (Nat.pos_of_ne_zero hr0)] at h4
        split <;> omega
      rw [round_bits hmode]
      obtain ⟨g1, g2, g3⟩ := move_down_spec hr hv hus
      refine ⟨?_, g2, by omega, by omega⟩
      have hpow : (2 : Int) ^ r * 2 ^ (word_shift - r) = Base := by
        rw [← pow_add, Nat.add_sub_cancel' hr.le]
        rfl
      have hrest : Base ^ q * Base * value Base us = Base ^ q * 2 ^ r * (2 ^ (word_shift - r) * value Base us) := by
        linear_combination (-(Base ^ q * value Base us)) * hpow
      rw [g1, htotal, hrest, roundDiv_add_mul mode (value Base (ds.take q) + Base ^ q * u) (mul_pos (pow_pos base_pos q) hp).ne']

theorem forall_mem_modify {P : Int → Prop} {ds : List Int} {f : Int → Int} (hd : ∀ d ∈ ds, P d) (hf : ∀ d ∈ ds, P (f d)) (i : Nat) :
    ∀ d ∈ ds.modify i f, P d := by
  induction ds generalizing i with
  | nil => simp
  | cons d ds ih =>
    obtain ⟨hd1, hd2⟩ := forall_mem_cons.1 hd
    obtain ⟨hf1, hf2⟩ := forall_mem_cons.1 hf
    cases i with
    | zero => exact forall_mem_cons.2 ⟨hf1, hd2⟩
    | succ i => exact forall_mem_cons.2 ⟨hd1, ih hd2 hf2 i⟩

variable {x : AnyIntView} {v mode : Int} {e : Nat}

theorem Holds.rshift (hx : x.Holds v) (hM : Bounded (2 ^ 60) x.digits) (he : e ≤ x.size * word_shift + word_bits - word_shift) :
    (x.rshift_any e mode).Holds (roundDiv mode v (2 ^ e)) := by
  have hlen := length_pos_of_ne_nil hx.ne_nil
  have hr : e % word_shift < word_shift := Nat.mod_lt _ (by decide)
  have hq : e / word_shift ≤ x.digits.length := by
    have := Nat.div_add_mod e word_shift
    unfold size word_bits word_shift at *
    omega
  unfold rshift_any
  by_cases h0 : e = 0
  · rw [if_pos h0, h0, pow_zero, roundDiv_one]
    exact hx
  rw [if_neg h0, if_neg (by omega)]
  dsimp only
  rw [two_pow_split e]
  by_cases hhalf : mode = 0 ∧ e % word_shift = 0
  · obtain ⟨rfl, hr0⟩ := hhalf
    -- half of the divisor is added, which leaves rounding down
    have hq0 : 0 < e / word_shift := by
      have := Nat.div_add_mod e word_shift
      rw [hr0] at this
      apply Nat.pos_of_ne_zero
      intro hq0
      rw [hq0] at this
      omega
    have hf : ∀ d ∈ x.digits, word (d + Half) = d + Half := by
      intro d hd
      have := hM d hd
      simp only [Half]
      exact word_eq (by omega) (by omega)
    have hval := value_modify Base (i := e / word_shift - 1) (by omega) Half hf
    have hb : Bounded (2 ^ 61) (x.digits.modify (e / word_shift - 1) fun d => word (d + Half)) := by
      apply forall_mem_modify (hM.mono (by decide))
      intro d hd
      have := hM d hd
      rw [hf d hd]
      simp only [Half]
      omega
    have hmodify : 0 < (x.digits.modify (e / word_shift - 1) fun d => word (d + Half)).length := by simpa using hlen
    obtain ⟨h1, h2, h3, h4⟩ := @rshift_digits_spec _ _ (-1) _ hr (fun h => absurd h (by decide)) (by simpa using hq) hb
      (ne_nil_of_length_pos hmodify)
    rw [if_pos ⟨rfl, hr0⟩]
    refine holds_digits h3 (h4.trans ?_) h2 ?_
    · rw [length_modify]
      exact hx.room
    · have hpow : Base ^ (e / word_shift) = 2 * (Base ^ (e / word_shift - 1) * Half) := by
        obtain ⟨k, hk⟩ := Nat.exists_eq_succ_of_ne_zero hq0.ne'
        rw [hk, Nat.succ_sub_one, pow_succ]
        simp only [Base, Half]
        ring
      have hpos := mul_pos (pow_pos base_pos (e / word_shift - 1)) half_pos
      rw [h1, hval, hr0, pow_zero, mul_one, roundDiv_neg (by decide) (pow_pos base_pos _), hpow, roundDiv_zero hpos]
      exact congrArg (fun a => (a + Base ^ (e / word_shift - 1) * Half) / (2 * (Base ^ (e / word_shift - 1) * Half))) hx.toInt
  · obtain ⟨h1, h2, h3, h4⟩ := @rshift_digits_spec _ _ mode _ hr (fun hm => Nat.pos_of_ne_zero fun hr0 => hhalf ⟨hm, hr0⟩) hq
      (hM.mono (by decide)) hx.ne_nil
    rw [if_neg hhalf]
    refine holds_digits h3 (h4.trans hx.room) h2 (h1.trans ?_)
    exact congrArg (roundDiv mode · _) hx.toInt

/-- An exponent beyond the words there are: the sign of the last word decides. -/
theorem rshift_beyond (he : e > x.size * word_shift + word_bits - word_shift) :
    x.rshift_any e mode = x.assign (if mode = 0 then 0 else if mode < 0 then (if x.sgn < 0 then -1 else 0) else (if x.sgn > 0 then 1 else 0)) := by
  unfold rshift_any
  rw [if_neg (by omega), if_pos he]
  split_ifs <;> rfl

@[simp] theorem max_size_rshift_any (x : AnyIntView) (e : Nat) (mode : Int) : (x.rshift_any e mode).max_size = x.max_size := by
  unfold rshift_any
  dsimp only
  split_ifs <;> rfl

theorem two_base_pow_le (he : x.size * word_shift + word_bits - word_shift < e) : 2 * Base ^ x.size ≤ 2 ^ e := by
  rw [base_pow_eq, ← pow_succ']
  exact pow_le_pow_right₀ one_le_two (by unfold word_bits word_shift at *; omega)

theorem Is.rshift (hx : x.Is v) (e : Nat) (mode : Int) : (x.rshift_any e mode).Holds (roundDiv mode v (2 ^ e)) := by
  by_cases he : e ≤ x.size * word_shift + word_bits - word_shift
  · exact hx.holds.rshift ((balanced_bounded hx.normal.balanced).mono (by decide)) he
  · obtain ⟨h1, h2⟩ := hx.normal.balanced.abs_value_lt base_eq half_pos
    have hv : value Base x.digits = v := hx.toInt
    have hpow := two_base_pow_le (not_le.1 he)
    rw [hv] at h1 h2
    rw [rshift_beyond (by omega), roundDiv_small (by unfold size at hpow; omega) (by unfold size at hpow; omega), hx.sgn_eq]
    simp only [sign_neg_iff, sign_pos_iff]
    refine holds_digits Nat.one_pos (hx.size_pos.trans_le hx.room) (bounded_cons.2 ⟨?_, bounded_nil _⟩) (value_singleton ..)
    split_ifs <;> omega

/-! ## Up -/

theorem move_up_spec {r : Nat} (hr : r < word_shift) {c : Int} {ws : List Int} (hc : -2 ^ 50 ≤ c ∧ c ≤ 2 ^ 50)
    (hw : Balanced Half ws) :
    value Base (move_up r c ws).1 + Base ^ ws.length * (move_up r c ws).2 = c + 2 ^ r * value Base ws ∧
      (∀ d ∈ (move_up r c ws).1, -2 ^ 50 ≤ d ∧ d ≤ Base + 2 ^ 50) ∧ (move_up r c ws).1.length = ws.length ∧
      -2 ^ 50 ≤ (move_up r c ws).2 ∧ (move_up r c ws).2 ≤ 2 ^ 50 := by
  induction ws generalizing c with
  | nil => simpa [move_up] using hc
  | cons w ws ih =>
    obtain ⟨hw1, hw2⟩ := balanced_cons.1 hw
    have hpow : (2 : Int) ^ r * 2 ^ (word_shift - r) = Base := by
      rw [← pow_add, Nat.add_sub_cancel' hr.le]
      rfl
    have hp : (0 : Int) < 2 ^ r := by positivity
    have hp' : (0 : Int) < 2 ^ (word_shift - r) := by positivity
    have h1 := emod_nonneg w hp'.ne'
    have h2 := emod_lt_of_pos w hp'
    have h3 := emod_add_mul_ediv w (2 ^ (word_shift - r))
    have h4 : 0 ≤ w % 2 ^ (word_shift - r) * 2 ^ r := mul_nonneg h1 hp.le
    have h5 : w % 2 ^ (word_shift - r) * 2 ^ r < Base := by
      rw [← hpow, mul_comm ((2 : Int) ^ r)]
      exact mul_lt_mul_of_pos_right h2 hp
    have h6 : -2 ^ 50 ≤ w / 2 ^ (word_shift - r) ∧ w / 2 ^ (word_shift - r) ≤ 2 ^ 50 := by
      obtain ⟨k, hk⟩ := Nat.exists_eq_succ_of_ne_zero (show word_shift - r ≠ 0 by omega)
      have h7 := ediv_bounds (show (0 : Int) < 2 ^ k by positivity) (by decide)
        (show -2 ^ 50 ≤ w / 2 ∧ w / 2 ≤ 2 ^ 50 by simp only [Half] at hw1; omega)
      rw [ediv_ediv_of_nonneg zero_le_two, ← pow_succ'] at h7
      rw [hk]
      exact h7
    obtain ⟨g1, g2, g3⟩ := ih h6 hw2
    have hB : Base = 2 ^ 52 := rfl
    rw [move_up]
    dsimp only
    rw [word_eq (by omega) (by omega)]
    refine ⟨?_, forall_mem_cons.2 ⟨by omega, g2⟩, by simp [g3.1], g3.2⟩
    rw [value_cons, length_cons, pow_succ, value_cons]
    linear_combination Base * g1 + (2 : Int) ^ r * h3 - (w / 2 ^ (word_shift - r)) * hpow

/-- A word above the last one other than `0` and `-1` does not fit. -/
theorem not_inRange_word {ds : List Int} {c : Int} (hd : ∀ d ∈ ds, -2 ^ 50 ≤ d ∧ d ≤ Base + 2 ^ 50) (hc : c ≠ 0 ∧ c ≠ -1) :
    ¬InRange Base Half ds.length (value Base ds + Base ^ ds.length * c) := by
  have h1 := value_le base_nonneg (M := Base + 2 ^ 50) fun d hm => (hd d hm).2
  have h2 := le_value base_nonneg (M := -2 ^ 50) fun d hm => (hd d hm).1
  have h3 := ones_mul Base ds.length
  have h4 := ones_nonneg base_nonneg ds.length
  have hpos := pow_pos base_pos ds.length
  unfold InRange
  generalize ones Base ds.length = n at *
  generalize Base ^ ds.length = p at *
  simp only [Base, Half] at *
  rintro ⟨h5, h6⟩
  rcases lt_or_gt_of_ne hc.1 with hneg | hpos'
  · have h7 := mul_le_mul_of_nonneg_left (show c ≤ -2 by omega) hpos.le
    linarith
  · have h7 := mul_le_mul_of_nonneg_left (show 1 ≤ c from hpos') hpos.le
    linarith

@[simp] theorem max_size_lshift_any (x : AnyIntView) (e : Nat) : (x.lshift_any e).max_size = x.max_size := by
  unfold lshift_any
  dsimp only
  split_ifs <;> rfl

/-- The number has room, or it is too large for the words there are. -/
theorem Is.lshift_cases (hx : x.Is v) (he : e < x.max_size * word_shift) :
    (x.lshift_any e).Holds (v * 2 ^ e) ∨ (x.lshift_any e).digits = [] ∧ ¬InRange Base Half x.max_size (v * 2 ^ e) := by
  have hpos := hx.size_pos
  have hroom := hx.room
  have hv : value Base x.digits = v := hx.toInt
  have hsplit := two_pow_split e
  have hr : e % word_shift < word_shift := Nat.mod_lt _ (by decide)
  have hq : e / word_shift < x.max_size := Nat.div_lt_of_lt_mul (by rwa [mul_comm] at he)
  unfold lshift_any
  by_cases h0 : e = 0
  · rw [if_pos h0, h0, pow_zero, mul_one]
    exact .inl hx.holds
  rw [if_neg h0]
  dsimp only
  by_cases hsize : x.size + e / word_shift > x.max_size
  · rw [if_pos hsize]
    refine .inr ⟨rfl, fun hfit => ?_⟩
    have hv0 : v ≠ 0 := by
      rintro rfl
      have := hx.size_zero
      omega
    have hne : x.digits ≠ [0] := by
      intro h
      rw [h, value_singleton] at hv
      exact hv0 hv.symm
    -- the words with the zeros below them are the shortest form of a number that is no larger
    have hzeros := hx.normal.zeros_append half_pos hne (e / word_shift)
    have hlen := hzeros.length_le_of_inRange base_eq half_pos (n := x.max_size) (by omega) (by
      rw [value_zeros_append, hv, mul_comm]
      refine inRange_of_mul (c := 2 ^ (e % word_shift)) half_pos base_nonneg (one_le_pow₀ one_le_two) ?_
      rwa [mul_assoc, ← hsplit])
    rw [length_append, length_replicate] at hlen
    unfold size at hsize
    omega
  rw [if_neg hsize]
  by_cases hr0 : e % word_shift = 0
  · rw [if_pos hr0]
    refine .inl (holds_digits (by unfold size at hpos; simp; omega) (by unfold size at hsize; simp; omega) ?_ ?_)
    · exact bounded_append.2 ⟨bounded_zeros (by decide) _, hx.small⟩
    · rw [value_zeros_append, hv, hsplit, hr0, pow_zero, mul_one, mul_comm]
  rw [if_neg hr0]
  obtain ⟨h1, h2, h3, h4⟩ := move_up_spec (c := 0) hr (by decide) hx.normal.balanced
  rw [hv, zero_add] at h1
  generalize (move_up (e % word_shift) 0 x.digits).1 = ds at *
  generalize (move_up (e % word_shift) 0 x.digits).2 = c at *
  have hB : Base = 2 ^ 52 := rfl
  have hds : Small ds := fun d hm => by have := h2 d hm; omega
  have hlen : ds.length = x.size := h3
  have hvalue : Base ^ (e / word_shift) * (value Base ds + Base ^ x.digits.length * c) = v * 2 ^ e := by
    rw [h1, hsplit]
    ring
  by_cases hc : c = 0
  · rw [if_pos hc]
    refine .inl (holds_digits (by simp; omega) (by simp; omega) (bounded_append.2 ⟨bounded_zeros (by decide) _, hds⟩) ?_)
    rw [value_zeros_append, ← hvalue, hc]
    ring
  rw [if_neg hc]
  by_cases hlt : x.size + e / word_shift < x.max_size
  · rw [if_pos hlt]
    refine .inl (holds_digits (by simp) (by simp; omega) ?_ ?_)
    · refine bounded_append.2 ⟨bounded_zeros (by decide) _, bounded_append.2 ⟨hds, bounded_cons.2 ⟨by omega, bounded_nil _⟩⟩⟩
    · rw [value_zeros_append, value_append, value_singleton, h3, hvalue]
  rw [if_neg hlt]
  by_cases hneg : c ≠ -1
  · rw [if_pos hneg]
    refine .inr ⟨rfl, ?_⟩
    have hall : ∀ d ∈ List.replicate (e / word_shift) 0 ++ ds, -2 ^ 50 ≤ d ∧ d ≤ Base + 2 ^ 50 := by
      intro d hm
      rcases mem_append.1 hm with hm | hm
      · rw [eq_of_mem_replicate hm]
        decide
      · exact h2 d hm
    have hword := not_inRange_word hall ⟨hc, hneg⟩
    have hlen' : (List.replicate (e / word_shift) (0 : Int) ++ ds).length = x.max_size := by
      rw [length_append, length_replicate]
      omega
    rw [value_zeros_append, length_append, length_replicate, h3, pow_add, mul_assoc, ← mul_add, hvalue] at hword
    rw [length_append, length_replicate, h3] at hlen'
    rwa [hlen'] at hword
  · rw [if_neg hneg]
    rw [not_not.1 hneg] at hvalue ⊢
    obtain ⟨es, t, rfl⟩ : ∃ es t, ds = es ++ [t] := by
      have hne : ds ≠ [] := ne_nil_of_length_pos (by omega)
      exact ⟨_, _, (dropLast_append_getLast hne).symm⟩
    have ht := h2 t (by simp)
    rw [show word (-1 * Base) = -Base from rfl, add_top_append, word_eq (by omega) (by omega)]
    simp only [length_append, length_singleton] at hlen h3
    refine .inl (holds_digits (by simp) (by simp; omega) ?_ ?_)
    · refine bounded_append.2 ⟨bounded_zeros (by decide) _, bounded_append.2 ⟨(bounded_append.1 hds).1, ?_⟩⟩
      exact bounded_cons.2 ⟨by omega, bounded_nil _⟩
    · rw [value_zeros_append, ← hvalue, value_append, value_append, value_singleton, value_singleton, ← h3, pow_succ]
      ring

end AnyIntView

end Ton.BigInt
