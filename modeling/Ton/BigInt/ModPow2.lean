import Ton.BigInt.Ring
import Ton.Lib.Rounding
/-!
# Remainders modulo a power of two

`mod_pow2_any` drops the words above the exponent, keeps the low bits of the one
it lies in, and adds the power itself when what is left is negative. Below, each
case of it says what number the words stand for then, for digits that need not be
normalised: the callers also pass the words of a product and negated digits.
-/

namespace Ton.BigInt
open SignedDigits List Nat Int

namespace AnyIntView

/-- `mod_pow2_any` from `while (q < 0)` on: the digits below word `k`, that word, and its `q` bits. -/
def mod_pow2_word (x : AnyIntView) (exponent k q : Nat) : AnyIntView :=
  let low := x.digits.take k
  let pow := word (2 ^ q)
  let v := x.digits.getD k 0 % 2 ^ q
  if v = 0 then
    if lead low = 0 then x.assign 0
    else if lead low > 0 then { x with digits := trim low }
    else if exponent ≥ x.max_size * word_shift then x.invalidate
    else
      -- the word pushed for `q ≥ word_shift` is overwritten below
      let digits := if q ≥ word_shift then low ++ [0, 2 ^ (q - word_shift)] else low ++ [x.digits.getD k 0]
      if q = word_shift - 1 ∧ digits.length < x.max_size - 1 then { x with digits := digits.dropLast ++ [-Half, 1] }
      else { x with digits := digits.dropLast ++ [pow] }
  else if v ≥ Half then
    if k + 1 = x.max_size - 1 then x.invalidate
    else
      -- `v | -Half`
      { x with digits := low ++ [v % Half - Half, 2 ^ (q - word_shift)] }
  else { x with digits := low ++ [v] }

def mod_pow2_any (x : AnyIntView) (exponent : Nat) : AnyIntView :=
  if !x.is_valid then x
  else if exponent = 0 then x.assign 0
  else if exponent ≥ (x.size - 1) * word_shift + word_bits then
    if x.sgn ≥ 0 then x
    else if exponent ≥ x.max_size * word_shift then x.invalidate
    else
      -- zeros up to the word of the exponent
      let low := extend (exponent / word_shift) x.digits
      let q := exponent % word_shift
      if q = word_shift - 1 ∧ low.length + 1 < x.max_size then { x with digits := low ++ [-Half, 1] }
      else { x with digits := low ++ [2 ^ q] }
  else
    let k := min (x.size - 1) (exponent / word_shift)
    x.mod_pow2_word exponent k (exponent - k * word_shift)

/-- `factor << rem` for a 32-bit `factor`. -/
def shift_int (factor : Int) (rem : Nat) : Int := (factor * 2 ^ (rem % 32) + 2 ^ 31) % 2 ^ 32 - 2 ^ 31

def add_pow2_any (x : AnyIntView) (exponent : Nat) (factor : Int) : AnyIntView :=
  if exponent ≥ x.max_size * word_shift then x.invalidate
  else if !x.is_valid then x
  else
    let k := exponent / word_shift
    { x with digits := (extend (k + 1) x.digits).modify k fun d => word (d + shift_int factor (exponent % word_shift)) }

/-- `mod_pow2_any` with a rounding mode. -/
def mod_pow2_round (x : AnyIntView) (exponent : Nat) (round_mode : Int) : AnyIntView :=
  if round_mode < 0 then x.mod_pow2_any exponent
  else if !x.is_valid then x
  else if exponent = 0 then x.assign 0
  else if round_mode > 0 then (x.negate_any.mod_pow2_any exponent).negate_any
  else if x.signed_fits_bits_any exponent then x
  else
    let r := x.mod_pow2_any exponent
    if !r.is_valid then r
    else if !r.unsigned_fits_bits_any (exponent - 1) then r.add_pow2_any exponent (-1)
    else r

/-! ## What the words stand for -/

/-- The bits kept of the word in which the exponent lies; `2 ^ rem` when they are zero and the words below are
negative. -/
def kept_bits (e : Nat) (ds : List Int) : Int :=
  let v := ds.getD (e / word_shift) 0 % 2 ^ (e % word_shift)
  if v = 0 ∧ lead (ds.take (e / word_shift)) < 0 then 2 ^ (e % word_shift) else v

/-- The number that an exponent within the words leaves. -/
def kept (e : Nat) (ds : List Int) : Int :=
  value Base (ds.take (e / word_shift)) + Base ^ (e / word_shift) * kept_bits e ds

/-- The words that are left. The power `2 ^ 51` takes a word of its own while there is one. -/
def kept_digits (max_size e : Nat) (ds : List Int) : List Int :=
  let low := ds.take (e / word_shift)
  let bits := kept_bits e ds
  if bits = 0 then (if lead low = 0 then [0] else trim low)
  else if bits = Half ∧ e / word_shift + 2 < max_size then low ++ [-Half, 1]
  else low ++ [bits]

theorem kept_bits_bounds (e : Nat) (ds : List Int) : 0 ≤ kept_bits e ds ∧ kept_bits e ds ≤ 2 ^ (e % word_shift) := by
  have hp : (0 : Int) < 2 ^ (e % word_shift) := by positivity
  have h1 := emod_nonneg (ds.getD (e / word_shift) 0) hp.ne'
  have h2 := emod_lt_of_pos (ds.getD (e / word_shift) 0) hp
  unfold kept_bits
  dsimp only
  split <;> omega

theorem kept_dvd (e : Nat) (ds : List Int) : (2 : Int) ^ e ∣ value Base ds - kept e ds := by
  have hr : e % word_shift < word_shift := mod_lt _ (by decide)
  have hpow : Base = 2 ^ (e % word_shift) * 2 ^ (word_shift - e % word_shift) := by
    rw [← pow_add, Nat.add_sub_cancel' hr.le]
    rfl
  have hsplit := value_take_getD Base ds (e / word_shift)
  have hmod := emod_add_mul_ediv (ds.getD (e / word_shift) 0) (2 ^ (e % word_shift))
  have hbits : ∃ c, kept_bits e ds = ds.getD (e / word_shift) 0 + 2 ^ (e % word_shift) * c := by
    unfold kept_bits
    dsimp only
    split
    · next h =>
      rw [h.1] at hmod
      exact ⟨1 - ds.getD (e / word_shift) 0 / 2 ^ (e % word_shift), by linear_combination hmod⟩
    · exact ⟨-(ds.getD (e / word_shift) 0 / 2 ^ (e % word_shift)), by linear_combination hmod⟩
  obtain ⟨c, hc⟩ := hbits
  refine ⟨2 ^ (word_shift - e % word_shift) * value Base (ds.drop (e / word_shift + 1)) - c, ?_⟩
  rw [two_pow_split e]
  have hrest : Base * value Base (ds.drop (e / word_shift + 1)) =
      2 ^ (e % word_shift) * 2 ^ (word_shift - e % word_shift) * value Base (ds.drop (e / word_shift + 1)) :=
    congrArg (· * _) hpow
  unfold kept
  rw [hsplit, hc]
  linear_combination Base ^ (e / word_shift) * hrest

section
variable {x : AnyIntView} {v : Int} {e : Nat}

theorem mod_pow2_any_low (hroom : x.size ≤ x.max_size) (he0 : 0 < e) (he : e < x.size * word_shift) :
    x.mod_pow2_any e = { x with digits := kept_digits x.max_size e x.digits } := by
  have hk : e / word_shift < x.size := Nat.div_lt_of_lt_mul (by rwa [mul_comm] at he)
  have hr : e % word_shift < word_shift := mod_lt _ (by decide)
  have hvalid : x.is_valid = true := by
    rw [AnyIntView.is_valid, decide_eq_true_iff]
    exact (Nat.zero_le _).trans_lt hk
  have hmin : min (x.size - 1) (e / word_shift) = e / word_shift := min_eq_right (by omega)
  have hq : e - e / word_shift * word_shift = e % word_shift := by
    have := div_add_mod e word_shift
    rw [mul_comm]
    omega
  have hword : x.mod_pow2_any e = x.mod_pow2_word e (e / word_shift) (e % word_shift) := by
    unfold mod_pow2_any
    rw [hvalid, if_neg (by simp), if_neg he0.ne', if_neg (by unfold word_bits word_shift at *; omega)]
    dsimp only
    rw [hmin, hq]
  have hlowlen : (x.digits.take (e / word_shift)).length = e / word_shift := by
    rw [length_take]
    exact min_eq_left hk.le
  have hfull : ¬e ≥ x.max_size * word_shift := not_le.2 (he.trans_le (Nat.mul_le_mul_right _ hroom))
  have hq52 : ¬e % word_shift ≥ word_shift := not_le.2 hr
  have hlast : e % word_shift = word_shift - 1 ↔ (2 : Int) ^ (e % word_shift) = Half := by
    constructor
    · intro h
      rw [h]
      rfl
    · intro h
      by_contra hne
      exact (two_pow_rem_lt hne).ne h
  have hroom' : (x.digits.take (e / word_shift) ++ [x.digits.getD (e / word_shift) 0]).length < x.max_size - 1 ↔
      e / word_shift + 2 < x.max_size := by
    rw [length_append, hlowlen, length_singleton]
    omega
  have hle := two_pow_rem_le e
  have hw : word (2 ^ (e % word_shift)) = 2 ^ (e % word_shift) := by
    have hp : (0 : Int) < 2 ^ (e % word_shift) := by positivity
    simp only [Half] at hle
    exact word_eq (by omega) (by omega)
  have hlt := emod_lt_of_pos (x.digits.getD (e / word_shift) 0) (show (0 : Int) < 2 ^ (e % word_shift) by positivity)
  have hp0 : (2 : Int) ^ (e % word_shift) ≠ 0 := by positivity
  rw [hword]
  unfold mod_pow2_word kept_digits kept_bits
  dsimp only
  simp only [hfull, hq52, hroom', hlast, hw, if_false, dropLast_concat]
  generalize x.digits.getD (e / word_shift) 0 % 2 ^ (e % word_shift) = u at *
  by_cases hv : u = 0
  · rcases lt_trichotomy (lead (x.digits.take (e / word_shift))) 0 with hl | hl | hl
    · simp only [hv, hl, hl.ne, not_lt.2 hl.le, hp0, if_true, if_false, and_self]
      split_ifs <;> rfl
    · simp [hv, hl, assign]
    · simp [hv, hl, hl.ne', not_lt.2 hl.le]
  · have hne : ¬(u = Half ∧ e / word_shift + 2 < x.max_size) := fun h => absurd h.1 (hlt.trans_le hle).ne
    simp only [hv, false_and, if_false, not_le.2 (hlt.trans_le hle), hne]

theorem Holds.mod_pow2_low (hx : x.Holds v) (hM : Bounded (2 ^ 60) x.digits) (he0 : 0 < e) (he : e < x.size * word_shift) :
    (x.mod_pow2_any e).HoldsSmall (kept e x.digits) := by
  have hk : e / word_shift < x.size := Nat.div_lt_of_lt_mul (by rwa [mul_comm] at he)
  have hroom := hx.room
  have hlowlen : (x.digits.take (e / word_shift)).length = e / word_shift := by
    rw [length_take]
    exact min_eq_left hk.le
  have hlow : Small (x.digits.take (e / word_shift)) := fun d hm => (hM.mono (by decide)) d (mem_of_mem_take hm)
  obtain ⟨hb0, hb1⟩ := kept_bits_bounds e x.digits
  have hle := hb1.trans (two_pow_rem_le e)
  rw [mod_pow2_any_low hroom he0 he]
  have hneg : kept_bits e x.digits = 0 → 0 ≤ lead (x.digits.take (e / word_shift)) := by
    intro h0
    by_contra hl
    have hp : (2 : Int) ^ (e % word_shift) ≠ 0 := by positivity
    unfold kept_bits at h0
    dsimp only at h0
    split at h0
    · exact hp h0
    · next hc => exact hc ⟨h0, not_le.1 hl⟩
  unfold kept_digits kept
  dsimp only
  generalize kept_bits e x.digits = u at *
  generalize x.digits.take (e / word_shift) = low at *
  by_cases hu : u = 0
  · rw [if_pos hu, hu, mul_zero, add_zero]
    by_cases hl : lead low = 0
    · rw [if_pos hl, value_of_lead_eq_zero Base hl]
      exact holdsSmall_digits Nat.one_pos (by simp; omega) (by simp) (by simp)
    · rw [if_neg hl]
      have htrim : trim low ≠ [] := fun h => hl ((lead_eq_zero_iff low).2 h)
      refine holdsSmall_digits (length_pos_of_ne_nil htrim) ?_ (fun c hc => hlow c (mem_of_mem_trim hc)) (value_trim Base low)
      exact (length_trim_le low).trans (hlowlen.trans_le (by omega))
  · rw [if_neg hu]
    by_cases hhalf : u = Half ∧ e / word_shift + 2 < x.max_size
    · rw [if_pos hhalf]
      refine holdsSmall_digits (by simp) (by simp; omega) (bounded_append.2 ⟨hlow, by simp [Half]⟩) ?_
      rw [value_append, hlowlen, value_cons, value_singleton, hhalf.1]
      rfl
    · rw [if_neg hhalf]
      refine holdsSmall_digits (by simp) (by simp; omega) (bounded_append.2 ⟨hlow, bounded_cons.2 ⟨?_, bounded_nil _⟩⟩) ?_
      · simp only [Half] at hle
        omega
      · rw [value_append, value_singleton, hlowlen]

end

/-! ## The range test that rounding makes -/

/-- What `unsigned_fits_bits` finds one bit below the exponent: on normalised digits, whether less than half of the
power is left. -/
def below_half (e : Nat) (ds : List Int) : Prop :=
  if e % word_shift = 0 then
    let d := ds.getD (e / word_shift - 1) 0
    let bound := if lead (ds.take (e / word_shift)) < 0 then -Half else Half
    d < bound ∨ d = bound ∧ lead (ds.take (e / word_shift - 1)) < 0
  else kept_bits e ds < 2 ^ (e % word_shift - 1) ∨
    kept_bits e ds = 2 ^ (e % word_shift - 1) ∧ lead (ds.take (e / word_shift)) < 0

instance (e : Nat) (ds : List Int) : Decidable (below_half e ds) := by
  unfold below_half
  infer_instance

theorem below_pow2_append {low tail : List Int} {rem : Nat} (hrem : rem < word_shift) (s : Int) :
    below_pow2 s (low.length * word_shift + rem) (low ++ tail) =
      top_below s rem (if lead low < 0 then 0 < s else s < 0) tail := by
  have hdiv : (low.length * word_shift + rem) / word_shift = low.length := by
    rw [Nat.mul_comm, mul_add_div (by decide), div_eq_of_lt hrem, add_zero]
  have hmod : (low.length * word_shift + rem) % word_shift = rem := by
    rw [Nat.mul_comm, mul_add_mod, mod_eq_of_lt hrem]
  unfold below_pow2
  dsimp only
  rw [hdiv, hmod, take_left, drop_left]

variable {ds : List Int}

theorem unsigned_fits_bits_pos {n m : Nat} (htop : 0 < ds.getLastD 0) :
    unsigned_fits_bits_any ⟨n, ds⟩ m = if m ≥ ds.length * word_shift then true else below_pow2 1 m ds := by
  have hne : ds ≠ [] := by
    rintro rfl
    exact absurd htop (lt_irrefl 0)
  have hsgn : (AnyIntView.mk n ds).sgn = 1 := by
    rw [sgn, if_pos (is_valid_iff.2 hne), top_word, sign_eq_one_of_pos htop]
  unfold unsigned_fits_bits_any
  rw [is_valid_iff.2 hne, hsgn]
  rfl

theorem kept_bits_ne_zero {e : Nat} (h : lead (ds.take (e / word_shift)) < 0) : kept_bits e ds ≠ 0 := by
  have hp : (2 : Int) ^ (e % word_shift) ≠ 0 := by positivity
  unfold kept_bits
  dsimp only
  split
  · exact hp
  · next hc => exact fun h0 => hc ⟨h0, h⟩

theorem unsigned_fits_kept {n e : Nat} (he0 : 0 < e) (he : e < ds.length * word_shift) :
    unsigned_fits_bits_any ⟨n, kept_digits n e ds⟩ (e - 1) = true ↔ below_half e ds := by
  have hk : e / word_shift < ds.length := Nat.div_lt_of_lt_mul (by rwa [mul_comm] at he)
  have hr : e % word_shift < word_shift := mod_lt _ (by decide)
  have hdm := div_add_mod e word_shift
  have hlowlen : (ds.take (e / word_shift)).length = e / word_shift := by
    rw [length_take]
    exact min_eq_left hk.le
  obtain ⟨hb0, hb1⟩ := kept_bits_bounds e ds
  have hlead : lead (ds.take (e / word_shift)) < 0 → kept_bits e ds ≠ 0 := kept_bits_ne_zero
  unfold kept_digits below_half
  dsimp only
  by_cases hr0 : e % word_shift = 0
  · -- the word below the exponent is the highest one
    obtain ⟨j, hj⟩ := exists_eq_succ_of_ne_zero (show e / word_shift ≠ 0 by intro h; rw [h, hr0] at hdm; omega)
    rw [succ_eq_add_one] at hj
    have htake : ds.take (j + 1) = ds.take j ++ [ds.getD j 0] := by
      rw [take_add_one, getD_eq_getElem?_getD, getElem?_eq_getElem (by omega)]
      rfl
    have hlowlen' : (ds.take j).length = j := by
      rw [length_take]
      exact min_eq_left (by omega)
    have hm : e - 1 = (ds.take j).length * word_shift + (word_shift - 1) := by
      rw [hlowlen']
      rw [hj, hr0] at hdm
      unfold word_shift at *
      omega
    have hbit : kept_bits e ds = 0 ∨ kept_bits e ds = 1 := by
      rw [hr0, pow_zero] at hb1
      omega
    have hbit1 : kept_bits e ds = 1 ↔ lead (ds.take (e / word_shift)) < 0 := by
      unfold kept_bits
      simp [hr0]
    rw [if_pos hr0, hj, Nat.add_sub_cancel] at *
    rw [htake] at hbit1 ⊢
    generalize ds.take j = low at *
    generalize ds.getD j 0 = t at *
    rw [hm]
    rcases hbit with hu | hu
    · have hpos : 0 ≤ lead (low ++ [t]) := not_lt.1 fun h => by
        rw [hbit1.2 h] at hu
        cases hu
      rw [if_pos hu, if_neg (not_lt.2 hpos)]
      rw [lead_append_singleton, trim_append_singleton] at *
      by_cases ht : t = 0
      · have hrhs : t < Half ∨ t = Half ∧ lead low < 0 := .inl (by rw [ht]; decide)
        simp only [ht, ne_eq, not_true_eq_false, if_false] at hpos ⊢
        refine iff_of_true ?_ (by rwa [ht] at hrhs)
        by_cases h0 : lead low = 0
        · rw [if_pos h0]
          rfl
        · rw [if_neg h0, unsigned_fits_bits_pos (by rw [getLastD_trim]; omega), if_pos]
          have := Nat.mul_le_mul_right word_shift (length_trim_le low)
          omega
      · simp only [ht, ne_eq, not_false_eq_true, if_true] at hpos ⊢
        rw [if_neg not_false, unsigned_fits_bits_pos (by simp; omega), if_neg (by simp [word_shift]; omega), below_pow2_append (by decide), top_below]
        rw [show (2 : Int) ^ (word_shift - 1) = Half from rfl]
        simp only [gt_iff_lt, zero_lt_one, if_true]
        split_ifs <;> simp <;> omega
    · have hneg := hbit1.1 hu
      rw [hu, if_neg one_ne_zero, if_neg (fun h : (1 : Int) = Half ∧ _ => absurd h.1 (by decide)), if_pos hneg,
        show low ++ [t] ++ [1] = low ++ [t, 1] by simp, unsigned_fits_bits_pos (by simp), if_neg (by simp [word_shift]; omega),
        below_pow2_append (by decide), top_below]
      dsimp only
      simp only [ne_eq, not_true_eq_false, if_false, gt_iff_lt, zero_lt_one, if_true]
      split_ifs <;> simp <;> omega
  · have hm : e - 1 = (ds.take (e / word_shift)).length * word_shift + (e % word_shift - 1) := by
      rw [hlowlen, mul_comm]
      omega
    have hp : (0 : Int) < 2 ^ (e % word_shift - 1) := by positivity
    have hple : (2 : Int) ^ (e % word_shift - 1) < Half := pow_lt_pow_right₀ one_lt_two (by unfold word_shift at hr hr0 ⊢; omega)
    rw [if_neg hr0, hm]
    generalize ds.take (e / word_shift) = low at *
    generalize kept_bits e ds = u at *
    by_cases hu : u = 0
    · rw [if_pos hu, hu]
      refine iff_of_true ?_ (.inl hp)
      by_cases h0 : lead low = 0
      · rw [if_pos h0]
        rfl
      · have hpos : 0 < lead low := lt_of_le_of_ne (not_lt.1 fun h => hlead h hu) (Ne.symm h0)
        rw [if_neg h0, unsigned_fits_bits_pos (by rwa [getLastD_trim]), if_pos]
        have := Nat.mul_le_mul_right word_shift (length_trim_le low)
        omega
    · rw [if_neg hu]
      by_cases hhalf : u = Half ∧ e / word_shift + 2 < n
      · rw [if_pos hhalf, unsigned_fits_bits_pos (by simp), if_neg (by simp [word_shift] at *; omega), below_pow2_append (by omega), top_below]
        refine iff_of_false ?_ (by rw [hhalf.1]; omega)
        dsimp only
        rw [if_pos (by unfold word_shift at *; omega)]
        exact Bool.false_ne_true
      · rw [if_neg hhalf, unsigned_fits_bits_pos (by simp; omega), if_neg (by simp [word_shift] at *; omega), below_pow2_append (by omega), top_below]
        simp only [gt_iff_lt, zero_lt_one, if_true]
        split_ifs <;> simp <;> omega

/-! ## Beyond the words -/

/-- What the words stand for afterwards, when there is room for them. Above the words a multiple of the power is
added that need not be the right one: the last word alone decides. -/
def residue (x : AnyIntView) (e : Nat) : Option Int :=
  if e < x.size * word_shift then some (kept e x.digits)
  else if e < (x.size - 1) * word_shift + word_bits then
    if x.top_word = 0 then
      if 0 ≤ lead x.digits.dropLast then some x.toInt else some (x.toInt + Base * 2 ^ e)
    else if 0 < x.top_word ∧ x.top_word < Half then some x.toInt
    else if x.size + 1 = x.max_size then none
    else some (x.toInt + 2 ^ e - if x.top_word < 0 then 0 else Base ^ x.size)
  else if 0 ≤ x.top_word then some x.toInt
  else some (x.toInt + 2 ^ e)

/-- A power with the highest bit of the word above the digits, which the word takes for its sign. -/
def SignBit (x : AnyIntView) (e : Nat) : Prop :=
  x.top_word = 0 ∧ lead x.digits.dropLast < 0 ∧ e = (x.size - 1) * word_shift + 63

section
variable {x : AnyIntView} {v : Int} {e : Nat}

/-- The last word and the bits of it from the start of that word on. -/
theorem mod_pow2_any_last {es : List Int} (hd : x.digits = es ++ [x.top_word]) (he1 : x.size * word_shift ≤ e)
    (he2 : e < (x.size - 1) * word_shift + word_bits) :
    ∃ q, e = es.length * word_shift + (q + word_shift) ∧ q ≤ 11 ∧ x.digits.take es.length = es ∧ x.digits.getD es.length 0 = x.top_word ∧
      (2 : Int) ^ (q + word_shift) = Base * 2 ^ q ∧ x.mod_pow2_any e = x.mod_pow2_word e es.length (q + word_shift) := by
  have hsize : x.size = es.length + 1 := by simp [size, hd]
  have hvalid : x.is_valid = true := by
    rw [AnyIntView.is_valid, decide_eq_true_iff]
    omega
  have hmin : min (x.size - 1) (e / word_shift) = es.length := by
    have := (Nat.le_div_iff_mul_le (by decide)).2 he1
    omega
  have hq : e = es.length * word_shift + (e - x.size * word_shift + word_shift) := by
    unfold word_shift at *
    omega
  refine ⟨e - x.size * word_shift, hq, ?_, by rw [hd, take_left], ?_, ?_, ?_⟩
  · unfold word_shift word_bits at *
    omega
  · conv_lhs => rw [hd]
    simp
  · rw [pow_add, mul_comm]
    rfl
  · unfold mod_pow2_any
    rw [hvalid, if_neg (by simp), if_neg (by unfold word_shift at *; omega), if_neg (not_le.2 he2)]
    dsimp only
    rw [hmin, show e - es.length * word_shift = e - x.size * word_shift + word_shift by omega]

theorem mod_pow2_any_neg (hne : x.digits ≠ []) (ht : -Half ≤ x.top_word ∧ x.top_word < 0) (he1 : x.size * word_shift ≤ e)
    (he2 : e < (x.size - 1) * word_shift + word_bits) :
    x.mod_pow2_any e = if x.size + 1 = x.max_size then x.invalidate else
      { x with digits := x.digits ++ [2 ^ (e - x.size * word_shift)] } := by
  obtain ⟨es, hd, hsize⟩ := top_word_eq hne
  obtain ⟨q, rfl, -, htake, hget, hpow1, hword⟩ := mod_pow2_any_last hd he1 he2
  have hsub : es.length * word_shift + (q + word_shift) - x.size * word_shift = q := by
    rw [hsize]
    unfold word_shift
    omega
  have hmax1 : es.length + 1 = x.max_size - 1 ↔ x.size + 1 = x.max_size := by omega
  have hp1 : (1 : Int) ≤ 2 ^ q := one_le_pow₀ one_le_two
  rw [hword, hsub]
  unfold mod_pow2_word
  rw [htake, hget, hpow1]
  dsimp only
  rw [Nat.add_sub_cancel]
  generalize (2 : Int) ^ q = p at *
  generalize x.top_word = t at *
  have hmod : t % (Base * p) = t + Base * p := by
    rw [← add_emod_right]
    exact emod_eq_of_lt (by simp only [Base, Half] at *; omega) (by omega)
  have hlow : (t + Base * p) % Half - Half = t := by
    simp only [Base, Half] at *
    omega
  have hlarge : t + Base * p ≥ Half := by
    simp only [Base, Half] at *
    omega
  rw [hmod, if_neg (half_pos.trans_le hlarge).ne', if_pos hlarge, hlow, hd]
  simp only [hmax1, append_assoc, cons_append, nil_append]

section
variable (hx : x.Holds v) (hM : Bounded (2 ^ 60) x.digits)
include hx hM

theorem Holds.mod_pow2_within (ht : -Half ≤ x.top_word ∧ x.top_word ≤ Half)
    (he1 : x.size * word_shift ≤ e) (he2 : e < (x.size - 1) * word_shift + word_bits) (hmax : e < x.max_size * word_shift)
    (hbit : ¬x.SignBit e) :
    match x.residue e with
    | some w => (x.mod_pow2_any e).HoldsSmall w
    | none => (x.mod_pow2_any e).digits = [] := by
  have hroom := hx.room
  have hlen := length_pos_of_ne_nil hx.ne_nil
  by_cases hneg : x.top_word < 0
  · -- the power is added above the words
    have hsize := Nat.add_sub_cancel' he1
    have hpow : (2 : Int) ^ e = Base ^ x.digits.length * 2 ^ (e - x.size * word_shift) := by
      rw [base_pow_eq, ← pow_add]
      exact congrArg (2 ^ ·) hsize.symm
    rw [mod_pow2_any_neg hx.ne_nil ⟨ht.1, hneg⟩ he1 he2, residue, if_neg (not_lt.2 he1), if_pos he2, if_neg hneg.ne,
      if_neg (fun h => absurd h.1 (not_lt.2 hneg.le)), if_pos hneg, sub_zero]
    by_cases hfull : x.size + 1 = x.max_size
    · rw [if_pos hfull, if_pos hfull]
      rfl
    · have hp1 : (1 : Int) ≤ 2 ^ (e - x.size * word_shift) := one_le_pow₀ one_le_two
      have hp2 : (2 : Int) ^ (e - x.size * word_shift) ≤ 2 ^ 11 :=
        pow_le_pow_right₀ one_le_two (by unfold size word_shift word_bits at *; omega)
      rw [if_neg hfull, if_neg hfull]
      refine holdsSmall_digits (by simp) ?_ (bounded_append.2 ⟨hM.mono (by decide), bounded_cons.2 ⟨by omega, bounded_nil _⟩⟩) ?_
      · rw [length_append, length_singleton]
        unfold size word_shift at *
        omega
      · rw [value_append, value_singleton, hpow, AnyIntView.toInt]
  obtain ⟨es, hd, hsize⟩ := top_word_eq hx.ne_nil
  obtain ⟨q, rfl, hq2, htake, hget, hpow1, hword⟩ := mod_pow2_any_last hd he1 he2
  have hroom1 : x.size + 1 ≤ x.max_size := by
    unfold word_shift at *
    omega
  have hpow : (2 : Int) ^ (es.length * word_shift + (q + word_shift)) = Base ^ es.length * (Base * 2 ^ q) := by
    rw [pow_add, ← base_pow_eq, hpow1]
  have hval : value Base es + Base ^ es.length * x.top_word = x.toInt := by
    rw [AnyIntView.toInt, hd, value_append, value_singleton]
  have hdrop : x.digits.dropLast = es := by rw [hd, dropLast_concat]
  have hes : Small es := by
    rw [hd] at hM
    exact (bounded_append.1 hM).1.mono (by decide)
  rw [hword]
  unfold residue mod_pow2_word
  rw [if_neg (not_lt.2 he1), if_pos he2]
  rw [htake, hget, hdrop, hpow1, hpow]
  dsimp only
  have hq52 : q + word_shift ≥ word_shift := Nat.le_add_left ..
  have hqlast : ¬(q + word_shift = word_shift - 1) := by unfold word_shift; omega
  have hfull : ¬es.length * word_shift + (q + word_shift) ≥ x.max_size * word_shift := not_le.2 hmax
  have h63 : es.length * word_shift + (q + word_shift) = (x.size - 1) * word_shift + 63 ↔ q = 11 := by
    rw [hsize, Nat.add_sub_cancel]
    unfold word_shift
    omega
  have hbit' : x.top_word = 0 → lead es < 0 → q ≠ 11 := fun h0 hl h => hbit ⟨h0, by rwa [hdrop], h63.2 h⟩
  have hmax1 : es.length + 1 = x.max_size - 1 ↔ x.size + 1 = x.max_size := by omega
  rw [if_neg hfull, if_pos hq52, Nat.add_sub_cancel]
  simp only [hmax1]
  have hp1 : (1 : Int) ≤ 2 ^ q := one_le_pow₀ one_le_two
  have hp2 : (2 : Int) ^ q ≤ 2 ^ 11 := pow_le_pow_right₀ one_le_two hq2
  have hp3 : q ≠ 11 → (2 : Int) ^ q ≤ 2 ^ 10 := fun h => pow_le_pow_right₀ one_le_two (by omega)
  clear hpow hpow1 he1 he2 hmax hfull hq52 h63 hmax1 hget htake hdrop hbit
  generalize (2 : Int) ^ q = p at *
  generalize x.top_word = t at *
  rcases (not_lt.1 hneg).eq_or_lt with htop | hpos
  · subst htop
    rw [mul_zero, add_zero] at hval
    rw [zero_emod, if_pos rfl, if_pos rfl]
    rcases lt_trichotomy (lead es) 0 with hl | hl | hl
    · rw [if_neg hl.ne, if_neg (not_lt.2 hl.le),
        if_neg (fun h : q + word_shift = word_shift - 1 ∧ _ => hqlast h.1), if_neg (not_le.2 hl)]
      rw [show es ++ [0, p] = es ++ [0] ++ [p] by simp, dropLast_concat]
      have hvalue : value Base (es ++ [0] ++ [word (Base * p)]) = x.toInt + Base ^ es.length * Base * word (Base * p) := by
        rw [value_append, value_append, ← hval, length_append, pow_add]
        simp
      have hp4 := hp3 (hbit' rfl hl)
      have hword : word (Base * p) = Base * p := word_eq (by simp only [Base]; omega) (by simp only [Base]; omega)
      rw [hword] at hvalue ⊢
      refine holdsSmall_digits (by simp) (by simp; omega) ?_ (hvalue.trans (by ring))
      simp only [bounded_append, bounded_cons, bounded_nil, and_true, Base]
      exact ⟨⟨hes, by decide⟩, by omega, by omega⟩
    · rw [if_pos hl, if_pos hl.ge]
      refine holdsSmall_digits Nat.one_pos (by simp; omega) (by simp) ?_
      rw [← hval, value_of_lead_eq_zero Base hl, value_singleton]
    · rw [if_neg hl.ne', if_pos hl, if_pos hl.le]
      have htrim : trim es ≠ [] := fun h => hl.ne' ((lead_eq_zero_iff es).2 h)
      refine holdsSmall_digits (length_pos_of_ne_nil htrim) ?_ (fun c hc => hes c (mem_of_mem_trim hc)) ((value_trim Base es).trans hval)
      exact (length_trim_le es).trans (by omega)
  · have hmod : t % (Base * p) = t := emod_eq_of_lt hpos.le (by simp only [Base, Half] at *; omega)
    rw [hmod, if_neg hpos.ne', if_neg hpos.ne']
    by_cases hhalf : t < Half
    · rw [if_neg (not_le.2 hhalf), if_pos ⟨hpos, hhalf⟩]
      refine holdsSmall_digits (by simp) (by simp; omega) (bounded_append.2 ⟨hes, bounded_cons.2 ⟨?_, bounded_nil _⟩⟩) ?_
      · simp only [Half] at *
        omega
      · rw [value_append, value_singleton, hval]
    · obtain rfl : t = Half := by omega
      rw [if_pos le_rfl, if_neg (fun h : 0 < Half ∧ Half < Half => hhalf h.2), if_neg (not_lt.2 hpos.le), emod_self, zero_sub]
      by_cases hfull : x.size + 1 = x.max_size
      · rw [if_pos hfull, if_pos hfull]
        rfl
      · rw [if_neg hfull, if_neg hfull]
        refine holdsSmall_digits (by simp) (by simp; omega) (bounded_append.2 ⟨hes, bounded_cons.2 ⟨by decide, bounded_cons.2 ⟨?_, bounded_nil _⟩⟩⟩) ?_
        · omega
        · rw [value_append, value_cons, value_singleton, ← hval, hsize, pow_succ, base_eq]
          ring

theorem Holds.mod_pow2_beyond (he : (x.size - 1) * word_shift + word_bits ≤ e)
    (hmax : e < x.max_size * word_shift) (ht : x.top_word < 0) :
    (x.mod_pow2_any e).HoldsSmall (x.toInt + 2 ^ e) := by
  have hvalid : x.is_valid = true := is_valid_iff.2 hx.ne_nil
  have hdm := div_add_mod e word_shift
  have hq : e / word_shift < x.max_size := Nat.div_lt_of_lt_mul (by rwa [mul_comm] at hmax)
  have hlen : (extend (e / word_shift) x.digits).length = e / word_shift := by
    apply length_extend
    apply (Nat.le_div_iff_mul_le (by decide)).2
    unfold size word_shift word_bits at *
    omega
  have hsmall := bounded_extend (by decide) (hM.mono (show (2 : Int) ^ 60 ≤ 2 ^ 62 by decide)) (e / word_shift)
  have hval := value_extend (e / word_shift) x.digits
  have hple := two_pow_rem_le e
  have hp : (0 : Int) < 2 ^ (e % word_shift) := by positivity
  have hlast : e % word_shift = word_shift - 1 → (2 : Int) ^ (e % word_shift) = Half := by
    intro h
    rw [h]
    rfl
  have hsgn : x.sgn = -1 := by rw [sgn, if_pos hvalid, sign_eq_neg_one_of_neg ht]
  unfold mod_pow2_any
  rw [hvalid, if_neg (by simp), if_neg (by unfold word_bits at he; omega), if_pos he, hsgn, if_neg (by decide), if_neg (not_le.2 hmax)]
  dsimp only
  rw [hlen, two_pow_split e]
  generalize (2 : Int) ^ (e % word_shift) = p at *
  generalize extend (e / word_shift) x.digits = low at *
  split
  · next h =>
    refine holdsSmall_digits (by simp) (by simp; omega) (bounded_append.2 ⟨hsmall, by simp [Half]⟩) ?_
    rw [value_append, value_cons, value_singleton, hval, hlen, hlast h.1, AnyIntView.toInt, show -Half + Base * 1 = Half from rfl]
  · refine holdsSmall_digits (by simp) (by simp; omega) (bounded_append.2 ⟨hsmall, bounded_cons.2 ⟨?_, bounded_nil _⟩⟩) ?_
    · simp only [Half] at hple
      omega
    · rw [value_append, value_singleton, hval, hlen, AnyIntView.toInt]

theorem Holds.mod_pow2_cases (ht : -Half ≤ x.top_word ∧ x.top_word ≤ Half) (he0 : 0 < e)
    (hmax : e < x.max_size * word_shift) (hbit : ¬x.SignBit e) :
    match x.residue e with
    | some w => (x.mod_pow2_any e).HoldsSmall w
    | none => (x.mod_pow2_any e).digits = [] := by
  by_cases he1 : e < x.size * word_shift
  · rw [residue, if_pos he1]
    exact hx.mod_pow2_low hM he0 he1
  by_cases he2 : e < (x.size - 1) * word_shift + word_bits
  · exact hx.mod_pow2_within hM ht (not_lt.1 he1) he2 hmax hbit
  rw [residue, if_neg he1, if_neg he2]
  split
  · next h =>
    split at h
    · next htop =>
      cases h
      have hsgn : x.sgn ≥ 0 := by
        rw [sgn, if_pos (is_valid_iff.2 hx.ne_nil)]
        exact Int.sign_nonneg_iff.2 htop
      have heq : x.mod_pow2_any e = x := by
        unfold mod_pow2_any
        rw [is_valid_iff.2 hx.ne_nil, if_neg (by simp), if_neg he0.ne', if_pos (not_lt.1 he2), if_pos hsgn]
      rw [heq]
      exact ⟨⟨hx.ne_nil, hx.room, hx.roomy, rfl⟩, hM.mono (by decide)⟩
    · next htop =>
      cases h
      exact hx.mod_pow2_beyond hM (not_lt.1 he2) hmax (not_le.1 htop)
  · next h =>
    split at h <;> cases h

end

end

end AnyIntView

end Ton.BigInt
