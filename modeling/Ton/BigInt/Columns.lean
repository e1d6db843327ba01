import Ton.BigInt.Product
import Ton.BigInt.RoundPow2
/-!
# The columns of a product

The words that `add_mul_any` leaves for two normalised numbers, by the schoolbook:
each column is a sum of low and high words of products of digits. They are not
normalised, so `mod_pow2_any` loses a carry that the columns below the exponent
would make, and trusts the last column, which may be zero.
-/

namespace Ton.BigInt
open Int hiding lt_of_mul_lt_mul_left
open SignedDigits List

/-! ## The schoolbook -/

/-- Two numbers digit by digit. -/
def add_digits : List Int → List Int → List Int
  | xs, [] => xs
  | [], ys => ys
  | x :: xs, y :: ys => (x + y) :: add_digits xs ys

/-- One digit times some, from the high word `c` of the product before. -/
def product_row (x c : Int) : List Int → List Int
  | [] => [c]
  | y :: ys => (c + x * y % Base) :: product_row x (x * y / Base) ys

/-- The columns of a product. -/
def product_columns : List Int → List Int → List Int
  | [], ys => List.replicate ys.length 0
  | x :: xs, ys => add_digits (product_row x 0 ys) (0 :: product_columns xs ys)

/-- The columns of a product in a `DoubleInt`. -/
def columns (x y : AnyIntView) : AnyIntView := bigInt 514 (product_columns x.digits y.digits)

theorem add_digits_assoc (xs ys zs : List Int) : add_digits (add_digits xs ys) zs = add_digits xs (add_digits ys zs) := by
  induction xs generalizing ys zs with
  | nil => cases ys <;> cases zs <;> simp [add_digits]
  | cons x xs ih => cases ys <;> cases zs <;> simp [add_digits, ih, add_assoc]

theorem add_digits_zeros (xs : List Int) {n : Nat} (hlen : n ≤ xs.length) : add_digits xs (List.replicate n 0) = xs := by
  induction xs generalizing n with
  | nil =>
    obtain rfl : n = 0 := by simpa using hlen
    rfl
  | cons x xs ih => cases n with
    | zero => rfl
    | succ n => rw [replicate_succ, add_digits, ih (by simpa using hlen), add_zero]

theorem length_product_row (x c : Int) (ys : List Int) : (product_row x c ys).length = ys.length + 1 := by
  induction ys generalizing c with
  | nil => rfl
  | cons y ys ih => simp [product_row, ih]

namespace AnyIntView

section
variable {M yv c d : Int} {ys zs ds : List Int}

theorem add_mul_row_columns (hy : -Half ≤ yv ∧ yv ≤ Half) (hz : Bounded Half zs) (hd : -M ≤ d ∧ d ≤ M) (hc : -2 ^ 50 ≤ c ∧ c ≤ 2 ^ 50)
    (hds : Bounded M ds) (hM : 0 ≤ M ∧ M + 2 ^ 53 ≤ 2 ^ 62) (hlen : zs.length ≤ ds.length) :
    add_mul_row yv zs ((d + c) :: ds) = add_digits (d :: ds) (product_row yv c zs) := by
  induction zs generalizing c d ds with
  | nil =>
    rw [add_mul_row]
    · cases ds <;> rfl
    · simp
  | cons z zs ih =>
    obtain ⟨hz1, hz2⟩ := bounded_cons.1 hz
    cases ds with
    | nil => simp at hlen
    | cons d1 ds =>
      obtain ⟨hd1, hds⟩ := bounded_cons.1 hds
      obtain ⟨h1, h2, h3, h4, -⟩ := product_words hy hz1
      have hB : Base = 2 ^ 52 := rfl
      have ih := ih hz2 hd1 ⟨h1, h2⟩ hds (by simpa using hlen)
      rw [add_mul_row, add_mul]
      dsimp only
      rw [word_eq (x := yv * z / Base) (by omega) (by omega), word_eq (x := d1 + yv * z / Base) (by omega) (by omega),
        word_eq (by omega) (by omega), ih, product_row, add_digits, add_assoc]

theorem add_mul_rows_columns (hy : Bounded Half ys) (hz : Bounded Half zs) (hds : Bounded M ds)
    (hM : 0 ≤ M ∧ M + ys.length * 2 ^ 53 ≤ 2 ^ 62) (hlen : ys.length + zs.length ≤ ds.length) :
    add_mul_rows zs ys ds = add_digits ds (product_columns ys zs) := by
  induction ys generalizing ds M with
  | nil => rw [add_mul_rows, product_columns, add_digits_zeros _ (by simpa using hlen)]
  | cons y ys ih =>
    obtain ⟨hy1, hy2⟩ := bounded_cons.1 hy
    rw [length_cons, Nat.cast_succ] at *
    cases ds with
    | nil => simp at hlen
    | cons d ds =>
      obtain ⟨hd1, hds⟩ := bounded_cons.1 hds
      simp only [length_cons] at hlen
      obtain ⟨-, h2, h3⟩ := add_mul_row_spec (d := d) hy1 hz (by omega) hds (by omega) (by omega)
      have hrow := add_mul_row_columns (c := 0) hy1 hz hd1 (by decide) hds (by omega) (by omega)
      rw [add_zero] at hrow
      rw [add_mul_rows, product_columns, ← add_digits_assoc, ← hrow]
      cases he : add_mul_row y zs (d :: ds) with
      | nil => simp [he] at h3
      | cons e es =>
        rw [he] at h2 h3
        rw [bounded_cons] at h2
        rw [length_cons, Nat.succ_inj] at h3
        dsimp only
        rw [ih hy2 h2.2 (by omega) (by omega), add_digits, add_zero]

theorem add_digits_replicate_zero (n : Nat) (xs : List Int) (hlen : xs.length = n) : add_digits (List.replicate n 0) xs = xs := by
  subst hlen
  induction xs with
  | nil => rfl
  | cons x xs ih => simp [replicate_succ, add_digits, ih]

theorem length_add_digits (xs ys : List Int) : (add_digits xs ys).length = max xs.length ys.length := by
  induction xs generalizing ys with
  | nil => cases ys <;> simp [add_digits]
  | cons x xs ih => cases ys <;> simp [add_digits, ih]

theorem length_product_columns (xs ys : List Int) : (product_columns xs ys).length = xs.length + ys.length := by
  induction xs with
  | nil => simp [product_columns]
  | cons x xs ih =>
    rw [product_columns, length_add_digits, length_product_row, length_cons, length_cons, ih]
    omega

theorem Is.add_mul_columns {x y : AnyIntView} {v w : Int} (hx : x.Is v) (hy : y.Is w) (hxs : x.size ≤ 5) (hys : y.size ≤ 5) :
    (bigInt 514 [0]).add_mul_any x y = columns x y := by
  have hx0 := hx.size_pos
  have hy0 := hy.size_pos
  have hrows := add_mul_rows_columns (M := 0) (balanced_bounded hx.normal.balanced)
    (balanced_bounded hy.normal.balanced) (bounded_zeros le_rfl (x.size + y.size)) ⟨le_rfl, by unfold size at hxs; omega⟩ (by simp [size])
  have hmax : word_cnt 514 = 10 := rfl
  have h := hx.add_mul_eq (n := word_cnt 514) hy
  rw [if_neg (by omega)] at h
  dsimp only at h
  rw [if_pos (by omega), extend_zero (by omega), hrows,
    add_digits_replicate_zero (x.size + y.size) (product_columns x.digits y.digits) (length_product_columns ..)] at h
  exact h

end

/-! ## Remainders of words that are not normalised -/

/-- What the words below the exponent carry across it, in multiples of the power. -/
def crossing (e : Nat) (ds : List Int) : Int :=
  (kept_bits e ds + value Base (ds.take (e / word_shift)) / Base ^ (e / word_shift)) / 2 ^ (e % word_shift)

/-- Words whose last one has the sign of the number, unless it is zero. -/
structure Coarse (x : AnyIntView) (v : Int) : Prop where
  holds : x.Holds v
  bounded : Bounded (2 ^ 60) x.digits
  top : -Half < x.top_word ∧ x.top_word < Half
  sign : (0 < x.top_word → 0 < v) ∧ (x.top_word < 0 → v < 0)
  abs_lt : -Base ^ x.size < v ∧ v < Base ^ x.size

theorem kept_crossing (e : Nat) (ds : List Int) : kept e ds = value Base ds % 2 ^ e + 2 ^ e * crossing e ds := by
  have hp : (0 : Int) < 2 ^ e := by positivity
  have hb := pow_pos base_pos (e / word_shift)
  obtain ⟨c, hc⟩ := kept_dvd e ds
  have hmod : kept e ds % 2 ^ e = value Base ds % 2 ^ e := by
    rw [show value Base ds = kept e ds + 2 ^ e * c by omega, add_mul_emod_self_left]
  have hdiv : kept e ds / 2 ^ e = crossing e ds := by
    rw [ediv_two_pow_split, kept, add_mul_ediv_left _ _ hb.ne', add_comm]
    rfl
  rw [← hmod, ← hdiv, emod_add_mul_ediv]

section Remainder
variable {x : AnyIntView} {v : Int} {e : Nat}

theorem emod_of_abs_lt {p : Int} (h : -p < v ∧ v < p) : v % p = if 0 ≤ v then v else v + p := by
  split
  · next h0 => exact emod_eq_of_lt h0 h.2
  · next h0 =>
    rw [← add_emod_right]
    exact emod_eq_of_lt (by omega) (by omega)

/-- The remainder is left where the columns below carry nothing, and a last column that is zero misleads nothing. -/
theorem Coarse.mod_pow2_floor (hx : x.Coarse v) (he0 : 0 < e) (hmax : e < x.max_size * word_shift)
    (hroom : x.size * word_shift ≤ e → x.size + 1 < x.max_size) (hlow : e < x.size * word_shift → kept e x.digits = v % 2 ^ e)
    (hhigh : x.size * word_shift ≤ e → x.top_word ≠ 0 ∨ 0 ≤ v ∧ (x.AboveWords e → 0 ≤ lead x.digits.dropLast)) :
    (x.mod_pow2_any e).HoldsSmall (v % 2 ^ e) := by
  have hv : x.toInt = v := hx.holds.toInt
  have hbit : ¬x.SignBit e := by
    rintro ⟨htop, hl, he⟩
    obtain ⟨es, -, hsize⟩ := top_word_eq hx.holds.ne_nil
    have he1 : x.size * word_shift ≤ e := by
      unfold word_shift at *
      omega
    have habove : x.AboveWords e := ⟨he1, by unfold word_bits; omega⟩
    exact absurd (((hhigh he1).resolve_left (not_not.2 htop)).2 habove) (not_le.2 hl)
  have hcases := hx.holds.mod_pow2_cases hx.bounded ⟨hx.top.1.le, hx.top.2.le⟩ he0 hmax hbit
  obtain ⟨hpos, hneg⟩ := hx.sign
  unfold residue at hcases
  by_cases he1 : e < x.size * word_shift
  · rwa [if_pos he1, hlow he1] at hcases
  obtain ⟨h1, h2⟩ := hx.abs_lt
  have hle := base_pow_le (not_lt.1 he1)
  rw [if_neg he1, hv] at hcases
  rw [emod_of_abs_lt (p := 2 ^ e) ⟨by omega, by omega⟩]
  have hfull : ¬x.size + 1 = x.max_size := by have := hroom (not_lt.1 he1); omega
  have hhigh := hhigh (not_lt.1 he1)
  rcases lt_trichotomy x.top_word 0 with ht | ht | ht
  · have := hneg ht
    have hsign : ¬(0 < x.top_word ∧ x.top_word < Half) := fun h => absurd h.1 (not_lt.2 ht.le)
    simp only [ht.ne, hsign, hfull, ht, not_le.2 ht, if_false, if_true, sub_zero, ite_self] at hcases
    rwa [if_neg (by omega)]
  · obtain ⟨h0, hl⟩ := hhigh.resolve_left (not_not.2 ht)
    rw [if_pos h0]
    by_cases he2 : e < (x.size - 1) * word_shift + word_bits
    · rwa [if_pos he2, if_pos ht, if_pos (hl ⟨not_lt.1 he1, he2⟩)] at hcases
    · rwa [if_neg he2, if_pos ht.ge] at hcases
  · have := hpos ht
    simp only [ht.ne', ht, hx.top.2, ht.le, and_self, if_false, if_true, ite_self] at hcases
    rwa [if_pos (by omega)]

theorem Coarse.negate_digits (hx : x.Coarse v) : x.negate_any.digits = x.digits.map (- ·) := by
  apply map_congr_left
  intro d hd
  have := hx.bounded d hd
  exact word_eq (by omega) (by omega)

theorem Coarse.negate_top (hx : x.Coarse v) : x.negate_any.top_word = -x.top_word := by
  obtain ⟨es, hd, -⟩ := top_word_eq hx.holds.ne_nil
  conv_lhs => rw [top_word, hx.negate_digits, hd, map_append]
  simp

theorem Coarse.negate (hx : x.Coarse v) : x.negate_any.Coarse (-v) := by
  have hdigits := hx.negate_digits
  have htop := hx.negate_top
  have hsize : x.negate_any.size = x.size := by simp [size, negate_any]
  have hsmall : x.HoldsSmall v := ⟨hx.holds, hx.bounded.mono (by decide)⟩
  obtain ⟨h1, h2⟩ := hx.top
  obtain ⟨h3, h4⟩ := hx.sign
  obtain ⟨h5, h6⟩ := hx.abs_lt
  refine ⟨hsmall.negate.1, ?_, by rw [htop]; omega, by rw [htop]; omega, by rw [hsize]; omega⟩
  rw [hdigits]
  intro d hd
  obtain ⟨c, hc, rfl⟩ := mem_map.1 hd
  have := hx.bounded c hc
  omega

theorem Coarse.signed_fits (hx : x.Coarse v) (he : x.size * word_shift ≤ e) : x.signed_fits_bits_any e = true := by
  obtain ⟨es, hd, hsize⟩ := top_word_eq hx.holds.ne_nil
  have hvalid : x.is_valid = true := is_valid_iff.2 hx.holds.ne_nil
  obtain ⟨h1, h2⟩ := hx.top
  unfold signed_fits_bits_any
  rw [hvalid]
  by_cases hgt : e > x.size * word_shift
  · simp [hgt]
  obtain rfl : e = x.size * word_shift := by omega
  by_cases h0 : x.sgn = 0
  · simp [h0]
  have hm : x.size * word_shift - 1 = es.length * word_shift + 51 := by
    rw [hsize]
    unfold word_shift
    omega
  have hne : ¬x.size * word_shift = 0 := by
    rw [hsize]
    unfold word_shift
    omega
  have hval : (if x.sgn > 0 then x.top_word else -x.top_word) < Half := by split <;> omega
  have hbelow : below_pow2 x.sgn (x.size * word_shift - 1) x.digits = true := by
    rw [hm, hd, below_pow2_append (by decide), top_below]
    rw [show (2 : Int) ^ 51 = Half from rfl, if_neg (not_lt.2 hval.le), if_pos hval]
  simp [h0, hne, hbelow]

end Remainder

/-! ## Remainders that no carry changes -/

/-- A number that keeps sixteen units of the word in which the exponent lies away from every multiple of `p`. The
columns of the two lowest words carry nothing, so there any number will do. -/
def Clear (p v : Int) (e : Nat) : Prop :=
  e < 2 * word_shift ∨ 16 * Base ^ (e / word_shift) ≤ v % p ∧ v % p + 16 * Base ^ (e / word_shift) ≤ p

instance (p v : Int) (e : Nat) : Decidable (Clear p v e) := inferInstanceAs (Decidable (_ ∨ _))

/-- Where the remainder of a product `v` with `n` columns, the last of them `t`, is exact whatever the columns below
the exponent carry. -/
def CarrySafe (mode v t : Int) (n e : Nat) : Prop :=
  e = 0 ∨ v = 0 ∨
    if mode = 0 then
      (2 * t.natAbs * Base ^ (n - 1) ≤ 2 ^ e → SignedFits e v) ∧
        (2 ^ e ≤ 2 * t.natAbs * Base ^ (n - 1) → Clear (2 ^ (e - 1)) v e ∧ (2 * (v % 2 ^ e) < 2 ^ e ∨ e % word_shift ≤ 31))
    else if e < n * word_shift then Clear (2 ^ e) v e
    else t ≠ 0 ∨ mode < 0 ∧ (n = 2 ∨ (n - 1) * word_shift + word_bits ≤ e ∨ 16 * Base ^ (n - 2) ≤ v)

instance (mode v t : Int) (n e : Nat) : Decidable (CarrySafe mode v t n e) := by
  unfold CarrySafe
  infer_instance

/-- Words as the columns of a product are: none above ten units of the next place, and nothing carried from the lowest. -/
structure Columned (ds : List Int) : Prop where
  bounded : Bounded (10 * Base) ds
  signed : ∀ k ≤ 1, SignedAt ds k

theorem abs_value_take_lt {ds : List Int} (hd : Bounded (10 * Base) ds) (k : Nat) :
    -(16 * Base ^ k) < value Base (ds.take k) ∧ value Base (ds.take k) < 16 * Base ^ k := by
  suffices h : -(11 * (Base ^ k - 1)) ≤ value Base (ds.take k) ∧ value Base (ds.take k) ≤ 11 * (Base ^ k - 1) by
    have hb := pow_pos base_pos k
    omega
  induction ds generalizing k with
  | nil =>
    have hb := pow_pos base_pos k
    simp only [take_nil, value_nil]
    omega
  | cons d ds ih =>
    obtain ⟨⟨h1, h2⟩, hd⟩ := bounded_cons.1 hd
    cases k with
    | zero => simp
    | succ k =>
      obtain ⟨h3, h4⟩ := ih hd k
      rw [take_succ_cons, value_cons, pow_succ]
      generalize value Base (ds.take k) = u at *
      simp only [Base] at *
      omega

/-- The number that is left, and the test for its upper half, where the words below the exponent carry nothing or the
number is clear of the multiples. -/
theorem kept_clear {ds : List Int} {e : Nat} (hd : Bounded (10 * Base) ds)
    (h : SignedAt ds (e / word_shift) ∨ 16 * Base ^ (e / word_shift) ≤ value Base ds % 2 ^ e ∧
      value Base ds % 2 ^ e + 16 * Base ^ (e / word_shift) ≤ 2 ^ e) : kept e ds = value Base ds % 2 ^ e := by
  rcases h with h | ⟨h1, h2⟩
  · exact kept_eq h
  obtain ⟨h3, h4⟩ := abs_value_take_lt hd (e / word_shift)
  obtain ⟨h5, h6⟩ := kept_bits_bounds e ds
  have hb := pow_pos base_pos (e / word_shift)
  have hp : (0 : Int) < 2 ^ e := by positivity
  have hcross := kept_crossing e ds
  have hlow := mul_nonneg hb.le h5
  have hhigh : Base ^ (e / word_shift) * kept_bits e ds ≤ 2 ^ e := by
    rw [two_pow_split e]
    exact mul_le_mul_of_nonneg_left h6 hb.le
  have hkept : kept e ds = value Base (ds.take (e / word_shift)) + Base ^ (e / word_shift) * kept_bits e ds := rfl
  -- less than one power from the remainder on either side
  have hzero : crossing e ds = 0 := by
    have h7 : 2 ^ e * crossing e ds < 2 ^ e * 1 := by omega
    have h8 : 2 ^ e * -1 < 2 ^ e * crossing e ds := by omega
    have := lt_of_mul_lt_mul_left h7 hp.le
    have := lt_of_mul_lt_mul_left h8 hp.le
    omega
  rw [hcross, hzero, mul_zero, add_zero]

theorem below_half_clear {ds : List Int} {e : Nat} (hd : Bounded (10 * Base) ds) (he0 : 0 < e)
    (h : (∀ k ≤ e / word_shift, SignedAt ds k) ∨ 16 * Base ^ (e / word_shift) ≤ value Base ds % 2 ^ (e - 1) ∧
      value Base ds % 2 ^ (e - 1) + 16 * Base ^ (e / word_shift) ≤ 2 ^ (e - 1)) :
    kept e ds = value Base ds % 2 ^ e ∧ (below_half e ds ↔ 2 * (value Base ds % 2 ^ e) < 2 ^ e) := by
  rcases h with h | ⟨h1, h2⟩
  · exact ⟨kept_eq (h _ le_rfl), below_half_iff h he0⟩
  have hb := pow_pos base_pos (e / word_shift)
  have hp : (0 : Int) < 2 ^ (e - 1) := by positivity
  have hdouble : (2 : Int) ^ e = 2 * 2 ^ (e - 1) := by rw [← pow_succ', Nat.sub_add_cancel he0]
  have h3 := emod_nonneg (value Base ds) (show (2 : Int) ^ e ≠ 0 by positivity)
  have h4 := emod_lt_of_pos (value Base ds) (show (0 : Int) < 2 ^ e by positivity)
  have hhalf : value Base ds % 2 ^ (e - 1) = value Base ds % 2 ^ e % 2 ^ (e - 1) := by
    rw [emod_emod_of_dvd _ (by rw [hdouble]; exact Dvd.intro_left _ rfl)]
  -- the remainder is the one of the half, or that and the half
  have hcases : value Base ds % 2 ^ e = value Base ds % 2 ^ (e - 1) ∨
      value Base ds % 2 ^ e = value Base ds % 2 ^ (e - 1) + 2 ^ (e - 1) := by
    by_cases hlt : value Base ds % 2 ^ e < 2 ^ (e - 1)
    · rw [hhalf, emod_eq_of_lt h3 hlt]
      exact .inl rfl
    · have hsub := emod_eq_of_lt (a := value Base ds % 2 ^ e - 2 ^ (e - 1)) (b := 2 ^ (e - 1)) (by omega) (by omega)
      rw [sub_emod_right] at hsub
      exact .inr (by omega)
  have hkept : kept e ds = value Base ds % 2 ^ e := kept_clear hd (.inr (by omega))
  refine ⟨hkept, ?_⟩
  obtain ⟨h5, h6⟩ := abs_value_take_lt hd (e / word_shift)
  have hr0 : e % word_shift ≠ 0 := by
    intro hr
    have hsplit := two_pow_split e
    rw [hr, pow_zero, mul_one] at hsplit
    omega
  have hpow : (2 : Int) ^ (e - 1) = Base ^ (e / word_shift) * 2 ^ (e % word_shift - 1) := by
    have hsplit := two_pow_split e
    rw [hdouble, show (2 : Int) ^ (e % word_shift) = 2 * 2 ^ (e % word_shift - 1) by
      rw [← pow_succ', Nat.sub_add_cancel (Nat.pos_of_ne_zero hr0)]] at hsplit
    linarith
  have hsum : value Base (ds.take (e / word_shift)) + Base ^ (e / word_shift) * kept_bits e ds = value Base ds % 2 ^ e := hkept
  unfold below_half
  rw [if_neg hr0]
  have hlt : kept_bits e ds < 2 ^ (e % word_shift - 1) ↔ Base ^ (e / word_shift) * kept_bits e ds < 2 ^ (e - 1) := by
    rw [hpow, mul_lt_mul_iff_right₀ hb]
  have heq : kept_bits e ds = 2 ^ (e % word_shift - 1) ↔ Base ^ (e / word_shift) * kept_bits e ds = 2 ^ (e - 1) := by
    rw [hpow, mul_right_inj' hb.ne']
  rw [hlt, heq]
  omega

theorem Columned.low {ds : List Int} {e : Nat} (h : Columned ds) (he : e < 2 * word_shift) : ∀ k ≤ e / word_shift, SignedAt ds k :=
  fun k hk => h.signed k (hk.trans (Nat.le_of_lt_succ (Nat.div_lt_of_lt_mul (by omega))))

theorem Clear.neg {v : Int} {e : Nat} (h : Clear (2 ^ e) v e) : Clear (2 ^ e) (-v) e := by
  refine h.imp id fun h => ?_
  have hb := pow_pos base_pos (e / word_shift)
  have hdiv := emod_add_mul_ediv v (2 ^ e)
  rw [show -v = 2 ^ e - v % 2 ^ e + 2 ^ e * (-(v / 2 ^ e) - 1) by linarith, add_mul_emod_self_left,
    emod_eq_of_lt (by omega) (by omega)]
  omega

theorem lead_zeros {ds : List Int} (h : ∀ d ∈ ds, d = 0) : lead ds = 0 := by
  induction ds with
  | nil => rfl
  | cons d ds ih =>
    rw [forall_mem_cons] at h
    rw [lead_cons, ih h.2, h.1]
    rfl

theorem signedAt_zeros {ds : List Int} (h : ∀ d ∈ ds, d = 0) (k : Nat) : SignedAt ds k := by
  have hlead := lead_zeros fun d hd => h d (mem_of_mem_take (i := k) hd)
  have hb := pow_pos base_pos k
  unfold SignedAt
  rw [hlead, value_of_lead_eq_zero Base hlead]
  omega

theorem top_below_pair {s d d1 : Int} {rem : Nat} {low : List Int}
    (h : top_below s rem (if lead low < 0 then 0 < s else s < 0) [d, d1] = true) :
    rem = word_shift - 1 ∧ d1 = s ∧ (if s > 0 then d ≤ -Half ∧ (d = -Half → lead low < 0) else Half ≤ d) := by
  unfold top_below at h
  dsimp only at h
  by_cases hrem : rem = word_shift - 1
  · by_cases hs : d1 = s
    · refine ⟨hrem, hs, ?_⟩
      rw [if_neg (not_not.2 hrem), if_neg (not_not.2 hs)] at h
      split_ifs at h ⊢ <;> simp_all <;> omega
    · rw [if_neg (not_not.2 hrem), if_pos hs] at h
      cases h
  · rw [if_pos hrem] at h
    cases h

/-- The test for signed bits compares the last column with the power, but for the power of a whole word. -/
theorem Coarse.signed_fits_top {x : AnyIntView} {v : Int} {e : Nat} (hx : x.Coarse v) (he0 : 0 < e) :
    (x.signed_fits_bits_any e = true → 2 * x.top_word.natAbs * Base ^ (x.size - 1) ≤ 2 ^ e ∨
      ∃ low d, x.digits = low ++ [d, x.sgn] ∧ e = (low.length + 1) * word_shift ∧
        (x.sgn = 1 ∧ (d < -Half ∨ lead low < 0) ∨ x.sgn = -1 ∧ Half ≤ d)) ∧
    (x.signed_fits_bits_any e = false → 2 ^ e ≤ 2 * x.top_word.natAbs * Base ^ (x.size - 1)) := by
  obtain ⟨es, hd, hsize⟩ := top_word_eq hx.holds.ne_nil
  have hvalid : x.is_valid = true := is_valid_iff.2 hx.holds.ne_nil
  have hsgn : x.sgn = x.top_word.sign := if_pos hvalid
  have hb := pow_pos base_pos (x.size - 1)
  obtain ⟨h1, h2⟩ := hx.top
  by_cases h0 : x.top_word = 0
  · have htrue : x.signed_fits_bits_any e = true := by simp [signed_fits_bits_any, hvalid, hsgn, h0]
    rw [htrue, h0]
    exact ⟨fun _ => .inl (by simp), by simp⟩
  by_cases he : x.size * word_shift ≤ e
  · rw [hx.signed_fits he]
    refine ⟨fun _ => .inl ?_, by simp⟩
    calc 2 * (x.top_word.natAbs : Int) * Base ^ (x.size - 1) ≤ Base * Base ^ (x.size - 1) := by
          apply mul_le_mul_of_nonneg_right _ hb.le
          simp only [Base, Half] at *
          omega
      _ = Base ^ x.size := by rw [← pow_succ', Nat.sub_add_cancel (by omega)]
      _ ≤ 2 ^ e := base_pow_le he
  have hfits : x.signed_fits_bits_any e = below_pow2 x.sgn (e - 1) x.digits := by
    unfold signed_fits_bits_any
    rw [hvalid]
    simp [hsgn, h0, he0.ne', show ¬e > x.size * word_shift by omega]
  have hdouble : (2 : Int) ^ e = 2 * 2 ^ (e - 1) := by rw [← pow_succ', Nat.sub_add_cancel he0]
  rw [hfits]
  have hes : x.size - 1 = es.length := by omega
  rw [hes] at hb ⊢
  by_cases hhigh : es.length * word_shift ≤ e - 1
  · -- the bit lies in the last column
    obtain ⟨r, hr⟩ := Nat.exists_eq_add_of_le hhigh
    have hrlt : r < word_shift := by
      unfold word_shift at *
      omega
    have hval : (if x.sgn > 0 then x.top_word else -x.top_word) = x.top_word.natAbs := by
      simp only [hsgn, gt_iff_lt, sign_pos_iff]
      split <;> omega
    rw [hdouble, hr, pow_add, ← base_pow_eq, hd, below_pow2_append hrlt, top_below, hval, mul_assoc,
      mul_comm _ (Base ^ es.length)]
    have hcmp : (x.top_word.natAbs : Int) ≤ 2 ^ r ↔ 2 * (Base ^ es.length * (x.top_word.natAbs : Int)) ≤ 2 * (Base ^ es.length * 2 ^ r) := by
      rw [mul_le_mul_iff_right₀ two_pos, mul_le_mul_iff_right₀ hb]
    have hcmp' : (2 : Int) ^ r ≤ x.top_word.natAbs ↔ 2 * (Base ^ es.length * 2 ^ r) ≤ 2 * (Base ^ es.length * (x.top_word.natAbs : Int)) := by
      rw [mul_le_mul_iff_right₀ two_pos, mul_le_mul_iff_right₀ hb]
    rw [← hcmp, ← hcmp']
    constructor
    · intro h
      refine .inl (not_lt.1 fun hlt => ?_)
      rw [if_pos hlt] at h
      exact absurd h (by simp)
    · intro h
      refine not_lt.1 fun hlt => ?_
      rw [if_neg (not_lt.2 hlt.le), if_pos hlt] at h
      exact absurd h (by simp)
  · refine ⟨fun h => .inr ?_, fun _ => ?_⟩
    · have hk : (e - 1) / word_shift < es.length := Nat.div_lt_of_lt_mul (by rw [mul_comm]; omega)
      have htake := take_append_drop ((e - 1) / word_shift) x.digits
      have hlen : (x.digits.take ((e - 1) / word_shift)).length = (e - 1) / word_shift := by
        rw [length_take, hd, length_append]
        omega
      have hlast : (x.digits.drop ((e - 1) / word_shift)).getLastD 0 = x.top_word := by
        rw [hd, drop_append_of_le_length hk.le, getLastD_concat]
      have hdm := Nat.div_add_mod (e - 1) word_shift
      have hdroplen := length_drop (i := (e - 1) / word_shift) (l := x.digits)
      rw [hd, length_append, length_singleton, ← hd] at hdroplen
      unfold below_pow2 at h
      dsimp only at h
      generalize x.digits.take ((e - 1) / word_shift) = low at *
      generalize x.digits.drop ((e - 1) / word_shift) = top at *
      rcases top with _ | ⟨d, _ | ⟨d1, _ | ⟨d2, rest⟩⟩⟩
      · simp at hdroplen; omega
      · simp at hdroplen; omega
      · have hsign : x.sgn = 1 ∨ x.sgn = -1 := by
          rw [hsgn, sign_eq_one_iff_pos, sign_eq_neg_one_iff_neg]
          omega
        obtain ⟨hrem, rfl, hval⟩ := top_below_pair h
        refine ⟨low, d, htake.symm, ?_, ?_⟩
        · unfold word_shift at *
          omega
        · rcases hsign with hs | hs
          · rw [if_pos (by omega)] at hval
            exact .inl ⟨hs, (lt_or_eq_of_le hval.1).imp id hval.2⟩
          · rw [if_neg (by omega)] at hval
            exact .inr ⟨hs, hval⟩
      · exact absurd h (by simp [top_below])
    · have hle : (2 : Int) ^ e ≤ Base ^ es.length := by
        rw [base_pow_eq]
        exact pow_le_pow_right₀ one_le_two (by omega)
      have hone : 1 * Base ^ es.length ≤ 2 * x.top_word.natAbs * Base ^ es.length := mul_le_mul_of_nonneg_right (by omega) hb.le
      omega

section Inside
variable {x : AnyIntView} {v mode : Int} {e : Nat}

section
variable (hx : x.Coarse v) (hcols : Columned x.digits)
include hx hcols

theorem Coarse.floor_safe (he0 : 0 < e) (hmax : e < x.max_size * word_shift)
    (hroom : x.size * word_shift ≤ e → x.size + 1 < x.max_size) (hzero : v = 0 → ∀ d ∈ x.digits, d = 0)
    (hlow : e < x.size * word_shift → v = 0 ∨ Clear (2 ^ e) v e)
    (hhigh : x.size * word_shift ≤ e → x.top_word ≠ 0 ∨ 0 ≤ v ∧
      (v = 0 ∨ x.size = 2 ∨ (x.size - 1) * word_shift + word_bits ≤ e ∨ 2 ≤ x.size ∧ 16 * Base ^ (x.size - 2) ≤ v)) :
    (x.mod_pow2_any e).HoldsSmall (v % 2 ^ e) := by
  have hv : value Base x.digits = v := hx.holds.toInt
  refine hx.mod_pow2_floor he0 hmax hroom (fun he => ?_) fun he => ?_
  · rw [← hv]
    apply kept_clear hcols.bounded
    rw [hv]
    rcases hlow he with h | h | h
    · exact .inl (signedAt_zeros (hzero h) _)
    · exact .inl (hcols.low h _ le_rfl)
    · exact .inr h
  · by_cases htop : x.top_word = 0
    · refine .inr ?_
      obtain ⟨h0, h⟩ := (hhigh he).resolve_left (not_not.2 htop)
      refine ⟨h0, fun habove => ?_⟩
      obtain ⟨es, hd, hsize⟩ := top_word_eq hx.holds.ne_nil
      have hes : value Base es = v := by
        rw [← hv, hd, htop, value_append, value_singleton, mul_zero, add_zero]
      rw [hd, dropLast_concat]
      rcases h with h | h | h | ⟨h2, h⟩
      · exact (lead_zeros fun d hm => hzero h d (by rw [hd]; exact mem_append_left _ hm)).ge
      · obtain ⟨-, hsign⟩ := hcols.signed 1 le_rfl
        rw [hd, take_left' (by omega)] at hsign
        omega
      · exact absurd habove.2 (not_lt.2 h)
      · -- the column below the last is positive
        obtain ⟨ds, d, rfl⟩ : ∃ ds d, es = ds ++ [d] := ⟨es.dropLast, es.getLast (by rintro rfl; rw [length_nil] at hsize; omega),
            (dropLast_append_getLast _).symm⟩
        have hlen : x.size - 2 = ds.length := by
          rw [length_append, length_singleton] at hsize
          omega
        obtain ⟨-, h4⟩ := abs_value_take_lt hcols.bounded ds.length
        have hb := pow_pos base_pos ds.length
        rw [hd, append_assoc, take_left] at h4
        rw [value_append, value_singleton] at hes
        rw [hlen] at h
        have hpos : 0 < Base ^ ds.length * d := by omega
        have := pos_of_mul_pos_right hpos hb.le
        rw [lead_append_singleton, if_pos this.ne']
        exact this.le
    · exact .inl htop

theorem Coarse.nearest_safe (he0 : 0 < e) (hmax : e + 1 < x.max_size * word_shift)
    (hlow : 2 * x.top_word.natAbs * Base ^ (x.size - 1) ≤ 2 ^ e → SignedFits e v)
    (hhigh : 2 ^ e ≤ 2 * x.top_word.natAbs * Base ^ (x.size - 1) →
      Clear (2 ^ (e - 1)) v e ∧ (2 * (v % 2 ^ e) < 2 ^ e ∨ e % word_shift ≤ 31)) :
    (x.mod_pow2_round e 0).normalize_bool_any.Is (v - roundDiv 0 v (2 ^ e) * 2 ^ e) := by
  have hv : value Base x.digits = v := hx.holds.toInt
  have hp : (0 : Int) < 2 ^ e := by positivity
  obtain ⟨hyes, hno⟩ := hx.signed_fits_top he0
  by_cases hfit : x.signed_fits_bits_any e = true
  · suffices h : SignedFits e v by
      rw [mod_pow2_round_fits (is_valid_iff.2 hx.holds.ne_nil) he0 hfit, roundDiv_fits h, zero_mul, sub_zero]
      unfold SignedFits at h
      exact hx.holds.normalize (inRange_pow hmax ⟨by omega, by omega⟩)
    rcases hyes hfit with h | ⟨low, d, hd, he, h⟩
    · exact hlow h
    -- the power of a whole word is in reach of a carry but above the lowest column
    have hlen : x.size = low.length + 2 := by simp [size, hd]
    have htop : x.top_word = x.sgn := by simp [top_word, hd]
    have hpow : (2 : Int) ^ e = Base ^ (x.size - 1) := by rw [he, ← base_pow_eq, hlen]; rfl
    have hb := pow_pos base_pos (x.size - 1)
    obtain ⟨hclear, -⟩ := hhigh (by
      rw [hpow, htop]
      have hone : 1 * Base ^ (x.size - 1) ≤ 2 * x.sgn.natAbs * Base ^ (x.size - 1) := mul_le_mul_of_nonneg_right (by omega) hb.le
      omega)
    rcases hclear with he2 | ⟨h1, h2⟩
    · obtain rfl : low = [] := length_eq_zero_iff.1 (by unfold word_shift at he2 he; omega)
      obtain ⟨⟨h3, h4⟩, -⟩ := hcols.signed 1 le_rfl
      rw [hd] at h3 h4 hv
      simp only [nil_append, take_succ_cons, take_zero, value_cons, value_nil, mul_zero, add_zero, pow_one, lead_nil, lt_self_iff_false,
        or_false] at h3 h4 hv h
      unfold SignedFits
      rw [hpow, hlen]
      simp only [length_nil, zero_add, Nat.reduceSub, pow_one, Base, Half] at *
      omega
    · rw [show e / word_shift = x.size - 1 by rw [he, hlen, Nat.mul_div_cancel _ (by decide)]; rfl, ← hpow] at h1 h2
      have hdouble : (2 : Int) ^ e = 2 * 2 ^ (e - 1) := by rw [← pow_succ', Nat.sub_add_cancel he0]
      have hp : (0 : Int) < 2 ^ (e - 1) := by positivity
      omega
  · have hfit := Bool.eq_false_iff.2 hfit
    obtain ⟨hclear, hshift⟩ := hhigh (hno hfit)
    have hkept := below_half_clear hcols.bounded he0 (e := e) (hclear.imp (fun h => hcols.low h) fun h => by rwa [hv])
    rw [hv] at hkept
    refine (hx.holds.nearest_low hx.bounded he0 hmax hfit ?_ hkept.1 hkept.2).2 hshift.symm
    exact not_le.1 fun he => absurd (hx.signed_fits he) (by simp [hfit])

/-- Where the carries cannot matter, the columns leave the remainder. -/
theorem Coarse.mod_pow2_exact (hneg : Columned x.negate_any.digits)
    (htop : x.top_word = 0 → 0 ≤ v) (hzero : v = 0 → ∀ d ∈ x.digits, d = 0) (hsize : 2 ≤ x.size) (hmax : e + 1 < x.max_size * word_shift)
    (hroom : x.size * word_shift ≤ e → x.size + 1 < x.max_size) (hsafe : CarrySafe mode v x.top_word x.size e) :
    (x.mod_pow2_round e mode).normalize_bool_any.Is (v - roundDiv mode v (2 ^ e) * 2 ^ e) := by
  have hp : (0 : Int) < 2 ^ e := by positivity
  have hvalid : x.is_valid = true := is_valid_iff.2 hx.holds.ne_nil
  rcases Nat.eq_zero_or_pos e with rfl | he0
  · have hzero := is_zero ((length_pos_of_ne_nil hx.holds.ne_nil).trans_le hx.holds.room)
    rw [mod_pow2_round_zero hvalid, pow_zero, roundDiv_one, mul_one, sub_self, hzero.normalize]
    exact hzero
  have hsafe := hsafe.resolve_left he0.ne'
  have h1 := emod_nonneg v hp.ne'
  have h2 := emod_lt_of_pos v hp
  have hnegtop : x.negate_any.top_word = -x.top_word := hx.negate_top
  have hnegsize : x.negate_any.size = x.size := by simp [size, negate_any]
  rcases lt_trichotomy mode 0 with hm | rfl | hm
  · rw [if_neg hm.ne] at hsafe
    rw [mod_pow2_round, if_pos hm, floor_remainder hm]
    refine (hx.floor_safe hcols he0 (by omega) hroom hzero (fun he => hsafe.imp id fun h => by rwa [if_pos he] at h) fun he => ?_).1.normalize
      (by rw [max_size_mod_pow2_any]; exact inRange_pow hmax ⟨by omega, h2⟩)
    by_cases ht : x.top_word = 0
    · refine .inr ⟨htop ht, hsafe.imp id fun h => ?_⟩
      rw [if_neg (not_lt.2 he)] at h
      exact (h.resolve_left (not_not.2 ht)).2.imp id (Or.imp id fun h => ⟨hsize, h⟩)
    · exact .inl ht
  · rw [if_pos rfl] at hsafe
    rcases hsafe with rfl | ⟨hlow, hhigh⟩
    · have ht : x.top_word = 0 := by
        obtain ⟨es, hd, -⟩ := top_word_eq hx.holds.ne_nil
        have hmem : x.top_word ∈ es ++ [x.top_word] := by simp
        rw [← hd] at hmem
        exact hzero rfl _ hmem
      refine hx.nearest_safe hcols he0 hmax (fun _ => signedFits_zero e) fun h => ?_
      rw [ht, natAbs_zero, Nat.cast_zero, mul_zero, zero_mul] at h
      omega
    · exact hx.nearest_safe hcols he0 hmax hlow hhigh
  · rw [if_neg hm.ne'] at hsafe
    rw [mod_pow2_round_ceil hvalid hm he0, ceil_remainder hm]
    have hnegzero : -v = 0 → ∀ d ∈ x.negate_any.digits, d = 0 := by
      intro hv d hd
      rw [hx.negate_digits] at hd
      obtain ⟨c, hc, rfl⟩ := mem_map.1 hd
      rw [hzero (neg_eq_zero.1 hv) c hc, neg_zero]
    have h3 := emod_nonneg (-v) hp.ne'
    have h4 := emod_lt_of_pos (-v) hp
    refine (hx.negate.floor_safe hneg he0 (by rw [max_size_negate_any]; omega) (by rwa [hnegsize, max_size_negate_any]) hnegzero
      (fun he => ?_) fun he => ?_).negate.1.normalize
      (by rw [max_size_negate_any, max_size_mod_pow2_any, max_size_negate_any]; exact inRange_pow hmax ⟨by omega, by omega⟩)
    · rw [hnegsize] at he
      exact hsafe.imp neg_eq_zero.2 fun h => by
        rw [if_pos he] at h
        exact h.neg
    · rw [hnegsize] at he
      rw [hnegtop, neg_ne_zero]
      rcases hsafe with rfl | h
      · exact .inr ⟨by simp, .inl neg_zero⟩
      · rw [if_neg (not_lt.2 he)] at h
        exact h.imp id fun h => absurd h.1 (not_lt.2 hm.le)

end

end Inside

/-! ## Shifts of words that are not normalised -/

section Shift
variable {x : AnyIntView} {v : Int} {e : Nat}

/-- A number `v` of `n` words, the last of them `t`, and a power so large that the shift looks at the last word
alone, which is zero, where it should round up. -/
def ShiftOutside (mode v t : Int) (n e : Nat) : Prop := 0 < mode ∧ 0 < v ∧ t = 0 ∧ n * word_shift + word_bits - word_shift < e

instance (mode v t : Int) (n e : Nat) : Decidable (ShiftOutside mode v t n e) := inferInstanceAs (Decidable (_ ∧ _))

theorem Coarse.rshift_safe (hx : x.Coarse v) (mode : Int) (htop : x.top_word = 0 → 0 ≤ v)
    (hrange : InRange Base Half x.max_size (roundDiv mode v (2 ^ e))) (hsafe : ¬ShiftOutside mode v x.top_word x.size e) :
    (x.rshift_any e mode).normalize_bool_any.Is (roundDiv mode v (2 ^ e)) := by
  have hr : InRange Base Half (x.rshift_any e mode).max_size (roundDiv mode v (2 ^ e)) := by rwa [max_size_rshift_any]
  by_cases he : e ≤ x.size * word_shift + word_bits - word_shift
  · exact (hx.holds.rshift hx.bounded he).normalize hr
  obtain ⟨h1, h2⟩ := hx.abs_lt
  obtain ⟨h3, h4⟩ := hx.sign
  have hpow := two_base_pow_le (not_le.1 he)
  have hsgn : x.sgn = x.top_word.sign := if_pos (is_valid_iff.2 hx.holds.ne_nil)
  have hholds : ∀ w : Int, -1 ≤ w ∧ w ≤ 1 → (x.assign w).Holds w := fun w hw =>
    holds_digits Nat.one_pos ((length_pos_of_ne_nil hx.holds.ne_nil).trans_le hx.holds.room)
      (bounded_cons.2 ⟨by omega, bounded_nil _⟩) (value_singleton ..)
  rw [rshift_beyond (not_le.1 he)] at hr ⊢
  have heq : (if mode = 0 then 0 else if mode < 0 then (if x.sgn < 0 then -1 else 0) else (if x.sgn > 0 then 1 else 0)) =
      roundDiv mode v (2 ^ e) := by
    unfold ShiftOutside at hsafe
    rw [roundDiv_small (by omega) (by omega), hsgn]
    simp only [sign_neg_iff, gt_iff_lt, sign_pos_iff]
    split_ifs <;> omega
  rw [heq] at hr ⊢
  exact (hholds _ (by rw [← heq]; split_ifs <;> omega)).normalize hr

end Shift

/-! ## The columns of two numbers -/

theorem columns_coarse (x y : Int257) : (columns x.view y.view).Coarse (x.toInt * y.toInt) ∧
    (columns x.view y.view).size = x.view.size + y.view.size ∧
    (columns x.view y.view).top_word = x.view.top_word * y.view.top_word / Base ∧
    ((columns x.view y.view).top_word = 0 → 0 ≤ x.toInt * y.toInt) := by
  have hxs : x.view.size ≤ 5 := x.is.room
  have hys : y.view.size ≤ 5 := y.is.room
  obtain ⟨h1, h2, h3, h4⟩ := x.is.add_mul (n := word_cnt 514) y.is (by omega) (show _ ≤ 10 by omega)
  have hcols : add_mul_any ⟨word_cnt 514, [0]⟩ x.view y.view = columns x.view y.view := x.is.add_mul_columns y.is hxs hys
  rw [hcols] at h1 h2 h3 h4
  have hsign : (x.view.top_word * y.view.top_word).sign = (x.toInt * y.toInt).sign := by
    rw [Int.sign_mul, Int.sign_mul, x.is.top_sign, y.is.top_sign]
  obtain ⟨g1, g2, -⟩ := product_words (y := x.view.top_word) (z := y.view.top_word) ⟨x.is.top_balanced.1, x.is.top_balanced.2.le⟩
    ⟨y.is.top_balanced.1, y.is.top_balanced.2.le⟩
  refine ⟨⟨h1, h2.mono (by omega), ?_, ?_, ?_⟩, h3, h4, ?_⟩
  · rw [h4]
    simp only [Half]
    omega
  · rw [h4, ← sign_pos_iff (x := x.toInt * y.toInt), ← sign_neg_iff (x := x.toInt * y.toInt), ← hsign, sign_pos_iff, sign_neg_iff]
    generalize x.view.top_word * y.view.top_word = p
    simp only [Base]
    omega
  · rw [h3, pow_add, ← abs_lt, abs_mul]
    exact mul_lt_mul'' (abs_lt.2 x.is.abs_lt) (abs_lt.2 y.is.abs_lt) (abs_nonneg _) (abs_nonneg _)
  · rw [h4, ← Int.sign_nonneg_iff (x := x.toInt * y.toInt), ← hsign, Int.sign_nonneg_iff]
    generalize x.view.top_word * y.view.top_word = p
    simp only [Base]
    omega

theorem add_digits_eq_zero {xs ys : List Int} (hx : ∀ d ∈ xs, d = 0) (hy : ∀ d ∈ ys, d = 0) : ∀ d ∈ add_digits xs ys, d = 0 := by
  induction xs generalizing ys with
  | nil => cases ys with
    | nil => exact hx
    | cons y ys => exact hy
  | cons x xs ih => cases ys with
    | nil => exact hx
    | cons y ys =>
      simp only [forall_mem_cons] at hx hy
      simp only [add_digits, forall_mem_cons]
      exact ⟨by omega, ih hx.2 hy.2⟩

theorem product_columns_eq_zero {xs ys : List Int} (h : xs = [0] ∨ ys = [0]) : ∀ d ∈ product_columns xs ys, d = 0 := by
  have hrow : ∀ zs, ∀ d ∈ product_row 0 0 zs, d = 0 := fun zs => by
    induction zs with
    | nil => simp [product_row]
    | cons z zs ih => simpa [product_row] using ih
  rcases h with rfl | rfl
  · exact add_digits_eq_zero (hrow ys) (by simp [product_columns])
  · induction xs with
    | nil => simp [product_columns]
    | cons x xs ih =>
      refine add_digits_eq_zero (by simp [product_row]) ?_
      simpa using ih

theorem Is.digits_zero {x : AnyIntView} (hx : x.Is 0) : x.digits = [0] := by
  obtain ⟨d, hd⟩ := length_eq_one_iff.1 hx.size_zero
  have hv : value Base x.digits = 0 := hx.toInt
  rw [hd, value_singleton] at hv
  rw [hd, hv]

theorem signedAt_one {d : Int} {ds : List Int} (hd : -Base < d ∧ d < Base) : ∀ k ≤ 1, SignedAt (d :: ds) k := by
  intro k hk
  obtain rfl | rfl : k = 0 ∨ k = 1 := by omega
  · simp [SignedAt]
  · unfold SignedAt
    simpa [lead_cons] using hd

theorem columns_columned (x y : Int257) : Columned (columns x.view y.view).digits ∧ Columned (columns x.view y.view).negate_any.digits ∧
    (x.toInt * y.toInt = 0 → ∀ d ∈ (columns x.view y.view).digits, d = 0) := by
  have hxs : x.view.size ≤ 5 := x.is.room
  have hys : y.view.size ≤ 5 := y.is.room
  obtain ⟨-, hbd, -⟩ := x.is.add_mul (n := word_cnt 514) y.is (by omega) (show _ ≤ 10 by omega)
  rw [show add_mul_any ⟨word_cnt 514, [0]⟩ x.view y.view = columns x.view y.view from x.is.add_mul_columns y.is hxs hys] at hbd
  have hbd := hbd.mono (show _ ≤ 10 * Base by simp only [Base]; omega)
  obtain ⟨hcoarse, -⟩ := columns_coarse x y
  -- the lowest column is a low word
  obtain ⟨c, cs, hc, hc0, hc1⟩ : ∃ c cs, (columns x.view y.view).digits = c :: cs ∧ 0 ≤ c ∧ c < Base := by
    obtain ⟨a, as, ha⟩ := exists_cons_of_ne_nil x.is.normal.ne_nil
    obtain ⟨b, bs, hb⟩ := exists_cons_of_ne_nil y.is.normal.ne_nil
    refine ⟨0 + a * b % Base + 0, _, by simp only [columns, bigInt, ha, hb, product_columns, product_row, add_digits]; rfl, ?_, ?_⟩
    · have := emod_nonneg (a * b) base_pos.ne'
      omega
    · have := emod_lt_of_pos (a * b) base_pos
      omega
  refine ⟨⟨hbd, hc ▸ signedAt_one ⟨by omega, hc1⟩⟩, ?_, ?_⟩
  · rw [hcoarse.negate_digits]
    refine ⟨fun d hd => ?_, ?_⟩
    · obtain ⟨e, he, rfl⟩ := mem_map.1 hd
      have := hbd e he
      omega
    · rw [hc]
      exact signedAt_one (show -Base < -c ∧ -c < Base by omega)
  · intro h
    apply product_columns_eq_zero
    rcases mul_eq_zero.1 h with h | h
    · exact .inl (h ▸ x.is).digits_zero
    · exact .inr (h ▸ y.is).digits_zero

end AnyIntView

end Ton.BigInt
