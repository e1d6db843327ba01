import Ton.BigInt.Ring
/-!
# Products

`add_mul_any` adds the low and the high word of each product of two digits to
the words they belong to, so the words of a product go beyond the range of a
digit. Then the operations of `refint.cpp`, which normalise.
-/

namespace Ton.BigInt
open SignedDigits List

def add_mul (hi lo x y : Int) : Int × Int := (word (hi + word (x * y / Base)), word (lo + x * y % Base))

namespace AnyIntView

/-- One row of a product: `yv` times some digits is added from the first digit on. -/
def add_mul_row (yv : Int) : List Int → List Int → List Int
  | z :: zs, d :: d1 :: ds =>
    let (hi, lo) := add_mul d1 d yv z
    lo :: add_mul_row yv zs (hi :: ds)
  | _, ds => ds

/-- The rows of a product, each one digit further up. -/
def add_mul_rows (zs : List Int) : List Int → List Int → List Int
  | yv :: ys, ds =>
    match add_mul_row yv zs ds with
    | [] => []
    | d :: ds => d :: add_mul_rows zs ys ds
  | [], ds => ds

def add_mul_any (x y z : AnyIntView) : AnyIntView :=
  let rn := y.size + z.size
  if !y.is_valid || !z.is_valid || !x.is_valid then x.invalidate
  else if rn > x.max_size + 1 then x.invalidate
  else
    let ds := add_mul_rows z.digits y.digits (extend rn x.digits)
    if rn < x.max_size + 1 then { x with digits := ds }
    else
      -- the word above the last one is the variable `hi`
      let hi := ds.getLastD 0
      if hi ≠ 0 ∧ hi ≠ -1 then x.invalidate else { x with digits := add_top (word (hi * Base)) ds.dropLast }

@[simp] theorem max_size_add_mul_any (x y z : AnyIntView) : (x.add_mul_any y z).max_size = x.max_size := by
  unfold add_mul_any
  dsimp only
  split_ifs <;> rfl

section Product
variable {M yv : Int} {ys zs ds : List Int}

theorem product_words {y z : Int} (hy : -Half ≤ y ∧ y ≤ Half) (hz : -Half ≤ z ∧ z ≤ Half) :
    -2 ^ 50 ≤ y * z / Base ∧ y * z / Base ≤ 2 ^ 50 ∧ 0 ≤ y * z % Base ∧ y * z % Base < Base ∧
      y * z % Base + Base * (y * z / Base) = y * z := by
  have h1 : -2 ^ 102 ≤ y * z ∧ y * z ≤ 2 ^ 102 := by
    simp only [Half] at hy hz
    constructor <;> nlinarith
  refine ⟨?_, ?_, Int.emod_nonneg _ base_pos.ne', Int.emod_lt_of_pos _ base_pos, Int.emod_add_mul_ediv _ _⟩ <;>
    simp only [Base] <;> omega

theorem add_mul_row_spec (hy : -Half ≤ yv ∧ yv ≤ Half) (hz : Bounded Half zs) {d : Int} (hd : -(M + 2 ^ 50) ≤ d ∧ d ≤ M + 2 ^ 50)
    (hds : Bounded M ds) (hM : 0 ≤ M ∧ M + 2 ^ 53 ≤ 2 ^ 62) (hlen : zs.length ≤ ds.length) :
    value Base (add_mul_row yv zs (d :: ds)) = value Base (d :: ds) + yv * value Base zs ∧
      Bounded (M + 2 ^ 53) (add_mul_row yv zs (d :: ds)) ∧ (add_mul_row yv zs (d :: ds)).length = ds.length + 1 := by
  induction zs generalizing d ds with
  | nil =>
    refine ⟨by simp [add_mul_row], ?_, by simp [add_mul_row]⟩
    rw [add_mul_row, bounded_cons]
    · exact ⟨by omega, hds.mono (by omega)⟩
    · simp
  | cons z zs ih =>
    obtain ⟨hz1, hz2⟩ := bounded_cons.1 hz
    cases ds with
    | nil => simp at hlen
    | cons d1 ds =>
      obtain ⟨hd1, hds⟩ := bounded_cons.1 hds
      obtain ⟨h1, h2, h3, h4, h5⟩ := product_words hy hz1
      have hB : Base = 2 ^ 52 := rfl
      obtain ⟨g1, g2, g3⟩ := ih (d := d1 + yv * z / Base) hz2 (by omega) hds (by simpa using hlen)
      rw [add_mul_row, add_mul]
      dsimp only
      rw [word_eq (x := yv * z / Base) (by omega) (by omega), word_eq (x := d1 + yv * z / Base) (by omega) (by omega),
        word_eq (by omega) (by omega)]
      refine ⟨?_, bounded_cons.2 ⟨by omega, g2⟩, by simp [g3]⟩
      rw [value_cons, g1]
      simp only [value_cons]
      linear_combination h5

theorem add_mul_rows_spec (hy : Bounded Half ys) (hz : Bounded Half zs) (hds : Bounded M ds) (hM : 0 ≤ M ∧ M + ys.length * 2 ^ 53 ≤ 2 ^ 62)
    (hlen : ys.length + zs.length ≤ ds.length) :
    value Base (add_mul_rows zs ys ds) = value Base ds + value Base ys * value Base zs ∧
      Bounded (M + ys.length * 2 ^ 53) (add_mul_rows zs ys ds) ∧ (add_mul_rows zs ys ds).length = ds.length := by
  induction ys generalizing ds M with
  | nil => simpa [add_mul_rows] using hds
  | cons y ys ih =>
    obtain ⟨hy1, hy2⟩ := bounded_cons.1 hy
    rw [length_cons, Nat.cast_succ] at *
    cases ds with
    | nil => simp at hlen
    | cons d ds =>
      obtain ⟨hd1, hds⟩ := bounded_cons.1 hds
      simp only [length_cons] at hlen
      obtain ⟨h1, h2, h3⟩ := add_mul_row_spec (d := d) hy1 hz (by omega) hds (by omega) (by omega)
      rw [add_mul_rows]
      cases hrow : add_mul_row y zs (d :: ds) with
      | nil => simp [hrow] at h3
      | cons e es =>
        rw [hrow] at h1 h2 h3
        rw [bounded_cons] at h2
        rw [length_cons, Nat.succ_inj] at h3
        obtain ⟨g1, g2, g3⟩ := ih (M := M + 2 ^ 53) hy2 h2.2 (by omega) (by omega)
        have hbound : M + 2 ^ 53 + ys.length * 2 ^ 53 = M + (ys.length + 1) * 2 ^ 53 := by ring
        rw [hbound] at g2
        refine ⟨?_, bounded_cons.2 ⟨⟨by nlinarith, by nlinarith⟩, g2⟩, by simp [g3, h3]⟩
        rw [value_cons] at h1
        rw [value_cons, g1, value_cons Base y ys]
        linear_combination h1

theorem getLastD_cons {d : Int} (hne : ds ≠ []) : (d :: ds).getLastD 0 = ds.getLastD 0 := by
  obtain ⟨e, es, rfl⟩ := exists_cons_of_ne_nil hne
  simp

theorem add_mul_row_length (yv : Int) (zs ds : List Int) : (add_mul_row yv zs ds).length = ds.length := by
  induction zs generalizing ds with
  | nil => simp [add_mul_row]
  | cons z zs ih =>
    match ds with
    | [] => simp [add_mul_row]
    | [d] => simp [add_mul_row]
    | d :: d1 :: ds => simp [add_mul_row, ih]

theorem add_mul_rows_length (zs ys ds : List Int) : (add_mul_rows zs ys ds).length = ds.length := by
  induction ys generalizing ds with
  | nil => simp [add_mul_rows]
  | cons y ys ih =>
    have hlen := add_mul_row_length y zs ds
    rw [add_mul_rows]
    split
    · next hrow => rw [← hlen, hrow]
    · next hrow => rw [← hlen, hrow, length_cons, length_cons, ih]

theorem add_mul_row_getLast_of_lt (hlen : zs.length + 1 < ds.length) : (add_mul_row yv zs ds).getLastD 0 = ds.getLastD 0 := by
  induction zs generalizing ds with
  | nil => simp [add_mul_row]
  | cons z zs ih =>
    match ds, hlen with
    | d :: d1 :: d2 :: ds, hlen =>
      have h1 : (add_mul_row yv zs ((add_mul d1 d yv z).1 :: d2 :: ds)).getLastD 0 = _ := ih (by simpa using hlen)
      have hne : add_mul_row yv zs ((add_mul d1 d yv z).1 :: d2 :: ds) ≠ [] :=
        ne_nil_of_length_pos (by rw [add_mul_row_length]; simp)
      rw [add_mul_row]
      dsimp only
      rw [getLastD_cons hne, h1]
      simp only [List.getLastD_cons]

theorem add_mul_row_getLast (hz : zs ≠ []) (hlen : ds.length = zs.length + 1) :
    (add_mul_row yv zs ds).getLastD 0 = word (ds.getLastD 0 + word (yv * zs.getLastD 0 / Base)) := by
  induction zs generalizing ds with
  | nil => exact absurd rfl hz
  | cons z zs ih =>
    match ds, zs, hlen with
    | [d, d1], [], _ => simp [add_mul_row, add_mul]
    | d :: d1 :: d2 :: ds, z1 :: zs, hlen =>
      have h1 : (add_mul_row yv (z1 :: zs) ((add_mul d1 d yv z).1 :: d2 :: ds)).getLastD 0 = _ := ih (by simp) (by simpa using hlen)
      have hne : add_mul_row yv (z1 :: zs) ((add_mul d1 d yv z).1 :: d2 :: ds) ≠ [] :=
        ne_nil_of_length_pos (by rw [add_mul_row_length]; simp)
      rw [add_mul_row]
      dsimp only
      rw [getLastD_cons hne, h1]
      simp only [List.getLastD_cons]

/-- The last word is the high word of the product of the last digits. -/
theorem add_mul_rows_getLast (hy : ys ≠ []) (hz : zs ≠ []) (hlen : ds.length = ys.length + zs.length) (hlast : ds.getLastD 0 = 0) :
    (add_mul_rows zs ys ds).getLastD 0 = word (word (ys.getLastD 0 * zs.getLastD 0 / Base)) := by
  induction ys generalizing ds with
  | nil => exact absurd rfl hy
  | cons y ys ih =>
    have hzlen := length_pos_of_ne_nil hz
    have hrowlen := add_mul_row_length y zs ds
    rw [length_cons] at hlen
    obtain ⟨e, es, hrow⟩ : ∃ e es, add_mul_row y zs ds = e :: es :=
      exists_cons_of_ne_nil (ne_nil_of_length_pos (by omega))
    have hes : es ≠ [] := by
      rintro rfl
      rw [hrow, length_singleton] at hrowlen
      omega
    have hlast' := getLastD_cons (d := e) hes
    have hrest : add_mul_rows zs ys es ≠ [] :=
      ne_nil_of_length_pos (by rw [add_mul_rows_length]; exact length_pos_of_ne_nil hes)
    rw [add_mul_rows, hrow]
    dsimp only
    rw [getLastD_cons hrest]
    by_cases hys : ys = []
    · subst hys
      rw [add_mul_rows, ← hlast', ← hrow, add_mul_row_getLast hz (by simpa [add_comm] using hlen), hlast, zero_add]
      rfl
    · have hlong := length_pos_of_ne_nil hys
      have hsame : (add_mul_row y zs ds).getLastD 0 = ds.getLastD 0 := add_mul_row_getLast_of_lt (by omega)
      rw [hrow, length_cons] at hrowlen
      rw [ih hys (by omega) (by rw [← hlast', ← hrow, hsame, hlast]), getLastD_cons hys]

end Product

section Multiply
variable {x y : AnyIntView} {v w : Int} {n : Nat}

section
variable (hx : x.Is v) (hy : y.Is w)
include hx hy

theorem Is.product (hsmall : x.size ≤ 256) :
    let ds := add_mul_rows y.digits x.digits (extend (x.size + y.size) [0])
    value Base ds = v * w ∧ Bounded (x.size * 2 ^ 53) ds ∧ ds.length = x.size + y.size ∧
      ds.getLastD 0 = x.top_word * y.top_word / Base := by
  have hx0 := hx.size_pos
  have hy0 := hy.size_pos
  have hext : extend (x.size + y.size) [0] = List.replicate (x.size + y.size) 0 := extend_zero (by omega)
  have hlen : (List.replicate (x.size + y.size) (0 : Int)).length = x.digits.length + y.digits.length := by simp [size]
  obtain ⟨h1, h2, h3⟩ := add_mul_rows_spec (M := 0) (balanced_bounded hx.normal.balanced) (balanced_bounded hy.normal.balanced)
    (bounded_zeros le_rfl _) ⟨le_rfl, by unfold size at hsmall; omega⟩ hlen.symm.le
  have hlast : (List.replicate (x.size + y.size) (0 : Int)).getLastD 0 = 0 := by
    rw [getLastD_eq_getLast?, getLast?_replicate]
    split <;> rfl
  have h4 := add_mul_rows_getLast hx.normal.ne_nil hy.normal.ne_nil hlen hlast
  dsimp only
  rw [hext]
  refine ⟨?_, by rwa [zero_add] at h2, by rw [h3, length_replicate], ?_⟩
  · rw [h1, value_replicate_zero, zero_add]
    exact congrArg₂ (· * ·) hx.toInt hy.toInt
  · obtain ⟨g1, g2, -⟩ := product_words (y := x.top_word) (z := y.top_word) ⟨hx.top_balanced.1, hx.top_balanced.2.le⟩
      ⟨hy.top_balanced.1, hy.top_balanced.2.le⟩
    rw [h4]
    unfold top_word at g1 g2 ⊢
    rw [word_eq (x := _ / Base) (by omega) (by omega), word_eq (by omega) (by omega)]

theorem Is.add_mul_eq : add_mul_any ⟨n, [0]⟩ x y =
    if x.size + y.size > n + 1 then ⟨n, []⟩
    else
      let ds := add_mul_rows y.digits x.digits (extend (x.size + y.size) [0])
      if x.size + y.size < n + 1 then ⟨n, ds⟩
      else if ds.getLastD 0 ≠ 0 ∧ ds.getLastD 0 ≠ -1 then ⟨n, []⟩ else ⟨n, add_top (word (ds.getLastD 0 * Base)) ds.dropLast⟩ := by
  rw [add_mul_any, hx.is_valid, hy.is_valid]
  rfl

theorem Is.add_mul (hsmall : x.size ≤ 256) (hroom : x.size + y.size ≤ n) :
    (add_mul_any ⟨n, [0]⟩ x y).Holds (v * w) ∧ Bounded (x.size * 2 ^ 53) (add_mul_any ⟨n, [0]⟩ x y).digits ∧
      (add_mul_any ⟨n, [0]⟩ x y).size = x.size + y.size ∧
      (add_mul_any ⟨n, [0]⟩ x y).top_word = x.top_word * y.top_word / Base := by
  obtain ⟨h1, h2, h3, h4⟩ := hx.product hy hsmall
  have hpos := hx.size_pos
  rw [hx.add_mul_eq hy, if_neg (by omega)]
  dsimp only
  rw [if_pos (by omega)]
  exact ⟨holds_digits (by omega) (by omega) (h2.mono (by omega)) h1, h2, h3, h4⟩

/-- A product with one word less, or too large for the words there are. -/
theorem Is.add_mul_cases (hsmall : x.size ≤ 256) (hxn : x.size ≤ n) (hyn : y.size ≤ n) :
    (add_mul_any ⟨n, [0]⟩ x y).Holds (v * w) ∨ (add_mul_any ⟨n, [0]⟩ x y).digits = [] ∧ Base ^ n ≤ 9 * |v * w| := by
  by_cases hroom : x.size + y.size ≤ n
  · exact .inl (hx.add_mul hy hsmall hroom).1
  have hx0 := hx.size_pos
  have hy0 := hy.size_pos
  have hbound : |x.top_word * y.top_word| * Base ^ (x.size - 1 + (y.size - 1)) ≤ 9 * |v * w| := by
    have hnonneg : 0 ≤ |y.top_word| * Base ^ (y.size - 1) := mul_nonneg (abs_nonneg _) (pow_nonneg base_nonneg _)
    have h3 := mul_le_mul hx.top_bound hy.top_bound hnonneg (by positivity)
    rw [abs_mul, abs_mul, pow_add]
    linarith
  rw [hx.add_mul_eq hy]
  by_cases hmore : x.size + y.size > n + 1
  · rw [if_pos hmore]
    refine .inr ⟨rfl, le_trans ?_ hbound⟩
    have hv : v ≠ 0 := by
      rintro rfl
      have := hx.size_zero
      omega
    have hw : w ≠ 0 := by
      rintro rfl
      have := hy.size_zero
      omega
    have h1 : 1 ≤ |x.top_word * y.top_word| := Int.one_le_abs (mul_ne_zero (hx.top_ne_zero hv) (hy.top_ne_zero hw))
    have h2 : Base ^ n ≤ Base ^ (x.size - 1 + (y.size - 1)) := pow_le_pow_right₀ (by decide) (by omega)
    have h3 := pow_pos base_pos (x.size - 1 + (y.size - 1))
    nlinarith
  · rw [if_neg hmore]
    obtain ⟨h1, h2, h3, h4⟩ := hx.product hy hsmall
    dsimp only
    rw [if_neg (by omega)]
    obtain ⟨es, t, hes⟩ : ∃ es t, add_mul_rows y.digits x.digits (extend (x.size + y.size) [0]) = es ++ [t] := by
      have hne : add_mul_rows y.digits x.digits (extend (x.size + y.size) [0]) ≠ [] := ne_nil_of_length_pos (by rw [h3]; omega)
      exact ⟨_, _, (dropLast_append_getLast hne).symm⟩
    rw [hes] at h1 h2 h3 h4 ⊢
    rw [getLastD_concat] at h4 ⊢
    rw [length_append, length_singleton] at h3
    rw [dropLast_concat]
    by_cases hhi : t ≠ 0 ∧ t ≠ -1
    · rw [if_pos hhi]
      refine .inr ⟨rfl, le_trans ?_ hbound⟩
      have hn : n = x.size - 1 + (y.size - 1) + 1 := by omega
      have habs : Base ≤ |x.top_word * y.top_word| := by
        rw [h4] at hhi
        generalize x.top_word * y.top_word = p at hhi
        simp only [Base] at *
        rcases abs_cases p with ⟨h, h'⟩ | ⟨h, h'⟩ <;> omega
      rw [hn, pow_succ, mul_comm]
      exact mul_le_mul_of_nonneg_right habs (pow_nonneg base_nonneg _)
    · rw [if_neg hhi]
      obtain ⟨fs, u, rfl⟩ : ∃ fs u, es = fs ++ [u] := by
        have hne : es ≠ [] := ne_nil_of_length_pos (by omega)
        exact ⟨_, _, (dropLast_append_getLast hne).symm⟩
      rw [length_append, length_singleton] at h3
      obtain ⟨hds, -⟩ := bounded_append.1 h2
      obtain ⟨hfs, hu⟩ := bounded_append.1 hds
      obtain ⟨hu, -⟩ := bounded_cons.1 hu
      have ht : t = 0 ∨ t = -1 := by omega
      have hM : x.size * 2 ^ 53 ≤ (2 : Int) ^ 61 := by omega
      have hw : word (u + word (t * Base)) = u + t * Base := by
        rcases ht with rfl | rfl
        · rw [show word (0 * Base) = 0 from rfl, word_eq (by omega) (by omega)]
          ring
        · rw [show word (-1 * Base) = -Base from rfl]
          simp only [Base]
          rw [word_eq (by omega) (by omega)]
          ring
      rw [add_top_append, hw]
      refine .inl (holds_digits (by simp) (by simp; omega) ?_ ?_)
      · refine bounded_append.2 ⟨hfs.mono (by omega), bounded_cons.2 ⟨?_, bounded_nil _⟩⟩
        simp only [Base]
        rcases ht with rfl | rfl <;> omega
      · rw [← h1]
        simp only [value_append, value_singleton, length_append, length_singleton, pow_succ]
        ring

end

end Multiply

end AnyIntView

/-! ## `refint.cpp` -/

namespace RefInt256

/-- `operator+`. -/
def add (x y : AnyIntView) : AnyIntView := (x.add_any y).normalize_bool_any

/-- `operator+` with a machine integer. -/
def add_long (x : AnyIntView) (y : Int) : AnyIntView := (x.add_tiny y).normalize_bool_any

def sub (x y : AnyIntView) : AnyIntView := (x.sub_any y).normalize_bool_any

def neg (x : AnyIntView) : AnyIntView := x.negate_any.normalize_bool_any

def mul (x y : AnyIntView) : AnyIntView := ((bigInt 257 [0]).add_mul_any x y).normalize_bool_any

/-- `operator*` with a machine integer. -/
def mul_long (x : AnyIntView) (y : Int) : AnyIntView := (x.mul_short_opt y).normalize_bool_any

section
variable {x y : AnyIntView} {v w t : Int} (hx : x.Is v) (hmax : x.max_size = 5)
include hx hmax

theorem add_computes (hy : y.Is w) (hroom : y.size ≤ 5) : Computes (add x y) (v + w) := by
  have h := hx.holds.accumulate (.inl rfl) (M := Half) (N := Half) (by decide) (by decide) (by decide)
    (AnyIntView.balanced_bounded hx.normal.balanced) hy.holds (AnyIntView.balanced_bounded hy.normal.balanced) (by omega)
  rw [one_mul] at h
  exact h.computes (by simp [hmax])

theorem sub_computes (hy : y.Is w) (hroom : y.size ≤ 5) : Computes (sub x y) (v - w) := by
  have h := hx.holds.accumulate (.inr rfl) (M := Half) (N := Half) (by decide) (by decide) (by decide)
    (AnyIntView.balanced_bounded hx.normal.balanced) hy.holds (AnyIntView.balanced_bounded hy.normal.balanced) (by omega)
  rw [neg_one_mul, ← sub_eq_add_neg] at h
  exact h.computes (by simp [hmax])

theorem neg_computes : Computes (neg x) (-v) := hx.negate.computes (by simp [hmax])

theorem add_long_computes (ht : -2 ^ 60 ≤ t ∧ t ≤ 2 ^ 60) : Computes (add_long x t) (v + t) := (hx.add_tiny ht).computes (by simp [hmax])

theorem mul_short_computes (ht : -Half ≤ t ∧ t ≤ Half) : Computes (x.mul_short t).normalize_bool_any (v * t) := by
  have hds : ∀ d ∈ x.digits, -(Base * 2 ^ 60) ≤ t * d ∧ t * d ≤ Base * 2 ^ 60 := by
    intro d hd
    have := hx.normal.balanced d hd
    simp only [Half, Base] at *
    constructor <;> nlinarith
  have hcases := hx.holds.mul_add_short_cases (y := t) (z := 0) (Z := 2 ^ 60) (by decide) (by decide) hds
  have hm := x.max_size_mul_add_short_any t 0
  rw [add_zero, mul_comm t] at hcases
  unfold AnyIntView.mul_short
  generalize x.mul_add_short_any t 0 = r at *
  obtain ⟨r, b⟩ := r
  rcases hcases with ⟨rfl, h⟩ | ⟨rfl, h⟩
  · exact h.computes (by rw [hm, hmax])
  · exact computes_nan (AnyIntView.normalize_nan rfl) fun hv => h (hmax ▸ hv.inRange)

theorem mul_long_computes (ht : -Half ≤ t ∧ t ≤ Half) : Computes (mul_long x t) (v * t) := by
  unfold mul_long AnyIntView.mul_short_opt
  split
  · next h => exact (hx.mul_tiny ⟨h.2, h.1⟩).computes (by simp [hmax])
  · exact mul_short_computes hx hmax ht

theorem mul_computes (hy : y.Is w) (hroom : y.size ≤ 5) : Computes (mul x y) (v * w) := by
  have hxroom := hx.room
  rcases hx.add_mul_cases (n := 5) hy (by omega) (by omega) hroom with h | ⟨hd, h⟩
  · exact h.computes (by simp)
  · refine computes_nan (AnyIntView.normalize_nan hd) fun hv => ?_
    obtain ⟨h1, h2⟩ := hv
    simp only [Base] at h
    rcases abs_cases (v * w) with ⟨h3, h4⟩ | ⟨h3, h4⟩ <;> omega

end

end RefInt256

end Ton.BigInt
