import Ton.Lib.SignedDigits
/-!
# Integers of several words

`bigint.hpp`: an `AnyIntView` is a number in base `2 ^ 52` with signed digits, in
an array of `max_size` words of which the first `size()` are in use. With none
in use it is not a number. A word is an `Int` and `word` is what an assignment to
a `word_t` keeps; `w >> k` is `w / 2 ^ k` and `w & ((1 << k) - 1)` is `w % 2 ^ k`.
A function that returns false has made the number invalid, unless it says so.
-/

namespace Ton.BigInt
open SignedDigits List Int

/-- What a `word_t` keeps of a number. -/
def word (x : Int) : Int := (x + 2 ^ 63) % 2 ^ 64 - 2 ^ 63

def word_bits : Nat := 64
def word_shift : Nat := 52
def Base : Int := 2 ^ 52
def Half : Int := 2 ^ 51
def MaxDenorm : Int := 2 ^ 11

theorem base_eq : Base = 2 * Half := rfl

theorem half_pos : 0 < Half := by decide

theorem base_pos : 0 < Base := by decide

theorem base_nonneg : 0 ≤ Base := base_pos.le

theorem word_eq {x : Int} (h1 : -2 ^ 63 ≤ x) (h2 : x < 2 ^ 63) : word x = x := by
  unfold word
  omega

structure AnyIntView where
  max_size : Nat
  digits : List Int
  deriving DecidableEq

namespace AnyIntView

def size (x : AnyIntView) : Nat := x.digits.length

def is_valid (x : AnyIntView) : Bool := 0 < x.size

def invalidate (x : AnyIntView) : AnyIntView := { x with digits := [] }

/-- `operator=`. -/
def assign (x : AnyIntView) (y : Int) : AnyIntView := { x with digits := [y] }

/-- `while (size() < n) digits[inc_size()] = 0`. -/
def extend (n : Nat) (ds : List Int) : List Int := ds ++ List.replicate (n - ds.length) 0

def top_word (x : AnyIntView) : Int := x.digits.getLastD 0

def sgn (x : AnyIntView) : Int := if x.is_valid then x.top_word.sign else -2 ^ 31

/-- The second loop of `normalize_bool_any`: the digits and the last carry. -/
def norm_carry : Int → List Int → List Int × Int
  | val, [] => ([], val)
  | val, d :: ds =>
    let val := word (val + (d + Half))
    let (ds, last) := norm_carry (val / Base) ds
    ((val % Base - Half) :: ds, last)

/-- The first loop, which leaves the digits below the first one out of range. -/
def norm_digits : List Int → List Int × Int
  | [] => ([], 0)
  | d :: ds =>
    if d < Half ∧ d ≥ -Half then
      let (ds, last) := norm_digits ds
      (d :: ds, last)
    else norm_carry 0 (d :: ds)

/-- The words that the last carry takes, with room for some. -/
def norm_extend : Nat → Int → Option (List Int)
  | 0, val => if val = 0 then some [] else none
  | room + 1, val =>
    if val = 0 then some []
    else
      let val := word (val + Half)
      (norm_extend room (val / Base)).map fun ds => (val % Base - Half) :: ds

def normalize_bool_any (x : AnyIntView) : AnyIntView :=
  let (ds, val) := norm_digits x.digits
  match norm_extend (x.max_size - x.size) val with
  | some es => { x with digits := strip (ds ++ es) }
  | none => x.invalidate

/-- `-1` for less, `1` for greater. -/
def cmp_digits : List Int → List Int → Int
  | x :: xs, y :: ys =>
    let high := cmp_digits xs ys
    if high ≠ 0 then high else if x < y then -1 else if x > y then 1 else 0
  | _, _ => 0

def cmp_any (x y : AnyIntView) : Int :=
  if y.size < x.size then (if x.top_word < 0 then -1 else 1)
  else if y.size > x.size then (if y.top_word > 0 then -1 else 1)
  else cmp_digits x.digits y.digits

def eq_any (x y : AnyIntView) : Bool := if y.size ≠ x.size then false else x.digits = y.digits

/-- `set_any`: false, the second component, when words were lost. -/
def set_any (x y : AnyIntView) : AnyIntView × Bool :=
  if y.size ≤ x.max_size then ({ x with digits := y.digits }, true)
  else ({ x with digits := y.digits.take x.max_size }, false)

/-! ## The number a view stands for -/

def toInt (x : AnyIntView) : Int := value Base x.digits

/-- The view holds the digits of `v`. -/
structure Is (x : AnyIntView) (v : Int) : Prop where
  normal : Normal Half x.digits
  toInt : x.toInt = v
  room : x.size ≤ x.max_size

def Bounded (M : Int) (ds : List Int) : Prop := ∀ d ∈ ds, -M ≤ d ∧ d ≤ M

/-- Digits far from the ends of a word. -/
abbrev Small (ds : List Int) : Prop := Bounded (2 ^ 62) ds

/-- Digits that a carry leaves within a word. -/
def Roomy (ds : List Int) : Prop := ∀ d ∈ ds, -2 ^ 63 ≤ d ∧ d ≤ 2 ^ 62

/-- The view stands for `v`, with digits that need not be normalised. -/
structure Holds (x : AnyIntView) (v : Int) : Prop where
  ne_nil : x.digits ≠ []
  room : x.size ≤ x.max_size
  roomy : Roomy x.digits
  toInt : x.toInt = v

@[simp] theorem size_invalidate (x : AnyIntView) : x.invalidate.size = 0 := rfl

@[simp] theorem is_valid_invalidate (x : AnyIntView) : x.invalidate.is_valid = false := rfl

@[simp] theorem max_size_invalidate (x : AnyIntView) : x.invalidate.max_size = x.max_size := rfl

theorem is_valid_iff {x : AnyIntView} : x.is_valid = true ↔ x.digits ≠ [] := by
  rw [is_valid, decide_eq_true_iff, size, length_pos_iff]

theorem extend_zero {n : Nat} (hn : 0 < n) : extend n [0] = List.replicate n 0 := by
  obtain ⟨k, rfl⟩ := Nat.exists_eq_add_of_lt hn
  simp [extend, replicate_succ]

theorem value_extend (n : Nat) (ds : List Int) : value Base (extend n ds) = value Base ds := value_append_zeros Base ds _

theorem length_extend {n : Nat} {ds : List Int} (hn : ds.length ≤ n) : (extend n ds).length = n := by
  simp [extend, hn]

section Is
variable {x y : AnyIntView} {v w : Int}

theorem Is.is_valid (h : x.Is v) : x.is_valid = true := is_valid_iff.2 h.normal.ne_nil

theorem Is.size_pos (h : x.Is v) : 0 < x.size := h.normal.length_pos

theorem Is.digits_eq (hx : x.Is v) (hy : y.Is v) : x.digits = y.digits :=
  hx.normal.unique base_eq half_pos hy.normal (hx.toInt.trans hy.toInt.symm)

theorem Is.unique (hx : x.Is v) (hy : x.Is w) : v = w := hx.toInt.symm.trans hy.toInt

@[simp] theorem bounded_nil (M : Int) : Bounded M [] := fun _ hd => absurd hd not_mem_nil

variable {ds : List Int}

@[simp] theorem bounded_cons {M d : Int} : Bounded M (d :: ds) ↔ (-M ≤ d ∧ d ≤ M) ∧ Bounded M ds :=
  forall_mem_cons

@[simp] theorem bounded_append {M : Int} {ds es : List Int} : Bounded M (ds ++ es) ↔ Bounded M ds ∧ Bounded M es :=
  forall_mem_append

theorem bounded_zeros {M : Int} (hM : 0 ≤ M) (n : Nat) : Bounded M (List.replicate n 0) := by
  intro d hd
  rw [eq_of_mem_replicate hd]
  omega

theorem bounded_extend {M : Int} (hM : 0 ≤ M) (hd : Bounded M ds) (n : Nat) : Bounded M (extend n ds) :=
  bounded_append.2 ⟨hd, bounded_zeros hM _⟩

theorem Bounded.mono {M N : Int} (h : Bounded M ds) (hMN : M ≤ N) : Bounded N ds := by
  intro d hd
  have := h d hd
  omega

theorem Bounded.roomy (h : Small ds) : Roomy ds := by
  intro d hd
  have := h d hd
  omega

theorem holds_digits {n : Nat} {v : Int} (h0 : 0 < ds.length) (h1 : ds.length ≤ n) (h2 : Small ds)
    (h3 : value Base ds = v) : Holds ⟨n, ds⟩ v := ⟨ne_nil_of_length_pos h0, h1, h2.roomy, h3⟩

/-- The view stands for `v`, with digits that can be negated. -/
def HoldsSmall (x : AnyIntView) (v : Int) : Prop := x.Holds v ∧ Small x.digits

theorem holdsSmall_digits {n : Nat} {v : Int} (h0 : 0 < ds.length) (h1 : ds.length ≤ n) (h2 : Small ds)
    (h3 : value Base ds = v) : HoldsSmall ⟨n, ds⟩ v := ⟨holds_digits h0 h1 h2 h3, h2⟩

theorem balanced_bounded (h : Balanced Half ds) : Bounded Half ds := by
  intro d hd
  have := h d hd
  omega

theorem balanced_small (h : Balanced Half ds) : Small ds := (balanced_bounded h).mono (by decide)

theorem Is.small (h : x.Is v) : Small x.digits := balanced_small h.normal.balanced

theorem Is.inRange (h : x.Is v) : InRange Base Half x.size v := by
  rw [← h.toInt]
  exact h.normal.balanced.inRange base_nonneg

theorem Is.sgn_eq (h : x.Is v) : x.sgn = v.sign := by
  have hsign := h.normal.sign_getLast base_eq half_pos
  rw [sgn, if_pos h.is_valid, top_word, getLastD_eq_getLast?, getLast?_eq_getLast_of_ne_nil h.normal.ne_nil, Option.getD_some,
    ← hsign]
  exact congrArg Int.sign h.toInt

theorem Is.size_le (h : x.Is v) {n : Nat} (hn : 0 < n) (hr : InRange Base Half n v) : x.size ≤ n := by
  rw [← h.toInt] at hr
  exact h.normal.length_le_of_inRange base_eq half_pos hn hr

end Is

/-! ## Normalising -/

theorem norm_carry_spec {val : Int} {ds : List Int} (hval : -2 ^ 12 ≤ val ∧ val ≤ 2 ^ 12) (hds : Roomy ds) :
    Balanced Half (norm_carry val ds).1 ∧ (norm_carry val ds).1.length = ds.length ∧
      value Base (norm_carry val ds).1 + Base ^ ds.length * (norm_carry val ds).2 = val + value Base ds ∧
      -2 ^ 12 ≤ (norm_carry val ds).2 ∧ (norm_carry val ds).2 ≤ 2 ^ 12 := by
  induction ds generalizing val with
  | nil => simpa [norm_carry, balanced_nil] using hval
  | cons d ds ih =>
    replace hds := forall_mem_cons.1 hds
    have hw : word (val + (d + Half)) = val + d + Half := by
      rw [← add_assoc]
      exact word_eq (by simp only [Half]; omega) (by simp only [Half]; omega)
    have hcarry : -2 ^ 12 ≤ (val + d + Half) / Base ∧ (val + d + Half) / Base ≤ 2 ^ 12 := by
      simp only [Half, Base]
      omega
    obtain ⟨h1, h2, h3, h4⟩ := ih hcarry hds.2
    obtain ⟨⟨g1, g2⟩, g3⟩ := split_digit base_eq half_pos (val + d)
    simp only [norm_carry, hw]
    refine ⟨balanced_cons.2 ⟨⟨g1, g2⟩, h1⟩, by simp [h2], ?_, h4⟩
    rw [value_cons, length_cons, pow_succ, value_cons]
    linear_combination g3 + Base * h3

theorem norm_digits_spec {ds : List Int} (hds : Roomy ds) :
    Balanced Half (norm_digits ds).1 ∧ (norm_digits ds).1.length = ds.length ∧
      value Base (norm_digits ds).1 + Base ^ ds.length * (norm_digits ds).2 = value Base ds ∧
      -2 ^ 12 ≤ (norm_digits ds).2 ∧ (norm_digits ds).2 ≤ 2 ^ 12 := by
  induction ds with
  | nil => simp [norm_digits, balanced_nil]
  | cons d ds ih =>
    obtain ⟨h1, h2, h3, h4⟩ := ih (forall_mem_cons.1 hds).2
    rw [norm_digits]
    split
    · next hd =>
      refine ⟨balanced_cons.2 ⟨⟨hd.2, hd.1⟩, h1⟩, by simp [h2], ?_, h4⟩
      simp only [value_cons, length_cons, pow_succ]
      linear_combination Base * h3
    · have h := norm_carry_spec (show -2 ^ 12 ≤ (0 : Int) ∧ (0 : Int) ≤ 2 ^ 12 by norm_num) hds
      simpa using h

theorem norm_extend_spec {room : Nat} {val : Int} (hval : -2 ^ 12 ≤ val ∧ val ≤ 2 ^ 12) :
    match norm_extend room val with
    | some es => Balanced Half es ∧ value Base es = val ∧ es.length ≤ room
    | none => ¬InRange Base Half room val := by
  induction room generalizing val with
  | zero =>
    rw [norm_extend]
    by_cases h0 : val = 0
    · simp [h0, balanced_nil]
    · rw [if_neg h0]
      simp only [InRange, ones, mul_zero, neg_zero]
      omega
  | succ room ih =>
    rw [norm_extend]
    by_cases h0 : val = 0
    · simp [h0, balanced_nil]
    · rw [if_neg h0]
      have hw : word (val + Half) = val + Half := word_eq (by simp only [Half]; omega) (by simp only [Half]; omega)
      have hcarry : -2 ^ 12 ≤ (val + Half) / Base ∧ (val + Half) / Base ≤ 2 ^ 12 := by
        simp only [Half, Base]
        omega
      obtain ⟨⟨g1, g2⟩, g3⟩ := split_digit base_eq half_pos val
      have ih := ih hcarry
      simp only [hw]
      cases he : norm_extend room ((val + Half) / Base) with
      | some es =>
        rw [he] at ih
        obtain ⟨h1, h2, h3⟩ := ih
        exact ⟨balanced_cons.2 ⟨⟨g1, g2⟩, h1⟩, by rw [value_cons, h2, g3], by simpa using h3⟩
      | none =>
        rw [he] at ih
        rw [Option.map_none]
        dsimp only at ih ⊢
        rw [← g3]
        rwa [inRange_succ base_eq half_pos ⟨g1, g2⟩]

@[simp] theorem max_size_normalize (x : AnyIntView) : x.normalize_bool_any.max_size = x.max_size := by
  unfold normalize_bool_any
  dsimp only
  split <;> rfl

section Normalize
variable {x y : AnyIntView} {v : Int}

theorem Holds.normalize_cases (h : x.Holds v) : InRange Base Half x.max_size v ∧ x.normalize_bool_any.Is v ∨
    ¬InRange Base Half x.max_size v ∧ x.normalize_bool_any.digits = [] := by
  obtain ⟨hne, hroom, hs, rfl⟩ := h
  obtain ⟨h1, h2, h3, h4⟩ := norm_digits_spec hs
  have hext := @norm_extend_spec (x.max_size - x.size) _ h4
  have hsize : x.size + (x.max_size - x.size) = x.max_size := by omega
  have hlen : x.digits.length = x.size := rfl
  have hfull : ∀ es : List Int, value Base es = (norm_digits x.digits).2 →
      value Base ((norm_digits x.digits).1 ++ es) = x.toInt := by
    intro es hes
    rw [value_append, hes, h2, h3]
    rfl
  rw [normalize_bool_any]
  dsimp only
  cases he : norm_extend (x.max_size - x.size) (norm_digits x.digits).2 with
  | some es =>
    rw [he] at hext
    obtain ⟨g1, g2, g3⟩ := hext
    have hbal := balanced_append.2 ⟨h1, g1⟩
    have hlength : ((norm_digits x.digits).1 ++ es).length ≤ x.max_size := by
      rw [length_append, h2]
      omega
    have hne' : (norm_digits x.digits).1 ++ es ≠ [] := by
      intro e
      rw [append_eq_nil_iff] at e
      rw [e.1] at h2
      exact hne (length_eq_zero_iff.1 h2.symm)
    refine .inl ⟨?_, hbal.strip hne', ?_, (length_strip_le _).trans hlength⟩
    · exact hfull es g2 ▸ inRange_mono base_eq half_pos hlength (hbal.inRange base_nonneg)
    · exact (value_strip _ _).trans (hfull es g2)
  | none =>
    rw [he] at hext
    refine .inr ⟨fun hr => hext ?_, rfl⟩
    have hsum : x.toInt = value Base (norm_digits x.digits).1 + Base ^ (norm_digits x.digits).1.length * (norm_digits x.digits).2 := by
      rw [h2, h3]
      rfl
    rw [← inRange_append base_eq half_pos h1, ← hsum, h2, hlen, hsize]
    exact hr

theorem Holds.normalize (h : x.Holds v) (hr : InRange Base Half x.max_size v) : x.normalize_bool_any.Is v := by
  rcases h.normalize_cases with h | h
  · exact h.2
  · exact absurd hr h.1

theorem Holds.normalize_invalid (h : x.Holds v) (hr : ¬InRange Base Half x.max_size v) : x.normalize_bool_any.digits = [] := by
  rcases h.normalize_cases with h | h
  · exact absurd h.1 hr
  · exact h.2

/-- The digits of a number are found whatever the digits were before. -/
theorem Holds.normalize_unique (hx : x.Holds v) (hy : y.Holds v) (hmax : x.max_size = y.max_size) :
    x.normalize_bool_any.digits = y.normalize_bool_any.digits := by
  by_cases hr : InRange Base Half x.max_size v
  · exact (hx.normalize hr).digits_eq (hy.normalize (hmax ▸ hr))
  · rw [hx.normalize_invalid hr, hy.normalize_invalid (hmax ▸ hr)]

theorem Is.holds (h : x.Is v) : x.Holds v := ⟨h.normal.ne_nil, h.room, h.small.roomy, h.toInt⟩

theorem Is.normalize (h : x.Is v) : x.normalize_bool_any = x := by
  have hr : InRange Base Half x.max_size v := inRange_mono base_eq half_pos h.room h.inRange
  have hd := (h.holds.normalize hr).digits_eq h
  have hm := max_size_normalize x
  cases hx : x.normalize_bool_any
  rw [hx] at hd hm
  cases x
  cases hd
  cases hm
  rfl

theorem normalize_nan (h : x.digits = []) : x.normalize_bool_any.digits = [] := by
  have hext : norm_extend (x.max_size - x.size) 0 = some [] := by
    cases x.max_size - x.size <;> rfl
  simp [normalize_bool_any, h, norm_digits, hext, strip]

end Normalize

/-! ## Comparing -/

theorem cmp_digits_eq {xs ys : List Int} (hx : Balanced Half xs) (hy : Balanced Half ys) (hlen : xs.length = ys.length) :
    cmp_digits xs ys = (value Base xs - value Base ys).sign := by
  induction xs generalizing ys with
  | nil =>
    obtain rfl : ys = [] := length_eq_zero_iff.1 hlen.symm
    rfl
  | cons x xs ih =>
    cases ys with
    | nil => simp at hlen
    | cons y ys =>
      rw [balanced_cons] at hx hy
      rw [cmp_digits, ih hx.2 hy.2 (by simpa using hlen), value_cons, value_cons]
      have h1 := hx.1
      have h2 := hy.1
      rcases lt_trichotomy (value Base xs) (value Base ys) with hlt | heq | hgt
      · rw [sign_eq_neg_one_of_neg (by omega), sign_eq_neg_one_of_neg]
        · simp
        · simp only [Base, Half] at *
          omega
      · rw [heq, Int.sub_self, Int.sign_zero]
        rcases lt_trichotomy x y with hlt | rfl | hgt
        · rw [sign_eq_neg_one_of_neg (by omega)]
          simp [hlt]
        · simp
        · rw [sign_eq_one_of_pos (by omega)]
          simp [hgt, hgt.le]
      · rw [sign_eq_one_of_pos (by omega), sign_eq_one_of_pos]
        · simp
        · simp only [Base, Half] at *
          omega

section
variable {x y : AnyIntView} {v w : Int} (hx : x.Is v) (hy : y.Is w)
include hx hy

/-- The larger number of digits stands for the number further from zero. -/
theorem Is.lt_of_size_lt (hlt : y.size < x.size) :
    x.top_word ≠ 0 ∧ (x.top_word < 0 → v < w) ∧ (0 < x.top_word → w < v) := by
  obtain ⟨es, t, hxs, -, hbal, -, ht⟩ := hx.normal.exists_append (Nat.lt_of_le_of_lt hy.size_pos hlt)
  have htop : x.top_word = t := by rw [top_word, hxs, getLastD_concat]
  have hv : value Base (es ++ [t]) = v := hxs ▸ hx.toInt
  have hw := hy.inRange
  have hlen : y.size ≤ es.length := by
    have := congrArg List.length hxs
    rw [length_append, length_singleton] at this
    unfold size at hlt
    unfold size
    omega
  have hout := not_inRange_append base_eq half_pos hbal ht hlen
  have hpos := value_append_pos_iff base_eq half_pos hbal ht
  have hones := ones_nonneg base_nonneg y.size
  rw [hv] at hout hpos
  rw [htop]
  simp only [InRange, Half] at hout hw
  refine ⟨ht, fun hneg => ?_, fun hp => ?_⟩
  · by_contra hle
    have : ¬0 < v := fun hc => by have := hpos.1 hc; omega
    exact hout ⟨by omega, by omega⟩
  · by_contra hle
    have := hpos.2 hp
    exact hout ⟨by omega, by omega⟩

theorem Is.cmp_eq : x.cmp_any y = (v - w).sign := by
  rw [cmp_any]
  by_cases h1 : y.size < x.size
  · obtain ⟨h0, hneg, hpos⟩ := hx.lt_of_size_lt hy h1
    rw [if_pos h1]
    split
    · next ht => rw [sign_eq_neg_one_of_neg (by have := hneg ht; omega)]
    · rw [sign_eq_one_of_pos (by have := hpos (by omega); omega)]
  · rw [if_neg h1]
    by_cases h2 : y.size > x.size
    · obtain ⟨h0, hneg, hpos⟩ := hy.lt_of_size_lt hx h2
      rw [if_pos h2]
      split
      · next ht => rw [sign_eq_neg_one_of_neg (by have := hpos ht; omega)]
      · rw [sign_eq_one_of_pos (by have := hneg (by omega); omega)]
    · rw [if_neg h2, cmp_digits_eq hx.normal.balanced hy.normal.balanced (by unfold size at h1 h2; omega)]
      rw [← hx.toInt, ← hy.toInt]
      rfl

theorem Is.eq_iff : x.eq_any y = true ↔ v = w := by
  have hdigits : x.digits = y.digits ↔ v = w := by
    constructor
    · intro e
      rw [← hx.toInt, ← hy.toInt, AnyIntView.toInt, e]
      rfl
    · rintro rfl
      exact hx.digits_eq hy
  rw [eq_any]
  split
  · next hne =>
    simp only [Bool.false_eq_true, false_iff]
    intro e
    exact hne (congrArg List.length (hdigits.2 e)).symm
  · simpa using hdigits

end

/-! ## The last word -/

section Top
variable {x : AnyIntView} {v : Int}

theorem top_word_eq (hx : x.digits ≠ []) : ∃ es, x.digits = es ++ [x.top_word] ∧ x.size = es.length + 1 := by
  refine ⟨x.digits.dropLast, ?_, ?_⟩
  · conv_lhs => rw [← dropLast_append_getLast hx]
    rw [top_word, getLastD_eq_getLast?, getLast?_eq_getLast_of_ne_nil hx, Option.getD_some]
  · have := length_pos_of_ne_nil hx
    rw [length_dropLast, size]
    omega

theorem Is.top_bound (hx : x.Is v) : |x.top_word| * Base ^ (x.size - 1) ≤ 3 * |v| := by
  by_cases hlen : 1 < x.size
  · obtain ⟨es, t, hd, -, hbal, -, ht⟩ := hx.normal.exists_append hlen
    obtain ⟨h1, h2⟩ := value_append_bounds base_eq half_pos t hbal
    have hv : value Base (es ++ [t]) = v := by rw [← hd]; exact hx.toInt
    have htop : x.top_word = t := by rw [top_word, hd, getLastD_concat]
    have hsize : x.size - 1 = es.length := by simp [size, hd]
    have h3 := ones_mul Base es.length
    have h4 := ones_nonneg base_nonneg es.length
    have hpos := pow_pos base_pos es.length
    rw [hv] at h1 h2
    rw [htop, hsize]
    generalize ones Base es.length = o at *
    generalize Base ^ es.length = p at *
    simp only [Base, Half] at *
    rcases lt_or_gt_of_ne ht with hneg | hpos'
    · have hmul := mul_le_mul_of_nonneg_right (show t ≤ -1 by omega) hpos.le
      rw [abs_of_neg hneg, abs_of_neg (by nlinarith)]
      nlinarith
    · have hmul := mul_le_mul_of_nonneg_right (show 1 ≤ t from hpos') hpos.le
      rw [abs_of_pos hpos', abs_of_pos (by nlinarith)]
      nlinarith
  · have hone : x.size = 1 := by have := hx.size_pos; omega
    obtain ⟨d, hd⟩ := length_eq_one_iff.1 hone
    have hv : x.toInt = d := by simp [AnyIntView.toInt, hd]
    rw [hone, ← hx.toInt, hv, top_word, hd]
    simp only [List.getLastD_cons, getLastD_nil, Nat.sub_self, pow_zero, mul_one]
    have := abs_nonneg d
    omega

theorem Is.top_ne_zero (hx : x.Is v) (hv : v ≠ 0) : x.top_word ≠ 0 := by
  have h := hx.sgn_eq
  rw [sgn, if_pos hx.is_valid] at h
  intro h0
  rw [h0, Int.sign_zero, eq_comm, sign_eq_zero_iff_zero] at h
  exact hv h

theorem Is.top_balanced (hx : x.Is v) : -Half ≤ x.top_word ∧ x.top_word < Half := by
  obtain ⟨es, hd, -⟩ := top_word_eq hx.normal.ne_nil
  exact hx.normal.balanced _ (by rw [hd]; simp)

theorem Is.size_zero (hx : x.Is 0) : x.size = 1 := by
  have h1 := hx.size_le (n := 1) one_pos (by decide)
  have h2 := hx.size_pos
  omega

end Top

end AnyIntView

/-! ## `BigIntG` -/

/-- The words of a `BigIntG<len>`. -/
def word_cnt (len : Nat) : Nat := len / word_shift + 1

/-- `BigIntG<len>` with these words in use. -/
def bigInt (len : Nat) (digits : List Int) : AnyIntView := ⟨word_cnt len, digits⟩

/-- The numbers of 257 bits. -/
def Fits257 (v : Int) : Prop := -2 ^ 256 ≤ v ∧ v < 2 ^ 256

instance (v : Int) : Decidable (Fits257 v) := inferInstanceAs (Decidable (_ ∧ _))

theorem Fits257.inRange {v : Int} (h : Fits257 v) : InRange Base Half 5 v := by
  obtain ⟨h1, h2⟩ := h
  simp only [InRange, ones, Base, Half]
  omega

/-- A `BigInt256` that is not a number. -/
def nan : AnyIntView := bigInt 257 []

/-- The normalised `BigInt256` of a number, if it has 257 bits. -/
def refint (v : Int) : AnyIntView := if Fits257 v then bigInt 257 (SignedDigits.digits Base Half 5 v) else nan

theorem refint_is {v : Int} (h : Fits257 v) : (refint v).Is v := by
  obtain ⟨h1, h2, h3⟩ := digits_spec base_eq half_pos (Nat.succ_pos 4) h.inRange
  rw [refint, if_pos h]
  exact ⟨h1, h2, h3⟩

theorem refint_nan {v : Int} (h : ¬Fits257 v) : refint v = nan := if_neg h

theorem AnyIntView.Is.eq_refint {x : AnyIntView} {v : Int} (hx : x.Is v) (h : Fits257 v) (hmax : x.max_size = 5) : x = refint v := by
  have hd := hx.digits_eq (refint_is h)
  rw [refint, if_pos h] at hd ⊢
  cases x
  cases hmax
  cases hd
  rfl

/-- A normalised `BigInt256` with a number of 257 bits. -/
structure Int257 where
  digits : List Int
  normal : Normal Half digits
  fits : Fits257 (value Base digits)

namespace Int257

def toInt (x : Int257) : Int := value Base x.digits

def view (x : Int257) : AnyIntView := bigInt 257 x.digits

theorem is (x : Int257) : x.view.Is x.toInt := by
  refine ⟨x.normal, rfl, ?_⟩
  exact x.normal.length_le_of_inRange base_eq half_pos (Nat.succ_pos 4) x.fits.inRange

theorem view_eq (x : Int257) : x.view = refint x.toInt := x.is.eq_refint x.fits rfl

/-- The digits of a number. -/
def ofInt (v : Int) (h : Fits257 v) : Int257 :=
  ⟨(refint v).digits, (refint_is h).normal, by
    rw [show value Base (refint v).digits = v from (refint_is h).toInt]
    exact h⟩

@[simp] theorem toInt_ofInt {v : Int} (h : Fits257 v) : (ofInt v h).toInt = v := (refint_is h).toInt

end Int257

end Ton.BigInt
