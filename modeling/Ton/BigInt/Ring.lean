import Ton.BigInt.Fits
/-!
# Sums and short products

The ring operations of `bigint.hpp` work digit by digit and leave the carries to
`normalize`. Each theorem says what number the digits stand for afterwards, and
that of `mul_add_short_any` also what holds when there is no room.
-/

namespace Ton.BigInt
open SignedDigits List Int

/-- `set_mul`: the high and the low word. -/
def set_mul (x y : Int) : Int × Int := (word (x * y / Base), x * y % Base)

namespace AnyIntView

/-- The loops of `add_any`, where `s` is `1`, and of `sub_any`, where it is `-1`. -/
def accumulate (s : Int) : List Int → List Int → List Int
  | xs, [] => xs
  | [], y :: ys => word (s * y) :: accumulate s [] ys
  | x :: xs, y :: ys => word (x + s * y) :: accumulate s xs ys

def accumulate_any (s : Int) (x y : AnyIntView) : AnyIntView :=
  if y.size ≤ x.size then
    if !y.is_valid then x.invalidate else { x with digits := accumulate s x.digits y.digits }
  else if !x.is_valid then x
  else if y.size > x.max_size then x.invalidate
  else { x with digits := accumulate s x.digits y.digits }

def add_any (x y : AnyIntView) : AnyIntView := accumulate_any 1 x y

def sub_any (x y : AnyIntView) : AnyIntView := accumulate_any (-1) x y

def negate_any (x : AnyIntView) : AnyIntView := { x with digits := x.digits.map fun d => word (-d) }

def mul_tiny_any (x : AnyIntView) (y : Int) : AnyIntView := { x with digits := x.digits.map fun d => word (d * y) }

/-- `add_tiny`. -/
def add_tiny (x : AnyIntView) (y : Int) : AnyIntView :=
  match x.digits with
  | [] => x
  | d :: ds => { x with digits := word (d + y) :: ds }

/-- The loop of `mul_add_short_any`: the digits and the last `z`. -/
def mul_add_digits (y : Int) : Int → List Int → List Int × Int
  | z, [] => ([], z)
  | z, d :: ds =>
    let (newc, d) := set_mul y d
    let (ds, last) := mul_add_digits y newc ds
    (word (d + z) :: ds, last)

/-- `digits[size() - 1] += c`. -/
def add_top (c : Int) : List Int → List Int
  | [] => []
  | [d] => [word (d + c)]
  | d :: ds => d :: add_top c ds

/-- `mul_add_short_any`: when it returns false, the second component, the number stays valid. -/
def mul_add_short_any (x : AnyIntView) (y z : Int) : AnyIntView × Bool :=
  if !x.is_valid then (x, false)
  else
    let (ds, z) := mul_add_digits y z x.digits
    if z = 0 then ({ x with digits := ds }, true)
    else if x.size < x.max_size then ({ x with digits := ds ++ [z] }, true)
    else
      let top := ds.getLastD 0
      let z := word (z + top / Base)
      let ds := ds.dropLast ++ [top % Base]
      if z = 0 ∨ z = -1 then ({ x with digits := add_top (word (z * Base)) ds }, true)
      else ({ x with digits := ds }, false)

/-- `mul_short`. -/
def mul_short (x : AnyIntView) (y : Int) : AnyIntView :=
  match x.mul_add_short_any y 0 with
  | (x, true) => x
  | (x, false) => x.invalidate

def mul_short_opt (x : AnyIntView) (y : Int) : AnyIntView :=
  if y ≤ MaxDenorm ∧ y ≥ -MaxDenorm then x.mul_tiny_any y else x.mul_short y

@[simp] theorem max_size_accumulate_any (s : Int) (x y : AnyIntView) : (accumulate_any s x y).max_size = x.max_size := by
  unfold accumulate_any
  split_ifs <;> rfl

@[simp] theorem max_size_negate_any (x : AnyIntView) : x.negate_any.max_size = x.max_size := rfl

@[simp] theorem max_size_mul_tiny_any (x : AnyIntView) (y : Int) : (x.mul_tiny_any y).max_size = x.max_size := rfl

@[simp] theorem max_size_add_tiny (x : AnyIntView) (y : Int) : (x.add_tiny y).max_size = x.max_size := by
  unfold add_tiny
  split <;> rfl

@[simp] theorem max_size_mul_add_short_any (x : AnyIntView) (y z : Int) : (x.mul_add_short_any y z).1.max_size = x.max_size := by
  unfold mul_add_short_any
  dsimp only
  split_ifs <;> rfl

/-! ## What the digits stand for -/

section Sums
variable {s M N : Int} {xs ys : List Int}

theorem accumulate_spec (hs : s = 1 ∨ s = -1) (hM : 0 ≤ M) (hN : 0 ≤ N) (hMN : M + N < 2 ^ 63) (hx : Bounded M xs) (hy : Bounded N ys) :
    value Base (accumulate s xs ys) = value Base xs + s * value Base ys ∧ Bounded (M + N) (accumulate s xs ys) ∧
      (accumulate s xs ys).length = max xs.length ys.length := by
  induction xs, ys using accumulate.induct with
  | case1 xs => simpa [accumulate] using hx.mono (by omega)
  | case2 y ys ih =>
    obtain ⟨hy1, hy2⟩ := bounded_cons.1 hy
    obtain ⟨h1, h2, h3⟩ := ih (bounded_nil M) hy2
    have hsy : -N ≤ s * y ∧ s * y ≤ N := by rcases hs with rfl | rfl <;> omega
    rw [accumulate, word_eq (by omega) (by omega)]
    refine ⟨?_, bounded_cons.2 ⟨by omega, h2⟩, by simp [h3]⟩
    rw [value_cons, h1, value_nil, value_cons]
    ring
  | case3 x xs y ys ih =>
    obtain ⟨hx1, hx2⟩ := bounded_cons.1 hx
    obtain ⟨hy1, hy2⟩ := bounded_cons.1 hy
    obtain ⟨h1, h2, h3⟩ := ih hx2 hy2
    have hsy : -N ≤ s * y ∧ s * y ≤ N := by rcases hs with rfl | rfl <;> omega
    rw [accumulate, word_eq (by omega) (by omega)]
    refine ⟨?_, bounded_cons.2 ⟨by omega, h2⟩, by simp [h3]⟩
    rw [value_cons, h1, value_cons, value_cons]
    ring

theorem accumulate_any_eq {x y : AnyIntView} (hx : x.digits ≠ []) (hy : y.digits ≠ []) (hroom : y.size ≤ x.max_size) :
    accumulate_any s x y = { x with digits := accumulate s x.digits y.digits } := by
  rw [accumulate_any, is_valid_iff.2 hx, is_valid_iff.2 hy]
  split
  · rfl
  · rw [if_neg (by simp), if_neg (by omega)]

theorem Holds.accumulate {x y : AnyIntView} {v w : Int} (hs : s = 1 ∨ s = -1) (hM : 0 ≤ M) (hN : 0 ≤ N) (hMN : M + N ≤ 2 ^ 62)
    (hx : x.Holds v) (hxM : Bounded M x.digits) (hy : y.Holds w) (hyN : Bounded N y.digits) (hroom : y.size ≤ x.max_size) :
    (accumulate_any s x y).Holds (v + s * w) := by
  obtain ⟨h1, h2, h3⟩ := accumulate_spec hs hM hN (by omega) hxM hyN
  have hlen := length_pos_of_ne_nil hx.ne_nil
  rw [accumulate_any_eq hx.ne_nil hy.ne_nil hroom]
  refine ⟨ne_nil_of_length_pos (by rw [h3]; omega), ?_, (h2.mono hMN).roomy, ?_⟩
  · rw [size, h3]
    exact max_le hx.room hroom
  · rw [AnyIntView.toInt, h1]
    exact congrArg₂ (· + s * ·) hx.toInt hy.toInt

end Sums

section Words
variable {M : Int} {ds : List Int}

/-- A function of each digit that multiplies it, with room for the product. -/
theorem map_mul_spec (c : Int) {f : Int → Int} (hf : ∀ d, f d = word (d * c)) (hM : M < 2 ^ 63) (hds : ∀ d ∈ ds, -M ≤ d * c ∧ d * c ≤ M) :
    value Base (ds.map f) = value Base ds * c ∧ Bounded M (ds.map f) := by
  have hmap : ds.map f = ds.map (· * c) := by
    apply map_congr_left
    intro d hd
    have := hds d hd
    rw [hf, word_eq (by omega) (by omega)]
  rw [hmap]
  refine ⟨value_map_mul Base c ds, ?_⟩
  intro d hd
  obtain ⟨e, he, rfl⟩ := mem_map.1 hd
  exact hds e he

variable {x : AnyIntView}

theorem Is.negate {v : Int} (hx : x.Is v) : x.negate_any.Holds (-v) := by
  have hb := hx.normal.balanced
  obtain ⟨h1, h2⟩ := map_mul_spec (M := Half) (-1) (f := fun d => word (-d)) (by simp) (by decide) fun d hd => by
    have := hb d hd
    omega
  refine ⟨by simpa [negate_any] using hx.normal.ne_nil, by simpa [negate_any, size] using hx.room, (h2.mono (show Half ≤ 2 ^ 62 by decide)).roomy, ?_⟩
  rw [AnyIntView.toInt, negate_any, h1, mul_neg_one]
  exact congrArg Neg.neg hx.toInt

theorem Is.mul_tiny {v y : Int} (hx : x.Is v) (hy : -MaxDenorm ≤ y ∧ y ≤ MaxDenorm) : (x.mul_tiny_any y).Holds (v * y) := by
  have hb := hx.normal.balanced
  obtain ⟨h1, h2⟩ := map_mul_spec (M := 2 ^ 62) y (f := fun d => word (d * y)) (fun _ => rfl) (by decide) fun d hd => by
    have := hb d hd
    simp only [Half, MaxDenorm] at *
    constructor <;> nlinarith
  refine ⟨by simpa [mul_tiny_any] using hx.normal.ne_nil, by simpa [mul_tiny_any, size] using hx.room, h2.roomy, ?_⟩
  rw [AnyIntView.toInt, mul_tiny_any, h1]
  exact congrArg (· * y) hx.toInt

theorem Is.add_tiny {v y : Int} (hx : x.Is v) (hy : -2 ^ 60 ≤ y ∧ y ≤ 2 ^ 60) : (x.add_tiny y).Holds (v + y) := by
  obtain ⟨hn, hv, hroom⟩ := hx
  rw [AnyIntView.add_tiny]
  cases hd : x.digits with
  | nil => exact absurd hd hn.ne_nil
  | cons d ds =>
    rw [hd] at hn
    obtain ⟨hd1, hds⟩ := balanced_cons.1 hn.balanced
    simp only [Half] at hd1
    dsimp only
    rw [word_eq (by omega) (by omega)]
    refine holds_digits (by simp) (by simpa [size, hd] using hroom) (bounded_cons.2 ⟨by omega, balanced_small hds⟩) ?_
    rw [← hv, AnyIntView.toInt, hd, value_cons, value_cons]
    ring

end Words

section Short

theorem add_top_append (c : Int) (es : List Int) (t : Int) : add_top c (es ++ [t]) = es ++ [word (t + c)] := by
  induction es with
  | nil => rfl
  | cons e es ih =>
    have h : ∃ a as, es ++ [t] = a :: as := exists_cons_of_ne_nil (by simp)
    obtain ⟨a, as, h⟩ := h
    rw [cons_append, h, add_top, ← h, ih, cons_append]
    simp

variable {x : AnyIntView} {v y z Z : Int} {ds : List Int}

theorem mul_add_digits_spec (hZ : Z ≤ 2 ^ 61) (hz : -Z ≤ z ∧ z ≤ Z) (hds : ∀ d ∈ ds, -(Base * Z) ≤ y * d ∧ y * d ≤ Base * Z) :
    value Base (mul_add_digits y z ds).1 + Base ^ ds.length * (mul_add_digits y z ds).2 = y * value Base ds + z ∧
      (∀ d ∈ (mul_add_digits y z ds).1, -Z ≤ d ∧ d < Base + Z) ∧ (mul_add_digits y z ds).1.length = ds.length ∧
        -Z ≤ (mul_add_digits y z ds).2 ∧ (mul_add_digits y z ds).2 ≤ Z := by
  induction ds generalizing z with
  | nil => simpa [mul_add_digits] using hz
  | cons d ds ih =>
    obtain ⟨hd, hds⟩ := forall_mem_cons.1 hds
    have hB := base_pos
    have hnew : -Z ≤ y * d / Base ∧ y * d / Base ≤ Z := by
      constructor
      · apply (Int.le_ediv_iff_mul_le hB).2
        linarith
      · apply le_of_lt_add_one
        apply (Int.ediv_lt_iff_lt_mul hB).2
        linarith
    have h0 := emod_nonneg (y * d) hB.ne'
    have h1 := emod_lt_of_pos (y * d) hB
    have h2 := emod_add_mul_ediv (y * d) Base
    have hlt : Base < 2 ^ 60 := by decide
    obtain ⟨g1, g2, g3, g4⟩ := ih hnew hds
    rw [mul_add_digits, set_mul]
    dsimp only
    rw [word_eq (x := y * d / Base) (by omega) (by omega), word_eq (by omega) (by omega)]
    refine ⟨?_, forall_mem_cons.2 ⟨by omega, g2⟩, by simp [g3], g4⟩
    rw [value_cons, length_cons, pow_succ, value_cons]
    linear_combination Base * g1 + h2

theorem not_inRange_carry {es : List Int} {t c : Int} (hZ : Z ≤ 2 ^ 61) (hes : ∀ d ∈ es, -Z ≤ d ∧ d < Base + Z)
    (ht : 0 ≤ t ∧ t < Base) (hc : c ≠ 0 ∧ c ≠ -1) :
    ¬InRange Base Half (es.length + 1) (value Base es + Base ^ es.length * (t + Base * c)) := by
  have h1 := value_le base_nonneg (M := Base + Z) fun d hd => (hes d hd).2.le
  have h2 := le_value base_nonneg (M := -Z) fun d hd => (hes d hd).1
  have h3 := ones_mul Base es.length
  have h4 := ones_nonneg base_nonneg es.length
  have h5 := ones_le_pow (show (2 : Int) ≤ Base by decide) es.length
  have h6 : ones Base (es.length + 1) = ones Base es.length + Base ^ es.length := by
    rw [ones_add]
    simp [ones]
  have hZ' : Z * ones Base es.length ≤ 2 ^ 61 * ones Base es.length := mul_le_mul_of_nonneg_right hZ h4
  have hpos := pow_pos base_pos es.length
  unfold InRange
  rw [h6]
  generalize ones Base es.length = n at *
  generalize Base ^ es.length = p at *
  simp only [Base, Half] at *
  rintro ⟨h7, h8⟩
  rcases lt_or_gt_of_ne hc.1 with hneg | hpos'
  · have h9 : t + 2 ^ 52 * c ≤ -2 ^ 52 - 1 := by omega
    have h10 := mul_le_mul_of_nonneg_left h9 hpos.le
    nlinarith
  · have h9 : 2 ^ 52 ≤ t + 2 ^ 52 * c := by omega
    have h10 := mul_le_mul_of_nonneg_left h9 hpos.le
    nlinarith

/-- The product has room, or it is too large for the words there are. -/
theorem Holds.mul_add_short_cases (hx : x.Holds v) (hZ : Z ≤ 2 ^ 61) (hz : -Z ≤ z ∧ z ≤ Z)
    (hds : ∀ d ∈ x.digits, -(Base * Z) ≤ y * d ∧ y * d ≤ Base * Z) :
    (x.mul_add_short_any y z).2 = true ∧ (x.mul_add_short_any y z).1.Holds (y * v + z) ∨
      (x.mul_add_short_any y z).2 = false ∧ ¬InRange Base Half x.max_size (y * v + z) := by
  obtain ⟨h1, h2, h3, h4⟩ := mul_add_digits_spec hZ hz hds
  rw [mul_add_short_any, is_valid_iff.2 hx.ne_nil]
  have hv : value Base x.digits = v := hx.toInt
  have hlen := length_pos_of_ne_nil hx.ne_nil
  have hroom := hx.room
  rw [hv] at h1
  dsimp only
  generalize (mul_add_digits y z x.digits).1 = es at *
  generalize (mul_add_digits y z x.digits).2 = c at *
  have hB : Base < 2 ^ 60 := by decide
  have hes : Small es := fun d hd => by have := h2 d hd; omega
  rw [if_neg (by simp)]
  by_cases hc : c = 0
  · subst hc
    rw [if_pos rfl]
    exact .inl ⟨rfl, holds_digits (by omega) (h3.trans_le hroom) hes (by simpa using h1)⟩
  · rw [if_neg hc]
    by_cases hlt : x.size < x.max_size
    · rw [if_pos hlt]
      refine .inl ⟨rfl, holds_digits (by simp) ?_ (bounded_append.2 ⟨hes, bounded_cons.2 ⟨by omega, bounded_nil _⟩⟩) ?_⟩
      · rw [length_append, h3]
        exact hlt
      · rw [value_append, value_singleton, h3, h1]
    · rw [if_neg hlt]
      obtain ⟨fs, t, rfl⟩ : ∃ fs t, es = fs ++ [t] := by
        have hne : es ≠ [] := ne_nil_of_length_pos (by omega)
        exact ⟨_, _, (dropLast_append_getLast hne).symm⟩
      simp only [length_append, length_singleton] at h3
      have hmax : x.max_size = fs.length + 1 := by unfold size at *; omega
      have ht := h2 t (by simp)
      have hsplit := emod_add_mul_ediv t Base
      have ht0 := emod_nonneg t base_pos.ne'
      have ht1 := emod_lt_of_pos t base_pos
      have hword : word (c + t / Base) = c + t / Base := by
        simp only [Base] at *
        exact word_eq (by omega) (by omega)
      have htotal : value Base fs + Base ^ fs.length * (t % Base + Base * (c + t / Base)) = y * v + z := by
        rw [← h1, value_append, value_singleton, ← h3, pow_succ]
        linear_combination Base ^ fs.length * hsplit
      simp only [getLastD_concat, dropLast_concat, hword]
      by_cases hcarry : c + t / Base = 0 ∨ c + t / Base = -1
      · rw [if_pos hcarry]
        have hw : word (word ((c + t / Base) * Base)) = (c + t / Base) * Base := by
          rcases hcarry with h | h <;> rw [h] <;> decide
        have hw' : word (t % Base + word ((c + t / Base) * Base)) = t % Base + Base * (c + t / Base) := by
          rcases hcarry with h | h <;> rw [h] at hw ⊢
          · rw [show word (0 * Base) = 0 from rfl, word_eq (by omega) (by omega)]
            ring
          · rw [show word (-1 * Base) = -Base from rfl, word_eq (by omega) (by omega)]
            ring
        rw [add_top_append, hw']
        refine .inl ⟨rfl, holds_digits (by simp) (by simp [hmax]) ?_ ?_⟩
        · refine bounded_append.2 ⟨(bounded_append.1 hes).1, bounded_cons.2 ⟨?_, bounded_nil _⟩⟩
          rcases hcarry with h | h <;> rw [h] <;> omega
        · rw [value_append, value_singleton, htotal]
      · rw [if_neg hcarry]
        refine .inr ⟨rfl, ?_⟩
        rw [hmax, ← htotal]
        exact not_inRange_carry hZ (fun d hd => h2 d (by simp [hd])) ⟨ht0, ht1⟩ (not_or.1 hcarry)

end Short

end AnyIntView

end Ton.BigInt
