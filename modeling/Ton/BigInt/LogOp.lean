import Ton.BigInt.Fits
import Ton.Lib.Bitwise
/-!
# Bitwise operations

`log_op_any` turns the signed digits of its operands into two's complement ones
and the result back, with a carry for each of the three. What is left of the
carries after the last digit belongs above it. With the longer operand first
there may be a word for it; with the shorter one first there never is.
-/

namespace Ton.BigInt
open SignedDigits List
open Prod (fst snd)

inductive LogOp where
  | And
  | Or
  | Xor
  deriving DecidableEq

namespace LogOp

def op : LogOp → Int → Int → Int
  | And => Int.land
  | Or => Int.lor
  | Xor => Int.xor

def neutral : LogOp → Int
  | And => -1
  | Or => 0
  | Xor => 0

def zero : LogOp → Int
  | And => 0
  | Or => -1
  | Xor => -1

def has_zero : LogOp → Bool
  | And => true
  | Or => true
  | Xor => false

def bit : LogOp → Bool → Bool → Bool
  | And => and
  | Or => or
  | Xor => xor

theorem bitwise (L : LogOp) : Bitwise L.bit L.op := by
  cases L with
  | And => exact Bitwise.land
  | Or => exact Bitwise.lor
  | Xor => exact Bitwise.xor

theorem neutral_op (L : LogOp) (w : Int) : L.op L.neutral w = w := by
  cases L with
  | And => exact Bitwise.land.all_left (a := true) (by simp) w
  | Or => exact Bitwise.lor.all_left (a := false) (by simp) w
  | Xor => exact Bitwise.xor.all_left (a := false) (by simp) w

theorem op_neutral (L : LogOp) (v : Int) : L.op v L.neutral = v := by
  cases L with
  | And => exact Bitwise.land.all_right (a := true) (by simp) v
  | Or => exact Bitwise.lor.all_right (a := false) (by simp) v
  | Xor => exact Bitwise.xor.all_right (a := false) (by simp) v

theorem zero_op {L : LogOp} (h : L.has_zero) (w : Int) : L.op L.zero w = L.zero := by
  cases L with
  | And => exact Bitwise.land.const_left (a := false) (e := false) (by simp) w
  | Or => exact Bitwise.lor.const_left (a := true) (e := true) (by simp) w
  | Xor => cases h

theorem op_zero {L : LogOp} (h : L.has_zero) (v : Int) : L.op v L.zero = L.zero := by
  cases L with
  | And => exact Bitwise.land.const_right (a := false) (e := false) (by simp) v
  | Or => exact Bitwise.lor.const_right (a := true) (e := true) (by simp) v
  | Xor => cases h

end LogOp

/-- The variables `cx`, `cy` and `cz`. -/
structure Carries where
  cx : Int
  cy : Int
  cz : Int

/-- The carries between two digits. -/
structure Carries.Good (c : Carries) : Prop where
  cx : c.cx = 0 ∨ c.cx = -1
  cy : c.cy = 0 ∨ c.cy = -1
  cz : c.cz = 0 ∨ c.cz = 1

theorem Carries.good_zero : Carries.Good ⟨0, 0, 0⟩ := ⟨.inl rfl, .inl rfl, .inl rfl⟩

theorem Carries.Good.rest {c : Carries} (hc : c.Good) (L : LogOp) : word (c.cz + L.op c.cx c.cy) = c.cz + L.op c.cx c.cy ∧
    -1 ≤ c.cz + L.op c.cx c.cy ∧ c.cz + L.op c.cx c.cy ≤ 1 := by
  have := L.bitwise.sign hc.cx hc.cy
  have := hc.cz
  exact ⟨word_eq (by omega) (by omega), by omega, by omega⟩

namespace AnyIntView

variable (L : LogOp)

/-- One pass of the loops: the digit of the result, and the carries. -/
def log_digit (c : Carries) (x y : Int) : Int × Carries :=
  let cx := word (c.cx + x)
  let cy := word (c.cy + y)
  let cz := word (c.cz + (L.op cx cy % Base + Half))
  (cz % Base - Half, ⟨cx / Base, cy / Base, cz / Base⟩)

def log_digits : Carries → List (Int × Int) → List Int × Carries
  | c, [] => ([], c)
  | c, (x, y) :: xys =>
    let (d, c) := log_digit L c x y
    let (ds, c) := log_digits c xys
    (d :: ds, c)

/-- The digits of two numbers, zeros where one of them has no more. -/
def pairs : List Int → List Int → List (Int × Int)
  | xs, [] => xs.map fun x => (x, 0)
  | [], ys => ys.map fun y => (0, y)
  | x :: xs, y :: ys => (x, y) :: pairs xs ys

/-- The last loop, over the words there is no room for: none of them may be needed. -/
def log_rest : Carries → List Int → Option Carries
  | c, [] => some c
  | c, y :: ys =>
    let cy := word (c.cy + y)
    let cz := word (c.cz + L.op c.cx cy % Base)
    if cz % Base ≠ 0 then none else log_rest ⟨c.cx / Base, cy / Base, cz / Base⟩ ys

/-- `log_op_any` for operands that no shortcut is for. -/
def log_op_loops (x y : AnyIntView) : AnyIntView :=
  if y.size ≤ x.size then
    if !y.is_valid then x.invalidate
    else
      let (ds, c) := log_digits L ⟨0, 0, 0⟩ (pairs x.digits y.digits)
      let cz := word (c.cz + L.op c.cx c.cy)
      if cz ≠ 0 then
        if x.size ≥ x.max_size then x.invalidate else { x with digits := ds ++ [cz] }
      else { x with digits := strip ds }
  else if !x.is_valid then x
  else
    let (ds, c) := log_digits L ⟨0, 0, 0⟩ ((pairs x.digits y.digits).take x.max_size)
    match log_rest L c (y.digits.drop x.max_size) with
    | none => x.invalidate
    | some c =>
      let cz := word (c.cz + L.op c.cx c.cy)
      if cz ≠ 0 then x.invalidate else { x with digits := strip ds }

def log_op_any (x y : AnyIntView) : AnyIntView :=
  if L.has_zero ∧ x.digits = [L.zero] then x
  else if x.digits = [L.neutral] then
    if y.size ≤ x.max_size then { x with digits := y.digits } else x.invalidate
  else if L.has_zero ∧ y.digits = [L.zero] then { x with digits := [L.zero] }
  else if y.digits = [L.neutral] then x
  else log_op_loops L x y

/-- `logical_not`. -/
def logical_not (x : AnyIntView) : AnyIntView :=
  match x.digits with
  | [] => x
  | d :: ds => { x with digits := (-d - 1) :: ds.map fun d => word (-d) }

/-! ## The digits of the result -/

section
variable {L}

theorem log_digit_spec {c : Carries} (hc : c.Good) {x y : Int} (hx : -Half ≤ x ∧ x < Half) (hy : -Half ≤ y ∧ y < Half) (X Y : Int) :
    let r := log_digit L c x y
    (-Half ≤ r.1 ∧ r.1 < Half) ∧ r.2.Good ∧
      r.1 + Base * (r.2.cz + L.op (r.2.cx + X) (r.2.cy + Y)) = c.cz + L.op (c.cx + (x + Base * X)) (c.cy + (y + Base * Y)) := by
  obtain ⟨hcx, hcy, hcz⟩ := hc
  have hwx : word (c.cx + x) = c.cx + x := by
    simp only [Half] at hx
    exact word_eq (by omega) (by omega)
  have hwy : word (c.cy + y) = c.cy + y := by
    simp only [Half] at hy
    exact word_eq (by omega) (by omega)
  have h0 := Int.emod_nonneg (L.op (c.cx + x) (c.cy + y)) base_pos.ne'
  have h1 := Int.emod_lt_of_pos (L.op (c.cx + x) (c.cy + y)) base_pos
  have hwz : word (c.cz + (L.op (c.cx + x) (c.cy + y) % Base + Half)) = c.cz + L.op (c.cx + x) (c.cy + y) % Base + Half := by
    rw [← add_assoc]
    simp only [Base, Half] at *
    exact word_eq (by omega) (by omega)
  obtain ⟨g1, g2⟩ := split_digit base_eq half_pos (c.cz + L.op (c.cx + x) (c.cy + y) % Base)
  have hsplit := L.bitwise.split 52 (c.cx + x) (c.cy + y) X Y
  rw [show (2 : Int) ^ 52 = Base from rfl] at hsplit
  unfold log_digit
  dsimp only
  rw [hwx, hwy, hwz]
  refine ⟨g1, ⟨?_, ?_, ?_⟩, ?_⟩
  · simp only [Half, Base] at *
    omega
  · simp only [Half, Base] at *
    omega
  · simp only [Half, Base] at *
    omega
  · rw [← add_assoc, ← add_assoc, hsplit, mul_add]
    linarith

theorem log_digits_spec {c : Carries} (hc : c.Good) {xys : List (Int × Int)} (hx : Balanced Half (xys.map fst))
    (hy : Balanced Half (xys.map snd)) :
    let r := log_digits L c xys
    Balanced Half r.1 ∧ r.1.length = xys.length ∧ r.2.Good ∧
      value Base r.1 + Base ^ xys.length * (r.2.cz + L.op r.2.cx r.2.cy) =
        c.cz + L.op (c.cx + value Base (xys.map fst)) (c.cy + value Base (xys.map snd)) := by
  induction xys generalizing c with
  | nil => simpa [log_digits, balanced_nil] using hc
  | cons xy xys ih =>
    obtain ⟨x, y⟩ := xy
    rw [map_cons, balanced_cons] at hx hy
    obtain ⟨h1, h2, h3⟩ := log_digit_spec (L := L) hc hx.1 hy.1 (value Base (xys.map fst)) (value Base (xys.map snd))
    obtain ⟨g1, g2, g3, g4⟩ := ih h2 hx.2 hy.2
    rw [log_digits]
    dsimp only
    refine ⟨balanced_cons.2 ⟨h1, g1⟩, by simp [g2], g3, ?_⟩
    rw [value_cons, length_cons, pow_succ, map_cons, map_cons, value_cons, value_cons, ← h3, ← g4]
    ring

theorem pairs_spec (xs ys : List Int) : (pairs xs ys).length = max xs.length ys.length ∧
    value Base ((pairs xs ys).map fst) = value Base xs ∧ value Base ((pairs xs ys).map snd) = value Base ys ∧
    (Balanced Half xs → Balanced Half ((pairs xs ys).map fst)) ∧ (Balanced Half ys → Balanced Half ((pairs xs ys).map snd)) := by
  have hzeros : ∀ n, Balanced Half (List.replicate n 0) := by
    intro n d hd
    rw [eq_of_mem_replicate hd]
    decide
  induction xs, ys using pairs.induct with
  | case1 xs => simp [pairs, Function.comp_def, map_const', hzeros]
  | case2 ys hne => simp [pairs, Function.comp_def, map_const', hzeros]
  | case3 x xs y ys ih =>
    obtain ⟨h1, h2, h3, h4, h5⟩ := ih
    simp only [pairs, length_cons, map_cons, value_cons, balanced_cons, h1, h2, h3]
    refine ⟨by omega, trivial, trivial, fun h => ⟨h.1, h4 h.2⟩, fun h => ⟨h.1, h5 h.2⟩⟩

theorem balanced_zero (L : LogOp) : -Half ≤ L.zero ∧ L.zero < Half := by cases L <;> decide

variable {x y : AnyIntView} {v w : Int}

/-- The loops with as many passes as the longer operand has digits. -/
theorem log_digits_pairs (hx : x.Is v) (hy : y.Is w) :
    let r := log_digits L ⟨0, 0, 0⟩ (pairs x.digits y.digits)
    Balanced Half r.1 ∧ r.1.length = max x.size y.size ∧ r.2.Good ∧
      value Base r.1 + Base ^ r.1.length * (r.2.cz + L.op r.2.cx r.2.cy) = L.op v w := by
  obtain ⟨h1, h2, h3, h4, h5⟩ := pairs_spec x.digits y.digits
  obtain ⟨g1, g2, g3, g4⟩ := log_digits_spec (L := L) Carries.good_zero (h4 hx.normal.balanced) (h5 hy.normal.balanced)
  dsimp only
  refine ⟨g1, g2.trans h1, g3, ?_⟩
  rw [g2, g4, h2, h3, zero_add, zero_add, zero_add]
  exact congrArg₂ L.op hx.toInt hy.toInt

theorem fits_iff_no_rest {ds : List Int} {c : Int} (hd : Balanced Half ds) :
    InRange Base Half ds.length (value Base ds + Base ^ ds.length * c) ↔ c = 0 := by
  have h := inRange_append (n := 0) (c := c) base_eq half_pos hd
  rw [add_zero] at h
  rw [h]
  simp only [InRange, ones, mul_zero, neg_zero]
  omega

theorem Is.log_op_shortcut (hx : x.Is v) (hy : y.Is w) (hroom : y.size ≤ x.max_size) :
    (x.log_op_any L y).Is (L.op v w) ∧ (x.log_op_any L y).size ≤ max x.size y.size ∨ x.log_op_any L y = x.log_op_loops L y := by
  have hone : ∀ {z : AnyIntView} {u d : Int}, z.Is u → z.digits = [d] → u = d := by
    intro z u d hz hd
    rw [← hz.toInt, AnyIntView.toInt, hd, value_singleton]
  have hx0 := hx.size_pos
  have hroom' := hx.room
  unfold log_op_any
  split
  · next h =>
    rw [hone hx h.2, L.zero_op h.1, ← hone hx h.2]
    exact .inl ⟨hx, le_max_left _ _⟩
  split
  · next h =>
    rw [hone hx h, L.neutral_op]
    exact .inl ⟨⟨hy.normal, hy.toInt, hroom⟩, le_max_right _ _⟩
  split
  · next h =>
    rw [hone hy h.2, L.op_zero h.1]
    refine .inl ⟨⟨normal_singleton.2 (balanced_zero L), value_singleton .., ?_⟩, ?_⟩
    · exact hx0.trans_le hroom'
    · exact le_max_of_le_left hx0
  split
  · next h =>
    rw [hone hy h, L.op_neutral]
    exact .inl ⟨hx, le_max_left _ _⟩
  · exact .inr rfl

/-- With the longer operand first there is a word for the last carry, if there is one at all. -/
theorem Is.log_op_of_le (hx : x.Is v) (hy : y.Is w) (hle : y.size ≤ x.size) (hr : InRange Base Half x.max_size (L.op v w)) :
    (x.log_op_any L y).Is (L.op v w) := by
  rcases hx.log_op_shortcut (L := L) hy (hle.trans hx.room) with ⟨h, -⟩ | h
  · exact h
  rw [h]
  obtain ⟨h1, h2, h3, h4⟩ := log_digits_pairs (L := L) hx hy
  obtain ⟨g1, g2⟩ := h3.rest L
  have hx0 := hx.size_pos
  have hroom := hx.room
  rw [max_eq_left hle] at h2
  unfold log_op_loops
  rw [if_pos hle, hy.is_valid, if_neg (by simp)]
  dsimp only
  generalize (log_digits L ⟨0, 0, 0⟩ (pairs x.digits y.digits)).1 = ds at *
  generalize (log_digits L ⟨0, 0, 0⟩ (pairs x.digits y.digits)).2 = c at *
  have hne : ds ≠ [] := ne_nil_of_length_pos (by omega)
  rw [g1]
  by_cases hcz : c.cz + L.op c.cx c.cy = 0
  · rw [if_neg (not_not.2 hcz)]
    rw [hcz, mul_zero, add_zero] at h4
    exact ⟨h1.strip hne, (value_strip _ _).trans h4, (length_strip_le _).trans (h2.trans_le hroom)⟩
  · have hlt : x.size < x.max_size := by
      by_contra hmax
      have hfit := fits_iff_no_rest h1 (c := c.cz + L.op c.cx c.cy)
      rw [h4, h2, show x.size = x.max_size by omega] at hfit
      exact hcz (hfit.1 hr)
    have hhalf : -Half ≤ c.cz + L.op c.cx c.cy ∧ c.cz + L.op c.cx c.cy < Half := by
      simp only [Half]
      omega
    rw [if_pos hcz, if_neg (by omega)]
    refine ⟨(normal_append_singleton hne).2 ⟨h1, hhalf, hcz⟩, ?_, ?_⟩
    · rw [AnyIntView.toInt, value_append, value_singleton, h4]
    · rw [size, length_append, h2]
      exact hlt

/-- With the shorter operand first the result must have no more digits than the longer one. -/
theorem Is.log_op_of_lt (hx : x.Is v) (hy : y.Is w) (hlt : x.size < y.size) (hroom : y.size ≤ x.max_size) :
    InRange Base Half y.size (L.op v w) ∧ (x.log_op_any L y).Is (L.op v w) ∨
      ¬InRange Base Half y.size (L.op v w) ∧ (x.log_op_any L y).digits = [] := by
  rcases hx.log_op_shortcut (L := L) hy hroom with ⟨h, hsize⟩ | h
  · rw [max_eq_right hlt.le] at hsize
    exact .inl ⟨inRange_mono base_eq half_pos hsize h.inRange, h⟩
  rw [h]
  obtain ⟨h1, h2, h3, h4⟩ := log_digits_pairs (L := L) hx hy
  obtain ⟨g1, g2⟩ := h3.rest L
  have hx0 := hx.size_pos
  rw [max_eq_right hlt.le] at h2
  have hlen : (pairs x.digits y.digits).length = y.size := by
    rw [(pairs_spec x.digits y.digits).1]
    exact max_eq_right hlt.le
  unfold log_op_loops
  rw [if_neg (by omega), hx.is_valid, if_neg (by simp), take_of_length_le (by omega), drop_of_length_le hroom]
  dsimp only [log_rest]
  generalize (log_digits L ⟨0, 0, 0⟩ (pairs x.digits y.digits)).1 = ds at *
  generalize (log_digits L ⟨0, 0, 0⟩ (pairs x.digits y.digits)).2 = c at *
  have hne : ds ≠ [] := ne_nil_of_length_pos (by omega)
  have hfit := fits_iff_no_rest h1 (c := c.cz + L.op c.cx c.cy)
  rw [h4, h2] at hfit
  rw [g1, hfit]
  by_cases hcz : c.cz + L.op c.cx c.cy = 0
  · rw [if_neg (not_not.2 hcz)]
    rw [hcz, mul_zero, add_zero] at h4
    exact .inl ⟨hcz, h1.strip hne, (value_strip _ _).trans h4, (length_strip_le _).trans (h2.trans_le hroom)⟩
  · rw [if_pos hcz]
    exact .inr ⟨hcz, rfl⟩

theorem Is.logical_not (hx : x.Is v) : x.logical_not.Holds (-v - 1) := by
  obtain ⟨hn, hv, hroom⟩ := hx
  unfold AnyIntView.logical_not
  cases hd : x.digits with
  | nil => exact absurd hd hn.ne_nil
  | cons d ds =>
    rw [hd] at hn
    obtain ⟨hd1, hds⟩ := balanced_cons.1 hn.balanced
    have hmap : ds.map (fun d => word (-d)) = ds.map (- ·) := by
      apply map_congr_left
      intro e he
      have := hds e he
      simp only [Half] at this
      exact word_eq (by omega) (by omega)
    dsimp only
    rw [hmap]
    refine holds_digits (by simp) (by simpa [size, hd] using hroom) (bounded_cons.2 ⟨by simp only [Half] at hd1; omega, ?_⟩) ?_
    · intro e he
      obtain ⟨g, hg, rfl⟩ := mem_map.1 he
      have := balanced_small hds g hg
      omega
    · rw [value_cons, value_map_neg, ← hv, AnyIntView.toInt, hd, value_cons]
      ring

end

end AnyIntView

theorem LogOp.fits (L : LogOp) {v w : Int} (hv : Fits257 v) (hw : Fits257 w) : Fits257 (L.op v w) := by
  have hsign : ∀ {u : Int}, Fits257 u → u / 2 ^ 256 = 0 ∨ u / 2 ^ 256 = -1 := by
    intro u hu
    unfold Fits257 at hu
    omega
  have h := L.bitwise.sign (hsign hv) (hsign hw)
  rw [← L.bitwise.div_pow] at h
  unfold Fits257
  omega

namespace RefInt256

/-- `operator&`, `operator|` and `operator^`. -/
def log_op (L : LogOp) (x y : AnyIntView) : AnyIntView := x.log_op_any L y

/-- `operator~`. -/
def not (x : AnyIntView) : AnyIntView := x.logical_not.normalize_bool_any

end RefInt256

/-- The first operand has fewer words than the second, and the result has no form in those of the second. -/
def LogOp.NoWord (L : LogOp) (x y : Int257) : Prop :=
  x.view.size < y.view.size ∧ ¬InRange Base Half y.view.size (L.op x.toInt y.toInt)

theorem log_op_cases (L : LogOp) (x y : Int257) :
    ¬L.NoWord x y ∧ (RefInt256.log_op L x.view y.view).Is (L.op x.toInt y.toInt) ∨
      L.NoWord x y ∧ (RefInt256.log_op L x.view y.view).digits = [] := by
  have hfit := (L.fits x.fits y.fits).inRange
  unfold LogOp.NoWord RefInt256.log_op
  by_cases hlt : x.view.size < y.view.size
  · rcases x.is.log_op_of_lt (L := L) y.is hlt y.is.room with ⟨h1, h2⟩ | ⟨h1, h2⟩
    · exact .inl ⟨fun h => h.2 h1, h2⟩
    · exact .inr ⟨⟨hlt, h1⟩, h2⟩
  · exact .inl ⟨fun h => hlt h.1, x.is.log_op_of_le y.is (by omega) hfit⟩

theorem lnot_eq (v : Int) : Int.lnot v = -v - 1 := by
  cases v with
  | ofNat n => simp [Int.lnot, Int.negSucc_eq]; omega
  | negSucc n => simp [Int.lnot, Int.negSucc_eq]

end Ton.BigInt
