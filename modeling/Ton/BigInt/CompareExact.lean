import Ton.BigInt.Compare
/-!
# Signs of numbers of any length

`sgn_un_any` and `cmp_un_any` for words of 60 bits and any two lengths, with every shift and
sum of their loops checked. With two words more on the left, `cmp_un_any` takes a sum that
is close to zero for a negative one.
-/

namespace Ton.BigInt
open SignedDigits List Option

/-- A result that a word holds, `none` where it does not. -/
def checked (x : Int) : Option Int := if -2 ^ 63 ≤ x ∧ x < 2 ^ 63 then some x else none

/-- What a round of a loop adds: a word of the left number, of both, or of the right one. -/
inductive Term where
  | left (d : Int)
  | both (d e : Int)
  | right (e : Int)

namespace Term

/-- The word added. -/
def word (t : Int → Int) : Term → Int
  | left d => t d
  | both d e => BigInt.word (t d - e)
  | right e => -e

/-- Every result of a round fits a word. -/
def Fits (t : Int → Int) : Term → Prop
  | left d => -(2 ^ 63 - 2 ^ 11) ≤ t d ∧ t d ≤ 2 ^ 63 - 2 ^ 11
  | both d e => (-2 ^ 63 ≤ t d ∧ t d < 2 ^ 63) ∧ -(2 ^ 63 - 2 ^ 11) ≤ t d - e ∧ t d - e ≤ 2 ^ 63 - 2 ^ 11
  | right e => -(2 ^ 63 - 2 ^ 11) ≤ e ∧ e ≤ 2 ^ 63 - 2 ^ 11

end Term

namespace AnyIntView

/-- The tests of a round in the loops over the left number or over both. -/
def round_left (v w : Int) (next : Int → Option Int) : Option Int := do
  let neg ← checked (-v)
  let upper ← checked (neg + MaxDenorm)
  if w ≥ upper then some 1
  else
    let lower ← checked (neg - MaxDenorm)
    if w ≤ lower then some (-1)
    else
      let v ← checked (v + w)
      next v

/-- The tests of a round in the loop over the right number. -/
def round_right (v w : Int) (next : Int → Option Int) : Option Int := do
  let lower ← checked (v - MaxDenorm)
  if w ≤ lower then some 1
  else
    let upper ← checked (v + MaxDenorm)
    if w ≥ upper then some (-1)
    else
      let v ← checked (v - w)
      next v

/-- The rounds that are left. -/
def scan_checked (t : Int → Int) : Int → List Term → Option Int
  | v, [] => some v.sign
  | v, .left d :: ts => do
    let v ← checked (v * Base)
    let w ← checked (t d)
    round_left v w (scan_checked t · ts)
  | v, .both d e :: ts => do
    let v ← checked (v * Base)
    let a ← checked (t d)
    let w ← checked (a - e)
    round_left v w (scan_checked t · ts)
  | v, .right e :: ts => do
    let v ← checked (v * Base)
    round_right v e (scan_checked t · ts)

/-- `sgn_un_any`, checked. -/
def sgn_un_checked (x : AnyIntView) : Option Int :=
  if !x.is_valid then some 0
  else
    let v := x.top_word
    if 2 ≤ x.size then
      if v ≥ MaxDenorm then some 1
      else if v ≤ -MaxDenorm then some (-1)
      else scan_checked id v (x.digits.dropLast.reverse.map .left)
    else some v.sign

/-- The words that both numbers have, the last one first. -/
def both_terms (xs ys : List Int) : List Term := (List.zipWith .both xs ys).reverse

/-- `cmp_un_any`, checked. -/
def cmp_un_checked (t : Int → Int) (x y : AnyIntView) : Option Int :=
  if y.size < x.size then do
    let v ← checked (t x.top_word)
    if v ≥ MaxDenorm then some 1
    else if v ≤ -MaxDenorm then some (-1)
    else
      match x.digits.dropLast.reverse with
      | w :: _ =>
        if y.size < x.size - 1 then
          let v ← checked (v * Base)
          let w ← checked (t w)
          let neg ← checked (-v)
          let upper ← checked (neg + MaxDenorm)
          -- the second test compares with `upper` again
          some (if w ≥ upper then 1 else -1)
        else scan_checked t v (both_terms x.digits y.digits)
      | [] => scan_checked t v []
  else if y.size > x.size then do
    let v ← checked (-y.top_word)
    if v ≥ MaxDenorm then some 1
    else if v ≤ -MaxDenorm then some (-1)
    else scan_checked t v (((y.digits.drop x.size).dropLast.map .right).reverse ++ both_terms x.digits y.digits)
  else scan_checked t 0 (both_terms x.digits y.digits)

section
variable {t : Int → Int} {v w : Int} {x y : AnyIntView}

theorem checked_eq (h : -2 ^ 63 ≤ v ∧ v < 2 ^ 63) : checked v = some v := if_pos h

theorem shift_bounds (hv : -MaxDenorm < v ∧ v < MaxDenorm) : -(2 ^ 63 - 2 ^ 52) ≤ v * Base ∧ v * Base ≤ 2 ^ 63 - 2 ^ 52 := by
  simp only [MaxDenorm, Base] at *
  omega

section
variable (hv : -(2 ^ 63 - 2 ^ 52) ≤ v ∧ v ≤ 2 ^ 63 - 2 ^ 52) (hw : -(2 ^ 63 - 2 ^ 11) ≤ w ∧ w ≤ 2 ^ 63 - 2 ^ 11) (next : Int → Option Int)
include hv hw

theorem round_left_eq : round_left v w next = if w ≥ -v + MaxDenorm then some 1 else if w ≤ -v - MaxDenorm then some (-1)
      else next (v + w) := by
  have hmax : MaxDenorm = 2 ^ 11 := rfl
  unfold round_left
  simp only [bind_eq_bind]
  rw [checked_eq (by omega), bind_some, checked_eq (by omega), bind_some]
  split
  · rfl
  rw [checked_eq (by omega), bind_some]
  split
  · rfl
  rw [checked_eq (by omega), bind_some]

theorem round_right_eq : round_right v w next = if -w ≥ -v + MaxDenorm then some 1 else if -w ≤ -v - MaxDenorm then some (-1)
      else next (v + -w) := by
  have hmax : MaxDenorm = 2 ^ 11 := rfl
  unfold round_right
  simp only [bind_eq_bind]
  rw [checked_eq (by omega), bind_some]
  by_cases h1 : w ≤ v - MaxDenorm
  · rw [if_pos h1, if_pos (by omega)]
  rw [if_neg h1, if_neg (by omega), checked_eq (by omega), bind_some]
  by_cases h2 : w ≥ v + MaxDenorm
  · rw [if_pos h2, if_pos (by omega)]
  rw [if_neg h2, if_neg (by omega), checked_eq (by omega), bind_some, Int.sub_eq_add_neg]

end

/-- No result of the rounds overflows, and they are the rounds of `un_sign`. -/
theorem scan_checked_eq (hv : -MaxDenorm < v ∧ v < MaxDenorm) {ts : List Term} (hts : ∀ s ∈ ts, s.Fits t) :
    scan_checked t v ts = some (un_sign v (ts.map (Term.word t))) := by
  induction ts generalizing v with
  | nil => rfl
  | cons s ts ih =>
    have hs := hts s mem_cons_self
    have ih := fun v hv => ih (v := v) hv fun s hs => hts s (mem_cons_of_mem _ hs)
    have hshift := shift_bounds hv
    -- the rounds that follow a round in which `w` is added
    have hround : ∀ w, (if w ≥ -(v * Base) + MaxDenorm then some 1 else if w ≤ -(v * Base) - MaxDenorm then some (-1)
        else scan_checked t (v * Base + w) ts) = some (un_sign v (w :: ts.map (Term.word t))) := by
      intro w
      rw [un_sign, word_eq (by omega) (by omega)]
      split
      · rfl
      split
      · rfl
      · exact ih _ (by omega)
    cases s with
    | left d =>
      have hd : -(2 ^ 63 - 2 ^ 11) ≤ t d ∧ t d ≤ 2 ^ 63 - 2 ^ 11 := hs
      simp only [scan_checked, bind_eq_bind]
      rw [checked_eq (by omega), bind_some, checked_eq (by omega), bind_some, round_left_eq hshift hd, hround]
      rfl
    | both d e =>
      obtain ⟨hd, hde⟩ : (-2 ^ 63 ≤ t d ∧ t d < 2 ^ 63) ∧ -(2 ^ 63 - 2 ^ 11) ≤ t d - e ∧ t d - e ≤ 2 ^ 63 - 2 ^ 11 := hs
      simp only [scan_checked, bind_eq_bind]
      rw [checked_eq (by omega), bind_some, checked_eq hd, bind_some, checked_eq (by omega), bind_some,
        round_left_eq hshift hde, hround, map_cons, Term.word, word_eq (by omega) (by omega)]
    | right e =>
      simp only [scan_checked, bind_eq_bind]
      rw [checked_eq (by omega), bind_some, round_right_eq hshift hs, hround]
      rfl

theorem map_both_terms (xs ys : List Int) : (both_terms xs ys).map (Term.word t) = cmp_words t xs ys := by
  rw [both_terms, cmp_words, map_reverse, map_zipWith]
  rfl

theorem sgn_un_checked_eq (hx : Bounded (2 ^ 60) x.digits) : x.sgn_un_checked = some x.sgn_un_any := by
  unfold sgn_un_checked sgn_un_any
  split
  · rfl
  dsimp only
  split
  · split
    · rfl
    split
    · rfl
    rw [scan_checked_eq (by omega)]
    · rw [List.map_map]
      congr 2
      exact List.map_id _
    · intro s hs
      obtain ⟨d, hd, rfl⟩ := List.mem_map.1 hs
      have hdx := hx d (mem_of_mem_dropLast (mem_reverse.1 hd))
      show -(2 ^ 63 - 2 ^ 11) ≤ id d ∧ id d ≤ 2 ^ 63 - 2 ^ 11
      simp only [id]
      omega
  · rfl

end

section
variable {c : Int} {x y : AnyIntView} (hc : -2 ≤ c ∧ c ≤ 2) (hx : Bounded (2 ^ 60) x.digits) (hy : Bounded (2 ^ 60) y.digits)

include hc in
theorem mul_bounds {d : Int} (hd : -2 ^ 60 ≤ d ∧ d ≤ 2 ^ 60) : -2 ^ 61 ≤ c * d ∧ c * d ≤ 2 ^ 61 := by
  constructor <;> nlinarith

include hx in
theorem top_bounds : -2 ^ 60 ≤ x.top_word ∧ x.top_word ≤ 2 ^ 60 := by
  by_cases hne : x.digits = []
  · rw [top_word, hne]
    norm_num
  · obtain ⟨es, hes, -⟩ := top_word_eq hne
    exact hx _ (by rw [hes]; simp)

include hc hx hy in
theorem both_terms_fit : ∀ s ∈ both_terms x.digits y.digits, s.Fits (c * ·) := by
  intro s hs
  obtain ⟨i, h1, h2⟩ := mem_iff_getElem.1 (mem_reverse.1 hs)
  rw [length_zipWith] at h1
  rw [getElem_zipWith] at h2
  have hd := mul_bounds hc (hx _ (getElem_mem (show i < x.digits.length by omega)))
  have he := hy _ (getElem_mem (show i < y.digits.length by omega))
  rw [← h2]
  show (_ ∧ _) ∧ _ ∧ _
  dsimp only
  omega

include hc hx hy in
theorem cmp_un_checked_eq : cmp_un_checked (c * ·) x y = some (cmp_un_any (c * ·) x y) := by
  have hfit := both_terms_fit hc hx hy
  have htop := mul_bounds hc (top_bounds hx)
  have hytop := top_bounds hy
  have hmax : MaxDenorm = 2 ^ 11 := rfl
  unfold cmp_un_checked cmp_un_any
  simp only [bind_eq_bind]
  split
  · rw [checked_eq (by omega), bind_some]
    split
    · rfl
    split
    · rfl
    have hshift := shift_bounds (v := c * x.top_word) (by omega)
    cases hrest : x.digits.dropLast.reverse with
    | nil => rfl
    | cons w rest =>
      have hw := mul_bounds hc (hx w (mem_of_mem_dropLast (mem_reverse.1 (by rw [hrest]; simp))))
      dsimp only
      split
      · rw [checked_eq (by omega), bind_some, checked_eq (by omega), bind_some, checked_eq (by omega), bind_some,
          checked_eq (by omega), bind_some, word_eq (by omega) (by omega)]
      · rw [scan_checked_eq (by omega) hfit, map_both_terms]
  split
  · rw [checked_eq (by omega), bind_some]
    split
    · rfl
    split
    · rfl
    rw [scan_checked_eq (by omega)]
    · rw [map_append, map_both_terms, map_reverse, List.map_map]
      rfl
    · intro s hs
      rcases mem_append.1 hs with hs | hs
      · obtain ⟨e, he, rfl⟩ := List.mem_map.1 (mem_reverse.1 hs)
        have := hy e (mem_of_mem_drop (mem_of_mem_dropLast he))
        show _ ∧ _
        omega
      · exact hfit s hs
  · rw [scan_checked_eq (by decide) hfit, map_both_terms]

/-! ## Exactness -/

include hc in
theorem below_lt {xs ys : List Int} (hx : Bounded (2 ^ 60) xs) (hy : Bounded (2 ^ 60) ys) (hlen : ys.length ≤ xs.length) :
    |c * value Base xs - value Base ys| < MaxDenorm * Base ^ xs.length := by
  have h1 := value_le base_nonneg fun d hd => (hx d hd).2
  have h2 := le_value base_nonneg fun d hd => (hx d hd).1
  have h3 := value_le base_nonneg fun d hd => (hy d hd).2
  have h4 := le_value base_nonneg fun d hd => (hy d hd).1
  have hones := ones_mul (b := Base) xs.length
  have hpos := pow_pos base_pos xs.length
  have hmono : ones Base ys.length ≤ ones Base xs.length := by
    rw [← Nat.add_sub_cancel' hlen, ones_add]
    have h5 := mul_nonneg (pow_nonneg base_nonneg ys.length) (ones_nonneg base_nonneg (xs.length - ys.length))
    omega
  have hmul : -(2 ^ 61 * ones Base xs.length) ≤ c * value Base xs ∧ c * value Base xs ≤ 2 ^ 61 * ones Base xs.length := by
    constructor <;> nlinarith
  have h0 := ones_nonneg base_nonneg xs.length
  rw [abs_lt]
  simp only [MaxDenorm, Base] at *
  constructor <;> nlinarith

/-- The word under the highest one. -/
def second_word (x : AnyIntView) : Int := x.digits.getD (x.size - 2) 0

/-- A number with two words more, close to the other one and not below it. -/
def Misses (c : Int) (x y : AnyIntView) : Prop :=
  y.size + 2 ≤ x.size ∧ |c * x.top_word| < MaxDenorm ∧ |c * x.top_word * Base + c * x.second_word| < MaxDenorm ∧ y.toInt ≤ c * x.toInt

theorem sign_of_far {m p g : Int} (hp : 0 < p) (hg : |g| < MaxDenorm * p) (hm : MaxDenorm ≤ m) : (m * p + g).sign = 1 := by
  have h := mul_le_mul_of_nonneg_right hm hp.le
  rw [abs_lt] at hg
  exact Int.sign_eq_one_of_pos (by omega)

theorem sign_of_far_neg {m p g : Int} (hp : 0 < p) (hg : |g| < MaxDenorm * p) (hm : m ≤ -MaxDenorm) : (m * p + g).sign = -1 := by
  have h := mul_le_mul_of_nonneg_right hm hp.le
  rw [abs_lt] at hg
  rw [neg_mul] at h
  exact Int.sign_eq_neg_one_of_neg (by omega)

include hc hx hy in
theorem cmp_un_iff : cmp_un_any (c * ·) x y = (c * x.toInt - y.toInt).sign ↔ ¬Misses c x y := by
  by_cases hsize : x.size ≤ y.size
  · refine iff_of_true (cmp_un_le (fun _ => rfl) ?_ (hy.mono (by norm_num)) hsize) fun hm => ?_
    · intro d hd e he
      have h1 := mul_bounds hc (hx d hd)
      have h2 := hy e he
      omega
    · have := hm.1
      omega
  have hne : x.digits ≠ [] := by
    intro h
    rw [size, h] at hsize
    exact hsize (Nat.zero_le _)
  obtain ⟨es, hes, hlen⟩ := top_word_eq hne
  have hdrop : x.digits.dropLast = es := by
    conv_lhs => rw [hes]
    exact dropLast_concat
  have hxs : Bounded (2 ^ 60) es := fun d hd => hx d (by rw [hes]; exact mem_append_left _ hd)
  have hval : c * x.toInt - y.toInt = c * x.top_word * Base ^ es.length + (c * value Base es - value Base y.digits) := by
    rw [toInt, toInt]
    conv_lhs => rw [hes]
    rw [value_append, value_singleton]
    ring
  have hbelow := below_lt hc hxs hy (show y.digits.length ≤ es.length by unfold size at *; omega)
  have hpow := pow_pos base_pos es.length
  rw [cmp_un_any, if_pos (by omega)]
  dsimp only
  split
  · next h =>
    refine iff_of_true ?_ fun hm => absurd (abs_lt.1 hm.2.1).2 (not_lt.2 h)
    rw [hval, sign_of_far hpow hbelow h]
  split
  · next h =>
    refine iff_of_true ?_ fun hm => absurd (abs_lt.1 hm.2.1).1 (not_lt.2 h)
    rw [hval, sign_of_far_neg hpow hbelow h]
  next h1 h2 =>
  have htop : -MaxDenorm < c * x.top_word ∧ c * x.top_word < MaxDenorm := by omega
  rw [hdrop]
  by_cases hone : x.size = y.size + 1
  · -- the words of both are all the words below the highest one
    have hzip : un_sign (c * x.top_word) (cmp_words (c * ·) x.digits y.digits) = (c * x.toInt - y.toInt).sign := by
      have hdiff : ∀ d ∈ es, ∀ e ∈ y.digits, -(2 ^ 63 - 2 ^ 11) ≤ c * d - e ∧ c * d - e ≤ 2 ^ 63 - 2 ^ 11 := by
        intro d hd e he
        have h1 := mul_bounds hc (hxs d hd)
        have h2 := hy e he
        omega
      have hylen : es.length = y.digits.length := by unfold size at *; omega
      have hzip : List.zipWith (fun d e => word (c * d - e)) x.digits y.digits = List.zipWith (fun d e => word (c * d - e)) es y.digits := by
        rw [zipWith_eq_zipWith_take_min, hes, length_append, Nat.min_eq_right (by omega), ← hylen, take_left, hylen, take_length]
      unfold cmp_words
      rw [un_sign_spec htop fun d hd => scanned_zipWith (t := (c * ·)) hdiff d (by rw [← hzip]; exact mem_reverse.1 hd), reverse_reverse,
        length_reverse, hzip, value_zipWith_sub hylen (fun _ => rfl) (word_sub (t := (c * ·)) hdiff), length_zipWith, ← hylen,
        Nat.min_self, hval]
    refine iff_of_true ?_ fun hm => absurd hm.1 (by omega)
    cases hrest : es.reverse with
    | nil =>
      have hnil : es = [] := reverse_eq_nil_iff.1 hrest
      have hynil : y.digits = [] := length_eq_zero_iff.1 (by rw [hnil] at hlen; unfold size at *; simp at hlen; omega)
      rw [← hzip, cmp_words, hynil, zipWith_nil_right]
      rfl
    | cons w rest =>
      dsimp only
      rw [if_neg (by omega)]
      exact hzip
  · -- two words more
    obtain ⟨fs, w, hfs⟩ : ∃ fs w, es = fs ++ [w] := by
      refine ⟨es.dropLast, es.getLast (ne_nil_of_length_pos (by omega)), (dropLast_concat_getLast _).symm⟩
    have hfslen : es.length = fs.length + 1 := by rw [hfs, length_append, length_singleton]
    have hsecond : x.second_word = w := by
      rw [second_word, show x.size - 2 = fs.length by omega, hes, hfs, append_assoc, getD_append_right _ _ _ _ le_rfl, Nat.sub_self]
      rfl
    have hfsb : Bounded (2 ^ 60) fs := fun d hd => hxs d (by rw [hfs]; exact mem_append_left _ hd)
    have hclose := below_lt hc hfsb hy (show y.digits.length ≤ fs.length by unfold size at *; omega)
    have hfspow := pow_pos base_pos fs.length
    have hsum : c * x.toInt - y.toInt = (c * x.top_word * Base + c * w) * Base ^ fs.length + (c * value Base fs - value Base y.digits) := by
      rw [hval, hfs, value_append, value_singleton, length_append, length_singleton, pow_succ]
      ring
    have hrev : es.reverse = w :: fs.reverse := by rw [hfs, reverse_append]; rfl
    have hshift := shift_bounds htop
    have hmax : MaxDenorm = 2 ^ 11 := rfl
    rw [hrev]
    dsimp only
    rw [if_pos (by omega), word_eq (by omega) (by omega), Misses, hsecond]
    by_cases hhigh : MaxDenorm ≤ c * x.top_word * Base + c * w
    · refine iff_of_true ?_ fun hm => absurd (abs_lt.1 hm.2.2.1).2 (not_lt.2 hhigh)
      rw [if_pos (by omega), hsum, sign_of_far hfspow hclose hhigh]
    rw [if_neg (by omega)]
    by_cases hlow : c * x.top_word * Base + c * w ≤ -MaxDenorm
    · refine iff_of_true ?_ fun hm => absurd (abs_lt.1 hm.2.2.1).1 (not_lt.2 hlow)
      rw [hsum, sign_of_far_neg hfspow hclose hlow]
    -- the second test answers for everything that is not far above
    rw [eq_comm, Int.sign_eq_neg_one_iff_neg]
    constructor
    · intro hneg hm
      have := hm.2.2.2
      omega
    · intro hm
      by_contra hge
      exact hm ⟨by omega, abs_lt.2 htop, abs_lt.2 ⟨by omega, by omega⟩, by omega⟩

include hc hx hy in
/-- Both functions overflow nowhere; the one gives the sign, the other gives it unless the numbers are close and the left one longer. -/
theorem un_signs : x.sgn_un_checked = some x.toInt.sign ∧ ∃ s, cmp_un_checked (c * ·) x y = some s ∧
    (s = (c * x.toInt - y.toInt).sign ↔ ¬Misses c x y) := by
  refine ⟨?_, _, cmp_un_checked_eq hc hx hy, cmp_un_iff hc hx hy⟩
  rw [sgn_un_checked_eq hx]
  by_cases hne : x.digits = []
  · rw [toInt, hne, sgn_un_any, is_valid, size, hne]
    rfl
  · rw [sgn_un_spec hne (hx.mono (by norm_num))]

theorem un_signs_halves : cmp_un_checked ((-2) * ·) ⟨5, [1, 3]⟩ ⟨5, [7]⟩ = some (-1) ∧
    sgn_un_checked ⟨5, [1, 3]⟩ = some (toInt ⟨5, [1, 3]⟩).sign :=
  ⟨by decide +kernel, (un_signs (c := -2) (x := ⟨5, [1, 3]⟩) (y := ⟨5, [7]⟩) (by decide) (by unfold Bounded; decide) (by unfold Bounded; decide)).1⟩

/-- `2 ^ 52` with a zero on top is taken to be less than zero. -/
theorem cmp_un_misses : cmp_un_any (1 * ·) ⟨5, [0, 1, 0]⟩ ⟨5, [0]⟩ = -1 ∧ (1 * toInt ⟨5, [0, 1, 0]⟩ - toInt ⟨5, [0]⟩).sign = 1 := by
  decide +kernel

end

end AnyIntView

end Ton.BigInt
