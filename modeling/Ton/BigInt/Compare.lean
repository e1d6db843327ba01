import Ton.BigInt.AnyInt
/-!
# Comparing numbers that are not normalised

`sgn_un_any` and `cmp_un_any` of `bigint.hpp` add up the words from the last one
down and stop as soon as the sum is so far from zero that the words below cannot
change its sign.
-/

namespace Ton.BigInt
open SignedDigits List

namespace AnyIntView

/-- The loop of `sgn_un_any` and of `cmp_un_any` over the words that are left, the last one first. -/
def un_sign : Int → List Int → Int
  | v, [] => v.sign
  | v, w :: ws =>
    let v := word (v * Base)
    if w ≥ -v + MaxDenorm then 1
    else if w ≤ -v - MaxDenorm then -1
    else un_sign (v + w) ws

def sgn_un_any (x : AnyIntView) : Int :=
  if !x.is_valid then 0
  else
    let v := x.top_word
    if 2 ≤ x.size then
      if v ≥ MaxDenorm then 1
      else if v ≤ -MaxDenorm then -1
      else un_sign v x.digits.dropLast.reverse
    else v.sign

/-- The words that both numbers have, subtracted, the last one first. -/
def cmp_words (t : Int → Int) (xs ys : List Int) : List Int := (List.zipWith (fun d e => word (t d - e)) xs ys).reverse

/-- `cmp_un_any` of `t` of each word of the one number and the words of the other. -/
def cmp_un_any (t : Int → Int) (x y : AnyIntView) : Int :=
  if y.size < x.size then
    let v := t x.top_word
    if v ≥ MaxDenorm then 1
    else if v ≤ -MaxDenorm then -1
    else
      match x.digits.dropLast.reverse with
      | w :: _ =>
        if y.size < x.size - 1 then
          -- the second test of this loop compares with `-v + MaxDenorm` again
          if t w ≥ -word (v * Base) + MaxDenorm then 1 else -1
        else un_sign v (cmp_words t x.digits y.digits)
      | [] => un_sign v []
  else if y.size > x.size then
    let v := -y.top_word
    if v ≥ MaxDenorm then 1
    else if v ≤ -MaxDenorm then -1
    -- the loop over the words of `y` alone adds each of them with the sign changed
    else un_sign v (((y.digits.drop x.size).dropLast.map (-·)).reverse ++ cmp_words t x.digits y.digits)
  else un_sign 0 (cmp_words t x.digits y.digits)

/-- Words of which those below one cannot outweigh `MaxDenorm` of it. -/
abbrev Scanned (ws : List Int) : Prop := Bounded (2 ^ 63 - 2 ^ 11) ws

section
variable {v : Int} {ws : List Int}

theorem scanned_lt (hws : Scanned ws) : |value Base ws| < MaxDenorm * Base ^ ws.length := by
  have hupper := value_le base_nonneg (fun d hd => (hws d hd).2)
  have hlower := le_value base_nonneg (fun d hd => (hws d hd).1)
  have hones := ones_mul (b := Base) ws.length
  have hpos := pow_pos base_pos ws.length
  rw [abs_lt]
  simp only [MaxDenorm, Base] at *
  constructor <;> nlinarith

/-- A word that far from zero decides the sign of the whole number. -/
theorem un_sign_spec (hv : -MaxDenorm < v ∧ v < MaxDenorm) (hws : Scanned ws) :
    un_sign v ws = (v * Base ^ ws.length + value Base ws.reverse).sign := by
  induction ws generalizing v with
  | nil => simp [un_sign]
  | cons w ws ih =>
    obtain ⟨hw, hws⟩ := bounded_cons.1 hws
    have hrev : Scanned ws.reverse := fun d hd => hws d (mem_reverse.1 hd)
    have hlow := scanned_lt hrev
    have hpow := pow_pos base_pos ws.length
    have hsum : v * Base ^ (w :: ws).length + value Base (w :: ws).reverse =
        (v * Base + w) * Base ^ ws.length + value Base ws.reverse := by
      rw [reverse_cons, value_append, value_singleton, length_cons, length_reverse, pow_succ]
      ring
    rw [length_reverse, abs_lt] at hlow
    rw [hsum, un_sign, word_eq (by simp only [MaxDenorm, Base] at *; omega) (by simp only [MaxDenorm, Base] at *; omega)]
    split
    · next h =>
      have hmul := mul_le_mul_of_nonneg_right (show MaxDenorm ≤ v * Base + w by omega) hpow.le
      rw [Int.sign_eq_one_of_pos (by omega)]
    split
    · next h =>
      have hmul := mul_le_mul_of_nonneg_right (show v * Base + w ≤ -MaxDenorm by omega) hpow.le
      rw [Int.sign_eq_neg_one_of_neg (by rw [neg_mul] at hmul; omega)]
    · exact ih (by omega) hws

theorem un_sign_top (v : Int) (ws : List Int) :
    (if v ≥ MaxDenorm then 1 else if v ≤ -MaxDenorm then -1 else un_sign v ws) = un_sign 0 (v :: ws) := by
  simp [un_sign, word]

end

section
variable {x y : AnyIntView} {v w : Int}

theorem un_sign_zero {ws : List Int} (hws : Scanned ws) : un_sign 0 ws.reverse = (value Base ws).sign := by
  rw [un_sign_spec (by decide) fun d hd => hws d (mem_reverse.1 hd), reverse_reverse, zero_mul, zero_add]

theorem sgn_un_spec (hne : x.digits ≠ []) (hx : Scanned x.digits) : x.sgn_un_any = x.toInt.sign := by
  obtain ⟨es, hes, hsize⟩ := top_word_eq hne
  have hdrop : x.digits.dropLast = es := by
    conv_lhs => rw [hes]
    exact dropLast_concat
  have hrev : x.digits.reverse = x.top_word :: es.reverse := by
    conv_lhs => rw [hes]
    simp
  rw [toInt, ← un_sign_zero hx, hrev, sgn_un_any, is_valid_iff.2 hne]
  rw [if_neg (by simp), hdrop]
  split
  · exact un_sign_top _ _
  · obtain rfl : es = [] := length_eq_zero_iff.1 (by omega)
    rw [← un_sign_top]
    -- a single word is its own sign
    split_ifs <;> simp only [MaxDenorm, un_sign, reverse_nil, Int.sign_eq_one_iff_pos, Int.sign_eq_neg_one_iff_neg] at * <;> omega

theorem value_zipWith_sub {t : Int → Int} {c : Int} {xs ys : List Int} (hlen : xs.length = ys.length) (ht : ∀ d, t d = c * d)
    (hds : ∀ d ∈ xs, ∀ e ∈ ys, word (t d - e) = t d - e) :
    value Base (List.zipWith (fun d e => word (t d - e)) xs ys) = c * value Base xs - value Base ys := by
  induction xs generalizing ys with
  | nil =>
    obtain rfl : ys = [] := length_eq_zero_iff.1 hlen.symm
    simp
  | cons d xs ih =>
    obtain ⟨e, ys, rfl⟩ := exists_cons_of_ne_nil (ne_nil_of_length_pos (show 0 < ys.length by simp [← hlen]))
    rw [zipWith_cons_cons, value_cons, value_cons, value_cons, hds d (by simp) e (by simp), ht,
      ih (by simpa using hlen) fun d hd e he => hds d (mem_cons_of_mem _ hd) e (mem_cons_of_mem _ he)]
    ring

section
variable {t : Int → Int} {xs ys : List Int} (hdiff : ∀ d ∈ xs, ∀ e ∈ ys, -(2 ^ 63 - 2 ^ 11) ≤ t d - e ∧ t d - e ≤ 2 ^ 63 - 2 ^ 11)
include hdiff

theorem word_sub :
    ∀ d ∈ xs, ∀ e ∈ ys, word (t d - e) = t d - e := by
  intro d hd e he
  have := hdiff d hd e he
  exact word_eq (by omega) (by omega)

theorem scanned_zipWith :
    Scanned (List.zipWith (fun d e => word (t d - e)) xs ys) := by
  intro a ha
  obtain ⟨d, hd, e, he, rfl⟩ : ∃ d ∈ xs, ∃ e ∈ ys, word (t d - e) = a := by
    obtain ⟨i, h1, h2⟩ := mem_iff_getElem.1 ha
    rw [length_zipWith] at h1
    rw [getElem_zipWith] at h2
    exact ⟨_, getElem_mem (by omega), _, getElem_mem (by omega), h2⟩
  rw [word_sub hdiff d hd e he]
  exact hdiff d hd e he

end

theorem cmp_un_le {t : Int → Int} {c : Int} (ht : ∀ d, t d = c * d)
    (hdiff : ∀ d ∈ x.digits, ∀ e ∈ y.digits, -(2 ^ 63 - 2 ^ 11) ≤ t d - e ∧ t d - e ≤ 2 ^ 63 - 2 ^ 11)
    (hy : Scanned y.digits) (hsize : x.size ≤ y.size) : cmp_un_any t x y = (c * x.toInt - y.toInt).sign := by
  have hword := word_sub hdiff
  rw [cmp_un_any, if_neg (by omega)]
  unfold cmp_words
  by_cases hlt : y.size > x.size
  · -- the words of `y` alone, then those of both
    have hdrop : y.digits.drop x.size ≠ [] := ne_nil_of_length_pos (by unfold size at *; rw [length_drop]; omega)
    have hne : y.digits ≠ [] := fun h => hdrop (by rw [h, drop_nil])
    have htop : (y.digits.drop x.size).dropLast ++ [y.top_word] = y.digits.drop x.size := by
      rw [top_word, getLastD_eq_getLast?, getLast?_eq_some_getLast hne, Option.getD_some, ← getLast_drop hdrop]
      exact dropLast_concat_getLast hdrop
    have hwords : ∀ zs : List Int, -y.top_word :: (((y.digits.drop x.size).dropLast.map (-·)).reverse ++ zs.reverse) =
        (zs ++ (y.digits.drop x.size).map (-·)).reverse := by
      intro zs
      conv_rhs => rw [← htop]
      simp
    have htake : List.zipWith (fun d e => word (t d - e)) x.digits y.digits =
        List.zipWith (fun d e => word (t d - e)) x.digits (y.digits.take x.size) := by
      have hmin : min x.digits.length y.digits.length = x.digits.length := min_eq_left hsize
      rw [zipWith_eq_zipWith_take_min, hmin, take_length]
      rfl
    rw [if_pos hlt]
    dsimp only
    rw [un_sign_top, hwords, un_sign_zero, value_append, value_map_neg, htake,
      value_zipWith_sub (by simpa [size] using hsize) ht fun d hd e he => hword d hd e (mem_of_mem_take he)]
    · rw [toInt, toInt, value_take_drop Base x.size y.digits, length_zipWith, length_take,
        show min x.digits.length (min x.size y.digits.length) = x.size by unfold size at *; omega]
      congr 1
      ring
    · refine bounded_append.2 ⟨scanned_zipWith hdiff, ?_⟩
      intro a ha
      obtain ⟨e, he, rfl⟩ := mem_map.1 ha
      have h2 := hy e (mem_of_mem_drop he)
      omega
  · rw [if_neg hlt, un_sign_zero (scanned_zipWith hdiff), value_zipWith_sub (by unfold size at *; omega) ht hword]
    rfl

end

end AnyIntView

end Ton.BigInt
