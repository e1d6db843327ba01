import Ton.Lib.BigEndian
import Mathlib.Tactic.Linarith
import Mathlib.Algebra.Order.Ring.Int
/-!
# Orders of bit strings

`Ahead d e` orders bit strings of one length by the first bit in which they differ: the
string with the bit `d` there is ahead if that is the first bit of all, the one with `e`
if it is a later bit. The four orders are those of the numbers that the strings stand
for, unsigned or in two's complement, upwards or downwards (`ahead_iff`).
-/

namespace BitOrder
open BigEndian List

def Ahead (d e : Bool) : List Bool → List Bool → Prop
  | a :: as, b :: bs => if a = b then Ahead e e as bs else a = d
  | _, _ => False

instance (d e : Bool) : (a b : List Bool) → Decidable (Ahead d e a b)
  | [], _ => .isFalse (fun h => h)
  | _ :: _, [] => .isFalse (fun h => h)
  | a :: as, b :: bs =>
    have : Decidable (Ahead e e as bs) := instDecidableAhead e e as bs
    inferInstanceAs (Decidable (if a = b then Ahead e e as bs else a = d))

/-- The number that a bit string stands for, in two's complement if `signed`. -/
def number ( signed : Bool) (k : List Bool) : Int := if signed && k.headD false then (ofBits k : Int) - 2 ^ k.length else ofBits k

section Ahead
variable {d e : Bool} {a b c p : List Bool} {x y : Bool}

theorem ahead_nil_left : ¬ Ahead d e [] b := fun h => h

theorem ahead_nil_right : ¬ Ahead d e a [] := by
  cases a with
  | nil => exact fun h => h
  | cons x a => exact fun h => h

@[simp] theorem ahead_cons_self : Ahead d e (x :: a) (x :: b) ↔ Ahead e e a b := by
  rw [Ahead, if_pos rfl]

theorem ahead_cons_of_ne (h : x ≠ y) : Ahead d e (x :: a) (y :: b) ↔ x = d := by
  rw [Ahead, if_neg h]

theorem ahead_irrefl (d e : Bool) (a : List Bool) : ¬ Ahead d e a a := by
  induction a generalizing d with
  | nil => exact ahead_nil_left
  | cons x a ih =>
    rw [ahead_cons_self]
    exact ih e

theorem Ahead.ne (h : Ahead d e a b) : a ≠ b := by
  rintro rfl
  exact ahead_irrefl d e a h

theorem Ahead.trans (h : Ahead d e a b) (h' : Ahead d e b c) : Ahead d e a c := by
  induction a generalizing d b c with
  | nil => exact absurd h ahead_nil_left
  | cons x a ih =>
    cases b with
    | nil => exact absurd h ahead_nil_right
    | cons y b =>
      cases c with
      | nil => exact absurd h' ahead_nil_right
      | cons z c =>
        by_cases hxy : x = y
        · subst hxy
          rw [ahead_cons_self] at h
          by_cases hxz : x = z
          · subst hxz
            rw [ahead_cons_self] at h' ⊢
            exact ih h h'
          · rwa [ahead_cons_of_ne hxz] at h' ⊢
        · rw [ahead_cons_of_ne hxy] at h
          subst h
          by_cases hyz : y = z
          · subst hyz
            rw [ahead_cons_of_ne hxy]
          · -- three different bits
            rw [ahead_cons_of_ne hyz] at h'
            exact absurd h'.symm hxy

theorem Ahead.asymm (h : Ahead d e a b) : ¬ Ahead d e b a := fun h' => ahead_irrefl d e a (h.trans h')

theorem ahead_or_ahead (hl : a.length = b.length) (hne : a ≠ b) : Ahead d e a b ∨ Ahead d e b a := by
  induction a generalizing d b with
  | nil => exact absurd (length_eq_zero_iff.1 hl.symm).symm hne
  | cons x a ih =>
    cases b with
    | nil => cases hl
    | cons y b =>
      by_cases hxy : x = y
      · subst hxy
        rw [ahead_cons_self, ahead_cons_self]
        exact ih (by simpa using hl) fun hab => hne (by rw [hab])
      · rw [ahead_cons_of_ne hxy, ahead_cons_of_ne (Ne.symm hxy)]
        cases x <;> cases y <;> cases d <;> simp_all

theorem ahead_not (hl : a.length = b.length) : Ahead (!d) (!e) a b ↔ Ahead d e b a := by
  induction a generalizing d b with
  | nil => exact iff_of_false ahead_nil_left ahead_nil_right
  | cons x a ih =>
    cases b with
    | nil => cases hl
    | cons y b =>
      by_cases hxy : x = y
      · subst hxy
        rw [ahead_cons_self, ahead_cons_self]
        exact ih (by simpa using hl)
      · rw [ahead_cons_of_ne hxy, ahead_cons_of_ne (Ne.symm hxy)]
        cases x <;> cases y <;> cases d <;> simp_all

/-- The direction after the bits `p`. -/
def after (p : List Bool) (d e : Bool) : Bool := if p = [] then d else e

@[simp] theorem after_nil : after [] d e = d := rfl

@[simp] theorem after_cons : after (x :: p) d e = e := rfl

theorem after_append (q : List Bool) : after (p ++ q) d e = after q (after p d e) e := by
  cases p with
  | nil => rfl
  | cons x p => cases q <;> rfl

theorem ahead_append (p a b : List Bool) : Ahead d e (p ++ a) (p ++ b) ↔ Ahead (after p d e) e a b := by
  induction p generalizing d with
  | nil => rfl
  | cons x p ih =>
    rw [cons_append, cons_append, ahead_cons_self, ih]
    cases p <;> rfl

theorem ahead_part (p a b : List Bool) (h : x ≠ y) : Ahead d e (p ++ x :: a) (p ++ y :: b) ↔ x = after p d e := by
  rw [ahead_append, ahead_cons_of_ne h]

theorem ahead_append_append {a' b' : List Bool} (hl : a.length = b.length) :
    Ahead d e (a ++ a') (b ++ b') ↔ Ahead d e a b ∨ (a = b ∧ Ahead (after a d e) e a' b') := by
  induction a generalizing d b with
  | nil =>
    obtain rfl : b = [] := length_eq_zero_iff.1 hl.symm
    rw [nil_append, nil_append, or_iff_right ahead_nil_left, and_iff_right rfl, after_nil]
  | cons x a ih =>
    cases b with
    | nil => cases hl
    | cons y b =>
      rw [cons_append, cons_append]
      by_cases hxy : x = y
      · subst hxy
        rw [ahead_cons_self, ahead_cons_self, ih (by simpa using hl), cons_inj_right, after_cons]
        cases a <;> rfl
      · rw [ahead_cons_of_ne hxy, ahead_cons_of_ne hxy, or_iff_left]
        rintro ⟨h, -⟩
        exact hxy (List.cons.inj h).1

/-! ## Strings behind a prefix -/

/-- The string is behind all those that start with `p`. -/
def Past (d e : Bool) (p k : List Bool) : Prop := Ahead d e p (k.take p.length)

theorem not_past_append (d e : Bool) (p k : List Bool) : ¬ Past d e p (p ++ k) := by
  rw [Past, take_left]
  exact ahead_irrefl d e p

theorem not_past_nil : ¬ Past d e [] b := ahead_nil_left

/-- Behind a prefix is behind its start, or goes on from it and is behind the rest. -/
theorem past_append_left (p q k : List Bool) : Past d e (p ++ q) (p ++ k) ↔ Past (after p d e) e q k := by
  rw [Past, Past, length_append, take_length_add_append, ahead_append]

theorem past_cons (x y : Bool) (k : List Bool) : Past d e [x] (y :: k) ↔ y ≠ x ∧ x = d := by
  rw [Past, length_singleton, take_succ_cons, take_zero]
  by_cases hxy : x = y
  · subst hxy
    rw [ahead_cons_self]
    exact iff_of_false ahead_nil_left (by simp)
  · rw [ahead_cons_of_ne hxy, and_iff_right (Ne.symm hxy)]

theorem past_append_of_not_prefix {q k : List Bool} (hl : p.length + q.length ≤ k.length) (hp : ¬ p <+: k) : Past d e (p ++ q) k ↔ Past d e p k := by
  have hk : k = k.take p.length ++ k.drop p.length := (take_append_drop ..).symm
  have hlen : (k.take p.length).length = p.length := by simp; omega
  rw [Past, Past, length_append, take_add, ahead_append_append hlen.symm, or_iff_left]
  rintro ⟨heq, -⟩
  exact hp ⟨k.drop p.length, by rw [heq, hlen, take_append_drop]⟩

theorem Past.ahead {k q : List Bool} (h : Past d e p k) (hl : (p ++ q).length = k.length) : Ahead d e (p ++ q) k := by
  rw [length_append] at hl
  have hk : k = k.take p.length ++ k.drop p.length := (take_append_drop ..).symm
  rw [hk, ahead_append_append (by simp; omega)]
  exact .inl h

/-- What is not behind a prefix starts with it or is ahead of all that do. -/
theorem ahead_of_not_past {k q : List Bool} (h : ¬ Past d e p k) (hp : ¬ p <+: k) (hl : (p ++ q).length = k.length) : Ahead d e k (p ++ q) := by
  rw [length_append] at hl
  have hk : k = k.take p.length ++ k.drop p.length := (take_append_drop ..).symm
  have hlen : (k.take p.length).length = p.length := by simp; omega
  rw [hk, ahead_append_append hlen]
  refine .inl ((ahead_or_ahead hlen fun heq => ?_).resolve_right h)
  exact hp ⟨k.drop p.length, by rw [← heq, hlen, take_append_drop]⟩

end Ahead

/-! ## The orders of numbers -/

theorem number_unsigned (k : List Bool) : number false k = ofBits k := rfl

theorem ofBits_lt_iff {a b : List Bool} (hl : a.length = b.length) : Ahead false false a b ↔ ofBits a < ofBits b := by
  induction a generalizing b with
  | nil =>
    rw [length_eq_zero_iff.1 hl.symm]
    exact iff_of_false ahead_nil_left (Nat.lt_irrefl _)
  | cons x a ih =>
    cases b with
    | nil => cases hl
    | cons y b =>
      have hlen : a.length = b.length := by simpa using hl
      have ha := ofBits_lt a
      have hb := ofBits_lt b
      rw [ofBits_cons, ofBits_cons, ← hlen]
      rw [← hlen] at hb
      by_cases hxy : x = y
      · subst hxy
        rw [ahead_cons_self, ih hlen]
        omega
      · rw [ahead_cons_of_ne hxy]
        cases x <;> cases y <;> simp_all <;> omega

theorem number_lt_iff {s : Bool} {a b : List Bool} (hl : a.length = b.length) : Ahead s false a b ↔ number s a < number s b := by
  cases s with
  | false =>
    rw [number_unsigned, number_unsigned, ofBits_lt_iff hl]
    omega
  | true =>
    cases a with
    | nil =>
      rw [length_eq_zero_iff.1 hl.symm]
      exact iff_of_false ahead_nil_left (lt_irrefl _)
    | cons x a =>
      cases b with
      | nil => cases hl
      | cons y b =>
        have hlen : a.length = b.length := by simpa using hl
        have ha : (ofBits a : Int) < 2 ^ b.length := by
          rw [← hlen]
          exact_mod_cast ofBits_lt a
        have hb : (ofBits b : Int) < 2 ^ b.length := by exact_mod_cast ofBits_lt b
        simp only [number, Bool.true_and, headD_cons, ofBits_cons, length_cons, pow_succ, hlen]
        by_cases hxy : x = y
        · subst hxy
          rw [ahead_cons_self, ofBits_lt_iff hlen]
          cases x <;> simp
        · rw [ahead_cons_of_ne hxy]
          cases x <;> cases y <;> simp_all <;> omega

/-- The four orders: upwards for `e = 0`, and in two's complement if the first bit is turned. -/
theorem ahead_iff {s e : Bool} {a b : List Bool} (hl : a.length = b.length) :
    Ahead (e ^^ s) e a b ↔ if e then number s b < number s a else number s a < number s b := by
  cases e with
  | false =>
    rw [Bool.false_xor, if_neg Bool.false_ne_true]
    exact number_lt_iff hl
  | true =>
    rw [Bool.true_xor, if_pos rfl, ← number_lt_iff hl.symm]
    exact ahead_not (d := s) (e := false) hl

end BitOrder
