import Mathlib.Data.List.Basic
/-!
# Passes over a sequence

A pass asks for each element of a list in turn whether it is kept. An answer may also
decide about all that follow, without asking for them, or stop the pass. A pass over
two lists is one over the first and, from the state it ends in, one over the second
(`sift_append`).
-/

namespace Sift
open List

inductive Answer where
  | fail
  | drop
  | keep
  /-- Drop this element and all that follow. -/
  | dropRest
  /-- Keep this element and all that follow. -/
  | keepRest
  deriving DecidableEq

/-- What is done with the elements that are left. -/
inductive Rest where
  | ask
  | keep
  | drop
  deriving DecidableEq

inductive Outcome (α : Type) where
  /-- The answer for `a` was `fail`, after some elements were kept. -/
  | stopped (kept : List α) (a : α)
  /-- The elements that are kept, those that were dropped without being asked for, and what is done with more. -/
  | done (kept unseen : List α) (rest : Rest)
  deriving DecidableEq

namespace Outcome

variable {α β : Type}

/-- The outcome with elements from before. -/
def after (kept unseen : List α) : Outcome α → Outcome α
  | stopped k a => stopped (kept ++ k) a
  | done k u r => done (kept ++ k) (unseen ++ u) r

def map (g : α → β) : Outcome α → Outcome β
  | stopped k a => stopped (k.map g) (g a)
  | done k u r => done (k.map g) (u.map g) r

/-- Goes on with more elements. -/
def andThen (o : Outcome α) (next : Rest → Outcome α) : Outcome α :=
  match o with
  | stopped k a => stopped k a
  | done k u r => (next r).after k u

variable (g : α → β) (next : Rest → Outcome α) (k k' u u' : List α) (r : Rest) (a : α)

@[simp] theorem after_stopped : (stopped k' a).after k u = stopped (k ++ k') a := rfl

@[simp] theorem after_done : (done k' u' r).after k u = done (k ++ k') (u ++ u') r := rfl

@[simp] theorem map_stopped : (stopped k a).map g = stopped (k.map g) (g a) := rfl

@[simp] theorem map_done : (done k u r).map g = done (k.map g) (u.map g) r := rfl

@[simp] theorem andThen_stopped : (stopped k a).andThen next = stopped k a := rfl

@[simp] theorem andThen_done : (done k u r).andThen next = (next r).after k u := rfl

@[simp] theorem after_nil (o : Outcome α) : o.after [] [] = o := by cases o <;> rfl

theorem after_after (o : Outcome α) : (o.after k' u').after k u = o.after (k ++ k') (u ++ u') := by
  cases o <;> simp

theorem andThen_after (o : Outcome α) : (o.after k u).andThen next = (o.andThen next).after k u := by
  cases o with
  | stopped k' a => rfl
  | done k' u' r => exact (after_after k k' u u' (next r)).symm

theorem map_after (o : Outcome α) : (o.after k u).map g = (o.map g).after (k.map g) (u.map g) := by
  cases o <;> simp

end Outcome

open Outcome

section Sift
variable {α β : Type} (answer : α → Answer)

def sift : Rest → List α → Outcome α
  | .keep, l => .done l [] .keep
  | .drop, l => .done [] l .drop
  | .ask, [] => .done [] [] .ask
  | .ask, a :: l =>
    match answer a with
    | .fail => .stopped [] a
    | .drop => sift .ask l
    | .keep => (sift .ask l).after [a] []
    | .dropRest => .done [] l .drop
    | .keepRest => .done (a :: l) [] .keep

@[simp] theorem sift_keep (l : List α) : sift answer .keep l = .done l [] .keep := by cases l <;> rfl

@[simp] theorem sift_drop (l : List α) : sift answer .drop l = .done [] l .drop := by cases l <;> rfl

theorem sift_nil (r : Rest) : sift answer r [] = .done [] [] r := by cases r <;> rfl

theorem sift_ask_cons (a : α) (l : List α) : sift answer .ask (a :: l) =
    match answer a with
    | .fail => .stopped [] a
    | .drop => sift answer .ask l
    | .keep => (sift answer .ask l).after [a] []
    | .dropRest => .done [] l .drop
    | .keepRest => .done (a :: l) [] .keep := rfl

theorem sift_drops (l : List α) : sift (fun _ => .drop) .ask l = .done [] [] .ask := by
  induction l with
  | nil => rfl
  | cons a l ih => exact ih

theorem sift_append (r : Rest) (l l' : List α) : sift answer r (l ++ l') = (sift answer r l).andThen fun r' => sift answer r' l' := by
  cases r with
  | keep => simp
  | drop => simp
  | ask =>
    induction l with
    | nil => rw [nil_append, sift_nil, andThen_done, after_nil]
    | cons a l ih =>
      rw [cons_append, sift_ask_cons, sift_ask_cons]
      cases answer a with
      | fail => rfl
      | drop => exact ih
      | keep =>
        dsimp only
        rw [ih, andThen_after]
      | dropRest => simp
      | keepRest => simp

theorem sift_map (g : β → α) (r : Rest) (l : List β) : sift answer r (l.map g) = (sift (fun b => answer (g b)) r l).map g := by
  cases r with
  | keep => simp
  | drop => simp
  | ask =>
    induction l with
    | nil => rfl
    | cons a l ih =>
      rw [map_cons, sift_ask_cons, sift_ask_cons]
      cases answer (g a) with
      | fail => rfl
      | drop => exact ih
      | keep =>
        dsimp only
        rw [ih, map_after]
        rfl
      | dropRest => rfl
      | keepRest => rfl

theorem sift_sublist {r r' : Rest} {l kept unseen : List α} (h : sift answer r l = .done kept unseen r') : kept.Sublist l := by
  cases r with
  | keep =>
    rw [sift_keep] at h
    cases h
    exact Sublist.refl l
  | drop =>
    rw [sift_drop] at h
    cases h
    exact nil_sublist l
  | ask =>
    induction l generalizing kept unseen with
    | nil =>
      cases h
      exact Sublist.refl []
    | cons a l ih =>
      rw [sift_ask_cons] at h
      split at h
      · cases h
      · exact (ih h).cons a
      · cases ho : sift answer .ask l with
        | stopped k b =>
          rw [ho] at h
          cases h
        | done k u r'' =>
          rw [ho] at h
          cases h
          exact (ih ho).cons_cons a
      · cases h
        exact nil_sublist _
      · cases h
        exact Sublist.refl _

theorem sift_stopped {r : Rest} {l kept : List α} {b : α} (h : sift answer r l = .stopped kept b) : answer b = .fail := by
  cases r with
  | keep =>
    rw [sift_keep] at h
    cases h
  | drop =>
    rw [sift_drop] at h
    cases h
  | ask =>
    induction l generalizing kept with
    | nil => cases h
    | cons a l ih =>
      rw [sift_ask_cons] at h
      split at h
      · next hfail =>
        cases h
        exact hfail
      · exact ih h
      · cases ho : sift answer .ask l with
        | stopped k b' =>
          rw [ho] at h
          cases h
          exact ih ho
        | done k u r' =>
          rw [ho] at h
          cases h
      · cases h
      · cases h

/-- The elements that are asked for. -/
def asked : Rest → List α → List α
  | .ask, a :: l =>
    match answer a with
    | .drop | .keep => a :: asked .ask l
    | _ => [a]
  | _, _ => []

theorem asked_ask_cons (a : α) (l : List α) : asked answer .ask (a :: l) =
    match answer a with
    | .drop | .keep => a :: asked answer .ask l
    | _ => [a] := rfl

theorem asked_rest {r : Rest} (hr : r ≠ .ask) (l : List α) : asked answer r l = [] := by
  cases l with
  | nil => cases r <;> rfl
  | cons a l =>
    cases r with
    | ask => exact absurd rfl hr
    | keep => rfl
    | drop => rfl

theorem asked_append (l l' : List α) : asked answer .ask (l ++ l') = asked answer .ask l ++
    match sift answer .ask l with
    | .stopped _ _ => []
    | .done _ _ r => asked answer r l' := by
  induction l with
  | nil => rfl
  | cons a l ih =>
    rw [cons_append, asked_ask_cons, asked_ask_cons, sift_ask_cons]
    cases answer a with
    | fail => rfl
    | drop => exact congrArg (a :: ·) ih
    | keep =>
      dsimp only
      rw [ih]
      cases sift answer .ask l <;> rfl
    | dropRest => simp [asked_rest]
    | keepRest => simp [asked_rest]

theorem asked_map (g : β → α) (r : Rest) (l : List β) : asked answer r (l.map g) = (asked (fun b => answer (g b)) r l).map g := by
  by_cases hr : r = .ask
  · subst hr
    induction l with
    | nil => rfl
    | cons a l ih =>
      rw [map_cons, asked_ask_cons, asked_ask_cons]
      cases answer (g a) <;> simp [ih]
  · rw [asked_rest _ hr, asked_rest _ hr, map_nil]

end Sift

end Sift
