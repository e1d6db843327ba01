import Ton.Lib.Result
/-!
# Computations that may go out of bounds

A computation over memory ends in a value or in an error, or it does something to which
the language gives no meaning, such as a read past the end of the memory. `Refines` says
that this does not happen, and that the computation ends as one on plain values does.
-/

/-- The value or the error in which a computation ends, or `none` where it has no meaning. -/
abbrev Guarded (ε α : Type) : Type := ExceptT ε Option α

namespace Guarded

variable {ε ε' α β γ δ : Type}

def undefined : Guarded ε α := ExceptT.mk none

def of (x : Except ε α) : Guarded ε α := ExceptT.mk (some x)

/-- What the next step relies on. -/
def need (p : Prop) [Decidable p] : Guarded ε Unit := if p then of (.ok ()) else undefined

/-- How the computation ends, as a value. -/
def attempt (x : Guarded ε α) : Guarded ε' (Except ε α) := ExceptT.mk (x.run.map .ok)

/-- `x` has a meaning and ends as `y` does, with related values. -/
inductive Refines (R : α → β → Prop) : Guarded ε α → Except ε β → Prop
  | ok {a : α} {b : β} (h : R a b) : Refines R (of (.ok a)) (.ok b)
  | error (e : ε) : Refines R (of (.error e)) (.error e)

namespace Refines

variable {R : α → β → Prop} {S : γ → δ → Prop} {x : Guarded ε α} {y : Except ε β}

theorem eq_of {x : Guarded ε α} {y : Except ε α} (h : Refines Eq x y) : x = of y := by
  cases h with
  | ok h => rw [h]
  | error e => rfl

theorem bind {f : α → Guarded ε γ} {g : β → Except ε δ} (h : Refines R x y) (hf : ∀ a b, y = .ok b → R a b → Refines S (f a) (g b)) :
    Refines S (x >>= f) (y >>= g) := by
  cases h with
  | ok h => exact hf _ _ rfl h
  | error e => exact .error e

theorem need {p : Prop} [Decidable p] {f : Unit → Guarded ε α} (hp : p) (h : Refines R (f ()) y) : Refines R (need p >>= f) y := by
  rw [Guarded.need, if_pos hp]
  exact h

theorem ite {c : Prop} [Decidable c] {x' : Guarded ε α} {y' : Except ε β} (ht : c → Refines R x y) (he : ¬c → Refines R x' y') :
    Refines R (if c then x else x') (if c then y else y') := by
  by_cases h : c
  · rw [if_pos h, if_pos h]
    exact ht h
  · rw [if_neg h, if_neg h]
    exact he h

end Refines

end Guarded
