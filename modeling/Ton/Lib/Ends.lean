import Ton.Lib.Result
import Mathlib
/-!
# How a computation ends

What holds of the value of a computation that may fail, and in which ways it may
fail. The rules take a `do` block apart, and a loop by an invariant.
-/

namespace Result

variable {ε α β : Type} {bad bad' : ε → Prop} {x : Except ε α} {P Q : α → Prop}

/-- The computation ends in a value with the property, or fails in one of the ways in `bad`. -/
def Ends (bad : ε → Prop) (x : Except ε α) (P : α → Prop) : Prop := (∃ a, x = .ok a ∧ P a) ∨ ∃ e, x = .error e ∧ bad e

namespace Ends

theorem ok {a : α} (h : P a) : Ends bad (.ok a) P := .inl ⟨a, rfl, h⟩

theorem error {e : ε} (h : bad e) : Ends bad (.error e : Except ε α) P := .inr ⟨e, rfl, h⟩

theorem of_eq {a : α} (hx : x = .ok a) (h : P a) : Ends bad x P := .inl ⟨a, hx, h⟩

theorem mono (h : Ends bad x P) (hPQ : ∀ a, P a → Q a) : Ends bad x Q := by
  rcases h with ⟨a, rfl, ha⟩ | ⟨e, rfl, he⟩
  · exact ok (hPQ a ha)
  · exact error he

theorem weaken (h : Ends bad x P) (hbad : ∀ e, bad e → bad' e) : Ends bad' x P := by
  rcases h with ⟨a, rfl, ha⟩ | ⟨e, rfl, he⟩
  · exact ok ha
  · exact error (hbad e he)

theorem and (h : Ends bad x P) (h' : Ends bad' x Q) : Ends bad x fun a => P a ∧ Q a := by
  rcases h with ⟨a, rfl, ha⟩ | ⟨e, rfl, he⟩
  · rcases h' with ⟨a', heq, ha'⟩ | ⟨e, heq, -⟩
    · cases heq
      exact ok ⟨ha, ha'⟩
    · cases heq
  · exact error he

theorem meet (h : Ends bad x P) (h' : Ends bad' x Q) : Ends (fun e => bad e ∧ bad' e) x P := by
  rcases h with ⟨a, rfl, ha⟩ | ⟨e, rfl, he⟩
  · exact ok ha
  · rcases h' with ⟨a, heq, -⟩ | ⟨e', heq, he'⟩
    · cases heq
    · cases heq
      exact error ⟨he, he'⟩

theorem bind {f : α → Except ε β} {R : β → Prop} (h : Ends bad x P) (hf : ∀ a, P a → Ends bad (f a) R) : Ends bad (x >>= f) R := by
  rcases h with ⟨a, rfl, ha⟩ | ⟨e, rfl, he⟩
  · exact hf a ha
  · exact error he

theorem ite {c : Prop} [Decidable c] {y : Except ε α} (ht : c → Ends bad x P) (he : ¬c → Ends bad y P) :
    Ends bad (if c then x else y) P := by
  split
  · next h => exact ht h
  · next h => exact he h

/-- The property of the value is that of the computation when it succeeds. -/
theorem of_ok {a : α} (h : Ends bad x P) (hx : x = .ok a) : P a := by
  rcases h with ⟨b, rfl, hb⟩ | ⟨e, rfl, -⟩
  · cases hx
    exact hb
  · cases hx

theorem bad_of_error {e : ε} (h : Ends bad x P) (hx : x = .error e) : bad e := by
  rcases h with ⟨b, rfl, -⟩ | ⟨e', rfl, he⟩
  · cases hx
  · cases hx
    exact he

theorem exists_ok (h : Ends (fun _ => False) x P) : ∃ a, x = .ok a ∧ P a := by
  rcases h with h | ⟨e, -, he⟩
  · exact h
  · exact he.elim

theorem foldlM {f : α → β → Except ε α} {l : List β} (hf : ∀ a b, b ∈ l → P a → Ends bad (f a b) P) {a : α} (ha : P a) :
    Ends bad (l.foldlM f a) P := by
  induction l generalizing a with
  | nil => exact ok ha
  | cons b l ih =>
    rw [List.foldlM_cons]
    refine (hf a b (List.mem_cons_self ..) ha).bind fun a' ha' => ?_
    exact ih (fun a b hb => hf a b (List.mem_cons_of_mem _ hb)) ha'

end Ends

/-- The way in which a computation fails. -/
def failure : Except ε α → Option ε
  | .ok _ => none
  | .error e => some e

theorem error_of_failure {e : ε} (h : failure x = some e) : x = .error e := by
  cases x with
  | ok a => cases h
  | error e' => rw [Option.some.inj h]

end Result
