/-!
# Computations that can fail

How a successful `do` block over `Except` or `Option` comes apart.
-/

namespace Result

variable {ε α β : Type}

variable {x : Except ε α}

theorem bind_ok {f : α → Except ε β} {b : β} :
    (x >>= f) = .ok b ↔ ∃ a, x = .ok a ∧ f a = .ok b := by
  cases x with
  | error e => simp [bind, Except.bind]
  | ok a => simp [bind, Except.bind]

@[simp] theorem ok_bind (a : α) (f : α → Except ε β) : ((.ok a : Except ε α) >>= f) = f a := rfl

@[simp] theorem error_bind (e : ε) (f : α → Except ε β) : ((.error e : Except ε α) >>= f) = .error e := rfl

theorem ite_error_ok {c : Prop} [Decidable c] {e : ε} {a : α} :
    (if c then .error e else x) = .ok a ↔ ¬c ∧ x = .ok a := by
  by_cases h : c <;> simp [h]

theorem ite_bind (c : Prop) [Decidable c] (x y : Except ε α) (f : α → Except ε β) :
    (if c then x >>= f else y >>= f) = (if c then x else y) >>= f := by
  split <;> rfl

theorem map_ok {f : α → β} {b : β} (h : f <$> x = .ok b) : ∃ a, x = .ok a ∧ f a = b := by
  cases x with
  | error e => cases h
  | ok a => exact ⟨a, rfl, Except.ok.inj h⟩

theorem exists_ok_of_isSome (h : x.toOption.isSome = true) : ∃ a, x = .ok a := by
  cases x with
  | error e => cases h
  | ok a => exact ⟨a, rfl⟩

/-- Whether a computation succeeds with a value that has the property. -/
def satisfies (P : α → Bool) : Except ε α → Bool
  | .ok a => P a
  | .error _ => false

theorem exists_of_satisfies {P : α → Bool} (h : satisfies P x = true) : ∃ a, x = .ok a ∧ P a = true := by
  cases x with
  | error e => cases h
  | ok a => exact ⟨a, rfl, h⟩

/-- Two optional values joined by `f` where both are there. -/
def join (f : α → α → Except ε α) : Option α → Option α → Except ε (Option α)
  | some a, some b => some <$> f a b
  | some a, none => .ok (some a)
  | none, y => .ok y

end Result
