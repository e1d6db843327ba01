import Mathlib
/-!
# The least of what is there

Values that some set of sources offer, of which the one with the least key is
kept. What is kept of two sets of sources is joined from what is kept of each.
-/

namespace Least

variable {α κ : Type} [LinearOrder κ] {key : α → κ} {P Q : α → Prop} {a b : Option α}

/-- `a` has the least key among the values with the property; there is none when it is nothing. -/
def Of (key : α → κ) (P : α → Prop) : Option α → Prop
  | none => ∀ x, ¬ P x
  | some a => P a ∧ ∀ x, P x → key a ≤ key x

def join (key : α → κ) : Option α → Option α → Option α
  | none, r => r
  | l, none => l
  | some l, some r => if key l < key r then some l else some r

theorem Of.congr (h : Of key P a) (hPQ : ∀ x, P x ↔ Q x) : Of key Q a := by
  cases a with
  | none => exact fun x hx => h x ((hPQ x).2 hx)
  | some a => exact ⟨(hPQ a).1 h.1, fun x hx => h.2 x ((hPQ x).2 hx)⟩

theorem Of.unique (hkey : Function.Injective key) (h : Of key P a) (h' : Of key P b) : a = b := by
  rcases a with _ | a <;> rcases b with _ | b
  · rfl
  · exact absurd h'.1 (h b)
  · exact absurd h.1 (h' a)
  · exact congrArg some (hkey (le_antisymm (h.2 b h'.1) (h'.2 a h.1)))

theorem of_none : Of key (fun _ => False) none := fun _ => id

theorem of_self (a : Option α) : Of key (fun x => a = some x) a := by
  cases a with
  | none => exact fun x => (nomatch ·)
  | some a => exact ⟨rfl, fun x hx => by cases hx; exact le_rfl⟩

theorem Of.both (h : Of key P a) (h' : Of key Q a) : Of key (fun x => P x ∨ Q x) a := by
  cases a with
  | none => exact fun x hx => hx.elim (h x) (h' x)
  | some a => exact ⟨.inl h.1, fun x hx => hx.elim (h.2 x) (h'.2 x)⟩

theorem Of.join (h : Of key P a) (h' : Of key Q b) : Of key (fun x => P x ∨ Q x) (join key a b) := by
  rcases a with _ | a <;> rcases b with _ | b
  · exact fun x hx => hx.elim (h x) (h' x)
  · exact ⟨.inr h'.1, fun x hx => hx.elim (fun hx => absurd hx (h x)) (h'.2 x)⟩
  · exact ⟨.inl h.1, fun x hx => hx.elim (h.2 x) fun hx => absurd hx (h' x)⟩
  · unfold Least.join
    dsimp only
    split_ifs with hlt
    · exact ⟨.inl h.1, fun x hx => hx.elim (h.2 x) fun hx => hlt.le.trans (h'.2 x hx)⟩
    · exact ⟨.inr h'.1, fun x hx => hx.elim (fun hx => (not_lt.1 hlt).trans (h.2 x hx)) (h'.2 x)⟩

end Least
