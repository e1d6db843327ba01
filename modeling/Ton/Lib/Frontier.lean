import Mathlib
/-!
# Lists whose entries stand for others

Each entry of a list stands for a multiset of things, and the list for the sum of these, in
whatever order the entries are.
-/

namespace Frontier

variable {α β : Type} {Stands : α → Multiset β → Prop} {a : α} {l l' : List α} {s t : Multiset β}

inductive Holds (Stands : α → Multiset β → Prop) : List α → Multiset β → Prop
  | nil : Holds Stands [] 0
  | cons {a : α} {l : List α} {s t : Multiset β} (ha : Stands a s) (hl : Holds Stands l t) : Holds Stands (a :: l) (s + t)

theorem Holds.perm (h : Holds Stands l s) (hp : l.Perm l') : Holds Stands l' s := by
  induction hp generalizing s with
  | nil => exact h
  | cons a _ ih =>
    obtain _ | ⟨ha, hl⟩ := h
    exact .cons ha (ih hl)
  | swap a b l =>
    obtain _ | ⟨hb, _ | ⟨ha, hl⟩⟩ := h
    rw [add_left_comm]
    exact .cons ha (.cons hb hl)
  | trans _ _ ih ih' => exact ih' (ih h)

theorem Holds.snoc (h : Holds Stands l s) (ha : Stands a t) : Holds Stands (l ++ [a]) (t + s) :=
  (Holds.cons ha h).perm (List.perm_append_singleton a l).symm

theorem Holds.mem (h : Holds Stands l s) {x : β} (hx : x ∈ s) : ∃ a ∈ l, ∃ t, Stands a t ∧ x ∈ t := by
  induction h with
  | nil => exact absurd hx (Multiset.notMem_zero x)
  | @cons a l s t ha hl ih =>
    rcases Multiset.mem_add.1 hx with hx | hx
    · exact ⟨a, List.mem_cons_self, s, ha, hx⟩
    · obtain ⟨b, hb, t', hb', hx'⟩ := ih hx
      exact ⟨b, List.mem_cons_of_mem a hb, t', hb', hx'⟩

end Frontier
