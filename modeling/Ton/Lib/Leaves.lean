import Mathlib.Data.List.Infix
/-!
# Binary trees and their leaves

A tree has data in its leaves and none in its forks; what cannot be read is `broken`. The
place of a leaf is the list of turns to it. `graft` puts a tree at a place that exists.
-/

inductive BinTree (α : Type) where
  | leaf (x : α)
  | fork (left right : BinTree α)
  | broken

namespace BinTree
open List

variable {α : Type}

/-- The leaf at a place, if there is one. -/
def leaf_at : BinTree α → List Bool → Option α
  | leaf x, [] => some x
  | fork l r, b :: p => if b then leaf_at r p else leaf_at l p
  | _, _ => none

/-- The tree with `value` at a place, if the place exists. -/
def graft (value : BinTree α) : BinTree α → List Bool → Option (BinTree α)
  | _, [] => some value
  | fork l r, b :: p => if b then (graft value r p).map (fork l) else (graft value l p).map (fork · r)
  | _, _ :: _ => none

variable {value t t' : BinTree α} {p q : List Bool}

@[simp] theorem leaf_at_leaf (x : α) : (leaf x).leaf_at q = if q = [] then some x else none := by
  cases q <;> rfl

@[simp] theorem leaf_at_fork_nil (l r : BinTree α) : (fork l r).leaf_at [] = none := rfl

@[simp] theorem leaf_at_fork_cons (l r : BinTree α) (b : Bool) : (fork l r).leaf_at (b :: q) = if b then r.leaf_at q else l.leaf_at q := rfl

@[simp] theorem graft_nil : graft value t [] = some value := by
  cases t <;> rfl

theorem graft_fork_cons (l r : BinTree α) (b : Bool) :
    graft value (fork l r) (b :: p) = if b then (graft value r p).map (fork l) else (graft value l p).map (fork · r) := rfl

/-- Under the place are the leaves of the new tree, elsewhere those of the old one. -/
theorem leaf_at_graft (h : graft value t p = some t') (q : List Bool) :
    t'.leaf_at q = if p <+: q then value.leaf_at (q.drop p.length) else t.leaf_at q := by
  induction p generalizing t t' q with
  | nil =>
    rw [graft_nil] at h
    cases h
    simp
  | cons b p ih =>
    cases t with
    | leaf x => cases h
    | broken => cases h
    | fork l r =>
      rw [graft_fork_cons] at h
      cases q with
      | nil =>
        have hfork : ∃ l' r', t' = fork l' r' := by
          split at h
          all_goals
            obtain ⟨s, -, rfl⟩ := Option.map_eq_some_iff.1 h
            exact ⟨_, _, rfl⟩
        obtain ⟨l', r', rfl⟩ := hfork
        simp
      | cons c q =>
        simp only [cons_prefix_cons, length_cons, drop_succ_cons, leaf_at_fork_cons]
        cases b
        · obtain ⟨s, hs, rfl⟩ := Option.map_eq_some_iff.1 h
          have hq := ih hs q
          cases c <;> simp [hq]
        · obtain ⟨s, hs, rfl⟩ := Option.map_eq_some_iff.1 h
          have hq := ih hs q
          cases c <;> simp [hq]

theorem eq_of_leaf_at {x y : α} (hp : t.leaf_at p = some x) (hq : t.leaf_at q = some y) (h : p <+: q) : p = q := by
  induction p generalizing t q with
  | nil =>
    cases t with
    | leaf z =>
      by_contra hne
      rw [leaf_at_leaf, if_neg (Ne.symm hne)] at hq
      cases hq
    | fork l r => cases hp
    | broken => cases hp
  | cons b p ih =>
    obtain ⟨s, rfl⟩ := h
    cases t with
    | leaf z => cases hp
    | broken => cases hp
    | fork l r =>
      rw [cons_append, leaf_at_fork_cons] at *
      cases b
      · exact congrArg _ (ih hp hq (prefix_append ..))
      · exact congrArg _ (ih hp hq (prefix_append ..))

end BinTree
