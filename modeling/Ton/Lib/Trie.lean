import Mathlib.Logic.Function.Basic
/-!
# Compressed binary tries

A trie is a leaf or a fork, each under a label. Its meaning is the partial map
`lookup`, built from three operations on partial maps: `Function.update`,
`under` (a common start of all keys) and `split` (a first bit). The laws of these
operations are what the changes of a trie are checked against.

A trie is determined by its meaning (`lookup_injective`): labels are maximal
because both sides of a fork have keys.
-/

/-- A partial map from bit strings. -/
abbrev BitMap (α : Type) := List Bool → Option α

namespace BitMap
open List Function

variable {α β : Type}

def empty : BitMap α := fun _ => none

/-- The keys of `f` with `p` put before them. -/
def under (p : List Bool) (f : BitMap α) : BitMap α := fun k => if p <+: k then f (k.drop p.length) else none

/-- The keys of `f` after a zero, those of `g` after a one. -/
def split (f g : BitMap α) : BitMap α
  | [] => none
  | b :: k => if b then g k else f k

theorem empty_apply (k : List Bool) : (empty : BitMap α) k = none := rfl

theorem under_apply (p k : List Bool) (f : BitMap α) : under p f k = if p <+: k then f (k.drop p.length) else none := rfl

@[simp] theorem under_append (p k : List Bool) (f : BitMap α) : under p f (p ++ k) = f k := by simp [under_apply]

theorem split_nil (f g : BitMap α) : split f g [] = none := rfl

@[simp] theorem split_cons (f g : BitMap α) (b : Bool) (k : List Bool) :
    split f g (b :: k) = if b then g k else f k := rfl

variable {p q : List Bool} {k : List Bool} {v : α}

theorem under_some {p k : List Bool} {f : BitMap α} (h : under p f k = some v) :
    ∃ k', k = p ++ k' ∧ f k' = some v := by
  rw [under_apply] at h
  split at h
  · next hp =>
    obtain ⟨k', rfl⟩ := hp
    exact ⟨k', rfl, by simpa using h⟩
  · cases h

theorem split_some {f g : BitMap α} (h : split f g k = some v) :
    ∃ b k', k = b :: k' ∧ (if b then g else f) k' = some v := by
  cases k with
  | nil => cases h
  | cons b k => exact ⟨b, k, rfl, by cases b <;> exact h⟩

theorem under_nil (f : BitMap α) : under [] f = f := by
  funext k
  simp [under_apply]

@[simp] theorem under_empty (p : List Bool) : under p (empty : BitMap α) = empty := by
  funext k
  simp [under_apply, empty_apply]

theorem under_under (p q : List Bool) (f : BitMap α) : under p (under q f) = under (p ++ q) f := by
  funext k
  by_cases hp : p <+: k
  · obtain ⟨k, rfl⟩ := hp
    simp [under_apply, drop_append, drop_eq_nil_of_le]
  · have hpq : ¬p ++ q <+: k := fun h => hp ((prefix_append p q).trans h)
    simp [under_apply, hp, hpq]

theorem under_injective (p : List Bool) : Injective (under p : BitMap α → BitMap α) := by
  intro f g h
  funext k
  simpa using congrFun h (p ++ k)

theorem split_injective {f f' g g' : BitMap α} (h : split f g = split f' g') : f = f' ∧ g = g' :=
  ⟨funext fun k => by simpa using congrFun h (false :: k), funext fun k => by simpa using congrFun h (true :: k)⟩

theorem split_empty_right (f : BitMap α) : split f empty = under [false] f := by
  funext k
  rcases k with _ | ⟨_ | _, k⟩ <;> simp [split_nil, under_apply, empty_apply]

theorem split_empty_left (g : BitMap α) : split empty g = under [true] g := by
  funext k
  rcases k with _ | ⟨_ | _, k⟩ <;> simp [split_nil, under_apply, empty_apply]

theorem split_empty : split (empty : BitMap α) empty = empty := by
  rw [split_empty_left, under_empty]

theorem update_under (p k : List Bool) (f : BitMap α) (o : Option α) :
    update (under p f) (p ++ k) o = under p (update f k o) := by
  funext j
  by_cases hp : p <+: j
  · obtain ⟨j, rfl⟩ := hp
    by_cases hj : j = k
    · simp [hj]
    · simp [update, hj]
  · have hj : j ≠ p ++ k := fun h => hp ⟨k, h.symm⟩
    simp [update, hj, under_apply, hp]

theorem update_split (f g : BitMap α) (b : Bool) (k : List Bool) (o : Option α) :
    update (split f g) (b :: k) o =
      if b then split f (update g k o) else split (update f k o) g := by
  funext j
  cases j with
  | nil => cases b <;> simp [update, split_nil]
  | cons c j => cases b <;> cases c <;> simp [update]

theorem under_split_append (p k : List Bool) (f g : BitMap α) (b : Bool) :
    under p (split f g) (p ++ b :: k) = (if b then g else f) k := by
  rw [under_append]
  cases b <;> rfl

theorem update_under_split (p k : List Bool) (f g : BitMap α) (b : Bool) (o : Option α) :
    update (under p (split f g)) (p ++ b :: k) o =
      under p (if b then split f (update g k o) else split (update f k o) g) := by
  rw [update_under, update_split]

theorem under_off (q r k : List Bool) (x : Bool) (f : BitMap α) : under (q ++ x :: r) f (q ++ (!x) :: k) = none := by
  rw [← under_under, under_append]
  cases x <;> simp [under_apply]

/-- To add a key that leaves a common start of all keys is to split there. -/
theorem update_off (q r k : List Bool) (x : Bool) (f : BitMap α) (o : Option α) :
    update (under (q ++ x :: r) f) (q ++ (!x) :: k) o =
      under q (if x then split (update empty k o) (under r f) else split (under r f) (update empty k o)) := by
  have e : under (x :: r) f = if x then split empty (under r f) else split (under r f) empty := by
    rw [← singleton_append, ← under_under]
    cases x with
    | false => rw [split_empty_right]; rfl
    | true => rw [split_empty_left]; rfl
  rw [← under_under, update_under, e]
  cases x with
  | false => rw [if_neg Bool.false_ne_true, Bool.not_false, update_split]; rfl
  | true => rw [if_pos rfl, Bool.not_true, update_split]; rfl

/-- The keys of a map that start with given bits. -/
def within (p : List Bool) (f : BitMap α) : BitMap α := fun k => if p <+: k then f k else none

theorem within_apply (p k : List Bool) (f : BitMap α) : within p f k = if p <+: k then f k else none := rfl

theorem within_under_append (p q : List Bool) (f : BitMap α) :
    within (p ++ q) (under p f) = under p (within q f) := by
  funext k
  by_cases hp : p <+: k
  · obtain ⟨k, rfl⟩ := hp
    simp only [within_apply, under_append, prefix_append_right_inj]
  · rw [under_apply, if_neg hp, within_apply, if_neg fun h => hp ((prefix_append _ _).trans h)]

theorem within_under_of_start (h : p <+: q) (f : BitMap α) :
    within p (under q f) = under q f := by
  funext k
  by_cases hq : q <+: k
  · rw [within_apply, if_pos (h.trans hq)]
  · rw [within_apply, under_apply, if_neg hq, ite_self]

theorem within_under_off (h : ¬p <+: q) (h' : ¬q <+: p) (f : BitMap α) :
    within p (under q f) = empty := by
  funext k
  by_cases hp : p <+: k
  · have hq : ¬q <+: k := fun hq => (List.prefix_or_prefix_of_prefix hp hq).elim h h'
    rw [within_apply, if_pos hp, under_apply, if_neg hq]
    rfl
  · rw [within_apply, if_neg hp]
    rfl

theorem within_split (b : Bool) (p : List Bool) (f g : BitMap α) :
    within (b :: p) (split f g) = under [b] (within p (if b then g else f)) := by
  funext k
  cases k with
  | nil => cases b <;> simp [within_apply, under_apply]
  | cons b' k => cases b <;> cases b' <;> simp [within_apply, under_apply]

/-- What follows given bits in the keys that start with them. -/
def following (p : List Bool) (f : BitMap α) : BitMap α := fun k => f (p ++ k)

theorem following_apply (p k : List Bool) (f : BitMap α) : following p f k = f (p ++ k) := rfl

theorem following_under_append (p q : List Bool) (f : BitMap α) : following (p ++ q) (under p f) = following q f := by
  funext k
  rw [following_apply, append_assoc, under_append]
  rfl

theorem following_under_of_start (p q : List Bool) (f : BitMap α) : following p (under (p ++ q) f) = under q f := by
  funext k
  rw [following_apply, ← under_under, under_append]

theorem following_under_off (h : ¬p <+: q) (h' : ¬q <+: p) (f : BitMap α) :
    following p (under q f) = empty := by
  funext k
  have hq : ¬q <+: p ++ k := fun hq => (List.prefix_or_prefix_of_prefix (prefix_append p k) hq).elim h h'
  rw [following_apply, under_apply, if_neg hq]
  rfl

theorem following_split (b : Bool) (p : List Bool) (f g : BitMap α) :
    following (b :: p) (split f g) = following p (if b then g else f) := by
  funext k
  cases b <;> rfl

/-! ## Prefix codes -/

/-- A key of `f` other than `key` is a start of it, or starts with it. -/
def Clash (f : BitMap α) (key : List Bool) : Prop := ∃ k v, f k = some v ∧ k ≠ key ∧ (k <+: key ∨ key <+: k)

theorem not_clash_empty (key : List Bool) : ¬Clash (empty : BitMap α) key := by
  rintro ⟨k, v, h, -⟩
  cases h

theorem clash_under (p k : List Bool) (f : BitMap α) : Clash (under p f) (p ++ k) ↔ Clash f k := by
  constructor
  · rintro ⟨j, v, hj, hne, hpre⟩
    obtain ⟨i, rfl, hi⟩ := under_some hj
    rw [prefix_append_right_inj, prefix_append_right_inj] at hpre
    exact ⟨i, v, hi, fun e => hne (by rw [e]), hpre⟩
  · rintro ⟨j, v, hj, hne, hpre⟩
    refine ⟨p ++ j, v, by rw [under_append, hj], fun e => hne (append_cancel_left e), ?_⟩
    rwa [prefix_append_right_inj, prefix_append_right_inj]

theorem clash_split (b : Bool) (k : List Bool) (f g : BitMap α) :
    Clash (split f g) (b :: k) ↔ Clash (if b then g else f) k := by
  constructor
  · rintro ⟨j, v, hj, hne, hpre⟩
    obtain ⟨c, i, rfl, hi⟩ := split_some hj
    rw [cons_prefix_cons, cons_prefix_cons] at hpre
    obtain rfl : c = b := hpre.elim And.left fun h => h.1.symm
    exact ⟨i, v, hi, fun e => hne (by rw [e]), hpre.imp And.right And.right⟩
  · rintro ⟨j, v, hj, hne, hpre⟩
    refine ⟨b :: j, v, by cases b <;> exact hj, fun e => hne (List.cons.inj e).2, ?_⟩
    rw [cons_prefix_cons, cons_prefix_cons]
    exact hpre.imp (⟨rfl, ·⟩) (⟨rfl, ·⟩)

/-- A key that leaves a common start of all keys clashes with none. -/
theorem not_clash_off (q r k : List Bool) (x : Bool) (f : BitMap α) : ¬Clash (under (q ++ x :: r) f) (q ++ (!x) :: k) := by
  rintro ⟨j, v, hj, -, hpre⟩
  obtain ⟨j, rfl, -⟩ := under_some hj
  rw [append_assoc, prefix_append_right_inj, prefix_append_right_inj, cons_append,
    cons_prefix_cons, cons_prefix_cons] at hpre
  cases x <;> simp at hpre

theorem clash_of_short {q r : List Bool} {x : Bool} {f : BitMap α} (h : f k = some v) :
    Clash (under (q ++ x :: r) f) q := by
  refine ⟨q ++ x :: r ++ k, v, by rw [under_append, h], fun e => ?_, .inr ?_⟩
  · simpa using congrArg List.length e
  · rw [append_assoc]
    exact prefix_append _ _

theorem clash_split_nil {f g : BitMap α} (h : f k = some v) : Clash (split f g) [] :=
  ⟨false :: k, v, h, by simp, .inr nil_prefix⟩

end BitMap

open BitMap List Function

inductive Trie (α : Type) where
  | leaf (label : List Bool) (v : α)
  | fork (label : List Bool) (l r : Trie α)

namespace Trie

variable {α : Type}

def label : Trie α → List Bool
  | leaf p _ => p
  | fork p _ _ => p

def lookup : Trie α → BitMap α
  | leaf p v => update empty p (some v)
  | fork p l r => under p (split l.lookup r.lookup)

theorem lookup_leaf (p : List Bool) (v : α) : (leaf p v).lookup = update empty p (some v) := rfl

theorem lookup_fork (p : List Bool) (l r : Trie α) : (fork p l r).lookup = under p (split l.lookup r.lookup) := rfl

/-! ## Uniqueness -/

theorem exists_key (t : Trie α) : ∃ k v, t.lookup k = some v := by
  induction t with
  | leaf p v => exact ⟨p, v, by simp [lookup_leaf]⟩
  | fork p l r ihl _ =>
    obtain ⟨k, v, h⟩ := ihl
    exact ⟨p ++ false :: k, v, by simp [lookup_fork, h]⟩

/-- A common start of all keys of a fork is a start of its label. -/
theorem prefix_label_of_keys {p q : List Bool} {l r : Trie α}
    (h : ∀ k v, (fork p l r).lookup k = some v → q <+: k) : q <+: p := by
  obtain ⟨k₀, v₀, h₀⟩ := l.exists_key
  obtain ⟨k₁, v₁, h₁⟩ := r.exists_key
  have hl := h (p ++ false :: k₀) v₀ (by simp [lookup_fork, h₀])
  have hr := h (p ++ true :: k₁) v₁ (by simp [lookup_fork, h₁])
  rcases prefix_or_prefix_of_prefix hl (prefix_append p _) with hq | hq
  · exact hq
  · -- otherwise `q` goes on after `p` with the bit of both sides
    obtain ⟨s, rfl⟩ := hq
    rw [prefix_append_right_inj] at hl hr
    cases s with
    | nil => simp
    | cons b s =>
      rw [cons_prefix_cons] at hl hr
      exact absurd (hl.1.symm.trans hr.1) (by simp)

theorem label_prefix_of_lookup {p k : List Bool} {l r : Trie α} {v : α} (h : (fork p l r).lookup k = some v) : p <+: k := by
  obtain ⟨k', rfl, -⟩ := under_some h
  exact prefix_append p k'

theorem lookup_leaf_ne_fork (p q : List Bool) (v : α) (l r : Trie α) : (leaf p v).lookup ≠ (fork q l r).lookup := by
  intro h
  obtain ⟨k₀, v₀, h₀⟩ := l.exists_key
  obtain ⟨k₁, v₁, h₁⟩ := r.exists_key
  have key : ∀ k w, (fork q l r).lookup k = some w → k = p := by
    intro k w hk
    rw [← h, lookup_leaf] at hk
    by_contra hne
    simp [update, hne, empty_apply] at hk
  have e₀ := key (q ++ false :: k₀) v₀ (by simp [lookup_fork, h₀])
  have e₁ := key (q ++ true :: k₁) v₁ (by simp [lookup_fork, h₁])
  have e := append_cancel_left (e₀.trans e₁.symm)
  exact absurd (List.cons.inj e).1 (by simp)

theorem lookup_injective : Injective (lookup : Trie α → BitMap α) := by
  intro t
  induction t with
  | leaf p v =>
    intro t' h
    cases t' with
    | leaf p' v' =>
      have hp : (leaf p' v').lookup p = some v := by rw [← h]; simp [lookup_leaf]
      by_cases e : p = p'
      · subst e
        simp only [lookup_leaf, update_self, Option.some.injEq] at hp
        rw [hp]
      · simp [lookup_leaf, update, e, empty_apply] at hp
    | fork p' l' r' => exact absurd h (lookup_leaf_ne_fork _ _ _ _ _)
  | fork p l r ihl ihr =>
    intro t' h
    cases t' with
    | leaf p' v' => exact absurd h.symm (lookup_leaf_ne_fork _ _ _ _ _)
    | fork p' l' r' =>
      have h₁ : p <+: p' := prefix_label_of_keys fun k v hk => label_prefix_of_lookup (h ▸ hk)
      have h₂ : p' <+: p := prefix_label_of_keys fun k v hk => label_prefix_of_lookup (h ▸ hk)
      obtain rfl : p = p' := h₁.eq_of_length_le h₂.length_le
      obtain ⟨hl, hr⟩ := split_injective (under_injective p h)
      rw [ihl hl, ihr hr]

/-! ## Keys -/

theorem key_prefix_free {t : Trie α} {k k' : List Bool} {v v' : α} (h : t.lookup k = some v) (h' : t.lookup k' = some v')
    (hp : k <+: k') : k = k' := by
  induction t generalizing k k' with
  | leaf p w =>
    have key : ∀ {j : List Bool} {u : α}, (leaf p w).lookup j = some u → j = p := by
      intro j u hj
      by_contra hne
      simp [lookup_leaf, update, hne, empty_apply] at hj
    rw [key h, key h']
  | fork p l r ihl ihr =>
    obtain ⟨j, rfl, hj⟩ := under_some h
    obtain ⟨j', rfl, hj'⟩ := under_some h'
    obtain ⟨b, i, rfl, hi⟩ := split_some hj
    obtain ⟨b', i', rfl, hi'⟩ := split_some hj'
    rw [prefix_append_right_inj, cons_prefix_cons] at hp
    obtain ⟨rfl, hp⟩ := hp
    cases b with
    | false => rw [ihl hi hi' hp]
    | true => rw [ihr hi hi' hp]

end Trie
