import Ton.Lib.Trie
import Mathlib.Data.List.Infix
/-!
# Merging two partial maps

`merge op f g` holds the keys of both maps; a key of both gets the value `op`
makes of its two, if any. `op` may also refuse two values (`Conflict`).

`Covers f g` is what a descent along the common start of all keys of `g` finds
out about `f`: at the first bit where keys of `g` part, `f` has keys on the same
sides.
-/

namespace BitMap
open List

variable {α : Type}

/-- A map with the empty key only. -/
def one (v : α) : BitMap α := Function.update empty [] (some v)

def HasKey (f : BitMap α) : Prop := ∃ k v, f k = some v

/-- `none`: the two values do not go together; `some none`: they cancel out. -/
abbrev Op (α : Type) := α → α → Option (Option α)

def merge (op : Op α) (f g : BitMap α) : BitMap α := fun k =>
  match f k, g k with
  | some x, some y => (op x y).getD none
  | some x, none => some x
  | none, o => o

def Conflict (op : Op α) (f g : BitMap α) : Prop := ∃ k x y, f k = some x ∧ g k = some y ∧ op x y = none

def Covers (f g : BitMap α) : Prop := ∀ p, (∀ k v, g k = some v → p <+: k) →
  ∀ k v, g k = some v → ∃ k' v', f k' = some v' ∧ k'.take (p.length + 1) = k.take (p.length + 1)

theorem under_cons (b : Bool) (r : List Bool) (f : BitMap α) :
    under (b :: r) f = if b then split empty (under r f) else split (under r f) empty := by
  rw [← singleton_append, ← under_under]
  cases b with
  | false => rw [if_neg Bool.false_ne_true, split_empty_right]
  | true => rw [if_pos rfl, split_empty_left]

theorem under_singleton_cons (b : Bool) (k : List Bool) (f : BitMap α) : under [b] f (b :: k) = f k := under_append [b] k f

theorem one_nil (v : α) : one v [] = some v := by simp [one]

theorem one_some {v w : α} {k : List Bool} (h : one v k = some w) : k = [] ∧ w = v := by
  by_cases hk : k = []
  · subst hk
    rw [one_nil] at h
    exact ⟨rfl, (Option.some.inj h).symm⟩
  · simp [one, Function.update, hk, empty] at h

theorem HasKey.under {f : BitMap α} (h : HasKey f) (p : List Bool) : HasKey (under p f) := by
  obtain ⟨k, v, hk⟩ := h
  exact ⟨p ++ k, v, by rw [under_append, hk]⟩

theorem hasKey_one (v : α) : HasKey (one v) := ⟨[], v, one_nil v⟩

theorem HasKey.split_left {f : BitMap α} (h : HasKey f) (g : BitMap α) : HasKey (split f g) := by
  obtain ⟨k, v, hk⟩ := h
  exact ⟨false :: k, v, hk⟩

section Merge
variable (op : Op α) (f g f' g' : BitMap α)

theorem merge_empty_right : merge op f empty = f := by
  funext k
  simp only [merge, empty]
  cases f k <;> rfl

theorem merge_empty_left : merge op empty g = g := by
  funext k
  simp only [merge, empty]

theorem merge_under (p : List Bool) : merge op (under p f) (under p g) = under p (merge op f g) := by
  funext k
  by_cases hp : p <+: k
  · simp [merge, under, hp]
  · simp [merge, under, hp]

theorem merge_split : merge op (split f g) (split f' g') = split (merge op f f') (merge op g g') := by
  funext k
  cases k with
  | nil => rfl
  | cons b k => cases b <;> rfl

theorem merge_one (x y : α) : merge op (one x) (one y) = match op x y with
    | some (some z) => one z
    | _ => empty := by
  funext k
  by_cases hk : k = []
  · subst hk
    simp only [merge, one_nil]
    rcases op x y with _ | _ | z
    · rfl
    · rfl
    · exact (one_nil z).symm
  · have h0 : ∀ v : α, one v k = none := fun v => by simp [one, Function.update, hk, empty]
    simp only [merge, h0]
    rcases op x y with _ | _ | z
    · rfl
    · rfl
    · exact (h0 z).symm

end Merge

section Conflict
variable {op : Op α} {f g f' g' : BitMap α}

theorem not_conflict_empty_right : ¬Conflict op f empty := by
  rintro ⟨k, x, y, -, hy, -⟩
  cases hy

theorem not_conflict_empty_left : ¬Conflict op empty g := by
  rintro ⟨k, x, y, hx, -⟩
  cases hx

theorem conflict_under (p : List Bool) : Conflict op (under p f) (under p g) ↔ Conflict op f g := by
  constructor
  · rintro ⟨k, x, y, hx, hy, ho⟩
    obtain ⟨k, rfl, hx'⟩ := under_some hx
    rw [under_append] at hy
    exact ⟨k, x, y, hx', hy, ho⟩
  · rintro ⟨k, x, y, hx, hy, ho⟩
    exact ⟨p ++ k, x, y, by rwa [under_append], by rwa [under_append], ho⟩

theorem conflict_split : Conflict op (split f g) (split f' g') ↔ Conflict op f f' ∨ Conflict op g g' := by
  constructor
  · rintro ⟨k, x, y, hx, hy, ho⟩
    obtain ⟨b, k, rfl, -⟩ := split_some hx
    cases b with
    | false => exact .inl ⟨k, x, y, hx, hy, ho⟩
    | true => exact .inr ⟨k, x, y, hx, hy, ho⟩
  · rintro (⟨k, x, y, hx, hy, ho⟩ | ⟨k, x, y, hx, hy, ho⟩)
    · exact ⟨false :: k, x, y, hx, hy, ho⟩
    · exact ⟨true :: k, x, y, hx, hy, ho⟩

theorem conflict_one {x y : α} : Conflict op (one x) (one y) ↔ op x y = none := by
  constructor
  · rintro ⟨k, x', y', hx, hy, ho⟩
    obtain ⟨-, rfl⟩ := one_some hx
    obtain ⟨-, rfl⟩ := one_some hy
    exact ho
  · exact fun h => ⟨[], x, y, one_nil x, one_nil y, h⟩

end Conflict

section Covers
variable {f g f' g' : BitMap α}

theorem covers_under (p : List Bool) : Covers (under p f) (under p g) ↔ Covers f g := by
  constructor
  · intro h q hq k v hk
    obtain ⟨k', v', hk', e⟩ := h (p ++ q) (fun j w hj => by
      obtain ⟨j, rfl, hj'⟩ := under_some hj
      exact (prefix_append_right_inj p).2 (hq j w hj')) (p ++ k) v (by rwa [under_append])
    obtain ⟨j, rfl, hj⟩ := under_some hk'
    rw [length_append, Nat.add_assoc, take_length_add_append, take_length_add_append] at e
    exact ⟨j, v', hj, append_cancel_left e⟩
  · intro h q hq k v hk
    obtain ⟨j, rfl, hj⟩ := under_some hk
    rcases prefix_or_prefix_of_prefix (hq _ v (by rwa [under_append])) (prefix_append p j) with hqp | ⟨q', rfl⟩
    · by_cases hlt : q.length < p.length
      · -- the keys of both maps go on along `p`
        obtain ⟨k', v', hk', -⟩ := h [] (fun _ _ _ => nil_prefix) j v hj
        refine ⟨p ++ k', v', by rwa [under_append], ?_⟩
        rw [take_append_of_le_length hlt, take_append_of_le_length hlt]
      · obtain rfl : q = p := hqp.eq_of_length (Nat.le_antisymm hqp.length_le (by omega))
        obtain ⟨k', v', hk', e⟩ := h [] (fun _ _ _ => nil_prefix) j v hj
        refine ⟨q ++ k', v', by rwa [under_append], ?_⟩
        rw [take_length_add_append, take_length_add_append]
        exact congrArg (q ++ ·) e
    · obtain ⟨k', v', hk', e⟩ := h q' (fun i w hi => by
        have := hq (p ++ i) w (by rwa [under_append])
        exact (prefix_append_right_inj p).1 this) j v hj
      refine ⟨p ++ k', v', by rwa [under_append], ?_⟩
      rw [length_append, Nat.add_assoc, take_length_add_append, take_length_add_append, e]

theorem covers_one (x y : α) : Covers (one x) (one y) := by
  intro p _ k v hk
  obtain ⟨rfl, -⟩ := one_some hk
  exact ⟨[], x, one_nil x, rfl⟩

/-- When the keys of `g` part here, a key on either side is enough. -/
theorem covers_split (hf : HasKey f) (hf' : HasKey f') (hg : HasKey g) (hg' : HasKey g') : Covers (split f f') (split g g') := by
  intro p hp k v hk
  -- no bit is common to all keys
  obtain ⟨k0, v0, h0⟩ := hg
  obtain ⟨k1, v1, h1⟩ := hg'
  have hp0 := hp (false :: k0) v0 h0
  have hp1 := hp (true :: k1) v1 h1
  obtain rfl : p = [] := by
    cases p with
    | nil => rfl
    | cons b p =>
      rw [cons_prefix_cons] at hp0 hp1
      exact absurd (hp0.1.symm.trans hp1.1) Bool.false_ne_true
  obtain ⟨b, k, rfl, -⟩ := split_some hk
  cases b with
  | false =>
    obtain ⟨j, w, hj⟩ := hf
    exact ⟨false :: j, w, hj, rfl⟩
  | true =>
    obtain ⟨j, w, hj⟩ := hf'
    exact ⟨true :: j, w, hj, rfl⟩

/-- All keys of `g` go on along one bit, and so must the keys of `f` that count. -/
theorem covers_side (b : Bool) : Covers (split f f') (under [b] g) ↔ Covers (if b then f' else f) g := by
  rw [← covers_under (f := if b then f' else f) [b]]
  have key : ∀ k v, under [b] (if b then f' else f) k = some v → split f f' k = some v := by
    intro k v hk
    obtain ⟨k, rfl, hk'⟩ := under_some hk
    cases b <;> exact hk'
  constructor
  · intro h p hp k v hk
    obtain ⟨k', v', hk', e⟩ := h p hp k v hk
    refine ⟨k', v', ?_, e⟩
    obtain ⟨k, rfl, -⟩ := under_some hk
    obtain ⟨c, j, rfl, hj⟩ := split_some hk'
    obtain rfl : c = b := by
      rw [take_succ_cons, singleton_append, take_succ_cons] at e
      exact (List.cons.inj e).1
    rw [under_singleton_cons]
    cases c <;> exact hj
  · intro h p hp k v hk
    obtain ⟨k', v', hk', e⟩ := h p hp k v hk
    exact ⟨k', v', key k' v' hk', e⟩

theorem not_covers_off (b : Bool) (hg : HasKey g) : ¬Covers (under [b] f) (under [!b] g) := by
  intro h
  obtain ⟨k, v, hk⟩ := hg
  obtain ⟨k', v', hk', e⟩ := h [] (fun _ _ _ => nil_prefix) ((!b) :: k) v (by rwa [under_singleton_cons])
  obtain ⟨k', rfl, -⟩ := under_some hk'
  simp only [length_nil, Nat.zero_add, singleton_append, take_succ_cons] at e
  cases b <;> simp at e

theorem not_covers_split (b : Bool) (hg : HasKey g) (hg' : HasKey g') : ¬Covers (under [b] f) (split g g') := by
  intro h
  have hk : HasKey (if b then g else g') := by cases b <;> assumption
  obtain ⟨k, v, hk⟩ := hk
  obtain ⟨k', v', hk', e⟩ := h [] (fun _ _ _ => nil_prefix) ((!b) :: k) v (by cases b <;> exact hk)
  obtain ⟨k', rfl, -⟩ := under_some hk'
  simp only [length_nil, Nat.zero_add, singleton_append, take_succ_cons] at e
  cases b <;> simp at e

theorem not_covers_parted (p r1 r2 : List Bool) (x : Bool) (hg : HasKey g) : ¬Covers (under (p ++ (!x) :: r1) f) (under (p ++ x :: r2) g) := by
  rw [← under_under, ← under_under, covers_under, ← singleton_append, ← singleton_append (x := x), ← under_under,
    ← under_under (p := [x])]
  have h := not_covers_off (f := under r1 f) (!x) (hg.under r2)
  rwa [Bool.not_not] at h

theorem covers_below (p r : List Bool) (sw : Bool) : Covers (under p (split f f')) (under (p ++ sw :: r) g) ↔
    Covers (if sw then f' else f) (under r g) := by
  rw [← under_under, covers_under, ← singleton_append, ← under_under, covers_side]

theorem not_covers_below (p r : List Bool) (sw : Bool) (hg : HasKey g) (hg' : HasKey g') : ¬Covers (under (p ++ sw :: r) f) (under p (split g g')) := by
  rw [← under_under, covers_under, ← singleton_append, ← under_under]
  exact not_covers_split sw hg hg'

end Covers

end BitMap
