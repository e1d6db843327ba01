import Ton.Lib.BitOrder
import Ton.Lib.Merge
/-!
# The differences of two partial maps

`Differences f g ks`: the keys at which `f` and `g` differ are those of `ks`, in
increasing order. The list is put together as the maps are, from `under` and `split`.
The keys of one map are its differences from the empty one (`Keys`).
-/

namespace BitMap
open List hiding after

open BitOrder

variable {α : Type}

structure Differences (f g : BitMap α) (ks : List (List Bool)) : Prop where
  mem : ∀ k, k ∈ ks ↔ f k ≠ g k
  ordered : ks.Pairwise (Ahead false false)

section Differences
variable {f g f' g' : BitMap α} {ks ls : List (List Bool)}

theorem differences_self (f : BitMap α) : Differences f f [] := ⟨fun _ => by simp, .nil⟩

theorem Differences.unique (h : Differences f g ks) (h' : Differences f g ls) : ks = ls := by
  have hnodup : ∀ {ks : List (List Bool)}, ks.Pairwise (Ahead false false) → ks.Nodup := fun h => h.imp Ahead.ne
  have hperm : ks.Perm ls := (perm_ext_iff_of_nodup (hnodup h.ordered) (hnodup h'.ordered)).mpr fun k => by rw [h.mem, h'.mem]
  exact hperm.eq_of_pairwise (fun a b _ _ hab hba => absurd hba hab.asymm) h.ordered h'.ordered

theorem ahead_append_self (p a b : List Bool) : Ahead false false (p ++ a) (p ++ b) ↔ Ahead false false a b := by
  rw [ahead_append, after, ite_self]

theorem Differences.under (h : Differences f g ks) (p : List Bool) : Differences (under p f) (under p g) (ks.map (p ++ ·)) := by
  refine ⟨fun k => ?_, h.ordered.map _ fun a b hab => (ahead_append_self p a b).mpr hab⟩
  rw [mem_map]
  by_cases hk : p <+: k
  · obtain ⟨k, rfl⟩ := hk
    rw [under_append, under_append, ← h.mem k]
    constructor
    · rintro ⟨k', hk', he⟩
      exact append_cancel_left he ▸ hk'
    · exact fun hk => ⟨k, hk, rfl⟩
  · refine iff_of_false ?_ (by simp [BitMap.under, hk])
    rintro ⟨k', -, rfl⟩
    exact hk (prefix_append p k')

/-- All differences of two maps under one edge are under the edge. -/
theorem Differences.of_under {p : List Bool} (h : Differences (BitMap.under p f) (BitMap.under p g) ks) :
    ∃ ls, ks = ls.map (p ++ ·) ∧ Differences f g ls := by
  have hp : ∀ k ∈ ks, p <+: k := fun k hk => by
    by_contra hno
    exact (h.mem k).mp hk (by simp [BitMap.under, hno])
  have hks : ks = (ks.map (List.drop p.length)).map (p ++ ·) := by
    rw [map_map]
    refine (map_id' ks).symm.trans (map_congr_left fun k hk => ?_)
    obtain ⟨r, rfl⟩ := hp k hk
    simp
  generalize ks.map (List.drop p.length) = ls at hks
  subst hks
  refine ⟨ls, rfl, fun k => ?_, (pairwise_map.mp h.ordered).imp fun {a b} hab => (ahead_append_self p a b).mp hab⟩
  have hk := h.mem (p ++ k)
  rw [under_append, under_append, mem_map] at hk
  rw [← hk]
  constructor
  · exact fun hk => ⟨k, hk, rfl⟩
  · rintro ⟨k', hk', he⟩
    exact append_cancel_left he ▸ hk'

theorem Differences.split (h0 : Differences f g ks) (h1 : Differences f' g' ls) :
    Differences (split f f') (split g g') (ks.map ([false] ++ ·) ++ ls.map ([true] ++ ·)) := by
  refine ⟨fun k => ?_, pairwise_append.mpr ⟨?_, ?_, ?_⟩⟩
  · rw [mem_append, mem_map, mem_map]
    cases k with
    | nil => simp [BitMap.split]
    | cons b k =>
      cases b with
      | false => simp [h0.mem]
      | true => simp [h1.mem]
  · exact h0.ordered.map _ fun a b hab => (ahead_append_self _ a b).mpr hab
  · exact h1.ordered.map _ fun a b hab => (ahead_append_self _ a b).mpr hab
  · intro a ha b hb
    obtain ⟨a, -, rfl⟩ := mem_map.mp ha
    obtain ⟨b, -, rfl⟩ := mem_map.mp hb
    rw [singleton_append, singleton_append, ahead_cons_of_ne Bool.false_ne_true]

theorem differences_nil (hne : f [] ≠ g []) (hf : ∀ k, k ≠ [] → f k = none) (hg : ∀ k, k ≠ [] → g k = none) : Differences f g [[]] := by
  refine ⟨fun k => ?_, pairwise_singleton _ _⟩
  rw [mem_singleton]
  constructor
  · rintro rfl
    exact hne
  · intro hk
    by_contra hno
    exact hk ((hf k hno).trans (hg k hno).symm)

end Differences

/-! ## The keys of a map -/

/-- The keys of the map are those of the list, in increasing order. -/
def Keys (f : BitMap α) (ks : List (List Bool)) : Prop := Differences f empty ks

/-- The map at the given keys only. -/
def only (f : BitMap α) (ks : List (List Bool)) : BitMap α := fun k => if k ∈ ks then f k else none

section Keys
variable {f g : BitMap α} {ks ls : List (List Bool)}

theorem keys_empty : Keys (empty : BitMap α) [] := differences_self empty

theorem Keys.mem (h : Keys f ks) (k : List Bool) : k ∈ ks ↔ f k ≠ none := Differences.mem h k

theorem keys_of_key {p : List Bool} {v : α} : Keys (Function.update empty p (some v)) [p] := by
  refine ⟨fun k => ?_, pairwise_singleton _ _⟩
  rw [mem_singleton]
  by_cases hk : k = p
  · rw [hk, Function.update_self]
    exact iff_of_true rfl fun h => Option.some_ne_none v h
  · rw [Function.update_of_ne hk]
    exact iff_of_false hk fun h => h rfl

theorem Keys.under_split (h : Keys f ks) (h' : Keys g ls) (p : List Bool) :
    Keys (under p (split f g)) (ks.map (p ++ false :: ·) ++ ls.map (p ++ true :: ·)) := by
  have hsplit := (Differences.split h h').under p
  rw [split_empty, under_empty, map_append, map_map, map_map] at hsplit
  exact hsplit

theorem only_nil (f : BitMap α) : only f [] = empty := rfl

theorem Keys.only_self (h : Keys f ks) : only f ks = f := by
  funext k
  rw [only]
  split
  · rfl
  · next hk =>
    rw [h.mem, not_not] at hk
    exact hk.symm

theorem only_under_split (p : List Bool) (f g : BitMap α) (ks ls : List (List Bool)) :
    only (under p (split f g)) (ks.map (p ++ false :: ·) ++ ls.map (p ++ true :: ·)) = under p (split (only f ks) (only g ls)) := by
  funext k
  by_cases hp : p <+: k
  · obtain ⟨k, rfl⟩ := hp
    rw [under_append, only, under_append]
    cases k with
    | nil => simp [split]
    | cons b k => cases b <;> simp [only]
  · rw [only, under, if_neg hp, ite_self, under, if_neg hp]

end Keys

end BitMap
