import Ton.Lib.Result
import Mathlib
/-!
# Sorted lists with a key

A list whose elements have strictly growing keys is a finite map: it is fixed by
what `find` gives for each key. The two operations are the insertion at the
place a binary search found and the merge of two such lists.
-/

namespace Keyed
open List

variable {α κ ε : Type} [LinearOrder κ] (key : α → κ)

def Sorted (v : List α) : Prop := v.Pairwise fun a b => key a < key b

def find (v : List α) (k : κ) : Option α := v.find? fun a => key a = k

variable {key} {v w : List α} {a b : α} {k : κ}

theorem find_some (h : find key v k = some a) : a ∈ v ∧ key a = k :=
  ⟨mem_of_find?_eq_some h, by simpa using find?_some h⟩

theorem find_eq_none : find key v k = none ↔ ∀ a ∈ v, key a ≠ k := by simp [find]

theorem find_cons : find key (a :: v) k = if key a = k then some a else find key v k := by
  by_cases h : key a = k <;> simp [find, h]

theorem find_append : find key (v ++ w) k = (find key v k).or (find key w k) := find?_append

theorem Sorted.find_of_mem (hs : Sorted key v) (h : a ∈ v) : find key v (key a) = some a := by
  induction hs with
  | nil => cases h
  | @cons b v hb _ ih =>
    rw [find_cons]
    rcases mem_cons.1 h with rfl | h
    · rw [if_pos rfl]
    · rw [if_neg (hb a h).ne, ih h]

theorem Sorted.ext (hv : Sorted key v) (hw : Sorted key w) (h : ∀ k, find key v k = find key w k) : v = w := by
  have mem : ∀ {v w : List α}, Sorted key v → (∀ k, find key v k = find key w k) → ∀ a ∈ v, a ∈ w := by
    intro v w hv h a ha
    have := hv.find_of_mem ha
    rw [h] at this
    exact (find_some this).1
  have hnodup : ∀ {v : List α}, Sorted key v → v.Nodup := fun hs => hs.imp fun hlt heq => absurd (congrArg key heq) hlt.ne
  have hperm : v.Perm w := (perm_ext_iff_of_nodup (hnodup hv) (hnodup hw)).2 fun a =>
    ⟨mem hv h a, mem hw (fun k => (h k).symm) a⟩
  exact hperm.eq_of_pairwise (fun _ _ _ _ hab hba => absurd hab hba.not_gt) hv hw

theorem Sorted.cons (hs : Sorted key v) (h : ∀ b ∈ v, key a < key b) : Sorted key (a :: v) := pairwise_cons.2 ⟨h, hs⟩

theorem Sorted.of_cons (hs : Sorted key (a :: v)) : Sorted key v := (pairwise_cons.1 hs).2

theorem Sorted.lt_of_cons (hs : Sorted key (a :: v)) (h : b ∈ v) : key a < key b := (pairwise_cons.1 hs).1 b h

theorem find_none_of_lt (h : ∀ b ∈ v, k < key b) : find key v k = none :=
  find_eq_none.2 fun b hb => (h b hb).ne'

theorem Sorted.lt (hs : Sorted key v) {i j : ℕ} (hij : i < j) (hi : v[i]? = some a) (hj : v[j]? = some b) : key a < key b := by
  obtain ⟨hi', rfl⟩ := List.getElem?_eq_some_iff.1 hi
  obtain ⟨hj', rfl⟩ := List.getElem?_eq_some_iff.1 hj
  exact pairwise_iff_getElem.1 hs i j hi' hj' hij

theorem Sorted.set (hs : Sorted key v) {x : ℕ} (hx : v[x]? = some a) (hb : key b = key a) : Sorted key (v.set x b) := by
  refine pairwise_iff_getElem.2 fun i j hi hj hij => ?_
  obtain ⟨hx', rfl⟩ := List.getElem?_eq_some_iff.1 hx
  rw [length_set] at hi hj
  have hlt := pairwise_iff_getElem.1 hs i j hi hj hij
  rw [getElem_set, getElem_set]
  split_ifs with h1 h2 h2
  · omega
  · subst h1
    rwa [hb]
  · subst h2
    rwa [hb]
  · exact hlt

theorem find_set (hs : Sorted key v) {x : ℕ} (hx : v[x]? = some a) (hb : key b = key a) (k : κ) :
    find key (v.set x b) k = if key b = k then some b else find key v k := by
  induction v generalizing x with
  | nil => cases hx
  | cons c v ih =>
    cases x with
    | zero =>
      cases hx
      rw [set_cons_zero, find_cons, find_cons, hb]
      split_ifs <;> rfl
    | succ x =>
      have hne : key c < key b := hb ▸ hs.lt_of_cons (mem_of_getElem? hx)
      rw [set_cons_succ, find_cons, find_cons, ih hs.of_cons hx]
      by_cases hc : key c = k
      · rw [if_pos hc, if_pos hc, if_neg (hc ▸ hne.ne')]
      · rw [if_neg hc, if_neg hc]

theorem Sorted.insert (hv : Sorted key v) (hw : Sorted key w) (h1 : ∀ b ∈ v, key b < key a) (h2 : ∀ b ∈ w, key a < key b) :
    Sorted key (v ++ a :: w) := by
  refine pairwise_append.2 ⟨hv, hw.cons h2, fun b hb c hc => ?_⟩
  rcases mem_cons.1 hc with rfl | hc
  · exact h1 b hb
  · exact (h1 b hb).trans (h2 c hc)

theorem find_insert (h1 : ∀ b ∈ v, key b < key a) (k : κ) :
    find key (v ++ a :: w) k = if key a = k then some a else find key (v ++ w) k := by
  rw [find_append, find_append, find_cons]
  by_cases h : key a = k
  · rw [if_pos h, if_pos h, find_eq_none.2 fun b hb => h ▸ (h1 b hb).ne, Option.none_or]
  · rw [if_neg h, if_neg h]

end Keyed
