import Mathlib.Order.Basic
import Mathlib.Data.List.Sort
import Mathlib.Data.List.Nodup
import Mathlib.Data.List.Perm.Lattice
/-!
# Sorted lists of keys and values

A list with increasing keys, read by a scan that ends at the first key that is not below the one
looked for.
-/

namespace Ton.Sparse
open List

variable {K V : Type} [LinearOrder K]

abbrev Sorted (l : List (K × V)) : Prop := l.Pairwise fun p q => p.1 < q.1

def below (l : List (K × V)) (k : K) : List (K × V) := l.takeWhile fun p => p.1 < k

def from_key (l : List (K × V)) (k : K) : List (K × V) := l.dropWhile fun p => p.1 < k

def get? (l : List (K × V)) (k : K) : Option V := (from_key l k).head?.bind fun p => if p.1 = k then some p.2 else none

variable {l : List (K × V)} {k : K} {v : V}

theorem below_append (l : List (K × V)) (k : K) : below l k ++ from_key l k = l := takeWhile_append_dropWhile

theorem lt_of_mem_below {p : K × V} (h : p ∈ below l k) : p.1 < k := by
  have hall := all_takeWhile (l := l) (p := fun p => decide (p.1 < k))
  simpa using all_eq_true.1 hall p h

theorem le_of_mem_from (hs : Sorted l) {p : K × V} (h : p ∈ from_key l k) : k ≤ p.1 := by
  induction l with
  | nil => cases h
  | cons q l ih =>
    obtain ⟨hq, hs⟩ := pairwise_cons.1 hs
    rw [from_key, dropWhile_cons] at h
    split at h
    · exact ih hs h
    · next hk =>
      have hle : k ≤ q.1 := by simpa using hk
      rcases mem_cons.1 h with rfl | h
      · exact hle
      · exact hle.trans (hq p h).le

theorem Sorted.from_key (hs : Sorted l) (k : K) : Sorted (from_key l k) := hs.sublist (dropWhile_sublist _)

theorem Sorted.key_inj (hs : Sorted l) {w : V} (h : (k, v) ∈ l) (h' : (k, w) ∈ l) : v = w := by
  induction l with
  | nil => cases h
  | cons q l ih =>
    obtain ⟨hq, hs⟩ := pairwise_cons.1 hs
    rcases mem_cons.1 h with heq | hl <;> rcases mem_cons.1 h' with heq' | hl'
    · exact (Prod.mk.inj (heq.trans heq'.symm)).2
    · subst heq; exact absurd (hq _ hl') (lt_irrefl _)
    · subst heq'; exact absurd (hq _ hl) (lt_irrefl _)
    · exact ih hs hl hl'

theorem get?_eq_some (hs : Sorted l) : get? l k = some v ↔ (k, v) ∈ l := by
  constructor
  · intro h
    obtain ⟨p, hp, hv⟩ := Option.bind_eq_some_iff.1 h
    split at hv
    · next hk =>
      cases hv
      subst hk
      rw [← below_append l p.1]
      exact mem_append_right _ (mem_of_mem_head? hp)
    · cases hv
  · intro h
    rw [← below_append l k] at h
    have hfrom := (mem_append.1 h).resolve_left fun hb => absurd (lt_of_mem_below hb) (lt_irrefl _)
    cases hf : from_key l k with
    | nil => rw [hf] at hfrom; cases hfrom
    | cons p after =>
      have hsf := hs.from_key k
      rw [hf] at hfrom hsf
      have hle : k ≤ p.1 := le_of_mem_from hs (by rw [hf]; exact mem_cons_self)
      have hpk : p = (k, v) := by
        rcases mem_cons.1 hfrom with h | h
        · exact h.symm
        · exact absurd ((pairwise_cons.1 hsf).1 _ h) hle.not_gt
      rw [get?, hf, head?_cons, Option.bind_some, hpk, if_pos rfl]

theorem get?_eq_none (hs : Sorted l) : get? l k = none ↔ ∀ v, (k, v) ∉ l := by
  rw [Option.eq_none_iff_forall_ne_some]
  exact forall_congr' fun v => not_congr (get?_eq_some hs)

theorem get?_eq (l : List (K × V)) (k : K) :
    (∃ p after, from_key l k = p :: after ∧ p.1 = k ∧ (from_key l k).head?.map Prod.fst = some k) ∨
      (from_key l k).head?.map Prod.fst ≠ some k := by
  cases hf : from_key l k with
  | nil => exact .inr (by simp)
  | cons p after =>
    by_cases hk : p.1 = k
    · exact .inl ⟨p, after, rfl, hk, by simp [hk]⟩
    · exact .inr (by simpa using hk)

theorem lt_of_mem_from (hs : Sorted l) (hne : (from_key l k).head?.map Prod.fst ≠ some k) {p : K × V} (h : p ∈ from_key l k) :
    k < p.1 := by
  have hsf := hs.from_key k
  cases hf : from_key l k with
  | nil => rw [hf] at h; cases h
  | cons q after =>
    have hq : k < q.1 := lt_of_le_of_ne (le_of_mem_from hs (by rw [hf]; exact mem_cons_self))
      fun heq => hne (by rw [hf, heq]; rfl)
    rw [hf] at h hsf
    rcases mem_cons.1 h with rfl | h
    · exact hq
    · exact hq.trans ((pairwise_cons.1 hsf).1 p h)

theorem Sorted.between {before after : List (K × V)} (hb : Sorted before) (ha : Sorted after) (hlt : ∀ p ∈ before, p.1 < k)
    (hgt : ∀ p ∈ after, k < p.1) (v : V) : Sorted (before ++ (k, v) :: after) := by
  refine pairwise_append.2 ⟨hb, pairwise_cons.2 ⟨hgt, ha⟩, fun p hp q hq => ?_⟩
  rcases mem_cons.1 hq with rfl | hq
  · exact hlt p hp
  · exact (hlt p hp).trans (hgt q hq)

theorem Sorted.ext {l' : List (K × V)} (hs : Sorted l) (hs' : Sorted l') (h : ∀ p, p ∈ l ↔ p ∈ l') : l = l' := by
  have hnd {m : List (K × V)} (hm : Sorted m) : m.Nodup := hm.imp fun hlt heq => absurd (congrArg Prod.fst heq) hlt.ne
  refine ((perm_ext_iff_of_nodup (hnd hs) (hnd hs')).2 h).eq_of_pairwise (fun p q _ _ h1 h2 => ?_) hs hs'
  exact absurd h1 h2.not_gt

end Ton.Sparse
