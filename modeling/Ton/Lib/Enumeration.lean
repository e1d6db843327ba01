import Mathlib.Data.List.Basic
/-!
# Ordered lists and what comes first in them

`FirstIn r ks P o`: `o` is the first of the elements of `ks` with `P` in the order `r`,
or nothing if there is none. In a list that is ordered by `r`, it is found next to
where one is (`firstIn_next`, `firstIn_prev`).
-/

namespace Enumeration
open List

variable {α : Type} {r : α → α → Prop} {ks as bs : List α} {P : α → Prop} {x : α} {o o' : Option α}

inductive FirstIn (r : α → α → Prop) (ks : List α) (P : α → Prop) : Option α → Prop
  | absent (h : ∀ k ∈ ks, ¬ P k) : FirstIn r ks P none
  | found {x : α} (hmem : x ∈ ks) (hx : P x) (h : ∀ k ∈ ks, P k → k = x ∨ r x k) : FirstIn r ks P (some x)

theorem FirstIn.unique (hasymm : ∀ a ∈ ks, ∀ b ∈ ks, r a b → ¬ r b a) (h : FirstIn r ks P o) (h' : FirstIn r ks P o') : o = o' := by
  cases h with
  | absent h =>
    cases h' with
    | absent h' => rfl
    | found hmem' hx' h' => exact absurd hx' (h _ hmem')
  | @found x hmem hx h =>
    cases h' with
    | absent h' => exact absurd hx (h' _ hmem)
    | @found x' hmem' hx' h' =>
      rcases h x' hmem' hx' with rfl | hr
      · rfl
      · rcases h' x hmem hx with rfl | hr'
        · rfl
        · exact absurd hr' (hasymm x hmem x' hmem' hr)

theorem firstIn_all (h : ks.Pairwise r) : FirstIn r ks (fun _ => True) ks.head? := by
  cases h with
  | nil => exact .absent fun k hk => absurd hk not_mem_nil
  | @cons x ks hx hrest =>
    refine .found mem_cons_self trivial fun k hk _ => ?_
    exact (mem_cons.1 hk).imp id (hx k)

theorem firstIn_next (h : (as ++ x :: bs).Pairwise r) (hasymm : ∀ a ∈ as ++ x :: bs, ∀ b ∈ as ++ x :: bs, r a b → ¬ r b a) :
    FirstIn r (as ++ x :: bs) (r x) bs.head? := by
  obtain ⟨-, hbs, hcross⟩ := pairwise_append.1 h
  obtain ⟨hx, hbs⟩ := pairwise_cons.1 hbs
  have hmem : x ∈ as ++ x :: bs := by simp
  have hold : ∀ k ∈ as ++ x :: bs, r x k → k ∈ bs := by
    intro k hk hr
    rcases mem_append.1 hk with hk' | hk'
    · exact absurd hr (hasymm k hk x hmem (hcross k hk' x mem_cons_self))
    · rcases mem_cons.1 hk' with rfl | hk'
      · exact absurd hr (hasymm k hk k hk hr)
      · exact hk'
  cases bs with
  | nil => exact .absent fun k hk hr => absurd (hold k hk hr) not_mem_nil
  | cons y bs =>
    refine .found (by simp) (hx y mem_cons_self) fun k hk hr => ?_
    exact (mem_cons.1 (hold k hk hr)).imp id ((pairwise_cons.1 hbs).1 k)

theorem FirstIn.of_mem {ks' : List α} (h : FirstIn r ks P o) (hmem : ∀ k, k ∈ ks ↔ k ∈ ks') : FirstIn r ks' P o := by
  cases h with
  | absent h => exact .absent fun k hk => h k ((hmem k).2 hk)
  | found hx hP h => exact .found ((hmem _).1 hx) hP fun k hk => h k ((hmem k).2 hk)

theorem FirstIn.congr {r' : α → α → Prop} {P' : α → Prop} (h : FirstIn r ks P o) (hP : ∀ k ∈ ks, P k ↔ P' k)
    (hr : ∀ a ∈ ks, ∀ b ∈ ks, r a b → r' a b) : FirstIn r' ks P' o := by
  cases h with
  | absent h => exact .absent fun k hk hk' => h k hk ((hP k hk).2 hk')
  | @found x hx hPx h =>
    exact .found hx ((hP x hx).1 hPx) fun k hk hk' => (h k hk ((hP k hk).2 hk')).imp id (hr x hx k hk)

theorem firstIn_last (h : ks.Pairwise r) : FirstIn (fun a b => r b a) ks (fun _ => True) ks.getLast? := by
  have hall := firstIn_all (pairwise_reverse.2 h)
  rw [head?_reverse] at hall
  exact hall.of_mem fun k => mem_reverse

theorem firstIn_prev (h : (as ++ x :: bs).Pairwise r) (hasymm : ∀ a ∈ as ++ x :: bs, ∀ b ∈ as ++ x :: bs, r a b → ¬ r b a) :
    FirstIn (fun a b => r b a) (as ++ x :: bs) (fun k => r k x) as.getLast? := by
  have hrev : (as ++ x :: bs).reverse = bs.reverse ++ x :: as.reverse := by simp
  have hmem : ∀ k, k ∈ bs.reverse ++ x :: as.reverse ↔ k ∈ as ++ x :: bs := fun k => by rw [← hrev, mem_reverse]
  have hpair := pairwise_reverse.2 h
  rw [hrev] at hpair
  have hnext := firstIn_next hpair fun a ha b hb hr => hasymm b ((hmem b).1 hb) a ((hmem a).1 ha) hr
  rw [head?_reverse] at hnext
  exact hnext.of_mem hmem

end Enumeration
