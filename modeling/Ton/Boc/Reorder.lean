import Mathlib.Data.List.Forall2
import Mathlib.Data.List.Nodup
import Mathlib.Data.List.Perm.Basic
import Ton.Boc.Import
/-!
# What `reorder_cells` does

The weights decide in which order cells are allocated and nothing else. `Renumbered`
is kept by every `revisit`: a cell is allocated only after its references, so in the
new list, too, every reference goes to an earlier entry, and the two lists have the
same cells.
-/

namespace Ton.Boc
open BigEndian CellTraits Result BagOfCells DataCell List Option

/-! ## Weights -/

/-- The same list with other weights. -/
def Reweighed (l l' : List CellInfo) : Prop := List.Forall₂ (fun ci ci' => ∃ wt, ci' = { ci with wt }) l l'

theorem Reweighed.refl (l : List CellInfo) : Reweighed l l := forall₂_same.2 fun ci _ => ⟨ci.wt, rfl⟩

theorem Reweighed.trans {l₁ l₂ l₃ : List CellInfo} (h : Reweighed l₁ l₂) (h' : Reweighed l₂ l₃) : Reweighed l₁ l₃ := by
  unfold Reweighed at h
  induction h generalizing l₃ with
  | nil =>
    cases h'
    exact .nil
  | cons hab _ ih =>
    cases h' with
    | cons hbc h' =>
      obtain ⟨wt, rfl⟩ := hab
      obtain ⟨wt', rfl⟩ := hbc
      exact .cons ⟨wt', rfl⟩ (ih h')

theorem Reweighed.getElem? {l l' : List CellInfo} (h : Reweighed l l') {i : Nat} {ci' : CellInfo} (hi : l'[i]? = some ci') :
    ∃ ci wt, l[i]? = some ci ∧ ci' = { ci with wt } := by
  unfold Reweighed at h
  induction h generalizing i with
  | nil => simp at hi
  | cons hab _ ih =>
    cases i with
    | zero =>
      obtain ⟨wt, rfl⟩ := hab
      cases hi
      exact ⟨_, wt, rfl, rfl⟩
    | succ i => exact ih hi

theorem Reweighed.dcs_eq {l l' : List CellInfo} (h : Reweighed l l') : dcs l' = dcs l := by
  unfold Reweighed at h
  induction h with
  | nil => rfl
  | cons hab _ ih =>
    obtain ⟨wt, rfl⟩ := hab
    simp only [dcs, map_cons] at ih ⊢
    rw [ih]

theorem Reweighed.set_wt (l : List CellInfo) (i wt : Nat) : Reweighed l (set_wt l i wt) := by
  induction l generalizing i with
  | nil => simp [Reweighed, BagOfCells.set_wt]
  | cons ci l ih =>
    cases i with
    | zero => exact .cons ⟨wt, rfl⟩ (Reweighed.refl l)
    | succ i => exact .cons ⟨ci.wt, rfl⟩ (ih i)

theorem Reweighed.foldl {α σ : Type} (list : σ → List CellInfo) {f : σ → α → σ}
    (hf : ∀ s a, Reweighed (list s) (list (f s a))) (as : List α) (s : σ) : Reweighed (list s) (list (as.foldl f s)) := by
  induction as generalizing s with
  | nil => exact .refl _
  | cons a as ih => exact (hf s a).trans (ih (f s a))

theorem Reweighed.limit_children (l : List CellInfo) (i : Nat) : Reweighed l (limit_children l i) := by
  unfold BagOfCells.limit_children
  split
  · exact .refl l
  · extract_lets s refs c sum
    refine Reweighed.foldl Prod.fst ?_ refs (l, sum)
    rintro ⟨l, sum⟩ ⟨r, fits⟩
    cases fits with
    | true => exact .refl _
    | false =>
      simp only [Bool.false_eq_true, if_false]
      split
      · exact .set_wt ..
      · exact .refl _

theorem Reweighed.settle_weight (l : List CellInfo) (i : Nat) : Reweighed l (settle_weight l i) := by
  unfold BagOfCells.settle_weight
  split
  · exact .refl l
  · exact .set_wt ..

theorem Reweighed.weigh (l : List CellInfo) : Reweighed l (weigh l) :=
  (Reweighed.foldl id Reweighed.limit_children _ l).trans (Reweighed.foldl id Reweighed.settle_weight _ _)

theorem Imported.reweigh {U E : List DataCell} {l l' : List CellInfo} (h : Imported U E l) (hw : Reweighed l l') :
    Imported U E l' := by
  have hd := hw.dcs_eq
  have hmem : ∀ {ci' : CellInfo}, ci' ∈ l' → ∃ ci wt, ci ∈ l ∧ ci' = { ci with wt } := by
    intro ci' hci
    obtain ⟨i, hi⟩ := mem_iff_getElem?.1 hci
    obtain ⟨ci, wt, hi, he⟩ := hw.getElem? hi
    exact ⟨ci, wt, mem_of_getElem? hi, he⟩
  refine ⟨by rw [hd]; exact h.mem, by rw [hd]; exact h.pending, by rw [hd]; exact h.nodup, ?_, ?_, ?_, ?_, ?_⟩
  · intro i ci' hi
    obtain ⟨ci, wt, hi', rfl⟩ := hw.getElem? hi
    rw [hd]
    exact h.refs i ci hi'
  · intro ci' hci
    obtain ⟨ci, wt, hci', rfl⟩ := hmem hci
    rw [hd]
    exact h.flags ci hci'
  · intro ci' hci
    obtain ⟨ci, wt, hci', rfl⟩ := hmem hci
    rw [hd]
    exact h.used ci hci'
  · intro ci' hci
    obtain ⟨ci, wt, hci', rfl⟩ := hmem hci
    exact h.fresh ci hci'
  · intro ci' hci
    obtain ⟨ci, wt, hci', rfl⟩ := hmem hci
    exact h.hcnt ci hci'

/-! ## One visit -/

def NewIdx.rank : NewIdx → Nat
  | .unseen => 0
  | .previsited => 1
  | .visited => 2
  | .allocated _ => 3

def BagOfCells.Revisit.mark (s : Revisit) (i : Nat) : Option NewIdx := s.cell_list[i]?.map CellInfo.new_idx

/-- All children of the cell are allocated. -/
def BagOfCells.Revisit.Visited (s : Revisit) (i : Nat) : Prop := ∃ a, s.mark i = some a ∧ 2 ≤ a.rank

/-- What became of the entry `ci₀`: its references are renumbered when it is visited, and when it
is allocated, it stands in the new list, after its references. -/
def Entry (s : Revisit) (ci₀ ci : CellInfo) : Prop :=
  { ci with ref_idx := ci₀.ref_idx, new_idx := ci₀.new_idx } = ci₀ ∧
  match ci.new_idx with
  | .unseen | .previsited => ci.ref_idx = ci₀.ref_idx
  | .visited => List.Forall₂ (fun r k => s.mark r = some (.allocated k)) ci₀.ref_idx ci.ref_idx
  | .allocated k => s.tmp[k]? = some ci ∧
      List.Forall₂ (fun r k' => k' < k ∧ s.mark r = some (.allocated k')) ci₀.ref_idx ci.ref_idx

/-- The list `l` under renumbering. -/
structure Renumbered (l : List CellInfo) (s : Revisit) : Prop where
  length : s.cell_list.length = l.length
  entries : ∀ (i : Nat) (ci₀ ci : CellInfo), l[i]? = some ci₀ → s.cell_list[i]? = some ci → Entry s ci₀ ci
  tmp : ∀ k < s.tmp.length, ∃ i, s.mark i = some (.allocated k)

/-- What visits of cells below `n` can do. -/
structure Step (l : List CellInfo) (n : Nat) (s s' : Revisit) : Prop where
  renumbered : Renumbered l s'
  marks : ∀ i a, s.mark i = some a → ∃ b, s'.mark i = some b ∧ (b = a ∨ a.rank < b.rank)
  frame : ∀ i, n ≤ i → s'.cell_list[i]? = s.cell_list[i]?

section Step
variable {l : List CellInfo} {n i : Nat} {s s' s'' : Revisit} {ci₀ ci ci' : CellInfo}

theorem Step.refl (h : Renumbered l s) (n : Nat) : Step l n s s := ⟨h, fun _ a ha => ⟨a, ha, .inl rfl⟩, fun _ _ => rfl⟩

theorem Step.trans (h : Step l n s s') (h' : Step l n s' s'') : Step l n s s'' := by
  refine ⟨h'.renumbered, ?_, fun i hi => (h'.frame i hi).trans (h.frame i hi)⟩
  intro i a ha
  obtain ⟨b, hb, hab⟩ := h.marks i a ha
  obtain ⟨c, hc, hbc⟩ := h'.marks i b hb
  refine ⟨c, hc, ?_⟩
  rcases hab with rfl | hab <;> rcases hbc with rfl | hbc
  · exact .inl rfl
  · exact .inr hbc
  · exact .inr hab
  · exact .inr (hab.trans hbc)

theorem Step.mono {m : Nat} (h : Step l n s s') (hm : n ≤ m) : Step l m s s' :=
  ⟨h.renumbered, h.marks, fun i hi => h.frame i (hm.trans hi)⟩

theorem rank_le (a : NewIdx) : a.rank ≤ 3 := by cases a <;> simp [NewIdx.rank]

theorem Step.allocated (h : Step l n s s') {k : Nat} (hi : s.mark i = some (.allocated k)) : s'.mark i = some (.allocated k) := by
  obtain ⟨b, hb, rfl | hlt⟩ := h.marks i _ hi
  · exact hb
  · have := rank_le b
    have h3 : (NewIdx.allocated k).rank = 3 := rfl
    omega

theorem Step.visited (h : Step l n s s') (hi : s.Visited i) : s'.Visited i := by
  obtain ⟨a, ha, h2⟩ := hi
  obtain ⟨b, hb, rfl | hlt⟩ := h.marks i a ha
  · exact ⟨b, hb, h2⟩
  · exact ⟨b, hb, by omega⟩

theorem Entry.mono (h : Entry s ci₀ ci) (hmark : ∀ r k, s.mark r = some (.allocated k) → s'.mark r = some (.allocated k))
    (htmp : ∀ (k : Nat) (ci : CellInfo), s.tmp[k]? = some ci → s'.tmp[k]? = some ci) : Entry s' ci₀ ci := by
  obtain ⟨h1, h2⟩ := h
  refine ⟨h1, ?_⟩
  cases hm : ci.new_idx with
  | unseen => simpa only [hm] using h2
  | previsited => simpa only [hm] using h2
  | visited =>
    simp only [hm] at h2 ⊢
    exact h2.imp fun r k => hmark r k
  | allocated k =>
    simp only [hm] at h2 ⊢
    exact ⟨htmp k ci h2.1, h2.2.imp fun r k' hr => ⟨hr.1, hmark r k' hr.2⟩⟩

theorem Renumbered.get (h : Renumbered l s) (hi : l[i]? = some ci₀) : ∃ ci, s.cell_list[i]? = some ci ∧ Entry s ci₀ ci := by
  obtain ⟨hlt, -⟩ := List.getElem?_eq_some_iff.1 hi
  have hget := getElem?_eq_getElem (h.length ▸ hlt : i < s.cell_list.length)
  exact ⟨_, hget, h.entries i ci₀ _ hi hget⟩

/-- One entry moves on; it goes to the end of the new list when it is allocated. -/
theorem Renumbered.put (h : Renumbered l s) (h₀ : l[i]? = some ci₀) (hi : s.cell_list[i]? = some ci)
    (hrank : ci.new_idx.rank < ci'.new_idx.rank) (extra : List CellInfo)
    (hentry : Entry ⟨s.cell_list, s.tmp ++ extra⟩ ci₀ ci')
    (hextra : ∀ k, s.tmp.length ≤ k → k < (s.tmp ++ extra).length → ci'.new_idx = .allocated k) :
    Step l (i + 1) s ⟨s.cell_list.set i ci', s.tmp ++ extra⟩ := by
  obtain ⟨hlt, -⟩ := List.getElem?_eq_some_iff.1 hi
  have hself : (s.cell_list.set i ci')[i]? = some ci' := getElem?_set_self hlt
  have hother : ∀ j, j ≠ i → (s.cell_list.set i ci')[j]? = s.cell_list[j]? := fun j hj => getElem?_set_ne (Ne.symm hj)
  have hmark : ∀ r k, s.mark r = some (.allocated k) →
      (⟨s.cell_list.set i ci', s.tmp ++ extra⟩ : Revisit).mark r = some (.allocated k) := by
    intro r k hr
    by_cases hri : r = i
    · subst hri
      rw [Revisit.mark, hi, map_some, Option.some.injEq] at hr
      have := rank_le ci'.new_idx
      rw [hr, NewIdx.rank] at hrank
      omega
    · rw [Revisit.mark, hother r hri]
      exact hr
  have htmp : ∀ (k : Nat) (ci : CellInfo), s.tmp[k]? = some ci → (s.tmp ++ extra)[k]? = some ci := by
    intro k ci hk
    rw [getElem?_append_left (List.getElem?_eq_some_iff.1 hk).1, hk]
  refine ⟨⟨by simpa using h.length, ?_, ?_⟩, ?_, fun j hj => hother j (by omega)⟩
  · intro j cj₀ cj hj₀ hj
    by_cases hji : j = i
    · subst hji
      cases h₀.symm.trans hj₀
      cases hself.symm.trans hj
      exact hentry.mono hmark fun _ _ hk => hk
    · have hj : s.cell_list[j]? = some cj := (hother j hji).symm.trans hj
      exact (h.entries j cj₀ cj hj₀ hj).mono hmark htmp
  · intro k hk
    by_cases hkt : k < s.tmp.length
    · obtain ⟨j, hj⟩ := h.tmp k hkt
      exact ⟨j, hmark j k hj⟩
    · refine ⟨i, ?_⟩
      rw [Revisit.mark, hself, ← hextra k (by omega) hk]
      rfl
  · intro j a ha
    by_cases hji : j = i
    · subst hji
      rw [Revisit.mark, hi] at ha
      cases ha
      exact ⟨ci'.new_idx, by rw [Revisit.mark, hself]; rfl, .inr hrank⟩
    · exact ⟨a, by rw [Revisit.mark, hother j hji]; exact ha, .inl rfl⟩

theorem Renumbered.set (h : Renumbered l s) (ci' : CellInfo) (h₀ : l[i]? = some ci₀) (hi : s.cell_list[i]? = some ci)
    (hrank : ci.new_idx.rank < ci'.new_idx.rank) (hentry : Entry s ci₀ ci') : Step l (i + 1) s (s.set i ci') := by
  have := h.put h₀ hi hrank [] (by rwa [append_nil]) (by
    intro k h1 h2
    rw [append_nil] at h2
    omega)
  rwa [append_nil] at this

theorem Step.foldl {α : Type} {f : Revisit → α → Revisit} {Q : Revisit → α → Prop} {c : List α}
    (hf : ∀ r ∈ c, ∀ s, Renumbered l s → Step l n s (f s r) ∧ Q (f s r) r)
    (hQ : ∀ r s s', Step l n s s' → Q s r → Q s' r) (hs : Renumbered l s) :
    Step l n s (c.reverse.foldl f s) ∧ ∀ r ∈ c, Q (c.reverse.foldl f s) r := by
  induction c with
  | nil => exact ⟨.refl hs n, by simp⟩
  | cons r c ih =>
    obtain ⟨h1, h2⟩ := ih fun r hr => hf r (by simp [hr])
    obtain ⟨h3, h4⟩ := hf r (by simp) _ h1.renumbered
    rw [reverse_cons, foldl_append, foldl_cons, foldl_nil]
    refine ⟨h1.trans h3, ?_⟩
    intro r' hr'
    rcases mem_cons.1 hr' with rfl | hr'
    · exact h4
    · exact hQ r' _ _ h3 (h2 r' hr')

theorem Step.allocate_children {f : Revisit → Nat → Revisit} {g : Revisit × List Nat → Nat → Revisit × List Nat}
    {c : List Nat} (hg : ∀ r ∈ c, ∀ p, g p r = (f p.1 r, (f p.1 r).new_idx r :: p.2))
    (hf : ∀ r ∈ c, ∀ s, Renumbered l s → s.Visited r → Step l n s (f s r) ∧ ∃ k, (f s r).mark r = some (.allocated k))
    (hs : Renumbered l s) (hv : ∀ r ∈ c, s.Visited r) :
    ∃ s' idx, c.reverse.foldl g (s, []) = (s', idx) ∧ Step l n s s' ∧
      List.Forall₂ (fun r k => s'.mark r = some (.allocated k)) c idx := by
  induction c with
  | nil => exact ⟨s, [], rfl, .refl hs n, .nil⟩
  | cons r c ih =>
    obtain ⟨s₁, idx, he, h1, h2⟩ := ih (fun r hr => hg r (by simp [hr])) (fun r hr => hf r (by simp [hr]))
      (fun r hr => hv r (by simp [hr]))
    obtain ⟨h3, k, hk⟩ := hf r (by simp) s₁ h1.renumbered (h1.visited (hv r (by simp)))
    rw [reverse_cons, foldl_append, he, foldl_cons, foldl_nil, hg r (by simp)]
    refine ⟨_, _, rfl, h1.trans h3, .cons ?_ (h2.imp fun r k hr => h3.allocated hr)⟩
    rw [hk, Revisit.new_idx]
    rw [Revisit.mark] at hk
    simp only [hk]

end Step

/-! ## Revisiting -/

section Revisit
variable {l : List CellInfo} {i : Nat} {s : Revisit} {ci₀ ci : CellInfo}

/-- Every reference of the list goes to an earlier entry. -/
def Backward (l : List CellInfo) : Prop := ∀ (i : Nat) (ci : CellInfo), l[i]? = some ci → ∀ r ∈ ci.ref_idx, r < i

theorem revisit_allocated (force : Force) (hi : s.cell_list[i]? = some ci) {k : Nat} (hm : ci.new_idx = .allocated k) :
    revisit force i s = s := by
  rw [revisit]
  simp only [hi, hm]

theorem revisit_allocate (h : Renumbered l s) (h₀ : l[i]? = some ci₀) (hv : s.Visited i) :
    Step l (i + 1) s (revisit .allocate i s) ∧ ∃ k, (revisit .allocate i s).mark i = some (.allocated k) := by
  obtain ⟨ci, hi, hentry⟩ := h.get h₀
  obtain ⟨a, ha, h2⟩ := hv
  have hmark : s.mark i = some ci.new_idx := by rw [Revisit.mark, hi]; rfl
  rw [hmark] at ha
  cases ha
  cases hm : ci.new_idx with
  | allocated k =>
    rw [revisit_allocated .allocate hi hm]
    exact ⟨.refl h _, k, by rw [hmark, hm]⟩
  | visited =>
    have e : revisit .allocate i s =
        ⟨s.cell_list.set i { ci with new_idx := .allocated s.tmp.length },
          s.tmp ++ [{ ci with new_idx := .allocated s.tmp.length }]⟩ := by
      rw [revisit]
      simp only [hi, hm]
      rfl
    obtain ⟨h3, h4⟩ := hentry
    simp only [hm] at h4
    have hlt : ∀ {r k}, s.mark r = some (.allocated k) → k < s.tmp.length := by
      intro r k hr
      rw [Revisit.mark, map_eq_some_iff] at hr
      obtain ⟨cr, hcr, hk⟩ := hr
      have hrl : r < l.length := h.length ▸ (List.getElem?_eq_some_iff.1 hcr).1
      have := (h.entries r _ cr (getElem?_eq_getElem hrl) hcr).2
      simp only [hk] at this
      exact (List.getElem?_eq_some_iff.1 this.1).1
    rw [e]
    refine ⟨h.put h₀ hi (by rw [hm]; exact Nat.lt_succ_self 2) _ ⟨h3, getElem?_concat_length, ?_⟩ ?_, s.tmp.length, ?_⟩
    · exact h4.imp fun r k hr => ⟨hlt hr, hr⟩
    · intro k h1 h2
      rw [length_append, length_singleton] at h2
      rw [Nat.le_antisymm h1 (by omega)]
    · rw [Revisit.mark, getElem?_set_self (List.getElem?_eq_some_iff.1 hi).1]
      rfl
  | unseen => rw [hm] at h2; simp [NewIdx.rank] at h2
  | previsited => rw [hm] at h2; simp [NewIdx.rank] at h2

/-- What the visits of the cells before `i` do. -/
def VisitsBelow (l : List CellInfo) (i : Nat) : Prop :=
  ∀ r < i, ∀ s, Renumbered l s → Step l i s (revisit .previsit r s) ∧
    Step l i s (revisit .visit r s) ∧ (revisit .visit r s).Visited r

theorem revisit_previsit (hb : Backward l) (hr : VisitsBelow l i) (h : Renumbered l s) (h₀ : l[i]? = some ci₀)
    (hi : s.cell_list[i]? = some ci) : Step l (i + 1) s (revisit .previsit i s) ∧
      (ci.new_idx.rank < 2 → (revisit .previsit i s).cell_list[i]? = some { ci with new_idx := .previsited }) := by
  obtain ⟨h3, h4⟩ := h.entries i ci₀ ci h₀ hi
  cases hm : ci.new_idx with
  | allocated k =>
    rw [revisit_allocated .previsit hi hm]
    exact ⟨.refl h _, fun hlt => absurd hlt (by simp [NewIdx.rank])⟩
  | visited =>
    rw [revisit]
    simp only [hi, hm]
    exact ⟨.refl h _, fun hlt => absurd hlt (by simp [NewIdx.rank])⟩
  | previsited =>
    rw [revisit]
    simp only [hi, hm]
    exact ⟨.refl h _, fun _ => by rw [← hm]⟩
  | unseen =>
    simp only [hm] at h4
    rw [revisit]
    simp only [hi, hm]
    obtain ⟨hloop, -⟩ := Step.foldl (l := l) (n := i) (s := s) (c := ci.ref_idx) (Q := fun _ _ => True)
      (f := fun s child =>
        if _h : child < i then revisit (if s.is_special child then .visit else .previsit) child s else s) (by
        intro r hr' s hs
        have hlt : r < i := hb i ci₀ h₀ r (h4 ▸ hr')
        obtain ⟨hp, hv, -⟩ := hr r hlt s hs
        simp only [hlt, dite_true]
        split
        · exact ⟨hv, trivial⟩
        · exact ⟨hp, trivial⟩) (fun _ _ _ _ _ => trivial) h
    have hi' := (hloop.frame i (le_refl i)).trans hi
    have hset := hloop.renumbered.set { ci with new_idx := .previsited } h₀ hi' (by rw [hm]; exact Nat.zero_lt_one)
      ⟨h3, h4⟩
    exact ⟨(hloop.mono (Nat.le_succ i)).trans hset, fun _ => getElem?_set_self (List.getElem?_eq_some_iff.1 hi').1⟩

theorem revisit_visit (hb : Backward l) (hr : VisitsBelow l i) (h : Renumbered l s) (h₀ : l[i]? = some ci₀) :
    Step l (i + 1) s (revisit .visit i s) ∧ (revisit .visit i s).Visited i := by
  obtain ⟨ci, hi, hentry⟩ := h.get h₀
  have hmark : s.mark i = some ci.new_idx := by rw [Revisit.mark, hi]; rfl
  by_cases hdone : 2 ≤ ci.new_idx.rank
  · have e : revisit .visit i s = s := by
      rw [revisit]
      cases hm : ci.new_idx <;> simp_all [NewIdx.rank]
    rw [e]
    exact ⟨.refl h _, _, hmark, hdone⟩
  · obtain ⟨h3, h4⟩ := hentry
    have h4 : ci.ref_idx = ci₀.ref_idx := by
      cases hm : ci.new_idx <;> simp_all [NewIdx.rank]
    have hlt : ∀ r ∈ ci.ref_idx, r < i := h4 ▸ hb i ci₀ h₀
    -- the entry itself may be previsited, and is otherwise untouched until the end
    obtain ⟨s₁, hs₁, h1, m, hm, hi1⟩ : ∃ s₁, (if ci.is_special then revisit .previsit i s else s) = s₁ ∧
        Step l (i + 1) s s₁ ∧ ∃ m : NewIdx, m.rank < 2 ∧ s₁.cell_list[i]? = some { ci with new_idx := m } := by
      refine ⟨_, rfl, ?_⟩
      split
      · obtain ⟨hp, hi'⟩ := revisit_previsit hb hr h h₀ hi
        exact ⟨hp, .previsited, by decide, hi' (by omega)⟩
      · exact ⟨.refl h _, ci.new_idx, by omega, hi⟩
    obtain ⟨hvisit, hv⟩ := Step.foldl (l := l) (n := i) (s := s₁) (c := ci.ref_idx) (Q := fun s r => s.Visited r)
      (f := fun s child => if _h : child < i then revisit .visit child s else s) (by
        intro r hr' s hs
        simp only [hlt r hr', dite_true]
        exact (hr r (hlt r hr') s hs).2) (fun _ _ _ hstep hq => hstep.visited hq) h1.renumbered
    obtain ⟨s₂, idx, he, halloc, hidx⟩ := Step.allocate_children (l := l) (n := i) (c := ci.ref_idx)
      (f := fun s r => revisit .allocate r s)
      (g := fun p child => ((revisit .allocate child p.1), (revisit .allocate child p.1).new_idx child :: p.2))
      (fun _ _ _ => rfl) (by
        intro r hr' s hs hv
        have hrl : r < l.length := (hlt r hr').trans (List.getElem?_eq_some_iff.1 h₀).1
        obtain ⟨ha, hk⟩ := revisit_allocate hs (getElem?_eq_getElem hrl) hv
        exact ⟨ha.mono (hlt r hr'), hk⟩) hvisit.renumbered hv
    have hloops := hvisit.trans halloc
    have e : revisit .visit i s = s₂.set i { ci with ref_idx := idx, new_idx := .visited } := by
      have hm' : ci.new_idx = .unseen ∨ ci.new_idx = .previsited := by
        cases hm : ci.new_idx <;> simp_all [NewIdx.rank]
      rw [revisit]
      rcases hm' with hm' | hm'
      all_goals
        simp only [hi, hm', hs₁]
        rw [foldl_ext _ (fun p child => ((revisit .allocate child p.1), (revisit .allocate child p.1).new_idx child :: p.2)) _
          fun p child hc => by simp only [hlt child (mem_reverse.1 hc), dite_true], he]
    have hi2 := (hloops.frame i (le_refl i)).trans hi1
    have hset := hloops.renumbered.set { ci with ref_idx := idx, new_idx := .visited } h₀ hi2 hm
      ⟨h3, h4 ▸ hidx⟩
    rw [e]
    refine ⟨(h1.trans (hloops.mono (Nat.le_succ i))).trans hset, .visited, ?_, le_refl 2⟩
    rw [Revisit.mark, Revisit.set, getElem?_set_self (List.getElem?_eq_some_iff.1 hi2).1]
    rfl

theorem visits_below (hb : Backward l) (hi : i ≤ l.length) : VisitsBelow l i := by
  induction i using Nat.strong_induction_on with
  | _ i ih =>
    intro r hr s hs
    have h₀ := getElem?_eq_getElem (show r < l.length by omega)
    have hbelow := ih r hr (by omega)
    obtain ⟨ci, hci, -⟩ := hs.get h₀
    obtain ⟨hp, -⟩ := revisit_previsit hb hbelow hs h₀ hci
    obtain ⟨hv, hdone⟩ := revisit_visit hb hbelow hs h₀
    exact ⟨hp.mono hr, hv.mono hr, hdone⟩

end Revisit

/-! ## The new list -/

section Reorder
variable {U E : List DataCell} {l : List CellInfo} {s : Revisit}

theorem Imported.backward (h : Imported U E l) : Backward l := by
  intro i ci hi r hr
  obtain ⟨c, -, hc⟩ := exists_of_forall₂ (h.refs i ci hi).flip hr
  exact hc.1

theorem Imported.renumbered (h : Imported U E l) : Renumbered l ⟨l, []⟩ := by
  refine ⟨rfl, ?_, by simp⟩
  intro i ci₀ ci h₀ hi
  cases h₀.symm.trans hi
  refine ⟨rfl, ?_⟩
  rw [h.fresh _ (mem_of_getElem? hi)]

theorem Imported.allocated (h : Imported U E l) (hs : Renumbered l s)
    (hroots : ∀ c ∈ E, ∃ i k, (dcs l)[i]? = some c ∧ s.mark i = some (.allocated k)) {i : Nat} (hi : i < l.length) :
    ∃ k, s.mark i = some (.allocated k) := by
  induction hn : l.length - i using Nat.strong_induction_on generalizing i with
  | _ n ih =>
    have h₀ := getElem?_eq_getElem hi
    have hused := h.used _ (mem_of_getElem? h₀)
    rw [uses, Nat.succ_le_iff, countP_pos_iff] at hused
    obtain ⟨d, hd, he⟩ := hused
    have he : hash d = hash l[i].dc_ref := by simpa using he
    have index_eq : ∀ j, (dcs l)[j]? = some d → j = i := by
      intro j hj
      rw [dcs, getElem?_map, map_eq_some_iff] at hj
      obtain ⟨cj, hj, rfl⟩ := hj
      exact h.index_inj hj h₀ he
    rcases mem_append.1 hd with hd | hd
    · obtain ⟨j, k, hj, hk⟩ := hroots d hd
      exact ⟨k, index_eq j hj ▸ hk⟩
    · obtain ⟨c, hc, hd⟩ := mem_flatMap.1 hd
      obtain ⟨cj, hcj, rfl⟩ := List.mem_map.1 hc
      obtain ⟨j, hj⟩ := mem_iff_getElem?.1 hcj
      obtain ⟨r, hr, hrj, hrd⟩ := exists_of_forall₂ (h.refs j cj hj) hd
      obtain rfl := index_eq r hrd
      have hjl := (List.getElem?_eq_some_iff.1 hj).1
      obtain ⟨k, hk⟩ := ih (l.length - j) (by omega) hjl rfl
      obtain ⟨ci, hci, -, hentry⟩ := hs.get hj
      rw [Revisit.mark, hci, map_some, Option.some.injEq] at hk
      rw [hk] at hentry
      obtain ⟨k', -, hk'⟩ := exists_of_forall₂ hentry.2 hr
      exact ⟨k', hk'.2⟩

theorem Renumbered.origin (hs : Renumbered l s) {k : Nat} {ci : CellInfo} (hk : s.tmp[k]? = some ci) :
    ∃ i ci₀, l[i]? = some ci₀ ∧ s.mark i = some (.allocated k) ∧
      { ci with ref_idx := ci₀.ref_idx, new_idx := ci₀.new_idx } = ci₀ ∧
      List.Forall₂ (fun r k' => k' < k ∧ s.mark r = some (.allocated k')) ci₀.ref_idx ci.ref_idx := by
  obtain ⟨i, hi⟩ := hs.tmp k (List.getElem?_eq_some_iff.1 hk).1
  have hmark := hi
  rw [Revisit.mark, map_eq_some_iff] at hi
  obtain ⟨ci', hci, hnew⟩ := hi
  have h₀ := getElem?_eq_getElem (show i < l.length from hs.length ▸ (List.getElem?_eq_some_iff.1 hci).1)
  obtain ⟨hsame, hentry⟩ := hs.entries i _ ci' h₀ hci
  rw [hnew] at hentry
  cases hk.symm.trans hentry.1
  exact ⟨i, _, h₀, hmark, hsame, hentry.2⟩

theorem Renumbered.dcs_tmp (hs : Renumbered l s) {i k : Nat} {c : DataCell} (hi : (dcs l)[i]? = some c)
    (hk : s.mark i = some (.allocated k)) : (dcs s.tmp)[k]? = some c := by
  rw [dcs, getElem?_map, map_eq_some_iff] at hi
  obtain ⟨ci₀, h₀, rfl⟩ := hi
  obtain ⟨ci, hci, hsame, hentry⟩ := hs.get h₀
  rw [Revisit.mark, hci, map_some, Option.some.injEq] at hk
  rw [hk] at hentry
  rw [getElem?_dcs hentry.1, ← hsame]

/-- An entry without what reordering changes. -/
def strip (ci : CellInfo) : CellInfo := { ci with ref_idx := [], new_idx := .unseen }

/-- The new list has the entries of the old one, up to their numbers. -/
theorem Imported.perm (h : Imported U E l) (hs : Renumbered l s)
    (hall : ∀ i < l.length, ∃ k, s.mark i = some (.allocated k)) : (s.tmp.map strip).Perm (l.map strip) := by
  have hnodup : (s.tmp.map strip).Nodup := by
    rw [nodup_iff_injective_getElem]
    rintro ⟨k, hk⟩ ⟨k', hk'⟩ he
    rw [length_map] at hk hk'
    obtain ⟨i, ci₀, h₀, hi, hsame, -⟩ := hs.origin (getElem?_eq_getElem hk)
    obtain ⟨i', ci₀', h₀', hi', hsame', -⟩ := hs.origin (getElem?_eq_getElem hk')
    have hdc : ci₀.dc_ref = ci₀'.dc_ref := by
      rw [← hsame, ← hsame']
      simpa [strip] using congrArg CellInfo.dc_ref he
    obtain rfl := h.index_inj h₀ h₀' (by rw [hdc])
    rw [hi] at hi'
    cases hi'
    rfl
  have hnodup₀ : (l.map strip).Nodup := by
    refine Nodup.of_map (hash ∘ CellInfo.dc_ref) ?_
    rw [List.map_map]
    have := h.nodup
    rwa [dcs, List.map_map] at this
  rw [perm_ext_iff_of_nodup hnodup hnodup₀]
  intro ci
  constructor
  · intro hci
    obtain ⟨ci, hmem, rfl⟩ := List.mem_map.1 hci
    obtain ⟨k, hk⟩ := mem_iff_getElem?.1 hmem
    obtain ⟨i, ci₀, h₀, -, hsame, -⟩ := hs.origin hk
    exact List.mem_map.2 ⟨ci₀, mem_of_getElem? h₀, (congrArg strip hsame).symm⟩
  · intro hci
    obtain ⟨ci₀, hmem, rfl⟩ := List.mem_map.1 hci
    obtain ⟨i, hi⟩ := mem_iff_getElem?.1 hmem
    obtain ⟨k, hk⟩ := hall i (List.getElem?_eq_some_iff.1 hi).1
    obtain ⟨ci, hci, hsame, hentry⟩ := hs.get hi
    rw [Revisit.mark, hci, map_some, Option.some.injEq] at hk
    rw [hk] at hentry
    have he := congrArg strip hsame
    exact List.mem_map.2 ⟨ci, mem_of_getElem? hentry.1, he⟩

theorem dcs_strip (l : List CellInfo) : (l.map strip).map CellInfo.dc_ref = dcs l := by
  rw [List.map_map]
  rfl

/-- The hashes of the special cells of a list. -/
def special_hashes (l : List CellInfo) : Nat := ((l.filter fun ci => ci.wt = 0).map CellInfo.hcnt).sum

theorem special_hashes_strip (l : List CellInfo) : special_hashes (l.map strip) = special_hashes l := by
  rw [special_hashes, special_hashes, List.filter_map, List.map_map]
  rfl

theorem Imported.visit_roots (h : Imported U E l) {roots : List RootInfo} (hlt : ∀ r ∈ roots, r.idx < l.length) :
    Step l l.length ⟨l, []⟩
      (roots.foldl (fun s root => revisit .visit root.idx (revisit .previsit root.idx s)) (⟨l, []⟩ : Revisit)) ∧
    ∀ r ∈ roots,
      (roots.foldl (fun s root => revisit .visit root.idx (revisit .previsit root.idx s)) (⟨l, []⟩ : Revisit)).Visited r.idx := by
  have := Step.foldl (l := l) (n := l.length) (s := ⟨l, []⟩) (c := roots.reverse) (Q := fun s r => s.Visited r.idx)
    (f := fun s root => revisit .visit root.idx (revisit .previsit root.idx s)) (by
      intro r hr s hs
      have hbelow := visits_below h.backward (le_refl l.length) r.idx (hlt r (mem_reverse.1 hr))
      obtain ⟨hp, -, -⟩ := hbelow s hs
      obtain ⟨-, hv, hdone⟩ := hbelow _ hp.renumbered
      exact ⟨hp.trans hv, hdone⟩) (fun r _ _ hstep hq => hstep.visited (i := r.idx) hq) h.renumbered
  simpa only [reverse_reverse, mem_reverse] using this

theorem Renumbered.allocate_roots (hs : Renumbered l s) {roots : List RootInfo} (hlt : ∀ r ∈ roots, r.idx < l.length)
    (hv : ∀ r ∈ roots, s.Visited r.idx) : Step l l.length s (roots.foldl (fun s root => revisit .allocate root.idx s) s) ∧
      ∀ r ∈ roots, ∃ k, (roots.foldl (fun s root => revisit .allocate root.idx s) s).mark r.idx = some (.allocated k) := by
  induction roots generalizing s with
  | nil => exact ⟨.refl hs _, by simp⟩
  | cons r roots ih =>
    have hr := hlt r (by simp)
    obtain ⟨h1, k, hk⟩ := revisit_allocate hs (getElem?_eq_getElem hr) (hv r (by simp))
    obtain ⟨h2, h3⟩ := ih h1.renumbered (fun r hr => hlt r (by simp [hr])) (fun r hr => h1.visited (hv r (by simp [hr])))
    refine ⟨(h1.mono hr).trans h2, ?_⟩
    intro r' hr'
    rcases mem_cons.1 hr' with rfl | hr'
    · exact ⟨k, h2.allocated hk⟩
    · exact h3 r' hr'

end Reorder

/-- A bag ready to be written: each cell below the roots once, after those it refers to, flagged when
it is used more than once. -/
structure Packed (cells : List DataCell) (b : BagOfCells) : Prop where
  roots : List.Forall₂ (fun c r => (dcs b.cell_list)[r.idx]? = some c) cells b.roots
  mem : ∀ c, c ∈ dcs b.cell_list ↔ c ∈ subcellsList cells
  nodup : ((dcs b.cell_list).map hash).Nodup
  refs : ∀ (i : Nat) (ci : CellInfo), b.cell_list[i]? = some ci →
    List.Forall₂ (fun r k => k < i ∧ (dcs b.cell_list)[k]? = some r) ci.dc_ref.refs ci.ref_idx
  flags : ∀ ci ∈ b.cell_list, ci.should_cache = decide (2 ≤ uses (cells ++ children (dcs b.cell_list)) ci.dc_ref)
  int_refs : b.int_refs = ((dcs b.cell_list).map get_refs_cnt).sum
  data_bytes : b.data_bytes = ((dcs b.cell_list).map (get_serialized_size · false)).sum
  int_hashes : b.int_hashes = special_hashes b.cell_list
  top_hashes : b.top_hashes = 0
  hcnt : ∀ ci ∈ b.cell_list, ci.hcnt = ci.dc_ref.get_level_mask.get_hashes_count ∧ ci.is_root_cell = false

theorem forall₂_comp {α β γ : Type} {R : α → β → Prop} {S : β → γ → Prop} {T : α → γ → Prop} (hT : ∀ a b c, R a b → S b c → T a c)
    {as : List α} {bs : List β} {cs : List γ} (h : List.Forall₂ R as bs) (h' : List.Forall₂ S bs cs) : List.Forall₂ T as cs := by
  induction h generalizing cs with
  | nil =>
    cases h'
    exact .nil
  | cons hab _ ih =>
    cases h' with
    | cons hbc h' => exact .cons (hT _ _ _ hab hbc) (ih h')

/-- The list after all roots were visited and allocated. -/
def revisited (l : List CellInfo) (roots : List RootInfo) : Revisit :=
  roots.foldl (fun s root => revisit .allocate root.idx s)
    (roots.foldl (fun s root => revisit .visit root.idx (revisit .previsit root.idx s)) (⟨l, []⟩ : Revisit))

theorem Imported.revisited {U cells : List DataCell} {l : List CellInfo} (h : Imported U cells l) {roots : List RootInfo}
    (hroots : List.Forall₂ (fun c r => (dcs l)[r.idx]? = some c) cells roots) : Renumbered l (revisited l roots) ∧
      (∀ r ∈ roots, ∃ k, (revisited l roots).mark r.idx = some (.allocated k)) ∧
      ∀ i < l.length, ∃ k, (revisited l roots).mark i = some (.allocated k) := by
  have hlt : ∀ r ∈ roots, r.idx < l.length := by
    intro r hr
    obtain ⟨c, -, hc⟩ := exists_of_forall₂ hroots.flip hr
    simpa [dcs] using (List.getElem?_eq_some_iff.1 hc).1
  obtain ⟨hvisit, hv⟩ := h.visit_roots hlt
  obtain ⟨halloc, hk⟩ := hvisit.renumbered.allocate_roots hlt hv
  refine ⟨halloc.renumbered, hk, fun i hi => h.allocated halloc.renumbered ?_ hi⟩
  intro c hc
  obtain ⟨r, hr, he⟩ := exists_of_forall₂ hroots hc
  obtain ⟨k, hk⟩ := hk r hr
  exact ⟨r.idx, k, he, hk⟩

theorem reorder_cells_spec {b : BagOfCells} {U cells : List DataCell} (h : Imported U cells b.cell_list)
    (hroots : List.Forall₂ (fun c r => (dcs b.cell_list)[r.idx]? = some c) cells b.roots)
    (hrefs : b.int_refs = ((dcs b.cell_list).map get_refs_cnt).sum)
    (hbytes : b.data_bytes = ((dcs b.cell_list).map (get_serialized_size · false)).sum)
    (hmem : ∀ c, c ∈ dcs b.cell_list ↔ c ∈ subcellsList cells) : Packed cells (reorder_cells b) := by
  have hw := Reweighed.weigh b.cell_list
  have hd := hw.dcs_eq
  replace h := h.reweigh hw
  rw [← hd] at hroots hrefs hbytes hmem
  unfold reorder_cells
  generalize weigh b.cell_list = l at h hd hroots hrefs hbytes hmem
  obtain ⟨hs, hk, hall⟩ := h.revisited hroots
  extract_lets l' s₁ s
  change Renumbered l s at hs
  have hroots' : List.Forall₂ (fun c r => (dcs s.tmp)[s.new_idx r.idx]? = some c) cells b.roots := by
    have hsame : List.Forall₂ (fun r r' => r' = r ∧ ∃ k, s.mark r.idx = some (.allocated k)) b.roots b.roots :=
      forall₂_same.2 fun r hr => ⟨rfl, hk r hr⟩
    refine forall₂_comp ?_ hroots hsame
    rintro c r _ hr ⟨rfl, k, hk⟩
    rw [← hs.dcs_tmp hr hk, Revisit.new_idx]
    rw [Revisit.mark] at hk
    simp only [hk]
  have hstrip := h.perm hs hall
  have hperm : (dcs s.tmp).Perm (dcs l) := by
    rw [← dcs_strip, ← dcs_strip]
    exact hstrip.map _
  refine ⟨?_, ?_, ?_, ?_, ?_, ?_, ?_, ?_, ?_, ?_⟩
  · rw [forall₂_map_right_iff]
    exact hroots'
  · intro c
    rw [← hmem]
    exact hperm.mem_iff
  · exact (hperm.map hash).nodup_iff.2 h.nodup
  · intro k ci hk
    obtain ⟨i, ci₀, h₀, -, hsame, hidx⟩ := hs.origin hk
    have := h.refs i ci₀ h₀
    rw [← hsame] at this
    refine forall₂_comp ?_ this (hsame ▸ hidx)
    intro r j k' hj hk'
    exact ⟨hk'.1, hs.dcs_tmp hj.2 hk'.2⟩
  · intro ci hci
    obtain ⟨k, hk⟩ := mem_iff_getElem?.1 hci
    obtain ⟨i, ci₀, h₀, -, hsame, -⟩ := hs.origin hk
    have := h.flags ci₀ (mem_of_getElem? h₀)
    rw [← hsame] at this
    have huses : uses (cells ++ children (dcs s.tmp)) ci.dc_ref = uses (cells ++ children (dcs l)) ci.dc_ref :=
      ((hperm.flatMap_right DataCell.refs).append_left cells).countP_eq _
    rw [huses]
    exact this
  · exact hrefs.trans (hperm.map _).sum_nat.symm
  · exact hbytes.trans (hperm.map _).sum_nat.symm
  · show special_hashes l = special_hashes s.tmp
    rw [← special_hashes_strip, ← special_hashes_strip s.tmp]
    exact ((hstrip.filter _).map _).sum_nat.symm
  · refine sum_eq_zero fun n hn => ?_
    obtain ⟨root, -, rfl⟩ := List.mem_map.1 hn
    cases hi : l[root.idx]? with
    | none => rfl
    | some ci =>
      dsimp only
      rw [(h.hcnt ci (mem_of_getElem? hi)).2]
      rfl
  · intro ci hci
    obtain ⟨k, hk⟩ := mem_iff_getElem?.1 hci
    obtain ⟨i, ci₀, h₀, -, hsame, -⟩ := hs.origin hk
    have := h.hcnt ci₀ (mem_of_getElem? h₀)
    rwa [← hsame] at this

theorem import_cells_spec {cells : List DataCell} (hU : HashInj (subcellsList cells)) (hdepth : ∀ c ∈ cells, height c ≤ max_depth)
    (hne : cells ≠ []) {b : BagOfCells} (hb : b.roots.map RootInfo.cell = cells) : ∃ b', b.import_cells = .ok b' ∧ Packed cells b' := by
  obtain ⟨b₁, roots, he, hi, hg, hr⟩ := import_roots_spec hU b.roots [] { roots := b.roots } (by rw [hb]; exact fun d hd => hd)
    (.nil _) (fun r hr => hdepth _ (hb ▸ List.mem_map_of_mem hr))
  rw [hb, nil_append] at hi
  rw [hb] at hg
  have hmem : ∀ c, c ∈ dcs b₁.cell_list ↔ c ∈ subcellsList cells := fun c => ⟨hi.mem c, hi.closed_refs hi.pending⟩
  have hroots : List.Forall₂ (fun c r => (dcs b₁.cell_list)[r.idx]? = some c) cells roots := by
    rw [← hb, forall₂_map_left_iff]
    exact hr.imp fun r r' h => h.2
  have hpacked : Packed cells (reorder_cells { b₁ with roots }) := by
    refine reorder_cells_spec (b := { b₁ with roots }) hi hroots ?_ ?_ hmem
    · simpa [dcs] using hg.int_refs
    · simpa [dcs] using hg.data_bytes
  refine ⟨reorder_cells { b₁ with roots }, ?_, hpacked⟩
  rw [import_cells, he, ok_bind]
  simp only
  rw [if_neg]
  intro h0
  obtain ⟨c, hc⟩ := exists_mem_of_ne_nil cells hne
  have := (hpacked.mem c).2 (mem_subcellsList.2 ⟨c, hc, mem_subcells_self c⟩)
  rw [cell_count, length_eq_zero_iff] at h0
  rw [h0] at this
  cases this

end Ton.Boc
