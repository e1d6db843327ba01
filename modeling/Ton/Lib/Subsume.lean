import Mathlib.Data.List.Basic
import Mathlib.Logic.Function.Basic
/-!
# Lists reduced by what covers what

Of a list, the entries are marked one after the other that another entry covers, if that one
is not marked itself; those without a mark are kept. What was covered by the list is covered
by what is kept, and nothing that is kept covers anything else that is.
-/

namespace Ton.Subsume
open List Bool Function

variable {α : Type} (covers : α → α → Bool)

/-- Another entry covers the `i`-th, and has no mark. -/
def subsumed (l : List α) (mark : Nat → Bool) (i : Nat) : Bool :=
  (List.range l.length).any fun j =>
    j != i && !mark j &&
      match l[j]?, l[i]? with
      | some x, some y => covers x y
      | _, _ => false

/-- The marks and how many there are. -/
def mark_step (l : List α) (s : (Nat → Bool) × Nat) (i : Nat) : (Nat → Bool) × Nat :=
  if subsumed covers l s.1 i then (update s.1 i true, s.2 + 1) else s

def marks (l : List α) (n : Nat) : (Nat → Bool) × Nat := (List.range n).foldl (mark_step covers l) (fun _ => false, 0)

def keep (l : List α) (mark : Nat → Bool) : List α := (l.zipIdx.filter fun e => !mark e.2).map Prod.fst

def reduce (l : List α) : List α :=
  if (marks covers l l.length).2 ≠ 0 then keep l (marks covers l l.length).1 else l

/-- Neither of two covers the other. -/
def Apart (x y : α) : Prop := covers x y = false ∧ covers y x = false

section
variable {covers} {l : List α} {mark : Nat → Bool} {i : Nat}

theorem subsumed_iff : subsumed covers l mark i = true ↔
    ∃ j x y, j ≠ i ∧ mark j = false ∧ l[j]? = some x ∧ l[i]? = some y ∧ covers x y = true := by
  unfold subsumed
  rw [any_eq_true]
  constructor
  · rintro ⟨j, hj, h⟩
    simp only [and_eq_true, bne_iff_ne, not_eq_true'] at h
    obtain ⟨⟨hne, hm⟩, h⟩ := h
    split at h
    · next x y hx hy => exact ⟨j, x, y, hne, hm, hx, hy, h⟩
    · cases h
  · rintro ⟨j, x, y, hne, hm, hx, hy, h⟩
    obtain ⟨hj, -⟩ := List.getElem?_eq_some_iff.1 hx
    refine ⟨j, mem_range.2 hj, ?_⟩
    rw [hx, hy]
    simp [hne, hm, h]

theorem marks_succ (n : Nat) : marks covers l (n + 1) = mark_step covers l (marks covers l n) n := by
  rw [marks, range_succ, foldl_append]
  rfl

theorem not_subsumed_update {k : Nat} (h : subsumed covers l mark i = false) : subsumed covers l (update mark k true) i = false := by
  rw [← not_eq_true, subsumed_iff] at h ⊢
  rintro ⟨j, x, y, hne, hm, hx, hy, hc⟩
  refine h ⟨j, x, y, hne, ?_, hx, hy, hc⟩
  by_cases hj : j = k
  · subst hj
    rw [update_self] at hm
    cases hm
  · rwa [update_of_ne hj] at hm

theorem not_subsumed_marks (n : Nat) : ∀ i < n, (marks covers l n).1 i = false → subsumed covers l (marks covers l n).1 i = false := by
  induction n with
  | zero => exact fun i hi => absurd hi (by omega)
  | succ n ih =>
    intro i hi
    rw [marks_succ, mark_step]
    split
    · dsimp only
      intro hm
      by_cases hn : i = n
      · subst hn
        rw [update_self] at hm
        cases hm
      · rw [update_of_ne hn] at hm
        exact not_subsumed_update (ih i (by omega) hm)
    · next hs =>
      intro hm
      rcases Nat.lt_succ_iff_lt_or_eq.1 hi with hlt | rfl
      · exact ih i hlt hm
      · exact not_eq_true _ ▸ hs

theorem no_marks (n : Nat) (h : (marks covers l n).2 = 0) : ∀ i, (marks covers l n).1 i = false := by
  induction n with
  | zero => exact fun _ => rfl
  | succ n ih =>
    rw [marks_succ, mark_step] at h ⊢
    split at h
    · cases h
    · next hs =>
      rw [if_neg hs]
      exact ih h

theorem covered_marks (hrefl : ∀ x ∈ l, covers x x = true)
    (htrans : ∀ x ∈ l, ∀ y ∈ l, ∀ z ∈ l, covers x y = true → covers y z = true → covers x z = true) (n : Nat) {z : α} (hz : z ∈ l) :
    ∃ j x, (marks covers l n).1 j = false ∧ l[j]? = some x ∧ covers x z = true := by
  induction n with
  | zero =>
    obtain ⟨j, hj⟩ := mem_iff_getElem?.1 hz
    exact ⟨j, z, rfl, hj, hrefl z hz⟩
  | succ n ih =>
    obtain ⟨j, x, hm, hx, hc⟩ := ih
    rw [marks_succ, mark_step]
    split
    · next hs =>
      dsimp only
      by_cases hj : j = n
      · -- what covered it gets a mark, and is covered itself
        subst hj
        obtain ⟨j', x', y, hne, hm', hx', hy, hc'⟩ := subsumed_iff.1 hs
        rw [hx] at hy
        cases hy
        refine ⟨j', x', ?_, hx', ?_⟩
        · rw [update_of_ne hne]
          exact hm'
        · exact htrans x' (mem_of_getElem? hx') x (mem_of_getElem? hx) z hz hc' hc
      · exact ⟨j, x, by rw [update_of_ne hj]; exact hm, hx, hc⟩
    · exact ⟨j, x, hm, hx, hc⟩

theorem mem_keep {x : α} : x ∈ keep l mark ↔ ∃ j, l[j]? = some x ∧ mark j = false := by
  unfold keep
  rw [mem_map]
  constructor
  · rintro ⟨e, he, rfl⟩
    obtain ⟨he, hm⟩ := mem_filter.1 he
    exact ⟨e.2, mem_zipIdx_iff_getElem?.1 he, by simpa using hm⟩
  · rintro ⟨j, hj, hm⟩
    exact ⟨(x, j), mem_filter.2 ⟨mem_zipIdx_iff_getElem?.2 hj, by simp [hm]⟩, rfl⟩

theorem keep_sublist : (keep l mark).Sublist l := by
  have h := (filter_sublist (p := fun e : α × Nat => !mark e.2) (l := l.zipIdx)).map Prod.fst
  rwa [zipIdx_map_fst] at h

theorem keep_none (h : ∀ i, mark i = false) : keep l mark = l := by
  unfold keep
  rw [filter_eq_self.2 fun e _ => by simp [h], zipIdx_map_fst]

theorem reduce_eq_keep : reduce covers l = keep l (marks covers l l.length).1 := by
  unfold reduce
  split
  · rfl
  · next h => exact (keep_none (no_marks _ (not_not.1 h))).symm

theorem reduce_sublist : (reduce covers l).Sublist l := by
  rw [reduce_eq_keep]
  exact keep_sublist

theorem exists_reduce_covers (hrefl : ∀ x ∈ l, covers x x = true)
    (htrans : ∀ x ∈ l, ∀ y ∈ l, ∀ z ∈ l, covers x y = true → covers y z = true → covers x z = true) {z : α} (hz : z ∈ l) :
    ∃ x ∈ reduce covers l, covers x z = true := by
  obtain ⟨j, x, hm, hx, hc⟩ := covered_marks hrefl htrans l.length hz
  rw [reduce_eq_keep]
  exact ⟨x, mem_keep.2 ⟨j, hx, hm⟩, hc⟩

theorem reduce_apart : (reduce covers l).Pairwise (Apart covers) := by
  rw [reduce_eq_keep, keep, pairwise_map]
  have hindex : l.zipIdx.Pairwise fun a b => a.2 ≠ b.2 := by
    rw [← pairwise_map (f := Prod.snd) (R := (· ≠ ·)), zipIdx_map_snd]
    exact nodup_range'
  refine (hindex.filter _).imp_of_mem ?_
  intro a b ha hb hne
  obtain ⟨ha, hma⟩ := mem_filter.1 ha
  obtain ⟨hb, hmb⟩ := mem_filter.1 hb
  have hla := mem_zipIdx_iff_getElem?.1 ha
  have hlb := mem_zipIdx_iff_getElem?.1 hb
  have hfree : ∀ {a b : α × Nat}, l[a.2]? = some a.1 → l[b.2]? = some b.1 → (!(marks covers l l.length).1 a.2) = true →
      (!(marks covers l l.length).1 b.2) = true → a.2 ≠ b.2 → covers a.1 b.1 = false := by
    intro a b hla hlb hma hmb hne
    obtain ⟨hlt, -⟩ := List.getElem?_eq_some_iff.1 hlb
    have hns := not_subsumed_marks l.length b.2 hlt (by simpa using hmb)
    rw [← not_eq_true, subsumed_iff] at hns
    rw [← not_eq_true]
    exact fun hc => hns ⟨a.2, a.1, b.1, hne, by simpa using hma, hla, hlb, hc⟩
  exact ⟨hfree hla hlb hma hmb hne, hfree hlb hla hmb hma hne.symm⟩

theorem reduce_of_apart (h : l.Pairwise (Apart covers)) : reduce covers l = l := by
  have hnone : ∀ n, marks covers l n = (fun _ => false, 0) := by
    intro n
    induction n with
    | zero => rfl
    | succ n ih =>
      rw [marks_succ, ih, mark_step, if_neg]
      rw [subsumed_iff]
      rintro ⟨j, x, y, hne, -, hx, hy, hc⟩
      obtain ⟨hj, rfl⟩ := List.getElem?_eq_some_iff.1 hx
      obtain ⟨hn, rfl⟩ := List.getElem?_eq_some_iff.1 hy
      rw [pairwise_iff_getElem] at h
      rcases Nat.lt_or_gt_of_ne hne with hlt | hgt
      · rw [(h j n hj hn hlt).1] at hc
        cases hc
      · rw [(h n j hn hj hgt).2] at hc
        cases hc
  rw [reduce, hnone, if_neg (by simp)]

end

end Ton.Subsume
