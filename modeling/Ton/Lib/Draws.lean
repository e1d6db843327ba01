import Mathlib.Algebra.BigOperators.Group.List.Basic
import Mathlib.Data.List.Perm.Basic
import Mathlib.Data.List.Forall2
import Mathlib.Order.Monotone.Basic
import Mathlib.Data.Nat.Init
import Mathlib.Tactic.Ring
/-!
# Draws without replacement

Things with weights are laid end to end: `start k` is where the thing `k` begins. Those already
drawn are holes, and `skip` moves a position in the layout of the others past them. `inside_out`
is one step of the shuffle that builds a permutation from its front.
-/

namespace Draws
open List

/-- The thing at a position when these are laid end to end. -/
def owner (w : ℕ → ℕ) : List ℕ → ℕ → Option ℕ
  | [], _ => none
  | k :: ks, pos => if pos < w k then some k else owner w ks (pos - w k)

/-- How much these weigh together. -/
def room (w : ℕ → ℕ) (ks : List ℕ) : ℕ := (ks.map w).sum

/-- The position past the holes that begin at it or before; positions are cut to `m`. -/
def skip (m p : ℕ) : List (ℕ × ℕ) → ℕ
  | [] => p
  | (first, second) :: holes => if p < first then p else skip m ((p + second) % m) holes

theorem skip_before {m p : ℕ} {holes : List (ℕ × ℕ)} (h : ∀ hole ∈ holes, p < hole.1) : skip m p holes = p := by
  cases holes with
  | nil => rfl
  | cons hole holes => exact if_pos (h hole mem_cons_self)

section
variable {w start : ℕ → ℕ} (hstart : ∀ k, start (k + 1) = start k + w k)
include hstart

theorem start_mono : Monotone start := monotone_nat_of_le_succ fun k => by rw [hstart]; exact Nat.le_add_right _ _

theorem room_le (q : ℕ → Bool) (s len : ℕ) : start s + room w ((List.range' s len).filter q) ≤ start (s + len) := by
  induction len generalizing s with
  | zero => exact le_refl _
  | succ len ih =>
    have h := ih (s + 1)
    rw [hstart, show s + 1 + len = s + (len + 1) by omega] at h
    rw [range'_succ, filter_cons]
    split
    · rw [room, map_cons, sum_cons, ← Nat.add_assoc]
      exact h
    · omega

/-- Past the holes, a position of the others is at the thing that has it. -/
theorem skip_spec (taken : ℕ → Bool) {m : ℕ} (s len : ℕ) (hm : start (s + len) ≤ m) {p : ℕ} (hp : start s ≤ p)
    (hroom : p - start s < room w ((List.range' s len).filter fun k => !taken k)) :
    ∃ k, owner w ((List.range' s len).filter fun k => !taken k) (p - start s) = some k ∧ s ≤ k ∧ k < s + len ∧ taken k = false ∧
      start k ≤ skip m p (((List.range' s len).filter taken).map fun k => (start k, w k)) ∧
      skip m p (((List.range' s len).filter taken).map fun k => (start k, w k)) < start (k + 1) := by
  induction len generalizing s p with
  | zero => exact absurd hroom (Nat.not_lt_zero _)
  | succ len ih =>
    rw [range'_succ, filter_cons] at hroom
    simp only [range'_succ, filter_cons]
    have hm' : start (s + 1 + len) ≤ m := by rw [show s + 1 + len = s + (len + 1) by omega]; exact hm
    cases ht : taken s with
    | true =>
      -- a hole: the position moves on by its weight, which still fits
      rw [ht] at hroom
      have hle := room_le hstart (fun k => !taken k) (s + 1) len
      rw [hstart] at hle
      have hlt : p + w s < m := by
        simp only [Bool.not_true, Bool.false_eq_true, if_false] at hroom
        omega
      obtain ⟨k, hown, hk1, hk2, hk3, hlow, hhigh⟩ := ih (s + 1) hm' (show start (s + 1) ≤ p + w s by rw [hstart]; omega)
        (show p + w s - start (s + 1) < _ by rw [hstart, Nat.add_sub_add_right]; exact hroom)
      rw [hstart, Nat.add_sub_add_right] at hown
      have hskip : ∀ holes, skip m p ((start s, w s) :: holes) = skip m (p + w s) holes := by
        intro holes
        rw [skip, if_neg (Nat.not_lt.2 hp), Nat.mod_eq_of_lt hlt]
      refine ⟨k, hown, by omega, by omega, hk3, ?_, ?_⟩
      · rw [if_pos rfl, map_cons, hskip]
        exact hlow
      · rw [if_pos rfl, map_cons, hskip]
        exact hhigh
    | false =>
      rw [ht] at hroom
      simp only [Bool.not_false, if_true, Bool.false_eq_true, if_false] at hroom ⊢
      rw [owner]
      -- no hole that is left begins at the position or before
      by_cases hown : p - start s < w s
      · rw [if_pos hown]
        have hpast : skip m p (((List.range' (s + 1) len).filter taken).map fun k => (start k, w k)) = p := by
          refine skip_before fun hole hhole => ?_
          obtain ⟨k, hk, rfl⟩ := mem_map.1 hhole
          have hk' := mem_range'_1.1 (mem_of_mem_filter hk)
          have hmono := start_mono hstart hk'.1
          rw [hstart] at hmono
          show p < start k
          omega
        exact ⟨s, rfl, le_refl _, by omega, ht, by rw [hpast]; exact hp, by rw [hpast, hstart]; omega⟩
      · rw [if_neg hown]
        rw [room, map_cons, sum_cons] at hroom
        obtain ⟨k, hk, hk1, hk2, hk3, hlow, hhigh⟩ := ih (s + 1) hm' (show start (s + 1) ≤ p by rw [hstart]; omega)
          (show p - start (s + 1) < _ by rw [hstart, room]; omega)
        rw [hstart, Nat.sub_add_eq] at hk
        exact ⟨k, hk, by omega, by omega, hk3, hlow, hhigh⟩

end

theorem filter_range_split (q : ℕ → Bool) {k n : ℕ} (h : k < n) : (List.range n).filter q =
    (List.range k).filter q ++ ((if q k then [k] else []) ++ (List.range' (k + 1) (n - k - 1)).filter q) := by
  have hsplit : List.range n = List.range k ++ k :: List.range' (k + 1) (n - k - 1) := by
    obtain ⟨m, rfl⟩ := Nat.exists_eq_add_of_lt h
    rw [show k + m + 1 - k - 1 = m by omega, range_eq_range', show k + m + 1 = k + (m + 1) by omega, ← range'_append_1,
      range'_succ, Nat.zero_add, ← range_eq_range']
  rw [hsplit, filter_append, filter_cons]
  split
  · rfl
  · rfl

/-! ## The shuffle -/

/-- One step: what is at `j` goes to the end, and the new number to `j`. -/
def inside_out (l : List ℕ) (j x : ℕ) : List ℕ := if h : j < l.length then l.set j x ++ [l[j]] else l ++ [x]

theorem inside_out_perm (l : List ℕ) (j x : ℕ) : (inside_out l j x).Perm (x :: l) := by
  unfold inside_out
  split
  · next h =>
    have hl : l.Perm (l[j] :: (l.take j ++ l.drop (j + 1))) := by
      conv_lhs => rw [← take_append_drop j l, drop_eq_getElem_cons h]
      exact perm_middle
    rw [set_eq_take_append_cons_drop, if_pos h]
    calc Perm ((l.take j ++ x :: l.drop (j + 1)) ++ [l[j]]) (l[j] :: (l.take j ++ x :: l.drop (j + 1))) := perm_append_singleton _ _
      Perm _ (l[j] :: x :: (l.take j ++ l.drop (j + 1))) := perm_middle.cons _
      Perm _ (x :: l[j] :: (l.take j ++ l.drop (j + 1))) := List.Perm.swap _ _ _
      Perm _ (x :: l) := hl.symm.cons _
  · exact perm_append_singleton _ _

theorem length_inside_out (l : List ℕ) (j x : ℕ) : (inside_out l j x).length = l.length + 1 := (inside_out_perm l j x).length_eq

/-- Every arrangement with the new number is one step from one without it. -/
theorem exists_inside_out {l t : List ℕ} {x : ℕ} (h : t.Perm (x :: l)) : ∃ l' j, l'.Perm l ∧ j ≤ l.length ∧ inside_out l' j x = t := by
  have hmem : x ∈ t := h.mem_iff.2 mem_cons_self
  obtain ⟨a, b, rfl⟩ := append_of_mem hmem
  have hab : (a ++ b).Perm l := (perm_middle.symm.trans h).cons_inv
  rcases eq_nil_or_concat b with rfl | ⟨b, y, rfl⟩
  · refine ⟨a, a.length, by simpa using hab, ?_, ?_⟩
    · exact (append_nil a ▸ hab).length_eq.le
    · rw [inside_out, dif_neg (lt_irrefl _)]
  · refine ⟨a ++ y :: b, a.length, ?_, ?_, ?_⟩
    · rw [concat_eq_append] at hab
      refine List.Perm.trans ?_ hab
      exact Perm.append_left a (perm_append_singleton y b).symm
    · have hlen := hab.length_eq
      simp at hlen
      omega
    · rw [inside_out, dif_pos (by simp)]
      simp

end Draws
