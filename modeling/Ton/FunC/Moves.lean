import Ton.FunC.Stack
/-!
# Instructions move values as they move labels

An instruction does not look at what it moves, so what the instructions emitted do to the entries
they do to every stack of the same depth.
-/

namespace Ton.FunC
open List Option

section
variable {α β : Type} (f : α → β)

theorem pop_at_map (i : Nat) (l : List α) : pop_at i (l.map f) = (pop_at i l).map (List.map f) := by
  cases l with
  | nil => rfl
  | cons x l =>
    simp only [pop_at, map_cons, length_cons, length_map]
    split
    · rw [← map_cons, ← map_set, ← map_tail]; rfl
    · rfl

theorem push_at_map (i : Nat) (l : List α) : push_at i (l.map f) = (push_at i l).map (List.map f) := by
  unfold push_at
  rw [getElem?_map]
  cases l[i]? <;> rfl

theorem xchg_at_map (i j : Nat) (l : List α) : xchg_at i j (l.map f) = (xchg_at i j l).map (List.map f) := by
  unfold xchg_at
  rw [getElem?_map, getElem?_map]
  cases l[i]? with
  | none => rfl
  | some x => cases l[j]? with
    | none => rfl
    | some y => simp [map_set]

theorem AsmOp.run_map (op : AsmOp) (l : List α) : op.run (l.map f) = (op.run l).map (List.map f) := by
  cases op with
  | pop i => exact pop_at_map f i l
  | push i => exact push_at_map f i l
  | xchg i j => exact xchg_at_map f i j l

theorem run_all_map (ops : List AsmOp) (l : List α) : run_all ops (l.map f) = (run_all ops l).map (List.map f) := by
  induction ops generalizing l with
  | nil => rfl
  | cons op ops ih =>
    simp only [run_all, AsmOp.run_map]
    cases op.run l with
    | none => rfl
    | some l' => exact ih l'

end

theorem run_all_append {α : Type} (ops ops' : List AsmOp) (l : List α) :
    run_all (ops ++ ops') l = (run_all ops l).bind (run_all ops') := by
  induction ops generalizing l with
  | nil => rfl
  | cons op ops ih =>
    simp only [cons_append, run_all]
    cases op.run l with
    | none => rfl
    | some l' => exact ih l'

theorem map_range_getElem? {α : Type} {l : List α} {n : Nat} (hn : l.length = n) :
    (List.range n).map (fun k => l[k]?) = l.map some := by
  subst hn
  refine ext_getElem (by simp) fun k h1 h2 => ?_
  have hk : k < l.length := by simpa using h1
  simp [hk]

namespace Stack

/-- The instructions of `st'` after those of `st` take the one stack to the other. -/
def Emits (st st' : Stack) : Prop := ∃ ops, st'.o = st.o ++ ops ∧ run_all ops st.s = some st'.s

/-- `π` lists where each entry of `st'` was in `st`. The instructions between the two put the values
of any stack that deep in the same order. -/
def Moves (st st' : Stack) : Prop :=
  ∃ (ops : List AsmOp) (π : List Nat), st'.o = st.o ++ ops ∧ st'.s.map some = π.map (fun k => st.s[k]?) ∧
    ∀ {α : Type} (v : List α), v.length = st.depth →
      ∃ v', run_all ops v = some v' ∧ v'.map some = π.map (fun k => v[k]?)

theorem Emits.refl (st : Stack) : Emits st st := ⟨[], by simp, rfl⟩

theorem Emits.trans {st st' st'' : Stack} (h : Emits st st') (h' : Emits st' st'') : Emits st st'' := by
  obtain ⟨ops, ho, hr⟩ := h
  obtain ⟨ops', ho', hr'⟩ := h'
  refine ⟨ops ++ ops', by rw [ho', ho, append_assoc], ?_⟩
  rw [run_all_append, hr]
  exact hr'

theorem Emits.moves {st st' : Stack} (h : Emits st st') : Moves st st' := by
  obtain ⟨ops, ho, hr⟩ := h
  -- the positions themselves are run along with the entries
  have hp := run_all_map (fun k => st.s[k]?) ops (List.range st.depth)
  rw [map_range_getElem? (show st.s.length = st.depth from rfl), run_all_map, hr] at hp
  obtain ⟨π, hπ, heq⟩ := map_eq_some_iff.1 hp.symm
  refine ⟨ops, π, ho, heq.symm, fun v hv => ?_⟩
  have hq := run_all_map (fun k => v[k]?) ops (List.range st.depth)
  rw [map_range_getElem? hv, run_all_map, hπ] at hq
  obtain ⟨v', hv', heq'⟩ := map_eq_some_iff.1 hq
  exact ⟨v', hv', heq'⟩

/-! ## What each instruction does -/

theorem issue_push_right {st : Stack} {i : Nat} {x : Entry} (h : st.s[i]? = some x) :
    ∃ st', st.issue_push i = some st' ∧ Emits st st' ∧ st'.s = x :: st.s := by
  have hp : push_at i st.s = some (x :: st.s) := by rw [push_at, h]; rfl
  refine ⟨⟨x :: st.s, st.o ++ [AsmOp.push i]⟩, by rw [issue_push, hp]; rfl, ⟨[AsmOp.push i], rfl, ?_⟩, rfl⟩
  simp only [run_all, AsmOp.run, hp, bind_some]

/-- The entries down to `i` come up by one, and the top goes to where the last of them was. -/
theorem issue_pop_right {st : Stack} {i : Nat} {x : Entry} (h : st.s[i]? = some x) :
    ∃ st', st.issue_pop i = some st' ∧ Emits st st' ∧ (x :: st'.s).Perm st.s ∧
      (∀ k, k + 1 ≠ i → st'.s[k]? = st.s[k + 1]?) ∧ (0 < i → st'.s[i - 1]? = st.s[0]?) := by
  obtain ⟨s, o⟩ := st
  cases s with
  | nil => cases h
  | cons y l =>
    obtain ⟨hi, hx⟩ := List.getElem?_eq_some_iff.1 h
    have hp : pop_at i (y :: l) = some (((y :: l).set i y).tail) := if_pos hi
    refine ⟨⟨((y :: l).set i y).tail, o ++ [AsmOp.pop i]⟩, by rw [issue_pop, hp]; rfl, ⟨[AsmOp.pop i], rfl, ?_⟩, ?_, ?_, ?_⟩
    · simp only [run_all, AsmOp.run, hp, bind_some]
    · cases i with
      | zero => simp only [getElem_cons_zero] at hx; subst hx; exact .refl _
      | succ i =>
        have hi' : i < l.length := by simpa using hi
        simp only [getElem_cons_succ] at hx
        subst hx
        refine ((set_perm_cons_eraseIdx hi' y).cons _).trans ((List.Perm.swap _ _ _).trans ?_)
        exact (getElem_cons_eraseIdx_perm hi').cons y
    · intro k hk
      rw [getElem?_tail, getElem?_set_ne (Ne.symm hk)]
    · intro hpos
      rw [getElem?_tail, Nat.sub_add_cancel hpos, getElem?_set_self hi]
      rfl

theorem issue_xchg_right {st : Stack} {i j : Nat} {x y : Entry} (hi : st.s[i]? = some x) (hj : st.s[j]? = some y) :
    ∃ st', st.issue_xchg i j = some st' ∧ Emits st st' ∧ st'.s.Perm st.s ∧ st'.s[i]? = some y ∧
      st'.s[j]? = some x ∧ ∀ k, k ≠ i → k ≠ j → st'.s[k]? = st.s[k]? := by
  have hx : xchg_at i j st.s = some ((st.s.set i y).set j x) := by rw [xchg_at, hi, hj]; rfl
  obtain ⟨hil, hie⟩ := List.getElem?_eq_some_iff.1 hi
  obtain ⟨hjl, hje⟩ := List.getElem?_eq_some_iff.1 hj
  by_cases hc : i ≠ j ∧ x ≠ y
  · refine ⟨⟨(st.s.set i y).set j x, st.o ++ [AsmOp.xchg i j]⟩, ?_, ⟨[AsmOp.xchg i j], rfl, ?_⟩, ?_, ?_, ?_, ?_⟩
    · simp only [issue_xchg, hi, hj, bind_some, if_pos hc, hx, map_some]
    · simp only [run_all, AsmOp.run, hx, bind_some]
    · subst hie hje; exact set_set_perm hil hjl
    · rw [getElem?_set_ne (Ne.symm hc.1), getElem?_set_self hil]
    · rw [getElem?_set_self (by simpa using hjl)]
    · intro k hki hkj
      rw [getElem?_set_ne (Ne.symm hkj), getElem?_set_ne (Ne.symm hki)]
  · refine ⟨st, ?_, .refl _, .refl _, ?_, ?_, fun _ _ _ => rfl⟩
    · simp only [issue_xchg, hi, hj, bind_some, if_neg hc]
    all_goals
      by_cases hij : i = j
      · subst hij; simp_all
      · simp_all

end Stack

end Ton.FunC
