import Ton.FunC.Rearrange
/-!
# What `drop_vars_except` leaves

The search for a copy of `at(i)` ends before `at(i - 1)`, so two copies next to each other are both
kept. A pop moves the entry on top into the place of the one that it drops, and may put it next to a
copy. Where no copy can come that near, each needed variable is left once.
-/

namespace Ton.FunC.Stack
open List Bool

variable (needed : VarIdx → Bool)

/-- One turn of the loop. -/
def Turn (st st' : Stack) : Prop := ∃ i, first_unneeded needed st.s = some i ∧ st.issue_pop i = some st'

abbrev Turns : Stack → Stack → Prop := Relation.ReflTransGen (Turn needed)

/-- The needed variables of a stack, each once. -/
def needed_vars (s : List Entry) : List VarIdx := ((labels s).filter needed).dedup

variable {needed}

/-! ## The test -/

variable {s : List Entry} {st st' : Stack} {v : VarIdx}

theorem unneeded_iff {i : Nat} {e : Entry} (h : s[i]? = some e) :
    unneeded needed s i = true ↔
      needed e.1 = false ∨ ∃ (k : Nat) (e' : Entry), k < i - 1 ∧ s[k]? = some e' ∧ e'.1 = e.1 := by
  simp only [unneeded, h, Option.any_some, or_eq_true, not_eq_true']
  refine or_congr_right ⟨fun hf => ?_, fun ⟨k, e', hk, hs, he⟩ => ?_⟩
  · obtain ⟨k, hk⟩ := Option.isSome_iff_exists.1 hf
    obtain ⟨hlt, e', hs, he⟩ := find_range_some hk
    exact ⟨k, e', hlt, hs, he⟩
  · obtain ⟨j, hj⟩ := find_range_exists hk hs he
    rw [hj]; rfl

theorem unneeded_lt {i : Nat} (h : unneeded needed s i = true) : i < s.length := by
  by_contra hge
  rw [unneeded, getElem?_eq_none (by omega)] at h
  cases h

theorem first_unneeded_some {i : Nat} (h : first_unneeded needed s = some i) :
    unneeded needed s i = true ∧ ∀ k, k < i → unneeded needed s k = false := by
  obtain ⟨hu, _, hb⟩ := find?_range_eq_some.1 h
  exact ⟨hu, fun k hk => by simpa using hb k hk⟩

theorem first_unneeded_none : first_unneeded needed s = none ↔ ∀ k, unneeded needed s k = false := by
  rw [first_unneeded, find?_range_eq_none]
  refine ⟨fun h k => ?_, fun h k _ => by simp [h k]⟩
  by_cases hk : k < s.length
  · simpa using h k hk
  · exact eq_false_iff.2 fun hu => hk (unneeded_lt hu)

/-! ## The loop -/

theorem drop_loop_right (n dropped : Nat) (st : Stack) (hn : st.depth ≤ n) :
    ∃ st' k, drop_loop needed n dropped st = some (st', dropped + k) ∧ Emits st st' ∧ Turns needed st st' ∧
      first_unneeded needed st'.s = none ∧ st'.depth + k = st.depth := by
  induction n generalizing dropped st with
  | zero =>
    have hs : st.s = [] := length_eq_zero_iff.1 (Nat.le_zero.1 hn)
    exact ⟨st, 0, rfl, .refl _, .refl, by rw [hs]; rfl, rfl⟩
  | succ n ih =>
    rw [drop_loop]
    cases hf : first_unneeded needed st.s with
    | none => exact ⟨st, 0, rfl, .refl _, .refl, hf, rfl⟩
    | some i =>
      have hlt := unneeded_lt (first_unneeded_some hf).1
      obtain ⟨st1, h1, hem1, hp1, _⟩ := issue_pop_right (getElem?_eq_getElem hlt)
      have hd : st1.depth + 1 = st.depth := hp1.length_eq
      obtain ⟨st2, k, h2, hem2, ht2, hnone, hd2⟩ := ih (dropped + 1) st1 (by omega)
      refine ⟨st2, k + 1, ?_, hem1.trans hem2, .head ⟨i, hf, h1⟩ ht2, hnone, by omega⟩
      simp only [h1, Option.bind_some, h2]
      congr 2
      omega

theorem Turn.mem_labels (h : Turn needed st st') (hv : needed v = true) :
    v ∈ labels st'.s ↔ v ∈ labels st.s := by
  obtain ⟨i, hf, hpop⟩ := h
  have hu := (first_unneeded_some hf).1
  have hlt := unneeded_lt hu
  obtain ⟨st1, h1, _, hp, hup, htop⟩ := issue_pop_right (getElem?_eq_getElem hlt)
  obtain rfl := Option.some.inj (h1.symm.trans hpop)
  have hmem := mem_labels_perm hp (x := v)
  rw [labels_cons, mem_cons] at hmem
  refine ⟨fun hin => hmem.1 (.inr hin), fun hin => (hmem.2 hin).elim (fun heq => ?_) id⟩
  -- what is dropped is found above
  rcases (unneeded_iff (getElem?_eq_getElem hlt)).1 hu with hno | ⟨k, e', hk, hs, he⟩
  · rw [← heq, hv] at hno; cases hno
  · refine FunC.mem_labels.2 ?_
    cases k with
    | zero => exact ⟨i - 1, e', by rw [htop (by omega), hs], by rw [he, heq]⟩
    | succ k => exact ⟨k, e', by rw [hup k (by omega), hs], by rw [he, heq]⟩

theorem Turns.mem_labels (h : Turns needed st st') (hv : needed v = true) :
    v ∈ labels st'.s ↔ v ∈ labels st.s := by
  induction h with
  | refl => rfl
  | tail _ ht ih => exact (ht.mem_labels hv).trans ih

theorem mem_needed_vars : v ∈ needed_vars needed s ↔ v ∈ labels s ∧ needed v = true := by
  rw [needed_vars, mem_dedup, mem_filter]

theorem nodup_needed_vars (s : List Entry) : (needed_vars needed s).Nodup := nodup_dedup _

theorem Turns.mem_needed_vars (h : Turns needed st st') (v : VarIdx) :
    v ∈ needed_vars needed st'.s ↔ v ∈ needed_vars needed st.s := by
  rw [Stack.mem_needed_vars, Stack.mem_needed_vars]
  exact and_congr_left fun hv => h.mem_labels hv

/-! ## Copies that are kept apart -/

variable {n : Nat}

/-- No copy of a needed variable is next to another one, and none is among the entries above the lowest `n`, which
the pops move. -/
structure Parted (needed : VarIdx → Bool) (n : Nat) (s : List Entry) : Prop where
  once : ∀ k v, k + n < s.length → (labels s)[k]? = some v → needed v = true → ∀ j, (labels s)[j]? = some v → j = k
  apart : ∀ k v, (labels s)[k]? = some v → needed v = true → (labels s)[k + 1]? ≠ some v

theorem Turn.lt_length (h : Turn needed st st') : (needed_vars needed st.s).length < st.s.length := by
  obtain ⟨i, hf, hpop⟩ := id h
  obtain ⟨st1, h1, _, hp, _⟩ := issue_pop_right (getElem?_eq_getElem (unneeded_lt (first_unneeded_some hf).1))
  obtain rfl := Option.some.inj (h1.symm.trans hpop)
  have hd : st1.s.length + 1 = st.s.length := hp.length_eq
  have hsub : needed_vars needed st.s ⊆ labels st1.s := by
    intro v hv
    obtain ⟨hin, hu⟩ := mem_needed_vars.1 hv
    exact (h.mem_labels hu).2 hin
  have hle := ((nodup_needed_vars st.s).subperm hsub).length_le
  rw [length_labels] at hle
  omega

theorem Turn.parted (h : Turn needed st st') (hn : n < st.s.length) (hp : Parted needed n st.s) :
    Parted needed n st'.s := by
  obtain ⟨i, hf, hpop⟩ := h
  obtain ⟨st1, h1, _, hperm, hup, htop⟩ := issue_pop_right (getElem?_eq_getElem (unneeded_lt (first_unneeded_some hf).1))
  obtain rfl := Option.some.inj (h1.symm.trans hpop)
  have hd : st1.s.length + 1 = st.s.length := hperm.length_eq
  have hup' : ∀ k, k + 1 ≠ i → (labels st1.s)[k]? = (labels st.s)[k + 1]? := fun k hk => by
    rw [labels, labels, getElem?_map, getElem?_map, hup k hk]
  have htop' : ∀ k, k + 1 = i → (labels st1.s)[k]? = (labels st.s)[0]? := fun k hk => by
    rw [labels, labels, getElem?_map, getElem?_map, show k = i - 1 by omega, htop (by omega)]
  refine ⟨fun k v hk hv hu j hj => ?_, fun k v hv hu hv' => ?_⟩
  · by_cases hki : k + 1 = i
    · rw [htop' k hki] at hv
      by_cases hji : j + 1 = i
      · omega
      · rw [hup' j hji] at hj
        exact absurd (hp.once 0 v (by omega) hv hu _ hj) (by omega)
    · rw [hup' k hki] at hv
      by_cases hji : j + 1 = i
      · rw [htop' j hji] at hj
        exact absurd (hp.once (k + 1) v (by omega) hv hu 0 hj) (by omega)
      · rw [hup' j hji] at hj
        exact Nat.succ.inj (hp.once (k + 1) v (by omega) hv hu _ hj)
  · by_cases hki : k + 1 = i
    · rw [htop' k hki] at hv
      rw [hup' (k + 1) (by omega)] at hv'
      exact absurd (hp.once 0 v (by omega) hv hu _ hv') (by omega)
    · rw [hup' k hki] at hv
      by_cases hki' : k + 2 = i
      · rw [htop' (k + 1) hki'] at hv'
        exact absurd (hp.once 0 v (by omega) hv' hu _ hv) (by omega)
      · rw [hup' (k + 1) hki'] at hv'
        exact hp.apart (k + 1) v hv hu hv'

theorem Turns.parted (h : Turns needed st st') (hp : Parted needed (needed_vars needed st.s).length st.s) :
    Parted needed (needed_vars needed st.s).length st'.s := by
  induction h with
  | refl => exact hp
  | tail hts ht ih =>
    have hperm := (perm_ext_iff_of_nodup (nodup_needed_vars _) (nodup_needed_vars _)).2 (Turns.mem_needed_vars hts)
    refine ht.parted ?_ ih
    rw [← hperm.length_eq]
    exact ht.lt_length

theorem Parted.nodup (hp : Parted needed n s) (hnone : first_unneeded needed s = none) : (labels s).Nodup := by
  have hkeep := first_unneeded_none.1 hnone
  rw [nodup_iff_getElem?_ne_getElem?]
  intro i j hij hj heq
  rw [length_labels] at hj
  have hsj := getElem?_eq_getElem hj
  have hsi := getElem?_eq_getElem (show i < s.length by omega)
  rw [labels_getElem? hsj, labels_getElem? hsi] at heq
  -- what is kept is needed and has no copy above but for the entry next to it
  have hkept : ¬(needed s[j].1 = false ∨ ∃ (k : Nat) (e' : Entry), k < j - 1 ∧ s[k]? = some e' ∧ e'.1 = s[j].1) := fun h => by
    have hu := (unneeded_iff hsj).2 h
    rw [hkeep j] at hu
    cases hu
  have hnext : j = i + 1 := by
    by_contra hne
    exact hkept (.inr ⟨i, _, by omega, hsi, Option.some.inj heq⟩)
  subst hnext
  have hu : needed s[i + 1].1 = true := eq_true_of_not_eq_false fun hno => hkept (.inl hno)
  exact hp.apart i s[i + 1].1 (labels_getElem? hsi ▸ heq) hu (labels_getElem? hsj)

theorem drop_vars_except_right (used : VarIdx → Bool) (excl_var : VarIdx) (st : Stack) :
    ∃ st' dropped, drop_vars_except used excl_var st = some (st', dropped) ∧ st'.depth + dropped = st.depth ∧
      (∀ v, v ∈ labels st'.s ↔ v ∈ labels st.s ∧ (used v || v = excl_var) = true) ∧ Moves st st' ∧
      (Parted (fun idx => used idx || idx = excl_var) (needed_vars (fun idx => used idx || idx = excl_var) st.s).length st.s →
        (labels st'.s).Nodup) := by
  unfold drop_vars_except
  generalize hn : (fun idx => used idx || decide (idx = excl_var)) = needed
  obtain ⟨st', k, h, hem, hts, hnone, hd⟩ := @drop_loop_right needed st.depth 0 st le_rfl
  have hkeep := first_unneeded_none.1 hnone
  rw [Nat.zero_add] at h
  refine ⟨st', k, h, hd, fun v => ?_, hem.moves, fun hp => (Turns.parted hts hp).nodup hnone⟩
  have hv' : (used v || decide (v = excl_var)) = needed v := congrFun hn v
  rw [hv']
  refine ⟨fun hv => ?_, fun ⟨hv, hu⟩ => (Turns.mem_labels hts hu).2 hv⟩
  obtain ⟨i, e, hi, rfl⟩ := mem_labels.1 hv
  have hu : needed e.1 = true := not_eq_false _ ▸ fun hno => by
    have := (unneeded_iff hi).2 (.inl hno)
    rw [hkeep i] at this
    cases this
  exact ⟨(Turns.mem_labels hts hu).1 hv, hu⟩

/-! ## The three together -/

/-- The targets are reached, nothing needed is lost, no assertion fails, and the instructions move
values as the labels move. A needed variable is left once by `drop_vars_except` where its copies are
neither next to each other nor among the entries that the pops may move. -/
theorem rearrangements_right (st : Stack) (req top : List VarIdx) (last : List Bool) (used : VarIdx → Bool)
    (excl_var : VarIdx) (hreq : ∀ x ∈ req, x ∈ labels st.s) (htop : ∀ x ∈ top, x ∈ labels st.s) :
    (∃ st', enforce_state req st = some st' ∧ st'.vars = req ∧ Moves st st') ∧
    (∃ st' below, rearrange_top top last st = some st' ∧ st'.vars = below ++ top ∧
      (∀ v ∈ labels st.s, (v, true) ∉ clear_last top last → v ∈ below) ∧ Moves st st') ∧
    ∃ st' dropped, drop_vars_except used excl_var st = some (st', dropped) ∧ st'.depth + dropped = st.depth ∧
      (∀ v, v ∈ labels st'.s ↔ v ∈ labels st.s ∧ (used v || v = excl_var) = true) ∧ Moves st st' ∧
      (Parted (fun idx => used idx || idx = excl_var) (needed_vars (fun idx => used idx || idx = excl_var) st.s).length st.s →
        (labels st'.s).Nodup) :=
  ⟨enforce_state_right req st hreq, rearrange_top_right top last st htop, drop_vars_except_right used excl_var st⟩

/-- Variable 3 is not used, and the copy of variable 1 at the bottom is away from the other one. -/
theorem rearrangements_right_two :
    (∃ st', enforce_state [2, 1, 2] ⟨[(1, -1), (2, -1)], []⟩ = some st' ∧ st'.vars = [2, 1, 2] ∧
      Moves ⟨[(1, -1), (2, -1)], []⟩ st') ∧
    ∃ st' dropped, drop_vars_except (fun idx => idx != 3) 0 ⟨[(3, -1), (4, -1), (1, -1), (2, -1), (1, -1)], []⟩ = some (st', dropped) ∧
      (labels st'.s).Nodup := by
  refine ⟨(rearrangements_right ⟨[(1, -1), (2, -1)], []⟩ [2, 1, 2] [1] [true] (fun _ => true) 0 (by decide) (by decide)).1, ?_⟩
  obtain ⟨-, -, st', dropped, h, -, -, -, hnd⟩ := rearrangements_right ⟨[(3, -1), (4, -1), (1, -1), (2, -1), (1, -1)], []⟩ [] [] []
    (fun idx => idx != 3) 0 (by simp) (by simp)
  refine ⟨st', dropped, h, hnd ⟨fun k v hk hv hu j hj => ?_, fun k v hv hu hv' => ?_⟩⟩
  · obtain rfl | rfl : k = 0 ∨ k = 1 := by
      change k + 3 < 5 at hk
      omega
    · cases hv
      exact absurd hu (by decide)
    · cases hv
      have hlt : j < 5 := (List.getElem?_eq_some_iff.1 hj).1
      interval_cases j <;> first | rfl | exact absurd hj (by decide)
  · have hlt : k < 5 := (List.getElem?_eq_some_iff.1 hv).1
    interval_cases k <;> cases hv <;> exact absurd hv' (by decide)

/-- Two copies next to each other, and nothing to turn around. -/
theorem both_copies_left :
    ¬ ∀ (used : VarIdx → Bool) (excl_var : VarIdx) (st : Stack), ∃ st' dropped,
      drop_vars_except used excl_var st = some (st', dropped) ∧ (labels st'.s).Nodup := by
  intro h
  obtain ⟨st', dropped, hd, hnd⟩ := h (fun _ => true) 0 ⟨[(1, -1), (1, -1)], []⟩
  have hkept : drop_vars_except (fun _ => true) 0 ⟨[(1, -1), (1, -1)], []⟩ = some (⟨[(1, -1), (1, -1)], []⟩, 0) := by
    decide
  obtain ⟨rfl, -⟩ := Prod.mk.inj (Option.some.inj (hd.symm.trans hkept))
  exact absurd hnd (by decide)

end Ton.FunC.Stack
