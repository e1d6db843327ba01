import Ton.FunC.Moves
/-!
# The rearrangements reach their targets

`enforce_state` and `rearrange_top` build a zone of entries that are in place. A turn adds one entry
on top of the zone and leaves those in it alone, and what is around it keeps every variable.
-/

namespace Ton.FunC
open List Option

/-! ## Labels -/

@[simp] theorem labels_append (s t : List Entry) : labels (s ++ t) = labels s ++ labels t := map_append

@[simp] theorem labels_cons (e : Entry) (s : List Entry) : labels (e :: s) = e.1 :: labels s := rfl

@[simp] theorem labels_nil : labels [] = [] := rfl

@[simp] theorem length_labels (s : List Entry) : (labels s).length = s.length := length_map _

theorem labels_perm {s t : List Entry} (h : s.Perm t) : (labels s).Perm (labels t) := h.map _

theorem mem_labels_perm {s t : List Entry} (h : s.Perm t) {x : VarIdx} : x ∈ labels s ↔ x ∈ labels t :=
  (labels_perm h).mem_iff

theorem mem_labels {s : List Entry} {x : VarIdx} : x ∈ labels s ↔ ∃ (k : Nat) (e : Entry), s[k]? = some e ∧ e.1 = x := by
  constructor
  · intro h
    obtain ⟨e, he, hx⟩ := List.mem_map.1 h
    obtain ⟨k, hk⟩ := mem_iff_getElem?.1 he
    exact ⟨k, e, hk, hx⟩
  · rintro ⟨k, e, hk, hx⟩
    exact List.mem_map.2 ⟨e, mem_iff_getElem?.2 ⟨k, hk⟩, hx⟩

theorem labels_getElem? {s : List Entry} {k : Nat} {e : Entry} (h : s[k]? = some e) : (labels s)[k]? = some e.1 := by
  rw [labels, getElem?_map, h]; rfl

theorem mem_labels_around {a z b : List Entry} {x : VarIdx} (h : x ∈ labels (a ++ b)) :
    ∃ (k : Nat) (e : Entry), (a ++ z ++ b)[k]? = some e ∧ e.1 = x ∧ (k < a.length ∨ a.length + z.length ≤ k) := by
  rw [labels_append, mem_append] at h
  rcases h with h | h
  · obtain ⟨k, e, hk, hx⟩ := mem_labels.1 h
    have hlt := (List.getElem?_eq_some_iff.1 hk).1
    exact ⟨k, e, by rw [append_assoc, getElem?_append_left hlt, hk], hx, .inl hlt⟩
  · obtain ⟨k, e, hk, hx⟩ := mem_labels.1 h
    refine ⟨(a ++ z).length + k, e, ?_, hx, .inr (by simp)⟩
    rw [getElem?_append_right (Nat.le_add_right _ _), Nat.add_sub_cancel_left, hk]

/-- `s'` has what `s` has, the same in the zone `z` and `y` right above it. -/
theorem place {α : Type} {s s' a z b : List α} {m j : Nat} {y : α} (hs : s = a ++ z ++ b) (ha : a.length = m + 1)
    (hout : j ≤ m ∨ m + 1 + z.length ≤ j) (hp : s'.Perm s) (hm : s'[m]? = some y)
    (hk : ∀ k, k ≠ m → k ≠ j → s'[k]? = s[k]?) :
    ∃ c b', s' = c ++ y :: z ++ b' ∧ c.length = m ∧ b'.length = b.length ∧ (y :: (c ++ b')).Perm (a ++ b) := by
  obtain ⟨hlt, hy⟩ := List.getElem?_eq_some_iff.1 hm
  have hlen : s'.length = m + 1 + z.length + b.length := by rw [hp.length_eq, hs]; simp [ha, Nat.add_assoc]
  have hz : (s'.drop (m + 1)).take z.length = z := by
    refine ext_getElem? fun k => ?_
    by_cases hkz : k < z.length
    · rw [getElem?_take_of_lt hkz, getElem?_drop, hk _ (by omega) (by omega), hs, append_assoc,
        getElem?_append_right (by omega), getElem?_append_left (by omega)]
      congr 1
      omega
    · rw [getElem?_eq_none (by simp; omega), getElem?_eq_none (by omega)]
  have hsplit : s' = s'.take m ++ y :: z ++ s'.drop (m + 1 + z.length) := by
    have h1 : s'.drop (m + 1) = z ++ s'.drop (m + 1 + z.length) := by
      conv_lhs => rw [← take_append_drop z.length (s'.drop (m + 1)), hz, drop_drop]
    conv_lhs => rw [← take_append_drop m s', drop_eq_getElem_cons hlt, hy, h1]
    simp
  refine ⟨_, _, hsplit, by simp; omega, by simp; omega, ?_⟩
  classical
  rw [perm_iff_count]
  intro x
  have hc := hp.count_eq x
  rw [hsplit, hs] at hc
  simp only [count_append, count_cons] at hc ⊢
  omega

namespace Stack

/-! ## Searches -/

section
variable {s : List Entry}

variable {var : VarIdx} {e : Entry}

theorem find_some {start j : Nat} (h : find s var start = some j) :
    start ≤ j ∧ ∃ e, s[j]? = some e ∧ e.1 = var := by
  obtain ⟨k, hk, rfl⟩ := map_eq_some_iff.1 h
  obtain ⟨hlt, hp, _⟩ := findIdx?_eq_some_iff_getElem.1 hk
  refine ⟨by omega, _, getElem?_eq_getElem (by simp at hlt; omega), ?_⟩
  simpa [Nat.add_comm] using hp

theorem find_exists {start k : Nat} (hk : start ≤ k) (hs : s[k]? = some e)
    (he : e.1 = var) : ∃ j, find s var start = some j := by
  have hany : ((s.drop start).findIdx? fun e => e.1 = var).isSome := by
    rw [findIdx?_isSome, List.any_eq_true]
    exact ⟨e, mem_iff_getElem?.2 ⟨k - start, by rw [getElem?_drop, Nat.add_sub_cancel' hk, hs]⟩,
      by simpa using he⟩
  obtain ⟨j, hj⟩ := isSome_iff_exists.1 hany
  exact ⟨j + start, by rw [find, hj]; rfl⟩

theorem find_of_mem {x : VarIdx} (h : x ∈ labels s) :
    ∃ j e, find s x 0 = some j ∧ s[j]? = some e ∧ e.1 = x := by
  obtain ⟨k, e, hk, hx⟩ := mem_labels.1 h
  obtain ⟨j, hj⟩ := find_exists (Nat.zero_le k) hk hx
  obtain ⟨_, e', he', hx'⟩ := find_some hj
  exact ⟨j, e', hj, he', hx'⟩

theorem find_range_some {stop j : Nat} (h : find_range s var 0 stop = some j) :
    j < stop ∧ ∃ e, s[j]? = some e ∧ e.1 = var := by
  obtain ⟨_, e, he, hx⟩ := find_some h
  have hlt := (List.getElem?_eq_some_iff.1 he).1
  rw [length_take] at hlt
  rw [getElem?_take_of_lt (by omega)] at he
  exact ⟨by omega, e, he, hx⟩

theorem find_range_exists {stop k : Nat} (hk : k < stop)
    (hs : s[k]? = some e) (he : e.1 = var) : ∃ j, find_range s var 0 stop = some j :=
  find_exists (Nat.zero_le k) (by rw [getElem?_take_of_lt hk, hs]) he

theorem find_outside_some {start stop j : Nat}
    (h : find_outside s var start stop = some j) :
    (j < start ∨ stop ≤ j) ∧ ∃ e, s[j]? = some e ∧ e.1 = var := by
  unfold find_outside at h
  split at h
  · exact ⟨by omega, (find_some h).2⟩
  · split at h
    · next t ht =>
      cases h
      exact ⟨.inl (find_range_some ht).1, (find_range_some ht).2⟩
    · exact ⟨.inr (find_some h).1, (find_some h).2⟩

theorem find_outside_exists {start stop k : Nat}
    (hk : k < start ∨ stop ≤ k) (hs : s[k]? = some e) (he : e.1 = var) :
    ∃ j, find_outside s var start stop = some j := by
  unfold find_outside
  split
  · exact find_exists (Nat.zero_le k) hs he
  · split
    · next t _ => exact ⟨t, rfl⟩
    · next hno =>
      rcases hk with hk | hk
      · obtain ⟨j, hj⟩ := find_range_exists hk hs he
        rw [hno] at hj; cases hj
      · exact find_exists hk hs he

end

/-! ## `enforce_state` -/

variable {req : List VarIdx} {st : Stack}

theorem drop_unused_right {z : List Entry} (hz : ∀ x ∈ labels z, x ∈ req) (u : List Entry)
    (o : List AsmOp) :
    ∃ u', (drop_unused req (u ++ z) o).s = u' ++ z ∧ Emits ⟨u ++ z, o⟩ (drop_unused req (u ++ z) o) ∧
      ∀ x ∈ req, x ∈ labels (u ++ z) → x ∈ labels (u' ++ z) := by
  induction u generalizing o with
  | nil =>
    cases z with
    | nil => exact ⟨[], rfl, .refl _, fun _ _ h => h⟩
    | cons e z =>
      have he : e.1 ∈ req := hz _ (by simp)
      simp only [nil_append, drop_unused, if_pos he]
      exact ⟨[], rfl, .refl _, fun _ _ h => h⟩
  | cons e u ih =>
    simp only [cons_append, drop_unused]
    split
    · exact ⟨e :: u, rfl, .refl _, fun _ _ h => h⟩
    · next he =>
      obtain ⟨u', hs, hem, hk⟩ := ih (o ++ [AsmOp.pop 0])
      refine ⟨u', hs, .trans ⟨[AsmOp.pop 0], rfl, rfl⟩ hem, fun x hx hmem => hk x hx ?_⟩
      rw [labels_cons] at hmem
      rcases mem_cons.1 hmem with rfl | hmem
      · exact absurd hx he
      · exact hmem

theorem issue_xchg_bottom {a z : List Entry} {j : Nat} {e : Entry} (hs : st.s = a ++ z)
    (hj : st.s[j]? = some e) (hlt : j < a.length) :
    ∃ st' c, st.issue_xchg j (a.length - 1) = some st' ∧ Emits st st' ∧ st'.s = c ++ e :: z ∧ st'.s.Perm st.s := by
  obtain ⟨m, hm⟩ : ∃ m, a.length = m + 1 := ⟨a.length - 1, by omega⟩
  have hml : m < st.s.length := by rw [hs]; simp; omega
  obtain ⟨st', hx, hem, hp, h1, h2, hk⟩ := issue_xchg_right hj (getElem?_eq_getElem hml)
  obtain ⟨c, b', hs', _, hb, _⟩ := place (hs.trans (append_nil _).symm) hm (.inl (by omega)) hp h2
    fun k h3 h4 => hk k h4 h3
  obtain rfl := length_eq_zero_iff.1 hb
  exact ⟨st', c, by rw [hm]; exact hx, hem, by rw [hs', append_nil], hp⟩

/-- A turn of the loop: the zone `z` is in place, and gets an `x` on its top. -/
theorem enforce_one_right {x : VarIdx} {u z : List Entry} (hx : x ∈ req)
    (hs : st.s = u ++ z) (hz : ∀ y ∈ labels z, y ∈ req) (hreq : ∀ y ∈ req, y ∈ labels st.s) :
    ∃ st' u' e, enforce_one req z.length x st = some st' ∧ Emits st st' ∧ st'.s = u' ++ e :: z ∧ e.1 = x ∧
      ∀ y ∈ req, y ∈ labels st'.s := by
  unfold enforce_one
  by_cases hin : z.length < st.depth ∧ (labels st.s)[st.depth - z.length - 1]? = some x
  · -- it is there already
    obtain ⟨hlt, hl⟩ := hin
    have hdep : st.depth = u.length + z.length := by rw [depth, hs, length_append]
    rw [if_pos ⟨hlt, hl⟩]
    obtain ⟨u', e, rfl⟩ := eq_nil_or_concat u |>.resolve_left (by rintro rfl; simp at hdep; omega)
    refine ⟨st, u', e, rfl, .refl _, by rw [hs]; simp, ?_, hreq⟩
    have he : st.s[u'.length]? = some e := by rw [hs]; simp
    have hpos : st.depth - z.length - 1 = u'.length := by rw [hdep]; simp
    rw [hpos, labels_getElem? he] at hl
    exact Option.some.inj hl
  · rw [if_neg hin]
    obtain ⟨u1, hs1, hem1, hk1⟩ := drop_unused_right hz u st.o
    rw [← hs] at hs1 hem1 hk1
    generalize drop_unused req st.s st.o = st1 at hs1 hem1 ⊢
    have hreq1 : ∀ y ∈ req, y ∈ labels st1.s := fun y hy => by rw [hs1]; exact hk1 y hy (hreq y hy)
    obtain ⟨j, e, hj, hje, hex⟩ := find_of_mem (hreq1 x hx)
    have hdep : st1.depth = u1.length + z.length := by rw [depth, hs1, length_append]
    simp only [hj, bind_some]
    -- a copy is pushed when all there are are in the zone
    obtain ⟨st2, j2, u2, hr, hem2, hs2, hj2, hlt2, hreq2⟩ : ∃ (st2 : Stack) (j2 : Nat) (u2 : List Entry),
        (if j ≥ st1.depth - z.length then (st1.issue_push j).map fun st => (st, 0) else some (st1, j)) = some (st2, j2) ∧
          Emits st1 st2 ∧ st2.s = u2 ++ z ∧ st2.s[j2]? = some e ∧ j2 < u2.length ∧ ∀ y ∈ req, y ∈ labels st2.s := by
      split
      · obtain ⟨st2, hp, hem2, hs2⟩ := issue_push_right hje
        refine ⟨st2, 0, e :: u1, by rw [hp]; rfl, hem2, by rw [hs2, hs1]; rfl, by rw [hs2]; rfl, by simp, fun y hy => ?_⟩
        rw [hs2, labels_cons]
        exact mem_cons_of_mem _ (hreq1 y hy)
      · exact ⟨st1, j, u1, rfl, .refl _, hs1, hje, by omega, hreq1⟩
    have hdep2 : st2.depth = u2.length + z.length := by rw [depth, hs2, length_append]
    obtain ⟨st3, c, hx3, hem3, hs3, hp3⟩ := issue_xchg_bottom hs2 hj2 hlt2
    have hpos : st2.depth - z.length - 1 = u2.length - 1 := by omega
    have hdep3 : st3.depth - z.length - 1 = c.length := by rw [depth, hs3]; simp; omega
    have hlab : (labels st3.s)[st3.depth - z.length - 1]? = some x := by
      rw [hdep3, ← hex]
      exact labels_getElem? (by rw [hs3]; simp)
    refine ⟨st3, c, e, ?_, hem1.trans (hem2.trans hem3), hs3, hex, fun y hy => (mem_labels_perm hp3).2 (hreq2 y hy)⟩
    rw [hr]
    simp only [bind_some, if_pos (show z.length < st2.depth by omega), hpos, hx3, if_pos hlab]

theorem enforce_loop_right (xs : List VarIdx) {z u : List Entry} (hs : st.s = u ++ z)
    (hxs : ∀ x ∈ xs, x ∈ req) (hz : ∀ y ∈ labels z, y ∈ req) (hreq : ∀ y ∈ req, y ∈ labels st.s) :
    ∃ st' u' z', enforce_loop req xs z.length st = some st' ∧ Emits st st' ∧ st'.s = u' ++ z' ∧
      labels z' = xs.reverse ++ labels z := by
  induction xs generalizing z u st with
  | nil => exact ⟨st, u, z, rfl, .refl _, hs, rfl⟩
  | cons x xs ih =>
    obtain ⟨st1, u1, e, h1, hem1, hs1, rfl, hreq1⟩ := enforce_one_right (hxs x (by simp)) hs hz hreq
    obtain ⟨st2, u2, z2, h2, hem2, hs2, hl2⟩ := ih hs1 (fun y hy => hxs y (by simp [hy]))
      (by
        intro y hy
        rw [labels_cons] at hy
        rcases mem_cons.1 hy with rfl | hy
        · exact hxs _ (by simp)
        · exact hz y hy) hreq1
    refine ⟨st2, u2, z2, ?_, hem1.trans hem2, hs2, by rw [hl2]; simp⟩
    rw [enforce_loop, h1]
    exact h2

theorem pop_down_right (u z : List Entry) (o : List AsmOp) :
    (pop_down z.length (u ++ z) o).s = z ∧ Emits ⟨u ++ z, o⟩ (pop_down z.length (u ++ z) o) := by
  induction u generalizing o with
  | nil =>
    cases z with
    | nil => exact ⟨rfl, .refl _⟩
    | cons e z =>
      rw [nil_append, pop_down, if_neg (Nat.lt_irrefl _)]
      exact ⟨rfl, .refl _⟩
  | cons e u ih =>
    rw [cons_append, pop_down, if_pos (by simp)]
    obtain ⟨hs, hem⟩ := ih (o ++ [AsmOp.pop 0])
    exact ⟨hs, .trans ⟨[AsmOp.pop 0], rfl, rfl⟩ hem⟩

theorem enforce_state_right (req : List VarIdx) (st : Stack) (hreq : ∀ x ∈ req, x ∈ labels st.s) :
    ∃ st', enforce_state req st = some st' ∧ st'.vars = req ∧ Moves st st' := by
  obtain ⟨st1, u, z, h1, hem1, hs1, hl1⟩ := enforce_loop_right req (append_nil st.s).symm (fun _ h => h) (by simp) hreq
  have hlz : labels z = req.reverse := by rw [hl1]; simp
  have hzl : z.length = req.length := by rw [← length_labels, hlz, length_reverse]
  obtain ⟨hs2, hem2⟩ := pop_down_right u z st1.o
  rw [← hs1, hzl] at hs2 hem2
  have hl2 : labels (pop_down req.length st1.s st1.o).s = req.reverse := by rw [hs2, hlz]
  refine ⟨_, ?_, ?_, (hem1.trans hem2).moves⟩
  · rw [enforce_state, show enforce_loop req req 0 st = some st1 from h1]
    exact if_pos hl2
  · rw [vars, hl2, reverse_reverse]

/-! ## `rearrange_top` -/

theorem map_fst_clear_last (top : List VarIdx) (last : List Bool) : (clear_last top last).map Prod.fst = top := by
  induction top generalizing last with
  | nil => rfl
  | cons x top ih => rw [clear_last, map_cons, ih]

theorem fst_mem_of_clear_last {top : List VarIdx} {last : List Bool} {p : VarIdx × Bool} (h : p ∈ clear_last top last) :
    p.1 ∈ top := by
  rw [← map_fst_clear_last top last]
  exact List.mem_map_of_mem h

theorem clear_last_pairwise (top : List VarIdx) (last : List Bool) :
    (clear_last top last).Pairwise fun p q => p.2 = true → p.1 ≠ q.1 := by
  induction top generalizing last with
  | nil => exact .nil
  | cons x top ih =>
    refine pairwise_cons.2 ⟨fun q hq hx heq => ?_, ih last.tail⟩
    simp only [Bool.and_eq_true, decide_eq_true_eq] at hx
    subst heq
    exact hx.2 (fst_mem_of_clear_last hq)

/-- What is marked are different variables of the stack, which is as deep. -/
theorem countP_clear_last_le {top : List VarIdx} {last : List Bool} {s : List Entry} (h : ∀ x ∈ top, x ∈ labels s) :
    (clear_last top last).countP (fun e => e.2) ≤ s.length := by
  have hnd : (((clear_last top last).filter fun e => e.2).map Prod.fst).Nodup := by
    refine pairwise_map.2 (pairwise_filter.2 ?_)
    exact (clear_last_pairwise top last).imp fun hp h1 _ => hp h1
  have hsub : ((clear_last top last).filter fun e => e.2).map Prod.fst ⊆ labels s := by
    intro x hx
    obtain ⟨p, hp, rfl⟩ := List.mem_map.1 hx
    exact h _ (fst_mem_of_clear_last (mem_of_mem_filter hp))
  have hle := (hnd.subperm hsub).length_le
  rwa [length_map, length_labels, ← countP_eq_length_filter] at hle

/-- The zone `z` is in place; `a` is as long as there are variables to be consumed. -/
theorem rearrange_loop_right (rest : List (VarIdx × Bool)) {a z b : List Entry} (hs : st.s = a ++ z ++ b)
    (ha : a.length = rest.countP fun e => e.2) (hpw : rest.Pairwise fun p q => p.2 = true → p.1 ≠ q.1)
    (hmem : ∀ p ∈ rest, p.1 ∈ labels (a ++ b)) :
    ∃ st' z' b', rearrange_loop rest z.length a.length st = some st' ∧ Emits st st' ∧ st'.s = z' ++ b' ∧
      labels z' = (rest.map Prod.fst).reverse ++ labels z ∧
      ∀ v ∈ labels (a ++ b), (v, true) ∉ rest → v ∈ labels b' := by
  induction rest generalizing st a z b with
  | nil =>
    obtain rfl := length_eq_zero_iff.1 (show a.length = 0 from ha)
    exact ⟨st, z, b, rfl, .refl _, hs, rfl, fun v hv _ => hv⟩
  | cons p rest ih =>
    obtain ⟨x, last⟩ := p
    obtain ⟨hne, hpw'⟩ := pairwise_cons.1 hpw
    obtain ⟨k, e0, hk, hx0, hout0⟩ := mem_labels_around (z := z) (hmem (x, last) (by simp))
    rw [← hs] at hk
    obtain ⟨j, hj⟩ := find_outside_exists hout0 hk hx0
    obtain ⟨hout, e, hje, rfl⟩ := find_outside_some hj
    cases last with
    | true =>
      obtain ⟨m, hm⟩ : ∃ m, a.length = m + 1 := ⟨rest.countP fun e => e.2, by rw [ha, countP_cons_of_pos rfl]⟩
      have hcnt : m = rest.countP fun e => e.2 := by
        rw [ha, countP_cons_of_pos rfl] at hm
        omega
      have hml : m < st.s.length := by rw [hs]; simp; omega
      obtain ⟨st1, h1, hem1, hp1, hgm, _, hrest⟩ := issue_xchg_right (getElem?_eq_getElem hml) hje
      obtain ⟨c, b1, hs1, hc, _, hperm⟩ := place hs hm (by omega) hp1 hgm hrest
      -- only what is consumed may be missing now
      have hkeep : ∀ v ∈ labels (a ++ b), e.1 ≠ v → v ∈ labels (c ++ b1) := by
        intro v hv hev
        have hin := (mem_labels_perm hperm).2 hv
        rw [labels_cons] at hin
        exact (mem_cons.1 hin).resolve_left fun h => hev h.symm
      obtain ⟨st2, z2, b2, h2, hem2, hs2, hl2, hk2⟩ := ih hs1 (hc.trans hcnt) hpw'
        fun q hq => hkeep _ (hmem q (by simp [hq])) (hne q hq rfl)
      refine ⟨st2, z2, b2, ?_, hem1.trans hem2, hs2, by rw [hl2]; simp, fun v hv hnm => ?_⟩
      · subst hc
        rw [rearrange_loop, hj, hm]
        simp only [bind_some, if_true, Nat.add_sub_cancel, if_neg (Nat.succ_ne_zero _), h1, labels_getElem? hgm]
        exact h2
      · refine hk2 v (hkeep v hv fun hev => hnm ?_) fun h => hnm (mem_cons_of_mem _ h)
        rw [hev]
        exact mem_cons_self
    | false =>
      obtain ⟨st1, h1, hem1, hs1⟩ := issue_push_right hje
      have hs1' : st1.s = (e :: a) ++ z ++ b := by rw [hs1, hs]; rfl
      have hal : a.length < st1.s.length := by rw [hs1']; simp
      obtain ⟨st2, h2, hem2, hp2, _, hgm, hrest⟩ :=
        issue_xchg_right (show st1.s[0]? = some e by rw [hs1]; rfl) (getElem?_eq_getElem hal)
      obtain ⟨c, b1, hs2, hc, _, hperm⟩ := place hs1' rfl (.inl (Nat.zero_le _)) hp2 hgm fun k h3 h4 => hrest k h4 h3
      have hperm' : (c ++ b1).Perm (a ++ b) := hperm.cons_inv
      have hcnt : c.length = rest.countP fun e => e.2 := by rw [hc, ha, countP_cons_of_neg (by simp)]
      obtain ⟨st3, z3, b3, h3, hem3, hs3, hl3, hk3⟩ := ih hs2 hcnt hpw'
        fun q hq => (mem_labels_perm hperm').2 (hmem q (by simp [hq]))
      refine ⟨st3, z3, b3, ?_, hem1.trans (hem2.trans hem3), hs3, by rw [hl3]; simp, fun v hv hnm => ?_⟩
      · rw [rearrange_loop, hj]
        simp only [bind_some, Bool.false_eq_true, if_false, h1, h2, labels_getElem? hgm, if_true]
        rw [← hc]
        exact h3
      · exact hk3 v ((mem_labels_perm hperm').2 hv) fun h => hnm (mem_cons_of_mem _ h)

theorem rearrange_top_right (top : List VarIdx) (last : List Bool) (st : Stack) (htop : ∀ x ∈ top, x ∈ labels st.s) :
    ∃ st' below, rearrange_top top last st = some st' ∧ st'.vars = below ++ top ∧
      (∀ v ∈ labels st.s, (v, true) ∉ clear_last top last → v ∈ below) ∧ Moves st st' := by
  obtain ⟨ss, hss⟩ : ∃ ss, ss = (clear_last top last).countP fun e => e.2 := ⟨_, rfl⟩
  have hlen : (st.s.take ss).length = ss := by
    rw [length_take, hss]
    exact Nat.min_eq_left (countP_clear_last_le htop)
  have hsplit : st.s = st.s.take ss ++ [] ++ st.s.drop ss := by simp
  obtain ⟨st', z, b, h, hem, hs, hl, hk⟩ := rearrange_loop_right (clear_last top last) hsplit (hlen.trans hss)
    (clear_last_pairwise top last) fun p hp => by
      rw [take_append_drop]
      exact htop _ (fst_mem_of_clear_last hp)
  rw [hlen, take_append_drop] at *
  refine ⟨st', (labels b).reverse, ?_, ?_, fun v hv hnm => mem_reverse.2 (hk v hv hnm), hem.moves⟩
  · rw [rearrange_top, ← hss]
    exact h
  · rw [vars, hs, labels_append, hl, map_fst_clear_last]
    simp

end Stack

end Ton.FunC
