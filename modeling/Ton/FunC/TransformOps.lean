import Ton.FunC.StackMaps
/-!
# The operations on stack transforms

All of them keep a transform well formed, or fail. Those named after a stack operation do what the
composition with it does.
-/

namespace Ton.FunC

open StackTransform

/-- What changes a transform, with the arguments. -/
inductive TransformOp
  | set (x y : Int) (relaxed : Bool)
  | shift (offs : Int)
  | apply (other : StackTransform) (rest : List (Int × Int))
  | preapply (other : StackTransform) (rest : List (Int × Int))
  | apply_xchg (i j : Int) (relaxed : Bool)
  | apply_push (i : Int)
  | apply_push_newconst
  | apply_pop (i : Int)
  | apply_blkpop (k : Int)
  | assign_list (list : List Int)

namespace TransformOp

def run (t : StackTransform) : TransformOp → Option StackTransform
  | set x y relaxed => t.set x y relaxed
  | shift offs => some (t.shift offs)
  | apply other rest => t.apply other rest
  | preapply other rest => t.preapply other rest
  | apply_xchg i j relaxed => t.apply_xchg i j relaxed
  | apply_push i => t.apply_push i
  | apply_push_newconst => t.apply_push_newconst
  | apply_pop i => t.apply_pop i
  | apply_blkpop k => t.apply_blkpop k
  | assign_list list => t.assign_list list

/-- The other transform is well formed. -/
def Fed : TransformOp → Prop
  | apply other _ => other.WellFormed
  | preapply other _ => other.WellFormed
  | _ => True

end TransformOp

namespace StackTransform

variable {t u r r' X : StackTransform}

theorem set_wellFormed (h : t.WellFormed) {x y : Int} {relaxed : Bool} (hr : t.set x y relaxed = some r) : r.WellFormed := by
  by_cases hx : 0 ≤ x
  · exact (set_right h hx hr).1
  · unfold set at hr
    rw [if_pos (not_le.1 hx)] at hr
    split at hr
    · cases hr; exact h
    · cases hr

theorem assign_wellFormed (h : u.WellFormed) (hr : t.assign u = some r) : r.WellFormed := by
  unfold assign at hr
  split at hr
  · cases hr
  · cases hr; exact h

theorem assign_loop_wellFormed (list : List Int) {x : Int} (h : t.WellFormed) (hlt : ∀ p ∈ t.A, p.1 < x) (hd : t.d ≤ x)
    (hr : assign_loop list x t = some r) : r.WellFormed := by
  induction list generalizing x t with
  | nil => cases hr; exact h
  | cons y list ih =>
    unfold assign_loop at hr
    split at hr
    · next hne =>
      split at hr
      · cases hr
      · next hok =>
        simp only [Bool.or_eq_true, Bool.not_eq_true', decide_eq_true_eq, not_or, Bool.not_eq_false] at hok
        have hnext : WellFormed { t with dp := max t.dp (max x y + 1), A := t.A ++ [(x, y)], rest := t.rest.tail } :=
          Pairs.snoc h hok.2 hlt hd (Ne.symm hne) hok.1.1 hok.1.2
        refine ih hnext (fun p hp => ?_) (by simp only; omega) hr
        rcases List.mem_append.1 hp with hp | hp
        · have := hlt p hp
          omega
        · rw [List.mem_singleton.1 hp]
          simp only
          omega
    · exact ih h (fun p hp => by have := hlt p hp; omega) (by omega) hr

theorem assign_list_wellFormed {list : List Int} (hr : t.assign_list list = some r) : r.WellFormed := by
  unfold assign_list at hr
  split at hr
  · cases hr
  dsimp only at hr
  split at hr
  · cases hr; exact wellFormed_id _
  · split at hr
    · cases hr
    · refine assign_loop_wellFormed _ ?_ ?_ ?_ hr
      · exact Pairs.nil _
      · exact fun _ hp => nomatch hp
      · exact le_rfl

theorem run_wellFormed (op : TransformOp) (hf : op.Fed) (h : t.WellFormed) (hr : op.run t = some r) : r.WellFormed := by
  cases op with
  | set x y relaxed => exact set_wellFormed h hr
  | shift offs => cases hr; exact (shift_right h offs).1
  | apply other rest =>
    obtain ⟨res, hres, hr⟩ := Option.bind_eq_some_iff.1 hr
    exact assign_wellFormed (compose_right h hf hres).1 hr
  | preapply other rest =>
    obtain ⟨res, hres, hr⟩ := Option.bind_eq_some_iff.1 hr
    exact assign_wellFormed (compose_right hf h hres).1 hr
  | apply_xchg i j relaxed => exact (apply_xchg_right h hr).1
  | apply_push i => exact (apply_push_right h hr).1
  | apply_push_newconst =>
    have hs : WellFormed { t.shift (-1) with c := t.c + 1 } := (shift_right h (-1)).1
    change t.apply_push_newconst = some r at hr
    unfold apply_push_newconst at hr
    exact set_wellFormed hs hr
  | apply_pop i => exact (apply_pop_right h hr).1
  | apply_blkpop k =>
    simp only [TransformOp.run, apply_blkpop] at hr
    split at hr
    · cases hr
    split at hr
    · cases hr; exact h
    · cases hr; exact (shift_right (touch_wellFormed h (k - 1)) k).1
  | assign_list list => exact assign_list_wellFormed hr

/-! ## The same by composition -/

variable {c : StackTransform} {rest : List (Int × Int)}

theorem eq_compose {index : Int → Int} (ht : t.WellFormed) (hr : r.WellFormed) (hX : X.WellFormed)
    (hget : ∀ k, 0 ≤ k → r.get k = t.get (index k)) (hXget : ∀ k, 0 ≤ k → X.get k = index k) (hd : c_start < X.d)
    (hfits : ∀ q ∈ X.A, q.1 + t.d < inf_x) (hc : compose t X c = some r') : r.almost_equal r' = true := by
  rw [almost_equal_iff hr (compose_right ht hX hc).1]
  intro k hk
  rw [compose_get ht hX hc hd hfits hk, hXget k hk, hget k hk]

theorem xchg_compose {i j : Int} {relaxed : Bool} (ht : t.WellFormed)
    (hr : t.apply_xchg i j relaxed = some r) (hX : Xchg rest i j relaxed = some X) (hc : compose t X c = some r')
    (hi : i + t.d < inf_x) (hj : j + t.d < inf_x) : r.almost_equal r' = true := by
  obtain ⟨hwX, hdX, hmX, hgX⟩ := apply_xchg_right (wellFormed_id rest) hX
  obtain ⟨hwr, -, -, hgr⟩ := apply_xchg_right ht hr
  have hpos : 0 ≤ i ∧ 0 ≤ j := by
    by_contra hneg
    rw [apply_xchg, if_pos (by omega)] at hr
    cases hr
  refine eq_compose ht hwr hwX hgr (fun k hk => ?_) (by rw [hdX]; simp [id, c_start]) (fun q hq => ?_) hc
  · rw [hgX k hk]
    refine get_id rest ?_
    unfold xchg_index
    split
    · exact hpos.2
    · split
      · exact hpos.1
      · exact hk
  · have hid : (id rest).d = 0 := rfl
    rcases hmX q hq with hq | hq | hq
    · cases hq
    · rw [hid] at hq; omega
    · rw [hid] at hq; omega

theorem push_compose {i : Int} (ht : t.WellFormed)
    (hr : t.apply_push i = some r) (hX : Push rest i = some X) (hc : compose t X c = some r') (hd : t.d ≤ inf_x) :
    r.almost_equal r' = true := by
  obtain ⟨hwX, hdX, hmX, hgX⟩ := apply_push_right (wellFormed_id rest) hX
  obtain ⟨hwr, -, -, hgr⟩ := apply_push_right ht hr
  have hpos : 0 ≤ i := by
    by_contra hneg
    rw [apply_push, if_pos (by omega)] at hr
    cases hr
  refine eq_compose ht hwr hwX hgr (fun k hk => ?_) (by rw [hdX]; simp [id, c_start]) (fun q hq => ?_) hc
  · rw [hgX k hk]
    refine get_id rest ?_
    unfold push_index
    split
    · exact hpos
    · omega
  · have hid : (id rest).d = 0 := rfl
    rcases hmX q hq with hq | hq
    · cases hq
    · rw [hid] at hq; omega

theorem pop_compose {i : Int} (ht : t.WellFormed)
    (hr : t.apply_pop i = some r) (hX : Pop rest i = some X) (hc : compose t X c = some r') (hi : i + t.d < inf_x) :
    r.almost_equal r' = true := by
  obtain ⟨hwX, hdX, hmX, hgX⟩ := apply_pop_right (wellFormed_id rest) hX
  obtain ⟨hwr, -, -, hgr⟩ := apply_pop_right ht hr
  refine eq_compose ht hwr hwX hgr (fun k hk => ?_) (by rw [hdX]; simp [id, c_start]) (fun q hq => ?_) hc
  · rw [hgX k hk]
    refine get_id rest ?_
    unfold pop_index
    split
    · exact le_rfl
    · omega
  · have hid : (id rest).d = 0 := rfl
    rcases hmX q hq with hq | hq
    · cases hq
    · rw [hid] at hq; omega

/-- The operations keep transforms well formed. A composition maps as the two after each other, and so do
those with exchanges, pushes and pops, as far as indices are neither taken for constants nor reach the
mark that ends the merge. Equal pairs are equal maps. -/
theorem stack_maps_exact (t u : StackTransform) (ht : t.WellFormed) (hu : u.WellFormed) :
    (∀ (op : TransformOp) r, op.Fed → op.run t = some r → r.WellFormed) ∧
    (∀ c r, compose t u c = some r → r.WellFormed ∧ r.c = t.c + u.c ∧
      (c_start < u.d → (∀ q ∈ u.A, q.1 + t.d < inf_x) → ∀ i, 0 ≤ i → r.get i = t.get (u.get i))) ∧
    (∀ rest i j relaxed X c r r', Xchg rest i j relaxed = some X → t.apply_xchg i j relaxed = some r → compose t X c = some r' →
      i + t.d < inf_x → j + t.d < inf_x → r.almost_equal r' = true) ∧
    (∀ rest i X c r r', Push rest i = some X → t.apply_push i = some r → compose t X c = some r' → t.d ≤ inf_x →
      r.almost_equal r' = true) ∧
    (∀ rest i X c r r', Pop rest i = some X → t.apply_pop i = some r → compose t X c = some r' → i + t.d < inf_x →
      r.almost_equal r' = true) ∧
    (t.almost_equal u = true ↔ ∀ i, 0 ≤ i → t.get i = u.get i) := by
  refine ⟨fun op r hf hr => run_wellFormed op hf ht hr, fun c r hc => ?_, fun rest i j relaxed X c r r' hX hr hc hi hj => ?_,
    fun rest i X c r r' hX hr hc hd => ?_, fun rest i X c r r' hX hr hc hi => ?_, almost_equal_iff ht hu⟩
  · obtain ⟨hw, -, hcc, -⟩ := compose_right ht hu hc
    exact ⟨hw, hcc, fun hd hfits i hi => compose_get ht hu hc hd hfits hi⟩
  · exact xchg_compose ht hr hX hc hi hj
  · exact push_compose ht hr hX hc hd
  · exact pop_compose ht hr hX hc hi

/-- The top is doubled, and an exchange follows. -/
theorem stack_maps_exact_dup : ∃ r, compose ⟨-1, 1, 0, [(-1, 0)], []⟩ ⟨0, 3, 0, [(0, 2), (2, 0)], []⟩ (id []) = some r ∧
    ∀ i, 0 ≤ i → r.get i = StackTransform.get ⟨-1, 1, 0, [(-1, 0)], []⟩ (StackTransform.get ⟨0, 3, 0, [(0, 2), (2, 0)], []⟩ i) :=
  ⟨⟨-1, 2, 0, [(-1, 1), (1, 0)], []⟩, by decide,
    ((stack_maps_exact ⟨-1, 1, 0, [(-1, 0)], []⟩ ⟨0, 3, 0, [(0, 2), (2, 0)], []⟩
      ⟨by decide, by decide, by decide, by decide, by decide⟩ ⟨by decide, by decide, by decide, by decide, by decide⟩).2.1
        (id []) ⟨-1, 2, 0, [(-1, 1), (1, 0)], []⟩ (by decide)).2.2 (by decide) (by decide)⟩

/-- What is mapped below the constants is taken for one, a pair moved to `inf_x` is taken for the end,
and an identity does not find what it maps to 5. -/
theorem maps_not_exact :
    (¬ ∀ a b c r : StackTransform, a.WellFormed → b.WellFormed → compose a b c = some r → ∀ i, 0 ≤ i → r.get i = a.get (b.get i)) ∧
    (¬ ∀ a b c r : StackTransform, a.WellFormed → b.WellFormed → c_start < b.d → compose a b c = some r →
      ∀ i, 0 ≤ i → r.get i = a.get (b.get i)) ∧
    ¬ ∀ t : StackTransform, t.WellFormed → ∀ y i, i ∈ t.preimage y ↔ 0 ≤ i ∧ t.get i = y := by
  refine ⟨?_, ?_, ?_⟩
  · intro h
    have h0 := h ⟨1, 1, 0, [], []⟩ ⟨-1000, 0, 0, [], []⟩ (id []) ⟨-999, 1, 0, [], []⟩ (Pairs.nil _) (Pairs.nil _) (by decide) 0 le_rfl
    exact absurd h0 (by decide)
  · intro h
    have hb : Pairs 0 [(0, 1)] := ⟨by decide, List.pairwise_singleton _ _, by decide, by decide, by decide⟩
    have h0 := h ⟨inf_x, 0, 0, [], []⟩ ⟨0, 2, 0, [(0, 1)], []⟩ (id []) ⟨inf_x, 2 + inf_x, 0, [], []⟩ (Pairs.nil _) hb (by decide) (by decide) 0 le_rfl
    exact absurd h0 (by decide)
  · intro h
    exact absurd ((h (id (List.replicate 16 (0, 0))) (wellFormed_id _) 5 5).2 (by decide)) (by decide)

end StackTransform

end Ton.FunC
