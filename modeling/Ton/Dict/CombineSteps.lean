import Ton.Dict.Combine
/-!
# The steps of combining

What a call of `dict_combine_with` does with two edges, for each way in which their
labels lie to each other (`dict_combine_with_step`). The labels are those left after
the skipped bits.
-/

namespace Ton.Dict
open Result LabelParser List

/-- The tests at the start of a call, on the labels left after the skipped bits. -/
theorem label_tests {s1 s2 label1 label2 pre : List Bool} {lp1 lp2 : LabelParser} {p1 p2 : CellSlice}
    (hr1 : lp1.Reads (s1 ++ label1) p1) (hr2 : lp2.Reads (s2 ++ label2) p2) (hs1 : before pre s1.length = s1)
    (hs2 : before pre s2.length = s2) :
    lp1.common_prefix_len (before pre s1.length) = s1.length ∧ lp2.common_prefix_len (before pre s2.length) = s2.length ∧
      lp2.common_prefix_len (before pre s2.length ++ label1) - s2.length = same_upto label2 label1 := by
  have start : ∀ s label : List Bool, same_upto (s ++ label) s = s.length := fun s label => by
    rw [same_upto_comm, same_upto_eq_length]
    exact prefix_append _ _
  rw [hs1, hs2, hr1.common_prefix_len, hr2.common_prefix_len, hr2.common_prefix_len, same_upto_append]
  exact ⟨start _ _, start _ _, by omega⟩

theorem before_step {pre s l : List Bool} (hs : before pre s.length = s) : before (pre ++ l) (s ++ l).length = s ++ l := by
  have hle : s.length ≤ pre.length := by
    have := congrArg List.length hs
    simp only [before, length_drop] at this
    omega
  unfold before at hs ⊢
  rw [length_append, length_append, show pre.length + l.length - (s.length + l.length) = pre.length - s.length by omega,
    drop_append_of_le_length (by omega), hs]

theorem before_nil (pre : List Bool) : before pre 0 = [] := by
  rw [before, Nat.sub_zero, drop_length]

/-- The edge at the root: its label has the bits `s`, which are skipped, and then `label`. -/
def Edge (mode : Check) (s label : List Bool) (n : Nat) (payload : CellSlice) (c : DataCell) : Prop :=
  ∃ p, LabelParser.parse c (n + s.length) mode = .ok p ∧ p.Reads (s ++ label) payload

section Step
variable (V : Virtual) (combine_func : CombineFunc) (d1 d2 : DataCell) (pre : List Bool) (n mode : Nat) (s1 s2 : List Bool) (p1 p2 : CellSlice)

inductive CombineStep : List Bool → List Bool → Except Exc (Option DataCell) → Prop
  /-- The two dictionaries have disjoint keys. -/
  | parted (p r1 r2 : List Bool) (x : Bool) : CombineStep (p ++ (!x) :: r1) (p ++ x :: r2)
      (if mode % 4 ≠ 0 then .error .combine
       else do
        let d1 ← relabel_edge r1 (n - p.length - 1) p1 "cannot prune label of an old dictionary cell while merging dictionaries"
        let d2 ← relabel_edge r2 (n - p.length - 1) p2 "cannot change label of an old dictionary cell while merging edges"
        let cb ← append_dict_label {} p n
        if x then some <$> V.finish_create_fork cb d1 d2 (n - p.length)
        else some <$> V.finish_create_fork cb d2 d1 (n - p.length))
  /-- Two leaves with one key. -/
  | leaves (label : List Bool) (h : label.length = n) : CombineStep label label
      (do
        let cb ← append_dict_label {} label n
        match ← combine_func cb p1 p2 (pre ++ label) with
        | none => .ok none
        | some cb => some <$> cb.finalize false)
  /-- Two forks under one edge: the mode is not passed on. -/
  | forks (label : List Bool) (h : label.length < n) : CombineStep label label
      (do
        let c1 ← dict_combine_with V combine_func (p1.prefetch_ref 0) (p2.prefetch_ref 0) (pre ++ label ++ [false]) (n - label.length - 1) 0 0 0
        let c2 ← dict_combine_with V combine_func (p1.prefetch_ref 1) (p2.prefetch_ref 1) (pre ++ label ++ [true]) (n - label.length - 1) 0 0 0
        join_children V label n c1 c2)
  /-- The second dictionary goes under a child of the first. -/
  | first (label r : List Bool) (sw : Bool) (h : label.length < n) : CombineStep label (label ++ sw :: r)
      (if mode / 2 % 2 = 1 then .error .combine
       else do
        let child ← dict_combine_with V combine_func (p1.prefetch_ref sw.toNat) (some d2) (pre ++ label ++ [sw]) (n - label.length - 1) mode 0
          (s2 ++ label ++ [sw]).length
        if (p1.prefetch_ref (!sw).toNat).isNone then .error .check
        else if sw then join_children V label n (p1.prefetch_ref 0) child
        else join_children V label n child (p1.prefetch_ref 1))
  /-- The first dictionary goes under a child of the second. -/
  | second (label r : List Bool) (sw : Bool) (h : label.length < n) : CombineStep (label ++ sw :: r) label
      (if mode % 2 = 1 then .error .combine
       else do
        let child ← dict_combine_with V combine_func (some d1) (p2.prefetch_ref sw.toNat) (pre ++ label ++ [sw]) (n - label.length - 1) mode
          (s1 ++ label ++ [sw]).length 0
        if (p2.prefetch_ref (!sw).toNat).isNone then .error .check
        else if sw then join_children V label n (p2.prefetch_ref 0) child
        else join_children V label n child (p2.prefetch_ref 1))

variable {V d1 d2 pre n s1 s2 p1 p2} {label1 label2 : List Bool}

theorem dict_combine_with_step (h1 : Edge V.label_mode s1 label1 n p1 d1) (h2 : Edge V.label_mode s2 label2 n p2 d2)
    (hs1 : before pre s1.length = s1) (hs2 : before pre s2.length = s2) (hn1 : label1.length ≤ n) (hn2 : label2.length ≤ n) :
    ∃ r, dict_combine_with V combine_func (some d1) (some d2) pre n mode s1.length s2.length = r ∧
      CombineStep V combine_func d1 d2 pre n mode s1 s2 p1 p2 label1 label2 r := by
  obtain ⟨lp1, hlp1, hr1⟩ := h1
  obtain ⟨lp2, hlp2, hr2⟩ := h2
  obtain ⟨hbits1, hrem1⟩ := hr1.extract_label
  obtain ⟨hbits2, hrem2⟩ := hr2.extract_label
  obtain ⟨ht1, ht2, hc⟩ := label_tests hr1 hr2 hs1 hs2
  rw [dict_combine_with.eq_def]
  dsimp only
  rw [hlp1, ok_bind, hlp2, ok_bind, hr1.l_bits, hr2.l_bits, hbits1, hbits2, hrem1, hrem2, drop_left, drop_left, ht1, ht2, hc,
    length_append, length_append, Nat.add_sub_cancel_left, Nat.add_sub_cancel_left,
    if_neg (not_not.2 ⟨Nat.le_add_right _ _, Nat.le_add_right _ _⟩), if_neg (not_not.2 ⟨rfl, rfl⟩),
    if_neg (not_not.2 ⟨same_upto_le_right _ _, same_upto_le_left _ _⟩)]
  have hle1 := same_upto_le_right label2 label1
  have hle2 := same_upto_le_left label2 label1
  by_cases hpart : same_upto label2 label1 < label1.length ∧ same_upto label2 label1 < label2.length
  · rw [if_pos hpart]
    obtain ⟨p, x, r2, r1, hp, rfl, rfl⟩ := same_upto_split hpart.2 hpart.1
    have hdrop : ∀ (y : Bool) (r : List Bool), (p ++ y :: r).drop (p.length + 1) = r := by simp [drop_append]
    have hget : (p ++ x :: r2).getD p.length false = x := by simp
    rw [← hp, hdrop, hdrop, hget, take_left]
    exact ⟨_, rfl, .parted p r1 r2 x⟩
  rw [if_neg hpart]
  by_cases hsame : same_upto label2 label1 = label1.length ∧ same_upto label2 label1 = label2.length
  · rw [if_pos hsame]
    obtain rfl : label2 = label1 := (same_upto_eq_length.1 hsame.2).eq_of_length (by omega)
    rw [hsame.1]
    by_cases hleaf : label2.length = n
    · rw [if_pos hleaf]
      exact ⟨_, rfl, .leaves label2 hleaf⟩
    · rw [if_neg hleaf, dif_neg (by omega)]
      exact ⟨_, rfl, .forks label2 (by omega)⟩
  rw [if_neg hsame, dif_neg (by omega)]
  by_cases hfirst : same_upto label2 label1 = label1.length
  · obtain ⟨sw, r, rfl⟩ := same_upto_longer ((same_upto_comm label1 label2).trans hfirst) (by omega)
    rw [if_pos hfirst, hfirst, show (label1 ++ sw :: r).getD label1.length false = sw by simp,
      show s2.length + label1.length + 1 = (s2 ++ label1 ++ [sw]).length by simp; omega]
    refine ⟨_, rfl, .first label1 r sw ?_⟩
    simp only [length_append, length_cons] at hn2
    omega
  · obtain ⟨sw, r, rfl⟩ := same_upto_longer (show same_upto label2 label1 = label2.length by omega) (by omega)
    have hc2 : same_upto label2 (label2 ++ sw :: r) = label2.length := same_upto_eq_length.2 (prefix_append _ _)
    rw [if_neg hfirst, hc2, show (label2 ++ sw :: r).getD label2.length false = sw by simp,
      show s1.length + label2.length + 1 = (s1 ++ label2 ++ [sw]).length by simp; omega]
    refine ⟨_, rfl, .second label2 r sw ?_⟩
    simp only [length_append, length_cons] at hn1
    omega

end Step

end Ton.Dict
