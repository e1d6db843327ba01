import Ton.Dict.Combine
/-!
# Dictionaries are canonical

Every operation, those on whole dictionaries included, leaves a cell that stands
for some map (`dict_map_root`, `dict_filter_root`, `dict_combine_with_root`). A
map has one cell, so what a dictionary holds fixes its root, whatever operations
led to it.
-/

namespace Ton.Dict
open BigEndian CellTraits CellBuilder Result BitMap LabelParser List Bool

section Children
variable {K : Kind} {V : Virtual} {n m : Nat} {f g : BitMap CellSlice} {p : CellSlice}

theorem join_children_root (hV : V.Follows K) {bits : List Bool} {c1 c2 c : Option DataCell} (h1 : Root K m f c1)
    (h2 : Root K m g c2) (hn : n = bits.length + (m + 1)) (h : join_children V bits n c1 c2 = .ok c) :
    Root K n (under bits (split f g)) c := by
  have hm : n - bits.length = m + 1 := by omega
  unfold join_children at h
  simp only [hm] at h
  cases c1 with
  | none =>
    obtain rfl : f = empty := h1
    cases c2 with
    | none =>
      obtain rfl : g = empty := h2
      cases h
      rw [split_empty, under_empty]
      rfl
    | some c2 =>
      obtain ⟨lp, hlp, h⟩ := bind_ok.1 h
      obtain ⟨c, hc, rfl⟩ := map_ok h
      rw [split_empty_left]
      exact merge_root h2 hn hlp (by simp) hc
  | some c1 =>
    cases c2 with
    | none =>
      obtain rfl : g = empty := h2
      obtain ⟨lp, hlp, h⟩ := bind_ok.1 h
      obtain ⟨c, hc, rfl⟩ := map_ok h
      rw [split_empty_right]
      exact merge_root h1 hn hlp (by simp) hc
    | some c2 =>
      obtain ⟨cb, hcb, h⟩ := bind_ok.1 h
      obtain ⟨c, hc, rfl⟩ := map_ok h
      exact hV.fork_root hcb hn h1 h2 hc

theorem Payload.children (hK : K.Fixed) (hp : Payload K m g p) (hm : 0 < m) :
    ∃ f₀ f₁ c1 c2, p.prefetch_ref 0 = some c1 ∧ p.prefetch_ref 1 = some c2 ∧ Root K (m - 1) f₀ (some c1) ∧
      Root K (m - 1) f₁ (some c2) := by
  cases hp with
  | leaf hv => exact absurd (hK.leaf hv) (by omega)
  | fork h1 h2 hp =>
    obtain ⟨rest, hrefs⟩ := hK.fork hp
    refine ⟨_, _, _, _, ?_, ?_, h1, h2⟩ <;> rw [CellSlice.prefetch_ref, hrefs] <;> rfl

end Children

/-! ## map -/

/-- The callback stores something after the label. -/
def MapFunc.Appends (map_func : MapFunc) : Prop :=
  ∀ cb v key cb', map_func cb v key = some cb' → ∃ w : CellSlice, cb' = ⟨cb.bits ++ w.bits, cb.refs ++ w.refs⟩

theorem Virtual.map_follows : Virtual.map.Follows .plain where
  fork {cb c1 c2 m c} h := by
    obtain ⟨cb₁, h₁, h⟩ := bind_ok.1 h
    obtain ⟨cb₂, h₂, h⟩ := bind_ok.1 h
    rw [store_ref_ok h₂, store_ref_ok h₁] at h
    exact ⟨_, rfl, by simpa using h⟩

variable {pre : List Bool}

theorem dict_map_root {map_func : MapFunc} (hmap : map_func.Appends) (n : Nat) {f : BitMap CellSlice}
    {dict c : Option DataCell} (hd : Root .plain n f dict) (h : dict_map map_func dict pre n = .ok c) :
    ∃ g, Root .plain n g c := by
  induction n using Nat.strong_induction_on generalizing f dict c pre with
  | _ n ih =>
  rw [dict_map.eq_def] at h
  cases dict with
  | none =>
    cases h
    exact ⟨empty, rfl⟩
  | some cell =>
    obtain ⟨label, m, g, p, hn, rfl, hp, hnode⟩ := hd.exists_node
    obtain ⟨lp, hlp, h⟩ := bind_ok.1 h
    have hr := hnode.parse hlp
    simp only [hr.extract_label, hr.extract_l_bits] at h
    split at h
    · obtain ⟨cb, hcb, h⟩ := bind_ok.1 h
      split at h
      · cases h
        exact ⟨empty, rfl⟩
      · next cb' hcb' =>
        obtain ⟨w, rfl⟩ := hmap _ _ _ _ hcb'
        obtain ⟨c, hc, rfl⟩ := map_ok h
        exact ⟨_, .mk (.leaf ⟨rfl, rfl⟩) (by omega) (.of_label hcb hc)⟩
    · split at h
      · cases h
      · next hlt =>
        obtain ⟨f₀, f₁, c1, c2, e1, e2, h1, h2⟩ := hp.children Kind.plain_fixed (by omega)
        obtain ⟨c1', hc1, h⟩ := bind_ok.1 h
        obtain ⟨c2', hc2, h⟩ := bind_ok.1 h
        rw [e1] at hc1
        rw [e2] at hc2
        have hm : n - label.length - 1 = m - 1 := by omega
        rw [hm] at hc1 hc2
        obtain ⟨g1, hg1⟩ := ih (m - 1) (by omega) h1 hc1
        obtain ⟨g2, hg2⟩ := ih (m - 1) (by omega) h2 hc2
        exact ⟨_, join_children_root Virtual.map_follows hg1 hg2 (by omega) h⟩

/-! ## filter -/

theorem dict_filter_root {K : Kind} {V : Virtual} {check_leaf : FilterFunc} (hV : V.Follows K) (hK : K.Fixed) (n : Nat)
    {f : BitMap CellSlice} {dict : Option DataCell} {skip_rest : Int} {res : Filtered}
    (hd : Root K n f dict) (h : dict_filter V check_leaf dict pre n skip_rest = .ok res) (hch : res.changes > 0) :
    ∃ g, Root K n g res.cell := by
  induction n using Nat.strong_induction_on generalizing f dict pre skip_rest res with
  | _ n ih =>
  rw [dict_filter.eq_def] at h
  cases dict with
  | none =>
    cases h
    exact ⟨empty, rfl⟩
  | some cell =>
    dsimp only at h
    split at h
    · cases h
      exact ⟨empty, rfl⟩
    · obtain ⟨label, m, g, p, hn, rfl, hp, hnode⟩ := hd.exists_node
      obtain ⟨lp, hlp, h⟩ := bind_ok.1 h
      have hr := hnode.parse hlp
      simp only [hr.extract_label, hr.extract_l_bits] at h
      split at h
      · cases h
      · split at h
        · cases h
          exact ⟨empty, rfl⟩
        · obtain ⟨f₀, f₁, c1, c2, e1, e2, h1, h2⟩ := hp.children hK (by omega)
          have hm : n - label.length - 1 = m - 1 := by omega
          rw [e1, e2, hm] at h
          obtain ⟨left, hleft, h⟩ := bind_ok.1 h
          split at h
          · cases h
            omega
          · obtain ⟨right, hright, h⟩ := bind_ok.1 h
            split at h
            · cases h
              omega
            · obtain ⟨c, hc, h⟩ := bind_ok.1 h
              cases h
              -- an unchanged child is the old one
              have side : ∀ {fi : BitMap CellSlice} {ci : DataCell} {r : Filtered} {pre : List Bool} {skip : Int},
                  Root K (m - 1) fi (some ci) → dict_filter V check_leaf (some ci) pre (m - 1) skip = .ok r →
                  ¬r.changes < 0 → ∃ g, Root K (m - 1) g (if r.changes ≠ 0 then r.cell else some ci) := by
                intro fi ci r pre skip hi hr hnn
                split
                · exact ih (m - 1) (by omega) hi hr (by omega)
                · exact ⟨fi, hi⟩
              obtain ⟨g1, hg1⟩ := side h1 hleft (by omega)
              obtain ⟨g2, hg2⟩ := side h2 hright (by omega)
              exact ⟨_, join_children_root hV hg1 hg2 (by omega) hc⟩

/-! ## combine_with -/

/-- The callback stores the payload of a value after the label. -/
def CombineFunc.Appends (K : Kind) (combine_func : CombineFunc) : Prop :=
  ∀ cb v1 v2 key cb', combine_func cb v1 v2 key = .ok (some cb') →
    ∃ w p, K.Leaf 0 w p ∧ cb' = ⟨cb.bits ++ p.bits, cb.refs ++ p.refs⟩

theorem dict_combine_with_root {K : Kind} {V : Virtual} {combine_func : CombineFunc} (hV : V.Follows K) (hK : K.Fixed)
    (hcomb : combine_func.Appends K) (n : Nat) {f1 f2 : BitMap CellSlice} {dict1 dict2 c : Option DataCell} {mode skip1 skip2 : Nat}
        (hd1 : Root K (n + skip1) f1 dict1) (hd2 : Root K (n + skip2) f2 dict2)
    (h : dict_combine_with V combine_func dict1 dict2 pre n mode skip1 skip2 = .ok c) : ∃ g, Root K n g c := by
  induction n using Nat.strong_induction_on generalizing f1 f2 dict1 dict2 c pre mode skip1 skip2 with
  | _ n ih =>
  rw [dict_combine_with.eq_def] at h
  match dict1, dict2 with
  | none, dict2 =>
    dsimp only at h
    split at h
    · cases h
    · next hs =>
      split at h
      · cases h
      · cases h
        obtain rfl : skip2 = 0 := not_not.1 hs
        exact ⟨f2, hd2⟩
  | some dict1, none =>
    dsimp only at h
    split at h
    · cases h
    · next hs =>
      split at h
      · cases h
      · cases h
        obtain rfl : skip1 = 0 := not_not.1 hs
        exact ⟨f1, hd1⟩
  | some dict1, some dict2 =>
    obtain ⟨label1, m1, g1, p1, hn1, rfl, hp1, hnode1⟩ := hd1.exists_node
    obtain ⟨label2, m2, g2, p2, hn2, rfl, hp2, hnode2⟩ := hd2.exists_node
    replace h := bind_ok.1 h
    obtain ⟨lp1, hlp1, h⟩ := h
    replace h := bind_ok.1 h
    obtain ⟨lp2, hlp2, h⟩ := h
    have hr1 := hnode1.parse hlp1
    have hr2 := hnode2.parse hlp2
    obtain ⟨hbits1, hrem1⟩ := hr1.extract_label
    obtain ⟨hbits2, hrem2⟩ := hr2.extract_label
    rw [hr1.l_bits, hr2.l_bits, hbits1, hbits2, hrem1, hrem2] at h
    -- the tests are decided one by one: `split` would look at the whole body
    by_cases hskip : ¬(skip1 ≤ label1.length ∧ skip2 ≤ label2.length)
    · rw [if_pos hskip] at h
      cases h
    · rw [if_neg hskip] at h
      by_cases hpfx : ¬(lp1.common_prefix_len (before pre skip1) = skip1 ∧ lp2.common_prefix_len (before pre skip2) = skip2)
      · rw [if_pos hpfx] at h
        cases h
      · rw [if_neg hpfx] at h
        extract_lets l1 l2 bits1 rem1 bits2 rem2 k sw2 sw1 at h
        have hl1 : bits1.length = l1 := length_drop
        have hl2 : bits2.length = l2 := length_drop
        have hp1 : Payload K m1 g1 rem1 := hp1
        have hp2 : Payload K m2 g2 rem2 := hp2
        clear_value sw1 sw2 bits1 rem1 bits2 rem2 k
        split at h
        · cases h
        · next hc =>
          split at h
          · -- the labels part: both edges are cut, under a new fork
            split at h
            · cases h
            · replace h := bind_ok.1 h
              obtain ⟨d1, hd1', h⟩ := h
              replace h := bind_ok.1 h
              obtain ⟨d2, hd2', h⟩ := h
              replace h := bind_ok.1 h
              obtain ⟨cb, hcb, h⟩ := h
              have h1 : Root K (n - k - 1) _ (some d1) :=
                .mk hp1 (by rw [length_drop]; omega) (relabel_edge_node hd1')
              have h2 : Root K (n - k - 1) _ (some d2) :=
                .mk hp2 (by rw [length_drop]; omega) (relabel_edge_node hd2')
              have hn : n = (bits1.take k).length + (n - k - 1 + 1) := by rw [length_take]; omega
              rw [show n - k = n - k - 1 + 1 by omega] at h
              split at h
              · obtain ⟨c, hc, rfl⟩ := map_ok h
                exact ⟨_, hV.fork_root hcb hn h1 h2 hc⟩
              · obtain ⟨c, hc, rfl⟩ := map_ok h
                exact ⟨_, hV.fork_root hcb hn h2 h1 hc⟩
          · split at h
            · next hk =>
              split at h
              · -- two leaves
                replace h := bind_ok.1 h
                obtain ⟨cb, hcb, h⟩ := h
                replace h := bind_ok.1 h
                obtain ⟨o, ho, h⟩ := h
                cases o with
                | none =>
                  cases h
                  exact ⟨empty, rfl⟩
                | some cb' =>
                  obtain ⟨w, p, hw, rfl⟩ := hcomb _ _ _ _ _ ho
                  obtain ⟨c, hc, rfl⟩ := map_ok h
                  exact ⟨_, .mk (.leaf hw) (by omega) (.of_label hcb hc)⟩
              · split at h
                · cases h
                · -- two forks
                  obtain ⟨_, _, a1, a2, e1, e2, ha1, ha2⟩ := hp1.children hK (by omega)
                  obtain ⟨_, _, b1, b2, e1', e2', hb1, hb2⟩ := hp2.children hK (by omega)
                  rw [show m1 - 1 = n - k - 1 by omega] at ha1 ha2
                  rw [show m2 - 1 = n - k - 1 by omega] at hb1 hb2
                  rw [e1, e2, e1', e2'] at h
                  replace h := bind_ok.1 h
                  obtain ⟨c1, hc1, h⟩ := h
                  replace h := bind_ok.1 h
                  obtain ⟨c2, hc2, h⟩ := h
                  obtain ⟨_, hg1⟩ := ih (n - k - 1) (by omega) ha1 hb1 hc1
                  obtain ⟨_, hg2⟩ := ih (n - k - 1) (by omega) ha2 hb2 hc2
                  exact ⟨_, join_children_root hV hg1 hg2 (by omega) h⟩
            · split at h
              · cases h
              · next hkn =>
                split at h
                · next hk1 =>
                  split at h
                  · cases h
                  · -- the second dictionary goes under a child of the first
                    obtain ⟨_, _, a1, a2, e1, e2, ha1, ha2⟩ := hp1.children hK (by omega)
                    rw [show m1 - 1 = n - k - 1 by omega] at ha1 ha2
                    rw [show n + skip2 = n - k - 1 + (skip2 + k + 1) by omega] at hd2
                    replace h := bind_ok.1 h
                    obtain ⟨child, hchild, h⟩ := h
                    cases sw2 with
                    | false =>
                      rw [toNat_false, e1] at hchild
                      obtain ⟨_, hg⟩ := ih (n - k - 1) (by omega) ha1 hd2 hchild
                      simp only [Bool.not_false, toNat_true, e2, false_eq_true, if_false] at h
                      exact ⟨_, join_children_root hV hg ha2 (by omega) h⟩
                    | true =>
                      rw [toNat_true, e2] at hchild
                      obtain ⟨_, hg⟩ := ih (n - k - 1) (by omega) ha2 hd2 hchild
                      simp only [Bool.not_true, toNat_false, e1, if_true] at h
                      exact ⟨_, join_children_root hV ha1 hg (by omega) h⟩
                · next hk1 =>
                  split at h
                  · cases h
                  · -- the first dictionary goes under a child of the second
                    obtain ⟨_, _, b1, b2, e1, e2, hb1, hb2⟩ := hp2.children hK (by omega)
                    rw [show m2 - 1 = n - k - 1 by omega] at hb1 hb2
                    rw [show n + skip1 = n - k - 1 + (skip1 + k + 1) by omega] at hd1
                    replace h := bind_ok.1 h
                    obtain ⟨child, hchild, h⟩ := h
                    cases sw1 with
                    | false =>
                      rw [toNat_false, e1] at hchild
                      obtain ⟨_, hg⟩ := ih (n - k - 1) (by omega) hd1 hb1 hchild
                      simp only [Bool.not_false, toNat_true, e2, false_eq_true, if_false] at h
                      exact ⟨_, join_children_root hV hg hb2 (by omega) h⟩
                    | true =>
                      rw [toNat_true, e2] at hchild
                      obtain ⟨_, hg⟩ := ih (n - k - 1) (by omega) hd1 hb2 hchild
                      simp only [Bool.not_true, toNat_false, e1, if_true] at h
                      exact ⟨_, join_children_root hV hb1 hg (by omega) h⟩

/-! ## Dictionaries -/

theorem exec_other_key {d d' : Dictionary} {op : Op} {r : Ret} (hv : d.force_validate = .ok ())
    (hk : op.key.length ≠ d.key_bits) (h : op.exec d = .ok (d', r)) : d' = d := by
  cases op <;>
  · simp only [Op.key] at hk
    simp only [Op.exec, Dictionary.set, Dictionary.set_ref, Dictionary.set_builder, Dictionary.lookup_set,
      Dictionary.set_gen, Dictionary.lookup_set_gen, Dictionary.lookup_delete, hv, ok_bind, if_pos hk] at h
    obtain ⟨a, ha, e⟩ := map_ok h
    cases ha
    cases e
    rfl

section Holds
variable {d d₂ d' : Dictionary} {f f₂ : BitMap CellSlice}

theorem Dictionary.Holds.exec {op : Op} {r : Ret} (hd : d.Holds f) (h : op.exec d = .ok (d', r)) :
    d'.key_bits = d.key_bits ∧ ∃ g, d'.Holds g := by
  by_cases hk : op.key.length = d.key_bits
  · obtain ⟨h1, -, h3⟩ := exec_holds hd hk h
    exact ⟨h3, _, h1⟩
  · obtain rfl := exec_other_key hd.force_validate hk h
    exact ⟨rfl, f, hd⟩

theorem Dictionary.Holds.map {map_func : MapFunc} (hmap : map_func.Appends) (hd : d.Holds f)
    (h : d.map map_func = .ok d') : d'.key_bits = d.key_bits ∧ ∃ g, d'.Holds g := by
  unfold Dictionary.map at h
  rw [hd.force_validate, ok_bind] at h
  obtain ⟨c, hc, h⟩ := bind_ok.1 h
  cases h
  obtain ⟨g, hg⟩ := dict_map_root hmap _ hd.root hc
  exact ⟨rfl, g, hg, hd.bits⟩

theorem Dictionary.Holds.filter {check_leaf : FilterFunc} {r : Int} (hd : d.Holds f)
    (h : d.filter check_leaf = .ok (d', r)) : d'.key_bits = d.key_bits ∧ ∃ g, d'.Holds g := by
  unfold Dictionary.filter at h
  rw [hd.force_validate, ok_bind] at h
  obtain ⟨res, hres, h⟩ := bind_ok.1 h
  cases h
  split
  · next hch =>
    obtain ⟨g, hg⟩ := dict_filter_root Virtual.fixed_follows Kind.plain_fixed _ hd.root hres hch
    exact ⟨rfl, g, hg, hd.bits⟩
  · exact ⟨rfl, f, hd⟩

theorem Dictionary.Holds.combine_with {combine_func : CombineFunc} {mode : Nat} {b : Bool}
    (hcomb : combine_func.Appends .plain) (hd : d.Holds f) (hd₂ : d₂.Holds f₂)
    (h : d.combine_with d₂ combine_func mode = .ok (d', b)) : d'.key_bits = d.key_bits ∧ ∃ g, d'.Holds g := by
  unfold Dictionary.combine_with at h
  rw [hd.force_validate, ok_bind, hd₂.force_validate, ok_bind] at h
  split at h
  · cases h
  · next hbits =>
    split at h
    · next c hc =>
      cases h
      have h1 : Root .plain (d.key_bits + 0) f d.root_cell := hd.root
      have h2 : Root .plain (d.key_bits + 0) f₂ d₂.root_cell := not_not.1 hbits ▸ hd₂.root
      obtain ⟨g, hg⟩ := dict_combine_with_root Virtual.fixed_follows Kind.plain_fixed hcomb _ h1 h2 hc
      exact ⟨rfl, g, hg, hd.bits⟩
    · cases h
      exact ⟨rfl, f, hd⟩
    · cases h

end Holds

/-- The dictionaries reached from the empty one by operations that do not throw.
Callbacks store values after what they are given. -/
inductive Reached (n : Nat) : Dictionary → Prop
  | empty : n ≤ max_key_bits → Reached n ⟨none, n⟩
  | exec {d d' : Dictionary} {r : Ret} (op : Op) : Reached n d → op.exec d = .ok (d', r) → Reached n d'
  | map {d d' : Dictionary} {map_func : MapFunc} :
      map_func.Appends → Reached n d → d.map map_func = .ok d' → Reached n d'
  | filter {d d' : Dictionary} {check_leaf : FilterFunc} {r : Int} :
      Reached n d → d.filter check_leaf = .ok (d', r) → Reached n d'
  | combine_with {d d₂ d' : Dictionary} {combine_func : CombineFunc} {mode : Nat} {b : Bool} :
      combine_func.Appends .plain → Reached n d → Reached n d₂ → d.combine_with d₂ combine_func mode = .ok (d', b) →
        Reached n d'

theorem Reached.execAll {n : Nat} {d d' : Dictionary} {ops : List Op} {rs : List Ret} (hd : Reached n d)
    (h : Op.execAll d ops = .ok (d', rs)) : Reached n d' := by
  induction ops generalizing d rs with
  | nil =>
    cases h
    exact hd
  | cons op ops ih =>
    obtain ⟨⟨d₁, r⟩, h₁, h⟩ := bind_ok.1 h
    obtain ⟨⟨d₂, rs⟩, h₂, h⟩ := bind_ok.1 h
    cases h
    exact ih (.exec op hd h₁) h₂

theorem Reached.holds {n : Nat} {d : Dictionary} (h : Reached n d) : d.key_bits = n ∧ ∃ f, d.Holds f := by
  induction h with
  | empty hn => exact ⟨rfl, BitMap.empty, rfl, hn⟩
  | exec op _ h ih =>
    obtain ⟨hb, f, hf⟩ := ih
    obtain ⟨hb', hg⟩ := hf.exec h
    exact ⟨hb'.trans hb, hg⟩
  | map hm _ h ih =>
    obtain ⟨hb, f, hf⟩ := ih
    obtain ⟨hb', hg⟩ := hf.map hm h
    exact ⟨hb'.trans hb, hg⟩
  | filter _ h ih =>
    obtain ⟨hb, f, hf⟩ := ih
    obtain ⟨hb', hg⟩ := hf.filter h
    exact ⟨hb'.trans hb, hg⟩
  | combine_with hc _ _ h ih ih₂ =>
    obtain ⟨hb, f, hf⟩ := ih
    obtain ⟨-, f₂, hf₂⟩ := ih₂
    obtain ⟨hb', hg⟩ := hf.combine_with hc hf₂ h
    exact ⟨hb'.trans hb, hg⟩

theorem Rep.lookup_length {n : Nat} {t : Trie CellSlice} {c : DataCell} (h : Rep .plain n t c) {k : List Bool}
    {v : CellSlice} (hk : t.lookup k = some v) : k.length = n := by
  induction h generalizing k v with
  | @leaf label m w p c hv hn =>
    rw [Trie.lookup] at hk
    by_cases e : k = label
    · rw [e, hv.1, Nat.add_zero]
    · rw [Function.update_of_ne e] at hk
      cases hk
  | @fork label m _ _ _ _ _ _ _ _ _ _ ihl ihr =>
    obtain ⟨j, rfl, hj⟩ := under_some hk
    obtain ⟨b, i, rfl, hi⟩ := split_some hj
    have hlen : i.length = m := by
      cases b with
      | false => exact ihl hi
      | true => exact ihr hi
    rw [length_append, length_cons, hlen]

theorem Dictionary.Holds.map_length {d : Dictionary} {f : BitMap CellSlice} (h : d.Holds f) {k : List Bool}
    (hk : k.length ≠ d.key_bits) : f k = none := by
  have hroot := h.root
  cases hc : d.root_cell with
  | none =>
    rw [hc] at hroot
    rw [show f = BitMap.empty from hroot]
    rfl
  | some c =>
    rw [hc] at hroot
    obtain ⟨t, ht, rfl⟩ := hroot
    cases hl : t.lookup k with
    | none => rfl
    | some v => exact absurd (ht.lookup_length hl) hk

/-- Two dictionaries with the same keys and values have the same root cell, however
they were reached; one without keys has none. -/
theorem reached_canonical (n : Nat) (d d' : Dictionary) (h : Reached n d) (h' : Reached n d') :
    ((∀ k, k.length = n → d.lookup k = d'.lookup k) → d.root_cell = d'.root_cell) ∧
      ((∀ k, k.length = n → d.lookup k = .ok none) → d.root_cell = none) := by
  obtain ⟨rfl, f, hf⟩ := h.holds
  obtain ⟨hb, f', hf'⟩ := h'.holds
  refine ⟨fun heq => ?_, fun hnone => ?_⟩
  · have hff : f = f' := by
      funext k
      by_cases hk : k.length = d.key_bits
      · have e := heq k hk
        rw [hf.lookup hk, hf'.lookup (hk.trans hb.symm)] at e
        exact Except.ok.inj e
      · rw [hf.map_length hk, hf'.map_length (hb ▸ hk)]
    have hroot := hf'.root
    rw [← hff, hb] at hroot
    exact hf.root.unique Kind.plain_canonical hroot
  · have hfe : f = BitMap.empty := by
      funext k
      by_cases hk : k.length = d.key_bits
      · have e := hnone k hk
        rw [hf.lookup hk] at e
        exact Except.ok.inj e
      · exact hf.map_length hk
    exact (hfe ▸ hf.root).eq_none_of_empty Kind.plain_canonical

/-- The same two keys set in either order, one of them after a detour. -/
theorem reached_canonical_two_orders :
    let a : List Op := [.set [false, true] ⟨[true], []⟩ .Set, .set [true, true] ⟨[], []⟩ .Set]
    let b : List Op := [.set [true, true] ⟨[], []⟩ .Set, .set [false, false] ⟨[], []⟩ .Set,
      .set [false, true] ⟨[true], []⟩ .Set, .lookup_delete [false, false]]
    ∃ d d' r r', Op.execAll ⟨none, 2⟩ a = .ok (d, r) ∧ Op.execAll ⟨none, 2⟩ b = .ok (d', r') ∧
      d.root_cell = d'.root_cell := by
  intro a b
  obtain ⟨⟨d, r⟩, h⟩ := exists_ok_of_isSome (x := Op.execAll ⟨none, 2⟩ a) (by decide +kernel)
  obtain ⟨⟨d', r'⟩, h'⟩ := exists_ok_of_isSome (x := Op.execAll ⟨none, 2⟩ b) (by decide +kernel)
  refine ⟨d, d', r, r', h, h', ?_⟩
  have hd := execAll_holds (d := ⟨none, 2⟩) (f := BitMap.empty) ⟨rfl, by decide⟩ (by decide) h
  have hd' := execAll_holds (d := ⟨none, 2⟩) (f := BitMap.empty) ⟨rfl, by decide⟩ (by decide) h'
  refine (reached_canonical 2 d d' (.execAll (.empty (by decide)) h) (.execAll (.empty (by decide)) h')).1 fun k hk => ?_
  rw [hd.1.lookup (hk.trans hd.2.2.symm), hd'.1.lookup (hk.trans hd'.2.2.symm)]
  match k, hk with
  | [x, y], _ => cases x <;> cases y <;> rfl

end Ton.Dict
