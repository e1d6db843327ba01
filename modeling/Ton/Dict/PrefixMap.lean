import Ton.Dict.Prefix
/-!
# Prefix code dictionaries hold prefix codes

The operations of `PrefixDictionary` over the map a cell stands for. An insertion
is refused exactly when the key would clash with one that is there; `lookup_prefix`
finds the one key that its argument starts with.
-/

namespace Ton.Dict
open BigEndian CellTraits CellBuilder Result BitMap LabelParser List Function

/-- The layout of a `PrefixDictionary`: a zero and the value, or a one and the children. -/
def Kind.pfx : Kind where
  Leaf _ v p := p = ⟨false :: v.bits, v.refs⟩
  Fork _ c1 c2 p := p = ⟨[true], [c1, c2]⟩

section Nodes
variable {n m : Nat} {label : List Bool} {c : DataCell} {v : CellSlice}

theorem pfx_leaf_root {store_val : StoreValue} {error : String} (hs : Stores store_val v)
    (h : pfx_leaf label n store_val error = .ok c) : Root .pfx n (update empty label (some v)) (some c) := by
  obtain ⟨cb, hcb, h⟩ := bind_ok.1 h
  obtain ⟨cb₁, h₁, h⟩ := bind_ok.1 h
  split at h
  · cases h
  · next hcb' =>
    rw [hs _ _ hcb', store_long_ok h₁] at h
    have hnode : Node label n ⟨false :: v.bits, v.refs⟩ c := .of_label hcb (by simpa [toBits] using h)
    rw [← under_single]
    exact .mk (.leaf rfl) (Nat.add_sub_cancel' hnode.length_le).symm hnode

theorem pfx_fork_root {c1 c2 : Option DataCell} {f g : BitMap CellSlice} (h1 : Root .pfx m f c1) (h2 : Root .pfx m g c2)
    (hn : n = label.length + (m + 1)) (h : pfx_fork label n c1 c2 = .ok c) :
    Root .pfx n (under label (split f g)) (some c) := by
  obtain ⟨cb, hcb, h⟩ := bind_ok.1 h
  obtain ⟨cb₁, h₁, h⟩ := bind_ok.1 h
  obtain ⟨cb₂, h₂, h⟩ := bind_ok.1 h
  obtain ⟨cb₃, h₃, h⟩ := bind_ok.1 h
  obtain ⟨c1, rfl, rfl⟩ := store_ref_null_ok h₂
  obtain ⟨c2, rfl, rfl⟩ := store_ref_null_ok h₃
  rw [store_long_ok h₁] at h
  exact .mk (.fork h1 h2 rfl) hn (.of_label hcb (by simpa [toBits] using h))

theorem fetch_leaf (v : CellSlice) : CellSlice.have_bits ⟨false :: v.bits, v.refs⟩ 1 = true ∧
    CellSlice.fetch_ulong ⟨false :: v.bits, v.refs⟩ 1 = (some 0, v) :=
  ⟨have_bits_append [false] v.bits v.refs 1 rfl, fetch_ulong_append [false] v.bits v.refs 1 rfl (by decide)⟩

theorem fetch_fork (c1 c2 : DataCell) : CellSlice.have_bits ⟨[true], [c1, c2]⟩ 1 = true ∧
    CellSlice.fetch_ulong ⟨[true], [c1, c2]⟩ 1 = (some 1, ⟨[], [c1, c2]⟩) :=
  ⟨have_bits_append [true] [] [c1, c2] 1 rfl, fetch_ulong_append [true] [] [c1, c2] 1 rfl (by decide)⟩

theorem Root.exists_key {K : Kind} {f : BitMap CellSlice} (h : Root K n f (some c)) : ∃ k w, f k = some w := by
  obtain ⟨t, -, rfl⟩ := h
  exact t.exists_key

theorem Payload.exists_key {K : Kind} {g : BitMap CellSlice} {p : CellSlice} (h : Payload K m g p) :
    ∃ k w, g k = some w := by
  cases h with
  | @leaf _ v _ _ => exact ⟨[], v, update_self _ _ _⟩
  | fork h1 _ _ =>
    obtain ⟨k, w, hk⟩ := h1.exists_key
    exact ⟨false :: k, w, hk⟩

end Nodes

/-! ## Insertion -/

theorem single_cons (v : CellSlice) (b : Bool) (k : List Bool) : single v (b :: k) = none := by
  simp [single, update, empty]

theorem not_clash_single (v : CellSlice) : ¬Clash (single v) [] := by
  rintro ⟨k, w, hk, hne, -⟩
  cases k with
  | nil => exact hne rfl
  | cons b k => rw [single_cons] at hk; cases hk

theorem clash_single_cons (v : CellSlice) (b : Bool) (k : List Bool) : Clash (single v) (b :: k) :=
  ⟨[], v, update_self _ _ _, by simp, .inl nil_prefix⟩

/-- What an insertion returns, for the map and the new value. -/
structure PfxSetResult (n : Nat) (f : BitMap CellSlice) (key : List Bool) (v : CellSlice) (mode : SetMode)
    (r : Option DataCell × Bool) : Prop where
  written : r.2 = true ↔ mode.writes (f key) = true ∧ ¬Clash f key
  root : r.2 = true → Root .pfx n (update f key (some v)) r.1

theorem label_cases {label key : List Bool} (h : same_upto label key < label.length) :
    (∃ x r, label = key ++ x :: r) ∨
    ∃ q x r k, q.length = same_upto label key ∧ label = q ++ x :: r ∧ key = q ++ (!x) :: k := by
  by_cases hk : same_upto label key < key.length
  · obtain ⟨q, x, r, k, h1, h2, h3⟩ := same_upto_split h hk
    exact .inr ⟨q, x, r, k, h1, h2, h3⟩
  · have hpre : key <+: label := same_upto_eq_length.1 (by
      rw [same_upto_comm]
      exact Nat.le_antisymm (same_upto_le_right _ _) (by omega))
    obtain ⟨s, rfl⟩ := hpre
    cases s with
    | nil =>
      rw [append_nil] at h hk
      omega
    | cons x r => exact .inl ⟨x, r, rfl⟩

variable {value : Option CellSlice} {dict : Option DataCell}

theorem pfx_dict_set_spec {store_val : StoreValue} {v : CellSlice} (hs : Stores store_val v) (mode : SetMode) (n : Nat)
    {f : BitMap CellSlice} {key : List Bool} {res : Option DataCell × Bool}
    (hd : Root .pfx n f dict) (hk : key.length ≤ n) (h : pfx_dict_set dict key n store_val mode = .ok res) :
    PfxSetResult n f key v mode res := by
  induction n using Nat.strong_induction_on generalizing f dict key res with
  | _ n ih =>
  rw [pfx_dict_set.eq_def, if_neg (by omega)] at h
  cases dict with
  | none =>
    obtain rfl : f = empty := hd
    dsimp only at h
    split at h
    · next hmode =>
      cases h
      exact ⟨by rw [hmode]; simp [SetMode.writes, empty], by simp⟩
    · next hmode =>
      rw [bind_ok] at h
      obtain ⟨c, hc, h⟩ := h
      cases h
      exact ⟨iff_of_true rfl ⟨SetMode.writes_none hmode, not_clash_empty key⟩, fun _ => pfx_leaf_root hs hc⟩
  | some cell =>
    obtain ⟨label, m, g, p, hn, rfl, hp, hnode⟩ := hd.exists_node
    obtain ⟨k₀, w₀, hk₀⟩ := hp.exists_key
    dsimp only at h
    rw [bind_ok] at h
    obtain ⟨lp, hlp, h⟩ := h
    have hr := hnode.parse hlp
    simp only [hr.common_prefix_len, hr.l_bits, hr.skip_label] at h
    split at h
    · cases h
    · split at h
      · next hlt =>
        rcases label_cases hlt with ⟨x, r, rfl⟩ | ⟨q, x, r, k, hq, rfl, rfl⟩
        · -- the key ends inside the label
          have hl : same_upto (key ++ x :: r) key = key.length := by
            rw [same_upto_comm]
            exact same_upto_eq_length.2 (prefix_append _ _)
          rw [hl, if_pos (.inl rfl)] at h
          cases h
          exact ⟨by simp [clash_of_short hk₀], by simp⟩
        · -- the key leaves the label
          rw [← hq] at h
          simp only [length_append, length_cons] at hk hn
          have hql : ¬q.length = (q ++ (!x) :: k).length := by simp
          split at h
          · next hmode =>
            cases h
            rw [or_iff_right hql] at hmode
            exact ⟨by rw [hmode, under_off]; simp [SetMode.writes], by simp⟩
          · next hmode =>
            rw [or_iff_right hql] at hmode
            have hdrop : (q ++ (!x) :: k).drop (q.length + 1) = k := by simp [drop_append]
            have hbit : (q ++ (!x) :: k).getD q.length false = !x := by simp
            simp only [hdrop, take_left, hbit] at h
            rw [bind_ok] at h
            obtain ⟨c1, hc1, h⟩ := h
            rw [bind_ok] at h
            obtain ⟨c2, hc2, h⟩ := h
            have h1 := pfx_leaf_root hs hc1
            have h2 : Root .pfx (n - (q.length + 1)) (under r g) (some c2) :=
              .mk hp (by omega) (lower_edge_node hr rfl hc2)
            have hw : mode.writes (under (q ++ x :: r) g (q ++ (!x) :: k)) = true ∧ ¬Clash (under (q ++ x :: r) g) (q ++ (!x) :: k) :=
              ⟨by rw [under_off, SetMode.writes_none hmode], not_clash_off _ _ _ _ _⟩
            cases x with
            | false =>
              obtain ⟨c, hc, h⟩ := bind_ok.1 h
              cases h
              refine ⟨iff_of_true rfl hw, fun _ => ?_⟩
              rw [update_off]
              exact pfx_fork_root h2 h1 (by omega) hc
            | true =>
              obtain ⟨c, hc, h⟩ := bind_ok.1 h
              cases h
              refine ⟨iff_of_true rfl hw, fun _ => ?_⟩
              rw [update_off]
              exact pfx_fork_root h1 h2 (by omega) hc
      · next hge =>
        obtain ⟨k, rfl⟩ := prefix_of_same_upto hge
        have hl : same_upto label (label ++ k) = label.length := same_upto_eq_length.2 (prefix_append _ _)
        rw [hl] at h
        cases hp with
        | @leaf _ w _ hv =>
          obtain rfl := hv
          rw [(fetch_leaf w).1, (fetch_leaf w).2] at h
          simp only [Bool.not_true, Bool.false_eq_true, if_false, if_true] at h
          cases k with
          | nil =>
            rw [append_nil] at h ⊢
            have hfk : under label (single w) label = some w := by rw [under_single, update_self]
            have hnc : ¬Clash (under label (single w)) label := by
              have := clash_under label [] (single w)
              rw [append_nil] at this
              rw [this]
              exact not_clash_single w
            split at h
            · next hmode =>
              cases h
              obtain rfl : mode = .Add := hmode.resolve_left (fun e => e rfl)
              exact ⟨by simp [hfk, SetMode.writes], by simp⟩
            · next hmode =>
              rw [bind_ok] at h
              obtain ⟨c, hc, h⟩ := h
              cases h
              refine ⟨iff_of_true rfl ⟨?_, hnc⟩, fun _ => ?_⟩
              · rw [hfk, SetMode.writes_some fun e => hmode (.inr e)]
              · rw [under_single, update_idem]
                exact pfx_leaf_root hs hc
          | cons b k =>
            rw [if_pos (.inl (by simp))] at h
            cases h
            exact ⟨by simp [clash_under, clash_single_cons], by simp⟩
        | @fork m f₀ f₁ c1 c2 _ h1 h2 hp =>
          obtain rfl := hp
          rw [(fetch_fork c1 c2).1, (fetch_fork c1 c2).2] at h
          simp only [Bool.not_true, Bool.false_eq_true, if_false, CellSlice.size, CellSlice.size_refs, length_nil,
            length_cons, Option.some.injEq, Nat.one_ne_zero, ne_eq, not_true, or_self] at h
          cases k with
          | nil =>
            rw [append_nil] at h ⊢
            rw [dif_pos rfl] at h
            cases h
            have hclash : Clash (under label (split f₀ f₁)) label := by
              obtain ⟨j, u, hj⟩ := h1.exists_key
              have := clash_under label [] (split f₀ f₁)
              rw [append_nil] at this
              exact this.2 (clash_split_nil hj)
            exact ⟨by simp [hclash], by simp⟩
          | cons b k =>
            have hdrop : (label ++ b :: k).drop (label.length + 1) = k := by simp [drop_append]
            have hbit : (label ++ b :: k).getD label.length false = b := by simp
            have hm : n - (label.length + 1) = m := by omega
            simp only [length_append, length_cons] at hk
            rw [dif_neg (by simp)] at h
            simp only [hdrop, hbit, hm, take_left, CellSlice.prefetch_ref, getElem?_cons_zero,
              getElem?_cons_succ] at h
            rw [bind_ok] at h
            obtain ⟨⟨child, written⟩, hrec, h⟩ := h
            have hres := ih m (by omega) (side_root h1 h2 b) (by omega) hrec
            have hiff := hres.written
            rw [← under_split_append label k f₀ f₁ b, ← clash_split b k f₀ f₁, ← clash_under label] at hiff
            split at h
            · next hw =>
              cases h
              exact ⟨by rw [← hiff]; simpa using hw, by simp⟩
            · next hw =>
              have hw : written = true := by simpa using hw
              have hroot := hres.root hw
              cases b with
              | false =>
                obtain ⟨c, hc, h⟩ := bind_ok.1 h
                cases h
                refine ⟨iff_of_true rfl (hiff.1 hw), fun _ => ?_⟩
                rw [update_under_split]
                exact pfx_fork_root hroot h2 hn hc
              | true =>
                obtain ⟨c, hc, h⟩ := bind_ok.1 h
                cases h
                refine ⟨iff_of_true rfl (hiff.1 hw), fun _ => ?_⟩
                rw [update_under_split]
                exact pfx_fork_root h1 hroot hn hc

/-! ## Deletion -/

/-- What a deletion returns for the map. -/
structure PfxDeleteResult (n : Nat) (f : BitMap CellSlice) (key : List Bool) (r : Option CellSlice × Option DataCell) :
    Prop where
  old : r.1 = f key
  root : r.1.isSome → Root .pfx n (update f key none) r.2

theorem under_short (g : BitMap CellSlice) {label key : List Bool} (h : same_upto label key < label.length) :
    under label g key = none := by
  have hpre : ¬label <+: key := fun hp => by
    rw [same_upto_eq_length.2 hp] at h
    omega
  rw [under, if_neg hpre]

theorem pfx_dict_lookup_delete_spec (n : Nat) {f : BitMap CellSlice} {key : List Bool}
    {res : Option CellSlice × Option DataCell} (hd : Root .pfx n f dict) (hk : key.length ≤ n)
    (h : pfx_dict_lookup_delete dict key n = .ok res) : PfxDeleteResult n f key res := by
  induction n using Nat.strong_induction_on generalizing f dict key res with
  | _ n ih =>
  rw [pfx_dict_lookup_delete.eq_def] at h
  cases dict with
  | none =>
    obtain rfl : f = empty := hd
    cases h
    exact ⟨rfl, by simp⟩
  | some cell =>
    obtain ⟨label, m, g, p, hn, rfl, hp, hnode⟩ := hd.exists_node
    dsimp only at h
    rw [bind_ok] at h
    obtain ⟨lp, hlp, h⟩ := h
    have hr := hnode.parse hlp
    simp only [hr.common_prefix_len, hr.l_bits, hr.skip_label] at h
    split at h
    · cases h
    · split at h
      · next hlt =>
        cases h
        exact ⟨(under_short g hlt).symm, by simp⟩
      · next hge =>
        obtain ⟨k, rfl⟩ := prefix_of_same_upto hge
        have hl : same_upto label (label ++ k) = label.length := same_upto_eq_length.2 (prefix_append _ _)
        rw [hl] at h
        cases hp with
        | @leaf _ w _ hv =>
          obtain rfl := hv
          rw [(fetch_leaf w).1, (fetch_leaf w).2] at h
          simp only [Bool.not_true, Bool.false_eq_true, if_false, if_true] at h
          cases k with
          | nil =>
            rw [if_neg (by simp)] at h
            cases h
            refine ⟨by rw [under_append, single, update_self], fun _ => ?_⟩
            rw [update_under, single, update_idem, show update empty [] none = empty from
              update_eq_self [] empty, under_empty]
            rfl
          | cons b k =>
            rw [if_pos (by simp)] at h
            cases h
            exact ⟨by rw [under_append, single_cons], by simp⟩
        | @fork m f₀ f₁ c1 c2 _ h1 h2 hp =>
          obtain rfl := hp
          rw [(fetch_fork c1 c2).1, (fetch_fork c1 c2).2] at h
          simp only [Bool.not_true, Bool.false_eq_true, if_false, CellSlice.size, CellSlice.size_refs, length_nil,
            length_cons, Option.some.injEq, Nat.one_ne_zero, ne_eq, not_true, or_self] at h
          cases k with
          | nil =>
            rw [dif_pos (by simp)] at h
            cases h
            exact ⟨by rw [under_append]; rfl, by simp⟩
          | cons b k =>
            have hdrop : (label ++ b :: k).drop (label.length + 1) = k := by simp [drop_append]
            have hbit : (label ++ b :: k).getD label.length false = b := by simp
            have hm : n - (label.length + 1) = m := by omega
            simp only [length_append, length_cons] at hk
            rw [dif_neg (by simp)] at h
            simp only [hdrop, hbit, hm, take_left, CellSlice.prefetch_ref, getElem?_cons_zero,
              getElem?_cons_succ] at h
            rw [bind_ok] at h
            obtain ⟨⟨old, child⟩, hrec, h⟩ := h
            have hres := ih m (by omega) (side_root h1 h2 b) (by omega) hrec
            have hold := hres.old
            rw [← under_split_append label k f₀ f₁ b] at hold
            cases old with
            | none =>
              cases h
              exact ⟨hold, by simp⟩
            | some old =>
              have hroot := hres.root rfl
              cases b with
              | false =>
                cases child with
                | some child =>
                  obtain ⟨c, hc, h⟩ := bind_ok.1 h
                  cases h
                  refine ⟨hold, fun _ => ?_⟩
                  rw [update_under_split]
                  exact pfx_fork_root hroot h2 hn hc
                | none =>
                  obtain ⟨lp2, hlp2, h⟩ := bind_ok.1 h
                  split at h
                  · cases h
                  · obtain ⟨c, hc, h⟩ := bind_ok.1 h
                    cases h
                    refine ⟨hold, fun _ => ?_⟩
                    rw [update_under_split, if_neg Bool.false_ne_true, show update f₀ k none = empty from hroot,
                      split_empty_left]
                    exact merge_root h2 hn hlp2 (by simp) hc
              | true =>
                cases child with
                | some child =>
                  obtain ⟨c, hc, h⟩ := bind_ok.1 h
                  cases h
                  refine ⟨hold, fun _ => ?_⟩
                  rw [update_under_split]
                  exact pfx_fork_root h1 hroot hn hc
                | none =>
                  obtain ⟨lp2, hlp2, h⟩ := bind_ok.1 h
                  split at h
                  · cases h
                  · obtain ⟨c, hc, h⟩ := bind_ok.1 h
                    cases h
                    refine ⟨hold, fun _ => ?_⟩
                    rw [update_under_split, if_pos rfl, show update f₁ k none = empty from hroot,
                      split_empty_right]
                    exact merge_root h1 hn hlp2 (by simp) hc

/-! ## Lookup -/

/-- What a search for a start of `key` returns: a key of the map and its value, or
nothing when there is none. -/
def Finds (f : BitMap CellSlice) (key : List Bool) (r : Option CellSlice × Nat) : Prop :=
  match r.1 with
  | some v => r.2 ≤ key.length ∧ f (key.take r.2) = some v
  | none => ∀ k, k <+: key → f k = none

theorem finds_under {label key : List Bool} {g : BitMap CellSlice} {n : Nat}
    (h : Finds g key (value, n)) : Finds (under label g) (label ++ key) (value, label.length + n) := by
  unfold Finds at h ⊢
  cases value with
  | some v =>
    refine ⟨by simpa using h.1, ?_⟩
    simp only [take_append, take_of_length_le (Nat.le_add_right _ _), Nat.add_sub_cancel_left, under_append]
    exact h.2
  | none =>
    intro k hk
    by_cases hl : label <+: k
    · obtain ⟨k, rfl⟩ := hl
      rw [prefix_append_right_inj] at hk
      rw [under_append, h k hk]
    · rw [under, if_neg hl]

theorem finds_split {f g : BitMap CellSlice} {b : Bool} {key : List Bool} {len : Nat}
    (h : Finds (if b then g else f) key (value, len)) : Finds (split f g) (b :: key) (value, 1 + len) := by
  unfold Finds at h ⊢
  rw [Nat.add_comm]
  cases value with
  | some v =>
    refine ⟨Nat.succ_le_succ h.1, ?_⟩
    rw [take_succ_cons, split_cons, ← ite_apply]
    exact h.2
  | none =>
    intro k hk
    cases k with
    | nil => rfl
    | cons b' k =>
      rw [cons_prefix_cons] at hk
      obtain ⟨rfl, hk⟩ := hk
      rw [split_cons, ← ite_apply, h k hk]

theorem pfx_dict_lookup_spec (n : Nat) {f : BitMap CellSlice} {c : DataCell} (key : List Bool)
    (hc : Root .pfx n f (some c)) : ∃ r, pfx_dict_lookup (some c) key n = .ok r ∧ Finds f key r := by
  induction n using Nat.strong_induction_on generalizing f c key with
  | _ n ih =>
  obtain ⟨label, m, g, p, hn, rfl, hp, hnode⟩ := hc.exists_node
  obtain ⟨lp, hlp, hr⟩ := hnode.parse_ok (show label.length < n → Check.chk_min.Passes p from fun _ => trivial)
  rw [pfx_dict_lookup.eq_def]
  simp only [hlp, ok_bind, hr.common_prefix_len, hr.l_bits, hr.skip_label]
  by_cases hlt : same_upto label key < label.length
  · rw [if_pos hlt]
    refine ⟨_, rfl, fun k hk => ?_⟩
    have hpre : ¬label <+: k := fun hl => by
      rw [same_upto_eq_length.2 (hl.trans hk)] at hlt
      omega
    rw [under, if_neg hpre]
  · rw [if_neg hlt]
    obtain ⟨k, rfl⟩ := prefix_of_same_upto hlt
    rw [if_neg (by simp)]
    cases hp with
    | @leaf _ w _ hv =>
      obtain rfl := hv
      rw [(fetch_leaf w).1, (fetch_leaf w).2]
      simp only [Bool.not_true, Bool.false_eq_true, if_false, if_true]
      refine ⟨_, rfl, ?_⟩
      exact finds_under (n := 0) ⟨Nat.zero_le _, update_self _ _ _⟩
    | @fork m f₀ f₁ c1 c2 _ h1 h2 hp =>
      obtain rfl := hp
      rw [(fetch_fork c1 c2).1, (fetch_fork c1 c2).2]
      simp only [Bool.not_true, Bool.false_eq_true, if_false, CellSlice.size, CellSlice.size_refs, length_nil,
        length_cons, Option.some.injEq, Nat.one_ne_zero, ne_eq, not_true, or_self]
      rw [dif_neg (by omega)]
      cases k with
      | nil =>
        rw [if_pos (by simp)]
        refine ⟨_, rfl, ?_⟩
        refine finds_under (n := 0) fun k hk => ?_
        rw [prefix_nil.1 hk]
        rfl
      | cons b k =>
        have hdrop : (label ++ b :: k).drop (label.length + 1) = k := by simp [drop_append]
        have hbit : (label ++ b :: k).getD label.length false = b := by simp
        rw [if_neg (by simp), hdrop, hbit, show n - label.length - 1 = m by omega]
        have hside : ∃ r, pfx_dict_lookup (CellSlice.prefetch_ref ⟨[], [c1, c2]⟩ b.toNat) k m = .ok r ∧
            Finds (if b then f₁ else f₀) k r := by
          cases b with
          | false => exact ih m (by omega) k h1
          | true => exact ih m (by omega) k h2
        obtain ⟨⟨value, len⟩, hrec, hfinds⟩ := hside
        rw [hrec]
        refine ⟨_, rfl, ?_⟩
        rw [Nat.add_assoc]
        exact finds_under (finds_split hfinds)

/-! ## Runs -/

/-- The dictionary holds the map. -/
structure PrefixDictionary.Holds (d : PrefixDictionary) (f : BitMap CellSlice) : Prop where
  root : Root .pfx d.key_bits f d.root_cell
  bits : d.key_bits ≤ max_key_bits

open Classical in
/-- An insertion that would not leave a prefix code is refused. -/
noncomputable def SetMode.admits (mode : SetMode) (f : BitMap CellSlice) (key : List Bool) : Bool :=
  decide (mode.writes (f key) = true ∧ ¬Clash f key)

theorem SetMode.admits_iff {mode : SetMode} {f : BitMap CellSlice} {key : List Bool} :
    mode.admits f key = true ↔ mode.writes (f key) = true ∧ ¬Clash f key := by
  classical
  exact decide_eq_true_iff

section Holds
variable {d d' : PrefixDictionary} {f : BitMap CellSlice} {key : List Bool} {v : CellSlice} {mode : SetMode}

theorem PrefixDictionary.Holds.force_validate (h : d.Holds f) : d.force_validate = .ok () := by
  rw [PrefixDictionary.force_validate, if_neg (by have := h.bits; omega)]

theorem PrefixDictionary.Holds.prefix_free (h : d.Holds f) {k k' : List Bool} {w w' : CellSlice} (hk : f k = some w)
    (hk' : f k' = some w') (hp : k <+: k') : k = k' := by
  have hroot := h.root
  cases hc : d.root_cell with
  | none =>
    rw [hc] at hroot
    obtain rfl : f = empty := hroot
    cases hk
  | some c =>
    rw [hc] at hroot
    obtain ⟨t, -, rfl⟩ := hroot
    exact Trie.key_prefix_free hk hk' hp

theorem PrefixDictionary.Holds.set_gen {store_val : StoreValue} {b : Bool} (hd : d.Holds f) (hs : Stores store_val v)
    (hk : key.length ≤ d.key_bits) (h : d.set_gen key store_val mode = .ok (d', b)) :
    d'.Holds (if mode.admits f key then update f key (some v) else f) ∧ b = mode.admits f key ∧
      d'.key_bits = d.key_bits := by
  unfold PrefixDictionary.set_gen at h
  rw [hd.force_validate, ok_bind, if_neg (by omega)] at h
  obtain ⟨⟨c, written⟩, hset, h⟩ := bind_ok.1 h
  cases h
  have hr := pfx_dict_set_spec hs mode _ hd.root hk hset
  have hw : b = mode.admits f key := by
    rw [Bool.eq_iff_iff, SetMode.admits_iff]
    exact hr.written
  refine ⟨?_, hw, by split <;> rfl⟩
  rw [← hw]
  split
  · next hb => exact ⟨hr.root hb, hd.bits⟩
  · exact hd

theorem PrefixDictionary.Holds.lookup_delete {o : Option CellSlice} (hd : d.Holds f) (hk : key.length ≤ d.key_bits)
    (h : d.lookup_delete key = .ok (d', o)) :
    d'.Holds (update f key none) ∧ o = f key ∧ d'.key_bits = d.key_bits := by
  unfold PrefixDictionary.lookup_delete at h
  rw [hd.force_validate, ok_bind, if_neg (by omega)] at h
  obtain ⟨⟨old, c⟩, hdel, h⟩ := bind_ok.1 h
  cases h
  have hr := pfx_dict_lookup_delete_spec _ hd.root hk hdel
  have hold : o = f key := hr.old
  refine ⟨?_, hold, by split <;> rfl⟩
  split
  · next hsome => exact ⟨hr.root hsome, hd.bits⟩
  · next hnone =>
    have hf : f key = none := by rw [← hold]; simpa using hnone
    rw [← hf, update_eq_self]
    exact hd

theorem PrefixDictionary.Holds.lookup_prefix (hd : d.Holds f) (s : List Bool) :
    ∃ r, PrefixDictionary.lookup_prefix d s = .ok r ∧ Finds f s r := by
  unfold PrefixDictionary.lookup_prefix
  rw [hd.force_validate, ok_bind]
  have hroot := hd.root
  cases hc : d.root_cell with
  | none =>
    rw [hc] at hroot
    obtain rfl : f = empty := hroot
    exact ⟨_, rfl, fun _ _ => rfl⟩
  | some c =>
    rw [hc] at hroot
    exact pfx_dict_lookup_spec _ s hroot

theorem PrefixDictionary.Holds.lookup (hd : d.Holds f) (hk : key.length ≤ d.key_bits) : d.lookup key = .ok (f key) := by
  unfold PrefixDictionary.lookup
  obtain ⟨⟨value, len⟩, hr, hfinds⟩ := PrefixDictionary.Holds.lookup_prefix hd key
  rw [hd.force_validate, ok_bind, if_neg (by omega), hr, ok_bind]
  unfold Finds at hfinds
  cases value with
  | none => simp [hfinds key (prefix_refl key)]
  | some w =>
    obtain ⟨hlen, hw⟩ := hfinds
    by_cases he : len = key.length
    · rw [he, take_length] at hw
      simp [he, hw]
    · -- the key found is a proper start of `key`, which is then not there
      have hnone : f key = none := by
        by_contra hne
        obtain ⟨u, hu⟩ := Option.ne_none_iff_exists'.1 hne
        have := congrArg List.length (hd.prefix_free hw hu (List.take_prefix _ _))
        rw [length_take, Nat.min_eq_left hlen] at this
        exact he this
      simp [he, hnone]

end Holds

inductive PfxOp where
  | set (key : List Bool) (value : CellSlice) (mode : SetMode)
  | set_builder (key : List Bool) (val_b : CellBuilder) (mode : SetMode)
  | lookup_delete (key : List Bool)

namespace PfxOp

def key : PfxOp → List Bool
  | set k _ _ | set_builder k _ _ | lookup_delete k => k

def exec (d : PrefixDictionary) : PfxOp → Except Exc (PrefixDictionary × Ret)
  | set k v mode => (fun r => (r.1, .flag r.2)) <$> d.set k v mode
  | set_builder k b mode => (fun r => (r.1, .flag r.2)) <$> d.set_builder k b mode
  | lookup_delete k => (fun r => (r.1, .value r.2)) <$> d.lookup_delete k

/-- The operation on a map. -/
noncomputable def spec (f : BitMap CellSlice) : PfxOp → BitMap CellSlice × Ret
  | set k v mode => (if mode.admits f k then update f k (some v) else f, .flag (mode.admits f k))
  | set_builder k b mode =>
    (if mode.admits f k then update f k (some ⟨b.bits, b.refs⟩) else f, .flag (mode.admits f k))
  | lookup_delete k => (update f k none, .value (f k))

/-- A run of operations, none of which throws, and what they return. -/
def execAll (d : PrefixDictionary) : List PfxOp → Except Exc (PrefixDictionary × List Ret)
  | [] => .ok (d, [])
  | op :: ops => do
    let (d, r) ← op.exec d
    let (d, rs) ← execAll d ops
    .ok (d, r :: rs)

noncomputable def specAll (f : BitMap CellSlice) : List PfxOp → BitMap CellSlice × List Ret
  | [] => (f, [])
  | op :: ops => ((specAll (op.spec f).1 ops).1, (op.spec f).2 :: (specAll (op.spec f).1 ops).2)

end PfxOp

theorem pfx_exec_holds {d d' : PrefixDictionary} {f : BitMap CellSlice} {op : PfxOp} {r : Ret} (hd : d.Holds f)
    (hk : op.key.length ≤ d.key_bits) (h : op.exec d = .ok (d', r)) :
    d'.Holds (op.spec f).1 ∧ r = (op.spec f).2 ∧ d'.key_bits = d.key_bits := by
  cases op with
  | set k v mode =>
    obtain ⟨⟨d₁, b⟩, hop, e⟩ := map_ok h
    cases e
    obtain ⟨h1, h2, h3⟩ := hd.set_gen (store_slice_stores v) hk hop
    exact ⟨h1, congrArg _ h2, h3⟩
  | set_builder k b mode =>
    obtain ⟨⟨d₁, b⟩, hop, e⟩ := map_ok h
    cases e
    obtain ⟨h1, h2, h3⟩ := hd.set_gen (store_builder_stores _) hk hop
    exact ⟨h1, congrArg _ h2, h3⟩
  | lookup_delete k =>
    obtain ⟨⟨d₁, b⟩, hop, e⟩ := map_ok h
    cases e
    obtain ⟨h1, h2, h3⟩ := hd.lookup_delete hk hop
    exact ⟨h1, congrArg _ h2, h3⟩

theorem pfx_execAll_holds {d d' : PrefixDictionary} {f : BitMap CellSlice} {ops : List PfxOp} {rs : List Ret}
    (hd : d.Holds f) (hk : ∀ op ∈ ops, op.key.length ≤ d.key_bits) (h : PfxOp.execAll d ops = .ok (d', rs)) :
    d'.Holds (PfxOp.specAll f ops).1 ∧ rs = (PfxOp.specAll f ops).2 ∧ d'.key_bits = d.key_bits := by
  induction ops generalizing d f rs with
  | nil =>
    cases h
    exact ⟨hd, rfl, rfl⟩
  | cons op ops ih =>
    obtain ⟨⟨d₁, r⟩, h₁, h⟩ := bind_ok.1 h
    obtain ⟨⟨d₂, rs⟩, h₂, h⟩ := bind_ok.1 h
    cases h
    obtain ⟨hd₁, hr, hbits⟩ := pfx_exec_holds hd (hk op (by simp)) h₁
    obtain ⟨hd₂, hrs, hbits₂⟩ := ih hd₁ (fun o ho => hbits ▸ hk o (by simp [ho])) h₂
    exact ⟨hd₂, by rw [hr, hrs]; rfl, hbits₂.trans hbits⟩

/-- What `lookup_prefix` finds in a map: the only key that `s` starts with. -/
def FindsOnly (f : BitMap CellSlice) (s : List Bool) (r : Option CellSlice × Nat) : Prop :=
  match r.1 with
  | some v => ∃ k, k <+: s ∧ f k = some v ∧ r.2 = k.length ∧ ∀ k', k' <+: s → (f k').isSome → k' = k
  | none => ∀ k, k <+: s → f k = none

theorem PrefixDictionary.Holds.finds_only {d : PrefixDictionary} {f : BitMap CellSlice} (hd : d.Holds f) {s : List Bool}
    {r : Option CellSlice × Nat} (h : Finds f s r) : FindsOnly f s r := by
  obtain ⟨value, len⟩ := r
  cases value with
  | none => exact h
  | some v =>
    obtain ⟨hlen, hv⟩ := h
    refine ⟨s.take len, take_prefix _ _, hv, (length_take_of_le hlen).symm, fun k' hk' hsome => ?_⟩
    obtain ⟨w, hw⟩ := Option.isSome_iff_exists.1 hsome
    rcases prefix_or_prefix_of_prefix hk' (List.take_prefix len s) with hp | hp
    · exact hd.prefix_free hw hv hp
    · exact (hd.prefix_free hv hw hp).symm

/-- After any run of operations on an empty prefix dictionary, none of which throws:
the keys are a prefix code, the insertions have been refused that would have broken
it and only those, and both lookups find what the map holds. -/
theorem prefix_dictionary_refines_code (n : Nat) (hn : n ≤ max_key_bits) (ops : List PfxOp)
    (hk : ∀ op ∈ ops, op.key.length ≤ n) (d : PrefixDictionary) (rs : List Ret)
    (h : PfxOp.execAll ⟨none, n⟩ ops = .ok (d, rs)) :
    rs = (PfxOp.specAll empty ops).2 ∧
      (∀ k k' v v', (PfxOp.specAll empty ops).1 k = some v → (PfxOp.specAll empty ops).1 k' = some v' → k <+: k' → k = k') ∧
      (∀ key, key.length ≤ n → d.lookup key = .ok ((PfxOp.specAll empty ops).1 key)) ∧
      ∀ s, ∃ r, PrefixDictionary.lookup_prefix d s = .ok r ∧ FindsOnly (PfxOp.specAll empty ops).1 s r := by
  have hd : PrefixDictionary.Holds ⟨none, n⟩ empty := ⟨rfl, hn⟩
  obtain ⟨h1, h2, h3⟩ := pfx_execAll_holds hd hk h
  refine ⟨h2, fun k k' v v' => h1.prefix_free, fun key hkey => h1.lookup (hkey.trans_eq h3.symm), fun s => ?_⟩
  obtain ⟨r, hr, hfinds⟩ := PrefixDictionary.Holds.lookup_prefix h1 s
  exact ⟨r, hr, h1.finds_only hfinds⟩

/-- Keys of up to four bits; the second and the fourth insertion are refused. -/
theorem prefix_dictionary_refines_code_six_ops :
    let ops : List PfxOp := [.set [false, true] ⟨[true], []⟩ .Set, .set [false] ⟨[], []⟩ .Add,
      .set_builder [true, true, false] ⟨[false], []⟩ .Add, .set [false, true, true] ⟨[], []⟩ .Set,
      .lookup_delete [false, true], .set [false] ⟨[true, true], []⟩ .Add]
    ∃ d rs, PfxOp.execAll ⟨none, 4⟩ ops = .ok (d, rs) ∧ rs = (PfxOp.specAll empty ops).2 ∧
      d.lookup [false] = .ok ((PfxOp.specAll empty ops).1 [false]) ∧
      ∃ r, PrefixDictionary.lookup_prefix d [true, true, false, true] = .ok r ∧
        FindsOnly (PfxOp.specAll empty ops).1 [true, true, false, true] r := by
  intro ops
  have hok : (PfxOp.execAll ⟨none, 4⟩ ops).toOption.isSome = true := by decide +kernel
  obtain ⟨⟨d, rs⟩, h⟩ := exists_ok_of_isSome hok
  obtain ⟨hrs, -, hl, hp⟩ := prefix_dictionary_refines_code 4 (by decide) ops (by decide) d rs h
  exact ⟨d, rs, h, hrs, hl _ (by decide), hp _⟩

end Ton.Dict
