import Mathlib.Data.Option.Basic
import Ton.Dict.Rep
/-!
# Dictionaries refine finite maps

Each operation, on a cell that stands for a map, returns a cell for the changed
map whenever it returns (`dict_set_with_spec`, `dict_lookup_delete_spec`), and
`lookup` always answers from the map (`dict_lookup_spec`). The specifications
hold for every kind of dictionary with keys of one length; runs of a `Dictionary`
follow by induction.
-/

namespace Ton.Dict
open BigEndian CellTraits CellBuilder Result BitMap LabelParser List Function

/-! ## Kinds and how nodes of them are finished -/

/-- All keys have the same length, and a fork starts with its two children. -/
structure Kind.Fixed (K : Kind) : Prop where
  leaf : ∀ {m : Nat} {v p : CellSlice}, K.Leaf m v p → m = 0
  fork : ∀ {m : Nat} {c1 c2 : DataCell} {p : CellSlice}, K.Fork m c1 c2 p → ∃ rest, p.refs = c1 :: c2 :: rest

structure Finish.Follows (F : Finish) (K : Kind) (v : CellSlice) : Prop where
  leaf : ∀ {cb : CellBuilder} {c : DataCell}, F.leaf cb = .ok c →
    ∃ p, K.Leaf 0 v p ∧ finalize ⟨cb.bits ++ p.bits, cb.refs ++ p.refs⟩ false = .ok c
  fork : ∀ {cb : CellBuilder} {c1 c2 : Option DataCell} {m : Nat} {c : DataCell}, F.fork cb c1 c2 m = .ok c →
    ∃ c1' c2' p, c1 = some c1' ∧ c2 = some c2' ∧ K.Fork m c1' c2' p ∧
      finalize ⟨cb.bits ++ p.bits, cb.refs ++ p.refs⟩ false = .ok c

structure Virtual.Follows (V : Virtual) (K : Kind) : Prop where
  fork : ∀ {cb : CellBuilder} {c1 c2 : DataCell} {m : Nat} {c : DataCell}, V.finish_create_fork cb c1 c2 m = .ok c →
    ∃ p, K.Fork m c1 c2 p ∧ finalize ⟨cb.bits ++ p.bits, cb.refs ++ p.refs⟩ false = .ok c

section Nodes
variable {K : Kind} {n m : Nat} {label : List Bool} {payload : CellSlice} {c : DataCell}

theorem relabel_edge_node {error : String} (h : relabel_edge label n payload error = .ok c) : Node label n payload c := by
  obtain ⟨cb, hcb, h⟩ := bind_ok.1 h
  split at h
  · cases h
  · next hs =>
    rw [append_cellslice_bool_some hs] at h
    exact .of_label hcb h

theorem lower_edge_node {p : LabelParser} {q r : List Bool} {x : Bool} {error : String} {pfx_len : Nat}
    (hp : p.Reads (q ++ x :: r) payload) (hq : q.length = pfx_len) (h : lower_edge p pfx_len m error = .ok c) :
    Node r m payload c := by
  subst hq
  have ht : p.l_bits - q.length - 1 = r.length := by
    rw [hp.l_bits, length_append, length_cons]
    omega
  unfold lower_edge at h
  rw [ht] at h
  rcases hp.cases with ⟨h0, -, hr⟩ | ⟨h0, hl, -, hr⟩
  · have e : p.remainder.advance (q.length + 1) = ⟨r ++ payload.bits, payload.refs⟩ := by
      rw [hr, append_assoc, cons_append, ← singleton_append, ← append_assoc]
      exact advance_append _ _ _ _ (by simp)
    rw [if_neg (not_not.2 h0), e] at h
    dsimp only at h
    rw [advance_append _ _ _ _ rfl, take_left] at h
    exact relabel_edge_node h
  · have hrep : r = List.replicate r.length p.same_bit := by
      rw [eq_replicate_iff] at hl ⊢
      exact ⟨rfl, fun y hy => hl.2 y (by simp [hy])⟩
    rw [if_pos h0, hr] at h
    obtain ⟨cb, hcb, h⟩ := bind_ok.1 h
    split at h
    · cases h
    · next hs =>
      rw [append_cellslice_bool_some hs] at h
      rw [hrep]
      exact .of_label_same hcb h

variable {F : Finish} {v : CellSlice}

theorem Finish.Follows.leaf_root (hF : F.Follows K v) {cb : CellBuilder} (hcb : append_dict_label {} label label.length = .ok cb)
    (hc : F.leaf cb = .ok c) : Root K label.length (update empty label (some v)) (some c) := by
  obtain ⟨p, hp, hc⟩ := hF.leaf hc
  rw [← under_single]
  exact .mk (.leaf hp) rfl (.of_label hcb hc)

theorem Finish.Follows.fork_root (hF : F.Follows K v) {cb : CellBuilder} {c1 c2 : Option DataCell} {f g : BitMap CellSlice}
    (hcb : append_dict_label {} label n = .ok cb) (hn : n = label.length + (m + 1)) (h1 : Root K m f c1)
    (h2 : Root K m g c2) (hc : F.fork cb c1 c2 (m + 1) = .ok c) : Root K n (under label (split f g)) (some c) := by
  obtain ⟨c1, c2, p, rfl, rfl, hp, hc⟩ := hF.fork hc
  exact .mk (.fork h1 h2 hp) hn (.of_label hcb hc)

end Nodes

theorem exists_next_bit {label key : List Bool} (h : label <+: key) (hlt : label.length < key.length) :
    ∃ k, key = label ++ key.getD label.length false :: k ∧ key.drop (label.length + 1) = k ∧
      key.take label.length = label := by
  obtain ⟨s, rfl⟩ := h
  cases s with
  | nil => simp at hlt
  | cons b k => exact ⟨k, by simp, by simp [drop_append], take_left⟩

theorem side_root {K : Kind} {m : Nat} {f g : BitMap CellSlice} {c1 c2 : DataCell} (h1 : Root K m f (some c1))
    (h2 : Root K m g (some c2)) (b : Bool) : Root K m (if b then g else f) (if b then some c2 else some c1) := by
  cases b with
  | false => exact h1
  | true => exact h2

/-! ## Insertion -/

/-- Whether a mode writes over what the map holds. -/
def SetMode.writes : SetMode → Option CellSlice → Bool
  | .Set, _ => true
  | .Add, o => o.isNone
  | .Replace, o => o.isSome

theorem SetMode.writes_none {mode : SetMode} (h : mode ≠ .Replace) : mode.writes none = true := by
  cases mode <;> first | rfl | exact absurd rfl h

theorem SetMode.writes_some {mode : SetMode} {v : CellSlice} (h : mode ≠ .Add) : mode.writes (some v) = true := by
  cases mode <;> first | rfl | exact absurd rfl h

/-- What an insertion returns, for the map and the new value. -/
structure SetResult (K : Kind) (n : Nat) (f : BitMap CellSlice) (key : List Bool) (v : CellSlice) (mode : SetMode)
    (r : Option CellSlice × Option DataCell × Bool) : Prop where
  old : Option.Rel (K.Leaf 0) (f key) r.1
  written : r.2.2 = mode.writes (f key)
  root : r.2.2 = true → Root K n (update f key (some v)) r.2.1

variable {dict : Option DataCell} {g : BitMap CellSlice}

theorem dict_set_with_spec {K : Kind} {F : Finish} {v : CellSlice} (hF : F.Follows K v) (hK : K.Fixed) (mode : SetMode) (n : Nat)
    {f : BitMap CellSlice} {key : List Bool} {res : Option CellSlice × Option DataCell × Bool}
    (hd : Root K n f dict) (hk : key.length = n) (h : dict_set_with F dict key n mode = .ok res) :
    SetResult K n f key v mode res := by
  induction n using Nat.strong_induction_on generalizing f dict key res with
  | _ n ih =>
  have htake : key.take n = key := take_of_length_le (by omega)
  rw [dict_set_with.eq_def] at h
  cases dict with
  | none =>
    obtain rfl : f = empty := hd
    simp only [htake] at h
    split at h
    · next hmode =>
      cases h
      exact ⟨.none, by rw [hmode]; rfl, by simp⟩
    · next hmode =>
      obtain ⟨cb, hcb, h⟩ := bind_ok.1 h
      obtain ⟨c, hc, h⟩ := bind_ok.1 h
      cases h
      subst hk
      exact ⟨.none, (SetMode.writes_none hmode).symm, fun _ => hF.leaf_root hcb hc⟩
  | some cell =>
    obtain ⟨label, m, g, p, hn, rfl, hp, hnode⟩ := hd.exists_node
    dsimp only at h
    rw [bind_ok] at h
    obtain ⟨lp, hlp, h⟩ := h
    have hr := hnode.parse hlp
    simp only [htake, hr.common_prefix_len, hr.l_bits, hr.prefetch_ref] at h
    split at h
    · cases h
    · split at h
      · next hlt =>
        -- the key leaves the edge inside its label
        obtain ⟨q, x, r, k, hq, rfl, rfl⟩ := same_upto_split hlt (by omega)
        rw [← hq] at h
        split at h
        · next hmode =>
          cases h
          exact ⟨by rw [under_off]; exact .none, by rw [under_off, hmode]; rfl, by simp⟩
        · next hmode =>
          simp only [length_append, length_cons] at hk hn
          have hm : n - q.length = k.length + 1 := by omega
          have hdrop : (q ++ (!x) :: k).drop (q.length + 1) = k := by simp [drop_append]
          have hbit : (q ++ (!x) :: k).getD q.length false = !x := by simp
          simp only [hm, Nat.add_sub_cancel, hdrop, take_left, hbit, take_length] at h
          obtain ⟨cb, hcb, h⟩ := bind_ok.1 h
          obtain ⟨c1, hc1, h⟩ := bind_ok.1 h
          obtain ⟨c2, hc2, h⟩ := bind_ok.1 h
          obtain ⟨cb', hcb', h⟩ := bind_ok.1 h
          have h1 := hF.leaf_root hcb hc1
          have h2 : Root K k.length (under r g) (some c2) := .mk hp (by omega) (lower_edge_node hr rfl hc2)
          have hw : true = mode.writes (under (q ++ x :: r) g (q ++ (!x) :: k)) := by
            rw [under_off, SetMode.writes_none hmode]
          cases x with
          | false =>
            obtain ⟨c, hc, h⟩ := bind_ok.1 h
            cases h
            refine ⟨by rw [under_off]; exact .none, hw, fun _ => ?_⟩
            rw [update_off]
            exact hF.fork_root hcb' (by omega) h2 h1 hc
          | true =>
            obtain ⟨c, hc, h⟩ := bind_ok.1 h
            cases h
            refine ⟨by rw [under_off]; exact .none, hw, fun _ => ?_⟩
            rw [update_off]
            exact hF.fork_root hcb' (by omega) h1 h2 hc
      · next hge =>
        have hpre := prefix_of_same_upto hge
        split at h
        · next hln =>
          -- the edge leads to the leaf of the key
          obtain rfl : label = key := hpre.eq_of_length (by omega)
          obtain rfl : m = 0 := by omega
          cases hp with
          | @leaf _ v₀ _ hv =>
            have hfk : under label (single v₀) label = some v₀ := by rw [under_single, update_self]
            rw [hr.skip_label] at h
            split at h
            · next hmode =>
              cases h
              exact ⟨by rw [hfk]; exact .some hv, by rw [hfk, hmode]; rfl, by simp⟩
            · next hmode =>
              obtain ⟨cb, hcb, h⟩ := bind_ok.1 h
              obtain ⟨c, hc, h⟩ := bind_ok.1 h
              cases h
              subst hk
              refine ⟨by rw [hfk]; exact .some hv, by rw [hfk, SetMode.writes_some hmode], fun _ => ?_⟩
              rw [under_single, update_idem]
              exact hF.leaf_root hcb hc
        · next hln =>
          -- the edge leads to a fork
          cases hp with
          | leaf hv => exact absurd (hK.leaf hv) (by omega)
          | @fork m f₀ f₁ c1 c2 p h1 h2 hp =>
            obtain ⟨rest, hrefs⟩ := hK.fork hp
            obtain ⟨k, hkey, hdrop, htk⟩ := exists_next_bit hpre (by omega)
            have hm : n - label.length = m + 1 := by omega
            have hkl : k.length = m := by
              have := congrArg List.length hkey
              simp only [length_append, length_cons] at this
              omega
            simp only [hrefs, hdrop, htk, hm, Nat.add_sub_cancel, getElem?_cons_zero, getElem?_cons_succ] at h
            obtain ⟨sw, hsw⟩ : ∃ sw, key.getD label.length false = sw := ⟨_, rfl⟩
            rw [hsw] at h hkey
            rw [bind_ok] at h
            obtain ⟨⟨old, child, written⟩, hrec, h⟩ := h
            have hs := ih m (by omega) (side_root h1 h2 sw) hkl hrec
            have hfk : under label (split f₀ f₁) key = (if sw then f₁ else f₀) k := by
              rw [hkey, under_split_append]
            split at h
            · next hw =>
              cases h
              exact ⟨by rw [hfk]; exact hs.old, by rw [hfk, ← hs.written]; simpa using hw, by simp⟩
            · next hw =>
              have hw : written = true := by simpa using hw
              rw [bind_ok] at h
              obtain ⟨cb, hcb, h⟩ := h
              have hroot := hs.root hw
              cases sw with
              | false =>
                rw [if_neg Bool.false_ne_true, bind_ok] at h
                obtain ⟨c, hc, h⟩ := h
                cases h
                refine ⟨by rw [hfk]; exact hs.old, by rw [hfk, ← hs.written]; exact hw.symm, fun _ => ?_⟩
                rw [hkey, update_under_split]
                exact hF.fork_root hcb hn hroot h2 hc
              | true =>
                rw [if_pos rfl, bind_ok] at h
                obtain ⟨c, hc, h⟩ := h
                cases h
                refine ⟨by rw [hfk]; exact hs.old, by rw [hfk, ← hs.written]; exact hw.symm, fun _ => ?_⟩
                rw [hkey, update_under_split]
                exact hF.fork_root hcb hn h1 hroot hc

/-! ## Lookup -/

/-- Forks of the kind pass the validation of labels. -/
def Kind.Passes (K : Kind) (mode : Check) : Prop := ∀ {m : Nat} {c1 c2 : DataCell} {p : CellSlice}, K.Fork m c1 c2 p → mode.Passes p

theorem Payload.passes {K : Kind} {mode : Check} {m : Nat} {p : CellSlice} (hK : K.Fixed)
    (hpass : K.Passes mode) (hp : Payload K m g p) (hm : 0 < m) : mode.Passes p := by
  cases hp with
  | leaf hv => exact absurd (hK.leaf hv) (by omega)
  | fork _ _ hp => exact hpass hp

theorem dict_lookup_spec {K : Kind} {label_mode : Check} (hK : K.Fixed) (hpass : K.Passes label_mode) (n : Nat)
    {f : BitMap CellSlice} {c : DataCell} {key : List Bool} (hc : Root K n f (some c)) (hk : key.length = n) :
    ∃ r, dict_lookup label_mode (some c) key n = .ok r ∧ Option.Rel (K.Leaf 0) (f key) r := by
  induction n using Nat.strong_induction_on generalizing f c key with
  | _ n ih =>
  have htake : key.take n = key := take_of_length_le (by omega)
  obtain ⟨label, m, g, p, hn, rfl, hp, hnode⟩ := hc.exists_node
  obtain ⟨lp, hlp, hr⟩ := hnode.parse_ok fun hlt => hp.passes hK hpass (by omega)
  rw [dict_lookup.eq_def]
  simp only [hlp, ok_bind, htake, hr.l_bits, hr.prefetch_ref]
  by_cases hpre : label <+: key
  · have hisp : (!lp.is_prefix_of key) = false := by simpa using (hr.is_prefix_of key).2 hpre
    rw [hisp, if_neg Bool.false_ne_true]
    by_cases hle : n ≤ label.length
    · obtain rfl : label = key := hpre.eq_of_length (by omega)
      obtain rfl : m = 0 := by omega
      rw [dif_pos hle, if_neg (by omega), hr.skip_label]
      cases hp with
      | leaf hv =>
        rw [under_single, update_self]
        exact ⟨_, rfl, .some hv⟩
    · rw [dif_neg hle]
      cases hp with
      | leaf hv => exact absurd (hK.leaf hv) (by omega)
      | @fork m f₀ f₁ c1 c2 p h1 h2 hp =>
        obtain ⟨rest, hrefs⟩ := hK.fork hp
        obtain ⟨k, hkey, hdrop, -⟩ := exists_next_bit hpre (by omega)
        have hkl : k.length = m := by
          have := congrArg List.length hkey
          simp only [length_append, length_cons] at this
          omega
        obtain ⟨sw, hsw⟩ : ∃ sw, key.getD label.length false = sw := ⟨_, rfl⟩
        rw [hsw] at hkey
        rw [hrefs, hdrop, hsw, show n - label.length - 1 = m by omega, hkey, under_append, split_cons]
        cases sw with
        | false => exact ih m (by omega) h1 hkl
        | true => exact ih m (by omega) h2 hkl
  · have hisp : (!lp.is_prefix_of key) = true := by
      rw [Bool.not_eq_true', ← Bool.not_eq_true]
      exact fun he => hpre ((hr.is_prefix_of key).1 he)
    rw [hisp, if_pos rfl]
    exact ⟨none, rfl, by rw [under, if_neg hpre]; exact .none⟩

/-! ## Deletion -/

/-- What a deletion returns for the map: nothing when the key is not there. -/
structure DeleteResult (K : Kind) (n : Nat) (f : BitMap CellSlice) (key : List Bool)
    (r : Option CellSlice × Option DataCell) : Prop where
  old : Option.Rel (K.Leaf 0) (f key) r.1
  root : r.1.isSome → Root K n (update f key none) r.2

theorem merge_root {K : Kind} {label bits : List Bool} {b : Bool} {m n : Nat} {c c' : DataCell}
    {mode : Check} {lp : LabelParser} {error : String} (h : Root K m g (some c)) (hn : n = label.length + (m + 1))
    (hlp : LabelParser.parse c m mode = .ok lp) (hbits : bits = label ++ b :: lp.extract_label.1)
    (hc : relabel_edge bits n lp.extract_label.2.remainder error = .ok c') :
    Root K n (under label (under [b] g)) (some c') := by
  obtain ⟨q, j, g', p, rfl, rfl, hp, hnode⟩ := h.exists_node
  obtain ⟨hq, hrem⟩ := (hnode.parse hlp).extract_label
  rw [under_under, under_under]
  rw [hbits, hq, hrem] at hc
  refine .mk hp ?_ (by simpa using relabel_edge_node hc)
  simp only [length_append, length_cons, length_nil]
  omega

theorem Virtual.Follows.fork_root {K : Kind} {V : Virtual} (hV : V.Follows K) {label : List Bool} {n m : Nat}
    {cb : CellBuilder} {c1 c2 c : DataCell} {f g : BitMap CellSlice} (hcb : append_dict_label {} label n = .ok cb)
    (hn : n = label.length + (m + 1)) (h1 : Root K m f (some c1)) (h2 : Root K m g (some c2))
    (hc : V.finish_create_fork cb c1 c2 (m + 1) = .ok c) : Root K n (under label (split f g)) (some c) := by
  obtain ⟨p, hp, hc⟩ := hV.fork hc
  exact .mk (.fork h1 h2 hp) hn (.of_label hcb hc)

theorem dict_lookup_delete_spec {K : Kind} {V : Virtual} (hV : V.Follows K) (hK : K.Fixed) (n : Nat)
    {f : BitMap CellSlice} {key : List Bool} {res : Option CellSlice × Option DataCell}
    (hd : Root K n f dict) (hk : key.length = n) (h : dict_lookup_delete V dict key n = .ok res) :
    DeleteResult K n f key res := by
  induction n using Nat.strong_induction_on generalizing f dict key res with
  | _ n ih =>
  have htake : key.take n = key := take_of_length_le (by omega)
  rw [dict_lookup_delete.eq_def] at h
  cases dict with
  | none =>
    obtain rfl : f = empty := hd
    cases h
    exact ⟨.none, by simp⟩
  | some cell =>
    obtain ⟨label, m, g, p, hn, rfl, hp, hnode⟩ := hd.exists_node
    dsimp only at h
    rw [bind_ok] at h
    obtain ⟨lp, hlp, h⟩ := h
    have hr := hnode.parse hlp
    simp only [htake, hr.common_prefix_len, hr.l_bits, hr.prefetch_ref] at h
    split at h
    · cases h
    · split at h
      · next hlt =>
        obtain ⟨q, x, r, k, hq, rfl, rfl⟩ := same_upto_split hlt (by omega)
        cases h
        exact ⟨by rw [under_off]; exact .none, by simp⟩
      · next hge =>
        have hpre := prefix_of_same_upto hge
        split at h
        · next hln =>
          obtain rfl : label = key := hpre.eq_of_length (by omega)
          obtain rfl : m = 0 := by omega
          cases h
          cases hp with
          | leaf hv =>
            rw [hr.skip_label, under_single]
            refine ⟨by rw [update_self]; exact .some hv, fun _ => ?_⟩
            rw [update_idem]
            exact update_eq_self label empty
        · next hln =>
          cases hp with
          | leaf hv => exact absurd (hK.leaf hv) (by omega)
          | @fork m f₀ f₁ c1 c2 p h1 h2 hp =>
            obtain ⟨rest, hrefs⟩ := hK.fork hp
            obtain ⟨k, hkey, hdrop, htk⟩ := exists_next_bit hpre (by omega)
            have hm : n - label.length = m + 1 := by omega
            have hkl : k.length = m := by
              have := congrArg List.length hkey
              simp only [length_append, length_cons] at this
              omega
            simp only [hrefs, hdrop, htk, hm, Nat.add_sub_cancel, getElem?_cons_zero, getElem?_cons_succ] at h
            obtain ⟨sw, hsw⟩ : ∃ sw, key.getD label.length false = sw := ⟨_, rfl⟩
            rw [hsw] at h hkey
            rw [bind_ok] at h
            obtain ⟨⟨old, child⟩, hrec, h⟩ := h
            have hs := ih m (by omega) (side_root h1 h2 sw) hkl hrec
            have hfk : under label (split f₀ f₁) key = (if sw then f₁ else f₀) k := by
              rw [hkey, under_split_append]
            have hold := hs.old
            rw [← hfk] at hold
            cases old with
            | none =>
              cases h
              exact ⟨hold, by simp⟩
            | some old =>
              have hroot := hs.root rfl
              cases sw with
              | false =>
                cases child with
                | some child =>
                  obtain ⟨cb, hcb, h⟩ := bind_ok.1 h
                  obtain ⟨c, hc, h⟩ := bind_ok.1 h
                  cases h
                  refine ⟨hold, fun _ => ?_⟩
                  rw [hkey, update_under_split]
                  exact hV.fork_root hcb hn hroot h2 hc
                | none =>
                  obtain ⟨lp2, hlp2, h⟩ := bind_ok.1 h
                  split at h
                  · cases h
                  · obtain ⟨c, hc, h⟩ := bind_ok.1 h
                    cases h
                    refine ⟨hold, fun _ => ?_⟩
                    rw [hkey, update_under_split, if_neg Bool.false_ne_true, show update f₀ k none = empty from hroot,
                      split_empty_left]
                    exact merge_root h2 hn hlp2 (by simp) hc
              | true =>
                cases child with
                | some child =>
                  obtain ⟨cb, hcb, h⟩ := bind_ok.1 h
                  obtain ⟨c, hc, h⟩ := bind_ok.1 h
                  cases h
                  refine ⟨hold, fun _ => ?_⟩
                  rw [hkey, update_under_split]
                  exact hV.fork_root hcb hn h1 hroot hc
                | none =>
                  obtain ⟨lp2, hlp2, h⟩ := bind_ok.1 h
                  split at h
                  · cases h
                  · obtain ⟨c, hc, h⟩ := bind_ok.1 h
                    cases h
                    refine ⟨hold, fun _ => ?_⟩
                    rw [hkey, update_under_split, if_pos rfl, show update f₁ k none = empty from hroot,
                      split_empty_right]
                    exact merge_root h1 hn hlp2 (by simp) hc

/-! ## Dictionaries -/

/-- The layout of a `Dictionary`: a leaf holds the value, a fork its children. -/
def Kind.plain : Kind where
  Leaf m v p := m = 0 ∧ p = v
  Fork _ c1 c2 p := p = ⟨[], [c1, c2]⟩

theorem Kind.plain_fixed : Kind.plain.Fixed := ⟨And.left, fun h => ⟨[], by rw [h]⟩⟩

theorem Kind.plain_canonical : Kind.plain.Canonical := ⟨fun h h' => h.2.trans h'.2.symm, fun h h' => h.trans h'.symm⟩

theorem Kind.plain_passes : Kind.plain.Passes .chk_all := fun h => by rw [h]; exact ⟨rfl, rfl⟩

theorem plain_rel {o o' : Option CellSlice} (h : Option.Rel (Kind.plain.Leaf 0) o o') : o' = o := by
  cases h with
  | some h => rw [h.2]
  | none => rfl

/-- The function stores the value after what is there. -/
def Stores (store_val : StoreValue) (v : CellSlice) : Prop :=
  ∀ cb cb', store_val cb = some cb' → cb' = ⟨cb.bits ++ v.bits, cb.refs ++ v.refs⟩

theorem store_slice_stores (v : CellSlice) : Stores (Dictionary.store_slice v) v := fun _ _ h => append_cellslice_bool_some h

theorem store_cell_stores (c : DataCell) : Stores (Dictionary.store_cell c) ⟨[], [c]⟩ := fun cb cb' h => by
  rw [store_ref_bool_some h, append_nil]

theorem store_builder_stores (b : CellBuilder) : Stores (Dictionary.store_builder b) ⟨b.bits, b.refs⟩ := fun cb cb' h => by
  unfold Dictionary.store_builder at h
  split at h
  · cases h
    rfl
  · cases h

theorem store_ref_null_ok {cb cb' : CellBuilder} {c : Option DataCell} (h : store_ref_null cb c = .ok cb') :
    ∃ c', c = some c' ∧ cb' = { cb with refs := cb.refs ++ [c'] } := by
  cases c with
  | none => cases h
  | some c => exact ⟨c, rfl, store_ref_ok h⟩

theorem Finish.plain_follows {store_val : StoreValue} {v : CellSlice} (hs : Stores store_val v) :
    (Finish.plain store_val).Follows .plain v where
  leaf {cb c} h := by
    simp only [Finish.plain] at h
    split at h
    · cases h
    · next hcb =>
      rw [hs _ _ hcb] at h
      exact ⟨v, ⟨rfl, rfl⟩, h⟩
  fork {cb c1 c2 m c} h := by
    obtain ⟨cb₁, h₁, h⟩ := bind_ok.1 h
    obtain ⟨cb₂, h₂, h⟩ := bind_ok.1 h
    obtain ⟨c1, rfl, rfl⟩ := store_ref_null_ok h₁
    obtain ⟨c2, rfl, rfl⟩ := store_ref_null_ok h₂
    exact ⟨c1, c2, _, rfl, rfl, rfl, by simpa using h⟩

theorem Virtual.fixed_follows : Virtual.fixed.Follows .plain where
  fork {cb c1 c2 m c} h := by
    simp only [Virtual.fixed] at h
    split at h
    · cases h
    · next hcb =>
      obtain ⟨cb₁, h₁, h₂⟩ := Option.bind_eq_some_iff.1 hcb
      rw [store_ref_bool_some h₂, store_ref_bool_some h₁] at h
      exact ⟨_, rfl, by simpa using h⟩

/-- The dictionary holds the map. -/
structure Dictionary.Holds (d : Dictionary) (f : BitMap CellSlice) : Prop where
  root : Root .plain d.key_bits f d.root_cell
  bits : d.key_bits ≤ max_key_bits

section Holds
variable {d d' : Dictionary} {f : BitMap CellSlice} {key : List Bool} {v : CellSlice} {mode : SetMode}

theorem Dictionary.Holds.force_validate (h : d.Holds f) : d.force_validate = .ok () := by
  rw [Dictionary.force_validate, if_neg (by have := h.bits; omega)]

/-- What a mode makes of the map. -/
def SetMode.apply (mode : SetMode) (f : BitMap CellSlice) (key : List Bool) (v : CellSlice) : BitMap CellSlice :=
  if mode.writes (f key) then update f key (some v) else f

theorem SetResult.holds {r : Option CellSlice × Option DataCell × Bool} (hd : d.Holds f)
    (h : SetResult .plain d.key_bits f key v mode r) :
    (if r.2.2 then { d with root_cell := r.2.1 } else d : Dictionary).Holds (mode.apply f key v) := by
  rw [SetMode.apply, ← h.written]
  split
  · next hw => exact ⟨h.root hw, hd.bits⟩
  · exact hd

variable {store_val : StoreValue} {o : Option CellSlice}

theorem Dictionary.Holds.set_gen {b : Bool} (hd : d.Holds f) (hs : Stores store_val v)
    (hk : key.length = d.key_bits) (h : d.set_gen key store_val mode = .ok (d', b)) :
    d'.Holds (mode.apply f key v) ∧ b = mode.writes (f key) ∧ d'.key_bits = d.key_bits := by
  unfold Dictionary.set_gen at h
  rw [hd.force_validate, ok_bind, if_neg (not_not.2 hk)] at h
  obtain ⟨⟨c, written⟩, hset, h⟩ := bind_ok.1 h
  obtain ⟨⟨old, c, written⟩, hset, e⟩ := bind_ok.1 hset
  cases e
  cases h
  have hr := dict_set_with_spec (Finish.plain_follows hs) Kind.plain_fixed mode _ hd.root hk (hk ▸ hset)
  exact ⟨hr.holds hd, hr.written, by split <;> rfl⟩

theorem Dictionary.Holds.lookup_set_gen (hd : d.Holds f)
    (hs : Stores store_val v) (hk : key.length = d.key_bits) (h : d.lookup_set_gen key store_val mode = .ok (d', o)) :
    d'.Holds (mode.apply f key v) ∧ o = f key ∧ d'.key_bits = d.key_bits := by
  unfold Dictionary.lookup_set_gen at h
  rw [hd.force_validate, ok_bind, if_neg (not_not.2 hk)] at h
  obtain ⟨⟨old, c, written⟩, hset, h⟩ := bind_ok.1 h
  cases h
  have hr := dict_set_with_spec (Finish.plain_follows hs) Kind.plain_fixed mode _ hd.root hk (hk ▸ hset)
  exact ⟨hr.holds hd, plain_rel hr.old, by split <;> rfl⟩

theorem Dictionary.Holds.lookup_delete (hd : d.Holds f) (hk : key.length = d.key_bits)
    (h : d.lookup_delete key = .ok (d', o)) :
    d'.Holds (update f key none) ∧ o = f key ∧ d'.key_bits = d.key_bits := by
  unfold Dictionary.lookup_delete at h
  rw [hd.force_validate, ok_bind, if_neg (not_not.2 hk)] at h
  obtain ⟨⟨old, c⟩, hdel, h⟩ := bind_ok.1 h
  cases h
  have hr := dict_lookup_delete_spec Virtual.fixed_follows Kind.plain_fixed _ hd.root hk (hk ▸ hdel)
  have hold : o = f key := plain_rel hr.old
  refine ⟨?_, hold, by split <;> rfl⟩
  split
  · next hsome => exact ⟨hr.root hsome, hd.bits⟩
  · next hnone =>
    have hf : f key = none := by rw [← hold]; simpa using hnone
    rw [← hf, update_eq_self]
    exact hd

theorem Dictionary.Holds.lookup (hd : d.Holds f) (hk : key.length = d.key_bits) : d.lookup key = .ok (f key) := by
  unfold Dictionary.lookup
  rw [hd.force_validate, ok_bind]
  have hroot := hd.root
  cases hc : d.root_cell with
  | none =>
    rw [hc] at hroot
    obtain rfl : f = empty := hroot
    rw [if_pos (.inr rfl)]
    rfl
  | some c =>
    rw [hc] at hroot
    rw [if_neg (by simp [hk]), hk]
    obtain ⟨r, hr, hrel⟩ := dict_lookup_spec Kind.plain_fixed Kind.plain_passes _ hroot hk
    rw [hr, plain_rel hrel]

end Holds

/-! ## Runs -/

inductive Op where
  | set (key : List Bool) (value : CellSlice) (mode : SetMode)
  | set_ref (key : List Bool) (val_ref : DataCell) (mode : SetMode)
  | set_builder (key : List Bool) (val_b : CellBuilder) (mode : SetMode)
  | lookup_set (key : List Bool) (value : CellSlice) (mode : SetMode)
  | lookup_delete (key : List Bool)

/-- What an operation returns. -/
inductive Ret where
  | flag (b : Bool)
  | value (o : Option CellSlice)

namespace Op

def key : Op → List Bool
  | set k _ _ | set_ref k _ _ | set_builder k _ _ | lookup_set k _ _ | lookup_delete k => k

def exec (d : Dictionary) : Op → Except Exc (Dictionary × Ret)
  | set k v mode => (fun r => (r.1, .flag r.2)) <$> d.set k v mode
  | set_ref k c mode => (fun r => (r.1, .flag r.2)) <$> d.set_ref k c mode
  | set_builder k b mode => (fun r => (r.1, .flag r.2)) <$> d.set_builder k b mode
  | lookup_set k v mode => (fun r => (r.1, .value r.2)) <$> d.lookup_set k v mode
  | lookup_delete k => (fun r => (r.1, .value r.2)) <$> d.lookup_delete k

/-- The operation on a map. -/
def spec (f : BitMap CellSlice) : Op → BitMap CellSlice × Ret
  | set k v mode => (mode.apply f k v, .flag (mode.writes (f k)))
  | set_ref k c mode => (mode.apply f k ⟨[], [c]⟩, .flag (mode.writes (f k)))
  | set_builder k b mode => (mode.apply f k ⟨b.bits, b.refs⟩, .flag (mode.writes (f k)))
  | lookup_set k v mode => (mode.apply f k v, .value (f k))
  | lookup_delete k => (update f k none, .value (f k))

/-- A run of operations, none of which throws, and what they return. -/
def execAll (d : Dictionary) : List Op → Except Exc (Dictionary × List Ret)
  | [] => .ok (d, [])
  | op :: ops => do
    let (d, r) ← op.exec d
    let (d, rs) ← execAll d ops
    .ok (d, r :: rs)

def specAll (f : BitMap CellSlice) : List Op → BitMap CellSlice × List Ret
  | [] => (f, [])
  | op :: ops => ((specAll (op.spec f).1 ops).1, (op.spec f).2 :: (specAll (op.spec f).1 ops).2)

end Op

theorem exec_holds {d d' : Dictionary} {f : BitMap CellSlice} {op : Op} {r : Ret} (hd : d.Holds f)
    (hk : op.key.length = d.key_bits) (h : op.exec d = .ok (d', r)) :
    d'.Holds (op.spec f).1 ∧ r = (op.spec f).2 ∧ d'.key_bits = d.key_bits := by
  cases op with
  | set k v mode =>
    obtain ⟨⟨d₁, b⟩, hop, e⟩ := map_ok h
    cases e
    obtain ⟨h1, h2, h3⟩ := hd.set_gen (store_slice_stores v) hk hop
    exact ⟨h1, congrArg _ h2, h3⟩
  | set_ref k c mode =>
    obtain ⟨⟨d₁, b⟩, hop, e⟩ := map_ok h
    cases e
    obtain ⟨h1, h2, h3⟩ := hd.set_gen (store_cell_stores c) hk hop
    exact ⟨h1, congrArg _ h2, h3⟩
  | set_builder k b mode =>
    obtain ⟨⟨d₁, b⟩, hop, e⟩ := map_ok h
    cases e
    obtain ⟨h1, h2, h3⟩ := hd.set_gen (store_builder_stores _) hk hop
    exact ⟨h1, congrArg _ h2, h3⟩
  | lookup_set k v mode =>
    obtain ⟨⟨d₁, b⟩, hop, e⟩ := map_ok h
    cases e
    obtain ⟨h1, h2, h3⟩ := hd.lookup_set_gen (store_slice_stores v) hk hop
    exact ⟨h1, congrArg _ h2, h3⟩
  | lookup_delete k =>
    obtain ⟨⟨d₁, b⟩, hop, e⟩ := map_ok h
    cases e
    obtain ⟨h1, h2, h3⟩ := hd.lookup_delete hk hop
    exact ⟨h1, congrArg _ h2, h3⟩

theorem execAll_holds {d d' : Dictionary} {f : BitMap CellSlice} {ops : List Op} {rs : List Ret} (hd : d.Holds f)
    (hk : ∀ op ∈ ops, op.key.length = d.key_bits) (h : Op.execAll d ops = .ok (d', rs)) :
    d'.Holds (Op.specAll f ops).1 ∧ rs = (Op.specAll f ops).2 ∧ d'.key_bits = d.key_bits := by
  induction ops generalizing d f rs with
  | nil =>
    cases h
    exact ⟨hd, rfl, rfl⟩
  | cons op ops ih =>
    obtain ⟨⟨d₁, r⟩, h₁, h⟩ := bind_ok.1 h
    obtain ⟨⟨d₂, rs⟩, h₂, h⟩ := bind_ok.1 h
    cases h
    obtain ⟨hd₁, hr, hbits⟩ := exec_holds hd (hk op (by simp)) h₁
    obtain ⟨hd₂, hrs, hbits₂⟩ := ih hd₁ (fun o ho => hbits ▸ hk o (by simp [ho])) h₂
    exact ⟨hd₂, by rw [hr, hrs]; rfl, hbits₂.trans hbits⟩

theorem exists_execAll {n : Nat} (hn : n ≤ max_key_bits) {ops : List Op} (hk : ∀ op ∈ ops, op.key.length = n)
    (h : (Op.execAll ⟨none, n⟩ ops).toOption.isSome = true) :
    ∃ d rs, Op.execAll ⟨none, n⟩ ops = .ok (d, rs) ∧ Dictionary.Holds ⟨d.root_cell, n⟩ (Op.specAll empty ops).1 := by
  obtain ⟨⟨d, rs⟩, h⟩ := exists_ok_of_isSome h
  obtain ⟨hd, -, rfl⟩ := execAll_holds (d := ⟨none, n⟩) (f := empty) ⟨rfl, hn⟩ hk h
  exact ⟨d, rs, h, hd⟩

/-- After any run of operations on an empty dictionary, none of which throws, every
lookup finds what the map holds, and every operation has returned what it returns
on the map. -/
theorem dictionary_refines_map (n : Nat) (hn : n ≤ max_key_bits) (ops : List Op) (hk : ∀ op ∈ ops, op.key.length = n)
    (d : Dictionary) (rs : List Ret) (h : Op.execAll ⟨none, n⟩ ops = .ok (d, rs)) :
    rs = (Op.specAll empty ops).2 ∧ ∀ key, key.length = n → d.lookup key = .ok ((Op.specAll empty ops).1 key) := by
  have hd : Dictionary.Holds ⟨none, n⟩ empty := ⟨rfl, hn⟩
  obtain ⟨h1, h2, h3⟩ := execAll_holds hd hk h
  exact ⟨h2, fun key hkey => h1.lookup (hkey.trans h3.symm)⟩

/-- Five operations on keys of three bits; the last one finds the key gone. -/
theorem dictionary_refines_map_five_ops :
    let ops : List Op := [.set [false, true, true] ⟨[true], []⟩ .Set, .set_builder [false, false, true] ⟨[false], []⟩ .Add,
      .lookup_set [true, true, true] ⟨[], []⟩ .Replace, .lookup_delete [false, true, true],
      .lookup_delete [false, true, true]]
    ∃ d, Op.execAll ⟨none, 3⟩ ops = .ok (d, [.flag true, .flag true, .value none, .value (some ⟨[true], []⟩), .value none]) ∧
      d.lookup [false, false, true] = .ok (some ⟨[false], []⟩) ∧ d.lookup [false, true, true] = .ok none := by
  intro ops
  have hok : (Op.execAll ⟨none, 3⟩ ops).toOption.isSome = true := by decide +kernel
  obtain ⟨⟨d, rs⟩, h⟩ := exists_ok_of_isSome hok
  obtain ⟨rfl, hl⟩ := dictionary_refines_map 3 (by decide) ops (by decide) d rs h
  exact ⟨d, h, hl _ rfl, hl _ rfl⟩

end Ton.Dict
