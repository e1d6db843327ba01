import Ton.Dict.Total
import Ton.Dict.Reading
/-!
# Adding small values

Insertion into a dictionary whose values take a bounded number of bits and no references,
as in `Total`, but under keys of up to 128 bits: it does not throw.
-/

namespace Ton.Dict
open BigEndian CellTraits CellBuilder Result BitMap List Function

def max_entry_key : Nat := 128

def SmallValue (v : CellSlice) : Prop := v.refs = [] ∧ v.bits.length ≤ max_small_value

def SmallMap (f : BitMap CellSlice) : Prop := ∀ k v, f k = some v → SmallValue v

section
variable {f g : BitMap CellSlice} {label key : List Bool} {n m d : Nat} {c c1 c2 : DataCell} {p v : CellSlice}

theorem SmallMap.of_under (h : SmallMap (under label g)) : SmallMap g := fun k v hk =>
  h (label ++ k) v (by rw [under_append]; exact hk)

theorem SmallMap.under (h : SmallMap g) : SmallMap (under label g) := by
  intro k v hk
  obtain ⟨k', rfl, hk'⟩ := under_some hk
  exact h k' v hk'

theorem SmallMap.of_split (h : SmallMap (split f g)) : SmallMap f ∧ SmallMap g :=
  ⟨fun k v hk => h (false :: k) v hk, fun k v hk => h (true :: k) v hk⟩

theorem SmallMap.update (h : SmallMap f) (hv : SmallValue v) : SmallMap (Function.update f key (some v)) := by
  intro k w hk
  by_cases heq : k = key
  · subst heq
    rw [update_self] at hk
    cases hk
    exact hv
  · rw [update_of_ne heq] at hk
    exact h k w hk

theorem smallMap_empty : SmallMap empty := fun _ _ h => by cases h

section
variable (hl : label.length ≤ n) (hn : n ≤ max_entry_key)
include hl hn

theorem labelBits_entry_le : (labelBits label n).length ≤ 2 * max_entry_key + 2 := by
  simp only [max_entry_key] at hn ⊢
  have hmax := labelBits_length_max label hl (by omega)
  omega

theorem label_fits : append_dict_label {} label n = .ok ⟨labelBits label n, []⟩ := by
  have hlen := labelBits_entry_le hl hn
  simp only [max_entry_key] at hn hlen
  rw [append_dict_label_of_fits hl (by omega) (by simp only [max_bits, length_nil]; omega)]
  rfl

theorem finalize_entry (hb : p.bits.length ≤ max_small_value)
    (hr : p.refs.length ≤ 2) (hf : ∀ r ∈ p.refs, Flat d r) (hd : d ≤ max_entry_key) :
    ∃ c, finalize ⟨labelBits label n ++ p.bits, p.refs⟩ false = .ok c := by
  have hlen := labelBits_entry_le hl hn
  simp only [max_entry_key, max_small_value] at hlen hb hd
  exact finalize_flat ⟨labelBits label n ++ p.bits, p.refs⟩ hf (by simp only [max_depth]; omega)
    (by simp only [max_bits, length_append]; omega) (by simp only [max_refs]; omega)

end

/-! ## The cells of such a dictionary -/

theorem Root.flat (h : Root .plain n f (some c)) (hs : SmallMap f) (hn : n ≤ max_entry_key) : Flat n c := by
  induction n using Nat.strong_induction_on generalizing f c with
  | _ n ih =>
  obtain ⟨label, m, g, p, rfl, rfl, hp, hnode⟩ := h.exists_node
  have hcreate := finalize_create hnode.cell
  have hg := hs.of_under
  cases hp with
  | leaf hv =>
    obtain ⟨rfl, rfl⟩ := hv
    have hr := (hg [] _ (single_nil _)).1
    have hflat := Flat.of_create (d := 0) (by rw [hr]; simp) (by decide) hcreate
    rw [hr] at hflat
    exact ⟨hflat.1, hflat.2.trans (Nat.zero_le _)⟩
  | @fork m f₀ f₁ c1 c2 p h1 h2 hp =>
    obtain rfl : p = ⟨[], [c1, c2]⟩ := hp
    simp only [max_entry_key] at hn ih
    have hf : ∀ r ∈ [c1, c2], Flat m r := by
      intro r hr
      rcases mem_pair.1 hr with rfl | rfl
      · exact ih m (by omega) h1 hg.of_split.1 (by omega)
      · exact ih m (by omega) h2 hg.of_split.2 (by omega)
    have hflat := Flat.of_create hf (by simp only [max_depth]; omega) hcreate
    exact ⟨hflat.1, hflat.2.trans (by simp)⟩

theorem Payload.flat (h : Payload .plain m g p) (hs : SmallMap g) (hm : m ≤ max_entry_key) :
    p.bits.length ≤ max_small_value ∧ p.refs.length ≤ 2 ∧ ∀ r ∈ p.refs, Flat m r := by
  cases h with
  | leaf hv =>
    obtain ⟨rfl, rfl⟩ := hv
    obtain ⟨hr, hb⟩ := hs [] _ (single_nil _)
    rw [hr]
    exact ⟨hb, by simp, by simp⟩
  | @fork m f₀ f₁ c1 c2 p h1 h2 hp =>
    obtain rfl : p = ⟨[], [c1, c2]⟩ := hp
    have hm' : m ≤ max_entry_key := (Nat.le_succ m).trans hm
    refine ⟨Nat.zero_le _, le_rfl, fun r hr => ?_⟩
    rcases mem_pair.1 hr with rfl | rfl
    · exact ⟨(h1.flat hs.of_split.1 hm').1, (h1.flat hs.of_split.1 hm').2.trans (Nat.le_succ m)⟩
    · exact ⟨(h2.flat hs.of_split.2 hm').1, (h2.flat hs.of_split.2 hm').2.trans (Nat.le_succ m)⟩

/-! ## What is written fits -/

section
variable (hl : label.length ≤ n) (hn : n ≤ max_entry_key) (hb : p.bits.length ≤ max_small_value) (hr : p.refs.length ≤ 2)
include hl hn hb hr

theorem append_entry_fits :
    append_cellslice_bool ⟨labelBits label n, []⟩ p = some ⟨labelBits label n ++ p.bits, p.refs⟩ := by
  have hlen := labelBits_entry_le hl hn
  simp only [max_entry_key, max_small_value] at hlen hb
  exact append_cellslice_fits (by simp only [max_bits]; omega) (by simp [max_refs]; omega)

theorem relabel_entry_fits (hf : ∀ r ∈ p.refs, Flat d r) (hd : d ≤ max_entry_key) (e : String) :
    ∃ c, relabel_edge label n p e = .ok c := by
  obtain ⟨c, hc⟩ := finalize_entry hl hn hb hr hf hd
  refine ⟨c, ?_⟩
  rw [relabel_edge, label_fits hl hn, ok_bind, append_entry_fits hl hn hb hr]
  exact hc

end

theorem lower_edge_fits {lp : LabelParser} {q r : List Bool} {x : Bool} (hp : lp.Reads (q ++ x :: r) p) (hl : r.length ≤ n)
    (hn : n ≤ max_entry_key) (hb : p.bits.length ≤ max_small_value) (hr : p.refs.length ≤ 2) (hf : ∀ r ∈ p.refs, Flat d r)
    (hd : d ≤ max_entry_key) (e : String) : ∃ c, lower_edge lp q.length n e = .ok c := by
  have ht : lp.l_bits - q.length - 1 = r.length := by
    rw [hp.l_bits, length_append, length_cons]
    omega
  unfold lower_edge
  rw [ht]
  rcases hp.cases with ⟨h0, -, hrem⟩ | ⟨h0, hsame, -, hrem⟩
  · have hadv : lp.remainder.advance (q.length + 1) = ⟨r ++ p.bits, p.refs⟩ := by
      rw [hrem, append_assoc, cons_append, ← singleton_append, ← append_assoc]
      exact advance_append _ _ _ _ (by simp)
    rw [if_neg (not_not.2 h0), hadv]
    dsimp only
    rw [advance_append _ _ _ _ rfl, take_left]
    exact relabel_entry_fits hl hn hb hr hf hd e
  · have hsame : (List.replicate r.length lp.same_bit).length ≤ n := by rwa [length_replicate]
    have hlen := labelBits_entry_le hsame hn
    obtain ⟨c, hc⟩ := finalize_entry hsame hn hb hr hf hd
    refine ⟨c, ?_⟩
    simp only [max_entry_key] at hn hlen
    rw [if_pos h0, hrem, append_dict_label_same_of_fits hl (by omega) (by simp only [max_bits, length_nil]; omega), ok_bind]
    rw [nil_append, append_entry_fits (by rwa [length_replicate]) (by simpa [max_entry_key] using hn) hb hr]
    exact hc

end

/-- The builder holds a small value. -/
def SmallBuilder (b : CellBuilder) : Prop := SmallValue ⟨b.bits, b.refs⟩

section
variable {b : CellBuilder} {f g : BitMap CellSlice} {label key : List Bool} {n m : Nat} {mode : SetMode}

theorem leaf_entry (hb : SmallBuilder b) (hl : label.length ≤ n) (hn : n ≤ max_entry_key) :
    ∃ c, (Finish.plain (Dictionary.store_builder b)).leaf ⟨labelBits label n, []⟩ = .ok c := by
  obtain ⟨hr, hbits⟩ := hb
  dsimp only at hr hbits
  have hlen := labelBits_entry_le hl hn
  obtain ⟨c, hc⟩ := finalize_entry (p := ⟨b.bits, b.refs⟩) (d := 0) hl hn hbits (by rw [hr]; simp) (by rw [hr]; simp) (Nat.zero_le _)
  refine ⟨c, ?_⟩
  simp only [max_entry_key, max_small_value] at hlen hbits
  have hroom : can_extend_by ⟨labelBits label n, []⟩ b.bits.length b.refs.length = true := by
    rw [hr]
    have hfit : b.bits.length ≤ max_bits - (labelBits label n).length := by
      simp only [max_bits]
      omega
    simp [can_extend_by, hfit]
  simp only [Finish.plain, Dictionary.store_builder, hroom, if_true, nil_append]
  exact hc

theorem fork_entry {c1 c2 : DataCell} (h1 : Flat m c1) (h2 : Flat m c2) (hl : label.length ≤ n) (hn : n ≤ max_entry_key)
    (hm : m ≤ max_entry_key) (k : Nat) :
    ∃ c, (Finish.plain (Dictionary.store_builder b)).fork ⟨labelBits label n, []⟩ (some c1) (some c2) k = .ok c := by
  obtain ⟨c, hc⟩ := finalize_entry (p := ⟨[], [c1, c2]⟩) (d := m) hl hn (Nat.zero_le _) le_rfl
    (fun r hr => by rcases mem_pair.1 hr with rfl | rfl <;> assumption) hm
  rw [append_nil] at hc
  exact ⟨c, hc⟩

theorem leaf_flat {c : DataCell} {k : List Bool} (hb : SmallBuilder b) (hk : k.length ≤ max_entry_key)
    (hc : (Finish.plain (Dictionary.store_builder b)).leaf ⟨labelBits k k.length, []⟩ = .ok c) : Flat k.length c := by
  have hroot : Root .plain k.length (update empty k (some ⟨b.bits, b.refs⟩)) (some c) :=
    (Finish.plain_follows (store_builder_stores b)).leaf_root (label_fits le_rfl hk) hc
  apply hroot.flat
  · exact smallMap_empty.update hb
  · exact hk

theorem exists_written {res : Option CellSlice × Option DataCell × Bool} {v : CellSlice} (h : SetResult .plain n f key v mode res)
    (hw : res.2.2 = true) : ∃ c, res.2.1 = some c ∧ Root .plain n (update f key (some v)) (some c) := by
  have hroot := h.root hw
  cases hc : res.2.1 with
  | none =>
    rw [hc] at hroot
    have hkey := congrFun (show update f key (some v) = empty from hroot) key
    rw [update_self] at hkey
    cases hkey
  | some c =>
    rw [hc] at hroot
    exact ⟨c, rfl, hroot⟩

theorem dict_set_total (hb : SmallBuilder b) (mode : SetMode) (n : Nat) {dict : Option DataCell} (hd : Root .plain n f dict)
    (hs : SmallMap f) (hk : key.length = n) (hn : n ≤ max_entry_key) :
    ∃ res, dict_set_with (.plain (Dictionary.store_builder b)) dict key n mode = .ok res := by
  -- on the bits below a node: the half that the key goes to is smaller
  induction n using Nat.strong_induction_on generalizing f dict key with
  | _ n ih =>
  have htake : key.take n = key := take_of_length_le (by omega)
  rw [dict_set_with.eq_def]
  cases dict with
  | none =>
    dsimp only
    split
    · exact ⟨_, rfl⟩
    · obtain ⟨c, hc⟩ := leaf_entry hb hk.le hn
      rw [htake, label_fits hk.le hn, ok_bind, hc]
      exact ⟨_, rfl⟩
  | some cell =>
    obtain ⟨label, m, g, p, hnm, rfl, hp, hnode⟩ := hd.exists_node
    obtain ⟨lp, hlp, hr⟩ := hnode.parse_ok fun hlt => hp.passes Kind.plain_fixed Kind.plain_passes (by omega)
    have hle := same_upto_le_left label key
    have hm : m ≤ max_entry_key := by omega
    obtain ⟨hpb, hpr, hpf⟩ := hp.flat hs.of_under hm
    have hparse : LabelParser.parse cell n (Finish.plain (Dictionary.store_builder b)).label_mode = .ok lp := hlp
    simp only [hparse, ok_bind, htake, hr.common_prefix_len, hr.l_bits, hr.prefetch_ref]
    rw [dif_neg (not_not.2 ⟨hle, by omega⟩)]
    by_cases hlt : same_upto label key < label.length
    · rw [if_pos hlt]
      split
      · exact ⟨_, rfl⟩
      -- a new fork, with the old edge and a leaf under it
      obtain ⟨q, x, r, k, hq, rfl, rfl⟩ := same_upto_split hlt (by omega)
      simp only [length_append, length_cons] at hk hnm
      have hkn : k.length ≤ n - q.length - 1 := by omega
      have hmn : n - q.length - 1 ≤ max_entry_key := by omega
      have hdrop : ((q ++ (!x) :: k).drop (q.length + 1)).take (n - q.length - 1) = k := by
        rw [← drop_drop, drop_left, drop_succ_cons, drop_zero, take_of_length_le hkn]
      obtain ⟨c1, hc1⟩ := leaf_entry hb hkn hmn
      obtain ⟨c2, hc2⟩ := lower_edge_fits hr (show r.length ≤ n - q.length - 1 by omega) hmn hpb hpr hpf hm
        (Finish.plain (Dictionary.store_builder b)).relabel_error
      have hf1 : Flat (n - q.length - 1) c1 := by
        rw [show n - q.length - 1 = k.length by omega] at hc1 ⊢
        exact leaf_flat hb (by omega) hc1
      have hf2 : Flat (n - q.length - 1) c2 := by
        have hroot : Root .plain (n - q.length - 1) (under r g) (some c2) := .mk hp (by omega) (lower_edge_node hr rfl hc2)
        exact hroot.flat hs.of_under.under hmn
      rw [← hq, hdrop, label_fits hkn hmn, ok_bind, hc1, ok_bind, hc2, ok_bind, take_left, label_fits (by omega) hn, ok_bind]
      split
      · obtain ⟨c, hc⟩ := fork_entry (b := b) hf2 hf1 (show q.length ≤ n by omega) hn hmn (n - q.length)
        rw [hc]
        exact ⟨_, rfl⟩
      · obtain ⟨c, hc⟩ := fork_entry (b := b) hf1 hf2 (show q.length ≤ n by omega) hn hmn (n - q.length)
        rw [hc]
        exact ⟨_, rfl⟩
    · rw [if_neg hlt]
      have hpre : label <+: key := same_upto_eq_length.1 (by omega)
      by_cases hln : label.length = n
      · rw [dif_pos hln]
        split
        · exact ⟨_, rfl⟩
        · obtain ⟨c, hc⟩ := leaf_entry hb hk.le hn
          rw [label_fits hk.le hn, ok_bind, hc]
          exact ⟨_, rfl⟩
      · rw [dif_neg hln]
        cases hp with
        | leaf hv => exact absurd hv.1 (by omega)
        | @fork m f₀ f₁ c1 c2 p h1 h2 hp =>
          obtain rfl : p = ⟨[], [c1, c2]⟩ := hp
          obtain ⟨k, hkey, hdrop, htk⟩ := exists_next_bit hpre (by omega)
          have hkl : k.length = m := by
            have := congrArg List.length hkey
            simp only [length_append, length_cons] at this
            omega
          have hg := hs.of_under
          have hm' : m ≤ max_entry_key := by omega
          have hf1 := h1.flat hg.of_split.1 hm'
          have hf2 := h2.flat hg.of_split.2 hm'
          simp only [hdrop, htk, show n - label.length - 1 = m by omega, getElem?_cons_zero, getElem?_cons_succ]
          obtain ⟨sw, hsw⟩ : ∃ sw, key.getD label.length false = sw := ⟨_, rfl⟩
          rw [hsw]
          have hside : SmallMap (if sw then f₁ else f₀) := by
            cases sw with
            | false => exact hg.of_split.1
            | true => exact hg.of_split.2
          have hroot := side_root h1 h2 sw
          obtain ⟨⟨old, child, written⟩, hrec⟩ := ih m (by omega) hroot hside hkl hm'
          rw [hrec, ok_bind]
          dsimp only
          split
          · exact ⟨_, rfl⟩
          · next hw =>
            have hspec := dict_set_with_spec (Finish.plain_follows (store_builder_stores b)) Kind.plain_fixed mode m hroot hkl hrec
            -- the new half is flat again, so the fork above it fits
            obtain ⟨c, rfl, hc⟩ := exists_written hspec (by simpa using hw)
            have hfc := hc.flat (hside.update hb) hm'
            rw [label_fits (by omega) hn, ok_bind]
            cases sw with
            | false =>
              obtain ⟨c', hc'⟩ := fork_entry (b := b) hfc hf2 (show label.length ≤ n by omega) hn hm' (n - label.length)
              rw [if_neg Bool.false_ne_true, hc']
              exact ⟨_, rfl⟩
            | true =>
              obtain ⟨c', hc'⟩ := fork_entry (b := b) hf1 hfc (show label.length ≤ n by omega) hn hm' (n - label.length)
              rw [if_pos rfl, hc']
              exact ⟨_, rfl⟩

end

theorem Dictionary.Holds.set_builder_ok {d : Dictionary} {f : BitMap CellSlice} (hd : d.Holds f) {b : CellBuilder} (hb : SmallBuilder b)
    (hs : SmallMap f) {key : List Bool} (hk : key.length = d.key_bits) (hn : d.key_bits ≤ max_entry_key) (mode : SetMode) :
    ∃ d', d.set_builder key b mode = .ok (d', mode.writes (f key)) ∧ d'.Holds (mode.apply f key ⟨b.bits, b.refs⟩) ∧
      d'.key_bits = d.key_bits := by
  obtain ⟨⟨old, c, written⟩, hset⟩ := dict_set_total hb mode d.key_bits hd.root hs hk hn
  have hex : ∃ r, d.set_builder key b mode = .ok r := by
    unfold Dictionary.set_builder Dictionary.set_gen
    rw [hd.force_validate, ok_bind, if_neg (not_not.2 hk), hk, dict_set, hset]
    exact ⟨_, rfl⟩
  obtain ⟨⟨d', w⟩, hr⟩ := hex
  obtain ⟨h1, h2, h3⟩ := hd.set_gen (store_builder_stores b) hk hr
  exact ⟨d', by rw [hr, h2], h1, h3⟩

end Ton.Dict
