import Ton.Dict.Fits
import Ton.Dict.Reading
import Ton.Dict.Extras
/-!
# Subdictionaries

`cut_prefix_subdict`, `has_common_prefix` and `get_common_prefix` of `DictionaryFixed`.
Cutting the start off the keys only shortens the label of the new root, so it never
fails. Keeping it makes that label longer; then the root is built exactly if the
remaining keys have a dictionary at all (`cut_prefix_subdict_exact`).
-/

namespace Ton.Dict
open CellTraits CellBuilder Result BitMap LabelParser List

namespace LabelParser

def has_prefix (p : LabelParser) (key : List Bool) : Bool := key.length ≤ p.l_bits && p.common_prefix_len key = key.length

/-- `copy_label_prefix_to`: the bits written. -/
def copy_label_prefix (p : LabelParser) (max_len : Nat) : List Bool :=
  let sz := min max_len p.l_bits
  if p.l_same = 0 then p.remainder.bits.take sz else List.replicate sz p.same_bit

variable {p : LabelParser} {label : List Bool} {payload : CellSlice} (h : p.Reads label payload)
include h

theorem Reads.has_prefix (key : List Bool) : p.has_prefix key = true ↔ key <+: label := by
  rw [LabelParser.has_prefix, h.common_prefix_len, h.l_bits, Bool.and_eq_true, decide_eq_true_iff, decide_eq_true_iff, same_upto_comm,
    same_upto_eq_length]
  exact ⟨And.right, fun hp => ⟨hp.length_le, hp⟩⟩

theorem Reads.copy_label_prefix (max_len : Nat) : p.copy_label_prefix max_len = label.take max_len := by
  unfold LabelParser.copy_label_prefix
  rw [h.l_bits]
  rcases h.cases with ⟨h0, -, hr⟩ | ⟨h0, hl, -, -⟩
  · rw [if_pos h0, hr, take_append_of_le_length (Nat.min_le_right _ _), ← take_eq_take_min]
  · rw [if_neg h0]
    conv_rhs => rw [hl]
    rw [take_replicate]

end LabelParser

namespace DictionaryFixed

def has_common_prefix (d : DictionaryFixed) (pfx : List Bool) : Except Exc Bool := do
  d.force_validate
  match d.root_cell with
  | none => .ok true
  | some cell =>
    if pfx.length = 0 then .ok true
    else if pfx.length > d.key_bits then .ok false
    else do
      let label ← LabelParser.parse cell d.key_bits d.methods.label_mode
      .ok (label.has_prefix pfx)

/-- Returns the bits written to the buffer, whose size the source casts to `int`. -/
def get_common_prefix (d : DictionaryFixed) (buffer_len : BitVec 32) : Except Exc (List Bool) := do
  d.force_validate
  match d.root_cell with
  | none => .ok []
  | some cell => do
    let label ← LabelParser.parse cell d.key_bits d.methods.label_mode
    .ok (label.copy_label_prefix buffer_len.toInt.toNat)

def cut_prefix_subdict (d : DictionaryFixed) (pfx : List Bool) ( remove_prefix : Bool) : Except Exc (DictionaryFixed × Bool) := do
  d.force_validate
  if pfx.length > d.key_bits ∧ remove_prefix then .ok (d, false)
  else do
    let (c, changed) ← extract_prefix_subdict_internal d.methods.label_mode d.key_bits d.root_cell pfx remove_prefix
    let key_bits := if remove_prefix then d.key_bits - pfx.length else d.key_bits
    .ok ({ d with root_cell := if changed then c else d.root_cell, key_bits }, true)

end DictionaryFixed

/-! ## What the loop makes -/

section Loop
variable {K : Kind} {label_mode : Check} {n : Nat} {f g : BitMap CellSlice} {pfx rest : List Bool} {dict : Option DataCell} {cell : DataCell}
  (hK : K.Fixed) (hpass : K.Passes label_mode)
include hK hpass

theorem subdict_loop_following (pre : List Bool) (hle : pre.length + rest.length ≤ n) (hd : Root K (n - pre.length) g (some cell)) :
    ∃ c, subdict_loop label_mode n (pre ++ rest) true (some cell) pre.length = .ok (c, true) ∧
      Root K (n - (pre ++ rest).length) (following rest g) c := by
  refine subdict_induction hK (motive := fun pre rest g cell =>
    ∃ c, subdict_loop label_mode n (pre ++ rest) true (some cell) pre.length = .ok (c, true) ∧
      Root K (n - (pre ++ rest).length) (following rest g) c) ?off ?inside ?down pre rest hle hd
  case off =>
    intro pre rest label m g p cell hn hp hnode hin hdown
    obtain ⟨lp, hlp, hr⟩ := hnode.parse_ok fun hlt => hp.passes hK hpass (by omega)
    rw [subdict_loop_off _ hlp hr hin hdown, following_under_off hin hdown]
    exact ⟨none, rfl, rfl⟩
  case inside =>
    intro pre rest s m g p cell hn hp hnode
    obtain ⟨lp, hlp, hr⟩ := hnode.parse_ok fun hlt => hp.passes hK hpass (by omega)
    have hlen : n - (pre ++ rest).length = s.length + m := by
      rw [length_append] at hn ⊢
      omega
    rw [show n - pre.length = rest.length + (s.length + m) by rw [length_append] at hn; omega] at hnode
    obtain ⟨c, hc⟩ := hnode.shorten
    rw [subdict_loop_cut hlp hr rfl, following_under_of_start, hlen, hc.relabel_edge]
    exact ⟨some c, rfl, .mk hp rfl hc⟩
  case down =>
    intro pre label b r m f₀ f₁ p cell ci hn hp hnode hci ih
    obtain ⟨lp, hlp, hr⟩ := hnode.parse_ok fun hlt => hp.passes hK hpass (by omega)
    have hsame : pre ++ (label ++ b :: r) = pre ++ label ++ [b] ++ r := by simp
    rw [subdict_loop_down _ hlp hr, hci, following_under_append, following_split, hsame]
    exact ih

theorem subdict_loop_of_fits (hcan : K.Canonical) (pre : List Bool) (hle : pre.length + rest.length ≤ n)
    (hd : Root K (n - pre.length) g (some cell)) (hfits : Fits K n (under pre (within rest g))) :
    ∃ r, subdict_loop label_mode n (pre ++ rest) false (some cell) pre.length = .ok r := by
  revert hfits
  refine subdict_induction hK (motive := fun pre rest g cell => Fits K n (under pre (within rest g)) →
    ∃ r, subdict_loop label_mode n (pre ++ rest) false (some cell) pre.length = .ok r) ?off ?inside ?down pre rest hle hd
  case off =>
    intro pre rest label m g p cell hn hp hnode hin hdown _
    obtain ⟨lp, hlp, hr⟩ := hnode.parse_ok fun hlt => hp.passes hK hpass (by omega)
    exact ⟨_, subdict_loop_off _ hlp hr hin hdown⟩
  case inside =>
    intro pre rest s m g p cell hn hp hnode hfits
    obtain ⟨lp, hlp, hr⟩ := hnode.parse_ok fun hlt => hp.passes hK hpass (by omega)
    rw [subdict_loop_keep hlp hr (prefix_append _ _)]
    split
    · exact ⟨_, rfl⟩
    · rw [within_under_of_start (prefix_append _ _)] at hfits
      rw [under_under] at hfits
      obtain ⟨c, hc⟩ := hfits.exists_node hcan hp (by rw [length_append]; omega)
      rw [hc.relabel_edge]
      exact ⟨_, rfl⟩
  case down =>
    intro pre label b r m f₀ f₁ p cell ci hn hp hnode hci ih hfits
    obtain ⟨lp, hlp, hr⟩ := hnode.parse_ok fun hlt => hp.passes hK hpass (by omega)
    rw [within_under_append, within_split, under_under, under_under] at hfits
    rw [subdict_loop_down _ hlp hr, hci]
    exact ih hfits

theorem extract_prefix_subdict_following (hd : Root K n f dict) (hle : pfx.length ≤ n) : ∃ c changed,
    extract_prefix_subdict_internal label_mode n dict pfx true = .ok (c, changed) ∧
      Root K (n - pfx.length) (following pfx f) (if changed then c else dict) := by
  unfold extract_prefix_subdict_internal
  cases dict with
  | none =>
    obtain rfl : f = empty := hd
    rw [if_pos (.inl rfl)]
    exact ⟨none, false, rfl, rfl⟩
  | some cell =>
    split
    · next hnil =>
      obtain rfl : pfx = [] := eq_nil_of_length_eq_zero (by simpa using hnil)
      exact ⟨none, false, rfl, hd⟩
    · rw [if_neg (by omega)]
      obtain ⟨c, hc, hroot⟩ := subdict_loop_following hK hpass [] (by simpa using hle) hd
      exact ⟨c, true, hc, hroot⟩

theorem extract_prefix_subdict_ok_iff (hcan : K.Canonical) (hd : Root K n f dict) (hle : pfx.length ≤ n) :
    (∃ r, extract_prefix_subdict_internal label_mode n dict pfx false = .ok r) ↔ Fits K n (within pfx f) := by
  constructor
  · rintro ⟨⟨c, changed⟩, h⟩
    exact ⟨_, extract_prefix_subdict_within hK hd hle h⟩
  · intro hfits
    unfold extract_prefix_subdict_internal
    cases dict with
    | none => exact ⟨_, rfl⟩
    | some cell =>
      split
      · exact ⟨_, rfl⟩
      · rw [if_neg (by omega)]
        exact subdict_loop_of_fits hK hpass hcan [] (by simpa using hle) hd (by rwa [under_nil])

end Loop

theorem Fits.following {K : Kind} {n : Nat} {f : BitMap CellSlice} {q : List Bool} (hK : K.Fixed) (h : Fits K n f) (hq : q.length ≤ n) :
    Fits K (n - q.length) (following q f) := by
  obtain ⟨c, hc⟩ := h
  have hpass : K.Passes .chk_min := fun _ => trivial
  obtain ⟨c', changed, -, hroot⟩ := extract_prefix_subdict_following hK hpass hc hq
  exact ⟨_, hroot⟩

/-! ## Dictionaries with keys of one length -/

/-- The dictionary holds the map, with nodes of the kind that its class has. -/
structure DictionaryFixed.Holds (K : Kind) (d : DictionaryFixed) (f : BitMap CellSlice) : Prop where
  fixed : K.Fixed
  canonical : K.Canonical
  passes : K.Passes d.methods.label_mode
  root : Root K d.key_bits f d.root_cell
  bits : d.key_bits ≤ max_key_bits

theorem Dictionary.Holds.to_fixed {d : Dictionary} {f : BitMap CellSlice} (h : d.Holds f) :
    DictionaryFixed.Holds .plain ⟨d.root_cell, d.key_bits, .fixed⟩ f :=
  ⟨Kind.plain_fixed, Kind.plain_canonical, Kind.plain_passes, h.root, h.bits⟩

/-- All keys start with the bits. -/
def Starts (q : List Bool) (f : BitMap CellSlice) : Prop := ∀ k v, f k = some v → q <+: k

theorem starts_under_iff {K : Kind} {label q : List Bool} {m : Nat} {g : BitMap CellSlice} {p : CellSlice} {c : DataCell}
    (hp : Payload K m g p) (hc : Node label (label.length + m) p c) : Starts q (under label g) ↔ q <+: label := by
  constructor
  · exact hp.prefix_label hc
  · intro hq k v hk
    obtain ⟨j, rfl, -⟩ := under_some hk
    exact hq.trans (prefix_append _ _)

/-- What a call leaves: a dictionary with keys of `n` bits that holds the map, in the only cell that does. -/
structure Leaves (K : Kind) (n : Nat) (g : BitMap CellSlice) (r : DictionaryFixed × Bool) : Prop where
  done : r.2 = true
  bits : r.1.key_bits = n
  holds : r.1.Holds K g
  only : ∀ c, Root K n g c → c = r.1.root_cell

section Holds
variable {K : Kind} {d : DictionaryFixed} {f g : BitMap CellSlice} {pfx : List Bool} (h : d.Holds K f)
include h

theorem DictionaryFixed.Holds.leaves {c : Option DataCell} {n : Nat} (hn : n ≤ d.key_bits) (hc : Root K n g c) :
    Leaves K n g ({ d with root_cell := c, key_bits := n }, true) where
  done := rfl
  bits := rfl
  holds := ⟨h.fixed, h.canonical, h.passes, hc, hn.trans h.bits⟩
  only _ hc' := hc'.unique h.canonical hc

theorem DictionaryFixed.Holds.has_common_prefix (hle : pfx.length ≤ d.key_bits) :
    ∃ b, d.has_common_prefix pfx = .ok b ∧ (b = true ↔ Starts pfx f) := by
  have hroot := h.root
  rw [DictionaryFixed.has_common_prefix, d.force_validate_ok h.bits, ok_bind]
  cases hc : d.root_cell with
  | none =>
    rw [hc] at hroot
    obtain rfl : f = empty := hroot
    refine ⟨true, rfl, iff_of_true rfl fun k v hk => ?_⟩
    cases hk
  | some cell =>
    rw [hc] at hroot
    dsimp only
    split
    · next hnil =>
      obtain rfl := eq_nil_of_length_eq_zero hnil
      exact ⟨true, rfl, iff_of_true rfl fun _ _ _ => nil_prefix⟩
    · obtain ⟨label, m, g, p, hn, rfl, hp, hnode⟩ := hroot.exists_node
      obtain ⟨lp, hlp, hr⟩ := hnode.parse_ok fun hlt => hp.passes h.fixed h.passes (by omega)
      rw [if_neg (by omega), hlp, ok_bind]
      rw [hn] at hnode
      exact ⟨_, rfl, (hr.has_prefix pfx).trans (starts_under_iff hp hnode).symm⟩

/-- Cutting off the start leaves the keys that had it; so does keeping it, whenever these keys have a dictionary. -/
theorem cut_prefix_subdict_exact (hle : pfx.length ≤ d.key_bits) :
    (∃ r, d.cut_prefix_subdict pfx true = .ok r ∧ Leaves K (d.key_bits - pfx.length) (following pfx f) r) ∧
      (∀ r, d.cut_prefix_subdict pfx false = .ok r → Leaves K d.key_bits (within pfx f) r) ∧
      ((∃ r, d.cut_prefix_subdict pfx false = .ok r) ↔ Fits K d.key_bits (within pfx f)) ∧
      ∃ b, d.has_common_prefix pfx = .ok b ∧ (b = true ↔ Starts pfx f) := by
  have hcut : ∀ remove_prefix, d.cut_prefix_subdict pfx remove_prefix = (do
      let (c, changed) ← extract_prefix_subdict_internal d.methods.label_mode d.key_bits d.root_cell pfx remove_prefix
      .ok ({ d with root_cell := if changed then c else d.root_cell
                    key_bits := if remove_prefix then d.key_bits - pfx.length else d.key_bits }, true)) := by
    intro remove_prefix
    rw [DictionaryFixed.cut_prefix_subdict, d.force_validate_ok h.bits, ok_bind, if_neg (by omega)]
  refine ⟨?_, ?_, ?_, h.has_common_prefix hle⟩
  · obtain ⟨c, changed, hc, hroot⟩ := extract_prefix_subdict_following h.fixed h.passes h.root hle
    rw [hcut, hc]
    exact ⟨_, rfl, h.leaves (Nat.sub_le _ _) hroot⟩
  · intro r hr
    rw [hcut] at hr
    obtain ⟨⟨c, changed⟩, hc, hr⟩ := bind_ok.1 hr
    cases hr
    exact h.leaves le_rfl (extract_prefix_subdict_within h.fixed h.root hle hc)
  · rw [← extract_prefix_subdict_ok_iff h.fixed h.passes h.canonical h.root hle, hcut]
    constructor
    · rintro ⟨r, hr⟩
      obtain ⟨r', hr', -⟩ := bind_ok.1 hr
      exact ⟨r', hr'⟩
    · rintro ⟨r', hr'⟩
      rw [hr']
      exact ⟨_, rfl⟩

end Holds

/-- Three keys, of which two start with a one. -/
theorem cut_prefix_subdict_exact_three_keys :
    let ops : List Op := [.set [false, true] ⟨[], []⟩ .Set, .set [true, false] ⟨[true], []⟩ .Set, .set [true, true] ⟨[false], []⟩ .Set]
    let f := (Op.specAll empty ops).1
    ∃ d rs, Op.execAll ⟨none, 2⟩ ops = .ok (d, rs) ∧
      (∃ r, DictionaryFixed.cut_prefix_subdict ⟨d.root_cell, 2, .fixed⟩ [true] true = .ok r ∧ Leaves .plain 1 (following [true] f) r) ∧
      (∀ r, DictionaryFixed.cut_prefix_subdict ⟨d.root_cell, 2, .fixed⟩ [true] false = .ok r → Leaves .plain 2 (within [true] f) r) ∧
      ((∃ r, DictionaryFixed.cut_prefix_subdict ⟨d.root_cell, 2, .fixed⟩ [true] false = .ok r) ↔ Fits .plain 2 (within [true] f)) ∧
      ∃ b, DictionaryFixed.has_common_prefix ⟨d.root_cell, 2, .fixed⟩ [true] = .ok b ∧ (b = true ↔ Starts [true] f) := by
  intro ops f
  obtain ⟨d, rs, h, hd⟩ := exists_execAll (show 2 ≤ max_key_bits by decide) (show ∀ op ∈ ops, _ by decide) (by decide +kernel)
  have hfixed := hd.to_fixed
  exact ⟨d, rs, h, cut_prefix_subdict_exact hfixed (show 1 ≤ 2 by decide)⟩

/-- The value of 1 takes up its cell. With the bit of the key in the label it does not fit any more, and the start cannot be kept. -/
theorem cut_prefix_subdict_overflow :
    let ops : List Op := [.set [false] ⟨[], []⟩ .Set, .set [true] ⟨List.replicate 1021 true, []⟩ .Set]
    ∃ d rs e, Op.execAll ⟨none, 1⟩ ops = .ok (d, rs) ∧ d.lookup [true] = .ok (some ⟨List.replicate 1021 true, []⟩) ∧
      DictionaryFixed.cut_prefix_subdict ⟨d.root_cell, 1, .fixed⟩ [true] false = .error e := by
  intro ops
  obtain ⟨⟨⟨d, rs⟩, e⟩, h⟩ := exists_ok_of_isSome (x := do
    let p ← Op.execAll ⟨none, 1⟩ ops
    match DictionaryFixed.cut_prefix_subdict ⟨p.1.root_cell, 1, .fixed⟩ [true] false with
    | .ok _ => .error .check
    | .error e => .ok (p, e)) (by decide +kernel)
  obtain ⟨p, hp, h⟩ := bind_ok.1 h
  split at h
  · cases h
  · next he =>
    cases h
    have hd := execAll_holds (d := ⟨none, 1⟩) (f := empty) ⟨rfl, by decide⟩ (by decide) hp
    exact ⟨d, rs, e, hp, hd.1.lookup hd.2.2.symm, he⟩

/-- The longest common start of all keys, as far as the buffer goes. -/
theorem common_prefix_longest {K : Kind} {d : DictionaryFixed} {f : BitMap CellSlice} (h : d.Holds K f) (buffer_len : BitVec 32)
    (hne : d.root_cell ≠ none) : ∃ q, d.get_common_prefix buffer_len = .ok q ∧ q.length ≤ buffer_len.toInt.toNat ∧
      ∀ q' : List Bool, q'.length ≤ buffer_len.toInt.toNat → (Starts q' f ↔ q' <+: q) := by
  have hroot := h.root
  rw [DictionaryFixed.get_common_prefix, d.force_validate_ok h.bits, ok_bind]
  cases hc : d.root_cell with
  | none => exact absurd hc hne
  | some cell =>
    rw [hc] at hroot
    obtain ⟨label, m, g, p, hn, rfl, hp, hnode⟩ := hroot.exists_node
    obtain ⟨lp, hlp, hr⟩ := hnode.parse_ok fun hlt => hp.passes h.fixed h.passes (by omega)
    dsimp only
    rw [hlp, ok_bind, hr.copy_label_prefix]
    rw [hn] at hnode
    refine ⟨_, rfl, length_take_le _ _, fun q' hq' => (starts_under_iff hp hnode).trans ?_⟩
    exact ⟨fun hpre => prefix_take_iff.2 ⟨hpre, hq'⟩, fun hpre => hpre.trans (List.take_prefix _ _)⟩

/-- Two keys that start with a one. -/
theorem common_prefix_longest_two_keys :
    let ops : List Op := [.set [true, false] ⟨[], []⟩ .Set, .set [true, true] ⟨[true], []⟩ .Set]
    ∃ d rs, Op.execAll ⟨none, 2⟩ ops = .ok (d, rs) ∧ ∃ q, DictionaryFixed.get_common_prefix ⟨d.root_cell, 2, .fixed⟩ 8 = .ok q ∧ q.length ≤ 8 ∧
      ∀ q' : List Bool, q'.length ≤ 8 → (Starts q' (Op.specAll empty ops).1 ↔ q' <+: q) := by
  intro ops
  obtain ⟨d, rs, h, hd⟩ := exists_execAll (show 2 ≤ max_key_bits by decide) (show ∀ op ∈ ops, _ by decide) (by decide +kernel)
  have hfixed := hd.to_fixed
  refine ⟨d, rs, h, common_prefix_longest hfixed 8 fun hnone => ?_⟩
  have hroot := hfixed.root
  rw [hnone] at hroot
  have hone : some (⟨[true], []⟩ : CellSlice) = none := congrFun hroot [true, true]
  cases hone

end Ton.Dict
