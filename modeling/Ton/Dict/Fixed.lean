import Ton.Dict.Refine
/-!
# Searches and checks of `DictionaryFixed`

The smallest and the largest key, the subdictionary of the keys with a given
start, and the validation of a whole dictionary. All three are shared by plain and
augmented dictionaries through the virtual methods.
-/

namespace Ton.Dict
open BigEndian CellTraits CellBuilder Result BitMap LabelParser List

/-! ## The smallest and the largest key -/

/-- The loop of `dict_lookup_minmax`: the key bits written and the value. The lowest
bit of `mode` is the direction at the first fork, the next one that at every other
fork. -/
def minmax_loop (label_mode : Check) (dict : Option DataCell) (n : Nat) (mode : Int) : Except Exc (List Bool × CellSlice) :=
  match dict with
  | none => .error .check
  | some cell => do
    let label ← LabelParser.parse cell n label_mode
    let (bits, label) := label.extract_label
    let l := label.l_bits
    if _h : ¬l ≤ n then .error .check
    else if _hn : n - l = 0 then .ok (bits, label.remainder)
    else do
      let mode := if l ≠ 0 then mode / 2 else mode
      let bit : Bool := mode % 2 = 1
      let (key, val) ← minmax_loop label_mode (label.remainder.prefetch_ref bit.toNat) (n - l - 1) (mode / 2)
      .ok (bits ++ bit :: key, val)
termination_by n
decreasing_by omega

def dict_lookup_minmax (label_mode : Check) (dict : Option DataCell) (n : Nat) (mode : Int) :
    Except Exc (Option (List Bool × CellSlice)) :=
  if dict.isNone then .ok none else some <$> minmax_loop label_mode dict n mode

/-- `-(fetch_max ? 1 : 0) ^ (invert_first ? 1 : 0)`. -/
def minmax_mode (fetch_max invert_first : Bool) : Int :=
  match fetch_max, invert_first with
  | false, false => 0
  | false, true => 1
  | true, false => -1
  | true, true => -2

theorem minmax_loop_length {K : Kind} {label_mode : Check} (hK : K.Fixed) (n : Nat) {f : BitMap CellSlice} {c : DataCell}
    {mode : Int} {key : List Bool} {val : CellSlice} (hc : Root K n f (some c))
    (h : minmax_loop label_mode (some c) n mode = .ok (key, val)) : key.length = n := by
  induction n using Nat.strong_induction_on generalizing f c mode key val with
  | _ n ih =>
  obtain ⟨label, m, g, p, hn, rfl, hp, hnode⟩ := hc.exists_node
  rw [minmax_loop.eq_def] at h
  dsimp only at h
  rw [bind_ok] at h
  obtain ⟨lp, hlp, h⟩ := h
  have hr := hnode.parse hlp
  simp only [hr.extract_label, hr.extract_l_bits] at h
  split at h
  · cases h
  · split at h
    · cases h
      omega
    · cases hp with
      | leaf hv => exact absurd (hK.leaf hv) (by omega)
      | @fork m f₀ f₁ c1 c2 p h1 h2 hp =>
        obtain ⟨rest, hrefs⟩ := hK.fork hp
        rw [bind_ok] at h
        obtain ⟨⟨key', val'⟩, hrec, h⟩ := h
        cases h
        rw [CellSlice.prefetch_ref, hrefs, show n - label.length - 1 = m by omega] at hrec
        have hkey : key'.length = m := by
          generalize (if label.length ≠ 0 then mode / 2 else mode) = mode' at hrec
          cases hbit : decide (mode' % 2 = 1) with
          | false =>
            rw [hbit] at hrec
            exact ih m (by omega) h1 hrec
          | true =>
            rw [hbit] at hrec
            exact ih m (by omega) h2 hrec
        simp only [length_append, length_cons]
        omega

/-! ## Subdictionaries -/

/-- The loop of `extract_prefix_subdict_internal`, after `m` bits of the start. -/
def subdict_loop (label_mode : Check) (key_bits : Nat) (pfx : List Bool) ( remove_prefix : Bool) (dict : Option DataCell)
    (m : Nat) : Except Exc (Option DataCell × Bool) :=
  match dict with
  | none => .error .check
  | some cell => do
    let label ← LabelParser.parse cell (key_bits - m) label_mode
    let l := min (pfx.length - m) label.l_bits
    if label.common_prefix_len ((pfx.drop m).take l) < l then .ok (none, true)
    else if _h : m + label.l_bits < pfx.length then
      subdict_loop label_mode key_bits pfx remove_prefix
        (label.remainder.prefetch_ref (pfx.getD (m + label.l_bits) false).toNat) (m + label.l_bits + 1)
    else
      let error := "cannot create new dictionary root while constructing prefix subdictionary"
      if ! remove_prefix then
        if m = 0 then .ok (none, false)
        else if ¬m ≤ pfx.length then .error .check
        else do
          let (bits, label) := label.extract_label
          let c ← relabel_edge (pfx.take m ++ bits) key_bits label.remainder error
          .ok (some c, true)
      else
        -- leave that many last bits of the label
        let m := m + label.l_bits - pfx.length
        if label.l_same = 0 then do
          let c ← relabel_edge ((label.remainder.bits.take label.l_bits).drop (label.l_bits - m)) (key_bits - pfx.length)
            label.skip_label.remainder error
          .ok (some c, true)
        else do
          let cb ← append_dict_label_same {} label.same_bit m (key_bits - pfx.length)
          match cb.append_cellslice_bool label.remainder with
          | none => .error (.vm .cell_ov error)
          | some cb => do
            let c ← cb.finalize false
            .ok (some c, true)
termination_by pfx.length - m
decreasing_by omega

/-- The new root, and whether it is a new one. -/
def extract_prefix_subdict_internal (label_mode : Check) (key_bits : Nat) (dict : Option DataCell) (pfx : List Bool)
    ( remove_prefix : Bool) : Except Exc (Option DataCell × Bool) :=
  if dict.isNone ∨ pfx.length = 0 then .ok (none, false)
  else if pfx.length > key_bits then .ok (none, true)
  else subdict_loop label_mode key_bits pfx remove_prefix dict 0

section Subdict
variable {K : Kind} {label_mode : Check}

theorem label_meets_iff {label rest : List Bool} :
    ¬same_upto label (rest.take (min rest.length label.length)) < min rest.length label.length ↔ rest <+: label ∨ label <+: rest := by
  constructor
  · intro h
    have hle := same_upto_le_right label (rest.take (min rest.length label.length))
    rw [length_take] at hle
    rcases Nat.le_total rest.length label.length with hlen | hlen
    · rw [Nat.min_eq_left hlen, take_length] at h hle
      exact .inl (same_upto_eq_length.1 (by rw [same_upto_comm]; omega))
    · rw [Nat.min_eq_right hlen] at h
      have hsame : same_upto label (rest.take label.length) = label.length :=
        le_antisymm (same_upto_le_left label (rest.take label.length)) (Nat.le_of_not_lt h)
      exact .inr ((same_upto_eq_length.1 hsame).trans (List.take_prefix _ _))
  · rintro (h | h)
    · rw [Nat.min_eq_left h.length_le, take_length, same_upto_comm, same_upto_eq_length.2 h]
      exact Nat.lt_irrefl _
    · rw [Nat.min_eq_right h.length_le, ← prefix_iff_eq_take.1 h, same_upto_eq_length.2 (prefix_refl _)]
      exact Nat.lt_irrefl _

theorem append_dict_label_replicate (cb : CellBuilder) (b : Bool) (len n : Nat) :
    append_dict_label cb (List.replicate len b) n = append_dict_label_same cb b len n := by
  unfold append_dict_label
  dsimp only
  rw [length_replicate]
  cases len with
  | zero =>
    unfold append_dict_label_same
    dsimp only
    split
    · rfl
    · rw [if_neg (by omega), if_neg (by omega), if_neg (by omega), if_neg (by omega)]
      simp only [replicate_zero, store_long, toBits, Nat.not_lt_zero, if_false]
  | succ len =>
    have hscan : bits_memscan (List.replicate (len + 1) b) b = len + 1 :=
      (bits_memscan_eq_length.2 (by rw [length_replicate])).trans length_replicate
    split
    · next hlen => rw [append_dict_label_same, if_pos hlen]
    · rw [replicate_succ, headD_cons, ← replicate_succ, if_pos ⟨Nat.succ_pos _, hscan⟩]

section Step
variable {n : Nat} {pre rest label s r : List Bool} {b : Bool} {p : CellSlice} {cell : DataCell} {lp : LabelParser} ( remove_prefix : Bool)
  (hlp : LabelParser.parse cell (n - pre.length) label_mode = .ok lp) (hr : lp.Reads label p)
include hlp hr

theorem subdict_loop_off (hoff : ¬rest <+: label) (hoff' : ¬label <+: rest) :
    subdict_loop label_mode n (pre ++ rest) remove_prefix (some cell) pre.length = .ok (none, true) := by
  have hlt := mt label_meets_iff.1 (not_or.2 ⟨hoff, hoff'⟩)
  rw [subdict_loop.eq_def]
  dsimp only
  rw [hlp, ok_bind, hr.l_bits, hr.common_prefix_len, drop_left, length_append, Nat.add_sub_cancel_left, if_pos (not_not.1 hlt)]

theorem subdict_loop_down : subdict_loop label_mode n (pre ++ (label ++ b :: r)) remove_prefix (some cell) pre.length =
    subdict_loop label_mode n (pre ++ label ++ [b] ++ r) remove_prefix p.refs[b.toNat]? (pre ++ label ++ [b]).length := by
  have hmeets := label_meets_iff.2 (.inr (prefix_append label (b :: r)))
  have hbit : (pre ++ (label ++ b :: r)).getD (pre.length + label.length) false = b := by
    rw [← append_assoc, ← length_append]
    simp
  have hlen : pre.length + label.length + 1 = (pre ++ label ++ [b]).length := by simp [Nat.add_assoc]
  rw [subdict_loop.eq_def]
  dsimp only
  rw [hlp, ok_bind, hr.l_bits, hr.common_prefix_len, drop_left, length_append, Nat.add_sub_cancel_left, if_neg hmeets,
    dif_pos (by rw [length_append, length_cons]; omega), hr.prefetch_ref, hbit, hlen]
  simp

/-- The start ends inside the label: the root gets the start before its label. -/
theorem subdict_loop_keep (h : rest <+: label) : subdict_loop label_mode n (pre ++ rest) false (some cell) pre.length =
    if pre = [] then .ok (none, false)
    else (fun c => (some c, true)) <$> relabel_edge (pre ++ label) n p
      "cannot create new dictionary root while constructing prefix subdictionary" := by
  have hmeets := label_meets_iff.2 (.inl h)
  obtain ⟨hbits, hrem⟩ := hr.extract_label
  rw [subdict_loop.eq_def]
  dsimp only
  rw [hlp, ok_bind, hr.l_bits, hr.common_prefix_len, drop_left, length_append, Nat.add_sub_cancel_left, if_neg hmeets,
    dif_neg (by have := h.length_le; omega), hbits, hrem, take_left]
  by_cases hpre : pre = []
  · rw [if_pos hpre, hpre]
    rfl
  · have hpos : pre.length ≠ 0 := fun h0 => hpre (eq_nil_of_length_eq_zero h0)
    simp only [Bool.not_false, if_true, hpos, if_false, hpre, Nat.le_add_right, not_true_eq_false]
    rfl

/-- The start ends inside the label: what is left of it is the label of the root. -/
theorem subdict_loop_cut (h : label = rest ++ s) : subdict_loop label_mode n (pre ++ rest) true (some cell) pre.length =
    (fun c => (some c, true)) <$> relabel_edge s (n - (pre ++ rest).length) p
      "cannot create new dictionary root while constructing prefix subdictionary" := by
  subst h
  have hmeets := label_meets_iff.2 (.inl (prefix_append rest s))
  have hlen : (pre ++ rest).length = pre.length + rest.length := length_append
  have hleft : pre.length + (rest ++ s).length - (pre.length + rest.length) = s.length := by
    rw [length_append]
    omega
  rw [subdict_loop.eq_def]
  dsimp only
  rw [hlp, ok_bind, hr.l_bits, hr.common_prefix_len, drop_left, hlen, Nat.add_sub_cancel_left, if_neg hmeets,
    dif_neg (by rw [length_append]; omega), hleft, hr.skip_label]
  simp only [Bool.not_true, Bool.false_eq_true, if_false]
  rcases hr.cases with ⟨h0, -, hrem⟩ | ⟨h0, hl, -, hrem⟩
  · rw [if_pos h0, hrem]
    have hend : ((rest ++ s ++ p.bits).take (rest ++ s).length).drop ((rest ++ s).length - s.length) = s := by
      rw [take_left, length_append, Nat.add_sub_cancel, drop_left]
    rw [hend]
    rfl
  · have hrep : s = List.replicate s.length lp.same_bit := by
      rw [eq_replicate_iff] at hl ⊢
      exact ⟨rfl, fun y hy => hl.2 y (mem_append_right rest hy)⟩
    rw [if_neg h0, hrem, ← append_dict_label_replicate, ← hrep, relabel_edge]
    cases append_dict_label {} s (n - (pre.length + rest.length)) with
    | error e => rfl
    | ok cb =>
      simp only [ok_bind]
      cases cb.append_cellslice_bool p with
      | none => rfl
      | some cb => rfl

end Step

/-- How the loop goes down: the label leaves what is left of the start, or holds it, or the start goes on with a bit after the label. -/
theorem subdict_induction (hK : K.Fixed) {n : Nat} {motive : List Bool → List Bool → BitMap CellSlice → DataCell → Prop}
    (off : ∀ {pre rest label m g p cell}, n - pre.length = label.length + m → Payload K m g p → Node label (n - pre.length) p cell →
      ¬rest <+: label → ¬label <+: rest → motive pre rest (under label g) cell)
    (inside : ∀ {pre rest s m g p cell}, n = pre.length + (rest ++ s).length + m → Payload K m g p →
      Node (rest ++ s) (n - pre.length) p cell → motive pre rest (under (rest ++ s) g) cell)
    (down : ∀ {pre label b r m f₀ f₁ p cell ci}, n - pre.length = label.length + (m + 1) → Payload K (m + 1) (split f₀ f₁) p →
      Node label (n - pre.length) p cell → p.refs[b.toNat]? = some ci →
      motive (pre ++ label ++ [b]) r (if b then f₁ else f₀) ci → motive pre (label ++ b :: r) (under label (split f₀ f₁)) cell)
    (pre rest : List Bool) {g : BitMap CellSlice} {cell : DataCell} (hle : pre.length + rest.length ≤ n)
    (hd : Root K (n - pre.length) g (some cell)) : motive pre rest g cell := by
  induction hk : rest.length using Nat.strong_induction_on generalizing pre rest g cell with
  | _ k ih =>
  subst hk
  obtain ⟨label, m, g', p, hn, rfl, hp, hnode⟩ := hd.exists_node
  by_cases hin : rest <+: label
  · obtain ⟨s, rfl⟩ := hin
    exact inside (by omega) hp hnode
  by_cases hdown : label <+: rest
  · obtain ⟨r, rfl⟩ := hdown
    cases r with
    | nil => exact absurd (by simp) hin
    | cons b r =>
      rw [length_append, length_cons] at hle
      cases hp with
      | leaf hv =>
        have := hK.leaf hv
        omega
      | @fork m f₀ f₁ c1 c2 p h1 h2 hp =>
        obtain ⟨refs, hrefs⟩ := hK.fork hp
        have hpre : (pre ++ label ++ [b]).length = pre.length + label.length + 1 := by simp [Nat.add_assoc]
        obtain ⟨ci, hci, hside⟩ : ∃ ci, p.refs[b.toNat]? = some ci ∧ Root K m (if b then f₁ else f₀) (some ci) := by
          rw [hrefs]
          cases b with
          | false => exact ⟨c1, rfl, h1⟩
          | true => exact ⟨c2, rfl, h2⟩
        rw [show m = n - (pre ++ label ++ [b]).length by omega] at hside
        exact down hn (.fork h1 h2 hp) hnode hci
          (ih r.length (by rw [length_append, length_cons]; omega) _ r (by omega) hside rfl)
  · exact off hn hp hnode hin hdown

/-- What the loop makes of the keys after `pre`, when `rest` is still to be matched. -/
theorem subdict_loop_spec (hK : K.Fixed) {n : Nat} (pre : List Bool) {rest : List Bool} {g : BitMap CellSlice} {cell : DataCell}
    {c : Option DataCell} {changed : Bool} (hle : pre.length + rest.length ≤ n) (hd : Root K (n - pre.length) g (some cell))
    (h : subdict_loop label_mode n (pre ++ rest) false (some cell) pre.length = .ok (c, changed)) :
    if changed then Root K n (under pre (within rest g)) c else pre = [] ∧ within rest g = g := by
  have hparse : ∀ {pre rest : List Bool} {cell : DataCell}, subdict_loop label_mode n (pre ++ rest) false (some cell) pre.length = .ok (c, changed) →
      ∃ lp, LabelParser.parse cell (n - pre.length) label_mode = .ok lp := by
    intro pre rest cell h
    rw [subdict_loop.eq_def] at h
    obtain ⟨lp, hlp, -⟩ := bind_ok.1 h
    exact ⟨lp, hlp⟩
  revert h
  refine subdict_induction hK (motive := fun pre rest g cell =>
    subdict_loop label_mode n (pre ++ rest) false (some cell) pre.length = .ok (c, changed) →
      if changed then Root K n (under pre (within rest g)) c else pre = [] ∧ within rest g = g) ?off ?inside ?down pre rest hle hd
  case off =>
    intro pre rest label m g p cell hn hp hnode hin hdown h
    obtain ⟨lp, hlp⟩ := hparse h
    rw [subdict_loop_off _ hlp (hnode.parse hlp) hin hdown] at h
    cases h
    rw [if_pos rfl, within_under_off hin hdown, under_empty]
    rfl
  case inside =>
    intro pre rest s m g p cell hn hp hnode h
    obtain ⟨lp, hlp⟩ := hparse h
    rw [subdict_loop_keep hlp (hnode.parse hlp) (prefix_append _ _)] at h
    rw [within_under_of_start (prefix_append _ _)]
    split at h
    · next hpre =>
      cases h
      exact ⟨hpre, rfl⟩
    · obtain ⟨c, hc, h⟩ := map_ok h
      cases h
      rw [if_pos rfl, under_under]
      exact .mk hp (by simp only [hn, length_append]) (relabel_edge_node hc)
  case down =>
    intro pre label b r m f₀ f₁ p cell ci hn hp hnode hci ih h
    obtain ⟨lp, hlp⟩ := hparse h
    rw [subdict_loop_down _ hlp (hnode.parse hlp), hci] at h
    have hrec := ih h
    cases changed with
    | false => simp at hrec
    | true =>
      rw [if_pos rfl] at hrec ⊢
      rw [within_under_append, within_split, under_under, under_under]
      exact hrec

section
variable (hK : K.Fixed) {n : Nat} {pfx : List Bool} {f : BitMap CellSlice} {dict c : Option DataCell} {changed : Bool}
  (hd : Root K n f dict)
include hK hd

theorem extract_prefix_subdict_within (hle : pfx.length ≤ n)
    (h : extract_prefix_subdict_internal label_mode n dict pfx false = .ok (c, changed)) :
    Root K n (within pfx f) (if changed then c else dict) := by
  unfold extract_prefix_subdict_internal at h
  cases dict with
  | none =>
    obtain rfl : f = empty := hd
    rw [if_pos (.inl rfl)] at h
    cases h
    exact funext fun k => ite_self _
  | some cell =>
    split at h
    · next hnil =>
      cases h
      obtain rfl : pfx = [] := eq_nil_of_length_eq_zero (by simpa using hnil)
      rw [show within [] f = f from funext fun k => if_pos nil_prefix]
      exact hd
    · rw [if_neg (by omega)] at h
      have hs := subdict_loop_spec hK [] (by simpa using hle) hd h
      cases changed with
      | false =>
        rw [hs.2]
        exact hd
      | true =>
        rw [if_pos rfl, under_nil] at hs
        exact hs

theorem extract_prefix_subdict_spec (h : extract_prefix_subdict_internal label_mode n dict pfx false = .ok (c, changed)) :
    ∃ g, Root K n g (if changed then c else dict) := by
  rcases le_or_gt pfx.length n with hle | hgt
  · exact ⟨_, extract_prefix_subdict_within hK hd hle h⟩
  · unfold extract_prefix_subdict_internal at h
    split at h
    · cases h
      exact ⟨f, hd⟩
    · cases h
      exact ⟨empty, rfl⟩

end

end Subdict

/-! ## Validation -/

/-- A callback that says whether the validation goes on. -/
abbrev ForeachFunc := CellSlice → List Bool → Bool

/-- The key buffer is the list `pre` of the bits before the current node. -/
def dict_validate_check (V : Virtual) (foreach_func : ForeachFunc) (dict : Option DataCell) (pre : List Bool) (n : Nat)
    (invert_first : Bool) : Except Exc Bool :=
  match dict with
  | none => .ok true
  | some cell => do
    let label ← LabelParser.parse cell n V.label_mode
    let (bits, label) := label.extract_label
    let l := label.l_bits
    if _hn : l = n then
      .ok (V.check_leaf label.remainder (pre ++ bits) && foreach_func label.remainder (pre ++ bits))
    else if _h : ¬l < n then .error .check
    else do
      let c1 := label.remainder.prefetch_ref 0
      let c2 := label.remainder.prefetch_ref 1
      if !(← V.check_fork { label.remainder with refs := label.remainder.refs.drop 2 } c1 c2 (n - (l + 1) + 1)) then .ok false
      else do
        let invert_first := if l ≠ 0 then false else invert_first
        let (c1, c2) := if invert_first then (c2, c1) else (c1, c2)
        if !(← dict_validate_check V foreach_func c1 (pre ++ bits ++ [invert_first]) (n - (l + 1)) false) then .ok false
        else dict_validate_check V foreach_func c2 (pre ++ bits ++ [!invert_first]) (n - (l + 1)) false
termination_by n
decreasing_by all_goals omega

section Validate
variable {K : Kind} {V : Virtual}

/-- The checks of nodes accept every payload of the kind. -/
structure Virtual.Accepts (V : Virtual) (K : Kind) : Prop where
  leaf : ∀ {v p : CellSlice} {key : List Bool}, K.Leaf 0 v p → V.check_leaf p key = true
  fork : ∀ {m : Nat} {c1 c2 : DataCell} {p : CellSlice}, K.Fork (m + 1) c1 c2 p →
    V.check_fork { p with refs := p.refs.drop 2 } (some c1) (some c2) (m + 1) = .ok true

theorem dict_validate_check_ok (hV : V.Accepts K) (hK : K.Fixed) (hpass : K.Passes V.label_mode) (n : Nat)
    {f : BitMap CellSlice} {dict : Option DataCell} (pre : List Bool) (invert_first : Bool) (hd : Root K n f dict) :
    dict_validate_check V (fun _ _ => true) dict pre n invert_first = .ok true := by
  induction n using Nat.strong_induction_on generalizing f dict pre invert_first with
  | _ n ih =>
  rw [dict_validate_check.eq_def]
  cases dict with
  | none => rfl
  | some cell =>
    obtain ⟨label, m, g, p, hn, rfl, hp, hnode⟩ := hd.exists_node
    obtain ⟨lp, hlp, hr⟩ := hnode.parse_ok fun hlt => hp.passes hK hpass (by omega)
    simp only [hlp, ok_bind, hr.extract_label, hr.extract_l_bits]
    cases hp with
    | leaf hv =>
      obtain rfl := hK.leaf hv
      rw [dif_pos (by omega), hV.leaf hv]
      rfl
    | @fork m f₀ f₁ c1 c2 p h1 h2 hp =>
      obtain ⟨rest, hrefs⟩ := hK.fork hp
      have e1 : p.prefetch_ref 0 = some c1 := by rw [CellSlice.prefetch_ref, hrefs]; rfl
      have e2 : p.prefetch_ref 1 = some c2 := by rw [CellSlice.prefetch_ref, hrefs]; rfl
      have hm : n - (label.length + 1) = m := by omega
      rw [dif_neg (by omega), dif_neg (by omega), e1, e2, hm, hV.fork hp]
      simp only [ok_bind, Bool.not_true, Bool.false_eq_true, if_false]
      generalize (if label.length ≠ 0 then false else invert_first) = first
      cases first with
      | false => simp [ih m (by omega) _ _ h1, ih m (by omega) _ _ h2]
      | true => simp [ih m (by omega) _ _ h1, ih m (by omega) _ _ h2]

end Validate

end Ton.Dict
