import Ton.Dict.Extras
import Ton.Dict.Nearest
/-!
# Guided traversals

`AugmentedDictionary::traverse_extra`: at each node a function looks at the key so far and at the
extra, and says where to go. A number below zero is thrown; of the others the bits say what is
visited: 0 nothing, 1 the left child, 2 the right one, 5 the right and then the left, 6 the
left and then the right. At a leaf a positive number takes it.
-/

namespace Ton.Dict
open BigEndian CellTraits CellBuilder Result BitMap BitOrder LabelParser List

/-- The key so far, the extra, and at a leaf the value. -/
abbrev TraverseFunc := List Bool → CellSlice → Option CellSlice → Int

/-- What a traversal throws. -/
inductive TraverseExc
  | exc (e : Exc)
  /-- `CombineErrorValue`. -/
  | value (r : Int)

/-- A call that throws no numbers. -/
def lifted {α : Type} (x : Except Exc α) : Except TraverseExc α := x.mapError .exc

/-- The key that was written, the value and the extra. -/
def dict_traverse_extra (aug : AugmentationData) (traverse_node : TraverseFunc) (dict : Option DataCell) (pre : List Bool) (n : Nat) :
    Except TraverseExc (Option (List Bool × CellSlice × CellSlice)) :=
  match dict with
  | none => .error (.exc .check)
  | some cell => do
    let label ← lifted (LabelParser.parse cell n .chk_size)
    let (bits, label) := label.extract_label
    let l := label.l_bits
    if _hn : n - l = 0 then
      match aug.extract_extra label.remainder with
      | none => .error (.exc (.vm .dict_err "invalid leaf value/extra in an augmented dictionary"))
      | some (extra, value) =>
        let r := traverse_node (pre ++ bits) extra (some value)
        if r < 0 then .error (.value r)
        else if r > 0 then .ok (some (pre ++ bits, value, extra))
        else .ok none
    else
      let c1 := label.remainder.prefetch_ref 0
      let c2 := label.remainder.prefetch_ref 1
      let extra := { label.remainder with refs := label.remainder.refs.drop 2 }
      let r := traverse_node (pre ++ bits) extra none
      if r < 0 ∨ r % 4 = 3 then .error (.value r)
      else if r % 4 = 0 then .ok none
      else
        -- 1 and 5 swap the children; without the bit 4 the first of the two is left out
        let sw : Bool := r % 2 = 1
        let (c1, c2) := if sw then (c2, c1) else (c1, c2)
        let tmp ← if r / 4 % 2 = 1 then dict_traverse_extra aug traverse_node c1 (pre ++ bits ++ [sw]) (n - l - 1) else .ok none
        if tmp.isSome then .ok tmp
        else dict_traverse_extra aug traverse_node c2 (pre ++ bits ++ [!sw]) (n - l - 1)
termination_by n
decreasing_by all_goals omega

def AugmentedDictionary.traverse_extra (d : AugmentedDictionary) (key_len : Nat) (traverse_node : TraverseFunc) :
    Except TraverseExc (Option (List Bool × CellSlice × CellSlice)) := do
  lifted d.force_validate
  if key_len ≠ d.key_bits ∨ d.root_cell.isNone then .ok none
  else dict_traverse_extra d.aug traverse_node d.root_cell [] key_len

/-! ## Guides -/

/-- No entry under these bits is wanted. -/
def Free (wanted : List Bool → CellSlice → Prop) (pre : List Bool) (t : Trie CellSlice) : Prop :=
  ∀ k v, t.lookup k = some v → ¬wanted (pre ++ k) v

/-- The number at a fork leaves out only what is not wanted, and where both children are visited the side `high` comes first. -/
def Sound (high : Bool) (wanted : List Bool → CellSlice → Prop) (pre : List Bool) (l r : Trie CellSlice) (code : Int) : Prop :=
  code = 0 ∧ Free wanted (pre ++ [false]) l ∧ Free wanted (pre ++ [true]) r ∨
    code = 1 ∧ Free wanted (pre ++ [true]) r ∨
    code = 2 ∧ Free wanted (pre ++ [false]) l ∨
    code = if high then 5 else 6

/-- A function that leads to the first entry that is wanted, from the low end or from the high one. -/
structure Guides (aug : AugmentationData) (key_bits : Nat) (high : Bool) (wanted : List Bool → CellSlice → Prop)
    (traverse_node : TraverseFunc) : Prop where
  leaf : ∀ k v e, k.length = key_bits → aug.eval_leaf {} v = some e → 0 ≤ traverse_node k e.contents (some v) ∧
    (0 < traverse_node k e.contents (some v) ↔ wanted k v)
  fork : ∀ pre l r e, (∀ k v, l.lookup k = some v → pre.length + 1 + k.length = key_bits) →
    (∀ k v, r.lookup k = some v → pre.length + 1 + k.length = key_bits) → aug.fold (.fork [] l r) = some e →
    Sound high wanted pre l r (traverse_node pre e none)

/-- The first entry that is wanted, or that there is none. -/
def FindsFirst (high : Bool) (wanted : List Bool → CellSlice → Prop) (pre : List Bool) (f : BitMap CellSlice) :
    Option (List Bool × CellSlice × CellSlice) → Prop
  | none => ∀ k v, f k = some v → ¬wanted (pre ++ k) v
  | some (key, value, _) => ∃ k, key = pre ++ k ∧ f k = some value ∧ wanted key value ∧
      ∀ k' v', f k' = some v' → wanted (pre ++ k') v' → k' = k ∨ Ahead high high k k'

section
variable {aug : AugmentationData} {high : Bool} {wanted : List Bool → CellSlice → Prop} {traverse_node : TraverseFunc} {key_bits : Nat}
  {pre label : List Bool} {f g : BitMap CellSlice} {o : Option (List Bool × CellSlice × CellSlice)}

section
variable {b : Bool} (h : FindsFirst high wanted (pre ++ label ++ [b]) (if b then g else f) o)
include h

/-- What is found in the child on one side is first when the other child has nothing wanted, or comes later. -/
theorem FindsFirst.side (ho : o.isSome = true)
    (hother : b = high ∨ ∀ k v, (if !b then g else f) k = some v → ¬wanted (pre ++ label ++ [!b] ++ k) v) :
    FindsFirst high wanted pre (under label (split f g)) o := by
  obtain ⟨⟨key, value, extra⟩, rfl⟩ := Option.isSome_iff_exists.1 ho
  obtain ⟨k, rfl, hk, hw, hfirst⟩ := h
  refine ⟨label ++ b :: k, by simp, ?_, hw, fun k' v' hk' hw' => ?_⟩
  · rw [under_split_append]
    cases b <;> exact hk
  · obtain ⟨k₁, rfl, hk₁⟩ := under_some hk'
    obtain ⟨c, k₂, rfl, hc⟩ := split_some hk₁
    by_cases hcb : c = b
    · subst hcb
      rcases hfirst k₂ v' hc (by simpa using hw') with rfl | hahead
      · exact .inl rfl
      · refine .inr ?_
        rw [ahead_append, ahead_cons_self]
        exact hahead
    · right
      rw [ahead_part _ _ _ (Ne.symm hcb)]
      rcases hother with rfl | hno
      · cases label <;> rfl
      · obtain rfl : c = !b := by cases c <;> cases b <;> simp_all
        exact absurd (by simpa using hw') (hno k₂ v' hc)

/-- The side that is visited alone, when the other one has nothing wanted. -/
theorem FindsFirst.one (hother : ∀ k v, (if !b then g else f) k = some v → ¬wanted (pre ++ label ++ [!b] ++ k) v) :
    FindsFirst high wanted pre (under label (split f g)) o := by
  cases o with
  | some found => exact h.side rfl (.inr hother)
  | none =>
    intro k v hk
    obtain ⟨k₁, rfl, hk₁⟩ := under_some hk
    obtain ⟨c, k₂, rfl, hc⟩ := split_some hk₁
    by_cases hcb : c = b
    · subst hcb
      simpa using h k₂ v hc
    · obtain rfl : c = !b := by cases c <;> cases b <;> simp_all
      simpa using hother k₂ v hc

end

theorem FindsFirst.two {o' : Option (List Bool × CellSlice × CellSlice)}
    (h : FindsFirst high wanted (pre ++ label ++ [high]) (if high then g else f) o)
    (h' : FindsFirst high wanted (pre ++ label ++ [!high]) (if !high then g else f) o') :
    FindsFirst high wanted pre (under label (split f g)) (if o.isSome then o else o') := by
  cases o with
  | some found => exact h.side rfl (.inl rfl)
  | none =>
    refine FindsFirst.one h' fun k v hk => ?_
    rw [Bool.not_not] at hk ⊢
    exact h k v hk

end

/-! ## The traversal -/

theorem Root.key_length {K : Kind} {label_mode : Check} (hK : K.Fixed) (hpass : K.Passes label_mode) {n : Nat} {f : BitMap CellSlice}
    {o : Option DataCell} (h : Root K n f o) {k : List Bool} {v : CellSlice} (hk : f k = some v) : k.length = n := by
  cases o with
  | none =>
    obtain rfl : f = empty := h
    cases hk
  | some c =>
    obtain ⟨g, hread, hrel⟩ := h.readable hK hpass
    have hk' := hrel k
    rw [hk] at hk'
    generalize hg : g k = o at hk'
    cases hk' with
    | some _ => exact hread.length hg

section
variable {aug : AugmentationData} (haug : aug.Lawful) {high : Bool} {wanted : List Bool → CellSlice → Prop} {traverse_node : TraverseFunc}
  {key_bits : Nat} (hg : Guides aug key_bits high wanted traverse_node)
include haug hg

theorem dict_traverse_extra_spec {n : Nat} {t : Trie CellSlice} {c : DataCell} (h : Rep (.augmented aug) n t c) (pre : List Bool)
    (hpre : pre.length + n = key_bits) : ∃ o, dict_traverse_extra aug traverse_node (some c) pre n = .ok o ∧
      FindsFirst high wanted pre t.lookup o := by
  induction h generalizing pre with
  | @leaf label m v p c hv hn =>
    obtain ⟨rfl, -⟩ := id hv
    obtain ⟨lp, hlp, hr⟩ := hn.parse_ok (show label.length < label.length + 0 → Check.chk_size.Passes p from fun hlt => absurd hlt (by omega))
    obtain ⟨e, he, hex, -⟩ := extract_extra_leaf haug hv
    obtain ⟨hpos, hwanted⟩ := hg.leaf (pre ++ label) v e (by rw [length_append]; exact hpre) he
    have hlook : ∀ k w, (Trie.leaf label v).lookup k = some w → k = label ∧ w = v := by
      intro k w hk
      obtain ⟨k', rfl, hk'⟩ := under_some ((under_single label v).symm ▸ (show Function.update empty label (some v) k = some w from hk))
      obtain ⟨rfl, rfl⟩ := single_some hk'
      exact ⟨append_nil _, rfl⟩
    rw [dict_traverse_extra.eq_def]
    simp only [lifted, hlp, Except.mapError, ok_bind, hr.extract_label, hr.extract_l_bits]
    rw [dif_pos (by omega)]
    simp only [hex]
    rw [if_neg (not_lt.2 hpos)]
    by_cases hr' : traverse_node (pre ++ label) e.contents (some v) > 0
    · rw [if_pos hr']
      exact ⟨_, rfl, label, rfl, Function.update_self .., hwanted.1 hr', fun k' v' hk' _ => .inl (hlook k' v' hk').1⟩
    · rw [if_neg hr']
      refine ⟨_, rfl, fun k w hk hw => hr' (hwanted.2 ?_)⟩
      obtain ⟨rfl, rfl⟩ := hlook k w hk
      exact hw
  | @fork label m l r c1 c2 c p hl hr hp hn ihl ihr =>
    obtain ⟨lp, hlp, hread⟩ := hn.parse_ok fun _ => Kind.augmented_passes hp
    obtain ⟨e1, e2, e, he1, he2, he, rfl⟩ := hp
    have hfold : aug.fold (.fork [] l r) = some e.contents := by
      obtain ⟨e1', hf1, hg1⟩ := get_node_extra_fold haug hl
      obtain ⟨e2', hf2, hg2⟩ := get_node_extra_fold haug hr
      rw [Nat.add_sub_cancel] at he1 he2
      obtain rfl : e1 = e1' := Option.some.inj (Except.ok.inj (he1.symm.trans hg1))
      obtain rfl : e2 = e2' := Option.some.inj (Except.ok.inj (he2.symm.trans hg2))
      simp [AugmentationData.fold, hf1, hf2, he]
    have hlen : ∀ {t : Trie CellSlice} {c : DataCell}, Rep (.augmented aug) m t c → ∀ k v, t.lookup k = some v →
        (pre ++ label).length + 1 + k.length = key_bits := by
      intro t c ht k v hk
      have hk' := Root.key_length Kind.augmented_fixed Kind.augmented_passes (o := some c) ⟨t, ht, rfl⟩ hk
      rw [length_append]
      omega
    have hside : ∀ b : Bool, ∃ o, dict_traverse_extra aug traverse_node (some (if b then c2 else c1)) (pre ++ label ++ [b]) m = .ok o ∧
        FindsFirst high wanted (pre ++ label ++ [b]) (if b then r.lookup else l.lookup) o := by
      intro b
      have hpre' : (pre ++ label ++ [b]).length + m = key_bits := by
        rw [length_append, length_append, length_singleton]
        omega
      cases b with
      | false => exact ihl _ hpre'
      | true => exact ihr _ hpre'
    -- the guide is asked with the extra of the node, which is what the leaves below fold to
    have hcode := hg.fork (pre ++ label) l r e.contents (hlen hl) (hlen hr) hfold
    have e1' : (⟨e.bits, c1 :: c2 :: e.refs⟩ : CellSlice).prefetch_ref 0 = some c1 := rfl
    have e2' : (⟨e.bits, c1 :: c2 :: e.refs⟩ : CellSlice).prefetch_ref 1 = some c2 := rfl
    have hm : label.length + (m + 1) - label.length - 1 = m := by omega
    rw [dict_traverse_extra.eq_def]
    simp only [lifted, hlp, Except.mapError, ok_bind, hread.extract_label, hread.extract_l_bits]
    rw [dif_neg (by omega), e1', e2', hm]
    change Sound high wanted (pre ++ label) l r (traverse_node (pre ++ label) ⟨e.bits, List.drop 2 (c1 :: c2 :: e.refs)⟩ none) at hcode
    obtain ⟨o0, hrun0, hfind0⟩ := hside false
    obtain ⟨o1, hrun1, hfind1⟩ := hside true
    simp only [Bool.false_eq_true, if_false, if_true] at hrun0 hrun1
    rcases hcode with ⟨hc, h0, h1⟩ | ⟨hc, h1⟩ | ⟨hc, h0⟩ | hc
    · rw [hc]
      exact ⟨none, rfl, FindsFirst.one (b := false) h0 h1⟩
    · rw [hc]
      exact ⟨o0, hrun0, hfind0.one h1⟩
    · rw [hc]
      exact ⟨o1, hrun1, hfind1.one h0⟩
    · rw [hc]
      cases high with
      | false =>
        refine ⟨if o0.isSome then o0 else o1, ?_, FindsFirst.two hfind0 hfind1⟩
        show (do
          let tmp ← dict_traverse_extra aug traverse_node (some c1) (pre ++ label ++ [false]) m
          if tmp.isSome then .ok tmp else dict_traverse_extra aug traverse_node (some c2) (pre ++ label ++ [true]) m) = _
        rw [hrun0, ok_bind]
        cases o0 with
        | none => exact hrun1
        | some found => rfl
      | true =>
        refine ⟨if o1.isSome then o1 else o0, ?_, FindsFirst.two hfind1 hfind0⟩
        show (do
          let tmp ← dict_traverse_extra aug traverse_node (some c2) (pre ++ label ++ [true]) m
          if tmp.isSome then .ok tmp else dict_traverse_extra aug traverse_node (some c1) (pre ++ label ++ [false]) m) = _
        rw [hrun1, ok_bind]
        cases o1 with
        | none => exact hrun0
        | some found => rfl

/-- The call on a dictionary finds the first entry that is wanted. -/
theorem AugmentedDictionary.Holds.traverse_extra {d : AugmentedDictionary} {f : BitMap CellSlice} (hd : d.Holds f) (haug : d.aug = aug)
    (hkey : d.key_bits = key_bits) : ∃ o, d.traverse_extra key_bits traverse_node = .ok o ∧ FindsFirst high wanted [] f o := by
  subst haug hkey
  unfold AugmentedDictionary.traverse_extra
  rw [hd.force_validate]
  have hroot := hd.root
  cases hc : d.root_cell with
  | none =>
    rw [hc] at hroot
    obtain rfl : f = empty := hroot
    exact ⟨none, by simp [lifted, Except.mapError], fun k v hk => absurd hk (by simp [empty])⟩
  | some c =>
    rw [hc] at hroot
    obtain ⟨t, ht, rfl⟩ := hroot
    obtain ⟨o, hrun, hfind⟩ := dict_traverse_extra_spec haug hg ht [] (Nat.zero_add _)
    exact ⟨o, by simpa [lifted, Except.mapError] using hrun, hfind⟩

end

end Ton.Dict
