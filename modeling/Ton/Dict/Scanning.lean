import Ton.Dict.ScanDiff
import Ton.Dict.Rewriting
import Ton.Cells.Tree
/-!
# scan_diff reports exactly the differences

Of two readable dictionaries, of which `mode` asks no check that fails, and no two cells
of which collide in their hashes.
-/

namespace Ton.Dict
open CellTraits Result BitMap LabelParser DataCell List Option

variable {V : Virtual} {n m : Nat} {f g : BitMap CellSlice} {c c1 c2 d1 d2 : DataCell} {pre q : List Bool}

/-! ## Nodes that are checked -/

/-- A dictionary that is asked to be valid is, with the bits `pre` before its keys. -/
def Passed (V : Virtual) (asked : Bool) (pre : List Bool) (n : Nat) (c : DataCell) : Prop :=
  asked = true → dict_validate_check V (fun _ _ => true) (some c) pre n false = .ok true

theorem checked_ok {σ : Type} {asked : Bool} {ok : Except Exc Bool} {error : String} {k : Scan σ} (h : asked = true → ok = .ok true) :
    checked asked ok error k = k := by
  unfold checked
  split
  · next ha =>
    rw [h ha]
    rfl
  · rfl

section Passed
variable {asked : Bool} {label bits : List Bool} {refs : List DataCell} {payload : CellSlice} {p : LabelParser}

theorem Passed.leaf (h : Passed V asked pre n c) (hp : LabelParser.parse c n V.label_mode = .ok p) (hr : p.Reads label payload)
    (hn : label.length = n) (ha : asked = true) : V.check_leaf payload (pre ++ label) = true := by
  have hv := h ha
  rw [dict_validate_check.eq_def] at hv
  dsimp only at hv
  rw [hp, ok_bind] at hv
  rw [dif_pos (hr.extract_l_bits.trans hn), hr.extract_label.1, hr.extract_label.2, Bool.and_true] at hv
  exact Except.ok.inj hv

theorem Passed.fork (h : Passed V asked pre n c) (hp : LabelParser.parse c n V.label_mode = .ok p)
    (hr : p.Reads label ⟨bits, c1 :: c2 :: refs⟩) (hlt : label.length < n) :
    (asked = true → check_fork_raw V ⟨bits, c1 :: c2 :: refs⟩ (n - (label.length + 1) + 1) = .ok true) ∧
      Passed V asked (pre ++ label ++ [false]) (n - (label.length + 1)) c1 ∧ Passed V asked (pre ++ label ++ [true]) (n - (label.length + 1)) c2 := by
  suffices hall : asked = true → check_fork_raw V ⟨bits, c1 :: c2 :: refs⟩ (n - (label.length + 1) + 1) = .ok true ∧
      dict_validate_check V (fun _ _ => true) (some c1) (pre ++ label ++ [false]) (n - (label.length + 1)) false = .ok true ∧
      dict_validate_check V (fun _ _ => true) (some c2) (pre ++ label ++ [true]) (n - (label.length + 1)) false = .ok true from
    ⟨fun ha => (hall ha).1, fun ha => (hall ha).2.1, fun ha => (hall ha).2.2⟩
  intro ha
  have hv := h ha
  rw [dict_validate_check.eq_def] at hv
  dsimp only at hv
  rw [hp, ok_bind] at hv
  rw [dif_neg (by rw [hr.extract_l_bits]; omega), dif_neg (by rw [hr.extract_l_bits]; omega), hr.extract_label.1, hr.extract_label.2,
    hr.extract_l_bits] at hv
  obtain ⟨b, hb, hv⟩ := bind_ok.1 hv
  cases b with
  | false => cases hv
  | true =>
    rw [Bool.not_true, if_neg Bool.false_ne_true, ite_self, if_neg Bool.false_ne_true] at hv
    obtain ⟨b1, hb1, hv⟩ := bind_ok.1 hv
    cases b1 with
    | false => cases hv
    | true => exact ⟨hb, hb1, hv⟩

end Passed

/-! ## One dictionary against none -/

/-- The map, or the empty one. -/
def side (b : Bool) (f : BitMap CellSlice) : BitMap CellSlice := if b then f else empty

theorem side_under (b : Bool) (label : List Bool) (f : BitMap CellSlice) : side b (under label f) = under label (side b f) := by
  cases b with
  | false => exact (under_empty label).symm
  | true => rfl

theorem side_split (b : Bool) (f g : BitMap CellSlice) : side b (split f g) = split (side b f) (side b g) := by
  cases b with
  | false => exact split_empty.symm
  | true => rfl

theorem side_single (b : Bool) (v : CellSlice) : side b (single v) = (if b then some v else none).elim empty single := by
  cases b <;> rfl

theorem dict_scan_one_scans {σ : Type} (diff_func : DiffFunc σ) ( second : Bool) (mode : Nat) (h : Readable V.label_mode n f c)
    (hpass : Passed V (mode.testBit second.toNat) pre n c) :
    Scans diff_func pre (side (!second) f) (side second f) (dict_scan_one V diff_func second (some c) pre n mode) := by
  induction n using Nat.strong_induction_on generalizing f c pre with
  | _ n ih =>
  obtain ⟨label, m, f', payload, p, hn, rfl, hp, hr, hunder⟩ := h.exists_node
  rw [side_under, side_under]
  refine Scans.under ?_
  rw [dict_scan_one.eq_def]
  dsimp only
  rw [hp, Scan.get_ok, hr.extract_l_bits, hr.extract_label.1, hr.extract_label.2]
  cases hunder with
  | leaf v =>
    have hleaf := hpass.leaf hp hr (by omega)
    rw [dif_pos (by omega), if_neg (by omega), checked_ok fun ha => congrArg Except.ok (hleaf ha), side_single, side_single]
    cases second with
    | false => exact scans_leaf (v := some payload) (w := none) (by simp)
    | true => exact scans_leaf (v := none) (w := some payload) (by simp)
  | @fork bits m f₀ f₁ a1 a2 refs h1 h2 =>
    obtain ⟨hfork, hpass1, hpass2⟩ := hpass.fork hp hr (by omega)
    have hm : n - (label.length + 1) = m := by omega
    rw [hm] at hpass1 hpass2
    rw [side_split, side_split, dif_neg (by omega), checked_ok hfork, hm]
    exact (ih m (by omega) h1 hpass1).split (ih m (by omega) h2 hpass2)

/-! ## Cells that are told apart by their hashes -/

/-- No cell of the one and cell of the other have the same hash, but equal ones. -/
def NoCollision (d1 d2 : DataCell) : Prop :=
  ∀ a ∈ subcells d1, ∀ b ∈ subcells d2, a.get_hash max_level = b.get_hash max_level → a = b

theorem subcells_child {a : DataCell} (h : c1 ∈ c.refs) (ha : a ∈ subcells c1) : a ∈ subcells c := by
  rw [subcells_eq]
  exact mem_cons_of_mem _ (mem_subcellsList.mpr ⟨c1, h, ha⟩)

theorem NoCollision.left (h : NoCollision d1 d2) (hc : c1 ∈ d1.refs) : NoCollision c1 d2 := fun a ha => h a (subcells_child hc ha)

theorem NoCollision.right (h : NoCollision d1 d2) (hc : c2 ∈ d2.refs) : NoCollision d1 c2 :=
  fun a ha b hb => h a ha b (subcells_child hc hb)

theorem refs_advance (cs : CellSlice) (bits : Nat) : (cs.advance bits).refs = cs.refs := by
  unfold CellSlice.advance
  split <;> rfl

theorem refs_fetch_ulong (cs : CellSlice) (bits : Nat) : (cs.fetch_ulong bits).2.refs = cs.refs := by
  unfold CellSlice.fetch_ulong
  split
  · rfl
  · exact refs_advance cs bits

theorem refs_parse_label {cs : CellSlice} {p : LabelParser} (h : parse_label cs n = some p) : p.remainder.refs = cs.refs := by
  unfold parse_label at h
  split at h
  · cases h
    exact refs_advance cs 2
  · dsimp only at h
    split at h
    · cases h
    · cases h
      exact (refs_advance _ _).trans (refs_advance cs 1)
  · split at h
    · next l cs' hf =>
      split at h
      · cases h
      · cases h
        rw [← refs_advance cs 2, ← refs_fetch_ulong (cs.advance 2) (len_bits n), hf]
    · cases h
  · split at h
    · cases h
    · split at h
      · next l cs' hf =>
        split at h
        · next l' cs'' hf' =>
          split at h
          · cases h
          · cases h
            rw [← refs_fetch_ulong cs 3, hf, ← refs_fetch_ulong cs' (len_bits n), hf']
        · cases h
      · cases h
  · cases h

theorem Edge.refs_eq {mode : Check} {s label : List Bool} {payload : CellSlice} (h : Edge mode s label n payload c) : payload.refs = c.refs := by
  obtain ⟨p, hp, hr⟩ := h
  have hrefs : payload.refs = p.remainder.refs := by
    rcases hr.cases with ⟨-, -, he⟩ | ⟨-, -, -, he⟩ <;> rw [he]
  unfold LabelParser.parse at hp
  obtain ⟨cs, hcs, hp⟩ := bind_ok.1 hp
  have hload : cs.refs = c.refs := by
    unfold load_cell_slice at hcs
    split at hcs
    · cases hcs
    · cases hcs
      rfl
  split at hp
  · cases hp
  · next q hq =>
    obtain ⟨u, -, hp⟩ := bind_ok.1 hp
    cases hp
    rw [hrefs, refs_parse_label hq, hload]

theorem NoCollision.contents_equal {v w : CellSlice} (h : NoCollision d1 d2) (hv : v.refs = d1.refs) (hw : w.refs = d2.refs) :
    v.contents_equal w = true ↔ v = w := by
  have hrefs : ∀ {as bs : List DataCell}, (∀ a ∈ as, a ∈ d1.refs) → (∀ b ∈ bs, b ∈ d2.refs) →
      as.map (·.get_hash max_level) = bs.map (·.get_hash max_level) → as = bs := by
    intro as
    induction as with
    | nil => intro bs _ _ he; exact (map_eq_nil_iff.mp he.symm).symm
    | cons a as ih =>
      intro bs ha hb he
      cases bs with
      | nil => cases he
      | cons b bs =>
        rw [map_cons, map_cons, List.cons.injEq] at he
        rw [h a (subcells_child (ha a mem_cons_self) (mem_subcells_self a)) b
          (subcells_child (hb b mem_cons_self) (mem_subcells_self b)) he.1,
          ih (fun x hx => ha x (mem_cons_of_mem _ hx)) (fun x hx => hb x (mem_cons_of_mem _ hx)) he.2]
  constructor
  · intro he
    simp only [CellSlice.contents_equal, Bool.and_eq_true, beq_iff_eq] at he
    obtain ⟨⟨-, hbits⟩, hhash⟩ := he
    obtain ⟨vb, vr⟩ := v
    obtain ⟨wb, wr⟩ := w
    dsimp only at hbits hhash hv hw
    rw [hbits, hrefs (fun a ha => hv ▸ ha) (fun b hb => hw ▸ hb) hhash]
  · rintro rfl
    simp [CellSlice.contents_equal]

/-! ## One cell, one map -/

theorem Readable.map_unique {label_mode : Check} (h : Readable label_mode n f c) (h' : Readable label_mode n g c) : f = g := by
  induction n using Nat.strong_induction_on generalizing f g c with
  | _ n ih =>
  obtain ⟨label, m, f', payload, p, hn, rfl, hp, hr, hunder⟩ := h.exists_node
  obtain ⟨label', m', g', payload', p', hn', rfl, hp', hr', hunder'⟩ := h'.exists_node
  cases hp.symm.trans hp'
  obtain ⟨rfl, rfl⟩ := hr.unique hr'
  obtain rfl : m = m' := by omega
  congr 1
  cases hunder with
  | leaf v =>
    cases hunder' with
    | leaf => rfl
  | fork h1 h2 =>
    cases hunder' with
    | fork h1' h2' => rw [ih _ (by omega) h1 h1', ih _ (by omega) h2 h2']

theorem Beneath.readable {label_mode : Check} {s : List Bool} (h : Beneath label_mode s n f c) :
    Readable label_mode (n + s.length) (under s f) c := by
  obtain ⟨label, m, g, payload, rfl, rfl, ⟨p, hp, hr⟩, hunder⟩ := h
  have hn : label.length + m + s.length = (s ++ label).length + m := by
    rw [length_append]
    omega
  rw [hn] at hp ⊢
  rw [under_under]
  cases hunder with
  | leaf v => exact .leaf hp hr
  | fork h1 h2 => exact .fork hp hr h1 h2

/-! ## Two dictionaries -/

section Step
variable (V) {σ : Type} (diff_func : DiffFunc σ) (d1 d2 : DataCell) (pre q1 q2 : List Bool) (n mode : Nat) (s1 s2 : List Bool) (p1 p2 : CellSlice)

/-- What a call does with two edges, for each way in which the labels left after the skipped bits lie to each other. -/
inductive ScanStep : List Bool → List Bool → Scan σ → Prop
  /-- The two dictionaries have disjoint keys, those with a zero come first. -/
  | parted (p r1 r2 : List Bool) (x : Bool) : ScanStep (p ++ (!x) :: r1) (p ++ x :: r2)
      (let scan1 := dict_scan_one V diff_func false (some d1) q1 (n + s1.length) mode
       let scan2 := dict_scan_one V diff_func true (some d2) q2 (n + s2.length) mode
       if !x then scan2.andThen scan1 else scan1.andThen scan2)
  /-- Two leaves with one key. -/
  | leaves (label : List Bool) (h : label.length = n) : ScanStep label label
      (checked (mode.testBit 0) (.ok (V.check_leaf p1 (pre ++ label))) "invalid leaf in the first dictionary being compared" <|
        checked (mode.testBit 1) (.ok (V.check_leaf p2 (pre ++ label))) "invalid leaf in the second dictionary being compared" <|
        if p1.contents_equal p2 then .done else diff_func (pre ++ label) (some p1) (some p2))
  /-- Two forks under one edge. -/
  | forks (label : List Bool) (h : label.length < n) : ScanStep label label
      (checked (mode.testBit 0) (check_fork_raw V p1 (n - (label.length + 1) + 1)) "invalid fork in the first dictionary being compared" <|
        checked (mode.testBit 1) (check_fork_raw V p2 (n - (label.length + 1) + 1)) "invalid fork in the second dictionary being compared" <|
        .andThen (dict_scan_diff V diff_func (p1.prefetch_ref 0) (p2.prefetch_ref 0) (pre ++ label ++ [false]) (n - (label.length + 1)) mode 0 0)
          (dict_scan_diff V diff_func (p1.prefetch_ref 1) (p2.prefetch_ref 1) (pre ++ label ++ [true]) (n - (label.length + 1)) mode 0 0))
  /-- The second dictionary is compared with a child of the first. -/
  | first (label r : List Bool) (sw : Bool) (h : label.length < n) : ScanStep label (label ++ sw :: r)
      (checked (mode.testBit 0) (check_fork_raw V p1 (n - label.length)) "invalid fork in the first dictionary being compared" <|
        let below (b : Bool) : Scan σ :=
          if b = sw then dict_scan_diff V diff_func (p1.prefetch_ref b.toNat) (some d2) (pre ++ label ++ [b]) (n - (label.length + 1)) mode 0
            (s2 ++ label ++ [sw]).length
          else dict_scan_one V diff_func false (p1.prefetch_ref b.toNat) (pre ++ label ++ [b]) (n - (label.length + 1)) mode
        (below false).andThen (below true))
  /-- The first dictionary is compared with a child of the second. -/
  | second (label r : List Bool) (sw : Bool) (h : label.length < n) : ScanStep (label ++ sw :: r) label
      (checked (mode.testBit 1) (check_fork_raw V p2 (n - label.length)) "invalid fork in the second dictionary being compared" <|
        let below (b : Bool) : Scan σ :=
          if b = sw then dict_scan_diff V diff_func (some d1) (p2.prefetch_ref b.toNat) (pre ++ label ++ [b]) (n - (label.length + 1)) mode
            (s1 ++ label ++ [sw]).length 0
          else dict_scan_one V diff_func true (p2.prefetch_ref b.toNat) (pre ++ label ++ [b]) (n - (label.length + 1)) mode
        (below false).andThen (below true))

variable {V d1 d2 pre q1 q2 n s1 s2 p1 p2} {label1 label2 : List Bool}

theorem dict_scan_diff_step (h1 : Edge V.label_mode s1 label1 n p1 d1) (h2 : Edge V.label_mode s2 label2 n p2 d2) (hq1 : pre = q1 ++ s1)
    (hq2 : pre = q2 ++ s2) (hn1 : label1.length ≤ n) (hn2 : label2.length ≤ n)
    (hhash : ¬(s1.length = s2.length ∧ d1.get_hash max_level = d2.get_hash max_level)) :
    ∃ r, dict_scan_diff V diff_func (some d1) (some d2) pre n mode s1.length s2.length = r ∧
      ScanStep V diff_func d1 d2 pre q1 q2 n mode s1 s2 p1 p2 label1 label2 r := by
  obtain ⟨lp1, hlp1, hr1⟩ := h1
  obtain ⟨lp2, hlp2, hr2⟩ := h2
  obtain ⟨hbits1, hrem1⟩ := hr1.extract_label
  obtain ⟨hbits2, hrem2⟩ := hr2.extract_label
  have hs1 : before pre s1.length = s1 := by rw [hq1, before, length_append, Nat.add_sub_cancel, drop_left]
  have hs2 : before pre s2.length = s2 := by rw [hq2, before, length_append, Nat.add_sub_cancel, drop_left]
  have ht1' : pre.take (pre.length - s1.length) = q1 := by rw [hq1, length_append, Nat.add_sub_cancel, take_left]
  have ht2' : pre.take (pre.length - s2.length) = q2 := by rw [hq2, length_append, Nat.add_sub_cancel, take_left]
  obtain ⟨ht1, ht2, hc⟩ := label_tests hr1 hr2 hs1 hs2
  rw [dict_scan_diff.eq_def]
  dsimp only
  rw [if_neg hhash, hlp1, Scan.get_ok, hlp2, Scan.get_ok, hr1.l_bits, hr2.l_bits, hbits1, hbits2, hrem1, hrem2, drop_left,
    drop_left, ht1, ht2, hc, ht1', ht2', length_append, length_append, Nat.add_sub_cancel_left, Nat.add_sub_cancel_left,
    if_neg (not_not.2 ⟨Nat.le_add_right _ _, Nat.le_add_right _ _⟩), if_neg (not_not.2 ⟨rfl, rfl⟩),
    if_neg (not_not.2 ⟨same_upto_le_right _ _, same_upto_le_left _ _⟩)]
  have hle1 := same_upto_le_right label2 label1
  have hle2 := same_upto_le_left label2 label1
  by_cases hpart : same_upto label2 label1 < label1.length ∧ same_upto label2 label1 < label2.length
  · rw [if_pos hpart]
    obtain ⟨p, x, r2, r1, hp, rfl, rfl⟩ := same_upto_split hpart.2 hpart.1
    rw [← hp, show (p ++ (!x) :: r1).getD p.length false = !x by simp]
    exact ⟨_, rfl, .parted p r1 r2 x⟩
  rw [if_neg hpart]
  by_cases hsame : same_upto label2 label1 = label1.length ∧ same_upto label2 label1 = label2.length
  · rw [if_pos hsame]
    obtain rfl : label2 = label1 := (same_upto_eq_length.1 hsame.2).eq_of_length (by omega)
    rw [hsame.1]
    by_cases hleaf : label2.length = n
    · rw [if_pos hleaf]
      exact ⟨_, rfl, .leaves label2 hleaf⟩
    · rw [if_neg hleaf, dif_neg (by omega)]
      exact ⟨_, rfl, .forks label2 (by omega)⟩
  rw [if_neg hsame, dif_neg (by omega)]
  by_cases hfirst : same_upto label2 label1 = label1.length
  · obtain ⟨sw, r, rfl⟩ := same_upto_longer ((same_upto_comm label1 label2).trans hfirst) (by omega)
    rw [if_pos hfirst, hfirst, show (label1 ++ sw :: r).getD label1.length false = sw by simp, take_left,
      show s2.length + label1.length + 1 = (s2 ++ label1 ++ [sw]).length by simp; omega]
    refine ⟨_, ?_, .first label1 r sw ?_⟩
    · cases sw <;> rfl
    · simp only [length_append, length_cons] at hn2
      omega
  · obtain ⟨sw, r, rfl⟩ := same_upto_longer (show same_upto label2 label1 = label2.length by omega) (by omega)
    have hc2 : same_upto label2 (label2 ++ sw :: r) = label2.length := same_upto_eq_length.2 (prefix_append _ _)
    rw [if_neg hfirst, hc2, show (label2 ++ sw :: r).getD label2.length false = sw by simp, take_left,
      show s1.length + label2.length + 1 = (s1 ++ label2 ++ [sw]).length by simp; omega]
    refine ⟨_, ?_, .second label2 r sw ?_⟩
    · cases sw <;> rfl
    · simp only [length_append, length_cons] at hn1
      omega

end Step

section Edges
variable {asked : Bool} {s label bits : List Bool} {refs : List DataCell} {payload : CellSlice}

theorem Passed.edge_leaf (h : Passed V asked q (n + s.length) c) (hc : Edge V.label_mode s label n payload c) (hpre : pre = q ++ s)
    (hn : label.length = n) (ha : asked = true) : (.ok (V.check_leaf payload (pre ++ label)) : Except Exc Bool) = .ok true := by
  obtain ⟨p, hp, hr⟩ := hc
  have hleaf := h.leaf hp hr (by rw [length_append]; omega) ha
  rw [hpre, append_assoc, hleaf]

theorem Passed.edge_fork (h : Passed V asked q (n + s.length) c) (hc : Edge V.label_mode s label n ⟨bits, c1 :: c2 :: refs⟩ c)
    (hpre : pre = q ++ s) (hlt : label.length < n) :
    (asked = true → check_fork_raw V ⟨bits, c1 :: c2 :: refs⟩ (n - label.length) = .ok true) ∧
      Passed V asked (pre ++ label ++ [false]) (n - (label.length + 1)) c1 ∧ Passed V asked (pre ++ label ++ [true]) (n - (label.length + 1)) c2 := by
  obtain ⟨p, hp, hr⟩ := hc
  have hfork := h.fork hp hr (by rw [length_append]; omega)
  rw [length_append, show n + s.length - (s.length + label.length + 1) = n - (label.length + 1) by omega,
    show n - (label.length + 1) + 1 = n - label.length by omega, ← append_assoc, ← hpre] at hfork
  exact hfork

theorem Passed.below {sw : Bool} (h : Passed V asked q (n + s.length) c) (hlt : label.length < n) :
    Passed V asked q (n - (label.length + 1) + (s ++ label ++ [sw]).length) c := by
  have hn : n - (label.length + 1) + (s ++ label ++ [sw]).length = n + s.length := by
    simp only [length_append, length_singleton]
    omega
  rwa [hn]

end Edges

theorem Beneath.scan_one {σ : Type} (diff_func : DiffFunc σ) ( second : Bool) {mode : Nat} {s : List Bool} (h : Beneath V.label_mode s n f c)
    (hpre : pre = q ++ s) (hpass : Passed V (mode.testBit second.toNat) q (n + s.length) c) :
    Scans diff_func pre (side (!second) f) (side second f) (dict_scan_one V diff_func second (some c) q (n + s.length) mode) := by
  have hwhole := dict_scan_one_scans diff_func second mode h.readable hpass
  rw [side_under, side_under] at hwhole
  rw [hpre]
  exact hwhole.of_under

theorem Scans.part {σ : Type} {diff_func : DiffFunc σ} {p r : List Bool} {b b1 b2 : Bool} {walk : Scan σ}
    (h : Scans diff_func pre (side b1 (BitMap.under (p ++ b :: r) f)) (side b2 (BitMap.under (p ++ b :: r) f)) walk) :
    Scans diff_func (pre ++ p ++ [b]) (side b1 (BitMap.under r f)) (side b2 (BitMap.under r f)) walk := by
  rw [show p ++ b :: r = p ++ ([b] ++ r) from rfl, ← under_under, ← under_under] at h
  simp only [side_under] at h ⊢
  exact h.of_under.of_under

theorem dict_scan_diff_scans {σ : Type} (diff_func : DiffFunc σ) (mode n : Nat) (pre : List Bool) {f1 f2 : BitMap CellSlice} {d1 d2 : DataCell}
    {s1 s2 q1 q2 : List Bool} (h1 : Beneath V.label_mode s1 n f1 d1) (h2 : Beneath V.label_mode s2 n f2 d2) (hq1 : pre = q1 ++ s1)
    (hq2 : pre = q2 ++ s2) (hp1 : Passed V (mode.testBit 0) q1 (n + s1.length) d1) (hp2 : Passed V (mode.testBit 1) q2 (n + s2.length) d2)
    (hinj : NoCollision d1 d2) :
    Scans diff_func pre f1 f2 (dict_scan_diff V diff_func (some d1) (some d2) pre n mode s1.length s2.length) := by
  induction n using Nat.strong_induction_on generalizing f1 f2 d1 d2 pre s1 s2 q1 q2 with
  | _ n ih =>
  by_cases hhash : s1.length = s2.length ∧ d1.get_hash max_level = d2.get_hash max_level
  · -- one cell under the same bits
    obtain ⟨-, rfl⟩ := append_inj' (hq1.symm.trans hq2) hhash.1
    obtain rfl := hinj d1 (mem_subcells_self d1) d2 (mem_subcells_self d2) hhash.2
    obtain rfl := under_injective s1 (h1.readable.map_unique h2.readable)
    rw [dict_scan_diff.eq_def]
    dsimp only
    rw [if_pos hhash]
    exact scans_same f1
  have hone1 := h1.scan_one diff_func false hq1 hp1
  have hone2 := h2.scan_one diff_func true hq2 hp2
  obtain ⟨label1, m1, g1, p1, hn1, rfl, hedge1, hu1⟩ := h1
  obtain ⟨label2, m2, g2, p2, hn2, rfl, hedge2, hu2⟩ := h2
  obtain ⟨r, hr, hstep⟩ := dict_scan_diff_step diff_func mode hedge1 hedge2 hq1 hq2 (by omega) (by omega) hhash
  rw [hr]
  cases hstep with
  | parted p r1 r2 x =>
    have h1 := hone1.part
    have h2 := hone2.part
    rw [← under_under p ((!x) :: r1), ← under_under p (x :: r2), under_cons, under_cons]
    refine Scans.under ?_
    cases x with
    | false => exact h2.split h1
    | true => exact h1.split h2
  | leaves _ h =>
    obtain rfl : m1 = 0 := by omega
    obtain rfl : m2 = 0 := by omega
    have hleaf1 := hp1.edge_leaf hedge1 hq1 h
    have hleaf2 := hp2.edge_leaf hedge2 hq2 h
    cases hu1
    cases hu2
    refine Scans.under ?_
    rw [checked_ok hleaf1, checked_ok hleaf2]
    by_cases heq : p1 = p2
    · subst heq
      rw [if_pos ((hinj.contents_equal hedge1.refs_eq hedge2.refs_eq).mpr rfl)]
      exact scans_same _
    · rw [if_neg fun hc => heq ((hinj.contents_equal hedge1.refs_eq hedge2.refs_eq).mp hc)]
      exact scans_leaf (v := some p1) (w := some p2) fun h => heq (Option.some.inj h)
  | forks _ h =>
    cases hu1 with
    | leaf => omega
    | @fork bits m f g a1 a2 refs ha1 ha2 =>
      cases hu2 with
      | leaf => omega
      | @fork bits' m' f' g' b1 b2 refs' hb1 hb2 =>
        obtain ⟨hfork1, hpa1, hpa2⟩ := hp1.edge_fork hedge1 hq1 h
        obtain ⟨hfork2, hpb1, hpb2⟩ := hp2.edge_fork hedge2 hq2 h
        obtain rfl : m = n - (label1.length + 1) := by omega
        obtain rfl : m' = n - (label1.length + 1) := by omega
        rw [show n - (label1.length + 1) + 1 = n - label1.length by omega, checked_ok hfork1, checked_ok hfork2]
        have hleft := hinj.left (hedge1.refs_eq ▸ mem_cons_self : a1 ∈ d1.refs)
        have hright := hinj.left (hedge1.refs_eq ▸ mem_cons_of_mem _ mem_cons_self : a2 ∈ d1.refs)
        refine Scans.under (Scans.split ?_ ?_)
        · exact ih _ (by omega) _ ha1.beneath hb1.beneath (append_nil _).symm (append_nil _).symm hpa1 hpb1
            (hleft.right (hedge2.refs_eq ▸ mem_cons_self))
        · exact ih _ (by omega) _ ha2.beneath hb2.beneath (append_nil _).symm (append_nil _).symm hpa2 hpb2
            (hright.right (hedge2.refs_eq ▸ mem_cons_of_mem _ mem_cons_self))
  | first _ r sw h =>
    simp only [length_append, length_cons] at hn2
    cases hu1 with
    | leaf => omega
    | @fork bits m f g a1 a2 refs ha1 ha2 =>
      obtain ⟨hfork, hpa1, hpa2⟩ := hp1.edge_fork hedge1 hq1 h
      obtain rfl : m = n - (label1.length + 1) := by omega
      have hbelow : Beneath V.label_mode (s2 ++ label1 ++ [sw]) (n - (label1.length + 1)) (under r g2) d2 := hu2.beneath (by omega) hedge2
      have hpre : pre ++ label1 ++ [sw] = q2 ++ (s2 ++ label1 ++ [sw]) := by rw [hq2, append_assoc, append_assoc, append_assoc]
      have hpass : Passed V (mode.testBit 1) q2 (n - (label1.length + 1) + (s2 ++ label1 ++ [sw]).length) d2 := hp2.below h
      have hleft := hinj.left (hedge1.refs_eq ▸ mem_cons_self : a1 ∈ d1.refs)
      have hright := hinj.left (hedge1.refs_eq ▸ mem_cons_of_mem _ mem_cons_self : a2 ∈ d1.refs)
      rw [checked_ok hfork, ← under_under label1 (sw :: r), under_cons]
      refine Scans.under ?_
      cases sw with
      | false =>
        refine Scans.split ?_ (dict_scan_one_scans diff_func false mode ha2 hpa2)
        exact ih _ (by omega) _ ha1.beneath hbelow (append_nil _).symm hpre hpa1 hpass hleft
      | true =>
        refine Scans.split (dict_scan_one_scans diff_func false mode ha1 hpa1) ?_
        exact ih _ (by omega) _ ha2.beneath hbelow (append_nil _).symm hpre hpa2 hpass hright
  | second _ r sw h =>
    simp only [length_append, length_cons] at hn1
    cases hu2 with
    | leaf => omega
    | @fork bits m f g b1 b2 refs hb1 hb2 =>
      obtain ⟨hfork, hpb1, hpb2⟩ := hp2.edge_fork hedge2 hq2 h
      obtain rfl : m = n - (label2.length + 1) := by omega
      have hbelow : Beneath V.label_mode (s1 ++ label2 ++ [sw]) (n - (label2.length + 1)) (under r g1) d1 := hu1.beneath (by omega) hedge1
      have hpre : pre ++ label2 ++ [sw] = q1 ++ (s1 ++ label2 ++ [sw]) := by rw [hq1, append_assoc, append_assoc, append_assoc]
      have hpass : Passed V (mode.testBit 0) q1 (n - (label2.length + 1) + (s1 ++ label2 ++ [sw]).length) d1 := hp1.below h
      have hleft := hinj.right (hedge2.refs_eq ▸ mem_cons_self : b1 ∈ d2.refs)
      have hright := hinj.right (hedge2.refs_eq ▸ mem_cons_of_mem _ mem_cons_self : b2 ∈ d2.refs)
      rw [checked_ok hfork, ← under_under label2 (sw :: r), under_cons]
      refine Scans.under ?_
      cases sw with
      | false =>
        refine Scans.split ?_ (dict_scan_one_scans diff_func true mode hb2 hpb2)
        exact ih _ (by omega) _ hbelow hb1.beneath hpre (append_nil _).symm hpass hpb1 hleft
      | true =>
        refine Scans.split (dict_scan_one_scans diff_func true mode hb1 hpb1) ?_
        exact ih _ (by omega) _ hbelow hb2.beneath hpre (append_nil _).symm hpass hpb2 hright

/-! ## scan_diff -/

/-- A call of the callback. -/
abbrev Call := List Bool × Option CellSlice × Option CellSlice

/-- A callback that only keeps a list of its calls. -/
def logged (answer : Call → Bool) : DiffFunc (List Call) := fun key v w calls => (.ok (answer (key, v, w)), calls ++ [(key, v, w)])

section Logged
variable {answer : Call → Bool} {ks ls : List (List Bool)}

/-- The calls for a list of keys. -/
def calls (f g : BitMap CellSlice) (ks : List (List Bool)) : List Call := ks.map fun k => (k, f k, g k)

theorem report_cons_logged (k : List Bool) (log : List Call) : report (logged answer) [] f g (k :: ks) log =
    if answer (k, f k, g k) then report (logged answer) [] f g ks (log ++ [(k, f k, g k)]) else (.ok false, log ++ [(k, f k, g k)]) := by
  rw [report, Scan.andThen, logged]
  dsimp only [nil_append]
  cases answer (k, f k, g k) <;> rfl

theorem report_logged (h : ∀ k ∈ ks, answer (k, f k, g k) = true) (log : List Call) :
    report (logged answer) [] f g (ks ++ ls) log = report (logged answer) [] f g ls (log ++ calls f g ks) := by
  induction ks generalizing log with
  | nil => rw [nil_append, calls, map_nil, append_nil]
  | cons k ks ih =>
    rw [cons_append, report_cons_logged, if_pos (h k mem_cons_self), ih fun k hk => h k (mem_cons_of_mem _ hk), calls, calls,
      map_cons, append_assoc, singleton_append]

end Logged

/-- `scan_diff` shows any callback the keys at which the maps differ, in increasing order, each once and with its two values, until the
callback refuses a key or throws. -/
structure ScansExactly (d dict2 : DictionaryFixed) (check_augm : Nat) (f g : BitMap CellSlice) (ks : List (List Bool)) : Prop where
  differences : Differences f g ks
  reports : ∀ (σ : Type) (diff_func : DiffFunc σ), d.scan_diff dict2 diff_func check_augm = .caught (report diff_func [] f g ks)
  /-- A callback that agrees to everything is shown everything. -/
  all : ∀ answer, (∀ k ∈ ks, answer (k, f k, g k) = true) → d.scan_diff dict2 (logged answer) check_augm [] = (.ok true, calls f g ks)
  /-- A refusal is the last call. -/
  refused : ∀ answer as k bs, ks = as ++ k :: bs → (∀ a ∈ as, answer (a, f a, g a) = true) → answer (k, f k, g k) = false →
    d.scan_diff dict2 (logged answer) check_augm [] = (.ok false, calls f g (as ++ [k]))

/-- Validation, if it is asked for, accepts the dictionary. -/
def DictionaryFixed.ValidIf (d : DictionaryFixed) (V : Virtual) (asked : Bool) : Prop :=
  asked = true → dict_validate_check V (fun _ _ => true) d.root_cell [] d.key_bits false = .ok true

section ScanDiff
variable {d dict2 : DictionaryFixed} {check_augm : Nat}

theorem dict_scan_diff_root {σ : Type} (diff_func : DiffFunc σ) (hf : ReadableRoot V.label_mode n f d.root_cell)
    (hg : ReadableRoot V.label_mode n g dict2.root_cell) (hn : d.key_bits = n) (hbits : dict2.key_bits = n)
    (hv1 : d.ValidIf V (check_augm.testBit 0)) (hv2 : dict2.ValidIf V (check_augm.testBit 1))
    (hinj : ∀ c1 ∈ d.root_cell, ∀ c2 ∈ dict2.root_cell, NoCollision c1 c2) :
    Scans diff_func [] f g (dict_scan_diff V diff_func d.root_cell dict2.root_cell [] n check_augm 0 0) := by
  unfold DictionaryFixed.ValidIf at hv1 hv2
  rw [hn] at hv1
  rw [hbits] at hv2
  generalize d.root_cell = r1 at *
  generalize dict2.root_cell = r2 at *
  cases r1 with
  | none =>
    obtain rfl : f = empty := hf
    cases r2 with
    | none =>
      obtain rfl : g = empty := hg
      rw [dict_scan_diff.eq_def]
      exact scans_same _
    | some c2 =>
      rw [dict_scan_diff.eq_def]
      exact dict_scan_one_scans diff_func true check_augm hg hv2
  | some c1 =>
    cases r2 with
    | none =>
      obtain rfl : g = empty := hg
      rw [dict_scan_diff.eq_def]
      exact dict_scan_one_scans diff_func false check_augm hf hv1
    | some c2 =>
      exact dict_scan_diff_scans diff_func check_augm n [] (Readable.beneath hf) (Readable.beneath hg) rfl rfl hv1 hv2
        (hinj c1 rfl c2 rfl)

/-- `scan_diff` of two readable dictionaries without hash collisions, valid where `check_augm` asks for that, is exact. -/
theorem scan_diff_exact (hf : ReadableRoot d.methods.label_mode d.key_bits f d.root_cell)
    (hg : ReadableRoot d.methods.label_mode d.key_bits g dict2.root_cell) (hbits : dict2.key_bits = d.key_bits) (hmax : d.key_bits ≤ max_key_bits)
    (hv1 : d.ValidIf d.methods (check_augm.testBit 0)) (hv2 : dict2.ValidIf d.methods (check_augm.testBit 1))
    (hinj : ∀ c1 ∈ d.root_cell, ∀ c2 ∈ dict2.root_cell, NoCollision c1 c2) : ∃ ks, ScansExactly d dict2 check_augm f g ks := by
  have hscan : ∀ (σ : Type) (diff_func : DiffFunc σ), d.scan_diff dict2 diff_func check_augm =
      .caught (dict_scan_diff d.methods diff_func d.root_cell dict2.root_cell [] d.key_bits check_augm 0 0) := fun σ diff_func => by
    rw [DictionaryFixed.scan_diff, d.force_validate_ok hmax, Scan.get_ok, dict2.force_validate_ok (by omega), Scan.get_ok, if_neg (by omega)]
  obtain ⟨ks, hks, -⟩ := dict_scan_diff_root (logged fun _ => true) hf hg rfl hbits hv1 hv2 hinj
  have hreports : ∀ (σ : Type) (diff_func : DiffFunc σ), d.scan_diff dict2 diff_func check_augm = .caught (report diff_func [] f g ks) := by
    intro σ diff_func
    obtain ⟨ls, hls, hwalk⟩ := dict_scan_diff_root diff_func hf hg rfl hbits hv1 hv2 hinj
    rw [hscan, hwalk, hks.unique hls]
  refine ⟨ks, hks, hreports, fun answer h => ?_, fun answer as k bs he has hk => ?_⟩
  · have hall : report (logged answer) [] f g (ks ++ []) [] = _ := report_logged h []
    rw [append_nil, nil_append] at hall
    rw [hreports, Scan.caught, hall]
    rfl
  · rw [hreports, Scan.caught, he, report_logged has, report_cons_logged, if_neg (by simp [hk])]
    simp [calls]

/-- Two dictionaries that differ at every key of either, among them one that both have. -/
theorem scan_diff_exact_three_keys :
    let first : List Op := [.set [false, false] ⟨[], []⟩ .Set, .set [true, false] ⟨[true], []⟩ .Set]
    let second : List Op := [.set [false, false] ⟨[false], []⟩ .Set, .set [true, true] ⟨[false, false], []⟩ .Set]
    ∃ d d2 rs rs2, Op.execAll ⟨none, 2⟩ first = .ok (d, rs) ∧ Op.execAll ⟨none, 2⟩ second = .ok (d2, rs2) ∧
      ∃ ks, ScansExactly ⟨d.root_cell, 2, .fixed⟩ ⟨d2.root_cell, 2, .fixed⟩ 0 (Op.specAll empty first).1 (Op.specAll empty second).1 ks := by
  intro first second
  -- The hashes differ already in their first byte.
  obtain ⟨⟨d, rs⟩, hp, hlow⟩ := exists_of_satisfies (x := Op.execAll ⟨none, 2⟩ first)
    (P := fun p => p.1.root_cell.all fun c => (subcells c).all fun a => (a.get_hash max_level).headD 0 < 0x80) (by decide +kernel)
  obtain ⟨⟨d2, rs2⟩, hq, hhigh⟩ := exists_of_satisfies (x := Op.execAll ⟨none, 2⟩ second)
    (P := fun p => p.1.root_cell.all fun c => (subcells c).all fun a => 0x80 ≤ (a.get_hash max_level).headD 0) (by decide +kernel)
  have hd := execAll_holds (d := ⟨none, 2⟩) (f := empty) ⟨rfl, by decide⟩ (by decide) hp
  have hd2 := execAll_holds (d := ⟨none, 2⟩) (f := empty) ⟨rfl, by decide⟩ (by decide) hq
  have hread := hd.1.readable
  have hread2 := hd2.1.readable
  rw [show d.key_bits = 2 from hd.2.2] at hread
  rw [show d2.key_bits = 2 from hd2.2.2] at hread2
  refine ⟨d, d2, rs, rs2, hp, hq, ?_⟩
  have hno : ∀ c1 ∈ d.root_cell, ∀ c2 ∈ d2.root_cell, NoCollision c1 c2 := by
    intro c1 hc1 c2 hc2 a ha b hb heq
    dsimp only at hlow hhigh
    rw [mem_def.1 hc1, all_some] at hlow
    rw [mem_def.1 hc2, all_some] at hhigh
    have hlt := of_decide_eq_true (List.all_eq_true.1 hlow a ha)
    have hle := of_decide_eq_true (List.all_eq_true.1 hhigh b hb)
    rw [heq] at hlt
    exact absurd hle (BitVec.not_le.2 hlt)
  have hnot : ∀ {i : Nat} {P : Prop}, Nat.testBit 0 i = true → P := fun h => by simp at h
  have hexact : ∃ ks, ScansExactly ⟨d.root_cell, 2, .fixed⟩ ⟨d2.root_cell, 2, .fixed⟩ 0 (Op.specAll empty first).1 (Op.specAll empty second).1 ks :=
    scan_diff_exact hread hread2 rfl (show 2 ≤ max_key_bits by decide) (fun h => hnot h) (fun h => hnot h) hno
  exact hexact

end ScanDiff

end Ton.Dict
