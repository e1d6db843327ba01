import Ton.Dict.Augmented
/-!
# Extras stay consistent

Every operation of an augmented dictionary leaves a cell whose extras are what the
augmentation makes of the values: such cells are those of the kind
`Kind.augmented`, so the specifications of the shared operations apply. The extra at
the root is then the fold of the trie, and the validation finds nothing wrong.
-/

namespace Ton.Dict
open BigEndian CellTraits CellBuilder Result BitMap LabelParser AugmentedDictionary List Option

namespace AugmentationData
variable (aug : AugmentationData)

/-- What `eval` stores in a builder it also stores in an empty one, and `skip_extra`
consumes exactly that, whatever follows. -/
def Produces (eval : CellBuilder → Option CellBuilder) : Prop :=
  ∀ cb cb', eval cb = some cb' → ∃ e : CellBuilder, eval {} = some e ∧ cb' = ⟨cb.bits ++ e.bits, cb.refs ++ e.refs⟩ ∧
    ∀ rest, aug.skip_extra (e.contents.append rest) = some rest

/-- `skip_extra` consumes exactly what the evaluations produce. -/
structure Lawful : Prop where
  leaf : ∀ v, aug.Produces (aug.eval_leaf · v)
  fork : ∀ l r, aug.Produces (aug.eval_fork · l r)
  empty : aug.Produces aug.eval_empty

/-- The fold of `eval_fork` over a trie, from the extras of the values. -/
def fold : Trie CellSlice → Option CellSlice
  | .leaf _ v => (aug.eval_leaf {} v).map contents
  | .fork _ l r => do
    let e1 ← fold l
    let e2 ← fold r
    (aug.eval_fork {} e1 e2).map contents

end AugmentationData

/-- The layout of an `AugmentedDictionary`: an extra and the value, or the children and
an extra, which is that of the children's extras. -/
def Kind.augmented (aug : AugmentationData) : Kind where
  Leaf m v p := m = 0 ∧ ∃ e, aug.eval_leaf {} v = some e ∧ p = e.contents.append v
  Fork m c1 c2 p := ∃ e1 e2 e, get_node_extra aug (some c1) (m - 1) = .ok (some e1) ∧
    get_node_extra aug (some c2) (m - 1) = .ok (some e2) ∧ aug.eval_fork {} e1 e2 = some e ∧ p = ⟨e.bits, c1 :: c2 :: e.refs⟩

section Kind
variable {aug : AugmentationData}

theorem Kind.augmented_fixed : (Kind.augmented aug).Fixed where
  leaf h := h.1
  fork h := by
    obtain ⟨-, -, e, -, -, -, rfl⟩ := h
    exact ⟨_, rfl⟩

theorem Kind.augmented_passes : (Kind.augmented aug).Passes .chk_size := fun h => by
  obtain ⟨-, -, e, -, -, -, rfl⟩ := h
  simp [Check.Passes]

theorem cut_tail_append (cs tail : CellSlice) : (cs.append tail).cut_tail tail = some cs := by
  simp [CellSlice.cut_tail, CellSlice.append, CellSlice.size, CellSlice.size_refs]

theorem contents_equal_contents (cb : CellBuilder) : cb.contents_equal cb.contents = true := by
  simp [contents_equal, contents, CellSlice.size, CellSlice.size_refs]

variable (haug : aug.Lawful)
include haug

theorem extract_extra_leaf {m : Nat} {v p : CellSlice} (h : (Kind.augmented aug).Leaf m v p) :
    ∃ e, aug.eval_leaf {} v = some e ∧ aug.extract_extra p = some (e.contents, v) ∧ aug.skip_extra p = some v := by
  obtain ⟨-, e, he, rfl⟩ := h
  obtain ⟨e', he', -, hskip⟩ := haug.leaf v {} e he
  obtain rfl : e = e' := Option.some.inj (he.symm.trans he')
  exact ⟨e, he, by simp [AugmentationData.extract_extra, hskip, cut_tail_append], hskip v⟩

theorem finish_create_fork_follows : (methods aug).Follows (.augmented aug) where
  fork {cb c1 c2 m c} h := by
    simp only [methods, finish_create_fork] at h
    split at h
    · cases h
    · split at h
      · cases h
      · next cb₂ hcb =>
        obtain ⟨cb₁, h₁, h₂⟩ := bind_eq_some_iff.1 hcb
        replace h := bind_ok.1 h
        obtain ⟨extra1, he1, h⟩ := h
        replace h := bind_ok.1 h
        obtain ⟨extra2, he2, h⟩ := h
        cases extra1 with
        | none => cases h
        | some e1 =>
          cases extra2 with
          | none => cases h
          | some e2 =>
            dsimp only at h
            split at h
            · cases h
            · next cb₃ hcb₃ =>
              obtain ⟨e, he, rfl, -⟩ := haug.fork e1 e2 _ _ hcb₃
              refine ⟨_, ⟨e1, e2, e, he1, he2, he, rfl⟩, ?_⟩
              rw [store_ref_bool_some h₂, store_ref_bool_some h₁] at h
              simpa using h

theorem finish_follows (v : CellSlice) : (finish aug v).Follows (.augmented aug) v where
  leaf {cb c} h := by
    simp only [finish, finish_create_leaf] at h
    split at h
    · cases h
    · next cb₁ hcb₁ =>
      split at h
      · cases h
      · next cb₂ hcb₂ =>
        obtain ⟨e, he, rfl, -⟩ := haug.leaf v _ _ hcb₁
        refine ⟨_, ⟨rfl, e, he, rfl⟩, ?_⟩
        rw [append_cellslice_bool_some hcb₂] at h
        simpa [CellSlice.append, contents] using h
  fork {cb c1 c2 m c} h := by
    cases c1 with
    | none => cases h
    | some c1 =>
      cases c2 with
      | none => cases h
      | some c2 =>
        obtain ⟨p, hp, hc⟩ := (finish_create_fork_follows haug).fork h
        exact ⟨c1, c2, p, rfl, rfl, hp, hc⟩

/-! ## The extra of a node -/

theorem get_node_extra_fold {n : Nat} {t : Trie CellSlice} {c : DataCell} (h : Rep (.augmented aug) n t c) :
    ∃ e, aug.fold t = some e ∧ get_node_extra aug (some c) n = .ok (some e) := by
  induction h with
  | @leaf label m v p c hv hn =>
    obtain ⟨lp, hlp, hr⟩ := hn.parse_ok (show label.length < label.length + m → Check.chk_size.Passes p from fun hlt => absurd hv.1 (by omega))
    obtain ⟨e, he, hex, -⟩ := extract_extra_leaf haug hv
    refine ⟨e.contents, by simp [AugmentationData.fold, he], ?_⟩
    have hl : lp.skip_label.l_bits = label.length + m := by rw [hv.1, Nat.add_zero]; exact hr.l_bits
    simp [get_node_extra, hlp, hl, hr.skip_label, hex]
  | @fork label m l r c1 c2 c p hl hr hp hn ihl ihr =>
    obtain ⟨lp, hlp, hr'⟩ := hn.parse_ok fun _ => Kind.augmented_passes hp
    obtain ⟨e1, e2, e, he1, he2, he, rfl⟩ := hp
    obtain ⟨e1', hf1, hg1⟩ := ihl
    obtain ⟨e2', hf2, hg2⟩ := ihr
    rw [Nat.add_sub_cancel] at he1 he2
    obtain rfl : e1 = e1' := Option.some.inj (Except.ok.inj (he1.symm.trans hg1))
    obtain rfl : e2 = e2' := Option.some.inj (Except.ok.inj (he2.symm.trans hg2))
    refine ⟨e.contents, by simp [AugmentationData.fold, hf1, hf2, he], ?_⟩
    have hlb : lp.skip_label.l_bits = label.length := hr'.l_bits
    obtain ⟨e', he', -, hskip⟩ := haug.fork e1 e2 {} e he
    obtain rfl : e = e' := Option.some.inj (he.symm.trans he')
    have hend : aug.skip_extra ⟨e.bits, e.refs⟩ = some ⟨[], []⟩ := by
      simpa [CellSlice.append, contents] using hskip ⟨[], []⟩
    simp [get_node_extra, hlp, hlb, hr'.skip_label, CellSlice.advance_refs, CellSlice.size_refs, CellSlice.size, hend,
      contents]

theorem methods_accepts : (methods aug).Accepts (.augmented aug) where
  leaf {v p key} h := by
    obtain ⟨e, he, hex, -⟩ := extract_extra_leaf haug h
    simp [methods, AugmentedDictionary.check_leaf, hex, AugmentationData.check_leaf, he, contents_equal_contents]
  fork {m c1 c2 p} h := by
    obtain ⟨e1, e2, e, he1, he2, he, rfl⟩ := h
    simp only [methods, AugmentedDictionary.check_fork, he1, he2, ok_bind, AugmentationData.check_fork, he]
    rw [if_neg (Nat.succ_ne_zero m)]
    exact congrArg Except.ok (contents_equal_contents e)

end Kind

/-! ## Runs -/

/-- The dictionary holds the map, with the extras of its values. -/
structure AugmentedDictionary.Holds (d : AugmentedDictionary) (f : BitMap CellSlice) : Prop where
  root : Root (.augmented d.aug) d.key_bits f d.root_cell
  bits : d.key_bits ≤ max_key_bits

section Holds
variable {d : AugmentedDictionary} {f : BitMap CellSlice}

theorem AugmentedDictionary.Holds.force_validate (h : d.Holds f) : d.force_validate = .ok () := by
  rw [AugmentedDictionary.force_validate, if_neg (by have := h.bits; omega)]

theorem AugmentedDictionary.Holds.validate_all (haug : d.aug.Lawful) (h : d.Holds f) : d.validate_all = .ok true := by
  rw [AugmentedDictionary.validate_all, if_neg (by have := h.bits; omega)]
  split
  · rfl
  · exact dict_validate_check_ok (methods_accepts haug) Kind.augmented_fixed Kind.augmented_passes _ _ _ h.root

theorem AugmentedDictionary.Holds.lookup (haug : d.aug.Lawful) (h : d.Holds f) {key : List Bool}
    (hk : key.length = d.key_bits) : d.lookup key = .ok (f key) := by
  unfold AugmentedDictionary.lookup
  rw [h.force_validate, ok_bind]
  have hroot := h.root
  cases hc : d.root_cell with
  | none =>
    rw [hc] at hroot
    obtain rfl : f = empty := hroot
    rw [if_pos (.inr rfl)]
    rfl
  | some c =>
    rw [hc] at hroot
    rw [if_neg (by simp [hk]), hk]
    obtain ⟨r, hr, hrel⟩ := dict_lookup_spec Kind.augmented_fixed Kind.augmented_passes _ hroot hk
    rw [hr]
    refine congrArg Except.ok ?_
    generalize f key = o at hrel ⊢
    cases hrel with
    | some hv =>
      obtain ⟨-, -, -, hskip⟩ := extract_extra_leaf haug hv
      exact hskip
    | none => rfl

end Holds

inductive AugOp where
  | set (key : List Bool) (value : CellSlice) (mode : SetMode)
  | lookup_delete (key : List Bool)
  | extract_minmax_key (key_len : Nat) (fetch_max invert_first : Bool)
  | filter (check : FilterFunc)
  | cut_prefix_subdict (pfx : List Bool)

namespace AugOp

def exec (d : AugmentedDictionary) : AugOp → Except Exc AugmentedDictionary
  | set key value mode => Prod.fst <$> d.set key value mode
  | lookup_delete key => Prod.fst <$> d.lookup_delete key
  | extract_minmax_key key_len fetch_max invert_first => Prod.fst <$> d.extract_minmax_key key_len fetch_max invert_first
  | filter check => Prod.fst <$> d.filter check
  | cut_prefix_subdict pfx => Prod.fst <$> d.cut_prefix_subdict pfx false

def execAll (d : AugmentedDictionary) : List AugOp → Except Exc AugmentedDictionary
  | [] => .ok d
  | op :: ops => do
    let d ← op.exec d
    execAll d ops

end AugOp

/-- What an operation leaves is a dictionary of the same kind. -/
def Keeps (d d' : AugmentedDictionary) : Prop := (∃ g, d'.Holds g) ∧ d'.aug = d.aug ∧ d'.key_bits = d.key_bits

section Keeps
variable {d d' : AugmentedDictionary} {f : BitMap CellSlice}

theorem Keeps.refl (hd : d.Holds f) : Keeps d d := ⟨⟨f, hd⟩, rfl, rfl⟩

theorem Keeps.root (hd : d.Holds f) {g : BitMap CellSlice} {c : Option DataCell}
    (hc : Root (.augmented d.aug) d.key_bits g c) : Keeps d { d with root_cell := c } := ⟨⟨g, hc, hd.bits⟩, rfl, rfl⟩

section
variable (haug : d.aug.Lawful) (hd : d.Holds f)
include haug hd

variable {key : List Bool}

theorem AugmentedDictionary.Holds.set {value : CellSlice} {mode : SetMode}
    (hk : key.length = d.key_bits) (h : d.set key value mode = .ok (d', true)) :
    d'.Holds (Function.update f key (some value)) ∧ d'.aug = d.aug ∧ d'.key_bits = d.key_bits := by
  unfold AugmentedDictionary.set at h
  rw [hd.force_validate, ok_bind, if_neg (not_not.2 hk)] at h
  obtain ⟨⟨old, c, written⟩, hset, h⟩ := bind_ok.1 h
  obtain ⟨rfl, rfl⟩ := Prod.mk.inj (Except.ok.inj h)
  have hr := dict_set_with_spec (finish_follows haug value) Kind.augmented_fixed mode _ hd.root hk (hk ▸ hset)
  exact ⟨⟨hr.root rfl, hd.bits⟩, rfl, rfl⟩

theorem set_keeps {value : CellSlice} {mode : SetMode} {b : Bool}
    (h : d.set key value mode = .ok (d', b)) : Keeps d d' := by
  unfold AugmentedDictionary.set at h
  rw [hd.force_validate, ok_bind] at h
  split at h
  · cases h
    exact .refl hd
  · next hk =>
    rw [not_not] at hk
    obtain ⟨⟨old, c, written⟩, hset, h⟩ := bind_ok.1 h
    cases h
    have hr := dict_set_with_spec (finish_follows haug value) Kind.augmented_fixed mode _ hd.root hk (hk ▸ hset)
    split
    · next hw => exact .root hd (hr.root hw)
    · exact .refl hd

theorem lookup_delete_keeps {o : Option CellSlice}
    (h : d.lookup_delete key = .ok (d', o)) : Keeps d d' := by
  unfold AugmentedDictionary.lookup_delete at h
  rw [hd.force_validate, ok_bind] at h
  split at h
  · cases h
    exact .refl hd
  · next hk =>
    rw [not_not] at hk
    obtain ⟨⟨old, c⟩, hdel, h⟩ := bind_ok.1 h
    cases h
    have hr := dict_lookup_delete_spec (finish_create_fork_follows haug) Kind.augmented_fixed _ hd.root hk (hk ▸ hdel)
    split
    · next hsome => exact .root hd (hr.root hsome)
    · exact .refl hd

theorem extract_minmax_key_keeps {key_len : Nat} {fetch_max invert_first : Bool}
    {o : Option (List Bool × CellSlice)} (h : d.extract_minmax_key key_len fetch_max invert_first = .ok (d', o)) :
    Keeps d d' := by
  unfold AugmentedDictionary.extract_minmax_key at h
  rw [hd.force_validate, ok_bind] at h
  split at h
  · cases h
    exact .refl hd
  · next hk =>
    rw [not_not] at hk
    subst hk
    replace h := bind_ok.1 h
    obtain ⟨found, hfound, h⟩ := h
    cases found with
    | none =>
      cases h
      exact .refl hd
    | some found =>
      obtain ⟨key, val⟩ := found
      replace h := bind_ok.1 h
      obtain ⟨⟨old, c⟩, hdel, h⟩ := h
      unfold dict_lookup_minmax at hfound
      have hroot := hd.root
      cases hc : d.root_cell with
      | none =>
        rw [hc] at hfound
        cases hfound
      | some cell =>
        rw [hc] at hfound hroot hdel
        obtain ⟨found, hloop, e⟩ := map_ok hfound
        cases e
        have hkey := minmax_loop_length Kind.augmented_fixed _ hroot hloop
        have hr := dict_lookup_delete_spec (finish_create_fork_follows haug) Kind.augmented_fixed _ hroot hkey hdel
        dsimp only at h
        split at h
        · cases h
        · next hsome =>
          cases h
          exact .root hd (hr.root (by simpa [isSome_iff_ne_none] using hsome))

theorem filter_keeps {check : FilterFunc} {changes : Int}
    (h : d.filter check = .ok (d', changes)) : Keeps d d' := by
  unfold AugmentedDictionary.filter at h
  rw [hd.force_validate, ok_bind] at h
  obtain ⟨res, hres, h⟩ := bind_ok.1 h
  cases h
  split
  · next hch =>
    obtain ⟨g, hg⟩ := dict_filter_root (finish_create_fork_follows haug) Kind.augmented_fixed _ hd.root hres hch
    exact .root hd hg
  · exact .refl hd

end

theorem cut_prefix_subdict_keeps (hd : d.Holds f) {pfx : List Bool} {b : Bool}
    (h : d.cut_prefix_subdict pfx false = .ok (d', b)) : Keeps d d' := by
  unfold AugmentedDictionary.cut_prefix_subdict at h
  rw [hd.force_validate, ok_bind, if_neg (by simp)] at h
  obtain ⟨⟨c, changed⟩, hres, h⟩ := bind_ok.1 h
  cases h
  obtain ⟨g, hg⟩ := extract_prefix_subdict_spec Kind.augmented_fixed hd.root hres
  exact .root hd hg

theorem aug_exec_keeps (haug : d.aug.Lawful) (hd : d.Holds f) {op : AugOp} (h : op.exec d = .ok d') : Keeps d d' := by
  cases op with
  | set key value mode =>
    obtain ⟨r, hop, rfl⟩ := map_ok h
    exact set_keeps haug hd hop
  | lookup_delete key =>
    obtain ⟨r, hop, rfl⟩ := map_ok h
    exact lookup_delete_keeps haug hd hop
  | extract_minmax_key key_len fetch_max invert_first =>
    obtain ⟨r, hop, rfl⟩ := map_ok h
    exact extract_minmax_key_keeps haug hd hop
  | filter check =>
    obtain ⟨r, hop, rfl⟩ := map_ok h
    exact filter_keeps haug hd hop
  | cut_prefix_subdict pfx =>
    obtain ⟨r, hop, rfl⟩ := map_ok h
    exact cut_prefix_subdict_keeps hd hop

theorem aug_execAll_keeps (haug : d.aug.Lawful) (hd : d.Holds f) {ops : List AugOp} (h : AugOp.execAll d ops = .ok d') :
    Keeps d d' := by
  induction ops generalizing d f with
  | nil =>
    cases h
    exact .refl hd
  | cons op ops ih =>
    obtain ⟨d₁, h₁, h⟩ := bind_ok.1 h
    obtain ⟨⟨g, hg⟩, haug', hbits⟩ := aug_exec_keeps haug hd h₁
    obtain ⟨hg', haug'', hbits'⟩ := ih (haug' ▸ haug) hg h
    exact ⟨hg', haug''.trans haug', hbits'.trans hbits⟩

end Keeps

/-- After any run of operations on an empty augmented dictionary, none of which throws,
the validation accepts it. Its extras are those of its values: the root has the extra
of the empty dictionary, or the fold of the extras over the trie that `lookup` reads. -/
theorem augmentation_consistent (aug : AugmentationData) (haug : aug.Lawful) (n : Nat) (hn : n ≤ max_key_bits)
    (ops : List AugOp) (d : AugmentedDictionary) (h : AugOp.execAll ⟨aug, none, n⟩ ops = .ok d) :
    d.validate_all = .ok true ∧
      match d.root_cell with
      | none => ∀ e c, aug.eval_empty {} = some e → e.finalize false = .ok c → d.get_root_extra = .ok (some e.contents)
      | some c => ∃ t e, Rep (.augmented aug) n t c ∧ (∀ key, key.length = n → d.lookup key = .ok (t.lookup key)) ∧
          aug.fold t = some e ∧ d.get_root_extra = .ok (some e) := by
  have hd : AugmentedDictionary.Holds ⟨aug, none, n⟩ empty := ⟨rfl, hn⟩
  obtain ⟨⟨g, hg⟩, haug', hbits⟩ := aug_execAll_keeps haug hd h
  dsimp only at haug' hbits
  subst hbits haug'
  refine ⟨hg.validate_all haug, ?_⟩
  have hroot := hg.root
  cases hc : d.root_cell with
  | none =>
    intro e c he hfin
    obtain ⟨-, hdata, hrefs⟩ := DataCell.create_fields (finalize_create hfin)
    simp [get_root_extra, get_node_extra, hc, he, hfin, contents, hdata, hrefs]
  | some c =>
    rw [hc] at hroot
    obtain ⟨t, ht, rfl⟩ := hroot
    obtain ⟨e, he, hex⟩ := get_node_extra_fold haug ht
    exact ⟨t, e, ht, fun key hkey => hg.lookup haug hkey, he, by rw [get_root_extra, hc, hex]⟩

/-! ## Old masterchain blocks -/

theorem produces_of_stores (eval : CellBuilder → Option CellBuilder) (bs : List Bool) (hlen : bs.length = 65)
    (hempty : eval {} = some ⟨bs, []⟩) (hs : ∀ cb cb', eval cb = some cb' → cb' = ⟨cb.bits ++ bs, cb.refs⟩) :
    aug_OldMcBlocksInfo.Produces eval := fun cb cb' h => by
  refine ⟨⟨bs, []⟩, hempty, by rw [hs cb cb' h, append_nil], fun rest => ?_⟩
  simp only [aug_OldMcBlocksInfo, contents, CellSlice.append]
  rw [if_pos (have_bits_append _ _ _ _ hlen), advance_append _ _ _ _ hlen]
  rfl

theorem store_bits_bool_empty {bs : List Bool} (h : bs.length = 65) : store_bits_bool {} bs = some ⟨bs, []⟩ := by
  simp [store_bits_bool, can_extend_by, h, max_bits]

theorem have_65 {v : CellSlice} (h : v.have_bits 65 = true) : 65 ≤ v.bits.length := of_decide_eq_true h

theorem aug_OldMcBlocksInfo_lawful : aug_OldMcBlocksInfo.Lawful where
  leaf v cb cb' h := by
    have hv : v.have_bits 65 = true := by
      by_contra hv
      simp [aug_OldMcBlocksInfo, hv] at h
    have hlen : (v.bits.take 65).length = 65 := length_take_of_le (have_65 hv)
    have hstore : ∀ cb, aug_OldMcBlocksInfo.eval_leaf cb v = cb.store_bits_bool (v.bits.take 65) := fun cb => by
      simp only [aug_OldMcBlocksInfo, hv, if_true]
    exact produces_of_stores (aug_OldMcBlocksInfo.eval_leaf · v) _ hlen
      ((hstore _).trans (store_bits_bool_empty hlen)) (fun cb cb' h => store_bits_bool_some (hstore cb ▸ h)) cb cb' h
  fork l r cb cb' h := by
    have hv : (l.have_bits 65 && r.have_bits 65) = true := by
      by_contra hv
      simp only [aug_OldMcBlocksInfo, if_neg hv] at h
      cases h
    obtain ⟨key, hkey⟩ : ∃ key, (l.bits.headD false || r.bits.headD false) = key := ⟨_, rfl⟩
    obtain ⟨lt, hlt, hlen⟩ : ∃ lt, toBits 64 (max (ofBits ((l.bits.drop 1).take 64)) (ofBits ((r.bits.drop 1).take 64))) = lt ∧
        lt.length = 64 := ⟨_, rfl, by simp⟩
    have hstore : ∀ cb, aug_OldMcBlocksInfo.eval_fork cb l r = (cb.store_bits_bool [key]).bind (·.store_bits_bool lt) :=
      fun cb => by
        simp only [aug_OldMcBlocksInfo, hv, if_true, hkey, hlt]
        rfl
    refine produces_of_stores (aug_OldMcBlocksInfo.eval_fork · l r) (key :: lt) (by simp [hlen]) ?_ ?_ cb cb' h
    · rw [hstore]
      simp [store_bits_bool, can_extend_by, hlen, max_bits]
    · intro cb cb' h
      rw [hstore] at h
      obtain ⟨cb₁, h₁, h₂⟩ := bind_eq_some_iff.1 h
      rw [store_bits_bool_some h₂, store_bits_bool_some h₁]
      simp
  empty cb cb' h :=
    produces_of_stores aug_OldMcBlocksInfo.eval_empty _ (length_replicate ..)
      (store_bits_bool_empty (length_replicate ..)) (fun _ _ h => store_bits_bool_some h) cb cb' h

/-- Three blocks, the second of them a key block; one is deleted, then the smallest key,
and what is left is filtered and cut. -/
theorem augmentation_consistent_three_blocks :
    let block (key : Bool) (lt : Nat) : CellSlice := ⟨key :: toBits 64 lt, []⟩
    let ops : List AugOp := [.set [false, false, true] (block false 5) .Set, .set [false, true, true] (block true 9) .Add,
      .set [true, true, true] (block false 7) .Set, .set [true, true, false] (block false 8) .Set,
      .lookup_delete [true, true, true], .extract_minmax_key 3 false false,
      .filter (fun _ key => if key = [false, true, true] then 1 else 0), .cut_prefix_subdict [false]]
    ∃ d c t, AugOp.execAll ⟨aug_OldMcBlocksInfo, none, 3⟩ ops = .ok d ∧ d.root_cell = some c ∧ d.validate_all = .ok true ∧
      d.lookup [false, true, true] = .ok (t.lookup [false, true, true]) ∧ d.get_root_extra = .ok (aug_OldMcBlocksInfo.fold t) := by
  intro block ops
  have hok : ((AugOp.execAll ⟨aug_OldMcBlocksInfo, none, 3⟩ ops).toOption.bind (·.root_cell)).isSome = true := by
    decide +kernel
  obtain ⟨c, hc⟩ := isSome_iff_exists.1 hok
  obtain ⟨d, hd, hc⟩ := bind_eq_some_iff.1 hc
  have h : AugOp.execAll ⟨aug_OldMcBlocksInfo, none, 3⟩ ops = .ok d := by
    cases hrun : AugOp.execAll ⟨aug_OldMcBlocksInfo, none, 3⟩ ops with
    | ok d' => rw [hrun] at hd; cases hd; rfl
    | error e => rw [hrun] at hd; cases hd
  obtain ⟨hvalid, hroot⟩ := augmentation_consistent _ aug_OldMcBlocksInfo_lawful 3 (by decide) ops d h
  rw [hc] at hroot
  obtain ⟨t, e, -, hlookup, hfold, hextra⟩ := hroot
  exact ⟨d, c, t, h, hc, hvalid, hlookup _ rfl, by rw [hfold, hextra]⟩

end Ton.Dict
