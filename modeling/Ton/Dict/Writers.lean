import Ton.Dict.Augmented
/-!
# Writing to augmented dictionaries

`AugmentedDictionary::set_ref` and `set_builder` make a cell of the value and call
`set` on its slice without the mode, so that the default applies. `dict_set_with`
depends on the mode only through whether the key is there (`dict_set_with_mode`), which
says when that default does what was asked for.
-/

namespace Ton.Dict
open BigEndian CellTraits CellBuilder Result LabelParser List

namespace AugmentedDictionary

def set_ref (d : AugmentedDictionary) (key : List Bool) (value_ref : Option DataCell) (_mode : SetMode) :
    Except Exc (AugmentedDictionary × Bool) :=
  match value_ref with
  | none => .ok (d, false)
  | some value_ref => do
    let cb ← ({} : CellBuilder).store_ref value_ref
    let c ← cb.finalize false
    let cs ← load_cell_slice c
    -- the mode is not passed on
    d.set key cs .Set

def set_builder (d : AugmentedDictionary) (key : List Bool) (value : CellBuilder) (_mode : SetMode) :
    Except Exc (AugmentedDictionary × Bool) := do
  let c ← value.finalize false
  let cs ← load_cell_slice c
  -- nor is it here
  d.set key cs .Set

/-- `DictionaryFixed::lookup`. -/
def lookup_with_extra (d : AugmentedDictionary) (key : List Bool) : Except Exc (Option CellSlice) := do
  d.force_validate
  if key.length ≠ d.key_bits ∨ d.root_cell.isNone then .ok none
  else dict_lookup .chk_size d.root_cell key key.length

/-- Writing with this mode is the same as writing with `SetMode.Set`: nothing is written at
all, the key cannot be looked for, `Add` finds no entry, or `Replace` finds one. -/
def ActsAsSet (d : AugmentedDictionary) (key : List Bool) (mode : SetMode) : Prop :=
  key.length ≠ d.key_bits ∨
    match mode with
    | .Set => True
    | .Add => ∀ v, d.lookup_with_extra key ≠ .ok (some v)
    | .Replace => d.lookup_with_extra key ≠ .ok none

end AugmentedDictionary

/-! ## Labels that were parsed -/

section Parse
variable {c : DataCell} {n : Nat} {mode : Check} {p : LabelParser} {cs : CellSlice}

theorem fetch_ulong_some {bits x : Nat} {cs' : CellSlice} (h : cs.fetch_ulong bits = (some x, cs')) :
    bits ≤ cs.bits.length ∧ x = ofBits (cs.bits.take bits) ∧ cs' = ⟨cs.bits.drop bits, cs.refs⟩ := by
  unfold CellSlice.fetch_ulong at h
  split at h
  · simp at h
  · next hb =>
    simp only [Bool.or_eq_true, Bool.not_eq_true', decide_eq_true_eq, not_or, Bool.not_eq_false] at hb
    obtain ⟨rfl, rfl⟩ := Prod.mk.inj h |>.imp_left Option.some.inj
    rw [CellSlice.advance, if_pos hb.1]
    exact ⟨of_decide_eq_true hb.1, rfl, rfl⟩

theorem ofBits_ne_zero (h : cs.prefetch_ulong 2 = some 3) (h3 : 3 ≤ cs.bits.length) : ofBits (cs.bits.take 3) ≠ 0 := by
  obtain ⟨bits, refs⟩ := cs
  rcases bits with _ | ⟨a, _ | ⟨b, _ | ⟨c, bits⟩⟩⟩
  · simp at h3
  · simp at h3
  · simp at h3
  · have h2 : ofBits [a, b] = 3 := by simpa [CellSlice.prefetch_ulong, CellSlice.have_bits, CellSlice.size] using h
    simp only [take_succ_cons, take_zero]
    clear h h3
    revert a b c
    decide

theorem reads_of_bits {l_bits : Nat} (hb : l_bits ≤ cs.bits.length) :
    (LabelParser.mk cs 0 l_bits l_bits).Reads (cs.bits.take l_bits) ⟨cs.bits.drop l_bits, cs.refs⟩ where
  l_bits := by simp [hb]
  cases := .inl ⟨rfl, by simp [hb], by simp⟩

theorem parse_label_reads {k : Nat} (h : LabelParser.parse_label cs k = some p) : ∃ label payload, p.Reads label payload := by
  unfold LabelParser.parse_label at h
  split at h
  · -- an empty label
    cases h
    exact ⟨_, _, reads_of_bits (Nat.zero_le _)⟩
  · -- a short one
    dsimp only at h
    split at h
    · cases h
    · next hl =>
      simp only [Bool.or_eq_true, decide_eq_true_eq, Bool.not_eq_true', not_or, Bool.not_eq_false] at hl
      have hb := of_decide_eq_true hl.2
      cases h
      refine ⟨_, _, reads_of_bits ?_⟩
      have hadv : ∀ (cs : CellSlice) m, m ≤ cs.size → (cs.advance m).bits.length = cs.size - m := fun cs m hm => by
        rw [CellSlice.advance, if_pos (show cs.have_bits m = true from decide_eq_true hm)]
        simp [CellSlice.size]
      rw [hadv _ _ (by omega)]
      omega
  · -- a long one
    split at h
    · next hf =>
      split at h
      · cases h
      · next hl =>
        simp only [Bool.or_eq_true, decide_eq_true_eq, Bool.not_eq_true', not_or, Bool.not_eq_false] at hl
        cases h
        exact ⟨_, _, reads_of_bits (of_decide_eq_true hl.2)⟩
    · cases h
  · -- a constant one
    next h3 =>
    split at h
    · cases h
    · split at h
      · next hsame =>
        split at h
        · split at h
          · cases h
          · cases h
            obtain ⟨h3le, rfl, rfl⟩ := fetch_ulong_some hsame
            refine ⟨List.replicate _ _, _, length_replicate.symm, .inr ⟨?_, by rw [length_replicate], rfl, rfl⟩⟩
            exact ofBits_ne_zero h3 h3le
        · cases h
      · cases h
  · cases h

theorem parse_reads (hm : mode ≠ .chk_min) (h : LabelParser.parse c n mode = .ok p) : ∃ label payload, p.Reads label payload ∧
    label.length ≤ n ∧ (label.length < n → 2 ≤ payload.refs.length) := by
  obtain ⟨cs, -, h⟩ := bind_ok.1 h
  split at h
  · cases h
  · next p' hp =>
    obtain ⟨⟨⟩, hv, h⟩ := bind_ok.1 h
    cases h
    obtain ⟨label, payload, hr⟩ := parse_label_reads hp
    have hrefs : p.remainder.size_refs = payload.refs.length := by
      rcases hr.cases with ⟨-, -, e⟩ | ⟨-, -, -, e⟩ <;> rw [e] <;> rfl
    refine ⟨label, payload, hr, ?_⟩
    rw [← hr.l_bits, ← hrefs]
    cases mode with
    | chk_min => exact absurd rfl hm
    | chk_size =>
      simp only [LabelParser.validate] at hv
      split at hv
      · cases hv
      · split at hv
        · cases hv
        · omega
    | chk_all =>
      simp only [LabelParser.validate] at hv
      split at hv
      · cases hv
      · split at hv
        · cases hv
        · omega

end Parse

/-! ## What the mode decides -/

section Mode
variable {F : Finish} {found : Except Exc (Option CellSlice)}
  {set : SetMode → Except Exc (Option CellSlice × Option DataCell × Bool)}

/-- How an insertion depends on the mode, by the answer to a lookup of the key. -/
structure ByMode (found : Except Exc (Option CellSlice))
    (set : SetMode → Except Exc (Option CellSlice × Option DataCell × Bool)) : Prop where
  failed : ∀ e, found = .error e → ∀ mode, set mode = .error e
  absent : found = .ok none → set .Add = set .Set ∧ set .Replace = .ok (none, none, false)
  present : ∀ v, found = .ok (some v) → set .Replace = set .Set ∧ set .Add = .ok (some v, none, false)
  writes : ∀ r, set .Set = .ok r → r.2.2 = true

/-- The same of a fork, which is built anew only when its child was written to. -/
theorem ByMode.bind (h : ByMode found set)
    {rebuild : Option CellSlice × Option DataCell × Bool → Except Exc (Option CellSlice × Option DataCell × Bool)}
    (hkept : ∀ o c, rebuild (o, c, false) = .ok (o, none, false))
    (hbuilt : ∀ o c r, rebuild (o, c, true) = .ok r → r.2.2 = true) : ByMode found (fun mode => set mode >>= rebuild) where
  failed e he mode := by
    rw [h.failed e he mode, error_bind]
  absent hf := by
    obtain ⟨hadd, hreplace⟩ := h.absent hf
    rw [hadd, hreplace, ok_bind, hkept]
    exact ⟨rfl, rfl⟩
  present v hf := by
    obtain ⟨hreplace, hadd⟩ := h.present v hf
    rw [hadd, hreplace, ok_bind, hkept]
    exact ⟨rfl, rfl⟩
  writes r hr := by
    obtain ⟨⟨o, c, w⟩, hset, hr⟩ := bind_ok.1 hr
    obtain rfl : w = true := h.writes _ hset
    exact hbuilt o c r hr

theorem dict_set_with_mode (hF : F.label_mode ≠ .chk_min) (n : Nat) {c : DataCell} {key : List Bool} (hk : key.length = n) :
    ByMode (dict_lookup F.label_mode (some c) key n) (dict_set_with F (some c) key n) := by
  induction n using Nat.strong_induction_on generalizing c key with
  | _ n ih =>
  have htake : key.take n = key := take_of_length_le (by omega)
  cases hlp : LabelParser.parse c n F.label_mode with
  | error e =>
    have hset : ∀ mode, dict_set_with F (some c) key n mode = .error e := fun mode => by
      rw [dict_set_with.eq_def]
      simp only [hlp, error_bind]
    have hfound : dict_lookup F.label_mode (some c) key n = .error e := by
      rw [dict_lookup.eq_def]
      simp only [hlp, error_bind]
    rw [hfound]
    refine ⟨fun _ h mode => ?_, fun h => ?_, fun _ h => ?_, fun r hr => ?_⟩
    · cases h
      exact hset mode
    · cases h
    · cases h
    · rw [hset] at hr
      cases hr
  | ok lp =>
    obtain ⟨label, payload, hr, hle, hrefs⟩ := parse_reads hF hlp
    have hpfx := same_upto_le_left label key
    have hok : ¬¬(same_upto label key ≤ label.length ∧ label.length ≤ n) := not_not.2 ⟨hpfx, hle⟩
    by_cases hpre : label <+: key
    · have hsame : ¬same_upto label key < label.length := by rw [same_upto_eq_length.2 hpre]; exact lt_irrefl _
      have hisp : (!lp.is_prefix_of key) = false := by simpa using (hr.is_prefix_of key).2 hpre
      by_cases hn : label.length = n
      · -- the leaf with the key
        have hfound : dict_lookup F.label_mode (some c) key n = .ok (some payload) := by
          rw [dict_lookup.eq_def]
          simp only [hlp, ok_bind, htake, hr.l_bits]
          rw [hisp, if_neg Bool.false_ne_true, dif_pos (by omega), if_neg (by omega), hr.skip_label]
        have hset : ∀ mode, dict_set_with F (some c) key n mode = if mode = .Add then .ok (some payload, none, false)
            else append_dict_label {} key n >>= fun cb => F.leaf cb >>= fun c => .ok (some payload, some c, true) := fun mode => by
          rw [dict_set_with.eq_def]
          simp only [hlp, ok_bind, htake, hr.l_bits, hr.common_prefix_len, dif_neg hok, if_neg hsame, dif_pos hn, hr.skip_label]
        rw [hfound]
        refine ⟨fun _ h => (by cases h), fun h => (by cases h), fun v h => ?_, fun r h => ?_⟩
        · obtain rfl := Option.some.inj (Except.ok.inj h)
          rw [hset, hset, hset]
          exact ⟨rfl, rfl⟩
        · rw [hset, if_neg (by decide)] at h
          obtain ⟨cb, -, h⟩ := bind_ok.1 h
          obtain ⟨c, -, h⟩ := bind_ok.1 h
          cases h
          rfl
      · -- a fork under the label
        obtain ⟨k, hkey, hdrop, -⟩ := exists_next_bit hpre (by omega)
        have hkl : k.length = n - label.length - 1 := by
          have := congrArg List.length hkey
          simp only [length_append, length_cons] at this
          omega
        have hp2 := hrefs (by omega)
        obtain ⟨c1, c2, rest, hpl⟩ : ∃ c1 c2 rest, payload.refs = c1 :: c2 :: rest := by
          rcases hl : payload.refs with _ | ⟨c1, _ | ⟨c2, rest⟩⟩
          · simp [hl] at hp2
          · simp [hl] at hp2
          · exact ⟨c1, c2, rest, rfl⟩
        obtain ⟨sw, hsw⟩ : ∃ sw, key.getD label.length false = sw := ⟨_, rfl⟩
        have hfound : dict_lookup F.label_mode (some c) key n =
            dict_lookup F.label_mode (some (if sw then c2 else c1)) k (n - label.length - 1) := by
          rw [dict_lookup.eq_def]
          simp only [hlp, ok_bind, htake, hr.l_bits, hr.prefetch_ref]
          rw [hisp, if_neg Bool.false_ne_true, dif_neg (by omega), hdrop, hsw, hpl]
          cases sw <;> rfl
        have hset : dict_set_with F (some c) key n = fun mode =>
            dict_set_with F (some (if sw then c2 else c1)) k (n - label.length - 1) mode >>= fun r =>
              if !r.2.2 then .ok (r.1, none, false)
              else append_dict_label {} (key.take label.length) n >>= fun cb =>
                (if sw then F.fork cb (some c1) r.2.1 (n - label.length) else F.fork cb r.2.1 (some c2) (n - label.length)) >>= fun c =>
                .ok (r.1, some c, true) := by
          funext mode
          rw [dict_set_with.eq_def]
          simp only [hlp, ok_bind, htake, hr.l_bits, hr.common_prefix_len, dif_neg hok, if_neg hsame, dif_neg hn, hr.prefetch_ref,
            hpl, hsw, hdrop]
          cases sw <;> rfl
        rw [hfound, hset]
        refine (ih _ (by omega) hkl).bind (fun o c => rfl) fun o c r h => ?_
        rw [if_neg (by simp)] at h
        obtain ⟨cb, -, h⟩ := bind_ok.1 h
        obtain ⟨c, -, h⟩ := bind_ok.1 h
        cases h
        rfl
    · -- a new fork is needed
      have hlt : same_upto label key < label.length := lt_of_le_of_ne hpfx fun h => hpre (same_upto_eq_length.1 h)
      have hfound : dict_lookup F.label_mode (some c) key n = .ok none := by
        have hisp : (!lp.is_prefix_of key) = true := by simpa using fun h => hpre ((hr.is_prefix_of key).1 h)
        rw [dict_lookup.eq_def]
        simp only [hlp, ok_bind, htake, hisp, if_true]
      rw [hfound]
      refine ⟨fun _ h => (by cases h), fun _ => ⟨?_, ?_⟩, fun _ h => (by cases h), fun r h => ?_⟩
      · rw [dict_set_with.eq_def F (some c) key n .Add, dict_set_with.eq_def F (some c) key n .Set]
        simp only [hlp, ok_bind, htake, hr.l_bits, hr.common_prefix_len, dif_neg hok, if_pos hlt, reduceCtorEq, if_false]
      · rw [dict_set_with.eq_def]
        simp only [hlp, ok_bind, htake, hr.l_bits, hr.common_prefix_len, dif_neg hok, if_pos hlt, if_true]
      · rw [dict_set_with.eq_def] at h
        simp only [hlp, ok_bind, htake, hr.l_bits, hr.common_prefix_len, dif_neg hok, if_pos hlt, reduceCtorEq, if_false, bind_ok] at h
        obtain ⟨cb, -, c1, -, c2, -, cb', -, h⟩ := h
        split at h
        all_goals
          obtain ⟨c, -, h⟩ := bind_ok.1 h
          cases h
          rfl

end Mode

/-! ## The writers -/

namespace AugmentedDictionary
variable (d : AugmentedDictionary) (key : List Bool) (cs : CellSlice) (mode : SetMode)

theorem set_by_mode (hd : d.force_validate = .ok ()) (hk : key.length = d.key_bits) :
    ByMode (d.lookup_with_extra key) (dict_set_with (finish d.aug cs) d.root_cell key key.length) := by
  unfold lookup_with_extra
  rw [hd, ok_bind]
  cases hroot : d.root_cell with
  | none =>
    rw [if_pos (.inr rfl)]
    refine ⟨fun _ h => (by cases h), fun _ => ⟨?_, ?_⟩, fun _ h => (by cases h), fun r h => ?_⟩
    · rw [dict_set_with.eq_def, dict_set_with.eq_def]
      rfl
    · rw [dict_set_with.eq_def]
      rfl
    · rw [dict_set_with.eq_def] at h
      obtain ⟨cb, -, h⟩ := bind_ok.1 h
      obtain ⟨c, -, h⟩ := bind_ok.1 h
      cases h
      rfl
  | some c =>
    rw [if_neg (by simp [hk])]
    exact dict_set_with_mode (F := finish d.aug cs) (by simp [finish]) _ rfl

theorem set_written {d' : AugmentedDictionary} {written : Bool} (hd : d.force_validate = .ok ()) (hk : key.length = d.key_bits)
    (h : d.set key cs .Set = .ok (d', written)) : written = true := by
  rw [set, hd, ok_bind, if_neg (not_not.2 hk)] at h
  obtain ⟨r, hr, h⟩ := bind_ok.1 h
  have hw := (set_by_mode d key cs hd hk).writes r hr
  cases h
  exact hw

theorem set_eq_iff : d.set key cs .Set = d.set key cs mode ↔ d.ActsAsSet key mode := by
  cases hd : d.force_validate with
  | error e =>
    have hset : ∀ mode, d.set key cs mode = .error e := fun mode => by rw [set, hd, error_bind]
    have hfind : d.lookup_with_extra key = .error e := by rw [lookup_with_extra, hd, error_bind]
    unfold ActsAsSet
    rw [hset, hset, hfind]
    cases mode <;> simp
  | ok u =>
    by_cases hk : key.length = d.key_bits
    · have hby := set_by_mode d key cs hd hk
      have hset : ∀ mode, d.set key cs mode = dict_set_with (finish d.aug cs) d.root_cell key key.length mode >>= fun r =>
          .ok (if r.2.2 then { d with root_cell := r.2.1 } else d, r.2.2) := fun mode => by
        rw [set, hd, ok_bind, if_neg (not_not.2 hk)]
      -- an insertion that is given up writes nothing, and `SetMode.Set` never gives up
      have hne : ∀ o mode, dict_set_with (finish d.aug cs) d.root_cell key key.length mode = .ok (o, none, false) →
          d.set key cs .Set ≠ d.set key cs mode := fun o mode h he => by
        rw [hset mode, h] at he
        exact Bool.noConfusion (set_written d key cs hd hk he)
      have hfailed : ∀ e, d.lookup_with_extra key = .error e → d.set key cs .Set = d.set key cs mode := fun e he => by
        rw [hset, hset, hby.failed e he, hby.failed e he]
      unfold ActsAsSet
      rw [or_iff_right (not_not.2 hk)]
      cases mode with
      | Set => exact iff_of_true rfl trivial
      | Add =>
        constructor
        · intro he v hv
          exact hne _ _ (hby.present v hv).2 he
        · intro h
          cases hf : d.lookup_with_extra key with
          | error e => exact hfailed e hf
          | ok found =>
            cases found with
            | none => rw [hset, hset, (hby.absent hf).1]
            | some v => exact absurd hf (h v)
      | Replace =>
        constructor
        · intro he hf
          exact hne _ _ (hby.absent hf).2 he
        · intro h
          cases hf : d.lookup_with_extra key with
          | error e => exact hfailed e hf
          | ok found =>
            cases found with
            | none => exact absurd hf h
            | some v => rw [hset, hset, (hby.present v hf).1]
    · have hset : ∀ mode, d.set key cs mode = .ok (d, false) := fun mode => by
        rw [set, hd, ok_bind, if_pos hk]
      rw [hset, hset]
      exact iff_of_true rfl (.inl hk)

theorem set_unwritten {d : AugmentedDictionary} {key : List Bool} {cs : CellSlice} {mode : SetMode}
    (h : satisfies (!·.2) (d.set key cs mode) = true) : d.set key cs mode = .ok (d, false) := by
  obtain ⟨⟨d', w⟩, hset, hw⟩ := exists_of_satisfies h
  obtain rfl : w = false := by simpa using hw
  rw [hset]
  rw [set] at hset
  obtain ⟨-, -, hset⟩ := bind_ok.1 hset
  split at hset
  · cases hset
    rfl
  · obtain ⟨⟨o, c, w⟩, -, hset⟩ := bind_ok.1 hset
    obtain ⟨hd, rfl⟩ := Prod.mk.inj (Except.ok.inj hset)
    rw [← hd]
    rfl

theorem set_builder_set {value : CellBuilder} {c : DataCell} (h : value.finalize false = .ok c) :
    d.set_builder key value mode = d.set key value.contents .Set := by
  rw [set_builder, h, ok_bind, load_finalize h, ok_bind]
  rfl

theorem set_ref_set {value_ref c : DataCell} (h : CellBuilder.finalize ⟨[], [value_ref]⟩ false = .ok c) :
    d.set_ref key (some value_ref) mode = d.set key ⟨[], [value_ref]⟩ .Set := by
  have hstore : ({} : CellBuilder).store_ref value_ref = .ok ⟨[], [value_ref]⟩ := rfl
  simp only [set_ref, hstore, ok_bind, h, load_finalize h]

/-- A reference, or what a builder holds, that fits a cell is written as `set` writes the
slice of that cell exactly when the mode makes no difference. -/
theorem writers_honour_mode_iff :
    (∀ value_ref c, CellBuilder.finalize ⟨[], [value_ref]⟩ false = .ok c →
      (d.set_ref key (some value_ref) mode = d.set key ⟨[], [value_ref]⟩ mode ↔ d.ActsAsSet key mode)) ∧
    ∀ value c, CellBuilder.finalize value false = .ok c →
      (d.set_builder key value mode = d.set key value.contents mode ↔ d.ActsAsSet key mode) := by
  constructor
  · intro value_ref c hc
    rw [set_ref_set d key mode hc]
    exact set_eq_iff d key _ mode
  · intro value c hc
    rw [set_builder_set d key mode hc]
    exact set_eq_iff d key _ mode

/-- An entry is replaced on `Add`, and `Replace` inserts a new one. -/
theorem set_builder_ignores_mode :
    let block (key : Bool) (lt : Nat) : CellBuilder := ⟨key :: toBits 64 lt, []⟩
    ∃ d c, AugmentedDictionary.set ⟨aug_OldMcBlocksInfo, none, 3⟩ [false, true, true] (block true 9).contents .Set = .ok (d, true) ∧
      (block false 5).finalize false = .ok c ∧
      d.set [false, true, true] (block false 5).contents .Add = .ok (d, false) ∧
      satisfies Prod.snd (d.set_builder [false, true, true] (block false 5) .Add) = true ∧
      d.set [true, true, true] (block false 5).contents .Replace = .ok (d, false) ∧
      satisfies Prod.snd (d.set_builder [true, true, true] (block false 5) .Replace) = true := by
  intro block
  have hrun : satisfies (fun r => r.2 && ((block false 5).finalize false).toOption.isSome &&
      satisfies (!·.2) (r.1.set [false, true, true] (block false 5).contents .Add) &&
      satisfies Prod.snd (r.1.set_builder [false, true, true] (block false 5) .Add) &&
      satisfies (!·.2) (r.1.set [true, true, true] (block false 5).contents .Replace) &&
      satisfies Prod.snd (r.1.set_builder [true, true, true] (block false 5) .Replace))
      (AugmentedDictionary.set ⟨aug_OldMcBlocksInfo, none, 3⟩ [false, true, true] (block true 9).contents .Set) = true := by
    decide +kernel
  obtain ⟨⟨d, w⟩, hd, h⟩ := exists_of_satisfies hrun
  simp only [Bool.and_eq_true] at h
  obtain ⟨⟨⟨⟨⟨rfl, hc⟩, hadd⟩, hadd'⟩, hreplace⟩, hreplace'⟩ := h
  obtain ⟨c, hc⟩ := exists_ok_of_isSome hc
  exact ⟨d, c, hd, hc, set_unwritten hadd, hadd', set_unwritten hreplace, hreplace'⟩

/-- Replacing the entry of a dictionary. -/
theorem writers_honour_mode_iff_replaced :
    let key := [false, true, true]
    let block : CellBuilder := ⟨true :: toBits 64 9, []⟩
    ∃ (d : AugmentedDictionary) (leaf : DataCell), set ⟨aug_OldMcBlocksInfo, none, 3⟩ key block.contents .Add = .ok (d, true) ∧
      block.finalize false = .ok leaf ∧ d.set_ref key (some leaf) .Replace = d.set key ⟨[], [leaf]⟩ .Replace ∧
      d.set_builder key block .Replace = d.set key block.contents .Replace := by
  intro key block
  have hrun : satisfies (fun p => p.1.2 && (CellBuilder.finalize ⟨[], [p.2]⟩ false).toOption.isSome &&
      (p.1.1.lookup_with_extra key).toOption.any Option.isSome) (do
        let d ← set ⟨aug_OldMcBlocksInfo, none, 3⟩ key block.contents .Add
        let leaf ← block.finalize false
        .ok (d, leaf)) = true := by
    decide +kernel
  obtain ⟨⟨⟨d, w⟩, leaf⟩, hd, htest⟩ := exists_of_satisfies hrun
  obtain ⟨p, hset, hd⟩ := bind_ok.1 hd
  obtain ⟨leaf', hleaf, hd⟩ := bind_ok.1 hd
  cases hd
  rw [Bool.and_eq_true, Bool.and_eq_true] at htest
  obtain ⟨⟨rfl, hc⟩, hfound⟩ := htest
  obtain ⟨c, hc⟩ := exists_ok_of_isSome hc
  have hholds : d.ActsAsSet key .Replace := .inr fun hnone => by
    rw [hnone] at hfound
    cases hfound
  obtain ⟨href, hbuilder⟩ := writers_honour_mode_iff d key .Replace
  exact ⟨d, leaf, hset, hleaf, (href leaf c hc).2 hholds, (hbuilder block leaf hleaf).2 hholds⟩

end AugmentedDictionary

end Ton.Dict
