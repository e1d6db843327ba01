import Ton.Dict.Rewriting
/-!
# Combining any two dictionaries

`combine_with` of two readable dictionaries, with any callback that does not throw
`CombineError` itself. A result holds what the callback wrote, key by key (`Combined`).

The comment on `mode` forbids keys that only one dictionary has. The code finds them
where one label leaves the other, down to the first fork that both have: from there on
it does not pass `mode` on. That is `Covers`. For an empty first dictionary it tests the
second the wrong way round.
-/

namespace Ton.Dict
open CellBuilder Result BitMap LabelParser List DictionaryFixed Readable Op

/-! ## What the callback makes of two maps -/

/-- The callback adds to the builder and throws no `CombineError`. -/
structure CombineFunc.Proper (combine_func : CombineFunc) : Prop where
  writes : ∀ cb v w key cb', combine_func cb v w key = .ok (some cb') → ∃ u : CellSlice, cb' = ⟨cb.bits ++ u.bits, cb.refs ++ u.refs⟩
  quiet : ∀ cb v w key, combine_func cb v w key ≠ .error .combine

/-- The value of a key, by its values in the two operands. -/
inductive CombinedAt (combine_func : CombineFunc) (key : List Bool) : Option CellSlice → Option CellSlice → Option CellSlice → Prop
  | neither : CombinedAt combine_func key none none none
  | first (v : CellSlice) : CombinedAt combine_func key (some v) none (some v)
  | second (w : CellSlice) : CombinedAt combine_func key none (some w) (some w)
  | left_out {cb : CellBuilder} {v w : CellSlice} (h : combine_func cb v w key = .ok none) : CombinedAt combine_func key (some v) (some w) none
  | written {cb : CellBuilder} {v w u : CellSlice} (h : combine_func cb v w key = .ok (some ⟨cb.bits ++ u.bits, cb.refs ++ u.refs⟩)) :
      CombinedAt combine_func key (some v) (some w) (some u)

/-- The keys of the maps have the bits `pre` before them. -/
def Combined (combine_func : CombineFunc) (pre : List Bool) (f g h : BitMap CellSlice) : Prop :=
  ∀ k, CombinedAt combine_func (pre ++ k) (f k) (g k) (h k)

section Combined
variable {combine_func : CombineFunc} {pre : List Bool} {f g h f' g' h' : BitMap CellSlice}

theorem combined_empty_right (f : BitMap CellSlice) : Combined combine_func pre f empty f := by
  intro k
  rw [empty]
  cases f k with
  | none => exact .neither
  | some v => exact .first v

theorem combined_empty_left (g : BitMap CellSlice) : Combined combine_func pre empty g g := by
  intro k
  rw [empty]
  cases g k with
  | none => exact .neither
  | some w => exact .second w

theorem Combined.under {label : List Bool} (hc : Combined combine_func (pre ++ label) f g h) :
    Combined combine_func pre (under label f) (under label g) (under label h) := by
  intro k
  by_cases hk : label <+: k
  · obtain ⟨k, rfl⟩ := hk
    rw [under_append, under_append, under_append, ← append_assoc]
    exact hc k
  · simp only [BitMap.under, if_neg hk]
    exact .neither

theorem Combined.split (h0 : Combined combine_func (pre ++ [false]) f f' h) (h1 : Combined combine_func (pre ++ [true]) g g' h') :
    Combined combine_func pre (split f g) (split f' g') (split h h') := by
  intro k
  cases k with
  | nil => exact .neither
  | cons b k =>
    rw [append_cons]
    cases b with
    | false => exact h0 k
    | true => exact h1 k

theorem Combined.single {v w : CellSlice} {o : Option CellSlice} (ho : CombinedAt combine_func pre (some v) (some w) o) :
    Combined combine_func pre (single v) (single w) (o.elim empty single) := by
  intro k
  by_cases hk : k = []
  · subst hk
    rw [single_nil, single_nil, append_nil]
    cases o with
    | none => exact ho
    | some u =>
      rw [Option.elim_some, single_nil]
      exact ho
  · have hoff : ∀ u, Ton.Dict.single u k = none := fun u => Function.update_of_ne hk _ _
    rw [hoff, hoff]
    cases o with
    | none => exact .neither
    | some u =>
      rw [Option.elim_some, hoff]
      exact .neither

end Combined

/-! ## The descent -/

/-- The descent meets something that `mode` forbids. -/
def Meets (mode : Nat) (f g : BitMap CellSlice) : Prop := mode % 2 = 1 ∧ ¬ Covers f g ∨ mode / 2 % 2 = 1 ∧ ¬ Covers g f

/-- `CombineError` is thrown exactly if `bad`, anything else only where a merge stops, and a result is the combined map. -/
structure Gives (V : Virtual) (combine_func : CombineFunc) (pre : List Bool) (bad : Prop) (n : Nat) (f g : BitMap CellSlice)
    (r : Except Exc (Option DataCell)) : Prop where
  combine_iff : r = .error .combine ↔ bad
  stops : ∀ e, r = .error e → e = .combine ∨ Stops V combine_func e
  ok : ∀ c, r = .ok c → ∃ h, ReadableRoot V.label_mode n h c ∧ Combined combine_func pre f g h

section Gives
variable {V : Virtual} {combine_func : CombineFunc} {pre bits : List Bool} {bad bad' : Prop} {n m mode : Nat}
  {f g f' g' : BitMap CellSlice} {r : Except Exc (Option DataCell)}

theorem Gives.congr (h : Gives V combine_func pre bad n f g r) (hbad : bad ↔ bad') : Gives V combine_func pre bad' n f g r :=
  ⟨h.combine_iff.trans hbad, h.stops, h.ok⟩

theorem gives_of_quiet (hr : Quiet V combine_func r)
    (hok : ∀ c, r = .ok c → ∃ h, ReadableRoot V.label_mode n h c ∧ Combined combine_func pre f g h) : Gives V combine_func pre False n f g r :=
  ⟨iff_of_false (fun h => (hr.stops _ h).1 rfl) id, fun e h => .inr (hr.stops e h), hok⟩

theorem gives_error (hbad : bad) : Gives V combine_func pre bad n f g (.error .combine) := by
  refine ⟨iff_of_true rfl hbad, fun e he => ?_, fun c hc => ?_⟩
  · cases he
    exact .inl rfl
  · cases hc

/-- Below a call that gives a part, nothing throws `CombineError` any more. -/
theorem Gives.bind {pre' : List Bool} {x : Except Exc (Option DataCell)} {k : Option DataCell → Except Exc (Option DataCell)}
    (hx : Gives V combine_func pre' bad m f' g' x)
    (hk : ∀ c h, ReadableRoot V.label_mode m h c → Combined combine_func pre' f' g' h → Gives V combine_func pre False n f g (k c)) :
    Gives V combine_func pre bad n f g (x >>= k) := by
  cases x with
  | error e =>
    refine ⟨?_, fun e' he => hx.stops e' ?_, fun c hc => ?_⟩
    · rw [← hx.combine_iff]
      constructor
      · intro h
        cases h
        rfl
      · intro h
        cases h
        rfl
    · cases he
      rfl
    · cases hc
  | ok a =>
    obtain ⟨h, hread, hc⟩ := hx.ok a rfl
    have hno : ¬ bad := fun hbad => by cases hx.combine_iff.2 hbad
    exact (hk a h hread hc).congr (iff_of_false id hno)

theorem parted_gives (hV : V.Forks) {p r1 r2 : List Bool} {x : Bool} {m1 m2 k : Nat} {p1 p2 : CellSlice} {error1 error2 : String}
    (h1 : Under V.label_mode m1 f p1) (h2 : Under V.label_mode m2 g p2) (hn1 : n = p.length + 1 + r1.length + m1)
    (hn2 : n = p.length + 1 + r2.length + m2) (hmax : n ≤ 1023) (hp1 : 0 < m1 → V.label_mode.Passes p1) (hp2 : 0 < m2 → V.label_mode.Passes p2) :
    Gives V combine_func pre (Meets mode (under (p ++ (!x) :: r1) f) (under (p ++ x :: r2) g)) n
      (under (p ++ (!x) :: r1) f) (under (p ++ x :: r2) g)
      (if mode % 4 ≠ 0 then .error .combine
       else do
        let d1 ← relabel_edge r1 (n - p.length - 1) p1 error1
        let d2 ← relabel_edge r2 (n - p.length - 1) p2 error2
        let cb ← append_dict_label {} p n
        if x then some <$> V.finish_create_fork cb d1 d2 k
        else some <$> V.finish_create_fork cb d2 d1 k) := by
  have hcov1 : ¬ Covers (under (p ++ (!x) :: r1) f) (under (p ++ x :: r2) g) := not_covers_parted p r1 r2 x h2.hasKey
  have hcov2 : ¬ Covers (under (p ++ x :: r2) g) (under (p ++ (!x) :: r1) f) := by
    have h := not_covers_parted p r2 r1 (f := g) (!x) h1.hasKey
    rwa [Bool.not_not] at h
  by_cases hmode : mode % 4 = 0
  · rw [if_neg (not_not.2 hmode)]
    refine (gives_of_quiet ?_ fun c hc => ?_).congr (iff_of_false id ?_)
    · refine (relabel_edge_quiet _ _ ⟨by omega, by omega⟩).bind fun d1 _ => (relabel_edge_quiet _ _ ⟨by omega, by omega⟩).bind fun d2 _ =>
        (append_dict_label_quiet _ ⟨by omega, hmax⟩).bind fun cb _ => ?_
      cases x with
      | false => exact (hV.stops ..).map _
      | true => exact (hV.stops ..).map _
    · obtain ⟨d1, hd1, hc⟩ := bind_ok.1 hc
      obtain ⟨d2, hd2, hc⟩ := bind_ok.1 hc
      obtain ⟨cb, hcb, hc⟩ := bind_ok.1 hc
      have hr1 : Readable V.label_mode (n - p.length - 1) (under r1 f) d1 := h1.readable (by omega) (relabel_edge_node hd1) hp1
      have hr2 : Readable V.label_mode (n - p.length - 1) (under r2 g) d2 := h2.readable (by omega) (relabel_edge_node hd2) hp2
      rw [← under_under, ← under_under, under_cons, under_cons]
      cases x with
      | false =>
        obtain ⟨c, hfork, rfl⟩ := map_ok hc
        exact ⟨_, hV.readable hcb hfork (by omega) hr2 hr1, (Combined.split (combined_empty_left _) (combined_empty_right _)).under⟩
      | true =>
        obtain ⟨c, hfork, rfl⟩ := map_ok hc
        exact ⟨_, hV.readable hcb hfork (by omega) hr1 hr2, (Combined.split (combined_empty_right _) (combined_empty_left _)).under⟩
    · rintro (⟨h, -⟩ | ⟨h, -⟩) <;> omega
  · rw [if_pos hmode]
    refine gives_error ?_
    by_cases hbit : mode % 2 = 1
    · exact .inl ⟨hbit, hcov1⟩
    · exact .inr ⟨by omega, hcov2⟩

theorem leaves_give (hcomb : combine_func.Proper) {x y : CellSlice} (hn : bits.length = n) (hmax : n ≤ 1023) :
    Gives V combine_func pre (Meets mode (under bits (single x)) (under bits (single y))) n (under bits (single x)) (under bits (single y))
      (do
        let cb ← append_dict_label {} bits n
        match ← combine_func cb x y (pre ++ bits) with
        | none => .ok none
        | some cb => some <$> cb.finalize false) := by
  have hcov : ∀ v w : CellSlice, Covers (under bits (single v)) (under bits (single w)) := fun v w => (covers_under bits).2 (covers_one v w)
  refine (gives_of_quiet ?_ fun c hc => ?_).congr (iff_of_false id ?_)
  · refine (append_dict_label_quiet _ ⟨by omega, hmax⟩).bind fun cb _ => Quiet.bind ⟨fun e he => ?_⟩ fun o _ => ?_
    · exact ⟨fun h => hcomb.quiet _ _ _ _ (h ▸ he), .inr (.inl ⟨_, _, _, _, he⟩)⟩
    cases o with
    | none => exact quiet_ok none
    | some cb => exact (finalize_quiet cb false).map _
  · obtain ⟨cb, hcb, hc⟩ := bind_ok.1 hc
    obtain ⟨o, ho, hc⟩ := bind_ok.1 hc
    cases o with
    | none =>
      cases hc
      refine ⟨empty, rfl, ?_⟩
      have hdrop : Combined combine_func pre (under bits (single x)) (under bits (single y)) (under bits empty) :=
        (Combined.single (.left_out ho)).under
      rwa [under_empty] at hdrop
    | some cb' =>
      obtain ⟨u, rfl⟩ := hcomb.writes _ _ _ _ _ ho
      obtain ⟨c, hleaf, rfl⟩ := map_ok hc
      exact ⟨_, (Under.leaf u).readable (by omega) (.of_label hcb hleaf) (by omega), (Combined.single (.written ho)).under⟩
  · rintro (⟨-, h⟩ | ⟨-, h⟩)
    · exact h (hcov x y)
    · exact h (hcov y x)

/-- Two forks under one edge: what is below is combined without `mode`. -/
theorem forks_give (hV : V.Forks) {r1 r2 : Except Exc (Option DataCell)} (hf : HasKey f) (hg : HasKey g) (hf' : HasKey f') (hg' : HasKey g')
    (h1 : Gives V combine_func (pre ++ bits ++ [false]) False m f f' r1)
    (h2 : Gives V combine_func (pre ++ bits ++ [true]) False m g g' r2) (hn : n = bits.length + (m + 1)) (hmax : n ≤ 1023) :
    Gives V combine_func pre (Meets mode (under bits (split f g)) (under bits (split f' g'))) n
      (under bits (split f g)) (under bits (split f' g'))
      (do
        let c1 ← r1
        let c2 ← r2
        join_children V bits n c1 c2) := by
  have hno : ¬ Meets mode (under bits (split f g)) (under bits (split f' g')) := by
    rintro (⟨-, h⟩ | ⟨-, h⟩)
    · exact h ((covers_under bits).2 (covers_split hf hg hf' hg'))
    · exact h ((covers_under bits).2 (covers_split hf' hg' hf hg))
  refine (h1.bind fun c1 a hc1 ha => h2.bind fun c2 b hc2 hb => ?_).congr (iff_of_false id hno)
  obtain ⟨hquiet, hok⟩ := join_children_readable hV hc1 hc2 hn hmax
  exact gives_of_quiet hquiet fun c hc => ⟨_, hok c hc, (ha.split hb).under⟩

/-- One dictionary goes under a child of the other, which keeps its other child. -/
theorem child_gives (hV : V.Forks) {sw : Bool} {f₁ g₁ f₂ g₂ : BitMap CellSlice} {c1 c2 : DataCell} {payload : CellSlice} {refs : List DataCell}
    (hrefs : payload.refs = c1 :: c2 :: refs) (h1 : Readable V.label_mode m f c1) (h2 : Readable V.label_mode m g c2)
    (hr : Gives V combine_func (pre ++ bits ++ [sw]) bad m f₁ g₁ r) (hn : n = bits.length + (m + 1)) (hmax : n ≤ 1023)
    (hc : ∀ h, Combined combine_func (pre ++ bits ++ [sw]) f₁ g₁ h →
      Combined combine_func (pre ++ bits) f₂ g₂ (if sw then split f h else split h g)) :
    Gives V combine_func pre bad n (under bits f₂) (under bits g₂)
      (do
        let child ← r
        if (payload.prefetch_ref (!sw).toNat).isNone then .error .check
        else if sw then join_children V bits n (payload.prefetch_ref 0) child
        else join_children V bits n child (payload.prefetch_ref 1)) := by
  have h0 : payload.prefetch_ref 0 = some c1 := by rw [CellSlice.prefetch_ref, hrefs]; rfl
  have h1' : payload.prefetch_ref 1 = some c2 := by rw [CellSlice.prefetch_ref, hrefs]; rfl
  refine hr.bind fun child a hchild ha => ?_
  have hcombined := hc a ha
  cases sw with
  | false =>
    have hr2 : ReadableRoot V.label_mode m g (some c2) := h2
    obtain ⟨hquiet, hok⟩ := join_children_readable hV hchild hr2 hn hmax
    rw [Bool.not_false, Bool.toNat_true, h1']
    exact gives_of_quiet hquiet fun c hc => ⟨_, hok c hc, hcombined.under⟩
  | true =>
    have hr1 : ReadableRoot V.label_mode m f (some c1) := h1
    obtain ⟨hquiet, hok⟩ := join_children_readable hV hr1 hchild hn hmax
    rw [Bool.not_true, Bool.toNat_false, h0]
    exact gives_of_quiet hquiet fun c hc => ⟨_, hok c hc, hcombined.under⟩

end Gives

theorem combined_first {combine_func : CombineFunc} {pre r : List Bool} {f g g₂ h : BitMap CellSlice} (sw : Bool)
    (hc : Combined combine_func (pre ++ [sw]) (if sw then g else f) (under r g₂) h) :
    Combined combine_func pre (split f g) (under (sw :: r) g₂) (if sw then split f h else split h g) := by
  rw [under_cons]
  cases sw with
  | false => exact hc.split (combined_empty_right g)
  | true => exact (combined_empty_right f).split hc

theorem combined_second {combine_func : CombineFunc} {pre r : List Bool} {f g f₁ h : BitMap CellSlice} (sw : Bool)
    (hc : Combined combine_func (pre ++ [sw]) (under r f₁) (if sw then g else f) h) :
    Combined combine_func pre (under (sw :: r) f₁) (split f g) (if sw then split f h else split h g) := by
  rw [under_cons]
  cases sw with
  | false => exact hc.split (combined_empty_left g)
  | true => exact (combined_empty_left f).split hc

theorem dict_combine_with_gives {V : Virtual} (hV : V.Forks) {combine_func : CombineFunc} (hcomb : combine_func.Proper) (n : Nat)
    (pre : List Bool) {f1 f2 : BitMap CellSlice} {d1 d2 : DataCell} {s1 s2 : List Bool} (mode : Nat)
    (h1 : Beneath V.label_mode s1 n f1 d1) (h2 : Beneath V.label_mode s2 n f2 d2) (hs1 : before pre s1.length = s1)
    (hs2 : before pre s2.length = s2) (hmax : n ≤ 1023) :
    Gives V combine_func pre (Meets mode f1 f2) n f1 f2
      (dict_combine_with V combine_func (some d1) (some d2) pre n mode s1.length s2.length) := by
  induction n using Nat.strong_induction_on generalizing f1 f2 d1 d2 pre s1 s2 mode with
  | _ n ih =>
  obtain ⟨label1, m1, g1, p1, hn1, rfl, hedge1, hp1⟩ := h1
  obtain ⟨label2, m2, g2, p2, hn2, rfl, hedge2, hp2⟩ := h2
  obtain ⟨r, hr, hstep⟩ := dict_combine_with_step combine_func mode hedge1 hedge2 hs1 hs2 (by omega) (by omega)
  rw [hr]
  cases hstep with
  | parted p r1 r2 x =>
    simp only [length_append, length_cons] at hn1 hn2
    refine parted_gives hV hp1 hp2 (by omega) (by omega) hmax (fun hpos => hedge1.passes ?_) fun hpos => hedge2.passes ?_
    · simp only [length_append, length_cons]
      omega
    · simp only [length_append, length_cons]
      omega
  | leaves _ h =>
    obtain rfl : m1 = 0 := by omega
    obtain rfl : m2 = 0 := by omega
    cases hp1 with
    | leaf =>
      cases hp2 with
      | leaf => exact leaves_give hcomb h hmax
  | forks _ h =>
    cases hp1 with
    | leaf => omega
    | @fork bits m f g a1 a2 refs ha1 ha2 =>
      cases hp2 with
      | leaf => omega
      | @fork bits' m' f' g' b1 b2 refs' hb1 hb2 =>
        obtain rfl : m = n - label1.length - 1 := by omega
        obtain rfl : m' = n - label1.length - 1 := by omega
        have hno : ∀ a b : BitMap CellSlice, Meets 0 a b ↔ False := fun a b => by simp [Meets]
        have hleft := ih _ (by omega) (pre ++ label1 ++ [false]) 0 ha1.beneath hb1.beneath (before_nil _) (before_nil _) (by omega)
        have hright := ih _ (by omega) (pre ++ label1 ++ [true]) 0 ha2.beneath hb2.beneath (before_nil _) (before_nil _) (by omega)
        exact forks_give hV ha1.hasKey ha2.hasKey hb1.hasKey hb2.hasKey (hleft.congr (hno _ _)) (hright.congr (hno _ _)) hn1 hmax
  | first _ r sw h =>
    simp only [length_append, length_cons] at hn2
    cases hp1 with
    | leaf => omega
    | @fork bits m f g a1 a2 refs ha1 ha2 =>
      have hno := not_covers_below (f := g2) label1 r sw ha1.hasKey ha2.hasKey
      by_cases hbit : mode / 2 % 2 = 1
      · rw [if_pos hbit]
        exact gives_error (.inr ⟨hbit, hno⟩)
      · rw [if_neg hbit]
        obtain rfl : m = n - label1.length - 1 := by omega
        have hbelow : Beneath V.label_mode (s2 ++ label1 ++ [sw]) (n - label1.length - 1) (under r g2) d2 := hp2.beneath (by omega) hedge2
        have hpre := before_step (l := label1 ++ [sw]) hs2
        rw [← append_assoc, ← append_assoc] at hpre
        have hside := ha1.side ha2 sw
        have hrec := ih _ (by omega) (pre ++ label1 ++ [sw]) mode hside.beneath hbelow (before_nil _) hpre (by omega)
        have hmeets : Meets mode (if sw then g else f) (under r g2) ↔ Meets mode (under label1 (split f g)) (under (label1 ++ sw :: r) g2) := by
          rw [Meets, Meets, covers_below]
          simp [hbit]
        rw [prefetch_ref_side, ← under_under label1 (sw :: r)]
        rw [← under_under label1 (sw :: r)] at hmeets
        exact child_gives hV rfl ha1 ha2 (hrec.congr hmeets) hn1 hmax fun h => combined_first sw
  | second _ r sw h =>
    simp only [length_append, length_cons] at hn1
    cases hp2 with
    | leaf => omega
    | @fork bits m f g b1 b2 refs hb1 hb2 =>
      have hno := not_covers_below (f := g1) label2 r sw hb1.hasKey hb2.hasKey
      by_cases hbit : mode % 2 = 1
      · rw [if_pos hbit]
        exact gives_error (.inl ⟨hbit, hno⟩)
      · rw [if_neg hbit]
        obtain rfl : m = n - label2.length - 1 := by omega
        have hbelow : Beneath V.label_mode (s1 ++ label2 ++ [sw]) (n - label2.length - 1) (under r g1) d1 := hp1.beneath (by omega) hedge1
        have hpre := before_step (l := label2 ++ [sw]) hs1
        rw [← append_assoc, ← append_assoc] at hpre
        have hside := hb1.side hb2 sw
        have hrec := ih _ (by omega) (pre ++ label2 ++ [sw]) mode hbelow hside.beneath hpre (before_nil _) (by omega)
        have hmeets : Meets mode (under r g1) (if sw then g else f) ↔ Meets mode (under (label2 ++ sw :: r) g1) (under label2 (split f g)) := by
          rw [Meets, Meets, covers_below]
          simp [hbit]
        rw [prefetch_ref_side, ← under_under label2 (sw :: r)]
        rw [← under_under label2 (sw :: r)] at hmeets
        exact child_gives hV rfl hb1 hb2 (hrec.congr hmeets) hn2 hmax fun h => combined_second sw

/-! ## combine_with -/

/-- `CombineError` is caught, and the dictionary stays as it was. -/
def DictionaryFixed.combine_with (d dict2 : DictionaryFixed) (combine_func : CombineFunc) (mode : Nat) : Except Exc (DictionaryFixed × Bool) := do
  d.force_validate
  dict2.force_validate
  if d.key_bits ≠ dict2.key_bits then .error (.vm .dict_err "cannot combine dictionaries with different key lengths")
  else match dict_combine_with d.methods combine_func d.root_cell dict2.root_cell [] d.key_bits mode 0 0 with
    | .ok c => .ok ({ d with root_cell := c }, true)
    | .error .combine => .ok (d, false)
    | .error e => .error e

/-- Some key of `g` is absent from `f`. -/
def Missing (f g : BitMap CellSlice) : Prop := ∃ k, (g k).isSome = true ∧ f k = none

/-- There is a key that `mode` forbids, as its comment says. -/
def Forbidden (mode : Nat) (f g : BitMap CellSlice) : Prop := mode % 2 = 1 ∧ Missing f g ∨ mode / 2 % 2 = 1 ∧ Missing g f

/-- What the code refuses. -/
def Refused (mode : Nat) (f g : BitMap CellSlice) : Prop :=
  (¬ HasKey f ∧ ¬ HasKey g ∧ mode % 2 = 1) ∨ (HasKey f ∧ ¬ HasKey g ∧ mode / 2 % 2 = 1) ∨ (HasKey f ∧ HasKey g ∧ Meets mode f g)

section CombineWith
variable {f g : BitMap CellSlice} {mode : Nat}

theorem not_hasKey_empty : ¬ HasKey (empty : BitMap CellSlice) := by
  rintro ⟨k, v, hk⟩
  cases hk

theorem missing_of_not_covers (h : ¬ Covers f g) : Missing f g := by
  by_contra hno
  refine h fun p _ k v hk => ?_
  cases hf : f k with
  | none => exact absurd ⟨k, by rw [hk]; rfl, hf⟩ hno
  | some w => exact ⟨k, w, hf, rfl⟩

theorem Meets.forbidden (h : Meets mode f g) : Forbidden mode f g := by
  rcases h with ⟨hbit, h⟩ | ⟨hbit, h⟩
  · exact .inl ⟨hbit, missing_of_not_covers h⟩
  · exact .inr ⟨hbit, missing_of_not_covers h⟩

theorem Missing.hasKey (h : Missing f g) : HasKey g := by
  obtain ⟨k, hk, -⟩ := h
  obtain ⟨v, hv⟩ := Option.isSome_iff_exists.1 hk
  exact ⟨k, v, hv⟩

theorem missing_of_hasKey (hg : HasKey g) (hf : ¬ HasKey f) : Missing f g := by
  obtain ⟨k, v, hk⟩ := hg
  refine ⟨k, by rw [hk]; rfl, ?_⟩
  cases hfk : f k with
  | none => rfl
  | some w => exact absurd ⟨k, w, hfk⟩ hf

theorem refused_iff_forbidden : (Refused mode f g ↔ Forbidden mode f g) ↔
    (mode % 2 = 1 → HasKey f) ∧ (HasKey f → HasKey g → Forbidden mode f g → Meets mode f g) := by
  by_cases hf : HasKey f
  · by_cases hg : HasKey g
    · have hr : Refused mode f g ↔ Meets mode f g := by simp [Refused, hf, hg]
      rw [hr]
      exact ⟨fun h => ⟨fun _ => hf, fun _ _ => h.2⟩, fun h => ⟨Meets.forbidden, h.2 hf hg⟩⟩
    · refine iff_of_true ?_ ⟨fun _ => hf, fun _ h => absurd h hg⟩
      have hr : Refused mode f g ↔ mode / 2 % 2 = 1 := by simp [Refused, hf, hg]
      rw [hr]
      constructor
      · exact fun hbit => .inr ⟨hbit, missing_of_hasKey hf hg⟩
      · rintro (⟨-, h⟩ | ⟨hbit, -⟩)
        · exact absurd h.hasKey hg
        · exact hbit
  · have hr : Refused mode f g ↔ ¬ HasKey g ∧ mode % 2 = 1 := by simp [Refused, hf]
    rw [hr]
    constructor
    · refine fun h => ⟨fun hbit => ?_, fun h => absurd h hf⟩
      by_cases hg : HasKey g
      · exact absurd hg (h.2 (.inl ⟨hbit, missing_of_hasKey hg hf⟩)).1
      · rcases h.1 ⟨hg, hbit⟩ with ⟨-, h⟩ | ⟨-, h⟩
        · exact absurd h.hasKey hg
        · exact h.hasKey
    · rintro ⟨hbit, -⟩
      constructor
      · exact fun h => absurd (hbit h.2) hf
      · rintro (⟨hb, -⟩ | ⟨-, h⟩)
        · exact absurd (hbit hb) hf
        · exact absurd h.hasKey hf

theorem dict_combine_with_refuses (mode : Nat) {V : Virtual} (hV : V.Forks) {combine_func : CombineFunc} (hcomb : combine_func.Proper) {n : Nat}
    {c1 c2 : Option DataCell} (h1 : ReadableRoot V.label_mode n f c1) (h2 : ReadableRoot V.label_mode n g c2) (hmax : n ≤ 1023) :
    Gives V combine_func [] (Refused mode f g) n f g (dict_combine_with V combine_func c1 c2 [] n mode 0 0) := by
  cases c1 with
  | none =>
    obtain rfl : f = empty := h1
    rw [dict_combine_with.eq_def]
    dsimp only
    rw [if_neg (by simp)]
    have hok : ∀ c, (.ok c2 : Except Exc (Option DataCell)) = .ok c →
        ∃ h, ReadableRoot V.label_mode n h c ∧ Combined combine_func [] empty g h := by
      intro c hc
      cases hc
      exact ⟨g, h2, combined_empty_left g⟩
    cases c2 with
    | none =>
      obtain rfl : g = empty := h2
      by_cases hbit : mode % 2 = 1
      · rw [if_pos ⟨hbit, rfl⟩]
        exact gives_error (.inl ⟨not_hasKey_empty, not_hasKey_empty, hbit⟩)
      · rw [if_neg (fun h => hbit h.1)]
        exact (gives_of_quiet (quiet_ok _) hok).congr (iff_of_false id (by simp [Refused, not_hasKey_empty, hbit]))
    | some c2 =>
      rw [if_neg (by simp)]
      exact (gives_of_quiet (quiet_ok _) hok).congr (iff_of_false id (by simp [Refused, not_hasKey_empty, hasKey h2]))
  | some c1 =>
    cases c2 with
    | none =>
      obtain rfl : g = empty := h2
      rw [dict_combine_with.eq_def]
      dsimp only
      rw [if_neg (by simp)]
      by_cases hbit : mode / 2 % 2 = 1
      · rw [if_pos hbit]
        exact gives_error (.inr (.inl ⟨hasKey h1, not_hasKey_empty, hbit⟩))
      · rw [if_neg hbit]
        refine (gives_of_quiet (quiet_ok _) fun c hc => ?_).congr (iff_of_false id (by simp [Refused, hasKey h1, not_hasKey_empty, hbit]))
        cases hc
        exact ⟨f, h1, combined_empty_right f⟩
    | some c2 =>
      have hkeys : Meets mode f g ↔ Refused mode f g := by simp [Refused, hasKey h1, hasKey h2]
      exact (dict_combine_with_gives hV hcomb n [] mode (beneath h1) (beneath h2) rfl rfl hmax).congr hkeys

/-- The second dictionary is only read. A call that returns `false` leaves the first one, and it does so exactly if there is a key that
`mode` forbids; a call that returns `true` leaves the combined map; the others stop where a cell overflows, or the callback or the virtual
method throws. -/
structure CombinesExactly (d dict2 : DictionaryFixed) (combine_func : CombineFunc) (mode : Nat) (f g : BitMap CellSlice) : Prop where
  refused : (∃ d', d.combine_with dict2 combine_func mode = .ok (d', false)) ↔ Forbidden mode f g
  unchanged : ∀ d', d.combine_with dict2 combine_func mode = .ok (d', false) → d' = d
  combined : ∀ d', d.combine_with dict2 combine_func mode = .ok (d', true) → d'.key_bits = d.key_bits ∧ d'.methods = d.methods ∧
    ∃ h, ReadableRoot d.methods.label_mode d.key_bits h d'.root_cell ∧ Combined combine_func [] f g h
  stops : ∀ e, d.combine_with dict2 combine_func mode = .error e → Stops d.methods combine_func e

variable {d dict2 : DictionaryFixed} {combine_func : CombineFunc}

theorem combine_with_cases (combine_func : CombineFunc) (mode : Nat) (hbits : dict2.key_bits = d.key_bits) (hmax : d.key_bits ≤ max_key_bits) :
    d.combine_with dict2 combine_func mode = match dict_combine_with d.methods combine_func d.root_cell dict2.root_cell [] d.key_bits mode 0 0 with
      | .ok c => .ok ({ d with root_cell := c }, true)
      | .error .combine => .ok (d, false)
      | .error e => .error e := by
  rw [combine_with, d.force_validate_ok hmax, ok_bind, dict2.force_validate_ok (by omega), ok_bind, if_neg (by omega)]

/-- Keeps the value of the first dictionary. -/
def keep_first : CombineFunc := fun cb v _ _ => .ok (cb.append_cellslice_bool v)

theorem keep_first_proper : keep_first.Proper where
  writes cb v w key cb' h := ⟨v, append_cellslice_bool_some (Except.ok.inj h)⟩
  quiet cb v w key := by simp [keep_first]

end CombineWith

end Ton.Dict
