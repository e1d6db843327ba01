import Ton.Lib.Merge
import Ton.Dict.CombineSteps
import Ton.Dict.Reading
import Ton.Dict.Extras
/-!
# Writing nodes that can be read

What the operations write for any payload, where nothing is known of its size: a store
may fail, but only for want of room (`Quiet`), and what is written is readable
(`Under.readable`, `join_children_readable`).
-/

namespace Ton.Dict
open CellBuilder Result BitMap LabelParser List

/-! ## No room -/

/-- There is no room for more, in a builder or in a cell. -/
def Overflow (e : Exc) : Prop := e = .cellWrite ∨ ∃ msg, e = .vm .cell_ov msg

/-- What ends a merge: a cell overflows, or the callback or the virtual method throws. -/
def Stops (V : Virtual) (combine_func : CombineFunc) (e : Exc) : Prop :=
  e ≠ .combine ∧ (Overflow e ∨ (∃ cb v w key, combine_func cb v w key = .error e) ∨ ∃ cb c1 c2 n, V.finish_create_fork cb c1 c2 n = .error e)

structure Quiet {α : Type} (V : Virtual) (combine_func : CombineFunc) (r : Except Exc α) : Prop where
  stops : ∀ e, r = .error e → Stops V combine_func e

section Quiet
variable {α β : Type} {V : Virtual} {combine_func : CombineFunc}

theorem quiet_ok (a : α) : Quiet V combine_func (.ok a) := ⟨fun _ => (nomatch ·)⟩

theorem quiet_overflow (msg : String) : Quiet V combine_func (.error (.vm .cell_ov msg) : Except Exc α) := by
  refine ⟨fun e h => ?_⟩
  cases h
  exact ⟨nofun, .inl (.inr ⟨msg, rfl⟩)⟩

theorem quiet_cellWrite : Quiet V combine_func (.error .cellWrite : Except Exc α) := by
  refine ⟨fun e h => ?_⟩
  cases h
  exact ⟨nofun, .inl (.inl rfl)⟩

theorem Quiet.bind {x : Except Exc α} {f : α → Except Exc β} (hx : Quiet V combine_func x)
    (hf : ∀ a, x = .ok a → Quiet V combine_func (f a)) : Quiet V combine_func (x >>= f) := by
  cases x with
  | error e =>
    refine ⟨fun e' h => hx.stops e' ?_⟩
    cases h
    rfl
  | ok a => exact hf a rfl

theorem Quiet.map {x : Except Exc α} (f : α → β) (hx : Quiet V combine_func x) : Quiet V combine_func (f <$> x) := by
  cases x with
  | error e =>
    refine ⟨fun e' h => hx.stops e' ?_⟩
    cases h
    rfl
  | ok a => exact quiet_ok (f a)

theorem store_bits_quiet (cb : CellBuilder) (bs : List Bool) : Quiet V combine_func (cb.store_bits bs) := by
  rw [store_bits]
  cases cb.store_bits_bool bs with
  | none => exact quiet_cellWrite
  | some cb => exact quiet_ok cb

theorem finalize_quiet (cb : CellBuilder) (special : Bool) : Quiet V combine_func (cb.finalize special) := by
  rw [finalize]
  cases DataCell.create cb.bits cb.refs special with
  | error e => exact quiet_cellWrite
  | ok c => exact quiet_ok c

theorem append_dict_label_same_quiet (cb : CellBuilder) (same : Bool) {len max_len : Nat} (h : len ≤ max_len ∧ max_len ≤ 1023) :
    Quiet V combine_func (append_dict_label_same cb same len max_len) := by
  unfold append_dict_label_same
  dsimp only
  rw [if_neg (not_not.2 h)]
  split_ifs
  · exact (store_bits_quiet ..).bind fun cb _ => store_bits_quiet ..
  · exact (store_bits_quiet ..).bind fun cb _ => (store_bits_quiet ..).bind fun cb _ => store_bits_quiet ..
  · exact (store_bits_quiet ..).bind fun cb _ => (store_bits_quiet ..).bind fun cb _ => store_bits_quiet ..

theorem append_dict_label_quiet (cb : CellBuilder) {label : List Bool} {max_len : Nat} (h : label.length ≤ max_len ∧ max_len ≤ 1023) :
    Quiet V combine_func (append_dict_label cb label max_len) := by
  unfold append_dict_label
  dsimp only
  rw [if_neg (not_not.2 h)]
  have hlast : ∀ cb : CellBuilder, Quiet V combine_func (if cb.remaining_bits < label.length then
      .error (.vm .cell_ov "cannot store a label into a dictionary cell") else cb.store_bits label) := by
    intro cb
    split_ifs
    · exact quiet_overflow _
    · exact store_bits_quiet cb label
  split_ifs
  · exact append_dict_label_same_quiet _ _ h
  · exact (store_bits_quiet ..).bind fun cb _ => (store_bits_quiet ..).bind fun cb _ => hlast cb
  · exact (store_bits_quiet ..).bind fun cb _ => (store_bits_quiet ..).bind fun cb _ => hlast cb

theorem relabel_edge_quiet {label : List Bool} {n : Nat} (payload : CellSlice) (error : String) (h : label.length ≤ n ∧ n ≤ 1023) :
    Quiet V combine_func (relabel_edge label n payload error) := by
  refine (append_dict_label_quiet _ h).bind fun cb _ => ?_
  cases cb.append_cellslice_bool payload with
  | none => exact quiet_overflow _
  | some cb => exact finalize_quiet cb false

end Quiet

/-! ## Writing what can be read -/

/-- Forks are written so that they are read back, and writing them throws no `CombineError`. -/
structure Virtual.Forks (V : Virtual) : Prop where
  node : ∀ {label : List Bool} {n k : Nat} {cb : CellBuilder} {c1 c2 c : DataCell}, append_dict_label {} label n = .ok cb → label.length < n →
    V.finish_create_fork cb c1 c2 k = .ok c →
      ∃ p bits refs, LabelParser.parse c n V.label_mode = .ok p ∧ p.Reads label ⟨bits, c1 :: c2 :: refs⟩
  quiet : ∀ cb c1 c2 n, V.finish_create_fork cb c1 c2 n ≠ .error .combine

theorem Virtual.Forks.stops {V : Virtual} (hV : V.Forks) {combine_func : CombineFunc} (cb : CellBuilder) (c1 c2 : DataCell) (n : Nat) :
    Quiet V combine_func (V.finish_create_fork cb c1 c2 n) :=
  ⟨fun _ h => ⟨fun he => hV.quiet cb c1 c2 n (he ▸ h), .inr (.inr ⟨cb, c1, c2, n, h⟩)⟩⟩

theorem Virtual.Follows.forks {V : Virtual} {K : Kind} (hV : V.Follows K) (hK : K.Fixed) (hpass : K.Passes V.label_mode)
    (hquiet : ∀ cb c1 c2 n, V.finish_create_fork cb c1 c2 n ≠ .error .combine) : V.Forks := by
  refine ⟨fun {label n k cb c1 c2 c} hcb hlt hc => ?_, hquiet⟩
  obtain ⟨payload, hp, hc⟩ := hV.fork hc
  obtain ⟨p, hparse, hr⟩ := (Node.of_label hcb hc).parse_ok fun _ => hpass hp
  obtain ⟨bits, refs⟩ := payload
  obtain ⟨rest, hrefs⟩ := hK.fork hp
  dsimp only at hrefs
  subst hrefs
  exact ⟨p, bits, rest, hparse, hr⟩

theorem Virtual.fixed_forks : Virtual.fixed.Forks := by
  refine fixed_follows.forks Kind.plain_fixed Kind.plain_passes fun cb c1 c2 n h => ?_
  unfold fixed at h
  dsimp only at h
  cases hs : (cb.store_ref_bool c1).bind (·.store_ref_bool c2) with
  | none =>
    rw [hs] at h
    cases h
  | some cb' =>
    rw [hs] at h
    have hquiet : Quiet .fixed (fun _ _ _ _ => .ok none) (cb'.finalize false) := finalize_quiet cb' false
    exact (hquiet.stops _ h).1 rfl

section Under
variable {label_mode : Check} {n m : Nat} {f g : BitMap CellSlice} {c : DataCell} {payload : CellSlice}

variable {label : List Bool}

/-- A label that was parsed stands before a leaf or a fork that passes. -/
theorem parse_passes {p : LabelParser} (h : LabelParser.parse c n label_mode = .ok p) (hr : p.Reads label payload)
    (hlt : label.length < n) : label_mode.Passes payload := by
  have hvalid : p.validate n label_mode = .ok () := by
    unfold LabelParser.parse at h
    obtain ⟨cs, -, h⟩ := bind_ok.1 h
    cases hp : LabelParser.parse_label cs n with
    | none =>
      rw [hp] at h
      cases h
    | some q =>
      rw [hp] at h
      obtain ⟨u, hu, h⟩ := bind_ok.1 h
      cases h
      exact hu
  have hsize : payload.refs.length = p.remainder.size_refs ∧ p.remainder.size = p.s_bits + payload.bits.length := by
    rcases hr.cases with ⟨-, hs, e⟩ | ⟨-, -, hs, e⟩ <;> simp [e, hs, CellSlice.size, CellSlice.size_refs]
  cases label_mode with
  | chk_min => trivial
  | chk_size =>
    rw [LabelParser.validate, hr.l_bits, if_neg (by omega)] at hvalid
    by_contra hno
    rw [if_pos ⟨hlt, .inr (by simp only [Check.Passes] at hno; omega)⟩] at hvalid
    cases hvalid
  | chk_all =>
    rw [LabelParser.validate, hr.l_bits, if_neg (by omega)] at hvalid
    by_contra hno
    by_cases hfork : p.remainder.size = p.s_bits ∧ p.remainder.size_refs = 2
    · exact hno ⟨length_eq_zero_iff.1 (by omega), by omega⟩
    · rw [if_pos ⟨hlt, by omega⟩] at hvalid
      cases hvalid

theorem Readable.hasKey (h : Readable label_mode n f c) : HasKey f := h.exists_key

theorem Under.hasKey (h : Under label_mode m f payload) : HasKey f := by
  cases h with
  | leaf => exact ⟨[], payload, single_nil payload⟩
  | fork h1 h2 => exact h1.hasKey.split_left _

theorem Under.readable (h : Under label_mode m g payload) (hn : n = label.length + m) (hc : Node label n payload c)
    (hpass : 0 < m → label_mode.Passes payload) : Readable label_mode n (under label g) c := by
  obtain ⟨p, hp, hr⟩ := hc.parse_ok fun hlt => hpass (by omega)
  subst hn
  cases h with
  | leaf v => exact .leaf hp hr
  | fork h1 h2 => exact .fork hp hr h1 h2

/-- A dictionary whose keys have the bits `s` more at the start, which are left out of the map. -/
def Beneath (label_mode : Check) (s : List Bool) (n : Nat) (f : BitMap CellSlice) (c : DataCell) : Prop :=
  ∃ label m g payload, n = label.length + m ∧ f = under label g ∧ Edge label_mode s label n payload c ∧ Under label_mode m g payload

theorem Readable.beneath (h : Readable label_mode n f c) : Beneath label_mode [] n f c := by
  obtain ⟨label, m, g, payload, p, hn, hf, hp, hr, hunder⟩ := h.exists_node
  exact ⟨label, m, g, payload, hn, hf, ⟨p, hp, hr⟩, hunder⟩

theorem Under.beneath {s l r : List Bool} {sw : Bool} (h : Under label_mode m g payload) (hn : n = l.length + 1 + r.length + m)
    (hc : Edge label_mode s (l ++ sw :: r) n payload c) : Beneath label_mode (s ++ l ++ [sw]) (n - l.length - 1) (under r g) c := by
  refine ⟨r, m, g, payload, by omega, rfl, ?_, h⟩
  rw [Edge, append_assoc, append_assoc, append_assoc, singleton_append, length_append, length_append,
    length_singleton, show n - l.length - 1 + (s.length + (l.length + 1)) = n + s.length by omega]
  exact hc

theorem Edge.passes {s label : List Bool} (h : Edge label_mode s label n payload c) (hlt : label.length < n) : label_mode.Passes payload := by
  obtain ⟨p, hp, hr⟩ := h
  refine parse_passes hp hr ?_
  rw [length_append]
  omega

variable {V : Virtual} {combine_func : CombineFunc}

theorem Virtual.Forks.readable (hV : V.Forks) {cb : CellBuilder} {c1 c2 : DataCell} {k : Nat}
    (hcb : append_dict_label {} label n = .ok cb) (hc : V.finish_create_fork cb c1 c2 k = .ok c) (hn : n = label.length + (m + 1))
    (h1 : Readable V.label_mode m f c1) (h2 : Readable V.label_mode m g c2) : Readable V.label_mode n (under label (split f g)) c := by
  obtain ⟨p, bits, refs, hp, hr⟩ := hV.node hcb (by omega) hc
  subst hn
  exact .fork hp hr h1 h2

theorem Readable.relabel {bits : List Bool} {b : Bool} {c1 : DataCell} {error : String} (h : Readable V.label_mode m f c1)
    (hn : n = bits.length + (m + 1)) (hmax : n ≤ 1023) {r : Except Exc (Option DataCell)}
    (hr : r = (do
      let label3 ← LabelParser.parse c1 (n - bits.length - 1) V.label_mode
      let (bits3, label3) := label3.extract_label
      some <$> relabel_edge (bits ++ [b] ++ bits3) n label3.remainder error)) :
    Quiet V combine_func r ∧ ∀ o, r = .ok o → ReadableRoot V.label_mode n (under bits (under [b] f)) o := by
  obtain ⟨label, m', g, payload, p, hm, rfl, hp, hread, hunder⟩ := h.exists_node
  rw [show n - bits.length - 1 = m by omega, hp, ok_bind] at hr
  dsimp only at hr
  rw [hread.extract_label.1, hread.extract_label.2] at hr
  subst hr
  have hlen : (bits ++ [b] ++ label).length + m' = n := by
    simp only [length_append, length_singleton]
    omega
  refine ⟨(relabel_edge_quiet _ _ ⟨by omega, hmax⟩).map _, fun o ho => ?_⟩
  obtain ⟨c, hc, rfl⟩ := map_ok ho
  rw [under_under, under_under, append_assoc, ← append_assoc]
  exact Under.readable hunder hlen.symm (relabel_edge_node hc) fun hpos => parse_passes hp hread (by omega)

theorem join_children_readable (hV : V.Forks) {bits : List Bool} {c1 c2 : Option DataCell} (h1 : ReadableRoot V.label_mode m f c1)
    (h2 : ReadableRoot V.label_mode m g c2) (hn : n = bits.length + (m + 1)) (hmax : n ≤ 1023) :
    Quiet V combine_func (join_children V bits n c1 c2) ∧
      ∀ o, join_children V bits n c1 c2 = .ok o → ReadableRoot V.label_mode n (under bits (split f g)) o := by
  cases c1 with
  | none =>
    obtain rfl : f = empty := h1
    cases c2 with
    | none =>
      obtain rfl : g = empty := h2
      refine ⟨quiet_ok _, fun o ho => ?_⟩
      cases ho
      rw [split_empty, under_empty]
      rfl
    | some c2 =>
      rw [split_empty_left]
      exact Readable.relabel h2 hn hmax rfl
  | some c1 =>
    cases c2 with
    | none =>
      obtain rfl : g = empty := h2
      rw [split_empty_right]
      exact Readable.relabel h1 hn hmax rfl
    | some c2 =>
      refine ⟨(append_dict_label_quiet _ ⟨by omega, hmax⟩).bind fun cb _ => (hV.stops ..).map _, fun o ho => ?_⟩
      obtain ⟨cb, hcb, ho⟩ := bind_ok.1 ho
      obtain ⟨c, hc, rfl⟩ := map_ok ho
      exact hV.readable hcb hc hn h1 h2

end Under

end Ton.Dict
