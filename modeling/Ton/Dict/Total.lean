import Ton.Lib.Merge
import Ton.Dict.Refine
import Ton.Dict.CombineSteps
import Ton.Dict.LabelCodec
/-!
# Combining dictionaries of small values

`dict_combine_with` on dictionaries whose values take a bounded number of bits
and no references, as those of amounts do. Then every cell that is written fits,
so the result is known exactly: the merged map, or a `CombineError` when two
values conflict or `mode` forbids what the descent meets
(`dict_combine_with_merge`).

A cell is read as a dictionary whatever form its labels have, as long as the
parser takes them (`EdgeForm`).
-/

namespace Ton.Dict
open List hiding merge

open BigEndian CellTraits CellBuilder Result BitMap LabelParser

/-! ## Stores that fit -/

theorem append_cellslice_fits {cb : CellBuilder} {cs : CellSlice} (hb : cb.bits.length + cs.bits.length ≤ max_bits)
    (hr : cb.refs.length + cs.refs.length ≤ max_refs) :
    cb.append_cellslice_bool cs = some ⟨cb.bits ++ cs.bits, cb.refs ++ cs.refs⟩ := by
  refine if_pos ?_
  have h1 : cs.bits.length ≤ max_bits - cb.bits.length := by omega
  have h2 : cs.refs.length ≤ max_refs - cb.refs.length := by omega
  simp [can_extend_by, CellSlice.size, CellSlice.size_refs, h1, h2]

/-- A key length for which labels surely fit, and a value after a label. -/
def max_small_key : Nat := 64
def max_small_value : Nat := 512

section
variable (label : List Bool) {n : Nat} (hl : label.length ≤ n)
include hl

theorem labelBits_length_max (hn : n ≤ 1023) :
    (labelBits label n).length ≤ max (2 * n + 2) (n + 12) := by
  have hk : len_bits n ≤ 10 := len_bits_le_of_le hn
  unfold labelBits
  dsimp only
  split
  · simp only [length_append, length_cons, length_nil, toBits_length]
    omega
  · split
    · simp only [length_append, length_cons, length_nil, toBits_length]
      omega
    · simp only [length_append, length_cons, length_nil, length_replicate]
      omega

theorem labelBits_length_le (hn : n ≤ max_small_key) :
    (labelBits label n).length ≤ 2 * max_small_key + 2 := by
  simp only [max_small_key] at hn ⊢
  have hmax := labelBits_length_max label hl (by omega)
  omega

theorem append_dict_label_fits (hn : n ≤ max_small_key) :
    append_dict_label {} label n = .ok ⟨labelBits label n, []⟩ := by
  have hlen := labelBits_length_le label hl hn
  simp only [max_small_key] at hn hlen
  rw [append_dict_label_of_fits hl (by omega) (by simp only [max_bits, length_nil]; omega)]
  rfl

end

/-! ## Cells without pruned parts -/

/-- A cell of level zero and of limited depth. -/
def Flat (d : Nat) (c : DataCell) : Prop := c.get_level_mask = ⟨0⟩ ∧ c.get_depth 0 ≤ d

section Flat
variable {data : List Bool} {refs : List DataCell} {d : Nat}

theorem flat_mask (h : ∀ r ∈ refs, Flat d r) :
    refs.foldl (fun m r => m.apply_or r.get_level_mask) (⟨0⟩ : LevelMask) = ⟨0⟩ := by
  induction refs with
  | nil => rfl
  | cons r refs ih =>
    rw [foldl_cons, (h r (by simp)).1]
    exact ih fun r hr => h r (by simp [hr])

theorem flat_maxDepth (h : ∀ r ∈ refs, Flat d r) : DataCell.maxDepth refs 0 ≤ d := by
  have fold : ∀ d₀ ≤ d, refs.foldl (fun d r => max d (r.get_depth 0)) d₀ ≤ d := by
    induction refs with
    | nil => exact fun _ h₀ => h₀
    | cons r refs ih =>
      intro d₀ h₀
      exact ih (fun r hr => h r (by simp [hr])) _ (max_le h₀ (h r (by simp)).2)
  exact fold 0 (Nat.zero_le d)

theorem flat_hashLoop (data : List Bool) (h : ∀ r ∈ refs, Flat d r) (hd : d < max_depth) : ∃ hash,
    DataCell.hashLoop false .Ordinary data refs ⟨0⟩ (DataCell.hashLevels .Ordinary ⟨0⟩) [] [] =
      .ok ([hash], [if refs.length ≠ 0 then DataCell.maxDepth refs 0 + 1 else DataCell.maxDepth refs 0]) := by
  have hlevels : DataCell.hashLevels .Ordinary ⟨0⟩ = [0] := by decide
  have hlt := flat_maxDepth h
  refine ⟨Sha256.sha256 (DataCell.hashInput false data.length refs ⟨0⟩ (DataCell.dataBytes data) 0 0), ?_⟩
  rw [hlevels]
  unfold DataCell.hashLoop
  rw [show DataCell.childLevel .Ordinary 0 = 0 from rfl]
  dsimp only
  rw [if_neg (by omega)]
  rfl

theorem get_depth_flat (hash : Hash) (depth : Nat) : (DataCell.mk false data refs ⟨0⟩ [hash] [depth]).get_depth 0 = depth := by
  have h0 : ((⟨0⟩ : LevelMask).apply 0).get_hash_i = 0 := by decide
  simp only [DataCell.get_depth, DataCell.special_type, DataCell.is_special, DataCell.get_level_mask, DataCell.depths, h0]
  rfl

theorem create_flat (h : ∀ r ∈ refs, Flat d r) (hd : d < max_depth) (hbits : data.length ≤ max_bits)
    (hrefs : refs.length ≤ max_refs) : ∃ c, DataCell.create data refs false = .ok c ∧
      Flat (if refs.length ≠ 0 then d + 1 else 0) c := by
  obtain ⟨hash, hloop⟩ := flat_hashLoop data h hd
  refine ⟨.mk false data refs ⟨0⟩ [hash] [if refs.length ≠ 0 then DataCell.maxDepth refs 0 + 1 else DataCell.maxDepth refs 0], ?_, rfl, ?_⟩
  · simp only [DataCell.create, DataCell.new_type_ordinary, ok_bind, DataCell.check_type, flat_mask h]
    rw [if_neg (by omega), if_neg (by omega), hloop]
    rfl
  · rw [get_depth_flat]
    have := flat_maxDepth h
    split
    · omega
    · next h0 =>
      rw [not_not, length_eq_zero_iff] at h0
      rw [h0]
      rfl

theorem Flat.of_create {c : DataCell} (h : ∀ r ∈ refs, Flat d r) (hd : d < max_depth) (hc : DataCell.create data refs false = .ok c) :
    Flat (if refs.length ≠ 0 then d + 1 else 0) c := by
  obtain ⟨-, -, -, -, -, -, hbits, hrefs, -, -⟩ := DataCell.create_ok hc
  obtain ⟨c', hc', hf⟩ := create_flat h hd hbits hrefs
  rw [hc] at hc'
  cases hc'
  exact hf

end Flat

theorem finalize_flat (cb : CellBuilder) {d : Nat} (h : ∀ r ∈ cb.refs, Flat d r) (hd : d < max_depth)
    (hbits : cb.bits.length ≤ max_bits) (hrefs : cb.refs.length ≤ max_refs) : ∃ c, cb.finalize false = .ok c := by
  obtain ⟨c, hc, -⟩ := create_flat h hd hbits hrefs
  exact ⟨c, by rw [finalize, hc]⟩

/-! ## Reading a dictionary of small values -/

/-- A way to write edges: the code's own is one, and the parser takes it. -/
structure EdgeForm (N : List Bool → Nat → CellSlice → DataCell → Prop) : Prop where
  of_node : ∀ {label n payload c}, Node label n payload c → N label n payload c
  length_le : ∀ {label n payload c}, N label n payload c → label.length ≤ n
  created : ∀ {label n payload c}, N label n payload c → ∃ data, DataCell.create data payload.refs false = .ok c
  parse : ∀ {label n payload c}, N label n payload c → (label.length < n → Check.chk_all.Passes payload) →
    ∃ p, LabelParser.parse c n .chk_all = .ok p ∧ p.Reads label payload

theorem node_edgeForm : EdgeForm Node where
  of_node := id
  length_le := Node.length_le
  created h := ⟨_, finalize_create h.cell⟩
  parse := Node.parse_ok

section Held
variable {α : Type} (N : List Bool → Nat → CellSlice → DataCell → Prop) (enc : α → CellSlice)

/-- The cell is a dictionary with keys of `n` bits that holds the map. -/
inductive Held : Nat → BitMap α → DataCell → Prop
  | leaf {label : List Bool} {v : α} {c : DataCell} :
      N label label.length (enc v) c → Held label.length (under label (one v)) c
  | fork {label : List Bool} {m : Nat} {f g : BitMap α} {c1 c2 c : DataCell} :
      Held m f c1 → Held m g c2 → N label (label.length + (m + 1)) ⟨[], [c1, c2]⟩ c →
        Held (label.length + (m + 1)) (under label (split f g)) c

/-- The map under an edge. -/
inductive Load : Nat → BitMap α → CellSlice → Prop
  | leaf (v : α) : Load 0 (one v) (enc v)
  | fork {m : Nat} {f g : BitMap α} {c1 c2 : DataCell} : Held N enc m f c1 → Held N enc m g c2 →
      Load (m + 1) (split f g) ⟨[], [c1, c2]⟩

/-- The same, and the null cell is the empty map. -/
def HeldRoot (n : Nat) (f : BitMap α) : Option DataCell → Prop
  | none => f = empty
  | some c => Held N enc n f c

/-- A dictionary whose keys have some bits more at the start, which are left out of the map. -/
def Below (s : List Bool) (n : Nat) (f : BitMap α) (c : DataCell) : Prop :=
  ∃ label m g p, n = label.length + m ∧ f = under label g ∧ Load N enc m g p ∧ N (s ++ label) (n + s.length) p c

/-- Values that fit after a label. -/
def Small : Prop := ∀ v, (enc v).refs = [] ∧ (enc v).bits.length ≤ max_small_value

variable {N enc} {n m : Nat} {f g : BitMap α} {c : DataCell} {p : CellSlice}

theorem Held.exists_below (h : Held N enc n f c) : Below N enc [] n f c := by
  cases h with
  | leaf hn => exact ⟨_, 0, _, _, rfl, rfl, .leaf _, hn⟩
  | fork h1 h2 hn => exact ⟨_, _, _, _, rfl, rfl, .fork h1 h2, hn⟩

theorem Load.held {label : List Bool} (h : Load N enc m g p) (hn : n = label.length + m) (hc : N label n p c) :
    Held N enc n (under label g) c := by
  subst hn
  cases h with
  | leaf v => exact .leaf hc
  | fork h1 h2 => exact .fork h1 h2 hc

theorem Load.below {s l r : List Bool} {sw : Bool} (h : Load N enc m g p) (hn : n = l.length + 1 + r.length + m)
    (hc : N (s ++ (l ++ sw :: r)) (n + s.length) p c) : Below N enc (s ++ l ++ [sw]) (n - l.length - 1) (under r g) c := by
  refine ⟨r, m, g, p, by omega, rfl, h, ?_⟩
  rw [append_assoc, append_assoc, append_assoc, singleton_append, length_append, length_append,
    length_singleton, show n - l.length - 1 + (s.length + (l.length + 1)) = n + s.length by omega]
  exact hc

theorem Held.hasKey (h : Held N enc n f c) : HasKey f := by
  induction h with
  | leaf _ => exact (hasKey_one _).under _
  | fork _ _ _ ih _ => exact (ih.split_left _).under _

theorem Load.hasKey (h : Load N enc m g p) : HasKey g := by
  cases h with
  | leaf v => exact hasKey_one v
  | fork h1 _ => exact h1.hasKey.split_left _

theorem Load.passes (h : Load N enc m g p) (hm : 0 < m) : Check.chk_all.Passes p := by
  cases h with
  | leaf v => cases hm
  | fork _ _ => exact ⟨rfl, rfl⟩

/-- With the code's own labels, the cell stands for the map of encoded values. -/
theorem Held.root {c : DataCell} (h : Held Node enc n f c) : Root .plain n (fun k => (f k).map enc) (some c) := by
  have under_map : ∀ (p : List Bool) (f : BitMap α), (fun k => (under p f k).map enc) = under p fun k => (f k).map enc := by
    intro p f
    funext k
    unfold under
    split <;> rfl
  induction h with
  | @leaf label v c hn =>
    have hone : (fun k => (one v k).map enc) = single (enc v) := by
      funext k
      by_cases hk : k = [] <;> simp [one, single, Function.update, hk, empty]
    rw [under_map, hone]
    exact .mk (.leaf ⟨rfl, rfl⟩) rfl hn
  | @fork label m f g c1 c2 c _ _ hn ih1 ih2 =>
    have hsplit : (fun k => (split f g k).map enc) = split (fun k => (f k).map enc) fun k => (g k).map enc := by
      funext k
      rcases k with _ | ⟨_ | _, k⟩ <;> rfl
    rw [under_map, hsplit]
    exact .mk (.fork ih1 ih2 rfl) rfl hn

theorem HeldRoot.root {c : Option DataCell} (h : HeldRoot Node enc n f c) : Root .plain n (fun k => (f k).map enc) c := by
  cases c with
  | none =>
    obtain rfl : f = empty := h
    rfl
  | some c => exact Held.root h

variable (hN : EdgeForm N)
include hN

theorem Held.map_unique (hinj : Function.Injective enc) (h : Held N enc n f c) : ∀ {g : BitMap α}, Held N enc n g c → f = g := by
  have reads_unique : ∀ {label label' : List Bool} {p p' : CellSlice} {n : Nat} {c : DataCell}, N label n p c → N label' n p' c →
      (label.length < n → Check.chk_all.Passes p) → (label'.length < n → Check.chk_all.Passes p') → label = label' ∧ p = p' := by
    intro label label' p p' n c hc hc' hv hv'
    obtain ⟨lp, hlp, hr⟩ := hN.parse hc hv
    obtain ⟨lp', hlp', hr'⟩ := hN.parse hc' hv'
    rw [hlp] at hlp'
    cases hlp'
    exact ⟨hr.extract_label.1.symm.trans hr'.extract_label.1, hr.extract_label.2.symm.trans hr'.extract_label.2⟩
  induction h with
  | @leaf label v c hc =>
    intro g h'
    generalize hk : label.length = k at *
    cases h' with
    | leaf hc' =>
      obtain ⟨rfl, hv⟩ := reads_unique hc hc' (by omega) (by omega)
      rw [hinj hv]
    | @fork label' m f' g' c1 c2 _ _ _ hc' =>
      obtain ⟨rfl, -⟩ := reads_unique hc hc' (by omega) fun _ => ⟨rfl, rfl⟩
      omega
  | @fork label m f g c1 c2 c _ _ hc ih1 ih2 =>
    intro g' h'
    generalize hk : label.length + (m + 1) = k at *
    cases h' with
    | leaf hc' =>
      obtain ⟨rfl, -⟩ := reads_unique hc hc' (fun _ => ⟨rfl, rfl⟩) (by omega)
      omega
    | fork h1 h2 hc' =>
      obtain ⟨rfl, hp⟩ := reads_unique hc hc' (fun _ => ⟨rfl, rfl⟩) fun _ => ⟨rfl, rfl⟩
      obtain rfl := Nat.succ.inj (Nat.add_left_cancel hk)
      cases hp
      rw [ih1 h1, ih2 h2]

theorem HeldRoot.map_unique (hinj : Function.Injective enc) {c : Option DataCell} (h : HeldRoot N enc n f c)
    (h' : HeldRoot N enc n g c) : f = g := by
  cases c with
  | none => exact Eq.trans h (Eq.symm h')
  | some c => exact Held.map_unique hN hinj h h'

variable (henc : Small enc)
include henc

theorem Held.flat (h : Held N enc n f c) (hn : n ≤ max_small_key) : Flat n c := by
  induction h with
  | @leaf label v c hc =>
    obtain ⟨data, hc⟩ := hN.created hc
    have hr := (henc v).1
    have := Flat.of_create (d := 0) (by rw [hr]; simp) (by decide) hc
    rw [hr] at this
    exact ⟨this.1, this.2.trans (Nat.zero_le _)⟩
  | @fork label m f g c1 c2 c _ _ hc ih1 ih2 =>
    obtain ⟨data, hc⟩ := hN.created hc
    simp only [max_small_key] at hn ih1 ih2
    have hf : ∀ r ∈ [c1, c2], Flat m r := by
      intro r hr
      rcases mem_pair.1 hr with rfl | rfl
      · exact ih1 (by omega)
      · exact ih2 (by omega)
    have := Flat.of_create hf (by simp only [max_depth]; omega) hc
    exact ⟨this.1, this.2.trans (by simp)⟩

theorem Load.flat (h : Load N enc m g p) (hm : m ≤ max_small_key) :
    p.bits.length ≤ max_small_value ∧ p.refs.length ≤ 2 ∧ ∀ r ∈ p.refs, Flat m r := by
  cases h with
  | leaf v =>
    obtain ⟨hr, hb⟩ := henc v
    rw [hr]
    exact ⟨hb, by simp, by simp⟩
  | @fork m f g c1 c2 h1 h2 =>
    refine ⟨Nat.zero_le _, le_rfl, fun r hr => ?_⟩
    have hm' : m ≤ max_small_key := (Nat.le_succ m).trans hm
    rcases mem_pair.1 hr with rfl | rfl
    · exact ⟨(h1.flat hN henc hm').1, (h1.flat hN henc hm').2.trans (Nat.le_succ m)⟩
    · exact ⟨(h2.flat hN henc hm').1, (h2.flat hN henc hm').2.trans (Nat.le_succ m)⟩

/-! ## Building nodes -/

theorem finalize_load (label : List Bool) (h : Load N enc m g p) (hn : n = label.length + m) (hmax : n ≤ max_small_key) :
    ∃ c, finalize ⟨labelBits label n ++ p.bits, p.refs⟩ false = .ok c ∧ Held N enc n (under label g) c := by
  have hm : m ≤ max_small_key := by omega
  obtain ⟨hb, hr, hf⟩ := h.flat hN henc hm
  have hl := labelBits_length_le label (by omega) hmax
  obtain ⟨c, hc⟩ := finalize_flat ⟨labelBits label n ++ p.bits, p.refs⟩ hf
    (by simp only [max_depth, max_small_key] at hm ⊢; omega)
    (by simp only [max_bits, max_small_key, max_small_value, length_append] at hb hl ⊢; omega)
    (by simp only [max_refs]; omega)
  refine ⟨c, hc, h.held hn (hN.of_node ⟨by omega, ?_, hc⟩)⟩
  simp only [max_small_key] at hmax
  omega

theorem relabel_edge_fits (label : List Bool) {e : String} (h : Load N enc m g p) (hn : n = label.length + m)
    (hmax : n ≤ max_small_key) : ∃ c, relabel_edge label n p e = .ok c ∧ Held N enc n (under label g) c := by
  obtain ⟨c, hc, hh⟩ := finalize_load hN henc label h hn hmax
  obtain ⟨hb, hr, -⟩ := h.flat hN henc (by omega)
  have hl := labelBits_length_le label (by omega) hmax
  refine ⟨c, ?_, hh⟩
  rw [relabel_edge, append_dict_label_fits _ (by omega) hmax, ok_bind,
    append_cellslice_fits (by simp only [max_bits, max_small_key, max_small_value] at *; omega) (by simp [max_refs]; omega)]
  exact hc

theorem fork_fits (label : List Bool) {c1 c2 : DataCell} (h1 : Held N enc m f c1) (h2 : Held N enc m g c2)
    (hn : n = label.length + (m + 1)) (hmax : n ≤ max_small_key) (k : Nat) :
    ∃ c, Virtual.fixed.finish_create_fork ⟨labelBits label n, []⟩ c1 c2 k = .ok c ∧
      Held N enc n (under label (split f g)) c := by
  obtain ⟨c, hc, hh⟩ := finalize_load hN henc label (.fork h1 h2) hn hmax
  rw [append_nil] at hc
  exact ⟨c, hc, hh⟩

/-- The child of a fork whose other child is gone, under the merged edge. -/
theorem merge_fits {bits : List Bool} {b : Bool} {c1 : DataCell} (h1 : Held N enc m f c1)
    (hn : n = bits.length + (m + 1)) (hmax : n ≤ max_small_key) :
    ∃ lp, LabelParser.parse c1 m .chk_all = .ok lp ∧
      ∃ c, relabel_edge (bits ++ [b] ++ lp.extract_label.1) n lp.extract_label.2.remainder
          "cannot change label of an old dictionary cell while merging edges" = .ok c ∧ Held N enc n (under bits (under [b] f)) c := by
  obtain ⟨label, m', g, p, hm, rfl, hload, hedge⟩ := h1.exists_below
  obtain ⟨lp, hlp, hr⟩ := hN.parse hedge fun hlt => hload.passes (by simp at hlt; omega)
  obtain ⟨hbits, hrem⟩ := hr.extract_label
  refine ⟨lp, hlp, ?_⟩
  rw [hbits, hrem, under_under, under_under, nil_append]
  exact relabel_edge_fits hN henc _ hload (by simp only [length_append, length_singleton]; omega) hmax

theorem join_children_fits {bits : List Bool} {c1 c2 : Option DataCell} (h1 : HeldRoot N enc m f c1)
    (h2 : HeldRoot N enc m g c2) (hn : n = bits.length + (m + 1)) (hmax : n ≤ max_small_key) :
    ∃ c, join_children .fixed bits n c1 c2 = .ok c ∧ HeldRoot N enc n (under bits (split f g)) c := by
  have hm : n - bits.length - 1 = m := by omega
  unfold join_children
  simp only [hm]
  cases c1 with
  | none =>
    obtain rfl : f = empty := h1
    cases c2 with
    | none =>
      obtain rfl : g = empty := h2
      refine ⟨none, rfl, ?_⟩
      rw [split_empty, under_empty]
      rfl
    | some c2 =>
      obtain ⟨lp, hlp, c, hc, hh⟩ := merge_fits (b := true) hN henc h2 hn hmax
      rw [split_empty_left]
      refine ⟨some c, ?_, hh⟩
      simp only [show Virtual.fixed.label_mode = .chk_all from rfl, hlp, ok_bind, hc]
      rfl
  | some c1 =>
    cases c2 with
    | none =>
      obtain rfl : g = empty := h2
      obtain ⟨lp, hlp, c, hc, hh⟩ := merge_fits (b := false) hN henc h1 hn hmax
      rw [split_empty_right]
      refine ⟨some c, ?_, hh⟩
      simp only [show Virtual.fixed.label_mode = .chk_all from rfl, hlp, ok_bind, hc]
      rfl
    | some c2 =>
      obtain ⟨c, hc, hh⟩ := fork_fits hN henc _ h1 h2 hn hmax (n - bits.length)
      refine ⟨some c, ?_, hh⟩
      simp only [append_dict_label_fits bits (by omega) hmax, ok_bind, hc]
      rfl

end Held

/-! ## Combining -/

/-- The callback does to encoded values what `op` does to values. -/
def CombineFunc.Computes {α : Type} (enc : α → CellSlice) (op : BitMap.Op α) (combine_func : CombineFunc) : Prop :=
  ∀ cb x y key, cb.refs = [] → cb.bits.length + max_small_value ≤ max_bits → combine_func cb (enc x) (enc y) key =
    match op x y with
    | none => .error .combine
    | some none => .ok none
    | some (some z) => .ok (some ⟨cb.bits ++ (enc z).bits, []⟩)

section Combine
variable {α : Type} {N : List Bool → Nat → CellSlice → DataCell → Prop} {enc : α → CellSlice} {op : BitMap.Op α}
  {combine_func : CombineFunc}

/-- What stops the descent. -/
def Bad (op : BitMap.Op α) (mode : Nat) (f g : BitMap α) : Prop := Conflict op f g ∨ mode = 1 ∧ ¬Covers f g

variable (N enc) in
/-- The result is a `CombineError` when `bad`, and else a cell for the map. -/
def Yields (bad : Prop) (n : Nat) (f : BitMap α) (r : Except Exc (Option DataCell)) : Prop :=
  (bad ∧ r = .error .combine) ∨ (¬bad ∧ ∃ c, r = .ok c ∧ HeldRoot N enc n f c)

theorem Yields.congr {bad bad' : Prop} {n : Nat} {f f' : BitMap α} {r : Except Exc (Option DataCell)} (h : Yields N enc bad n f r)
    (hbad : bad ↔ bad') (hf : f = f') : Yields N enc bad' n f' r := by
  subst hf
  rwa [propext hbad] at h

variable (hN : EdgeForm N) (henc : Small enc)
include hN henc

theorem parted_yields {p r1 r2 : List Bool} {b : Bool} {n m1 m2 mode k : Nat} {g1 g2 : BitMap α} {p1 p2 : CellSlice}
    {error1 error2 : String} (h1 : Load N enc m1 g1 p1) (h2 : Load N enc m2 g2 p2)
    (hn1 : n = p.length + 1 + r1.length + m1) (hn2 : n = p.length + 1 + r2.length + m2) (hmax : n ≤ max_small_key)
    (hmode : mode = 0 ∨ mode = 1) :
    Yields N enc (Bad op mode (under (p ++ (!b) :: r1) g1) (under (p ++ b :: r2) g2)) n
      (merge op (under (p ++ (!b) :: r1) g1) (under (p ++ b :: r2) g2))
      (if mode % 4 ≠ 0 then .error .combine
       else do
        let d1 ← relabel_edge r1 (n - p.length - 1) p1 error1
        let d2 ← relabel_edge r2 (n - p.length - 1) p2 error2
        let cb ← append_dict_label {} p n
        if b then some <$> Virtual.fixed.finish_create_fork cb d1 d2 k
        else some <$> Virtual.fixed.finish_create_fork cb d2 d1 k) := by
  have hconf : ¬Conflict op (under (p ++ (!b) :: r1) g1) (under (p ++ b :: r2) g2) := by
    rw [← under_under, ← under_under, conflict_under, under_cons, under_cons]
    cases b
    · simp only [Bool.not_false, if_true, Bool.false_eq_true, if_false, conflict_split, not_conflict_empty_left,
        not_conflict_empty_right, or_self, not_false_eq_true]
    · simp only [Bool.not_true, if_true, Bool.false_eq_true, if_false, conflict_split, not_conflict_empty_left,
        not_conflict_empty_right, or_self, not_false_eq_true]
  have hcov : ¬Covers (under (p ++ (!b) :: r1) g1) (under (p ++ b :: r2) g2) := not_covers_parted p r1 r2 b h2.hasKey
  rcases hmode with rfl | rfl
  · refine .inr ⟨?_, ?_⟩
    · rintro (h | ⟨h, -⟩)
      · exact hconf h
      · cases h
    · obtain ⟨d1, hd1, hh1⟩ := relabel_edge_fits hN henc r1 (n := n - p.length - 1) (e := error1) h1 (by omega) (by omega)
      obtain ⟨d2, hd2, hh2⟩ := relabel_edge_fits hN henc r2 (n := n - p.length - 1) (e := error2) h2 (by omega) (by omega)
      rw [if_neg (by simp), hd1, ok_bind, hd2, ok_bind, append_dict_label_fits _ (by omega) hmax, ok_bind, ← under_under,
        ← under_under, merge_under, under_cons, under_cons]
      cases b with
      | false =>
        obtain ⟨c, hc, hh⟩ := fork_fits hN henc p hh2 hh1 (by omega) hmax k
        refine ⟨some c, ?_, show Held N enc n _ c from ?_⟩
        · simp only [Bool.false_eq_true, if_false, hc]
          rfl
        · simpa only [Bool.not_false, if_true, Bool.false_eq_true, if_false, merge_split, merge_empty_left, merge_empty_right] using hh
      | true =>
        obtain ⟨c, hc, hh⟩ := fork_fits hN henc p hh1 hh2 (by omega) hmax k
        refine ⟨some c, ?_, show Held N enc n _ c from ?_⟩
        · simp only [if_true, hc]
          rfl
        · simpa only [Bool.not_true, if_true, Bool.false_eq_true, if_false, merge_split, merge_empty_left, merge_empty_right] using hh
  · exact .inl ⟨.inr ⟨rfl, hcov⟩, if_pos (by decide)⟩

theorem leaves_yield (hcomb : combine_func.Computes enc op) {bits key : List Bool} {n mode : Nat} {x y : α} (hn : n = bits.length)
    (hmax : n ≤ max_small_key) :
    Yields N enc (Bad op mode (under bits (one x)) (under bits (one y))) n (merge op (under bits (one x)) (under bits (one y)))
      (do
        let cb ← append_dict_label {} bits n
        match ← combine_func cb (enc x) (enc y) key with
        | none => .ok none
        | some cb => some <$> cb.finalize false) := by
  have hbad : Bad op mode (under bits (one x)) (under bits (one y)) ↔ op x y = none := by
    rw [Bad, conflict_under, conflict_one, covers_under]
    simp [covers_one]
  have hl := labelBits_length_le bits (by omega) hmax
  rw [append_dict_label_fits _ (by omega) hmax, ok_bind,
    hcomb ⟨labelBits bits n, []⟩ x y key rfl (by simp only [max_bits, max_small_key, max_small_value] at hl ⊢; omega),
    merge_under, merge_one]
  refine (show Yields N enc (op x y = none) n _ _ from ?_).congr hbad.symm rfl
  rcases op x y with _ | _ | z
  · exact .inl ⟨rfl, rfl⟩
  · refine .inr ⟨nofun, none, rfl, ?_⟩
    simp only [under_empty]
    rfl
  · obtain ⟨c, hc, hh⟩ := finalize_load (m := 0) hN henc bits (.leaf z) (by omega) hmax
    rw [(henc z).1] at hc
    refine .inr ⟨nofun, some c, ?_, hh⟩
    simp only [ok_bind, hc]
    rfl

variable {f g f' g' : BitMap α} {bits : List Bool} {n m mode : Nat}

/-- Two forks under one edge: what is below is combined without `mode`. -/
theorem forks_yield {r1 r2 : Except Exc (Option DataCell)} (hf : HasKey f) (hg : HasKey g) (hf' : HasKey f') (hg' : HasKey g')
    (h1 : Yields N enc (Bad op 0 f f') m (merge op f f') r1) (h2 : Yields N enc (Bad op 0 g g') m (merge op g g') r2)
    (hn : n = bits.length + (m + 1)) (hmax : n ≤ max_small_key) :
    Yields N enc (Bad op mode (under bits (split f g)) (under bits (split f' g'))) n
      (merge op (under bits (split f g)) (under bits (split f' g')))
      (do
        let c1 ← r1
        let c2 ← r2
        join_children .fixed bits n c1 c2) := by
  have hbad : Bad op mode (under bits (split f g)) (under bits (split f' g')) ↔ Bad op 0 f f' ∨ Bad op 0 g g' := by
    simp [Bad, conflict_under, conflict_split, covers_under, covers_split hf hg hf' hg']
  refine Yields.congr (f := under bits (split (merge op f f') (merge op g g'))) ?_ hbad.symm (by rw [merge_under, merge_split])
  rcases h1 with ⟨hb, rfl⟩ | ⟨hb1, c1, rfl, hh1⟩
  · exact .inl ⟨.inl hb, rfl⟩
  rcases h2 with ⟨hb, rfl⟩ | ⟨hb2, c2, rfl, hh2⟩
  · exact .inl ⟨.inr hb, rfl⟩
  obtain ⟨c, hc, hh⟩ := join_children_fits hN henc hh1 hh2 hn hmax
  exact .inr ⟨fun h => h.elim hb1 hb2, c, hc, hh⟩

variable {sw : Bool} {r : List Bool}

/-- One dictionary goes under a child of the other, which keeps its other child. -/
theorem child_yields {bad : Prop} {h : BitMap α} {c1 c2 : DataCell} {r : Except Exc (Option DataCell)}
    (h1 : Held N enc m f c1) (h2 : Held N enc m g c2) (hr : Yields N enc bad m h r) (hn : n = bits.length + (m + 1))
    (hmax : n ≤ max_small_key) :
    Yields N enc bad n (under bits (if sw then split f h else split h g))
      (do
        let child ← r
        if ((⟨[], [c1, c2]⟩ : CellSlice).prefetch_ref (!sw).toNat).isNone then .error .check
        else if sw then join_children .fixed bits n ((⟨[], [c1, c2]⟩ : CellSlice).prefetch_ref 0) child
        else join_children .fixed bits n child ((⟨[], [c1, c2]⟩ : CellSlice).prefetch_ref 1)) := by
  rcases hr with ⟨hb, rfl⟩ | ⟨hb, child, rfl, hh⟩
  · exact .inl ⟨hb, rfl⟩
  refine .inr ⟨hb, ?_⟩
  cases sw with
  | false => exact join_children_fits hN henc hh (show HeldRoot N enc m g (some c2) from h2) hn hmax
  | true => exact join_children_fits hN henc (show HeldRoot N enc m f (some c1) from h1) hh hn hmax

omit hN henc in
theorem bad_first :
    Bad op mode (under bits (split f g)) (under (bits ++ sw :: r) f') ↔ Bad op mode (if sw then g else f) (under r f') := by
  rw [Bad, Bad, covers_below, ← under_under, conflict_under, under_cons]
  cases sw
  · simp only [Bool.false_eq_true, if_false, conflict_split, not_conflict_empty_right, or_false]
  · simp only [if_true, conflict_split, not_conflict_empty_right, false_or]

omit hN henc in
theorem merge_first : merge op (under bits (split f g)) (under (bits ++ sw :: r) f') =
    under bits (if sw then split f (merge op g (under r f')) else split (merge op f (under r f')) g) := by
  rw [← under_under, merge_under, under_cons]
  cases sw
  · simp only [Bool.false_eq_true, if_false, merge_split, merge_empty_right]
  · simp only [if_true, merge_split, merge_empty_right]

omit hN henc in
theorem bad_second (hf' : HasKey f') (hg' : HasKey g') :
    Bad op mode (under (bits ++ sw :: r) f) (under bits (split f' g')) ↔
      mode = 1 ∨ Bad op 0 (under r f) (if sw then g' else f') := by
  have hcov := not_covers_below (f := f) bits r sw hf' hg'
  rw [Bad, Bad, ← under_under, conflict_under, under_cons]
  rw [← under_under, under_cons] at hcov
  cases sw
  · simp only [Bool.false_eq_true, if_false] at hcov
    simp [conflict_split, not_conflict_empty_left, hcov, or_comm]
  · simp only [if_true] at hcov
    simp [conflict_split, not_conflict_empty_left, hcov, or_comm]

omit hN henc in
theorem merge_second : merge op (under (bits ++ sw :: r) f) (under bits (split f' g')) =
    under bits (if sw then split f' (merge op (under r f) g') else split (merge op (under r f) f') g') := by
  rw [← under_under, merge_under, under_cons]
  cases sw
  · simp only [Bool.false_eq_true, if_false, merge_split, merge_empty_left]
  · simp only [if_true, merge_split, merge_empty_left]

theorem dict_combine_with_merge (hcomb : combine_func.Computes enc op) (n : Nat) (pre : List Bool) {f1 f2 : BitMap α}
    {d1 d2 : DataCell} {s1 s2 : List Bool} {mode : Nat} (hmode : mode = 0 ∨ mode = 1) (hmax : n ≤ max_small_key)
    (h1 : Below N enc s1 n f1 d1) (h2 : Below N enc s2 n f2 d2) (hs1 : before pre s1.length = s1) (hs2 : before pre s2.length = s2) :
    Yields N enc (Bad op mode f1 f2) n (merge op f1 f2)
      (dict_combine_with .fixed combine_func (some d1) (some d2) pre n mode s1.length s2.length) := by
  induction n using Nat.strong_induction_on generalizing f1 f2 d1 d2 pre s1 s2 mode with
  | _ n ih =>
  obtain ⟨label1, m1, g1, p1, hn1, rfl, hp1, hedge1⟩ := h1
  obtain ⟨label2, m2, g2, p2, hn2, rfl, hp2, hedge2⟩ := h2
  have hread1 : Edge Virtual.fixed.label_mode s1 label1 n p1 d1 :=
    hN.parse hedge1 fun hlt => hp1.passes (by rw [length_append] at hlt; omega)
  have hread2 : Edge Virtual.fixed.label_mode s2 label2 n p2 d2 :=
    hN.parse hedge2 fun hlt => hp2.passes (by rw [length_append] at hlt; omega)
  obtain ⟨r, hr, hstep⟩ := dict_combine_with_step combine_func mode hread1 hread2 hs1 hs2 (by omega) (by omega)
  rw [hr]
  cases hstep with
  | parted p r1 r2 x =>
    simp only [length_append, length_cons] at hn1 hn2
    exact parted_yields hN henc hp1 hp2 (by omega) (by omega) hmax hmode
  | leaves _ h =>
    obtain rfl : m1 = 0 := by omega
    obtain rfl : m2 = 0 := by omega
    cases hp1 with
    | leaf x =>
      cases hp2 with
      | leaf y => exact leaves_yield hN henc hcomb h.symm hmax
  | forks _ h =>
    cases hp1 with
    | leaf x => omega
    | @fork m f g a1 a2 ha1 ha2 =>
      cases hp2 with
      | leaf y => omega
      | @fork m' f' g' b1 b2 hb1 hb2 =>
        obtain rfl : m = n - label1.length - 1 := by omega
        obtain rfl : m' = n - label1.length - 1 := by omega
        exact forks_yield hN henc ha1.hasKey ha2.hasKey hb1.hasKey hb2.hasKey
          (ih _ (by omega) _ (.inl rfl) (by omega) ha1.exists_below hb1.exists_below (before_nil _) (before_nil _))
          (ih _ (by omega) _ (.inl rfl) (by omega) ha2.exists_below hb2.exists_below (before_nil _) (before_nil _)) hn1 hmax
  | first _ r sw h =>
    simp only [length_append, length_cons] at hn2
    cases hp1 with
    | leaf x => omega
    | @fork m f g a1 a2 ha1 ha2 =>
      obtain rfl : m = n - label1.length - 1 := by omega
      have hrec : Yields N enc (Bad op mode (if sw then g else f) (under r g2)) (n - label1.length - 1)
          (merge op (if sw then g else f) (under r g2))
          (dict_combine_with .fixed combine_func ((⟨[], [a1, a2]⟩ : CellSlice).prefetch_ref sw.toNat) (some d2)
            (pre ++ label1 ++ [sw]) (n - label1.length - 1) mode 0 (s2 ++ label1 ++ [sw]).length) := by
        have hbelow : Below N enc (s2 ++ label1 ++ [sw]) (n - label1.length - 1) (under r g2) d2 := hp2.below (by omega) hedge2
        have hpre := before_step (l := label1 ++ [sw]) hs2
        rw [← append_assoc, ← append_assoc] at hpre
        cases sw with
        | false => exact ih _ (by omega) _ hmode (by omega) ha1.exists_below hbelow (before_nil _) hpre
        | true => exact ih _ (by omega) _ hmode (by omega) ha2.exists_below hbelow (before_nil _) hpre
      rw [if_neg (by omega)]
      refine Yields.congr (child_yields hN henc ha1 ha2 hrec hn1 hmax) bad_first.symm ?_
      rw [merge_first]
      cases sw <;> rfl
  | second _ r sw h =>
    simp only [length_append, length_cons] at hn1
    cases hp2 with
    | leaf x => omega
    | @fork m f g b1 b2 hb1 hb2 =>
      obtain rfl : m = n - label2.length - 1 := by omega
      rcases hmode with rfl | rfl
      · have hrec : Yields N enc (Bad op 0 (under r g1) (if sw then g else f)) (n - label2.length - 1)
            (merge op (under r g1) (if sw then g else f))
            (dict_combine_with .fixed combine_func (some d1) ((⟨[], [b1, b2]⟩ : CellSlice).prefetch_ref sw.toNat)
              (pre ++ label2 ++ [sw]) (n - label2.length - 1) 0 (s1 ++ label2 ++ [sw]).length 0) := by
          have hbelow : Below N enc (s1 ++ label2 ++ [sw]) (n - label2.length - 1) (under r g1) d1 := hp1.below (by omega) hedge1
          have hpre := before_step (l := label2 ++ [sw]) hs1
          rw [← append_assoc, ← append_assoc] at hpre
          cases sw with
          | false => exact ih _ (by omega) _ (.inl rfl) (by omega) hbelow hb1.exists_below hpre (before_nil _)
          | true => exact ih _ (by omega) _ (.inl rfl) (by omega) hbelow hb2.exists_below hpre (before_nil _)
        rw [if_neg (by omega)]
        refine Yields.congr (child_yields hN henc hb1 hb2 hrec hn2 hmax) ?_ ?_
        · simp [bad_second hb1.hasKey hb2.hasKey]
        · rw [merge_second]
          cases sw <;> rfl
      · rw [if_pos rfl]
        exact .inl ⟨(bad_second hb1.hasKey hb2.hasKey).2 (.inl rfl), rfl⟩

end Combine

end Ton.Dict
