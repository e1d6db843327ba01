import Ton.Dict.LabelCodec
import Ton.Dict.Refine
/-!
# What fits into a cell

A map of keys of at most `n` bits may have no dictionary: some label and what comes
after it need more bits than a cell has (`Fits`). A map has a dictionary as soon as
one exists with longer labels over the same payloads (`Node.shorten`), and a fork is
built whenever its map has a dictionary at all (`Fits.fork`).
-/

namespace Ton
open CellTraits Result List Nat

/-! ## Shorter cells -/

/-- Whether the hashes can be computed depends on the references only. -/
theorem DataCell.hashLoop_of_refs {special : Bool} {type : SpecialType} {data : List Bool} {refs : List DataCell} {m : LevelMask}
    {ls : List Nat} {hs : List Hash} {ds : List Nat} {r : List Hash × List Nat} (h : hashLoop special type data refs m ls hs ds = .ok r)
    (data' : List Bool) (hs' : List Hash) (ds' : List Nat) : ∃ r', hashLoop special type data' refs m ls hs' ds' = .ok r' := by
  induction ls generalizing hs ds hs' ds' with
  | nil => exact ⟨_, rfl⟩
  | cons l ls ih =>
    unfold hashLoop at h ⊢
    dsimp only at h ⊢
    split at h
    · cases h
    · next hd =>
      rw [if_neg hd]
      exact ih h _ _

theorem DataCell.create_of_shorter {data data' : List Bool} {refs : List DataCell} {c : DataCell} (h : create data refs false = .ok c)
    (hle : data'.length ≤ data.length) : ∃ c', create data' refs false = .ok c' := by
  obtain ⟨type, m, hashes, depths, htype, hm, hbits, hrefs, hloop, -⟩ := create_ok h
  cases htype
  have hm' : check_type .Ordinary data' refs = .ok m := hm
  obtain ⟨⟨hashes', depths'⟩, hloop'⟩ := hashLoop_of_refs hloop data' [] []
  refine ⟨mk false data' refs m hashes' depths', ?_⟩
  rw [create, new_type_ordinary, ok_bind, hm', ok_bind, if_neg (by omega), if_neg (by omega), hloop']
  rfl

theorem CellBuilder.finalize_of_shorter {cb : CellBuilder} {c : DataCell} (h : cb.finalize false = .ok c) (bits : List Bool)
    (hle : bits.length ≤ cb.bits.length) : ∃ c', finalize ⟨bits, cb.refs⟩ false = .ok c' := by
  obtain ⟨c', hc⟩ := DataCell.create_of_shorter (finalize_create h) hle
  exact ⟨c', by rw [finalize, hc]⟩

theorem CellBuilder.finalize_bounds {cb : CellBuilder} {c : DataCell} (h : cb.finalize false = .ok c) :
    cb.bits.length ≤ max_bits ∧ cb.refs.length ≤ max_refs := by
  obtain ⟨-, -, -, -, -, -, hbits, hrefs, -, -⟩ := DataCell.create_ok (finalize_create h)
  exact ⟨hbits, hrefs⟩

namespace Dict

open BigEndian CellBuilder BitMap LabelParser

/-! ## Shorter labels -/

theorem len_bits_mono {x y : Nat} (h : x ≤ y) : len_bits x ≤ len_bits y := by
  unfold len_bits
  split
  · exact Nat.zero_le _
  · next hx =>
    rw [if_neg (by omega)]
    have hlog : 2 ^ x.log2 ≤ y := (log2_self_le hx).trans h
    exact succ_le_succ ((le_log2 (by omega)).2 hlog)

theorem labelBits_shorten (q r : List Bool) {m : Nat} (hr : r.length ≤ m) :
    (labelBits r m).length ≤ (labelBits (q ++ r) (q.length + m)).length := by
  have hk := len_bits_mono (show m ≤ q.length + m by omega)
  -- the end in the form that the whole label has
  obtain ⟨code, hcode, hle⟩ : ∃ code, Hml r m code ∧ code.length ≤ (labelBits (q ++ r) (q.length + m)).length := by
    have hwhole := hml_labelBits (q ++ r) (q.length + m)
    generalize labelBits (q ++ r) (q.length + m) = whole at hwhole
    cases hwhole with
    | short => exact ⟨_, .short, by simp; omega⟩
    | long => exact ⟨_, .long, by simp; omega⟩
    | same b hb =>
      have hconst : r = List.replicate r.length b := by
        rw [eq_replicate_iff] at hb ⊢
        exact ⟨rfl, fun x hx => hb.2 x (mem_append_right q hx)⟩
      exact ⟨_, .same b hconst, by simp; omega⟩
  rcases hcode.least hr with hlt | ⟨heq, -⟩
  · omega
  · omega

/-! ## Nodes -/

section Node
variable {label q r : List Bool} {n m : Nat} {p : CellSlice} {c : DataCell}

theorem Node.bounds (h : Node label n p c) : (labelBits label n).length + p.bits.length ≤ max_bits ∧ p.refs.length ≤ max_refs := by
  have hb := finalize_bounds h.cell
  rw [length_append] at hb
  exact hb

theorem Node.append_dict_label (h : Node label n p c) : append_dict_label {} label n = .ok ⟨labelBits label n, []⟩ := by
  have hfits : ([] : List Bool).length + (labelBits label n).length ≤ max_bits := by
    have hb := h.bounds.1
    rw [length_nil]
    omega
  exact append_dict_label_of_fits h.length_le h.le_max hfits

theorem Node.relabel_edge (h : Node label n p c) (error : String) : relabel_edge label n p error = .ok c := by
  obtain ⟨hbits, hrefs⟩ := h.bounds
  have happend : append_cellslice_bool ⟨labelBits label n, []⟩ p = some ⟨labelBits label n ++ p.bits, p.refs⟩ := by
    refine if_pos ?_
    have h1 : p.bits.length ≤ max_bits - (labelBits label n).length := by omega
    simp [can_extend_by, CellSlice.size, CellSlice.size_refs, h1, hrefs]
  rw [Dict.relabel_edge, h.append_dict_label, ok_bind, happend]
  exact h.cell

/-- A payload that has a node under some label has one under the end of that label. -/
theorem Node.shorten (h : Node (q ++ r) (q.length + m) p c) : ∃ c', Node r m p c' := by
  have hlen := h.length_le
  have hmax := h.le_max
  rw [length_append] at hlen
  have hle := labelBits_shorten q r (show r.length ≤ m by omega)
  obtain ⟨c', hc⟩ := finalize_of_shorter h.cell (labelBits r m ++ p.bits) (by simp only [length_append]; omega)
  exact ⟨c', ⟨by omega, by omega, hc⟩⟩

end Node

/-! ## Maps that have a dictionary -/

/-- The map has a dictionary. -/
def Fits (K : Kind) (n : Nat) (f : BitMap CellSlice) : Prop := ∃ c, Root K n f c

section Fits
variable {K : Kind} {n m : Nat} {label q : List Bool} {f g : BitMap CellSlice} {p : CellSlice} {c : DataCell}

theorem fits_empty (K : Kind) (n : Nat) : Fits K n empty := ⟨none, rfl⟩

theorem Fits.exists_cell (h : Fits K n f) (hf : f ≠ empty) : ∃ c, Root K n f (some c) := by
  obtain ⟨c, hc⟩ := h
  cases c with
  | none => exact absurd hc hf
  | some c => exact ⟨c, hc⟩

theorem Root.ne_empty (h : Root K n f (some c)) : f ≠ empty := by
  obtain ⟨t, -, rfl⟩ := h
  obtain ⟨k, v, hk⟩ := t.exists_key
  intro he
  rw [he] at hk
  cases hk

theorem Payload.ne_empty (hp : Payload K m g p) : g ≠ empty := by
  intro he
  cases hp with
  | leaf hv =>
    have hnil := congrFun he []
    rw [single, Function.update_self] at hnil
    cases hnil
  | fork h1 h2 hp =>
    rw [← split_empty] at he
    exact h1.ne_empty (split_injective he).1

theorem Payload.exists_trie (hp : Payload K m g p) (label : List Bool) (hc : Node label (label.length + m) p c) :
    ∃ t, Rep K (label.length + m) t c ∧ t.lookup = under label g ∧ t.label = label := by
  cases hp with
  | leaf hv => exact ⟨_, .leaf hv hc, (under_single _ _).symm, rfl⟩
  | fork h1 h2 hp =>
    obtain ⟨l, hl, rfl⟩ := h1
    obtain ⟨r, hr, rfl⟩ := h2
    exact ⟨_, .fork hl hr hp hc, rfl, rfl⟩

/-- A common start of all keys is a start of the label at the root. -/
theorem Payload.prefix_label (hp : Payload K m g p) (hc : Node label (label.length + m) p c)
    (h : ∀ k v, under label g k = some v → q <+: k) : q <+: label := by
  obtain ⟨t, -, ht, rfl⟩ := hp.exists_trie label hc
  rw [← ht] at h
  cases t with
  | leaf l v => exact h l v (Function.update_self ..)
  | fork l t1 t2 => exact Trie.prefix_label_of_keys h

variable (hK : K.Canonical)
include hK

theorem Root.node_of_payload (hc : Root K (label.length + m) (under label g) (some c)) (hp : Payload K m g p) :
    Node label (label.length + m) p c := by
  obtain ⟨t, ht, hmap⟩ := hc
  cases hp with
  | @leaf m v p hv =>
    obtain rfl : t = .leaf label v := Trie.lookup_injective (hmap.trans (under_single _ _))
    generalize hk : label.length + m = k at *
    cases ht with
    | leaf hv' hn =>
      obtain rfl : m = _ := Nat.add_left_cancel hk
      obtain rfl := hK.leaf hv hv'
      exact hn
  | @fork m f g c1 c2 p h1 h2 hp =>
    obtain ⟨l, hl, rfl⟩ := h1
    obtain ⟨r, hr, rfl⟩ := h2
    obtain rfl : t = .fork label l r := Trie.lookup_injective hmap
    generalize hk : label.length + (m + 1) = k at *
    cases ht with
    | fork hl' hr' hp' hn =>
      obtain rfl : m = _ := succ.inj (Nat.add_left_cancel hk)
      obtain rfl := hl.unique hK hl'
      obtain rfl := hr.unique hK hr'
      obtain rfl := hK.fork hp hp'
      exact hn

theorem Fits.exists_fork {c1 c2 : DataCell} (h1 : Root K m f (some c1)) (h2 : Root K m g (some c2))
    (h : Fits K (label.length + (m + 1)) (under label (split f g))) :
    ∃ p c, K.Fork (m + 1) c1 c2 p ∧ Node label (label.length + (m + 1)) p c := by
  obtain ⟨l, hl, rfl⟩ := h1
  obtain ⟨r, hr, rfl⟩ := h2
  have hne : under label (split l.lookup r.lookup) ≠ empty := by
    obtain ⟨k, v, hk⟩ := (Trie.fork label l r).exists_key
    intro he
    rw [Trie.lookup, he] at hk
    cases hk
  obtain ⟨c, t, ht, hmap⟩ := h.exists_cell hne
  obtain rfl : t = .fork label l r := Trie.lookup_injective hmap
  generalize hk : label.length + (m + 1) = k at *
  cases ht with
  | fork hl' hr' hp hn =>
    obtain rfl : m = _ := succ.inj (Nat.add_left_cancel hk)
    obtain rfl := hl.unique hK hl'
    obtain rfl := hr.unique hK hr'
    exact ⟨_, _, hp, hn⟩

/-- A payload has a node under any label with which its map has a dictionary. -/
theorem Fits.exists_node (h : Fits K n (under label g)) (hp : Payload K m g p) (hn : n = label.length + m) : ∃ c, Node label n p c := by
  obtain ⟨c, hc⟩ := h.exists_cell fun he => hp.ne_empty (under_injective label (he.trans (under_empty label).symm))
  subst hn
  exact ⟨c, hc.node_of_payload hK hp⟩

end Fits

end Dict

end Ton
