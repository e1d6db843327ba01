import Ton.Boc.Reorder
/-!
# Reading the cells of a bag back

The cells of a packed bag stand in its bytes one after the other, from the last entry
of the list to the first. Their ends are what the index says, or what a walk over
the cells finds (`ends`), and each cell is made again from its own bytes and the cells
read before it.
-/

namespace Ton.Boc
open BigEndian CellTraits Result BagOfCells DataCell List Option Nat

/-! ## Numbers in bytes -/

theorem read_int_toBytes {w n : Nat} (h : n < 256 ^ w) (rest : List Byte) : read_int (toBytes w n ++ rest) w = n := by
  rw [read_int, take_left' (toBytes_length w n), ofBytes_toBytes, mod_eq_of_lt h]

theorem flatMap_toBytes_length (w : Nat) (ns : List Nat) : (ns.flatMap (toBytes w)).length = ns.length * w := by
  induction ns with
  | nil => simp
  | cons n ns ih => simp [ih, succ_mul, Nat.add_comm]

theorem read_int_table {w : Nat} {ns : List Nat} (hns : ∀ n ∈ ns, n < 256 ^ w) (rest : List Byte) {i n : Nat}
    (hi : ns[i]? = some n) : read_int ((ns.flatMap (toBytes w) ++ rest).drop (i * w)) w = n := by
  induction ns generalizing i with
  | nil => simp at hi
  | cons a ns ih =>
    rw [flatMap_cons, append_assoc]
    cases i with
    | zero =>
      cases hi
      rw [Nat.zero_mul, drop_zero, read_int_toBytes (hns n (by simp))]
    | succ i =>
      rw [succ_mul, Nat.add_comm, ← drop_drop, drop_left' (toBytes_length w a)]
      exact ih (fun n hn => hns n (by simp [hn])) hi

theorem substr_flatMap {α : Type} (f : α → List Byte) {as : List α} {i : Nat} {a : α} (hi : as[i]? = some a) :
    substr (as.flatMap f) ((as.take i).map fun a => (f a).length).sum (f a).length = f a := by
  induction as generalizing i with
  | nil => simp at hi
  | cons b as ih =>
    cases i with
    | zero =>
      cases hi
      simp [substr]
    | succ i =>
      have := ih hi
      rw [substr] at this ⊢
      rw [take_succ_cons, map_cons, sum_cons, flatMap_cons, ← drop_drop, drop_left, this]

/-! ## The cells -/

/-- A cell and its references, in a bag of `n` cells. -/
def cellBytes (mode : Mode) (rs n : Nat) (ci : CellInfo) : List Byte :=
  ci.dc_ref.serialize 256 (with_hash mode ci) ++ (ci.ref_idx.map (n - 1 - ·)).flatMap (toBytes rs)

/-- Where the cells end, with the cache bits when there are some. -/
def ends (mode : Mode) (cache : Bool) (rs : Nat) : List CellInfo → Nat → List Nat
  | [], _ => []
  | ci :: cells, offs =>
    let offs := offs + stored_size mode rs ci
    (if cache then offs * 2 + ci.should_cache.toNat else offs) :: ends mode cache rs cells offs

/-- The cell fits into the buffer of one cell. -/
def Fits (mode : Mode) (ci : CellInfo) : Prop := ci.dc_ref.get_serialized_size (with_hash mode ci) ≤ 256

theorem serialize_length {c : DataCell} (h : c.Made) {wh : Bool} (hfit : c.get_serialized_size wh ≤ 256) :
    (c.serialize 256 wh).length = c.get_serialized_size wh := by
  rw [serialize_eq hfit, h.get_serialized_size_eq, length_cons, length_cons, length_append]
  omega

section Cells
variable {mode : Mode} {rs n : Nat} {ci : CellInfo}

theorem cellBytes_length (rs n : Nat) (h : ci.dc_ref.Made) (hfit : Fits mode ci) (hrefs : ci.ref_idx.length = ci.dc_ref.get_refs_cnt) :
    (cellBytes mode rs n ci).length = stored_size mode rs ci := by
  rw [cellBytes, length_append, serialize_length h hfit, flatMap_toBytes_length, length_map, hrefs, stored_size]

theorem getElem?_ends (cache : Bool) (cells : List CellInfo) (offs : Nat) (i : Nat) : (ends mode cache rs cells offs)[i]? =
    cells[i]?.map fun ci =>
      let e := offs + ((cells.take (i + 1)).map (stored_size mode rs)).sum
      if cache then e * 2 + ci.should_cache.toNat else e := by
  induction cells generalizing offs i with
  | nil => simp [ends]
  | cons a cells ih =>
    cases i with
    | zero => simp [ends]
    | succ i =>
      simp only [ends, getElem?_cons_succ, ih, take_succ_cons, map_cons, sum_cons, Nat.add_assoc]

theorem ends_length (cache : Bool) (cells : List CellInfo) (offs : Nat) : (ends mode cache rs cells offs).length = cells.length := by
  induction cells generalizing offs with
  | nil => rfl
  | cons a cells ih => simp [ends, ih]

theorem scan_cells_spec {cells : List CellInfo} (h : ∀ ci ∈ cells, ci.dc_ref.Made) (hfits : ∀ ci ∈ cells, Fits mode ci)
    (hrefs : ∀ ci ∈ cells, ci.ref_idx.length = ci.dc_ref.get_refs_cnt) (i cur : Nat) :
    scan_cells rs cells.length i (cells.flatMap (cellBytes mode rs n)) cur = .ok (ends mode false rs cells cur) := by
  induction cells generalizing i cur with
  | nil => simp [scan_cells, ends]
  | cons ci cells ih =>
    have hmade := h ci (by simp)
    have hfit := hfits ci (by simp)
    have hlen := cellBytes_length rs n hmade hfit (hrefs ci (by simp))
    have hinit : CellSerializationInfo.init ((ci :: cells).flatMap (cellBytes mode rs n)) rs =
        .ok (.ofCell ci.dc_ref (with_hash mode ci) rs) := by
      rw [flatMap_cons, cellBytes]
      apply init_serialize hmade hfit
      rw [flatMap_toBytes_length, length_map, hrefs ci (by simp)]
    have hdrop : ((ci :: cells).flatMap (cellBytes mode rs n)).drop (stored_size mode rs ci) = cells.flatMap (cellBytes mode rs n) := by
      rw [flatMap_cons, drop_left' hlen]
    have hend : (CellSerializationInfo.ofCell ci.dc_ref (with_hash mode ci) rs).end_offset = stored_size mode rs ci := rfl
    rw [length_cons, scan_cells, hinit]
    simp only [hend, hdrop]
    rw [ih (fun ci hci => h ci (by simp [hci])) (fun ci hci => hfits ci (by simp [hci])) (fun ci hci => hrefs ci (by simp [hci])), ok_bind]
    rfl

end Cells

/-- What the header and the index say of a list of cells. -/
structure Layout (mode : Mode) (l : List CellInfo) (cache : Bool) (info : Info) (index : List Nat) : Prop where
  cell_count : info.cell_count = l.length
  has_cache_bits : info.has_cache_bits = cache
  index : index = ends mode cache info.ref_byte_size l.reverse 0
  fits : l.length < 256 ^ info.ref_byte_size
  int : l.length < 2 ^ 31

/-- The cells are proper ones that can be written, and their references go to earlier entries. -/
structure Linked (mode : Mode) (l : List CellInfo) : Prop where
  made : ∀ ci ∈ l, ci.dc_ref.Made
  fits : ∀ ci ∈ l, Fits mode ci
  refs : ∀ (i : Nat) (ci : CellInfo), l[i]? = some ci →
    List.Forall₂ (fun r k => k < i ∧ (dcs l)[k]? = some r) ci.dc_ref.refs ci.ref_idx

section Read
variable {mode : Mode} {l : List CellInfo} {cache : Bool} {info : Info} {index : List Nat}

variable {ci : CellInfo}

theorem getElem?_reverse_of {k : Nat} (hk : l[k]? = some ci) : l.reverse[l.length - 1 - k]? = some ci := by
  obtain ⟨hlt, -⟩ := List.getElem?_eq_some_iff.1 hk
  rw [getElem?_reverse (by omega), ← hk]
  congr 1
  omega

theorem Layout.get_idx_entry (h : Layout mode l cache info index) {i : Nat} (hi : i ≤ l.length) :
    get_idx_entry info index i = ((l.reverse.take i).map (stored_size mode info.ref_byte_size)).sum := by
  cases i with
  | zero => simp [Boc.get_idx_entry, get_idx_entry_raw]
  | succ i =>
    have hlt : i < l.reverse.length := by simpa using lt_of_succ_le hi
    have hget := getElem?_eq_getElem hlt
    simp only [Boc.get_idx_entry, get_idx_entry_raw, h.cell_count, if_pos (show i < l.length by omega), h.has_cache_bits,
      getD_eq_getElem?_getD, h.index, getElem?_ends, hget, map_some, getD_some, Nat.zero_add]
    cases cache with
    | false => simp
    | true =>
      have := l.reverse[i].should_cache.toNat_le
      simp only [if_true]
      omega

theorem Layout.get_cache_entry (h : Layout mode l cache info index) (hindex : info.has_index = true) {i : Nat}
    (hi : l.reverse[i]? = some ci) (hc : cache = true) : get_cache_entry info index i = ci.should_cache := by
  subst hc
  have hlt : i < l.length := by simpa using (List.getElem?_eq_some_iff.1 hi).1
  simp only [Boc.get_cache_entry, get_idx_entry_raw, h.has_cache_bits, hindex, h.cell_count, if_pos hlt,
    getD_eq_getElem?_getD, h.index, getElem?_ends, hi, map_some, getD_some, if_true, Nat.zero_add]
  cases ci.should_cache with
  | false => simp
  | true => simp [add_mod]

theorem Linked.ref_idx_length (hl : Linked mode l) (h : ci ∈ l) : ci.ref_idx.length = ci.dc_ref.get_refs_cnt := by
  obtain ⟨i, hi⟩ := mem_iff_getElem?.1 h
  exact (hl.refs i ci hi).length_eq.symm

theorem Linked.cellBytes_length (hl : Linked mode l) (h : ci ∈ l) (rs n : Nat) :
    (cellBytes mode rs n ci).length = stored_size mode rs ci :=
  Boc.cellBytes_length rs n (hl.made ci h) (hl.fits ci h) (hl.ref_idx_length h)

theorem Linked.map_cellBytes_length (hl : Linked mode l) (rs n : Nat) {cells : List CellInfo} (h : ∀ ci ∈ cells, ci ∈ l) :
    (cells.map fun ci => (cellBytes mode rs n ci).length) = cells.map (stored_size mode rs) :=
  map_congr_left fun ci hci => hl.cellBytes_length (h ci hci) rs n

theorem Layout.get_cell_slice (h : Layout mode l cache info index) (hl : Linked mode l) {i : Nat}
    (hi : l.reverse[i]? = some ci) :
    get_cell_slice info index i (l.reverse.flatMap (cellBytes mode info.ref_byte_size l.length)) =
      .ok (cellBytes mode info.ref_byte_size l.length ci) := by
  have hlt : i < l.length := by simpa using (List.getElem?_eq_some_iff.1 hi).1
  have hsum : ∀ k, ((l.reverse.take k).map fun ci => (cellBytes mode info.ref_byte_size l.length ci).length).sum =
      ((l.reverse.take k).map (stored_size mode info.ref_byte_size)).sum := by
    intro k
    rw [hl.map_cellBytes_length _ _ fun ci hci => mem_reverse.1 (mem_of_mem_take hci)]
  have htake : ((l.reverse.take (i + 1)).map (stored_size mode info.ref_byte_size)).sum =
      ((l.reverse.take i).map (stored_size mode info.ref_byte_size)).sum + (cellBytes mode info.ref_byte_size l.length ci).length := by
    rw [hl.cellBytes_length (mem_reverse.1 (mem_of_getElem? hi)), take_add_one, hi]
    simp
  have hle : ((l.reverse.take (i + 1)).map (stored_size mode info.ref_byte_size)).sum ≤
      (l.reverse.flatMap (cellBytes mode info.ref_byte_size l.length)).length := by
    rw [← hsum, ← length_flatMap]
    conv_rhs => rw [← take_append_drop (i + 1) l.reverse, flatMap_append, length_append]
    exact Nat.le_add_right _ _
  rw [Boc.get_cell_slice, h.get_idx_entry (i := i + 1) hlt, h.get_idx_entry hlt.le]
  rw [if_neg (by omega), htake, Nat.add_sub_cancel_left, ← hsum, substr_flatMap _ hi]

/-- The references of the entry `k`, whose index in the bag counts from the end. -/
theorem Layout.read_refs (h : Layout mode l cache info index) {k : Nat} (hk : k < l.length) {cells : List DataCell} (pre : List Nat)
    {refs : List DataCell} {idx : List Nat} (hrefs : List.Forall₂ (fun r j => j < k ∧ cells[j]? = some r) refs idx)
    {bytes : List Byte} {offs : Nat}
    (hbytes : bytes.drop offs = ((pre ++ idx).map (l.length - 1 - ·)).flatMap (toBytes info.ref_byte_size)) :
    read_refs info cells (l.length - 1 - k) bytes offs idx.length pre.length =
      .ok (refs.zip (idx.map (l.length - 1 - ·))) := by
  induction hrefs generalizing pre with
  | nil => rfl
  | @cons r j refs idx hrj hrest ih =>
    obtain ⟨hjk, hj⟩ := hrj
    have hfits := h.fits
    have hint := h.int
    have hread : read_int (bytes.drop (offs + pre.length * info.ref_byte_size)) info.ref_byte_size = l.length - 1 - j := by
      rw [← drop_drop, hbytes, ← append_nil (List.flatMap _ _)]
      apply read_int_table
      · intro n hn
        obtain ⟨a, -, rfl⟩ := List.mem_map.1 hn
        omega
      · rw [map_append, getElem?_append_right (by simp)]
        simp
    have hrest := ih (pre ++ [j]) (by rw [hbytes]; simp)
    rw [length_append, length_singleton] at hrest
    have hat : cells[info.cell_count - (l.length - 1 - j) - 1]? = some r := by
      rw [← hj, h.cell_count]
      congr 1
      omega
    rw [length_cons, Boc.read_refs]
    simp only [hread, hat, hrest, ok_bind]
    rw [if_neg (by omega), if_neg (by rw [h.cell_count]; omega)]
    rfl

theorem Layout.deserialize_cell (h : Layout mode l cache info index) (hl : Linked mode l) {k : Nat} (hk : l[k]? = some ci)
    (counts : List Nat) :
    deserialize_cell info index (l.length - 1 - k) (l.reverse.flatMap (cellBytes mode info.ref_byte_size l.length))
      ((dcs l).take k) counts = .ok (ci.dc_ref, (ci.ref_idx.map (l.length - 1 - ·)).foldl use counts) := by
  have hci := mem_of_getElem? hk
  have hmade := hl.made ci hci
  have hfit := hl.fits ci hci
  have hlen := hl.ref_idx_length hci
  have hlt := (List.getElem?_eq_some_iff.1 hk).1
  have hinit : CellSerializationInfo.init (cellBytes mode info.ref_byte_size l.length ci) info.ref_byte_size =
      .ok (.ofCell ci.dc_ref (with_hash mode ci) info.ref_byte_size) := by
    rw [← append_nil (cellBytes _ _ _ _), cellBytes]
    apply init_serialize hmade hfit
    rw [flatMap_toBytes_length, length_map, hlen]
  have hrefs : List.Forall₂ (fun r j => j < k ∧ ((dcs l).take k)[j]? = some r) ci.dc_ref.refs ci.ref_idx := by
    refine (hl.refs k ci hk).imp fun r j hj => ⟨hj.1, ?_⟩
    rw [getElem?_take_of_lt hj.1, hj.2]
  have hdrop : (cellBytes mode info.ref_byte_size l.length ci).drop
      (CellSerializationInfo.ofCell ci.dc_ref (with_hash mode ci) info.ref_byte_size).refs_offset =
      (([] ++ ci.ref_idx).map (l.length - 1 - ·)).flatMap (toBytes info.ref_byte_size) := by
    rw [cellBytes, drop_left', nil_append]
    rw [serialize_length hmade hfit, hmade.get_serialized_size_eq]
    rfl
  have hread := h.read_refs hlt [] hrefs hdrop
  have hfst : (ci.dc_ref.refs.zip (ci.ref_idx.map (l.length - 1 - ·))).map Prod.fst = ci.dc_ref.refs := by
    apply map_fst_zip
    rw [length_map, hlen]
    exact le_refl _
  have hsnd : (ci.dc_ref.refs.zip (ci.ref_idx.map (l.length - 1 - ·))).map Prod.snd = ci.ref_idx.map (l.length - 1 - ·) := by
    apply map_snd_zip
    rw [length_map, hlen]
    exact le_refl _
  have hcnt : (CellSerializationInfo.ofCell ci.dc_ref (with_hash mode ci) info.ref_byte_size).refs_cnt = ci.ref_idx.length := hlen.symm
  rw [Boc.deserialize_cell, h.get_cell_slice hl (getElem?_reverse_of hk), ok_bind, hinit, ok_bind,
    if_neg (by rw [hl.cellBytes_length hci]; exact fun hne => hne rfl), hcnt]
  rw [length_nil] at hread
  rw [hread, ok_bind, hfst, hsnd, cellBytes, create_data_cell_serialize hmade hfit, ok_bind]

/-- The uses of cells as `deserialize_cells` counts them, when `n` cells are left. -/
def refUses (l : List CellInfo) (n : Nat) : List Nat :=
  (l.drop (l.length - n)).flatMap fun ci => ci.ref_idx.map (l.length - 1 - ·)

theorem Layout.deserialize_cells (h : Layout mode l cache info index) (hl : Linked mode l) {n : Nat} (hn : n ≤ l.length) (counts : List Nat) :
    deserialize_cells info index (l.reverse.flatMap (cellBytes mode info.ref_byte_size l.length)) n
      ((dcs l).take (l.length - n)) counts = .ok (dcs l, (refUses l n).foldl use counts) := by
  induction n generalizing counts with
  | zero =>
    rw [Boc.deserialize_cells, take_of_length_le (by simp [dcs])]
    simp [refUses]
  | succ n ih =>
    obtain ⟨k, hk⟩ : ∃ k, k = l.length - 1 - n := ⟨_, rfl⟩
    have hlt : k < l.length := by omega
    have hci := getElem?_eq_getElem hlt
    have e1 : l.length - (n + 1) = k := by omega
    have e2 : n = l.length - 1 - k := by omega
    have e3 : l.length - n = k + 1 := by omega
    have hcell := h.deserialize_cell hl hci counts
    rw [← e2] at hcell
    have htake : (dcs l).take k ++ [l[k].dc_ref] = (dcs l).take (l.length - n) := by
      rw [e3, take_add_one, getElem?_dcs hci]
      rfl
    have huses : refUses l (n + 1) = l[k].ref_idx.map (l.length - 1 - ·) ++ refUses l n := by
      rw [refUses, refUses, e1, e3, drop_eq_getElem_cons hlt, flatMap_cons]
    rw [e1, Boc.deserialize_cells, hcell]
    simp only
    rw [htake, ih (by omega), huses, foldl_append]

end Read

end Ton.Boc
