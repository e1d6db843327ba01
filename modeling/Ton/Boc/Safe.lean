import Ton.Lib.Ends
import Ton.Boc.Memory
/-!
# Reading a bag stays inside the input

Each read from memory is defined where the model over bytes takes the same bytes, so reading a
bag from memory refines reading it from bytes (`Memory.deserialize_refines`). What is read ends
with an error, or with cells that are well formed (`deserialize_safe`).
-/

namespace Ton.Boc
open BigEndian CellTraits Result Guarded List Nat

namespace Memory

/-! ## Accesses -/

section Access
variable {ε α β : Type} {data : List Byte} {ptr n : Nat}

@[simp] theorem of_ok_bind (a : α) (f : α → Guarded ε β) : (Guarded.of (.ok a) >>= f) = f a := rfl

@[simp] theorem attempt_of {ε' : Type} (x : Except ε α) : ((Guarded.of x).attempt : Guarded ε' _) = .of (.ok x) := rfl

theorem read_eq (h : ptr + n ≤ data.length) : (read data ptr n : Guarded ε _) = .of (.ok (substr data ptr n)) := by
  rw [read, need, if_pos h]
  rfl

theorem read_byte_eq (h : ptr < data.length) : (read_byte data ptr : Guarded ε _) = .of (.ok (byteAt data ptr)) := by
  rw [read_byte, need, if_pos h]
  rfl

theorem read_int_eq (h : ptr + n ≤ data.length) : (read_int data ptr n : Guarded ε _) = .of (.ok (Ton.read_int (data.drop ptr) n)) := by
  rw [read_int, read_eq h]
  rfl

theorem at_index_eq {l : List α} {i : Nat} {a : α} (h : l[i]? = some a) : (at_index l i : Guarded ε α) = .of (.ok a) := by
  rw [at_index, h]
  rfl

theorem Slice.substr_eq {s : Slice} {offset size : Nat} (h : offset ≤ s.size) :
    (s.substr offset size : Guarded ε _) = .of (.ok ⟨s.ubegin + offset, min size (s.size - offset)⟩) := by
  rw [Slice.substr, need, if_pos h]
  rfl

theorem Slice.suffix_eq {s : Slice} {offset : Nat} (h : offset ≤ s.size) :
    (s.suffix offset : Guarded ε _) = .of (.ok ⟨s.ubegin + offset, s.size - offset⟩) := by
  rw [Slice.suffix, need, if_pos h]
  rfl

end Access

/-! ## The header -/

theorem parse_refines (data : List Byte) : Refines Eq (parse_serialized_header data) (Boc.parse_serialized_header data) := by
  unfold parse_serialized_header Boc.parse_serialized_header
  dsimp only
  refine .ite (fun _ => .error _) fun h4 => ?_
  rw [read_int_eq (by omega), of_ok_bind]
  refine .ite (fun _ => .error _) fun _ => ?_
  refine .ite (fun _ => .error _) fun h5 => ?_
  rw [read_byte_eq (by omega), of_ok_bind]
  refine .ite (fun _ => .error _) fun _ => ?_
  refine .ite (fun _ => .error _) fun hrs => ?_
  refine .ite (fun _ => .error _) fun h6 => ?_
  rw [read_byte_eq (by omega), of_ok_bind]
  refine .ite (fun _ => .error _) fun hos => ?_
  refine .ite (fun _ => .error _) fun h7 => ?_
  rw [read_int_eq (by omega), of_ok_bind]
  refine .ite (fun _ => .error _) fun _ => ?_
  refine .ite (fun _ => .error _) fun h8 => ?_
  rw [read_int_eq (by omega), of_ok_bind, ← drop_drop]
  refine .ite (fun _ => .error _) fun _ => ?_
  refine .ite (fun _ => .error _) fun _ => ?_
  refine .ite (fun _ => .error _) fun h9 => ?_
  rw [read_int_eq (by omega), of_ok_bind, ← drop_drop]
  refine .ite (fun _ => .error _) fun _ => ?_
  refine .ite (fun _ => .error _) fun h10 => ?_
  rw [read_int_eq (by omega), of_ok_bind, ← drop_drop]
  refine .ite (fun _ => .error _) fun _ => ?_
  refine .ite (fun _ => .error _) fun _ => ?_
  refine .ite (fun _ => .error _) fun _ => ?_
  exact .ok rfl

end Memory

/-- What an accepted header says. -/
structure Accepted (info : Info) : Prop where
  ref_byte_size : 1 ≤ info.ref_byte_size ∧ info.ref_byte_size ≤ 4
  offset_byte_size : 1 ≤ info.offset_byte_size ∧ info.offset_byte_size ≤ 8
  cell_count : 0 < info.cell_count ∧ info.cell_count < 2 ^ 31
  root_count : 0 < info.root_count
  index_offset : info.index_offset = info.roots_offset + if info.has_roots then info.root_count * info.ref_byte_size else 0
  data_offset : info.data_offset = info.index_offset + if info.has_index then info.cell_count * info.offset_byte_size else 0
  total_size : info.total_size = info.data_offset + info.data_size + if info.has_crc32c then 4 else 0
  roots_offset : 0 < info.roots_offset

/-- The parts of a bag with this header are among the first `n` bytes. -/
structure Within (info : Info) (n : Nat) : Prop where
  crc32c : info.has_crc32c = true → 4 ≤ n
  roots : info.has_roots = true → info.roots_offset + info.root_count * info.ref_byte_size ≤ n
  roots_offset : info.roots_offset ≤ n
  index : info.has_index = true → info.index_offset + info.cell_count * info.offset_byte_size ≤ n
  data : info.data_offset + info.data_size ≤ n

theorem Accepted.within {info : Info} {n : Nat} (h : Accepted info) (hn : info.total_size ≤ n) : Within info n := by
  have hsize := h.total_size
  have hdata := h.data_offset
  have hindex := h.index_offset
  refine ⟨fun hc => ?_, fun hr => ?_, by omega, fun hi => ?_, by omega⟩
  · rw [if_pos hc] at hsize
    omega
  · rw [if_pos hr] at hindex
    omega
  · rw [if_pos hi] at hdata
    omega

theorem accepted {data : List Byte} {info : Info} (h : parse_serialized_header data = .ok info) : Accepted info := by
  unfold parse_serialized_header at h
  simp only [ite_error_ok] at h
  obtain ⟨-, -, -, -, hrs, -, hos, -, hcell, -, hroot, -, -, -, -, -, -, -, h⟩ := h
  cases h
  constructor
  · simp only
    omega
  · simp only
    omega
  · simp only
    omega
  · simp only
    omega
  · simp only [decide_eq_true_eq]
  · rfl
  · rfl
  · simp only
    omega

namespace Memory

/-! ## Slices -/

/-- All bytes of the slice are in the input. -/
def Slice.Inside (data : List Byte) (s : Slice) : Prop := s.ubegin + s.size ≤ data.length

/-- The bytes of the slice. -/
def Slice.bytes (data : List Byte) (s : Slice) : List Byte := Ton.substr data s.ubegin s.size

section Slice
variable {data : List Byte} {s : Slice}

theorem Slice.Inside.length (h : s.Inside data) : (s.bytes data).length = s.size := by
  rw [Slice.Inside] at h
  rw [Slice.bytes, Ton.substr, length_take, length_drop]
  omega

theorem Slice.substr_bytes {off n : Nat} (h : off + n ≤ s.size) : Ton.substr (s.bytes data) off n = Ton.substr data (s.ubegin + off) n := by
  rw [Slice.bytes, Ton.substr, Ton.substr, Ton.substr, drop_take, take_take, drop_drop, min_eq_left (by omega)]

theorem Slice.byteAt_bytes {i : Nat} (h : i < s.size) : byteAt (s.bytes data) i = byteAt data (s.ubegin + i) := by
  rw [Slice.bytes, Ton.substr, byteAt, byteAt, getD_eq_getElem?_getD, getD_eq_getElem?_getD,
    getElem?_take_of_lt h, getElem?_drop]

theorem Slice.read_int_bytes {off n : Nat} (h : off + n ≤ s.size) :
    Ton.read_int ((s.bytes data).drop off) n = Ton.read_int (data.drop (s.ubegin + off)) n :=
  congrArg ofBytes (s.substr_bytes h)

theorem Slice.part {off n : Nat} (h : off + n ≤ s.size) (hs : s.Inside data) :
    (⟨s.ubegin + off, n⟩ : Slice).Inside data ∧ (⟨s.ubegin + off, n⟩ : Slice).bytes data = Ton.substr (s.bytes data) off n := by
  rw [Slice.Inside] at hs
  refine ⟨?_, (s.substr_bytes h).symm⟩
  rw [Slice.Inside]
  simp only
  omega

end Slice

/-! ## One cell -/

section Cell
variable {data : List Byte} {cell : Slice} {info : CellSerializationInfo}

/-- The parts of a cell, in order. -/
structure Parts (info : CellSerializationInfo) : Prop where
  hashes : info.with_hashes = true → info.hashes_offset + info.level_mask.get_hashes_count * hash_bytes = info.depth_offset ∧
    info.depth_offset + info.level_mask.get_hashes_count * depth_bytes = info.data_offset
  data : info.data_offset + info.data_len = info.refs_offset
  data_len : info.data_len ≤ 128 ∧ (info.data_with_bits = false → info.data_len ≤ 127) ∧ (info.data_with_bits = true → info.data_len ≠ 0)
  refs_cnt : info.refs_cnt ≤ 4
  mask : info.level_mask.mask < 8

theorem parts_of_init_bytes {d1 d2 : Byte} {rs : Nat} (h : CellSerializationInfo.init_bytes d1 d2 rs = .ok info) :
    Parts info ∧ info.end_offset = info.refs_offset + info.refs_cnt * rs := by
  unfold CellSerializationInfo.init_bytes at h
  dsimp only at h
  have hd1 := d1.isLt
  have hd2 := d2.isLt
  by_cases hrefs : d1.toNat % 8 > 4
  · rw [if_pos hrefs] at h
    split at h <;> cases h
  · rw [if_neg hrefs] at h
    cases h
    refine ⟨⟨fun hw => ?_, rfl, ?_, by simp only; omega, by simp only; omega⟩, rfl⟩
    · simp only at hw
      simp only [hw, if_true]
      exact ⟨trivial, trivial⟩
    · simp only [decide_eq_false_iff_not, decide_eq_true_eq, not_not]
      omega

theorem init_refines (hs : cell.Inside data) (rs : Nat) :
    Refines (fun a b => a = b ∧ Parts b ∧ b.end_offset = b.refs_offset + b.refs_cnt * rs ∧ b.end_offset ≤ cell.size)
      (init data cell rs) (CellSerializationInfo.init (cell.bytes data) rs) := by
  unfold init CellSerializationInfo.init
  have hin := hs
  rw [Slice.Inside] at hin
  rw [hs.length]
  refine .ite (fun _ => .error _) fun h2 => ?_
  rw [read_byte_eq (by omega), of_ok_bind, read_byte_eq (by omega), of_ok_bind, Slice.byteAt_bytes (by omega), Slice.byteAt_bytes (by omega),
    Nat.add_zero]
  cases hinit : CellSerializationInfo.init_bytes (byteAt data cell.ubegin) (byteAt data (cell.ubegin + 1)) rs with
  | error e => exact .error e
  | ok info =>
    rw [of_ok_bind, ok_bind]
    obtain ⟨hp, he⟩ := parts_of_init_bytes hinit
    exact .ite (fun _ => .error _) fun hle => .ok ⟨rfl, hp, he, by omega⟩

theorem get_bits_refines (hs : cell.Inside data) (hp : Parts info) (hend : info.refs_offset ≤ cell.size) :
    Refines (fun a b => a = b ∧ b ≤ info.data_len * 8 ∧ b ≤ max_bits) (get_bits data info cell) (info.get_bits (cell.bytes data)) := by
  unfold get_bits CellSerializationInfo.get_bits
  have hin := hs
  rw [Slice.Inside] at hin
  have hdata := hp.data
  obtain ⟨hlen, hlen', hpos⟩ := hp.data_len
  refine .ite (fun hb => ?_) fun hb => ?_
  · have hpos := hpos hb
    refine .need hpos ?_
    rw [read_byte_eq (by omega), of_ok_bind, Slice.byteAt_bytes (by omega)]
    refine .ite (fun _ => .error _) fun _ => .ok ⟨rfl, by omega, by rw [max_bits]; omega⟩
  · have hlen' := hlen' (by simpa using hb)
    exact .ok ⟨rfl, le_refl _, by rw [max_bits]; omega⟩

theorem hash_at_eq (hs : cell.Inside data) (hp : Parts info) (hw : info.with_hashes = true) (hend : info.refs_offset ≤ cell.size)
    {i : Nat} (hi : i < info.level_mask.get_hashes_count) :
    hash_at data info cell i = .of (.ok (Ton.substr (cell.bytes data) (info.hashes_offset + hash_bytes * i) hash_bytes)) ∧
    depth_at data info cell i =
      .of (.ok (ofBytes (Ton.substr (cell.bytes data) (info.depth_offset + depth_bytes * i) depth_bytes))) := by
  obtain ⟨h1, h2⟩ := hp.hashes hw
  have hdata := hp.data
  have hh := Nat.mul_le_mul_right hash_bytes (succ_le_of_lt hi)
  have hd := Nat.mul_le_mul_right depth_bytes (succ_le_of_lt hi)
  rw [succ_mul, Nat.mul_comm i] at hh hd
  rw [Slice.Inside] at hs
  constructor
  · rw [hash_at, Slice.substr_eq (by omega), of_ok_bind]
    simp only
    rw [min_eq_left (by omega), read_eq (by omega), Slice.substr_bytes (by omega)]
  · rw [depth_at, Slice.substr_eq (by omega), of_ok_bind, read_int_eq (by simp only; omega), Slice.substr_bytes (by omega)]
    rfl

theorem significant_lt {m : LevelMask} (hm : m.mask < 8) :
    ((List.range m.get_level).filter m.is_significant).length < m.get_hashes_count := by
  obtain ⟨m⟩ := m
  have h : ∀ m < 8, ((List.range (LevelMask.mk m).get_level).filter (LevelMask.mk m).is_significant).length <
      (LevelMask.mk m).get_hashes_count := by decide
  exact h m hm

section
variable (hs : cell.Inside data) (hp : Parts info) (hw : info.with_hashes = true) (hend : info.refs_offset ≤ cell.size) (res : DataCell)
include hs hp hw hend

theorem check_levels_refines (levels : List (Nat × Nat))
    (hlevels : ∀ p ∈ levels, p.2 < info.level_mask.get_hashes_count) :
    Refines Eq (check_levels data info cell res levels) (levels.forM fun (level_i, hash_i) =>
      if Ton.substr (cell.bytes data) (info.hashes_offset + hash_bytes * hash_i) hash_bytes ≠ res.get_hash level_i then
        .error "lower hash mismatch"
      else if res.get_depth level_i ≠ ofBytes (Ton.substr (cell.bytes data) (info.depth_offset + depth_bytes * hash_i) depth_bytes) then
        .error "lower depth mismatch"
      else .ok ()) := by
  induction levels with
  | nil => exact .ok rfl
  | cons p levels ih =>
    obtain ⟨hh, hd⟩ := hash_at_eq hs hp hw hend (hlevels p (by simp))
    rw [check_levels, hh, of_ok_bind, hd, forM_eq_forM, forM_cons]
    simp only
    by_cases h : Ton.substr (cell.bytes data) (info.hashes_offset + hash_bytes * p.2) hash_bytes ≠ res.get_hash p.1
    · rw [if_pos h, if_pos h]
      exact .error _
    · rw [if_neg h, if_neg h, of_ok_bind]
      by_cases h' : res.get_depth p.1 ≠ ofBytes (Ton.substr (cell.bytes data) (info.depth_offset + depth_bytes * p.2) depth_bytes)
      · rw [if_pos h', if_pos h']
        exact .error _
      · rw [if_neg h', if_neg h', ok_bind]
        exact ih fun q hq => hlevels q (by simp [hq])

theorem check_hashes_refines :
    Refines Eq (check_hashes data info cell res) (info.check_hashes (cell.bytes data) res) := by
  obtain ⟨hh, hd⟩ := hash_at_eq hs hp hw hend (i := info.level_mask.get_hashes_count - 1) (sub_lt (succ_pos _) Nat.one_pos)
  unfold check_hashes CellSerializationInfo.check_hashes
  dsimp only
  rw [hh, of_ok_bind]
  refine .ite (fun _ => .error _) fun _ => ?_
  rw [hd, of_ok_bind]
  refine .ite (fun _ => .error _) fun _ => ?_
  refine check_levels_refines hs hp hw hend res _ fun p hmem => ?_
  have := snd_lt_of_mem_zipIdx hmem
  have hlt := significant_lt hp.mask
  omega

end

theorem bytesToBits_take {l : List Byte} {k bits : Nat} (h : bits ≤ 8 * k) :
    (bytesToBits (l.take k)).take bits = (bytesToBits l).take bits := by
  conv_rhs => rw [← take_append_drop k l, bytesToBits_append]
  by_cases hk : k ≤ l.length
  · rw [take_append_of_le_length]
    rw [bytesToBits_length, length_take]
    omega
  · rw [drop_eq_nil_of_le (by omega)]
    simp [bytesToBits]

theorem create_data_cell_refines (hs : cell.Inside data) (hp : Parts info) (hend : info.refs_offset ≤ cell.size) {refs : List DataCell}
    (hrefs : refs.length = info.refs_cnt) :
    Refines Eq (create_data_cell data info cell refs) (info.create_data_cell (cell.bytes data) refs) := by
  unfold create_data_cell CellSerializationInfo.create_data_cell
  refine (get_bits_refines hs hp hend).bind ?_
  rintro bits _ - ⟨rfl, hlen, hmax⟩
  have hdata := hp.data
  have hcnt := hp.refs_cnt
  have hin := hs
  rw [Slice.Inside] at hin
  rw [read_eq (by omega), of_ok_bind]
  refine .need hmax (.need (by rw [max_refs, hrefs]; exact hcnt) ?_)
  rw [← Slice.substr_bytes (by omega), Ton.substr, bytesToBits_take (by omega)]
  refine Refines.bind (R := Eq) ?_ ?_
  · cases DataCell.create ((bytesToBits ((cell.bytes data).drop info.data_offset)).take bits) refs info.special with
    | error e => exact .error e
    | ok c => exact .ok rfl
  · rintro res _ - rfl
    refine .ite (fun _ => .error _) fun _ => ?_
    refine .ite (fun _ => .error _) fun _ => ?_
    refine .ite (fun hw => ?_) fun _ => .ok rfl
    refine (check_hashes_refines hs hp hw hend res).bind ?_
    exact fun _ _ _ _ => .ok rfl

end Cell

/-! ## The index -/

/-- The entries of an index. -/
def Index.Has (data : List Byte) (info : Info) (entries : List Nat) : Index → Prop
  | .stored index_ptr => index_ptr + info.cell_count * info.offset_byte_size ≤ data.length ∧
      entries = read_index info (data.drop index_ptr)
  | .custom_index l => l = entries ∧ l.length = info.cell_count

section Index
variable {data : List Byte} {info : Info} {index : Index} {entries : List Nat} {i : Nat}

section
variable (h : index.Has data info entries)
include h

theorem get_idx_entry_raw_eq (hi : i ≤ info.cell_count) :
    get_idx_entry_raw data info index i = .of (.ok (Boc.get_idx_entry_raw info entries i)) := by
  cases i with
  | zero => rfl
  | succ i =>
    rw [Boc.get_idx_entry_raw, if_pos (by omega), getD_eq_getElem?_getD]
    cases index with
    | stored index_ptr =>
      obtain ⟨hlen, rfl⟩ := h
      have hmul := Nat.mul_le_mul_right info.offset_byte_size hi
      rw [succ_mul] at hmul
      simp only [get_idx_entry_raw]
      rw [if_pos (by omega), read_int_eq (by omega), read_index, getElem?_map, getElem?_range (by omega), Option.map_some,
        drop_drop]
      rfl
    | custom_index l =>
      obtain ⟨rfl, hlen⟩ := h
      have hget := getElem?_eq_getElem (show i < l.length by omega)
      simp only [get_idx_entry_raw]
      rw [at_index_eq hget, hget]
      rfl

theorem get_idx_entry_eq (hi : i ≤ info.cell_count) :
    get_idx_entry data info index i = .of (.ok (Boc.get_idx_entry info entries i)) := by
  rw [get_idx_entry, get_idx_entry_raw_eq h hi, of_ok_bind, Boc.get_idx_entry]
  rfl

theorem get_cache_entry_eq (hi : i < info.cell_count) :
    get_cache_entry data info index i = .of (.ok (Boc.get_cache_entry info entries i)) := by
  rw [get_cache_entry, Boc.get_cache_entry]
  by_cases hc : (!info.has_cache_bits || !info.has_index) = true
  · rw [if_pos hc, if_pos hc]
    rfl
  · rw [if_neg hc, if_neg hc, get_idx_entry_raw_eq h hi, of_ok_bind]
    rfl

/-- The window of a cell is in the input, whatever the index says. -/
theorem get_cell_slice_refines (hi : i < info.cell_count) {s : Slice} (hs : s.Inside data) :
    Refines (fun a b => a.Inside data ∧ a.bytes data = b) (get_cell_slice data info index i s)
      (Boc.get_cell_slice info entries i (s.bytes data)) := by
  rw [get_cell_slice, Boc.get_cell_slice, get_idx_entry_eq h hi.le, of_ok_bind, get_idx_entry_eq h hi, of_ok_bind, hs.length]
  refine .ite (fun _ => .error _) fun hle => ?_
  rw [Slice.substr_eq (by omega), min_eq_left (by omega)]
  exact .ok (Slice.part (by omega) hs)

end

end Index

/-! ## The cells of a bag -/

section Bag
variable {data : List Byte} {info : Info} {index : Index} {entries : List Nat} {cells : List DataCell}

variable {counts : List Nat} {s : Slice}

theorem read_refs_refines (hs : s.Inside data) {idx : Nat} (hidx : idx < info.cell_count)
    (hcells : cells.length = info.cell_count - idx - 1) {refs_offset n k : Nat}
    (hend : refs_offset + (k + n) * info.ref_byte_size ≤ s.size) :
    Refines Eq (read_refs data info cells info.cell_count idx s refs_offset n k)
      (Boc.read_refs info cells idx (s.bytes data) refs_offset n k) := by
  induction n generalizing k with
  | zero => exact .ok rfl
  | succ n ih =>
    have hmul := Nat.mul_le_mul_right info.ref_byte_size (show k + 1 ≤ k + (n + 1) by omega)
    rw [succ_mul] at hmul
    have hin := hs
    rw [Slice.Inside] at hin
    rw [read_refs, Boc.read_refs, read_int_eq (by omega), of_ok_bind, Slice.read_int_bytes (by omega)]
    refine .ite (fun _ => .error _) fun hgt => ?_
    refine .ite (fun _ => .error _) fun hlt => ?_
    have hget := getElem?_eq_getElem (l := cells) (i := info.cell_count -
      Ton.read_int (data.drop (s.ubegin + (refs_offset + k * info.ref_byte_size))) info.ref_byte_size - 1) (by omega)
    rw [at_index_eq hget, of_ok_bind, hget]
    refine .need (by omega) ?_
    refine (ih (k := k + 1) (by rwa [show k + 1 + n = k + (n + 1) by omega])).bind ?_
    rintro rest _ - rfl
    exact .ok rfl

theorem foldl_use_length (ks counts : List Nat) : (ks.foldl use counts).length = counts.length := by
  induction ks generalizing counts with
  | nil => rfl
  | cons k ks ih => rw [foldl_cons, ih, use, length_modify]

theorem read_refs_length {s : List Byte} {idx refs_offset n k : Nat} {refs : List (DataCell × Nat)}
    (h : Boc.read_refs info cells idx s refs_offset n k = .ok refs) : refs.length = n := by
  induction n generalizing k refs with
  | zero =>
    cases h
    rfl
  | succ n ih =>
    rw [Boc.read_refs] at h
    simp only [ite_error_ok] at h
    obtain ⟨-, -, h⟩ := h
    split at h
    · cases h
    · obtain ⟨rest, hrest, h⟩ := bind_ok.1 h
      cases h
      rw [length_cons, ih hrest]

theorem deserialize_cell_refines (h : index.Has data info entries) (hs : s.Inside data) {idx : Nat}
    (hidx : idx < info.cell_count) (hcells : cells.length = info.cell_count - idx - 1)
    (hcounts : counts.length = info.cell_count) :
    Refines (fun a b => a = b ∧ b.2.length = info.cell_count) (deserialize_cell data info index idx s cells counts)
      (Boc.deserialize_cell info entries idx (s.bytes data) cells counts) := by
  unfold deserialize_cell Boc.deserialize_cell
  refine (get_cell_slice_refines h hidx hs).bind ?_
  rintro cell _ - ⟨hcell, rfl⟩
  refine (init_refines hcell info.ref_byte_size).bind ?_
  rintro cell_info _ - ⟨rfl, hp, hend, hle⟩
  rw [hcell.length, hcounts]
  refine .ite (fun _ => .error _) fun _ => ?_
  refine (read_refs_refines hcell hidx hcells (by rw [Nat.zero_add]; omega)).bind ?_
  rintro refs _ hrefs rfl
  refine (create_data_cell_refines hcell hp (by omega) (by rw [length_map, read_refs_length hrefs])).bind ?_
  rintro c _ - rfl
  exact .ok ⟨rfl, by rw [foldl_use_length, hcounts]⟩

theorem deserialize_cells_refines (h : index.Has data info entries) (hs : s.Inside data) {n : Nat}
    (hn : n ≤ info.cell_count) (hcells : cells.length = info.cell_count - n) (hcounts : counts.length = info.cell_count) :
    Refines (fun a b => a = b ∧ b.1.length = info.cell_count ∧ b.2.length = info.cell_count)
      (deserialize_cells data info index s n cells counts) (Boc.deserialize_cells info entries (s.bytes data) n cells counts) := by
  induction n generalizing cells counts with
  | zero => exact .ok ⟨rfl, hcells, hcounts⟩
  | succ idx ih =>
    have hlast : cells.length = info.cell_count - idx - 1 := by omega
    have hcell := deserialize_cell_refines h hs (by omega) hlast hcounts
    rw [deserialize_cells, Boc.deserialize_cells]
    generalize deserialize_cell data info index idx s cells counts = x at hcell
    generalize Boc.deserialize_cell info entries idx (s.bytes data) cells counts = y at hcell
    cases hcell with
    | error e => exact .error _
    | ok hp =>
      obtain ⟨rfl, hlen⟩ := hp
      rw [attempt_of, of_ok_bind]
      exact ih (by omega) (by rw [length_append, length_singleton]; omega) hlen

theorem scan_cells_length {rs n i cur : Nat} {s : List Byte} {l : List Nat} (h : Boc.scan_cells rs n i s cur = .ok l) :
    l.length = n := by
  induction n generalizing i s cur l with
  | zero =>
    rw [Boc.scan_cells] at h
    split at h
    · cases h
      rfl
    · cases h
  | succ n ih =>
    rw [Boc.scan_cells] at h
    split at h
    · cases h
    · obtain ⟨rest, hrest, h⟩ := bind_ok.1 h
      cases h
      rw [length_cons, ih hrest]

theorem scan_cells_refines (hs : s.Inside data) (rs n i cur : Nat) :
    Refines Eq (scan_cells data rs n i s cur) (Boc.scan_cells rs n i (s.bytes data) cur) := by
  induction n generalizing i s cur with
  | zero =>
    have hnil : s.bytes data = [] ↔ s.size = 0 := by rw [← length_eq_zero_iff, hs.length]
    rw [scan_cells, Boc.scan_cells, hs.length]
    simp only [hnil]
    exact .ite (fun _ => .ok rfl) fun _ => .error _
  | succ n ih =>
    have hinit := init_refines hs rs
    rw [scan_cells, Boc.scan_cells]
    generalize init data s rs = x at hinit
    generalize CellSerializationInfo.init (s.bytes data) rs = y at hinit
    cases hinit with
    | error e => exact .error _
    | @ok cell_info b hp =>
      obtain ⟨rfl, -, -, hle⟩ := hp
      have hfit : cell_info.end_offset + (s.size - cell_info.end_offset) ≤ s.size := by omega
      obtain ⟨hin, hbytes⟩ := Slice.part hfit hs
      rw [Ton.substr, take_of_length_le (by rw [length_drop, hs.length])] at hbytes
      rw [attempt_of, of_ok_bind]
      dsimp only
      rw [Slice.suffix_eq hle, of_ok_bind, ← hbytes]
      refine (ih hin (i + 1) (cur + cell_info.end_offset)).bind ?_
      rintro rest _ - rfl
      exact .ok rfl

theorem read_roots_refines {roots_ptr n i : Nat}
    (hend : info.has_roots = true → roots_ptr + (i + n) * info.ref_byte_size ≤ data.length)
    (hint : (i + n) * info.ref_byte_size ≤ 2 ^ 31) (hrs : 0 < info.ref_byte_size) :
    Refines (fun a b => a = b ∧ ∀ k ∈ b, k < info.cell_count) (read_roots data info roots_ptr n i)
      (Boc.read_roots info (data.drop roots_ptr) n i) := by
  induction n generalizing i with
  | zero => exact .ok ⟨rfl, by simp⟩
  | succ n ih =>
    have hmul := Nat.mul_le_mul_right info.ref_byte_size (show i + 1 ≤ i + (n + 1) by omega)
    rw [succ_mul] at hmul
    have hidx : read_root data info roots_ptr i = .of (.ok (if info.has_roots then
        Ton.read_int ((data.drop roots_ptr).drop (i * info.ref_byte_size)) info.ref_byte_size else 0)) := by
      rw [read_root]
      split
      · next hr =>
        have := hend hr
        rw [need, if_pos (by omega), of_ok_bind, read_int_eq (by omega), drop_drop]
      · rfl
    rw [read_roots, Boc.read_roots, hidx, of_ok_bind]
    refine .ite (fun _ => .error _) fun hlt => ?_
    refine (ih (i := i + 1) (fun hr => ?_) ?_).bind ?_
    · rw [show i + 1 + n = i + (n + 1) by omega]
      exact hend hr
    · rwa [show i + 1 + n = i + (n + 1) by omega]
    · rintro rest _ - ⟨rfl, hrest⟩
      refine .ok ⟨rfl, ?_⟩
      intro k hk
      rcases mem_cons.1 hk with rfl | hk
      · omega
      · exact hrest k hk

theorem check_cache_bits_eq (h : index.Has data info entries) (hcounts : counts.length = info.cell_count)
    {l : List Nat} (hl : ∀ idx ∈ l, idx < info.cell_count) : check_cache_bits data info index counts l =
      .of (match l.find? fun idx => info.has_cache_bits && decide (counts.getD idx 0 > 1) != Boc.get_cache_entry info entries idx with
        | some idx => .error s!"invalid bag-of-cells cell #{idx} has wrong cache flag {Boc.get_cache_entry info entries idx}"
        | none => .ok ()) := by
  induction l with
  | nil => rfl
  | cons idx l ih =>
    rw [check_cache_bits, find?_cons]
    cases hc : info.has_cache_bits with
    | false =>
      have hnone : (l.find? fun _ => false) = none := by simp
      simp only [Bool.false_and, Bool.false_eq_true, if_false, hnone]
      rfl
    | true =>
      have hidx := hl idx (by simp)
      have hget := getElem?_eq_getElem (show idx < counts.length by omega)
      have hcnt : counts.getD idx 0 = counts[idx] := by rw [getD_eq_getElem?_getD, hget, Option.getD_some]
      rw [if_pos rfl, at_index_eq hget, of_ok_bind, get_cache_entry_eq h hidx, of_ok_bind, hcnt, Bool.true_and]
      by_cases hne : (decide (counts[idx] > 1) != Boc.get_cache_entry info entries idx) = true
      · rw [if_pos hne, hne]
      · rw [if_neg hne, ih fun idx hidx => hl idx (by simp [hidx]), hc]
        rw [Bool.not_eq_true] at hne
        rw [hne]

theorem root_cells_eq {roots : List Nat} (hcells : cells.length = info.cell_count) (hroots : ∀ idx ∈ roots, idx < info.cell_count) :
    root_cells info cells roots = .of (.ok (roots.map fun idx => cells[info.cell_count - idx - 1]?)) := by
  induction roots with
  | nil => rfl
  | cons idx roots ih =>
    have hidx := hroots idx (by simp)
    have hget := getElem?_eq_getElem (show info.cell_count - idx - 1 < cells.length by omega)
    rw [root_cells, at_index_eq hget, of_ok_bind, ih fun idx hidx => hroots idx (by simp [hidx]), of_ok_bind, map_cons, hget]
    rfl

theorem check_crc32c_eq (crc32c : List Byte → BitVec 32) (hlen : info.has_crc32c = true → 4 ≤ data.length) :
    check_crc32c data info crc32c =
      .of (if info.has_crc32c && ofBytes (data.drop (data.length - 4)).reverse ≠ (crc32c (data.take (data.length - 4))).toNat then
        .error
          s!"bag-of-cells CRC32C mismatch: expected {(crc32c (data.take (data.length - 4))).toNat}, found {ofBytes (data.drop (data.length - 4)).reverse}"
      else .ok ()) := by
  rw [check_crc32c]
  cases hc : info.has_crc32c with
  | false => rfl
  | true =>
    have hlen := hlen hc
    have hbuf : Ton.substr data 0 (data.length - 4) = data.take (data.length - 4) := rfl
    have hstored : Ton.substr data (data.length - 4) 4 = data.drop (data.length - 4) := by
      rw [Ton.substr, take_of_length_le (by rw [length_drop]; omega)]
    rw [if_pos rfl, need, if_pos hlen, of_ok_bind, read_eq (by omega), of_ok_bind, read_eq (by omega), of_ok_bind, hbuf, hstored]
    by_cases hne : ofBytes (data.drop (data.length - 4)).reverse ≠ (crc32c (data.take (data.length - 4))).toNat
    · rw [if_pos hne, if_pos (by simp [hne])]
    · rw [if_neg hne, if_neg (by simp [hne])]
      rfl

theorem get_index_refines {slice s : Slice} (hslice : slice.ubegin = 0 ∧ slice.size = data.length) (hs : s.Inside data)
    (hend : info.has_index = true → info.index_offset + info.cell_count * info.offset_byte_size ≤ data.length) :
    Refines (fun a b => a.Has data info b) (get_index data info slice s)
      (if info.has_index then .ok (read_index info (data.drop info.index_offset))
        else Boc.scan_cells info.ref_byte_size info.cell_count 0 (s.bytes data) 0) := by
  obtain ⟨h0, hsize⟩ := hslice
  rw [get_index]
  refine .ite (fun hi => ?_) fun hi => ?_
  · have hend := hend hi
    rw [Slice.suffix_eq (by omega), of_ok_bind, h0, Nat.zero_add]
    exact .ok ⟨hend, rfl⟩
  · have hscan := scan_cells_refines hs info.ref_byte_size info.cell_count 0 0
    cases hy : Boc.scan_cells info.ref_byte_size info.cell_count 0 (s.bytes data) 0 with
    | error e =>
      rw [hy] at hscan
      rw [hscan.eq_of]
      exact .error e
    | ok l =>
      rw [hy] at hscan
      rw [hscan.eq_of, of_ok_bind]
      exact .ok ⟨rfl, scan_cells_length hy⟩

end Bag

/-- Reading from memory is defined for every input, and comes to what reading its bytes comes to. -/
theorem deserialize_refines (crc32c : List Byte → BitVec 32) (data : List Byte) {max_roots : Nat} (hmax : max_roots ≤ 2 ^ 29) :
    Refines Eq (deserialize crc32c data max_roots) (Boc.deserialize crc32c data max_roots) := by
  have hparse := parse_refines data
  unfold deserialize Boc.deserialize
  dsimp only
  cases hy : Boc.parse_serialized_header data with
  | error e =>
    rw [hy] at hparse
    rw [hparse.eq_of, attempt_of, of_ok_bind]
    exact .ite (fun _ => .error _) fun _ => .ok rfl
  | ok info =>
    rw [hy] at hparse
    rw [hparse.eq_of, attempt_of, of_ok_bind]
    have ha := accepted hy
    dsimp only
    refine .ite (fun _ => .ok rfl) fun htotal => ?_
    refine .ite (fun _ => .error _) fun hroots => ?_
    have hin := ha.within (Nat.le_of_not_lt htotal)
    have hint : info.root_count * info.ref_byte_size ≤ 2 ^ 31 :=
      calc info.root_count * info.ref_byte_size ≤ 2 ^ 29 * 4 := Nat.mul_le_mul (by omega) ha.ref_byte_size.2
        _ = 2 ^ 31 := rfl
    rw [check_crc32c_eq crc32c hin.crc32c]
    generalize hcond : (info.has_crc32c && decide (ofBytes (data.drop (data.length - 4)).reverse ≠
      (crc32c (data.take (data.length - 4))).toNat)) = cond
    cases cond with
    | true => exact .error _
    | false =>
      simp only [Bool.false_eq_true, if_false]
      rw [of_ok_bind, Slice.suffix_eq hin.roots_offset, of_ok_bind]
      simp only [Nat.zero_add]
      refine (read_roots_refines (by simpa only [Nat.zero_add] using hin.roots) (by rwa [Nat.zero_add]) ha.ref_byte_size.1).bind ?_
      rintro roots _ - ⟨rfl, hroots⟩
      have hs : (⟨info.data_offset, info.data_size⟩ : Slice).Inside data := hin.data
      have hend := hin.data
      rw [Slice.substr_eq (by simp only; omega), of_ok_bind]
      simp only [Nat.zero_add]
      rw [min_eq_left (by omega)]
      rw [ite_bind]
      have hwhole : (⟨0, data.length⟩ : Slice).ubegin = 0 ∧ (⟨0, data.length⟩ : Slice).size = data.length := ⟨rfl, rfl⟩
      refine (get_index_refines hwhole hs hin.index).bind ?_
      rintro index entries - hidx
      refine (deserialize_cells_refines hidx hs (le_refl _) (by simp) (by rw [foldl_use_length, length_replicate])).bind ?_
      rintro p _ - ⟨rfl, hcells, hcounts⟩
      rw [check_cache_bits_eq hidx hcounts (fun idx hmem => mem_range.1 hmem)]
      obtain ⟨cells, counts⟩ := p
      dsimp only
      cases List.find? (fun idx => info.has_cache_bits && decide (counts.getD idx 0 > 1) != Boc.get_cache_entry info entries idx)
          (List.range info.cell_count) with
      | some idx => exact .error _
      | none =>
        dsimp only
        rw [of_ok_bind, root_cells_eq hcells hroots]
        exact .ok rfl

end Memory

/-! ## What was built -/

/-- The cells of a bag, from the last one on: each is one that `create` makes, and refers to later ones only. -/
structure Built (n : Nat) (cells : List DataCell) : Prop where
  made : ∀ c ∈ cells, c.Made
  refs : ∀ (idx : Nat) (c : DataCell), idx < n → cells[n - idx - 1]? = some c →
    ∀ r ∈ c.refs, ∃ j, idx < j ∧ j < n ∧ cells[n - j - 1]? = some r

section Built
variable {info : Info} {index : List Nat} {data : List Byte} {cells : List DataCell}

theorem read_refs_ok {s : List Byte} {idx refs_offset n k : Nat} {refs : List (DataCell × Nat)}
    (h : read_refs info cells idx s refs_offset n k = .ok refs) :
    ∀ p ∈ refs, idx < p.2 ∧ p.2 < info.cell_count ∧ cells[info.cell_count - p.2 - 1]? = some p.1 := by
  induction n generalizing k refs with
  | zero =>
    cases h
    simp
  | succ n ih =>
    rw [read_refs] at h
    simp only [ite_error_ok] at h
    obtain ⟨hgt, hlt, h⟩ := h
    split at h
    · cases h
    · next cell hcell =>
      obtain ⟨rest, hrest, h⟩ := bind_ok.1 h
      cases h
      intro p hp
      rcases mem_cons.1 hp with rfl | hp
      · exact ⟨by simp only; omega, by simp only; omega, hcell⟩
      · exact ih hrest p hp

theorem create_data_cell_ok {cell_info : CellSerializationInfo} {s : List Byte} {refs : List DataCell} {c : DataCell}
    (h : cell_info.create_data_cell s refs = .ok c) : ∃ bits, DataCell.create bits refs cell_info.special = .ok c := by
  unfold CellSerializationInfo.create_data_cell at h
  obtain ⟨bits, -, h⟩ := bind_ok.1 h
  obtain ⟨res, hres, h⟩ := bind_ok.1 h
  simp only [ite_error_ok] at h
  obtain ⟨-, -, h⟩ := h
  split at h
  · obtain ⟨-, -, h⟩ := bind_ok.1 h
    cases h
    exact ⟨_, hres⟩
  · cases h
    exact ⟨_, hres⟩

/-- A cell that was read refers to cells with greater indices, which are there already. -/
theorem deserialize_cell_ok {idx : Nat} {counts counts' : List Nat} {c : DataCell}
    (h : deserialize_cell info index idx data cells counts = .ok (c, counts')) :
    (∃ bits special, DataCell.create bits c.refs special = .ok c) ∧
      ∀ r ∈ c.refs, ∃ j, idx < j ∧ j < info.cell_count ∧ cells[info.cell_count - j - 1]? = some r := by
  unfold deserialize_cell at h
  obtain ⟨s, -, h⟩ := bind_ok.1 h
  obtain ⟨cell_info, -, h⟩ := bind_ok.1 h
  rw [ite_error_ok] at h
  obtain ⟨refs, hrefs, h⟩ := bind_ok.1 h.2
  obtain ⟨c', hc, h⟩ := bind_ok.1 h
  cases h
  obtain ⟨bits, hcreate⟩ := create_data_cell_ok hc
  obtain ⟨-, -, e⟩ := DataCell.create_fields hcreate
  refine ⟨⟨bits, cell_info.special, by rw [e]; exact hcreate⟩, ?_⟩
  intro r hr
  rw [e] at hr
  obtain ⟨p, hp, rfl⟩ := mem_map.1 hr
  exact ⟨p.2, read_refs_ok hrefs p hp⟩

theorem deserialize_cells_built {n : Nat} {counts counts' : List Nat} {cells' : List DataCell} (hn : n + cells.length = info.cell_count)
    (hb : Built info.cell_count cells) (h : deserialize_cells info index data n cells counts = .ok (cells', counts')) :
    Built info.cell_count cells' ∧ cells'.length = info.cell_count := by
  induction n generalizing cells counts with
  | zero =>
    cases h
    exact ⟨hb, by omega⟩
  | succ idx ih =>
    rw [deserialize_cells] at h
    split at h
    · cases h
    · next c counts₁ hcell =>
      obtain ⟨⟨bits, special, hcreate⟩, hrefs⟩ := deserialize_cell_ok hcell
      have hold : ∀ {k : Nat} {r : DataCell}, cells[k]? = some r → (cells ++ [c])[k]? = some r := by
        intro k r hk
        rw [getElem?_append_left (List.getElem?_eq_some_iff.1 hk).1, hk]
      have hlen : idx + (cells ++ [c]).length = info.cell_count := by
        rw [length_append, length_singleton]
        omega
      refine ih hlen ⟨?_, ?_⟩ h
      · intro d hd
        rcases mem_append.1 hd with hd | hd
        · exact hb.made d hd
        · rw [mem_singleton.1 hd]
          refine .create (fun r hr => ?_) hcreate
          obtain ⟨j, -, -, hj⟩ := hrefs r hr
          exact hb.made r (mem_of_getElem? hj)
      · intro i d hi hd r hr
        by_cases hlt : info.cell_count - i - 1 < cells.length
        · rw [getElem?_append_left hlt] at hd
          obtain ⟨j, hij, hj, hget⟩ := hb.refs i d hi hd r hr
          exact ⟨j, hij, hj, hold hget⟩
        · have hend := (List.getElem?_eq_some_iff.1 hd).1
          rw [length_append, length_singleton] at hend
          rw [show info.cell_count - i - 1 = cells.length by omega, getElem?_concat_length] at hd
          cases hd
          obtain ⟨j, hij, hj, hget⟩ := hrefs r hr
          exact ⟨j, by omega, hj, hold hget⟩

theorem read_roots_ok {ptr : List Byte} {n i : Nat} {ks : List Nat} (h : read_roots info ptr n i = .ok ks) :
    ∀ k ∈ ks, k < info.cell_count := by
  induction n generalizing i ks with
  | zero =>
    cases h
    simp
  | succ n ih =>
    rw [read_roots] at h
    simp only [ite_error_ok] at h
    obtain ⟨hlt, h⟩ := h
    obtain ⟨rest, hrest, h⟩ := bind_ok.1 h
    cases h
    intro k hk
    rcases mem_cons.1 hk with rfl | hk
    · omega
    · exact ih hrest k hk

end Built

theorem parse_ends (data : List Byte) : Ends (fun e : Int => e ≤ 0) (parse_serialized_header data) fun _ => True := by
  unfold parse_serialized_header
  dsimp only
  repeat refine .ite (fun _ => .error (by omega)) fun _ => ?_
  exact .ok trivial

/-- A bag is read, or refused, from any bytes: nothing outside them is read, what is asked for is a
negative size, and the cells that were built are proper ones that refer to later ones only. Callers
take at most `default_max_roots = 16384` roots. -/
theorem deserialize_safe (crc32c : List Byte → BitVec 32) (data : List Byte) (max_roots : Nat) (hmax : max_roots ≤ 2 ^ 29) :
    Memory.deserialize crc32c data max_roots = .of (deserialize crc32c data max_roots) ∧
    ∀ (size : Int) (roots : List (Option DataCell)), deserialize crc32c data max_roots = .ok (size, roots) →
      size < 0 ∧ roots = [] ∨
      ∃ info idxs index counts cells counts', parse_serialized_header data = .ok info ∧
        size = info.total_size ∧ 0 < size ∧ size ≤ data.length ∧
        read_roots info (data.drop info.roots_offset) info.root_count 0 = .ok idxs ∧
        deserialize_cells info index (substr data info.data_offset info.data_size) info.cell_count [] counts = .ok (cells, counts') ∧
        cells.length = info.cell_count ∧ Built info.cell_count cells ∧ (∀ i ∈ idxs, i < info.cell_count) ∧
        roots = idxs.map fun i => cells[info.cell_count - i - 1]? := by
  refine ⟨(Memory.deserialize_refines crc32c data hmax).eq_of, ?_⟩
  intro size roots h
  rw [deserialize] at h
  cases hy : parse_serialized_header data with
  | error e =>
    rw [hy] at h
    dsimp only at h
    rw [ite_error_ok] at h
    obtain ⟨hne, h⟩ := h
    cases h
    have hle : size ≤ 0 := (parse_ends data).bad_of_error hy
    exact .inl ⟨by omega, rfl⟩
  | ok info =>
    have ha := accepted hy
    have hpos : 0 < info.total_size := by
      have h1 := ha.total_size
      have h2 := ha.data_offset
      have h3 := ha.index_offset
      have h4 := ha.roots_offset
      omega
    rw [hy] at h
    dsimp only at h
    by_cases htotal : info.total_size > data.length
    · rw [if_pos htotal] at h
      cases h
      exact .inl ⟨by omega, rfl⟩
    · rw [if_neg htotal] at h
      simp only [ite_error_ok] at h
      obtain ⟨-, -, h⟩ := h
      obtain ⟨idxs, hidxs, h⟩ := bind_ok.1 h
      rw [ite_bind] at h
      obtain ⟨index, -, h⟩ := bind_ok.1 h
      obtain ⟨⟨cells, counts'⟩, hcells, h⟩ := bind_ok.1 h
      split at h
      · cases h
      · cases h
        obtain ⟨hb, hlen⟩ := deserialize_cells_built (by simp) ⟨by simp, by simp⟩ hcells
        exact .inr ⟨info, idxs, index, _, cells, counts', rfl, rfl, by omega, by omega, hidxs, hcells, hlen, hb,
          read_roots_ok hidxs, rfl⟩

/-- A cell of one byte that refers to an empty cell twice. -/
theorem deserialize_safe_two_cells :
    let data : List Byte := [0xb5, 0xee, 0x9c, 0x72, 0x01, 0x01, 0x02, 0x01, 0x00, 0x07, 0x00, 0x02, 0x02, 0xab, 0x01, 0x01, 0x00, 0x00]
    Memory.deserialize (fun _ => 0) data 16384 = .of (deserialize (fun _ => 0) data 16384) ∧
      (deserialize (fun _ => 0) data 16384).toOption.map Prod.fst = some 18 :=
  ⟨(deserialize_safe _ _ 16384 (by decide)).1, by decide +kernel⟩

end Ton.Boc
