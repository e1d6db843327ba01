import Mathlib.Data.Nat.Init
import Ton.Boc.Cell
/-!
# Bags of cells

`boc.cpp`: a list of root cells is imported into a list of distinct cells, the list
is reordered, and the bytes are written from its end to its start, so that every
reference goes forward. The hash map `cells` is a search in the list, and the
counters `cell_count` and `root_count` are lengths. `crc32c` is a parameter.
-/

namespace Ton.Boc

open BigEndian CellTraits Result

/-- The representation hash. -/
abbrev hash (c : DataCell) : Hash := c.get_hash max_level

/-- `new_idx`: negative until the cell is allocated. -/
inductive NewIdx where
  /-- `-1`. -/
  | unseen
  /-- `-2`. -/
  | previsited
  /-- `-3`: all children are allocated. -/
  | visited
  | allocated (i : Nat)
  deriving DecidableEq

structure CellInfo where
  dc_ref : DataCell
  ref_idx : List Nat
  wt : Nat
  hcnt : Nat
  new_idx : NewIdx := .unseen
  should_cache : Bool := false
  is_root_cell : Bool := false

def CellInfo.is_special (ci : CellInfo) : Bool := ci.wt = 0

/-- The index of a root is set by `import_cells`. -/
structure RootInfo where
  cell : DataCell
  idx : Nat := 0

structure BagOfCells where
  roots : List RootInfo := []
  cell_list : List CellInfo := []
  int_refs : Nat := 0
  data_bytes : Nat := 0
  int_hashes : Nat := 0
  top_hashes : Nat := 0

structure Mode where
  WithIndex : Bool := false
  WithCRC32C : Bool := false
  WithTopHash : Bool := false
  WithIntHashes : Bool := false
  WithCacheBits : Bool := false

def max_cell_whs : Nat := 64

namespace BagOfCells

def cell_count (b : BagOfCells) : Nat := b.cell_list.length

def root_count (b : BagOfCells) : Nat := b.roots.length

def add_root (b : BagOfCells) (root : DataCell) : BagOfCells :=
  { b with roots := b.roots ++ [⟨root, 0⟩], cell_list := [], int_refs := 0, data_bytes := 0 }

def add_roots (b : BagOfCells) (roots : List DataCell) : BagOfCells := roots.foldl add_root b

/-! ## Import -/

/-- `cells.find`. -/
def find (b : BagOfCells) (h : Hash) : Option Nat := b.cell_list.findIdx? fun ci => hash ci.dc_ref == h

def cache (b : BagOfCells) (pos : Nat) : BagOfCells :=
  { b with cell_list := b.cell_list.modify pos fun ci => { ci with should_cache := true } }

def wt_at (l : List CellInfo) (i : Nat) : Nat := (l[i]?.map CellInfo.wt).getD 0

/-- A new cell at the end of the list. -/
def emplace (b : BagOfCells) (dc : DataCell) (refs : List Nat) (sum_child_wt : Nat) : BagOfCells :=
  { b with
    cell_list := b.cell_list ++ [⟨dc, refs, min 0xff sum_child_wt, dc.get_level_mask.get_hashes_count, .unseen, false, false⟩]
    data_bytes := b.data_bytes + dc.get_serialized_size false }

mutual

/-- Returns the index of the cell. -/
def import_cell : DataCell → Nat → BagOfCells → Except String (BagOfCells × Nat)
  | .mk special data refs level_mask hashes depths, depth, b =>
    let cell : DataCell := .mk special data refs level_mask hashes depths
    if depth > max_depth then .error "error while importing a cell into a bag of cells: cell depth too large"
    else match b.find (hash cell) with
      | some pos => .ok (b.cache pos, pos)
      | none => do
        let (b, refs, sum_child_wt) ← import_refs refs (depth + 1) b 1
        .ok (b.emplace cell refs sum_child_wt, b.cell_count)

/-- The loop over the references: their indices, and the sum of weights. -/
def import_refs : List DataCell → Nat → BagOfCells → Nat → Except String (BagOfCells × List Nat × Nat)
  | [], _, b, sum => .ok (b, [], sum)
  | cell :: cells, depth, b, sum => do
    let (b, ref) ← import_cell cell depth b
    let (b, refs, sum) ← import_refs cells depth { b with int_refs := b.int_refs + 1 } (sum + wt_at b.cell_list ref)
    .ok (b, ref :: refs, sum)

end

/-! ## Weights -/

def set_wt (l : List CellInfo) (i wt : Nat) : List CellInfo := l.modify i fun ci => { ci with wt }

/-- One step of the first loop of `reorder_cells`: the weights of the children of a
cell are limited so that their sum is below `max_cell_whs`. -/
def limit_children (l : List CellInfo) (i : Nat) : List CellInfo :=
  match l[i]? with
  | none => l
  | some dci =>
    let s := dci.ref_idx.length
    let refs := dci.ref_idx.zipIdx.map fun (r, j) => (r, decide (wt_at l r ≤ (max_cell_whs - 1 + j) / s))
    let c := refs.countP fun (_, fits) => !fits
    let sum : Int := refs.foldl (fun sum (r, fits) => if fits then sum - wt_at l r else sum) (max_cell_whs - 1)
    (refs.foldl (fun (l, sum) (r, fits) =>
      if fits then (l, sum)
      else
        let limit := sum.tdiv c
        (if wt_at l r > limit then set_wt l r (limit.toNat % 256) else l, sum + 1)) (l, sum)).1

/-- One step of the second loop: a cell heavier than its children allow becomes special. -/
def settle_weight (l : List CellInfo) (i : Nat) : List CellInfo :=
  match l[i]? with
  | none => l
  | some dci =>
    let sum := 1 + (dci.ref_idx.map (wt_at l)).sum
    set_wt l i (if sum ≤ dci.wt then sum else 0)

def weigh (l : List CellInfo) : List CellInfo :=
  (List.range l.length).foldl settle_weight ((List.range l.length).reverse.foldl limit_children l)

/-! ## Reordering -/

/-- The list under reordering, and `cell_list_tmp`, whose length is `rv_idx`. -/
structure Revisit where
  cell_list : List CellInfo
  tmp : List CellInfo := []

def Revisit.new_idx (s : Revisit) (i : Nat) : Nat :=
  match s.cell_list[i]?.map CellInfo.new_idx with
  | some (.allocated k) => k
  | _ => 0

def Revisit.is_special (s : Revisit) (i : Nat) : Bool := (s.cell_list[i]?.map CellInfo.is_special).getD false

def Revisit.set (s : Revisit) (i : Nat) (ci : CellInfo) : Revisit := { s with cell_list := s.cell_list.set i ci }

inductive Force where
  /-- `0`: recursively until special cells are found, then visit them. -/
  | previsit
  /-- `1`: allocate and process all children. -/
  | visit
  /-- `2`: assign a new index. -/
  | allocate

/-- `revisit`, which returns the new index of the cell. The children of a cell that was
not visited stand before it in the list. -/
def revisit (force : Force) (cell_idx : Nat) (s : Revisit) : Revisit :=
  match s.cell_list[cell_idx]? with
  | none => s
  | some dci =>
    match force, dci.new_idx with
    | _, .allocated _ => s
    | .previsit, .unseen =>
      let s := dci.ref_idx.reverse.foldl (fun s child =>
        if _h : child < cell_idx then revisit (if s.is_special child then .visit else .previsit) child s else s) s
      s.set cell_idx { dci with new_idx := .previsited }
    | .previsit, _ => s
    | .allocate, _ =>
      let dci := { dci with new_idx := .allocated s.tmp.length }
      { s.set cell_idx dci with tmp := s.tmp ++ [dci] }
    | .visit, .visited => s
    | .visit, _ =>
      let s := if dci.is_special then revisit .previsit cell_idx s else s
      let s := dci.ref_idx.reverse.foldl (fun s child => if _h : child < cell_idx then revisit .visit child s else s) s
      let (s, ref_idx) := dci.ref_idx.reverse.foldl (fun (s, refs) child =>
        if _h : child < cell_idx then
          let s := revisit .allocate child s
          (s, s.new_idx child :: refs)
        else (s, refs)) (s, [])
      s.set cell_idx { dci with ref_idx, new_idx := .visited }
termination_by (cell_idx, match force with | .previsit => 0 | _ => 1)

def reorder_cells (b : BagOfCells) : BagOfCells :=
  let l := weigh b.cell_list
  let s := b.roots.foldl (fun s root => revisit .visit root.idx (revisit .previsit root.idx s)) (⟨l, []⟩ : Revisit)
  let s := b.roots.foldl (fun s root => revisit .allocate root.idx s) s
  { b with
    int_hashes := ((l.filter fun ci => ci.wt = 0).map CellInfo.hcnt).sum
    top_hashes := (b.roots.map fun root => match l[root.idx]? with
      | some ci => if ci.is_root_cell && ci.wt ≠ 0 then ci.hcnt else 0
      | none => 0).sum
    roots := b.roots.map fun root => { root with idx := s.new_idx root.idx }
    cell_list := s.tmp }

def import_roots : List RootInfo → BagOfCells → Except String (BagOfCells × List RootInfo)
  | [], b => .ok (b, [])
  | root :: roots, b => do
    let (b, idx) ← import_cell root.cell 0 b
    let (b, roots) ← import_roots roots b
    .ok (b, { root with idx } :: roots)

def import_cells (b : BagOfCells) : Except String BagOfCells := do
  let (b, roots) ← import_roots b.roots { roots := b.roots }
  let b := reorder_cells { b with roots }
  if b.cell_count = 0 then .error "check failed: cell_count != 0" else .ok b

end BagOfCells

/-! ## Sizes -/

/-- The loops of `compute_sizes`: the first `bytes` from the given one on that hold `n`. -/
def count_bytes (n bytes : Nat) : Nat := if _h : n ≥ 256 ^ bytes then count_bytes n (bytes + 1) else bytes
termination_by n - bytes
decreasing_by
  have : bytes < 256 ^ bytes := Nat.lt_pow_self (by decide)
  omega

structure Info where
  magic : Nat
  root_count : Nat
  cell_count : Nat
  absent_count : Nat
  ref_byte_size : Nat
  offset_byte_size : Nat
  has_index : Bool
  has_roots : Bool
  has_crc32c : Bool
  has_cache_bits : Bool
  roots_offset : Nat
  index_offset : Nat
  data_offset : Nat
  data_size : Nat
  total_size : Nat

def boc_idx : Nat := 0x68ff65f3
def boc_idx_crc32c : Nat := 0xacc3a728
def boc_generic : Nat := 0xb5ee9c72

namespace BagOfCells

/-- The size of the cell data, `ref_byte_size` and `offset_byte_size`; zeros on failure. -/
def compute_sizes (b : BagOfCells) (mode : Mode) : Nat × Nat × Nat :=
  if b.root_count = 0 ∨ b.data_bytes = 0 then (0, 0, 0)
  else
    let rs := count_bytes b.cell_count 0
    let hashes := ((if mode.WithTopHash then b.top_hashes else 0) + (if mode.WithIntHashes then b.int_hashes else 0)) *
      (hash_bytes + depth_bytes)
    let data_bytes_adj := b.data_bytes + b.int_refs * rs + hashes
    let os := count_bytes (if mode.WithCacheBits then data_bytes_adj * 2 else data_bytes_adj) 0
    if rs > 4 ∨ os > 8 then (0, 0, 0) else (data_bytes_adj, rs, os)

/-- `info` as `estimate_serialized_size` sets it; `none` is a size of zero. The bytes of the roots are an
`int` of the source, which holds them below `2 ^ 29` roots. -/
def estimate (b : BagOfCells) (mode : Mode) : Option Info :=
  if mode.WithCacheBits && !mode.WithIndex then none
  else
    let (data_bytes_adj, rs, os) := b.compute_sizes mode
    if data_bytes_adj = 0 then none
    else
      let roots_offset := 4 + 1 + 1 + 3 * rs + os
      let index_offset := roots_offset + b.root_count * rs
      let data_offset := index_offset + if mode.WithIndex then b.cell_count * os else 0
      some
        { magic := boc_generic, root_count := b.root_count, cell_count := b.cell_count, absent_count := 0
          ref_byte_size := rs, offset_byte_size := os, has_index := mode.WithIndex, has_roots := false
          has_crc32c := mode.WithCRC32C, has_cache_bits := mode.WithCacheBits, roots_offset, index_offset, data_offset
          data_size := data_bytes_adj, total_size := data_offset + data_bytes_adj + if mode.WithCRC32C then 4 else 0 }

def estimate_serialized_size (b : BagOfCells) (mode : Mode) : Nat := ((b.estimate mode).map Info.total_size).getD 0

/-! ## Writing -/

def with_hash (mode : Mode) (ci : CellInfo) : Bool :=
  (mode.WithIntHashes && ci.wt = 0) || (ci.is_root_cell && mode.WithTopHash)

/-- The size of a cell with its references. -/
def stored_size (mode : Mode) (rs : Nat) (ci : CellInfo) : Nat :=
  ci.dc_ref.get_serialized_size (with_hash mode ci) + ci.dc_ref.get_refs_cnt * rs

/-- The index: where each cell of the list ends, after `offs` bytes. -/
def store_index (mode : Mode) (info : Info) : List CellInfo → Nat → List Byte
  | [], _ => []
  | ci :: cells, offs =>
    let offs := offs + stored_size mode info.ref_byte_size ci
    toBytes info.offset_byte_size (if info.has_cache_bits then offs * 2 + ci.should_cache.toNat else offs) ++
      store_index mode info cells offs

/-- One cell and its references, which count from the end of the list. -/
def store_cell (mode : Mode) (info : Info) (cell_count : Nat) (ci : CellInfo) : List Byte :=
  ci.dc_ref.serialize 256 (with_hash mode ci) ++
    ci.ref_idx.flatMap fun r => toBytes info.ref_byte_size (cell_count - 1 - r)

/-- The bytes before the CRC. -/
def store_all (b : BagOfCells) (mode : Mode) (info : Info) : List Byte :=
  toBytes 4 info.magic ++
  toBytes 1 (128 * info.has_index.toNat + 64 * info.has_crc32c.toNat + 32 * info.has_cache_bits.toNat + info.ref_byte_size) ++
  toBytes 1 info.offset_byte_size ++
  toBytes info.ref_byte_size b.cell_count ++
  toBytes info.ref_byte_size b.root_count ++
  toBytes info.ref_byte_size 0 ++
  toBytes info.offset_byte_size info.data_size ++
  (b.roots.flatMap fun root => toBytes info.ref_byte_size (b.cell_count - 1 - root.idx)) ++
  (if info.has_index then store_index mode info b.cell_list.reverse 0 else []) ++
  b.cell_list.reverse.flatMap (store_cell mode info b.cell_count)

/-- The CRC is stored with its low byte first. -/
def serialize_to (crc32c : List Byte → BitVec 32) (b : BagOfCells) (mode : Mode) : List Byte :=
  match b.estimate mode with
  | none => []
  | some info =>
    if info.ref_byte_size < 1 ∨ info.ref_byte_size > 7 then []
    else
      let buffer := b.store_all mode info
      buffer ++ if info.has_crc32c then (toBytes 4 (crc32c buffer).toNat).reverse else []

def serialize_to_slice (crc32c : List Byte → BitVec 32) (b : BagOfCells) (mode : Mode) : Except String (List Byte) :=
  let size_est := b.estimate_serialized_size mode
  if size_est = 0 then .error "no cells to serialize to this bag of cells"
  else
    let res := serialize_to crc32c b mode
    if res.length = size_est then .ok res
    else .error "error while serializing a bag of cells: actual serialized size differs from estimated"

end BagOfCells

/-! ## Reading -/

/-- An error is the value returned instead of the total size: zero for an invalid header,
minus the size wanted when there are too few bytes. -/
def parse_serialized_header (slice : List Byte) : Except Int Info :=
  let sz := min slice.length 0xffff
  if sz < 4 then .error (-10)
  else
    let magic := read_int slice 4
    if magic ≠ boc_generic ∧ magic ≠ boc_idx ∧ magic ≠ boc_idx_crc32c then .error 0
    else if sz < 5 then .error (-10)
    else
      let byte := (byteAt slice 4).toNat
      let has_index : Bool := if magic = boc_generic then byte / 128 % 2 = 1 else true
      let has_crc32c : Bool := if magic = boc_generic then byte / 64 % 2 = 1 else magic = boc_idx_crc32c
      let has_cache_bits : Bool := if magic = boc_generic then byte / 32 % 2 = 1 else false
      let ref_byte_size := byte % 8
      if has_cache_bits && !has_index then .error 0
      else if ref_byte_size > 4 ∨ ref_byte_size < 1 then .error 0
      else if sz < 6 then .error (-7 - 3 * ref_byte_size)
      else
        let offset_byte_size := (byteAt slice 5).toNat
        if offset_byte_size > 8 ∨ offset_byte_size < 1 then .error 0
        else
          let roots_offset := 6 + 3 * ref_byte_size + offset_byte_size
          let ptr := slice.drop 6
          let sz := sz - 6
          if sz < ref_byte_size then .error (-roots_offset)
          else
            -- the counts are read as `int`
            let cell_count := read_int ptr ref_byte_size
            if cell_count = 0 ∨ cell_count ≥ 2 ^ 31 then .error 0
            else if sz < 2 * ref_byte_size then .error (-roots_offset)
            else
              let root_count := read_int (ptr.drop ref_byte_size) ref_byte_size
              if root_count = 0 ∨ root_count ≥ 2 ^ 31 then .error 0
              else if magic ≠ boc_generic ∧ root_count ≠ 1 then .error 0
              else
                let index_offset := roots_offset + if magic = boc_generic then root_count * ref_byte_size else 0
                let data_offset := index_offset + if has_index then cell_count * offset_byte_size else 0
                if sz < 3 * ref_byte_size then .error (-roots_offset)
                else
                  let absent_count := read_int (ptr.drop (2 * ref_byte_size)) ref_byte_size
                  if absent_count ≥ 2 ^ 31 ∨ absent_count > cell_count then .error 0
                  else if sz < 3 * ref_byte_size + offset_byte_size then .error (-roots_offset)
                  else
                    let data_size := read_int (ptr.drop (3 * ref_byte_size)) offset_byte_size
                    if data_size > cell_count * 2 ^ 10 then .error 0
                    else if data_size > 2 ^ 40 then .error 0
                    else if data_size < cell_count * (2 + ref_byte_size) - ref_byte_size then .error 0
                    else .ok
                      { magic, root_count, cell_count, absent_count, ref_byte_size, offset_byte_size, has_index
                        has_roots := magic = boc_generic, has_crc32c, has_cache_bits, roots_offset, index_offset
                        data_offset, data_size, total_size := data_offset + data_size + if has_crc32c then 4 else 0 }

/-- `custom_index`, built by walking over the cells when there is no index. -/
def scan_cells (rs : Nat) : Nat → Nat → List Byte → Nat → Except String (List Nat)
  | 0, i, cells_slice, cur =>
    if cells_slice = [] then .ok []
    else .error s!"invalid bag-of-cells last cell #{i - 1}: end offset {cur} is different from total data size {cur + cells_slice.length}"
  | n + 1, i, cells_slice, cur =>
    match CellSerializationInfo.init cells_slice rs with
    | .error e => .error s!"invalid bag-of-cells failed to deserialize cell #{i} {e}"
    | .ok cell_info => do
      let rest ← scan_cells rs n (i + 1) (cells_slice.drop cell_info.end_offset) (cur + cell_info.end_offset)
      .ok ((cur + cell_info.end_offset) :: rest)

/-- `get_idx_entry_raw`; index `i + 1` stands for the entry of cell `i`. -/
def get_idx_entry_raw (info : Info) (index : List Nat) : Nat → Nat
  | 0 => 0
  | i + 1 => if i < info.cell_count then index.getD i 0 else 0

def get_idx_entry (info : Info) (index : List Nat) (i : Nat) : Nat :=
  if info.has_cache_bits then get_idx_entry_raw info index i / 2 else get_idx_entry_raw info index i

def get_cache_entry (info : Info) (index : List Nat) (i : Nat) : Bool :=
  if !info.has_cache_bits || !info.has_index then true else get_idx_entry_raw info index (i + 1) % 2 = 1

/-- A counter of uses that stops at two. -/
def use (counts : List Nat) (i : Nat) : List Nat := counts.modify i fun cnt => if cnt < 2 then cnt + 1 else cnt

def get_cell_slice (info : Info) (index : List Nat) (idx : Nat) (data : List Byte) : Except String (List Byte) :=
  let offs := get_idx_entry info index idx
  let offs_end := get_idx_entry info index (idx + 1)
  if offs > offs_end ∨ offs_end > data.length then
    .error s!"invalid index entry [{offs}; {offs_end}], [data.size():{data.length}]"
  else .ok (substr data offs (offs_end - offs))

/-- The references of the cell `idx`: the cells, and the indices. `cells` has the cells
from the last one of the bag on. -/
def read_refs (info : Info) (cells : List DataCell) (idx : Nat) (cell_slice : List Byte) (refs_offset : Nat) :
    Nat → Nat → Except String (List (DataCell × Nat))
  | 0, _ => .ok []
  | n + 1, k =>
    let ref_idx := read_int (cell_slice.drop (refs_offset + k * info.ref_byte_size)) info.ref_byte_size
    -- `(int)` of four bytes may be negative
    if ref_idx ≤ idx ∨ ref_idx ≥ 2 ^ 31 then
      .error s!"bag-of-cells error: reference #{k} of cell #{idx} is to cell #{ref_idx} with smaller index"
    else if ref_idx ≥ info.cell_count then
      .error s!"bag-of-cells error: reference #{k} of cell #{idx} is to non-existent cell #{ref_idx}, only {info.cell_count} cells are defined"
    else match cells[info.cell_count - ref_idx - 1]? with
      | none => .error "null reference"
      | some cell => do
        let rest ← read_refs info cells idx cell_slice refs_offset n (k + 1)
        .ok ((cell, ref_idx) :: rest)

def deserialize_cell (info : Info) (index : List Nat) (idx : Nat) (cells_slice : List Byte) (cells : List DataCell)
    (cell_should_cache : List Nat) : Except String (DataCell × List Nat) := do
  let cell_slice ← get_cell_slice info index idx cells_slice
  let cell_info ← CellSerializationInfo.init cell_slice info.ref_byte_size
  if cell_info.end_offset ≠ cell_slice.length then .error "unused space in cell serialization"
  else do
    let refs ← read_refs info cells idx cell_slice cell_info.refs_offset cell_info.refs_cnt 0
    let cell ← cell_info.create_data_cell cell_slice (refs.map Prod.fst)
    .ok (cell, (refs.map Prod.snd).foldl use cell_should_cache)

/-- The loop over the cells, from the last one of the bag on, when `n` are left. -/
def deserialize_cells (info : Info) (index : List Nat) (cells_slice : List Byte) :
    Nat → List DataCell → List Nat → Except String (List DataCell × List Nat)
  | 0, cells, counts => .ok (cells, counts)
  | idx + 1, cells, counts =>
    match deserialize_cell info index idx cells_slice cells counts with
    | .error e => .error s!"invalid bag-of-cells failed to deserialize cell #{idx} {e}"
    | .ok (cell, counts) => deserialize_cells info index cells_slice idx (cells ++ [cell]) counts

/-- The indices of the roots in the bag. -/
def read_roots (info : Info) (roots_ptr : List Byte) : Nat → Nat → Except String (List Nat)
  | 0, _ => .ok []
  | n + 1, i =>
    let idx := if info.has_roots then read_int (roots_ptr.drop (i * info.ref_byte_size)) info.ref_byte_size else 0
    if idx ≥ info.cell_count then .error s!"bag-of-cells invalid root index {idx}"
    else do
      let rest ← read_roots info roots_ptr n (i + 1)
      .ok (idx :: rest)

/-- The entries of the index as stored. -/
def read_index (info : Info) (index_ptr : List Byte) : List Nat :=
  (List.range info.cell_count).map fun i => read_int (index_ptr.drop (i * info.offset_byte_size)) info.offset_byte_size

/-- Returns the size, which is negative when there are too few bytes, and the roots. -/
def deserialize (crc32c : List Byte → BitVec 32) (data : List Byte) (max_roots : Nat) :
    Except String (Int × List (Option DataCell)) :=
  match parse_serialized_header data with
  | .error size_est =>
    if size_est = 0 then .error s!"cannot deserialize bag-of-cells: invalid header, error {size_est}" else .ok (size_est, [])
  | .ok info =>
    if info.total_size > data.length then .ok (-info.total_size, [])
    else if info.root_count > max_roots then .error "Bag-of-cells has more root cells than expected"
    else if info.has_crc32c && ofBytes (data.drop (data.length - 4)).reverse ≠ (crc32c (data.take (data.length - 4))).toNat then
      .error
        s!"bag-of-cells CRC32C mismatch: expected {(crc32c (data.take (data.length - 4))).toNat}, found {ofBytes (data.drop (data.length - 4)).reverse}"
    else do
      let roots ← read_roots info (data.drop info.roots_offset) info.root_count 0
      let counts := roots.foldl use (List.replicate info.cell_count 0)
      let cells_slice := substr data info.data_offset info.data_size
      let index ← if info.has_index then .ok (read_index info (data.drop info.index_offset))
        else scan_cells info.ref_byte_size info.cell_count 0 cells_slice 0
      let (cells, counts) ← deserialize_cells info index cells_slice info.cell_count [] counts
      match (List.range info.cell_count).find? fun idx =>
          info.has_cache_bits && decide (counts.getD idx 0 > 1) != get_cache_entry info index idx with
      | some idx => .error s!"invalid bag-of-cells cell #{idx} has wrong cache flag {get_cache_entry info index idx}"
      | none => .ok (info.total_size, roots.map fun idx => cells[info.cell_count - idx - 1]?)

def std_boc_deserialize (crc32c : List Byte → BitVec 32) (data : List Byte) (can_be_empty : Bool) :
    Except String (Option DataCell) :=
  if data = [] ∧ can_be_empty then .ok none
  else do
    let (_, roots) ← deserialize crc32c data 1
    match roots with
    | [root] =>
      match root with
      | none => .error "bag of cells has null root cell (?)"
      | some root => if root.get_level ≠ 0 then .error "bag of cells has a root with non-zero level" else .ok (some root)
    | _ => .error "bag of cells is expected to have exactly one root"

/-- The roots are taken one by one. -/
def check_roots : List (Option DataCell) → Except String (List DataCell)
  | [] => .ok []
  | none :: _ => .error "bag of cells has a null root cell (?)"
  | some root :: roots =>
    if root.get_level ≠ 0 then .error "bag of cells has a root with non-zero level"
    else do
      let roots ← check_roots roots
      .ok (root :: roots)

def std_boc_deserialize_multi (crc32c : List Byte → BitVec 32) (data : List Byte) (max_roots : Nat) :
    Except String (List DataCell) :=
  if data = [] then .ok []
  else do
    let (_, roots) ← deserialize crc32c data max_roots
    check_roots roots

def std_boc_serialize (crc32c : List Byte → BitVec 32) (root : Option DataCell) (mode : Mode) : Except String (List Byte) :=
  match root with
  | none => .error "cannot serialize a null cell reference into a bag of cells"
  | some root => do
    let b ← (BagOfCells.add_root {} root).import_cells
    b.serialize_to_slice crc32c mode

def std_boc_serialize_multi (crc32c : List Byte → BitVec 32) (roots : List DataCell) (mode : Mode) :
    Except String (List Byte) :=
  if roots = [] then .ok []
  else do
    let b ← (BagOfCells.add_roots {} roots).import_cells
    b.serialize_to_slice crc32c mode

end Ton.Boc
