import Ton.Lib.Guarded
import Ton.Boc.BagOfCells
/-!
# Reading a bag from memory

The functions that read a bag, once more, with slices as addresses: every access is to
`n` bytes from an address on, and has no meaning unless all of them are in the input.
The same goes for an index past the end of a vector, an `int` that is too large and a
builder that is full.
-/

namespace Ton.Boc.Memory

open BigEndian CellTraits Guarded

structure Slice where
  ubegin : Nat
  size : Nat

namespace Slice
variable {ε : Type}

/-- `substr`, which checks `from`. -/
def substr (s : Slice) (offset size : Nat) : Guarded ε Slice := do
  need (offset ≤ s.size)
  pure ⟨s.ubegin + offset, min size (s.size - offset)⟩

/-- `substr` up to the end. -/
def suffix (s : Slice) (offset : Nat) : Guarded ε Slice := do
  need (offset ≤ s.size)
  pure ⟨s.ubegin + offset, s.size - offset⟩

end Slice

/-- An element of a vector. -/
def at_index {ε α : Type} (l : List α) (i : Nat) : Guarded ε α :=
  match l[i]? with
  | some a => pure a
  | none => undefined

section Read
variable {ε : Type} (data : List Byte)

def read (ptr n : Nat) : Guarded ε (List Byte) := do
  need (ptr + n ≤ data.length)
  pure (substr data ptr n)

def read_byte (ptr : Nat) : Guarded ε Byte := do
  need (ptr < data.length)
  pure (byteAt data ptr)

def read_int (ptr bytes : Nat) : Guarded ε Nat := do
  let l ← read data ptr bytes
  pure (ofBytes l)

end Read

/-! ## The header -/

/-- The header, each field read where the bytes given so far reach. -/
def parse_serialized_header (data : List Byte) : Guarded Int Info :=
  let sz := min data.length 0xffff
  if sz < 4 then .of (.error (-10))
  else do
    let magic ← read_int data 0 4
    if magic ≠ boc_generic ∧ magic ≠ boc_idx ∧ magic ≠ boc_idx_crc32c then .of (.error 0)
    else if sz < 5 then .of (.error (-10))
    else do
      let b ← read_byte data 4
      let byte := b.toNat
      let has_index : Bool := if magic = boc_generic then byte / 128 % 2 = 1 else true
      let has_crc32c : Bool := if magic = boc_generic then byte / 64 % 2 = 1 else magic = boc_idx_crc32c
      let has_cache_bits : Bool := if magic = boc_generic then byte / 32 % 2 = 1 else false
      let ref_byte_size := byte % 8
      if has_cache_bits && !has_index then .of (.error 0)
      else if ref_byte_size > 4 ∨ ref_byte_size < 1 then .of (.error 0)
      else if sz < 6 then .of (.error (-7 - 3 * ref_byte_size))
      else do
        let b ← read_byte data 5
        let offset_byte_size := b.toNat
        if offset_byte_size > 8 ∨ offset_byte_size < 1 then .of (.error 0)
        else
          let roots_offset := 6 + 3 * ref_byte_size + offset_byte_size
          let ptr := 6
          let sz := sz - 6
          if sz < ref_byte_size then .of (.error (-roots_offset))
          else do
            let cell_count ← read_int data ptr ref_byte_size
            if cell_count = 0 ∨ cell_count ≥ 2 ^ 31 then .of (.error 0)
            else if sz < 2 * ref_byte_size then .of (.error (-roots_offset))
            else do
              let root_count ← read_int data (ptr + ref_byte_size) ref_byte_size
              if root_count = 0 ∨ root_count ≥ 2 ^ 31 then .of (.error 0)
              else if magic ≠ boc_generic ∧ root_count ≠ 1 then .of (.error 0)
              else
                let index_offset := roots_offset + if magic = boc_generic then root_count * ref_byte_size else 0
                let data_offset := index_offset + if has_index then cell_count * offset_byte_size else 0
                if sz < 3 * ref_byte_size then .of (.error (-roots_offset))
                else do
                  let absent_count ← read_int data (ptr + 2 * ref_byte_size) ref_byte_size
                  if absent_count ≥ 2 ^ 31 ∨ absent_count > cell_count then .of (.error 0)
                  else if sz < 3 * ref_byte_size + offset_byte_size then .of (.error (-roots_offset))
                  else do
                    let data_size ← read_int data (ptr + 3 * ref_byte_size) offset_byte_size
                    if data_size > cell_count * 2 ^ 10 then .of (.error 0)
                    else if data_size > 2 ^ 40 then .of (.error 0)
                    else if data_size < cell_count * (2 + ref_byte_size) - ref_byte_size then .of (.error 0)
                    else .of (.ok
                      { magic, root_count, cell_count, absent_count, ref_byte_size, offset_byte_size, has_index
                        has_roots := magic = boc_generic, has_crc32c, has_cache_bits, roots_offset, index_offset
                        data_offset, data_size, total_size := data_offset + data_size + if has_crc32c then 4 else 0 })

/-! ## One cell -/

section Cell
variable (data : List Byte)

def init (cell : Slice) (ref_byte_size : Nat) : Guarded String CellSerializationInfo :=
  if cell.size < 2 then .of (.error s!"Not enough bytes [got:{cell.size}][expected:at least 2]")
  else do
    let d1 ← read_byte data cell.ubegin
    let d2 ← read_byte data (cell.ubegin + 1)
    let info ← .of (CellSerializationInfo.init_bytes d1 d2 ref_byte_size)
    if cell.size < info.end_offset then .of (.error s!"Not enough bytes [got:{cell.size}][expected:{info.end_offset}]")
    else pure info

def get_bits (info : CellSerializationInfo) (cell : Slice) : Guarded String Nat :=
  if info.data_with_bits then do
    need (info.data_len ≠ 0)
    let last ← read_byte data (cell.ubegin + (info.data_offset + info.data_len - 1))
    if last.toNat % 128 = 0 then .of (.error "overlong encoding")
    else pure ((info.data_len - 1) * 8 + 7 - count_trailing_zeroes last)
  else pure (info.data_len * 8)

/-- The stored hash number `i`. -/
def hash_at (info : CellSerializationInfo) (cell_slice : Slice) (i : Nat) : Guarded String (List Byte) := do
  let s ← cell_slice.substr (info.hashes_offset + hash_bytes * i) hash_bytes
  read data s.ubegin s.size

/-- `load_depth` of the stored depth number `i`. -/
def depth_at (info : CellSerializationInfo) (cell_slice : Slice) (i : Nat) : Guarded String Nat := do
  let s ← cell_slice.substr (info.depth_offset + depth_bytes * i) depth_bytes
  read_int data s.ubegin depth_bytes

/-- The loop over the lower levels. -/
def check_levels (info : CellSerializationInfo) (cell_slice : Slice) (res : DataCell) : List (Nat × Nat) → Guarded String Unit
  | [] => pure ()
  | (level_i, hash_i) :: levels => do
    let hash ← hash_at data info cell_slice hash_i
    if hash ≠ res.get_hash level_i then .of (.error "lower hash mismatch")
    else do
      let depth ← depth_at data info cell_slice hash_i
      if res.get_depth level_i ≠ depth then .of (.error "lower depth mismatch")
      else check_levels info cell_slice res levels

def check_hashes (info : CellSerializationInfo) (cell_slice : Slice) (res : DataCell) : Guarded String Unit := do
  let hash_n := info.level_mask.get_hashes_count
  let hash ← hash_at data info cell_slice (hash_n - 1)
  if res.get_hash max_level ≠ hash then .of (.error "representation hash mismatch")
  else do
    let depth ← depth_at data info cell_slice (hash_n - 1)
    if res.get_depth max_level ≠ depth then .of (.error "depth mismatch")
    else check_levels data info cell_slice res ((List.range info.level_mask.get_level).filter info.level_mask.is_significant).zipIdx

/-- The builder takes all bits and references, or throws. -/
def create_data_cell (info : CellSerializationInfo) (cell_slice : Slice) (refs : List DataCell) : Guarded String DataCell := do
  let bits ← get_bits data info cell_slice
  let bytes ← read data (cell_slice.ubegin + info.data_offset) ((bits + 7) / 8)
  need (bits ≤ max_bits)
  need (refs.length ≤ max_refs)
  let res ← .of (DataCell.create ((bytesToBits bytes).take bits) refs info.special)
  if res.is_special ≠ info.special then .of (.error "is_special mismatch")
  else if res.get_level_mask ≠ info.level_mask then .of (.error "level mask mismatch")
  else if info.with_hashes then do
    check_hashes data info cell_slice res
    pure res
  else pure res

end Cell

/-! ## The bag -/

/-- Where the ends of cells are found. -/
inductive Index where
  | stored (index_ptr : Nat)
  | custom_index (entries : List Nat)

section Bag
variable (data : List Byte) (info : Info)

/-- `custom_index`, when there is no index. -/
def scan_cells (rs : Nat) : Nat → Nat → Slice → Nat → Guarded String (List Nat)
  | 0, i, cells_slice, cur =>
    if cells_slice.size = 0 then pure []
    else .of (.error s!"invalid bag-of-cells last cell #{i - 1}: end offset {cur} is different from total data size {cur + cells_slice.size}")
  | n + 1, i, cells_slice, cur => do
    let status ← (init data cells_slice rs).attempt
    match status with
    | .error e => .of (.error s!"invalid bag-of-cells failed to deserialize cell #{i} {e}")
    | .ok cell_info => do
      let cells_slice ← cells_slice.suffix cell_info.end_offset
      let rest ← scan_cells rs n (i + 1) cells_slice (cur + cell_info.end_offset)
      pure ((cur + cell_info.end_offset) :: rest)

/-- Index `i + 1` stands for the entry of cell `i`. -/
def get_idx_entry_raw (index : Index) : Nat → Guarded String Nat
  | 0 => pure 0
  | i + 1 =>
    match index with
    | .custom_index entries => at_index entries i
    | .stored index_ptr =>
      if i < info.cell_count then read_int data (index_ptr + i * info.offset_byte_size) info.offset_byte_size else pure 0

def get_idx_entry (index : Index) (i : Nat) : Guarded String Nat := do
  let raw ← get_idx_entry_raw data info index i
  pure (if info.has_cache_bits then raw / 2 else raw)

def get_cache_entry (index : Index) (i : Nat) : Guarded String Bool :=
  if !info.has_cache_bits || !info.has_index then pure true
  else do
    let raw ← get_idx_entry_raw data info index (i + 1)
    pure (raw % 2 = 1)

def get_cell_slice (index : Index) (idx : Nat) (cells_slice : Slice) : Guarded String Slice := do
  let offs ← get_idx_entry data info index idx
  let offs_end ← get_idx_entry data info index (idx + 1)
  if offs > offs_end ∨ offs_end > cells_slice.size then
    .of (.error s!"invalid index entry [{offs}; {offs_end}], [data.size():{cells_slice.size}]")
  else cells_slice.substr offs (offs_end - offs)

/-- `counts` is `cell_should_cache`, which has an entry for every cell. -/
def read_refs (cells : List DataCell) (counts : Nat) (idx : Nat) (cell_slice : Slice) (refs_offset : Nat) :
    Nat → Nat → Guarded String (List (DataCell × Nat))
  | 0, _ => pure []
  | n + 1, k => do
    let ref_idx ← read_int data (cell_slice.ubegin + (refs_offset + k * info.ref_byte_size)) info.ref_byte_size
    if ref_idx ≤ idx ∨ ref_idx ≥ 2 ^ 31 then
      .of (.error s!"bag-of-cells error: reference #{k} of cell #{idx} is to cell #{ref_idx} with smaller index")
    else if ref_idx ≥ info.cell_count then
      .of (.error s!"bag-of-cells error: reference #{k} of cell #{idx} is to non-existent cell #{ref_idx}, only {info.cell_count} cells are defined")
    else do
      let cell ← at_index cells (info.cell_count - ref_idx - 1)
      need (ref_idx < counts)
      let rest ← read_refs cells counts idx cell_slice refs_offset n (k + 1)
      pure ((cell, ref_idx) :: rest)

def deserialize_cell (index : Index) (idx : Nat) (cells_slice : Slice) (cells : List DataCell) (cell_should_cache : List Nat) :
    Guarded String (DataCell × List Nat) := do
  let cell_slice ← get_cell_slice data info index idx cells_slice
  let cell_info ← init data cell_slice info.ref_byte_size
  if cell_info.end_offset ≠ cell_slice.size then .of (.error "unused space in cell serialization")
  else do
    let refs ← read_refs data info cells cell_should_cache.length idx cell_slice cell_info.refs_offset cell_info.refs_cnt 0
    let cell ← create_data_cell data cell_info cell_slice (refs.map Prod.fst)
    pure (cell, (refs.map Prod.snd).foldl use cell_should_cache)

def deserialize_cells (index : Index) (cells_slice : Slice) :
    Nat → List DataCell → List Nat → Guarded String (List DataCell × List Nat)
  | 0, cells, counts => pure (cells, counts)
  | idx + 1, cells, counts => do
    let r_cell ← (deserialize_cell data info index idx cells_slice cells counts).attempt
    match r_cell with
    | .error e => .of (.error s!"invalid bag-of-cells failed to deserialize cell #{idx} {e}")
    | .ok p => deserialize_cells index cells_slice idx (cells ++ [p.1]) p.2

def read_root (roots_ptr i : Nat) : Guarded String Nat :=
  if info.has_roots then do
    need (i * info.ref_byte_size < 2 ^ 31)
    read_int data (roots_ptr + i * info.ref_byte_size) info.ref_byte_size
  else pure 0

def read_roots (roots_ptr : Nat) : Nat → Nat → Guarded String (List Nat)
  | 0, _ => pure []
  | n + 1, i => do
    let idx ← read_root data info roots_ptr i
    if idx ≥ info.cell_count then .of (.error s!"bag-of-cells invalid root index {idx}")
    else do
      let rest ← read_roots roots_ptr n (i + 1)
      pure (idx :: rest)

def check_crc32c (crc32c : List Byte → BitVec 32) : Guarded String Unit :=
  if info.has_crc32c then do
    need (4 ≤ data.length)
    let buffer ← read data 0 (data.length - 4)
    let stored ← read data (data.length - 4) 4
    if ofBytes stored.reverse ≠ (crc32c buffer).toNat then
      .of (.error s!"bag-of-cells CRC32C mismatch: expected {(crc32c buffer).toNat}, found {ofBytes stored.reverse}")
    else pure ()
  else pure ()

/-- The loop over the cells that compares the uses with the flags. -/
def check_cache_bits (index : Index) (counts : List Nat) : List Nat → Guarded String Unit
  | [] => pure ()
  | idx :: rest =>
    if info.has_cache_bits then do
      let cnt ← at_index counts idx
      let stored ← get_cache_entry data info index idx
      if decide (cnt > 1) != stored then .of (.error s!"invalid bag-of-cells cell #{idx} has wrong cache flag {stored}")
      else check_cache_bits index counts rest
    else pure ()

/-- `index_ptr` or `custom_index`. -/
def get_index (slice cells_slice : Slice) : Guarded String Index :=
  if info.has_index then do
    let index_ptr ← slice.suffix info.index_offset
    pure (.stored index_ptr.ubegin)
  else do
    let entries ← scan_cells data info.ref_byte_size info.cell_count 0 cells_slice 0
    pure (.custom_index entries)

/-- The cells of the roots. -/
def root_cells (cells : List DataCell) : List Nat → Guarded String (List (Option DataCell))
  | [] => pure []
  | idx :: roots => do
    let cell ← at_index cells (info.cell_count - idx - 1)
    let rest ← root_cells cells roots
    pure (some cell :: rest)

end Bag

/-- The input is all of the memory. -/
def deserialize (crc32c : List Byte → BitVec 32) (data : List Byte) (max_roots : Nat) :
    Guarded String (Int × List (Option DataCell)) := do
  let slice : Slice := ⟨0, data.length⟩
  let header ← (parse_serialized_header data).attempt
  match header with
  | .error size_est =>
    if size_est = 0 then .of (.error s!"cannot deserialize bag-of-cells: invalid header, error {size_est}") else pure (size_est, [])
  | .ok info =>
    if info.total_size > data.length then pure (-info.total_size, [])
    else if info.root_count > max_roots then .of (.error "Bag-of-cells has more root cells than expected")
    else do
      check_crc32c data info crc32c
      let roots_ptr ← slice.suffix info.roots_offset
      let roots ← read_roots data info roots_ptr.ubegin info.root_count 0
      let counts := roots.foldl use (List.replicate info.cell_count 0)
      let cells_slice ← slice.substr info.data_offset info.data_size
      let index ← get_index data info slice cells_slice
      let p ← deserialize_cells data info index cells_slice info.cell_count [] counts
      check_cache_bits data info index p.2 (List.range info.cell_count)
      let cells ← root_cells info p.1 roots
      pure (info.total_size, cells)

end Ton.Boc.Memory
