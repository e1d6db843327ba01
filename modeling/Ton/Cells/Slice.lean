import Ton.Cells.DataCell
/-!
# Cell slices and builders

`CellSlice.cpp` and `CellBuilder.cpp`. A slice is what is left to read of a
cell, a builder what is written so far: both are bits and references.
-/

namespace Ton

open BigEndian CellTraits

inductive Excno where
  | int_ov
  | range_chk
  | cell_ov
  | cell_und
  | dict_err
  deriving DecidableEq

/-- What the code throws. -/
inductive Exc where
  /-- `VmError`. -/
  | vm (no : Excno) (msg : String)
  /-- `throw_unless` of a contract. -/
  | user (no : Nat)
  /-- `CellWriteError` and `CellCreateError`. -/
  | cellWrite
  /-- `CombineError`. -/
  | combine
  /-- A failed `assert` or `CHECK`. -/
  | check
  deriving DecidableEq

structure CellSlice where
  bits : List Bool
  refs : List DataCell

namespace CellSlice

def size (cs : CellSlice) : Nat := cs.bits.length

def size_refs (cs : CellSlice) : Nat := cs.refs.length

def have_bits (cs : CellSlice) (bits : Nat) : Bool := bits ≤ cs.size

/-- `advance`: nothing happens when there are too few bits. -/
def advance (cs : CellSlice) (bits : Nat) : CellSlice := if cs.have_bits bits then { cs with bits := cs.bits.drop bits } else cs

/-- `prefetch_ulong`; `none` is `fetch_ulong_eof`. -/
def prefetch_ulong (cs : CellSlice) (bits : Nat) : Option Nat :=
  if !cs.have_bits bits || bits > 64 then none else some (ofBits (cs.bits.take bits))

/-- `fetch_ulong`: the value, and the slice after it. -/
def fetch_ulong (cs : CellSlice) (bits : Nat) : Option Nat × CellSlice :=
  if !cs.have_bits bits || bits > 64 then (none, cs) else (some (ofBits (cs.bits.take bits)), cs.advance bits)

def prefetch_ref (cs : CellSlice) (offset : Nat) : Option DataCell := cs.refs[offset]?

/-- `bits_memscan`: how many bits at the start equal `bit`. -/
def count_leading (cs : CellSlice) (bit : Bool) : Nat := (cs.bits.takeWhile (· == bit)).length

end CellSlice

/-- `load_cell_slice_impl` outside a virtual machine: special cells do not load. -/
def load_cell_slice (c : DataCell) : Except Exc CellSlice :=
  if c.is_special then
    .error (.vm .cell_und (match c.special_type with
      | .Library => "failed to load library cell (no vm_state_interface available)"
      | .PrunnedBranch => "trying to load prunned cell"
      | _ => "unexpected special cell"))
  else .ok ⟨c.data, c.refs⟩

structure CellBuilder where
  bits : List Bool := []
  refs : List DataCell := []

namespace CellBuilder

def can_extend_by (cb : CellBuilder) (new_bits new_refs : Nat) : Bool :=
  new_bits ≤ max_bits - cb.bits.length && new_refs ≤ max_refs - cb.refs.length

def remaining_bits (cb : CellBuilder) : Nat := max_bits - cb.bits.length

/-- `store_bits_bool`. -/
def store_bits_bool (cb : CellBuilder) (bs : List Bool) : Option CellBuilder :=
  if cb.can_extend_by bs.length 0 then some { cb with bits := cb.bits ++ bs } else none

def store_bits (cb : CellBuilder) (bs : List Bool) : Except Exc CellBuilder :=
  match cb.store_bits_bool bs with
  | some cb => .ok cb
  | none => .error .cellWrite

/-- `store_long`: the low `val_bits` bits of `val`. -/
def store_long (cb : CellBuilder) (val : Int) (val_bits : Nat) : Except Exc CellBuilder :=
  cb.store_bits (toBits val_bits (val % 2 ^ val_bits).toNat)

def store_ref_bool (cb : CellBuilder) (ref : DataCell) : Option CellBuilder :=
  if cb.refs.length < max_refs then some { cb with refs := cb.refs ++ [ref] } else none

def store_ref (cb : CellBuilder) (ref : DataCell) : Except Exc CellBuilder :=
  match cb.store_ref_bool ref with
  | some cb => .ok cb
  | none => .error .cellWrite

/-- `append_cellslice_bool` and `cell_builder_add_slice_bool`. -/
def append_cellslice_bool (cb : CellBuilder) (cs : CellSlice) : Option CellBuilder :=
  if cb.can_extend_by cs.size cs.size_refs then some ⟨cb.bits ++ cs.bits, cb.refs ++ cs.refs⟩ else none

/-- `finalize_novm`. -/
def finalize (cb : CellBuilder) (special : Bool) : Except Exc DataCell :=
  match DataCell.create cb.bits cb.refs special with
  | .ok c => .ok c
  | .error _ => .error .cellWrite

/-! ## What the builder holds after a store -/

section
variable {cb cb' : CellBuilder}

theorem store_bits_bool_some {bs : List Bool} (h : cb.store_bits_bool bs = some cb') :
    cb' = { cb with bits := cb.bits ++ bs } := by
  unfold store_bits_bool at h
  split at h
  · cases h
    rfl
  · cases h

theorem store_bits_ok {bs : List Bool} (h : cb.store_bits bs = .ok cb') :
    cb' = { cb with bits := cb.bits ++ bs } := by
  unfold store_bits at h
  split at h
  · next hs =>
    cases h
    exact store_bits_bool_some hs
  · cases h

theorem store_long_ok {val : Int} {bits : Nat} (h : cb.store_long val bits = .ok cb') :
    cb' = { cb with bits := cb.bits ++ toBits bits (val % 2 ^ bits).toNat } := store_bits_ok h

theorem store_ref_bool_some {ref : DataCell} (h : cb.store_ref_bool ref = some cb') :
    cb' = { cb with refs := cb.refs ++ [ref] } := by
  unfold store_ref_bool at h
  split at h
  · cases h
    rfl
  · cases h

theorem store_ref_ok {ref : DataCell} (h : cb.store_ref ref = .ok cb') :
    cb' = { cb with refs := cb.refs ++ [ref] } := by
  unfold store_ref at h
  split at h
  · next hs =>
    cases h
    exact store_ref_bool_some hs
  · cases h

theorem append_cellslice_bool_some {cs : CellSlice} (h : cb.append_cellslice_bool cs = some cb') :
    cb' = ⟨cb.bits ++ cs.bits, cb.refs ++ cs.refs⟩ := by
  unfold append_cellslice_bool at h
  split at h
  · cases h
    rfl
  · cases h

end

theorem finalize_create {cb : CellBuilder} {special : Bool} {c : DataCell} (h : cb.finalize special = .ok c) :
    DataCell.create cb.bits cb.refs special = .ok c := by
  unfold finalize at h
  split at h
  · next hc =>
    cases h
    exact hc
  · cases h

end CellBuilder

/-- A cell finalized from a builder loads as what the builder held. -/
theorem load_finalize {cb : CellBuilder} {c : DataCell} (h : cb.finalize false = .ok c) :
    load_cell_slice c = .ok ⟨cb.bits, cb.refs⟩ := by
  obtain ⟨hs, hd, hr⟩ := DataCell.create_fields (CellBuilder.finalize_create h)
  simp [load_cell_slice, hs, hd, hr]

end Ton
