import Ton.Boc.Cell
import Ton.Lib.MsbFirst
/-!
# The preload window of a cell slice

`CellSlice.cpp`, 178-264, 270-397 and 806-845. A slice is a window on the data
of its cell, and beside it up to 64 bits read ahead: the first `zd` bits of `z`
are the next bits of the window, `ptr` is the byte to read next.

`ptr` is an index into the data of the cell, `none` the null pointer. An
operation has no result when an `assert` fails or when it reads outside the data.
-/

namespace Ton.Preload

open BigEndian MsbFirst

structure CellSlice where
  cell : DataCell
  bits_st : Nat
  refs_st : Nat
  bits_en : Nat
  refs_en : Nat
  ptr : Option Nat
  z : BitVec 64
  zd : Nat

def fetch_ulong_eof : BitVec 64 := BitVec.allOnes 64

def fetch_long_eof : BitVec 64 := BitVec.intMin 64

/-- `td::as<unsigned>`: four bytes, the first one lowest. -/
def as_unsigned (p : List Byte) (i : Nat) : Option (BitVec 32) := do
  let a ← p[i]?
  let b ← p[i + 1]?
  let c ← p[i + 2]?
  let d ← p[i + 3]?
  return d ++ c ++ b ++ a

def bswap32 (x : BitVec 32) : BitVec 32 :=
  x.extractLsb' 0 8 ++ x.extractLsb' 8 8 ++ x.extractLsb' 16 8 ++ x.extractLsb' 24 8

namespace CellSlice

def size (cs : CellSlice) : Nat := cs.bits_en - cs.bits_st

def size_refs (cs : CellSlice) : Nat := cs.refs_en - cs.refs_st

def data (cs : CellSlice) : List Byte := cs.cell.get_data

def have_bits (cs : CellSlice) (bits : Nat) : Bool := bits ≤ cs.size

/-- `have(bits, refs)`. -/
def have_both (cs : CellSlice) (bits refs : Nat) : Bool := bits ≤ cs.size && refs ≤ cs.size_refs

def have_refs (cs : CellSlice) (refs : Nat) : Bool := refs ≤ cs.size_refs

def init_preload (cs : CellSlice) : Option CellSlice :=
  if cs.bits_st ≥ cs.bits_en then some { cs with zd := 0 }
  else do
    let p := cs.bits_st / 8 + 1
    let t := 8 - cs.bits_st % 8
    let b ← cs.data[p - 1]?
    return { cs with ptr := some p, z := b.setWidth 64 <<< (64 - t), zd := min t cs.size }

/-- `CellSlice(Ref<DataCell>)`; `z` is what the constructor leaves uninitialized. -/
def load (c : DataCell) (z : BitVec 64) : Option CellSlice :=
  let cs : CellSlice := ⟨c, 0, 0, c.get_bits, c.get_refs_cnt, none, z, 0⟩
  if cs.bits_en ≠ 0 then cs.init_preload else some cs

/-- `CellSlice(cs, bits_en, refs_en, bits_st, refs_st)`. -/
def sub (cs : CellSlice) (bits_en refs_en bits_st refs_st : Nat) (z : BitVec 64) : Option CellSlice :=
  if bits_st ≤ bits_en ∧ refs_st ≤ refs_en ∧ bits_en ≤ cs.size ∧ refs_en ≤ cs.size_refs then
    let s : CellSlice := ⟨cs.cell, cs.bits_st + bits_st, cs.refs_st + refs_st, cs.bits_st + bits_en, cs.refs_st + refs_en,
      none, z, 0⟩
    if bits_en > bits_st then s.init_preload else some s
  else none

def advance (cs : CellSlice) (bits : Nat) : Option (Bool × CellSlice) :=
  if cs.have_bits bits then
    let cs := { cs with bits_st := cs.bits_st + bits }
    if cs.zd ≤ bits then do return (true, ← cs.init_preload)
    else some (true, { cs with zd := cs.zd - bits, z := cs.z <<< bits })
  else some (false, cs)

def advance_refs (cs : CellSlice) (refs : Nat) : Option (Bool × CellSlice) :=
  if cs.have_refs refs then some (true, { cs with refs_st := cs.refs_st + refs }) else some (false, cs)

def advance_ext (cs : CellSlice) (bits refs : Nat) : Option (Bool × CellSlice) :=
  if cs.have_bits bits && cs.have_refs refs then { cs with refs_st := cs.refs_st + refs }.advance bits
  else some (false, cs)

/-- The `while` of `preload_at_least`. -/
def preload_loop (req_bits : Nat) (cs : CellSlice) (remain : Int) : Option CellSlice :=
  if cs.zd < req_bits ∧ 0 < remain then do
    let p ← cs.ptr
    let b ← cs.data[p]?
    if cs.zd > 56 then return { cs with z := cs.z ||| (b >>> (cs.zd - 56)).setWidth 64 }
    let cs := { cs with z := cs.z ||| b.setWidth 64 <<< (56 - cs.zd), ptr := some (p + 1) }
    if remain ≤ 8 then return { cs with zd := cs.zd + remain.toNat }
    preload_loop req_bits { cs with zd := cs.zd + 8 } (remain - 8)
  else some cs
termination_by remain.toNat

def preload_at_least (cs : CellSlice) (req_bits : Nat) : Option CellSlice :=
  if req_bits ≤ 64 ∧ cs.have_bits req_bits ∧ cs.ptr.isSome then
    if req_bits ≤ cs.zd then some cs
    else
      let remain : Int := cs.bits_en - cs.bits_st - cs.zd
      if cs.zd ≤ 32 ∧ remain > 24 then do
        let p ← cs.ptr
        let w ← as_unsigned cs.data p
        let cs := { cs with z := cs.z ||| (bswap32 w).setWidth 64 <<< (32 - cs.zd), ptr := some (p + 4) }
        if remain ≤ 32 then return { cs with zd := cs.zd + remain.toNat }
        preload_loop req_bits { cs with zd := cs.zd + 32 } (remain - 32)
      else preload_loop req_bits cs remain
  else none

def prefetch_octet (cs : CellSlice) : Option (Int × CellSlice) :=
  if !cs.have_bits 8 then some (-1, cs)
  else do
    let cs ← cs.preload_at_least 8
    return ((cs.z >>> 56).toNat, cs)

def fetch_octet (cs : CellSlice) : Option (Int × CellSlice) :=
  if !cs.have_bits 8 then some (-1, cs)
  else do
    let cs ← cs.preload_at_least 8
    return ((cs.z >>> 56).toNat, { cs with z := cs.z <<< 8, zd := cs.zd - 8 })

/-- `fetch_ulong` and `fetch_long`: they differ in the failure value and in how the value is shifted down. -/
def fetch_word (eof : BitVec 64) (shr : BitVec 64 → Nat → BitVec 64) (cs : CellSlice) (bits : Nat) :
    Option (BitVec 64 × CellSlice) :=
  if !cs.have_bits bits || bits > 64 then some (eof, cs)
  else if bits = 0 then some (0, cs)
  else if bits ≤ 56 then do
    let cs ← cs.preload_at_least bits
    let res := shr cs.z (64 - bits)
    if cs.zd ≥ bits then return (res, { cs with z := cs.z <<< bits, zd := cs.zd - bits, bits_st := cs.bits_st + bits })
    else none
  else do
    let cs ← cs.preload_at_least bits
    let res := shr cs.z (64 - bits)
    let (_, cs) ← cs.advance bits
    return (res, cs)

def fetch_ulong (cs : CellSlice) (bits : Nat) : Option (BitVec 64 × CellSlice) :=
  fetch_word fetch_ulong_eof (· >>> ·) cs bits

def fetch_long (cs : CellSlice) (bits : Nat) : Option (BitVec 64 × CellSlice) :=
  fetch_word fetch_long_eof .sshiftRight cs bits

/-- `prefetch_ulong` and `prefetch_long`. -/
def prefetch_word (eof : BitVec 64) (shr : BitVec 64 → Nat → BitVec 64) (cs : CellSlice) (bits : Nat) :
    Option (BitVec 64 × CellSlice) :=
  if !cs.have_bits bits || bits > 64 then some (eof, cs)
  else if bits = 0 then some (0, cs)
  else do
    let cs ← cs.preload_at_least bits
    return (shr cs.z (64 - bits), cs)

def prefetch_ulong (cs : CellSlice) (bits : Nat) : Option (BitVec 64 × CellSlice) :=
  prefetch_word fetch_ulong_eof (· >>> ·) cs bits

def prefetch_long (cs : CellSlice) (bits : Nat) : Option (BitVec 64 × CellSlice) :=
  prefetch_word fetch_long_eof .sshiftRight cs bits

/-- `prefetch_ulong_top`: how many bits there are, and a word that starts with them. -/
def prefetch_ulong_top (cs : CellSlice) (bits : Nat) : Option ((Nat × BitVec 64) × CellSlice) :=
  let bits := if bits > cs.size then cs.size else bits
  if bits = 0 then some ((bits, 0), cs)
  else do
    let cs ← cs.preload_at_least bits
    return ((bits, cs.z), cs)

/-- The contents of `BitSlice{cell, data(), bits_st, bits}`. -/
def bit_slice (cs : CellSlice) (bits : Nat) : List Bool := ((bytesToBits cs.data).drop cs.bits_st).take bits

def fetch_bits (cs : CellSlice) (bits : Nat) : Option (Option (List Bool) × CellSlice) :=
  if !cs.have_bits bits then some (none, cs)
  else do
    let res := cs.bit_slice bits
    let (_, cs) ← cs.advance bits
    return (some res, cs)

def prefetch_bits (cs : CellSlice) (bits : Nat) : Option (Option (List Bool) × CellSlice) :=
  if !cs.have_bits bits then some (none, cs) else some (some (cs.bit_slice bits), cs)

def only_first (cs : CellSlice) (bits refs : Nat) : Option (Bool × CellSlice) :=
  if !cs.have_both bits refs then some (false, cs)
  else some (true, { cs with bits_en := cs.bits_st + bits, refs_en := cs.refs_st + refs })

def skip_first (cs : CellSlice) (bits refs : Nat) : Option (Bool × CellSlice) :=
  if !cs.have_both bits refs then some (false, cs) else { cs with refs_st := cs.refs_st + refs }.advance bits

def only_last (cs : CellSlice) (bits refs : Nat) : Option (Bool × CellSlice) :=
  if !cs.have_both bits refs then some (false, cs)
  else { cs with refs_st := cs.refs_en - refs }.advance (cs.size - bits)

def skip_last (cs : CellSlice) (bits refs : Nat) : Option (Bool × CellSlice) :=
  if !cs.have_both bits refs then some (false, cs)
  else some (true, { cs with bits_en := cs.bits_en - bits, refs_en := cs.refs_en - refs })

end CellSlice

end Ton.Preload
