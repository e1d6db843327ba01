import Ton.Dict.Nearest
/-!
# Iterators

`DictIterator` with `rewind`, `next` and `lookup`. The vector `path_` is a list with its
last entry first; `leaf_` is null at the end. The key buffer is the list of its first
`key_bits_` bits, which hold anything at the start.
-/

namespace Ton.Dict

open Result

structure Fork where
  next : Option DataCell
  alt : Option DataCell
  pos : Nat
  v : Bool

/-- The other branch. The bit of the key is turned with it. -/
def Fork.rotate (pe : Fork) : Fork := ⟨pe.alt, pe.next, pe.pos, !pe.v⟩

structure DictIterator where
  root_ : Option DataCell
  label_mode_ : Check
  key_bits_ : Nat
  order_ : Int
  key_buffer : List Bool
  path_ : List Fork
  leaf_ : Option CellSlice

/-- Writes bits into the key buffer. -/
def put (key : List Bool) (offs : Nat) (bits : List Bool) : List Bool := key.take offs ++ bits ++ key.drop (offs + bits.length)

/-- `mode ^ -(int)back`. -/
def turn (mode : Int) (back : Bool) : Int := if back then -1 - mode else mode

/-- `(mode >> (pos > 0)) & 1`. -/
def bit_at (mode : Int) (pos : Nat) : Bool := (if 0 < pos then mode / 2 else mode) % 2 = 1

/-- `td::bitstring::bits_memcmp`. -/
def bits_memcmp : List Bool → List Bool → Int
  | x :: a, y :: b => if x = y then bits_memcmp a b else if x then 1 else -1
  | _, _ => 0

namespace DictIterator

/-- The constructor, with `prevalidate`. -/
def of (d : DictionaryFixed) (mode : Nat) (key_buffer : List Bool) : DictIterator :=
  if 0 < d.key_bits ∧ d.key_bits ≤ max_key_bits then
    ⟨d.root_cell, d.methods.label_mode, d.key_bits, minmax_mode (mode % 2 = 1) (mode / 2 % 2 = 1), key_buffer, [], none⟩
  else ⟨none, d.methods.label_mode, 0, 0, key_buffer, [], none⟩

def is_valid (it : DictIterator) : Bool := 0 < it.key_bits_ ∧ it.key_bits_ ≤ max_key_bits

def eof (it : DictIterator) : Bool := it.leaf_.isNone

def cur_pos (it : DictIterator) : Option (List Bool) := if it.eof then none else some it.key_buffer

def cur_value_raw (it : DictIterator) : Option CellSlice := it.leaf_

def compare_keys (it : DictIterator) (a b : List Bool) : Int :=
  if it.key_bits_ = 0 then 0
  else
    let c := ((a.headD false).toNat : Int) - (b.headD false).toNat
    if c ≠ 0 then if it.order_ % 2 = 1 then -c else c
    else
      let c := bits_memcmp (a.take it.key_bits_) (b.take it.key_bits_)
      if it.order_ ≥ 0 then c else -c

/-- The loop of `dive`: the key, the path and the leaf. -/
def dive_loop (label_mode : Check) (node : Option DataCell) (m n : Nat) (mode : Int) (key : List Bool) (path : List Fork) :
    Except Exc (List Bool × List Fork × CellSlice) :=
  match node with
  | none => .error .check
  | some cell => do
    let label ← LabelParser.parse cell n label_mode
    let (bits, label) := label.extract_label
    let l := label.l_bits
    let key := put key m bits
    if _h : ¬l ≤ n then .error .check
    else if _hn : n - l = 0 then .ok (key, path, label.remainder)
    else
      let mode := if l ≠ 0 then mode / 2 else mode
      let bit : Bool := mode % 2 = 1
      let node := label.remainder.prefetch_ref bit.toNat
      let alt := label.remainder.prefetch_ref (!bit).toNat
      dive_loop label_mode node (m + l + 1) (n - l - 1) (mode / 2) (put key (m + l) [bit]) (⟨node, alt, m + l, bit⟩ :: path)
termination_by n
decreasing_by omega

/-- The node that the path leads to, and the key bits before it. -/
def node (it : DictIterator) : Option DataCell × Nat :=
  match it.path_ with
  | [] => (it.root_, 0)
  | pe :: _ => (pe.next, pe.pos + 1)

def dive (it : DictIterator) (mode : Int) : Except Exc (DictIterator × Bool) := do
  let (node, m) := it.node
  let mode := if it.path_.isEmpty then mode else mode / 2
  let (key, path, leaf) ← dive_loop it.label_mode_ node m (it.key_bits_ - m) mode it.key_buffer it.path_
  .ok ({ it with key_buffer := key, path_ := path, leaf_ := some leaf }, true)

/-- The loop of `rewind`, from the first entry of the path on; `kept` are those behind it. An entry that went the other way is rotated, and
what comes after it is dropped. The mode is that at the end of the loop. -/
def rewind_loop (key_bits : Nat) (key : List Bool) (mode : Int) (kept : List Fork) : List Fork →
    Except Exc (Option (List Bool × List Fork) × Int)
  | [] => .ok (none, mode)
  | pe :: rest =>
    if ¬pe.pos < key_bits then .error .check
    else
      let mode := if pe.pos ≠ 0 then mode / 2 else mode
      if pe.v ≠ (mode % 2 = 1 : Bool) then .ok (some (put key pe.pos [!pe.v], pe.rotate :: kept), mode)
      else rewind_loop key_bits key (mode / 2) (pe :: kept) rest

def rewind (it : DictIterator) (to_end : Bool) : Except Exc (DictIterator × Bool) :=
  if !it.is_valid then .ok (it, false)
  else if it.root_.isNone then .ok (it, true)
  else do
    let (rotated, mode) ← rewind_loop it.key_bits_ it.key_buffer (turn it.order_ to_end) [] it.path_.reverse
    match rotated with
    | some (key, path) => dive { it with key_buffer := key, path_ := path, leaf_ := none } mode
    | none => if !it.eof then .ok (it, true) else it.dive mode

/-- The loop of `next` and `lookup` that goes back to the next branch. -/
def backtrack (it : DictIterator) (mode : Int) : List Fork → Except Exc (DictIterator × Bool)
  | [] => .ok ({ it with path_ := [], leaf_ := none }, false)
  | pe :: rest =>
    if pe.v = bit_at mode pe.pos then
      dive { it with key_buffer := put it.key_buffer pe.pos [!pe.v], path_ := pe.rotate :: rest, leaf_ := none } mode
    else backtrack it mode rest

def next (it : DictIterator) (go_back : Bool) : Except Exc (DictIterator × Bool) :=
  if !it.is_valid || it.root_.isNone || it.eof then .ok (it, false)
  else it.backtrack (turn it.order_ go_back) it.path_

/-- The loop of `lookup` over the path, from its first entry on: what is reused of it. -/
def reuse_loop (bp pos_bits : Nat) (fill_mode : Int) (key : List Bool) (kept : List Fork) : List Fork → List Bool × List Fork
  | [] => (key, kept)
  | pe :: rest =>
    if pe.pos ≤ bp then
      if pe.pos = bp then
        if bp < pos_bits ∨ pe.v ≠ bit_at fill_mode bp then (put key pe.pos [!pe.v], pe.rotate :: kept) else (key, kept)
      else reuse_loop bp pos_bits fill_mode key (pe :: kept) rest
    else (key, kept)

/-- The loop of `lookup` down from a node: the key, the path, the leaf if one was reached, and `action`. -/
def lookup_loop (label_mode : Check) (pos : List Bool) (strict_after : Bool) (mode : Int) (node : Option DataCell) (m n : Nat)
    (key : List Bool) (path : List Fork) : Except Exc (List Bool × List Fork × Option CellSlice × Nat) :=
  if m < pos.length then
    match node with
    | none => .error .check
    | some cell => do
      let label ← LabelParser.parse cell n label_mode
      let pfx_len := label.common_prefix_len (pos.drop m)
      let (bits, label) := label.extract_label
      let l := label.l_bits
      let key := put key m bits
      if _h : ¬(pfx_len ≤ l ∧ l ≤ n) then .error .check
      else
        let action :=
          if pfx_len = pos.length - m then if strict_after then 2 else 1
          else if pfx_len < l then if pos.getD (m + pfx_len) false ≠ bit_at mode (m + pfx_len) then 2 else 1
          else 0
        if action = 2 then .ok (key, path, none, 2)
        else if _hn : n - l = 0 then .ok (key, path, some label.remainder, action)
        else
          let m := m + l
          let bit := if action ≠ 0 then bit_at mode m else pos.getD m false
          let node := label.remainder.prefetch_ref bit.toNat
          let alt := label.remainder.prefetch_ref (!bit).toNat
          let key := put key m [bit]
          let path := ⟨node, alt, m, bit⟩ :: path
          if action ≠ 0 then .ok (key, path, none, action)
          else lookup_loop label_mode pos strict_after mode node (m + 1) (n - l - 1) key path
  else .ok (key, path, none, 0)
termination_by n
decreasing_by omega

/-- What `lookup` does after its loop. -/
def lookup_end (it : DictIterator) (strict_after : Bool) (mode : Int) : List Bool × List Fork × Option CellSlice × Nat →
    Except Exc (DictIterator × Bool)
  | (key, path, some leaf, _) => .ok ({ it with key_buffer := key, path_ := path, leaf_ := some leaf }, true)
  | (key, path, none, action) =>
    let action := if action = 0 then if strict_after then 2 else 1 else action
    if action = 2 then backtrack { it with key_buffer := key, path_ := path } mode path
    else dive { it with key_buffer := key, path_ := path } mode

/-- `lookup` from the end of the path that is reused. -/
def lookup_from (it : DictIterator) (pos : List Bool) (strict_after : Bool) (mode : Int) : Except Exc (DictIterator × Bool) := do
  let (node, m) := it.node
  let r ← lookup_loop it.label_mode_ pos strict_after mode node m (it.key_bits_ - m) it.key_buffer it.path_
  it.lookup_end strict_after mode r

/-- `pos_bits` is the length of `pos`. -/
def lookup (it : DictIterator) (pos : List Bool) (strict_after backw : Bool) : Except Exc (DictIterator × Bool) :=
  if !it.is_valid || it.root_.isNone || pos.length > it.key_bits_ then .ok (it, false)
  else if it.eof then it.lookup_from pos strict_after (turn it.order_ backw)
  else
    let bp := same_upto (it.key_buffer.take pos.length) pos
    if bp = pos.length ∧ bp ≥ it.key_bits_ then if !strict_after then .ok (it, true) else it.next backw
    else
      let (key, path) := reuse_loop bp pos.length (turn it.order_ (strict_after ^^ backw)) it.key_buffer [] it.path_.reverse
      lookup_from { it with key_buffer := key, path_ := path } pos strict_after (turn it.order_ backw)

end DictIterator

end Ton.Dict
