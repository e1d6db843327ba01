import Ton.Dict.Label
/-!
# Dictionaries with keys of one length

`Dictionary` and the part of `DictionaryFixed` under it: insertion, lookup and
deletion. A key pointer with `n` bits is a list of `n` bits; the null cell is
`none`.

`dict_set`, `dict_lookup_set` and the `dict_set` of augmented dictionaries are
the same recursion, `dict_set_with`; they differ in how a label is validated, in
how a leaf and a fork are finished, and in what they return.
-/

namespace Ton.Dict

open BigEndian CellTraits Result

inductive SetMode where
  | Set
  | Replace
  | Add
  deriving DecidableEq

def max_key_bits : Nat := 1023

abbrev StoreValue := CellBuilder → Option CellBuilder

/-- `store_ref` of a reference that may be null. -/
def store_ref_null (cb : CellBuilder) : Option DataCell → Except Exc CellBuilder
  | none => .error .cellWrite
  | some c => cb.store_ref c

/-- What the three variants of insertion do differently. -/
structure Finish where
  label_mode : Check
  /-- Stores the value after the label. -/
  leaf : CellBuilder → Except Exc DataCell
  /-- Stores the two children after the label; the last argument counts the key bits from the fork on. -/
  fork : CellBuilder → Option DataCell → Option DataCell → Nat → Except Exc DataCell
  relabel_error : String

/-- An edge with a payload that stood under another label. -/
def relabel_edge (label : List Bool) (n : Nat) (payload : CellSlice) (error : String) : Except Exc DataCell := do
  let cb ← append_dict_label {} label n
  match cb.append_cellslice_bool payload with
  | none => .error (.vm .cell_ov error)
  | some cb => cb.finalize false

/-- The lower portion of an old edge, after `pfx_len` bits and one more, and the
payload under it. -/
def lower_edge (label : LabelParser) (pfx_len m : Nat) (error : String) : Except Exc DataCell :=
  let t := label.l_bits - pfx_len - 1
  if label.l_same ≠ 0 then do
    let cb ← append_dict_label_same {} label.same_bit t m
    match cb.append_cellslice_bool label.remainder with
    | none => .error (.vm .cell_ov error)
    | some cb => cb.finalize false
  else
    let cs := label.remainder.advance (pfx_len + 1)
    relabel_edge (cs.bits.take t) m (cs.advance t) error

/-- Returns the old value, the new cell and whether anything was written. -/
def dict_set_with (F : Finish) (dict : Option DataCell) (key : List Bool) (n : Nat) (mode : SetMode) :
    Except Exc (Option CellSlice × Option DataCell × Bool) :=
  match dict with
  | none =>
    if mode = .Replace then .ok (none, none, false)
    else do
      let cb ← append_dict_label {} (key.take n) n
      let c ← F.leaf cb
      .ok (none, some c, true)
  | some cell => do
    let label ← LabelParser.parse cell n F.label_mode
    let pfx_len := label.common_prefix_len (key.take n)
    if _h : ¬(pfx_len ≤ label.l_bits ∧ label.l_bits ≤ n) then .error .check
    else if pfx_len < label.l_bits then
      if mode = .Replace then .ok (none, none, false)
      else do
        -- a new fork inside the current edge
        let m := n - pfx_len - 1
        let cb ← append_dict_label {} ((key.drop (pfx_len + 1)).take m) m
        let c1 ← F.leaf cb
        let c2 ← lower_edge label pfx_len m F.relabel_error
        let cb ← append_dict_label {} (key.take pfx_len) n
        let c ← if key.getD pfx_len false then F.fork cb (some c2) (some c1) (n - pfx_len)
          else F.fork cb (some c1) (some c2) (n - pfx_len)
        .ok (none, some c, true)
    else if _hn : label.l_bits = n then
      let old_val := label.skip_label.remainder
      if mode = .Add then .ok (some old_val, none, false)
      else do
        let cb ← append_dict_label {} (key.take n) n
        let c ← F.leaf cb
        .ok (some old_val, some c, true)
    else do
      let c1 := label.remainder.prefetch_ref 0
      let c2 := label.remainder.prefetch_ref 1
      let sw := key.getD label.l_bits false
      let (old_val, child, written) ←
        dict_set_with F (if sw then c2 else c1) (key.drop (label.l_bits + 1)) (n - label.l_bits - 1) mode
      if !written then .ok (old_val, none, false)
      else do
        let cb ← append_dict_label {} (key.take label.l_bits) n
        let c ← if sw then F.fork cb c1 child (n - label.l_bits) else F.fork cb child c2 (n - label.l_bits)
        .ok (old_val, some c, true)
termination_by n
decreasing_by omega

/-- How `dict_set` and `dict_lookup_set` of a dictionary finish a node. -/
def Finish.plain (store_val : StoreValue) : Finish where
  label_mode := .chk_all
  leaf cb :=
    match store_val cb with
    | none => .error (.vm .cell_ov "cannot store new value into a dictionary cell")
    | some cb => cb.finalize false
  fork cb c1 c2 _ := do
    let cb ← store_ref_null cb c1
    let cb ← store_ref_null cb c2
    cb.finalize false
  relabel_error := "cannot change label of an old dictionary cell (?)"

def dict_set (dict : Option DataCell) (key : List Bool) (n : Nat) (store_val : StoreValue) (mode : SetMode) :
    Except Exc (Option DataCell × Bool) := do
  let (_, c, written) ← dict_set_with (.plain store_val) dict key n mode
  .ok (c, written)

def dict_lookup_set (dict : Option DataCell) (key : List Bool) (n : Nat) (store_val : StoreValue) (mode : SetMode) :
    Except Exc (Option CellSlice × Option DataCell × Bool) :=
  dict_set_with (.plain store_val) dict key n mode

/-! ## Lookup and deletion -/

/-- The virtual methods of `DictionaryFixed`. -/
structure Virtual where
  label_mode : Check
  finish_create_fork : CellBuilder → DataCell → DataCell → Nat → Except Exc DataCell
  check_leaf : CellSlice → List Bool → Bool := fun _ _ => true
  check_fork : CellSlice → Option DataCell → Option DataCell → Nat → Except Exc Bool := fun _ _ _ _ => .ok true

/-- Those of `Dictionary`, inherited. -/
def Virtual.fixed : Virtual where
  label_mode := .chk_all
  finish_create_fork cb c1 c2 _ :=
    match (cb.store_ref_bool c1).bind (·.store_ref_bool c2) with
    | none => .error (.vm .dict_err "cannot store branch references into a dictionary fork cell")
    | some cb => cb.finalize false

/-- The loop of `lookup`. -/
def dict_lookup (label_mode : Check) (cell : Option DataCell) (key : List Bool) (n : Nat) :
    Except Exc (Option CellSlice) :=
  match cell with
  | none => .error .check
  | some cell => do
    let label ← LabelParser.parse cell n label_mode
    if !label.is_prefix_of (key.take n) then .ok none
    else if h : n ≤ label.l_bits then
      if n - label.l_bits ≠ 0 then .error .check else .ok (some label.skip_label.remainder)
    else
      let sw := key.getD label.l_bits false
      dict_lookup label_mode (label.remainder.prefetch_ref sw.toNat) (key.drop (label.l_bits + 1)) (n - label.l_bits - 1)
termination_by n
decreasing_by omega

def dict_lookup_delete (V : Virtual) (dict : Option DataCell) (key : List Bool) (n : Nat) :
    Except Exc (Option CellSlice × Option DataCell) :=
  match dict with
  | none => .ok (none, none)
  | some cell => do
    let label ← LabelParser.parse cell n V.label_mode
    let pfx_len := label.common_prefix_len (key.take n)
    if _h : ¬(pfx_len ≤ label.l_bits ∧ label.l_bits ≤ n) then .error .check
    else if pfx_len < label.l_bits then .ok (none, none)
    else if _hn : label.l_bits = n then .ok (some label.skip_label.remainder, none)
    else do
      let c1 := label.remainder.prefetch_ref 0
      let c2 := label.remainder.prefetch_ref 1
      let sw_bit := key.getD label.l_bits false
      let (old_val, child) ←
        dict_lookup_delete V (if sw_bit then c2 else c1) (key.drop (label.l_bits + 1)) (n - label.l_bits - 1)
      match old_val with
      | none => .ok (none, none)
      | some old_val =>
        match (if sw_bit then c1 else child), (if sw_bit then child else c2) with
        | some c1, some c2 => do
          let cb ← append_dict_label {} (key.take label.l_bits) n
          let c ← V.finish_create_fork cb c1 c2 (n - label.l_bits)
          .ok (some old_val, some c)
        | c1, c2 =>
          -- merge the current edge with the edge leading to the remaining child
          match (if sw_bit then c1 else c2), (if sw_bit then c2 else c1) with
          | some c1, none => do
            let label2 ← LabelParser.parse c1 (n - label.l_bits - 1) V.label_mode
            let (bits, label2) := label2.extract_label
            let bw := key.take label.l_bits ++ [!sw_bit] ++ bits
            if bw.length > max_key_bits then .error .check
            else do
              let c ← relabel_edge bw n label2.remainder
                "cannot change label of an old dictionary cell while merging edges"
              .ok (some old_val, some c)
          | _, _ => .error .check
termination_by n
decreasing_by omega

/-! ## The object -/

structure Dictionary where
  root_cell : Option DataCell := none
  key_bits : Nat

namespace Dictionary

/-- `force_validate`: the dictionaries here are made from a key length. -/
def force_validate (d : Dictionary) : Except Exc Unit :=
  if d.key_bits > max_key_bits then .error (.vm .dict_err "invalid dictionary") else .ok ()

def set_gen (d : Dictionary) (key : List Bool) (store_val : StoreValue) (mode : SetMode) :
    Except Exc (Dictionary × Bool) := do
  d.force_validate
  if key.length ≠ d.key_bits then .ok (d, false)
  else do
    let (c, written) ← dict_set d.root_cell key key.length store_val mode
    .ok (if written then { d with root_cell := c } else d, written)

/-- How `set` stores a slice. -/
def store_slice (value : CellSlice) : StoreValue := fun cb => cb.append_cellslice_bool value

/-- How `set_ref` stores a reference. -/
def store_cell (val_ref : DataCell) : StoreValue := fun cb => cb.store_ref_bool val_ref

/-- How `set_builder` stores the contents of a builder: `append_builder_bool`. -/
def store_builder (val_b : CellBuilder) : StoreValue := fun cb =>
  if cb.can_extend_by val_b.bits.length val_b.refs.length then some ⟨cb.bits ++ val_b.bits, cb.refs ++ val_b.refs⟩
  else none

def set (d : Dictionary) (key : List Bool) (value : CellSlice) (mode : SetMode) := d.set_gen key (store_slice value) mode

def set_ref (d : Dictionary) (key : List Bool) (val_ref : DataCell) (mode : SetMode) :=
  d.set_gen key (store_cell val_ref) mode

def set_builder (d : Dictionary) (key : List Bool) (val_b : CellBuilder) (mode : SetMode) :=
  d.set_gen key (store_builder val_b) mode

def lookup_set_gen (d : Dictionary) (key : List Bool) (store_val : StoreValue) (mode : SetMode) :
    Except Exc (Dictionary × Option CellSlice) := do
  d.force_validate
  if key.length ≠ d.key_bits then .ok (d, none)
  else do
    let (old_val, c, written) ← dict_lookup_set d.root_cell key key.length store_val mode
    .ok (if written then { d with root_cell := c } else d, old_val)

def lookup_set (d : Dictionary) (key : List Bool) (value : CellSlice) (mode : SetMode) :=
  d.lookup_set_gen key (store_slice value) mode

def lookup (d : Dictionary) (key : List Bool) : Except Exc (Option CellSlice) := do
  d.force_validate
  if key.length ≠ d.key_bits ∨ d.root_cell.isNone then .ok none
  else dict_lookup .chk_all d.root_cell key key.length

def lookup_delete (d : Dictionary) (key : List Bool) : Except Exc (Dictionary × Option CellSlice) := do
  d.force_validate
  if key.length ≠ d.key_bits then .ok (d, none)
  else do
    let (old_val, c) ← dict_lookup_delete .fixed d.root_cell key key.length
    .ok (if old_val.isSome then { d with root_cell := c } else d, old_val)

end Dictionary

end Ton.Dict
