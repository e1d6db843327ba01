import Ton.Dict.Refine
/-!
# Prefix code dictionaries

`PrefixDictionary`: keys of different lengths, none a proper start of another. A
bit after the label tells a fork from a leaf, so a leaf can stand at any depth.
-/

namespace Ton.Dict

open BigEndian CellTraits CellBuilder Result BitMap LabelParser

/-- A leaf under an edge with the given label. -/
def pfx_leaf (label : List Bool) (n : Nat) (store_val : StoreValue) (error : String) : Except Exc DataCell := do
  let cb ← append_dict_label {} label n
  let cb ← cb.store_long 0 1
  match store_val cb with
  | none => .error (.vm .cell_ov error)
  | some cb => cb.finalize false

/-- A fork under an edge with the given label. -/
def pfx_fork (label : List Bool) (n : Nat) (c1 c2 : Option DataCell) : Except Exc DataCell := do
  let cb ← append_dict_label {} label n
  let cb ← cb.store_long 1 1
  let cb ← store_ref_null cb c1
  let cb ← store_ref_null cb c2
  cb.finalize false

def no_constructor : Exc := .vm .dict_err "no node constructor in a prefix code dictionary"

def invalid_fork : Exc := .vm .dict_err "invalid fork node in a prefix code dictionary"

/-- `m` is the length of `key`. -/
def pfx_dict_set (dict : Option DataCell) (key : List Bool) (n : Nat) (store_val : StoreValue) (mode : SetMode) :
    Except Exc (Option DataCell × Bool) :=
  if key.length > n then .ok (none, false)
  else match dict with
  | none =>
    if mode = .Replace then .ok (none, false)
    else do
      let c ← pfx_leaf key n store_val "cannot store new value into a dictionary cell"
      .ok (some c, true)
  | some cell => do
    let label ← LabelParser.parse cell n .chk_min
    let l := label.common_prefix_len key
    if _h : ¬(l ≤ label.l_bits ∧ label.l_bits ≤ n ∧ l ≤ key.length ∧ key.length ≤ n) then .error .check
    else if l < label.l_bits then
      if l = key.length ∨ mode = .Replace then .ok (none, false)
      else do
        let q := l + 1
        let c1 ← pfx_leaf (key.drop q) (n - q) store_val "cannot store new value into a prefix dictionary cell"
        let c2 ← lower_edge label l (n - q) "cannot change label of an old dictionary cell (?)"
        let c ← if key.getD l false then pfx_fork (key.take l) n (some c2) (some c1)
          else pfx_fork (key.take l) n (some c1) (some c2)
        .ok (some c, true)
    else
      let remainder := label.skip_label.remainder
      if !remainder.have_bits 1 then .error no_constructor
      else
        let (tag, remainder) := remainder.fetch_ulong 1
        if tag = some 0 then
          if l ≠ key.length ∨ mode = .Add then .ok (none, false)
          else do
            let c ← pfx_leaf key n store_val "cannot store new value into a dictionary cell"
            .ok (some c, true)
        else if remainder.size ≠ 0 ∨ remainder.size_refs ≠ 2 then .error invalid_fork
        else if _hm : key.length = l then .ok (none, false)
        else do
          let c1 := remainder.prefetch_ref 0
          let c2 := remainder.prefetch_ref 1
          let sw := key.getD l false
          let (child, written) ← pfx_dict_set (if sw then c2 else c1) (key.drop (l + 1)) (n - (l + 1)) store_val mode
          if !written then .ok (none, false)
          else do
            let c ← if sw then pfx_fork (key.take l) n c1 child else pfx_fork (key.take l) n child c2
            .ok (some c, true)
termination_by n
decreasing_by omega

/-- The value taken out and the tree without it: a fork with one side left becomes an edge. -/
def pfx_dict_lookup_delete (dict : Option DataCell) (key : List Bool) (n : Nat) :
    Except Exc (Option CellSlice × Option DataCell) :=
  match dict with
  | none => .ok (none, none)
  | some cell => do
    let label ← LabelParser.parse cell n .chk_min
    let l := label.common_prefix_len key
    if _h : ¬(l ≤ label.l_bits ∧ l ≤ key.length ∧ key.length ≤ n ∧ label.l_bits ≤ n) then .error .check
    else if l < label.l_bits then .ok (none, none)
    else
      let remainder := label.skip_label.remainder
      if !remainder.have_bits 1 then .error no_constructor
      else
        let (tag, remainder) := remainder.fetch_ulong 1
        if tag = some 0 then if l < key.length then .ok (none, none) else .ok (some remainder, none)
        else if remainder.size ≠ 0 ∨ remainder.size_refs ≠ 2 then .error invalid_fork
        else if _hm : l = key.length then .ok (none, none)
        else do
          let c1 := remainder.prefetch_ref 0
          let c2 := remainder.prefetch_ref 1
          let sw_bit := key.getD l false
          let (old_val, child) ← pfx_dict_lookup_delete (if sw_bit then c2 else c1) (key.drop (l + 1)) (n - (l + 1))
          match old_val with
          | none => .ok (none, none)
          | some old_val =>
            match (if sw_bit then c1 else child), (if sw_bit then child else c2) with
            | some c1, some c2 => do
              let c ← pfx_fork (key.take l) n (some c1) (some c2)
              .ok (some old_val, some c)
            | c1, c2 =>
              match (if sw_bit then c1 else c2), (if sw_bit then c2 else c1) with
              | some c1, none => do
                let label2 ← LabelParser.parse c1 (n - (l + 1)) .chk_min
                let (bits, label2) := label2.extract_label
                let bw := key.take l ++ [!sw_bit] ++ bits
                if bw.length > max_key_bits then .error .check
                else do
                  let c ← relabel_edge bw n label2.remainder
                    "cannot change label of an old prefix code dictionary cell while merging edges"
                  .ok (some old_val, some c)
              | _, _ => .error .check
termination_by n
decreasing_by omega

/-- The loop of `lookup_prefix`: the value found, and how many bits were read. -/
def pfx_dict_lookup (cell : Option DataCell) (key : List Bool) (n : Nat) : Except Exc (Option CellSlice × Nat) :=
  match cell with
  | none => .error .check
  | some cell => do
    let label ← LabelParser.parse cell n .chk_min
    let l := label.common_prefix_len key
    if l < label.l_bits then .ok (none, l)
    else if label.l_bits > key.length then .error .check
    else
      let cs := label.skip_label.remainder
      if !cs.have_bits 1 then .error no_constructor
      else
        let (tag, cs) := cs.fetch_ulong 1
        if tag = some 0 then .ok (some cs, label.l_bits)
        else if _hn : n - label.l_bits = 0 then
          .error (.vm .dict_err "a fork node in a prefix code dictionary with zero remaining key length")
        else if cs.size ≠ 0 ∨ cs.size_refs ≠ 2 then .error invalid_fork
        else if key.length = label.l_bits then .ok (none, label.l_bits)
        else do
          let sw := key.getD label.l_bits false
          let (value, len) ← pfx_dict_lookup (cs.prefetch_ref sw.toNat) (key.drop (label.l_bits + 1)) (n - label.l_bits - 1)
          .ok (value, label.l_bits + 1 + len)
termination_by n
decreasing_by omega

structure PrefixDictionary where
  root_cell : Option DataCell := none
  key_bits : Nat

namespace PrefixDictionary

def force_validate (d : PrefixDictionary) : Except Exc Unit :=
  if d.key_bits > max_key_bits then .error (.vm .dict_err "invalid dictionary") else .ok ()

def lookup_prefix (d : PrefixDictionary) (key : List Bool) : Except Exc (Option CellSlice × Nat) := do
  d.force_validate
  if d.root_cell.isNone then .ok (none, 0) else pfx_dict_lookup d.root_cell key d.key_bits

def lookup (d : PrefixDictionary) (key : List Bool) : Except Exc (Option CellSlice) := do
  d.force_validate
  if key.length > d.key_bits then .ok none
  else do
    let (value, len) ← lookup_prefix d key
    .ok (if len = key.length then value else none)

def set_gen (d : PrefixDictionary) (key : List Bool) (store_val : StoreValue) (mode : SetMode) :
    Except Exc (PrefixDictionary × Bool) := do
  d.force_validate
  if key.length > d.key_bits then .ok (d, false)
  else do
    let (c, written) ← pfx_dict_set d.root_cell key d.key_bits store_val mode
    .ok (if written then { d with root_cell := c } else d, written)

def set (d : PrefixDictionary) (key : List Bool) (value : CellSlice) (mode : SetMode) :=
  d.set_gen key (Dictionary.store_slice value) mode

def set_builder (d : PrefixDictionary) (key : List Bool) (val_b : CellBuilder) (mode : SetMode) :=
  d.set_gen key (Dictionary.store_builder val_b) mode

def lookup_delete (d : PrefixDictionary) (key : List Bool) : Except Exc (PrefixDictionary × Option CellSlice) := do
  d.force_validate
  if key.length > d.key_bits then .ok (d, none)
  else do
    let (old_val, c) ← pfx_dict_lookup_delete d.root_cell key d.key_bits
    .ok (if old_val.isSome then { d with root_cell := c } else d, old_val)

end PrefixDictionary

end Ton.Dict
