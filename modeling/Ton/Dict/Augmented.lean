import Ton.Dict.Canonical
import Ton.Dict.Fixed
/-!
# Augmented dictionaries

`AugmentedDictionary`: every node carries an extra. The extra of a leaf is computed
from its value, that of a fork from the extras of its children, by the methods of
an `AugmentationData`.
-/

namespace Ton

namespace CellSlice

/-- `cut_tail`: drops as many bits and references at the end as the tail has. -/
def cut_tail (cs tail_cs : CellSlice) : Option CellSlice :=
  if tail_cs.size ≤ cs.size ∧ tail_cs.size_refs ≤ cs.size_refs then
    some ⟨cs.bits.take (cs.size - tail_cs.size), cs.refs.take (cs.size_refs - tail_cs.size_refs)⟩
  else none

def advance_refs (cs : CellSlice) (refs : Nat) : Option CellSlice :=
  if refs ≤ cs.size_refs then some { cs with refs := cs.refs.drop refs } else none

/-- The slice followed by another. -/
def append (cs cs2 : CellSlice) : CellSlice := ⟨cs.bits ++ cs2.bits, cs.refs ++ cs2.refs⟩

end CellSlice

namespace CellBuilder

def contents_equal (cb : CellBuilder) (cs : CellSlice) : Bool :=
  cb.bits.length == cs.size && cb.refs.length == cs.size_refs && cb.bits == cs.bits &&
    cb.refs.map (·.get_hash CellTraits.max_level) == cs.refs.map (·.get_hash CellTraits.max_level)

/-- What has been written so far. -/
def contents (cb : CellBuilder) : CellSlice := ⟨cb.bits, cb.refs⟩

end CellBuilder

namespace Dict

open BigEndian CellTraits CellBuilder Result BitMap LabelParser

/-- The pure virtual methods; `none` is a return value of false. -/
structure AugmentationData where
  /-- What is left after the extra. -/
  skip_extra : CellSlice → Option CellSlice
  eval_leaf : CellBuilder → CellSlice → Option CellBuilder
  eval_fork : CellBuilder → CellSlice → CellSlice → Option CellBuilder
  eval_empty : CellBuilder → Option CellBuilder

namespace AugmentationData

def check_leaf (aug : AugmentationData) (cs val_cs : CellSlice) : Bool :=
  match aug.eval_leaf {} val_cs with
  | some cb => cb.contents_equal cs
  | none => false

def check_fork (aug : AugmentationData) (cs left_cs right_cs : CellSlice) : Bool :=
  match aug.eval_fork {} left_cs right_cs with
  | some cb => cb.contents_equal cs
  | none => false

/-- `extract_extra`: the extra, and what is left after it. -/
def extract_extra (aug : AugmentationData) (cs : CellSlice) : Option (CellSlice × CellSlice) := do
  let rest ← aug.skip_extra cs
  let extra ← cs.cut_tail rest
  some (extra, rest)

end AugmentationData

/-- The augmentation of the dictionary of old masterchain blocks: `_ key:Bool
max_end_lt:uint64 = KeyMaxLt`, for values that start with these fields. -/
def aug_OldMcBlocksInfo : AugmentationData where
  skip_extra cs := if cs.have_bits 65 then some (cs.advance 65) else none
  eval_leaf cb cs := if cs.have_bits 65 then cb.store_bits_bool (cs.bits.take 65) else none
  eval_fork cb cs1 cs2 :=
    if cs1.have_bits 65 && cs2.have_bits 65 then do
      let cb ← cb.store_bits_bool [cs1.bits.headD false || cs2.bits.headD false]
      cb.store_bits_bool (toBits 64 (max (ofBits ((cs1.bits.drop 1).take 64)) (ofBits ((cs2.bits.drop 1).take 64))))
    else none
  eval_empty cb := cb.store_bits_bool (List.replicate 65 false)

structure AugmentedDictionary where
  aug : AugmentationData
  root_cell : Option DataCell := none
  key_bits : Nat

namespace AugmentedDictionary

/-! ## Extras -/

def get_node_extra (aug : AugmentationData) (cell_ref : Option DataCell) (n : Nat) : Except Exc (Option CellSlice) :=
  match cell_ref with
  | none =>
    match aug.eval_empty {} with
    | none => .ok none
    | some cb => do
      let c ← cb.finalize false
      .ok (some ⟨c.data, c.refs⟩)
  | some cell => do
    let label ← LabelParser.parse cell n .chk_size
    let label := label.skip_label
    if label.l_bits = n then .ok ((aug.extract_extra label.remainder).map Prod.fst)
    else match label.remainder.advance_refs 2 with
      | none => .ok none
      | some remainder =>
        match aug.skip_extra remainder with
        | none => .ok none
        | some cs => .ok (if cs.size = 0 ∧ cs.size_refs = 0 then some remainder else none)

def get_root_extra (d : AugmentedDictionary) : Except Exc (Option CellSlice) := get_node_extra d.aug d.root_cell d.key_bits

/-! ## The virtual methods -/

def check_leaf (aug : AugmentationData) (cs : CellSlice) : Bool :=
  match aug.extract_extra cs with
  | some (extra, cs) => aug.check_leaf extra cs
  | none => false

def check_fork (aug : AugmentationData) (cs : CellSlice) (c1 c2 : Option DataCell) (n : Nat) : Except Exc Bool :=
  if n = 0 then .ok false
  else do
    let extra1 ← get_node_extra aug c1 (n - 1)
    let extra2 ← get_node_extra aug c2 (n - 1)
    match extra1, extra2 with
    | some extra1, some extra2 => .ok (aug.check_fork cs extra1 extra2)
    | _, _ => .ok false

def finish_create_leaf (aug : AugmentationData) (cb : CellBuilder) (value : CellSlice) : Except Exc DataCell :=
  match aug.eval_leaf cb value with
  | none => .error (.vm .dict_err "cannot compute and store extra value into an augmented dictionary cell")
  | some cb =>
    match cb.append_cellslice_bool value with
    | none => .error (.vm .dict_err "cannot store new value into an augmented dictionary cell")
    | some cb => cb.finalize false

def finish_create_fork (aug : AugmentationData) (cb : CellBuilder) (c1 c2 : DataCell) (n : Nat) : Except Exc DataCell :=
  if n = 0 then .error .check
  else match (cb.store_ref_bool c1).bind (·.store_ref_bool c2) with
  | none => .error (.vm .dict_err "cannot store branch references into an augmented dictionary cell")
  | some cb => do
    let extra1 ← get_node_extra aug (some c1) (n - 1)
    let extra2 ← get_node_extra aug (some c2) (n - 1)
    match extra1, extra2 with
    | some extra1, some extra2 =>
      match aug.eval_fork cb extra1 extra2 with
      | none => .error (.vm .dict_err "cannot compute extra value for an augmented dictionary fork node")
      | some cb => cb.finalize false
    | _, _ =>
      .error (.vm .dict_err "cannot extract extra value from left branch of an augmented dictionary fork node")

def methods (aug : AugmentationData) : Virtual where
  label_mode := .chk_size
  finish_create_fork := finish_create_fork aug
  check_leaf cs _ := check_leaf aug cs
  check_fork := check_fork aug

/-- How `dict_set` finishes a node; the children of a fork are never null there. -/
def finish (aug : AugmentationData) (value : CellSlice) : Finish where
  label_mode := .chk_size
  leaf cb := finish_create_leaf aug cb value
  fork cb c1 c2 n :=
    match c1, c2 with
    | some c1, some c2 => finish_create_fork aug cb c1 c2 n
    | _, _ => .error (.vm .dict_err "cannot store branch references into an augmented dictionary cell")
  relabel_error := "cannot change label of an old augmented dictionary cell (?)"

/-! ## The operations -/

def force_validate (d : AugmentedDictionary) : Except Exc Unit :=
  if d.key_bits > max_key_bits then .error (.vm .dict_err "invalid dictionary") else .ok ()

def extract_value (d : AugmentedDictionary) (value_extra : Option CellSlice) : Option CellSlice :=
  value_extra.bind d.aug.skip_extra

def lookup (d : AugmentedDictionary) (key : List Bool) : Except Exc (Option CellSlice) := do
  d.force_validate
  if key.length ≠ d.key_bits ∨ d.root_cell.isNone then .ok none
  else d.extract_value <$> dict_lookup .chk_size d.root_cell key key.length

def set (d : AugmentedDictionary) (key : List Bool) (value : CellSlice) (mode : SetMode) :
    Except Exc (AugmentedDictionary × Bool) := do
  d.force_validate
  if key.length ≠ d.key_bits then .ok (d, false)
  else do
    let (_, c, written) ← dict_set_with (finish d.aug value) d.root_cell key key.length mode
    .ok (if written then { d with root_cell := c } else d, written)

def lookup_delete (d : AugmentedDictionary) (key : List Bool) : Except Exc (AugmentedDictionary × Option CellSlice) := do
  d.force_validate
  if key.length ≠ d.key_bits then .ok (d, none)
  else do
    let (old_val, c) ← dict_lookup_delete (methods d.aug) d.root_cell key key.length
    .ok (if old_val.isSome then { d with root_cell := c } else d, d.extract_value old_val)

/-- Returns the key written to the buffer and the value with its extra. -/
def extract_minmax_key (d : AugmentedDictionary) (key_len : Nat) (fetch_max invert_first : Bool) :
    Except Exc (AugmentedDictionary × Option (List Bool × CellSlice)) := do
  d.force_validate
  if key_len ≠ d.key_bits then .ok (d, none)
  else match ← dict_lookup_minmax .chk_size d.root_cell key_len (minmax_mode fetch_max invert_first) with
    | none => .ok (d, none)
    | some (key, val) => do
      let (old_val, c) ← dict_lookup_delete (methods d.aug) d.root_cell key key_len
      if old_val.isNone then .error .check else .ok ({ d with root_cell := c }, some (key, val))

def filter (d : AugmentedDictionary) (check : FilterFunc) : Except Exc (AugmentedDictionary × Int) := do
  d.force_validate
  let res ← dict_filter (methods d.aug) check d.root_cell [] d.key_bits (-1)
  .ok (if res.changes > 0 then { d with root_cell := res.cell } else d, res.changes)

def cut_prefix_subdict (d : AugmentedDictionary) (pfx : List Bool) ( remove_prefix : Bool) :
    Except Exc (AugmentedDictionary × Bool) := do
  d.force_validate
  if pfx.length > d.key_bits ∧ remove_prefix then .ok (d, false)
  else do
    let (c, changed) ← extract_prefix_subdict_internal .chk_size d.key_bits d.root_cell pfx remove_prefix
    let key_bits := if remove_prefix then d.key_bits - pfx.length else d.key_bits
    .ok ({ d with root_cell := if changed then c else d.root_cell, key_bits }, true)

/-- `validate_check` and `validate_all` of a dictionary that was made from a key length. -/
def validate_all (d : AugmentedDictionary) : Except Exc Bool :=
  if d.key_bits > max_key_bits then .ok false
  else if d.root_cell.isNone then .ok true
  else dict_validate_check (methods d.aug) (fun _ _ => true) d.root_cell [] d.key_bits false

end AugmentedDictionary

end Dict

end Ton
