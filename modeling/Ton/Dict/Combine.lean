import Ton.Dict.Refine
/-!
# Whole-dictionary operations

`map`, `filter` and `combine_with`. The key buffer is the list `pre` of the bits
before the current node. Each leaf is visited at most once, so a callback is a
function of the value and the key.
-/

namespace Ton.Dict

open BigEndian CellTraits CellBuilder Result BitMap LabelParser

/-! ## Forks of what is left -/

/-- The new children of a fork under the edge `bits`, of which either may be empty: a
fork, an edge merged with the one below it, or nothing. -/
def join_children (V : Virtual) (bits : List Bool) (n : Nat) (c1 c2 : Option DataCell) : Except Exc (Option DataCell) :=
  match c1, c2 with
  | none, none => .ok none
  | some c1, some c2 => do
    let cb ← append_dict_label {} bits n
    some <$> V.finish_create_fork cb c1 c2 (n - bits.length)
  | some c1, none => do
    let label3 ← LabelParser.parse c1 (n - bits.length - 1) V.label_mode
    let (bits3, label3) := label3.extract_label
    some <$> relabel_edge (bits ++ [false] ++ bits3) n label3.remainder
      "cannot change label of an old dictionary cell while merging edges"
  | none, some c2 => do
    let label3 ← LabelParser.parse c2 (n - bits.length - 1) V.label_mode
    let (bits3, label3) := label3.extract_label
    some <$> relabel_edge (bits ++ [true] ++ bits3) n label3.remainder
      "cannot change label of an old dictionary cell while merging edges"

/-! ## map -/

/-- Stores the new value of a key; `none` leaves the key out. -/
abbrev MapFunc := CellBuilder → CellSlice → List Bool → Option CellBuilder

/-- `dict_map` stores the two references of a fork itself. -/
def Virtual.map : Virtual where
  label_mode := .chk_all
  finish_create_fork cb c1 c2 _ := do
    let cb ← cb.store_ref c1
    let cb ← cb.store_ref c2
    cb.finalize false

def dict_map (map_func : MapFunc) (dict : Option DataCell) (pre : List Bool) (n : Nat) : Except Exc (Option DataCell) :=
  match dict with
  | none => .ok none
  | some cell => do
    let label ← LabelParser.parse cell n .chk_all
    let (bits, label) := label.extract_label
    let l := label.l_bits
    if l = n then do
      let cb ← append_dict_label {} bits n
      match map_func cb label.remainder (pre ++ bits) with
      | none => .ok none
      | some cb => some <$> cb.finalize false
    else if _h : ¬l < n then .error .check
    else do
      let c1 ← dict_map map_func (label.remainder.prefetch_ref 0) (pre ++ bits ++ [false]) (n - l - 1)
      let c2 ← dict_map map_func (label.remainder.prefetch_ref 1) (pre ++ bits ++ [true]) (n - l - 1)
      join_children .map bits n c1 c2
termination_by n
decreasing_by all_goals omega

/-! ## filter -/

/-- Negative: an error; zero: drop; positive: keep; from `2 ^ 30` on: and the same for
all that follows. -/
abbrev FilterFunc := CellSlice → List Bool → Int

/-- The result of a filtered subtree: the new cell and the number of changes (zero:
the subtree is unchanged), and the new `skip_rest`. -/
structure Filtered where
  cell : Option DataCell
  changes : Int
  skip_rest : Int

def dict_filter (V : Virtual) (check_leaf : FilterFunc) (dict : Option DataCell) (pre : List Bool) (n : Nat)
    (skip_rest : Int) : Except Exc Filtered :=
  match dict with
  | none => .ok ⟨none, 0, skip_rest⟩
  | some cell =>
    if skip_rest ≥ 0 then .ok ⟨none, skip_rest, skip_rest⟩
    else do
      let label ← LabelParser.parse cell n V.label_mode
      let (bits, label) := label.extract_label
      if _h : ¬label.l_bits ≤ n then .error .check
      else if _hn : label.l_bits = n then
        let res := check_leaf label.remainder (pre ++ bits)
        let res' := if res ≥ 2 ^ 30 then res % 2 ^ 30 else res
        let skip_rest := if res ≥ 2 ^ 30 then if res' ≠ 0 then 0 else 2 ^ 30 else skip_rest
        .ok ⟨none, if res' < 0 then res' else if res' = 0 then 1 else 0, skip_rest⟩
      else do
        let left_res ← dict_filter V check_leaf (label.remainder.prefetch_ref 0) (pre ++ bits ++ [false])
          (n - label.l_bits - 1) skip_rest
        if left_res.changes < 0 then .ok left_res
        else do
          let right_res ← dict_filter V check_leaf (label.remainder.prefetch_ref 1) (pre ++ bits ++ [true])
            (n - label.l_bits - 1) left_res.skip_rest
          -- `(left_res.second | right_res.second) <= 0`
          if right_res.changes < 0 ∨ (left_res.changes = 0 ∧ right_res.changes = 0) then .ok right_res
          else do
            let left := if left_res.changes ≠ 0 then left_res.cell else label.remainder.prefetch_ref 0
            let right := if right_res.changes ≠ 0 then right_res.cell else label.remainder.prefetch_ref 1
            let changes := if left_res.changes.toNat.testBit 30 || right_res.changes.toNat.testBit 30 then 2 ^ 30
              else left_res.changes + right_res.changes
            let c ← join_children V bits n left right
            .ok ⟨c, changes, right_res.skip_rest⟩
termination_by n
decreasing_by all_goals omega

/-! ## combine_with -/

/-- Stores the combination of two values of a key; `none` leaves the key out. -/
abbrev CombineFunc := CellBuilder → CellSlice → CellSlice → List Bool → Except Exc (Option CellBuilder)

/-- The last `k` bits before the key buffer. -/
def before (pre : List Bool) (k : Nat) : List Bool := pre.drop (pre.length - k)

/-- The keys of `dict1` and `dict2` have `n` bits after the `skip1` and `skip2` first
ones, which are the bits before the key buffer. Bit 0 of `mode` forbids an empty
`dict1`, bit 1 an empty `dict2`. -/
def dict_combine_with (V : Virtual) (combine_func : CombineFunc) (dict1 dict2 : Option DataCell) (pre : List Bool)
    (n mode skip1 skip2 : Nat) : Except Exc (Option DataCell) :=
  match dict1, dict2 with
  | none, dict2 =>
    if skip2 ≠ 0 then .error .check
    else if mode % 2 = 1 ∧ dict2.isNone then .error .combine
    else .ok dict2
  | some dict1, none =>
    if skip1 ≠ 0 then .error .check else if mode / 2 % 2 = 1 then .error .combine else .ok (some dict1)
  | some dict1, some dict2 => do
    let label1 ← LabelParser.parse dict1 (n + skip1) V.label_mode
    let label2 ← LabelParser.parse dict2 (n + skip2) V.label_mode
    if ¬(skip1 ≤ label1.l_bits ∧ skip2 ≤ label2.l_bits) then .error .check
    else if ¬(label1.common_prefix_len (before pre skip1) = skip1 ∧ label2.common_prefix_len (before pre skip2) = skip2) then
      .error .check
    else
      let l1 := label1.l_bits - skip1
      let l2 := label2.l_bits - skip2
      let bits1 := label1.extract_label.1.drop skip1
      let rem1 := label1.extract_label.2.remainder
      let bits2 := label2.extract_label.1.drop skip2
      let rem2 := label2.extract_label.2.remainder
      let c := label2.common_prefix_len (before pre skip2 ++ bits1) - skip2
      if ¬(c ≤ l1 ∧ c ≤ l2) then .error .check
      else if c < l1 ∧ c < l2 then
        -- the two dictionaries have disjoint keys
        if mode % 4 ≠ 0 then .error .combine
        else do
          let d1 ← relabel_edge (bits1.drop (c + 1)) (n - c - 1) rem1
            "cannot prune label of an old dictionary cell while merging dictionaries"
          let d2 ← relabel_edge (bits2.drop (c + 1)) (n - c - 1) rem2
            "cannot change label of an old dictionary cell while merging edges"
          let cb ← append_dict_label {} (bits1.take c) n
          if bits2.getD c false then some <$> V.finish_create_fork cb d1 d2 (n - c)
          else some <$> V.finish_create_fork cb d2 d1 (n - c)
      else if c = l1 ∧ c = l2 then
        if c = n then do
          let cb ← append_dict_label {} bits1 n
          match ← combine_func cb rem1 rem2 (pre ++ bits1) with
          | none => .ok none
          | some cb => some <$> cb.finalize false
        else if _h : ¬c < n then .error .check
        else do
          let c1 ← dict_combine_with V combine_func (rem1.prefetch_ref 0) (rem2.prefetch_ref 0) (pre ++ bits1 ++ [false])
            (n - c - 1) 0 0 0
          let c2 ← dict_combine_with V combine_func (rem1.prefetch_ref 1) (rem2.prefetch_ref 1) (pre ++ bits1 ++ [true])
            (n - c - 1) 0 0 0
          join_children V bits1 n c1 c2
      -- a longer label has at most `n` bits, so the shorter one leads to a fork
      else if _h : ¬c < n then .error .check
      else if c = l1 then
        if mode / 2 % 2 = 1 then .error .combine
        else do
          let sw := bits2.getD c false
          let child ← dict_combine_with V combine_func (rem1.prefetch_ref sw.toNat) (some dict2) (pre ++ bits1 ++ [sw])
            (n - c - 1) mode 0 (skip2 + c + 1)
          if (rem1.prefetch_ref (!sw).toNat).isNone then .error .check
          else if sw then join_children V bits1 n (rem1.prefetch_ref 0) child
          else join_children V bits1 n child (rem1.prefetch_ref 1)
      else
        if mode % 2 = 1 then .error .combine
        else do
          let sw := bits1.getD c false
          let child ← dict_combine_with V combine_func (some dict1) (rem2.prefetch_ref sw.toNat) (pre ++ bits2 ++ [sw])
            (n - c - 1) mode (skip1 + c + 1) 0
          if (rem2.prefetch_ref (!sw).toNat).isNone then .error .check
          else if sw then join_children V bits2 n (rem2.prefetch_ref 0) child
          else join_children V bits2 n child (rem2.prefetch_ref 1)
termination_by n
decreasing_by all_goals omega

namespace Dictionary

def map (d : Dictionary) (map_func : MapFunc) : Except Exc Dictionary := do
  d.force_validate
  let c ← dict_map map_func d.root_cell [] d.key_bits
  .ok { d with root_cell := c }

def filter (d : Dictionary) (check_leaf : FilterFunc) : Except Exc (Dictionary × Int) := do
  d.force_validate
  let res ← dict_filter .fixed check_leaf d.root_cell [] d.key_bits (-1)
  .ok (if res.changes > 0 then { d with root_cell := res.cell } else d, res.changes)

/-- `CombineError` is caught, and the dictionary stays as it was. -/
def combine_with (d dict2 : Dictionary) (combine_func : CombineFunc) (mode : Nat) : Except Exc (Dictionary × Bool) := do
  d.force_validate
  dict2.force_validate
  if d.key_bits ≠ dict2.key_bits then .error (.vm .dict_err "cannot combine dictionaries with different key lengths")
  else match dict_combine_with .fixed combine_func d.root_cell dict2.root_cell [] d.key_bits mode 0 0 with
    | .ok c => .ok ({ d with root_cell := c }, true)
    | .error .combine => .ok (d, false)
    | .error e => .error e

end Dictionary

end Ton.Dict
