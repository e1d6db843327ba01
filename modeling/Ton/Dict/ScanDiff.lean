import Ton.Lib.Differences
import Ton.Dict.CombineSteps
import Ton.Dict.Reading
import Ton.Dict.Iteration
import Ton.Boc.BagOfCells
/-!
# scan_diff

`dict_scan_diff` walks two dictionaries side by side and shows the callback each key
at which they differ. The callback has a state, which is threaded through the walk; a
key that it refuses ends the walk.

Where one dictionary is empty, the walk is the same for the first and the second:
`dict_scan_one`.
-/

namespace Ton
open List

/-- Equal bits, and references with equal hashes. -/
def CellSlice.contents_equal (cs cs2 : CellSlice) : Bool :=
  cs.size == cs2.size && cs.size_refs == cs2.size_refs && cs.bits == cs2.bits &&
    cs.refs.map (·.get_hash CellTraits.max_level) == cs2.refs.map (·.get_hash CellTraits.max_level)

namespace Dict

open CellTraits Result BitMap LabelParser

/-! ## Walks that may stop -/

/-- A part of a walk: it returns whether to go on, and may throw. -/
abbrev Scan (σ : Type) := σ → Except Exc Bool × σ

namespace Scan

variable {σ α : Type}

def done : Scan σ := fun s => (.ok true, s)

def throw (e : Exc) : Scan σ := fun s => (.error e, s)

/-- `&&`. -/
def andThen (x y : Scan σ) : Scan σ := fun s =>
  match x s with
  | (.ok true, s) => y s
  | r => r

def get (x : Except Exc α) (k : α → Scan σ) : Scan σ :=
  match x with
  | .ok a => k a
  | .error e => throw e

@[simp] theorem get_ok (a : α) (k : α → Scan σ) : get (.ok a) k = k a := rfl

@[simp] theorem andThen_done (x : Scan σ) : x.andThen done = x := by
  funext s
  unfold andThen
  split
  · next h => exact h.symm
  · rfl

/-- What follows a part of a walk: it is left out after a refusal or an exception. -/
theorem andThen_cases (x y : Scan σ) (s : σ) :
    (∃ s', x s = (.ok true, s') ∧ x.andThen y s = y s') ∨ (x s).1 ≠ .ok true ∧ ∀ y, x.andThen y s = x s := by
  unfold andThen
  cases hx : x s with
  | mk r s' =>
    cases r with
    | error e => exact .inr ⟨by simp, fun _ => rfl⟩
    | ok b =>
      cases b with
      | false => exact .inr ⟨by simp, fun _ => rfl⟩
      | true => exact .inl ⟨s', rfl, rfl⟩

theorem andThen_assoc (x y z : Scan σ) : (x.andThen y).andThen z = x.andThen (y.andThen z) := by
  funext s
  rcases andThen_cases x y s with ⟨s', hx, hxy⟩ | ⟨hx, hstop⟩
  · rw [andThen, hxy, andThen, hx]
    rfl
  · rw [hstop, andThen, hstop]
    split
    · next h => exact absurd (congrArg Prod.fst h) hx
    · rfl

end Scan

/-- Takes the key and the values in the two dictionaries. -/
abbrev DiffFunc (σ : Type) := List Bool → Option CellSlice → Option CellSlice → Scan σ

/-! ## dict_scan_diff -/

section Scan
variable {σ : Type} (V : Virtual) (diff_func : DiffFunc σ)

def check_fork_raw (cs : CellSlice) (n : Nat) : Except Exc Bool :=
  match cs.refs with
  | c1 :: c2 :: refs => V.check_fork ⟨cs.bits, refs⟩ (some c1) (some c2) n
  | _ => .ok false

/-- A node is checked if `mode` asks for it. -/
def checked (asked : Bool) (ok : Except Exc Bool) (error : String) (k : Scan σ) : Scan σ :=
  if asked then .get ok fun ok => if ok then k else .throw (.vm .dict_err error) else k

/-- The walk when the other dictionary is empty: `dict` is the second one if `second`. -/
def dict_scan_one ( second : Bool) (dict : Option DataCell) (pre : List Bool) (n mode : Nat) : Scan σ :=
  match dict with
  | none => .done
  | some cell =>
    .get (LabelParser.parse cell n V.label_mode) fun label =>
      let (bits, label) := label.extract_label
      let l := label.l_bits
      let asked := mode.testBit second.toNat
      let which := if second then "second" else "first"
      if _h : l ≥ n then
        if l ≠ n then .throw .check
        else
          checked asked (.ok (V.check_leaf label.remainder (pre ++ bits))) ("invalid leaf in the " ++ which ++ " dictionary being compared")
            (if second then diff_func (pre ++ bits) none (some label.remainder) else diff_func (pre ++ bits) (some label.remainder) none)
      else
        checked asked (check_fork_raw V label.remainder (n - (l + 1) + 1)) ("invalid fork in the " ++ which ++ " dictionary being compared")
          (.andThen (dict_scan_one second (label.remainder.prefetch_ref 0) (pre ++ bits ++ [false]) (n - (l + 1)) mode)
            (dict_scan_one second (label.remainder.prefetch_ref 1) (pre ++ bits ++ [true]) (n - (l + 1)) mode))
termination_by n
decreasing_by all_goals omega

/-- The keys of `dict1` and `dict2` have `n` bits after the `skip1` and `skip2` first
ones, which are the bits before the key buffer. Bit 0 of `mode` asks for checks of
`dict1`, bit 1 for checks of `dict2`. -/
def dict_scan_diff (dict1 dict2 : Option DataCell) (pre : List Bool) (n mode skip1 skip2 : Nat) : Scan σ :=
  match dict1, dict2 with
  | none, none => .done
  | none, some dict2 => if skip2 ≠ 0 then .throw .check else dict_scan_one V diff_func true (some dict2) pre n mode
  | some dict1, none => if skip1 ≠ 0 then .throw .check else dict_scan_one V diff_func false (some dict1) pre n mode
  | some dict1, some dict2 =>
    if skip1 = skip2 ∧ dict1.get_hash max_level = dict2.get_hash max_level then .done
    else
      .get (LabelParser.parse dict1 (n + skip1) V.label_mode) fun label1 =>
      .get (LabelParser.parse dict2 (n + skip2) V.label_mode) fun label2 =>
      if ¬(skip1 ≤ label1.l_bits ∧ skip2 ≤ label2.l_bits) then .throw .check
      else if ¬(label1.common_prefix_len (before pre skip1) = skip1 ∧ label2.common_prefix_len (before pre skip2) = skip2) then
        .throw .check
      else
        let l1 := label1.l_bits - skip1
        let l2 := label2.l_bits - skip2
        let bits1 := label1.extract_label.1.drop skip1
        let rem1 := label1.extract_label.2.remainder
        let bits2 := label2.extract_label.1.drop skip2
        let rem2 := label2.extract_label.2.remainder
        let c := label2.common_prefix_len (before pre skip2 ++ bits1) - skip2
        if ¬(c ≤ l1 ∧ c ≤ l2) then .throw .check
        else if c < l1 ∧ c < l2 then
          -- the two dictionaries have disjoint keys
          let scan1 := dict_scan_one V diff_func false (some dict1) (pre.take (pre.length - skip1)) (n + skip1) mode
          let scan2 := dict_scan_one V diff_func true (some dict2) (pre.take (pre.length - skip2)) (n + skip2) mode
          if bits1.getD c false then scan2.andThen scan1 else scan1.andThen scan2
        else if c = l1 ∧ c = l2 then
          if c = n then
            checked (mode.testBit 0) (.ok (V.check_leaf rem1 (pre ++ bits1))) "invalid leaf in the first dictionary being compared" <|
            checked (mode.testBit 1) (.ok (V.check_leaf rem2 (pre ++ bits1))) "invalid leaf in the second dictionary being compared" <|
            if rem1.contents_equal rem2 then .done else diff_func (pre ++ bits1) (some rem1) (some rem2)
          else if _h : ¬c < n then .throw .check
          else
            checked (mode.testBit 0) (check_fork_raw V rem1 (n - (c + 1) + 1)) "invalid fork in the first dictionary being compared" <|
            checked (mode.testBit 1) (check_fork_raw V rem2 (n - (c + 1) + 1)) "invalid fork in the second dictionary being compared" <|
            .andThen (dict_scan_diff (rem1.prefetch_ref 0) (rem2.prefetch_ref 0) (pre ++ bits1 ++ [false]) (n - (c + 1)) mode 0 0)
              (dict_scan_diff (rem1.prefetch_ref 1) (rem2.prefetch_ref 1) (pre ++ bits1 ++ [true]) (n - (c + 1)) mode 0 0)
        -- a longer label has at most `n` bits, so the shorter one leads to a fork
        else if _h : ¬c < n then .throw .check
        else if c = l1 then
          checked (mode.testBit 0) (check_fork_raw V rem1 (n - c)) "invalid fork in the first dictionary being compared" <|
          let c1 := rem1.prefetch_ref 0
          let c2 := rem1.prefetch_ref 1
          if !bits2.getD c false then
            .andThen (dict_scan_diff c1 (some dict2) (pre ++ bits2.take c ++ [false]) (n - (c + 1)) mode 0 (skip2 + c + 1))
              (dict_scan_one V diff_func false c2 (pre ++ bits2.take c ++ [true]) (n - (c + 1)) mode)
          else
            .andThen (dict_scan_one V diff_func false c1 (pre ++ bits2.take c ++ [false]) (n - (c + 1)) mode)
              (dict_scan_diff c2 (some dict2) (pre ++ bits2.take c ++ [true]) (n - (c + 1)) mode 0 (skip2 + c + 1))
        else
          checked (mode.testBit 1) (check_fork_raw V rem2 (n - c)) "invalid fork in the second dictionary being compared" <|
          let c1 := rem2.prefetch_ref 0
          let c2 := rem2.prefetch_ref 1
          if !bits1.getD c false then
            .andThen (dict_scan_diff (some dict1) c1 (pre ++ bits1.take c ++ [false]) (n - (c + 1)) mode (skip1 + c + 1) 0)
              (dict_scan_one V diff_func true c2 (pre ++ bits1.take c ++ [true]) (n - (c + 1)) mode)
          else
            .andThen (dict_scan_one V diff_func true c1 (pre ++ bits1.take c ++ [false]) (n - (c + 1)) mode)
              (dict_scan_diff (some dict1) c2 (pre ++ bits1.take c ++ [true]) (n - (c + 1)) mode (skip1 + c + 1) 0)
termination_by n
decreasing_by all_goals omega

/-- `CombineError` is caught. -/
def Scan.caught (x : Scan σ) : Scan σ := fun s =>
  match x s with
  | (.error .combine, s) => (.ok false, s)
  | r => r

def DictionaryFixed.scan_diff (d dict2 : DictionaryFixed) (diff_func : DiffFunc σ) (check_augm : Nat) : Scan σ :=
  .get d.force_validate fun _ => .get dict2.force_validate fun _ =>
    if d.key_bits ≠ dict2.key_bits then .throw (.vm .dict_err "cannot compare dictionaries with different key lengths")
    else .caught (dict_scan_diff d.methods diff_func d.root_cell dict2.root_cell [] d.key_bits check_augm 0 0)

end Scan

/-! ## What a walk reports -/

/-- The callback is shown the keys one after the other, with their values in both maps. -/
def report {σ : Type} (diff_func : DiffFunc σ) (pre : List Bool) (f g : BitMap CellSlice) : List (List Bool) → Scan σ
  | [] => .done
  | k :: ks => (diff_func (pre ++ k) (f k) (g k)).andThen (report diff_func pre f g ks)

section Report
variable {σ : Type} {diff_func : DiffFunc σ} {pre p : List Bool} {f g f' g' : BitMap CellSlice} {ks ls : List (List Bool)}

theorem report_append : report diff_func pre f g (ks ++ ls) = (report diff_func pre f g ks).andThen (report diff_func pre f g ls) := by
  induction ks with
  | nil => rfl
  | cons k ks ih => rw [cons_append, report, ih, report, Scan.andThen_assoc]

theorem report_map (hf : ∀ k, f (p ++ k) = f' k) (hg : ∀ k, g (p ++ k) = g' k) :
    report diff_func pre f g (ks.map (p ++ ·)) = report diff_func (pre ++ p) f' g' ks := by
  induction ks with
  | nil => rfl
  | cons k ks ih => rw [map_cons, report, ih, report, hf, hg, append_assoc]

end Report

/-- The walk reports exactly the differences of `f` and `g`, whose keys have the bits `pre` before them. -/
def Scans {σ : Type} (diff_func : DiffFunc σ) (pre : List Bool) (f g : BitMap CellSlice) (walk : Scan σ) : Prop :=
  ∃ ks, Differences f g ks ∧ walk = report diff_func pre f g ks

section Scans
variable {σ : Type} {diff_func : DiffFunc σ} {pre p : List Bool} {f g f' g' : BitMap CellSlice} {walk walk' : Scan σ}

theorem scans_same (f : BitMap CellSlice) : Scans diff_func pre f f .done := ⟨[], differences_self f, rfl⟩

theorem Scans.under (h : Scans diff_func (pre ++ p) f g walk) : Scans diff_func pre (under p f) (under p g) walk := by
  obtain ⟨ks, hks, rfl⟩ := h
  exact ⟨ks.map (p ++ ·), hks.under p, (report_map (under_append p · f) (under_append p · g)).symm⟩

theorem Scans.of_under (h : Scans diff_func pre (BitMap.under p f) (BitMap.under p g) walk) : Scans diff_func (pre ++ p) f g walk := by
  obtain ⟨ks, hks, rfl⟩ := h
  obtain ⟨ls, rfl, hls⟩ := hks.of_under
  exact ⟨ls, hls, report_map (under_append p · f) (under_append p · g)⟩

theorem Scans.split (h0 : Scans diff_func (pre ++ [false]) f g walk) (h1 : Scans diff_func (pre ++ [true]) f' g' walk') :
    Scans diff_func pre (split f f') (split g g') (walk.andThen walk') := by
  obtain ⟨ks, hks, rfl⟩ := h0
  obtain ⟨ls, hls, rfl⟩ := h1
  refine ⟨_, hks.split hls, ?_⟩
  rw [report_append, report_map (p := [false]) (show ∀ k, split f f' ([false] ++ k) = f k from fun _ => rfl)
    (show ∀ k, split g g' ([false] ++ k) = g k from fun _ => rfl),
    report_map (p := [true]) (show ∀ k, split f f' ([true] ++ k) = f' k from fun _ => rfl)
      (show ∀ k, split g g' ([true] ++ k) = g' k from fun _ => rfl)]

theorem scans_leaf {v w : Option CellSlice} (hne : v ≠ w) :
    Scans diff_func pre (v.elim empty single) (w.elim empty single) (diff_func pre v w) := by
  have hnil : ∀ o : Option CellSlice, (o.elim empty single : BitMap CellSlice) [] = o := fun o => by
    cases o with
    | none => rfl
    | some v => exact single_nil v
  have hoff : ∀ (o : Option CellSlice) k, k ≠ [] → (o.elim empty single : BitMap CellSlice) k = none := fun o k hk => by
    cases o with
    | none => rfl
    | some v => exact Function.update_of_ne hk _ _
  refine ⟨[[]], differences_nil (by rwa [hnil, hnil]) (hoff v) (hoff w), ?_⟩
  rw [report, report, Scan.andThen_done, hnil, hnil, append_nil]

end Scans

end Dict

end Ton
