import Mathlib.Data.List.TakeWhile
import Ton.Cells.Slice
/-!
# Edge labels

`LabelParser`, `append_dict_label` and `append_dict_label_same` of `dict.cpp`.
`labelBits` is the form in which both writers put a label (`append_dict_label_ok`,
`append_dict_label_same_ok`), and the parser reads it back (`parse_labelBits`).
What a parser then answers is stated over `Reads`: the label and the payload it
stands before.
-/

namespace Ton.Dict
open BigEndian CellTraits CellBuilder Result List

/-- `32 - count_leading_zeroes32(x)`. -/
def len_bits (x : Nat) : Nat := if x = 0 then 0 else x.log2 + 1

/-- `bits_memscan`. -/
def bits_memscan (l : List Bool) (b : Bool) : Nat := (l.takeWhile (· == b)).length

/-- The `same_upto` of `bits_memcmp`: how many bits agree at the start. -/
def same_upto : List Bool → List Bool → Nat
  | a :: as, b :: bs => if a = b then same_upto as bs + 1 else 0
  | _, _ => 0

/-! ## The parser -/

/-- A parsed label. `l_same` is 0, or 6 or 7 for a constant label, whose bits do
not stand in the remainder; `l_offs`, which only says that the label is valid, is
left out. -/
structure LabelParser where
  remainder : CellSlice
  l_same : Nat
  l_bits : Nat
  s_bits : Nat

/-- The values of `auto_validate` in use. -/
inductive Check where
  | chk_min
  | chk_size
  | chk_all
  deriving DecidableEq

namespace LabelParser

/-- `parse_label`, and the fields the constructor then sets. -/
def parse_label (cs : CellSlice) (max_label_len : Nat) : Option LabelParser :=
  match cs.prefetch_ulong 2 with
  | some 0 => some ⟨cs.advance 2, 0, 0, 0⟩
  | some 1 =>
    let cs := cs.advance 1
    let l_bits := cs.count_leading true
    if l_bits > max_label_len || !cs.have_bits (2 * l_bits + 1) then none
    else some ⟨cs.advance (l_bits + 1), 0, l_bits, l_bits⟩
  | some 2 =>
    match (cs.advance 2).fetch_ulong (len_bits max_label_len) with
    | (some l_bits, cs) =>
      if l_bits > max_label_len || !cs.have_bits l_bits then none else some ⟨cs, 0, l_bits, l_bits⟩
    | (none, _) => none
  | some 3 =>
    if !cs.have_bits (3 + len_bits max_label_len) then none
    else match cs.fetch_ulong 3 with
      | (some l_same, cs) =>
        match cs.fetch_ulong (len_bits max_label_len) with
        | (some l_bits, cs) => if l_bits > max_label_len then none else some ⟨cs, l_same, l_bits, 0⟩
        | (none, _) => none
      | (none, _) => none
  | _ => none

/-- `validate`, `validate_simple` and `validate_ext` of a parsed label. -/
def validate (p : LabelParser) (n : Nat) : Check → Except Exc Unit
  | .chk_min => .ok ()
  | .chk_size =>
    if p.l_bits > n then .error (.vm .dict_err "invalid dictionary node")
    else if p.l_bits < n ∧ (p.remainder.size < p.s_bits ∨ p.remainder.size_refs < 2) then
      .error (.vm .dict_err "invalid dictionary fork node")
    else .ok ()
  | .chk_all =>
    if p.l_bits > n then .error (.vm .dict_err "invalid dictionary node")
    else if p.l_bits < n ∧ (p.remainder.size ≠ p.s_bits ∨ p.remainder.size_refs ≠ 2) then
      .error (.vm .dict_err "invalid dictionary fork node")
    else .ok ()

/-- The constructor. -/
def parse (cell : DataCell) (max_label_len : Nat) (auto_validate : Check) : Except Exc LabelParser := do
  let cs ← load_cell_slice cell
  match parse_label cs max_label_len with
  | none => .error (.vm .cell_und "error while parsing a dictionary node label")
  | some p => do
    p.validate max_label_len auto_validate
    .ok p

/-- `l_same & 1`. -/
def same_bit (p : LabelParser) : Bool := p.l_same % 2 = 1

def is_prefix_of (p : LabelParser) (key : List Bool) : Bool :=
  if p.l_bits > key.length then false
  else if p.l_same = 0 then decide (p.l_bits ≤ p.remainder.size ∧ p.remainder.bits.take p.l_bits = key.take p.l_bits)
  else bits_memscan (key.take p.l_bits) p.same_bit = p.l_bits

def common_prefix_len (p : LabelParser) (key : List Bool) : Nat :=
  let len := min p.l_bits key.length
  if p.l_same = 0 then same_upto (p.remainder.bits.take len) (key.take len)
  else bits_memscan (key.take len) p.same_bit

/-- `extract_label_to`: the bits written, and the parser after it. -/
def extract_label (p : LabelParser) : List Bool × LabelParser :=
  if p.l_same = 0 then (p.remainder.bits.take p.l_bits, { p with remainder := p.remainder.advance p.l_bits })
  else (List.replicate p.l_bits p.same_bit, p)

def skip_label (p : LabelParser) : LabelParser := { p with remainder := p.remainder.advance p.s_bits }

end LabelParser

/-! ## The writers -/

def append_dict_label_same (cb : CellBuilder) (same : Bool) (len max_len : Nat) : Except Exc CellBuilder :=
  let k := len_bits max_len
  if ¬(len ≤ max_len ∧ max_len ≤ 1023) then .error .check
  else if len > 1 ∧ k < 2 * len - 1 then do
    let cb ← cb.store_long (6 + same.toNat) 3
    cb.store_long len k
  else if k < len then do
    let cb ← cb.store_long 2 2
    let cb ← cb.store_long len k
    cb.store_long (-same.toNat) len
  else do
    let cb ← cb.store_long 0 1
    let cb ← cb.store_long (-2) (len + 1)
    cb.store_long (-same.toNat) len

/-- `len` is the length of `label`. -/
def append_dict_label (cb : CellBuilder) (label : List Bool) (max_len : Nat) : Except Exc CellBuilder :=
  let len := label.length
  if ¬(len ≤ max_len ∧ max_len ≤ 1023) then .error .check
  else if len > 0 ∧ bits_memscan label (label.headD false) = len then
    append_dict_label_same cb (label.headD false) len max_len
  else do
    let k := len_bits max_len
    let cb ← if k < len then do
        let cb ← cb.store_long 2 2
        cb.store_long len k
      else do
        let cb ← cb.store_long 0 1
        cb.store_long (-2) (len + 1)
    if cb.remaining_bits < len then .error (.vm .cell_ov "cannot store a label into a dictionary cell")
    else cb.store_bits label

/-- The form of a label in a cell. -/
def labelBits (label : List Bool) (max_len : Nat) : List Bool :=
  let k := len_bits max_len
  let len := label.length
  if len > 1 ∧ k < 2 * len - 1 ∧ label = List.replicate len (label.headD false) then
    [true, true, label.headD false] ++ toBits k len
  else if k < len then [true, false] ++ toBits k len ++ label
  else false :: List.replicate len true ++ [false] ++ label

/-! ## Bits -/

theorem lt_two_pow_len_bits (x : Nat) : x < 2 ^ len_bits x := by
  unfold len_bits
  split
  · next h => simp [h]
  · exact Nat.lt_log2_self

theorem len_bits_le_of_le {x : Nat} (hx : x ≤ 1023) : len_bits x ≤ 10 := by
  unfold len_bits
  split
  · omega
  · next h =>
    have : x.log2 < 10 := (Nat.log2_lt h).2 (by omega)
    omega

theorem ofBits_toBits_of_lt {w x : Nat} (h : x < 2 ^ w) : ofBits (toBits w x) = x := by
  rw [ofBits_toBits, Nat.mod_eq_of_lt h]

theorem toBits_neg_two (len : Nat) : toBits (len + 1) ((-2 : Int) % 2 ^ (len + 1)).toNat = List.replicate len true ++ [false] := by
  have hp : 0 < 2 ^ len := Nat.two_pow_pos len
  have e : ((-2 : Int) % 2 ^ (len + 1)).toNat = ofBits (List.replicate len true ++ [false]) := by
    rw [ofBits_append, ofBits_replicate]
    have hmod : (-2 : Int) % 2 ^ (len + 1) = 2 ^ (len + 1) - 2 := by
      rw [← Int.add_emod_right, Int.emod_eq_of_lt]
      · ring
      · have : (1 : Int) ≤ 2 ^ len := by exact_mod_cast hp
        rw [pow_succ]; omega
      · omega
    rw [hmod, show (2 : Int) ^ (len + 1) - 2 = ((2 ^ (len + 1) - 2 : Nat) : Int) by
      rw [Nat.cast_sub (by rw [pow_succ]; omega)]; simp]
    simp only [Int.toNat_natCast, if_true, length_singleton, Nat.pow_succ]
    have : ofBits [false] = 0 := rfl
    omega
  rw [e]
  simpa using toBits_ofBits (List.replicate len true ++ [false])

theorem toBits_neg_bool (same : Bool) (len : Nat) :
    toBits len ((-same.toNat : Int) % 2 ^ len).toNat = List.replicate len same := by
  have e : ((-same.toNat : Int) % 2 ^ len).toNat = ofBits (List.replicate len same) := by
    rw [ofBits_replicate]
    cases same with
    | false => simp
    | true =>
      have hp : 0 < 2 ^ len := Nat.two_pow_pos len
      have hmod : (-1 : Int) % 2 ^ len = 2 ^ len - 1 := by
        rw [← Int.add_emod_right, Int.emod_eq_of_lt]
        · ring
        · have : (1 : Int) ≤ 2 ^ len := by exact_mod_cast hp
          omega
        · omega
      simp only [Bool.toNat_true, Nat.cast_one, if_true, hmod]
      rw [show (2 : Int) ^ len - 1 = ((2 ^ len - 1 : Nat) : Int) by rw [Nat.cast_sub (by omega)]; simp]
      exact Int.toNat_natCast _
  rw [e]
  simpa using toBits_ofBits (List.replicate len same)

theorem bits_memscan_eq_length {l : List Bool} {b : Bool} : bits_memscan l b = l.length ↔ l = List.replicate l.length b := by
  unfold bits_memscan
  constructor
  · intro h
    have e : l.takeWhile (· == b) = l := (List.takeWhile_prefix _).eq_of_length h
    rw [takeWhile_eq_self_iff] at e
    exact eq_replicate_iff.2 ⟨rfl, fun x hx => by simpa using e x hx⟩
  · intro h
    rw [h]
    simp

/-! ## Writing -/

theorem toBits_natCast_emod {k len : Nat} : toBits k ((len : Int) % 2 ^ k).toNat = toBits k len := by
  have e : ((len : Int) % 2 ^ k).toNat = len % 2 ^ k := by
    rw [show ((len : Int) % 2 ^ k) = ((len % 2 ^ k : Nat) : Int) by simp]
    exact Int.toNat_natCast _
  have h := toBits_ofBits (toBits k len)
  rw [ofBits_toBits, toBits_length] at h
  rw [e, h]

theorem labelBits_replicate (b : Bool) (len max_len : Nat) : labelBits (List.replicate len b) max_len =
    if len > 1 ∧ len_bits max_len < 2 * len - 1 then [true, true, b] ++ toBits (len_bits max_len) len
    else if len_bits max_len < len then [true, false] ++ toBits (len_bits max_len) len ++ List.replicate len b
    else false :: List.replicate len true ++ [false] ++ List.replicate len b := by
  unfold labelBits
  cases len with
  | zero => simp
  | succ len => simp [replicate_succ]

theorem append_dict_label_same_ok {cb cb' : CellBuilder} {same : Bool} {len max_len : Nat}
    (h : append_dict_label_same cb same len max_len = .ok cb') :
    len ≤ max_len ∧ max_len ≤ 1023 ∧ cb' = { cb with bits := cb.bits ++ labelBits (List.replicate len same) max_len } := by
  unfold append_dict_label_same at h
  rw [labelBits_replicate]
  dsimp only at h
  split at h
  · cases h
  · next hlen =>
    obtain ⟨h₁, h₂⟩ := not_not.1 hlen
    refine ⟨h₁, h₂, ?_⟩
    split at h
    · next hc =>
      obtain ⟨cb₁, e₁, h⟩ := bind_ok.1 h
      rw [store_long_ok h, store_long_ok e₁, if_pos hc, toBits_natCast_emod, append_assoc]
      cases same <;> rfl
    · next hc =>
      rw [if_neg hc]
      split at h
      · next hk =>
        obtain ⟨cb₁, e₁, h⟩ := bind_ok.1 h
        obtain ⟨cb₂, e₂, h⟩ := bind_ok.1 h
        rw [store_long_ok h, store_long_ok e₂, store_long_ok e₁, if_pos hk, toBits_natCast_emod, toBits_neg_bool]
        simp only [append_assoc]
        rfl
      · next hk =>
        obtain ⟨cb₁, e₁, h⟩ := bind_ok.1 h
        obtain ⟨cb₂, e₂, h⟩ := bind_ok.1 h
        rw [store_long_ok h, store_long_ok e₂, store_long_ok e₁, if_neg hk, toBits_neg_two, toBits_neg_bool]
        simp only [append_assoc]
        rfl

theorem append_dict_label_ok {cb cb' : CellBuilder} {label : List Bool} {max_len : Nat}
    (h : append_dict_label cb label max_len = .ok cb') :
    label.length ≤ max_len ∧ max_len ≤ 1023 ∧ cb' = { cb with bits := cb.bits ++ labelBits label max_len } := by
  unfold append_dict_label at h
  dsimp only at h
  split at h
  · cases h
  · next hlen =>
    obtain ⟨h₁, h₂⟩ := not_not.1 hlen
    split at h
    · next hs =>
      obtain ⟨-, -, e⟩ := append_dict_label_same_ok h
      rw [bits_memscan_eq_length] at hs
      rw [← hs.2] at e
      exact ⟨h₁, h₂, e⟩
    · next hs =>
      -- a label that is not constant, or empty
      have hns : ¬(label.length > 1 ∧ len_bits max_len < 2 * label.length - 1 ∧
          label = List.replicate label.length (label.headD false)) := by
        rintro ⟨hl, -, e⟩
        exact hs ⟨by omega, bits_memscan_eq_length.2 e⟩
      refine ⟨h₁, h₂, ?_⟩
      unfold labelBits
      dsimp only
      rw [if_neg hns]
      split at h
      · next hk =>
        obtain ⟨cb₁, e₁, h⟩ := bind_ok.1 h
        obtain ⟨cb₂, e₂, h⟩ := bind_ok.1 h
        split at h
        · cases h
        · rw [store_bits_ok h, store_long_ok e₂, store_long_ok e₁, if_pos hk, toBits_natCast_emod]
          simp only [append_assoc]
          rfl
      · next hk =>
        obtain ⟨cb₁, e₁, h⟩ := bind_ok.1 h
        obtain ⟨cb₂, e₂, h⟩ := bind_ok.1 h
        split at h
        · cases h
        · rw [store_bits_ok h, store_long_ok e₂, store_long_ok e₁, if_neg hk, toBits_neg_two]
          simp only [append_assoc]
          rfl

/-! ## Reading -/

/-- The parser has read `label` and stands before `payload`. -/
structure LabelParser.Reads (p : LabelParser) (label : List Bool) (payload : CellSlice) : Prop where
  l_bits : p.l_bits = label.length
  cases : (p.l_same = 0 ∧ p.s_bits = label.length ∧ p.remainder = ⟨label ++ payload.bits, payload.refs⟩) ∨
    (p.l_same ≠ 0 ∧ label = List.replicate label.length p.same_bit ∧ p.s_bits = 0 ∧ p.remainder = payload)

section Slices
variable (a b : List Bool) (refs : List DataCell) (n : Nat) (hn : a.length = n)
include hn

theorem have_bits_append : CellSlice.have_bits ⟨a ++ b, refs⟩ n = true := by
  simp [CellSlice.have_bits, CellSlice.size, ← hn]

theorem advance_append : CellSlice.advance ⟨a ++ b, refs⟩ n = ⟨b, refs⟩ := by
  rw [CellSlice.advance, if_pos (have_bits_append a b refs n hn), ← hn, drop_left]

theorem prefetch_ulong_append (h64 : n ≤ 64) : CellSlice.prefetch_ulong ⟨a ++ b, refs⟩ n = some (ofBits a) := by
  have hh := have_bits_append a b refs n hn
  subst hn
  simp [CellSlice.prefetch_ulong, hh, h64]

theorem fetch_ulong_append (h64 : n ≤ 64) :
    CellSlice.fetch_ulong ⟨a ++ b, refs⟩ n = (some (ofBits a), ⟨b, refs⟩) := by
  have hh := have_bits_append a b refs n hn
  have ha := advance_append a b refs n hn
  subst hn
  simp [CellSlice.fetch_ulong, hh, ha, h64]

end Slices

theorem count_leading_ones (n : Nat) (l : List Bool) (refs : List DataCell) :
    CellSlice.count_leading ⟨List.replicate n true ++ false :: l, refs⟩ true = n := by
  simp [CellSlice.count_leading]

section Parse
variable (label : List Bool) (max_len : Nat) (payload : CellSlice)

theorem parse_label_same (b : Bool) (hl : label.length ≤ max_len) (hmax : max_len ≤ 1023) :
    LabelParser.parse_label ⟨[true, true, b] ++ (toBits (len_bits max_len) label.length ++ payload.bits), payload.refs⟩
      max_len = some ⟨payload, 6 + b.toNat, label.length, 0⟩ := by
  have hk := len_bits_le_of_le hmax
  have hlt : label.length < 2 ^ len_bits max_len := hl.trans_lt (lt_two_pow_len_bits max_len)
  have hb : ofBits [true, true, b] = 6 + b.toNat := by cases b <;> rfl
  have hhave : CellSlice.have_bits ⟨[true, true, b] ++ (toBits (len_bits max_len) label.length ++ payload.bits),
      payload.refs⟩ (3 + len_bits max_len) = true := by
    rw [← append_assoc]
    exact have_bits_append _ _ _ _ (by simp; omega)
  have h2 : CellSlice.prefetch_ulong ⟨[true, true, b] ++ (toBits (len_bits max_len) label.length ++ payload.bits),
      payload.refs⟩ 2 = some 3 := prefetch_ulong_append [true, true] (b :: _) _ 2 rfl (by omega)
  unfold LabelParser.parse_label
  simp only [h2, hhave,
    fetch_ulong_append [true, true, b] (toBits (len_bits max_len) label.length ++ payload.bits) payload.refs 3 rfl (by omega),
    fetch_ulong_append (toBits (len_bits max_len) label.length) payload.bits payload.refs (len_bits max_len) (by simp)
      (by omega), ofBits_toBits_of_lt hlt, hb]
  simp [show ¬max_len < label.length by omega]

theorem parse_label_long (hl : label.length ≤ max_len) (hmax : max_len ≤ 1023) :
    LabelParser.parse_label ⟨[true, false] ++ (toBits (len_bits max_len) label.length ++ (label ++ payload.bits)),
      payload.refs⟩ max_len = some ⟨⟨label ++ payload.bits, payload.refs⟩, 0, label.length, label.length⟩ := by
  have hk := len_bits_le_of_le hmax
  have hlt : label.length < 2 ^ len_bits max_len := hl.trans_lt (lt_two_pow_len_bits max_len)
  unfold LabelParser.parse_label
  rw [prefetch_ulong_append [true, false] _ _ 2 rfl (by omega)]
  simp only [show ofBits [true, false] = 2 from rfl, advance_append [true, false] _ payload.refs 2 rfl,
    fetch_ulong_append (toBits (len_bits max_len) label.length) (label ++ payload.bits) payload.refs (len_bits max_len)
      (by simp) (by omega), ofBits_toBits_of_lt hlt, have_bits_append label payload.bits payload.refs label.length rfl]
  simp [show ¬max_len < label.length by omega]

theorem parse_label_short (hl : label.length ≤ max_len) :
    LabelParser.parse_label ⟨false :: (List.replicate label.length true ++ false :: (label ++ payload.bits)), payload.refs⟩
      max_len = some ⟨⟨label ++ payload.bits, payload.refs⟩, 0, label.length, label.length⟩ := by
  unfold LabelParser.parse_label
  cases label with
  | nil =>
    have h2 : CellSlice.prefetch_ulong ⟨[false, false] ++ payload.bits, payload.refs⟩ 2 = some 0 :=
      prefetch_ulong_append [false, false] _ _ 2 rfl (by omega)
    have ha := advance_append [false, false] payload.bits payload.refs 2 rfl
    simp only [cons_append, nil_append] at h2 ha
    simp only [length_nil, replicate_zero, nil_append, h2, ha]
  | cons b l =>
    have h2 : CellSlice.prefetch_ulong ⟨false :: (List.replicate (b :: l).length true ++ false :: (b :: l ++ payload.bits)),
        payload.refs⟩ 2 = some 1 :=
      prefetch_ulong_append [false, true] (List.replicate l.length true ++ false :: (b :: l ++ payload.bits)) _ 2 rfl
        (by omega)
    have hbody := advance_append (List.replicate (b :: l).length true ++ [false]) (b :: l ++ payload.bits) payload.refs
      ((b :: l).length + 1) (by simp)
    rw [append_assoc, singleton_append] at hbody
    have hhave : CellSlice.have_bits ⟨List.replicate (b :: l).length true ++ false :: (b :: l ++ payload.bits),
        payload.refs⟩ (2 * (b :: l).length + 1) = true := by
      simp [CellSlice.have_bits, CellSlice.size]
      omega
    have h1 := advance_append [false] (List.replicate (b :: l).length true ++ false :: (b :: l ++ payload.bits))
      payload.refs 1 rfl
    rw [singleton_append] at h1
    simp only [h2, h1, count_leading_ones, hhave, hbody]
    simp only [show ¬(b :: l).length > max_len by omega]
    simp

theorem parse_labelBits (hl : label.length ≤ max_len) (hmax : max_len ≤ 1023) :
    ∃ p, LabelParser.parse_label ⟨labelBits label max_len ++ payload.bits, payload.refs⟩ max_len = some p ∧
      p.Reads label payload := by
  unfold labelBits
  dsimp only
  split
  · next hs =>
    rw [append_assoc]
    refine ⟨_, parse_label_same label max_len payload _ hl hmax, rfl, .inr ⟨?_, ?_, rfl, rfl⟩⟩
    · simp
    · have hb : LabelParser.same_bit ⟨payload, 6 + (label.headD false).toNat, label.length, 0⟩ = label.headD false := by
        cases label.headD false <;> simp [LabelParser.same_bit]
      rw [hb]
      exact hs.2.2
  · split
    · simp only [append_assoc]
      exact ⟨_, parse_label_long label max_len payload hl hmax, rfl, .inl ⟨rfl, rfl, rfl⟩⟩
    · simp only [append_assoc, cons_append, nil_append]
      exact ⟨_, parse_label_short label max_len payload hl, rfl, .inl ⟨rfl, rfl, rfl⟩⟩

end Parse

/-! ## Comparing a label with a key -/

theorem same_upto_nil_left (b : List Bool) : same_upto [] b = 0 := rfl

theorem same_upto_nil_right (a : List Bool) : same_upto a [] = 0 := by cases a <;> rfl

theorem same_upto_cons_self (x : Bool) (a b : List Bool) : same_upto (x :: a) (x :: b) = same_upto a b + 1 := if_pos rfl

theorem same_upto_cons_ne {x y : Bool} (h : x ≠ y) (a b : List Bool) : same_upto (x :: a) (y :: b) = 0 := if_neg h

theorem same_upto_cases {motive : List Bool → List Bool → Prop} (same : ∀ x a b, motive a b → motive (x :: a) (x :: b))
    (part : ∀ x y a b, x ≠ y → motive (x :: a) (y :: b)) (left : ∀ b, motive [] b) (right : ∀ a, motive a []) (a b : List Bool) : motive a b := by
  induction a generalizing b with
  | nil => exact left b
  | cons x a ih =>
    cases b with
    | nil => exact right _
    | cons y b =>
      by_cases h : x = y
      · exact h ▸ same x a b (ih b)
      · exact part x y a b h

theorem same_upto_le_left (a b : List Bool) : same_upto a b ≤ a.length := by
  induction a, b using same_upto_cases with
  | same x a b ih => rw [same_upto_cons_self]; exact Nat.succ_le_succ ih
  | part x y a b h => rw [same_upto_cons_ne h]; exact Nat.zero_le _
  | left b => exact le_refl _
  | right a => rw [same_upto_nil_right]; exact Nat.zero_le _

theorem same_upto_comm (a b : List Bool) : same_upto a b = same_upto b a := by
  induction a, b using same_upto_cases with
  | same x a b ih => rw [same_upto_cons_self, same_upto_cons_self, ih]
  | part x y a b h => rw [same_upto_cons_ne h, same_upto_cons_ne h.symm]
  | left b => rw [same_upto_nil_left, same_upto_nil_right]
  | right a => rw [same_upto_nil_left, same_upto_nil_right]

theorem same_upto_le_right (a b : List Bool) : same_upto a b ≤ b.length := same_upto_comm a b ▸ same_upto_le_left b a

theorem same_upto_append (s a b : List Bool) : same_upto (s ++ a) (s ++ b) = s.length + same_upto a b := by
  induction s with
  | nil => simp
  | cons x s ih =>
    rw [cons_append, cons_append, same_upto_cons_self, ih, length_cons]
    omega

theorem prefix_iff_le_same_upto {p a b : List Bool} (hp : p <+: a) : p <+: b ↔ p.length ≤ same_upto a b := by
  obtain ⟨r, rfl⟩ := hp
  constructor
  · rintro ⟨s, rfl⟩
    rw [same_upto_append]
    exact Nat.le_add_right _ _
  · induction p generalizing b with
    | nil => exact fun _ => nil_prefix
    | cons x p ih =>
      cases b with
      | nil => simp [same_upto_nil_right]
      | cons y b =>
        by_cases hxy : x = y
        · subst hxy
          simpa [same_upto_cons_self, cons_prefix_cons] using ih
        · simp [same_upto_cons_ne hxy]

theorem same_upto_eq_length {a b : List Bool} : same_upto a b = a.length ↔ a <+: b := by
  rw [prefix_iff_le_same_upto prefix_rfl]
  exact ⟨fun h => h.ge, fun h => Nat.le_antisymm (same_upto_le_left a b) h⟩

theorem prefix_of_same_upto {a b : List Bool} (h : ¬same_upto a b < a.length) : a <+: b :=
  same_upto_eq_length.1 ((same_upto_le_left a b).antisymm (not_lt.1 h))

theorem same_upto_split {a b : List Bool} (ha : same_upto a b < a.length) (hb : same_upto a b < b.length) :
    ∃ (p : List Bool) (x : Bool) (q k : List Bool), p.length = same_upto a b ∧ a = p ++ x :: q ∧ b = p ++ (!x) :: k := by
  induction a, b using same_upto_cases with
  | same x a b ih =>
    rw [same_upto_cons_self] at ha hb ⊢
    obtain ⟨p, y, q, k, hp, rfl, rfl⟩ := ih (Nat.lt_of_succ_lt_succ ha) (Nat.lt_of_succ_lt_succ hb)
    exact ⟨x :: p, y, q, k, by simp [hp], rfl, rfl⟩
  | part x y a b h =>
    refine ⟨[], x, a, b, (same_upto_cons_ne h a b).symm, rfl, ?_⟩
    cases x <;> cases y <;> simp_all
  | left b => exact absurd ha (Nat.not_lt_zero _)
  | right a => exact absurd hb (Nat.not_lt_zero _)

theorem same_upto_longer {a b : List Bool} (h : same_upto a b = a.length) (hlt : a.length < b.length) : ∃ x k, b = a ++ x :: k := by
  obtain ⟨k, rfl⟩ := same_upto_eq_length.1 h
  cases k with
  | nil => simp at hlt
  | cons x k => exact ⟨x, k, rfl⟩

theorem same_upto_take (a b : List Bool) :
    same_upto (a.take (min a.length b.length)) (b.take (min a.length b.length)) = same_upto a b := by
  induction a, b using same_upto_cases with
  | same x a b ih => rw [length_cons, length_cons, Nat.succ_min_succ, take_succ_cons, take_succ_cons, same_upto_cons_self, ih,
      same_upto_cons_self]
  | part x y a b h => rw [length_cons, length_cons, Nat.succ_min_succ, take_succ_cons, take_succ_cons, same_upto_cons_ne h,
      same_upto_cons_ne h]
  | left b => rw [take_nil, same_upto_nil_left, same_upto_nil_left]
  | right a => rw [take_nil, same_upto_nil_right, same_upto_nil_right]

theorem bits_memscan_replicate (n : Nat) (b : Bool) (key : List Bool) :
    bits_memscan (key.take (min n key.length)) b = same_upto (List.replicate n b) key := by
  induction key generalizing n with
  | nil => cases n <;> simp [bits_memscan, same_upto_nil_right]
  | cons c key ih =>
    cases n with
    | zero => simp [bits_memscan, same_upto_nil_left]
    | succ n =>
      rw [length_cons, Nat.succ_min_succ, take_succ_cons, replicate_succ, bits_memscan, takeWhile_cons]
      by_cases hbc : b = c
      · subst hbc
        rw [same_upto_cons_self, ← ih n]
        simp [bits_memscan]
      · rw [same_upto_cons_ne hbc]
        simp [Ne.symm hbc]

namespace LabelParser

section Reads
variable {p : LabelParser} {label : List Bool} {payload : CellSlice} (h : p.Reads label payload)
include h

theorem Reads.skip_label : p.skip_label.remainder = payload := by
  rcases h.cases with ⟨-, hs, hr⟩ | ⟨-, -, hs, hr⟩
  · rw [LabelParser.skip_label, hs, hr, advance_append _ _ _ _ rfl]
  · rw [LabelParser.skip_label, hs, hr]
    exact advance_append [] payload.bits payload.refs 0 rfl

theorem Reads.extract_label : p.extract_label.1 = label ∧ p.extract_label.2.remainder = payload := by
  unfold LabelParser.extract_label
  rcases h.cases with ⟨h0, -, hr⟩ | ⟨h0, hl, -, hr⟩
  · rw [if_pos h0, hr, h.l_bits, advance_append _ _ _ _ rfl]
    exact ⟨take_left, rfl⟩
  · rw [if_neg h0, h.l_bits]
    exact ⟨hl.symm, hr⟩

theorem Reads.extract_l_bits : p.extract_label.2.l_bits = label.length := by
  rw [← h.l_bits]
  unfold LabelParser.extract_label
  split <;> rfl

theorem Reads.common_prefix_len (key : List Bool) : p.common_prefix_len key = same_upto label key := by
  unfold LabelParser.common_prefix_len
  rcases h.cases with ⟨h0, -, hr⟩ | ⟨h0, hl, -, hr⟩
  · rw [if_pos h0, hr, h.l_bits, take_append_of_le_length (Nat.min_le_left _ _), same_upto_take]
  · rw [if_neg h0, h.l_bits, bits_memscan_replicate, ← hl]

theorem Reads.is_prefix_of (key : List Bool) : p.is_prefix_of key = true ↔ label <+: key := by
  unfold LabelParser.is_prefix_of
  rw [h.l_bits]
  split
  · next hlt => simpa using fun hp : label <+: key => absurd hp.length_le (by omega)
  · next hle =>
    rcases h.cases with ⟨h0, -, hr⟩ | ⟨h0, hl, -, hr⟩
    · rw [if_pos h0, hr, prefix_iff_eq_take]
      simp [CellSlice.size]
    · have hm := bits_memscan_replicate label.length p.same_bit key
      rw [Nat.min_eq_left (by omega), ← hl] at hm
      rw [if_neg h0, hm, decide_eq_true_iff, same_upto_eq_length]

theorem Reads.prefetch_ref (i : Nat) : p.remainder.prefetch_ref i = payload.refs[i]? := by
  rcases h.cases with ⟨-, -, hr⟩ | ⟨-, -, -, hr⟩ <;> rw [hr] <;> rfl

end Reads

end LabelParser

/-! ## Nodes -/

/-- The cell `c` holds an edge with the given label, of at most `n` bits, and the
payload of the node under it. -/
structure Node (label : List Bool) (n : Nat) (payload : CellSlice) (c : DataCell) : Prop where
  length_le : label.length ≤ n
  le_max : n ≤ 1023
  cell : CellBuilder.finalize ⟨labelBits label n ++ payload.bits, payload.refs⟩ false = .ok c

section Node
variable {label : List Bool} {n : Nat} {payload : CellSlice} {c : DataCell} {mode : Check}

theorem Node.unique {c' : DataCell} (h : Node label n payload c) (h' : Node label n payload c') : c = c' :=
  Except.ok.inj (h.cell.symm.trans h'.cell)

theorem Node.of_label {cb : CellBuilder} (hcb : append_dict_label {} label n = .ok cb)
    (hc : CellBuilder.finalize ⟨cb.bits ++ payload.bits, cb.refs ++ payload.refs⟩ false = .ok c) :
    Node label n payload c := by
  obtain ⟨h₁, h₂, rfl⟩ := append_dict_label_ok hcb
  exact ⟨h₁, h₂, hc⟩

theorem Node.of_label_same {cb : CellBuilder} {same : Bool} {len : Nat}
    (hcb : append_dict_label_same {} same len n = .ok cb)
    (hc : CellBuilder.finalize ⟨cb.bits ++ payload.bits, cb.refs ++ payload.refs⟩ false = .ok c) :
    Node (List.replicate len same) n payload c := by
  obtain ⟨h₁, h₂, rfl⟩ := append_dict_label_same_ok hcb
  exact ⟨by simpa using h₁, h₂, hc⟩

/-- A label parsed from the cell of a node is the label of the node. -/
theorem Node.parse {p : LabelParser} (h : Node label n payload c) (hp : LabelParser.parse c n mode = .ok p) :
    p.Reads label payload := by
  obtain ⟨p', hp', hr⟩ := parse_labelBits label n payload h.length_le h.le_max
  unfold LabelParser.parse at hp
  rw [load_finalize h.cell, ok_bind, hp'] at hp
  obtain ⟨-, -, hp⟩ := bind_ok.1 hp
  cases hp
  exact hr

/-- A fork that passes the validation. -/
def Check.Passes (mode : Check) (payload : CellSlice) : Prop :=
  match mode with
  | .chk_min => True
  | .chk_size => 2 ≤ payload.refs.length
  | .chk_all => payload.bits = [] ∧ payload.refs.length = 2

/-- A label within the limit, before a leaf or a fork of the right shape, is valid. -/
theorem LabelParser.Reads.validate_all {p : LabelParser} (hr : p.Reads label payload) (hle : label.length ≤ n)
    (hv : label.length < n → mode.Passes payload) : p.validate n mode = .ok () := by
  have hsize : payload.refs.length = p.remainder.size_refs ∧ p.remainder.size = p.s_bits + payload.bits.length := by
    rcases hr.cases with ⟨-, hs, e⟩ | ⟨-, -, hs, e⟩ <;> simp [e, hs, CellSlice.size, CellSlice.size_refs]
  cases mode with
  | chk_min => rfl
  | chk_size =>
    simp only [Check.Passes] at hv
    rw [LabelParser.validate, hr.l_bits, if_neg (by omega), if_neg (by omega)]
  | chk_all =>
    simp only [Check.Passes] at hv
    rw [LabelParser.validate, hr.l_bits, if_neg (by omega), if_neg]
    rintro ⟨hlt, hne⟩
    obtain ⟨hb, hr2⟩ := hv hlt
    rw [hb] at hsize
    simp only [length_nil] at hsize
    omega

theorem Node.parse_ok (h : Node label n payload c) (hv : label.length < n → mode.Passes payload) :
    ∃ p, LabelParser.parse c n mode = .ok p ∧ p.Reads label payload := by
  obtain ⟨p, hp, hr⟩ := parse_labelBits label n payload h.length_le h.le_max
  refine ⟨p, ?_, hr⟩
  unfold LabelParser.parse
  rw [load_finalize h.cell, ok_bind, hp]
  simp [hr.validate_all h.length_le hv]

end Node

end Ton.Dict
