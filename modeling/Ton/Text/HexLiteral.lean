import Mathlib.Data.Int.ModEq
import Mathlib.Tactic.IntervalCases
import Ton.Text.Base64
/-!
# Bit strings as hex literals

`bits_to_hex` and `parse_bitstring_hex_literal` of `bitstring.cpp`. Memory is a function of
the address, and the byte at `ptr` is the one at 0. A literal whose bits do not fill the last
digit ends with a bit one, zeros and an underscore.
-/

namespace Ton.Text.HexLiteral
open List Function
open BitVec (getLsbD getLsbD_or getLsbD_setWidth getLsbD_ushiftRight ofNat ushiftRight_zero)

abbrev Memory := ℤ → BitVec 8

/-! ## `bits_to_hex` -/

def hex_digits : Bytes := ['0', '1', '2', '3', '4', '5', '6', '7', '8', '9', 'A', 'B', 'C', 'D', 'E', 'F'].map ch

/-- `while (bits >= 4)`: what is left of the bits, and the digits. -/
def push_digits (acc : BitVec 64) : ℕ → Bytes → ℕ × Bytes
  | bits + 4, s => push_digits acc bits (s ++ [hex_digits.getD (acc >>> bits &&& 15).toNat 0])
  | bits, s => (bits, s)

/-- The variables of the loops. -/
structure Printing where
  ptr : ℤ
  acc : BitVec 64
  bits : ℕ
  len : ℕ
  s : Bytes

/-- `while (len >= 8 && bits <= 56)`, for eight rounds at most. -/
def load (mem : Memory) : ℕ → Printing → Printing
  | 0, st => st
  | rounds + 1, st =>
    if st.len ≥ 8 ∧ st.bits ≤ 56 then
      load mem rounds { st with
        ptr := st.ptr + 1, acc := st.acc <<< 8 ||| (mem st.ptr).setWidth 64, bits := st.bits + 8, len := st.len - 8 }
    else st

/-- `while (len >= 8)` -/
def print_words (mem : Memory) : ℕ → Printing → Printing
  | 0, st => st
  | rounds + 1, st =>
    if st.len ≥ 8 then
      let st := load mem 8 st
      let (bits, s) := push_digits st.acc st.bits st.s
      print_words mem rounds { st with bits, s }
    else st

/-- The bits that fill no word. -/
def load_tail (mem : Memory) (st : Printing) : Printing :=
  if st.len > 0 then
    { st with acc := st.acc <<< st.len ||| (mem st.ptr).setWidth 64 >>> (8 - st.len), bits := st.bits + st.len }
  else st

/-- From `int f` on; `none` is the `CHECK`. -/
def finish (st : Printing) : Option Bytes :=
  let f := st.bits % 4
  let (acc, bits) := if f ≠ 0 then ((2 * st.acc + 1) <<< (3 - f), st.bits + (4 - f)) else (st.acc, st.bits)
  let (bits, s) := push_digits acc bits st.s
  if bits ≠ 0 then none else some (if f ≠ 0 then s ++ [ch '_'] else s)

def bits_to_hex (mem : Memory) (offs : ℤ) (len : ℕ) : Option Bytes :=
  if len = 0 then some []
  else
    let ptr := offs / 8
    let offs := (offs % 8).toNat
    let acc := (mem ptr &&& 0xff#8 >>> offs).setWidth 64
    let bits := 8 - offs
    if bits > len then finish ⟨ptr + 1, acc >>> (bits - len), len, len, []⟩
    else finish (load_tail mem (print_words mem len ⟨ptr + 1, acc, bits, len - bits, []⟩))

/-! ## `parse_bitstring_hex_literal` -/

structure Parsing where
  buff : Memory
  ptr : ℤ
  hex_digits_count : ℕ
  cmpl : Bool

/-- The value of a digit. -/
def digit_val (c : UInt8) : Option ℕ :=
  if (ch '0').toNat ≤ c.toNat ∧ c.toNat ≤ (ch '9').toNat ∨ (ch 'a').toNat ≤ c.toNat ∧ c.toNat ≤ (ch 'f').toNat ∨
      (ch 'A').toNat ≤ c.toNat ∧ c.toNat ≤ (ch 'F').toNat then
    some (if c.toNat ≤ (ch '9').toNat then c.toNat - (ch '0').toNat else (c.toNat ||| 0x20) - (ch 'a').toNat + 10)
  else none

/-- One character, `none` for an early return. -/
def parse_char (buff_size : ℕ) (st : Parsing) (c : UInt8) : Option Parsing :=
  if c = ch ' ' ∨ c = ch '\t' then some st
  else if st.cmpl then none
  else
    match digit_val c with
    | some val =>
      if st.hex_digits_count ≥ 2 * buff_size then none
      else if st.hex_digits_count % 2 = 0 then
        some { st with buff := update st.buff st.ptr (ofNat 8 (val <<< 4)), hex_digits_count := st.hex_digits_count + 1 }
      else
        some { st with
          buff := update st.buff st.ptr (ofNat 8 ((st.buff st.ptr).toNat ||| val)), ptr := st.ptr + 1,
          hex_digits_count := st.hex_digits_count + 1 }
    | none => if c = ch '_' then some { st with cmpl := true } else none

/-- The loop over the characters, and what it returns early: how many it has read, negated. -/
def parse_chars (buff_size : ℕ) : ℕ → Parsing → Bytes → Parsing × Option ℤ
  | _, st, [] => (st, none)
  | n, st, c :: s =>
    match parse_char buff_size st c with
    | some st => parse_chars buff_size (n + 1) st s
    | none => (st, some (-(n + 1)))

/-- The last loop: the bits before the last one that is set. -/
def strip_bits (buff : Memory) : ℕ → ℕ → ℤ → ℕ
  | 0, _, _ => 0
  | bits + 1, t, ptr =>
    if t % 2 = 1 then bits
    else if t / 2 = 1 then strip_bits buff bits (0x100 + (buff (ptr - 1)).toNat) (ptr - 1)
    else strip_bits buff bits (t / 2) ptr

/-- The buffer that is left, and the result. -/
def parse_bitstring_hex_literal (buff : Memory) (buff_size : ℕ) (str : Bytes) : Memory × ℤ :=
  match parse_chars buff_size 0 ⟨buff, 0, 0, false⟩ str with
  | (st, some early) => (st.buff, early)
  | (st, none) =>
    let bits := 4 * st.hex_digits_count
    if st.cmpl ∧ bits ≠ 0 then
      if st.hex_digits_count % 2 = 1 then (st.buff, strip_bits st.buff bits ((0x100 + (st.buff st.ptr).toNat) / 2 ^ 4) st.ptr)
      else (st.buff, strip_bits st.buff bits (0x100 + (st.buff (st.ptr - 1)).toNat) (st.ptr - 1))
    else (st.buff, bits)

/-! ## Bits -/

/-- The bit at an offset. -/
def bit (mem : Memory) (j : ℤ) : Bool := (mem (j / 8)).getMsbD (j % 8).toNat

/-- Some bits from an offset on. -/
def bits_from (mem : Memory) : ℤ → ℕ → List Bool
  | _, 0 => []
  | j, n + 1 => bit mem j :: bits_from mem (j + 1) n

/-- The lowest bits of a word, the highest of them first. -/
def low (acc : BitVec 64) : ℕ → List Bool
  | 0 => []
  | n + 1 => acc.getLsbD n :: low acc n

/-- The digit of four bits. -/
def digit (a b c d : Bool) : UInt8 := hex_digits.getD (8 * a.toNat + 4 * b.toNat + 2 * c.toNat + d.toNat) 0

/-- The digits of whole groups. -/
def digits : List Bool → Bytes
  | a :: b :: c :: d :: rest => digit a b c d :: digits rest
  | _ => []

/-- The bits that make the last group whole. -/
def completion (f : ℕ) : List Bool := if f = 0 then [] else true :: List.replicate (3 - f) false

/-- What a literal looks like. -/
def literal (l : List Bool) : Bytes := digits (l ++ completion (l.length % 4)) ++ if l.length % 4 = 0 then [] else [ch '_']

section Bits
variable {mem mem' : Memory} {acc a b : BitVec 64} {n m k : ℕ} {j p : ℤ} {l l' : List Bool}

theorem low_nil (acc : BitVec 64) : low acc 0 = [] := rfl

theorem low_succ (acc : BitVec 64) (n : ℕ) : low acc (n + 1) = acc.getLsbD n :: low acc n := rfl

@[simp] theorem length_low (acc : BitVec 64) (n : ℕ) : (low acc n).length = n := by
  induction n with
  | zero => rfl
  | succ n ih => rw [low_succ, length_cons, ih]

theorem low_congr (h : ∀ i < n, a.getLsbD i = b.getLsbD i) : low a n = low b n := by
  induction n with
  | zero => rfl
  | succ n ih => rw [low_succ, low_succ, h n (Nat.lt_succ_self n), ih fun i hi => h i (by omega)]

theorem low_add (acc : BitVec 64) (n m : ℕ) : low acc (n + m) = low (acc >>> m) n ++ low acc m := by
  induction n with
  | zero => rw [Nat.zero_add]; rfl
  | succ n ih => rw [Nat.succ_add, low_succ, low_succ, ih, getLsbD_ushiftRight, Nat.add_comm m n, cons_append]

theorem low_fill (hb : ∀ i, k ≤ i → b.getLsbD i = false) (h : n + k ≤ 64) : low (acc <<< k ||| b) (n + k) = low acc n ++ low b k := by
  rw [low_add]
  congr 1
  · apply low_congr
    intro i hi
    rw [getLsbD_ushiftRight, getLsbD_or, BitVec.getLsbD_shiftLeft, hb _ (Nat.le_add_right k i), Bool.or_false]
    simp [show k + i < 64 by omega]
  · apply low_congr
    intro i hi
    rw [getLsbD_or, BitVec.getLsbD_shiftLeft]
    simp [hi]

theorem bits_from_succ (mem : Memory) (j : ℤ) (n : ℕ) : bits_from mem j (n + 1) = bit mem j :: bits_from mem (j + 1) n := rfl

@[simp] theorem length_bits_from (mem : Memory) (j : ℤ) (n : ℕ) : (bits_from mem j n).length = n := by
  induction n generalizing j with
  | zero => rfl
  | succ n ih => rw [bits_from_succ, length_cons, ih]

theorem bits_from_add (mem : Memory) (j : ℤ) (n m : ℕ) : bits_from mem j (n + m) = bits_from mem j n ++ bits_from mem (j + n) m := by
  induction n generalizing j with
  | zero => simp [bits_from]
  | succ n ih =>
    rw [Nat.succ_add, bits_from_succ, bits_from_succ, ih, cons_append, Nat.cast_succ, add_assoc, add_comm 1 (n : ℤ)]

theorem bits_from_congr (mem' : Memory) (h : ∀ i < n, bit mem (j + i) = bit mem' (j + i)) : bits_from mem j n = bits_from mem' j n := by
  induction n generalizing j with
  | zero => rfl
  | succ n ih =>
    rw [bits_from_succ, bits_from_succ, ih fun i hi => ?_]
    · have h0 := h 0 (Nat.succ_pos n)
      rw [Nat.cast_zero, add_zero] at h0
      rw [h0]
    · have h1 := h (i + 1) (by omega)
      rwa [Nat.cast_succ, add_comm (i : ℤ) 1, ← add_assoc] at h1

theorem getElem?_bits_from (mem : Memory) (j : ℤ) (n i : ℕ) : (bits_from mem j n)[i]? = if i < n then some (bit mem (j + i)) else none := by
  induction n generalizing j i with
  | zero => rfl
  | succ n ih =>
    rw [bits_from_succ]
    cases i with
    | zero => simp
    | succ i =>
      rw [getElem?_cons_succ, ih, Nat.cast_succ, add_assoc, add_comm 1 (i : ℤ)]
      simp

theorem bit_byte (mem : Memory) (p : ℤ) {o : ℕ} (ho : o < 8) : bit mem (8 * p + o) = (mem p).getLsbD (7 - o) := by
  have h1 : (8 * p + o) / 8 = p := by omega
  have h2 : ((8 * p + o) % 8).toNat = o := by omega
  rw [bit, h1, h2, BitVec.getMsbD, decide_eq_true ho, Bool.true_and, show 8 - 1 - o = 7 - o by omega]

theorem bits_from_byte (mem : Memory) (p : ℤ) {o : ℕ} (h : o + n ≤ 8) :
    bits_from mem (8 * p + o) n = low ((mem p).setWidth 64 >>> (8 - o - n)) n := by
  induction n generalizing o with
  | zero => rfl
  | succ n ih =>
    have ih := ih (o := o + 1) (by omega)
    rw [Nat.cast_succ, ← add_assoc, show 8 - (o + 1) - n = 8 - o - (n + 1) by omega] at ih
    rw [bits_from_succ, low_succ, ih, bit_byte mem p (by omega), getLsbD_ushiftRight, getLsbD_setWidth,
      show 8 - o - (n + 1) + n = 7 - o by omega]
    simp [show 7 - o < 64 by omega]

end Bits

/-! ## What is printed -/

section Print
variable {mem : Memory} {acc : BitVec 64} {n : ℕ} {l l' done : List Bool} {st : Printing} {s : Bytes}

theorem digits_nil : digits [] = [] := rfl

theorem digits_cons (a b c d : Bool) (l : List Bool) : digits (a :: b :: c :: d :: l) = digit a b c d :: digits l := rfl

theorem digits_append (h : l.length % 4 = 0) (l' : List Bool) : digits (l ++ l') = digits l ++ digits l' := by
  obtain ⟨k, hk⟩ := Nat.dvd_of_mod_eq_zero h
  clear h
  induction k generalizing l with
  | zero =>
    obtain rfl := length_eq_zero_iff.1 hk
    rfl
  | succ k ih =>
    match l, hk with
    | a :: b :: c :: d :: l, hk =>
      simp only [length_cons] at hk
      simp only [cons_append]
      rw [digits_cons, digits_cons, ih (by omega), cons_append]

theorem toNat_odd (k : ℕ) : (decide (k % 2 = 1)).toNat = k % 2 := by
  rcases Nat.mod_two_eq_zero_or_one k with h | h
  · simp [h]
  · simp [h]

theorem digit_low (y : BitVec 64) :
    hex_digits.getD (y &&& 15).toNat 0 = digit (y.getLsbD 3) (y.getLsbD 2) (y.getLsbD 1) (y.getLsbD 0) := by
  have hbit : ∀ i, (y.getLsbD i).toNat = y.toNat / 2 ^ i % 2 := fun i => by
    rw [getLsbD, Nat.testBit_eq_decide_div_mod_eq, toNat_odd]
  have hmask : (y &&& 15).toNat = y.toNat % 2 ^ 4 := by
    rw [BitVec.toNat_and, ← Nat.and_two_pow_sub_one_eq_mod]
    rfl
  rw [digit, hbit, hbit, hbit, hbit, hmask]
  congr 1
  omega

theorem push_digits_four (acc : BitVec 64) (n : ℕ) (s : Bytes) :
    push_digits acc (n + 4) s = push_digits acc n (s ++ [hex_digits.getD (acc >>> n &&& 15).toNat 0]) := rfl

theorem push_digits_short {r : ℕ} (hr : r < 4) (s : Bytes) : push_digits acc r s = (r, s) := by
  match r, hr with
  | 0, _ => rfl
  | 1, _ => rfl
  | 2, _ => rfl
  | 3, _ => rfl

theorem push_digits_eq (acc : BitVec 64) {r : ℕ} (hr : r < 4) (q : ℕ) (s : Bytes) :
    push_digits acc (4 * q + r) s = (r, s ++ digits (low (acc >>> r) (4 * q))) := by
  induction q generalizing s with
  | zero => rw [Nat.mul_zero, Nat.zero_add, push_digits_short hr, low_nil, digits_nil, append_nil]
  | succ q ih =>
    have hdigit := digit_low (acc >>> (r + 4 * q))
    simp only [getLsbD_ushiftRight] at hdigit
    rw [show 4 * (q + 1) + r = 4 * q + r + 4 by omega, push_digits_four, ih, show 4 * (q + 1) = 4 * q + 3 + 1 by omega, low_succ, low_succ,
      low_succ, low_succ, digits_cons, Nat.add_comm (4 * q) r, hdigit, append_assoc, singleton_append]
    simp only [getLsbD_ushiftRight, Nat.add_assoc, Nat.add_zero]

/-- The bits are those that digits stand for, those in the word and those that follow. -/
def Printed (mem : Memory) (l : List Bool) (st : Printing) : Prop := ∃ done : List Bool, done.length % 4 = 0 ∧ st.s = digits done ∧
  l = done ++ low st.acc st.bits ++ bits_from mem (8 * st.ptr) st.len

theorem load_step (h : Printed mem l st) (hlen : 8 ≤ st.len) (hbits : st.bits ≤ 56) :
    Printed mem l { st with
      ptr := st.ptr + 1, acc := st.acc <<< 8 ||| (mem st.ptr).setWidth 64, bits := st.bits + 8, len := st.len - 8 } := by
  obtain ⟨done, h4, hs, hl⟩ := h
  refine ⟨done, h4, hs, ?_⟩
  have hrest := bits_from_add mem (8 * st.ptr) 8 (st.len - 8)
  have hbyte := bits_from_byte mem st.ptr (o := 0) (n := 8) (by omega)
  rw [Nat.cast_zero, add_zero, Nat.sub_zero, Nat.sub_self, ushiftRight_zero] at hbyte
  rw [hbyte, Nat.add_sub_cancel' hlen] at hrest
  rw [hl, hrest, low_fill (fun i hi => ?_) (by omega), append_assoc, append_assoc, append_assoc, Nat.cast_ofNat, mul_add, mul_one]
  rw [getLsbD_setWidth, BitVec.getLsbD_of_ge _ _ hi, Bool.and_false]

theorem load_succ (rounds : ℕ) : load mem (rounds + 1) st =
    if st.len ≥ 8 ∧ st.bits ≤ 56 then
      load mem rounds { st with
        ptr := st.ptr + 1, acc := st.acc <<< 8 ||| (mem st.ptr).setWidth 64, bits := st.bits + 8, len := st.len - 8 }
    else st := rfl

theorem load_printed (rounds : ℕ) (h : Printed mem l st) (hbits : st.bits ≤ 64) :
    Printed mem l (load mem rounds st) ∧ (load mem rounds st).bits ≤ 64 ∧ (load mem rounds st).len ≤ st.len := by
  induction rounds generalizing st with
  | zero => exact ⟨h, hbits, le_rfl⟩
  | succ rounds ih =>
    rw [load_succ]
    split_ifs with hc
    · obtain ⟨h1, h2, h3⟩ := ih (load_step h hc.1 hc.2) (by dsimp only; omega)
      exact ⟨h1, h2, h3.trans (Nat.sub_le _ _)⟩
    · exact ⟨h, hbits, le_rfl⟩

theorem push_printed (h : Printed mem l st) : Printed mem l { st with
    bits := (push_digits st.acc st.bits st.s).1, s := (push_digits st.acc st.bits st.s).2 } ∧
    (push_digits st.acc st.bits st.s).1 < 4 := by
  obtain ⟨done, h4, hs, hl⟩ := h
  have hr := Nat.mod_lt st.bits (show 0 < 4 by norm_num)
  have hsplit : low st.acc st.bits = low (st.acc >>> (st.bits % 4)) (4 * (st.bits / 4)) ++ low st.acc (st.bits % 4) := by
    rw [← low_add, Nat.div_add_mod]
  have hpush := push_digits_eq st.acc hr (st.bits / 4) st.s
  rw [Nat.div_add_mod] at hpush
  rw [hpush]
  refine ⟨⟨done ++ low (st.acc >>> (st.bits % 4)) (4 * (st.bits / 4)), ?_, ?_, ?_⟩, hr⟩
  · rw [length_append, length_low]
    omega
  · rw [digits_append h4, hs]
  · rw [hl, hsplit]
    simp only [append_assoc]

theorem print_words_printed (rounds : ℕ) (h : Printed mem l st) (hbits : st.bits ≤ 8) (hlen : st.len ≤ rounds) :
    Printed mem l (print_words mem rounds st) ∧ (print_words mem rounds st).bits ≤ 8 ∧ (print_words mem rounds st).len < 8 := by
  induction rounds generalizing st with
  | zero =>
    have : st.len = 0 := by omega
    exact ⟨h, hbits, by rw [print_words]; omega⟩
  | succ rounds ih =>
    rw [print_words]
    split_ifs with hc
    · obtain ⟨h1, h2, h3⟩ := load_printed 7 (load_step h hc (by omega)) (by dsimp only; omega)
      have hload : load mem 8 st = load mem 7 { st with
          ptr := st.ptr + 1, acc := st.acc <<< 8 ||| (mem st.ptr).setWidth 64, bits := st.bits + 8, len := st.len - 8 } := by
        rw [load_succ, if_pos ⟨hc, by omega⟩]
      rw [← hload] at h1 h2 h3
      obtain ⟨h4, h5⟩ := push_printed h1
      dsimp only at h3
      exact ih h4 (by dsimp only; omega) (by dsimp only; omega)
    · exact ⟨h, hbits, by omega⟩

theorem low_zero (n : ℕ) : low 0#64 n = List.replicate n false := by
  induction n with
  | zero => rfl
  | succ n ih => rw [low_succ, ih, replicate_succ, BitVec.getLsbD_zero]

theorem odd_eq (acc : BitVec 64) : (2 : BitVec 64) * acc + (1 : BitVec 64) = acc <<< 1 ||| 1#64 := by
  rw [← BitVec.add_eq_or_of_and_eq_zero, BitVec.shiftLeft_eq_mul_twoPow, BitVec.mul_comm]
  · rfl
  · apply BitVec.eq_of_getLsbD_eq
    intro i hi
    rw [BitVec.getLsbD_and, BitVec.getLsbD_shiftLeft]
    cases i with
    | zero => simp
    | succ i => simp [BitVec.getLsbD_one]

theorem low_completion {f bits : ℕ} (hf : f ≠ 0) (hf4 : f < 4) (hbits : bits ≤ 60) :
    low ((2 * acc + 1) <<< (3 - f)) (bits + (4 - f)) = low acc bits ++ completion f := by
  have hshift : (2 * acc + 1) <<< (3 - f) = (2 * acc + 1) <<< (3 - f) ||| 0#64 := BitVec.or_zero.symm
  rw [hshift, show bits + (4 - f) = bits + 1 + (3 - f) by omega, low_fill (fun _ _ => BitVec.getLsbD_zero) (by omega), low_zero, odd_eq,
    low_fill (fun i hi => ?_) (by omega), completion, if_neg hf, append_assoc]
  · rfl
  · simp [BitVec.getLsbD_one]
    omega

theorem finish_eq (done : List Bool) (hdone : done.length % 4 = 0) (hs : st.s = digits done) (hbits : st.bits ≤ 60) :
    finish st = some (literal (done ++ low st.acc st.bits)) := by
  have hmod : (done ++ low st.acc st.bits).length % 4 = st.bits % 4 := by
    rw [length_append, length_low]
    omega
  have hlt := Nat.mod_lt st.bits (show 0 < 4 by norm_num)
  rw [literal, hmod, finish]
  by_cases hf : st.bits % 4 = 0
  · have hpush := push_digits_eq st.acc (show 0 < 4 by norm_num) (st.bits / 4) st.s
    rw [Nat.add_zero, ushiftRight_zero, show 4 * (st.bits / 4) = st.bits by omega] at hpush
    simp only [hf, ne_eq, not_true_eq_false, if_false, if_true, hpush, completion, append_nil]
    rw [digits_append hdone, hs]
  · have hpush := push_digits_eq ((2 * st.acc + 1) <<< (3 - st.bits % 4)) (show 0 < 4 by norm_num) (st.bits / 4 + 1) st.s
    rw [Nat.add_zero, ushiftRight_zero, show 4 * (st.bits / 4 + 1) = st.bits + (4 - st.bits % 4) by omega,
      low_completion hf hlt hbits] at hpush
    simp only [hf, ne_eq, not_false_eq_true, if_true, if_false, hpush, not_true_eq_false]
    rw [append_assoc done, digits_append hdone, hs, append_assoc]

theorem getLsbD_masked (mem : Memory) (p : ℤ) {o i : ℕ} (hi : i < 8 - o) :
    ((mem p &&& 0xff#8 >>> o).setWidth 64).getLsbD i = ((mem p).setWidth 64).getLsbD i := by
  have hff : ∀ k : ℕ, k < 8 → (0xff#8).getLsbD k = true := by decide
  rw [getLsbD_setWidth, getLsbD_setWidth, BitVec.getLsbD_and, getLsbD_ushiftRight, hff _ (by omega), Bool.and_true]

theorem bits_to_hex_eq (mem : Memory) (offs : ℤ) (len : ℕ) : bits_to_hex mem offs len = some (literal (bits_from mem offs len)) := by
  have hoffs : offs = 8 * (offs / 8) + ((offs % 8).toNat : ℤ) := by omega
  have ho : (offs % 8).toNat < 8 := by omega
  rw [bits_to_hex]
  by_cases h0 : len = 0
  · rw [if_pos h0, h0]
    rfl
  rw [if_neg h0]
  dsimp only
  generalize (offs % 8).toNat = o at *
  generalize offs / 8 = p at *
  subst hoffs
  split_ifs with hshort
  · rw [finish_eq [] rfl rfl (by dsimp only; omega), nil_append, bits_from_byte mem p (by omega)]
    congr 2
    apply low_congr
    intro i hi
    dsimp only at hi ⊢
    rw [getLsbD_ushiftRight, getLsbD_ushiftRight, getLsbD_masked mem p (by omega)]
  · have hstart : Printed mem (bits_from mem (8 * p + o) len)
        ⟨p + 1, (mem p &&& 0xff#8 >>> o).setWidth 64, 8 - o, len - (8 - o), []⟩ := by
      refine ⟨[], rfl, rfl, ?_⟩
      have hfirst := bits_from_add mem (8 * p + o) (8 - o) (len - (8 - o))
      rw [Nat.add_sub_cancel' (by omega), bits_from_byte mem p (n := 8 - o) (by omega), Nat.sub_self, ushiftRight_zero] at hfirst
      rw [hfirst, nil_append, low_congr fun i hi => getLsbD_masked mem p hi, Nat.cast_sub ho.le]
      congr 2
      push_cast
      ring
    obtain ⟨⟨done, h4, hs, hl⟩, hbits, hlen⟩ := print_words_printed len hstart (by dsimp only; omega) (by dsimp only; omega)
    generalize print_words mem len _ = st at *
    rw [load_tail]
    split_ifs with hpos
    · have hbyte := bits_from_byte mem st.ptr (o := 0) (n := st.len) (by omega)
      rw [Nat.cast_zero, add_zero, Nat.sub_zero] at hbyte
      refine (finish_eq _ h4 ?_ (by dsimp only; omega)).trans ?_
      · exact hs
      dsimp only
      rw [hl, hbyte, low_fill (fun i hi => ?_) (by omega), append_assoc]
      rw [getLsbD_ushiftRight, getLsbD_setWidth, BitVec.getLsbD_of_ge _ _ (by omega), Bool.and_false]
    · rw [finish_eq _ h4 hs (by omega), hl, show st.len = 0 by omega, bits_from, append_nil]

end Print

/-! ## What is read -/

section Read
variable {buff buff' : Memory} {buff_size n m : ℕ} {a b c d : Bool} {l l' : List Bool} {st : Parsing} {tail : Bytes} {p : ℤ}

/-- The value of a digit. -/
def nibble (a b c d : Bool) : ℕ := 8 * a.toNat + 4 * b.toNat + 2 * c.toNat + d.toNat

theorem digit_facts : ∀ a b c d : Bool, digit a b c d ≠ ch ' ' ∧ digit a b c d ≠ ch '\t' ∧ digit_val (digit a b c d) = some (nibble a b c d) := by
  decide

theorem high_nibble : ∀ a b c d : Bool, low ((ofNat 8 (nibble a b c d <<< 4)).setWidth 64 >>> 4) 4 = [a, b, c, d] ∧
    ∀ i : Fin 4, (ofNat 8 (nibble a b c d <<< 4)).getLsbD i = false := by
  decide

theorem low_nibble : ∀ a b c d : Bool, low ((ofNat 8 (nibble a b c d)).setWidth 64) 4 = [a, b, c, d] ∧
    ∀ i : Fin 4, (ofNat 8 (nibble a b c d)).getLsbD (4 + i) = false := by
  decide

/-- The bits before those that a byte holds do not change with it. -/
theorem bit_update (b : BitVec 8) {i : ℤ} (hi : i / 8 ≠ p) : bit (update buff p b) i = bit buff i := by
  rw [bit, bit, update_of_ne hi]

/-- The buffer holds the bits of the digits that are read; after an odd number of them, half a byte is still zero. -/
structure Read (st : Parsing) (l : List Bool) : Prop where
  length : l.length = 4 * st.hex_digits_count
  ptr : st.ptr = (st.hex_digits_count / 2 : ℕ)
  cmpl : st.cmpl = false
  bits : bits_from st.buff 0 (4 * st.hex_digits_count) = l
  half : st.hex_digits_count % 2 = 1 → ∀ i < 4, (st.buff st.ptr).getLsbD i = false

theorem read_start (buff : Memory) : Read ⟨buff, 0, 0, false⟩ [] :=
  ⟨rfl, by simp, rfl, rfl, fun h => absurd h (by norm_num)⟩

theorem parse_digit_even (h : Read st l) (heven : st.hex_digits_count % 2 = 0) : Read { st with
    buff := update st.buff st.ptr (ofNat 8 (nibble a b c d <<< 4)), hex_digits_count := st.hex_digits_count + 1 }
    (l ++ [a, b, c, d]) := by
  have hptr := h.ptr
  obtain ⟨hhigh, hlow⟩ := high_nibble a b c d
  refine ⟨by simp [h.length]; omega, by dsimp only; omega, h.cmpl, ?_, fun _ i hi => ?_⟩
  · dsimp only
    have hbyte := bits_from_byte (update st.buff st.ptr (ofNat 8 (nibble a b c d <<< 4))) st.ptr (o := 0) (n := 4) (by omega)
    rw [update_self, hhigh] at hbyte
    rw [Nat.mul_succ, bits_from_add, bits_from_congr st.buff, h.bits,
      show (0 : ℤ) + (4 * st.hex_digits_count : ℕ) = 8 * st.ptr + (0 : ℕ) by omega, hbyte]
    exact fun i hi => bit_update _ (by omega)
  · dsimp only
    rw [update_self]
    exact hlow ⟨i, hi⟩

theorem ofNat_or_toNat (x : BitVec 8) (v : ℕ) : ofNat 8 (x.toNat ||| v) = x ||| ofNat 8 v := by
  apply BitVec.eq_of_toNat_eq
  rw [BitVec.toNat_ofNat, BitVec.toNat_or, BitVec.toNat_ofNat, Nat.or_mod_two_pow, Nat.mod_eq_of_lt x.isLt]

theorem parse_digit_odd (h : Read st l) (hodd : st.hex_digits_count % 2 = 1) : Read { st with
    buff := update st.buff st.ptr (ofNat 8 ((st.buff st.ptr).toNat ||| nibble a b c d)), ptr := st.ptr + 1,
    hex_digits_count := st.hex_digits_count + 1 } (l ++ [a, b, c, d]) := by
  have hptr := h.ptr
  have hhalf := h.half hodd
  obtain ⟨hlow, hhigh⟩ := low_nibble a b c d
  refine ⟨by simp [h.length]; omega, by dsimp only; omega, h.cmpl, ?_, fun hc => by dsimp only at hc; omega⟩
  dsimp only
  rw [ofNat_or_toNat]
  have hbyte := bits_from_byte (update st.buff st.ptr (st.buff st.ptr ||| ofNat 8 (nibble a b c d))) st.ptr (o := 4) (n := 4)
    (by norm_num)
  have hnew : low ((st.buff st.ptr ||| ofNat 8 (nibble a b c d)).setWidth 64) 4 = [a, b, c, d] := by
    rw [← hlow]
    apply low_congr
    intro i hi
    rw [getLsbD_setWidth, getLsbD_setWidth, getLsbD_or, hhalf i hi, Bool.false_or]
  rw [update_self, show 8 - 4 - 4 = 0 by norm_num, ushiftRight_zero, hnew] at hbyte
  rw [Nat.mul_succ, bits_from_add, bits_from_congr st.buff, h.bits,
    show (0 : ℤ) + (4 * st.hex_digits_count : ℕ) = 8 * st.ptr + (4 : ℕ) by omega, hbyte]
  intro i hi
  by_cases hi8 : ((0 : ℤ) + i) / 8 = st.ptr
  · -- the half that is written already
    obtain ⟨o, ho, hio⟩ : ∃ o : ℕ, o < 4 ∧ (0 : ℤ) + i = 8 * st.ptr + o := ⟨i % 8, by omega, by omega⟩
    have hz := hhigh ⟨3 - o, by omega⟩
    rw [show 4 + (3 - o) = 7 - o by omega] at hz
    rw [hio, bit_byte _ _ (by omega), bit_byte _ _ (by omega), update_self, getLsbD_or, hz, Bool.or_false]
  · exact bit_update _ hi8

theorem parse_digit (buff_size : ℕ) (h : Read st l) (hroom : st.hex_digits_count < 2 * buff_size) (a b c d : Bool) :
    ∃ st', parse_char buff_size st (digit a b c d) = some st' ∧ Read st' (l ++ [a, b, c, d]) ∧
      st'.hex_digits_count = st.hex_digits_count + 1 := by
  obtain ⟨h1, h2, h3⟩ := digit_facts a b c d
  rw [parse_char, if_neg (by simp [h1, h2]), h.cmpl, if_neg Bool.false_ne_true, h3]
  dsimp only
  rw [if_neg (by omega)]
  by_cases heven : st.hex_digits_count % 2 = 0
  · rw [if_pos heven]
    exact ⟨_, rfl, h.cmpl ▸ parse_digit_even h heven, rfl⟩
  · rw [if_neg heven]
    exact ⟨_, rfl, h.cmpl ▸ parse_digit_odd h (by omega), rfl⟩

theorem parse_chars_nil (n : ℕ) : parse_chars buff_size n st [] = (st, none) := rfl

theorem parse_chars_cons (n : ℕ) (c : UInt8) (s : Bytes) : parse_chars buff_size n st (c :: s) =
    match parse_char buff_size st c with
    | some st => parse_chars buff_size (n + 1) st s
    | none => (st, some (-(n + 1))) := rfl

theorem parse_digits (h : Read st l) (hl : l'.length = 4 * m) (hroom : st.hex_digits_count + m ≤ 2 * buff_size) (n : ℕ) (tail : Bytes) :
    ∃ st', parse_chars buff_size n st (digits l' ++ tail) = parse_chars buff_size (n + m) st' tail ∧ Read st' (l ++ l') ∧
      st'.hex_digits_count = st.hex_digits_count + m := by
  induction m generalizing st l l' n with
  | zero =>
    obtain rfl := length_eq_zero_iff.1 hl
    exact ⟨st, rfl, by rwa [append_nil], rfl⟩
  | succ m ih =>
    match l', hl with
    | a :: b :: c :: d :: l', hl =>
      simp only [length_cons] at hl
      obtain ⟨st', h1, h2, h3⟩ := parse_digit buff_size h (by omega) a b c d
      obtain ⟨st'', h4, h5, h6⟩ := ih h2 (show l'.length = 4 * m by omega) (by omega) (n + 1)
      refine ⟨st'', ?_, by simpa using h5, by omega⟩
      rw [digits_cons, cons_append, parse_chars_cons, h1, Nat.add_comm m 1, ← Nat.add_assoc]
      exact h4

theorem strip_bits_succ (bits t : ℕ) (ptr : ℤ) : strip_bits buff (bits + 1) t ptr =
    if t % 2 = 1 then bits
    else if t / 2 = 1 then strip_bits buff bits (0x100 + (buff (ptr - 1)).toNat) (ptr - 1)
    else strip_bits buff bits (t / 2) ptr := rfl

theorem strip_bits_eq {z t : ℕ} (ptr : ℤ) (hzero : ∀ i < z, t / 2 ^ i % 2 = 0) (hone : t / 2 ^ z % 2 = 1) (ht : 2 ^ (z + 1) ≤ t) (n : ℕ) :
    strip_bits buff (n + z + 1) t ptr = n := by
  induction z generalizing t with
  | zero =>
    rw [pow_zero, Nat.div_one] at hone
    rw [strip_bits_succ, if_pos hone]
  | succ z ih =>
    have h0 := hzero 0 (Nat.succ_pos z)
    have hpow : 2 ≤ 2 ^ (z + 1) := by
      have := Nat.one_le_two_pow (n := z)
      omega
    rw [pow_zero, Nat.div_one] at h0
    rw [pow_succ] at ht
    rw [strip_bits_succ, if_neg (by omega), if_neg (by omega), ← Nat.add_assoc]
    refine ih (fun i hi => ?_) ?_ (by omega)
    · rw [Nat.div_div_eq_div_mul, ← pow_succ']
      exact hzero (i + 1) (by omega)
    · rw [Nat.div_div_eq_div_mul, ← pow_succ']
      exact hone

theorem last_digit (h : Read st l) (_ : 0 < st.hex_digits_count) {i : ℕ} (hi : i < 4) :
    (st.hex_digits_count % 2 = 1 → (0x100 + (st.buff st.ptr).toNat) / 2 ^ 4 / 2 ^ i % 2 =
      (bit st.buff (4 * st.hex_digits_count - 1 - i)).toNat) ∧
    (st.hex_digits_count % 2 ≠ 1 → (0x100 + (st.buff (st.ptr - 1)).toNat) / 2 ^ i % 2 =
      (bit st.buff (4 * st.hex_digits_count - 1 - i)).toNat) := by
  have hptr := h.ptr
  have hbit : ∀ (x : BitVec 8) (o : ℕ), (x.getLsbD o).toNat = x.toNat / 2 ^ o % 2 := fun x o => by
    rw [getLsbD, Nat.testBit_eq_decide_div_mod_eq, toNat_odd]
  constructor
  · intro hodd
    rw [show (4 * st.hex_digits_count - 1 - i : ℤ) = 8 * st.ptr + (3 - i : ℕ) by omega, bit_byte _ _ (by omega), hbit,
      show 7 - (3 - i) = 4 + i by omega, pow_add]
    generalize (st.buff st.ptr).toNat = x
    interval_cases i <;> omega
  · intro heven
    rw [show (4 * st.hex_digits_count - 1 - i : ℤ) = 8 * (st.ptr - 1) + (7 - i : ℕ) by omega, bit_byte _ _ (by omega), hbit,
      show 7 - (7 - i) = i by omega]
    generalize (st.buff (st.ptr - 1)).toNat = x
    interval_cases i <;> omega

theorem completion_get {f i : ℕ} (hf : f ≠ 0) (hf4 : f < 4) (hi : i < 4 - f) : (completion f)[i]? = some (decide (i = 0)) := by
  rw [completion, if_neg hf]
  cases i with
  | zero => rfl
  | succ i =>
    rw [getElem?_cons_succ, getElem?_replicate, if_pos (by omega)]
    rfl

theorem parse_literal (buff : Memory) (buff_size : ℕ) (l : List Bool) (hroom : (l.length + 3) / 4 ≤ 2 * buff_size) :
    (parse_bitstring_hex_literal buff buff_size (literal l)).2 = l.length ∧
      bits_from (parse_bitstring_hex_literal buff buff_size (literal l)).1 0 l.length = l := by
  have hlt := Nat.mod_lt l.length (show 0 < 4 by norm_num)
  have hwhole : (l ++ completion (l.length % 4)).length = 4 * ((l.length + 3) / 4) := by
    rw [length_append, completion]
    split_ifs with h0
    · rw [length_nil]
      omega
    · rw [length_cons, length_replicate]
      omega
  obtain ⟨st, hchars, hread, hcount⟩ := parse_digits (read_start buff) hwhole (by simpa using hroom) 0 (if l.length % 4 = 0 then [] else [ch '_'])
  rw [nil_append] at hread
  simp only [Nat.zero_add] at hchars hcount
  have hprefix : bits_from st.buff 0 l.length = l := by
    have hbits := hread.bits
    rw [← hread.length, length_append, bits_from_add] at hbits
    exact (append_inj hbits (length_bits_from _ _ _)).1
  rw [parse_bitstring_hex_literal, literal, hchars]
  by_cases h0 : l.length % 4 = 0
  · rw [if_pos h0, parse_chars_nil]
    dsimp only
    rw [if_neg (by rw [hread.cmpl]; simp), hcount]
    exact ⟨by dsimp only; omega, hprefix⟩
  · have hunderscore : parse_char buff_size st (ch '_') = some { st with cmpl := true } := by
      rw [parse_char, if_neg (by decide), hread.cmpl, if_neg Bool.false_ne_true, show digit_val (ch '_') = none by decide]
      rfl
    rw [if_neg h0, parse_chars_cons, hunderscore]
    dsimp only
    rw [parse_chars_nil]
    dsimp only
    have hpos : 0 < st.hex_digits_count := by omega
    -- the bits behind those of the literal
    have hlast : ∀ i < 4 - l.length % 4, bit st.buff (l.length + i) = decide (i = 0) := by
      intro i hi
      have hget := congrArg (fun k : List Bool => k[l.length + i]?) hread.bits
      rw [getElem?_bits_from, if_pos (by omega), getElem?_append_right (by omega), Nat.add_sub_cancel_left, completion_get h0 hlt hi] at hget
      have h := Option.some.inj hget
      rwa [zero_add, Nat.cast_add] at h
    have hstrip : ∀ (t : ℕ) (ptr : ℤ), 16 ≤ t → (∀ i : ℕ, i < 4 → t / 2 ^ i % 2 = (bit st.buff (4 * st.hex_digits_count - 1 - i)).toNat) →
        strip_bits st.buff (4 * st.hex_digits_count) t ptr = l.length := by
      intro t ptr ht hbits
      have hz : ∀ i ≤ 3 - l.length % 4, t / 2 ^ i % 2 = (decide (i = 3 - l.length % 4)).toNat := by
        intro i hi
        rw [hbits i (by omega), show (4 * st.hex_digits_count - 1 - i : ℤ) = l.length + (3 - l.length % 4 - i : ℕ) by omega,
          hlast _ (by omega)]
        congr 2
        exact propext (by omega)
      rw [show 4 * st.hex_digits_count = l.length + (3 - l.length % 4) + 1 by omega]
      refine strip_bits_eq ptr (fun i hi => ?_) ?_ ?_ l.length
      · rw [hz i hi.le, decide_eq_false hi.ne]
        rfl
      · rw [hz _ le_rfl, decide_eq_true rfl]
        rfl
      · have hpow : 2 ^ (3 - l.length % 4 + 1) ≤ 2 ^ 3 := Nat.pow_le_pow_right (by norm_num) (by omega)
        omega
    rw [if_pos ⟨rfl, by omega⟩]
    split_ifs with hodd
    · refine ⟨?_, hprefix⟩
      exact congrArg Nat.cast (hstrip ((0x100 + (st.buff st.ptr).toNat) / 2 ^ 4) st.ptr (by omega)
        fun i hi => (last_digit hread hpos hi).1 hodd)
    · refine ⟨?_, hprefix⟩
      exact congrArg Nat.cast (hstrip (0x100 + (st.buff (st.ptr - 1)).toNat) (st.ptr - 1) (by omega)
        fun i hi => (last_digit hread hpos hi).2 hodd)

end Read

section
variable {mem mem' : Memory} {offs offs' : ℤ} {len len' : ℕ}

theorem literal_inj {l l' : List Bool} (h : literal l = literal l') : l = l' := by
  have h1 := parse_literal (fun _ => 0) (l.length + l'.length + 1) l (by omega)
  have h2 := parse_literal (fun _ => 0) (l.length + l'.length + 1) l' (by omega)
  rw [h] at h1
  have hlen : l.length = l'.length := by
    have := h1.1.symm.trans h2.1
    omega
  rw [hlen] at h1 h2
  exact h1.2.symm.trans h2.2

theorem bits_from_eq_iff : bits_from mem offs len = bits_from mem' offs' len ↔ ∀ i < len, bit mem (offs + i) = bit mem' (offs' + i) := by
  constructor
  · intro h i hi
    have hget := congrArg (fun k : List Bool => k[i]?) h
    rw [getElem?_bits_from, getElem?_bits_from, if_pos hi, if_pos hi] at hget
    exact Option.some.inj hget
  · intro h
    apply ext_getElem?
    intro i
    rw [getElem?_bits_from, getElem?_bits_from]
    split_ifs with hi
    · rw [h i hi]
    · rfl

/-- What is printed is read as the same bits, and only these bits are printed so. -/
theorem hex_round_trip (mem : Memory) (offs : ℤ) (len : ℕ) (buff : Memory) (buff_size : ℕ) (h : (len + 3) / 4 ≤ 2 * buff_size) :
    ∃ s, bits_to_hex mem offs len = some s ∧ (parse_bitstring_hex_literal buff buff_size s).2 = len ∧
      (∀ i < len, bit (parse_bitstring_hex_literal buff buff_size s).1 i = bit mem (offs + i)) ∧
      ∀ (mem' : Memory) (offs' : ℤ) (len' : ℕ), bits_to_hex mem' offs' len' = some s →
        len' = len ∧ ∀ i < len, bit mem' (offs' + i) = bit mem (offs + i) := by
  obtain ⟨h1, h2⟩ := parse_literal buff buff_size (bits_from mem offs len) (by rwa [length_bits_from])
  rw [length_bits_from] at h1 h2
  refine ⟨_, bits_to_hex_eq mem offs len, h1, fun i hi => ?_, fun mem' offs' len' hs => ?_⟩
  · have := bits_from_eq_iff.1 h2 i hi
    rwa [zero_add] at this
  · rw [bits_to_hex_eq] at hs
    have heq := literal_inj (Option.some.inj hs)
    have hlen := congrArg List.length heq
    rw [length_bits_from, length_bits_from] at hlen
    subst hlen
    exact ⟨rfl, bits_from_eq_iff.1 heq⟩

/-- Five bits from the fourth one on, in a buffer of one byte. -/
theorem hex_round_trip_five : ∃ s, bits_to_hex (fun _ => 0xa5) 3 5 = some s ∧ (parse_bitstring_hex_literal (fun _ => 0) 1 s).2 = (5 : ℕ) := by
  obtain ⟨s, h1, h2, -⟩ := hex_round_trip (fun _ => 0xa5) 3 5 (fun _ => 0) 1 (by decide)
  exact ⟨s, h1, h2⟩

end

end Ton.Text.HexLiteral
