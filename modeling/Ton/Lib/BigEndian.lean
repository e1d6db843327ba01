import Mathlib.Data.List.Induction
import Mathlib.Tactic.Ring
import Mathlib.Tactic.Linarith
/-!
# Big-endian bits and bytes

Numbers written most significant digit first, as bit strings and as byte
strings. Bytes are `BitVec 8`. `ofBits_append` and `ofBytes_append` are how a
reader splits a record; `ofBytes_lt_iff` says that comparing byte strings of one
length digit by digit compares the numbers.
-/

namespace BigEndian
open List

abbrev Byte := BitVec 8

/-- The byte at index `i`, zero past the end. -/
def byteAt (p : List Byte) (i : Nat) : Byte := p.getD i 0

/-- The number a bit string denotes. -/
def ofBits (l : List Bool) : Nat := l.foldl (fun n b => 2 * n + b.toNat) 0

/-- `n` as `w` bits, modulo `2 ^ w`. -/
def toBits : Nat → Nat → List Bool
  | 0, _ => []
  | w + 1, n => toBits w (n / 2) ++ [n % 2 == 1]

/-- The number a byte string denotes. -/
def ofBytes (l : List Byte) : Nat := l.foldl (fun n b => 256 * n + b.toNat) 0

/-- `n` as `w` bytes, modulo `256 ^ w`. -/
def toBytes : Nat → Nat → List Byte
  | 0, _ => []
  | w + 1, n => toBytes w (n / 256) ++ [BitVec.ofNat 8 n]

/-- The eight bits of a byte. -/
def byteBits (b : Byte) : List Bool := toBits 8 b.toNat

/-- The bits of a byte string. -/
def bytesToBits (l : List Byte) : List Bool := l.flatMap byteBits

/-- A bit string of whole bytes, as bytes. -/
def bitsToBytes (l : List Bool) : List Byte := toBytes (l.length / 8) (ofBits l)

/-- The order in which `memcmp` compares: the first differing byte decides. -/
def memcmp : List Byte → List Byte → Ordering
  | [], [] => .eq
  | [], _ :: _ => .lt
  | _ :: _, [] => .gt
  | a :: as, b :: bs => if a < b then .lt else if b < a then .gt else memcmp as bs

/-! ## Bits -/

theorem foldl_bits (l : List Bool) (n : Nat) :
    l.foldl (fun n b => 2 * n + b.toNat) n = n * 2 ^ l.length + ofBits l := by
  induction l generalizing n with
  | nil => simp [ofBits]
  | cons b l ih =>
    simp only [ofBits, foldl_cons, length_cons]
    rw [ih, ih (2 * 0 + b.toNat)]
    ring

@[simp] theorem ofBits_nil : ofBits [] = 0 := rfl

theorem ofBits_append (a b : List Bool) : ofBits (a ++ b) = ofBits a * 2 ^ b.length + ofBits b := by
  rw [ofBits, foldl_append, foldl_bits]; rfl

theorem ofBits_cons (b : Bool) (l : List Bool) : ofBits (b :: l) = b.toNat * 2 ^ l.length + ofBits l := by
  rw [ofBits, foldl_cons, foldl_bits]; simp

theorem ofBits_lt (l : List Bool) : ofBits l < 2 ^ l.length := by
  induction l with
  | nil => simp
  | cons b l ih =>
    rw [ofBits_cons, length_cons, pow_succ]
    cases b <;> simp <;> omega

@[simp] theorem toBits_length (w n : Nat) : (toBits w n).length = w := by
  induction w generalizing n with
  | zero => rfl
  | succ w ih => simp [toBits, ih]

theorem ofBits_toBits (w n : Nat) : ofBits (toBits w n) = n % 2 ^ w := by
  induction w generalizing n with
  | zero => simp [toBits, Nat.mod_one]
  | succ w ih =>
    rw [toBits, ofBits_append, ih, pow_succ', Nat.mod_mul]
    have hb : ofBits [n % 2 == 1] = n % 2 := by
      rcases Nat.mod_two_eq_zero_or_one n with h | h <;> simp [h, ofBits]
    simp only [length_singleton, pow_one, hb]
    ring

theorem toBits_ofBits (l : List Bool) : toBits l.length (ofBits l) = l := by
  induction l using List.reverseRecOn with
  | nil => rfl
  | append_singleton l b ih =>
    have e : ofBits (l ++ [b]) = 2 * ofBits l + b.toNat := by
      rw [ofBits_append]; simp [ofBits_cons]; ring
    have hd : ofBits (l ++ [b]) / 2 = ofBits l := by have := Bool.toNat_lt b; omega
    have hm : (ofBits (l ++ [b]) % 2 == 1) = b := by cases b <;> simp [e]
    rw [length_append, length_singleton, toBits, hd, hm, ih]

theorem ofBits_replicate (n : Nat) (b : Bool) : ofBits (List.replicate n b) = if b then 2 ^ n - 1 else 0 := by
  induction n with
  | zero => cases b <;> rfl
  | succ n ih =>
    rw [replicate_succ, ofBits_cons, ih, length_replicate]
    have h : 0 < 2 ^ n := Nat.two_pow_pos n
    cases b with
    | false => simp
    | true => simp only [Bool.toNat_true, if_true, Nat.pow_succ]; omega

theorem ofBits_inj {a b : List Bool} (hl : a.length = b.length) (h : ofBits a = ofBits b) : a = b := by
  rw [← toBits_ofBits a, ← toBits_ofBits b, hl, h]

/-! ## Bytes -/

theorem foldl_bytes (l : List Byte) (n : Nat) :
    l.foldl (fun n b => 256 * n + b.toNat) n = n * 256 ^ l.length + ofBytes l := by
  induction l generalizing n with
  | nil => simp [ofBytes]
  | cons b l ih =>
    simp only [ofBytes, foldl_cons, length_cons]
    rw [ih, ih (256 * 0 + b.toNat)]
    ring

@[simp] theorem ofBytes_nil : ofBytes [] = 0 := rfl

theorem ofBytes_append (a b : List Byte) : ofBytes (a ++ b) = ofBytes a * 256 ^ b.length + ofBytes b := by
  rw [ofBytes, foldl_append, foldl_bytes]; rfl

theorem ofBytes_cons (b : Byte) (l : List Byte) : ofBytes (b :: l) = b.toNat * 256 ^ l.length + ofBytes l := by
  rw [ofBytes, foldl_cons, foldl_bytes]; simp

theorem ofBytes_lt (l : List Byte) : ofBytes l < 256 ^ l.length := by
  induction l with
  | nil => simp
  | cons b l ih =>
    rw [ofBytes_cons, length_cons, pow_succ']
    have := b.isLt
    nlinarith

@[simp] theorem toBytes_length (w n : Nat) : (toBytes w n).length = w := by
  induction w generalizing n with
  | zero => rfl
  | succ w ih => simp [toBytes, ih]

theorem ofBytes_toBytes (w n : Nat) : ofBytes (toBytes w n) = n % 256 ^ w := by
  induction w generalizing n with
  | zero => simp [toBytes, Nat.mod_one]
  | succ w ih =>
    rw [toBytes, ofBytes_append, ih, pow_succ', Nat.mod_mul]
    simp [ofBytes_cons]
    ring

theorem digit_lt {x y r s m : Nat} (hr : r < m) (h : x < y) : x * m + r < y * m + s := by
  have : (x + 1) * m ≤ y * m := Nat.mul_le_mul_right m h
  linarith

variable {a b : List Byte}

theorem ofBytes_inj (hl : a.length = b.length) (h : ofBytes a = ofBytes b) : a = b := by
  induction a generalizing b with
  | nil => exact (length_eq_zero_iff.1 hl.symm).symm
  | cons x a ih =>
    obtain _ | ⟨y, b⟩ := b
    · simp at hl
    · simp only [length_cons, Nat.add_right_cancel_iff] at hl
      rw [ofBytes_cons, ofBytes_cons, hl] at h
      have ha := ofBytes_lt a
      have hb := ofBytes_lt b
      rw [hl] at ha
      have hx : x.toNat = y.toNat := by
        rcases Nat.lt_trichotomy x.toNat y.toNat with hlt | he | hlt
        · exact absurd h (digit_lt ha hlt).ne
        · exact he
        · exact absurd h (digit_lt hb hlt).ne'
      rw [hx] at h
      rw [BitVec.eq_of_toNat_eq hx, ih hl (by omega)]

@[simp] theorem byteBits_length (b : Byte) : (byteBits b).length = 8 := toBits_length 8 _

@[simp] theorem bytesToBits_length (l : List Byte) : (bytesToBits l).length = 8 * l.length := by
  induction l with
  | nil => rfl
  | cons b l ih => simp only [bytesToBits, flatMap_cons, length_append] at ih ⊢; rw [ih]; simp; ring

@[simp] theorem bytesToBits_append (a b : List Byte) : bytesToBits (a ++ b) = bytesToBits a ++ bytesToBits b := by
  simp [bytesToBits]

/-- The bits of a byte string denote the number its bytes denote. -/
theorem ofBits_bytesToBits (l : List Byte) : ofBits (bytesToBits l) = ofBytes l := by
  induction l with
  | nil => rfl
  | cons b l ih =>
    have e : bytesToBits (b :: l) = byteBits b ++ bytesToBits l := rfl
    rw [e, ofBits_append, ih, ofBytes_cons, bytesToBits_length, byteBits, ofBits_toBits,
      Nat.mod_eq_of_lt b.isLt, pow_mul]
    norm_num

theorem bytesToBits_bitsToBytes (l : List Bool) (h : l.length % 8 = 0) : bytesToBits (bitsToBytes l) = l := by
  refine ofBits_inj (by simp [bitsToBytes]; omega) ?_
  rw [ofBits_bytesToBits, bitsToBytes, ofBytes_toBytes, Nat.mod_eq_of_lt]
  have := ofBits_lt l
  have e : (256 : Nat) ^ (l.length / 8) = 2 ^ l.length := by
    rw [show (256 : Nat) = 2 ^ 8 by norm_num, ← pow_mul]
    congr 1
    omega
  omega

theorem bytesToBits_inj (h : bytesToBits a = bytesToBits b) : a = b := by
  have hl := congrArg List.length h
  simp only [bytesToBits_length] at hl
  refine ofBytes_inj (by omega) ?_
  rw [← ofBits_bytesToBits, ← ofBits_bytesToBits, h]

@[simp] theorem byteAt_cons_zero (b : Byte) (l : List Byte) : byteAt (b :: l) 0 = b := rfl

@[simp] theorem byteAt_cons_succ (b : Byte) (l : List Byte) (i : Nat) : byteAt (b :: l) (i + 1) = byteAt l i := rfl

theorem byteAt_append (a b : List Byte) (i : Nat) :
    byteAt (a ++ b) i = if i < a.length then byteAt a i else byteAt b (i - a.length) := by
  simp only [byteAt, getD_eq_getElem?_getD, getElem?_append]
  split <;> rfl

theorem byteAt_of_length_le {p : List Byte} {i : Nat} (h : p.length ≤ i) : byteAt p i = 0 := by
  simp [byteAt, getElem?_eq_none h]

theorem byteAt_drop (p : List Byte) (n i : Nat) : byteAt (p.drop n) i = byteAt p (n + i) := by
  simp [byteAt]

theorem byteAt_ext (hl : a.length = b.length) (h : ∀ i < a.length, byteAt a i = byteAt b i) :
    a = b := by
  refine ext_getElem hl fun i h1 h2 => ?_
  simpa [byteAt, getElem?_eq_getElem h1, getElem?_eq_getElem h2] using h i h1

theorem ofBits_byteBits (b : Byte) : ofBits (byteBits b) = b.toNat := by
  rw [byteBits, ofBits_toBits]
  exact Nat.mod_eq_of_lt b.isLt

theorem byteBits_byteAt {l : List Byte} {i : Nat} (h : i < l.length) :
    byteBits (byteAt l i) = ((bytesToBits l).drop (8 * i)).take 8 := by
  induction l generalizing i with
  | nil => simp at h
  | cons b l ih =>
    have hb : bytesToBits (b :: l) = byteBits b ++ bytesToBits l := rfl
    cases i with
    | zero => rw [hb, Nat.mul_zero, drop_zero, take_left' (byteBits_length b), byteAt_cons_zero]
    | succ i =>
      have hd : (byteBits b ++ bytesToBits l).drop (8 * (i + 1)) = (bytesToBits l).drop (8 * i) := by
        rw [Nat.mul_succ, Nat.add_comm, ← drop_drop, drop_left' (byteBits_length b)]
      rw [byteAt_cons_succ, ih (by simpa using h), hb, hd]

theorem bitsToBytes_bytesToBits (l : List Byte) : bitsToBytes (bytesToBits l) = l :=
  bytesToBits_inj (bytesToBits_bitsToBytes _ (by simp))

/-! ## Comparison -/

/-- On strings of one length, `memcmp` compares the numbers they denote. -/
theorem memcmp_eq_compare (a b : List Byte) (hl : a.length = b.length) :
    memcmp a b = compare (ofBytes a) (ofBytes b) := by
  induction a generalizing b with
  | nil => rw [length_eq_zero_iff.1 hl.symm]; rfl
  | cons x a ih =>
    obtain _ | ⟨y, b⟩ := b
    · simp at hl
    · simp only [length_cons, Nat.add_right_cancel_iff] at hl
      have ha := ofBytes_lt a
      have hb := ofBytes_lt b
      rw [hl] at ha
      rw [memcmp, ofBytes_cons, ofBytes_cons, hl]
      split
      · next h =>
        exact (Nat.compare_eq_lt.2 (digit_lt ha (show x.toNat < y.toNat from h))).symm
      · split
        · next h =>
          exact (Nat.compare_eq_gt.2 (digit_lt hb (show y.toNat < x.toNat from h))).symm
        · next h1 h2 =>
          have hxy : x.toNat = y.toNat := by
            have h1 : ¬ x.toNat < y.toNat := h1
            have h2 : ¬ y.toNat < x.toNat := h2
            omega
          rw [ih b hl, hxy, Nat.compare_eq_ite_lt, Nat.compare_eq_ite_lt]
          simp only [Nat.add_lt_add_iff_left]

theorem memcmp_lt_iff (a b : List Byte) (hl : a.length = b.length) :
    memcmp a b = .lt ↔ ofBytes a < ofBytes b := by
  rw [memcmp_eq_compare a b hl, Nat.compare_eq_lt]

end BigEndian
