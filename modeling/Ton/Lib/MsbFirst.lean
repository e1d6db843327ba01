import Mathlib.Data.List.GetD
import Ton.Lib.BigEndian
/-!
# Words read from the top

A word of `w` bits as a row of bits, the most significant one first. `toNat_top`
and `toInt_top` say what is left when all but the first `n` bits are shifted
out; the `getMsbD` lemmas say where a shorter word lands in a longer one.
-/

namespace MsbFirst

open BigEndian

variable {w m k r i : Nat}

/-- The first `n` bits of a word. -/
def top (z : BitVec w) (n : Nat) : List Bool := (List.range n).map z.getMsbD

/-- The two's complement number a bit string denotes. -/
def signed (l : List Bool) : Int := ofBits l - if l.headD false then 2 ^ l.length else 0

@[simp] theorem top_length (z : BitVec w) (n : Nat) : (top z n).length = n := by simp [top]

theorem top_succ (z : BitVec w) (n : Nat) : top z (n + 1) = top z n ++ [z.getMsbD n] := by
  simp [top, List.range_succ]

theorem toNat_top (z : BitVec w) {n : Nat} (h : n ≤ w) : (z >>> (w - n)).toNat = ofBits (top z n) := by
  induction n with
  | zero => simp [top, Nat.shiftRight_eq_div_pow, Nat.div_eq_of_lt z.isLt]
  | succ n ih =>
    have hn : w - n = (w - (n + 1)) + 1 := by omega
    have hb : (z.getMsbD n).toNat = z.toNat / 2 ^ (w - (n + 1)) % 2 := by
      rw [BitVec.getMsbD_eq_getLsbD, decide_eq_true (by omega), Bool.true_and, ← BitVec.testBit_toNat,
        Nat.testBit_eq_decide_div_mod_eq, show w - 1 - n = w - (n + 1) by omega]
      rcases Nat.mod_two_eq_zero_or_one (z.toNat / 2 ^ (w - (n + 1))) with h | h <;> simp [h]
    have hz := ih (by omega)
    rw [BitVec.toNat_ushiftRight, Nat.shiftRight_eq_div_pow] at hz ⊢
    rw [hn, pow_succ, ← Nat.div_div_eq_div_mul] at hz
    rw [top_succ, ofBits_append, ← hz, ofBits_cons, ofBits_nil, hb]
    simp only [List.length_singleton, pow_one, List.length_nil, pow_zero]
    omega

theorem headD_top (z : BitVec w) {n : Nat} (h : 0 < n) : (top z n).headD false = z.msb := by
  obtain ⟨n, rfl⟩ := Nat.exists_eq_succ_of_ne_zero (Nat.ne_of_gt h)
  simp [top, List.range_succ_eq_map, BitVec.msb]

theorem toInt_top (z : BitVec w) {n : Nat} (hp : 0 < n) (h : n ≤ w) : (z.sshiftRight (w - n)).toInt = signed (top z n) := by
  have hd : (z.toNat : Int) / 2 ^ (w - n) = ofBits (top z n) := by
    rw [← toNat_top z h, BitVec.toNat_ushiftRight, Nat.shiftRight_eq_div_pow]
    push_cast
    rfl
  have hw : (2 : Int) ^ w = 2 ^ n * 2 ^ (w - n) := by rw [← pow_add, Nat.add_sub_cancel' h]
  rw [BitVec.toInt_sshiftRight, Int.shiftRight_eq_div_pow, BitVec.toInt_eq_msb_cond, signed, headD_top z hp, top_length]
  cases z.msb with
  | false => simpa using hd
  | true =>
    have hne : (2 : Int) ^ (w - n) ≠ 0 := by positivity
    simp only [if_true]
    push_cast
    rw [hw, sub_eq_add_neg, ← neg_mul, Int.add_mul_ediv_right _ _ hne, hd, sub_eq_add_neg]

/-- Widened to `w` bits and shifted up, a word of `m` bits starts at position `k`. -/
theorem getMsbD_place (x : BitVec m) (h : k + m ≤ w) :
    (x.setWidth w <<< (w - m - k)).getMsbD i = (decide (k ≤ i) && x.getMsbD (i - k)) := by
  rw [BitVec.getMsbD_shiftLeft, BitVec.getMsbD_setWidth, show i + (w - m - k) + m - w = i - k by omega]
  congr 1
  exact decide_eq_decide.mpr (by omega)

/-- The low end of a word cuts off the last `r` bits of a shorter one. -/
theorem getMsbD_cut (x : BitVec m) (h : m ≤ w) :
    ((x >>> r).setWidth w).getMsbD i = (decide (w - m + r ≤ i ∧ i < w) && x.getMsbD (i - (w - m + r))) := by
  rw [BitVec.getMsbD_setWidth, BitVec.getMsbD_ushiftRight, show i + m - w - r = i - (w - m + r) by omega]
  by_cases hi : w - m + r ≤ i ∧ i < w
  · have h1 : w - m ≤ i := by omega
    have h2 : i + m - w < m := by omega
    have h3 : ¬i + m - w < r := by omega
    simp [hi, h1, h2, h3]
  · rw [decide_eq_false hi]
    by_cases h1 : w - m ≤ i
    · by_cases h2 : i < w
      · have h3 : i + m - w < r ∨ r ≥ m := by omega
        rcases h3 with h3 | h3
        · simp [h3]
        · by_cases h4 : i + m - w < r
          · simp [h4]
          · have : ¬i + m - w < m := by omega
            simp [this]
      · have : ¬i + m - w < m := by omega
        simp [this]
    · simp [h1]

/-! ## Bits of a byte string -/

/-- The bit at position `k`, the first byte first. -/
def bitAt (p : List Byte) (k : Nat) : Bool := (bytesToBits p).getD k false

theorem testBit_toBits (v n : Nat) {j : Nat} (h : j < v) : (toBits v n).getD j false = n.testBit (v - 1 - j) := by
  induction v generalizing n with
  | zero => omega
  | succ v ih =>
    by_cases hj : j < v
    · rw [toBits, List.getD_append _ _ _ _ (by simpa using hj), ih (n / 2) hj, Nat.testBit_div_two]
      congr 1
      omega
    · obtain rfl : j = v := by omega
      rw [toBits, List.getD_append_right _ _ _ _ (by simp)]
      rw [toBits_length, Nat.sub_self, List.getD_cons_zero, Nat.add_sub_cancel, Nat.sub_self, Nat.testBit_zero, beq_eq_decide]

theorem getMsbD_byte {p : List Byte} {b : Byte} {j : Nat} (hb : p[i]? = some b) (hj : j < 8) :
    b.getMsbD j = bitAt p (8 * i + j) := by
  have hi : i < p.length := (List.getElem?_eq_some_iff.mp hb).1
  have hp : byteAt p i = b := by rw [byteAt, List.getD_eq_getElem?_getD, hb, Option.getD_some]
  have hg : (byteBits b).getD j false = bitAt p (8 * i + j) := by
    rw [← hp, byteBits_byteAt hi, bitAt, List.getD_eq_getElem?_getD, List.getElem?_take_of_lt hj, List.getElem?_drop,
      List.getD_eq_getElem?_getD]
  rw [← hg, byteBits, testBit_toBits 8 _ hj, BitVec.getMsbD_eq_getLsbD, decide_eq_true hj, Bool.true_and,
    ← BitVec.testBit_toNat]

theorem getMsbD_bytes {p : List Byte} {a b c d : Byte} {j : Nat} (ha : p[i]? = some a) (hb : p[i + 1]? = some b)
    (hc : p[i + 2]? = some c) (hd : p[i + 3]? = some d) (hj : j < 32) :
    (a ++ b ++ c ++ d).getMsbD j = bitAt p (8 * i + j) := by
  simp only [BitVec.getMsbD_append]
  split
  · rw [getMsbD_byte hd (by omega)]
    congr 1
    omega
  split
  · rw [getMsbD_byte hc (by omega)]
    congr 1
    omega
  split
  · rw [getMsbD_byte hb (by omega)]
    congr 1
    omega
  · exact getMsbD_byte ha (by omega)

end MsbFirst
