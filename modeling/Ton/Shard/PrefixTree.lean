import Ton.Lib.BigEndian
import Ton.Shard.ShardId
/-!
# The tree of shards

The functions of `ton-shard.h` on words, and the binary tree that they describe: the
word of a prefix is the prefix, a one and zeroes, and every word but zero is one.
`CHECK` of a function is its precondition.
-/

namespace Ton.Shard
open BigEndian List BitVec

def shard_prefix_length (shard : ShardId) : Nat := if shard ≠ 0 then 63 - shard.ctz.toNat else 0

def shard_is_ancestor (parent child : ShardId) : Bool :=
  let x := lower_bit64 parent
  let y := lower_bit64 child
  x ≥ y && (parent ^^^ child) &&& (bits_negate64 x <<< 1) == 0

def shard_intersects (x y : ShardId) : Bool :=
  let z := if lower_bit64 x < lower_bit64 y then lower_bit64 y else lower_bit64 x
  (x ^^^ y) &&& (bits_negate64 z <<< 1) == 0

def shard_intersection (x y : ShardId) : ShardId := if lower_bit64 x < lower_bit64 y then x else y

def shard_parent (shard : ShardId) : ShardId :=
  let x := lower_bit64 shard
  (shard - x) ||| (x <<< 1)

def shard_child (shard : ShardId) (left : Bool) : ShardId :=
  let x := lower_bit64 shard >>> 1
  if left then shard - x else shard + x

def shard_is_sibling (x y : ShardId) : Bool :=
  x ^^^ y ≠ 0 && x ^^^ y == (x &&& bits_negate64 x) <<< 1

def ShardIdFull.is_sibling (x y : ShardIdFull) : Bool := x.workchain == y.workchain && shard_is_sibling x.shard y.shard

def ShardIdFull.parent (s : ShardIdFull) : ShardIdFull := ⟨s.workchain, shard_parent s.shard⟩

abbrev LogicalTime := BitVec 64
abbrev BlockSeqno := BitVec 32

/-! ## Prefixes -/

abbrev Prefix := { p : List Bool // p.length ≤ 63 }

namespace Prefix

/-- The prefix, a one and zeroes. -/
def word (p : Prefix) : ShardId := BitVec.ofNat 64 ((2 * ofBits p.1 + 1) * 2 ^ (63 - p.1.length))

def child (p : Prefix) (h : p.1.length < 63) (b : Bool) : Prefix := ⟨p.1 ++ [b], by rw [length_append]; exact h⟩

section
variable (p q : Prefix)

theorem word_toNat : p.word.toNat = (2 * ofBits p.1 + 1) * 2 ^ (63 - p.1.length) := by
  have hlt := ofBits_lt p.1
  have hlen := p.2
  rw [word, toNat_ofNat, Nat.mod_eq_of_lt]
  calc (2 * ofBits p.1 + 1) * 2 ^ (63 - p.1.length) < 2 ^ (p.1.length + 1) * 2 ^ (63 - p.1.length) :=
        Nat.mul_lt_mul_of_pos_right (by rw [Nat.pow_succ]; omega) (Nat.two_pow_pos _)
    _ = 2 ^ 64 := by rw [← Nat.pow_add]; congr 1; omega

theorem word_ne_zero : p.word ≠ 0 := by
  intro h
  have := p.word_toNat
  rw [h] at this
  have hpos : 0 < (2 * ofBits p.1 + 1) * 2 ^ (63 - p.1.length) := by positivity
  simp only [ofNat_eq_ofNat, toNat_ofNat] at this
  omega

theorem getLsbD_word (j : Nat) : p.word.getLsbD j = (decide (63 - p.1.length ≤ j) && (2 * ofBits p.1 + 1).testBit (j - (63 - p.1.length))) := by
  rw [← testBit_toNat, p.word_toNat, Nat.testBit_mul_two_pow]

theorem ctz_word : p.word.ctz.toNat = 63 - p.1.length := by
  have hbit := getLsbD_ctz p.word_ne_zero
  rw [getLsbD_word, Bool.and_eq_true, decide_eq_true_eq] at hbit
  have hle : ¬63 - p.1.length < p.word.ctz.toNat := by
    intro hlt
    have := getLsbD_false_of_lt_ctz hlt
    simp [getLsbD_word] at this
  omega

end

end Prefix

theorem lower_bit64_toNat {s : ShardId} (hs : s ≠ 0) : (lower_bit64 s).toNat = 2 ^ s.ctz.toNat := by
  apply Nat.eq_of_testBit_eq
  intro j
  rw [testBit_toNat, getLsbD_lower_bit64 hs, Nat.testBit_two_pow]
  simp only [eq_comm]

theorem exists_prefix {s : ShardId} (hs : s ≠ 0) : ∃ p : Prefix, s = p.word := by
  have hc := ctz_lt hs
  have hlow : s.toNat % 2 ^ (s.ctz.toNat + 1) = 2 ^ s.ctz.toNat := by
    apply Nat.eq_of_testBit_eq
    intro j
    rw [Nat.testBit_mod_two_pow, testBit_toNat, Nat.testBit_two_pow]
    rcases Nat.lt_trichotomy j s.ctz.toNat with h | h | h
    · simp [getLsbD_false_of_lt_ctz h, h.ne']
    · simp [h, getLsbD_ctz hs]
    · simp [show ¬j < s.ctz.toNat + 1 by omega, h.ne]
  have hm : s.toNat / 2 ^ (s.ctz.toNat + 1) < 2 ^ (63 - s.ctz.toNat) := by
    apply Nat.div_lt_of_lt_mul
    rw [← Nat.pow_add, show s.ctz.toNat + 1 + (63 - s.ctz.toNat) = 64 by omega]
    exact s.isLt
  have hsplit : s.toNat = (2 * (s.toNat / 2 ^ (s.ctz.toNat + 1)) + 1) * 2 ^ s.ctz.toNat := by
    have hdiv := Nat.div_add_mod s.toNat (2 ^ (s.ctz.toNat + 1))
    rw [hlow] at hdiv
    generalize s.toNat / 2 ^ (s.ctz.toNat + 1) = m at hdiv ⊢
    rw [← hdiv, Nat.pow_succ]
    ring
  refine ⟨⟨toBits (63 - s.ctz.toNat) (s.toNat / 2 ^ (s.ctz.toNat + 1)), by rw [toBits_length]; omega⟩, ?_⟩
  apply eq_of_toNat_eq
  rw [Prefix.word_toNat]
  dsimp only
  rw [toBits_length, ofBits_toBits, Nat.mod_eq_of_lt hm, show 63 - (63 - s.ctz.toNat) = s.ctz.toNat by omega]
  exact hsplit

namespace Prefix

section
variable {p q : Prefix}

theorem word_injective (h : p.word = q.word) : p = q := by
  have hc : p.1.length = q.1.length := by
    have h1 := p.ctz_word
    rw [h, q.ctz_word] at h1
    have := p.2
    have := q.2
    omega
  have hn := congrArg BitVec.toNat h
  rw [p.word_toNat, q.word_toNat, hc] at hn
  have := Nat.mul_right_cancel (Nat.two_pow_pos _) hn
  exact Subtype.ext (ofBits_inj hc (by omega))

theorem length_word : shard_prefix_length p.word = p.1.length := by
  have := p.2
  rw [shard_prefix_length, if_pos p.word_ne_zero, ctz_word]
  omega

theorem lower_word : (lower_bit64 p.word).toNat = 2 ^ (63 - p.1.length) := by rw [lower_bit64_toNat p.word_ne_zero, ctz_word]

theorem lower_le_iff : lower_bit64 p.word ≤ lower_bit64 q.word ↔ q.1.length ≤ p.1.length := by
  have hp := p.2
  have hq := q.2
  rw [le_def, lower_word, lower_word, Nat.pow_le_pow_iff_right (by decide)]
  omega

theorem contains_iff (h : p.1.length ≤ q.1.length) : shard_contains p.word q.word = true ↔ p.1 <+: q.1 := by
  have hp := p.2
  have hq := q.2
  rw [shard_contains_iff p.word_ne_zero, ← div_eq_iff_bits, ctz_word, word_toNat, word_toNat]
  have hown : (2 * ofBits p.1 + 1) * 2 ^ (63 - p.1.length) / 2 ^ (63 - p.1.length + 1) = ofBits p.1 := by
    rw [Nat.pow_succ, Nat.mul_comm (2 ^ _) 2, Nat.mul_div_mul_right _ _ (Nat.two_pow_pos _)]
    omega
  have hother : (2 * ofBits q.1 + 1) * 2 ^ (63 - q.1.length) / 2 ^ (63 - p.1.length + 1) = ofBits (q.1.take p.1.length) := by
    have hsplit := ofBits_append (q.1.take p.1.length) (q.1.drop p.1.length)
    have hlt := ofBits_lt (q.1.drop p.1.length)
    rw [take_append_drop] at hsplit
    rw [length_drop] at hsplit hlt
    rw [show 63 - p.1.length + 1 = q.1.length - p.1.length + 1 + (63 - q.1.length) by omega, Nat.pow_add,
      Nat.mul_div_mul_right _ _ (Nat.two_pow_pos _), hsplit, Nat.pow_succ]
    generalize 2 ^ (q.1.length - p.1.length) = k at *
    generalize ofBits (q.1.take p.1.length) = a
    generalize ofBits (q.1.drop p.1.length) = b at *
    rw [show 2 * (a * k + b) + 1 = k * 2 * a + (2 * b + 1) by ring, Nat.mul_add_div (by omega), Nat.div_eq_of_lt (by omega),
      Nat.add_zero]
  rw [hown, hother]
  constructor
  · intro heq
    rw [prefix_iff_eq_take]
    exact ofBits_inj (by simpa using h) heq.symm
  · rintro ⟨r, hr⟩
    rw [← hr, take_left]

theorem ancestor_iff : shard_is_ancestor p.word q.word = true ↔ p.1 <+: q.1 := by
  unfold shard_is_ancestor
  dsimp only
  rw [Bool.and_eq_true, decide_eq_true_eq, ge_iff_le, lower_le_iff]
  constructor
  · rintro ⟨h1, h2⟩
    exact (contains_iff h1).1 h2
  · intro h
    exact ⟨h.length_le, (contains_iff h.length_le).2 h⟩

/-- Two shards intersect when one of them is an ancestor of the other. -/
theorem intersects_iff : shard_intersects p.word q.word = true ↔ p.1 <+: q.1 ∨ q.1 <+: p.1 := by
  unfold shard_intersects
  dsimp only
  by_cases h : q.1.length < p.1.length
  · have hlt : lower_bit64 p.word < lower_bit64 q.word := by
      simpa [BitVec.not_le] using mt lower_le_iff.1 (Nat.not_le.2 h)
    rw [if_pos hlt, BitVec.xor_comm]
    refine (contains_iff h.le).trans ⟨.inr, fun h' => h'.resolve_left ?_⟩
    intro hp
    exact absurd hp.length_le (Nat.not_le.2 h)
  · have hle : ¬lower_bit64 p.word < lower_bit64 q.word := BitVec.not_lt.2 (lower_le_iff.2 (Nat.le_of_not_lt h))
    rw [if_neg hle]
    refine (contains_iff (Nat.le_of_not_lt h)).trans ⟨.inl, fun h' => h'.elim id ?_⟩
    intro hq
    exact (hq.eq_of_length (Nat.le_antisymm hq.length_le (Nat.le_of_not_lt h))) ▸ prefix_rfl

theorem shard_intersection_word : shard_intersection p.word q.word = if q.1.length < p.1.length then p.word else q.word := by
  have h : lower_bit64 p.word < lower_bit64 q.word ↔ q.1.length < p.1.length := by
    rw [← BitVec.not_le, lower_le_iff, Nat.not_le]
  unfold shard_intersection
  simp only [h]

end

/-! ## Children -/

section
variable {p : Prefix} (h : p.1.length < 63)

theorem child_toNat (b : Bool) : (p.child h b).word.toNat = (4 * ofBits p.1 + 2 * b.toNat + 1) * 2 ^ (62 - p.1.length) := by
  rw [word_toNat, child, ofBits_append, length_append, show 63 - (p.1.length + [b].length) = 62 - p.1.length by simp]
  simp [ofBits_cons]
  ring

theorem shard_child_word (left : Bool) : shard_child p.word left = (p.child h !left).word := by
  have hw := p.word_toNat
  have hl := p.lower_word
  rw [show 63 - p.1.length = 62 - p.1.length + 1 by omega, Nat.pow_succ] at hw hl
  have hc := child_toNat h (!left)
  have hx : (lower_bit64 p.word >>> 1).toNat = 2 ^ (62 - p.1.length) := by
    rw [toNat_ushiftRight, hl, Nat.shiftRight_eq_div_pow]
    omega
  have hlt := (p.child h !left).word.isLt
  apply eq_of_toNat_eq
  rw [hc] at hlt ⊢
  generalize 2 ^ (62 - p.1.length) = k at *
  unfold shard_child
  cases left
  · rw [if_neg (by decide), toNat_add, hw, hx, Nat.mod_eq_of_lt]
    · simp
      ring
    · simp at hlt
      linarith
  · have hle : lower_bit64 p.word >>> 1 ≤ p.word := by
      rw [le_def, hx, hw]
      nlinarith
    rw [if_pos rfl, toNat_sub_of_le hle, hw, hx]
    simp
    have : (2 * ofBits p.1 + 1) * (k * 2) = (4 * ofBits p.1 + 1) * k + k := by ring
    omega

theorem lower_child (b : Bool) : (lower_bit64 (p.child h b).word).toNat = 2 ^ (62 - p.1.length) := by
  rw [lower_word, child, length_append, show 63 - (p.1.length + [b].length) = 62 - p.1.length by simp]

theorem lower_child_shift (b : Bool) : (lower_bit64 (p.child h b).word <<< 1).toNat = 2 * 2 ^ (62 - p.1.length) := by
  rw [toNat_shiftLeft, lower_child, Nat.shiftLeft_eq, Nat.mod_eq_of_lt]
  · ring
  · rw [← Nat.pow_succ]
    exact Nat.pow_lt_pow_right (by decide) (by omega)

theorem digit_or (a : Nat) (b : Bool) : (4 * a + 2 * b.toNat) ||| 2 = 4 * a + 2 := by
  apply Nat.eq_of_testBit_eq
  intro j
  have hdiv : ∀ n j, n / 2 ^ (j + 2) = n / 4 / 2 ^ j := by
    intro n j
    rw [Nat.pow_add, Nat.mul_comm, ← Nat.div_div_eq_div_mul]
  rw [Nat.testBit_or]
  simp only [Nat.testBit_eq_decide_div_mod_eq]
  match j with
  | 0 => simp
  | 1 => cases b <;> simp <;> omega
  | j + 2 =>
    simp only [hdiv]
    cases b <;> simp [show (4 * a + 2) / 4 = a by omega]

theorem digit_xor (a : Nat) (b : Bool) : (4 * a + 2 * b.toNat + 1) ^^^ 2 = 4 * a + 2 * (!b).toNat + 1 := by
  apply Nat.eq_of_testBit_eq
  intro j
  have hdiv : ∀ n j, n / 2 ^ (j + 2) = n / 4 / 2 ^ j := by
    intro n j
    rw [Nat.pow_add, Nat.mul_comm, ← Nat.div_div_eq_div_mul]
  rw [Nat.testBit_xor]
  simp only [Nat.testBit_eq_decide_div_mod_eq]
  match j with
  | 0 => cases b <;> simp <;> omega
  | 1 => cases b <;> simp [show (4 * a + 1) / 2 = 2 * a by omega, show (4 * a + 2 + 1) / 2 = 2 * a + 1 by omega]
  | j + 2 =>
    simp only [hdiv]
    cases b <;> simp [show (4 * a + 1) / 4 = a by omega, show (4 * a + 2 + 1) / 4 = a by omega]

theorem shard_parent_word (b : Bool) : shard_parent (p.child h b).word = p.word := by
  have hc := child_toNat h b
  have hl := lower_child h b
  have hw := p.word_toNat
  have hx := lower_child_shift h b
  rw [show 63 - p.1.length = 62 - p.1.length + 1 by omega, Nat.pow_succ] at hw
  have hle : lower_bit64 (p.child h b).word ≤ (p.child h b).word := by
    rw [le_def, hc, hl]
    exact Nat.le_mul_of_pos_left _ (by omega)
  have hsub : (p.child h b).word.toNat - (lower_bit64 (p.child h b).word).toNat =
      (4 * ofBits p.1 + 2 * b.toNat) * 2 ^ (62 - p.1.length) := by
    rw [hc, hl, Nat.add_mul _ 1, Nat.one_mul, Nat.add_sub_cancel]
  apply eq_of_toNat_eq
  unfold shard_parent
  rw [toNat_or, toNat_sub_of_le hle, hsub, hx, hw, ← Nat.shiftLeft_eq, ← Nat.shiftLeft_eq,
    ← Nat.shiftLeft_or_distrib, Nat.shiftLeft_eq]
  rw [digit_or]
  ring

theorem shard_sibling_word (b : Bool) : (p.child h b).word ^^^ (lower_bit64 (p.child h b).word <<< 1) = (p.child h !b).word := by
  apply eq_of_toNat_eq
  rw [toNat_xor, child_toNat, child_toNat, lower_child_shift, ← Nat.shiftLeft_eq, ← Nat.shiftLeft_eq,
    ← Nat.shiftLeft_xor_distrib, Nat.shiftLeft_eq]
  rw [digit_xor]

end

theorem exists_child {p : Prefix} (h : p.1.length ≠ 0) : ∃ (r : Prefix) (hr : r.1.length < 63) (b : Bool), p = r.child hr b := by
  have hp := p.2
  have hne : p.1 ≠ [] := by simpa using h
  have hlen : p.1.dropLast.length < 63 := by
    rw [length_dropLast]
    omega
  refine ⟨⟨p.1.dropLast, hlen.le⟩, hlen, p.1.getLast hne, Subtype.ext ?_⟩
  exact (dropLast_concat_getLast hne).symm

/-- Two shards are siblings when they are the children of one shard. -/
theorem sibling_iff {p q : Prefix} : shard_is_sibling p.word q.word = true ↔
    ∃ (r : Prefix) (h : r.1.length < 63) (b : Bool), p = r.child h b ∧ q = r.child h !b := by
  have hmove : shard_is_sibling p.word q.word = true ↔
      lower_bit64 p.word <<< 1 ≠ 0 ∧ q.word = p.word ^^^ (lower_bit64 p.word <<< 1) := by
    unfold shard_is_sibling
    rw [← lower_bit64, Bool.and_eq_true, decide_eq_true_eq, beq_iff_eq]
    constructor
    · rintro ⟨h1, h2⟩
      exact ⟨h2 ▸ h1, by rw [← h2, ← xor_assoc, BitVec.xor_self, BitVec.zero_xor]⟩
    · rintro ⟨h1, h2⟩
      rw [h2, ← xor_assoc, BitVec.xor_self, BitVec.zero_xor]
      exact ⟨h1, rfl⟩
  rw [hmove]
  constructor
  · rintro ⟨h1, h2⟩
    by_cases h0 : p.1.length = 0
    · refine absurd (eq_of_toNat_eq ?_) h1
      rw [toNat_shiftLeft, lower_word, h0]
      rfl
    · obtain ⟨r, hr, b, rfl⟩ := exists_child h0
      rw [shard_sibling_word] at h2
      exact ⟨r, hr, b, rfl, word_injective h2⟩
  · rintro ⟨r, hr, b, rfl, rfl⟩
    refine ⟨fun h0 => ?_, (shard_sibling_word hr b).symm⟩
    have hx := lower_child_shift hr b
    rw [h0] at hx
    have := Nat.two_pow_pos (62 - r.1.length)
    simp at hx

end Prefix

end Ton.Shard
