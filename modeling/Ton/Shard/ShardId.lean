import Mathlib.Order.Nat
import Mathlib.Tactic.Ring
/-!
# Shard identifiers

`ton-types.h`, `ton-shard.h`: a shard of a workchain is a 64-bit word, its prefix
followed by a one and zeroes. An account belongs to the shard whose prefix starts
the first 64 bits of its address.

Bits are counted from the low end here: the prefix of `s` are the bits above
`s.ctz`.
-/

namespace Ton.Shard
open BitVec Nat

abbrev WorkchainId := BitVec 32
abbrev AccountIdPrefix := BitVec 64
abbrev ShardId := BitVec 64

def masterchainId : WorkchainId := -1
def workchainInvalid : WorkchainId := 0x80000000

def rootShardId : ShardId := 1#64 <<< 63

structure AccountIdPrefixFull where
  workchain : WorkchainId
  account_id_prefix : AccountIdPrefix
deriving DecidableEq, Repr

structure ShardIdFull where
  workchain : WorkchainId
  shard : ShardId
deriving DecidableEq, Repr

def bits_negate64 (x : BitVec 64) : BitVec 64 := ~~~x + 1

def lower_bit64 (x : BitVec 64) : BitVec 64 := x &&& bits_negate64 x

def shard_contains (parent : ShardId) (child : AccountIdPrefix) : Bool :=
  (parent ^^^ child) &&& (bits_negate64 (lower_bit64 parent) <<< 1) == 0

def ShardIdFull.contains (parent : ShardIdFull) (child : AccountIdPrefixFull) : Bool :=
  parent.workchain == child.workchain && shard_contains parent.shard child.account_id_prefix

/-! ## The bits of a shard -/

section
variable {s : ShardId} (hs : s ≠ 0)
include hs

theorem getLsbD_ctz : s.getLsbD s.ctz.toNat = true :=
  getLsbD_true_ctz_of_ne_zero hs

theorem ctz_lt : s.ctz.toNat < 64 := by
  simpa using lt_def.1 (ctz_lt_iff_ne_zero.2 hs)

theorem getLsbD_bits_negate64 (j : Nat) :
    (bits_negate64 s).getLsbD j = ((s.getLsbD j) ^^ (decide (s.ctz.toNat < j) && decide (j < 64))) := by
  rw [show bits_negate64 s = -s from (neg_eq_not_add s).symm, getLsbD_neg]
  have hlow : (∃ i < j, s.getLsbD i = true) ↔ s.ctz.toNat < j := by
    refine ⟨?_, fun h => ⟨_, h, getLsbD_ctz hs⟩⟩
    rintro ⟨i, hi, h⟩
    have hle : ¬i < s.ctz.toNat := fun hlt => by simp [getLsbD_false_of_lt_ctz hlt] at h
    omega
  simp only [hlow, Bool.and_comm]

theorem getLsbD_lower_bit64 (j : Nat) :
    (lower_bit64 s).getLsbD j = decide (j = s.ctz.toNat) := by
  rw [lower_bit64, getLsbD_and, getLsbD_bits_negate64 hs]
  rcases Nat.lt_trichotomy j s.ctz.toNat with h | h | h
  · simp [getLsbD_false_of_lt_ctz h, h.ne]
  · simp [h, getLsbD_ctz hs]
  · by_cases hj : j < 64
    · simp [h, h.ne', hj]
    · simp [getLsbD_of_ge _ _ (Nat.le_of_not_lt hj), h.ne']

theorem lower_bit64_ne_zero : lower_bit64 s ≠ 0 := by
  intro h
  have := getLsbD_lower_bit64 hs s.ctz.toNat
  simp [h] at this

theorem ctz_lower_bit64 : (lower_bit64 s).ctz.toNat = s.ctz.toNat := by
  have h := getLsbD_ctz (lower_bit64_ne_zero hs)
  rw [getLsbD_lower_bit64 hs] at h
  exact of_decide_eq_true h

theorem getLsbD_prefix_mask (j : Nat) :
    (bits_negate64 (lower_bit64 s) <<< 1).getLsbD j = (decide (s.ctz.toNat < j) && decide (j < 64)) := by
  rw [getLsbD_shiftLeft, getLsbD_bits_negate64 (lower_bit64_ne_zero hs), getLsbD_lower_bit64 hs, ctz_lower_bit64 hs]
  rcases j with _ | j
  · simp
  · have hc := ctz_lt hs
    rcases Nat.lt_trichotomy j s.ctz.toNat with h | h | h
    · simp [h.ne, show ¬s.ctz.toNat < j from h.asymm, show ¬s.ctz.toNat < j + 1 by omega]
    · simp [h]
    · by_cases hj : j + 1 < 64
      · simp [h.ne', h, hj, show j < 64 by omega, show s.ctz.toNat < j + 1 by omega]
      · simp [hj]

/-- An account belongs to a shard when it has the bits of the shard's prefix. -/
theorem shard_contains_iff (p : AccountIdPrefix) :
    shard_contains s p = true ↔ ∀ j, s.ctz.toNat < j → s.getLsbD j = p.getLsbD j := by
  rw [shard_contains, beq_iff_eq, eq_of_getLsbD_eq_iff]
  simp only [getLsbD_and, getLsbD_xor, getLsbD_prefix_mask hs]
  constructor
  · intro h j hj
    by_cases hj' : j < 64
    · simpa [hj, hj'] using h j hj'
    · simp [getLsbD_of_ge _ _ (Nat.le_of_not_lt hj')]
  · intro h j _
    by_cases hj : s.ctz.toNat < j
    · simp [h j hj]
    · simp [hj]

theorem getLsbD_sub_one {j : Nat} (hj : j < 64) :
    (s - 1).getLsbD j = !((s.getLsbD j) ^^ decide (s.ctz.toNat < j)) := by
  have hneg := getLsbD_bits_negate64 hs j
  rw [show bits_negate64 s = -s from (neg_eq_not_add s).symm] at hneg
  rw [show s - 1 = ~~~(-s) from (not_neg s).symm, getLsbD_not, hneg]
  simp [hj]

theorem low_toNat :
    (s &&& (s - 1)).toNat = 2 ^ (s.ctz.toNat + 1) * (s.toNat / 2 ^ (s.ctz.toNat + 1)) := by
  apply eq_of_testBit_eq
  intro j
  rw [testBit_toNat, getLsbD_and, Nat.mul_comm, testBit_mul_two_pow, testBit_div_two_pow,
    testBit_toNat]
  by_cases hj : j < 64
  · rw [getLsbD_sub_one hs hj]
    rcases Nat.lt_trichotomy j s.ctz.toNat with h | h | h
    · simp [getLsbD_false_of_lt_ctz h]
      omega
    · simp [h, getLsbD_ctz hs]
    · simp [h, show s.ctz.toNat + 1 ≤ j by omega]
  · simp only [getLsbD_of_ge _ j (Nat.le_of_not_lt hj), Bool.false_and, Bool.false_eq, Bool.and_eq_false_iff]
    by_cases h : s.ctz.toNat + 1 ≤ j
    · exact .inr (getLsbD_of_ge _ _ (by omega))
    · exact .inl (by simpa using h)

theorem high_toNat :
    (s ||| (s - 1)).toNat = (s &&& (s - 1)).toNat + (2 ^ (s.ctz.toNat + 1) - 1) := by
  have hc := ctz_lt hs
  rw [low_toNat hs, two_pow_add_eq_or_of_lt (Nat.sub_one_lt (Nat.two_pow_pos _).ne'), ← low_toNat hs]
  apply eq_of_testBit_eq
  intro j
  rw [testBit_or, testBit_toNat, testBit_toNat, getLsbD_or, getLsbD_and,
    testBit_two_pow_sub_one]
  by_cases hj : j < 64
  · rw [getLsbD_sub_one hs hj]
    rcases Nat.lt_trichotomy j s.ctz.toNat with h | h | h
    · simp [getLsbD_false_of_lt_ctz h, show ¬s.ctz.toNat < j from h.asymm]
      omega
    · simp [h, getLsbD_ctz hs]
    · simp [h, show ¬j < s.ctz.toNat + 1 by omega]
  · simp [getLsbD_of_ge _ j (Nat.le_of_not_lt hj)]
    omega

end

theorem div_eq_iff_bits (s p : BitVec 64) (c : Nat) :
    p.toNat / 2 ^ (c + 1) = s.toNat / 2 ^ (c + 1) ↔ ∀ j, c < j → s.getLsbD j = p.getLsbD j := by
  constructor
  · intro h j hj
    have := congrArg (Nat.testBit · (j - (c + 1))) h
    simp only [testBit_div_two_pow, testBit_toNat] at this
    rw [show j - (c + 1) + (c + 1) = j by omega] at this
    exact this.symm
  · intro h
    apply eq_of_testBit_eq
    intro j
    simp only [testBit_div_two_pow, testBit_toNat]
    exact (h _ (by omega)).symm

/-- The accounts of a shard are the interval that the routing loop tests. -/
theorem interval_iff {s : ShardId} (hs : s ≠ 0) (p : AccountIdPrefix) :
    (s &&& (s - 1) ≤ p ∧ p ≤ s ||| (s - 1)) ↔ shard_contains s p = true := by
  have hpos := Nat.two_pow_pos (s.ctz.toNat + 1)
  rw [shard_contains_iff hs, ← div_eq_iff_bits, le_def, le_def, high_toNat hs, low_toNat hs,
    Nat.div_eq_iff hpos, Nat.mul_comm]
  generalize s.toNat / 2 ^ (s.ctz.toNat + 1) * 2 ^ (s.ctz.toNat + 1) = x
  omega

theorem shard_contains_rootShardId (p : AccountIdPrefix) : shard_contains rootShardId p = true := by
  rw [shard_contains]
  have : bits_negate64 (lower_bit64 rootShardId) <<< 1 = 0 := by decide
  simp [this]

end Ton.Shard
