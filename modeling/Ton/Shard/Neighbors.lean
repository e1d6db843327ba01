import Ton.Shard.Hypercube
import Ton.Shard.Placed
/-!
# Neighbours

`ShardConfig::is_neighbor`: two shards are neighbours when a message can go from one to the
other by a change of one hexadecimal digit. The test looks at the bits in which the two
words differ, above the lower bit of the shorter prefix.
-/

namespace Ton.Shard

def is_neighbor (x y : ShardIdFull) : Bool :=
  if x.is_masterchain || y.is_masterchain then true
  else
    let xl := lower_bit64 x.shard
    let yl := lower_bit64 y.shard
    let z := (x.shard ^^^ y.shard) &&& bits_negate64 ((if xl < yl then yl else xl) <<< 1)
    if z = 0 then true
    else if x.workchain ≠ y.workchain then false
    else z.clz.toNat / 4 + z.ctz.toNat / 4 == 15

/-- A shard that a block can have: the masterchain is one shard. -/
structure ShardIdFull.Sound (s : ShardIdFull) : Prop where
  ne_zero : s.shard ≠ 0
  masterchain : s.workchain = masterchainId → s.shard = shardIdAll

/-! ## The bits that are compared -/

theorem bits_negate64_shift (x : BitVec 64) : bits_negate64 (x <<< 1) = bits_negate64 x <<< 1 := by
  have h : ∀ x : BitVec 64, bits_negate64 x = -x := fun x => (BitVec.neg_eq_not_add x).symm
  rw [h, h, BitVec.shiftLeft_neg]

variable {xs ys : ShardId} {a b : AccountIdPrefix}

theorem lower_lt_iff (hx : xs ≠ 0) (hy : ys ≠ 0) : lower_bit64 xs < lower_bit64 ys ↔ xs.ctz.toNat < ys.ctz.toNat := by
  rw [BitVec.lt_def, lower_bit64_toNat hx, lower_bit64_toNat hy, Nat.pow_lt_pow_iff_right (by decide)]

/-- How many bits at the low end are not compared, less one. -/
def skipped (xs ys : ShardId) : Nat := max xs.ctz.toNat ys.ctz.toNat

theorem skipped_comm (xs ys : ShardId) : skipped xs ys = skipped ys xs := Nat.max_comm ..

/-- The bits of `z`: those above both prefixes' ends in which the words differ. -/
theorem getLsbD_difference (hx : xs ≠ 0) (hy : ys ≠ 0) (j : Nat) :
    ((xs ^^^ ys) &&& bits_negate64 ((if lower_bit64 xs < lower_bit64 ys then lower_bit64 ys else lower_bit64 xs) <<< 1)).getLsbD j = true ↔
      skipped xs ys < j ∧ xs.getLsbD j ≠ ys.getLsbD j := by
  have hmask : (bits_negate64 ((if lower_bit64 xs < lower_bit64 ys then lower_bit64 ys else lower_bit64 xs) <<< 1)).getLsbD j =
      (decide (skipped xs ys < j) && decide (j < 64)) := by
    rw [bits_negate64_shift, skipped]
    split
    · next h => rw [getLsbD_prefix_mask hy, max_eq_right ((lower_lt_iff hx hy).1 h).le]
    · next h => rw [getLsbD_prefix_mask hx, max_eq_left (not_lt.1 (mt (lower_lt_iff hx hy).2 h))]
  rw [BitVec.getLsbD_and, BitVec.getLsbD_xor, hmask]
  by_cases hj : j < 64
  · simp [hj, and_comm]
  · simp [BitVec.getLsbD_of_ge _ j (Nat.le_of_not_lt hj)]

theorem getLsbD_le_clz {z : BitVec 64} {j : Nat} (h : z.getLsbD j = true) : j + z.clz.toNat ≤ 63 := by
  by_contra hlt
  rw [← BitVec.testBit_toNat, Nat.testBit_lt_two_pow (lt_of_lt_of_le BitVec.toNat_lt_two_pow_sub_clz
    (Nat.pow_le_pow_right (by decide) (show 64 - z.clz.toNat ≤ j by omega)))] at h
  cases h

/-- The zeroes at both ends, in digits, leave one digit exactly when all set bits are in it. -/
theorem one_digit_iff {z : BitVec 64} (hz : z ≠ 0) :
    z.clz.toNat / 4 + z.ctz.toNat / 4 = 15 ↔ ∃ k, ∀ j, z.getLsbD j = true → (63 - j) / 4 = k := by
  have hlow := getLsbD_ctz hz
  have hhigh := BitVec.getLsbD_true_clz_of_ne_zero (by decide) hz
  have hends := getLsbD_le_clz hlow
  constructor
  · intro h
    refine ⟨z.clz.toNat / 4, fun j hj => ?_⟩
    have hclz := getLsbD_le_clz hj
    have hctz : z.ctz.toNat ≤ j := by
      by_contra hlt
      rw [BitVec.getLsbD_false_of_lt_ctz (not_le.1 hlt)] at hj
      cases hj
    omega
  · rintro ⟨k, hk⟩
    have h1 := hk _ hlow
    have h2 := hk _ hhigh
    omega

/-- The prefixes agree as far as both go. -/
def Meet (xs ys : ShardId) : Prop := ∀ j, skipped xs ys < j → xs.getLsbD j = ys.getLsbD j

/-- They differ in the bits of one digit at most. -/
def Close (xs ys : ShardId) : Prop := ∃ k, ∀ j, skipped xs ys < j → xs.getLsbD j ≠ ys.getLsbD j → (63 - j) / 4 = k

theorem Meet.symm (h : Meet xs ys) : Meet ys xs := fun j hj => (h j (skipped_comm ys xs ▸ hj)).symm

theorem Close.symm (h : Close xs ys) : Close ys xs := by
  obtain ⟨k, hk⟩ := h
  exact ⟨k, fun j hj hne => hk j (skipped_comm ys xs ▸ hj) hne.symm⟩

theorem Meet.close (h : Meet xs ys) : Close xs ys := ⟨0, fun j hj hne => absurd (h j hj) hne⟩

section
variable {x y : ShardIdFull} (hx : x.shard ≠ 0) (hy : y.shard ≠ 0)
include hx hy

theorem is_neighbor_iff_bits : is_neighbor x y = true ↔
    x.workchain = masterchainId ∨ y.workchain = masterchainId ∨ Meet x.shard y.shard ∨ x.workchain = y.workchain ∧ Close x.shard y.shard := by
  have hbits := getLsbD_difference hx hy
  unfold is_neighbor
  dsimp only
  generalize (x.shard ^^^ y.shard) &&& bits_negate64 ((if lower_bit64 x.shard < lower_bit64 y.shard then lower_bit64 y.shard
    else lower_bit64 x.shard) <<< 1) = z at hbits
  by_cases hmc : x.workchain = masterchainId ∨ y.workchain = masterchainId
  · rw [if_pos (by simpa [ShardIdFull.is_masterchain] using hmc)]
    exact ⟨fun _ => hmc.elim .inl fun h => .inr (.inl h), fun _ => rfl⟩
  · rw [if_neg (by simpa [ShardIdFull.is_masterchain] using hmc)]
    rw [not_or] at hmc
    have hmeet : z = 0 ↔ Meet x.shard y.shard := by
      constructor
      · rintro rfl j hj
        by_contra hne
        simpa using (hbits j).2 ⟨hj, hne⟩
      · intro h
        apply BitVec.eq_of_getLsbD_eq
        intro j _
        refine (Bool.eq_false_iff.2 fun hj => ?_).trans BitVec.getLsbD_zero.symm
        exact ((hbits j).1 hj).2 (h j ((hbits j).1 hj).1)
    by_cases hz : z = 0
    · rw [if_pos hz]
      exact ⟨fun _ => .inr (.inr (.inl (hmeet.1 hz))), fun _ => rfl⟩
    · rw [if_neg hz]
      have hclose : z.clz.toNat / 4 + z.ctz.toNat / 4 = 15 ↔ Close x.shard y.shard := by
        rw [one_digit_iff hz]
        simp only [hbits, and_imp]
        rfl
      by_cases hw : x.workchain = y.workchain
      · rw [if_neg (not_not.2 hw), beq_iff_eq, hclose]
        exact ⟨fun h => .inr (.inr (.inr ⟨hw, h⟩)), by
          rintro (h | h | h | h)
          · exact absurd h hmc.1
          · exact absurd h hmc.2
          · exact h.close
          · exact h.2⟩
      · rw [if_pos hw]
        refine ⟨fun h => absurd h Bool.false_ne_true, ?_⟩
        rintro (h | h | h | h)
        · exact absurd h hmc.1
        · exact absurd h hmc.2
        · exact absurd (hmeet.2 h) hz
        · exact absurd h.1 hw

theorem is_neighbor_symm (h : is_neighbor x y = true) : is_neighbor y x = true := by
  rw [is_neighbor_iff_bits hy hx]
  rcases (is_neighbor_iff_bits hx hy).1 h with h | h | h | ⟨hw, h⟩
  · exact .inr (.inl h)
  · exact .inl h
  · exact .inr (.inr (.inl h.symm))
  · exact .inr (.inr (.inr ⟨hw.symm, h.symm⟩))

theorem is_neighbor_comm : is_neighbor x y = is_neighbor y x :=
  Bool.eq_iff_iff.2 ⟨is_neighbor_symm hx hy, is_neighbor_symm hy hx⟩

end

/-! ## Ancestors -/

theorem ancestor_bits {s s' : ShardId} (hs : s ≠ 0) (hs' : s' ≠ 0) (h : shard_is_ancestor s' s = true) :
    s.ctz.toNat ≤ s'.ctz.toNat ∧ ∀ j, s'.ctz.toNat < j → s'.getLsbD j = s.getLsbD j := by
  unfold shard_is_ancestor at h
  dsimp only at h
  rw [Bool.and_eq_true, decide_eq_true_eq] at h
  refine ⟨not_lt.1 (mt (lower_lt_iff hs' hs).2 (BitVec.not_lt.2 h.1)), ?_⟩
  exact (shard_contains_iff hs' s).1 h.2

theorem is_neighbor_ancestor {x y y' : ShardIdFull} (hx : x.shard ≠ 0) (hy : y.shard ≠ 0) (hy' : y'.shard ≠ 0)
    (hw : y'.workchain = y.workchain) (ha : shard_is_ancestor y'.shard y.shard = true) (h : is_neighbor x y = true) :
    is_neighbor x y' = true := by
  obtain ⟨hctz, hbits⟩ := ancestor_bits hy hy' ha
  have hskip : ∀ {j}, skipped x.shard y'.shard < j → skipped x.shard y.shard < j ∧ y'.shard.getLsbD j = y.shard.getLsbD j := by
    intro j hj
    rw [skipped, max_lt_iff] at hj
    exact ⟨max_lt hj.1 (lt_of_le_of_lt hctz hj.2), hbits j hj.2⟩
  rw [is_neighbor_iff_bits hx hy] at h
  rw [is_neighbor_iff_bits hx hy', hw]
  refine h.imp_right (Or.imp_right (Or.imp (fun hm j hj => ?_) (And.imp_right ?_)))
  · obtain ⟨hlt, he⟩ := hskip hj
    rw [he]
    exact hm j hlt
  · rintro ⟨k, hk⟩
    refine ⟨k, fun j hj hne => ?_⟩
    obtain ⟨hlt, he⟩ := hskip hj
    exact hk j hlt (he ▸ hne)

/-! ## Accounts -/

theorem getLsbD_digit (a : AccountIdPrefix) (k : Nat) {i : Nat} (hi : i < 4) : (digit a k).getLsbD i = a.getLsbD (60 - 4 * k + i) := by
  rw [digit, BitVec.getLsbD_extractLsb']
  simp [hi]

theorem digit_ne {j : Nat} (hj : j < 64) (h : a.getLsbD j ≠ b.getLsbD j) : digit a ((63 - j) / 4) ≠ digit b ((63 - j) / 4) := by
  intro he
  have hbit := congrArg (fun d => d.getLsbD (j % 4)) he
  rw [getLsbD_digit _ _ (Nat.mod_lt _ (by decide)), getLsbD_digit _ _ (Nat.mod_lt _ (by decide)),
    show 60 - 4 * ((63 - j) / 4) + j % 4 = j by omega] at hbit
  exact h hbit

theorem digit_eq {k : Nat} (hk : k < 16) (h : ∀ j < 64, (63 - j) / 4 = k → a.getLsbD j = b.getLsbD j) :
    digit a k = digit b k := by
  apply BitVec.eq_of_getLsbD_eq
  intro i hi
  rw [getLsbD_digit _ _ hi, getLsbD_digit _ _ hi]
  exact h _ (by omega) (by omega)

/-- The prefix of one shard, continued as the word of the other that goes on further. -/
theorem Close.accounts (hx : xs ≠ 0) (hy : ys ≠ 0) (hle : ys.ctz.toNat ≤ xs.ctz.toNat) (h : Close xs ys) :
    ∃ a b : AccountIdPrefix, shard_contains xs a = true ∧ shard_contains ys b = true ∧ ∃ k, ∀ i < 16, i ≠ k → digit a i = digit b i := by
  obtain ⟨k, hk⟩ := h
  have hskip : skipped xs ys = xs.ctz.toNat := max_eq_left hle
  have hc := ctz_lt hx
  refine ⟨mix ys xs (63 - xs.ctz.toNat), ys, ?_, (shard_contains_iff hy ys).2 fun _ _ => rfl, k, fun i hi hne => digit_eq hi fun j hj hji => ?_⟩
  · rw [shard_contains_iff hx]
    intro j hj
    by_cases hj' : j < 64
    · rw [getLsbD_mix _ _ _ hj', if_neg (by omega)]
    · rw [BitVec.getLsbD_of_ge _ j (not_lt.1 hj'), BitVec.getLsbD_of_ge _ j (not_lt.1 hj')]
  · rw [getLsbD_mix _ _ _ hj]
    split
    · rfl
    · by_contra hbit
      exact hne (hji.symm.trans (hk j (by rw [hskip]; omega) hbit))

/-- Two shards of a workchain are neighbours when some accounts of them differ in one hexadecimal digit at most. -/
theorem is_neighbor_iff {x y : ShardIdFull} (hx : x.Sound) (hy : y.Sound) (hw : x.workchain = y.workchain) : is_neighbor x y = true ↔
    ∃ a b : AccountIdPrefix, shard_contains x.shard a = true ∧ shard_contains y.shard b = true ∧ ∃ k, ∀ i < 16, i ≠ k → digit a i = digit b i := by
  rw [is_neighbor_iff_bits hx.ne_zero hy.ne_zero]
  constructor
  · intro h
    have hclose : Close x.shard y.shard := by
      rcases h with h | h | h | h
      · rw [hx.masterchain h, hy.masterchain (hw ▸ h)]
        exact ⟨0, fun _ _ hne => absurd rfl hne⟩
      · rw [hy.masterchain h, hx.masterchain (hw ▸ h)]
        exact ⟨0, fun _ _ hne => absurd rfl hne⟩
      · exact h.close
      · exact h.2
    rcases le_total y.shard.ctz.toNat x.shard.ctz.toNat with hle | hle
    · exact hclose.accounts hx.ne_zero hy.ne_zero hle
    · obtain ⟨b, a, hb, ha, k, hk⟩ := hclose.symm.accounts hy.ne_zero hx.ne_zero hle
      exact ⟨a, b, ha, hb, k, fun i hi hne => (hk i hi hne).symm⟩
  · rintro ⟨a, b, ha, hb, k, hk⟩
    rw [shard_contains_iff hx.ne_zero] at ha
    rw [shard_contains_iff hy.ne_zero] at hb
    refine .inr (.inr (.inr ⟨hw, k, fun j hj hne => ?_⟩))
    rw [skipped, max_lt_iff] at hj
    rw [ha j hj.1, hb j hj.2] at hne
    by_contra hjk
    by_cases hj' : j < 64
    · exact digit_ne hj' hne (hk _ (by omega) hjk)
    · rw [BitVec.getLsbD_of_ge _ j (not_lt.1 hj'), BitVec.getLsbD_of_ge _ j (not_lt.1 hj')] at hne
      exact hne rfl

end Ton.Shard
