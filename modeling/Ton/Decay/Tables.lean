import Ton.Decay.Accuracy
/-!
# The rounded tables

There are tables of rounded numbers, so that the bounds are about something; and a number near
2^64 for which three roundings take the value more than one off.
-/

namespace Ton.Decay
open Real BitVec Nat

/-- The entry of `table0` for a number under one, with its shift. -/
theorem exists_entry0 {e : ℝ} (h0 : 0 < e) (h1 : e < 1) : ∃ p : BitVec 64 × BitVec 8,
    (p.1 = 0 ∧ scaled e 64 < 1) ∨ (2 ^ 63 ≤ p.1.toNat ∧ IsNearest p.1.toNat (scaled e (p.2.toNat + 1))) := by
  by_cases hsmall : e < 1 / 2 ^ 64
  · exact ⟨(0, 0), .inl ⟨rfl, (lt_div_iff₀ (by positivity)).1 hsmall⟩⟩
  · obtain ⟨j, n, hj, hlow, hhigh, hnear⟩ := exists_normal h0 h1 (w := 63) (by decide)
    have hj' : j ≤ 127 := by
      by_contra hlt
      have hpow : (2 : ℝ) ^ 128 ≤ 2 ^ j := pow_le_pow_right₀ one_le_two (by omega)
      have hbig : 2 ^ 64 ≤ e * 2 ^ j := by
        calc (2 : ℝ) ^ 64 = 1 / 2 ^ 64 * 2 ^ 128 := by norm_num
          _ ≤ e * 2 ^ j := mul_le_mul (not_lt.1 hsmall) hpow (by positivity) h0.le
      have hn : (n : ℝ) + 1 ≤ 2 ^ 64 := by exact_mod_cast hhigh
      have hdist := (abs_le.1 hnear).1
      linarith
    refine ⟨(BitVec.ofNat 64 n, BitVec.ofNat 8 (j - 1)), .inr ?_⟩
    have hn : (BitVec.ofNat 64 n).toNat = n := by rw [toNat_ofNat, mod_eq_of_lt hhigh]
    have hshift : (BitVec.ofNat 8 (j - 1)).toNat + 1 = j := by
      rw [toNat_ofNat, mod_eq_of_lt (by omega)]
      omega
    rw [hn, hshift]
    exact ⟨hlow, hnear⟩

theorem exp_neg_lt_one {i : Nat} (hi : i ≠ 0) : exp (-(i : ℝ)) < 1 := lt_of_le_of_lt (exp_neg_le_of_ne_zero hi) (by norm_num)

noncomputable def entry0 (i : Nat) : BitVec 64 × BitVec 8 :=
  if hi : i ≠ 0 then Classical.choose (exists_entry0 (exp_pos (-(i : ℝ))) (exp_neg_lt_one hi)) else (0, 0)

noncomputable def real_table : NegExpInt64Table where
  table0_shift i := (entry0 i).2
  table0 i := (entry0 i).1
  table1 i := BitVec.ofNat 64 (nearest (scaled (1 - exp (-(i / 256))) 64))
  table2 i := BitVec.ofNat 64 (nearest (scaled (1 - exp (-(i / 65536))) 72))

theorem nearest_word {r : ℝ} (h0 : 0 ≤ r) (h : r < 2 ^ 64 - 1 / 2) : IsNearest (BitVec.ofNat 64 (nearest r)).toNat r := by
  have hlt : nearest r < 2 ^ 64 := by
    rw [nearest, floor_lt (by linarith)]
    push_cast
    linarith
  rw [toNat_ofNat, mod_eq_of_lt hlt]
  exact isNearest_nearest h0

theorem one_sub_exp_nonneg {a : ℝ} (ha : 0 ≤ a) : 0 ≤ 1 - exp (-a) := by
  have := exp_le_one_iff.2 (neg_nonpos.2 ha)
  linarith

theorem real_table_rounded : Rounded real_table where
  table0 i hi _ := by
    have hspec := Classical.choose_spec (exists_entry0 (exp_pos (-(i : ℝ))) (exp_neg_lt_one hi))
    have hentry : entry0 i = Classical.choose (exists_entry0 (exp_pos (-(i : ℝ))) (exp_neg_lt_one hi)) := dif_pos hi
    rw [← hentry] at hspec
    exact hspec.imp (fun h => ⟨h.1, (lt_div_iff₀ (by positivity)).2 h.2⟩) id
  table1 i hi := by
    have hi' : (i : ℝ) ≤ 255 := by exact_mod_cast le_of_lt_succ hi
    have hlow := add_one_le_exp (-(i / 256) : ℝ)
    refine nearest_word (mul_nonneg (one_sub_exp_nonneg (by positivity)) (by positivity)) ?_
    rw [scaled]
    linarith
  table2 i hi := by
    have hi' : (i : ℝ) ≤ 255 := by exact_mod_cast le_of_lt_succ hi
    have hlow := add_one_le_exp (-(i / 65536) : ℝ)
    refine nearest_word (mul_nonneg (one_sub_exp_nonneg (by positivity)) (by positivity)) ?_
    rw [scaled]
    linarith

/-- A quintillion over a bit more than one and a half, where all three tables are used. -/
theorem decay_accurate_quintillion : real_table.umulnexps32 (10 ^ 18) 100001 false ≤ 10 ^ 18 ∧
    |((real_table.umulnexps32 (10 ^ 18) 100001 false).toNat : ℝ) - (10 ^ 18 : BitVec 64).toNat * exp (-((100001 : BitVec 32).toNat / 65536))| < 1 := by
  have h := real_table_rounded.decay_accurate (10 ^ 18) 100001
  exact ⟨h.2.1, h.2.2.2 (by decide)⟩

/-! ## Three roundings -/

/-- The exponential of a small fraction from the sum of its series. -/
theorem exp_small {a : ℝ} (h0 : 0 ≤ a) (h1 : a ≤ 1) (n : Nat) (hn : 0 < n) :
    |exp (-a) - ∑ m ∈ Finset.range n, (-a) ^ m / m.factorial| ≤ a ^ n * (n.succ / (n.factorial * n)) := by
  have h := exp_bound (x := -a) (by rw [abs_neg, abs_of_nonneg h0]; exact h1) hn
  rw [abs_neg, abs_of_nonneg h0] at h
  exact h

variable {T : NegExpInt64Table}

theorem Rounded.table1_six (h : Rounded T) : (T.table1 6).toNat = 427318366220072801 := by
  refine (h.table1 6 (by decide)).eq ?_
  have hexp := exp_small (a := 6 / 256) (by norm_num) (by norm_num) 10 (by decide)
  rw [abs_le] at hexp
  norm_num [Finset.sum_range_succ, Nat.factorial] at hexp
  rw [abs_lt]
  norm_num
  constructor
  · linarith [hexp.1, hexp.2]
  · linarith [hexp.1, hexp.2]

theorem Rounded.table2_134 (h : Rounded T) : (T.table2 134).toNat = 9645852910204872824 := by
  refine (h.table2 134 (by decide)).eq ?_
  have hexp := exp_small (a := 134 / 65536) (by norm_num) (by norm_num) 8 (by decide)
  rw [abs_le] at hexp
  norm_num [Finset.sum_range_succ, Nat.factorial] at hexp
  rw [abs_lt]
  norm_num
  constructor
  · linarith [hexp.1, hexp.2]
  · linarith [hexp.1, hexp.2]

/-- The largest number, and an exponent with both fractional parts. -/
theorem Rounded.exact_largest (h : Rounded T) : T.exact (2 ^ 64 - 1) 1670 = 17982619430269929575 := by
  have hlog : (2 ^ 64 - 1 : Nat).log2 = 63 := by rw [log2_eq_iff (by norm_num)]; norm_num
  have hlow : T.exact_low (2 ^ 64 - 1) 134 = 18409064960779063831 := by
    rw [NegExpInt64Table.exact_low, h.table2_134]
    norm_num [halfUp]
  have hmiddle : T.exact_middle 18409064960779063831 6 = 17982619430269929575 := by
    rw [NegExpInt64Table.exact_middle, h.table1_six]
    norm_num [halfUp]
  rw [NegExpInt64Table.exact, hlog, if_neg (by norm_num), if_neg (by norm_num [max_exp])]
  norm_num only at hlow ⊢
  rw [hlow, hmiddle, NegExpInt64Table.exact_high, if_neg (by norm_num), if_pos rfl]

theorem decay_inaccurate : ∃ T : NegExpInt64Table, Rounded T ∧
    1 < |((T.umulnexps32 (BitVec.allOnes 64) 1670 false).toNat : ℝ) - (BitVec.allOnes 64).toNat * exp (-((1670 : BitVec 32).toNat / 65536))| := by
  refine ⟨real_table, real_table_rounded, ?_⟩
  have hvalue : (real_table.umulnexps32 (BitVec.allOnes 64) 1670 false).toNat = 17982619430269929575 :=
    (real_table_rounded.umulnexps32_toNat (BitVec.allOnes 64) 1670).trans (by
      rw [toNat_allOnes]
      exact real_table_rounded.exact_largest)
  have hexp := exp_small (a := 1670 / 65536) (by norm_num) (by norm_num) 10 (by decide)
  rw [abs_le] at hexp
  norm_num [Finset.sum_range_succ, Nat.factorial] at hexp
  have hk : ((1670 : BitVec 32).toNat : ℝ) / 65536 = 835 / 32768 := by
    have hnat : (1670 : BitVec 32).toNat = 1670 := by decide
    rw [hnat]
    norm_num
  rw [hvalue, hk, toNat_allOnes, lt_abs]
  left
  norm_num
  linarith [hexp.1, hexp.2]

end Ton.Decay
