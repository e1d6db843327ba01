import Ton.Shard.ShardId
import Mathlib.Data.Nat.Find
/-!
# Hypercube routing

`block.cpp`: a message travels from its source to its destination address one
hexadecimal digit of the prefix at a time. An address on the way is given by the
number of its leading bits that are those of the destination
(`interpolate_addr`); `perform_hypercube_routing` gives two such numbers, for the
last address on the way in the current shard and for the first one outside it.
-/

namespace Ton.Shard
open BitVec

/-- The first `d` bits of `dest`, then those of `src`. -/
def interpolate_addr (src dest : AccountIdPrefixFull) (d : Int) : AccountIdPrefixFull :=
  if d ≤ 0 then src
  else if d ≥ 96 then dest
  else if d ≥ 32 then
    let mask : BitVec 64 := BitVec.allOnes 64 >>> (d - 32).toNat
    ⟨dest.workchain, (dest.account_id_prefix &&& ~~~mask) ||| (src.account_id_prefix &&& mask)⟩
  else
    let mask : BitVec 32 := BitVec.allOnes 32 >>> d.toNat
    ⟨(dest.workchain &&& ~~~mask) ||| (src.workchain &&& mask), src.account_id_prefix⟩

/-- The `do` loop, from `i` and `m` before its body; `none` when it takes more than
`fuel` turns. -/
def routing_loop (x y t q : BitVec 64) : Nat → Nat → BitVec 64 → Option Nat
  | 0, _, _ => none
  | fuel + 1, i, m =>
    let m := m >>> 4
    let h := t ^^^ (q &&& ~~~m)
    let i := i + 4
    if h ≥ x ∧ h ≤ y then routing_loop x y t q fuel i m else some i

/-- The pair (`transit_addr_dest_bits`, `nh_addr_dest_bits`). -/
def perform_hypercube_routing (fuel : Nat) (src dest : AccountIdPrefixFull) (cur : ShardIdFull) (used_dest_bits : Int) :
    Option (Int × Int) :=
  let transit := interpolate_addr src dest used_dest_bits
  if !cur.contains transit then some (-1, -1)
  else if cur.contains dest then some (96, 96)
  else if transit.workchain == masterchainId || dest.workchain == masterchainId then some (used_dest_bits, 96)
  else if transit.workchain != dest.workchain then some (used_dest_bits, 32)
  else
    let x := cur.shard &&& (cur.shard - 1)
    let y := cur.shard ||| (cur.shard - 1)
    let t := transit.account_id_prefix
    let q := dest.account_id_prefix ^^^ t
    -- `count_leading_zeroes64(q) & -4`
    let i := q.clz.toNat / 4 * 4
    let m := BitVec.allOnes 64 >>> i
    (routing_loop x y t q fuel i m).map fun i => ((28 + i : Nat), (32 + i : Nat))

/-! ## Addresses on the way -/

/-- The first `i` bits of `b`, then those of `a`. -/
def mix (a b : BitVec 64) (i : Nat) : BitVec 64 :=
  (b &&& ~~~(BitVec.allOnes 64 >>> i)) ||| (a &&& (BitVec.allOnes 64 >>> i))

theorem getLsbD_mask (i j : Nat) : (BitVec.allOnes 64 >>> i).getLsbD j = decide (i + j < 64) := by
  rw [getLsbD_ushiftRight, getLsbD_allOnes]

theorem getLsbD_mix (a b : BitVec 64) (i : Nat) {j : Nat} (hj : j < 64) :
    (mix a b i).getLsbD j = if i + j < 64 then a.getLsbD j else b.getLsbD j := by
  simp only [mix, getLsbD_or, getLsbD_and, getLsbD_not, getLsbD_mask, hj]
  by_cases h : i + j < 64 <;> simp [h]

theorem mix_zero (a b : BitVec 64) : mix a b 0 = a := by
  apply eq_of_getLsbD_eq
  intro j hj
  rw [getLsbD_mix a b 0 hj, if_pos (by omega)]

theorem mix_all (a b : BitVec 64) {i : Nat} (hi : 64 ≤ i) : mix a b i = b := by
  apply eq_of_getLsbD_eq
  intro j hj
  rw [getLsbD_mix a b i hj, if_neg (by omega)]

/-- More bits of the destination, taken from an address on the way. -/
theorem mix_mix (a b : BitVec 64) {u i : Nat} (hu : u ≤ i) : mix (mix a b u) b i = mix a b i := by
  apply eq_of_getLsbD_eq
  intro j hj
  rw [getLsbD_mix _ b i hj, getLsbD_mix a b u hj, getLsbD_mix a b i hj]
  by_cases h : i + j < 64
  · rw [if_pos h, if_pos h, if_pos (by omega)]
  · rw [if_neg h, if_neg h]

theorem xor_and_not (t b : BitVec 64) (i : Nat) :
    t ^^^ ((b ^^^ t) &&& ~~~(BitVec.allOnes 64 >>> i)) = mix t b i := by
  apply eq_of_getLsbD_eq
  intro j hj
  simp only [getLsbD_mix t b i hj, getLsbD_xor, getLsbD_and, getLsbD_not, getLsbD_mask, hj]
  by_cases h : i + j < 64
  · simp [h]
  · cases t.getLsbD j <;> simp [h]

theorem mix_clz (t b : BitVec 64) {i : Nat} (hi : i ≤ (b ^^^ t).clz.toNat) : mix t b i = t := by
  apply eq_of_getLsbD_eq
  intro j hj
  rw [getLsbD_mix t b i hj]
  by_cases h : i + j < 64
  · rw [if_pos h]
  · have hx : (b ^^^ t).getLsbD j = false := by
      rw [← testBit_toNat]
      exact Nat.testBit_lt_two_pow
        (lt_of_lt_of_le toNat_lt_two_pow_sub_clz (Nat.pow_le_pow_right (by omega) (by omega)))
    rw [getLsbD_xor] at hx
    rw [if_neg h]
    simpa using hx

theorem interpolate_zero (src dest : AccountIdPrefixFull) : interpolate_addr src dest 0 = src := by
  simp [interpolate_addr]

theorem interpolate_below (src dest : AccountIdPrefixFull) (i : Nat) :
    interpolate_addr src dest (32 + i : Nat) = ⟨dest.workchain, mix src.account_id_prefix dest.account_id_prefix i⟩ := by
  rw [interpolate_addr, if_neg (by omega)]
  by_cases h : 64 ≤ i
  · rw [if_pos (by omega), mix_all _ _ h]
  · rw [if_neg (by omega), if_pos (by omega), show ((32 + i : Nat) - 32 : Int).toNat = i by omega]
    rfl

/-! ## One call -/

/-- The loop stops at the first number of digits whose address lies outside the shard. -/
theorem routing_loop_spec {s : ShardId} (hs : s ≠ 0) {t b : BitVec 64} (hb : ¬shard_contains s b = true) (fuel : Nat) :
    ∀ i, 4 ∣ i → i ≤ 64 → 64 ≤ i + 4 * fuel → shard_contains s (mix t b i) = true →
      ∃ i', routing_loop (s &&& (s - 1)) (s ||| (s - 1)) t (b ^^^ t) fuel i (BitVec.allOnes 64 >>> i) = some i' ∧
        i < i' ∧ 4 ∣ i' ∧ i' ≤ 64 ∧ shard_contains s (mix t b (i' - 4)) = true ∧
        ¬shard_contains s (mix t b i') = true := by
  induction fuel with
  | zero =>
    intro i _ _ hf hin
    rw [mix_all t b (by omega)] at hin
    exact absurd hin hb
  | succ fuel ih =>
    intro i h4 h64 hf hin
    have hlt : i < 64 := by
      refine lt_of_le_of_ne h64 ?_
      rintro rfl
      rw [mix_all t b le_rfl] at hin
      exact hb hin
    have hm : BitVec.allOnes 64 >>> i >>> 4 = BitVec.allOnes 64 >>> (i + 4) := (shiftRight_add _ _ _).symm
    simp only [routing_loop, hm, xor_and_not]
    by_cases h : shard_contains s (mix t b (i + 4)) = true
    · rw [if_pos ((interval_iff hs _).2 h)]
      obtain ⟨i', he, hi, rest⟩ := ih (i + 4) (by omega) (by omega) (by omega) h
      exact ⟨i', he, by omega, rest⟩
    · rw [if_neg fun hc => h ((interval_iff hs _).1 hc)]
      exact ⟨i + 4, rfl, by omega, by omega, by omega, hin, h⟩

/-- Hexadecimal digit `k` of a prefix, from the high end. -/
def digit (p : AccountIdPrefix) (k : Nat) : BitVec 4 := p.extractLsb' (60 - 4 * k) 4

theorem digit_mix_eq (a b : BitVec 64) {i k : Nat} (h4 : 4 ∣ i) (hi : 4 ≤ i) (hk : k < 16) (hne : k ≠ i / 4 - 1) :
    digit (mix a b (i - 4)) k = digit (mix a b i) k := by
  apply eq_of_getLsbD_eq
  intro j hj
  simp only [digit, getLsbD_extractLsb', hj, decide_true, Bool.true_and]
  rw [getLsbD_mix a b (i - 4) (by omega), getLsbD_mix a b i (by omega)]
  by_cases h : i + (60 - 4 * k + j) < 64
  · rw [if_pos h, if_pos (by omega)]
  · rw [if_neg h, if_neg (by omega)]

theorem eq_of_digits {p p' : AccountIdPrefix} (h : ∀ k < 16, digit p k = digit p' k) : p = p' := by
  apply eq_of_getLsbD_eq
  intro j hj
  have := congrArg (BitVec.getLsbD · (j % 4)) (h (15 - j / 4) (by omega))
  simp only [digit, getLsbD_extractLsb', Nat.mod_lt j (show 4 > 0 by omega), decide_true, Bool.true_and] at this
  rwa [show 60 - 4 * (15 - j / 4) + j % 4 = j by omega] at this

/-- A number of destination bits that routing uses: none, or all of the workchain and
some digits of the prefix. -/
def Used (used : Int) : Prop := used = 0 ∨ ∃ i : Nat, used = (32 + i : Nat) ∧ 4 ∣ i ∧ i ≤ 64

/-- What a call from a shard with the transit address gives. -/
structure Routed (src dest : AccountIdPrefixFull) (cur : ShardIdFull) (used : Int) (r : Int × Int) : Prop where
  /-- The message does not come back to bits it has left. -/
  used_le : used ≤ r.1 ∧ r.1 ≤ r.2
  used_next : Used r.2
  /-- It advances by a digit at least, unless it has arrived. -/
  progress : r = (96, 96) ∨ (used = 0 ∧ 32 ≤ r.2) ∨ used + 4 ≤ r.2
  transit : cur.contains (interpolate_addr src dest r.1) = true
  next_hop : cur.contains (interpolate_addr src dest r.2) = true → r = (96, 96)
  arrived : cur.contains dest = true ↔ r = (96, 96)
  one_digit : (interpolate_addr src dest r.1).workchain = (interpolate_addr src dest r.2).workchain → r ≠ (96, 96) →
    ∃! k, k < 16 ∧ digit (AccountIdPrefixFull.account_id_prefix (interpolate_addr src dest r.1)) k ≠
      digit (AccountIdPrefixFull.account_id_prefix (interpolate_addr src dest r.2)) k

theorem contains_iff {cur : ShardIdFull} {a : AccountIdPrefixFull} :
    cur.contains a = true ↔ cur.workchain = a.workchain ∧ shard_contains cur.shard a.account_id_prefix = true := by
  simp [ShardIdFull.contains]

theorem interpolate_all (src dest : AccountIdPrefixFull) : interpolate_addr src dest 96 = dest := by
  simp [interpolate_addr]

theorem Used.bounds {used : Int} (h : Used used) : 0 ≤ used ∧ used ≤ 96 := by
  rcases h with rfl | ⟨i, rfl, -, hi⟩ <;> omega

/-- The address on the way, when the whole workchain is that of the destination. -/
theorem Used.transit {src dest : AccountIdPrefixFull} {used : Int} (h : Used used)
    (hw : (interpolate_addr src dest used).workchain = dest.workchain) :
    ∃ u : Nat, 4 ∣ u ∧ u ≤ 64 ∧ used ≤ (32 + u : Nat) ∧ interpolate_addr src dest used =
      ⟨dest.workchain, mix src.account_id_prefix dest.account_id_prefix u⟩ := by
  rcases h with rfl | ⟨u, rfl, h4, hu⟩
  · rw [interpolate_zero] at hw ⊢
    refine ⟨0, by omega, by omega, by omega, ?_⟩
    rw [mix_zero, ← hw]
  · exact ⟨u, h4, hu, le_rfl, interpolate_below src dest u⟩

/-- The first difference of an address on the way from the destination comes after
the digits taken from it. -/
theorem le_clz_mix (a b : BitVec 64) {u : Nat} (hq : b ^^^ mix a b u ≠ 0#64) : u ≤ (b ^^^ mix a b u).clz.toNat := by
  have hz : (b ^^^ mix a b u).clz.toNat < 64 := by
    simpa using lt_def.1 (clz_lt_iff_ne_zero.2 hq)
  have hbit := getLsbD_true_clz_of_ne_zero (by omega) hq
  rw [getLsbD_xor, getLsbD_mix a b u (by omega)] at hbit
  by_contra hlt
  rw [if_neg (by omega), Bool.xor_self] at hbit
  cases hbit

theorem one_digit {a b : BitVec 64} {i : Nat} (h4 : 4 ∣ i) (hi : 4 ≤ i) (h64 : i ≤ 64) (hne : mix a b (i - 4) ≠ mix a b i) :
    ∃! k, k < 16 ∧ digit (mix a b (i - 4)) k ≠ digit (mix a b i) k := by
  refine ⟨i / 4 - 1, ⟨by omega, ?_⟩, ?_⟩
  · intro he
    refine hne (eq_of_digits fun k hk => ?_)
    by_cases hki : k = i / 4 - 1
    · rwa [hki]
    · exact digit_mix_eq a b h4 hi hk hki
  · rintro k ⟨hk, hkd⟩
    by_contra hki
    exact hkd (digit_mix_eq a b h4 hi hk hki)

section Call
variable {src dest : AccountIdPrefixFull} {cur : ShardIdFull} {used : Int}

theorem digits_routed {i u : Nat} (hd : ¬cur.contains dest = true) (hw : cur.workchain = dest.workchain)
    (hle : used ≤ (32 + u : Nat)) (hui : u < i) (hu4 : 4 ∣ u) (h4 : 4 ∣ i) (h64 : i ≤ 64)
    (hprev : shard_contains cur.shard (mix src.account_id_prefix dest.account_id_prefix (i - 4)) = true)
    (hout : ¬shard_contains cur.shard (mix src.account_id_prefix dest.account_id_prefix i) = true) :
    Routed src dest cur used ((28 + i : Nat), (32 + i : Nat)) := by
  have e1 : interpolate_addr src dest ((28 + i : Nat) : Int) =
      ⟨dest.workchain, mix src.account_id_prefix dest.account_id_prefix (i - 4)⟩ := by
    rw [show 28 + i = 32 + (i - 4) by omega]
    exact interpolate_below src dest (i - 4)
  have e2 := interpolate_below src dest i
  have hne : (((28 + i : Nat) : Int), ((32 + i : Nat) : Int)) ≠ (96, 96) := by
    intro h
    have := congrArg Prod.fst h
    simp only at this
    omega
  refine ⟨⟨?_, ?_⟩, .inr ⟨i, rfl, h4, h64⟩, .inr (.inr ?_), ?_, ?_, ?_, ?_⟩
  · show used ≤ ((28 + i : Nat) : Int)
    omega
  · show ((28 + i : Nat) : Int) ≤ ((32 + i : Nat) : Int)
    omega
  · show used + 4 ≤ ((32 + i : Nat) : Int)
    omega
  · rw [e1]
    exact contains_iff.2 ⟨hw, hprev⟩
  · intro h
    rw [e2] at h
    exact absurd (contains_iff.1 h).2 hout
  · exact ⟨fun h => absurd h hd, fun h => absurd h hne⟩
  · intro _ _
    rw [e1, e2]
    exact one_digit h4 (by omega) h64 fun h => hout (h ▸ hprev)

theorem workchain_routed {d : Int} {p : AccountIdPrefix} (hd : ¬cur.contains dest = true)
    (hwc : src.workchain ≠ dest.workchain) (hin : cur.contains src = true) (h32 : 32 ≤ d) (hnext : Used d)
    (e : interpolate_addr src dest d = ⟨dest.workchain, p⟩) : Routed src dest cur 0 (0, d) := by
  have hout : ¬cur.contains (interpolate_addr src dest d) = true := by
    rw [e]
    exact fun h => hwc ((contains_iff.1 hin).1.symm.trans (contains_iff.1 h).1)
  refine ⟨⟨le_rfl, by omega⟩, hnext, .inr (.inl ⟨rfl, h32⟩), ?_, fun h => absurd h hout, ?_, ?_⟩
  · rwa [interpolate_zero]
  · exact ⟨fun h => absurd h hd, fun h => by simp at h⟩
  · intro h
    rw [interpolate_zero, e] at h
    exact absurd h hwc

theorem perform_routed {fuel : Nat} (hf : 16 ≤ fuel) (hs : cur.shard ≠ 0)
    (hroot : cur.workchain = masterchainId → ∀ p, shard_contains cur.shard p = true)
    (hused : Used used) (hin : cur.contains (interpolate_addr src dest used) = true) :
    ∃ r, perform_hypercube_routing fuel src dest cur used = some r ∧ Routed src dest cur used r := by
  rw [perform_hypercube_routing]
  simp only [hin, Bool.not_true, Bool.false_eq_true, if_false]
  obtain ⟨h0, h96⟩ := hused.bounds
  by_cases hd : cur.contains dest = true
  · -- the destination is in this shard
    rw [if_pos hd]
    refine ⟨_, rfl, ⟨h96, le_rfl⟩, .inr ⟨64, rfl, by omega, le_rfl⟩, .inl rfl, ?_, fun _ => rfl, by simp [hd], by simp⟩
    rwa [interpolate_all]
  rw [if_neg hd]
  obtain ⟨hw, hpfx⟩ := contains_iff.1 hin
  by_cases hwc : (interpolate_addr src dest used).workchain = dest.workchain
  · have hmc : dest.workchain ≠ masterchainId := fun hm =>
      hd (contains_iff.2 ⟨hw.trans hwc, hroot ((hw.trans hwc).trans hm) _⟩)
    obtain ⟨u, hu4, hu64, hle, ht⟩ := hused.transit hwc
    rw [if_neg (by simp [hwc, hmc]), if_neg (by simp [hwc])]
    rw [ht] at hpfx
    simp only [ht]
    have hb : ¬shard_contains cur.shard dest.account_id_prefix = true :=
      fun h => hd (contains_iff.2 ⟨hw.trans hwc, h⟩)
    have hq : dest.account_id_prefix ^^^ mix src.account_id_prefix dest.account_id_prefix u ≠ 0#64 := by
      intro h
      rw [BitVec.xor_eq_zero_iff] at h
      rw [← h] at hpfx
      exact hb hpfx
    have hz : (dest.account_id_prefix ^^^ mix src.account_id_prefix dest.account_id_prefix u).clz.toNat < 64 := by
      simpa using lt_def.1 (clz_lt_iff_ne_zero.2 hq)
    have huz := le_clz_mix _ _ hq
    have hmix := mix_clz (mix src.account_id_prefix dest.account_id_prefix u) dest.account_id_prefix (Nat.div_mul_le_self _ 4)
    generalize (dest.account_id_prefix ^^^ mix src.account_id_prefix dest.account_id_prefix u).clz.toNat = z at *
    obtain ⟨i, hloop, hi, h4, h64, hprev, hout⟩ := routing_loop_spec hs hb fuel (z / 4 * 4) (Nat.dvd_mul_left 4 _)
      (by omega) (by omega) (by rwa [hmix])
    rw [mix_mix _ _ (by omega)] at hprev hout
    rw [hloop]
    exact ⟨_, rfl, digits_routed hd (hw.trans hwc) hle (by omega) hu4 h4 h64 hprev hout⟩
  · have h0' : used = 0 := by
      rcases hused with h | ⟨i, rfl, -, -⟩
      · exact h
      · rw [interpolate_below] at hwc
        exact absurd rfl hwc
    subst h0'
    rw [interpolate_zero] at hin hwc ⊢
    by_cases hmc : src.workchain = masterchainId ∨ dest.workchain = masterchainId
    · rw [if_pos (by simpa using hmc)]
      exact ⟨_, rfl, workchain_routed hd hwc hin (by omega) (.inr ⟨64, rfl, by omega, le_rfl⟩) (interpolate_all src dest)⟩
    · rw [if_neg (by simpa using hmc), if_pos (by simpa using hwc)]
      exact ⟨_, rfl, workchain_routed hd hwc hin le_rfl (.inr ⟨0, rfl, by omega, by omega⟩) (interpolate_below src dest 0)⟩

end Call

/-! ## The way of a message -/

/-- A partition of each workchain into shards: the shard of each prefix. The prefix of
a shard may have any length, here also more than 60 bits. -/
structure ShardLayout where
  shard : WorkchainId → AccountIdPrefix → ShardId
  shard_ne_zero : ∀ w p, shard w p ≠ 0
  contains_self : ∀ w p, shard_contains (shard w p) p = true
  disjoint : ∀ w p p', shard_contains (shard w p) p' = true → shard w p' = shard w p
  masterchain : ∀ p, shard masterchainId p = rootShardId

namespace ShardLayout
variable (L : ShardLayout)

/-- The shard of an address. -/
def home (a : AccountIdPrefixFull) : ShardIdFull := ⟨a.workchain, L.shard a.workchain a.account_id_prefix⟩

/-- The current shard and the number of destination bits used, after `n` hops. -/
def route (fuel : Nat) (src dest : AccountIdPrefixFull) : Nat → Option (ShardIdFull × Int)
  | 0 => some (L.home src, 0)
  | n + 1 => do
    let (cur, used) ← route fuel src dest n
    let (_, second) ← perform_hypercube_routing fuel src dest cur used
    pure (L.home (interpolate_addr src dest second), second)

theorem home_contains (a : AccountIdPrefixFull) : (L.home a).contains a = true :=
  contains_iff.2 ⟨rfl, L.contains_self _ _⟩

theorem home_eq {a b : AccountIdPrefixFull} (h : (L.home a).contains b = true) : L.home a = L.home b := by
  obtain ⟨hw, hs⟩ := contains_iff.1 h
  simp only [home] at hw hs ⊢
  rw [← hw, L.disjoint _ _ _ hs]

/-- Where a message is after `n` hops. -/
structure OnWay (src dest : AccountIdPrefixFull) (n : Nat) (cur : ShardIdFull) (used : Int) : Prop where
  at_transit : cur = L.home (interpolate_addr src dest used)
  used_digits : Used used
  progress : n = 0 ∨ cur.contains dest = true ∨ 32 + 4 * ((n : Int) - 1) ≤ used

variable {L} {src dest : AccountIdPrefixFull} {fuel n : Nat} {cur : ShardIdFull} {used : Int}

theorem OnWay.call (h : L.OnWay src dest n cur used) (hf : 16 ≤ fuel) :
    ∃ r, perform_hypercube_routing fuel src dest cur used = some r ∧ Routed src dest cur used r := by
  obtain ⟨rfl, hu, -⟩ := h
  refine perform_routed hf (L.shard_ne_zero _ _) (fun hm p => ?_) hu (L.home_contains _)
  simp only [home] at hm ⊢
  rw [hm, L.masterchain]
  exact shard_contains_rootShardId p

theorem OnWay.hop (h : L.OnWay src dest n cur used) {r : Int × Int} (hr : Routed src dest cur used r) :
    L.OnWay src dest (n + 1) (L.home (interpolate_addr src dest r.2)) r.2 := by
  refine ⟨rfl, hr.used_next, .inr ?_⟩
  rcases hr.progress with rfl | ⟨rfl, h32⟩ | h4
  · rw [interpolate_all]
    exact .inl (L.home_contains dest)
  · rcases h.progress with rfl | hd | hn
    · exact .inr (by push_cast; omega)
    · rw [(hr.arrived.1 hd), interpolate_all]
      exact .inl (L.home_contains dest)
    · exact .inr (by push_cast; omega)
  · rcases h.progress with rfl | hd | hn
    · have hu := h.used_digits.bounds
      rcases hr.used_next with h0 | ⟨i, hi, -, -⟩
      · omega
      · exact .inr (by push_cast; omega)
    · rw [(hr.arrived.1 hd), interpolate_all]
      exact .inl (L.home_contains dest)
    · exact .inr (by push_cast; omega)

theorem onWay (src dest : AccountIdPrefixFull) (hf : 16 ≤ fuel) (n : Nat) :
    ∃ cur used, L.route fuel src dest n = some (cur, used) ∧ L.OnWay src dest n cur used := by
  induction n with
  | zero =>
    refine ⟨_, _, rfl, ?_, .inl rfl, .inl rfl⟩
    rw [interpolate_zero]
  | succ n ih =>
    obtain ⟨cur, used, he, h⟩ := ih
    obtain ⟨r, hp, hr⟩ := h.call hf
    refine ⟨_, _, ?_, h.hop hr⟩
    simp only [route, he, Option.bind_eq_bind, Option.bind_some, hp]
    rfl

theorem OnWay.arrived (h : L.OnWay src dest n cur used) (hn : 18 ≤ n) : cur.contains dest = true := by
  rcases h.progress with rfl | hd | hle
  · omega
  · exact hd
  · have := h.used_digits.bounds
    omega

theorem half_contains_iff {s : ShardId} (hs : s ≠ 0) (hc : s.ctz.toNat = 62) (p : AccountIdPrefix) :
    shard_contains s p = true ↔ s.getLsbD 63 = p.getLsbD 63 := by
  rw [shard_contains_iff hs, hc]
  refine ⟨fun h => h 63 (by omega), fun h j hj => ?_⟩
  rcases Nat.eq_or_lt_of_le hj with rfl | hj
  · exact h
  · rw [getLsbD_of_ge s j hj, getLsbD_of_ge p j hj]

theorem half_contains_iff_high {p : AccountIdPrefix} : shard_contains 0xC000000000000000 p = true ↔ p.getLsbD 63 = true := by
  rw [half_contains_iff (by decide) (by decide +kernel), eq_comm]
  rfl

theorem half_contains_iff_low {p : AccountIdPrefix} : shard_contains 0x4000000000000000 p = true ↔ ¬p.getLsbD 63 = true := by
  rw [half_contains_iff (by decide) (by decide +kernel), eq_comm, Bool.not_eq_true]
  rfl

/-- Every call succeeds; the transit address lies in the current shard and the next hop
outside it; `used` never decreases; after at most 18 hops the message has arrived; and
within a workchain a hop changes one hexadecimal digit. -/
theorem hypercube_delivers (L : ShardLayout) (src dest : AccountIdPrefixFull) (fuel : Nat) (hf : 16 ≤ fuel) (n : Nat) :
    ∃ cur used first second, L.route fuel src dest n = some (cur, used) ∧
      perform_hypercube_routing fuel src dest cur used = some (first, second) ∧
      (first, second) ≠ (-1, -1) ∧ used ≤ second ∧
      cur.contains (interpolate_addr src dest first) = true ∧
      (cur.contains (interpolate_addr src dest second) = true → cur = L.home dest ∧ (first, second) = (96, 96)) ∧
      (18 ≤ n → cur = L.home dest ∧ (first, second) = (96, 96)) ∧
      ((interpolate_addr src dest first).workchain = (interpolate_addr src dest second).workchain →
        (first, second) ≠ (96, 96) →
        ∃! k, k < 16 ∧ digit (AccountIdPrefixFull.account_id_prefix (interpolate_addr src dest first)) k ≠
          digit (AccountIdPrefixFull.account_id_prefix (interpolate_addr src dest second)) k) := by
  obtain ⟨cur, used, he, h⟩ := onWay (L := L) src dest hf n
  obtain ⟨⟨first, second⟩, hp, hr⟩ := h.call hf
  have hhome : (first, second) = (96, 96) → cur = L.home dest := by
    intro h96
    have hd := hr.arrived.2 h96
    rw [h.at_transit] at hd ⊢
    exact L.home_eq hd
  have hu := h.used_digits.bounds
  have hle := hr.used_le
  refine ⟨cur, used, first, second, he, hp, ?_, hle.1.trans hle.2, hr.transit, ?_, ?_, hr.one_digit⟩
  · rintro ⟨rfl, rfl⟩
    simp only at hle
    omega
  · exact fun hn => ⟨hhome (hr.next_hop hn), hr.next_hop hn⟩
  · intro hn
    have h96 := hr.arrived.1 (h.arrived hn)
    exact ⟨hhome h96, h96⟩

/-- The masterchain is one shard, every other workchain two. -/
def halves : ShardLayout where
  shard w p := if w = masterchainId then rootShardId else if p.getLsbD 63 then 0xC000000000000000 else 0x4000000000000000
  shard_ne_zero w p := by split_ifs <;> decide
  contains_self w p := by
    split_ifs with hw hp
    · exact shard_contains_rootShardId p
    · exact half_contains_iff_high.2 hp
    · exact half_contains_iff_low.2 hp
  disjoint w p p' h := by
    by_cases hw : w = masterchainId
    · rw [if_pos hw, if_pos hw]
    simp only [if_neg hw] at h ⊢
    by_cases hp : p.getLsbD 63 = true
    · rw [if_pos hp] at h ⊢
      rw [if_pos (half_contains_iff_high.1 h)]
    · rw [if_neg hp] at h ⊢
      rw [if_neg (half_contains_iff_low.1 h)]
  masterchain p := if_pos rfl

/-- From the low half of workchain 0 to the high half of workchain 1. -/
theorem hypercube_delivers_halves :
    ∃ cur used, halves.route 16 ⟨0, 0x1234567812345678⟩ ⟨1, 0xF234567812345678⟩ 18 = some (cur, used) ∧
      cur = halves.home ⟨1, 0xF234567812345678⟩ := by
  obtain ⟨cur, used, first, second, hr, -, -, -, -, -, h18, -⟩ :=
    hypercube_delivers halves ⟨0, 0x1234567812345678⟩ ⟨1, 0xF234567812345678⟩ 16 (by decide) 18
  exact ⟨cur, used, hr, (h18 (by decide)).1⟩

end ShardLayout

end Ton.Shard
