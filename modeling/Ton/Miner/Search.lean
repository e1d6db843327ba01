import Ton.Miner.Cruncher
/-!
# What the GPU finds, the CPU confirms

`build_mine_result` rebuilds the message for a reported `(nonce, vcpu)` and
hashes it again. `gpu_state_eq`: the kernel's final state is the hash of exactly
those bytes. `gpu_less_iff`: its comparison is the `memcmp` of the check. So
whatever interleaving of its threads a launch ran in, a recorded pair passes
(`launch_recorded`).
-/

namespace Ton.Miner
open BitVec (allOnes ofNat)

open BigEndian Sha256

/-- The last eight bytes of `rdata[vcpu]` with the nonce added. -/
def rdata_nonce (rdata : List Byte) (nonce : U64) (vcpu : Nat) : U64 :=
  let r (i : Nat) : U64 := (byteAt rdata (32 * vcpu + i)).setWidth 64
  (r 24 <<< (8 * 7) ||| r 25 <<< (8 * 6) ||| r 26 <<< (8 * 5) ||| r 27 <<< (8 * 4) ||| r 28 <<< (8 * 3) |||
    r 29 <<< (8 * 2) ||| r 30 <<< (8 * 1) ||| r 31) + nonce

/-- The bytes `build_mine_result` writes to `rdata1`. -/
def mined_rdata (rdata : List Byte) (nonce : U64) (vcpu : Nat) : Vector Byte 32 :=
  let rdata1 := rdata_nonce rdata nonce vcpu
  Vector.ofFn fun i =>
    if i.val ≤ 23 then byteAt rdata (32 * vcpu + i) else (rdata1 >>> ((31 - i.val) * 8)).setWidth 8

/-- `H` as `build_mine_result` hashes it. -/
def mined_data (H : HDataEnv) (rdata : List Byte) (nonce : U64) (vcpu : Nat) (expired : U32) : HDataEnv :=
  let rdata1 := mined_rdata rdata nonce vcpu
  { H with body := { H.body with rdata1 := rdata1, rdata2 := rdata1 }.set_expire expired }

/-- `none` is the branch that logs `OVERCLOCK DETECTED`. -/
def build_mine_result (S : Sha256Api) (H : HDataEnv) (complexity rdata : List Byte) (nonce : U64) (vcpu : Nat)
    (expired : U32) : Option (List Byte) :=
  let H := mined_data H rdata nonce vcpu expired
  let hash := S.final (S.update S.init H.as_slice)
  if memcmp hash complexity = .lt then some H.body.as_slice else none

theorem mined_data_eq (H : HDataEnv) (rdata : List Byte) (nonce : U64) (vcpu : Nat) (expired : U32) :
    mined_data H rdata nonce vcpu expired =
      H.withRdata #v[expired.extractLsb' 24 8, expired.extractLsb' 16 8, expired.extractLsb' 8 8, expired.extractLsb' 0 8]
        (mined_rdata rdata nonce vcpu) := rfl

theorem byteAt_mined_rdata (rdata : List Byte) (nonce : U64) (vcpu i : Nat) (hi : i < 32) :
    byteAt (mined_rdata rdata nonce vcpu).toList i =
      if i ≤ 23 then byteAt rdata (32 * vcpu + i)
      else (rdata_nonce rdata nonce vcpu >>> ((31 - i) * 8)).setWidth 8 := by
  simp [byteAt, mined_rdata, hi]

/-! ## The three blocks -/

theorem byteAt_pad (m : List Byte) (hm : m.length = 123) (j : Nat) :
    byteAt (pad m) j = if j < 123 then byteAt m j else if j = 123 then 0x80
      else if j = 190 then 0x03 else if j = 191 then 0xd8 else 0 := by
  have e : pad m = m ++ ([0x80] ++ List.replicate 60 0 ++ [0, 0, 0, 0, 0, 0, 0x03, 0xd8]) := by
    simp only [pad, hm, List.append_assoc]
    rfl
  rw [e, byteAt_append, hm]
  split
  · rfl
  · rename_i h
    rcases Nat.lt_or_ge j 192 with hj | hj
    · interval_cases j <;> rfl
    · rw [byteAt_of_length_le (by simp; omega)]
      simp [show j ≠ 123 by omega, show j ≠ 190 by omega, show j ≠ 191 by omega]

section Blocks
variable (H : HDataEnv) (rdata : List Byte) (nonce : U64) (vcpu : Nat) (expired : U32)

theorem range_sixteen : List.range 16 = [0, 1, 2, 3, 4, 5, 6, 7, 8, 9, 10, 11, 12, 13, 14, 15] := rfl

theorem block_zero : block (pad (mined_data H rdata nonce vcpu expired).as_slice) 0 =
    prepare_shadata expired H.as_slice (rdata.drop (vcpu * 32)) := by
  simp only [prepare_shadata, be_eq, wordAt, at8, shift_word, shiftRight_24, mask_word]
  rw [block, range_sixteen]
  simp [wordAt, byteAt_pad, mined_data_eq, HDataEnv.byteAt_withRdata, byteAt_mined_rdata, byteAt_drop, Nat.mul_comm]

/-- The second block, byte by byte: the counter stands in it twice. -/
theorem block_one : block (pad (mined_data H rdata nonce vcpu expired).as_slice) 1 =
    let r (i : Nat) := byteAt rdata (32 * vcpu + i)
    let d (i : Nat) := byteAt H.as_slice i
    let s := rdata_nonce rdata nonce vcpu
    let rdata6 := word (r 21) (r 22) (r 23) ((s >>> 56).setWidth 8)
    let rdata7 := word ((s >>> 48).setWidth 8) ((s >>> 40).setWidth 8) ((s >>> 32).setWidth 8) ((s >>> 24).setWidth 8)
    let last := word ((s >>> 16).setWidth 8) ((s >>> 8).setWidth 8) (s.setWidth 8)
    [rdata6, rdata7, last (d 75), wordAt H.as_slice 76, wordAt H.as_slice 80, wordAt H.as_slice 84,
      word (d 88) (d 89) (d 90) (r 0), word (r 1) (r 2) (r 3) (r 4), word (r 5) (r 6) (r 7) (r 8),
      word (r 9) (r 10) (r 11) (r 12), word (r 13) (r 14) (r 15) (r 16), word (r 17) (r 18) (r 19) (r 20),
      rdata6, rdata7, last 0x80, 0] := by
  rw [block, range_sixteen]
  simp [wordAt, byteAt_pad, mined_data_eq, HDataEnv.byteAt_withRdata, byteAt_mined_rdata]
  decide

theorem block_two : block (pad (mined_data H rdata nonce vcpu expired).as_slice) 2 = gpu_tail := by
  rw [block, range_sixteen]
  simp [wordAt, byteAt_pad, gpu_tail]
  decide

theorem gpu_data_eq (gpu_threads : Nat) (target : List Byte) :
    gpu_data (packed_msg gpu_threads expired H.as_slice target rdata)
      (prepare_thread expired H.as_slice (rdata.drop (vcpu * 32))) nonce =
      block (pad (mined_data H rdata nonce vcpu expired).as_slice) 1 := by
  have h80 : (0x80 : U32) = (0x80 : Byte).setWidth 32 := rfl
  have hr : (packed_msg gpu_threads expired H.as_slice target rdata).pseed =
      [wordAt H.as_slice 76, wordAt H.as_slice 80, wordAt H.as_slice 84] := by
    simp only [packed_msg, be_eq]; rfl
  rw [block_one]
  simp only [gpu_data, hr, prepare_thread, List.getD_cons_zero, List.getD_cons_succ, be_eq, at8, wordAt, shift_word,
    extract_word, mask_word, mask_low, gpu_counter, split_high, split_mid, split_low, h80, byteAt_drop,
    Nat.mul_comm vcpu, Nat.add_zero, Nat.reduceAdd, rdata_nonce]

/-- The kernel's final state is the hash of the message `build_mine_result` rebuilds. -/
theorem gpu_state_eq (gpu_threads : Nat) (target : List Byte) :
    gpu_state (packed_msg gpu_threads expired H.as_slice target rdata)
      (prepare_thread expired H.as_slice (rdata.drop (vcpu * 32))) nonce =
      hashWords (mined_data H rdata nonce vcpu expired).as_slice := by
  have hH : h256 = H0 := rfl
  rw [hashWords_of_three_blocks _ (by simp) (by simp), gpu_state, gpu_data_eq, sha256_transform_eq, sha256_transform_eq,
    block_two, prepare_thread, sha256_transform_eq, ← block_zero H rdata nonce vcpu expired, hH]

end Blocks

/-! ## The comparison -/

theorem flatMap_wordBytes_length (l : List U32) : (l.flatMap wordBytes).length = 4 * l.length := by
  induction l with
  | nil => rfl
  | cons w l ih => simp only [List.flatMap_cons, List.length_append, ih]; simp [wordBytes]; omega

theorem gpu_less_iff (s t : List U32) (hl : s.length = t.length) :
    gpu_less s t = true ↔ ofBytes (s.flatMap wordBytes) < ofBytes (t.flatMap wordBytes) := by
  induction s generalizing t with
  | nil => rw [List.length_eq_zero_iff.1 hl.symm]; simp [gpu_less]
  | cons x s ih =>
    obtain _ | ⟨y, t⟩ := t
    · simp at hl
    · simp only [List.length_cons, Nat.add_right_cancel_iff] at hl
      have hs := ofBytes_lt (s.flatMap wordBytes)
      have ht := ofBytes_lt (t.flatMap wordBytes)
      simp only [flatMap_wordBytes_length, hl] at hs ht
      simp only [gpu_less, List.flatMap_cons, ofBytes_append, ofBytes_wordBytes, flatMap_wordBytes_length, hl]
      split
      · next h =>
        have : y.toNat < x.toNat := h
        simpa using (digit_lt ht this).le
      · split
        · next h =>
          have : x.toNat < y.toNat := h
          simpa using digit_lt hs this
        · next h1 h2 =>
          have hxy : x.toNat = y.toNat := by
            have h1 : ¬ y.toNat < x.toNat := h1
            have h2 : ¬ x.toNat < y.toNat := h2
            omega
          rw [ih t hl, hxy, Nat.add_lt_add_iff_left]

theorem wordBytes_word (a b c d : Byte) : wordBytes (word a b c d) = [a, b, c, d] := by
  have h24 : (word a b c d).extractLsb' 24 8 = a := by
    ext i hi
    interval_cases i <;> simp [getElem_word]
  rw [wordBytes, h24, (extract_word a b c d).1, (extract_word a b c d).2.1, (extract_word a b c d).2.2]

theorem digest_target (gpu_threads : Nat) (expired : U32) (data target rdata : List Byte) (h : target.length = 32) :
    digest (packed_msg gpu_threads expired data target rdata).target = target := by
  have e : (packed_msg gpu_threads expired data target rdata).target.toList =
      (List.range 8).map fun i => wordAt target (4 * i) := by
    simp only [packed_msg, be_eq]; rfl
  rw [digest, e]
  refine byteAt_ext (by rw [flatMap_wordBytes_length, h]; rfl) fun i hi => ?_
  simp only [flatMap_wordBytes_length, List.length_map, List.length_range] at hi
  simp only [show List.range 8 = [0, 1, 2, 3, 4, 5, 6, 7] from rfl, List.map_cons, List.map_nil, List.flatMap_cons,
    List.flatMap_nil, wordAt, wordBytes_word]
  interval_cases i <;> rfl

/-- The kernel reports a hit exactly where the check of `build_mine_result` passes. -/
theorem gpu_hit_iff (S : Sha256Api) (H : HDataEnv) (complexity rdata : List Byte) (expired : U32) (gpu_threads : Nat)
    (start_nonce idx : U64) (vcpu : U32) (hc : complexity.length = 32) (hv : vcpu.toNat < gpu_threads) :
    gpu_hit (packed_msg gpu_threads expired H.as_slice complexity rdata) start_nonce idx vcpu = some true ↔
      (build_mine_result S H complexity rdata (start_nonce + idx) vcpu.toNat expired).isSome := by
  have ht : (packed_msg gpu_threads expired H.as_slice complexity rdata).thrdata[vcpu.toNat]? =
      some (prepare_thread expired H.as_slice (rdata.drop (vcpu.toNat * 32))) := by
    simp [packed_msg, hv]
  rw [gpu_hit, ht, Option.map_some, Option.some.injEq, gpu_less_iff _ _ (by simp), gpu_state_eq, ← digest, ← digest,
    digest_target _ _ _ _ _ hc, build_mine_result, S.final_one, ← memcmp_lt_iff _ _ (by simp [hc]), ← sha256]
  split <;> simp [*]

/-! ## A launch -/

/-- A kernel thread: its global id and its `vcpu`. -/
structure Thread where
  idx : U64
  vcpu : U32

/-- A launch under way: threads that have not reached `atomicAdd`, threads that
won it and are storing (with whether `nonce` is stored), and the result in
device memory. A thread that returned is in neither list. -/
structure Launch where
  ready : List Thread
  storing : List (Thread × Bool)
  result : DevHashResult

/-- One atomic access of one thread; the order of threads is free. -/
inductive Launch.Step (msg : MsgData) (start_nonce : U64) : Launch → Launch → Prop
  | miss {l l' : List Thread} {t : Thread} {w : List (Thread × Bool)} {r : DevHashResult} :
      gpu_hit msg start_nonce t.idx t.vcpu ≠ some true → Step msg start_nonce ⟨l ++ t :: l', w, r⟩ ⟨l ++ l', w, r⟩
  | add_won {l l' : List Thread} {t : Thread} {w : List (Thread × Bool)} {r : DevHashResult} :
      gpu_hit msg start_nonce t.idx t.vcpu = some true → r.found = 0 →
      Step msg start_nonce ⟨l ++ t :: l', w, r⟩ ⟨l ++ l', (t, false) :: w, { r with found := r.found + 1 }⟩
  | add_lost {l l' : List Thread} {t : Thread} {w : List (Thread × Bool)} {r : DevHashResult} :
      gpu_hit msg start_nonce t.idx t.vcpu = some true → r.found ≠ 0 →
      Step msg start_nonce ⟨l ++ t :: l', w, r⟩ ⟨l ++ l', w, { r with found := r.found + 1 }⟩
  | store_nonce {l : List Thread} {t : Thread} {w w' : List (Thread × Bool)} {r : DevHashResult} :
      Step msg start_nonce ⟨l, w ++ (t, false) :: w', r⟩ ⟨l, w ++ (t, true) :: w', { r with nonce := start_nonce + t.idx }⟩
  | store_vcpu {l : List Thread} {t : Thread} {w w' : List (Thread × Bool)} {r : DevHashResult} :
      Step msg start_nonce ⟨l, w ++ (t, true) :: w', r⟩ ⟨l, w ++ w', { r with vcpu := t.vcpu }⟩

/-- The result the host writes before a launch. -/
def emptyResult : DevHashResult := ⟨allOnes 64, allOnes 32, 0⟩

/-- Launches reached from `threads` in some interleaving. -/
inductive Launch.Reached (msg : MsgData) (start_nonce : U64) (threads : List Thread) : Launch → Prop
  | start : Reached msg start_nonce threads ⟨threads, [], emptyResult⟩
  | step {c c' : Launch} : Reached msg start_nonce threads c → Step msg start_nonce c c' → Reached msg start_nonce threads c'

/-- The threads with a hit. -/
def hits (msg : MsgData) (start_nonce : U64) (threads : List Thread) : Nat :=
  threads.countP fun t => gpu_hit msg start_nonce t.idx t.vcpu = some true

/-- The pair of a thread with a hit, or, when there is none, the pair the host wrote. -/
def Recorded (msg : MsgData) (start_nonce : U64) (threads : List Thread) (r : DevHashResult) : Prop :=
  (∃ t ∈ threads, gpu_hit msg start_nonce t.idx t.vcpu = some true ∧ r.nonce = start_nonce + t.idx ∧ r.vcpu = t.vcpu) ∨
    (∀ t ∈ threads, gpu_hit msg start_nonce t.idx t.vcpu ≠ some true) ∧ r.nonce = emptyResult.nonce ∧ r.vcpu = emptyResult.vcpu

/-- At most one thread stores, and what is stored is its pair. `adds` counts the
`atomicAdd`s; it stays below `2 ^ 32` while a thread with a hit is ready, so `found`
does not come back to zero. -/
def Launch.Inv (msg : MsgData) (start_nonce : U64) (threads : List Thread) (c : Launch) : Prop :=
  (∀ t ∈ c.ready, t ∈ threads) ∧
  ((c.storing = [] ∧ c.result = emptyResult ∧ hits msg start_nonce c.ready = hits msg start_nonce threads) ∨
  ∃ t ∈ threads, ∃ adds : Nat, gpu_hit msg start_nonce t.idx t.vcpu = some true ∧ 0 < adds ∧
    adds + hits msg start_nonce c.ready ≤ hits msg start_nonce threads ∧ c.result.found = ofNat 32 adds ∧
    ((c.storing = [(t, false)] ∧ c.result.vcpu = allOnes 32) ∨
      (c.storing = [(t, true)] ∧ c.result.nonce = start_nonce + t.idx) ∨
      (c.storing = [] ∧ c.result.nonce = start_nonce + t.idx ∧ c.result.vcpu = t.vcpu)))

theorem ofNat_ne_zero {k : Nat} (h0 : 0 < k) (h : k < 2 ^ 32) : ofNat 32 k ≠ 0 := by
  intro he
  have := congrArg BitVec.toNat he
  simp at this
  omega

section Hits
variable {msg : MsgData} {start_nonce : U64} {l l' threads : List Thread} {t : Thread}

theorem hits_hit (l l' : List Thread) (h : gpu_hit msg start_nonce t.idx t.vcpu = some true) :
    hits msg start_nonce (l ++ t :: l') = hits msg start_nonce (l ++ l') + 1 := by
  simp [hits, h]
  omega

theorem hits_miss (l l' : List Thread) (h : gpu_hit msg start_nonce t.idx t.vcpu ≠ some true) :
    hits msg start_nonce (l ++ t :: l') = hits msg start_nonce (l ++ l') := by
  simp [hits, h]

theorem ready_sub (h : ∀ u ∈ l ++ t :: l', u ∈ threads) : t ∈ threads ∧ ∀ u ∈ l ++ l', u ∈ threads :=
  ⟨h t (by simp), fun u hu => h u (by simp at hu ⊢; tauto)⟩

end Hits

theorem Launch.Step.inv {msg : MsgData} {start_nonce : U64} {threads : List Thread} (hn : hits msg start_nonce threads ≤ 2 ^ 32)
    {c c' : Launch} (h : Step msg start_nonce c c') (hi : Inv msg start_nonce threads c) : Inv msg start_nonce threads c' := by
  obtain ⟨hsub, hi⟩ := hi
  cases h with
  | @miss l l' t w r hm =>
    have e := hits_miss l l' hm
    refine ⟨(ready_sub hsub).2, ?_⟩
    rcases hi with ⟨hw, hr, hl⟩ | ⟨u, hu, adds, hit, h0, hl, hf, hs⟩
    · exact .inl ⟨hw, hr, e ▸ hl⟩
    · exact .inr ⟨u, hu, adds, hit, h0, e ▸ hl, hf, hs⟩
  | @add_won l l' t w r hm h0 =>
    have e := hits_hit l l' hm
    refine ⟨(ready_sub hsub).2, ?_⟩
    rcases hi with ⟨hw, hr, hl⟩ | ⟨u, hu, adds, hit, h1, hl, hf, hs⟩
    · obtain rfl : w = [] := hw
      obtain rfl : r = emptyResult := hr
      exact .inr ⟨t, (ready_sub hsub).1, 1, hm, by omega, by dsimp only at hl ⊢; omega, rfl, .inl ⟨rfl, rfl⟩⟩
    · have hf : r.found = ofNat 32 adds := hf
      rw [hf] at h0
      exact absurd h0 (ofNat_ne_zero h1 (by dsimp only at hl; omega))
  | @add_lost l l' t w r hm h0 =>
    have e := hits_hit l l' hm
    refine ⟨(ready_sub hsub).2, ?_⟩
    rcases hi with ⟨-, hr, -⟩ | ⟨u, hu, adds, hit, h1, hl, hf, hs⟩
    · obtain rfl : r = emptyResult := hr
      exact absurd rfl h0
    · refine .inr ⟨u, hu, adds + 1, hit, by omega, by dsimp only at hl ⊢; omega, ?_, hs⟩
      have hf : r.found = ofNat 32 adds := hf
      simp only [hf, BitVec.ofNat_add]
      rfl
  | @store_nonce l t w w' r =>
    refine ⟨hsub, ?_⟩
    rcases hi with ⟨hw, -, -⟩ | ⟨u, hu, adds, hit, h1, hl, hf, hs⟩
    · simp at hw
    · rcases hs with ⟨hw, hv⟩ | ⟨hw, hv⟩ | ⟨hw, -⟩
      · obtain ⟨rfl, he⟩ | ⟨_, -, he⟩ := List.append_eq_cons_iff.1 hw
        · simp only [List.cons.injEq, Prod.mk.injEq, and_true] at he
          obtain ⟨rfl, rfl⟩ := he
          exact .inr ⟨t, hu, adds, hit, h1, hl, hf, .inr (.inl ⟨rfl, rfl⟩)⟩
        · simp at he
      · obtain ⟨rfl, he⟩ | ⟨_, -, he⟩ := List.append_eq_cons_iff.1 hw <;> simp at he
      · simp at hw
  | @store_vcpu l t w w' r =>
    refine ⟨hsub, ?_⟩
    rcases hi with ⟨hw, -, -⟩ | ⟨u, hu, adds, hit, h1, hl, hf, hs⟩
    · simp at hw
    · rcases hs with ⟨hw, hv⟩ | ⟨hw, hv⟩ | ⟨hw, -⟩
      · obtain ⟨rfl, he⟩ | ⟨_, -, he⟩ := List.append_eq_cons_iff.1 hw <;> simp at he
      · obtain ⟨rfl, he⟩ | ⟨_, -, he⟩ := List.append_eq_cons_iff.1 hw
        · simp only [List.cons.injEq, Prod.mk.injEq, and_true] at he
          obtain ⟨rfl, rfl⟩ := he
          exact .inr ⟨t, hu, adds, hit, h1, hl, hf, .inr (.inr ⟨rfl, hv, rfl⟩)⟩
        · simp at he
      · simp at hw

section
variable {msg : MsgData} {start_nonce : U64} {threads : List Thread} {c : Launch} (hn : hits msg start_nonce threads ≤ 2 ^ 32)
  (h : Launch.Reached msg start_nonce threads c)
include hn h

theorem Launch.Reached.inv : Inv msg start_nonce threads c := by
  induction h with
  | start => exact ⟨fun _ => id, .inl ⟨rfl, rfl, rfl⟩⟩
  | step _ hs ih => exact hs.inv hn ih

/-- Once every thread has returned, a launch leaves the pair of one of its threads with a hit. -/
theorem Launch.Reached.outcome (hr : c.ready = []) (hs : c.storing = []) :
    Recorded msg start_nonce threads c.result := by
  rcases (h.inv hn).2 with ⟨-, he, hl⟩ | ⟨t, ht, adds, hit, -, -, -, hw⟩
  · have h0 : hits msg start_nonce threads = 0 := by rw [← hl, hr]; rfl
    exact .inr ⟨fun t ht => by simpa using List.countP_eq_zero.1 h0 t ht, by rw [he], by rw [he]⟩
  · rcases hw with ⟨hw, -⟩ | ⟨hw, -⟩ | ⟨-, h1, h2⟩
    · simp [hs] at hw
    · simp [hs] at hw
    · exact .inl ⟨t, ht, hit, h1, h2⟩

end

/-- A thread run alone writes to the result exactly when it has a hit. -/
theorem gpu_hash_ne_iff (msg : MsgData) (start_nonce idx : U64) (vcpu : U32) (r : DevHashResult) :
    bitcredit_gpu_hash msg start_nonce idx vcpu r ≠ r ↔ gpu_hit msg start_nonce idx vcpu = some true := by
  unfold bitcredit_gpu_hash
  split
  · next hit =>
    refine iff_of_true (fun h => ?_) hit
    have hfound := congrArg DevHashResult.found h
    dsimp only at hfound
    split at hfound <;> simp at hfound
  · next hno => exact iff_of_false (fun h => h rfl) hno

/-- Threads run one after the other, in any order, leave the pair of a thread
with a hit: each that finds `found` at zero overwrites both fields. -/
theorem foldl_gpu_hash (msg : MsgData) (start_nonce : U64) (threads : List Thread) (r : DevHashResult) :
    let r' := threads.foldl (fun r t => bitcredit_gpu_hash msg start_nonce t.idx t.vcpu r) r
    (∃ t ∈ threads, gpu_hit msg start_nonce t.idx t.vcpu = some true ∧ r'.nonce = start_nonce + t.idx ∧ r'.vcpu = t.vcpu) ∨
      (r.found = 0 → ∀ t ∈ threads, gpu_hit msg start_nonce t.idx t.vcpu ≠ some true) ∧ r'.nonce = r.nonce ∧ r'.vcpu = r.vcpu := by
  induction threads generalizing r with
  | nil => exact .inr ⟨fun _ _ => (nomatch ·), rfl, rfl⟩
  | cons t ts ih =>
    rcases ih (bitcredit_gpu_hash msg start_nonce t.idx t.vcpu r) with ⟨u, hu, h⟩ | ⟨hno, h1, h2⟩
    · exact .inl ⟨u, List.mem_cons_of_mem _ hu, h⟩
    · simp only [List.foldl_cons]
      by_cases hit : gpu_hit msg start_nonce t.idx t.vcpu = some true
      · rw [bitcredit_gpu_hash, if_pos hit] at h1 h2 ⊢
        dsimp only at h1 h2 ⊢
        split_ifs at h1 h2 ⊢ with h0
        · exact .inl ⟨t, List.mem_cons_self, hit, h1, h2⟩
        · exact .inr ⟨fun h => absurd h h0, h1, h2⟩
      · have he : bitcredit_gpu_hash msg start_nonce t.idx t.vcpu r = r := if_neg hit
        rw [he] at hno h1 h2 ⊢
        exact .inr ⟨fun h0 => List.forall_mem_cons.2 ⟨hit, hno h0⟩, h1, h2⟩

/-- The host takes a result as found when both fields differ from what it wrote. -/
def DevHashResult.recorded (r : DevHashResult) : Prop := r.nonce ≠ allOnes 64 ∧ r.vcpu ≠ allOnes 32

/-- What a launch of `threads` may leave for the host: the check passes for a recorded
pair, which is that of a thread whenever one passes, and nothing is written when none does. -/
structure Confirmed (S : Sha256Api) (H : HDataEnv) (complexity rdata : List Byte) (expired : U32) (start_nonce : U64)
    (threads : List Thread) (r : DevHashResult) : Prop where
  checked : r.recorded → build_mine_result S H complexity rdata r.nonce r.vcpu.toNat expired ≠ none
  found : (∃ t ∈ threads, build_mine_result S H complexity rdata (start_nonce + t.idx) t.vcpu.toNat expired ≠ none) →
    ∃ t ∈ threads, r.nonce = start_nonce + t.idx ∧ r.vcpu = t.vcpu ∧
      build_mine_result S H complexity rdata r.nonce r.vcpu.toNat expired ≠ none
  empty : (∀ t ∈ threads, build_mine_result S H complexity rdata (start_nonce + t.idx) t.vcpu.toNat expired = none) →
    r.nonce = emptyResult.nonce ∧ r.vcpu = emptyResult.vcpu

theorem Recorded.confirmed {S : Sha256Api} {H : HDataEnv} {complexity rdata : List Byte} {expired : U32} {gpu_threads : Nat}
    {start_nonce : U64} {threads : List Thread} {r : DevHashResult} (hc : complexity.length = 32)
    (hv : ∀ t ∈ threads, t.vcpu.toNat < gpu_threads)
    (h : Recorded (packed_msg gpu_threads expired H.as_slice complexity rdata) start_nonce threads r) :
    Confirmed S H complexity rdata expired start_nonce threads r := by
  have hiff : ∀ t ∈ threads, gpu_hit (packed_msg gpu_threads expired H.as_slice complexity rdata) start_nonce t.idx t.vcpu = some true ↔
      build_mine_result S H complexity rdata (start_nonce + t.idx) t.vcpu.toNat expired ≠ none := fun t ht => by
    rw [gpu_hit_iff S H _ _ _ _ _ _ _ hc (hv t ht), Option.isSome_iff_ne_none]
  rcases h with ⟨t, ht, hit, h1, h2⟩ | ⟨hno, h1, h2⟩
  · have hpass := (hiff t ht).1 hit
    have hr : build_mine_result S H complexity rdata r.nonce r.vcpu.toNat expired ≠ none := by rwa [h1, h2]
    exact ⟨fun _ => hr, fun _ => ⟨t, ht, h1, h2, hr⟩, fun h => absurd (h t ht) hpass⟩
  · refine ⟨fun hr => absurd h1 hr.1, ?_, fun _ => ⟨h1, h2⟩⟩
    rintro ⟨t, ht, hpass⟩
    exact absurd ((hiff t ht).2 hpass) (hno t ht)

/-- The GPU search agrees with the CPU check: the kernel hashes the bytes that
`build_mine_result` hashes, and a thread writes to the result exactly where its `memcmp`
passes. What a launch leaves is confirmed, in any interleaving of its threads as long as
at most `2 ^ 32` of them have a hit, so that the 32-bit `found` does not come back to
zero, and in any order of whole threads without that bound. -/
theorem gpu_search_confirmed (S : Sha256Api) (H : HDataEnv) (complexity : Vector Byte 32) (gpu_threads : Nat)
    (hg : gpu_threads ≤ MAX_GPU_THREADS) (rdata : Vector Byte (32 * gpu_threads)) (expired : U32) :
    ∃ msg, bitcredit_prepare_msg gpu_threads expired H.as_slice complexity.toList rdata.toList = some msg ∧
      bitcredit_setBlockTarget gpu_threads expired H.as_slice complexity.toList rdata.toList = some msg ∧
      (∀ vcpu : U32, vcpu.toNat < gpu_threads →
        (∃ thrdata, msg.thrdata[vcpu.toNat]? = some thrdata ∧ ∀ nonce : U64,
          digest (gpu_state msg thrdata nonce) = sha256 (mined_data H rdata.toList nonce vcpu.toNat expired).as_slice) ∧
        ∀ (start_nonce idx : U64) (r : DevHashResult), bitcredit_gpu_hash msg start_nonce idx vcpu r ≠ r ↔
          memcmp (sha256 (mined_data H rdata.toList (start_nonce + idx) vcpu.toNat expired).as_slice) complexity.toList = .lt) ∧
      ∀ (start_nonce : U64) (threads : List Thread), (∀ t ∈ threads, t.vcpu.toNat < gpu_threads) →
        (hits msg start_nonce threads ≤ 2 ^ 32 → ∀ c : Launch, Launch.Reached msg start_nonce threads c → c.ready = [] →
          c.storing = [] → Confirmed S H complexity.toList rdata.toList expired start_nonce threads c.result) ∧
        Confirmed S H complexity.toList rdata.toList expired start_nonce threads
          (threads.foldl (fun r t => bitcredit_gpu_hash msg start_nonce t.idx t.vcpu r) emptyResult) := by
  refine ⟨packed_msg gpu_threads expired H.as_slice complexity.toList rdata.toList, by simp [bitcredit_prepare_msg, hg],
    by simp [bitcredit_setBlockTarget, hg], fun vcpu hv => ⟨?_, fun start_nonce idx r => ?_⟩, fun start_nonce threads hv => ⟨?_, ?_⟩⟩
  · refine ⟨prepare_thread expired H.as_slice (rdata.toList.drop (vcpu.toNat * 32)), by simp [packed_msg, hv], fun nonce => ?_⟩
    rw [gpu_state_eq]
    rfl
  · rw [gpu_hash_ne_iff, gpu_hit_iff S H _ _ _ _ _ _ _ (by simp) hv, build_mine_result, S.final_one]
    split <;> simp [*]
  · intro hn c hc hr hs
    exact (hc.outcome hn hr hs).confirmed (by simp) hv
  · refine Recorded.confirmed (by simp) hv ?_
    exact (foldl_gpu_hash _ start_nonce threads emptyResult).imp id fun h => ⟨h.1 rfl, h.2⟩

/-- Two rows of random data, and a target that half of the hashes pass. -/
def exampleEnv : HDataEnv := .init ⟨-1, false, Vector.replicate 32 0⟩ (Vector.replicate 16 0) (Vector.replicate 32 0)

def exampleRdata : Vector Byte (32 * 2) := Vector.ofFn fun i => if i.val < 32 then 1 else 2

def exampleTarget : Vector Byte 32 := Vector.replicate 32 0x80

def exampleMsg : MsgData := packed_msg 2 7 exampleEnv.as_slice exampleTarget.toList exampleRdata.toList

/-- Of four threads two pass, and the first of them to run is recorded. -/
theorem gpu_search_confirmed_four_threads : ∃ msg, bitcredit_prepare_msg 2 7 exampleEnv.as_slice exampleTarget.toList exampleRdata.toList = some msg ∧
    let r := [⟨0, 1⟩, ⟨1, 1⟩, ⟨1, 0⟩, ⟨0, 0⟩].foldl (fun r (t : Thread) => bitcredit_gpu_hash msg 0 t.idx t.vcpu r) emptyResult
    r = ⟨1, 1, 2⟩ ∧ build_mine_result .absorbing exampleEnv exampleTarget.toList exampleRdata.toList r.nonce r.vcpu.toNat 7 ≠ none := by
  obtain ⟨msg, h, -, -, hlaunch⟩ := gpu_search_confirmed .absorbing exampleEnv exampleTarget 2 (by decide) exampleRdata 7
  obtain rfl : exampleMsg = msg := Option.some.inj h
  have hr : [⟨0, 1⟩, ⟨1, 1⟩, ⟨1, 0⟩, ⟨0, 0⟩].foldl (fun r (t : Thread) => bitcredit_gpu_hash exampleMsg 0 t.idx t.vcpu r) emptyResult =
    ⟨1, 1, 2⟩ := by decide +kernel
  refine ⟨exampleMsg, h, hr, ?_⟩
  refine (hlaunch 0 [⟨0, 1⟩, ⟨1, 1⟩, ⟨1, 0⟩, ⟨0, 0⟩] (by decide)).2.checked ?_
  rw [hr]
  exact ⟨by decide, by decide⟩

/-- Further hits only count, until `found` comes back to zero. -/
theorem Launch.Reached.add_lost_many {msg : MsgData} {start_nonce : U64} {threads l : List Thread} {w : List (Thread × Bool)} {t : Thread}
    {nonce : U64} {vcpu : U32} (hit : gpu_hit msg start_nonce t.idx t.vcpu = some true) (k : Nat) {adds : Nat} (h0 : 0 < adds)
    (hk : adds + k ≤ 2 ^ 32)
    (h : Reached msg start_nonce threads ⟨List.replicate k t ++ l, w, ⟨nonce, vcpu, ofNat 32 adds⟩⟩) :
    Reached msg start_nonce threads ⟨l, w, ⟨nonce, vcpu, ofNat 32 (adds + k)⟩⟩ := by
  induction k generalizing adds with
  | zero => exact h
  | succ k ih =>
    have hstep := h.step (.add_lost (l := []) hit (ofNat_ne_zero h0 (by omega)))
    rw [← Nat.add_assoc, Nat.add_right_comm]
    refine ih (Nat.succ_pos _) (by omega) ?_
    simpa [BitVec.ofNat_add] using hstep

/-- With one hit more than that, `found` is zero for two threads, and the nonce of one can
be recorded with the `vcpu` of the other. (All threads but the last are alike here.) -/
theorem Launch.Reached.torn {msg : MsgData} {start_nonce : U64} {t u : Thread} {k : Nat} (hk : k = 2 ^ 32 - 1)
    (ht : gpu_hit msg start_nonce t.idx t.vcpu = some true) (hu : gpu_hit msg start_nonce u.idx u.vcpu = some true) :
    Reached msg start_nonce (t :: (List.replicate k t ++ [u])) ⟨[], [], ⟨start_nonce + t.idx, u.vcpu, 1⟩⟩ := by
  have hwon := Reached.start.step (@Step.add_won msg start_nonce [] (List.replicate k t ++ [u]) t [] emptyResult ht rfl)
  have hlost := hwon.add_lost_many ht k Nat.one_pos (by omega)
  have hzero : ofNat 32 (1 + k) = 0 := by
    subst hk
    decide
  rw [hzero] at hlost
  have hagain := hlost.step (@Step.add_won msg start_nonce [] [] u _ _ hu rfl)
  -- u stores its nonce, t overwrites it, and u is the last to store its vcpu
  have hnonce := (hagain.step (@Step.store_nonce msg start_nonce _ u [] _ _)).step (@Step.store_nonce msg start_nonce _ t [(u, true)] [] _)
  exact (hnonce.step (@Step.store_vcpu msg start_nonce _ t [(u, true)] [] _)).step (@Step.store_vcpu msg start_nonce _ u [] [] _)

/-- The check fails for the pair that such a launch records. -/
theorem gpu_search_torn : ∃ (threads : List Thread) (c : Launch),
    bitcredit_prepare_msg 2 7 exampleEnv.as_slice exampleTarget.toList exampleRdata.toList = some exampleMsg ∧
    (∀ t ∈ threads, t.vcpu.toNat < 2) ∧ Launch.Reached exampleMsg 0 threads c ∧ c.ready = [] ∧ c.storing = [] ∧ c.result.recorded ∧
    build_mine_result .absorbing exampleEnv exampleTarget.toList exampleRdata.toList c.result.nonce c.result.vcpu.toNat 7 = none := by
  have h0 : gpu_hit exampleMsg 0 0 0 = some true := by decide +kernel
  have h1 : gpu_hit exampleMsg 0 1 1 = some true := by decide +kernel
  have hno : gpu_hit exampleMsg 0 0 1 = some false := by decide +kernel
  obtain ⟨k, hk⟩ : ∃ k : Nat, k = 2 ^ 32 - 1 := ⟨_, rfl⟩
  have hiff := gpu_hit_iff .absorbing exampleEnv exampleTarget.toList exampleRdata.toList 7 2 0 0 1 (by simp) (by decide)
  refine ⟨_, _, if_pos (by decide), ?_, .torn (t := ⟨0, 0⟩) (u := ⟨1, 1⟩) hk h0 h1, rfl, rfl, ⟨by decide, by decide⟩, ?_⟩
  · intro t ht
    simp only [List.mem_cons, List.mem_append, List.mem_replicate, List.not_mem_nil, or_false] at ht
    rcases ht with rfl | ⟨-, rfl⟩ | rfl <;> decide
  · refine Option.not_isSome_iff_eq_none.1 fun h => ?_
    cases hno.symm.trans (hiff.2 h)

end Ton.Miner
