import Ton.Miner.Midstate
import Ton.Miner.Scan
/-!
# The counted hashes

What the miners add to `hashes_computed`, against the hashes they launch. The CPU miner
counts every iteration but the one that finds. The GPU miners count a launch by its
throughput, and a found pair by the product of its nonce, which counts from the first
launch on, and its `vcpu`: too little for the first `vcpu`, too much in later launches.
-/

namespace Ton.Miner
open BigEndian Sha256 Nat
open BitVec (ofNat)
open Finset (mem_range range)

/-- What was added to `hashes_computed` is no more than what was launched, and it is not zero after enough hashes. -/
structure Accounted (hashes_computed launched : Nat) (enough : Prop) : Prop where
  le : hashes_computed ≤ launched
  pos : enough → 0 < hashes_computed

/-! ## The CPU miner -/

section Cpu
variable {S : Sha256Api} {options : Options} {ticks : Nat → Tick}

/-- What is added by the end of iteration `i` if the loop ends there. -/
def counted (i : Nat) (s : RunState S) : Nat := s.hashes_computed + (i - s.i0)

theorem refresh_counted {i : Nat} {s s' : RunState S} (h0 : s.i0 ≤ i) (h : refresh S ticks i s = .ok s' ∨ refresh S ticks i s = .error s') :
    s'.i0 ≤ i ∧ counted i s' = counted i s := by
  unfold refresh at h
  dsimp only at h
  split_ifs at h
  · rcases h with h | h <;> cases h
    exact ⟨h0, rfl⟩
  all_goals
    rcases h with h | h <;> cases h
    refine ⟨Nat.le_refl i, ?_⟩
    simp [counted]

theorem run_check_counted {i : Nat} {s s' : RunState S} (h0 : s.i0 ≤ i) (h : run_check S ticks i s = .ok s' ∨ run_check S ticks i s = .error s') :
    s'.i0 ≤ i ∧ counted i s' = counted i s := by
  unfold run_check at h
  split_ifs at h
  · exact refresh_counted h0 h
  · rcases h with h | h <;> cases h
    exact ⟨h0, rfl⟩

/-- The loop adds the iterations that it hashed, but for the last one when that finds something. -/
theorem run_loop_counted (fuel i : Nat) (s : RunState S) (h0 : s.i0 ≤ i) :
    (run_loop S options ticks fuel i s).2 ≤ counted i s + (run_hashed S options ticks fuel i s).length ∧
      ((run_loop S options ticks fuel i s).1 ≠ .overrun →
        counted i s + (run_hashed S options ticks fuel i s).length ≤ (run_loop S options ticks fuel i s).2 + 1) := by
  induction fuel generalizing i s with
  | zero => exact ⟨Nat.le_add_right .., fun _ => le_succ _⟩
  | succ fuel ih =>
    rw [run_loop, run_hashed]
    cases hc : run_check S ticks i s with
    | error s' =>
      obtain ⟨-, heq⟩ := run_check_counted h0 (.inr hc)
      rw [← heq]
      exact ⟨Nat.le_add_right .., fun _ => le_succ _⟩
    | ok s' =>
      obtain ⟨h0', heq⟩ := run_check_counted h0 (.inl hc)
      rw [← heq]
      dsimp only
      split_ifs with hlt
      · exact ⟨Nat.le_add_right .., fun _ => Nat.le_refl _⟩
      · cases hb : s'.H.body.inc with
        | none => exact ⟨(Nat.le_add_right _ (i - s'.i0)).trans (Nat.le_add_right ..), fun hne => absurd rfl hne⟩
        | some body =>
          obtain ⟨hle, hge⟩ := ih (i + 1) { s' with H := { s'.H with body := body } } (le_succ_of_le h0')
          have hnext : counted (i + 1) ({ s' with H := { s'.H with body := body } } : RunState S) = counted i s' + 1 := by
            simp only [counted]
            omega
          rw [hnext] at hle hge
          rw [List.length_cons]
          exact ⟨hle.trans (succ_add_eq_add_succ _ _).le, fun hne => (succ_add_eq_add_succ _ _).ge.trans (hge hne)⟩

theorem run_accounted (random : Vector Byte 32) :
    (run S options ticks random).2 ≤ (run_trace S options ticks random).length ∧ ((run S options ticks random).1 ≠ .overrun →
      Accounted (run S options ticks random).2 (run_trace S options ticks random).length (2 ≤ (run_trace S options ticks random).length)) := by
  obtain ⟨hle, hge⟩ := @run_loop_counted S options ticks options.max_iterations.toNat 0
    (run_start S options random) (Nat.le_refl 0)
  have hzero : counted 0 (run_start S options random) = 0 := rfl
  rw [hzero, Nat.zero_add] at hle hge
  refine ⟨hle, fun hne => ⟨hle, fun htwo => ?_⟩⟩
  have hlast := hge hne
  change 0 < (run_loop S options ticks options.max_iterations.toNat 0 (run_start S options random)).2
  change 2 ≤ (run_hashed S options ticks options.max_iterations.toNat 0 (run_start S options random)).length at htwo
  omega

end Cpu

/-! ## The GPU miners -/

section Gpu
variable {options : ScanOptions} {returns : LaunchResult → Bool} {results : Nat → LaunchResult} {fuel k : Nat} {i : U64} {scan : Scan}

/-- From launch `k` on, with counter `i`, the loop comes to the launch `j` further on. -/
def Launched (options : ScanOptions) (returns : LaunchResult → Bool) (results : Nat → LaunchResult) (k : Nat) (i : U64) (j : Nat) : Prop :=
  (∀ l ≤ j, (i + ofNat 64 l * throughput options).slt options.max_iterations = true) ∧
    ∀ l < j, (results (k + l)).goes_on returns = true

theorem launched_zero : Launched options returns results k i 0 ↔ i.slt options.max_iterations = true := by
  simp [Launched]

theorem launched_succ {j : Nat} : Launched options returns results k i (j + 1) ↔
    i.slt options.max_iterations = true ∧ (results k).goes_on returns = true ∧
      Launched options returns results (k + 1) (i + throughput options) j := by
  constructor
  · rintro ⟨hslt, hgoes⟩
    refine ⟨by simpa using hslt 0 (Nat.zero_le _), by simpa using hgoes 0 (succ_pos _), fun l hl => ?_, fun l hl => ?_⟩
    · rw [← next_start]
      exact hslt (l + 1) (succ_le_succ hl)
    · have h := hgoes (l + 1) (succ_lt_succ hl)
      rwa [Nat.add_right_comm]
  · rintro ⟨hslt, hgoes, hnext, hrest⟩
    refine ⟨fun l hl => ?_, fun l hl => ?_⟩
    · cases l with
      | zero => simpa using hslt
      | succ l =>
        rw [next_start]
        exact hnext l (le_of_succ_le_succ hl)
    · cases l with
      | zero => exact hgoes
      | succ l =>
        have h := hrest l (lt_of_succ_lt_succ hl)
        rwa [Nat.add_right_comm] at h

variable {launch : U32 → U64 → U64 → List (U32 × U64)} {r : LaunchResult}

theorem goes_on_of_hit (h : (r.found && returns r) = true) : r.goes_on returns = false := by
  simp [LaunchResult.goes_on, h]

theorem not_hit_of_goes_on (h : r.goes_on returns = true) : (r.found && returns r) = false := by
  cases hhit : r.found && returns r with
  | false => rfl
  | true => rw [goes_on_of_hit hhit] at h; cases h

/-- The launches of a scan are those that the reports let it come to. -/
theorem scan_loop_launched (h : scan_loop options returns results fuel k i = some scan) (j : Nat) :
    j < scan.starts.length ↔ Launched options returns results k i j := by
  induction fuel generalizing k i scan j with
  | zero => cases h
  | succ fuel ih =>
    rcases scan_loop_cases h with ⟨hlt, rfl⟩ | ⟨hlt, hhit, rfl⟩ | ⟨hlt, -, hgoes, ending, -, rfl⟩ | ⟨hlt, hgoes, rest, hrest, rfl⟩
    · refine iff_of_false (Nat.not_lt_zero j) fun hl => ?_
      have hfirst := hl.1 0 (Nat.zero_le j)
      simp [hlt] at hfirst
    · cases j with
      | zero => simp [launched_zero, hlt]
      | succ j => simp [launched_succ, goes_on_of_hit hhit]
    · cases j with
      | zero => simp [launched_zero, hlt]
      | succ j => simp [launched_succ, hgoes]
    · cases j with
      | zero => simp [launched_zero, hlt]
      | succ j =>
        rw [launched_succ, ← ih hrest j]
        simp [hlt, hgoes]

/-- A scan adds the throughput of each launch, except of one that it returns from, and what each report says. -/
theorem scan_loop_total (h : scan_loop options returns results fuel k i = some scan) :
    (∃ m, scan.starts.length = m + 1 ∧ ((results (k + m)).found && returns (results (k + m))) = true ∧
      scan.hashes_computed = ∑ j ∈ range (m + 1), (results (k + j)).hashes + m * (throughput options).toNat) ∨
    ((∀ j < scan.starts.length, ((results (k + j)).found && returns (results (k + j))) = false) ∧
      scan.hashes_computed = ∑ j ∈ range scan.starts.length, (results (k + j)).hashes + scan.starts.length * (throughput options).toNat) := by
  induction fuel generalizing k i scan with
  | zero => cases h
  | succ fuel ih =>
    rcases scan_loop_cases h with ⟨-, rfl⟩ | ⟨-, hhit, rfl⟩ | ⟨-, hhit, -, ending, -, rfl⟩ | ⟨-, hgoes, rest, hrest, rfl⟩
    · refine .inr ⟨fun j hj => absurd hj (Nat.not_lt_zero j), ?_⟩
      simp
    · exact .inl ⟨0, rfl, hhit, by simp⟩
    · refine .inr ⟨fun j hj => ?_, by simp⟩
      obtain rfl : j = 0 := lt_one_iff.1 hj
      exact hhit
    · have hshift : ∀ j, k + 1 + j = k + (j + 1) := fun j => by omega
      rcases ih hrest with ⟨m, hlen, hhit, htotal⟩ | ⟨hnone, htotal⟩
      · refine .inl ⟨m + 1, by simp [hlen], by rwa [← hshift], ?_⟩
        simp only [hshift] at htotal
        rw [Finset.sum_range_succ', htotal, succ_mul]
        dsimp only [Nat.add_zero]
        omega
      · refine .inr ⟨fun j hj => ?_, ?_⟩
        · cases j with
          | zero => exact not_hit_of_goes_on hgoes
          | succ j =>
            rw [← hshift]
            exact hnone j (lt_of_succ_lt_succ hj)
        · simp only [hshift] at htotal
          rw [List.length_cons, Finset.sum_range_succ', htotal, succ_mul]
          dsimp only [Nat.add_zero]
          omega

/-! ## The accounts of a scan -/

/-- A scan that comes to a second launch has not cut its throughput to `max_iterations`. -/
theorem Launched.uncut (h : InRange options) (hl : Launched options returns results 0 0 k) (hk : 0 < k) :
    (throughput options).toNat = full options := by
  have hsecond := (h.slt _).1 (hl.1 1 hk)
  have hle := h.throughput_le
  have hmin := h.throughput_eq
  rw [counter_toNat, Nat.one_mul, mod_eq_of_lt (by omega)] at hsecond
  omega

/-- Each launch reports a pair that it evaluates, or nothing. -/
def Reports (launch : U32 → U64 → U64 → List (U32 × U64)) (options : ScanOptions) (results : Nat → LaunchResult) : Prop :=
  ∀ k, (results k).found = true → ∃ vcpu : U32, (results k).vcpu = vcpu.setWidth 64 ∧
    (vcpu, (results k).nonce) ∈ launch options.gpu_threads (throughput options) (ofNat 64 k * throughput options)

/-- A pair that the scan returns from is not counted as nothing in the first launch, and in a later one no more than a throughput is
counted for the found pairs. -/
def HitsCounted (options : ScanOptions) (returns : LaunchResult → Bool) (results : Nat → LaunchResult) : Prop :=
  ∀ k, Launched options returns results 0 0 k → ((results k).found && returns (results k)) = true →
    (k = 0 → 0 < (results 0).hashes) ∧ (0 < k → ∑ j ∈ range (k + 1), (results j).hashes ≤ (throughput options).toNat)

theorem hitsCounted_iff (hscan : scan_loop options returns results fuel 0 0 = some scan) {m : Nat} (hlen : scan.starts.length = m + 1)
    (hhit : ((results m).found && returns (results m)) = true) : HitsCounted options returns results ↔
      (m = 0 → 0 < (results 0).hashes) ∧ (0 < m → ∑ j ∈ range (m + 1), (results j).hashes ≤ (throughput options).toNat) := by
  have hlaunched := scan_loop_launched hscan
  have hm := (hlaunched m).1 (by omega)
  refine ⟨fun hc => hc m hm hhit, fun hc k hk hkhit => ?_⟩
  have hlt := (hlaunched k).2 hk
  rcases Nat.lt_or_ge k m with hlt' | hge
  · -- the loop goes on after launch `k`
    have hgoes := hm.2 k hlt'
    rw [Nat.zero_add] at hgoes
    rw [goes_on_of_hit hkhit] at hgoes
    cases hgoes
  · obtain rfl : k = m := by omega
    exact hc

theorem evaluated_length (h : InRange options) (hscan : scan_loop options returns results fuel 0 0 = some scan) {count : Nat}
    (hlaunch : ∀ start, launch options.gpu_threads (throughput options) start =
      lanes options.gpu_threads count (start / options.gpu_threads.setWidth 64)) :
    (evaluated launch options scan).length = scan.starts.length * (16 * count) := by
  have hthreads : options.gpu_threads.toNat = 16 := by rw [h.gpu_threads]; rfl
  rw [evaluated_eq hscan, List.length_flatMap]
  simp only [hlaunch, lanes_length, hthreads, List.map_const', List.length_range, List.sum_replicate, smul_eq_mul]

/-- What is added for a pair of the first launch is less than the launch. -/
theorem Reports.first (h : InRange options) (hr : Reports launch options results) {count : Nat}
    (hcount : count ≤ 2 ^ 64)
    (hlaunch : ∀ start, launch options.gpu_threads (throughput options) start =
      lanes options.gpu_threads count (start / options.gpu_threads.setWidth 64)) :
    (results 0).hashes ≤ 16 * count := by
  rw [LaunchResult.hashes]
  split_ifs with hfound
  · obtain ⟨vcpu, hv, hmem⟩ := hr 0 hfound
    have hzero : (ofNat 64 0 * throughput options) / options.gpu_threads.setWidth 64 = ofNat 64 0 := by
      rw [h.gpu_threads, BitVec.zero_mul]
      rfl
    rw [hlaunch, hzero, mem_lanes (by omega)] at hmem
    have hthreads : options.gpu_threads.toNat = 16 := by rw [h.gpu_threads]; rfl
    rw [hthreads] at hmem
    obtain ⟨hvcpu, -, hnonce⟩ := hmem
    rw [BitVec.toNat_mul, hv, BitVec.toNat_setWidth, Nat.mul_comm 16]
    refine (mod_le _ _).trans (Nat.mul_le_mul (by omega) ?_)
    exact (mod_le _ _).trans (by omega)
  · exact Nat.zero_le _

theorem accounted_hit (h : InRange options) (hscan : scan_loop options returns results fuel 0 0 = some scan) {L m : Nat}
    (hfirst : (results 0).hashes ≤ L) (hL : (throughput options).toNat = full options → L = (throughput options).toNat)
    (hlen : scan.starts.length = m + 1) (hhit : ((results m).found && returns (results m)) = true)
    (htotal : scan.hashes_computed = ∑ j ∈ range (m + 1), (results j).hashes + m * (throughput options).toNat) :
    Accounted scan.hashes_computed (scan.starts.length * L) (scan.starts ≠ []) ↔ HitsCounted options returns results := by
  have hT := h.throughput_pos
  have hsome : scan.starts ≠ [] := fun hnil => by rw [hnil] at hlen; cases hlen
  rw [hitsCounted_iff hscan hlen hhit, hlen, htotal]
  cases m with
  | zero =>
    rw [Finset.sum_range_one, Nat.zero_mul, Nat.add_zero, Nat.zero_add, Nat.one_mul]
    exact ⟨fun ha => ⟨fun _ => ha.pos hsome, fun hlt => absurd hlt (Nat.lt_irrefl 0)⟩, fun hc => ⟨hfirst, fun _ => hc.1 rfl⟩⟩
  | succ m =>
    have hl : Launched options returns results 0 0 (m + 1) := (scan_loop_launched hscan _).1 (by omega)
    rw [hL (hl.uncut h (succ_pos m)), succ_mul (m + 1)]
    constructor
    · intro ha
      have hle := ha.le
      exact ⟨fun h0 => absurd h0 (succ_ne_zero m), fun _ => by omega⟩
    · rintro ⟨-, hle⟩
      have hle := hle (succ_pos m)
      refine ⟨by omega, fun _ => ?_⟩
      exact Nat.add_pos_right _ (Nat.mul_pos (succ_pos m) hT)

theorem hashes_of_not_found (h : r.found = false) : r.hashes = 0 := by
  rw [LaunchResult.hashes, h]
  rfl

theorem hitsCounted_of_none (hscan : scan_loop options returns results fuel 0 0 = some scan)
    (hnone : ∀ j < scan.starts.length, ((results (0 + j)).found && returns (results (0 + j))) = false) : HitsCounted options returns results := by
  intro k hk hhit
  have hmiss := hnone k ((scan_loop_launched hscan k).2 hk)
  rw [Nat.zero_add, hhit] at hmiss
  cases hmiss

/-- The launches of a scan that returns from none of them are counted as nothing more than their pairs. -/
def MissesCounted (options : ScanOptions) (returns : LaunchResult → Bool) (results : Nat → LaunchResult) : Prop :=
  (∀ k, Launched options returns results 0 0 k → ((results k).found && returns (results k)) = false) →
    ∀ k, Launched options returns results 0 0 k → (results k).hashes = 0 ∧ 16 ∣ (throughput options).toNat

theorem scanhash_credits_accounted (h : InRange options) (hr : Reports bitcredit_cpu_hash options results)
    (hscan : scanhash_credits options results fuel = some scan) :
    Accounted scan.hashes_computed (evaluated bitcredit_cpu_hash options scan).length (scan.starts ≠ []) ↔
      HitsCounted options (fun _ => true) results := by
  have hT := h.throughput_pos
  have hle := h.throughput_le
  have hgrid := h.grid
  have hlaunch := fun start => bitcredit_cpu_hash_eq options.gpu_threads (throughput options) start (by rw [hgrid]; omega)
  rw [evaluated_length h hscan hlaunch]
  rcases scan_loop_total hscan with ⟨m, hlen, hhit, htotal⟩ | ⟨hnone, htotal⟩
  · simp only [Nat.zero_add] at hhit htotal
    refine accounted_hit h hscan (hr.first h (by rw [hgrid]; omega) hlaunch) (fun huncut => ?_) hlen hhit htotal
    rw [hgrid, huncut, full]
    omega
  · refine iff_of_true ?_ (hitsCounted_of_none hscan hnone)
    have hzero : ∑ j ∈ range scan.starts.length, (results (0 + j)).hashes = 0 := by
      refine Finset.sum_eq_zero fun j hj => hashes_of_not_found ?_
      simpa using hnone j (mem_range.1 hj)
    rw [htotal, hzero, Nat.zero_add]
    refine ⟨Nat.mul_le_mul_left _ (by rw [hgrid]; omega), fun hsome => ?_⟩
    exact Nat.mul_pos (List.length_pos_iff.2 hsome) hT

theorem SHA256_run_accounted (h : InRange options) (hr : Reports scan_hash options results)
    (hscan : SHA256_run options results fuel = some scan) :
    Accounted scan.hashes_computed (evaluated scan_hash options scan).length (scan.starts ≠ []) ↔
      HitsCounted options (·.mined) results ∧ MissesCounted options (·.mined) results := by
  have hT := h.throughput_pos
  have hle := h.throughput_le
  have hcount : (throughput options / options.gpu_threads.setWidth 64).toNat = (throughput options).toNat / 16 := h.div_threads _
  have hlaunch := scan_hash_eq options.gpu_threads (throughput options)
  have hlaunched := scan_loop_launched hscan
  rw [evaluated_length h hscan hlaunch]
  rcases scan_loop_total hscan with ⟨m, hlen, hhit, htotal⟩ | ⟨hnone, htotal⟩
  · simp only [Nat.zero_add] at hhit htotal
    have hmisses : MissesCounted options (·.mined) results := by
      intro hmiss
      have hm := hmiss m ((hlaunched m).1 (by omega))
      rw [hhit] at hm
      cases hm
    rw [and_iff_left hmisses]
    refine accounted_hit h hscan (hr.first h (by rw [hcount]; omega) hlaunch) (fun huncut => ?_) hlen hhit htotal
    rw [hcount, huncut, full]
    omega
  · rw [and_iff_right (hitsCounted_of_none hscan hnone), hcount, htotal]
    simp only [Nat.zero_add] at hnone ⊢
    constructor
    · intro ha _ k hk
      have hkn := (hlaunched k).2 hk
      have hsum : (results k).hashes ≤ ∑ j ∈ range scan.starts.length, (results j).hashes :=
        Finset.single_le_sum (f := fun j => (results j).hashes) (fun _ _ => Nat.zero_le _) (mem_range.2 hkn)
      -- a launch evaluates no more pairs than its throughput
      have hlaunch_le : 16 * ((throughput options).toNat / 16) ≤ (throughput options).toNat := mul_div_le _ _
      have hmul := Nat.mul_le_mul_left scan.starts.length hlaunch_le
      have hall := ha.le
      refine ⟨by omega, ?_⟩
      have heq : scan.starts.length * (16 * ((throughput options).toNat / 16)) = scan.starts.length * (throughput options).toNat := by omega
      have hcut := Nat.eq_of_mul_eq_mul_left (by omega) heq
      omega
    · intro hmisses
      have hmisses := hmisses fun k hk => hnone k ((hlaunched k).2 hk)
      have hzero : ∑ j ∈ range scan.starts.length, (results j).hashes = 0 :=
        Finset.sum_eq_zero fun j hj => (hmisses j ((hlaunched j).1 (mem_range.1 hj))).1
      rw [hzero, Nat.zero_add]
      refine ⟨?_, fun hsome => Nat.mul_pos (List.length_pos_iff.2 hsome) hT⟩
      by_cases hsome : scan.starts.length = 0
      · simp [hsome]
      · have hdvd := (hmisses 0 ((hlaunched 0).1 (by omega))).2
        rw [Nat.mul_div_cancel' hdvd]

theorem scan_loop_nothing (hmax : ¬ 0 < options.max_iterations.toInt) (hscan : scan_loop options returns results fuel 0 0 = some scan) :
    scan.starts = [] ∧ scan.hashes_computed = 0 ∧ ∀ k, ¬ Launched options returns results 0 0 k := by
  have hnot : ∀ k, ¬ Launched options returns results 0 0 k := by
    intro k hk
    have hfirst := hk.1 0 (Nat.zero_le k)
    rw [BitVec.slt_iff_toInt_lt] at hfirst
    exact hmax (by simpa using hfirst)
  have hnil : scan.starts = [] := by
    rw [← List.length_eq_zero_iff]
    by_contra hne
    exact hnot 0 ((scan_loop_launched hscan 0).1 (Nat.pos_of_ne_zero hne))
  refine ⟨hnil, ?_, hnot⟩
  rcases scan_loop_total hscan with ⟨m, hlen, -, -⟩ | ⟨-, htotal⟩
  · rw [hnil] at hlen
    cases hlen
  · rw [htotal, hnil]
    simp

end Gpu

/-- What the CPU miner counts is right. What a GPU miner counts is right exactly if a pair that it returns is not counted as nothing in the
first launch, the pairs found up to a later launch are counted as no more than a throughput, and, with OpenCL, a scan that returns
nothing is counted neither for unconfirmed pairs nor for pairs that the work size leaves out. -/
theorem hashes_accounted (S : Sha256Api) (options : Options) (ticks : Nat → Tick) (random : Vector Byte 32) (gpu_options : ScanOptions)
    (results : Nat → LaunchResult) (fuel : Nat) (scan : Scan) (hfactor : 1 ≤ gpu_options.factor.toNat)
    (hle : gpu_options.factor.toNat ≤ 16384) (hthreads : gpu_options.gpu_threads = 16) :
    ((run S options ticks random).2 ≤ (run_trace S options ticks random).length ∧ ((run S options ticks random).1 ≠ .overrun →
      Accounted (run S options ticks random).2 (run_trace S options ticks random).length (2 ≤ (run_trace S options ticks random).length))) ∧
    (Reports bitcredit_cpu_hash gpu_options results → scanhash_credits gpu_options results fuel = some scan →
      (Accounted scan.hashes_computed (evaluated bitcredit_cpu_hash gpu_options scan).length (scan.starts ≠ []) ↔
        HitsCounted gpu_options (fun _ => true) results)) ∧
    (Reports scan_hash gpu_options results → SHA256_run gpu_options results fuel = some scan →
      (Accounted scan.hashes_computed (evaluated scan_hash gpu_options scan).length (scan.starts ≠ []) ↔
        HitsCounted gpu_options (·.mined) results ∧ MissesCounted gpu_options (·.mined) results)) := by
  refine ⟨run_accounted random, ?_⟩
  by_cases hmax : 0 < gpu_options.max_iterations.toInt
  · have h : InRange gpu_options := ⟨hfactor, hle, hmax, hthreads⟩
    exact ⟨scanhash_credits_accounted h, SHA256_run_accounted h⟩
  · constructor
    · intro _ hscan
      obtain ⟨hnil, hzero, hnot⟩ := scan_loop_nothing hmax hscan
      refine iff_of_true ⟨hzero ▸ Nat.zero_le _, fun hne => absurd hnil hne⟩ fun k hk => absurd hk (hnot k)
    · intro _ hscan
      obtain ⟨hnil, hzero, hnot⟩ := scan_loop_nothing hmax hscan
      refine iff_of_true ⟨hzero ▸ Nat.zero_le _, fun hne => absurd hnil hne⟩ ⟨fun k hk => absurd hk (hnot k), fun _ k hk => absurd hk (hnot k)⟩

/-- Nothing but one pair in launch `j`. -/
def hit_at (j : Nat) (nonce vcpu : U64) (k : Nat) : LaunchResult := if k = j then ⟨nonce, vcpu, true, false, false⟩ else nothing

theorem hit_at_reports {options : ScanOptions} {launch : U32 → U64 → U64 → List (U32 × U64)} {j : Nat} {nonce : U64} (vcpu : U32)
    (h : (vcpu, nonce) ∈ launch options.gpu_threads (throughput options) (ofNat 64 j * throughput options)) :
    Reports launch options (hit_at j nonce (vcpu.setWidth 64)) := by
  intro k hfound
  rw [hit_at] at hfound ⊢
  split_ifs at hfound ⊢ with hk
  · subst hk
    exact ⟨vcpu, rfl, h⟩
  · cases hfound

theorem mem_first_launch {vcpu : U32} {nonce : U64} (hv : vcpu.toNat < 16) (hn : nonce.toNat < 512) :
    (vcpu, nonce) ∈ bitcredit_cpu_hash 16 (throughput ⟨1, 0x2000, 16⟩) (ofNat 64 0 * throughput ⟨1, 0x2000, 16⟩) ∧
      (vcpu, nonce) ∈ scan_hash 16 (throughput ⟨1, 0x2000, 16⟩) (ofNat 64 0 * throughput ⟨1, 0x2000, 16⟩) := by
  have hcut : throughput ⟨1, 0x2000, 16⟩ = 0x2000 := by decide
  have hblock : (grid 16 0x2000).toNat = 1 := by decide
  have hstart : ofNat 64 0 * 0x2000 / (16 : U32).setWidth 64 = ofNat 64 0 := by decide
  have hmem : (vcpu, nonce) ∈ lanes 16 512 (ofNat 64 0) := (mem_lanes (by decide)).2 ⟨hv, Nat.zero_le _, by omega⟩
  rw [hcut, bitcredit_cpu_hash_eq _ _ _ (by rw [hblock]; decide), scan_hash_eq, hblock, hstart]
  exact ⟨hmem, hmem⟩

/-- The one launch finds a pair, which is counted as the product of its parts. -/
theorem hashes_accounted_hit :
    Accounted 15 (evaluated bitcredit_cpu_hash ⟨1, 0x2000, 16⟩ ⟨[0], 15, .hit⟩).length True ∧
      Accounted 15 (evaluated scan_hash ⟨1, 0x2000, 16⟩ ⟨[0], 15, .hit⟩).length True := by
  obtain ⟨-, hcuda, hopencl⟩ := hashes_accounted Sha256Api.absorbing
    ⟨⟨-1, true, Vector.replicate 32 7⟩, Vector.replicate 16 5, Vector.replicate 32 0xff, 1⟩ (fun _ => ⟨false, false, 100⟩)
    (Vector.replicate 32 0) ⟨1, 0x2000, 16⟩ (hit_at 0 5 3) 2 ⟨[0], 15, .hit⟩ (by decide) (by decide) rfl
  have hhits : ∀ returns, HitsCounted ⟨1, 0x2000, 16⟩ returns (hit_at 0 5 3) := by
    rintro returns (_ | k) _ hhit
    · exact ⟨fun _ => by decide, fun h => absurd h (lt_irrefl 0)⟩
    · cases hhit
  have hmisses : MissesCounted ⟨1, 0x2000, 16⟩ (·.mined) (hit_at 0 5 3) := by
    intro hmiss
    exact absurd (hmiss 0 (launched_zero.2 (by decide))) (by decide)
  obtain ⟨hmem, hmem'⟩ := mem_first_launch (show (3 : U32).toNat < 16 by decide) (show (5 : U64).toNat < 512 by decide)
  have hc := (hcuda (hit_at_reports 3 hmem) rfl).2 (hhits _)
  have ho := (hopencl (hit_at_reports 3 hmem') rfl).2 ⟨hhits _, hmisses⟩
  exact ⟨⟨hc.le, fun _ => hc.pos (by simp)⟩, ⟨ho.le, fun _ => ho.pos (by simp)⟩⟩

/-- The CUDA scan that returns the last pair of its second launch counts more than a million and a half hashes for the million that it
launched, and one that returns the second pair of its first launch counts none. -/
theorem credits_inflated :
    (Reports bitcredit_cpu_hash ⟨1, 0x100000, 16⟩ (hit_at 1 0xffff 15) ∧
      scanhash_credits ⟨1, 0x100000, 16⟩ (hit_at 1 0xffff 15) 3 = some ⟨[0, 0x80000], 0x16fff1, .hit⟩ ∧
      ¬ Accounted 0x16fff1 (evaluated bitcredit_cpu_hash ⟨1, 0x100000, 16⟩ ⟨[0, 0x80000], 0x16fff1, .hit⟩).length True) ∧
    Reports bitcredit_cpu_hash ⟨1, 0x2000, 16⟩ (hit_at 0 1 0) ∧
      scanhash_credits ⟨1, 0x2000, 16⟩ (hit_at 0 1 0) 2 = some ⟨[0], 0, .hit⟩ := by
  have hgrid : (grid 16 0x80000).toNat = 64 := by decide
  have hlanes := fun start => bitcredit_cpu_hash_eq 16 0x80000 start (by rw [hgrid]; decide)
  have hthroughput : throughput ⟨1, 0x100000, 16⟩ = 0x80000 := by decide
  refine ⟨⟨hit_at_reports 15 ?_, rfl, fun ha => ?_⟩, hit_at_reports 0 ?_, rfl⟩
  · have hstart : ofNat 64 1 * 0x80000 / (16 : U32).setWidth 64 = ofNat 64 0x8000 := by decide
    rw [hthroughput, hlanes, hgrid, hstart, mem_lanes (by decide)]
    decide
  · have hle := ha.le
    rw [evaluated, List.length_flatMap, hthroughput] at hle
    simp only [List.map_cons, List.map_nil, List.sum_cons, List.sum_nil, hlanes, lanes_length, hgrid] at hle
    exact absurd hle (by decide)
  · exact (mem_first_launch (by decide) (by decide)).1

end Ton.Miner
