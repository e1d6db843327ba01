import Ton.Miner.Search
/-!
# The scan loops of the GPU miners

`scanhash_credits` with `bitcredit_cpu_hash`, and `SHA256::run` with
`OpenCL::scan_hash`: launches that go over the nonces of every `vcpu`. The CUDA grid
is rounded up to whole blocks, the OpenCL work size is rounded down, and the loop
counter is an `int64`.
-/

namespace Ton.Miner
open List BitVec Bool Nat

/-- What the loops read of the options; `max_iterations` is an `int64`, given by its bits. -/
structure ScanOptions where
  factor : U64
  max_iterations : U64
  gpu_threads : U32

/-- What is compared with `max_iterations` is unsigned. -/
def throughput (options : ScanOptions) : U64 :=
  let throughput := 0x80000 * options.factor
  if options.max_iterations < throughput then options.max_iterations else throughput

/-- What comes back from a launch, whether `build_mine_result` returns a message for it, and what the loop reads after it. -/
structure LaunchResult where
  nonce : U64
  vcpu : U64
  mined : Bool
  cancelled : Bool
  expired : Bool

def LaunchResult.found (r : LaunchResult) : Bool := r.nonce ≠ BitVec.allOnes 64 ∧ r.vcpu ≠ BitVec.allOnes 64

/-- What a found pair adds to `hashes_computed`. -/
def LaunchResult.hashes (r : LaunchResult) : Nat := if r.found then (r.nonce * r.vcpu).toNat else 0

inductive Ending where
  | hit
  | cancelled
  | expired
  | exhausted
  deriving DecidableEq

/-- The start nonces of the launches, what was added to `hashes_computed`, and how the loop ended. -/
structure Scan where
  starts : List U64
  hashes_computed : Nat
  ending : Ending

/-- The loop from launch `k` on, which starts at `i`. `none` when it is still running after `fuel` launches. -/
def scan_loop (options : ScanOptions) (returns : LaunchResult → Bool) (results : Nat → LaunchResult) : Nat → Nat → U64 → Option Scan
  | 0, _, _ => none
  | fuel + 1, k, i =>
    if i.slt options.max_iterations then
      let r := results k
      if r.found && returns r then some ⟨[i], r.hashes, .hit⟩
      else
        let added := r.hashes + (throughput options).toNat
        if r.cancelled then some ⟨[i], added, .cancelled⟩
        else if r.expired then some ⟨[i], added, .expired⟩
        else (scan_loop options returns results fuel (k + 1) (i + throughput options)).map fun scan =>
          { scan with starts := i :: scan.starts, hashes_computed := added + scan.hashes_computed }
    else some ⟨[], 0, .exhausted⟩

/-- The first found pair is returned. -/
def scanhash_credits (options : ScanOptions) (results : Nat → LaunchResult) (fuel : Nat) : Option Scan :=
  scan_loop options (fun _ => true) results fuel 0 0

/-- A found pair is returned if it is confirmed. -/
def SHA256_run (options : ScanOptions) (results : Nat → LaunchResult) (fuel : Nat) : Option Scan :=
  scan_loop options (·.mined) results fuel 0 0

/-! ## The pairs that a launch evaluates -/

/-- The number of blocks in a row of the grid. -/
def grid (gpu_threads : U32) (threads : U64) : U32 :=
  let threads_per_gpu_threads_block : U32 := 512 * gpu_threads
  ((threads + threads_per_gpu_threads_block.setWidth 64 - 1) / threads_per_gpu_threads_block.setWidth 64).setWidth 32

/-- The pairs of `vcpu` and nonce of a CUDA launch. -/
def bitcredit_cpu_hash (gpu_threads : U32) (threads start_nonce : U64) : List (U32 × U64) :=
  (List.range gpu_threads.toNat).flatMap fun vcpu => (List.range (grid gpu_threads threads).toNat).flatMap fun block =>
    (List.range 512).map fun thread =>
      (BitVec.ofNat 32 vcpu, start_nonce / gpu_threads.setWidth 64 + (BitVec.ofNat 32 block * 512 + BitVec.ofNat 32 thread : U32).setWidth 64)

/-- The pairs of an OpenCL launch; a work size of zero evaluates none. -/
def scan_hash (gpu_threads : U32) (threads start_nonce : U64) : List (U32 × U64) :=
  (List.range gpu_threads.toNat).flatMap fun vcpu => (List.range (threads / gpu_threads.setWidth 64).toNat).map fun id =>
    (BitVec.ofNat 32 vcpu, start_nonce / gpu_threads.setWidth 64 + BitVec.ofNat 64 id)

/-- All pairs of the launches of a scan. -/
def evaluated (launch : U32 → U64 → U64 → List (U32 × U64)) (options : ScanOptions) (scan : Scan) : List (U32 × U64) :=
  scan.starts.flatMap (launch options.gpu_threads (throughput options))

/-- What a scan is to evaluate: no pair twice, for each `vcpu` the first nonces, and enough pairs. -/
structure Covers (options : ScanOptions) (pairs : List (U32 × U64)) : Prop where
  once : pairs.Nodup
  first : ∀ vcpu : U32, vcpu.toNat < options.gpu_threads.toNat → ∃ N, ∀ nonce : U64, (vcpu, nonce) ∈ pairs ↔ nonce.toNat < N
  enough : options.max_iterations.toInt ≤ pairs.length

/-- One more launch never takes the counter out of an `int64`. -/
def NoWrap (options : ScanOptions) : Prop :=
  (options.max_iterations.toNat + (throughput options).toNat - 1) / (throughput options).toNat * (throughput options).toNat < 2 ^ 63

/-! ## Lanes -/

/-- Every `vcpu` with `count` nonces from `start` on. -/
def lanes (gpu_threads : U32) (count : Nat) (start : U64) : List (U32 × U64) :=
  (List.range gpu_threads.toNat).flatMap fun vcpu => (List.range count).map fun id => (BitVec.ofNat 32 vcpu, start + BitVec.ofNat 64 id)

theorem lanes_length (gpu_threads : U32) (count : Nat) (start : U64) : (lanes gpu_threads count start).length = gpu_threads.toNat * count := by
  simp [lanes, length_flatMap]

theorem mem_lanes {gpu_threads vcpu : U32} {count a : Nat} {nonce : U64} (h : a + count ≤ 2 ^ 64) :
    (vcpu, nonce) ∈ lanes gpu_threads count (BitVec.ofNat 64 a) ↔ vcpu.toNat < gpu_threads.toNat ∧ a ≤ nonce.toNat ∧ nonce.toNat < a + count := by
  simp only [lanes, mem_flatMap, mem_range, mem_map, Prod.mk.injEq]
  constructor
  · rintro ⟨v, hv, id, hid, rfl, rfl⟩
    rw [toNat_ofNat, mod_eq_of_lt (hv.trans gpu_threads.isLt), ← ofNat_add, toNat_ofNat, mod_eq_of_lt (by omega)]
    exact ⟨hv, Nat.le_add_right .., Nat.add_lt_add_left hid a⟩
  · rintro ⟨hv, hle, hlt⟩
    refine ⟨vcpu.toNat, hv, nonce.toNat - a, by omega, by simp, ?_⟩
    rw [← ofNat_add, Nat.add_sub_cancel' hle]
    simp

theorem lanes_nodup {gpu_threads : U32} {count a : Nat} (h : a + count ≤ 2 ^ 64) : (lanes gpu_threads count (BitVec.ofNat 64 a)).Nodup := by
  rw [lanes, nodup_flatMap]
  constructor
  · intro vcpu _
    refine Nodup.map_on (fun x hx y hy hxy => ?_) nodup_range
    rw [mem_range] at hx hy
    have hnat := congrArg BitVec.toNat (Prod.mk.inj hxy).2
    rw [← ofNat_add, ← ofNat_add, toNat_ofNat, toNat_ofNat, mod_eq_of_lt (by omega), mod_eq_of_lt (by omega)] at hnat
    omega
  · refine Pairwise.imp_of_mem (fun {v w} hv hw hne => ?_) nodup_range
    rw [mem_range] at hv hw
    rintro p hp hq
    obtain ⟨x, -, rfl⟩ := mem_map.1 hp
    obtain ⟨y, -, heq⟩ := mem_map.1 hq
    have hnat := congrArg BitVec.toNat (Prod.mk.inj heq).1
    rw [toNat_ofNat, toNat_ofNat, mod_eq_of_lt (hv.trans gpu_threads.isLt), mod_eq_of_lt (hw.trans gpu_threads.isLt)] at hnat
    exact hne hnat.symm

/-- Launches one after the other evaluate the first nonces of every `vcpu`. -/
theorem covers_lanes {options : ScanOptions} {count launches : Nat} (h : launches * count ≤ 2 ^ 64)
    (hmax : options.max_iterations.toInt ≤ (launches * (options.gpu_threads.toNat * count) : Nat)) :
    Covers options ((List.range launches).flatMap fun k => lanes options.gpu_threads count (BitVec.ofNat 64 (k * count))) := by
  have hlast : ∀ k < launches, k * count + count ≤ 2 ^ 64 := by
    intro k hk
    have hle := Nat.mul_le_mul_right count (succ_le_of_lt hk)
    rw [Nat.succ_mul] at hle
    omega
  refine ⟨?_, fun vcpu hv => ⟨launches * count, fun nonce => ?_⟩, ?_⟩
  · rw [nodup_flatMap]
    refine ⟨fun k hk => lanes_nodup (hlast k (mem_range.1 hk)), ?_⟩
    refine Pairwise.imp_of_mem (fun {k l} hk hl hlt => ?_) pairwise_lt_range
    rintro ⟨vcpu, nonce⟩ hp hq
    obtain ⟨-, -, hlt'⟩ := (mem_lanes (hlast k (mem_range.1 hk))).1 hp
    obtain ⟨-, hle, -⟩ := (mem_lanes (hlast l (mem_range.1 hl))).1 hq
    have hmul := Nat.mul_le_mul_right count (succ_le_of_lt hlt)
    rw [Nat.succ_mul] at hmul
    omega
  · rw [mem_flatMap]
    constructor
    · rintro ⟨k, hk, hmem⟩
      obtain ⟨-, -, hlt⟩ := (mem_lanes (hlast k (mem_range.1 hk))).1 hmem
      have hmul := Nat.mul_le_mul_right count (succ_le_of_lt (mem_range.1 hk))
      rw [Nat.succ_mul] at hmul
      omega
    · intro hlt
      have hcount : 0 < count := Nat.pos_of_ne_zero fun h0 => by rw [h0] at hlt; exact absurd hlt (Nat.not_lt_zero _)
      have hk : nonce.toNat / count < launches := (Nat.div_lt_iff_lt_mul hcount).2 hlt
      refine ⟨nonce.toNat / count, mem_range.2 hk, (mem_lanes (hlast _ hk)).2 ⟨hv, div_mul_le_self .., ?_⟩⟩
      have hmod := mod_lt nonce.toNat hcount
      have hdiv := div_add_mod nonce.toNat count
      rw [Nat.mul_comm] at hdiv
      omega
  · refine hmax.trans (le_of_eq ?_)
    rw [length_flatMap]
    simp [lanes_length]

theorem flatMap_range_mul {α : Type} (f : Nat → α) (blocks size : Nat) :
    ((List.range blocks).flatMap fun block => (List.range size).map fun x => f (block * size + x)) = (List.range (blocks * size)).map f := by
  induction blocks with
  | zero => simp
  | succ blocks ih =>
    rw [List.range_succ, flatMap_append, ih, Nat.succ_mul, range_add, map_append]
    simp

theorem scan_hash_eq (gpu_threads : U32) (threads start_nonce : U64) : scan_hash gpu_threads threads start_nonce =
    lanes gpu_threads (threads / gpu_threads.setWidth 64).toNat (start_nonce / gpu_threads.setWidth 64) := rfl

theorem bitcredit_cpu_hash_eq (gpu_threads : U32) (threads start_nonce : U64) (h : (grid gpu_threads threads).toNat * 512 ≤ 2 ^ 32) :
    bitcredit_cpu_hash gpu_threads threads start_nonce =
      lanes gpu_threads ((grid gpu_threads threads).toNat * 512) (start_nonce / gpu_threads.setWidth 64) := by
  rw [bitcredit_cpu_hash, lanes]
  refine flatMap_congr fun vcpu _ => ?_
  rw [← flatMap_range_mul]
  refine flatMap_congr fun block hblock => map_congr_left fun thread hthread => ?_
  rw [mem_range] at hblock hthread
  congr 2
  have h512 : (512 : U32).toNat = 512 := rfl
  refine eq_of_toNat_eq ?_
  simp only [toNat_setWidth, toNat_add, toNat_mul, toNat_ofNat, h512]
  omega

/-! ## The launches of a scan -/

section Loop
variable {options : ScanOptions} {returns : LaunchResult → Bool} {results : Nat → LaunchResult} {fuel k : Nat} {i : U64} {scan : Scan}

/-- After a launch reported as `r` the loop goes on. -/
def LaunchResult.goes_on (returns : LaunchResult → Bool) (r : LaunchResult) : Bool := !(r.found && returns r || r.cancelled || r.expired)

/-- The loop ends by itself, or with this launch, or goes on after it. -/
theorem scan_loop_cases (h : scan_loop options returns results (fuel + 1) k i = some scan) :
    (i.slt options.max_iterations = false ∧ scan = ⟨[], 0, .exhausted⟩) ∨
    (i.slt options.max_iterations = true ∧ ((results k).found && returns (results k)) = true ∧ scan = ⟨[i], (results k).hashes, .hit⟩) ∨
    (i.slt options.max_iterations = true ∧ ((results k).found && returns (results k)) = false ∧ (results k).goes_on returns = false ∧
      ∃ ending, ending ≠ .exhausted ∧ scan = ⟨[i], (results k).hashes + (throughput options).toNat, ending⟩) ∨
    (i.slt options.max_iterations = true ∧ (results k).goes_on returns = true ∧
      ∃ rest, scan_loop options returns results fuel (k + 1) (i + throughput options) = some rest ∧
      scan = ⟨i :: rest.starts, (results k).hashes + (throughput options).toNat + rest.hashes_computed, rest.ending⟩) := by
  unfold scan_loop at h
  dsimp only at h
  split_ifs at h with hlt hhit hcancelled hexpired
  · cases h
    exact .inr (.inl ⟨hlt, hhit, rfl⟩)
  · cases h
    exact .inr (.inr (.inl ⟨hlt, not_eq_true _ ▸ hhit, by simp [LaunchResult.goes_on, hcancelled], .cancelled, fun h => (by cases h), rfl⟩))
  · cases h
    exact .inr (.inr (.inl ⟨hlt, not_eq_true _ ▸ hhit, by simp [LaunchResult.goes_on, hexpired], .expired, fun h => (by cases h), rfl⟩))
  · obtain ⟨rest, hrest, rfl⟩ := Option.map_eq_some_iff.1 h
    refine .inr (.inr (.inr ⟨hlt, ?_, rest, hrest, rfl⟩))
    rw [not_eq_true] at hhit hcancelled hexpired
    rw [LaunchResult.goes_on, hhit, hcancelled, hexpired]
    rfl
  · cases h
    exact .inl ⟨not_eq_true _ ▸ hlt, rfl⟩

theorem next_start (i T : U64) (j : Nat) : i + BitVec.ofNat 64 (j + 1) * T = i + T + BitVec.ofNat 64 j * T := by
  rw [ofNat_add, BitVec.add_mul, BitVec.one_mul, BitVec.add_assoc, BitVec.add_comm T]

theorem scan_loop_starts (h : scan_loop options returns results fuel k i = some scan) :
    scan.starts = (List.range scan.starts.length).map fun j => i + BitVec.ofNat 64 j * throughput options := by
  induction fuel generalizing k i scan with
  | zero => cases h
  | succ fuel ih =>
    rcases scan_loop_cases h with ⟨-, rfl⟩ | ⟨-, -, rfl⟩ | ⟨-, -, -, ending, -, rfl⟩ | ⟨-, -, rest, hrest, rfl⟩
    · rfl
    · simp
    · simp
    · rw [length_cons, range_succ_eq_map, map_cons, map_map]
      refine cons_eq_cons.2 ⟨by simp, (ih hrest).trans (map_congr_left fun j _ => ?_)⟩
      exact (next_start i (throughput options) j).symm

/-- A scan that ends by itself launches while the counter is below the bound. -/
theorem scan_loop_exhausted (h : scan_loop options returns results fuel k i = some scan) (hend : scan.ending = .exhausted) :
    (∀ j < scan.starts.length, (i + BitVec.ofNat 64 j * throughput options).slt options.max_iterations = true) ∧
      (i + BitVec.ofNat 64 scan.starts.length * throughput options).slt options.max_iterations = false := by
  induction fuel generalizing k i scan with
  | zero => cases h
  | succ fuel ih =>
    rcases scan_loop_cases h with ⟨hlt, rfl⟩ | ⟨-, -, rfl⟩ | ⟨-, -, -, ending, hne, rfl⟩ | ⟨hlt, -, rest, hrest, rfl⟩
    · refine ⟨fun j hj => absurd hj (Nat.not_lt_zero j), ?_⟩
      simpa using hlt
    · cases hend
    · exact absurd hend hne
    · obtain ⟨hall, hlast⟩ := ih hrest hend
      refine ⟨fun j hj => ?_, ?_⟩
      · cases j with
        | zero => simpa using hlt
        | succ j =>
          rw [next_start]
          exact hall j (by simpa using hj)
      · rw [length_cons, next_start]
        exact hlast

end Loop

/-! ## The coverage -/

section Coverage
variable {options : ScanOptions} {scan : Scan}

/-- The boost factors and bounds of a miner with sixteen GPU threads. -/
structure InRange (options : ScanOptions) : Prop where
  factor_pos : 1 ≤ options.factor.toNat
  factor_le : options.factor.toNat ≤ 16384
  max_pos : 0 < options.max_iterations.toInt
  gpu_threads : options.gpu_threads = 16

/-- The number of pairs of a launch that is not cut to `max_iterations`. -/
def full (options : ScanOptions) : Nat := 524288 * options.factor.toNat

theorem InRange.max (h : InRange options) : 0 < options.max_iterations.toNat ∧ options.max_iterations.toNat < 2 ^ 63 ∧
    options.max_iterations.toInt = options.max_iterations.toNat := by
  have hpos := h.max_pos
  have hlt := options.max_iterations.isLt
  rw [toInt_eq_toNat_cond] at hpos ⊢
  split_ifs at hpos ⊢ <;> omega

theorem InRange.throughput_eq (h : InRange options) : (throughput options).toNat = min options.max_iterations.toNat (full options) := by
  have hfull : ((0x80000 : U64) * options.factor).toNat = full options := by
    have h1 : (0x80000 : U64).toNat = 524288 := rfl
    have h2 := h.factor_le
    rw [toNat_mul, h1, full]
    omega
  unfold throughput
  dsimp only
  split_ifs with hlt
  · rw [lt_def, hfull] at hlt
    omega
  · rw [lt_def, hfull] at hlt
    omega

theorem InRange.slt (h : InRange options) (x : U64) :
    x.slt options.max_iterations = true ↔ x.toNat < options.max_iterations.toNat ∨ 2 ^ 63 ≤ x.toNat := by
  obtain ⟨hpos, hlt, hint⟩ := h.max
  have hx := x.isLt
  rw [slt_iff_toInt_lt, hint, toInt_eq_toNat_cond]
  split_ifs <;> omega

theorem counter_toNat (options : ScanOptions) (j : Nat) : (0 + BitVec.ofNat 64 j * throughput options).toNat =
    j * (throughput options).toNat % 2 ^ 64 := by
  rw [zero_add, toNat_mul, toNat_ofNat, mod_mul_mod]

/-- What the end of a scan says of the number of its launches. -/
structure Exhausted (options : ScanOptions) (launches : Nat) : Prop where
  below : ∀ j < launches, j * (throughput options).toNat % 2 ^ 64 < options.max_iterations.toNat ∨ 2 ^ 63 ≤ j * (throughput options).toNat % 2 ^ 64
  above : options.max_iterations.toNat ≤ launches * (throughput options).toNat % 2 ^ 64 ∧ launches * (throughput options).toNat % 2 ^ 64 < 2 ^ 63

variable {returns : LaunchResult → Bool} {results : Nat → LaunchResult}

theorem InRange.exhausted (h : InRange options) {fuel : Nat}
    (hscan : scan_loop options returns results fuel 0 0 = some scan) (hend : scan.ending = .exhausted) : Exhausted options scan.starts.length := by
  obtain ⟨hall, hlast⟩ := scan_loop_exhausted hscan hend
  constructor
  · intro j hj
    rw [← counter_toNat, ← h.slt]
    exact hall j hj
  · have hnot := (not_congr (h.slt _)).1 (by rw [hlast]; exact Bool.false_ne_true)
    rw [counter_toNat] at hnot
    omega

/-- The number of launches that reach `max_iterations`. -/
def rounds (options : ScanOptions) : Nat := (options.max_iterations.toNat + (throughput options).toNat - 1) / (throughput options).toNat

theorem InRange.throughput_pos (h : InRange options) : 0 < (throughput options).toNat := by
  have h1 := h.max
  have h2 := h.factor_pos
  rw [h.throughput_eq, full]
  omega

theorem InRange.rounds_le (h : InRange options) (k : Nat) : rounds options ≤ k ↔ options.max_iterations.toNat ≤ k * (throughput options).toNat := by
  have hT := h.throughput_pos
  rw [← Nat.lt_succ_iff, rounds, Nat.div_lt_iff_lt_mul hT, Nat.succ_mul]
  omega

/-- Without a wrap the scan stops at the first launch that reaches `max_iterations`. -/
theorem Exhausted.launches_eq {launches : Nat} (he : Exhausted options launches) (h : InRange options) (hno : NoWrap options) :
    launches = rounds options := by
  have hno : rounds options * (throughput options).toNat < 2 ^ 63 := hno
  have hle := (h.rounds_le (rounds options)).1 (Nat.le_refl _)
  rcases Nat.lt_trichotomy launches (rounds options) with hlt | heq | hgt
  · have hbelow := (not_congr (h.rounds_le launches)).1 (Nat.not_le_of_lt hlt)
    have habove := he.above
    rw [mod_eq_of_lt (by omega)] at habove
    omega
  · exact heq
  · have hbelow := he.below _ hgt
    rw [mod_eq_of_lt (by omega)] at hbelow
    omega

/-- A scan whose counter wraps around starts again among the nonces of its first launch. -/
theorem Exhausted.wraps {launches : Nat} (he : Exhausted options launches) (h : InRange options) (hwrap : ¬ NoWrap options) :
    full options ≤ options.max_iterations.toNat ∧ ∃ k, 0 < k ∧ k < launches ∧ k * (throughput options).toNat % 2 ^ 64 < (throughput options).toNat := by
  have hwrap : ¬ rounds options * (throughput options).toNat < 2 ^ 63 := hwrap
  have hT := h.throughput_pos
  have hmin := h.throughput_eq
  obtain ⟨hpos, hmax, -⟩ := h.max
  have hfull : full options ≤ options.max_iterations.toNat := by
    by_contra hlt
    have hone : rounds options ≤ 1 := (h.rounds_le 1).2 (by omega)
    have hle := Nat.mul_le_mul_right (throughput options).toNat hone
    omega
  have hsmall : (throughput options).toNat ≤ 2 ^ 33 := by
    have hle := h.factor_le
    rw [hmin, full]
    omega
  refine ⟨hfull, (2 ^ 64 + (throughput options).toNat - 1) / (throughput options).toNat, ?_, ?_, ?_⟩
  · exact Nat.div_pos (by omega) hT
  all_goals
    have hdiv := div_add_mod (2 ^ 64 + (throughput options).toNat - 1) (throughput options).toNat
    have hmod := mod_lt (2 ^ 64 + (throughput options).toNat - 1) hT
    rw [Nat.mul_comm] at hdiv
    generalize (2 ^ 64 + (throughput options).toNat - 1) / (throughput options).toNat = k at hdiv ⊢
  · by_contra hge
    have hmul := Nat.mul_le_mul_right (throughput options).toNat (Nat.not_lt.1 hge)
    have habove := he.above
    rcases Nat.lt_or_ge (launches * (throughput options).toNat) (2 ^ 64) with hlt | hlarge
    · -- it would have stopped before the wrap
      rw [mod_eq_of_lt hlt] at habove
      have hle := Nat.mul_le_mul_right (throughput options).toNat ((h.rounds_le launches).2 habove.1)
      omega
    · omega
  · omega

theorem evaluated_eq {fuel : Nat}
    (hscan : scan_loop options returns results fuel 0 0 = some scan) (launch : U32 → U64 → U64 → List (U32 × U64)) :
    evaluated launch options scan = (List.range scan.starts.length).flatMap fun j =>
      launch options.gpu_threads (throughput options) (0 + BitVec.ofNat 64 j * throughput options) := by
  rw [evaluated]
  conv_lhs => rw [scan_loop_starts hscan]
  rw [flatMap_map]

section
variable (h : InRange options)
include h

theorem InRange.div_threads (x : U64) : (x / options.gpu_threads.setWidth 64).toNat = x.toNat / 16 := by
  rw [h.gpu_threads]
  rfl

theorem InRange.throughput_le : (throughput options).toNat ≤ 2 ^ 33 := by
  have hle := h.factor_le
  rw [h.throughput_eq, full]
  omega

/-- A launch of a scan that does not wrap starts where the one before ended. -/
theorem InRange.start {count j : Nat} (hj : j < rounds options)
    (hcount : full options ≤ options.max_iterations.toNat → 16 * count = (throughput options).toNat) :
    (0 + BitVec.ofNat 64 j * throughput options) / options.gpu_threads.setWidth 64 = BitVec.ofNat 64 (j * count) := by
  have hlt := (not_congr (h.rounds_le j)).1 (Nat.not_le_of_lt hj)
  obtain ⟨-, hmax, -⟩ := h.max
  refine eq_of_toNat_eq ?_
  rw [h.div_threads, counter_toNat, mod_eq_of_lt (by omega), toNat_ofNat]
  by_cases hfull : full options ≤ options.max_iterations.toNat
  · have h16 : j * (throughput options).toNat = 16 * (j * count) := by rw [← hcount hfull, Nat.mul_left_comm]
    rw [h16] at hlt ⊢
    rw [mod_eq_of_lt (by omega), Nat.mul_div_cancel_left _ (by omega)]
  · have hone : rounds options ≤ 1 := (h.rounds_le 1).2 (by rw [h.throughput_eq]; omega)
    obtain rfl : j = 0 := by omega
    simp

/-- What is left to show of a back end, where every launch has `count` nonces for each `vcpu`. -/
theorem InRange.covers {returns : LaunchResult → Bool} {results : Nat → LaunchResult} {fuel : Nat} (count : Nat)
    {launch : U32 → U64 → U64 → List (U32 × U64)} (hscan : scan_loop options returns results fuel 0 0 = some scan) (hend : scan.ending = .exhausted)
    (hlaunch : ∀ start, launch options.gpu_threads (throughput options) start =
      lanes options.gpu_threads count (start / options.gpu_threads.setWidth 64))
    (hsmall : count ≤ 2 ^ 32) (hcount : full options ≤ options.max_iterations.toNat → 16 * count = (throughput options).toNat) :
    Covers options (evaluated launch options scan) ↔ NoWrap options ∧ options.max_iterations.toNat ≤ rounds options * (16 * count) := by
  have he := h.exhausted hscan hend
  obtain ⟨hpos, hmax, hint⟩ := h.max
  have hthreads : options.gpu_threads.toNat = 16 := by rw [h.gpu_threads]; rfl
  rw [evaluated_eq hscan]
  simp only [hlaunch]
  by_cases hno : NoWrap options
  · have heq : ((List.range scan.starts.length).flatMap fun j =>
        lanes options.gpu_threads count ((0 + BitVec.ofNat 64 j * throughput options) / options.gpu_threads.setWidth 64)) =
        (List.range (rounds options)).flatMap fun j => lanes options.gpu_threads count (BitVec.ofNat 64 (j * count)) := by
      rw [he.launches_eq h hno]
      refine flatMap_congr fun j hj => ?_
      rw [h.start (mem_range.1 hj) hcount]
    rw [heq, and_iff_right hno]
    constructor
    · intro hcovers
      have henough := hcovers.enough
      rw [hint, length_flatMap] at henough
      simp only [lanes_length, hthreads, map_const', length_range, sum_replicate, smul_eq_mul] at henough
      exact_mod_cast henough
    · intro henough
      refine covers_lanes ?_ (by rw [hint, hthreads]; exact_mod_cast henough)
      have hno : rounds options * (throughput options).toNat < 2 ^ 63 := hno
      by_cases hfull : full options ≤ options.max_iterations.toNat
      · rw [← hcount hfull, Nat.mul_left_comm] at hno
        omega
      · have hone : rounds options ≤ 1 := (h.rounds_le 1).2 (by rw [h.throughput_eq]; omega)
        have hle := Nat.mul_le_mul_right count hone
        omega
  · refine iff_of_false (fun hcovers => ?_) fun hand => hno hand.1
    obtain ⟨hfull, k, hkpos, hk, hlt⟩ := he.wraps h hno
    have hc := hcount hfull
    obtain ⟨-, hdisjoint⟩ := nodup_flatMap.1 hcovers.once
    have hdisj := pairwise_iff_getElem.1 hdisjoint 0 k (by simp; omega) (by simpa using hk) hkpos
    rw [getElem_range, getElem_range] at hdisj
    -- the first nonce of launch `k` belongs to launch 0 as well
    have hstart : ((0 + BitVec.ofNat 64 k * throughput options) / options.gpu_threads.setWidth 64).toNat < count := by
      rw [h.div_threads, counter_toNat]
      omega
    have hfirst : (0, (0 + BitVec.ofNat 64 k * throughput options) / options.gpu_threads.setWidth 64) ∈
        lanes options.gpu_threads count ((0 + BitVec.ofNat 64 0 * throughput options) / options.gpu_threads.setWidth 64) := by
      have hzero : (0 + BitVec.ofNat 64 0 * throughput options) / options.gpu_threads.setWidth 64 = BitVec.ofNat 64 0 := by
        refine eq_of_toNat_eq ?_
        rw [h.div_threads, counter_toNat, Nat.zero_mul]
        rfl
      rw [hzero, mem_lanes (by omega), hthreads]
      exact ⟨by decide, Nat.zero_le _, by omega⟩
    have hlater : (0, (0 + BitVec.ofNat 64 k * throughput options) / options.gpu_threads.setWidth 64) ∈
        lanes options.gpu_threads count ((0 + BitVec.ofNat 64 k * throughput options) / options.gpu_threads.setWidth 64) := by
      rw [lanes, mem_flatMap, hthreads]
      exact ⟨0, by decide, mem_map.2 ⟨0, mem_range.2 (by omega), by simp⟩⟩
    exact hdisj hfirst hlater

theorem InRange.grid :
    (grid options.gpu_threads (throughput options)).toNat = ((throughput options).toNat + 8191) / 8192 := by
  have hle := h.throughput_le
  rw [h.gpu_threads, Miner.grid]
  have h1 : ((512 * 16 : U32).setWidth 64).toNat = 8192 := rfl
  have h2 : (1 : U64).toNat = 1 := rfl
  rw [toNat_setWidth, toNat_udiv, toNat_sub, toNat_add, h1, h2]
  omega

end

/-- Pairs of a back end are evaluated once, from the first on and in sufficient number, exactly under these conditions: the counter does
not wrap, and an OpenCL launch that is cut to `max_iterations` is cut to a multiple of the sixteen GPU threads. -/
theorem scan_covers_iff (h : InRange options) (results : Nat → LaunchResult) (fuel : Nat) (hend : scan.ending = .exhausted) :
    (scanhash_credits options results fuel = some scan → (Covers options (evaluated bitcredit_cpu_hash options scan) ↔ NoWrap options)) ∧
      (SHA256_run options results fuel = some scan → (Covers options (evaluated scan_hash options scan) ↔
        NoWrap options ∧ (full options ≤ options.max_iterations.toNat ∨ 16 ∣ options.max_iterations.toNat))) := by
  have hT := h.throughput_eq
  have hpos := h.throughput_pos
  have hle := h.throughput_le
  have hrounds := h.rounds_le
  have hfull16 : full options = 8192 * (64 * options.factor.toNat) := by rw [full]; omega
  -- the launches reach the bound, and one does when it is cut to the bound
  have hreach := (hrounds (rounds options)).1 (Nat.le_refl _)
  constructor
  · intro hscan
    have hgrid := h.grid
    rw [h.covers ((grid options.gpu_threads (throughput options)).toNat * 512) hscan hend
      (fun start => bitcredit_cpu_hash_eq _ _ _ (by rw [hgrid]; omega)) (by rw [hgrid]; omega) (fun hfull => by rw [hgrid]; omega)]
    refine and_iff_left (hreach.trans (Nat.mul_le_mul_left _ ?_))
    rw [hgrid]
    omega
  · intro hscan
    have hcount : ((throughput options) / options.gpu_threads.setWidth 64).toNat = (throughput options).toNat / 16 := h.div_threads _
    rw [h.covers (throughput options / options.gpu_threads.setWidth 64).toNat hscan hend (fun start => rfl)
      (by rw [hcount]; omega) (fun hfull => by rw [hcount]; omega)]
    refine and_congr_right fun _ => ?_
    rw [hcount]
    by_cases hfull : full options ≤ options.max_iterations.toNat
    · refine iff_of_true (hreach.trans (Nat.mul_le_mul_left _ ?_)) (.inl hfull)
      omega
    · have hone : rounds options = 1 := by
        have h1 := (hrounds 1).2 (by omega)
        have h0 := (not_congr (hrounds 0)).2 (by rw [Nat.zero_mul]; have := h.max.1; omega)
        omega
      rw [hone, or_iff_right hfull]
      omega

end Coverage

/-- A launch that finds nothing. -/
def nothing : LaunchResult := ⟨BitVec.allOnes 64, BitVec.allOnes 64, false, false, false⟩

theorem scan_covers_block :
    Covers ⟨1, 0x2000, 16⟩ (evaluated bitcredit_cpu_hash ⟨1, 0x2000, 16⟩ ⟨[0], 0x2000, .exhausted⟩) ∧
      Covers ⟨1, 0x2000, 16⟩ (evaluated scan_hash ⟨1, 0x2000, 16⟩ ⟨[0], 0x2000, .exhausted⟩) := by
  have hrange : InRange ⟨1, 0x2000, 16⟩ := ⟨by decide, by decide, by decide, rfl⟩
  obtain ⟨hcuda, hopencl⟩ := scan_covers_iff hrange (fun _ => nothing) 2 (rfl : Scan.ending ⟨[0], 0x2000, .exhausted⟩ = .exhausted)
  have hwrap : NoWrap ⟨1, 0x2000, 16⟩ := by
    unfold NoWrap
    decide
  exact ⟨(hcuda rfl).2 hwrap, (hopencl rfl).2 ⟨hwrap, .inr (by decide)⟩⟩

/-- An OpenCL scan for seventeen pairs evaluates sixteen. -/
theorem scan_seventeen : SHA256_run ⟨1, 17, 16⟩ (fun _ => nothing) 2 = some ⟨[0], 17, .exhausted⟩ ∧
    ¬ Covers ⟨1, 17, 16⟩ (evaluated scan_hash ⟨1, 17, 16⟩ ⟨[0], 17, .exhausted⟩) := by
  refine ⟨rfl, fun hcovers => ?_⟩
  have henough := hcovers.enough
  have hlength : (evaluated scan_hash ⟨1, 17, 16⟩ ⟨[0], 17, .exhausted⟩).length = 16 := rfl
  rw [hlength] at henough
  exact absurd henough (by decide)

end Ton.Miner
