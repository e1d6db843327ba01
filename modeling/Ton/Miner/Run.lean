import Ton.Miner.HData
/-!
# The CPU miner

`Miner::run`. The first 72 bytes of the message (`head`) are absorbed once and
the context is reused while they stay; `guard` is the last of them, byte 28 of
`rdata1`. `Fresh` says the context stands for the current head, and every
iteration keeps it (`inc_fresh`), so the hash compared is that of the current
message (`run_hash_eq`).
-/

namespace Ton.Miner

open BigEndian Sha256

structure Options where
  my_address : StdAddress
  seed : Vector Byte 16
  complexity : Vector Byte 32
  max_iterations : Int

/-- What an iteration reads from outside, if it looks: the cancellation token,
whether `expire_at` has passed, and the clock. -/
structure Tick where
  cancelled : Bool
  expired : Bool
  now : U32

/-- `head` and `tail` are views of the message. -/
def HDataEnv.head (H : HDataEnv) : List Byte := H.as_slice.take 72

def HDataEnv.tail (H : HDataEnv) : List Byte := H.as_slice.drop 72

def HDataEnv.head_back (H : HDataEnv) : Byte := byteAt H.as_slice 71

/-- The locals of the loop and the total added to `hashes_computed`. -/
structure RunState (S : Sha256Api) where
  H : HDataEnv
  shactx1 : S.Ctx
  guard : Byte
  i0 : Nat
  hashes_computed : Nat

inductive Outcome where
  | found (body : List Byte)
  | stopped
  /-- `inc` carried out of the arrays. -/
  | overrun
  deriving DecidableEq

section Run
variable (S : Sha256Api) (options : Options) (ticks : Nat → Tick)

/-- The block under `!(i & 0xfffff) || head.back() != guard`; an error is a
`break` with the locals as they stand. -/
def refresh (i : Nat) (s : RunState S) : Except (RunState S) (RunState S) :=
  if (ticks i).cancelled then .error s
  else
    let s := { s with hashes_computed := s.hashes_computed + (i - s.i0), i0 := i }
    if (ticks i).expired then .error s
    else
      let H := { s.H with body := s.H.body.set_expire ((ticks i).now + 900) }
      .ok { s with H := H, guard := H.head_back, shactx1 := S.update S.init H.head }

/-- The state an iteration hashes from. -/
def run_check (i : Nat) (s : RunState S) : Except (RunState S) (RunState S) :=
  if i % 0x100000 = 0 ∨ s.H.head_back ≠ s.guard then refresh S ticks i s else .ok s

/-- The hash that an iteration compares. -/
def run_hash (s : RunState S) : List Byte := S.final (S.update s.shactx1 s.H.tail)

/-- Iterations `i`, `i + 1`, ... while `fuel` of them are left. -/
def run_loop : Nat → Nat → RunState S → Outcome × Nat
  | 0, i, s => (.stopped, s.hashes_computed + (i - s.i0))
  | fuel + 1, i, s =>
    match run_check S ticks i s with
    | .error s => (.stopped, s.hashes_computed + (i - s.i0))
    | .ok s =>
      if memcmp (run_hash S s) options.complexity.toList = .lt then
        (.found s.H.body.as_slice, s.hashes_computed + (i - s.i0))
      else match s.H.body.inc with
        | none => (.overrun, s.hashes_computed)
        | some body => run_loop fuel (i + 1) { s with H := { s.H with body := body } }

/-- `Miner::run`; `random` is what `secure_bytes` returns. -/
def run (random : Vector Byte 32) : Outcome × Nat :=
  let H := HDataEnv.init options.my_address options.seed random
  run_loop S options ticks options.max_iterations.toNat 0 ⟨H, S.init, H.head_back, 0, 0⟩

end Run

/-! ## The reused context -/

section Fresh
variable {S : Sha256Api} {options : Options} {ticks : Nat → Tick}

/-- The message stays the one `init` made, up to `expire` and `rdata`. -/
structure Mined (options : Options) (H : HDataEnv) : Prop where
  d1 : H.d1 = 0
  d2 : H.d2 = 242
  op : H.body.op = #v[0x4d, 0x69, 0x6e, 0x65]
  flags : H.body.flags = BitVec.ofInt 8 (options.my_address.workchain * 4 + options.my_address.bounceable.toNat)
  myaddr : H.body.myaddr = options.my_address.addr
  pseed : H.body.pseed = options.seed
  rdata : H.body.rdata1 = H.body.rdata2

theorem mined_init (options : Options) (random : Vector Byte 32) :
    Mined options (HDataEnv.init options.my_address options.seed random) :=
  ⟨rfl, rfl, rfl, rfl, rfl, rfl, rfl⟩

variable {H : HDataEnv} {body : HData}

theorem Mined.set_expire (h : Mined options H) (x : U32) :
    Mined options { H with body := H.body.set_expire x } :=
  ⟨h.d1, h.d2, h.op, h.flags, h.myaddr, h.pseed, h.rdata⟩

theorem Mined.inc (h : Mined options H) (hb : H.body.inc = some body) :
    Mined options { H with body := body } := by
  obtain ⟨hop, hfl, -, hadr, hseed⟩ := HData.inc_other hb
  exact ⟨h.d1, h.d2, hop.trans h.op, hfl.trans h.flags, hadr.trans h.myaddr, hseed.trans h.pseed,
    HData.inc_rdata_eq hb h.rdata⟩

theorem head_append_tail (H : HDataEnv) : H.head ++ H.tail = H.as_slice := List.take_append_drop 72 _

theorem head_eq (H : HDataEnv) :
    H.head = [H.d1, H.d2] ++ H.body.op.toList ++ [H.body.flags] ++ H.body.expire.toList ++ H.body.myaddr.toList ++
      H.body.rdata1.toList.take 29 := by
  simp [HDataEnv.head, HDataEnv.as_slice, HData.as_slice, List.take_append, List.take_of_length_le]

theorem head_back_eq (H : HDataEnv) : H.head_back = H.body.rdata1[28]! := by
  simp [HDataEnv.head_back, HDataEnv.as_slice, HData.as_slice, byteAt_append]
  simp [byteAt]

theorem head_inc (hr : H.body.rdata1 = H.body.rdata2) (h : H.body.inc = some body)
    (hg : ({ H with body := body } : HDataEnv).head_back = H.head_back) :
    ({ H with body := body } : HDataEnv).head = H.head := by
  rw [head_back_eq, head_back_eq] at hg
  simp only [Nat.reduceLT, getElem!_pos] at hg
  obtain ⟨hop, hfl, hex, hadr, -⟩ := HData.inc_other h
  rw [head_eq, head_eq]
  simp only [hop, hfl, hex, hadr]
  congr 1
  refine List.ext_getElem (by simp) fun i h1 _ => ?_
  simp only [List.length_take, Vector.length_toList] at h1
  simpa using HData.inc_guard h hr hg i (by omega)

/-- Before iteration `i`, unless it refreshes the context anyway, the context has
absorbed the current head. -/
def Fresh (i : Nat) (s : RunState S) : Prop :=
  i % 0x100000 ≠ 0 → s.H.head_back = s.guard → s.shactx1 = S.update S.init s.H.head

/-- After the check of an iteration the guard is current and the context has
absorbed the current head. -/
theorem run_check_fresh {i : Nat} {s s' : RunState S} (hs : Fresh i s) (h : run_check S ticks i s = .ok s') :
    s'.H.head_back = s'.guard ∧ s'.shactx1 = S.update S.init s'.H.head := by
  unfold run_check at h
  split at h
  · unfold refresh at h
    split at h
    · cases h
    · dsimp only at h
      split at h
      · cases h
      · cases h
        exact ⟨rfl, rfl⟩
  · next hc =>
    cases h
    obtain ⟨hi, hg⟩ := not_or.1 hc
    exact ⟨not_not.1 hg, hs hi (not_not.1 hg)⟩

theorem run_check_mined {i : Nat} {s s' : RunState S} (hs : Mined options s.H) (h : run_check S ticks i s = .ok s') :
    Mined options s'.H := by
  unfold run_check at h
  split at h
  · unfold refresh at h
    split at h
    · cases h
    · dsimp only at h
      split at h
      · cases h
      · cases h
        exact hs.set_expire _
  · cases h
    exact hs

theorem run_hash_eq {s : RunState S} (h : s.shactx1 = S.update S.init s.H.head) :
    run_hash S s = sha256 s.H.as_slice := by
  rw [run_hash, h, S.final_two, head_append_tail]

theorem inc_fresh {i : Nat} {s : RunState S} (hm : Mined options s.H) (hb : s.H.body.inc = some body)
    (hg : s.H.head_back = s.guard) (hc : s.shactx1 = S.update S.init s.H.head) :
    Fresh i { s with H := { s.H with body := body } } := by
  intro _ hg'
  rw [hc]
  exact congrArg _ (head_inc hm.rdata hb (hg'.trans hg.symm)).symm

/-- Whatever a run returns is a mined message whose own hash is below the complexity. -/
theorem run_loop_found (fuel i : Nat) (s : RunState S) (hm : Mined options s.H) (hf : Fresh i s) {body : List Byte}
    {n : Nat} (h : run_loop S options ticks fuel i s = (.found body, n)) :
    ∃ H, Mined options H ∧ body = H.body.as_slice ∧ memcmp (sha256 H.as_slice) options.complexity.toList = .lt := by
  induction fuel generalizing i s with
  | zero => simp [run_loop] at h
  | succ fuel ih =>
    rw [run_loop] at h
    split at h
    · cases h
    · next s' hc =>
      obtain ⟨hg, hctx⟩ := run_check_fresh hf hc
      have hm' := run_check_mined hm hc
      split at h
      · next hlt =>
        cases h
        exact ⟨s'.H, hm', rfl, by rwa [run_hash_eq hctx] at hlt⟩
      · split at h
        · cases h
        · next body' hb =>
          exact ih (i + 1) { s' with H := { s'.H with body := body' } } (hm'.inc hb) (inc_fresh hm' hb hg hctx) h

theorem run_found {random : Vector Byte 32} {body : List Byte} {n : Nat}
    (h : run S options ticks random = (.found body, n)) :
    ∃ H, Mined options H ∧ body = H.body.as_slice ∧ memcmp (sha256 H.as_slice) options.complexity.toList = .lt :=
  run_loop_found _ 0 _ (mined_init options random) (fun h => absurd rfl h) h

end Fresh

end Ton.Miner
