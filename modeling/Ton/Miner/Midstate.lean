import Ton.Miner.Run
import Mathlib
/-!
# The messages that the CPU miner tries

`run_hashed` lists the states that the iterations of `Miner::run` hash. At each of
them the reused context stands for the head of the message, so the hash is that of
the whole message, and no message is tried twice, since `inc` counts `rdata` up.
-/

namespace Ton.Miner

open BigEndian Sha256

section Trace
variable (S : Sha256Api) (options : Options) (ticks : Nat → Tick)

/-- The iterations of `run_loop` that come to a hash, with the states they hash. -/
def run_hashed : Nat → Nat → RunState S → List (Nat × RunState S)
  | 0, _, _ => []
  | fuel + 1, i, s =>
    match run_check S ticks i s with
    | .error _ => []
    | .ok s =>
      (i, s) ::
        if memcmp (run_hash S s) options.complexity.toList = .lt then []
        else match s.H.body.inc with
          | none => []
          | some body => run_hashed fuel (i + 1) { s with H := { s.H with body := body } }

/-- The state before the first iteration of `Miner::run`. -/
def run_start (random : Vector Byte 32) : RunState S :=
  let H := HDataEnv.init options.my_address options.seed random
  ⟨H, S.init, H.head_back, 0, 0⟩

/-- The messages that a run of `Miner::run` tries. -/
def run_trace (random : Vector Byte 32) : List (Nat × RunState S) :=
  run_hashed S options ticks options.max_iterations.toNat 0 (run_start S options random)

end Trace

variable {S : Sha256Api} {options : Options} {ticks : Nat → Tick}

/-! ## The counter -/

/-- A byte string is less than one that has a greater byte after the same start. -/
theorem ofBytes_lt_of_digit {a b c : List Byte} {x y : Byte} (hl : b.length = c.length) (hxy : x.toNat < y.toNat) :
    ofBytes (a ++ x :: b) < ofBytes (a ++ y :: c) := by
  rw [ofBytes_append, ofBytes_append, ofBytes_cons, ofBytes_cons, List.length_cons, List.length_cons, hl]
  have hb := ofBytes_lt b
  rw [hl] at hb
  have hlt := digit_lt (s := ofBytes c) hb hxy
  omega

theorem HData.inc_rdata_lt {d d' : HData} (h : d.inc = some d') (he : d.rdata1 = d.rdata2) :
    ofBytes d.rdata1.toList < ofBytes d'.rdata1.toList := by
  simp only [HData.inc, Option.map_eq_some_iff] at h
  obtain ⟨⟨r1, r2⟩, hr, rfl⟩ := h
  obtain ⟨j, hj, hlt, heq, -, -⟩ := incLoop_spec _ _ _ _ _ _ hr
  obtain ⟨hinc, -, hne⟩ := heq j hj rfl
  have split : ∀ v : Vector Byte 32, v.toList = v.toList.take j ++ v[j] :: v.toList.drop (j + 1) := by
    intro v
    rw [← Vector.getElem_toList (by simpa using hj), List.cons_getElem_drop_succ, List.take_append_drop]
  have hstart : r1.toList.take j = d.rdata1.toList.take j := by
    refine List.ext_getElem (by simp) fun i h1 _ => ?_
    simp only [List.length_take, Vector.length_toList] at h1
    simpa using (hlt i (by omega) (by omega)).1
  rw [split d.rdata1, split r1, hstart]
  refine ofBytes_lt_of_digit (by simp) ?_
  rw [hinc, he]
  -- the byte does not wrap
  have hmax : d.rdata2[j].toNat ≠ 255 := by
    intro h255
    exact hne (BitVec.eq_of_toNat_eq (by rw [BitVec.toNat_add, h255]; rfl))
  have hbyte := d.rdata2[j].isLt
  rw [BitVec.toNat_add]
  have hone : (1 : Byte).toNat = 1 := rfl
  rw [hone]
  omega

theorem run_check_rdata {i : Nat} {s s' : RunState S} (h : run_check S ticks i s = .ok s') : s'.H.body.rdata1 = s.H.body.rdata1 := by
  unfold run_check at h
  split at h
  · unfold refresh at h
    split at h
    · cases h
    · dsimp only at h
      split at h
      · cases h
      · cases h
        rfl
  · cases h
    rfl

/-- The counter of a message. -/
def counter (s : RunState S) : Nat := ofBytes s.H.body.rdata1.toList

theorem counter_eq_of_as_slice {s t : RunState S} (h : s.H.as_slice = t.H.as_slice) : counter s = counter t := by
  have hrdata : ∀ H : HDataEnv, (H.as_slice.drop 43).take 32 = H.body.rdata1.toList := by
    intro H
    simp [HDataEnv.as_slice, HData.as_slice, List.drop_append, List.drop_of_length_le]
  rw [counter, counter, ← hrdata, ← hrdata, h]

/-! ## Every iteration -/

/-- What holds at an iteration when it hashes. -/
structure Exact (S : Sha256Api) (s : RunState S) : Prop where
  context : s.shactx1 = S.update S.init s.H.head
  hash : run_hash S s = sha256 s.H.as_slice
  rdata : s.H.body.rdata1 = s.H.body.rdata2

theorem run_hashed_exact (fuel i : Nat) (s : RunState S) (hm : Mined options s.H) (hf : Fresh i s) :
    ∀ p ∈ run_hashed S options ticks fuel i s, Exact S p.2 ∧ counter s ≤ counter p.2 := by
  induction fuel generalizing i s with
  | zero =>
    intro p hp
    rw [run_hashed] at hp
    cases hp
  | succ fuel ih =>
    intro p hp
    rw [run_hashed] at hp
    split at hp
    · cases hp
    · next s' hc =>
      obtain ⟨hg, hctx⟩ := run_check_fresh hf hc
      have hm' := run_check_mined hm hc
      have hcounter : counter s' = counter s := by rw [counter, counter, run_check_rdata hc]
      rcases List.mem_cons.1 hp with rfl | hp
      · exact ⟨⟨hctx, run_hash_eq hctx, hm'.rdata⟩, hcounter.ge⟩
      · split at hp
        · cases hp
        · split at hp
          · cases hp
          · next body hb =>
            obtain ⟨hexact, hle⟩ := ih (i + 1) { s' with H := { s'.H with body := body } } (hm'.inc hb) (inc_fresh hm' hb hg hctx) p hp
            have hlt := HData.inc_rdata_lt hb hm'.rdata
            refine ⟨hexact, ?_⟩
            rw [← hcounter]
            exact hlt.le.trans hle

theorem run_hashed_pairwise (fuel i : Nat) (s : RunState S) (hm : Mined options s.H) (hf : Fresh i s) :
    (run_hashed S options ticks fuel i s).Pairwise fun p q => counter p.2 < counter q.2 := by
  induction fuel generalizing i s with
  | zero =>
    rw [run_hashed]
    exact List.Pairwise.nil
  | succ fuel ih =>
    rw [run_hashed]
    split
    · exact List.Pairwise.nil
    · next s' hc =>
      obtain ⟨hg, hctx⟩ := run_check_fresh hf hc
      have hm' := run_check_mined hm hc
      split
      · exact List.pairwise_singleton _ _
      · split
        · exact List.pairwise_singleton _ _
        · next body hb =>
          have hm'' := hm'.inc hb
          have hf'' := inc_fresh (i := i + 1) hm' hb hg hctx
          refine List.Pairwise.cons (fun q hq => ?_) (ih _ _ hm'' hf'')
          exact (HData.inc_rdata_lt hb hm'.rdata).trans_le (run_hashed_exact _ _ _ hm'' hf'' q hq).2

/-- At every iteration of a run the hash compared is that of the whole message, both copies of `rdata` are equal, and
no two iterations try the same message. -/
theorem midstate_exact (S : Sha256Api) (options : Options) (ticks : Nat → Tick) (random : Vector Byte 32) :
    (∀ p ∈ run_trace S options ticks random, Exact S p.2) ∧
      (run_trace S options ticks random).Pairwise fun p q => p.2.H.as_slice ≠ q.2.H.as_slice := by
  have hm := mined_init options random
  have hf : Fresh 0 (run_start S options random) := fun h => absurd rfl h
  constructor
  · exact fun p hp => (run_hashed_exact _ _ _ hm hf p hp).1
  · refine (run_hashed_pairwise _ _ _ hm hf).imp fun hlt heq => ?_
    exact absurd (counter_eq_of_as_slice heq) (Nat.ne_of_lt hlt)

end Ton.Miner
