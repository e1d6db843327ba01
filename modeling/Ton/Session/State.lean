import Ton.Session.PersistentVector
import Mathlib.Algebra.BigOperators.Group.Finset.Basic
/-!
# The state of a validator session

The data of `validator-session-state.h` and the functions that only read it.
`n` is the number of nodes. Arguments of type pointer are never null where
they are not options here.
-/

namespace Ton.Session

/-- The bytes of a signature. -/
abbrev Signature := List (Fin 256)

/-- Hashes and candidate ids are 256-bit numbers. -/
abbrev CandidateId := ℕ

def skip_round_candidate_id : CandidateId := 0

/-- What the state reads of `ValidatorSessionDescription`. Weights are 64-bit, and
the configuration refuses sets of nodes whose total weight is not. `candidate_id` and the
two signature checks are the hash function and the signature scheme: the hash of
a block tells the block, and is not the one that stands for no block. -/
structure Description (n : ℕ) where
  get_node_weight : Fin n → ℕ
  weights_lt : ∑ i, get_node_weight i < 2 ^ 64
  round_candidates : ℕ
  max_round_attempts : ℕ
  candidate_id : Fin n → ℕ → ℕ → ℕ → CandidateId
  check_signature : ℕ → ℕ → Fin n → Signature → Bool
  check_approve_signature : ℕ → ℕ → Fin n → Signature → Bool
  candidate_id_inj : ∀ {i j x y z x' y' z'}, candidate_id i x y z = candidate_id j x' y' z' → i = j ∧ x = x' ∧ y = y' ∧ z = z'
  candidate_id_ne_skip : ∀ i x y z, candidate_id i x y z ≠ skip_round_candidate_id

variable {n : ℕ}

namespace Description

variable (desc : Description n)

def get_total_weight : ℕ := (∑ i, desc.get_node_weight i) % 2 ^ 64

/-- The total is doubled in 64 bits, and wraps around from 2^63 on. -/
def get_cutoff_weight : ℕ := desc.get_total_weight * 2 % 2 ^ 64 / 3 + 1

/-- -1 for a node that may not propose blocks in the round. -/
def get_node_priority (src_idx : Fin n) (round : ℕ) : ℤ :=
  let round := round % n
  let src_idx := if src_idx < round then src_idx + n else src_idx
  if src_idx - round < desc.round_candidates then (src_idx - round : ℕ) else -1

def get_max_priority : ℤ := desc.round_candidates - 1

def get_vote_for_author (_ : Description n) (attempt_seqno : ℕ) : ℕ := attempt_seqno % n

/-- The weights of the nodes with the property, summed up to the cutoff. -/
def reaches (has : Fin n → Bool) : List (Fin n) → ℕ → Bool
  | [], _ => false
  | i :: is, w =>
    if has i then
      let w := (w + desc.get_node_weight i) % 2 ^ 64
      if w ≥ desc.get_cutoff_weight then true else reaches has is w
    else reaches has is w

def check_weight (has : Fin n → Bool) : Bool := desc.reaches has (List.finRange n) 0

end Description

structure SentBlock (n : ℕ) where
  src_idx : Fin n
  root_hash : ℕ
  file_hash : ℕ
  collated_data_file_hash : ℕ
  deriving DecidableEq

/-- The id of a block, or of the null pointer, which stands for skipping the round. -/
def SentBlock.get_block_id (desc : Description n) : Option (SentBlock n) → CandidateId
  | none => skip_round_candidate_id
  | some b => desc.candidate_id b.src_idx b.root_hash b.file_hash b.collated_data_file_hash

@[ext]
structure SessionBlockCandidate (n : ℕ) where
  block : Option (SentBlock n)
  approved_by : NodeVec n (Option Signature)

namespace SessionBlockCandidate

def create (block : Option (SentBlock n)) : SessionBlockCandidate n := ⟨block, fun _ => none⟩

def get_id (desc : Description n) (c : SessionBlockCandidate n) : CandidateId := SentBlock.get_block_id desc c.block

/-- `none` is the number that no node has. -/
def get_src_idx (c : SessionBlockCandidate n) : Option (Fin n) := c.block.map (·.src_idx)

def check_block_is_approved_by (c : SessionBlockCandidate n) (src_idx : Fin n) : Bool := (c.approved_by src_idx).isSome

def check_block_is_approved (desc : Description n) (c : SessionBlockCandidate n) : Bool :=
  desc.check_weight c.check_block_is_approved_by

def push (c : SessionBlockCandidate n) (src_idx : Fin n) (sig : Signature) : SessionBlockCandidate n :=
  if (c.approved_by src_idx).isSome then c else ⟨c.block, NodeVec.change c.approved_by src_idx (some sig)⟩

end SessionBlockCandidate

@[ext]
structure SessionVoteCandidate (n : ℕ) where
  block : Option (SentBlock n)
  voted_by : NodeVec n Bool

namespace SessionVoteCandidate

def create (block : Option (SentBlock n)) : SessionVoteCandidate n := ⟨block, fun _ => false⟩

def get_id (desc : Description n) (c : SessionVoteCandidate n) : CandidateId := SentBlock.get_block_id desc c.block

def check_block_is_voted_by (c : SessionVoteCandidate n) (src_idx : Fin n) : Bool := c.voted_by src_idx

def check_block_is_voted (desc : Description n) (c : SessionVoteCandidate n) : Bool := desc.check_weight c.voted_by

def push (c : SessionVoteCandidate n) (src_idx : Fin n) : SessionVoteCandidate n :=
  if c.voted_by src_idx then c else ⟨c.block, NodeVec.change c.voted_by src_idx true⟩

end SessionVoteCandidate

@[ext]
structure OldRoundState (n : ℕ) where
  seqno : ℕ
  block : Option (SentBlock n)
  signatures : NodeVec n (Option Signature)
  approve_signatures : NodeVec n (Option Signature)

def OldRoundState.get_block_id (desc : Description n) (r : OldRoundState n) : CandidateId := SentBlock.get_block_id desc r.block

@[ext]
structure RoundAttemptState (n : ℕ) where
  seqno : ℕ
  votes : List (SessionVoteCandidate n)
  precommitted : NodeVec n Bool
  vote_for : Option (SentBlock n)
  vote_for_inited : Bool

namespace RoundAttemptState

def create (seqno : ℕ) : RoundAttemptState n := ⟨seqno, [], fun _ => false, none, false⟩

def check_vote_received_from (a : RoundAttemptState n) (src_idx : Fin n) : Bool :=
  a.votes.any (·.check_block_is_voted_by src_idx)

def check_precommit_received_from (a : RoundAttemptState n) (src_idx : Fin n) : Bool := a.precommitted src_idx

/-- The block that a quorum voted for, if there is one. -/
def get_voted_block (desc : Description n) (a : RoundAttemptState n) : Option (Option (SentBlock n)) :=
  (a.votes.find? (·.check_block_is_voted desc)).map (·.block)

def check_attempt_is_precommitted (desc : Description n) (a : RoundAttemptState n) : Bool := desc.check_weight a.precommitted

end RoundAttemptState

@[ext]
structure RoundState (n : ℕ) where
  precommitted_block : Option (SentBlock n)
  seqno : ℕ
  precommitted : Bool
  first_attempt : NodeVec n ℕ
  last_precommit : NodeVec n ℕ
  sent_blocks : List (SessionBlockCandidate n)
  signatures : NodeVec n (Option Signature)
  attempts : List (RoundAttemptState n)

def get_attempt (vec : List (RoundAttemptState n)) (seqno : ℕ) : Option (RoundAttemptState n) :=
  CntSortedVector.get (·.seqno) vec seqno

namespace RoundState

def create (seqno : ℕ) : RoundState n := ⟨none, seqno, false, fun _ => 0, fun _ => 0, [], fun _ => none, []⟩

def get_block (desc : Description n) (r : RoundState n) (block_hash : CandidateId) : Option (SessionBlockCandidate n) :=
  r.sent_blocks.find? fun c => c.get_id desc = block_hash

def check_block_is_sent_by (r : RoundState n) (src_idx : Fin n) : Bool := r.sent_blocks.any fun c => c.get_src_idx = some src_idx

def check_block_is_signed (desc : Description n) (r : RoundState n) : Bool := desc.check_weight fun i => (r.signatures i).isSome

/-- Skipping the round comes last. -/
def vote_priority (desc : Description n) (seqno : ℕ) (c : SessionBlockCandidate n) : ℤ :=
  match c.block with
  | some b => desc.get_node_priority b.src_idx seqno
  | none => desc.get_max_priority + 1

/-- The approved candidate of the best priority so far. -/
def best_candidate (desc : Description n) (seqno : ℕ) :
    List (SessionBlockCandidate n) → ℤ → Option (SentBlock n) → Exc (ℤ × Option (SentBlock n))
  | [], min_priority, block => .ok (min_priority, block)
  | c :: cs, min_priority, block =>
    if !c.check_block_is_approved desc then best_candidate desc seqno cs min_priority block
    else do
      check .negative_priority (vote_priority desc seqno c ≥ 0)
      if vote_priority desc seqno c < min_priority then best_candidate desc seqno cs (vote_priority desc seqno c) c.block
      else best_candidate desc seqno cs min_priority block

def slow_mode (desc : Description n) (r : RoundState n) (src_idx : Fin n) (att : ℕ) : Bool :=
  (r.first_attempt src_idx > 0 ∧ (r.first_attempt src_idx + desc.max_round_attempts) % 2 ^ 32 ≤ att) ∨
    desc.max_round_attempts = 0

/-- The block that was voted for in an attempt that is known to have one. -/
def locked_block (desc : Description n) (r : RoundState n) (att : ℕ) : Exc (Option (SentBlock n)) :=
  match get_attempt r.attempts att with
  | none => .error .no_attempt
  | some attempt =>
    match attempt.get_voted_block desc with
    | none => .error .no_voted_block
    | some block => .ok block

def choose_block_to_vote (desc : Description n) (r : RoundState n) (src_idx : Fin n) (att : ℕ) (vote_for : Option (SentBlock n))
    (vote_for_inited : Bool) : Exc (Option (Option (SentBlock n))) :=
  if r.sent_blocks = [] then .ok none
  else if r.last_precommit src_idx > 0 then some <$> r.locked_block desc (r.last_precommit src_idx)
  else if !r.slow_mode desc src_idx att then
    match r.attempts.reverse.findSome? (·.get_voted_block desc) with
    | some block => .ok (some block)
    | none => do
      let (min_priority, block) ← best_candidate desc r.seqno r.sent_blocks (desc.get_max_priority + 2) none
      .ok (if min_priority < desc.get_max_priority + 2 then some block else none)
  else .ok (if vote_for_inited then some vote_for else none)

end RoundState

@[ext]
structure SessionState (n : ℕ) where
  att : NodeVec n ℕ
  old_rounds : List (OldRoundState n)
  cur_round : RoundState n

namespace SessionState

def create : SessionState n := ⟨fun _ => 0, [], RoundState.create 0⟩

def get_committed_block (s : SessionState n) (seqno : ℕ) : Option (Option (SentBlock n)) := s.old_rounds[seqno]?.map (·.block)

end SessionState

/-- `validatorSession_round_Message`; the attempt that a message names is not read. -/
inductive Message where
  | submittedBlock (round root_hash file_hash collated_data_file_hash : ℕ)
  | approvedBlock (round : ℕ) (candidate : CandidateId) (signature : Signature)
  | rejectedBlock (round : ℕ) (candidate : CandidateId)
  | commit (round : ℕ) (candidate : CandidateId) (signature : Signature)
  | vote (round : ℕ) (candidate : CandidateId)
  | voteFor (round : ℕ) (candidate : CandidateId)
  | precommit (round : ℕ) (candidate : CandidateId)
  | empty (round : ℕ)
  deriving DecidableEq

def get_round_id : Message → ℕ
  | .submittedBlock round _ _ _ => round
  | .approvedBlock round _ _ => round
  | .rejectedBlock round _ => round
  | .commit round _ _ => round
  | .vote round _ => round
  | .voteFor round _ => round
  | .precommit round _ => round
  | .empty round => round

end Ton.Session
