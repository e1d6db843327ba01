import Ton.Session.State
/-!
# Actions

`action`, `make_one` and `create_action` of `validator-session-state.cpp`: what
one message of node `src_idx`, or no message, does to a state. A refused message
only leaves a line in the log.
-/

namespace Ton.Session
open NodeVec

variable {n : ℕ}

/-- The check of an APPROVE or COMMIT signature on `block`. -/
def check_block_signature (check_sig : ℕ → ℕ → Fin n → Signature → Bool) (block : Option (SentBlock n)) (src_idx : Fin n)
    (candidate : CandidateId) (signature : Signature) : Exc Bool :=
  if candidate = skip_round_candidate_id then .ok (signature.length = 0)
  else match block with
    | none => .error .null_pointer
    | some b => .ok (check_sig b.root_hash b.file_hash src_idx signature)

namespace OldRoundState

variable (desc : Description n) (state : OldRoundState n) (src_idx : Fin n)

def approvedBlock (candidate : CandidateId) (signature : Signature) : Exc (OldRoundState n) :=
  if candidate ≠ state.get_block_id desc then .ok state
  else if (state.approve_signatures src_idx).isSome then .ok state
  else do
    let valid ← check_block_signature desc.check_approve_signature state.block src_idx candidate signature
    if valid then
      .ok { state with approve_signatures := change state.approve_signatures src_idx (some signature) }
    else .ok state

def commit (candidate : CandidateId) (signature : Signature) : Exc (OldRoundState n) :=
  if candidate ≠ state.get_block_id desc then .ok state
  else do
    let valid ← check_block_signature desc.check_signature state.block src_idx candidate signature
    if !valid then .ok state
    else if (state.signatures src_idx).isSome then .ok state
    else .ok { state with signatures := change state.signatures src_idx (some signature) }

def action : Message → Exc (OldRoundState n)
  | .approvedBlock _ candidate signature => state.approvedBlock desc src_idx candidate signature
  | .commit _ candidate signature => state.commit desc src_idx candidate signature
  | _ => .ok state

end OldRoundState

namespace RoundAttemptState

variable (desc : Description n) (state : RoundAttemptState n) (src_idx : Fin n) (att : ℕ) (round : RoundState n)

def voteFor (candidate : CandidateId) : RoundAttemptState n :=
  if state.vote_for_inited then state
  else if src_idx.val ≠ desc.get_vote_for_author att then state
  else if round.first_attempt src_idx = 0 ∧ desc.max_round_attempts > 0 then state
  else if (round.first_attempt src_idx + desc.max_round_attempts) % 2 ^ 32 > att ∧ desc.max_round_attempts = 0 then state
  else match round.get_block desc candidate with
    | none => state
    | some x =>
      if !x.check_block_is_approved desc then state
      else { state with vote_for := x.block, vote_for_inited := true }

def get_candidate (id : CandidateId) : Option (SessionVoteCandidate n) := state.votes.find? fun c => c.get_id desc = id

/-- The second component is `made`. -/
def try_vote : Exc (RoundAttemptState n × Bool) :=
  if state.check_vote_received_from src_idx then .ok (state, false)
  else do
    match ← round.choose_block_to_vote desc src_idx att state.vote_for state.vote_for_inited with
    | none => .ok (state, false)
    | some block =>
      let candidate := (state.get_candidate desc (SentBlock.get_block_id desc block)).getD (.create block)
      let votes := CntSortedVector.push (·.get_id desc) state.votes (candidate.push src_idx)
      .ok ({ state with votes }, true)

def try_precommit : RoundAttemptState n × Bool :=
  if state.check_precommit_received_from src_idx then (state, false)
  else match state.get_voted_block desc with
    | none => (state, false)
    | some _ => ({ state with precommitted := change state.precommitted src_idx true }, true)

def make_one : Exc (RoundAttemptState n × Bool) := do
  let (state, made) ← state.try_vote desc src_idx att round
  .ok (if made then (state, made) else state.try_precommit desc src_idx)

/-- The content of a VOTE, PRECOMMIT or EMPTY is only compared with what is done. -/
def action : Message → Exc (RoundAttemptState n)
  | .voteFor _ candidate => .ok (state.voteFor desc src_idx att round candidate)
  | .vote _ _ | .precommit _ _ | .empty _ => (·.1) <$> state.make_one desc src_idx att round
  | _ => .error .unreachable

end RoundAttemptState

namespace RoundState

variable (desc : Description n) (state : RoundState n) (src_idx : Fin n) (att : ℕ)

def submittedBlock (root_hash file_hash collated_data_file_hash : ℕ) : RoundState n :=
  if desc.get_node_priority src_idx state.seqno < 0 then state
  else if state.check_block_is_sent_by src_idx then state
  else
    let a := SessionBlockCandidate.create (some ⟨src_idx, root_hash, file_hash, collated_data_file_hash⟩)
    { state with sent_blocks := CntSortedVector.push (·.get_id desc) state.sent_blocks a }

/-- Whether the node approved a block of the same proposer already. -/
def approved_another (sent_block : SessionBlockCandidate n) : Bool :=
  state.sent_blocks.any fun B => B.get_src_idx = sent_block.get_src_idx && B.check_block_is_approved_by src_idx

def approve (sent_block : SessionBlockCandidate n) (signature : Signature) : RoundState n :=
  { state with sent_blocks := CntSortedVector.push (·.get_id desc) state.sent_blocks (sent_block.push src_idx signature) }

def approvedBlock (candidate : CandidateId) (signature : Signature) : Exc (RoundState n) :=
  match state.get_block desc candidate with
  | none =>
    if candidate ≠ skip_round_candidate_id then .ok state
    else do
      let valid ← check_block_signature desc.check_approve_signature none src_idx candidate signature
      if !valid then .ok state
      else do
        check .not_skip (candidate = skip_round_candidate_id)
        .ok (state.approve desc src_idx (.create none) signature)
  | some sent_block =>
    if sent_block.check_block_is_approved_by src_idx then .ok state
    else if candidate ≠ skip_round_candidate_id ∧ state.approved_another src_idx sent_block then .ok state
    else do
      let valid ← check_block_signature desc.check_approve_signature sent_block.block src_idx candidate signature
      if !valid then .ok state else .ok (state.approve desc src_idx sent_block signature)

def commit (candidate : CandidateId) (signature : Signature) : Exc (RoundState n) :=
  if !state.precommitted then .ok state
  else if SentBlock.get_block_id desc state.precommitted_block ≠ candidate then .ok state
  else if (state.signatures src_idx).isSome then .ok state
  else do
    let valid ← check_block_signature desc.check_signature state.precommitted_block src_idx candidate signature
    if !valid then .ok state
    else .ok { state with signatures := change state.signatures src_idx (some signature) }

/-- The attempt as it is known, or a new one. -/
def attempt_at : RoundAttemptState n := (get_attempt state.attempts att).getD (.create att)

def last_lock : ℕ := (List.finRange n).foldl (fun e i => max e (state.last_precommit i)) 0

/-- The locks after attempt `att` has the voted block `voted`, and whether that is the block of the last lock `e`. -/
def release_locks (voted : Option (Option (SentBlock n))) (e : ℕ) : Exc (Bool × NodeVec n ℕ) :=
  match voted with
  | none => .ok (true, state.last_precommit)
  | some block =>
    if e = 0 then .ok (true, state.last_precommit)
    else do
      let B ← state.locked_block desc e
      if SentBlock.get_block_id desc block = SentBlock.get_block_id desc B then .ok (true, state.last_precommit)
      else .ok (false, NodeVec.modify state.last_precommit fun a => if a > att then a else 0)

/-- `precommitted` and `precommitted_block` after an attempt changed. -/
def refresh_precommitted (attempt : RoundAttemptState n) : Exc (Bool × Option (SentBlock n)) :=
  if attempt.check_attempt_is_precommitted desc then
    match attempt.get_voted_block desc with
    | none => .error .no_voted_block
    | some block => .ok (true, block)
  else .ok (false, state.precommitted_block)

/-- A node that precommitted is locked to the attempt, if it was not overruled. -/
def set_lock (attempt : RoundAttemptState n) (e : ℕ) (eq : Bool) (last_precommit : NodeVec n ℕ) : Exc (NodeVec n ℕ) :=
  if attempt.check_precommit_received_from src_idx ∧ last_precommit src_idx < att ∧ (att > e ∨ eq) then do
    check .no_voted_block (attempt.get_voted_block desc).isSome
    .ok (change last_precommit src_idx att)
  else .ok last_precommit

def forward_action_to_attempt (act : Message) : Exc (RoundState n) :=
  if state.precommitted then .ok state
  else do
    let attempt ← (state.attempt_at att).action desc src_idx att state act
    let (precommitted, precommitted_block) ← state.refresh_precommitted desc attempt
    let e := state.last_lock
    let (eq, last_precommit) ← state.release_locks desc att (attempt.get_voted_block desc) e
    let last_precommit ← set_lock desc src_idx att attempt e eq last_precommit
    .ok { state with
      precommitted, precommitted_block, last_precommit
      attempts := CntSortedVector.push (·.seqno) state.attempts attempt }

/-- The node is known to have reached attempt `att` in this round. -/
def enter_attempt : RoundState n :=
  if state.first_attempt src_idx = 0 ∨ state.first_attempt src_idx > att then
    { state with first_attempt := change state.first_attempt src_idx att }
  else state

def action (act : Message) : Exc (RoundState n) :=
  let state := state.enter_attempt src_idx att
  match act with
  | .submittedBlock _ root_hash file_hash collated_data_file_hash =>
    .ok (state.submittedBlock desc src_idx root_hash file_hash collated_data_file_hash)
  | .approvedBlock _ candidate signature => state.approvedBlock desc src_idx candidate signature
  | .rejectedBlock _ _ => .ok state
  | .commit _ candidate signature => state.commit desc src_idx candidate signature
  | act => state.forward_action_to_attempt desc src_idx att act

def make_one : Exc (RoundState n × Bool) :=
  let made := state.first_attempt src_idx = 0 ∨ state.first_attempt src_idx > att
  let state := state.enter_attempt src_idx att
  if state.precommitted then .ok (state, made)
  else do
    let (a, m) ← (state.attempt_at att).make_one desc src_idx att state
    if !m then .ok (state, made)
    else .ok ({ state with attempts := CntSortedVector.push (·.seqno) state.attempts a }, true)

end RoundState

/-- `ValidatorSessionOldRoundState::create(desc, round)` -/
def OldRoundState.create (desc : Description n) (round : RoundState n) : Exc (OldRoundState n) := do
  check .not_precommitted round.precommitted
  check .not_signed (round.check_block_is_signed desc)
  match round.get_block desc (SentBlock.get_block_id desc round.precommitted_block) with
  | none => .error .no_candidate
  | some E => .ok ⟨round.seqno, round.precommitted_block, round.signatures, E.approved_by⟩

namespace SessionState

variable (desc : Description n) (state : SessionState n) (src_idx : Fin n) (att : ℕ)

/-- `CntVector::push` -/
def push_old (old : List (OldRoundState n)) (idx : ℕ) (value : OldRoundState n) : Exc (List (OldRoundState n)) := do
  check .bad_index (idx = old.length)
  .ok (old ++ [value])

/-- A round with enough signatures becomes an old round, and the next one begins. -/
def close_round (old : List (OldRoundState n)) (round : RoundState n) : Exc (List (OldRoundState n) × RoundState n) :=
  if round.check_block_is_signed desc then do
    let closed ← OldRoundState.create desc round
    let old ← push_old old round.seqno closed
    .ok (old, .create (round.seqno + 1))
  else .ok (old, round)

/-- Attempts never go back, and start from 1024. -/
def clamp : ℕ :=
  let att := if att < state.att src_idx then state.att src_idx else att
  if att < 1024 then 1024 else att

def action (act : Message) : Exc (SessionState n) :=
  let att := state.clamp src_idx att
  let ts_vec := change state.att src_idx att
  let round_id := get_round_id act
  if round_id > state.cur_round.seqno then .ok { state with att := ts_vec }
  else if round_id = state.cur_round.seqno then do
    let round ← state.cur_round.action desc src_idx att act
    let (old_rounds, cur_round) ← close_round desc state.old_rounds round
    .ok { att := ts_vec, old_rounds, cur_round }
  else match state.old_rounds[round_id]? with
    | none => .error .out_of_range
    | some r => do
      let r ← r.action desc src_idx act
      .ok { state with att := ts_vec, old_rounds := state.old_rounds.set round_id r }

def make_one : Exc (SessionState n × Bool) := do
  let att := state.clamp src_idx att
  let upd_time := state.att src_idx < att
  let ts_vec := if upd_time then change state.att src_idx att else state.att
  let (round, made) ← state.cur_round.make_one desc src_idx att
  if !made ∧ ¬ upd_time then .ok (state, false)
  else do
    check .still_signed (!round.check_block_is_signed desc)
    .ok ({ state with att := ts_vec, cur_round := round }, true)

/-- `none`: the loop takes more than `fuel` turns. -/
def make_all (desc : Description n) (src_idx : Fin n) (att : ℕ) : ℕ → SessionState n → Exc (Option (SessionState n))
  | 0, _ => .ok none
  | fuel + 1, state => do
    let (state, made) ← state.make_one desc src_idx att
    if made then make_all desc src_idx att fuel state else .ok (some state)

end SessionState

/-! ## The next message of a node -/

def RoundAttemptState.create_action (desc : Description n) (attempt : RoundAttemptState n) (round : RoundState n)
    (src_idx : Fin n) (att : ℕ) : Exc Message := do
  let vote ←
    if attempt.check_vote_received_from src_idx then .ok none
    else round.choose_block_to_vote desc src_idx att attempt.vote_for attempt.vote_for_inited
  match vote with
  | some B => .ok (.vote round.seqno (SentBlock.get_block_id desc B))
  | none =>
    if attempt.check_precommit_received_from src_idx then .ok (.empty round.seqno)
    else match attempt.get_voted_block desc with
      | some B => .ok (.precommit round.seqno (SentBlock.get_block_id desc B))
      | none => .ok (.empty round.seqno)

def RoundState.create_action (desc : Description n) (state : RoundState n) (src_idx : Fin n) (att : ℕ) : Exc Message :=
  if state.precommitted then .ok (.empty state.seqno)
  else match get_attempt state.attempts att with
    | some attempt => attempt.create_action desc state src_idx att
    | none => do
      match ← state.choose_block_to_vote desc src_idx att none false with
      | none => .ok (.empty state.seqno)
      | some block => .ok (.vote state.seqno (SentBlock.get_block_id desc block))

def SessionState.create_action (desc : Description n) (state : SessionState n) (src_idx : Fin n) (att : ℕ) : Exc Message :=
  state.cur_round.create_action desc src_idx att

end Ton.Session
