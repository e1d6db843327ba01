import Ton.Session.Action
/-!
# Merging two states

The `merge` functions of `validator-session-state.cpp`. `p` tells which objects
are one and the same.
-/

namespace Ton.Session

variable {n : ℕ} (p : Pointers) (desc : Description n)

def merge_signature (l r : Option Signature) : Option Signature :=
  match l, r with
  | none, r => r
  | l, none => l
  | some l, some r => if p.same l r then some l else if l < r then some l else some r

def merge_signatures (l r : NodeVec n (Option Signature)) : NodeVec n (Option Signature) :=
  NodeVec.merge_ptr p (merge_signature p) l r

def SessionBlockCandidate.merge (l r : SessionBlockCandidate n) : Exc (SessionBlockCandidate n) :=
  if p.same l r then .ok l
  else do
    check .id_mismatch (l.get_id desc = r.get_id desc)
    .ok ⟨l.block, merge_signatures p l.approved_by r.approved_by⟩

def SessionVoteCandidate.merge (l r : SessionVoteCandidate n) : Exc (SessionVoteCandidate n) :=
  if p.same l r then .ok l
  else do
    check .id_mismatch (l.get_id desc = r.get_id desc)
    .ok ⟨l.block, NodeVec.merge_bool p l.voted_by r.voted_by⟩

namespace OldRoundState

def merge (left right : OldRoundState n) : Exc (OldRoundState n) :=
  if p.same left right then .ok left
  else do
    check .seqno_mismatch (left.seqno = right.seqno)
    .ok { left with
      signatures := merge_signatures p left.signatures right.signatures
      approve_signatures := merge_signatures p left.approve_signatures right.approve_signatures }

/-- `merge` with a state in which the round is the current one. -/
def merge_round (left : OldRoundState n) (right : RoundState n) : Exc (OldRoundState n) := do
  check .seqno_mismatch (left.seqno = right.seqno)
  let approve_signs := match right.get_block desc (left.get_block_id desc) with
    | some C => merge_signatures p left.approve_signatures C.approved_by
    | none => left.approve_signatures
  .ok { left with
    signatures := merge_signatures p left.signatures right.signatures
    approve_signatures := approve_signs }

end OldRoundState

namespace RoundAttemptState

/-- The VOTEFOR of the merged attempt; the one with the smaller id if there are two. -/
def merge_vote_for (left right : RoundAttemptState n) : Option (SentBlock n) × Bool :=
  if !left.vote_for_inited then (right.vote_for, right.vote_for_inited)
  else if !right.vote_for_inited then (left.vote_for, left.vote_for_inited)
  else if p.same left.vote_for right.vote_for then (left.vote_for, true)
  else if SentBlock.get_block_id desc left.vote_for < SentBlock.get_block_id desc right.vote_for then (left.vote_for, true)
  else (right.vote_for, true)

def merge (left right : RoundAttemptState n) : Exc (RoundAttemptState n) :=
  if p.same left right then .ok left
  else do
    check .seqno_mismatch (left.seqno = right.seqno)
    let votes ← CntSortedVector.merge (·.get_id desc) p (SessionVoteCandidate.merge p desc) left.votes right.votes
    .ok {
      seqno := left.seqno, votes
      precommitted := NodeVec.merge_bool p left.precommitted right.precommitted
      vote_for := (merge_vote_for p desc left right).1
      vote_for_inited := (merge_vote_for p desc left right).2 }

end RoundAttemptState

/-- What the loop over the merged attempts finds: the latest attempt with a voted
block, the latest one with another voted block, and a precommitted one. -/
structure Latest (n : ℕ) where
  first : Option (Option (SentBlock n) × ℕ)
  second : Option (Option (SentBlock n) × ℕ)
  precommitted : Bool
  precommitted_block : Option (SentBlock n)

namespace Latest

variable {desc}

def f_cnt (s : Latest n) : ℕ := if s.first.isNone then 0 else if s.second.isNone then 1 else 2

/-- `f_att[0]` and `f_att[1]` are 0 where they are not set. -/
def first_att (s : Latest n) : ℕ := (s.first.map (·.2)).getD 0

def second_att (s : Latest n) : ℕ := (s.second.map (·.2)).getD 0

variable (desc)

def note_voted (s : Latest n) (b : RoundAttemptState n) : Latest n :=
  match b.get_voted_block desc with
  | none => s
  | some B =>
    match s.first, s.second with
    | none, _ => { s with first := some (B, b.seqno) }
    | some (A, _), none =>
      if SentBlock.get_block_id desc A = SentBlock.get_block_id desc B then s else { s with second := some (B, b.seqno) }
    | some _, some _ => s

def note_precommitted (s : Latest n) (b : RoundAttemptState n) : Exc (Latest n) :=
  if !s.precommitted ∧ b.check_attempt_is_precommitted desc then
    match b.get_voted_block desc with
    | none => .error .no_voted_block
    | some B => .ok { s with precommitted := true, precommitted_block := B }
  else .ok s

/-- The loop, over the attempts from the last one on. -/
def scan : List (RoundAttemptState n) → Latest n → Exc (Latest n)
  | [], s => .ok s
  | b :: bs, s => do
    let s ← (s.note_voted desc b).note_precommitted desc b
    if s.precommitted ∧ s.f_cnt = 2 then .ok s else scan bs s

end Latest

/-- An attempt is unset when it is 0. -/
def merge_first_attempt (l r : ℕ) : ℕ := if l = 0 then r else if r = 0 then l else min l r

namespace RoundState

/-- A lock stays when no later attempt has a voted block other than that of the latest one. -/
def merge_last_precommit (s : Latest n) (l r : NodeVec n ℕ) : Exc (NodeVec n ℕ) := do
  check .lock_without_votes (s.f_cnt = 0 → ∀ i, max (l i) (r i) = 0)
  .ok (NodeVec.merge_all (fun l r =>
    if s.f_cnt = 0 then max l r else if max l r > s.second_att then max l r else 0) l r)

def merge (left right : RoundState n) : Exc (RoundState n) :=
  if p.same left right then .ok left
  else do
    check .seqno_mismatch (left.seqno = right.seqno)
    check .precommitted_blocks_differ (left.precommitted ∧ right.precommitted →
      SentBlock.get_block_id desc left.precommitted_block = SentBlock.get_block_id desc right.precommitted_block)
    let precommitted_block := if left.precommitted_block.isSome then left.precommitted_block else right.precommitted_block
    let precommitted := left.precommitted || right.precommitted
    let att_vec ← CntSortedVector.merge (·.seqno) p (RoundAttemptState.merge p desc) left.attempts right.attempts
    check .null_pointer (att_vec ≠ [])
    let s ← Latest.scan desc att_vec.reverse ⟨none, none, precommitted, precommitted_block⟩
    check .attempt_order (s.f_cnt ≥ 1 → s.first_att > s.second_att)
    let last_precommit ← merge_last_precommit s left.last_precommit right.last_precommit
    let sent_blocks ← CntSortedVector.merge (·.get_id desc) p (SessionBlockCandidate.merge p desc)
      left.sent_blocks right.sent_blocks
    .ok {
      precommitted_block := s.precommitted_block
      seqno := left.seqno
      precommitted := s.precommitted
      first_attempt := NodeVec.merge_nat p merge_first_attempt left.first_attempt right.first_attempt
      last_precommit, sent_blocks
      signatures := merge_signatures p left.signatures right.signatures
      attempts := att_vec }

end RoundState

namespace SessionState

/-- A round that is current on one side and old on the other. -/
def merge_behind (old : List (OldRoundState n)) (round : RoundState n) : Exc (List (OldRoundState n)) :=
  match old[round.seqno]? with
  | none => .error .out_of_range
  | some r => do
    let r ← r.merge_round p desc round
    .ok (old.set round.seqno r)

def merge_rounds (old : List (OldRoundState n)) (left right : RoundState n) : Exc (List (OldRoundState n) × RoundState n) :=
  if left.seqno < right.seqno then do
    let old ← merge_behind p desc old left
    .ok (old, right)
  else if left.seqno > right.seqno then do
    let old ← merge_behind p desc old right
    .ok (old, left)
  else do
    let round ← left.merge p desc right
    .ok (old, round)

def merge (left right : SessionState n) : Exc (SessionState n) :=
  if p.same left right then .ok left
  else do
    let ts := NodeVec.merge_nat p max left.att right.att
    let old ← CntVector.merge p (OldRoundState.merge p) left.old_rounds right.old_rounds
    let (old, round) ← merge_rounds p desc old left.cur_round right.cur_round
    let (old_rounds, cur_round) ← close_round desc old round
    .ok { att := ts, old_rounds, cur_round }

end SessionState

end Ton.Session
