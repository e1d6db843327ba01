import Ton.Session.Merge
import Ton.Lib.Voting
import Mathlib.Algebra.BigOperators.Fin
/-!
# Valid round states

What every round state keeps, and what one action of a node does to it. Votes
and precommits are read off as relations; blocks are told apart by their ids.
-/

namespace Ton.Session
open Keyed Voting List Description SentBlock CntSortedVector

variable {n : ℕ} {desc : Description n}

/-! ## Weights -/

def Description.IsQuorum (desc : Description n) (S : Set (Fin n)) : Prop :=
  desc.get_cutoff_weight ≤ weigh desc.get_node_weight S

theorem Description.get_total_weight_eq : desc.get_total_weight = ∑ i, desc.get_node_weight i := Nat.mod_eq_of_lt desc.weights_lt

/-- The sum of the weights stays below the total, so that it does not wrap around. -/
theorem reaches_iff (has : Fin n → Bool) (is : List (Fin n)) (w : ℕ) (hw : w < desc.get_cutoff_weight)
    (hlt : w + (is.map desc.get_node_weight).sum < 2 ^ 64) :
    desc.reaches has is w = true ↔ desc.get_cutoff_weight ≤ w + (is.map fun i => if has i then desc.get_node_weight i else 0).sum := by
  induction is generalizing w with
  | nil => simp [reaches, hw]
  | cons i is ih =>
    rw [map_cons, sum_cons] at hlt
    rw [reaches, map_cons, sum_cons]
    by_cases hi : has i = true
    · rw [if_pos hi, if_pos hi]
      dsimp only
      rw [Nat.mod_eq_of_lt (by omega : w + desc.get_node_weight i < 2 ^ 64)]
      split_ifs with hge
      · exact iff_of_true rfl (by omega)
      · rw [ih _ (by omega) (by omega), Nat.add_assoc]
    · rw [if_neg hi, if_neg hi, ih w hw (by omega), Nat.zero_add]

theorem check_weight_iff {has : Fin n → Bool} : desc.check_weight has = true ↔ desc.IsQuorum {i | has i = true} := by
  have hlt : 0 + ((List.finRange n).map desc.get_node_weight).sum < 2 ^ 64 := by
    rw [Nat.zero_add, ← Fin.sum_univ_def]
    exact desc.weights_lt
  rw [check_weight, reaches_iff has _ 0 (Nat.succ_pos _) hlt, Nat.zero_add, IsQuorum, weigh,
    Fin.sum_univ_def]
  refine iff_of_eq (congrArg _ (congrArg List.sum (map_congr_left fun i _ => ?_)))
  by_cases hi : has i = true <;> simp [hi]

theorem Description.IsQuorum.mono {A B : Set (Fin n)} (h : desc.IsQuorum A) (hAB : A ⊆ B) : desc.IsQuorum B :=
  h.trans (weigh_mono _ hAB)

theorem Description.IsQuorum.nonempty {A : Set (Fin n)} (h : desc.IsQuorum A) : ∃ i, i ∈ A := by
  by_contra hno
  rw [Description.IsQuorum, Set.eq_empty_of_forall_notMem fun i hi => hno ⟨i, hi⟩, weigh_empty] at h
  exact absurd h (Nat.not_succ_le_zero _)

theorem exists_of_check_weight {f : Fin n → Bool} (h : desc.check_weight f = true) : ∃ i, f i = true :=
  (check_weight_iff.1 h).nonempty

theorem get_block_id_inj {b c : Option (SentBlock n)} (h : get_block_id desc b = get_block_id desc c) :
    b = c := by
  rcases b with _ | b <;> rcases c with _ | c
  · rfl
  · exact absurd h.symm (desc.candidate_id_ne_skip _ _ _ _)
  · exact absurd h (desc.candidate_id_ne_skip _ _ _ _)
  · obtain ⟨h1, h2, h3, h4⟩ := desc.candidate_id_inj h
    cases b
    cases c
    simp_all

/-! ## Votes and precommits -/

namespace RoundAttemptState

def HasVote (desc : Description n) (A : RoundAttemptState n) (c : CandidateId) (i : Fin n) : Prop :=
  ∃ v, find (·.get_id desc) A.votes c = some v ∧ v.voted_by i = true

def VotedFor (desc : Description n) (A : RoundAttemptState n) (c : CandidateId) : Prop := desc.IsQuorum {i | A.HasVote desc c i}

/-- `sent` holds the candidates of the round. -/
structure Valid (desc : Description n) (sent : List (SessionBlockCandidate n)) (A : RoundAttemptState n) : Prop where
  seqno_pos : 0 < A.seqno
  votes_sorted : Sorted (·.get_id desc) A.votes
  votes_sent : ∀ v ∈ A.votes, ∃ s ∈ sent, s.get_id desc = v.get_id desc
  vote_for_sent : A.vote_for_inited = true → ∃ s ∈ sent, s.get_id desc = get_block_id desc A.vote_for
  voted : ∀ i, A.precommitted i = true → ∃ c, A.VotedFor desc c
  not_inited : A.vote_for_inited = false → A.vote_for = none

variable {A : RoundAttemptState n} {sent sent' : List (SessionBlockCandidate n)} {b : Option (SentBlock n)} {c : CandidateId}
  {i : Fin n}

theorem votedFor_of_voted (hs : Sorted (·.get_id desc) A.votes) (h : A.get_voted_block desc = some b) :
    A.VotedFor desc (get_block_id desc b) ∧ ∃ v ∈ A.votes, v.block = b := by
  rw [get_voted_block, Option.map_eq_some_iff] at h
  obtain ⟨v, hv, rfl⟩ := h
  have hmem := mem_of_find?_eq_some hv
  have hq : v.check_block_is_voted desc = true := by simpa using find?_some hv
  exact ⟨(check_weight_iff.1 hq).mono fun i hi => ⟨v, hs.find_of_mem hmem, hi⟩, v, hmem, rfl⟩

/-- A quorum of votes for one block is enough to have a voted block. -/
theorem VotedFor.voted (h : A.VotedFor desc c) : ∃ b, A.get_voted_block desc = some b := by
  obtain ⟨i, v, hv, -⟩ := h.nonempty
  have hq : v.check_block_is_voted desc = true := by
    refine check_weight_iff.2 (h.mono ?_)
    rintro j ⟨w, hw, hj⟩
    obtain rfl := Option.some.inj (hv.symm.trans hw)
    exact hj
  cases hf : A.votes.find? (·.check_block_is_voted desc) with
  | some w => exact ⟨w.block, by rw [get_voted_block, hf]; rfl⟩
  | none => exact absurd hq (find?_eq_none.1 hf v (find_some hv).1)

theorem Valid.sent_mono (h : A.Valid desc sent)
    (hsub : ∀ s ∈ sent, ∃ s' ∈ sent', s'.get_id desc = s.get_id desc) : A.Valid desc sent' where
  seqno_pos := h.seqno_pos
  votes_sorted := h.votes_sorted
  votes_sent v hv := by
    obtain ⟨s, hs, hid⟩ := h.votes_sent v hv
    obtain ⟨s', hs', hid'⟩ := hsub s hs
    exact ⟨s', hs', hid'.trans hid⟩
  vote_for_sent hi := by
    obtain ⟨s, hs, hid⟩ := h.vote_for_sent hi
    obtain ⟨s', hs', hid'⟩ := hsub s hs
    exact ⟨s', hs', hid'.trans hid⟩
  voted := h.voted
  not_inited := h.not_inited

theorem Valid.create {a : ℕ} (ha : 0 < a) : (RoundAttemptState.create a : RoundAttemptState n).Valid desc sent where
  seqno_pos := ha
  votes_sorted := List.Pairwise.nil
  votes_sent _ h := nomatch h
  vote_for_sent h := nomatch h
  voted _ h := nomatch h
  not_inited _ := rfl

theorem not_hasVote_create (a : ℕ) : ¬ (RoundAttemptState.create a : RoundAttemptState n).HasVote desc c i := by
  rintro ⟨v, hv, -⟩
  cases hv

theorem check_vote_iff (hs : Sorted (·.get_id desc) A.votes) :
    A.check_vote_received_from i = true ↔ ∃ c, A.HasVote desc c i := by
  rw [check_vote_received_from, any_eq_true]
  constructor
  · rintro ⟨v, hv, hi⟩
    exact ⟨v.get_id desc, v, hs.find_of_mem hv, hi⟩
  · rintro ⟨c, v, hv, hi⟩
    exact ⟨v, (find_some hv).1, hi⟩

/-! ### What one message does to an attempt -/

def addVote (desc : Description n) (A : RoundAttemptState n) (i : Fin n) (block : Option (SentBlock n)) : RoundAttemptState n :=
  let candidate := (A.get_candidate desc (get_block_id desc block)).getD (.create block)
  { A with votes := push (·.get_id desc) A.votes (candidate.push i) }

def addPrecommit (A : RoundAttemptState n) (i : Fin n) : RoundAttemptState n :=
  { A with precommitted := NodeVec.change A.precommitted i true }

/-- A message of node `i` at attempt `att` leaves the attempt as it is, sets the
block of a VOTEFOR, or adds a vote or a precommit of the node. -/
inductive Moves (desc : Description n) (R : RoundState n) (i : Fin n) (att : ℕ) (A : RoundAttemptState n) :
    RoundAttemptState n → Prop
  | stay : Moves desc R i att A A
  | vote_for (x : SessionBlockCandidate n) (hx : x ∈ R.sent_blocks) :
    Moves desc R i att A { A with vote_for := x.block, vote_for_inited := true }
  | vote (block : Option (SentBlock n)) (hnot : A.check_vote_received_from i = false)
    (hchoose : R.choose_block_to_vote desc i att A.vote_for A.vote_for_inited = .ok (some block)) :
    Moves desc R i att A (A.addVote desc i block)
  | precommit (block : Option (SentBlock n)) (hvoted : A.get_voted_block desc = some block)
    (hnot : A.check_precommit_received_from i = false) :
    Moves desc R i att A (A.addPrecommit i)

variable {R : RoundState n} {att : ℕ} {A' : RoundAttemptState n} {m : Bool}

theorem push_id (v : SessionVoteCandidate n) (i : Fin n) : (v.push i).get_id desc = v.get_id desc := by
  unfold SessionVoteCandidate.push
  split_ifs <;> rfl

theorem push_voted_by (v : SessionVoteCandidate n) (i j : Fin n) : (v.push i).voted_by j = true ↔ v.voted_by j = true ∨ j = i := by
  unfold SessionVoteCandidate.push
  split_ifs with h
  · exact ⟨.inl, fun h' => h'.elim id (· ▸ h)⟩
  · by_cases hj : j = i
    · subst hj
      simp [NodeVec.change]
    · simp [NodeVec.change, hj]

/-- The candidate that a vote of node `i` for `b` leaves. -/
def pushed (desc : Description n) (A : RoundAttemptState n) (i : Fin n) (b : Option (SentBlock n)) : SessionVoteCandidate n :=
  ((A.get_candidate desc (get_block_id desc b)).getD (.create b)).push i

theorem addVote_votes : (A.addVote desc i b).votes = push (·.get_id desc) A.votes (A.pushed desc i b) := rfl

theorem pushed_id : (A.pushed desc i b).get_id desc = get_block_id desc b := by
  rw [pushed, push_id]
  cases h : A.get_candidate desc (get_block_id desc b) with
  | none => rfl
  | some v => exact (find_some (show find (·.get_id desc) A.votes _ = some v from h)).2

variable {j : Fin n}

theorem pushed_voted_by :
    (A.pushed desc i b).voted_by j = true ↔ A.HasVote desc (get_block_id desc b) j ∨ j = i := by
  rw [pushed, push_voted_by]
  refine or_congr_left ?_
  cases h : A.get_candidate desc (get_block_id desc b) with
  | none =>
    refine iff_of_false (nomatch ·) ?_
    rintro ⟨v, hv, -⟩
    cases h.symm.trans hv
  | some v => exact ⟨fun hj => ⟨v, h, hj⟩, fun ⟨w, hw, hj⟩ => (Option.some.inj (h.symm.trans hw)) ▸ hj⟩

theorem hasVote_addVote (hs : Sorted (·.get_id desc) A.votes) :
    (A.addVote desc i b).HasVote desc c j ↔ A.HasVote desc c j ∨ (j = i ∧ c = get_block_id desc b) := by
  unfold HasVote
  rw [addVote_votes, find_push hs, pushed_id]
  split_ifs with h
  · subst h
    constructor
    · rintro ⟨v, hv, hj⟩
      cases hv
      exact (pushed_voted_by.1 hj).imp id fun h => ⟨h, rfl⟩
    · intro hj
      exact ⟨_, rfl, pushed_voted_by.2 (hj.imp id And.left)⟩
  · exact ⟨.inl, fun h' => h'.elim id fun h' => absurd h'.2.symm h⟩

theorem VotedFor.mono (h : A.VotedFor desc c) (hle : ∀ j, A.HasVote desc c j → A'.HasVote desc c j) : A'.VotedFor desc c :=
  IsQuorum.mono h hle

theorem Moves.seqno (h : Moves desc R i att A A') : A'.seqno = A.seqno := by
  cases h <;> rfl

theorem Moves.hasVote (h : Moves desc R i att A A') (hs : Sorted (·.get_id desc) A.votes)
    (hv : A.HasVote desc c j) : A'.HasVote desc c j := by
  cases h with
  | vote block => exact (hasVote_addVote hs).2 (.inl hv)
  | _ => exact hv

theorem Moves.precommitted (h : Moves desc R i att A A') (hj : A.precommitted j = true) :
    A'.precommitted j = true := by
  cases h with
  | precommit block =>
    by_cases hji : j = i
    · subst hji
      exact Function.update_self ..
    · exact (Function.update_of_ne hji ..).trans hj
  | _ => exact hj

theorem addPrecommit_precommitted :
    (A.addPrecommit i).precommitted j = true ↔ A.precommitted j = true ∨ j = i := by
  by_cases hji : j = i
  · subst hji
    simp [addPrecommit, NodeVec.change]
  · simp [addPrecommit, NodeVec.change, hji]

theorem Moves.valid (h : Moves desc R i att A A') (hA : A.Valid desc R.sent_blocks)
    (hchoose : ∀ b, R.choose_block_to_vote desc i att A.vote_for A.vote_for_inited = .ok (some b) →
      ∃ s ∈ R.sent_blocks, s.get_id desc = get_block_id desc b) : A'.Valid desc R.sent_blocks := by
  cases h with
  | stay => exact hA
  | vote_for x hx => exact ⟨hA.seqno_pos, hA.votes_sorted, hA.votes_sent, fun _ => ⟨x, hx, rfl⟩, hA.voted, (nomatch ·)⟩
  | vote block _ hc =>
    have hs : Sorted (·.get_id desc) (A.addVote desc i block).votes := sorted_push hA.votes_sorted _
    refine ⟨hA.seqno_pos, hs, fun v hv => ?_, hA.vote_for_sent, fun j hj => ?_, hA.not_inited⟩
    · have hf := hs.find_of_mem hv
      rw [addVote_votes, find_push hA.votes_sorted, pushed_id] at hf
      split_ifs at hf with hid
      · exact hid ▸ hchoose block hc
      · obtain ⟨s, hsent, hs⟩ := hA.votes_sent _ (find_some hf).1
        exact ⟨s, hsent, hs⟩
    · obtain ⟨c, hcv⟩ := hA.voted j hj
      exact ⟨c, hcv.mono fun k hk => (hasVote_addVote hA.votes_sorted).2 (.inl hk)⟩
  | precommit block hv =>
    refine ⟨hA.seqno_pos, hA.votes_sorted, hA.votes_sent, hA.vote_for_sent, fun j _ => ?_, hA.not_inited⟩
    exact ⟨_, (votedFor_of_voted hA.votes_sorted hv).1⟩

theorem moves_voteFor (cand : CandidateId) : Moves desc R i att A (A.voteFor desc i att R cand) := by
  unfold voteFor
  split_ifs
  · exact .stay
  · exact .stay
  · exact .stay
  · exact .stay
  · cases hx : R.get_block desc cand with
    | none => exact .stay
    | some x =>
      dsimp only
      split_ifs
      · exact .stay
      · exact .vote_for x (mem_of_find?_eq_some hx)

/-- There is nothing to vote for any more. -/
def NoVote (desc : Description n) (R : RoundState n) (i : Fin n) (att : ℕ) (A : RoundAttemptState n) : Prop :=
  A.check_vote_received_from i = true ∨ R.choose_block_to_vote desc i att A.vote_for A.vote_for_inited = .ok none

/-- An implicit action is a vote, if there is a block to vote for, or else a precommit. -/
theorem make_one_cases (h : A.make_one desc i att R = .ok (A', m)) :
    m = false ∧ A' = A ∨
      m = true ∧ A.check_vote_received_from i = false ∧ (∃ b, A' = A.addVote desc i b ∧
        R.choose_block_to_vote desc i att A.vote_for A.vote_for_inited = .ok (some b)) ∨
      m = true ∧ NoVote desc R i att A ∧ A.check_precommit_received_from i = false ∧ A' = A.addPrecommit i ∧
        ∃ b, A.get_voted_block desc = some b := by
  rw [make_one] at h
  obtain ⟨⟨A1, m1⟩, hvote, h⟩ := Result.bind_ok.1 h
  rw [try_vote] at hvote
  have precommit : NoVote desc R i att A → (A', m) = A.try_precommit desc i → m = false ∧ A' = A ∨
      m = true ∧ NoVote desc R i att A ∧ A.check_precommit_received_from i = false ∧ A' = A.addPrecommit i ∧
        ∃ b, A.get_voted_block desc = some b := by
    intro hno h
    rw [try_precommit] at h
    split_ifs at h with hp
    · cases h
      exact .inl ⟨rfl, rfl⟩
    · cases hv : A.get_voted_block desc with
      | none =>
        rw [hv] at h
        cases h
        exact .inl ⟨rfl, rfl⟩
      | some b =>
        rw [hv] at h
        cases h
        exact .inr ⟨rfl, hno, Bool.not_eq_true _ ▸ hp, rfl, b, rfl⟩
  split_ifs at hvote with hc
  · cases hvote
    exact (precommit (.inl hc) (Except.ok.inj h).symm).imp id .inr
  · obtain ⟨o, ho, hvote⟩ := Result.bind_ok.1 hvote
    cases o with
    | none =>
      cases hvote
      exact (precommit (.inr ho) (Except.ok.inj h).symm).imp id .inr
    | some block =>
      cases hvote
      cases h
      exact .inr (.inl ⟨rfl, Bool.not_eq_true _ ▸ hc, block, rfl, ho⟩)

theorem make_one_precommit {b : Option (SentBlock n)} (hno : NoVote desc R i att A) (hnot : A.check_precommit_received_from i = false)
    (hv : A.get_voted_block desc = some b) : A.make_one desc i att R = .ok (A.addPrecommit i, true) := by
  have hvote : A.try_vote desc i att R = .ok (A, false) := by
    unfold try_vote
    split_ifs with hc
    · rfl
    · rw [hno.resolve_left hc]
      rfl
  have hpre : A.try_precommit desc i = (A.addPrecommit i, true) := by
    rw [try_precommit, if_neg (by rw [hnot]; exact Bool.false_ne_true), hv]
    rfl
  rw [make_one, hvote, Result.ok_bind]
  exact congrArg Except.ok hpre

theorem moves_make_one (h : A.make_one desc i att R = .ok (A', m)) :
    Moves desc R i att A A' ∧ (m = false → A' = A) := by
  rcases make_one_cases h with ⟨rfl, rfl⟩ | ⟨rfl, hnot, b, rfl, hb⟩ | ⟨rfl, -, hnot, rfl, b, hb⟩
  · exact ⟨.stay, fun _ => rfl⟩
  · exact ⟨.vote b hnot hb, (nomatch ·)⟩
  · exact ⟨.precommit b hb hnot, (nomatch ·)⟩

/-- How many implicit actions the attempt can still take from a node. -/
def todo (A : RoundAttemptState n) (i : Fin n) : ℕ :=
  (if A.check_vote_received_from i then 0 else 1) + if A.check_precommit_received_from i then 0 else 1

theorem todo_make_one (hs : Sorted (·.get_id desc) A.votes) (h : A.make_one desc i att R = .ok (A', true)) :
    A'.todo i < A.todo i := by
  rcases make_one_cases h with ⟨h, -⟩ | ⟨-, hnot, b, rfl, -⟩ | ⟨-, -, hnot, rfl, -⟩
  · cases h
  · have hv : (A.addVote desc i b).check_vote_received_from i = true :=
      (check_vote_iff (sorted_push hs _)).2 ⟨_, (hasVote_addVote hs).2 (.inr ⟨rfl, rfl⟩)⟩
    have hp : (A.addVote desc i b).check_precommit_received_from i = A.check_precommit_received_from i := rfl
    rw [todo, todo, hnot, hv, hp, if_pos rfl, if_neg Bool.false_ne_true]
    omega
  · have hp : (A.addPrecommit i).check_precommit_received_from i = true := addPrecommit_precommitted.2 (.inr rfl)
    have hv : (A.addPrecommit i).check_vote_received_from i = A.check_vote_received_from i := rfl
    rw [todo, todo, hnot, hv, hp, if_pos rfl, if_neg Bool.false_ne_true]
    omega

end RoundAttemptState

/-! ## Rounds -/

def ValidSignature (desc : Description n) (block : Option (SentBlock n)) (i : Fin n) (sig : Signature) : Prop :=
  match block with
  | none => sig.length = 0
  | some b => desc.check_signature b.root_hash b.file_hash i sig = true

namespace RoundState

def HasVote (desc : Description n) (R : RoundState n) (a : ℕ) (c : CandidateId) (i : Fin n) : Prop :=
  ∃ A, find (·.seqno) R.attempts a = some A ∧ A.HasVote desc c i

def HasPrecommit (R : RoundState n) (a : ℕ) (i : Fin n) : Prop :=
  ∃ A, find (·.seqno) R.attempts a = some A ∧ A.precommitted i = true

/-- A quorum voted for the block with id `c` in attempt `a`. -/
def VotedFor (desc : Description n) (R : RoundState n) (a : ℕ) (c : CandidateId) : Prop :=
  desc.IsQuorum {i | R.HasVote desc a c i}

def Precommitted (desc : Description n) (R : RoundState n) (a : ℕ) : Prop := desc.IsQuorum {i | R.HasPrecommit a i}

/-- A block with id `c` was proposed. -/
def Sent (desc : Description n) (R : RoundState n) (c : CandidateId) : Prop := ∃ s ∈ R.sent_blocks, s.get_id desc = c

/-- Attempts from `x` on were won by two blocks. -/
def Contested (desc : Description n) (R : RoundState n) (x : ℕ) : Prop :=
  ∃ a b c d, x ≤ a ∧ x ≤ b ∧ c ≠ d ∧ R.VotedFor desc a c ∧ R.VotedFor desc b d

structure Valid (desc : Description n) (R : RoundState n) : Prop where
  attempts_sorted : Sorted (·.seqno) R.attempts
  sent_sorted : Sorted (·.get_id desc) R.sent_blocks
  attempt : ∀ A ∈ R.attempts, A.Valid desc R.sent_blocks
  lock : ∀ i, R.last_precommit i ≠ 0 → ∃ c, R.VotedFor desc (R.last_precommit i) c
  precommitted_sent : R.precommitted = true → R.Sent desc (get_block_id desc R.precommitted_block)
  not_precommitted : R.precommitted = false → R.precommitted_block = none
  signed : ∀ i sig, R.signatures i = some sig → R.precommitted = true ∧ ValidSignature desc R.precommitted_block i sig
  priority : ∀ s ∈ R.sent_blocks, ∀ b, s.block = some b → 0 ≤ desc.get_node_priority b.src_idx R.seqno

variable {R : RoundState n} {a : ℕ} {c : CandidateId} {A : RoundAttemptState n} {i : Fin n} {b : Option (SentBlock n)}

theorem VotedFor.of_attempt (hA : find (·.seqno) R.attempts a = some A) (h : A.VotedFor desc c) : R.VotedFor desc a c :=
  IsQuorum.mono h fun _ hi => ⟨A, hA, hi⟩

theorem VotedFor.attempt (h : R.VotedFor desc a c) : ∃ A, find (·.seqno) R.attempts a = some A ∧ A.VotedFor desc c := by
  obtain ⟨i, A, hA, -⟩ := h.nonempty
  refine ⟨A, hA, h.mono ?_⟩
  rintro j ⟨B, hB, hj⟩
  obtain rfl := Option.some.inj (hA.symm.trans hB)
  exact hj

theorem Precommitted.of_attempt (hA : find (·.seqno) R.attempts a = some A)
    (h : A.check_attempt_is_precommitted desc = true) : R.Precommitted desc a :=
  (check_weight_iff.1 h).mono fun _ hi => ⟨A, hA, hi⟩

theorem Precommitted.attempt (h : R.Precommitted desc a) :
    ∃ A, find (·.seqno) R.attempts a = some A ∧ A.check_attempt_is_precommitted desc = true := by
  obtain ⟨i, A, hA, -⟩ := h.nonempty
  refine ⟨A, hA, check_weight_iff.2 (h.mono ?_)⟩
  rintro j ⟨B, hB, hj⟩
  obtain rfl := Option.some.inj (hA.symm.trans hB)
  exact hj

theorem HasVote.sent (hR : R.Valid desc) (h : R.HasVote desc a c i) : R.Sent desc c := by
  obtain ⟨A, hA, v, hv, -⟩ := h
  obtain ⟨s, hs, hid⟩ := (hR.attempt A (find_some hA).1).votes_sent v (find_some hv).1
  exact ⟨s, hs, hid.trans (find_some hv).2⟩

theorem VotedFor.sent (hR : R.Valid desc) (h : R.VotedFor desc a c) : R.Sent desc c := by
  obtain ⟨i, hi⟩ := h.nonempty
  exact HasVote.sent hR hi

theorem get_attempt_eq (hR : R.Valid desc) (a : ℕ) : get_attempt R.attempts a = find (·.seqno) R.attempts a :=
  get_eq hR.attempts_sorted a

theorem valid_create (seqno : ℕ) : (RoundState.create seqno : RoundState n).Valid desc where
  attempts_sorted := List.Pairwise.nil
  sent_sorted := List.Pairwise.nil
  attempt _ h := nomatch h
  lock _ h := absurd rfl h
  precommitted_sent h := nomatch h
  not_precommitted _ := rfl
  signed _ _ h := nomatch h
  priority _ h := nomatch h

/-! ### The block to vote for -/

theorem locked_block_ok (hR : R.Valid desc) (h : R.VotedFor desc a c) :
    ∃ b, R.locked_block desc a = .ok b ∧ R.VotedFor desc a (get_block_id desc b) := by
  obtain ⟨A, hA, hc⟩ := h.attempt
  obtain ⟨b, hb⟩ := hc.voted
  refine ⟨b, ?_, .of_attempt hA (RoundAttemptState.votedFor_of_voted (hR.attempt A (find_some hA).1).votes_sorted hb).1⟩
  rw [locked_block, get_attempt_eq hR, hA]
  dsimp only
  rw [hb]

theorem best_candidate_ok (cs : List (SessionBlockCandidate n)) (seqno : ℕ) (m : ℤ) (b : Option (SentBlock n))
    (hprio : ∀ s ∈ cs, ∀ b, s.block = some b → 0 ≤ desc.get_node_priority b.src_idx seqno) :
    ∃ m' b', best_candidate desc seqno cs m b = .ok (m', b') ∧ (m' = m ∧ b' = b ∨ m' < m ∧ ∃ s ∈ cs, s.block = b') := by
  induction cs generalizing m b with
  | nil => exact ⟨m, b, rfl, .inl ⟨rfl, rfl⟩⟩
  | cons s cs ih =>
    have ih := fun m b => ih m b fun s hs => hprio s (mem_cons_of_mem _ hs)
    have keep : ∃ m' b', best_candidate desc seqno cs m b = .ok (m', b') ∧
        (m' = m ∧ b' = b ∨ m' < m ∧ ∃ s' ∈ s :: cs, s'.block = b') := by
      obtain ⟨m', b', h, hor⟩ := ih m b
      exact ⟨m', b', h, hor.imp id fun ⟨hlt, s', hs', hb⟩ => ⟨hlt, s', mem_cons_of_mem _ hs', hb⟩⟩
    have he : vote_priority desc seqno s ≥ 0 := by
      unfold vote_priority
      cases hs : s.block with
      | some b => exact hprio s mem_cons_self b hs
      | none => simp [get_max_priority]
    rw [best_candidate, check_pos he]
    split_ifs with happ hlt
    · exact keep
    · obtain ⟨m', b', h, hor⟩ := ih (vote_priority desc seqno s) s.block
      refine ⟨m', b', h, .inr ?_⟩
      rcases hor with ⟨rfl, rfl⟩ | ⟨hlt', s', hs', hb⟩
      · exact ⟨hlt, s, mem_cons_self, rfl⟩
      · exact ⟨hlt'.trans hlt, s', mem_cons_of_mem _ hs', hb⟩
    · exact keep

theorem choose_block_to_vote_ok (hR : R.Valid desc) (i : Fin n) (att : ℕ) {vote_for : Option (SentBlock n)} {inited : Bool}
    (hfor : inited = true → R.Sent desc (get_block_id desc vote_for)) :
    ∃ o, R.choose_block_to_vote desc i att vote_for inited = .ok o ∧ ∀ b, o = some b →
      R.Sent desc (get_block_id desc b) ∧
      (R.last_precommit i ≠ 0 → R.VotedFor desc (R.last_precommit i) (get_block_id desc b)) := by
  unfold choose_block_to_vote
  split_ifs with hsent hlock hslow hin
  · exact ⟨none, rfl, fun _ h => nomatch h⟩
  · obtain ⟨c, hc⟩ := hR.lock i hlock.ne'
    obtain ⟨b, hb, hv⟩ := locked_block_ok hR hc
    exact ⟨some b, by rw [hb]; rfl, fun b' h => by cases h; exact ⟨hv.sent hR, fun _ => hv⟩⟩
  · have hno : ¬ R.last_precommit i ≠ 0 := fun h => hlock (Nat.pos_of_ne_zero h)
    cases hf : R.attempts.reverse.findSome? (·.get_voted_block desc) with
    | some b =>
      obtain ⟨A, hA, hb⟩ := exists_of_findSome?_eq_some hf
      have hA := mem_reverse.1 hA
      have hv := (RoundAttemptState.votedFor_of_voted (hR.attempt A hA).votes_sorted hb).1
      refine ⟨some b, rfl, fun b' h => ?_⟩
      cases h
      exact ⟨(VotedFor.of_attempt (hR.attempts_sorted.find_of_mem hA) hv).sent hR, fun h => absurd h hno⟩
    | none =>
      obtain ⟨m, b, hb, hor⟩ := best_candidate_ok R.sent_blocks R.seqno (desc.get_max_priority + 2) none hR.priority
      refine ⟨_, by dsimp only; rw [hb]; rfl, fun b' h => ?_⟩
      split_ifs at h with hlt
      cases h
      rcases hor with ⟨rfl, -⟩ | ⟨-, s, hs, rfl⟩
      · exact absurd hlt (lt_irrefl _)
      · exact ⟨⟨s, hs, rfl⟩, fun h => absurd h hno⟩
  · refine ⟨_, rfl, fun b h => ?_⟩
    cases h
    exact ⟨hfor hin, fun h => absurd (Nat.pos_of_ne_zero h) hlock⟩
  · exact ⟨none, rfl, fun _ h => nomatch h⟩

end RoundState

end Ton.Session
