import Ton.Session.Consensus
/-!
# Two guards for a VOTEFOR

A VOTEFOR is generated under one guard, `check_need_generate_vote_for`, and taken
under another, written anew in `RoundAttemptState.voteFor`. They differ for a
VOTEFOR that comes too early (`voteFor_matches_iff`).
-/

namespace Ton.Session

variable {n : ℕ} {desc : Description n} {faulty : Set (Fin n)} {R : RoundState n} {A : RoundAttemptState n} {i : Fin n} {att : ℕ}
  {cand : CandidateId}

namespace RoundState

variable (desc : Description n) (state : RoundState n) (src_idx : Fin n) (att : ℕ)

def check_need_generate_vote_for : Bool :=
  if src_idx.val ≠ desc.get_vote_for_author att then false
  else if state.precommitted then false
  else if state.first_attempt src_idx = 0 ∧ desc.max_round_attempts > 0 then false
  else if (state.first_attempt src_idx + desc.max_round_attempts) % 2 ^ 32 > att ∧ desc.max_round_attempts > 0 then false
  else if (get_attempt state.attempts att).any (·.vote_for_inited) then false
  else state.sent_blocks.any (·.check_block_is_approved desc)

/-- The candidate is one of the round, and approved. -/
def IsApproved (candidate : CandidateId) : Prop :=
  ∃ x, state.get_block desc candidate = some x ∧ x.check_block_is_approved desc = true

/-- The first attempt of the node and `max_round_attempts` leave room for a VOTEFOR in this attempt. -/
def NotTooEarly : Prop := (state.first_attempt src_idx + desc.max_round_attempts) % 2 ^ 32 ≤ att

/-- A VOTEFOR that is not refused for another reason does not come before its time. -/
def VoteForInTime (candidate : CandidateId) : Prop :=
  (state.attempt_at att).vote_for_inited = false → src_idx.val = desc.get_vote_for_author att →
    (desc.max_round_attempts > 0 → state.first_attempt src_idx ≠ 0) → state.IsApproved desc candidate →
    state.NotTooEarly desc src_idx att

end RoundState

theorem attempt_inited (R : RoundState n) (att : ℕ) :
    (get_attempt R.attempts att).any (·.vote_for_inited) = (R.attempt_at att).vote_for_inited := by
  rw [RoundState.attempt_at]
  cases get_attempt R.attempts att <;> rfl

/-- What must hold for a VOTEFOR to be taken. Only the condition on `NotTooEarly` is not
one of the guard for generating it. -/
theorem voteFor_ne_iff : A.voteFor desc i att R cand ≠ A ↔ A.vote_for_inited = false ∧ i.val = desc.get_vote_for_author att ∧
    (desc.max_round_attempts > 0 → R.first_attempt i ≠ 0) ∧ (desc.max_round_attempts = 0 → R.NotTooEarly desc i att) ∧
    R.IsApproved desc cand := by
  unfold RoundAttemptState.voteFor RoundState.IsApproved RoundState.NotTooEarly
  split_ifs with hinited hauthor hfirst hearly
  · simp [hinited]
  · simp [hauthor]
  · simp [hfirst]
  · simp only [ne_eq, not_true_eq_false, false_iff]
    rintro ⟨-, -, -, htime, -⟩
    exact absurd (htime hearly.2) (Nat.not_le.2 hearly.1)
  · rw [Bool.not_eq_true] at hinited
    rw [not_not] at hauthor
    have hrest : (desc.max_round_attempts > 0 → R.first_attempt i ≠ 0) ∧
        (desc.max_round_attempts = 0 → (R.first_attempt i + desc.max_round_attempts) % 2 ^ 32 ≤ att) :=
      ⟨fun hpos hz => hfirst ⟨hz, hpos⟩, fun hz => Nat.not_lt.1 fun hlt => hearly ⟨hlt, hz⟩⟩
    split
    · next hno => simp [hno]
    · next x hx =>
      split_ifs with hq
      · simp only [Bool.not_eq_true', ne_eq, not_true_eq_false, false_iff] at hq ⊢
        rintro ⟨-, -, -, -, y, hy, hyq⟩
        obtain rfl := Option.some.inj (hx.symm.trans hy)
        exact Bool.noConfusion (hq.symm.trans hyq)
      · refine iff_of_true (fun h => ?_) ⟨hinited, hauthor, hrest.1, hrest.2, x, hx, by simpa using hq⟩
        exact Bool.noConfusion (hinited.symm.trans (congrArg (·.vote_for_inited) h).symm)

theorem check_need_iff (hp : R.precommitted = false) : R.check_need_generate_vote_for desc i att = true ↔
    (R.attempt_at att).vote_for_inited = false ∧ i.val = desc.get_vote_for_author att ∧
    (desc.max_round_attempts > 0 → R.first_attempt i ≠ 0) ∧ (desc.max_round_attempts > 0 → R.NotTooEarly desc i att) ∧
    R.sent_blocks.any (·.check_block_is_approved desc) = true := by
  unfold RoundState.check_need_generate_vote_for RoundState.NotTooEarly
  rw [attempt_inited, hp]
  split_ifs with hauthor hflag hfirst hearly hinited
  · simp [hauthor]
  · cases hflag
  · simp [hfirst]
  · simp only [false_iff]
    rintro ⟨-, -, -, htime, -⟩
    exact absurd (htime hearly.2) (Nat.not_le.2 hearly.1)
  · simp [hinited]
  · rw [Bool.not_eq_true] at hinited
    rw [not_not] at hauthor
    refine ⟨fun hany => ⟨hinited, hauthor, fun hpos hz => hfirst ⟨hz, hpos⟩, fun hpos => ?_, hany⟩, fun h => h.2.2.2.2⟩
    exact Nat.not_lt.1 fun hlt => hearly ⟨hlt, hpos⟩

/-- A VOTEFOR is taken under the guard for generating it, and not before its time. -/
structure VoteForMatches (desc : Description n) (R : RoundState n) (i : Fin n) (att : ℕ) (cand : CandidateId) : Prop where
  taken : (R.attempt_at att).voteFor desc i att R cand ≠ R.attempt_at att ↔
    R.check_need_generate_vote_for desc i att = true ∧ R.IsApproved desc cand
  ignored : desc.max_round_attempts > 0 → ¬ R.NotTooEarly desc i att →
    (R.attempt_at att).voteFor desc i att R cand = R.attempt_at att

/-- In a round that is not precommitted the two guards agree on a VOTEFOR exactly when it
is in time, or refused for another reason. -/
theorem voteFor_matches_iff (hp : R.precommitted = false) : VoteForMatches desc R i att cand ↔ R.VoteForInTime desc i att cand := by
  have happroved : R.IsApproved desc cand → R.sent_blocks.any (·.check_block_is_approved desc) = true := by
    rintro ⟨x, hx, hq⟩
    exact List.any_eq_true.2 ⟨x, List.mem_of_find?_eq_some hx, hq⟩
  constructor
  · rintro ⟨htaken, -⟩ hinited hauthor hfirst hcand
    rw [voteFor_ne_iff, check_need_iff hp] at htaken
    rcases Nat.eq_zero_or_pos desc.max_round_attempts with hz | hpos
    · -- a VOTEFOR is generated at any time
      have hneed : ∀ h : desc.max_round_attempts > 0, R.NotTooEarly desc i att := fun h => absurd hz h.ne'
      exact (htaken.2 ⟨⟨hinited, hauthor, hfirst, hneed, happroved hcand⟩, hcand⟩).2.2.2.1 hz
    · -- one is taken at any time
      have htake : ∀ h : desc.max_round_attempts = 0, R.NotTooEarly desc i att := fun h => absurd h hpos.ne'
      exact (htaken.1 ⟨hinited, hauthor, hfirst, htake, hcand⟩).1.2.2.2.1 hpos
  · intro htime
    constructor
    · rw [voteFor_ne_iff, check_need_iff hp]
      constructor
      · rintro ⟨hinited, hauthor, hfirst, -, hcand⟩
        exact ⟨⟨hinited, hauthor, hfirst, fun _ => htime hinited hauthor hfirst hcand, happroved hcand⟩, hcand⟩
      · rintro ⟨⟨hinited, hauthor, hfirst, -, -⟩, hcand⟩
        exact ⟨hinited, hauthor, hfirst, fun _ => htime hinited hauthor hfirst hcand, hcand⟩
    · intro _ hearly
      by_contra hne
      obtain ⟨hinited, hauthor, hfirst, -, hcand⟩ := voteFor_ne_iff.1 hne
      exact hearly (htime hinited hauthor hfirst hcand)

/-- Node 0 proposes a block, which nodes 0, 1 and 2 approve: `firstVotes` up to its first vote, which is left out. -/
def firstApproved : List (Move 4) := (firstVotes.take 9).eraseIdx 7

/-- A VOTEFOR of node 0 in its first attempt is taken, though none is generated. -/
theorem voteFor_early : ∃ σ, Network.Reachable fourNodes {i | (fun _ => false : Fin 4 → Bool) i = true} σ ∧ ∃ s ∈ σ.states,
    s.cur_round.precommitted = false ∧ ¬ VoteForMatches fourNodes s.cur_round 0 1024 firstId := by
  obtain ⟨σ, own, hσ, hmem, -, hP⟩ := exists_played fourNodes (fun _ => false) (fun _ _ _ => True) (fun _ _ _ _ => trivial)
    firstApproved rfl
    (fun own =>
      let R := (own 0).cur_round
      !R.precommitted && !(R.attempt_at 1024).vote_for_inited &&
        ((R.attempt_at 1024).voteFor fourNodes 0 1024 R firstId).vote_for_inited && !R.check_need_generate_vote_for fourNodes 0 1024)
    (by decide +kernel)
  simp only [Bool.and_eq_true, Bool.not_eq_true'] at hP
  obtain ⟨⟨⟨hp, hno⟩, hyes⟩, hneed⟩ := hP
  refine ⟨σ, hσ, own 0, hmem 0, hp, fun h => ?_⟩
  have hne : ((own 0).cur_round.attempt_at 1024).voteFor fourNodes 0 1024 (own 0).cur_round firstId ≠ (own 0).cur_round.attempt_at 1024 :=
    fun he => Bool.noConfusion (hno.symm.trans ((congrArg (·.vote_for_inited) he).symm.trans hyes))
  exact Bool.noConfusion (hneed.symm.trans (h.taken.1 hne).1)

/-- Four attempts later, one is generated and taken. -/
theorem voteFor_matches_first : ∃ s : SessionState 4, s.cur_round.check_need_generate_vote_for fourNodes 0 1028 = true ∧
    VoteForMatches fourNodes s.cur_round 0 1028 firstId := by
  obtain ⟨-, own, -, -, -, hP⟩ := exists_played fourNodes (fun _ => false) (fun _ _ _ => True) (fun _ _ _ _ => trivial)
    firstApproved rfl
    (fun own =>
      let R := (own 0).cur_round
      !R.precommitted && R.check_need_generate_vote_for fourNodes 0 1028 &&
        (R.first_attempt 0 + fourNodes.max_round_attempts) % 2 ^ 32 ≤ 1028)
    (by decide +kernel)
  simp only [Bool.and_eq_true, Bool.not_eq_true', decide_eq_true_eq] at hP
  obtain ⟨⟨hp, hneed⟩, htime⟩ := hP
  exact ⟨own 0, hneed, (voteFor_matches_iff hp).2 fun _ _ _ _ => htime⟩

end Ton.Session
