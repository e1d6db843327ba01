import Ton.Session.Round
/-!
# What one action does to a round

An action either leaves the attempts, the locks and the precommitted block as
they are (`Quiet`), or adds a vote or a precommit of the node to one attempt
(`Forwarded`). None of the checks fails on a valid round.
-/

namespace Ton.Session
open Keyed Voting Function CntSortedVector RoundAttemptState SentBlock NodeVec

variable {n : ℕ} {desc : Description n}

namespace RoundState

/-- Only the candidates, the signatures and the first attempts differ. -/
structure Quiet (R R' : RoundState n) : Prop where
  seqno : R'.seqno = R.seqno
  attempts : R'.attempts = R.attempts
  last_precommit : R'.last_precommit = R.last_precommit
  precommitted : R'.precommitted = R.precommitted
  precommitted_block : R'.precommitted_block = R.precommitted_block

/-- Attempt `att` becomes `A`. -/
structure Moved (desc : Description n) (R : RoundState n) (i : Fin n) (att : ℕ) (A : RoundAttemptState n) (R' : RoundState n) :
    Prop where
  not_precommitted : R.precommitted = false
  moves : (R.attempt_at att).Moves desc R i att A
  attempts : R'.attempts = push (·.seqno) R.attempts A
  sent_blocks : R'.sent_blocks = R.sent_blocks
  seqno : R'.seqno = R.seqno
  signatures : R'.signatures = R.signatures

/-- Attempt `att` becomes `A`, the locks and the precommitted block are brought up to date. -/
structure Forwarded (desc : Description n) (R : RoundState n) (i : Fin n) (att : ℕ) (A : RoundAttemptState n)
    (R' : RoundState n) : Prop extends Moved desc R i att A R' where
  lock_kept : ∀ j, R.last_precommit j ≤ R'.last_precommit j ∨ R'.Contested desc (R.last_precommit j)
  lock_set : A.precommitted i = true → att ≤ R'.last_precommit i ∨ R'.Contested desc att
  lock_voted : ∀ j, R'.last_precommit j ≠ 0 → ∃ c, R'.VotedFor desc (R'.last_precommit j) c
  flag : R'.precommitted = A.check_attempt_is_precommitted desc
  block : if R'.precommitted = true then A.get_voted_block desc = some R'.precommitted_block
    else R'.precommitted_block = none

variable {R R' : RoundState n} {a att : ℕ} {c : CandidateId} {A A' : RoundAttemptState n} {i j : Fin n}

theorem Quiet.refl (R : RoundState n) : Quiet R R := ⟨rfl, rfl, rfl, rfl, rfl⟩

theorem Quiet.trans {R'' : RoundState n} (h : Quiet R R') (h' : Quiet R' R'') : Quiet R R'' :=
  ⟨h'.seqno.trans h.seqno, h'.attempts.trans h.attempts, h'.last_precommit.trans h.last_precommit,
    h'.precommitted.trans h.precommitted, h'.precommitted_block.trans h.precommitted_block⟩

theorem Quiet.hasVote (h : Quiet R R') : R'.HasVote desc a c j ↔ R.HasVote desc a c j := by
  rw [HasVote, HasVote, h.attempts]

theorem Quiet.hasPrecommit (h : Quiet R R') : R'.HasPrecommit a j ↔ R.HasPrecommit a j := by
  rw [HasPrecommit, HasPrecommit, h.attempts]

theorem Quiet.votedFor (h : Quiet R R') : R'.VotedFor desc a c ↔ R.VotedFor desc a c := by
  simp only [VotedFor, h.hasVote]

theorem votedFor_mono (h : ∀ j, R.HasVote desc a c j → R'.HasVote desc a c j) (hv : R.VotedFor desc a c) :
    R'.VotedFor desc a c := Description.IsQuorum.mono hv h

/-! ## The attempt that a message is for -/

section
variable (hR : R.Valid desc)
include hR

theorem attempt_at_seqno (att : ℕ) : (R.attempt_at att).seqno = att := by
  rw [attempt_at, get_attempt_eq hR]
  cases h : find (·.seqno) R.attempts att with
  | none => rfl
  | some A => exact (find_some h).2

theorem attempt_at_valid (hatt : 0 < att) : (R.attempt_at att).Valid desc R.sent_blocks := by
  rw [attempt_at, get_attempt_eq hR]
  cases h : find (·.seqno) R.attempts att with
  | none => exact .create hatt
  | some A => exact hR.attempt A (find_some h).1

theorem attempt_at_hasVote : (R.attempt_at att).HasVote desc c j ↔ R.HasVote desc att c j := by
  rw [attempt_at, get_attempt_eq hR, HasVote]
  cases h : find (·.seqno) R.attempts att with
  | none => exact iff_of_false (not_hasVote_create att) (by rintro ⟨A, hA, -⟩; cases hA)
  | some A => exact ⟨fun hj => ⟨A, rfl, hj⟩, fun ⟨B, hB, hj⟩ => Option.some.inj hB ▸ hj⟩

theorem attempt_at_precommitted : (R.attempt_at att).precommitted j = true ↔ R.HasPrecommit att j := by
  rw [attempt_at, get_attempt_eq hR, HasPrecommit]
  cases h : find (·.seqno) R.attempts att with
  | none => exact iff_of_false (nomatch ·) (by rintro ⟨A, hA, -⟩; cases hA)
  | some A => exact ⟨fun hj => ⟨A, rfl, hj⟩, fun ⟨B, hB, hj⟩ => Option.some.inj hB ▸ hj⟩

theorem choose_ok (hA : A.Valid desc R.sent_blocks) (i : Fin n) (att : ℕ) :
    ∃ o, R.choose_block_to_vote desc i att A.vote_for A.vote_for_inited = .ok o ∧ ∀ b, o = some b →
      R.Sent desc (get_block_id desc b) ∧
      (R.last_precommit i ≠ 0 → R.VotedFor desc (R.last_precommit i) (get_block_id desc b)) :=
  choose_block_to_vote_ok hR i att hA.vote_for_sent

end

section
variable (hR : R.Valid desc) (hA : A.Valid desc R.sent_blocks) {b : Option (SentBlock n)}
  (h : R.choose_block_to_vote desc i att A.vote_for A.vote_for_inited = .ok (some b))
include hR hA h

theorem choose_sent :
    R.Sent desc (get_block_id desc b) := by
  obtain ⟨o, ho, hb⟩ := choose_ok hR hA i att
  exact (hb b (Except.ok.inj (ho.symm.trans h))).1

theorem choose_locked (hlock : R.last_precommit i ≠ 0) :
    R.VotedFor desc (R.last_precommit i) (get_block_id desc b) := by
  obtain ⟨o, ho, hb⟩ := choose_ok hR hA i att
  exact (hb b (Except.ok.inj (ho.symm.trans h))).2 hlock

end

theorem attempt_make_one_ok (hR : R.Valid desc) (hA : A.Valid desc R.sent_blocks) (i : Fin n) (att : ℕ) :
    ∃ r, A.make_one desc i att R = .ok r := by
  have hvote : ∃ r, A.try_vote desc i att R = .ok r := by
    unfold try_vote
    split_ifs
    · exact ⟨_, rfl⟩
    · obtain ⟨o, ho, -⟩ := choose_ok hR hA i att
      rw [ho]
      cases o with
      | none => exact ⟨_, rfl⟩
      | some b => exact ⟨_, rfl⟩
  obtain ⟨⟨A', m⟩, hr⟩ := hvote
  exact ⟨_, by rw [RoundAttemptState.make_one, hr]; rfl⟩

/-- A message that `forward_action_to_attempt` is for. -/
def IsForwarded : Message → Prop
  | .vote _ _ | .voteFor _ _ | .precommit _ _ | .empty _ => True
  | _ => False

theorem attempt_action_ok (hR : R.Valid desc) (hA : A.Valid desc R.sent_blocks) (i : Fin n) (att : ℕ) {act : Message}
    (hact : IsForwarded act) : ∃ A', A.action desc i att R act = .ok A' ∧ A.Moves desc R i att A' := by
  obtain ⟨⟨A', m⟩, hone⟩ := attempt_make_one_ok hR hA i att
  have hmoves := (moves_make_one hone).1
  cases act with
  | voteFor _ cand => exact ⟨_, rfl, moves_voteFor cand⟩
  | vote => exact ⟨A', by rw [RoundAttemptState.action, hone]; rfl, hmoves⟩
  | precommit => exact ⟨A', by rw [RoundAttemptState.action, hone]; rfl, hmoves⟩
  | empty => exact ⟨A', by rw [RoundAttemptState.action, hone]; rfl, hmoves⟩
  | _ => exact hact.elim

/-! ## Votes and precommits after an attempt has moved -/

section Moved
variable (h : Moved desc R i att A R') (hR : R.Valid desc) (hatt : 0 < att)
include h hR

theorem Moved.seqno_eq : A.seqno = att := h.moves.seqno.trans (attempt_at_seqno hR att)

theorem Moved.find (a : ℕ) : find (·.seqno) R'.attempts a = if att = a then some A else find (·.seqno) R.attempts a := by
  rw [h.attempts, find_push hR.attempts_sorted, h.seqno_eq hR]

theorem Moved.hasVote_self : R'.HasVote desc att c j ↔ A.HasVote desc c j := by
  rw [HasVote, h.find hR, if_pos rfl]
  exact ⟨fun ⟨B, hB, hj⟩ => Option.some.inj hB ▸ hj, fun hj => ⟨A, rfl, hj⟩⟩

theorem Moved.hasVote_of_ne (ha : att ≠ a) : R'.HasVote desc a c j ↔ R.HasVote desc a c j := by
  rw [HasVote, HasVote, h.find hR, if_neg ha]

theorem Moved.hasPrecommit_self : R'.HasPrecommit att j ↔ A.precommitted j = true := by
  rw [HasPrecommit, h.find hR, if_pos rfl]
  exact ⟨fun ⟨B, hB, hj⟩ => Option.some.inj hB ▸ hj, fun hj => ⟨A, rfl, hj⟩⟩

theorem Moved.hasPrecommit_of_ne (ha : att ≠ a) : R'.HasPrecommit a j ↔ R.HasPrecommit a j := by
  rw [HasPrecommit, HasPrecommit, h.find hR, if_neg ha]

theorem Moved.votedFor_attempt : R'.VotedFor desc att c ↔ A.VotedFor desc c := by
  simp only [VotedFor, RoundAttemptState.VotedFor, h.hasVote_self hR]

include hatt

theorem Moved.hasVote (hv : R.HasVote desc a c j) : R'.HasVote desc a c j := by
  by_cases ha : att = a
  · subst ha
    exact (h.hasVote_self hR).2 (h.moves.hasVote (attempt_at_valid hR hatt).votes_sorted ((attempt_at_hasVote hR).2 hv))
  · exact (h.hasVote_of_ne hR ha).2 hv

theorem Moved.votedFor (hv : R.VotedFor desc a c) : R'.VotedFor desc a c := votedFor_mono (fun _ => h.hasVote hR hatt) hv

theorem Moved.attempt_valid : A.Valid desc R'.sent_blocks := by
  have hA := attempt_at_valid hR hatt
  rw [h.sent_blocks]
  exact h.moves.valid hA fun b hb => choose_sent hR hA hb

theorem Moved.valid (hlock : ∀ j, R'.last_precommit j ≠ 0 → ∃ c, R'.VotedFor desc (R'.last_precommit j) c)
    (hblock : if R'.precommitted = true then A.get_voted_block desc = some R'.precommitted_block
      else R'.precommitted_block = none) : R'.Valid desc := by
  have hA := h.attempt_valid hR hatt
  have hsorted : Sorted (·.seqno) R'.attempts := h.attempts ▸ sorted_push hR.attempts_sorted A
  refine ⟨hsorted, h.sent_blocks ▸ hR.sent_sorted, fun B hB => ?_, hlock, fun hp => ?_, fun hp => ?_, fun k sig hk => ?_, ?_⟩
  · have hf := hsorted.find_of_mem hB
    rw [h.find hR] at hf
    split_ifs at hf
    · cases hf
      exact hA
    · exact h.sent_blocks ▸ hR.attempt B (find_some hf).1
  · rw [if_pos hp] at hblock
    obtain ⟨-, v, hv, hvb⟩ := votedFor_of_voted hA.votes_sorted hblock
    obtain ⟨s, hs, hid⟩ := hA.votes_sent v hv
    exact ⟨s, hs, hid.trans (congrArg _ hvb)⟩
  · rwa [if_neg (by rw [hp]; exact Bool.false_ne_true)] at hblock
  · rw [h.signatures] at hk
    exact absurd (hR.signed k sig hk).1 (by rw [h.not_precommitted]; exact Bool.false_ne_true)
  · rw [h.sent_blocks, h.seqno]
    exact hR.priority

end Moved

/-! ## Forwarding a message to its attempt -/

theorem foldl_max_spec (f : Fin n → ℕ) (l : List (Fin n)) (e : ℕ) :
    (∀ j ∈ l, f j ≤ l.foldl (fun e i => max e (f i)) e) ∧ e ≤ l.foldl (fun e i => max e (f i)) e ∧
      (l.foldl (fun e i => max e (f i)) e = e ∨ ∃ j, l.foldl (fun e i => max e (f i)) e = f j) := by
  induction l generalizing e with
  | nil => exact ⟨fun _ => (nomatch ·), le_rfl, .inl rfl⟩
  | cons i l ih =>
    obtain ⟨h1, h2, h3⟩ := ih (max e (f i))
    refine ⟨fun j hj => ?_, (le_max_left _ _).trans h2, ?_⟩
    · rcases List.mem_cons.1 hj with rfl | hj
      · exact (le_max_right _ _).trans h2
      · exact h1 j hj
    · rcases h3 with h3 | h3
      · rcases max_choice e (f i) with h | h
        · exact .inl (h3.trans h)
        · exact .inr ⟨i, h3.trans h⟩
      · exact .inr h3

theorem le_last_lock (R : RoundState n) (j : Fin n) : R.last_precommit j ≤ R.last_lock :=
  (foldl_max_spec R.last_precommit _ 0).1 j (List.mem_finRange j)

theorem last_lock_voted (hR : R.Valid desc) (h : R.last_lock ≠ 0) : ∃ c, R.VotedFor desc R.last_lock c := by
  rcases (foldl_max_spec R.last_precommit (List.finRange n) 0).2.2 with h0 | ⟨j, hj⟩
  · exact absurd h0 h
  · have hj : R.last_lock = R.last_precommit j := hj
    rw [hj] at h ⊢
    exact hR.lock j h

/-- The locks that the voted block of attempt `att` leaves. -/
structure Released (desc : Description n) (R : RoundState n) (att : ℕ) (voted : Option (Option (SentBlock n))) (eq : Bool)
    (lock : NodeVec n ℕ) : Prop where
  kept : ∀ j, lock j = R.last_precommit j ∨ lock j = 0 ∧ R.last_precommit j ≤ att ∧ eq = false
  other : eq = false → ∃ b d, voted = some b ∧ get_block_id desc b ≠ d ∧ R.VotedFor desc R.last_lock d

theorem release_locks_ok (hR : R.Valid desc) (att : ℕ) (voted : Option (Option (SentBlock n))) :
    ∃ eq lock, R.release_locks desc att voted R.last_lock = .ok (eq, lock) ∧ Released desc R att voted eq lock := by
  have keep : Released desc R att voted true R.last_precommit := ⟨fun _ => .inl rfl, (nomatch ·)⟩
  unfold release_locks
  cases voted with
  | none => exact ⟨_, _, rfl, keep⟩
  | some b =>
    dsimp only
    split_ifs with he
    · exact ⟨_, _, rfl, keep⟩
    · obtain ⟨c, hc⟩ := last_lock_voted hR he
      obtain ⟨B, hB, hv⟩ := locked_block_ok hR hc
      rw [hB, Result.ok_bind]
      split_ifs with heq
      · exact ⟨_, _, rfl, keep⟩
      · refine ⟨_, _, rfl, fun j => ?_, fun _ => ⟨b, _, rfl, heq, hv⟩⟩
        unfold NodeVec.modify
        dsimp only
        split_ifs with hgt
        · exact .inl rfl
        · exact .inr ⟨rfl, not_lt.1 hgt, rfl⟩

theorem attempt_voted (hA : A.Valid desc R.sent_blocks) (h : A.precommitted j = true) :
    ∃ b, A.get_voted_block desc = some b := by
  obtain ⟨c, hc⟩ := hA.voted j h
  exact hc.voted

theorem refresh_precommitted_ok (hR : R.Valid desc) (hp : R.precommitted = false) (hA : A.Valid desc R.sent_blocks) :
    ∃ f b, R.refresh_precommitted desc A = .ok (f, b) ∧ f = A.check_attempt_is_precommitted desc ∧
      if f = true then A.get_voted_block desc = some b else b = none := by
  unfold refresh_precommitted
  by_cases hq : A.check_attempt_is_precommitted desc = true
  · obtain ⟨j, hj⟩ := exists_of_check_weight hq
    obtain ⟨b, hb⟩ := attempt_voted hA hj
    exact ⟨true, b, by rw [if_pos hq, hb], hq.symm, hb⟩
  · exact ⟨false, _, by rw [if_neg hq], (Bool.not_eq_true _ ▸ hq).symm, hR.not_precommitted hp⟩

/-- The locks that `set_lock` leaves. -/
def newLocks (R : RoundState n) (i : Fin n) (att : ℕ) (A : RoundAttemptState n) (eq : Bool) (lock : NodeVec n ℕ) : NodeVec n ℕ :=
  if A.precommitted i = true ∧ lock i < att ∧ (att > R.last_lock ∨ eq = true) then change lock i att else lock

theorem set_lock_ok (hA : A.Valid desc R.sent_blocks) (eq : Bool) (lock : NodeVec n ℕ) :
    set_lock desc i att A R.last_lock eq lock = .ok (R.newLocks i att A eq lock) := by
  unfold set_lock newLocks check_precommit_received_from
  split_ifs with hset
  · obtain ⟨b, hb⟩ := attempt_voted hA hset.1
    rw [hb]
    rfl
  · rfl

section Locks
variable {eq : Bool} {lock : NodeVec n ℕ} (h : Moved desc R i att A R') (hR : R.Valid desc) (hatt : 0 < att)
  (hrel : Released desc R att (A.get_voted_block desc) eq lock) (hlock : R'.last_precommit = R.newLocks i att A eq lock)
include h hR hatt hrel

theorem Released.contested (heq : eq = false) {x : ℕ} (hx : x ≤ att) (hx' : x ≤ R.last_lock) : R'.Contested desc x := by
  obtain ⟨b, d, hb, hne, hd⟩ := hrel.other heq
  have hA := (votedFor_of_voted (h.attempt_valid hR hatt).votes_sorted hb).1
  exact ⟨att, R.last_lock, _, d, hx, hx', hne, (h.votedFor_attempt hR).2 hA, h.votedFor hR hatt hd⟩

include hlock

theorem Released.lock_kept (j : Fin n) : R.last_precommit j ≤ R'.last_precommit j ∨ R'.Contested desc (R.last_precommit j) := by
  rcases hrel.kept j with hj | ⟨-, hle, heq⟩
  · left
    rw [hlock, newLocks]
    split_ifs with hset
    · by_cases hji : j = i
      · subst hji
        rw [change, update_self, ← hj]
        exact hset.2.1.le
      · rw [change, update_of_ne hji, hj]
    · exact hj.ge
  · exact .inr (hrel.contested h hR hatt heq hle (le_last_lock R j))

theorem Released.lock_set (hp : A.precommitted i = true) : att ≤ R'.last_precommit i ∨ R'.Contested desc att := by
  rw [hlock, newLocks]
  split_ifs with hset
  · left
    rw [change, update_self]
  · by_cases hlt : lock i < att
    · have hno : ¬ (att > R.last_lock ∨ eq = true) := fun hor => hset ⟨hp, hlt, hor⟩
      obtain ⟨hle, heq⟩ := not_or.1 hno
      exact .inr (hrel.contested h hR hatt (Bool.not_eq_true _ ▸ heq) le_rfl (not_lt.1 hle))
    · exact .inl (not_lt.1 hlt)

theorem Released.lock_voted (j : Fin n) (hj : R'.last_precommit j ≠ 0) : ∃ c, R'.VotedFor desc (R'.last_precommit j) c := by
  have old : ∀ k, lock k ≠ 0 → ∃ c, R'.VotedFor desc (lock k) c := by
    intro k hk
    rcases hrel.kept k with h' | ⟨h', -⟩
    · rw [h'] at hk ⊢
      obtain ⟨c, hc⟩ := hR.lock k hk
      exact ⟨c, h.votedFor hR hatt hc⟩
    · exact absurd h' hk
  rw [hlock, newLocks] at hj ⊢
  split_ifs at hj ⊢ with hset
  · by_cases hji : j = i
    · subst hji
      rw [change, update_self]
      obtain ⟨c, hc⟩ := (h.attempt_valid hR hatt).voted j hset.1
      exact ⟨c, (h.votedFor_attempt hR).2 hc⟩
    · rw [change, update_of_ne hji] at hj ⊢
      exact old j hj
  · exact old j hj

end Locks

theorem forward_ok (hR : R.Valid desc) (hatt : 0 < att) (i : Fin n) {act : Message} (hact : IsForwarded act) :
    ∃ R', R.forward_action_to_attempt desc i att act = .ok R' ∧
      (R' = R ∨ ∃ A, Forwarded desc R i att A R') := by
  unfold forward_action_to_attempt
  split_ifs with hp
  · exact ⟨R, rfl, .inl rfl⟩
  · have hA0 := attempt_at_valid hR hatt
    obtain ⟨A, hact, hmoves⟩ := attempt_action_ok hR hA0 i att hact
    have hA := hmoves.valid hA0 fun b hb => choose_sent hR hA0 hb
    obtain ⟨f, b, hf, hflag, hblock⟩ := refresh_precommitted_ok hR (Bool.not_eq_true _ ▸ hp) hA
    obtain ⟨eq, lock, hrl, hrel⟩ := release_locks_ok hR att (A.get_voted_block desc)
    rw [hact, Result.ok_bind, hf, Result.ok_bind]
    dsimp only
    rw [hrl, Result.ok_bind, set_lock_ok hA]
    have forwarded : ∀ R', Moved desc R i att A R' → R'.last_precommit = R.newLocks i att A eq lock → R'.precommitted = f →
        R'.precommitted_block = b → Forwarded desc R i att A R' := by
      rintro R' hmoved hlock rfl rfl
      exact ⟨hmoved, hrel.lock_kept hmoved hR hatt hlock, hrel.lock_set hmoved hR hatt hlock,
        hrel.lock_voted hmoved hR hatt hlock, hflag, hblock⟩
    exact ⟨_, rfl, .inr ⟨A, forwarded _ ⟨Bool.not_eq_true _ ▸ hp, hmoves, rfl, rfl, rfl, rfl⟩ rfl rfl rfl⟩⟩

theorem make_one_ok (hR : R.Valid desc) (hatt : 0 < att) (i : Fin n) :
    ∃ A m, (R.attempt_at att).make_one desc i att R = .ok (A, m) ∧ (R.attempt_at att).Moves desc R i att A ∧
      (m = false → A = R.attempt_at att) := by
  obtain ⟨⟨A, m⟩, h⟩ := attempt_make_one_ok hR (attempt_at_valid hR hatt) i att
  exact ⟨A, m, h, moves_make_one h⟩

/-! ## Candidates and signatures -/

section
variable {v : List (SessionBlockCandidate n)} (hs : Sorted (·.get_id desc) v) (x : SessionBlockCandidate n) {s : SessionBlockCandidate n}
include hs

theorem exists_mem_push (h : s ∈ v) :
    ∃ s' ∈ push (·.get_id desc) v x, s'.get_id desc = s.get_id desc := by
  have hf := find_push hs x (s.get_id desc)
  split_ifs at hf with hid
  · exact ⟨x, (find_some hf).1, hid⟩
  · rw [hs.find_of_mem h] at hf
    exact ⟨s, (find_some hf).1, rfl⟩

theorem mem_push (h : s ∈ push (·.get_id desc) v x) : s = x ∨ s ∈ v := by
  have hf := (sorted_push hs x).find_of_mem h
  rw [find_push hs] at hf
  split_ifs at hf
  · exact .inl (Option.some.inj hf).symm
  · exact .inr (find_some hf).1

end

theorem enter_attempt_quiet (R : RoundState n) (i : Fin n) (att : ℕ) : Quiet R (R.enter_attempt i att) ∧
    (R.enter_attempt i att).sent_blocks = R.sent_blocks ∧ (R.enter_attempt i att).signatures = R.signatures := by
  unfold enter_attempt
  split_ifs
  · exact ⟨⟨rfl, rfl, rfl, rfl, rfl⟩, rfl, rfl⟩
  · exact ⟨.refl R, rfl, rfl⟩

theorem Quiet.valid (h : Quiet R R') (hR : R.Valid desc) (hs : Sorted (·.get_id desc) R'.sent_blocks)
    (hsent : ∀ s ∈ R.sent_blocks, ∃ s' ∈ R'.sent_blocks, s'.get_id desc = s.get_id desc)
    (hprio : ∀ s ∈ R'.sent_blocks, ∀ b, s.block = some b → 0 ≤ desc.get_node_priority b.src_idx R.seqno)
    (hsig : ∀ j sig, R'.signatures j = some sig → R.precommitted = true ∧ ValidSignature desc R.precommitted_block j sig) :
    R'.Valid desc where
  attempts_sorted := h.attempts ▸ hR.attempts_sorted
  sent_sorted := hs
  attempt A hA := (hR.attempt A (h.attempts ▸ hA)).sent_mono hsent
  lock j hj := by
    rw [h.last_precommit] at hj ⊢
    obtain ⟨c, hc⟩ := hR.lock j hj
    exact ⟨c, h.votedFor.2 hc⟩
  precommitted_sent hp := by
    obtain ⟨s, hs, hid⟩ := hR.precommitted_sent (h.precommitted ▸ hp)
    obtain ⟨s', hs', hid'⟩ := hsent s hs
    exact ⟨s', hs', by rw [hid', hid, h.precommitted_block]⟩
  not_precommitted hp := h.precommitted_block.trans (hR.not_precommitted (h.precommitted ▸ hp))
  signed j sig hj := by
    rw [h.precommitted, h.precommitted_block]
    exact hsig j sig hj
  priority := h.seqno ▸ hprio

theorem enter_attempt_valid (hR : R.Valid desc) (i : Fin n) (att : ℕ) : (R.enter_attempt i att).Valid desc := by
  obtain ⟨h, hsent, hsig⟩ := enter_attempt_quiet R i att
  refine h.valid hR (hsent ▸ hR.sent_sorted) (fun s hs => ⟨s, hsent ▸ hs, rfl⟩) (hsent ▸ hR.priority) fun j sig hj => ?_
  exact hR.signed j sig (hsig ▸ hj)

theorem sent_valid (hR : R.Valid desc) (x : SessionBlockCandidate n)
    (hx : ∀ b, x.block = some b → 0 ≤ desc.get_node_priority b.src_idx R.seqno) :
    ({ R with sent_blocks := push (·.get_id desc) R.sent_blocks x } : RoundState n).Valid desc := by
  refine Quiet.valid (R := R) ⟨rfl, rfl, rfl, rfl, rfl⟩ hR (sorted_push hR.sent_sorted x)
    (fun s hs => exists_mem_push hR.sent_sorted x hs) (fun s hs => ?_) hR.signed
  rcases mem_push hR.sent_sorted x hs with rfl | hs
  · exact hx
  · exact hR.priority s hs

theorem submittedBlock_ok (hR : R.Valid desc) (i : Fin n) (root_hash file_hash collated : ℕ) :
    Quiet R (R.submittedBlock desc i root_hash file_hash collated) ∧
      (R.submittedBlock desc i root_hash file_hash collated).Valid desc := by
  unfold submittedBlock
  split_ifs with hprio hdup
  · exact ⟨.refl R, hR⟩
  · exact ⟨.refl R, hR⟩
  · refine ⟨⟨rfl, rfl, rfl, rfl, rfl⟩, sent_valid hR _ fun b hb => ?_⟩
    cases hb
    exact not_lt.1 hprio

theorem approve_ok (hR : R.Valid desc) (i : Fin n) (s : SessionBlockCandidate n) (sig : Signature)
    (hs : ∀ b, s.block = some b → 0 ≤ desc.get_node_priority b.src_idx R.seqno) :
    Quiet R (R.approve desc i s sig) ∧ (R.approve desc i s sig).Valid desc := by
  refine ⟨⟨rfl, rfl, rfl, rfl, rfl⟩, sent_valid hR _ fun b hb => hs b ?_⟩
  unfold SessionBlockCandidate.push at hb
  split_ifs at hb
  · exact hb
  · exact hb

theorem check_block_signature_ok (desc : Description n) (check_sig : ℕ → ℕ → Fin n → Signature → Bool) (block : Option (SentBlock n)) (i : Fin n)
    (sig : Signature) : ∃ v, check_block_signature check_sig block i (get_block_id desc block) sig = .ok v := by
  unfold check_block_signature
  split_ifs with h
  · exact ⟨_, rfl⟩
  · cases block with
    | none => exact absurd rfl h
    | some b => exact ⟨_, rfl⟩

theorem validSignature_of_check {block : Option (SentBlock n)} {sig : Signature}
    (h : check_block_signature desc.check_signature block i (get_block_id desc block) sig = .ok true) :
    ValidSignature desc block i sig := by
  unfold check_block_signature at h
  cases block with
  | none =>
    rw [if_pos (by rfl)] at h
    simpa [ValidSignature] using h
  | some b =>
    rw [if_neg (show get_block_id desc (some b) ≠ _ from desc.candidate_id_ne_skip _ _ _ _)] at h
    exact Except.ok.inj h

theorem approvedBlock_ok (hR : R.Valid desc) (i : Fin n) (cand : CandidateId) (sig : Signature) :
    ∃ R', R.approvedBlock desc i cand sig = .ok R' ∧ Quiet R R' ∧ R'.Valid desc := by
  have stay : ∃ R', (.ok R : Exc (RoundState n)) = .ok R' ∧ Quiet R R' ∧ R'.Valid desc := ⟨R, rfl, .refl R, hR⟩
  unfold approvedBlock
  cases hs : R.get_block desc cand with
  | none =>
    dsimp only
    split_ifs with hcand
    · exact stay
    · obtain rfl := not_not.1 hcand
      obtain ⟨v, hv⟩ := check_block_signature_ok desc desc.check_approve_signature none i sig
      rw [show check_block_signature _ none i skip_round_candidate_id sig = .ok v from hv, Result.ok_bind]
      cases v with
      | false => exact stay
      | true => exact ⟨_, by rw [check_pos rfl]; rfl, approve_ok hR i (.create none) sig fun b hb => by cases hb⟩
  | some s =>
    dsimp only
    obtain ⟨hmem, hid⟩ := find_some (show find (·.get_id desc) R.sent_blocks cand = some s from hs)
    split_ifs with h1 h2
    · exact stay
    · exact stay
    · obtain ⟨v, hv⟩ := check_block_signature_ok desc desc.check_approve_signature s.block i sig
      rw [show get_block_id desc s.block = cand from hid] at hv
      rw [hv, Result.ok_bind]
      cases v with
      | false => exact stay
      | true => exact ⟨_, rfl, approve_ok hR i s sig (hR.priority s hmem)⟩

theorem commit_ok (hR : R.Valid desc) (i : Fin n) (cand : CandidateId) (sig : Signature) :
    ∃ R', R.commit desc i cand sig = .ok R' ∧ Quiet R R' ∧ R'.Valid desc := by
  have stay : ∃ R', (.ok R : Exc (RoundState n)) = .ok R' ∧ Quiet R R' ∧ R'.Valid desc := ⟨R, rfl, .refl R, hR⟩
  unfold commit
  split_ifs with hp hcand hdup
  · exact stay
  · exact stay
  · exact stay
  · obtain rfl := not_not.1 hcand
    obtain ⟨v, hv⟩ := check_block_signature_ok desc desc.check_signature R.precommitted_block i sig
    rw [hv, Result.ok_bind]
    cases v with
    | false => exact stay
    | true =>
      have hp : R.precommitted = true := by simpa using hp
      refine ⟨_, rfl, ⟨rfl, rfl, rfl, rfl, rfl⟩, Quiet.valid (R := R) ⟨rfl, rfl, rfl, rfl, rfl⟩ hR hR.sent_sorted
        (fun s hs => ⟨s, hs, rfl⟩) hR.priority fun j sig' hj => ?_⟩
      have hj : change R.signatures i (some sig) j = some sig' := hj
      by_cases hji : j = i
      · subst hji
        rw [change, update_self] at hj
        cases hj
        exact ⟨hp, validSignature_of_check hv⟩
      · rw [change, update_of_ne hji] at hj
        exact hR.signed j sig' hj

theorem action_ok (hR : R.Valid desc) (hatt : 0 < att) (i : Fin n) (act : Message) :
    ∃ R', R.action desc i att act = .ok R' ∧ R'.Valid desc ∧
      (Quiet R R' ∨ ∃ A, Forwarded desc (R.enter_attempt i att) i att A R') := by
  have hE := enter_attempt_valid hR i att
  have hq := (enter_attempt_quiet R i att).1
  have quiet : ∀ {x : Exc (RoundState n)}, (∃ R', x = .ok R' ∧ Quiet (R.enter_attempt i att) R' ∧ R'.Valid desc) →
      ∃ R', x = .ok R' ∧ R'.Valid desc ∧ (Quiet R R' ∨ ∃ A, Forwarded desc (R.enter_attempt i att) i att A R') := by
    rintro x ⟨R', hx, hq', hv⟩
    exact ⟨R', hx, hv, .inl (hq.trans hq')⟩
  have forward : ∀ {act}, IsForwarded act → ∃ R', (R.enter_attempt i att).forward_action_to_attempt desc i att act = .ok R' ∧
      R'.Valid desc ∧ (Quiet R R' ∨ ∃ A, Forwarded desc (R.enter_attempt i att) i att A R') := by
    intro act hact
    obtain ⟨R', h, rfl | ⟨A, hA⟩⟩ := forward_ok hE hatt i hact
    · exact ⟨_, h, hE, .inl hq⟩
    · exact ⟨R', h, hA.toMoved.valid hE hatt hA.lock_voted hA.block, .inr ⟨A, hA⟩⟩
  cases act with
  | submittedBlock _ root_hash file_hash collated => exact quiet ⟨_, rfl, submittedBlock_ok hE i root_hash file_hash collated⟩
  | approvedBlock _ cand sig => exact quiet (approvedBlock_ok hE i cand sig)
  | rejectedBlock => exact ⟨_, rfl, hE, .inl hq⟩
  | commit _ cand sig => exact quiet (commit_ok hE i cand sig)
  | vote => exact forward trivial
  | voteFor => exact forward trivial
  | precommit => exact forward trivial
  | empty => exact forward trivial

end RoundState

end Ton.Session
