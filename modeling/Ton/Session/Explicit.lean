import Ton.Session.VoteFor
/-!
# Implicit and explicit actions

`make_one` adds the vote or precommit that a node left out to the round itself;
a message goes through `forward_action_to_attempt`, which also keeps the locks and
the precommitted flag. What both do to the attempt is the same (`attempt_after`), so
they differ exactly where there is a lock or the flag to change (`ActsAlike`).
-/

namespace Ton.Session
open Voting Keyed List Function SentBlock RoundAttemptState CntSortedVector RoundState
open Except (ok.inj)

variable {n : ℕ} {desc : Description n} {faulty : Set (Fin n)} {R R' : RoundState n} {A A' : RoundAttemptState n} {i j : Fin n}
  {att : ℕ} {c d : CandidateId} {m : Bool} {σ : Network n} {s t : SessionState n}

namespace RoundState

variable (desc : Description n) (R : RoundState n) (i : Fin n) (att : ℕ)

/-- The vote that the node gives next in the attempt, if it gives one at all. -/
def NextVote (c : CandidateId) : Prop :=
  (R.attempt_at att).check_vote_received_from i = false ∧ ∃ b,
    R.choose_block_to_vote desc i att (R.attempt_at att).vote_for (R.attempt_at att).vote_for_inited = .ok (some b) ∧
      get_block_id desc b = c

/-- There is no vote to give, and the node precommits the attempt next. -/
def NextPrecommit : Prop :=
  NoVote desc R i att (R.attempt_at att) ∧ (R.attempt_at att).check_precommit_received_from i = false ∧
    ((R.attempt_at att).get_voted_block desc).isSome = true

/-- The nodes whose votes for `c` the attempt has once node `i` has acted. -/
def voters (c : CandidateId) : Set (Fin n) := {j | (R.attempt_at att).HasVote desc c j ∨ j = i ∧ R.NextVote desc i att c}

def precommitters : Set (Fin n) := {j | (R.attempt_at att).precommitted j = true ∨ j = i ∧ R.NextPrecommit desc i att}

/-- No node is locked, or the last lock is to this block. -/
def SameAsLock (b : Option (SentBlock n)) : Prop := R.last_lock = 0 ∨ R.locked_block desc R.last_lock = .ok b

/-- With `b` the voted block of the attempt no lock has to change: the node is locked to
the attempt or a later one if it precommitted, and no lock up to the attempt is on another block. -/
structure LocksStay (b : Option (SentBlock n)) : Prop where
  set : R.SameAsLock desc b → i ∈ R.precommitters desc i att → att ≤ R.last_precommit i
  release : ¬ R.SameAsLock desc b → ∀ j, R.last_precommit j = 0 ∨ att < R.last_precommit j

/-- No later lock keeps a node that precommitted the attempt `A` from being locked to it. -/
def CanLock (A : RoundAttemptState n) : Prop :=
  R.last_lock < att ∨ ∃ b, A.get_voted_block desc = some b ∧ R.SameAsLock desc b

/-- There is neither a flag to set nor a lock to change. -/
def ActsAlike : Prop :=
  R.precommitted = true ∨ ¬ desc.IsQuorum (R.precommitters desc i att) ∧
    ∀ b, desc.IsQuorum (R.voters desc i att (get_block_id desc b)) → R.LocksStay desc i att b

end RoundState

/-! ## The attempt after either action -/

namespace RoundAttemptState

theorem make_one_vote {b : Option (SentBlock n)} (hnot : A.check_vote_received_from i = false)
    (hb : R.choose_block_to_vote desc i att A.vote_for A.vote_for_inited = .ok (some b)) :
    A.make_one desc i att R = .ok (A.addVote desc i b, true) := by
  have hvote : A.try_vote desc i att R = .ok (A.addVote desc i b, true) := by
    rw [try_vote, if_neg (by rw [hnot]; exact Bool.false_ne_true), hb]
    rfl
  rw [make_one, hvote]
  rfl

end RoundAttemptState

namespace RoundState

theorem NextVote.not_noVote (h : R.NextVote desc i att c) : ¬ NoVote desc R i att (R.attempt_at att) := by
  obtain ⟨hnot, b, hb, -⟩ := h
  rintro (hv | hv)
  · exact Bool.noConfusion (hnot.symm.trans hv)
  · cases hb.symm.trans hv

/-- What node `i` does next shows in the votes and precommits of the attempt. -/
theorem attempt_after (hR : R.Valid desc) (hatt : 0 < att) (h : (R.attempt_at att).make_one desc i att R = .ok (A, m)) :
    (∀ c j, A.HasVote desc c j ↔ j ∈ R.voters desc i att c) ∧ ∀ j, A.precommitted j = true ↔ j ∈ R.precommitters desc i att := by
  have hs := (attempt_at_valid hR hatt).votes_sorted
  rcases make_one_cases h with ⟨rfl, rfl⟩ | ⟨-, hnot, b, rfl, hb⟩ | ⟨-, hno, hnot, rfl, b, hb⟩
  · have hvote : ∀ c, ¬ R.NextVote desc i att c := by
      rintro c ⟨hnot, b, hb, -⟩
      exact Bool.noConfusion (Prod.mk.inj (ok.inj (h.symm.trans (RoundAttemptState.make_one_vote hnot hb)))).2
    have hpre : ¬ R.NextPrecommit desc i att := by
      rintro ⟨hno, hnot, hv⟩
      obtain ⟨b, hb⟩ := Option.isSome_iff_exists.1 hv
      exact Bool.noConfusion (Prod.mk.inj (ok.inj (h.symm.trans (make_one_precommit hno hnot hb)))).2
    exact ⟨fun c j => (or_iff_left fun h => hvote c h.2).symm, fun j => (or_iff_left fun h => hpre h.2).symm⟩
  · have hnext : ∀ c, R.NextVote desc i att c ↔ c = get_block_id desc b := fun c => by
      constructor
      · rintro ⟨-, b', hb', rfl⟩
        rw [Option.some.inj (ok.inj (hb'.symm.trans hb))]
      · rintro rfl
        exact ⟨hnot, b, hb, rfl⟩
    refine ⟨fun c j => ?_, fun j => (or_iff_left fun h => ?_).symm⟩
    · rw [hasVote_addVote hs, ← hnext]
      rfl
    · exact NextVote.not_noVote ((hnext _).2 rfl) h.2.1
  · have hnext : R.NextPrecommit desc i att := ⟨hno, hnot, by rw [hb]; rfl⟩
    refine ⟨fun c j => (or_iff_left fun h => NextVote.not_noVote h.2 hno).symm, fun j => ?_⟩
    rw [addPrecommit_precommitted]
    exact or_congr_right (and_iff_left hnext).symm

/-! ## The round after a message -/

/-- The messages that `create_action` makes. -/
def IsOwn : Message → Prop
  | .vote _ _ | .precommit _ _ | .empty _ => True
  | _ => False

variable {act : Message}

theorem own_action (hact : IsOwn act) (h : A.make_one desc i att R = .ok (A', m)) :
    A.action desc i att R act = .ok A' := by
  cases act with
  | vote => rw [RoundAttemptState.action, h]; rfl
  | precommit => rw [RoundAttemptState.action, h]; rfl
  | empty => rw [RoundAttemptState.action, h]; rfl
  | _ => exact hact.elim

theorem release_locks_eq (hR : R.Valid desc) (b : Option (SentBlock n)) :
    (R.SameAsLock desc b → R.release_locks desc att (some b) R.last_lock = .ok (true, R.last_precommit)) ∧
      (¬ R.SameAsLock desc b → R.release_locks desc att (some b) R.last_lock =
        .ok (false, NodeVec.modify R.last_precommit fun a => if a > att then a else 0)) := by
  unfold release_locks SameAsLock
  dsimp only
  by_cases he : R.last_lock = 0
  · rw [if_pos he]
    exact ⟨fun _ => rfl, fun h => absurd (.inl he) h⟩
  · obtain ⟨c, hc⟩ := last_lock_voted hR he
    obtain ⟨B, hB, -⟩ := locked_block_ok hR hc
    rw [if_neg he, hB, Result.ok_bind, or_iff_right he]
    by_cases hid : get_block_id desc b = get_block_id desc B
    · rw [if_pos hid, get_block_id_inj hid]
      exact ⟨fun _ => rfl, fun h => absurd rfl h⟩
    · rw [if_neg hid]
      exact ⟨fun h => absurd (congrArg _ (ok.inj h).symm) hid, fun _ => rfl⟩

section
variable (hR : R.Valid desc) (hA : A.Valid desc R.sent_blocks)
include hR hA

variable {lock : NodeVec n ℕ} {eq : Bool}

/-- The locks come out as they were exactly when none has to change. -/
theorem newLocks_eq_iff (hpre : ∀ j, A.precommitted j = true ↔ j ∈ R.precommitters desc i att)
    (h : R.release_locks desc att (A.get_voted_block desc) R.last_lock = .ok (eq, lock)) :
    R.newLocks i att A eq lock = R.last_precommit ↔ ∀ b, A.get_voted_block desc = some b → R.LocksStay desc i att b := by
  unfold newLocks
  cases hb : A.get_voted_block desc with
  | none =>
    rw [hb] at h
    cases h
    have hno : ¬ A.precommitted i = true := fun hp => by
      obtain ⟨b, hb'⟩ := attempt_voted hA hp
      cases hb.symm.trans hb'
    rw [if_neg fun h => hno h.1]
    exact iff_of_true rfl fun _ h => (by cases h)
  | some b =>
    rw [hb] at h
    by_cases hsame : R.SameAsLock desc b
    · cases h.symm.trans ((release_locks_eq hR b).1 hsame)
      have hset : (NodeVec.change R.last_precommit i att = R.last_precommit) ↔ R.last_precommit i = att := by
        rw [NodeVec.change, update_eq_self_iff]
        exact eq_comm
      constructor
      · rintro he b' hb'
        obtain rfl := Option.some.inj hb'
        refine ⟨fun _ hp => ?_, fun h => absurd hsame h⟩
        split_ifs at he with hif
        · exact (hset.1 he).ge
        · by_contra hlt
          exact hif ⟨(hpre i).2 hp, Nat.not_le.1 hlt, .inr rfl⟩
      · intro hstay
        have hle := (hstay b rfl).set hsame
        rw [if_neg fun hif => absurd (hle ((hpre i).1 hif.1)) (Nat.not_le.2 hif.2.1)]
    · obtain ⟨rfl, hlock⟩ := Prod.mk.inj (ok.inj (h.symm.trans ((release_locks_eq hR b).2 hsame)))
      replace hlock : ∀ j, lock j = if R.last_precommit j > att then R.last_precommit j else 0 := congrFun hlock
      have he0 : R.last_lock ≠ 0 := fun h0 => hsame (.inl h0)
      constructor
      · rintro he b' hb'
        obtain rfl := Option.some.inj hb'
        refine ⟨fun h => absurd h hsame, fun _ j => ?_⟩
        by_contra hno
        obtain ⟨h0, hle⟩ := not_or.1 hno
        have hrel : lock j = 0 := (hlock j).trans (if_neg hle)
        by_cases hif : A.precommitted i = true ∧ lock i < att ∧ (att > R.last_lock ∨ false = true)
        · -- a node is not locked anew to the attempt that it was locked to
          rw [if_pos hif] at he
          have hj := congrFun he j
          have hlt : R.last_lock < att := hif.2.2.resolve_right Bool.false_ne_true
          by_cases hji : j = i
          · subst hji
            rw [NodeVec.change, update_self] at hj
            have := le_last_lock R j
            omega
          · rw [NodeVec.change, update_of_ne hji, hrel] at hj
            exact h0 hj.symm
        · rw [if_neg hif] at he
          exact h0 ((congrFun he j).symm.trans hrel)
      · intro hstay
        have hall := (hstay b rfl).release hsame
        have hrel : lock = R.last_precommit := by
          funext j
          rw [hlock]
          rcases hall j with h0 | hlt
          · rw [if_neg (by omega), h0]
          · rw [if_pos hlt]
        obtain ⟨k, hk⟩ : ∃ k, R.last_lock = R.last_precommit k := (foldl_max_spec R.last_precommit (List.finRange n) 0).2.2.resolve_left he0
        have hlt : ¬ att > R.last_lock := by
          rcases hall k with h0 | hlt <;> omega
        rw [hrel, if_neg]
        rintro ⟨-, -, h | h⟩
        · exact hlt h
        · cases h

/-- A node that is not locked is locked to the attempt, or stays as it is. -/
theorem newLocks_self (hatt : 0 < att)
    (h : R.release_locks desc att (A.get_voted_block desc) R.last_lock = .ok (eq, lock)) (h0 : R.last_precommit i = 0) :
    R.newLocks i att A eq lock i ≠ 0 ↔ A.precommitted i = true ∧ R.CanLock desc att A := by
  have hcase : lock i = 0 ∧ (A.precommitted i = true → (eq = true ↔ ∃ b, A.get_voted_block desc = some b ∧ R.SameAsLock desc b)) := by
    cases hb : A.get_voted_block desc with
    | none =>
      rw [hb] at h
      cases h
      refine ⟨h0, fun hp => ?_⟩
      obtain ⟨b, hb'⟩ := attempt_voted hA hp
      cases hb.symm.trans hb'
    | some b =>
      rw [hb] at h
      by_cases hsame : R.SameAsLock desc b
      · cases h.symm.trans ((release_locks_eq hR b).1 hsame)
        exact ⟨h0, fun _ => iff_of_true rfl ⟨b, rfl, hsame⟩⟩
      · obtain ⟨rfl, hlock⟩ := Prod.mk.inj (ok.inj (h.symm.trans ((release_locks_eq hR b).2 hsame)))
        refine ⟨(congrFun hlock i).trans (if_neg (by rw [h0]; exact Nat.not_lt_zero _)), fun _ => iff_of_false Bool.false_ne_true ?_⟩
        rintro ⟨b', hb', hs⟩
        exact hsame (Option.some.inj hb' ▸ hs)
  obtain ⟨hz, heq⟩ := hcase
  unfold newLocks CanLock
  by_cases hp : A.precommitted i = true
  · rw [← heq hp, hz]
    by_cases hlt : att > R.last_lock ∨ eq = true
    · rw [if_pos ⟨hp, hatt, hlt⟩, NodeVec.change, update_self]
      exact iff_of_true hatt.ne' ⟨hp, hlt⟩
    · rw [if_neg fun h => hlt h.2.2]
      exact iff_of_false (fun h => h hz) fun h => hlt h.2
  · rw [if_neg fun h => hp h.1]
    exact iff_of_false (fun h => h hz) fun h => hp h.1

/-- A later lock that keeps the node from being locked to the attempt stays. -/
theorem not_canLock_after (hm : Moved desc R i att A R') (h : R.release_locks desc att (A.get_voted_block desc) R.last_lock = .ok (eq, lock))
    (hlast : R'.last_precommit = R.newLocks i att A eq lock) (hsame : A.get_voted_block desc = (R.attempt_at att).get_voted_block desc)
    (hp : A.precommitted i = true) (hcan : ¬ R.CanLock desc att A) : ¬ R'.CanLock desc att A := by
  obtain ⟨b, hb⟩ := attempt_voted hA hp
  obtain ⟨hle, hother⟩ := not_or.1 hcan
  replace hother : ¬ R.SameAsLock desc b := fun h => hother ⟨b, hb, h⟩
  obtain ⟨he0, hlocked⟩ := not_or.1 hother
  rw [hb] at h
  obtain ⟨rfl, hlock⟩ := Prod.mk.inj (ok.inj (h.symm.trans ((release_locks_eq hR b).2 hother)))
  replace hlock : ∀ j, lock j = if R.last_precommit j > att then R.last_precommit j else 0 := congrFun hlock
  have hne : R.last_lock ≠ att := by
    intro he
    obtain ⟨c, hc⟩ := last_lock_voted hR he0
    obtain ⟨B, hB, -⟩ := locked_block_ok hR hc
    rw [he, locked_block] at hB hlocked
    rw [hb, attempt_at] at hsame
    cases hf : get_attempt R.attempts att with
    | none =>
      rw [hf] at hB
      cases hB
    | some A' =>
      rw [hf] at hlocked hsame
      dsimp only [Option.getD_some] at hlocked hsame
      rw [← hsame] at hlocked
      exact hlocked rfl
  have hkeep : R'.last_precommit = lock := by
    rw [hlast, newLocks, if_neg]
    rintro ⟨-, -, h | h⟩
    · omega
    · cases h
  have hlast : R'.last_lock = R.last_lock := by
    refine le_antisymm ?_ ?_
    · rcases (foldl_max_spec R'.last_precommit (List.finRange n) 0).2.2 with h0 | ⟨j, hj⟩
      · exact (show R'.last_lock = 0 from h0).trans_le (Nat.zero_le _)
      · rw [show R'.last_lock = _ from hj, hkeep, hlock]
        split_ifs
        · exact le_last_lock R j
        · exact Nat.zero_le _
    · obtain ⟨k, hk⟩ : ∃ k, R.last_lock = R.last_precommit k := (foldl_max_spec R.last_precommit (List.finRange n) 0).2.2.resolve_left he0
      have hk' := le_last_lock R' k
      rw [hkeep, hlock, if_pos (by omega)] at hk'
      omega
  have hblock : R'.locked_block desc R.last_lock = R.locked_block desc R.last_lock := by
    have hs : Sorted (·.seqno) R'.attempts := hm.attempts ▸ sorted_push hR.attempts_sorted A
    rw [locked_block, locked_block, get_attempt_eq hR, get_attempt, get_eq hs, hm.find hR, if_neg hne.symm]
  rintro (h | ⟨b', hb', h⟩)
  · omega
  · obtain rfl := Option.some.inj (hb.symm.trans hb')
    rw [SameAsLock, hlast, hblock] at h
    exact hother h

end

/-- Two states of a round that agree on what the votes and precommits decide. -/
structure SameOutcome (desc : Description n) (R R' : RoundState n) : Prop where
  vote : ∀ a c j, R.HasVote desc a c j ↔ R'.HasVote desc a c j
  precommit : ∀ a j, R.HasPrecommit a j ↔ R'.HasPrecommit a j
  precommitted : R.precommitted = R'.precommitted
  precommitted_block : R.precommitted_block = R'.precommitted_block
  last_precommit : R.last_precommit = R'.last_precommit
  first_attempt : R.first_attempt = R'.first_attempt

theorem SameOutcome.refl (R : RoundState n) : SameOutcome desc R R :=
  ⟨fun _ _ _ => Iff.rfl, fun _ _ => Iff.rfl, rfl, rfl, rfl, rfl⟩

/-- What is left of a message of the node in a round that is not precommitted. -/
structure Explicit (desc : Description n) (R : RoundState n) (i : Fin n) (att : ℕ) (A : RoundAttemptState n) (R' : RoundState n) : Prop
    extends Moved desc R i att A R' where
  first_attempt : R'.first_attempt = R.first_attempt
  flag : R'.precommitted = A.check_attempt_is_precommitted desc
  block : R'.precommitted = false → R'.precommitted_block = none
  locks : R'.last_precommit = R.last_precommit ↔ ∀ b, A.get_voted_block desc = some b → R.LocksStay desc i att b
  locked : R.last_precommit i = 0 → (R'.last_precommit i ≠ 0 ↔ A.precommitted i = true ∧ R.CanLock desc att A)
  later : A.get_voted_block desc = (R.attempt_at att).get_voted_block desc → A.precommitted i = true → ¬ R.CanLock desc att A →
    ¬ R'.CanLock desc att A

theorem forward_own (hR : R.Valid desc) (hatt : 0 < att) (hp : R.precommitted = false)
    (hone : (R.attempt_at att).make_one desc i att R = .ok (A, m)) (hact : IsOwn act) :
    ∃ R', R.forward_action_to_attempt desc i att act = .ok R' ∧ Explicit desc R i att A R' := by
  have hA0 := attempt_at_valid hR hatt
  have hmoves := (moves_make_one hone).1
  have hA := hmoves.valid hA0 fun b hb => choose_sent hR hA0 hb
  obtain ⟨f, b, hf, hflag, hblock⟩ := refresh_precommitted_ok hR hp hA
  obtain ⟨eq, lock, hrl, -⟩ := release_locks_ok hR att (A.get_voted_block desc)
  have hlocks := newLocks_eq_iff hR hA (attempt_after hR hatt hone).2 hrl
  unfold forward_action_to_attempt
  rw [if_neg (by rw [hp]; exact Bool.false_ne_true), own_action hact hone, Result.ok_bind, hf, Result.ok_bind]
  dsimp only
  rw [hrl, Result.ok_bind, set_lock_ok hA]
  have hm : ∀ R', R'.attempts = push (·.seqno) R.attempts A → R'.sent_blocks = R.sent_blocks → R'.seqno = R.seqno →
      R'.signatures = R.signatures → Moved desc R i att A R' := fun _ => .mk hp hmoves
  refine ⟨_, rfl, ⟨hm _ rfl rfl rfl rfl, rfl, hflag, fun h => ?_, hlocks, newLocks_self hR hA hatt hrl,
    not_canLock_after hR hA (hm _ rfl rfl rfl rfl) hrl rfl⟩⟩
  rwa [if_neg (by rw [show f = false from h]; exact Bool.false_ne_true)] at hblock

theorem same_votes_of_moved {R1 R2 : RoundState n} (h1 : Moved desc R i att A R1) (h2 : Moved desc R i att A R2) :
    (∀ a c j, R1.HasVote desc a c j ↔ R2.HasVote desc a c j) ∧ ∀ a j, R1.HasPrecommit a j ↔ R2.HasPrecommit a j := by
  simp only [HasVote, HasPrecommit, h1.attempts, h2.attempts, implies_true, and_self]

/-- An attempt that stays as it is may be written down all the same. -/
theorem same_votes_of_stay (hR : R.Valid desc) (hm : Moved desc R i att (R.attempt_at att) R') :
    (∀ a c j, R.HasVote desc a c j ↔ R'.HasVote desc a c j) ∧ ∀ a j, R.HasPrecommit a j ↔ R'.HasPrecommit a j := by
  constructor
  · intro a c j
    by_cases ha : att = a
    · subst ha
      rw [hm.hasVote_self hR, attempt_at_hasVote hR]
    · rw [hm.hasVote_of_ne hR ha]
  · intro a j
    by_cases ha : att = a
    · subst ha
      rw [hm.hasPrecommit_self hR, attempt_at_precommitted hR]
    · rw [hm.hasPrecommit_of_ne hR ha]

/-- One quorum of voters at most, as in the states of a run. -/
def OneWinner (desc : Description n) (R : RoundState n) (i : Fin n) (att : ℕ) : Prop :=
  ∀ c d, desc.IsQuorum (R.voters desc i att c) → desc.IsQuorum (R.voters desc i att d) → c = d

theorem actsAlike_iff (hR : R.Valid desc) (hatt : 0 < att) (hp : R.precommitted = false) (huniq : R.OneWinner desc i att)
    (hone : (R.attempt_at att).make_one desc i att R = .ok (A, m)) : R.ActsAlike desc i att ↔
    A.check_attempt_is_precommitted desc = false ∧ ∀ b, A.get_voted_block desc = some b → R.LocksStay desc i att b := by
  obtain ⟨hvotes, hpre⟩ := attempt_after hR hatt hone
  have hA0 := attempt_at_valid hR hatt
  have hA := ((moves_make_one hone).1).valid hA0 fun b hb => choose_sent hR hA0 hb
  have hquorum : ∀ c, A.VotedFor desc c ↔ desc.IsQuorum (R.voters desc i att c) := fun c => by
    rw [RoundAttemptState.VotedFor, show {j | A.HasVote desc c j} = R.voters desc i att c from Set.ext (hvotes c)]
  have hvoted : ∀ b, A.get_voted_block desc = some b ↔ desc.IsQuorum (R.voters desc i att (get_block_id desc b)) := fun b => by
    rw [← hquorum]
    constructor
    · exact fun h => (votedFor_of_voted hA.votes_sorted h).1
    · intro h
      obtain ⟨b', hb'⟩ := h.voted
      have h' := (votedFor_of_voted hA.votes_sorted hb').1
      rw [hb', get_block_id_inj (huniq _ _ ((hquorum _).1 h) ((hquorum _).1 h'))]
  have hflag : A.check_attempt_is_precommitted desc = true ↔ desc.IsQuorum (R.precommitters desc i att) := by
    rw [check_attempt_is_precommitted, check_weight_iff,
      show {j | A.precommitted j = true} = R.precommitters desc i att from Set.ext hpre]
  rw [ActsAlike, or_iff_right (by rw [hp]; exact Bool.false_ne_true), ← hflag, Bool.not_eq_true]
  exact and_congr_right fun _ => forall_congr' fun b => by rw [hvoted]

/-- A message that `create_action` makes, in a round that the node may not have entered. -/
theorem own_round (hR : R.Valid desc) (hatt : 0 < att) (i : Fin n) (hact : IsOwn act) :
    ∃ R2, R.action desc i att act = .ok R2 ∧ R2.seqno = R.seqno ∧ R2.signatures = R.signatures ∧
      ((R.enter_attempt i att).precommitted = true ∧ R2 = R.enter_attempt i att ∨
        (R.enter_attempt i att).precommitted = false ∧ ∃ A m,
          ((R.enter_attempt i att).attempt_at att).make_one desc i att (R.enter_attempt i att) = .ok (A, m) ∧
            Explicit desc (R.enter_attempt i att) i att A R2) := by
  have hE := enter_attempt_valid hR i att
  obtain ⟨hq, -, hsig⟩ := enter_attempt_quiet R i att
  have haction : R.action desc i att act = (R.enter_attempt i att).forward_action_to_attempt desc i att act := by
    cases act with
    | vote => rfl
    | precommit => rfl
    | empty => rfl
    | _ => exact hact.elim
  rw [haction]
  cases hp : (R.enter_attempt i att).precommitted with
  | true =>
    rw [forward_action_to_attempt, if_pos hp]
    exact ⟨_, rfl, hq.seqno, hsig, .inl ⟨rfl, rfl⟩⟩
  | false =>
    obtain ⟨A, m, hone, -, -⟩ := make_one_ok hE hatt i
    obtain ⟨R2, hR2, hx⟩ := forward_own hE hatt hp hone hact
    exact ⟨R2, hR2, hx.seqno.trans hq.seqno, hx.signatures.trans hsig, .inr ⟨rfl, A, m, hone, hx⟩⟩

/-- `make_one` and a message of the node have the same outcome exactly when there is
neither a flag nor a lock for the message to change. -/
theorem same_outcome_iff (hR : R.Valid desc) (hatt : 0 < att) (huniq : (R.enter_attempt i att).OneWinner desc i att) (hact : IsOwn act) :
    ∃ R1 m R2, R.make_one desc i att = .ok (R1, m) ∧ R.action desc i att act = .ok R2 ∧
      R2.seqno = R.seqno ∧ R2.signatures = R.signatures ∧
      (SameOutcome desc R1 R2 ↔ (R.enter_attempt i att).ActsAlike desc i att) := by
  have hE := enter_attempt_valid hR i att
  obtain ⟨R2, hR2, hseqno, hsig, ⟨hp, rfl⟩ | ⟨hp, A, m, hone, hx⟩⟩ := own_round hR hatt i hact
  · rw [make_one]
    dsimp only
    rw [if_pos hp]
    exact ⟨_, _, _, rfl, hR2, hseqno, hsig, iff_of_true (.refl _) (.inl hp)⟩
  · have hnone := hE.not_precommitted hp
    have hiff : ∀ R1 : RoundState n, R1.precommitted = false → R1.precommitted_block = none →
        R1.last_precommit = (R.enter_attempt i att).last_precommit → R1.first_attempt = (R.enter_attempt i att).first_attempt →
        ((∀ a c j, R1.HasVote desc a c j ↔ R2.HasVote desc a c j) ∧ ∀ a j, R1.HasPrecommit a j ↔ R2.HasPrecommit a j) →
        (SameOutcome desc R1 R2 ↔ (R.enter_attempt i att).ActsAlike desc i att) := by
      intro R1 h1 h2 h3 h4 hboth
      rw [actsAlike_iff hE hatt hp huniq hone, ← hx.flag, ← hx.locks, ← h3]
      constructor
      · intro h
        exact ⟨h.precommitted.symm.trans h1, h.last_precommit.symm⟩
      · rintro ⟨hf, hl⟩
        exact ⟨hboth.1, hboth.2, h1.trans hf.symm, h2.trans (hx.block hf).symm, hl.symm, h4.trans hx.first_attempt.symm⟩
    rw [make_one]
    dsimp only
    rw [if_neg (by rw [hp]; exact Bool.false_ne_true), hone, Result.ok_bind]
    obtain ⟨hmoves, hsame⟩ := moves_make_one hone
    cases m with
    | false =>
      obtain rfl := hsame rfl
      exact ⟨_, _, R2, rfl, hR2, hseqno, hsig, hiff _ hp hnone rfl rfl (same_votes_of_stay hE hx.toMoved)⟩
    | true =>
      have hm : Moved desc (R.enter_attempt i att) i att A
          { R.enter_attempt i att with attempts := push (·.seqno) (R.enter_attempt i att).attempts A } :=
        ⟨hp, hmoves, rfl, rfl, rfl, rfl⟩
      exact ⟨_, _, R2, rfl, hR2, hseqno, hsig, hiff _ hp hnone rfl rfl (same_votes_of_moved hm hx.toMoved)⟩

/-! ## The message that is sent next -/

/-- An implicit action is made exactly when there is a vote or a precommit next. -/
theorem made_iff (h : (R.attempt_at att).make_one desc i att R = .ok (A, m)) :
    m = true ↔ (∃ c, R.NextVote desc i att c) ∨ R.NextPrecommit desc i att := by
  constructor
  · rintro rfl
    rcases make_one_cases h with ⟨h, -⟩ | ⟨-, hnot, b, -, hb⟩ | ⟨-, hno, hnot, -, b, hb⟩
    · cases h
    · exact .inl ⟨_, hnot, b, hb, rfl⟩
    · exact .inr ⟨hno, hnot, by rw [hb]; rfl⟩
  · rintro (⟨c, hnot, b, hb, -⟩ | ⟨hno, hnot, hv⟩)
    · exact (Prod.mk.inj (ok.inj (h.symm.trans (RoundAttemptState.make_one_vote hnot hb)))).2
    · obtain ⟨b, hb⟩ := Option.isSome_iff_exists.1 hv
      exact (Prod.mk.inj (ok.inj (h.symm.trans (make_one_precommit hno hnot hb)))).2

theorem create_action_eq (hp : R.precommitted = false) :
    R.create_action desc i att = (R.attempt_at att).create_action desc R i att := by
  rw [create_action, if_neg (by rw [hp]; exact Bool.false_ne_true), attempt_at]
  cases get_attempt R.attempts att with
  | some A => rfl
  | none =>
    dsimp only [Option.getD_none]
    have hnot : (RoundAttemptState.create att : RoundAttemptState n).check_vote_received_from i = false := rfl
    have hnot' : (RoundAttemptState.create att : RoundAttemptState n).check_precommit_received_from i = false := rfl
    have hnone : (RoundAttemptState.create att : RoundAttemptState n).get_voted_block desc = none := rfl
    rw [RoundAttemptState.create_action, if_neg (by rw [hnot]; exact Bool.false_ne_true)]
    refine bind_congr fun vote => ?_
    cases vote with
    | none => rw [if_neg (by rw [hnot']; exact Bool.false_ne_true), hnone]
    | some b => rfl

theorem create_action_no_vote (hno : NoVote desc R i att (R.attempt_at att)) {r : Exc Message}
    (hr : r = if (R.attempt_at att).check_precommit_received_from i then .ok (.empty R.seqno)
      else match (R.attempt_at att).get_voted_block desc with
        | some B => .ok (.precommit R.seqno (get_block_id desc B))
        | none => .ok (.empty R.seqno)) :
    (R.NextPrecommit desc i att ∧ ∃ c, r = .ok (.precommit R.seqno c)) ∨
      (NoVote desc R i att (R.attempt_at att) ∧ ¬ R.NextPrecommit desc i att ∧ r = .ok (.empty R.seqno)) := by
  subst hr
  by_cases hpre : (R.attempt_at att).check_precommit_received_from i = true
  · rw [if_pos hpre]
    exact .inr ⟨hno, fun h => Bool.noConfusion (h.2.1.symm.trans hpre), rfl⟩
  · rw [if_neg hpre]
    rw [Bool.not_eq_true] at hpre
    cases hv : (R.attempt_at att).get_voted_block desc with
    | none =>
      refine .inr ⟨hno, fun h => ?_, rfl⟩
      have := h.2.2
      rw [hv] at this
      cases this
    | some b => exact .inl ⟨⟨hno, hpre, by rw [hv]; rfl⟩, _, rfl⟩

section
variable (hR : R.Valid desc)
include hR

/-- A vote if there is one to give, or else a precommit, or EMPTY. -/
theorem create_action_cases (hatt : 0 < att) (hp : R.precommitted = false) (i : Fin n) :
    (∃ c, R.NextVote desc i att c ∧ R.create_action desc i att = .ok (.vote R.seqno c)) ∨
      (R.NextPrecommit desc i att ∧ ∃ c, R.create_action desc i att = .ok (.precommit R.seqno c)) ∨
      (NoVote desc R i att (R.attempt_at att) ∧ ¬ R.NextPrecommit desc i att ∧
        R.create_action desc i att = .ok (.empty R.seqno)) := by
  have hA := attempt_at_valid hR hatt
  obtain ⟨o, ho, -⟩ := choose_ok hR hA i att
  rw [create_action_eq hp, RoundAttemptState.create_action]
  by_cases hv : (R.attempt_at att).check_vote_received_from i = true
  · rw [if_pos hv, Result.ok_bind]
    exact .inr (create_action_no_vote (.inl hv) rfl)
  · rw [if_neg hv, ho, Result.ok_bind]
    cases o with
    | none => exact .inr (create_action_no_vote (.inr ho) rfl)
    | some b => exact .inl ⟨_, ⟨Bool.not_eq_true _ ▸ hv, b, ho, rfl⟩, rfl⟩

theorem choose_of_locked (att : ℕ) (h : R.last_precommit i ≠ 0) (vote_for : Option (SentBlock n)) (inited : Bool) :
    ∃ b, R.choose_block_to_vote desc i att vote_for inited = .ok (some b) := by
  obtain ⟨c, hc⟩ := hR.lock i h
  obtain ⟨s, hs, -⟩ := hc.sent hR
  obtain ⟨b, hb, -⟩ := locked_block_ok hR hc
  refine ⟨b, ?_⟩
  rw [choose_block_to_vote, if_neg (ne_nil_of_mem hs), if_pos (Nat.pos_of_ne_zero h), hb]
  rfl

theorem exists_nextVote (hatt : 0 < att) (h : ¬ NoVote desc R i att (R.attempt_at att)) :
    ∃ c, R.NextVote desc i att c := by
  obtain ⟨hnot, hchoose⟩ := not_or.1 h
  obtain ⟨o, ho, -⟩ := choose_ok hR (attempt_at_valid hR hatt) i att
  obtain ⟨b, rfl⟩ : ∃ b, o = some b := Option.ne_none_iff_exists'.1 fun h => hchoose (h ▸ ho)
  exact ⟨_, Bool.not_eq_true _ ▸ hnot, b, ho, rfl⟩

/-- A node that has not voted and has no vote to give is not locked. -/
theorem free_of_noVote (h : NoVote desc R i att A) (hnot : A.check_vote_received_from i = false) :
    R.last_precommit i = 0 := by
  by_contra hlock
  obtain ⟨b, hb⟩ := choose_of_locked hR att hlock A.vote_for A.vote_for_inited
  rcases h with h | h
  · exact Bool.noConfusion (hnot.symm.trans h)
  · cases h.symm.trans hb

theorem attempt_at_voted {b : Option (SentBlock n)} (h : (R.attempt_at att).get_voted_block desc = some b) :
    R.attempt_at att ∈ R.attempts := by
  rw [attempt_at, get_attempt_eq hR] at h ⊢
  cases hf : find (·.seqno) R.attempts att with
  | none =>
    rw [hf] at h
    cases h
  | some A => exact (find_some hf).1

/-- Writing down an attempt that stays as it is gives a node no block to vote for. -/
theorem choose_of_stay (hx : Explicit desc R i att (R.attempt_at att) R') {vote_for : Option (SentBlock n)}
    {inited : Bool} (h : R.choose_block_to_vote desc i att vote_for inited = .ok none) (h0 : R'.last_precommit i = 0) :
    R'.choose_block_to_vote desc i att vote_for inited = .ok none := by
  have hfree : R.last_precommit i = 0 := by
    by_contra hlock
    obtain ⟨b, hb⟩ := choose_of_locked hR att hlock vote_for inited
    cases h.symm.trans hb
  have hslow : R'.slow_mode desc i att = R.slow_mode desc i att := by rw [slow_mode, slow_mode, hx.first_attempt]
  have hsorted : Sorted (·.seqno) R'.attempts := hx.attempts ▸ sorted_push hR.attempts_sorted _
  unfold choose_block_to_vote at h ⊢
  rw [hx.sent_blocks, h0, hslow, hx.seqno]
  rw [hfree] at h
  split_ifs at h ⊢ with hsent hpos hs
  · rfl
  · exact absurd hpos (lt_irrefl 0)
  · cases hv : R.attempts.reverse.findSome? (·.get_voted_block desc) with
    | some b =>
      rw [hv] at h
      cases h
    | none =>
      have hno : R'.attempts.reverse.findSome? (·.get_voted_block desc) = none := by
        rw [findSome?_eq_none_iff] at hv ⊢
        intro B hB
        have hf := hsorted.find_of_mem (mem_reverse.1 hB)
        rw [hx.find hR] at hf
        split_ifs at hf with ha
        · cases hf
          cases hb : (R.attempt_at att).get_voted_block desc with
          | none => rfl
          | some b => exact hb ▸ hv _ (mem_reverse.2 (attempt_at_voted hR hb))
        · exact hv _ (mem_reverse.2 (find_some hf).1)
      rw [hno]
      rw [hv] at h
      exact h
  · cases h
  · rfl

end

/-! ## After the last message -/

/-- Once EMPTY has been sent nothing is left to do: the round or the attempt is
precommitted, or the message has given the node neither a vote nor a precommit to make.
It gives a vote to a node that precommitted the attempt without a vote, by locking it, and
it gives a precommit if entering the attempt let the node vote and a quorum voted. -/
def Determined (desc : Description n) (R : RoundState n) (i : Fin n) (att : ℕ) : Prop :=
  R.precommitted = true ∨ (R.attempt_at att).check_attempt_is_precommitted desc = true ∨
    (NoVote desc R i att (R.attempt_at att) ∧ ((R.attempt_at att).check_vote_received_from i = false →
      (R.attempt_at att).precommitted i = true → ¬ R.CanLock desc att (R.attempt_at att))) ∨
    (¬ NoVote desc R i att (R.attempt_at att) ∧
      ((R.attempt_at att).precommitted i = true ∨ ∀ c, ¬ desc.IsQuorum (R.voters desc i att c)))

theorem Explicit.attempt_at (hx : Explicit desc R i att A R') (hR : R.Valid desc) : R'.attempt_at att = A := by
  have hs : Sorted (·.seqno) R'.attempts := hx.attempts ▸ sorted_push hR.attempts_sorted A
  rw [RoundState.attempt_at, get_attempt, get_eq hs, hx.find hR, if_pos rfl]
  rfl

/-- In a round that the node has entered, `make_one` changes nothing when there is nothing next. -/
theorem make_one_false_iff (hR : R.Valid desc) (hatt : 0 < att) (hent : R.Entered i att) : R.make_one desc i att = .ok (R, false) ↔
    R.precommitted = true ∨ (∀ c, ¬ R.NextVote desc i att c) ∧ ¬ R.NextPrecommit desc i att := by
  have hmade : decide (R.first_attempt i = 0 ∨ R.first_attempt i > att) = false := decide_eq_false hent
  unfold make_one
  dsimp only
  rw [enter_of_entered hent, hmade]
  cases hp : R.precommitted with
  | true => exact iff_of_true (if_pos rfl) (.inl rfl)
  | false =>
    obtain ⟨A, m, hone, -, -⟩ := make_one_ok hR hatt i
    have hm := made_iff hone
    rw [if_neg Bool.false_ne_true, hone, Result.ok_bind, or_iff_right Bool.false_ne_true, ← not_exists, ← not_or, ← hm]
    cases m with
    | false => exact iff_of_true rfl Bool.false_ne_true
    | true => exact iff_of_false (fun h => Bool.noConfusion (Prod.mk.inj (ok.inj h)).2) fun h => h rfl

theorem settled_iff (hR : R.Valid desc) (hR' : R'.Valid desc) (hatt : 0 < att) (hent : R.Entered i att) (hp : R.precommitted = false)
    (hnp : (R.attempt_at att).check_precommit_received_from i = false → (R.attempt_at att).get_voted_block desc = none)
    (hone : (R.attempt_at att).make_one desc i att R = .ok (A, m)) (hx : Explicit desc R i att A R') :
    R'.make_one desc i att = .ok (R', false) ↔ R.Determined desc i att := by
  have hent' : R'.Entered i att := by
    unfold Entered
    rw [hx.first_attempt]
    exact hent
  obtain ⟨hvotes, hpre⟩ := attempt_after hR hatt hone
  have hm := made_iff hone
  have hnext : ¬ R.NextPrecommit desc i att := fun h => by
    have hv := h.2.2
    rw [hnp h.2.1] at hv
    cases hv
  have hprecommitted : ∀ j, A.precommitted j = true ↔ (R.attempt_at att).precommitted j = true :=
    fun j => (hpre j).trans (or_iff_left fun h => hnext h.2)
  have hflag : A.check_attempt_is_precommitted desc = (R.attempt_at att).check_attempt_is_precommitted desc := by
    rw [Bool.eq_iff_iff, check_attempt_is_precommitted, check_attempt_is_precommitted,
      check_weight_iff, check_weight_iff]
    simp only [hprecommitted]
  have hA : A.Valid desc R'.sent_blocks := hx.toMoved.attempt_valid hR hatt
  rw [make_one_false_iff hR' hatt hent', hx.flag, hflag, Determined, hp, or_iff_right (b := _) Bool.false_ne_true]
  refine or_congr_right ?_
  by_cases hno : NoVote desc R i att (R.attempt_at att)
  · -- the attempt stays as it is, and the message can only lock the node
    obtain rfl : A = R.attempt_at att := (moves_make_one hone).2 (Bool.eq_false_iff.2 fun h =>
      (hm.1 h).elim (fun h => h.choose_spec.not_noVote hno) hnext)
    have hat := hx.attempt_at hR
    have hnext' : ¬ R'.NextPrecommit desc i att := by
      rintro ⟨-, hnot, hv⟩
      rw [hat] at hnot hv
      rw [hnp hnot] at hv
      cases hv
    rw [and_iff_left hnext', or_iff_left (fun h => h.1 hno), and_iff_right hno]
    constructor
    · intro h hnot hpre' hcan
      have hlock := (hx.locked (free_of_noVote hR hno hnot)).2 ⟨hpre', hcan⟩
      obtain ⟨b, hb⟩ := choose_of_locked hR' att hlock (R.attempt_at att).vote_for (R.attempt_at att).vote_for_inited
      exact h _ ⟨by rwa [hat], b, by rwa [hat], rfl⟩
    · rintro h c ⟨hnot, b, hb, -⟩
      rw [hat] at hnot hb
      by_cases hlock : R'.last_precommit i = 0
      · cases hb.symm.trans (choose_of_stay hR hx (hno.resolve_left (by rw [hnot]; exact Bool.false_ne_true)) hlock)
      · obtain ⟨hpre', hcan⟩ := (hx.locked (free_of_noVote hR hno hnot)).1 hlock
        exact h hnot hpre' hcan
  · -- entering the attempt let the node vote
    have hat := hx.attempt_at hR
    obtain ⟨c₀, hc₀⟩ := exists_nextVote hR hatt hno
    have hvoted : A.check_vote_received_from i = true := (check_vote_iff hA.votes_sorted).2
      ⟨_, (hvotes _ i).2 (.inr ⟨rfl, hc₀⟩)⟩
    have hquorum : ∀ c, A.VotedFor desc c ↔ desc.IsQuorum (R.voters desc i att c) := fun c => by
      rw [RoundAttemptState.VotedFor, show {j | A.HasVote desc c j} = R.voters desc i att c from Set.ext (hvotes c)]
    have hnone : ∀ c, ¬ R'.NextVote desc i att c := fun c h => by
      have := h.1
      rw [hat, hvoted] at this
      cases this
    rw [or_iff_right (fun h => hno h.1), and_iff_right hno, and_iff_right hnone]
    constructor
    · intro h
      by_contra hor
      obtain ⟨hpre', hall⟩ := not_or.1 hor
      obtain ⟨c, hc⟩ := not_forall.1 hall
      obtain ⟨b', hb'⟩ := ((hquorum c).2 (not_not.1 hc)).voted
      refine h ⟨.inl (by rw [hat]; exact hvoted), ?_, by rw [hat, hb']; rfl⟩
      rw [hat, ← Bool.not_eq_true]
      exact fun hp' => hpre' ((hprecommitted i).1 hp')
    · rintro h ⟨-, hnot', hv⟩
      rw [hat] at hnot' hv
      rcases h with h | h
      · exact Bool.noConfusion (hnot'.symm.trans ((hprecommitted i).2 h))
      · obtain ⟨b', hb'⟩ := Option.isSome_iff_exists.1 hv
        exact h _ ((hquorum _).1 (votedFor_of_voted hA.votes_sorted hb').1)

/-- After a message of the node, EMPTY leaves nothing to do: a precommit without a vote has
locked the node, which then has a vote to give, or a later lock keeps it from being locked. -/
theorem Explicit.determined (hx : Explicit desc R i att A R') (hR : R.Valid desc) (hR' : R'.Valid desc) (hatt : 0 < att)
    (hone : (R.attempt_at att).make_one desc i att R = .ok (A, m)) (hno : NoVote desc R' i att (R'.attempt_at att)) :
    R'.Determined desc i att := by
  have hat := hx.attempt_at hR
  refine .inr (.inr (.inl ⟨hno, fun hnot hp hcan => ?_⟩))
  rw [hat] at hno hnot hp hcan
  have hstay : NoVote desc R i att (R.attempt_at att) ∧ A.votes = (R.attempt_at att).votes := by
    rcases make_one_cases hone with ⟨rfl, rfl⟩ | ⟨-, -, b, rfl, -⟩ | ⟨-, hno', -, rfl, -⟩
    · exact ⟨by_contra fun h => Bool.noConfusion ((made_iff hone).2 (.inl (exists_nextVote hR hatt h))), rfl⟩
    · have hs := (attempt_at_valid hR hatt).votes_sorted
      have hvoted : ((R.attempt_at att).addVote desc i b).check_vote_received_from i = true :=
        (check_vote_iff (sorted_push hs _)).2 ⟨_, (hasVote_addVote hs).2 (.inr ⟨rfl, rfl⟩)⟩
      exact Bool.noConfusion (hnot.symm.trans hvoted)
    · exact ⟨hno', rfl⟩
  obtain ⟨hno', hvotes⟩ := hstay
  have hvoted : A.get_voted_block desc = (R.attempt_at att).get_voted_block desc := by
    rw [get_voted_block, hvotes]
    rfl
  have hnot' : (R.attempt_at att).check_vote_received_from i = false := by
    rw [check_vote_received_from, ← hvotes]
    exact hnot
  refine hx.later hvoted hp (fun h => ?_) hcan
  exact (hx.locked (free_of_noVote hR hno' hnot')).2 ⟨hp, h⟩ (free_of_noVote hR' hno hnot)

/-- The node has a vote or a precommit to send, or else nothing is left once it has sent EMPTY. -/
def NothingLeft (desc : Description n) (R : RoundState n) (i : Fin n) (att : ℕ) : Prop :=
  (∃ c, R.NextVote desc i att c) ∨ R.NextPrecommit desc i att ∨ (R.enter_attempt i att).Determined desc i att

end RoundState

namespace SessionState

theorem action_own (hs : s.Valid desc) {act : Message} (hid : get_round_id act = s.cur_round.seqno) {R2 : RoundState n}
    (hR2 : s.cur_round.action desc i (s.clamp i att) act = .ok R2) (hsig : R2.signatures = s.cur_round.signatures) :
    s.action desc i att act = .ok ⟨NodeVec.change s.att i (s.clamp i att), s.old_rounds, R2⟩ := by
  have hunsigned : R2.check_block_is_signed desc = false := (signed_congr hsig).trans hs.unsigned
  unfold action
  dsimp only
  rw [if_neg (by omega), if_pos hid, hR2, Result.ok_bind, close_round, if_neg (by rw [hunsigned]; exact Bool.false_ne_true)]
  rfl

theorem make_one_round (hs : s.Valid desc) {R1 : RoundState n} (hR1 : s.cur_round.make_one desc i (s.clamp i att) = .ok (R1, m)) :
    ∃ t m', s.make_one desc i att = .ok (t, m') ∧ t.cur_round = R1 := by
  obtain ⟨R', m', hR', -, hsig, -, hsame, -⟩ := make_one_round_ok hs.round (clamp_pos s i att).1 i
  obtain ⟨rfl, rfl⟩ := Prod.mk.inj (ok.inj (hR1.symm.trans hR'))
  have hunsigned : R1.check_block_is_signed desc = false := (signed_congr hsig).trans hs.unsigned
  unfold make_one
  dsimp only
  rw [hR1, Result.ok_bind]
  dsimp only
  split_ifs with h
  · exact ⟨s, false, rfl, (hsame (by simpa using h.1)).symm⟩
  all_goals
    rw [check_pos (by rw [hunsigned]; rfl)]
    exact ⟨_, true, rfl, rfl⟩

end SessionState

theorem RoundKnown.oneWinner {few : FewFaulty desc faulty} {V : Ballots n} (hV : ∀ k, (V k).Inv (quorums few)) (hR : R.Valid desc)
    (hatt : 0 < att) (h : RoundKnown few V R) : R.OneWinner desc i att := by
  intro c d hc hd
  obtain ⟨j, hj, hjc, hjd⟩ := (quorums few).meet hc hd
  have hnot : ∀ c d, R.NextVote desc i att c → ¬ (R.attempt_at att).HasVote desc d i := fun c d hnext hv => by
    have := (check_vote_iff (attempt_at_valid hR hatt).votes_sorted).2 ⟨d, hv⟩
    exact Bool.noConfusion (hnext.1.symm.trans this)
  rcases hjc with hjc | ⟨rfl, hjc⟩
  · rcases hjd with hjd | ⟨rfl, hjd⟩
    · exact (hV R.seqno).once j hj att c d (h.vote ((attempt_at_hasVote hR).1 hjc)) (h.vote ((attempt_at_hasVote hR).1 hjd))
    · exact absurd hjc (hnot _ _ hjd)
  · rcases hjd with hjd | ⟨-, hjd⟩
    · exact absurd hjd (hnot _ _ hjc)
    · obtain ⟨-, b, hb, rfl⟩ := hjc
      obtain ⟨-, b', hb', rfl⟩ := hjd
      rw [Option.some.inj (ok.inj (hb.symm.trans hb'))]

namespace SessionState

/-- The messages of node `i` in attempt `att` are sent from `s` on until EMPTY is, which
is sent in `v` and gives `u`. -/
inductive Sends (desc : Description n) (i : Fin n) (att : ℕ) : SessionState n → SessionState n → SessionState n → Prop
  | last {s u : SessionState n} (act : s.create_action desc i att = .ok (.empty s.cur_round.seqno))
    (h : s.action desc i att (.empty s.cur_round.seqno) = .ok u) : Sends desc i att s s u
  | next {s t v u : SessionState n} {act : Message} (hact : s.create_action desc i att = .ok act)
    (hne : act ≠ .empty s.cur_round.seqno) (h : s.action desc i att act = .ok t) (rest : Sends desc i att t v u) : Sends desc i att s v u

theorem clamp_of_le (hle : s.att i ≤ att) (hmin : 1024 ≤ att) : s.clamp i att = att := by
  unfold clamp
  dsimp only
  split_ifs <;> omega

section
variable (hs : s.Valid desc)
include hs

theorem make_one_session_iff (hatt : s.att i = att) (hmin : 1024 ≤ att) :
    s.make_one desc i att = .ok (s, false) ↔ s.cur_round.make_one desc i att = .ok (s.cur_round, false) := by
  have hclamp := clamp_of_le hatt.le hmin
  obtain ⟨R, m, hR, -, hsig, -, hsame, -⟩ := make_one_round_ok hs.round (hclamp ▸ (clamp_pos s i att).1) i
  have hunsigned : R.check_block_is_signed desc = false := (signed_congr hsig).trans hs.unsigned
  have htime : ¬ s.att i < att := by omega
  unfold make_one
  dsimp only
  rw [hclamp, hR, Result.ok_bind]
  dsimp only
  cases m with
  | false =>
    obtain rfl := hsame rfl
    exact iff_of_true (if_pos ⟨rfl, htime⟩) rfl
  | true =>
    rw [if_neg (by simp), check_pos (by rw [hunsigned]; rfl)]
    exact iff_of_false (fun h => Bool.noConfusion (Prod.mk.inj (ok.inj h)).2)
      fun h => Bool.noConfusion (Prod.mk.inj (ok.inj h)).2

variable {act : Message}

theorem own_step (hle : s.att i ≤ att) (hmin : 1024 ≤ att) (hact : IsOwn act)
    (hid : get_round_id act = s.cur_round.seqno) : ∃ t, s.action desc i att act = .ok t ∧ t.Valid desc ∧ t.att i = att ∧
      s.cur_round.action desc i att act = .ok t.cur_round := by
  have hclamp := clamp_of_le hle hmin
  obtain ⟨t, ht, hv, -, -⟩ := action_ok hs i att act
  obtain ⟨R2, hR2, -, hsig, -⟩ := own_round hs.round (show 0 < att by omega) i hact
  have hown := action_own hs hid (hclamp.symm ▸ hR2) hsig
  cases ht.symm.trans hown
  refine ⟨_, hown, hv, ?_, hR2⟩
  rw [hclamp]
  exact update_self ..

theorem last_ok (hle : s.att i ≤ att) (hmin : 1024 ≤ att)
    (hempty : s.create_action desc i att = .ok (.empty s.cur_round.seqno)) : ∃ u, s.action desc i att (.empty s.cur_round.seqno) = .ok u ∧
      (u.make_one desc i att = .ok (u, false) ↔ (s.cur_round.enter_attempt i att).Determined desc i att) := by
  have hatt : 0 < att := by omega
  obtain ⟨u, hu, hv, htime, hR2⟩ := own_step hs hle hmin (show IsOwn (.empty s.cur_round.seqno) from trivial) rfl
  refine ⟨u, hu, ?_⟩
  rw [make_one_session_iff hv htime hmin]
  have hE := enter_attempt_valid hs.round i att
  have hent := entered_enter hatt s.cur_round i
  obtain ⟨R2, hR2', -, -, ⟨hp, hR⟩ | ⟨hp, A, m, hone, hx⟩⟩ := own_round hs.round hatt i
    (show IsOwn (.empty s.cur_round.seqno) from trivial)
  · obtain rfl := ok.inj (hR2.symm.trans hR2')
    rw [hR, make_one_false_iff hE hatt hent]
    exact iff_of_true (.inl hp) (.inl hp)
  · obtain rfl := ok.inj (hR2.symm.trans hR2')
    refine settled_iff hE hv.round hatt hent hp (fun hnot => ?_) hone hx
    rw [attempt_at_enter] at hnot ⊢
    have hp' : s.cur_round.precommitted = false := (enter_attempt_quiet s.cur_round i att).1.precommitted.symm.trans hp
    have hround : s.cur_round.create_action desc i att = .ok (.empty s.cur_round.seqno) := hempty
    rcases create_action_cases hs.round hatt hp' i with ⟨c, -, h⟩ | ⟨-, c, h⟩ | ⟨hno, hnext, -⟩
    · cases hround.symm.trans h
    · cases hround.symm.trans h
    · cases hv : (s.cur_round.attempt_at att).get_voted_block desc with
      | none => rfl
      | some b => exact absurd ⟨hno, hnot, by rw [hv]; rfl⟩ hnext

theorem own_entered (hatt : 0 < att) (hact : IsOwn act) (hp : s.cur_round.precommitted = false)
    (hR2 : s.cur_round.action desc i att act = .ok t.cur_round) : ∃ A m,
      ((s.cur_round.enter_attempt i att).attempt_at att).make_one desc i att (s.cur_round.enter_attempt i att) = .ok (A, m) ∧
        Explicit desc (s.cur_round.enter_attempt i att) i att A t.cur_round ∧ t.cur_round.Entered i att := by
  have hq := (enter_attempt_quiet s.cur_round i att).1
  obtain ⟨R2, hR2', -, -, ⟨hp', -⟩ | ⟨-, A, m, hone, hx⟩⟩ := own_round hs.round hatt i hact
  · exact absurd (hp'.symm.trans (hq.precommitted.trans hp)) Bool.noConfusion
  · obtain rfl := ok.inj (hR2.symm.trans hR2')
    refine ⟨A, m, hone, hx, ?_⟩
    unfold Entered
    rw [hx.first_attempt]
    exact entered_enter hatt s.cur_round i

theorem pending_own (hmin : 1024 ≤ att) (hact : IsOwn act)
    (hp : s.cur_round.precommitted = false) (hnext : (∃ c, s.cur_round.NextVote desc i att c) ∨ s.cur_round.NextPrecommit desc i att)
    (htime : t.att i = att) (hR2 : s.cur_round.action desc i att act = .ok t.cur_round) : t.pending i att < s.pending i att := by
  have hatt : 0 < att := by omega
  have hE := enter_attempt_valid hs.round i att
  obtain ⟨A, m, hone, hx, hent⟩ := own_entered hs hatt hact hp hR2
  have hsorted := (attempt_at_valid hE hatt).votes_sorted
  rw [pending_eq htime hent, hx.attempt_at hE, pending, ← attempt_at_enter s.cur_round i att]
  by_cases hnew : s.att i < att ∨ ¬ s.cur_round.Entered i att
  · rw [if_pos hnew]
    cases m with
    | false =>
      rw [(moves_make_one hone).2 rfl]
      exact Nat.lt_succ_self _
    | true => exact (todo_make_one hsorted hone).trans (Nat.lt_succ_self _)
  · -- the message does what it was made for
    obtain ⟨-, hentered⟩ := not_or.1 hnew
    have hsame := enter_of_entered (not_not.1 hentered)
    obtain rfl : m = true := (made_iff hone).2 (hsame.symm ▸ hnext)
    rw [if_neg hnew]
    exact todo_make_one hsorted hone

/-- A message that is not EMPTY leaves nothing that would not be sent too. -/
theorem nothingLeft_next (ht : t.Valid desc) (hatt : 0 < att) (hact : IsOwn act)
    (hp : s.cur_round.precommitted = false) (hR2 : s.cur_round.action desc i att act = .ok t.cur_round) : t.cur_round.NothingLeft desc i att := by
  have hE := enter_attempt_valid hs.round i att
  obtain ⟨A, m, hone, hx, hent⟩ := own_entered hs hatt hact hp hR2
  by_cases hno : NoVote desc t.cur_round i att (t.cur_round.attempt_at att)
  · refine .inr (.inr ?_)
    rw [enter_of_entered hent]
    exact hx.determined hE ht.round hatt hone hno
  · exact .inl (exists_nextVote ht.round hatt hno)

/-- Sending ends, and leaves nothing to do if a message was sent before EMPTY. -/
theorem sends_ok (hle : s.att i ≤ att) (hmin : 1024 ≤ att) : ∃ v u, Sends desc i att s v u ∧
    (u.make_one desc i att = .ok (u, false) ↔ s.cur_round.NothingLeft desc i att) := by
  obtain ⟨k, hk⟩ : ∃ k, s.pending i att = k := ⟨_, rfl⟩
  induction k using Nat.strong_induction_on generalizing s with
  | _ k ih =>
  have hatt : 0 < att := by omega
  have next : ∀ act, s.create_action desc i att = .ok act → IsOwn act → get_round_id act = s.cur_round.seqno →
      act ≠ .empty s.cur_round.seqno → s.cur_round.precommitted = false →
      ((∃ c, s.cur_round.NextVote desc i att c) ∨ s.cur_round.NextPrecommit desc i att) → ∃ v u, Sends desc i att s v u ∧
      (u.make_one desc i att = .ok (u, false) ↔ s.cur_round.NothingLeft desc i att) := by
    intro act hact hown hid hne hp hnext
    obtain ⟨t, ht, hv, htime, hR2⟩ := own_step hs hle hmin hown hid
    obtain ⟨v, u, hsends, hiff⟩ := ih _ (hk ▸ pending_own hs hmin hown hp hnext htime hR2) hv htime.le rfl
    exact ⟨v, u, .next hact hne ht hsends, iff_of_true (hiff.2 (nothingLeft_next hs hv hatt hown hp hR2)) (or_assoc.1 (.inl hnext))⟩
  cases hp : s.cur_round.precommitted with
  | true =>
    have hempty : s.create_action desc i att = .ok (.empty s.cur_round.seqno) := by
      rw [create_action, RoundState.create_action, if_pos hp]
    have hdone : (s.cur_round.enter_attempt i att).Determined desc i att :=
      .inl ((enter_attempt_quiet s.cur_round i att).1.precommitted.trans hp)
    obtain ⟨u, hu, hiff⟩ := last_ok hs hle hmin hempty
    exact ⟨s, u, .last hempty hu, iff_of_true (hiff.2 hdone) (.inr (.inr hdone))⟩
  | false =>
    rcases create_action_cases hs.round hatt hp i with ⟨c, hvote, h⟩ | ⟨hpre, c, h⟩ | ⟨hno, hnext, h⟩
    · exact next _ h trivial rfl (fun h => by cases h) hp (.inl ⟨c, hvote⟩)
    · exact next _ h trivial rfl (fun h => by cases h) hp (.inr hpre)
    · obtain ⟨u, hu, hiff⟩ := last_ok hs hle hmin h
      refine ⟨s, u, .last h hu, hiff.trans ⟨fun h => .inr (.inr h), ?_⟩⟩
      rintro (⟨c, hc⟩ | h | h)
      · exact absurd hno hc.not_noVote
      · exact absurd h hnext
      · exact h

end

theorem Sends.unique {v u v' u' : SessionState n} (h : Sends desc i att s v u) (h' : Sends desc i att s v' u') : v = v' ∧ u = u' := by
  induction h with
  | last act h =>
    cases h' with
    | last _ h' => exact ⟨rfl, ok.inj (h.symm.trans h')⟩
    | next act' hne _ _ => exact absurd (ok.inj (act'.symm.trans act)) hne
  | next act hne h _ ih =>
    cases h' with
    | last act' _ => exact absurd (ok.inj (act.symm.trans act')) hne
    | next act' _ h' rest' =>
      obtain rfl := ok.inj (act.symm.trans act')
      obtain rfl := ok.inj (h.symm.trans h')
      exact ih rest'

/-- What node `i` does implicitly in `s` is what it would do explicitly, and once it has
done all of it explicitly nothing is left. -/
structure ImplicitMatches (desc : Description n) (s : SessionState n) (i : Fin n) (att : ℕ) : Prop where
  step : ∃ t m act u, s.make_one desc i att = .ok (t, m) ∧ s.create_action desc i att = .ok act ∧
    s.action desc i att act = .ok u ∧ SameOutcome desc t.cur_round u.cur_round
  stops : ∃ fuel t, make_all desc i att fuel s = .ok (some t)
  done : ∃ v u, Sends desc i att s v u ∧ u.make_one desc i att = .ok (u, false)

/-- The message `create_action` makes has the outcome of `make_one` exactly when it has
neither a flag nor a lock to change. -/
theorem step_iff {few : FewFaulty desc faulty} {V : Ballots n} (hV : ∀ k, (V k).Inv (quorums few)) (hs : Known few V s)
    (hle : s.att i ≤ att) (hmin : 1024 ≤ att) : ∃ t m act u, s.make_one desc i att = .ok (t, m) ∧
      s.create_action desc i att = .ok act ∧ s.action desc i att act = .ok u ∧
      (SameOutcome desc t.cur_round u.cur_round ↔ (s.cur_round.enter_attempt i att).ActsAlike desc i att) := by
  have hatt : 0 < att := by omega
  have hclamp := clamp_of_le hle hmin
  have hvalid := hs.valid
  have huniq : (s.cur_round.enter_attempt i att).OneWinner desc i att :=
    RoundKnown.oneWinner hV (enter_attempt_valid hvalid.round i att) hatt
      (hs.round.quiet (enter_attempt_quiet s.cur_round i att).1)
  have hact : ∃ act, s.create_action desc i att = .ok act ∧ IsOwn act ∧ get_round_id act = s.cur_round.seqno := by
    cases hp : s.cur_round.precommitted with
    | true => exact ⟨.empty s.cur_round.seqno, by rw [create_action, RoundState.create_action, if_pos hp], trivial, rfl⟩
    | false =>
      rcases create_action_cases hvalid.round hatt hp i with ⟨c, -, h⟩ | ⟨-, c, h⟩ | ⟨-, -, h⟩
      · exact ⟨_, h, trivial, rfl⟩
      · exact ⟨_, h, trivial, rfl⟩
      · exact ⟨_, h, trivial, rfl⟩
  obtain ⟨act, hcreate, hown, hid⟩ := hact
  obtain ⟨R1, m, R2, hR1, hR2, -, -, hiff⟩ := same_outcome_iff hvalid.round hatt huniq hown
  obtain ⟨t, m', ht, rfl⟩ := make_one_round hvalid (hclamp.symm ▸ hR1)
  obtain ⟨u, hu, -, -, hR2'⟩ := own_step hvalid hle hmin hown hid
  obtain rfl := ok.inj (hR2.symm.trans hR2')
  exact ⟨t, m', act, u, ht, hcreate, hu, hiff⟩

end SessionState

end Ton.Session
