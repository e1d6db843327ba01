import Ton.Session.Merged
/-!
# Valid session states

The invariant of a whole state, and what `action` and `make_one` do to it. No
check of theirs fails.
-/

namespace Ton.Session
open Keyed Voting List Function RoundState

variable {n : ℕ} {p : Pointers} {desc : Description n}

namespace OldRoundState

/-- A quorum signed the block of round `k`. -/
structure Valid (desc : Description n) (k : ℕ) (O : OldRoundState n) : Prop where
  seqno : O.seqno = k
  signed : ∀ i sig, O.signatures i = some sig → ValidSignature desc O.block i sig
  quorum : desc.IsQuorum {i | (O.signatures i).isSome = true}

variable {O O' : OldRoundState n} {k : ℕ} {R : RoundState n}

def joined (l r : OldRoundState n) : OldRoundState n :=
  { l with
    signatures := fun j => joinSignature (l.signatures j) (r.signatures j)
    approve_signatures := fun j => joinSignature (l.approve_signatures j) (r.approve_signatures j) }

theorem merge_eq (h : O.seqno = O'.seqno) : O.merge p O' = .ok (joined O O') := by
  unfold merge
  split_ifs with hsame
  · obtain rfl := p.eq_of_same hsame
    simp only [joined, joinSignature_self]
  · rw [check_pos h, merge_signatures_eq, merge_signatures_eq]
    rfl

theorem joined_self (O : OldRoundState n) : joined O O = O := by
  simp only [joined, joinSignature_self]

variable {S : NodeVec n (Option Signature)}

theorem quorum_mono (h : desc.IsQuorum {i | (O.signatures i).isSome = true})
    (r : NodeVec n (Option Signature)) (hS : S = fun j => joinSignature (O.signatures j) (r j)) :
    desc.IsQuorum {i | (S i).isSome = true} := by
  refine h.mono fun i hi => ?_
  have hi : (O.signatures i).isSome = true := hi
  change (S i).isSome = true
  rw [hS, joinSignature_isSome, hi, Bool.true_or]

theorem valid_joined (h : O.Valid desc k) (h' : O'.Valid desc k)
    (hid : SentBlock.get_block_id desc O.block = SentBlock.get_block_id desc O'.block) : (joined O O').Valid desc k where
  seqno := h.seqno
  signed i sig hi := by
    rcases joinSignature_some hi with hi | hi
    · exact h.signed i sig hi
    · exact (show ValidSignature desc O.block i sig from get_block_id_inj hid ▸ h'.signed i sig hi)
  quorum := quorum_mono h.quorum O'.signatures rfl

/-- `merge_round` takes the signatures that the other state has for the block. -/
theorem merge_round_ok (h : O.Valid desc R.seqno) (hR : R.Valid desc)
    (hid : R.precommitted = true → SentBlock.get_block_id desc R.precommitted_block = SentBlock.get_block_id desc O.block) :
    ∃ O', O.merge_round p desc R = .ok O' ∧ O'.Valid desc R.seqno ∧ O'.block = O.block ∧
      (∀ j, O'.signatures j = joinSignature (O.signatures j) (R.signatures j)) ∧
      ∀ j, O'.approve_signatures j = joinSignature (O.approve_signatures j) (R.approval desc (O.get_block_id desc) j) := by
  rw [merge_round, check_pos h.seqno, Result.ok_bind]
  refine ⟨_, rfl, ⟨h.seqno, fun i sig hi => ?_, quorum_mono h.quorum R.signatures (merge_signatures_eq _ _)⟩, rfl,
    fun j => congrFun (merge_signatures_eq _ _) j, fun j => ?_⟩
  swap
  · dsimp only [approval]
    cases R.get_block desc (O.get_block_id desc) with
    | none => exact (joinSignature_none _).symm
    | some C => exact congrFun (merge_signatures_eq _ _) j
  have hi : merge_signatures p O.signatures R.signatures i = some sig := hi
  rw [merge_signatures_eq] at hi
  rcases joinSignature_some hi with hi | hi
  · exact h.signed i sig hi
  · obtain ⟨hp, hv⟩ := hR.signed i sig hi
    exact (show ValidSignature desc O.block i sig from get_block_id_inj (hid hp) ▸ hv)

theorem change_signed {i j : Fin n} {sig sig' : Signature} {P : Fin n → Signature → Prop}
    (h : ∀ j sig, S j = some sig → P j sig) (hi : P i sig) (hj : NodeVec.change S i (some sig) j = some sig') : P j sig' := by
  by_cases hji : j = i
  · subst hji
    rw [NodeVec.change, update_self] at hj
    cases hj
    exact hi
  · rw [NodeVec.change, update_of_ne hji] at hj
    exact h j sig' hj

theorem approvedBlock_ok (h : O.Valid desc k) (i : Fin n) (cand : CandidateId) (sig : Signature) :
    ∃ O', O.approvedBlock desc i cand sig = .ok O' ∧ O'.Valid desc k ∧ O'.block = O.block := by
  by_cases hcand : cand = O.get_block_id desc
  · obtain ⟨v, hv⟩ := check_block_signature_ok desc desc.check_approve_signature O.block i sig
    rw [approvedBlock, if_neg (not_not.2 hcand), hcand, get_block_id, hv, Result.ok_bind]
    split_ifs
    · exact ⟨O, rfl, h, rfl⟩
    · exact ⟨_, rfl, ⟨h.seqno, h.signed, h.quorum⟩, rfl⟩
    · exact ⟨O, rfl, h, rfl⟩
  · exact ⟨O, by rw [approvedBlock, if_pos hcand], h, rfl⟩

theorem commit_ok (h : O.Valid desc k) (i : Fin n) (cand : CandidateId) (sig : Signature) :
    ∃ O', O.commit desc i cand sig = .ok O' ∧ O'.Valid desc k ∧ O'.block = O.block := by
  by_cases hcand : cand = O.get_block_id desc
  · obtain ⟨v, hv⟩ := check_block_signature_ok desc desc.check_signature O.block i sig
    rw [commit, if_neg (not_not.2 hcand), hcand, get_block_id, hv, Result.ok_bind]
    split_ifs with h1 h2
    · exact ⟨O, rfl, h, rfl⟩
    · exact ⟨O, rfl, h, rfl⟩
    · obtain rfl : v = true := by simpa using h1
      refine ⟨_, rfl, ⟨h.seqno, fun j sig' hj => ?_, h.quorum.mono fun j hj => ?_⟩, rfl⟩
      · exact change_signed h.signed (validSignature_of_check hv) hj
      · change (NodeVec.change O.signatures i (some sig) j).isSome = true
        by_cases hji : j = i
        · subst hji
          rw [NodeVec.change, update_self]
          rfl
        · rw [NodeVec.change, update_of_ne hji]
          exact hj
  · exact ⟨O, by rw [commit, if_pos hcand], h, rfl⟩

/-- An old round takes approvals and signatures of its block only. -/
theorem action_ok (h : O.Valid desc k) (i : Fin n) (act : Message) :
    ∃ O', O.action desc i act = .ok O' ∧ O'.Valid desc k ∧ O'.block = O.block := by
  cases act with
  | approvedBlock _ cand sig => exact approvedBlock_ok h i cand sig
  | commit _ cand sig => exact commit_ok h i cand sig
  | _ => exact ⟨O, rfl, h, rfl⟩

end OldRoundState

/-! ## Implicit actions of a round -/

namespace RoundState

/-- An implicit vote or precommit: neither the lock nor `precommitted` follows. -/
structure Implied (desc : Description n) (R : RoundState n) (i : Fin n) (att : ℕ) (A : RoundAttemptState n) (R' : RoundState n) :
    Prop extends Moved desc (R.enter_attempt i att) i att A R' where
  made : (R.attempt_at att).make_one desc i att (R.enter_attempt i att) = .ok (A, true)
  last_precommit : R'.last_precommit = R.last_precommit
  flag : R'.precommitted = false
  block : R'.precommitted_block = none

variable {R R' : RoundState n} {i : Fin n} {att : ℕ} {A : RoundAttemptState n}

/-- The node has entered the attempt. -/
def Entered (R : RoundState n) (i : Fin n) (att : ℕ) : Prop := ¬ (R.first_attempt i = 0 ∨ R.first_attempt i > att)

instance (R : RoundState n) (i : Fin n) (att : ℕ) : Decidable (R.Entered i att) := inferInstanceAs (Decidable (¬ _))

theorem attempt_at_enter (R : RoundState n) (i : Fin n) (att : ℕ) : (R.enter_attempt i att).attempt_at att = R.attempt_at att := by
  rw [attempt_at, (enter_attempt_quiet R i att).1.attempts]
  rfl

theorem entered_enter (hatt : 0 < att) (R : RoundState n) (i : Fin n) : (R.enter_attempt i att).Entered i att := by
  unfold enter_attempt Entered
  split_ifs with h
  · change ¬ (NodeVec.change R.first_attempt i att i = 0 ∨ NodeVec.change R.first_attempt i att i > att)
    rw [NodeVec.change, update_self]
    omega
  · exact h

theorem enter_of_entered (h : R.Entered i att) : R.enter_attempt i att = R := if_neg h

theorem Implied.attempt_at (h : Implied desc R i att A R') (hR : R.Valid desc) : R'.attempt_at att = A := by
  have hE := enter_attempt_valid hR i att
  have hs : Sorted (·.seqno) R'.attempts := h.attempts ▸ CntSortedVector.sorted_push hE.attempts_sorted A
  rw [RoundState.attempt_at, get_attempt, CntSortedVector.get_eq hs, h.toMoved.find hE, if_pos rfl]
  rfl

/-- The attempt has no implicit action left for the node. -/
def Still (desc : Description n) (R : RoundState n) (i : Fin n) (att : ℕ) : Prop :=
  R.precommitted = true ∨ ∃ A, (R.attempt_at att).make_one desc i att (R.enter_attempt i att) = .ok (A, false)

/-- `made` tells that a vote or a precommit was added, or that the attempt was entered. -/
theorem make_one_round_ok (hR : R.Valid desc) (hatt : 0 < att) (i : Fin n) :
    ∃ R' m, R.make_one desc i att = .ok (R', m) ∧ R'.Valid desc ∧ R'.signatures = R.signatures ∧ R'.Entered i att ∧
      (m = false → R' = R) ∧ ((R' = R.enter_attempt i att ∧ (m = true → ¬ R.Entered i att) ∧ R.Still desc i att) ∨
        m = true ∧ ∃ A, Implied desc R i att A R') := by
  have hE := enter_attempt_valid hR i att
  obtain ⟨hq, -, hsig⟩ := enter_attempt_quiet R i att
  have stay : ∀ m : Bool, (m = true ↔ ¬ R.Entered i att) → (m = false → R.enter_attempt i att = R) := by
    intro m hm hf
    refine enter_of_entered (by_contra fun h => ?_)
    rw [hm.2 h] at hf
    cases hf
  have hmade : decide (R.first_attempt i = 0 ∨ R.first_attempt i > att) = true ↔ ¬ R.Entered i att :=
    decide_eq_true_iff.trans not_not.symm
  unfold make_one
  dsimp only
  split_ifs with hp
  · exact ⟨_, _, rfl, hE, hsig, entered_enter hatt R i, stay _ hmade, .inl ⟨rfl, hmade.1, .inl (hq.precommitted ▸ hp)⟩⟩
  · obtain ⟨A, m, hone, hmoves, hsame⟩ := make_one_ok hE hatt i
    rw [hone, Result.ok_bind]
    dsimp only
    cases m with
    | false =>
      rw [attempt_at_enter] at hone
      exact ⟨_, _, rfl, hE, hsig, entered_enter hatt R i, stay _ hmade, .inl ⟨rfl, hmade.1, .inr ⟨A, hone⟩⟩⟩
    | true =>
      have hp : (R.enter_attempt i att).precommitted = false := Bool.not_eq_true _ ▸ hp
      have hb := hE.not_precommitted hp
      rw [attempt_at_enter] at hone
      have himp : Implied desc R i att A { R.enter_attempt i att with attempts := CntSortedVector.push (·.seqno) (R.enter_attempt i att).attempts A } :=
        ⟨⟨hp, hmoves, rfl, rfl, rfl, rfl⟩, hone, hq.last_precommit, hp, hb⟩
      refine ⟨_, _, rfl, ?_, hsig, entered_enter hatt R i, (nomatch ·), .inr ⟨rfl, A, himp⟩⟩
      refine himp.toMoved.valid hE hatt (fun j hj => ?_) (by rw [himp.flag]; exact hb)
      obtain ⟨c, hc⟩ := hE.lock j hj
      exact ⟨c, himp.toMoved.votedFor hE hatt hc⟩

end RoundState

/-! ## Closing a round -/

/-- `O` is `R` when it is closed. -/
structure Closed (desc : Description n) (R : RoundState n) (O : OldRoundState n) : Prop where
  block : O.block = R.precommitted_block
  signatures : ∀ j, O.signatures j = R.signatures j
  approvals : ∀ j, O.approve_signatures j = R.approval desc (O.get_block_id desc) j

/-- A signed round is precommitted, and its block is one of the candidates. -/
theorem create_ok {R : RoundState n} (hR : R.Valid desc) (hs : R.check_block_is_signed desc = true) :
    ∃ O, OldRoundState.create desc R = .ok O ∧ O.Valid desc R.seqno ∧ R.precommitted = true ∧ Closed desc R O := by
  obtain ⟨i, hi⟩ := exists_of_check_weight hs
  obtain ⟨sig, hsig⟩ := Option.isSome_iff_exists.1 hi
  have hp := (hR.signed i sig hsig).1
  obtain ⟨s, hsent, hid⟩ := hR.precommitted_sent hp
  have hE : R.get_block desc (SentBlock.get_block_id desc R.precommitted_block) = some s :=
    hid ▸ hR.sent_sorted.find_of_mem hsent
  refine ⟨⟨R.seqno, R.precommitted_block, R.signatures, s.approved_by⟩,
    by rw [OldRoundState.create, check_pos hp, Result.ok_bind, check_pos hs, Result.ok_bind, hE],
    ⟨rfl, fun i sig hi => (hR.signed i sig hi).2, check_weight_iff.1 hs⟩, hp, rfl, fun j => rfl, fun j => ?_⟩
  change s.approved_by j = (R.get_block desc (SentBlock.get_block_id desc R.precommitted_block)).bind _
  rw [hE]
  rfl

namespace SessionState

structure Valid (desc : Description n) (s : SessionState n) : Prop where
  round : s.cur_round.Valid desc
  old : ∀ (k : ℕ) O, s.old_rounds[k]? = some O → O.Valid desc k
  length : s.old_rounds.length = s.cur_round.seqno
  unsigned : s.cur_round.check_block_is_signed desc = false

/-- The blocks that are committed or precommitted are among those of `D`. -/
structure Decided (desc : Description n) (D : ℕ → CandidateId → Prop) (s : SessionState n) : Prop where
  old : ∀ (k : ℕ) O, s.old_rounds[k]? = some O → D k (SentBlock.get_block_id desc O.block)
  round : s.cur_round.precommitted = true → D s.cur_round.seqno (SentBlock.get_block_id desc s.cur_round.precommitted_block)

theorem not_signed_create (k : ℕ) : (RoundState.create k : RoundState n).check_block_is_signed desc = false := by
  rw [Bool.eq_false_iff]
  intro h
  obtain ⟨i, hi⟩ := exists_of_check_weight h
  cases hi

theorem valid_create : (create : SessionState n).Valid desc :=
  ⟨RoundState.valid_create 0, fun _ _ => (nomatch ·), rfl, not_signed_create 0⟩

/-- Old rounds, then the current one. -/
structure Rounds (desc : Description n) (old : List (OldRoundState n)) (R : RoundState n) : Prop where
  round : R.Valid desc
  length : old.length = R.seqno
  valid : ∀ (k : ℕ) O, old[k]? = some O → O.Valid desc k

variable {old : List (OldRoundState n)}

theorem close_round_ok {R : RoundState n} (h : Rounds desc old R) :
    ∃ old' R', close_round desc old R = .ok (old', R') ∧ Rounds desc old' R' ∧ R'.check_block_is_signed desc = false ∧
      (R.check_block_is_signed desc = false ∧ old' = old ∧ R' = R ∨
        R.check_block_is_signed desc = true ∧ R.precommitted = true ∧ ∃ O, Closed desc R O ∧ old' = old ++ [O] ∧ R' = .create (R.seqno + 1)) := by
  unfold close_round
  cases hs : R.check_block_is_signed desc with
  | false => exact ⟨old, R, rfl, h, hs, .inl ⟨rfl, rfl, rfl⟩⟩
  | true =>
    obtain ⟨O, hO, hv, hp, hb⟩ := create_ok h.round hs
    refine ⟨old ++ [O], .create (R.seqno + 1), ?_, ⟨RoundState.valid_create _, ?_, fun k O' hk => ?_⟩, not_signed_create _,
      .inr ⟨rfl, hp, O, hb, rfl, rfl⟩⟩
    · rw [if_pos rfl, hO, Result.ok_bind, push_old, check_pos h.length.symm]
      rfl
    · rw [length_append, h.length]
      rfl
    · rw [getElem?_append] at hk
      split_ifs at hk with hlt
      · exact h.valid k O' hk
      · obtain ⟨hk', rfl⟩ := List.getElem?_eq_some_iff.1 hk
        obtain rfl : k = R.seqno := by
          have := h.length
          simp only [length_singleton] at hk'
          omega
        simpa using hv

/-! ## Actions -/

/-- The old rounds keep their blocks. -/
def OldKept (s t : SessionState n) : Prop :=
  ∀ (k : ℕ) O, t.old_rounds[k]? = some O → ∃ O', s.old_rounds[k]? = some O' ∧ O'.block = O.block

/-- What an action of node `i` does to a state. -/
inductive Change (desc : Description n) (s : SessionState n) (i : Fin n) (att : ℕ) (t : SessionState n) : Prop
  | quiet (round : s.cur_round.Quiet t.cur_round) (old : OldKept s t)
  | forwarded (A : RoundAttemptState n) (round : Forwarded desc (s.cur_round.enter_attempt i att) i att A t.cur_round)
    (old : OldKept s t)
  | closed (flag : s.cur_round.precommitted = true) (round : t.cur_round = .create (s.cur_round.seqno + 1))
    (old : ∀ (k : ℕ) O, t.old_rounds[k]? = some O → (∃ O', s.old_rounds[k]? = some O' ∧ O'.block = O.block) ∨
      k = s.cur_round.seqno ∧ O.block = s.cur_round.precommitted_block)

variable {s t : SessionState n} {i : Fin n} {a : ℕ}

theorem OldKept.refl (s : SessionState n) : OldKept s s := fun _ O h => ⟨O, h, rfl⟩

theorem clamp_pos (s : SessionState n) (i : Fin n) (att : ℕ) : 0 < s.clamp i att ∧ s.att i ≤ s.clamp i att := by
  unfold clamp
  dsimp only
  split_ifs <;> omega

theorem Valid.rounds (h : s.Valid desc) : Rounds desc s.old_rounds s.cur_round := ⟨h.round, h.length, h.old⟩

theorem Rounds.state {R : RoundState n} (h : Rounds desc old R)
    (hs : R.check_block_is_signed desc = false) (att : NodeVec n ℕ) : (⟨att, old, R⟩ : SessionState n).Valid desc :=
  ⟨h.round, h.valid, h.length, hs⟩

theorem signed_congr {R R' : RoundState n} (h : R'.signatures = R.signatures) :
    R'.check_block_is_signed desc = R.check_block_is_signed desc := by
  rw [check_block_is_signed, check_block_is_signed, h]

theorem round_action_ok (hs : s.Valid desc) {att : ℕ} (hatt : 0 < att) (i : Fin n) (act : Message) (ts : NodeVec n ℕ) :
    ∃ R old R', s.cur_round.action desc i att act = .ok R ∧ close_round desc s.old_rounds R = .ok (old, R') ∧
      (⟨ts, old, R'⟩ : SessionState n).Valid desc ∧ Change desc s i att ⟨ts, old, R'⟩ := by
  obtain ⟨R, hR, hv, hchange⟩ := RoundState.action_ok hs.round hatt i act
  have hseqno : R.seqno = s.cur_round.seqno := by
    rcases hchange with h | ⟨A, h⟩
    · exact h.seqno
    · exact h.seqno.trans (RoundState.enter_attempt_quiet _ i att).1.seqno
  obtain ⟨old, R', hclose, hrounds, hunsigned, hcase⟩ := close_round_ok ⟨hv, hs.length.trans hseqno.symm, hs.old⟩
  refine ⟨R, old, R', hR, hclose, hrounds.state hunsigned ts, ?_⟩
  rcases hcase with ⟨-, rfl, rfl⟩ | ⟨hsigned, hp, O, hb, rfl, rfl⟩
  · rcases hchange with h | ⟨A, h⟩
    · exact .quiet h (.refl s)
    · exact .forwarded A h (.refl s)
  · rcases hchange with h | ⟨A, h⟩
    · refine .closed (h.precommitted ▸ hp) (h.seqno ▸ rfl) fun k O' hk => ?_
      have hk : (s.old_rounds ++ [O])[k]? = some O' := hk
      rw [getElem?_append] at hk
      split_ifs at hk with hlt
      · exact .inl ⟨O', hk, rfl⟩
      · obtain ⟨hlt', rfl⟩ := List.getElem?_eq_some_iff.1 hk
        refine .inr ⟨?_, ?_⟩
        · have := hs.length
          simp only [length_singleton] at hlt'
          omega
        · rw [getElem_singleton, hb.block, h.precommitted_block]
    · -- a message to an attempt adds no signature
      have hsig := h.signatures.trans (RoundState.enter_attempt_quiet s.cur_round i att).2.2
      rw [signed_congr hsig, hs.unsigned] at hsigned
      cases hsigned

theorem set_old (hs : Rounds desc s.old_rounds s.cur_round) {k : ℕ} {O O' : OldRoundState n} (hk : s.old_rounds[k]? = some O)
    (hO' : O'.Valid desc k) (hb : O'.block = O.block) :
    Rounds desc (s.old_rounds.set k O') s.cur_round ∧
      ∀ (j : ℕ) Q, (s.old_rounds.set k O')[j]? = some Q → ∃ Q', s.old_rounds[j]? = some Q' ∧ Q'.block = Q.block := by
  have hget : ∀ (j : ℕ) Q, (s.old_rounds.set k O')[j]? = some Q → j = k ∧ Q = O' ∨ s.old_rounds[j]? = some Q := by
    intro j Q hj
    rw [getElem?_set] at hj
    split_ifs at hj with h1
    · cases hj
      exact .inl ⟨h1.symm, rfl⟩
    · exact .inr hj
  refine ⟨⟨hs.round, by rw [length_set, hs.length], fun j Q hj => ?_⟩, fun j Q hj => ?_⟩
  · rcases hget j Q hj with ⟨rfl, rfl⟩ | hj
    · exact hO'
    · exact hs.valid j Q hj
  · rcases hget j Q hj with ⟨rfl, rfl⟩ | hj
    · exact ⟨O, hk, hb.symm⟩
    · exact ⟨Q, hj, rfl⟩

theorem action_ok (hs : s.Valid desc) (i : Fin n) (att : ℕ) (act : Message) :
    ∃ t, s.action desc i att act = .ok t ∧ t.Valid desc ∧ t.att = NodeVec.change s.att i (s.clamp i att) ∧
      Change desc s i (s.clamp i att) t := by
  unfold action
  dsimp only
  split_ifs with h1 h2
  · exact ⟨_, rfl, hs.rounds.state hs.unsigned _, rfl, .quiet (.refl _) (.refl s)⟩
  · obtain ⟨R, old, R', hR, hclose, hv, hchange⟩ :=
      round_action_ok hs (clamp_pos s i att).1 i act (NodeVec.change s.att i (s.clamp i att))
    rw [hR, Result.ok_bind, hclose]
    exact ⟨_, rfl, hv, rfl, hchange⟩
  · have hlt : get_round_id act < s.old_rounds.length := by
      have := hs.length
      omega
    have hk := getElem?_eq_getElem hlt
    obtain ⟨O', hO', hv, hb⟩ := OldRoundState.action_ok (hs.old _ _ hk) i act
    obtain ⟨hrounds, hkept⟩ := set_old hs.rounds hk hv hb
    rw [hk]
    dsimp only
    rw [hO']
    exact ⟨_, rfl, hrounds.state hs.unsigned _, rfl, .quiet (.refl _) hkept⟩

/-! ## Implicit actions -/

/-- How many turns of the loop in `make_all` still change something. -/
def pending (s : SessionState n) (i : Fin n) (att : ℕ) : ℕ :=
  (s.cur_round.attempt_at att).todo i + if s.att i < att ∨ ¬ s.cur_round.Entered i att then 1 else 0

theorem pending_eq (h : t.att i = a) (hE : t.cur_round.Entered i a) : t.pending i a = (t.cur_round.attempt_at a).todo i := by
  have hno : ¬ (t.att i < a ∨ ¬ t.cur_round.Entered i a) := by
    rintro (h' | h')
    · exact absurd h (Nat.ne_of_lt h')
    · exact h' hE
  rw [pending, if_neg hno, Nat.add_zero]

theorem pending_le (s : SessionState n) (i : Fin n) (att : ℕ) : s.pending i att ≤ 3 := by
  unfold pending RoundAttemptState.todo
  split_ifs <;> omega

/-- What an implicit action of node `i` does. -/
inductive MadeOne (desc : Description n) (s : SessionState n) (i : Fin n) (att : ℕ) (t : SessionState n) : Prop
  | quiet (round : s.cur_round.Quiet t.cur_round) (still : s.cur_round.Still desc i att) (old : t.old_rounds = s.old_rounds)
  | implied (A : RoundAttemptState n) (round : RoundState.Implied desc s.cur_round i att A t.cur_round) (old : t.old_rounds = s.old_rounds)

theorem make_one_ok (hs : s.Valid desc) (i : Fin n) (att : ℕ) :
    ∃ t m, s.make_one desc i att = .ok (t, m) ∧ t.Valid desc ∧ (m = false → t = s) ∧
      (m = true → t.pending i (s.clamp i att) < s.pending i (s.clamp i att)) ∧
      t.att = NodeVec.change s.att i (s.clamp i att) ∧ MadeOne desc s i (s.clamp i att) t := by
  obtain ⟨hpos, hle⟩ := clamp_pos s i att
  obtain ⟨R, m, hR, hv, hsig, hentered, hm, hcase⟩ := RoundState.make_one_round_ok hs.round hpos i
  have hts : (if s.att i < s.clamp i att then NodeVec.change s.att i (s.clamp i att) else s.att) =
      NodeVec.change s.att i (s.clamp i att) := by
    split_ifs with h
    · rfl
    · rw [NodeVec.change, ← le_antisymm hle (not_lt.1 h), update_eq_self]
  have hunsigned : R.check_block_is_signed desc = false := (signed_congr hsig).trans hs.unsigned
  have hseqno : R.seqno = s.cur_round.seqno := by
    have hE := (RoundState.enter_attempt_quiet s.cur_round i (s.clamp i att)).1.seqno
    rcases hcase with ⟨rfl, -⟩ | ⟨-, A, h⟩
    · exact hE
    · exact h.seqno.trans hE
  have hchange : ∀ t : SessionState n, t.cur_round = R → t.old_rounds = s.old_rounds → MadeOne desc s i (s.clamp i att) t := by
    rintro t rfl ht
    rcases hcase with ⟨hE, -, hstill⟩ | ⟨-, A, h⟩
    · exact .quiet (hE ▸ (RoundState.enter_attempt_quiet _ _ _).1) hstill ht
    · exact .implied A h ht
  have hvalid : ∀ ts : NodeVec n ℕ, (⟨ts, s.old_rounds, R⟩ : SessionState n).Valid desc :=
    fun ts => Rounds.state ⟨hv, hs.length.trans hseqno.symm, hs.old⟩ hunsigned ts
  have hpending : ∀ t : SessionState n, t.cur_round = R → t.att i = s.clamp i att → ¬ ((!m) = true ∧ ¬ s.att i < s.clamp i att) →
      t.pending i (s.clamp i att) < s.pending i (s.clamp i att) := by
    rintro t rfl ht h
    rw [pending_eq ht hentered, pending]
    rcases hcase with ⟨hE, hnew, -⟩ | ⟨-, A, himp⟩
    · rw [hE, RoundState.attempt_at, (RoundState.enter_attempt_quiet s.cur_round i (s.clamp i att)).1.attempts, if_pos]
      · exact Nat.lt_succ_self _
      · by_contra hno
        obtain ⟨h1, h2⟩ := not_or.1 hno
        refine h ⟨?_, h1⟩
        cases m with
        | false => rfl
        | true => exact absurd (hnew rfl) h2
    · rw [himp.attempt_at hs.round]
      exact (RoundAttemptState.todo_make_one (attempt_at_valid hs.round hpos).votes_sorted himp.made).trans_le
        (Nat.le_add_right _ _)
  have hat : ∀ ts : NodeVec n ℕ, ts = NodeVec.change s.att i (s.clamp i att) → ts i = s.clamp i att := by
    rintro ts rfl
    exact update_self ..
  unfold make_one
  dsimp only
  rw [hR, Result.ok_bind]
  dsimp only
  split_ifs with h1 h2
  · obtain ⟨hmf, hlt⟩ := h1
    refine ⟨s, false, rfl, hs, fun _ => rfl, fun h => (by cases h), ?_, hchange s (hm (by simpa using hmf)).symm rfl⟩
    rw [← hts, if_neg hlt]
  · rw [check_pos (by rw [hunsigned]; rfl)]
    exact ⟨_, true, rfl, hvalid _, fun h => (by cases h), fun _ => hpending _ rfl (hat _ rfl) h1, rfl, hchange _ rfl rfl⟩
  · rw [check_pos (by rw [hunsigned]; rfl)]
    have hatt : s.att = NodeVec.change s.att i (s.clamp i att) := by rw [← hts, if_neg h2]
    exact ⟨_, true, rfl, hvalid _, fun h => (by cases h), fun _ => hpending _ rfl (hat _ hatt) h1, hatt, hchange _ rfl rfl⟩

theorem clamp_change (h : t.att i = s.clamp i a) : t.clamp i a = s.clamp i a := by
  unfold clamp at h ⊢
  dsimp only at h ⊢
  rw [h]
  split_ifs <;> omega

/-- A sequence of implicit actions of one node. -/
inductive Implicit (desc : Description n) (i : Fin n) (att : ℕ) : SessionState n → SessionState n → Prop
  | nil (s : SessionState n) : Implicit desc i att s s
  | cons {s t u : SessionState n} (h : s.make_one desc i att = .ok (t, true)) (rest : Implicit desc i att t u) :
    Implicit desc i att s u

theorem make_all_ok (hs : s.Valid desc) (i : Fin n) (att : ℕ) {fuel : ℕ} (hfuel : s.pending i (s.clamp i att) < fuel) :
    ∃ t, make_all desc i att fuel s = .ok (some t) ∧ Implicit desc i att s t := by
  induction fuel generalizing s with
  | zero => omega
  | succ fuel ih =>
    obtain ⟨t, m, h, hv, hsame, hlt, hatt, -⟩ := make_one_ok hs i att
    rw [make_all, h, Result.ok_bind]
    cases m with
    | false =>
      obtain rfl := hsame rfl
      exact ⟨t, rfl, .nil t⟩
    | true =>
      have hc : t.clamp i att = s.clamp i att := clamp_change (by rw [hatt]; exact update_self ..)
      obtain ⟨u, hu, hrest⟩ := ih hv (by rw [hc]; have := hlt rfl; omega)
      exact ⟨u, hu, .cons h hrest⟩

end SessionState

end Ton.Session
