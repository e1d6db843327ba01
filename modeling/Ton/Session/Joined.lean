import Ton.Session.Valid
/-!
# Merging two session states

Two states fit together when the blocks they committed or precommitted are the
same, round by round (`Agree`). Then only a null vector can stop a merge, and the
result has the signatures and approvals of both, round by round.
-/

namespace Ton.Session.SessionState
open Keyed Voting List OldRoundState

variable {n : ℕ} {p : Pointers} {desc : Description n}

/-! ## The signatures of a round -/

/-- The signatures of round `k`, whether it is old or current. -/
def sigAt (s : SessionState n) (k : ℕ) (j : Fin n) : Option Signature :=
  match s.old_rounds[k]? with
  | some O => O.signatures j
  | none => if s.cur_round.seqno = k then s.cur_round.signatures j else none

/-- The approvals of block `c` in round `k`; an old round has those of its own block. -/
def approveAt (desc : Description n) (s : SessionState n) (k : ℕ) (c : CandidateId) (j : Fin n) : Option Signature :=
  match s.old_rounds[k]? with
  | some O => O.approve_signatures j
  | none => if s.cur_round.seqno = k then s.cur_round.approval desc c j else none

section At
variable {s : SessionState n} {k : ℕ} {O : OldRoundState n} {c : CandidateId} {j : Fin n}

theorem at_old (desc : Description n) (c : CandidateId) (h : s.old_rounds[k]? = some O) :
    s.sigAt k j = O.signatures j ∧ s.approveAt desc k c j = O.approve_signatures j := by
  rw [sigAt, approveAt, h]
  exact ⟨rfl, rfl⟩

section
variable (desc : Description n) (c : CandidateId) (hs : s.old_rounds.length = s.cur_round.seqno)
include hs

theorem at_cur (h : s.cur_round.seqno = k) :
    s.sigAt k j = s.cur_round.signatures j ∧ s.approveAt desc k c j = s.cur_round.approval desc c j := by
  rw [sigAt, approveAt, getElem?_eq_none (hs.trans h).le, if_pos h, if_pos h]
  exact ⟨rfl, rfl⟩

theorem at_later (h : s.cur_round.seqno < k) :
    s.sigAt k j = none ∧ s.approveAt desc k c j = none := by
  rw [sigAt, approveAt, getElem?_eq_none (hs.trans_le h.le), if_neg h.ne, if_neg h.ne]
  exact ⟨rfl, rfl⟩

end

theorem exists_old (hs : s.old_rounds.length = s.cur_round.seqno) (h : k < s.cur_round.seqno) : ∃ O, s.old_rounds[k]? = some O :=
  ⟨_, getElem?_eq_getElem (hs.symm ▸ h)⟩

theorem old_none (hs : s.old_rounds.length = s.cur_round.seqno) (h : s.cur_round.seqno ≤ k) : s.old_rounds[k]? = none :=
  getElem?_eq_none (hs.trans_le h)

end At

/-! ## What a merge is made of -/

/-- The current round of a merge, before it is closed. -/
inductive RoundOf (p : Pointers) (desc : Description n) (l r : SessionState n) : RoundState n → Prop
  | left (h : r.cur_round.seqno < l.cur_round.seqno) : RoundOf p desc l r l.cur_round
  | right (h : l.cur_round.seqno < r.cur_round.seqno) : RoundOf p desc l r r.cur_round
  | same (hsame : p.same l.cur_round r.cur_round = true) (h : l.cur_round = r.cur_round) : RoundOf p desc l r l.cur_round
  | merged {R : RoundState n} (hseqno : l.cur_round.seqno = r.cur_round.seqno)
    (h : RoundState.Merged p desc l.cur_round r.cur_round R) : RoundOf p desc l r R

/-- Old round `k` of a merge. -/
structure OldFrom (desc : Description n) (l r : SessionState n) (k : ℕ) (O : OldRoundState n) : Prop where
  block : (∃ O', l.old_rounds[k]? = some O' ∧ O'.block = O.block) ∨ ∃ O', r.old_rounds[k]? = some O' ∧ O'.block = O.block
  signatures : ∀ j, O.signatures j = joinSignature (l.sigAt k j) (r.sigAt k j)
  approvals : ∀ j, O.approve_signatures j =
    joinSignature (l.approveAt desc k (O.get_block_id desc) j) (r.approveAt desc k (O.get_block_id desc) j)

/-- `t` is made of `l` and `r`, with `R` as the current round or as the last old one. -/
structure Joined (p : Pointers) (desc : Description n) (l r : SessionState n) (R : RoundState n) (t : SessionState n) : Prop where
  att : t.att = fun i => max (l.att i) (r.att i)
  round : RoundOf p desc l r R
  valid : R.Valid desc
  closed : (t.cur_round = R ∧ ∀ (k : ℕ) O, t.old_rounds[k]? = some O → OldFrom desc l r k O) ∨
    R.precommitted = true ∧ R.check_block_is_signed desc = true ∧ t.cur_round = .create (R.seqno + 1) ∧
      ∃ v O, t.old_rounds = v ++ [O] ∧ v.length = R.seqno ∧ (∀ (k : ℕ) O, v[k]? = some O → OldFrom desc l r k O) ∧ Closed desc R O

/-- The rounds of `l` and `r` have the same blocks. -/
structure Agree (desc : Description n) (l r : SessionState n) : Prop where
  old : ∀ (k : ℕ) O O', l.old_rounds[k]? = some O → r.old_rounds[k]? = some O' →
    SentBlock.get_block_id desc O.block = SentBlock.get_block_id desc O'.block
  left : ∀ O, r.old_rounds[l.cur_round.seqno]? = some O → l.cur_round.precommitted = true →
    SentBlock.get_block_id desc l.cur_round.precommitted_block = SentBlock.get_block_id desc O.block
  right : ∀ O, l.old_rounds[r.cur_round.seqno]? = some O → r.cur_round.precommitted = true →
    SentBlock.get_block_id desc r.cur_round.precommitted_block = SentBlock.get_block_id desc O.block
  round : l.cur_round.seqno = r.cur_round.seqno → l.cur_round.precommitted = true ∧ r.cur_round.precommitted = true →
    SentBlock.get_block_id desc l.cur_round.precommitted_block = SentBlock.get_block_id desc r.cur_round.precommitted_block

theorem Decided.agree {D : ℕ → CandidateId → Prop} (hD : ∀ k c d, D k c → D k d → c = d) {l r : SessionState n}
    (hl : l.Decided desc D) (hr : r.Decided desc D) : Agree desc l r where
  old k O O' h h' := hD k _ _ (hl.old k O h) (hr.old k O' h')
  left O h hp := hD _ _ _ (hl.round hp) (hr.old _ O h)
  right O h hp := hD _ _ _ (hr.round hp) (hl.old _ O h)
  round h hp := hD _ _ _ (hl.round hp.1) (h ▸ hr.round hp.2)

/-- What stops a merge: the current rounds are two objects of one round, neither of
them with an attempt. -/
def Mergeable (p : Pointers) (l r : SessionState n) : Prop :=
  p.same l r = true ∨ l.cur_round.seqno ≠ r.cur_round.seqno ∨ p.same l.cur_round r.cur_round = true ∨
    l.cur_round.attempts ≠ [] ∨ r.cur_round.attempts ≠ []

/-! ## Merging -/

section Merge
variable {l r : SessionState n} (hl : l.Valid desc) (hr : r.Valid desc) (hagree : Agree desc l r)
include hl hr hagree

theorem merge_old_ok : ∃ v, CntVector.merge p (OldRoundState.merge p) l.old_rounds r.old_rounds = .ok v ∧
    v.length = max l.cur_round.seqno r.cur_round.seqno ∧ ∀ (k : ℕ) O, v[k]? = some O → O.Valid desc k ∧
      ((∃ A B, l.old_rounds[k]? = some A ∧ r.old_rounds[k]? = some B ∧ O = joined A B) ∨
        (l.old_rounds[k]? = some O ∧ r.old_rounds[k]? = none) ∨ (l.old_rounds[k]? = none ∧ r.old_rounds[k]? = some O)) := by
  have heq : ∀ (k : ℕ) O O', l.old_rounds[k]? = some O → r.old_rounds[k]? = some O' →
      O.merge p O' = .ok (joined O O') := by
    intro k O O' hO hO'
    exact merge_eq ((hl.old k O hO).seqno.trans (hr.old k O' hO').seqno.symm)
  obtain ⟨v, hv, hz⟩ := CntVector.merge_spec (p := p) (fun k O O' h h' => ⟨_, heq k O O' h h'⟩) fun k O h _ => by
    rw [merge_eq rfl, joined_self]
  refine ⟨v, hv, by rw [hz.length, hl.length, hr.length], fun k O hk => ?_⟩
  have hzk := hz k
  rw [hk] at hzk
  rcases hlk : l.old_rounds[k]? with _ | A <;> rcases hrk : r.old_rounds[k]? with _ | B <;> rw [hlk, hrk] at hzk
  · cases hzk
  · cases hzk
    exact ⟨hr.old k O hrk, .inr (.inr ⟨rfl, rfl⟩)⟩
  · cases hzk
    exact ⟨hl.old k O hlk, .inr (.inl ⟨rfl, rfl⟩)⟩
  · rw [Result.join, heq k A B hlk hrk] at hzk
    cases hzk
    exact ⟨valid_joined (hl.old k A hlk) (hr.old k B hrk) (hagree.old k A B hlk hrk), .inl ⟨A, B, rfl, rfl, rfl⟩⟩

omit hagree in
/-- A round that is current in neither state is as the old ones make it. -/
theorem oldFrom_of_ne {k : ℕ} {O : OldRoundState n} (hkl : k ≠ l.cur_round.seqno) (hkr : k ≠ r.cur_round.seqno)
    (h : (∃ A B, l.old_rounds[k]? = some A ∧ r.old_rounds[k]? = some B ∧ O = joined A B) ∨
      (l.old_rounds[k]? = some O ∧ r.old_rounds[k]? = none) ∨ (l.old_rounds[k]? = none ∧ r.old_rounds[k]? = some O)) :
    OldFrom desc l r k O := by
  have later : ∀ {s : SessionState n}, s.Valid desc → k ≠ s.cur_round.seqno → s.old_rounds[k]? = none → s.cur_round.seqno < k := by
    intro s hs hne hnone
    have := List.getElem?_eq_none_iff.1 hnone
    rw [hs.length] at this
    omega
  rcases h with ⟨A, B, hA, hB, rfl⟩ | ⟨hO, hnone⟩ | ⟨hnone, hO⟩
  · refine ⟨.inl ⟨A, hA, rfl⟩, fun j => ?_, fun j => ?_⟩
    · rw [(at_old desc 0 hA).1, (at_old desc 0 hB).1]
      rfl
    · rw [(at_old desc _ hA).2, (at_old desc _ hB).2]
      rfl
  · have hlt := later hr hkr hnone
    refine ⟨.inl ⟨O, hO, rfl⟩, fun j => ?_, fun j => ?_⟩
    · rw [(at_old desc 0 hO).1, (at_later desc 0 hr.length hlt).1, joinSignature_none]
    · rw [(at_old desc _ hO).2, (at_later desc _ hr.length hlt).2, joinSignature_none]
  · have hlt := later hl hkl hnone
    refine ⟨.inr ⟨O, hO, rfl⟩, fun j => ?_, fun j => ?_⟩
    · rw [(at_old desc 0 hO).1, (at_later desc 0 hl.length hlt).1]
      rfl
    · rw [(at_old desc _ hO).2, (at_later desc _ hl.length hlt).2]
      rfl

end Merge

/-- The round `s` is in is old in `t`, and takes the signatures of `s`. -/
theorem merge_behind_ok {s t : SessionState n} (hs : s.Valid desc) (ht : t.Valid desc) (hlt : s.cur_round.seqno < t.cur_round.seqno)
    (hid : ∀ O, t.old_rounds[s.cur_round.seqno]? = some O → s.cur_round.precommitted = true →
      SentBlock.get_block_id desc s.cur_round.precommitted_block = SentBlock.get_block_id desc O.block)
    {v : List (OldRoundState n)} (hlen : v.length = t.cur_round.seqno)
    (hv : ∀ O, v[s.cur_round.seqno]? = some O → t.old_rounds[s.cur_round.seqno]? = some O) :
    ∃ O O', t.old_rounds[s.cur_round.seqno]? = some O ∧ merge_behind p desc v s.cur_round = .ok (v.set s.cur_round.seqno O') ∧
      O'.Valid desc s.cur_round.seqno ∧ O'.block = O.block ∧
      (∀ j, O'.signatures j = joinSignature (t.sigAt s.cur_round.seqno j) (s.sigAt s.cur_round.seqno j)) ∧
      ∀ j, O'.approve_signatures j = joinSignature (t.approveAt desc s.cur_round.seqno (O'.get_block_id desc) j)
        (s.approveAt desc s.cur_round.seqno (O'.get_block_id desc) j) := by
  have hk := getElem?_eq_getElem (hlt.trans_eq hlen.symm)
  have hO := hv _ hk
  obtain ⟨O', hO', hvO, hb, hsig, happ⟩ := merge_round_ok (p := p) (ht.old _ _ hO) hs.round (hid _ hO)
  have hbid := congrArg (SentBlock.get_block_id desc) hb
  refine ⟨_, O', hO, by rw [merge_behind, hk]; dsimp only; rw [hO']; rfl, hvO, hb, fun j => ?_, fun j => ?_⟩
  · rw [hsig j, (at_old desc 0 hO).1, (at_cur desc 0 hs.length rfl).1]
  · rw [happ j, (at_old desc _ hO).2, (at_cur desc _ hs.length rfl).2, get_block_id, get_block_id, hbid]

theorem oldFrom_set {l r : SessionState n} {v : List (OldRoundState n)} {q : ℕ} {O' : OldRoundState n}
    (hv : ∀ (k : ℕ) O, k ≠ q → v[k]? = some O → O.Valid desc k ∧ OldFrom desc l r k O) (hO' : O'.Valid desc q)
    (hfrom : OldFrom desc l r q O') (k : ℕ) (O : OldRoundState n) (hk : (v.set q O')[k]? = some O) :
    O.Valid desc k ∧ OldFrom desc l r k O := by
  rw [getElem?_set] at hk
  split_ifs at hk with hqk
  · subst hqk
    cases hk
    exact ⟨hO', hfrom⟩
  · exact hv k O (Ne.symm hqk) hk

section Merge
variable {l r : SessionState n} (hl : l.Valid desc) (hr : r.Valid desc) (hagree : Agree desc l r)
include hl hr hagree

theorem merge_rounds_ok {v : List (OldRoundState n)} (hlen : v.length = max l.cur_round.seqno r.cur_round.seqno)
    (hv : ∀ (k : ℕ) O, v[k]? = some O → O.Valid desc k ∧
      ((∃ A B, l.old_rounds[k]? = some A ∧ r.old_rounds[k]? = some B ∧ O = joined A B) ∨
        (l.old_rounds[k]? = some O ∧ r.old_rounds[k]? = none) ∨ (l.old_rounds[k]? = none ∧ r.old_rounds[k]? = some O)))
    (hnull : l.cur_round.seqno ≠ r.cur_round.seqno ∨ p.same l.cur_round r.cur_round = true ∨ l.cur_round.attempts ≠ [] ∨
      r.cur_round.attempts ≠ []) :
    ∃ v' R, merge_rounds p desc v l.cur_round r.cur_round = .ok (v', R) ∧ Rounds desc v' R ∧
      (∀ (k : ℕ) O, v'[k]? = some O → OldFrom desc l r k O) ∧ RoundOf p desc l r R := by
  have hlt : ∀ {k : ℕ} {O}, v[k]? = some O → k < max l.cur_round.seqno r.cur_round.seqno := by
    intro k O hk
    exact hlen ▸ (List.getElem?_eq_some_iff.1 hk).1
  unfold merge_rounds
  split_ifs with h1 h2
  · -- the round of `l` is old in `r`
    obtain ⟨O, O', hO, hm, hO', hb, hsig, happ⟩ := merge_behind_ok (p := p) hl hr h1 hagree.left (hlen.trans (by omega)) fun O hO => by
      rcases (hv _ O hO).2 with ⟨A, -, hA, -⟩ | ⟨hA, -⟩ | ⟨-, hO⟩
      · cases (old_none hl.length le_rfl).symm.trans hA
      · cases (old_none hl.length le_rfl).symm.trans hA
      · exact hO
    have hset := oldFrom_set (l := l) (r := r) (v := v) (q := l.cur_round.seqno) (fun k Q hk hQ => ⟨(hv k Q hQ).1,
      oldFrom_of_ne hl hr hk (by have := hlt hQ; omega) (hv k Q hQ).2⟩) hO'
      ⟨.inr ⟨O, hO, hb.symm⟩, fun j => (hsig j).trans (joinSignature_comm _ _), fun j => (happ j).trans (joinSignature_comm _ _)⟩
    exact ⟨_, _, by rw [hm]; rfl, ⟨hr.round, by rw [length_set, hlen]; omega, fun k O hk => (hset k O hk).1⟩,
      fun k O hk => (hset k O hk).2, .right h1⟩
  · obtain ⟨O, O', hO, hm, hO', hb, hsig, happ⟩ := merge_behind_ok (p := p) hr hl h2 hagree.right (hlen.trans (by omega)) fun O hO => by
      rcases (hv _ O hO).2 with ⟨-, A, -, hA, -⟩ | ⟨hO, -⟩ | ⟨-, hA⟩
      · cases (old_none hr.length le_rfl).symm.trans hA
      · exact hO
      · cases (old_none hr.length le_rfl).symm.trans hA
    have hset := oldFrom_set (l := l) (r := r) (v := v) (q := r.cur_round.seqno) (fun k Q hk hQ => ⟨(hv k Q hQ).1,
      oldFrom_of_ne hl hr (by have := hlt hQ; omega) hk (hv k Q hQ).2⟩) hO' ⟨.inl ⟨O, hO, hb.symm⟩, hsig, happ⟩
    exact ⟨_, _, by rw [hm]; rfl, ⟨hl.round, by rw [length_set, hlen]; omega, fun k O hk => (hset k O hk).1⟩,
      fun k O hk => (hset k O hk).2, .left h2⟩
  · have hseqno : l.cur_round.seqno = r.cur_round.seqno := by omega
    have hid := hagree.round hseqno
    obtain ⟨R, hR, hcase⟩ := RoundState.merge_ok (p := p) hl.round hr.round hseqno hid
      (hnull.resolve_left fun h => h hseqno)
    have hfrom : ∀ (k : ℕ) O, v[k]? = some O → OldFrom desc l r k O := fun k O hk =>
      oldFrom_of_ne hl hr (by have := hlt hk; omega) (by have := hlt hk; omega) (hv k O hk).2
    refine ⟨v, R, by rw [hR]; rfl, ?_, hfrom, ?_⟩
    · rcases hcase with ⟨-, rfl, -⟩ | h
      · exact ⟨hl.round, by rw [hlen]; omega, fun k O hk => (hv k O hk).1⟩
      · exact ⟨h.valid hl.round hr.round hseqno fun h h' => hid ⟨h, h'⟩, by rw [hlen, h.seqno]; omega, fun k O hk => (hv k O hk).1⟩
    · rcases hcase with ⟨hsame, rfl, h⟩ | h
      · exact .same hsame h
      · exact .merged hseqno h

theorem merge_ok (hnull : Mergeable p l r) :
    ∃ t, l.merge p desc r = .ok t ∧ t.Valid desc ∧ (p.same l r = true ∧ l = r ∧ t = l ∨ ∃ R, Joined p desc l r R t) := by
  unfold merge
  split_ifs with hsame
  · exact ⟨l, rfl, hl, .inl ⟨hsame, p.eq_of_same hsame, rfl⟩⟩
  · obtain ⟨v, hv, hlen, hold⟩ := merge_old_ok (p := p) hl hr hagree
    obtain ⟨v', R, hR, hrounds, hfrom, hof⟩ := merge_rounds_ok hl hr hagree hlen hold (hnull.resolve_left hsame)
    obtain ⟨old, R', hclose, hrounds', hunsigned, hcase⟩ := close_round_ok hrounds
    rw [hv, Result.ok_bind, hR, Result.ok_bind]
    dsimp only
    rw [hclose]
    refine ⟨_, rfl, hrounds'.state hunsigned _, .inr ⟨R, ?_, hof, hrounds.round, ?_⟩⟩
    · funext i
      exact NodeVec.merge_nat_apply p max_self (fun x => Nat.max_zero x) (fun x => Nat.zero_max x) l.att r.att i
    · rcases hcase with ⟨-, rfl, rfl⟩ | ⟨hsigned, hp, O, hb, rfl, rfl⟩
      · exact .inl ⟨rfl, hfrom⟩
      · exact .inr ⟨hp, hsigned, rfl, v', O, rfl, hrounds.length, hfrom, hb⟩

/-- A merge of two rounds without an attempt reads a null vector. -/
theorem merge_null (hnull : ¬ Mergeable p l r) : l.merge p desc r = .error .null_pointer := by
  obtain ⟨h1, h2⟩ := not_or.1 hnull
  obtain ⟨h2, h3⟩ := not_or.1 h2
  obtain ⟨h3, h4⟩ := not_or.1 h3
  obtain ⟨h4, h5⟩ := not_or.1 h4
  have hseqno := not_not.1 h2
  obtain ⟨v, hv, -⟩ := merge_old_ok (p := p) hl hr hagree
  have hround := RoundState.merge_null (p := p) hseqno (Bool.not_eq_true _ ▸ h3) (not_not.1 h4) (not_not.1 h5) (hagree.round hseqno)
  rw [merge, if_neg h1, hv, Result.ok_bind, merge_rounds, if_neg (by omega), if_neg (by omega), hround]
  rfl

end Merge

end Ton.Session.SessionState
