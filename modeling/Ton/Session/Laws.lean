import Ton.Session.Consensus
import Ton.Lib.Least
/-!
# The laws of merging

A state is the join of a set of states when it shows what they show and no more
(`JoinOf`); such a state is unique, and merging two joins gives the join of the
two sets. A state is its own join when its flag and its locks are up to date
(`Settled`), and then merging settled states in any order and with any
repetitions gives the same state.
-/

namespace Ton.Session
open Keyed Voting List

variable {n : ℕ} {p : Pointers} {desc : Description n}

/-! ## What a round shows -/

namespace RoundState

/-- An attempt with the property is known. -/
def Has (R : RoundState n) (a : ℕ) (φ : RoundAttemptState n → Prop) : Prop := ∃ A, find (·.seqno) R.attempts a = some A ∧ φ A

/-- What is there or not. -/
inductive Fact (n : ℕ) where
  | attempt (a : ℕ)
  | candidate (a : ℕ) (c : CandidateId)
  | vote (a : ℕ) (c : CandidateId) (i : Fin n)
  | precommit (a : ℕ) (i : Fin n)
  | sent (c : CandidateId)

def Shows (desc : Description n) (R : RoundState n) : Fact n → Prop
  | .attempt a => R.Has a fun _ => True
  | .candidate a c => R.Has a fun A => ∃ v, find (·.get_id desc) A.votes c = some v
  | .vote a c i => R.HasVote desc a c i
  | .precommit a i => R.HasPrecommit a i
  | .sent c => R.Sent desc c

/-- The block that the VOTEFOR of an attempt names. -/
def voteFor (R : RoundState n) (a : ℕ) : Option (Option (SentBlock n)) :=
  (find (·.seqno) R.attempts a).bind fun A => if A.vote_for_inited then some A.vote_for else none

/-- The first attempt of a node, if it entered one. -/
def firstAttempt (R : RoundState n) (j : Fin n) : Option ℕ := if R.first_attempt j = 0 then none else some (R.first_attempt j)

/-- `x` unless later attempts than `x` were won by two blocks. -/
def Floored (desc : Description n) (R : RoundState n) (x y : ℕ) : Prop :=
  (R.Contested desc x → y = 0) ∧ (¬ R.Contested desc x → y = x)

/-- `R` shows what the rounds with the property show. -/
structure Seen (desc : Description n) (P : RoundState n → Prop) (R : RoundState n) : Prop where
  shows : ∀ x, R.Shows desc x ↔ ∃ Q, P Q ∧ Q.Shows desc x
  vote_for : ∀ a, Least.Of (SentBlock.get_block_id desc) (fun b => ∃ Q, P Q ∧ Q.voteFor a = some b) (R.voteFor a)
  approval : ∀ c j, Least.Of id (fun sig => ∃ Q, P Q ∧ Q.approval desc c j = some sig) (R.approval desc c j)
  signature : ∀ j, Least.Of id (fun sig => ∃ Q, P Q ∧ Q.signatures j = some sig) (R.signatures j)
  first : ∀ j, Least.Of id (fun a => ∃ Q, P Q ∧ Q.firstAttempt j = some a) (R.firstAttempt j)
  lock : ∀ j, ∃ x, (∀ Q, P Q → Q.last_precommit j ≤ x) ∧ (x = 0 ∨ ∃ Q, P Q ∧ Q.last_precommit j = x) ∧
    Floored desc R x (R.last_precommit j)
  flag : R.precommitted = true ↔ (∃ a, R.Precommitted desc a) ∨ ∃ Q, P Q ∧ Q.precommitted = true

variable {R R' l r t : RoundState n} {P P' : RoundState n → Prop} {a x y : ℕ} {c : CandidateId} {j : Fin n}

theorem Contested.mono (h : R.Contested desc x) (hyx : y ≤ x) (hsub : ∀ a c j, R.HasVote desc a c j → R'.HasVote desc a c j) :
    R'.Contested desc y := by
  obtain ⟨a, b, c, d, ha, hb, hne, hc, hd⟩ := h
  exact ⟨a, b, c, d, hyx.trans ha, hyx.trans hb, hne, votedFor_mono (fun j => hsub a c j) hc, votedFor_mono (fun j => hsub b d j) hd⟩

section
variable {faulty : Set (Fin n)} {few : FewFaulty desc faulty} {V : Ballots n} (hV : ∀ k, (V k).Inv (quorums few)) (hR : R.Valid desc)
  (hk : RoundKnown few V R)
include hV hR hk

/-- Every block has its votes counted once: `get_voted_block` finds the block of a quorum. -/
theorem voted_block (h : R.VotedFor desc a c) :
    ∃ A b, A ∈ R.attempts ∧ A.seqno = a ∧ A.get_voted_block desc = some b ∧ SentBlock.get_block_id desc b = c := by
  obtain ⟨A, hA, hc⟩ := h.attempt
  obtain ⟨b, hb⟩ := hc.voted
  obtain ⟨hm, hs⟩ := find_some hA
  have hb' := VotedFor.of_attempt hA (RoundAttemptState.votedFor_of_voted (hR.attempt A hm).votes_sorted hb).1
  exact ⟨A, b, hm, hs, hb, (hV _).voted_unique (hk.voted hb') (hk.voted h)⟩

theorem contested_iff (hx : x ≠ 0) : R.Contested desc x ↔ x ≤ lockFloor desc R.attempts := by
  constructor
  · rintro ⟨a, b, c, d, ha, hb, hne, hc, hd⟩
    have hlatest := Latest.latestOf desc hR.attempts_sorted false none
    rw [lockFloor]
    generalize Latest.noted desc R.attempts.reverse _ = s at hlatest
    by_contra hlt
    rw [not_le] at hlt
    obtain ⟨A, B, hA, rfl, hvA, rfl⟩ := voted_block hV hR hk hc
    obtain ⟨A', B', hA', rfl, hvA', rfl⟩ := voted_block hV hR hk hd
    cases hf : s.first with
    | none => cases ((hlatest.none hf).2 A hA).symm.trans hvA
    | some Ba =>
      refine hne ((hlatest.same A hA B hvA (hlt.trans_le ha) Ba.1 Ba.2 hf).trans ?_)
      exact (hlatest.same A' hA' B' hvA' (hlt.trans_le hb) Ba.1 Ba.2 hf).symm
  · intro hle
    exact contested_of_le_lockFloor hR.attempts_sorted (fun A hA => (hR.attempt A hA).votes_sorted) hle (by omega)

theorem floored_lockFloor (x : ℕ) :
    Floored desc R x (if lockFloor desc R.attempts < x then x else 0) := by
  by_cases hx : x = 0
  · subst hx
    exact ⟨fun _ => if_neg (Nat.not_lt_zero _), fun _ => if_neg (Nat.not_lt_zero _)⟩
  · rw [Floored, contested_iff hV hR hk hx]
    exact ⟨fun hle => if_neg hle.not_gt, fun hlt => if_pos (not_le.1 hlt)⟩

end

theorem Floored.merge {xl yl xr yr : ℕ} (hsubl : ∀ a c j, l.HasVote desc a c j → R.HasVote desc a c j)
    (hsubr : ∀ a c j, r.HasVote desc a c j → R.HasVote desc a c j) (hl : Floored desc l xl yl) (hr : Floored desc r xr yr)
    (h : Floored desc R (max yl yr) y) : Floored desc R (max xl xr) y := by
  have le : ∀ {S : RoundState n} {x y : ℕ}, Floored desc S x y → y ≤ x := by
    intro S x y hxy
    by_cases hc : S.Contested desc x
    · exact (hxy.1 hc).trans_le (Nat.zero_le x)
    · exact (hxy.2 hc).le
  constructor
  · intro hc
    exact h.1 (hc.mono (max_le_max (le hl) (le hr)) fun _ _ _ => id)
  · intro hc
    -- the greater of the two was not floored
    have hmax : max yl yr = max xl xr := by
      refine le_antisymm (max_le_max (le hl) (le hr)) ?_
      rcases le_total xr xl with hle | hle
      · rw [max_eq_left hle, ← hl.2 fun hc' => hc (hc'.mono (max_eq_left hle).le hsubl)]
        exact le_max_left _ _
      · rw [max_eq_right hle, ← hr.2 fun hc' => hc (hc'.mono (max_eq_right hle).le hsubr)]
        exact le_max_right _ _
    rw [hmax] at h
    exact h.2 hc

theorem Floored.unique {z : ℕ} (h : Floored desc R x y) (h' : Floored desc R x z) : y = z := by
  by_cases hc : R.Contested desc x
  · rw [h.1 hc, h'.1 hc]
  · rw [h.2 hc, h'.2 hc]

/-! ### Joins of rounds -/

theorem Seen.congr (h : Seen desc P R) (hP : ∀ Q, P Q ↔ P' Q) : Seen desc P' R := by
  obtain rfl : P = P' := funext fun Q => propext (hP Q)
  exact h

theorem seen_create (k : ℕ) : Seen desc (fun _ => False) (create k : RoundState n) where
  shows x := by
    refine iff_of_false ?_ fun ⟨_, h, _⟩ => h
    cases x <;> rintro ⟨A, hA, -⟩ <;> cases hA
  vote_for a := Least.of_none.congr fun _ => ⟨False.elim, fun ⟨_, h, _⟩ => h⟩
  approval c j := Least.of_none.congr fun _ => ⟨False.elim, fun ⟨_, h, _⟩ => h⟩
  signature j := Least.of_none.congr fun _ => ⟨False.elim, fun ⟨_, h, _⟩ => h⟩
  first j := Least.of_none.congr fun _ => ⟨False.elim, fun ⟨_, h, _⟩ => h⟩
  lock j := ⟨0, fun _ => False.elim, .inl rfl, fun _ => rfl, fun _ => rfl⟩
  flag := by
    refine iff_of_false (nomatch ·) ?_
    rintro (⟨a, ha⟩ | ⟨_, h, _⟩)
    · obtain ⟨A, hA, -⟩ := ha.attempt
      cases hA
    · exact h

/-- The flag and the locks of a round are up to date: its precommitted attempts are known
as such, and no lock is contested. -/
structure Settled (desc : Description n) (R : RoundState n) : Prop where
  flag : ∀ a, R.Precommitted desc a → R.precommitted = true
  lock : ∀ j, R.last_precommit j ≠ 0 → ¬ R.Contested desc (R.last_precommit j)

theorem Settled.seen (h : Settled desc R) : Seen desc (· = R) R where
  shows x := ⟨fun hx => ⟨R, rfl, hx⟩, fun ⟨_, hQ, hx⟩ => hQ ▸ hx⟩
  vote_for a := (Least.of_self _).congr fun _ => ⟨fun hx => ⟨R, rfl, hx⟩, fun ⟨_, hQ, hx⟩ => hQ ▸ hx⟩
  approval c j := (Least.of_self _).congr fun _ => ⟨fun hx => ⟨R, rfl, hx⟩, fun ⟨_, hQ, hx⟩ => hQ ▸ hx⟩
  signature j := (Least.of_self _).congr fun _ => ⟨fun hx => ⟨R, rfl, hx⟩, fun ⟨_, hQ, hx⟩ => hQ ▸ hx⟩
  first j := (Least.of_self _).congr fun _ => ⟨fun hx => ⟨R, rfl, hx⟩, fun ⟨_, hQ, hx⟩ => hQ ▸ hx⟩
  lock j := by
    refine ⟨R.last_precommit j, fun Q hQ => hQ ▸ le_rfl, .inr ⟨R, rfl, rfl⟩, fun hc => ?_, fun _ => rfl⟩
    by_contra h0
    exact h.lock j h0 hc
  flag := by
    refine ⟨fun hp => .inr ⟨R, rfl, hp⟩, ?_⟩
    rintro (⟨a, ha⟩ | ⟨_, rfl, hp⟩)
    · exact h.flag a ha
    · exact hp

section Two

theorem joinSignature_eq (a b : Option Signature) : joinSignature a b = Least.join id a b := by
  rcases a with _ | a <;> rcases b with _ | b
  · rfl
  · rfl
  · rfl
  · unfold joinSignature Least.join
    dsimp only [id]
    split_ifs <;> rfl

theorem exists_or {α : Type} {Q : RoundState n → α → Prop} {x : α} :
    (∃ R, (P R ∨ P' R) ∧ Q R x) ↔ (∃ R, P R ∧ Q R x) ∨ ∃ R, P' R ∧ Q R x := by
  constructor
  · rintro ⟨R, hR | hR, hx⟩
    · exact .inl ⟨R, hR, hx⟩
    · exact .inr ⟨R, hR, hx⟩
  · rintro (⟨R, hR, hx⟩ | ⟨R, hR, hx⟩)
    · exact ⟨R, .inl hR, hx⟩
    · exact ⟨R, .inr hR, hx⟩

theorem lock_max {xl xr : ℕ} {f : RoundState n → ℕ} (hl : (∀ Q, P Q → f Q ≤ xl) ∧ (xl = 0 ∨ ∃ Q, P Q ∧ f Q = xl))
    (hr : (∀ Q, P' Q → f Q ≤ xr) ∧ (xr = 0 ∨ ∃ Q, P' Q ∧ f Q = xr)) :
    (∀ Q, P Q ∨ P' Q → f Q ≤ max xl xr) ∧ (max xl xr = 0 ∨ ∃ Q, (P Q ∨ P' Q) ∧ f Q = max xl xr) := by
  constructor
  · rintro Q (hQ | hQ)
    · exact (hl.1 Q hQ).trans (le_max_left _ _)
    · exact (hr.1 Q hQ).trans (le_max_right _ _)
  · rcases max_choice xl xr with h | h <;> rw [h]
    · exact hl.2.imp id fun ⟨Q, hQ, hx⟩ => ⟨Q, .inl hQ, hx⟩
    · exact hr.2.imp id fun ⟨Q, hQ, hx⟩ => ⟨Q, .inr hQ, hx⟩

theorem Seen.both (h : Seen desc P R) (h' : Seen desc P' R) : Seen desc (fun Q => P Q ∨ P' Q) R where
  shows x := by
    rw [exists_or (Q := fun Q x => Q.Shows desc x), ← h.shows, ← h'.shows, or_self]
  vote_for a := ((h.vote_for a).both (h'.vote_for a)).congr fun b => (exists_or (Q := fun Q b => Q.voteFor a = some b)).symm
  approval c j := ((h.approval c j).both (h'.approval c j)).congr fun b =>
    (exists_or (Q := fun Q b => Q.approval desc c j = some b)).symm
  signature j := ((h.signature j).both (h'.signature j)).congr fun b => (exists_or (Q := fun Q b => Q.signatures j = some b)).symm
  first j := ((h.first j).both (h'.first j)).congr fun b => (exists_or (Q := fun Q b => Q.firstAttempt j = some b)).symm
  lock j := by
    obtain ⟨x, hle, hx, hf⟩ := h.lock j
    obtain ⟨x', hle', hx', hf'⟩ := h'.lock j
    obtain ⟨h1, h2⟩ := lock_max (f := fun Q => Q.last_precommit j) ⟨hle, hx⟩ ⟨hle', hx'⟩
    refine ⟨max x x', h1, h2, fun hc => ?_, fun hc => ?_⟩
    · exact hf.1 (hc.mono (le_max_left _ _) fun _ _ _ => id)
    · rcases max_choice x x' with hm | hm <;> rw [hm] at hc ⊢
      · exact hf.2 hc
      · exact hf'.2 hc
  flag := by
    rw [exists_or (Q := fun Q (_ : Unit) => Q.precommitted = true) (x := ())]
    constructor
    · intro hp
      exact (h.flag.1 hp).imp id .inl
    · rintro (hp | hp | hp)
      · exact h.flag.2 (.inl hp)
      · exact h.flag.2 (.inr hp)
      · exact h'.flag.2 (.inr hp)

section Merged
variable (hl : l.Valid desc) (hr : r.Valid desc) (ht : t.Valid desc) (hm : Merged p desc l r t)
include hl hr hm

theorem Merged.has {φ : RoundAttemptState n → Prop}
    (hφ : ∀ A B C, RoundAttemptState.Join p desc A B C → (φ C ↔ φ A ∨ φ B)) : t.Has a φ ↔ l.Has a φ ∨ r.Has a φ :=
  hm.attempts.exists_iff (fun A hA B hB C hAB hC => hφ A B C (join_of_merge hl hr hA hB hAB hC)) a

theorem Merged.shows (x : Fact n) : t.Shows desc x ↔ l.Shows desc x ∨ r.Shows desc x := by
  cases x with
  | attempt a => exact hm.has hl hr fun A B C _ => by simp
  | candidate a c =>
    refine hm.has hl hr fun A B C hjoin => ?_
    obtain ⟨votes, rfl, hu⟩ := hjoin
    have hiff := hu.exists_iff (P := fun _ => True) (fun _ _ _ _ _ _ _ => by simp) c
    simp only [and_true] at hiff
    exact hiff
  | vote a c i => exact AttemptsUnion.hasVote hl hr hm.attempts
  | precommit a i => exact AttemptsUnion.hasPrecommit hl hr hm.attempts
  | sent c =>
    constructor
    · rintro ⟨s, hs, rfl⟩
      exact (CntSortedVector.Union.mem hm.sent_blocks hs).imp (fun ⟨b, hb, h⟩ => ⟨b, hb, h⟩) fun ⟨b, hb, h⟩ => ⟨b, hb, h⟩
    · rintro (⟨s, hs, rfl⟩ | ⟨s, hs, rfl⟩)
      · exact CntSortedVector.Union.exists_of_mem hm.sent_blocks (.inl hs)
      · exact CntSortedVector.Union.exists_of_mem hm.sent_blocks (.inr hs)

theorem Merged.voteFor (a : ℕ) : t.voteFor a = Least.join (SentBlock.get_block_id desc) (l.voteFor a) (r.voteFor a) := by
  have h := hm.attempts.find a
  unfold RoundState.voteFor
  rcases hla : find (·.seqno) l.attempts a with _ | A <;> rcases hra : find (·.seqno) r.attempts a with _ | B <;> rw [hla, hra] at h
  · rw [← Except.ok.inj h, hla, hra]
    rfl
  · rw [← Except.ok.inj h, hla, hra]
    rfl
  · rw [← Except.ok.inj h, hla, hra]
    dsimp only [Option.bind]
    split_ifs <;> rfl
  · obtain ⟨C, hC, h⟩ := Result.map_ok h
    obtain ⟨hA, hsA⟩ := find_some hla
    obtain ⟨hB, hsB⟩ := find_some hra
    obtain ⟨votes, rfl, -⟩ := join_of_merge hl hr hA hB (hsA.trans hsB.symm) hC
    rw [← h, hla, hra]
    dsimp only [Option.bind, RoundAttemptState.joined]
    unfold RoundAttemptState.joinVoteFor
    cases A.vote_for_inited <;> cases B.vote_for_inited <;>
      simp only [Bool.not_true, Bool.not_false, if_true, if_false, Bool.false_eq_true, Least.join]
    by_cases hlt : SentBlock.get_block_id desc A.vote_for < SentBlock.get_block_id desc B.vote_for <;>
      simp only [hlt, if_true, if_false]

omit hl hr in
theorem Merged.firstAttempt (j : Fin n) : t.firstAttempt j = Least.join id (l.firstAttempt j) (r.firstAttempt j) := by
  have key : ∀ x y : ℕ, (if merge_first_attempt x y = 0 then none else some (merge_first_attempt x y)) =
      Least.join id (if x = 0 then none else some x) (if y = 0 then none else some y) := by
    rintro (_ | x) (_ | y)
    · rfl
    · rfl
    · rfl
    · have hmin : merge_first_attempt (x + 1) (y + 1) = min (x + 1) (y + 1) := rfl
      rw [hmin, if_neg (by omega), if_neg (Nat.succ_ne_zero x), if_neg (Nat.succ_ne_zero y)]
      unfold Least.join
      dsimp only [id]
      split_ifs with hlt
      · rw [min_eq_left hlt.le]
      · rw [min_eq_right (not_lt.1 hlt)]
  have hfirst := congrFun hm.first_attempt j
  unfold RoundState.firstAttempt
  rw [hfirst]
  exact key _ _

theorem Seen.merged {faulty : Set (Fin n)} {few : FewFaulty desc faulty} {V : Ballots n} (hV : ∀ k, (V k).Inv (quorums few))
    (ht : t.Valid desc) (hk : RoundKnown few V t) (h : Seen desc P l) (h' : Seen desc P' r) : Seen desc (fun Q => P Q ∨ P' Q) t where
  shows x := by
    rw [exists_or (Q := fun Q x => Q.Shows desc x), ← h.shows, ← h'.shows, hm.shows hl hr]
  vote_for a := by
    rw [hm.voteFor hl hr]
    exact ((h.vote_for a).join (h'.vote_for a)).congr fun b => (exists_or (Q := fun Q b => Q.voteFor a = some b)).symm
  approval c j := by
    rw [SentUnion.approval hm.sent_blocks, joinSignature_eq]
    exact ((h.approval c j).join (h'.approval c j)).congr fun b => (exists_or (Q := fun Q b => Q.approval desc c j = some b)).symm
  signature j := by
    have hsig : t.signatures j = Least.join id (l.signatures j) (r.signatures j) :=
      (congrFun hm.signatures j).trans (joinSignature_eq _ _)
    rw [hsig]
    exact ((h.signature j).join (h'.signature j)).congr fun b => (exists_or (Q := fun Q b => Q.signatures j = some b)).symm
  first j := by
    rw [hm.firstAttempt]
    exact ((h.first j).join (h'.first j)).congr fun b => (exists_or (Q := fun Q b => Q.firstAttempt j = some b)).symm
  lock j := by
    obtain ⟨x, hle, hx, hf⟩ := h.lock j
    obtain ⟨x', hle', hx', hf'⟩ := h'.lock j
    obtain ⟨h1, h2⟩ := lock_max (f := fun Q => Q.last_precommit j) ⟨hle, hx⟩ ⟨hle', hx'⟩
    refine ⟨max x x', h1, h2, Floored.merge (fun a c j hv => ?_) (fun a c j hv => ?_) hf hf' ?_⟩
    · exact (AttemptsUnion.hasVote hl hr hm.attempts).2 (.inl hv)
    · exact (AttemptsUnion.hasVote hl hr hm.attempts).2 (.inr hv)
    · rw [hm.last_precommit]
      exact floored_lockFloor hV ht hk _
  flag := by
    have hany : t.attempts.any (·.check_attempt_is_precommitted desc) = true ↔ ∃ a, t.Precommitted desc a := by
      rw [any_eq_true]
      exact ⟨fun ⟨A, hA, hq⟩ => ⟨A.seqno, .of_attempt (ht.attempts_sorted.find_of_mem hA) hq⟩,
        fun ⟨a, ha⟩ => have ⟨A, hA, hq⟩ := ha.attempt; ⟨A, (find_some hA).1, hq⟩⟩
    have grown : ∀ {s : RoundState n}, (∀ {a j}, s.HasPrecommit a j → t.HasPrecommit a j) → (∃ a, s.Precommitted desc a) →
        ∃ a, t.Precommitted desc a := fun hsub ⟨a, ha⟩ => ⟨a, ha.mono fun j => hsub⟩
    have hu := @AttemptsUnion.hasPrecommit n p desc l r t
    rw [exists_or (Q := fun Q (_ : Unit) => Q.precommitted = true) (x := ()), hm.flag, Bool.or_eq_true, Bool.or_eq_true, hany,
      h.flag, h'.flag]
    constructor
    · rintro ((hp | hp) | hp)
      · exact hp.imp (grown fun h => (hu hl hr hm.attempts).2 (.inl h)) .inl
      · exact hp.imp (grown fun h => (hu hl hr hm.attempts).2 (.inr h)) .inr
      · exact .inl hp
    · rintro (hp | hp | hp)
      · exact .inr hp
      · exact .inl (.inl (.inr hp))
      · exact .inl (.inr (.inr hp))

end Merged

end Two

/-! ### A join is unique -/

section Unique
variable (h : Seen desc P R) (h' : Seen desc P R')
include h h'

theorem Seen.shows_iff (x : Fact n) : R.Shows desc x ↔ R'.Shows desc x := (h.shows x).trans (h'.shows x).symm

theorem Seen.votedFor_iff : R.VotedFor desc a c ↔ R'.VotedFor desc a c := by
  have hiff : ∀ j, R.HasVote desc a c j ↔ R'.HasVote desc a c j := fun j => h.shows_iff h' (.vote a c j)
  simp only [VotedFor, hiff]

theorem Seen.last_precommit : R.last_precommit = R'.last_precommit := by
  funext j
  obtain ⟨x, hle, hx, hf⟩ := h.lock j
  obtain ⟨x', hle', hx', hf'⟩ := h'.lock j
  obtain rfl : x = x' := by
    refine le_antisymm ?_ ?_
    · rcases hx with rfl | ⟨Q, hQ, rfl⟩
      · exact Nat.zero_le _
      · exact hle' Q hQ
    · rcases hx' with rfl | ⟨Q, hQ, rfl⟩
      · exact Nat.zero_le _
      · exact hle Q hQ
  have hcontested : R.Contested desc x ↔ R'.Contested desc x := by
    simp only [Contested, h.votedFor_iff h']
  rw [Floored, ← hcontested] at hf'
  exact Floored.unique hf hf'

theorem Seen.attempt (hR : R.Valid desc) (hR' : R'.Valid desc) {A A' : RoundAttemptState n}
    (hA : find (·.seqno) R.attempts a = some A) (hA' : find (·.seqno) R'.attempts a = some A') : A = A' := by
  obtain ⟨hm, hs⟩ := find_some hA
  obtain ⟨hm', hs'⟩ := find_some hA'
  have has : ∀ {φ : RoundAttemptState n → Prop}, R.Has a φ ↔ φ A :=
    ⟨fun ⟨B, hB, hφ⟩ => Option.some.inj (hA.symm.trans hB) ▸ hφ, fun hφ => ⟨A, hA, hφ⟩⟩
  have has' : ∀ {φ : RoundAttemptState n → Prop}, R'.Has a φ ↔ φ A' :=
    ⟨fun ⟨B, hB, hφ⟩ => Option.some.inj (hA'.symm.trans hB) ▸ hφ, fun hφ => ⟨A', hA', hφ⟩⟩
  have hvote : ∀ c i, A.HasVote desc c i ↔ A'.HasVote desc c i :=
    fun c i => has.symm.trans ((h.shows_iff h' (.vote a c i)).trans has')
  have hcand : ∀ c, (∃ v, find (·.get_id desc) A.votes c = some v) ↔ ∃ v, find (·.get_id desc) A'.votes c = some v :=
    fun c => has.symm.trans ((h.shows_iff h' (.candidate a c)).trans has')
  have hpre : ∀ i, A.precommitted i = true ↔ A'.precommitted i = true :=
    fun i => has.symm.trans ((h.shows_iff h' (.precommit a i)).trans has')
  have hfor : R.voteFor a = R'.voteFor a := (h.vote_for a).unique (fun _ _ => get_block_id_inj) (h'.vote_for a)
  rw [RoundState.voteFor, RoundState.voteFor, hA, hA'] at hfor
  have hvotes : A.votes = A'.votes := by
    refine Sorted.ext (hR.attempt A hm).votes_sorted (hR'.attempt A' hm').votes_sorted fun c => ?_
    rcases hv : find (·.get_id desc) A.votes c with _ | v <;> rcases hv' : find (·.get_id desc) A'.votes c with _ | v'
    · exact hv.trans hv'.symm
    · exact absurd ((hcand c).2 ⟨v', hv'⟩) (by rw [hv]; rintro ⟨_, ⟨⟩⟩)
    · exact absurd ((hcand c).1 ⟨v, hv⟩) (by rw [hv']; rintro ⟨_, ⟨⟩⟩)
    · refine hv.trans ((congrArg some (SessionVoteCandidate.ext
        (get_block_id_inj ((find_some hv).2.trans (find_some hv').2.symm)) ?_)).trans hv'.symm)
      funext i
      have hiff : v.voted_by i = true ↔ v'.voted_by i = true :=
        ⟨fun hi => have ⟨w, hw, hwi⟩ := (hvote c i).1 ⟨v, hv, hi⟩; Option.some.inj (hv'.symm.trans hw) ▸ hwi,
          fun hi => have ⟨w, hw, hwi⟩ := (hvote c i).2 ⟨v', hv', hi⟩; Option.some.inj (hv.symm.trans hw) ▸ hwi⟩
      exact Bool.eq_iff_iff.2 hiff
  have hin : A.vote_for_inited = A'.vote_for_inited ∧ A.vote_for = A'.vote_for := by
    dsimp only [Option.bind] at hfor
    cases hi : A.vote_for_inited <;> cases hi' : A'.vote_for_inited <;> rw [hi, hi'] at hfor
    · exact ⟨rfl, ((hR.attempt A hm).not_inited hi).trans ((hR'.attempt A' hm').not_inited hi').symm⟩
    · cases hfor
    · cases hfor
    · exact ⟨rfl, Option.some.inj hfor⟩
  exact RoundAttemptState.ext (hs.trans hs'.symm) hvotes (funext fun i => Bool.eq_iff_iff.2 (hpre i)) hin.2 hin.1

/-- There is one valid round at most that shows what a set of rounds shows. -/
theorem Seen.unique (hR : R.Valid desc) (hR' : R'.Valid desc) (hseqno : R.seqno = R'.seqno)
    (hblock : R.precommitted = true → R'.precommitted = true → R.precommitted_block = R'.precommitted_block) : R = R' := by
  have hflag : R.precommitted = R'.precommitted := by
    have hpre : ∀ a j, R.HasPrecommit a j ↔ R'.HasPrecommit a j := fun a j => h.shows_iff h' (.precommit a j)
    refine Bool.eq_iff_iff.2 (h.flag.trans (Iff.trans ?_ h'.flag.symm))
    simp only [Precommitted, hpre]
  have hattempts : R.attempts = R'.attempts := by
    refine Sorted.ext hR.attempts_sorted hR'.attempts_sorted fun a => ?_
    have hiff := h.shows_iff h' (.attempt a)
    rcases hA : find (·.seqno) R.attempts a with _ | A <;> rcases hA' : find (·.seqno) R'.attempts a with _ | A'
    · exact hA.trans hA'.symm
    · obtain ⟨B, hB, -⟩ := hiff.2 ⟨A', hA', trivial⟩
      cases hA.symm.trans hB
    · obtain ⟨B, hB, -⟩ := hiff.1 ⟨A, hA, trivial⟩
      cases hA'.symm.trans hB
    · exact hA.trans ((congrArg some (h.attempt h' hR hR' hA hA')).trans hA'.symm)
  have hsent : R.sent_blocks = R'.sent_blocks := by
    refine Sorted.ext hR.sent_sorted hR'.sent_sorted fun c => ?_
    have hiff : R.Sent desc c ↔ R'.Sent desc c := h.shows_iff h' (.sent c)
    rcases hE : find (·.get_id desc) R.sent_blocks c with _ | E <;> rcases hE' : find (·.get_id desc) R'.sent_blocks c with _ | E'
    · exact hE.trans hE'.symm
    · obtain ⟨s, hs, hid⟩ := hiff.2 ⟨E', find_some hE'⟩
      exact absurd hid (find_eq_none.1 hE s hs)
    · obtain ⟨s, hs, hid⟩ := hiff.1 ⟨E, find_some hE⟩
      exact absurd hid (find_eq_none.1 hE' s hs)
    · refine hE.trans ((congrArg some (SessionBlockCandidate.ext
        (get_block_id_inj ((find_some hE).2.trans (find_some hE').2.symm)) ?_)).trans hE'.symm)
      funext j
      have ha := (h.approval c j).unique (fun _ _ => id) (h'.approval c j)
      have happ : ∀ (S : RoundState n) F, find (·.get_id desc) S.sent_blocks c = some F → S.approval desc c j = F.approved_by j := by
        intro S F hF
        exact congrArg (fun o : Option (SessionBlockCandidate n) => o.bind fun E => E.approved_by j) hF
      rw [← happ R E hE, ← happ R' E' hE', ha]
  have hfirst : R.first_attempt = R'.first_attempt := by
    funext j
    have hf := (h.first j).unique (fun _ _ => id) (h'.first j)
    unfold RoundState.firstAttempt at hf
    split_ifs at hf with h1 h2 h2
    · rw [h1, h2]
    · exact Option.some.inj hf
  refine RoundState.ext ?_ hseqno hflag hfirst (h.last_precommit h') hsent ?_ hattempts
  · cases hp : R.precommitted with
    | true => exact hblock hp (hflag ▸ hp)
    | false => rw [hR.not_precommitted hp, hR'.not_precommitted (hflag ▸ hp)]
  · funext j
    exact (h.signature j).unique (fun _ _ => id) (h'.signature j)

end Unique

end RoundState

/-! ## Joins of states -/

namespace SessionState

open RoundState (Seen Settled)

/-- `t` has what the states of `S` have. -/
structure JoinOf (desc : Description n) (S : Set (SessionState n)) (t : SessionState n) : Prop where
  att : ∀ j, (∀ s ∈ S, s.att j ≤ t.att j) ∧ ∃ s ∈ S, s.att j = t.att j
  behind : ∀ s ∈ S, s.cur_round.seqno ≤ t.cur_round.seqno
  round : Seen desc (fun Q => Q.seqno = t.cur_round.seqno ∧ ∃ s ∈ S, s.cur_round = Q) t.cur_round
  signature : ∀ (k : ℕ) O, t.old_rounds[k]? = some O → ∀ j,
    Least.Of id (fun sig => ∃ s ∈ S, s.sigAt k j = some sig) (O.signatures j)
  approval : ∀ (k : ℕ) O, t.old_rounds[k]? = some O → ∀ j,
    Least.Of id (fun sig => ∃ s ∈ S, s.approveAt desc k (O.get_block_id desc) j = some sig) (O.approve_signatures j)

variable {S T : Set (SessionState n)} {l r s t t' u : SessionState n} {R : RoundState n} {k : ℕ} {j : Fin n}

theorem joinOf_self (h : Settled desc s.cur_round) : JoinOf desc {s} s where
  att j := ⟨fun _ h => h ▸ le_rfl, s, rfl, rfl⟩
  behind _ h := h ▸ le_rfl
  round := h.seen.congr fun Q => ⟨fun hQ => ⟨congrArg _ hQ, s, rfl, hQ.symm⟩, fun ⟨_, _, hs, hQ⟩ => hs ▸ hQ.symm⟩
  signature k O hk j := by
    refine (Least.of_self _).congr fun x => ?_
    rw [← (at_old desc 0 hk).1]
    exact ⟨fun hx => ⟨s, rfl, hx⟩, fun ⟨_, hs, hx⟩ => hs ▸ hx⟩
  approval k O hk j := by
    refine (Least.of_self _).congr fun x => ?_
    rw [← (at_old desc (O.get_block_id desc) hk).2]
    exact ⟨fun hx => ⟨s, rfl, hx⟩, fun ⟨_, hs, hx⟩ => hs ▸ hx⟩

section At
variable (h : JoinOf desc S t) (hS : ∀ s ∈ S, s.Valid desc) (ht : t.old_rounds.length = t.cur_round.seqno)
include h hS ht

omit hS ht in
/-- What is read of the current round is what the states of that round have. -/
theorem exists_at {α : Type} {f : SessionState n → Option α} {g : RoundState n → Option α} (hk : t.cur_round.seqno ≤ k)
    (hcur : ∀ s ∈ S, s.cur_round.seqno = k → f s = g s.cur_round) (hlater : ∀ s ∈ S, s.cur_round.seqno < k → f s = none) (x : α) :
    (∃ Q, (Q.seqno = k ∧ ∃ s ∈ S, s.cur_round = Q) ∧ g Q = some x) ↔ ∃ s ∈ S, f s = some x := by
  constructor
  · rintro ⟨_, ⟨hseqno, s, hs, rfl⟩, hx⟩
    exact ⟨s, hs, (hcur s hs hseqno).trans hx⟩
  · rintro ⟨s, hs, hx⟩
    rcases ((h.behind s hs).trans hk).eq_or_lt with heq | hlt
    · exact ⟨s.cur_round, ⟨heq, s, hs, rfl⟩, (hcur s hs heq).symm.trans hx⟩
    · cases (hlater s hs hlt).symm.trans hx

theorem JoinOf.sigAt (k : ℕ) (j : Fin n) : Least.Of id (fun sig => ∃ s ∈ S, s.sigAt k j = some sig) (t.sigAt k j) := by
  have hat : ∀ s ∈ S, s.old_rounds.length = s.cur_round.seqno := fun s hs => (hS s hs).length
  rcases lt_trichotomy k t.cur_round.seqno with hlt | rfl | hlt
  · obtain ⟨O, hO⟩ := exists_old ht hlt
    rw [(at_old desc 0 hO).1]
    exact h.signature k O hO j
  · rw [(at_cur desc 0 ht rfl).1]
    refine (h.round.signature j).congr fun x => exists_at h le_rfl (g := fun Q => Q.signatures j) (fun s hs hk => ?_) (fun s hs hk => ?_) x
    · exact (at_cur desc 0 (hat s hs) hk).1
    · exact (at_later desc 0 (hat s hs) hk).1
  · rw [(at_later desc 0 ht hlt).1]
    rintro x ⟨s, hs, hx⟩
    rw [(at_later desc 0 (hat s hs) ((h.behind s hs).trans_lt hlt)).1] at hx
    cases hx

theorem JoinOf.approveAt {c : CandidateId} (hc : ∀ O, t.old_rounds[k]? = some O → O.get_block_id desc = c) (j : Fin n) :
    Least.Of id (fun sig => ∃ s ∈ S, s.approveAt desc k c j = some sig) (t.approveAt desc k c j) := by
  have hat : ∀ s ∈ S, s.old_rounds.length = s.cur_round.seqno := fun s hs => (hS s hs).length
  rcases lt_trichotomy k t.cur_round.seqno with hlt | rfl | hlt
  · obtain ⟨O, hO⟩ := exists_old ht hlt
    rw [(at_old desc _ hO).2, ← hc O hO]
    exact h.approval k O hO j
  · rw [(at_cur desc _ ht rfl).2]
    refine (h.round.approval c j).congr fun x => exists_at h le_rfl (g := fun Q => Q.approval desc c j) (fun s hs hk => ?_) (fun s hs hk => ?_) x
    · exact (at_cur desc _ (hat s hs) hk).2
    · exact (at_later desc _ (hat s hs) hk).2
  · rw [(at_later desc _ ht hlt).2]
    rintro x ⟨s, hs, hx⟩
    rw [(at_later desc _ (hat s hs) ((h.behind s hs).trans_lt hlt)).2] at hx
    cases hx

theorem JoinOf.close {O : OldRoundState n} (hO : Closed desc t.cur_round O) :
    JoinOf desc S ⟨t.att, t.old_rounds ++ [O], .create (t.cur_round.seqno + 1)⟩ := by
  have hget : ∀ (k : ℕ) O', (t.old_rounds ++ [O])[k]? = some O' → t.old_rounds[k]? = some O' ∨ k = t.cur_round.seqno ∧ O' = O := by
    intro k O' hk
    rw [getElem?_append] at hk
    split_ifs at hk with hlt
    · exact .inl hk
    · obtain ⟨hlt', rfl⟩ := List.getElem?_eq_some_iff.1 hk
      simp only [length_singleton] at hlt'
      exact .inr ⟨by omega, getElem_singleton _⟩
  refine ⟨h.att, fun s hs => (h.behind s hs).trans (Nat.le_succ _), ?_, fun k O' hk j => ?_, fun k O' hk j => ?_⟩
  · refine (RoundState.seen_create _).congr fun Q => ⟨False.elim, ?_⟩
    rintro ⟨hseqno, s, hs, rfl⟩
    have := h.behind s hs
    have hseqno : s.cur_round.seqno = t.cur_round.seqno + 1 := hseqno
    omega
  · rcases hget k O' hk with hk | ⟨rfl, rfl⟩
    · exact h.signature k O' hk j
    · rw [hO.signatures, ← (at_cur desc 0 ht rfl).1]
      exact h.sigAt hS ht _ j
  · rcases hget k O' hk with hk | ⟨rfl, rfl⟩
    · exact h.approval k O' hk j
    · rw [hO.approvals, ← (at_cur desc _ ht rfl).2]
      refine h.approveAt hS ht (fun O hO => ?_) j
      cases (old_none ht le_rfl).symm.trans hO

end At

/-! ### Merging joins -/

section Node
variable {faulty : Set (Fin n)} {few : FewFaulty desc faulty} {V : Ballots n} (hV : ∀ k, (V k).Inv (quorums few))
  (hS : ∀ s ∈ S, s.Valid desc) (hT : ∀ s ∈ T, s.Valid desc) (h : JoinOf desc S l) (h' : JoinOf desc T r)
theorem exists_union {α : Type} {f : SessionState n → Option α} {x : α} :
    (∃ s ∈ S ∪ T, f s = some x) ↔ (∃ s ∈ S, f s = some x) ∨ ∃ s ∈ T, f s = some x := by
  constructor
  · rintro ⟨s, hs | hs, hx⟩
    · exact .inl ⟨s, hs, hx⟩
    · exact .inr ⟨s, hs, hx⟩
  · rintro (⟨s, hs, hx⟩ | ⟨s, hs, hx⟩)
    · exact ⟨s, .inl hs, hx⟩
    · exact ⟨s, .inr hs, hx⟩

theorem rounds_union {k : ℕ} {Q : RoundState n} : ((Q.seqno = k ∧ ∃ s ∈ S, s.cur_round = Q) ∨ (Q.seqno = k ∧ ∃ s ∈ T, s.cur_round = Q)) ↔
    Q.seqno = k ∧ ∃ s ∈ S ∪ T, s.cur_round = Q := by
  constructor
  · rintro (⟨hQ, s, hs, he⟩ | ⟨hQ, s, hs, he⟩)
    · exact ⟨hQ, s, .inl hs, he⟩
    · exact ⟨hQ, s, .inr hs, he⟩
  · rintro ⟨hQ, s, hs | hs, he⟩
    · exact .inl ⟨hQ, s, hs, he⟩
    · exact .inr ⟨hQ, s, hs, he⟩

include h h'

omit h' in
theorem JoinOf.union_left (hseqno : ∀ s ∈ T, s.cur_round.seqno < l.cur_round.seqno) :
    Seen desc (fun Q => Q.seqno = l.cur_round.seqno ∧ ∃ s ∈ S ∪ T, s.cur_round = Q) l.cur_round := by
  refine h.round.congr fun Q => and_congr_right fun hQ => ⟨fun ⟨s, hs, he⟩ => ⟨s, .inl hs, he⟩, ?_⟩
  rintro ⟨s, hs | hs, rfl⟩
  · exact ⟨s, hs, rfl⟩
  · exact absurd hQ (hseqno s hs).ne

theorem JoinOf.union_att {att : NodeVec n ℕ} (hatt : att = fun i => max (l.att i) (r.att i)) (j : Fin n) :
    (∀ s ∈ S ∪ T, s.att j ≤ att j) ∧ ∃ s ∈ S ∪ T, s.att j = att j := by
  subst hatt
  constructor
  · rintro s (hs | hs)
    · exact ((h.att j).1 s hs).trans (le_max_left _ _)
    · exact ((h'.att j).1 s hs).trans (le_max_right _ _)
  · obtain ⟨s, hs, hsj⟩ := (h.att j).2
    obtain ⟨s', hs', hsj'⟩ := (h'.att j).2
    rcases max_choice (l.att j) (r.att j) with hm | hm
    · exact ⟨s, .inl hs, hsj.trans hm.symm⟩
    · exact ⟨s', .inr hs', hsj'.trans hm.symm⟩

include hV

theorem joinOf_round (hl : Known few V l) (hr : Known few V r) (hof : RoundOf p desc l r R) (hR : R.Valid desc) (hk : RoundKnown few V R) :
    Seen desc (fun Q => Q.seqno = R.seqno ∧ ∃ s ∈ S ∪ T, s.cur_round = Q) R ∧
      R.seqno = max l.cur_round.seqno r.cur_round.seqno := by
  cases hof with
  | left hlt => exact ⟨h.union_left fun s hs => (h'.behind s hs).trans_lt hlt, (max_eq_left hlt.le).symm⟩
  | right hlt =>
    rw [Set.union_comm]
    exact ⟨h'.union_left fun s hs => (h.behind s hs).trans_lt hlt, (max_eq_right hlt.le).symm⟩
  | same _ heq =>
    have hseqno := congrArg RoundState.seqno heq
    have hr' := h'.round
    rw [← heq] at hr'
    refine ⟨(h.round.both hr').congr fun Q => ?_, by rw [← hseqno, max_self]⟩
    exact rounds_union
  | merged hseqno hm =>
    refine ⟨(Seen.merged hl.valid.round hr.valid.round hm hV hR hk h.round h'.round).congr fun Q => ?_, by
      rw [hm.seqno, ← hseqno, max_self]⟩
    rw [hm.seqno, ← hseqno]
    exact rounds_union

include hS hT

theorem JoinOf.merge_open (hl : Known few V l) (hr : Known few V r) (hof : RoundOf p desc l r R) (hR : R.Valid desc)
    (hk : RoundKnown few V R) {v : List (OldRoundState n)} (hv : ∀ (k : ℕ) O, v[k]? = some O → OldFrom desc l r k O) :
    JoinOf desc (S ∪ T) ⟨fun i => max (l.att i) (r.att i), v, R⟩ := by
  obtain ⟨hround, hseqno⟩ := joinOf_round hV h h' hl hr hof hR hk
  have hid : ∀ {k O}, OldFrom desc l r k O → ∀ {s : SessionState n}, Known few V s → ∀ O', s.old_rounds[k]? = some O' →
      O'.get_block_id desc = O.get_block_id desc := by
    intro k O hO s hs O' hO'
    rcases hO.block with ⟨Q, hQ, hb⟩ | ⟨Q, hQ, hb⟩
    · rw [OldRoundState.get_block_id, OldRoundState.get_block_id, ← hb]
      exact (hV k).committed_unique (hs.old k O' hO') (hl.old k Q hQ)
    · rw [OldRoundState.get_block_id, OldRoundState.get_block_id, ← hb]
      exact (hV k).committed_unique (hs.old k O' hO') (hr.old k Q hQ)
  refine ⟨h.union_att h' rfl, ?_, hround, fun k O hO j => ?_, fun k O hO j => ?_⟩
  · rintro s (hs | hs)
    · exact (h.behind s hs).trans ((le_max_left _ _).trans hseqno.ge)
    · exact (h'.behind s hs).trans ((le_max_right _ _).trans hseqno.ge)
  · rw [(hv k O hO).signatures, RoundState.joinSignature_eq]
    exact ((h.sigAt hS hl.valid.length k j).join (h'.sigAt hT hr.valid.length k j)).congr fun _ => exists_union.symm
  · rw [(hv k O hO).approvals, RoundState.joinSignature_eq]
    exact ((h.approveAt hS hl.valid.length (hid (hv k O hO) hl) j).join
      (h'.approveAt hT hr.valid.length (hid (hv k O hO) hr) j)).congr fun _ => exists_union.symm

omit hV hS hT h h' in
theorem JoinOf.both (h : JoinOf desc S t) (h' : JoinOf desc T t) : JoinOf desc (S ∪ T) t where
  att := h.union_att h' (funext fun _ => (max_self _).symm)
  behind s hs := hs.elim (h.behind s) (h'.behind s)
  round := (h.round.both h'.round).congr fun _ => rounds_union
  signature k O hO j := ((h.signature k O hO j).both (h'.signature k O hO j)).congr fun _ => exists_union.symm
  approval k O hO j := ((h.approval k O hO j).both (h'.approval k O hO j)).congr fun _ => exists_union.symm

theorem JoinOf.merge (hl : Known few V l) (hr : Known few V r) (hm : l.merge p desc r = .ok t) : JoinOf desc (S ∪ T) t := by
  have hagree := hl.agree hV hr
  have hST : ∀ s ∈ S ∪ T, s.Valid desc := fun s hs => hs.elim (hS s) (hT s)
  by_cases hmerge : Mergeable p l r
  · obtain ⟨t', ht', hv, ⟨-, rfl, rfl⟩ | ⟨R, hj⟩⟩ := merge_ok hl.valid hr.valid hagree hmerge
    · cases hm.symm.trans ht'
      exact h.both h'
    · cases hm.symm.trans ht'
      have hk := roundOf_known hl hr hj.round hj.valid hagree
      rcases hj.closed with ⟨hcur, hold⟩ | ⟨-, -, hcur, v, O, hv', hlen, hold, hO⟩
      · have hopen := h.merge_open hV hS hT h' hl hr hj.round hj.valid hk hold
        rwa [← hj.att, ← hcur] at hopen
      · have hopen := h.merge_open hV hS hT h' hl hr hj.round hj.valid hk hold
        have hclose := hopen.close hST hlen hO
        dsimp only at hclose
        rwa [← hj.att, ← hcur, ← hv'] at hclose
  · cases hm.symm.trans (merge_null hl.valid hr.valid hagree hmerge)

end Node

/-! ### A join is unique -/

section Unique
variable {faulty : Set (Fin n)} {few : FewFaulty desc faulty} {V : Ballots n} (hV : ∀ k, (V k).Inv (quorums few))
  (hS : ∀ s ∈ S, s.Valid desc) (h : JoinOf desc S t) (h' : JoinOf desc S t') (ht : Known few V t) (ht' : Known few V t')
include hS h h' ht ht'

omit hS h h' ht ht' in
/-- The signatures that close a round in one join close it in every other. -/
theorem JoinOf.seqno_le (hS : ∀ s ∈ S, s.Valid desc) (h : JoinOf desc S t) (h' : JoinOf desc S t') (ht : t.Valid desc)
    (ht' : t'.Valid desc) : t'.cur_round.seqno ≤ t.cur_round.seqno := by
  by_contra hlt
  rw [not_le] at hlt
  obtain ⟨O, hO⟩ := exists_old ht'.length hlt
  have hquorum := (ht'.old _ O hO).quorum
  have hsig : ∀ j, O.signatures j = t.cur_round.signatures j := by
    intro j
    rw [← (at_old desc 0 hO).1, ← (at_cur desc 0 ht.length rfl).1]
    exact (h'.sigAt hS ht'.length _ j).unique (fun _ _ => id) (h.sigAt hS ht.length _ j)
  simp only [hsig] at hquorum
  have hsigned : t.cur_round.check_block_is_signed desc = true := check_weight_iff.2 hquorum
  exact absurd (hsigned.symm.trans ht.unsigned) Bool.noConfusion

include hV

theorem JoinOf.unique : t = t' := by
  have hseqno : t.cur_round.seqno = t'.cur_round.seqno :=
    le_antisymm (h'.seqno_le hS h ht'.valid ht.valid) (h.seqno_le hS h' ht.valid ht'.valid)
  have hround : t.cur_round = t'.cur_round := by
    refine Seen.unique h.round (hseqno ▸ h'.round) ht.valid.round ht'.valid.round hseqno fun hp hp' => ?_
    exact get_block_id_inj ((hV _).committed_unique (ht.round.decided hp) (hseqno ▸ ht'.round.decided hp'))
  refine SessionState.ext (funext fun j => ?_) (ext_getElem? fun k => ?_) hround
  · obtain ⟨hle, s, hs, hsj⟩ := h.att j
    obtain ⟨hle', s', hs', hsj'⟩ := h'.att j
    exact le_antisymm (hsj ▸ hle' s hs) (hsj' ▸ hle s' hs')
  · by_cases hk : k < t.cur_round.seqno
    · obtain ⟨O, hO⟩ := exists_old ht.valid.length hk
      obtain ⟨O', hO'⟩ := exists_old ht'.valid.length (hseqno ▸ hk)
      have hid := (hV k).committed_unique (ht.old k O hO) (ht'.old k O' hO')
      have hblock := get_block_id_inj hid
      rw [hO, hO']
      refine congrArg some (OldRoundState.ext ?_ hblock (funext fun j => ?_) (funext fun j => ?_))
      · exact (ht.valid.old k O hO).seqno.trans (ht'.valid.old k O' hO').seqno.symm
      · exact (h.signature k O hO j).unique (fun _ _ => id) (h'.signature k O' hO' j)
      · have happ := h'.approval k O' hO' j
        rw [OldRoundState.get_block_id, ← hid] at happ
        exact (h.approval k O hO j).unique (fun _ _ => id) happ
    · rw [old_none ht.valid.length (not_lt.1 hk), old_none ht'.valid.length (hseqno ▸ not_lt.1 hk)]

end Unique

/-! ## The laws -/

/-- `t` is what some order of merges makes of the states of `S`, each of which may be used more than once. -/
inductive MergeOf (desc : Description n) : Set (SessionState n) → SessionState n → Prop
  | leaf (s : SessionState n) : MergeOf desc {s} s
  | node (p : Pointers) {S T : Set (SessionState n)} {l r t : SessionState n} (hl : MergeOf desc S l) (hr : MergeOf desc T r)
    (h : l.merge p desc r = .ok t) : MergeOf desc (S ∪ T) t

/-- The states merged onto `s`, one after another. -/
def merge_onto (desc : Description n) (s : SessionState n) : List (Pointers × SessionState n) → Exc (SessionState n)
  | [] => .ok s
  | q :: rest => do
    let s ← s.merge q.1 desc q.2
    merge_onto desc s rest

/-- Merging the states of `X` is a join: the merges return, and neither their order, nor
repetitions, nor the objects that are shared change the result. -/
structure JoinLaws (desc : Description n) (X : Set (SessionState n)) : Prop where
  comm : ∀ a ∈ X, ∀ b ∈ X, ∀ p p', ∃ t, a.merge p desc b = .ok t ∧ b.merge p' desc a = .ok t
  assoc : ∀ a ∈ X, ∀ b ∈ X, ∀ c ∈ X, ∀ p₁ p₂ p₃ p₄, ∃ ab bc t, a.merge p₁ desc b = .ok ab ∧ ab.merge p₂ desc c = .ok t ∧
    b.merge p₃ desc c = .ok bc ∧ a.merge p₄ desc bc = .ok t
  idem : ∀ a ∈ X, ∀ p, a.merge p desc a = .ok a
  collection : ∀ a ∈ X, ∀ L : List (Pointers × SessionState n), (∀ q ∈ L, q.2 ∈ X) → ∃ t, merge_onto desc a L = .ok t ∧
    ∀ t', MergeOf desc ({a} ∪ {s | ∃ q ∈ L, q.2 = s}) t' → t' = t

section Coherent
variable {faulty : Set (Fin n)} {few : FewFaulty desc faulty} {V : Ballots n} {σ : Network n} (hσ : Coherent few V σ)
include hσ

theorem MergeOf.joinOf (h : MergeOf desc S t) (hS : S ⊆ σ.states) (hsettled : ∀ s ∈ S, Settled desc s.cur_round) :
    JoinOf desc S t ∧ Known few V t := by
  induction h with
  | leaf s => exact ⟨joinOf_self (hsettled s rfl), hσ.known s (hS rfl)⟩
  | @node p S T l r t hl hr hm ihl ihr =>
    obtain ⟨hjl, hkl⟩ := ihl (fun s hs => hS (.inl hs)) fun s hs => hsettled s (.inl hs)
    obtain ⟨hjr, hkr⟩ := ihr (fun s hs => hS (.inr hs)) fun s hs => hsettled s (.inr hs)
    refine ⟨hjl.merge hσ.inv (fun s hs => (hσ.known s (hS (.inl hs))).valid) (fun s hs => (hσ.known s (hS (.inr hs))).valid)
      hjr hkl hkr hm, ?_⟩
    by_cases hmerge : Mergeable p l r
    · obtain ⟨t', ht', hk, -⟩ := known_merge hσ.inv hkl hkr hmerge
      cases hm.symm.trans ht'
      exact hk
    · cases hm.symm.trans (merge_null hkl.valid hkr.valid (hkl.agree hσ.inv hkr) hmerge)

theorem MergeOf.unique (h : MergeOf desc S t) (h' : MergeOf desc S t') (hS : S ⊆ σ.states)
    (hsettled : ∀ s ∈ S, Settled desc s.cur_round) : t = t' := by
  obtain ⟨hj, hk⟩ := h.joinOf hσ hS hsettled
  obtain ⟨hj', hk'⟩ := h'.joinOf hσ hS hsettled
  exact hj.unique hσ.inv (fun s hs => (hσ.known s (hS hs)).valid) hj' hk hk'

variable {X : Set (SessionState n)} (hX : X ⊆ σ.states) (hsettled : ∀ s ∈ X, s.cur_round.attempts ≠ [] ∧ Settled desc s.cur_round)
include hX hsettled

/-- Merges with a state that has an attempt return. -/
theorem MergeOf.returns (hl : MergeOf desc S l) (hr : MergeOf desc T r) (hS : S ⊆ X) (hT : T ⊆ X) (p : Pointers)
    (h : l.cur_round.attempts ≠ [] ∨ r.cur_round.attempts ≠ []) : ∃ t, l.merge p desc r = .ok t ∧ MergeOf desc (S ∪ T) t := by
  obtain ⟨-, hkl⟩ := hl.joinOf hσ (hS.trans hX) fun s hs => (hsettled s (hS hs)).2
  obtain ⟨-, hkr⟩ := hr.joinOf hσ (hT.trans hX) fun s hs => (hsettled s (hT hs)).2
  obtain ⟨t, ht, -⟩ := known_merge hσ.inv hkl hkr (p := p) (.inr (.inr (.inr h)))
  exact ⟨t, ht, .node p hl hr ht⟩

theorem merge_onto_ok {L : List (Pointers × SessionState n)} (hL : ∀ q ∈ L, q.2 ∈ X) (hs : MergeOf desc S s) (hS : S ⊆ X) :
    ∃ t, merge_onto desc s L = .ok t ∧ MergeOf desc (S ∪ {s | ∃ q ∈ L, q.2 = s}) t := by
  induction L generalizing S s with
  | nil => exact ⟨s, rfl, by simpa using hs⟩
  | cons q L ih =>
    have hq := hL q mem_cons_self
    have hq' : {q.2} ⊆ X := Set.singleton_subset_iff.2 hq
    obtain ⟨u, hu, hm⟩ := hs.returns hσ hX hsettled (.leaf q.2) hS hq' q.1 (.inr (hsettled _ hq).1)
    obtain ⟨t, ht, hmt⟩ := ih (fun q hq => hL q (mem_cons_of_mem _ hq)) hm (Set.union_subset hS hq')
    refine ⟨t, by rw [merge_onto, hu]; exact ht, ?_⟩
    rw [Set.union_assoc] at hmt
    convert hmt using 2
    ext s
    simp [eq_comm]

theorem joinLaws_of_settled : JoinLaws desc X := by
  have one : ∀ {a}, a ∈ X → ({a} : Set (SessionState n)) ⊆ X := fun ha => Set.singleton_subset_iff.2 ha
  have unique : ∀ {S t t'}, S ⊆ X → MergeOf desc S t → MergeOf desc S t' → t = t' := fun hS h h' =>
    h.unique hσ h' (hS.trans hX) fun s hs => (hsettled s (hS hs)).2
  have two : ∀ {a b}, a ∈ X → b ∈ X → ∀ p, ∃ t, a.merge p desc b = .ok t ∧ MergeOf desc ({a} ∪ {b}) t := fun ha hb p =>
    (MergeOf.leaf _).returns hσ hX hsettled (.leaf _) (one ha) (one hb) p (.inl (hsettled _ ha).1)
  refine ⟨fun a ha b hb p p' => ?_, fun a ha b hb c hc p₁ p₂ p₃ p₄ => ?_, fun a ha p => ?_, fun a ha L hL => ?_⟩
  · obtain ⟨t, ht, hm⟩ := two ha hb p
    obtain ⟨t', ht', hm'⟩ := two hb ha p'
    obtain rfl := unique (Set.union_subset (one ha) (one hb)) hm (Set.union_comm _ _ ▸ hm')
    exact ⟨t, ht, ht'⟩
  · have hab := Set.union_subset (one ha) (one hb)
    have hbc := Set.union_subset (one hb) (one hc)
    obtain ⟨ab, h₁, hm₁⟩ := two ha hb p₁
    obtain ⟨t, h₂, hm₂⟩ := hm₁.returns hσ hX hsettled (.leaf c) hab (one hc) p₂ (.inr (hsettled c hc).1)
    obtain ⟨bc, h₃, hm₃⟩ := two hb hc p₃
    obtain ⟨t', h₄, hm₄⟩ := (MergeOf.leaf a).returns hσ hX hsettled hm₃ (one ha) hbc p₄ (.inl (hsettled a ha).1)
    obtain rfl := unique (Set.union_subset hab (one hc)) hm₂ (Set.union_assoc _ _ _ ▸ hm₄)
    exact ⟨ab, bc, t, h₁, h₂, h₃, h₄⟩
  · obtain ⟨t, ht, hm⟩ := two ha ha p
    rw [Set.union_self] at hm
    rw [ht, unique (one ha) hm (.leaf a)]
  · obtain ⟨t, ht, hm⟩ := merge_onto_ok hσ hX hsettled hL (.leaf a) (one ha)
    refine ⟨t, ht, fun t' ht' => unique (Set.union_subset (one ha) ?_) ht' hm⟩
    rintro s ⟨q, hq, rfl⟩
    exact hL q hq

end Coherent

/-- A state whose merge with a copy of itself gives the state again has an attempt, and is settled. -/
theorem settled_of_idem {faulty : Set (Fin n)} {few : FewFaulty desc faulty} {V : Ballots n} (hV : ∀ k, (V k).Inv (quorums few))
    (hs : Known few V s) (hidem : s.merge .distinct desc s = .ok s) : s.cur_round.attempts ≠ [] ∧ Settled desc s.cur_round := by
  have hR := hs.valid.round
  have hmerge : Mergeable .distinct s s := by
    by_contra hno
    cases hidem.symm.trans (merge_null hs.valid hs.valid (hs.agree hV hs) hno)
  obtain ⟨t, ht, -, ⟨h, -⟩ | ⟨R, hj⟩⟩ := merge_ok hs.valid hs.valid (hs.agree hV hs) hmerge
  · cases h
  · obtain rfl := Except.ok.inj (hidem.symm.trans ht)
    refine ⟨?_, ?_⟩
    · rcases hmerge with h | h | h | h | h
      · cases h
      · exact absurd rfl h
      · cases h
      · exact h
      · exact h
    have hm : RoundState.Merged .distinct desc s.cur_round s.cur_round R := by
      cases hj.round with
      | left hlt => exact absurd hlt (lt_irrefl _)
      | right hlt => exact absurd hlt (lt_irrefl _)
      | same hsame => cases hsame
      | merged _ hm => exact hm
    rcases hj.closed with ⟨hcur, -⟩ | ⟨-, -, hcur, -⟩
    · rw [← hcur] at hm
      refine ⟨fun a ha => ?_, fun j hj hc => ?_⟩
      · obtain ⟨A, hA, hq⟩ := ha.attempt
        rw [hm.flag, Bool.or_eq_true]
        exact .inr (any_eq_true.2 ⟨A, (find_some hA).1, hq⟩)
      · have hlock := congrFun hm.last_precommit j
        rw [RoundState.contested_iff hV hR hs.round hj] at hc
        rw [max_self, if_neg hc.not_gt] at hlock
        exact hj hlock
    · have hseqno := congrArg RoundState.seqno hcur
      rw [← hm.seqno] at hseqno
      exact absurd hseqno (Nat.ne_of_lt (Nat.lt_succ_self _))

theorem settled_of_floor {faulty : Set (Fin n)} {few : FewFaulty desc faulty} {V : Ballots n} (hV : ∀ k, (V k).Inv (quorums few))
    (hs : Known few V s) (hflag : s.cur_round.attempts.any (·.check_attempt_is_precommitted desc) = false)
    (hfloor : RoundState.lockFloor desc s.cur_round.attempts = 0) : Settled desc s.cur_round := by
  refine ⟨fun a ha => ?_, fun j hj hc => hj ?_⟩
  · obtain ⟨A, hA, hq⟩ := ha.attempt
    exact absurd hq (by simpa using any_eq_false.1 hflag A (find_some hA).1)
  · exact Nat.le_zero.1 (hfloor ▸ (RoundState.contested_iff hV hs.valid.round hs.round hj).1 hc)

/-- `(a ⊔ b) ⊔ c` and `a ⊔ (b ⊔ c)`. -/
def mergeBoth (desc : Description n) (a b c : SessionState n) : Exc (SessionState n × SessionState n) := do
  let ab ← a.merge .distinct desc b
  let t ← ab.merge .distinct desc c
  let bc ← b.merge .distinct desc c
  let t' ← a.merge .distinct desc bc
  .ok (t, t')

theorem mergeBoth_ok {a b c t t' : SessionState n} (h : mergeBoth desc a b c = .ok (t, t')) :
    ∃ ab bc, a.merge .distinct desc b = .ok ab ∧ ab.merge .distinct desc c = .ok t ∧ b.merge .distinct desc c = .ok bc ∧
      a.merge .distinct desc bc = .ok t' := by
  obtain ⟨ab, hab, h⟩ := Result.bind_ok.1 h
  obtain ⟨u, hu, h⟩ := Result.bind_ok.1 h
  obtain ⟨bc, hbc, h⟩ := Result.bind_ok.1 h
  obtain ⟨u', hu', h⟩ := Result.bind_ok.1 h
  cases h
  exact ⟨ab, bc, hab, hu, hbc, hu'⟩

end SessionState

end Ton.Session
