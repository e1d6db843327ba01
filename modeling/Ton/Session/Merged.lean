import Ton.Session.Acts
import Mathlib.Data.List.Lex
/-!
# What merging does

Merging two rounds joins their attempts, candidates and signatures one by one;
`p` makes no difference to that. A lock is only dropped when its attempt is
contested.
-/

namespace Ton.Session
open Keyed Voting List SentBlock CntSortedVector

variable {n : ℕ} {p : Pointers} {desc : Description n}

/-! ## Signatures and candidates -/

/-- The smaller of two signatures. -/
def joinSignature : Option Signature → Option Signature → Option Signature
  | none, r => r
  | some l, none => some l
  | some l, some r => if l < r then some l else some r

theorem merge_signature_eq (l r : Option Signature) : merge_signature p l r = joinSignature l r := by
  rcases l with _ | l
  · rfl
  · rcases r with _ | r
    · rfl
    · rw [merge_signature, joinSignature]
      split_ifs with hsame hlt
      · rfl
      · rw [p.eq_of_same hsame]
      · rfl
      · rfl

theorem joinSignature_self (s : Option Signature) : joinSignature s s = s := by
  cases s with
  | none => rfl
  | some s => exact if_neg (lt_irrefl s)

theorem joinSignature_some {l r : Option Signature} {s : Signature} (h : joinSignature l r = some s) :
    l = some s ∨ r = some s := by
  rcases l with _ | l
  · exact .inr h
  · rcases r with _ | r
    · exact .inl h
    · rw [joinSignature] at h
      split_ifs at h
      · exact .inl h
      · exact .inr h

theorem joinSignature_none (s : Option Signature) : joinSignature s none = s := by
  cases s <;> rfl

theorem joinSignature_comm (l r : Option Signature) : joinSignature l r = joinSignature r l := by
  rcases l with _ | l <;> rcases r with _ | r
  · rfl
  · rfl
  · rfl
  · unfold joinSignature
    dsimp only
    split_ifs with h1 h2 h2
    · exact absurd (h1.trans h2) (lt_irrefl l)
    · rfl
    · rfl
    · rw [le_antisymm (not_lt.1 h2) (not_lt.1 h1)]

theorem joinSignature_isSome (l r : Option Signature) : (joinSignature l r).isSome = (l.isSome || r.isSome) := by
  rcases l with _ | l
  · rfl
  · rcases r with _ | r
    · rfl
    · rw [joinSignature]
      split_ifs <;> rfl

theorem merge_signatures_eq (l r : NodeVec n (Option Signature)) : merge_signatures p l r = fun j => joinSignature (l j) (r j) := by
  funext j
  rw [merge_signatures, NodeVec.merge_ptr_apply p, merge_signature_eq]
  · intro x
    rw [merge_signature_eq, joinSignature_self]
  · rintro (_ | x) <;> rfl
  · exact fun x => rfl

theorem candidate_merge_eq {l r : SessionBlockCandidate n} (h : l.get_id desc = r.get_id desc) :
    SessionBlockCandidate.merge p desc l r = .ok ⟨l.block, fun j => joinSignature (l.approved_by j) (r.approved_by j)⟩ := by
  unfold SessionBlockCandidate.merge
  split_ifs with hsame
  · obtain rfl := p.eq_of_same hsame
    simp only [joinSignature_self]
  · rw [check_pos h, merge_signatures_eq]
    rfl

theorem vote_merge_eq {l r : SessionVoteCandidate n} (h : l.get_id desc = r.get_id desc) :
    SessionVoteCandidate.merge p desc l r = .ok ⟨l.block, fun j => l.voted_by j || r.voted_by j⟩ := by
  unfold SessionVoteCandidate.merge
  split_ifs with hsame
  · obtain rfl := p.eq_of_same hsame
    simp only [Bool.or_self]
  · rw [check_pos h, Result.ok_bind]
    exact congrArg (fun v => Except.ok (SessionVoteCandidate.mk l.block v)) (funext fun j => NodeVec.merge_bool_apply p _ _ j)

/-! ## Attempts -/

namespace RoundAttemptState

/-- `merge_vote_for` without regard to addresses. -/
def joinVoteFor (desc : Description n) (l r : RoundAttemptState n) : Option (SentBlock n) × Bool :=
  if !l.vote_for_inited then (r.vote_for, r.vote_for_inited)
  else if !r.vote_for_inited then (l.vote_for, l.vote_for_inited)
  else if get_block_id desc l.vote_for < get_block_id desc r.vote_for then (l.vote_for, true)
  else (r.vote_for, true)

theorem merge_vote_for_eq (l r : RoundAttemptState n) : merge_vote_for p desc l r = joinVoteFor desc l r := by
  unfold merge_vote_for joinVoteFor
  split_ifs with h1 h2 h3 h4
  · rfl
  · rfl
  · rfl
  · rw [p.eq_of_same h3]
  · rfl
  · rfl

theorem joinVoteFor_self (l : RoundAttemptState n) : joinVoteFor desc l l = (l.vote_for, l.vote_for_inited) := by
  unfold joinVoteFor
  split_ifs with h1 h2
  · rfl
  · exact absurd h2 (lt_irrefl _)
  · rw [Bool.not_eq_true', Bool.not_eq_false] at h1
    rw [h1]

theorem joinVoteFor_inited {l r : RoundAttemptState n} (h : (joinVoteFor desc l r).2 = true) :
    (joinVoteFor desc l r).1 = l.vote_for ∧ l.vote_for_inited = true ∨
      (joinVoteFor desc l r).1 = r.vote_for ∧ r.vote_for_inited = true := by
  unfold joinVoteFor at h ⊢
  split_ifs at h ⊢ with h1 h2 h3
  · exact .inr ⟨rfl, h⟩
  · exact .inl ⟨rfl, h⟩
  · exact .inl ⟨rfl, by simpa using h1⟩
  · exact .inr ⟨rfl, by simpa using h2⟩

theorem joinVoteFor_none {l r : RoundAttemptState n} (hl : l.vote_for_inited = false → l.vote_for = none)
    (hr : r.vote_for_inited = false → r.vote_for = none) (h : (joinVoteFor desc l r).2 = false) : (joinVoteFor desc l r).1 = none := by
  unfold joinVoteFor at h ⊢
  split_ifs at h ⊢
  · exact hr h
  · exact hl h

/-- The attempt with the votes `votes`, otherwise joined from `l` and `r`. -/
def joined (desc : Description n) (l r : RoundAttemptState n) (votes : List (SessionVoteCandidate n)) : RoundAttemptState n where
  seqno := l.seqno
  votes := votes
  precommitted j := l.precommitted j || r.precommitted j
  vote_for := (joinVoteFor desc l r).1
  vote_for_inited := (joinVoteFor desc l r).2

variable {l r t : RoundAttemptState n} {sent sent' : List (SessionBlockCandidate n)} {c : CandidateId} {j : Fin n}

/-- `t` is made of `l` and `r`. -/
def Join (p : Pointers) (desc : Description n) (l r t : RoundAttemptState n) : Prop :=
  ∃ votes, t = joined desc l r votes ∧
    CntSortedVector.Union (·.get_id desc) (SessionVoteCandidate.merge p desc) l.votes r.votes votes

theorem votes_union (hl : Sorted (·.get_id desc) l.votes) (hr : Sorted (·.get_id desc) r.votes) :
    ∃ votes, CntSortedVector.merge (·.get_id desc) p (SessionVoteCandidate.merge p desc) l.votes r.votes = .ok votes ∧
      CntSortedVector.Union (·.get_id desc) (SessionVoteCandidate.merge p desc) l.votes r.votes votes := by
  refine merge_union hl hr (fun a _ b _ hab => ⟨_, vote_merge_eq hab, rfl⟩) fun a _ _ => ?_
  rw [vote_merge_eq rfl]
  simp only [Bool.or_self]

theorem merge_ok (hl : Sorted (·.get_id desc) l.votes) (hr : Sorted (·.get_id desc) r.votes) (hseqno : l.seqno = r.seqno) :
    ∃ t, l.merge p desc r = .ok t ∧ Join p desc l r t := by
  unfold merge
  split_ifs with hsame
  · obtain rfl := p.eq_of_same hsame
    refine ⟨l, rfl, l.votes, ?_, ?_⟩
    · rw [joined, joinVoteFor_self]
      simp only [Bool.or_self]
    · refine union_of_subset_left hl (fun a _ _ => ?_) fun _ h => h
      rw [vote_merge_eq rfl]
      simp only [Bool.or_self]
  · obtain ⟨votes, hm, hu⟩ := votes_union (p := p) hl hr
    refine ⟨joined desc l r votes, ?_, votes, rfl, hu⟩
    rw [check_pos hseqno, Result.ok_bind, hm, Result.ok_bind, merge_vote_for_eq]
    refine congrArg (fun v => Except.ok (RoundAttemptState.mk _ _ v _ _)) ?_
    exact funext fun j => NodeVec.merge_bool_apply p _ _ j

theorem Join.seqno (h : Join p desc l r t) : t.seqno = l.seqno := by
  obtain ⟨votes, rfl, -⟩ := h
  rfl

theorem Join.precommitted (h : Join p desc l r t) : t.precommitted j = true ↔ l.precommitted j = true ∨ r.precommitted j = true := by
  obtain ⟨votes, rfl, -⟩ := h
  exact Bool.or_eq_true_iff

theorem Join.hasVote (h : Join p desc l r t) : t.HasVote desc c j ↔ l.HasVote desc c j ∨ r.HasVote desc c j := by
  obtain ⟨votes, rfl, hu⟩ := h
  refine hu.exists_iff (fun a _ b _ v hab hv => ?_) c
  rw [vote_merge_eq hab] at hv
  cases hv
  exact Bool.or_eq_true_iff

theorem Join.valid (h : Join p desc l r t) (hl : l.Valid desc sent) (hr : r.Valid desc sent) : t.Valid desc sent := by
  have hv := fun c j => h.hasVote (c := c) (j := j)
  have hp := fun j => h.precommitted (j := j)
  obtain ⟨votes, rfl, hu⟩ := h
  refine ⟨hl.seqno_pos, hu.sorted, fun v hv => ?_, fun hi => ?_, fun j hj => ?_, fun hn => ?_⟩
  · rcases hu.mem hv with ⟨a, ha, hid⟩ | ⟨a, ha, hid⟩
    · exact hid ▸ hl.votes_sent a ha
    · exact hid ▸ hr.votes_sent a ha
  · rcases joinVoteFor_inited hi with ⟨he, hi⟩ | ⟨he, hi⟩
    · exact (show (joined desc l r votes).vote_for = _ from he) ▸ hl.vote_for_sent hi
    · exact (show (joined desc l r votes).vote_for = _ from he) ▸ hr.vote_for_sent hi
  · rcases (hp j).1 hj with hj | hj
    · obtain ⟨c, hc⟩ := hl.voted j hj
      exact ⟨c, hc.mono fun k hk => (hv c k).2 (.inl hk)⟩
    · obtain ⟨c, hc⟩ := hr.voted j hj
      exact ⟨c, hc.mono fun k hk => (hv c k).2 (.inr hk)⟩
  · exact joinVoteFor_none hl.not_inited hr.not_inited hn

theorem merge_self (hl : Sorted (·.get_id desc) l.votes) : l.merge p desc l = .ok l := by
  obtain ⟨t, hm, votes, rfl, hu⟩ := merge_ok (p := p) hl hl rfl
  have hsub := union_of_subset_left (f := SessionVoteCandidate.merge p desc) hl (r := l.votes)
    (fun a _ _ => by rw [vote_merge_eq rfl]; simp only [Bool.or_self]) fun _ h => h
  rw [hm, hu.unique hsub, joined, joinVoteFor_self]
  simp only [Bool.or_self]

end RoundAttemptState

/-! ## The latest attempts -/

namespace Latest

/-- What is noted of the voted blocks of all attempts. -/
def noted (desc : Description n) (bs : List (RoundAttemptState n)) (s : Latest n) : Latest n := bs.foldl (note_voted desc) s

theorem note_voted_eq (desc : Description n) (s : Latest n) (b : RoundAttemptState n) : (note_voted desc s b).precommitted = s.precommitted ∧
    (note_voted desc s b).precommitted_block = s.precommitted_block := by
  unfold note_voted
  split
  · exact ⟨rfl, rfl⟩
  · split
    · exact ⟨rfl, rfl⟩
    · split_ifs
      · exact ⟨rfl, rfl⟩
      · exact ⟨rfl, rfl⟩
    · exact ⟨rfl, rfl⟩

variable {v : List (RoundAttemptState n)} {s : Latest n} {b : RoundAttemptState n}

theorem note_voted_of_second (h : s.f_cnt = 2) (b : RoundAttemptState n) : note_voted desc s b = s := by
  rcases s with ⟨_ | ⟨B, a⟩, _ | ⟨D, d⟩, f, pb⟩
  · cases h
  · cases h
  · cases h
  · unfold note_voted
    split
    · rfl
    · rfl

theorem noted_of_second (h : s.f_cnt = 2) (bs : List (RoundAttemptState n)) : noted desc bs s = s := by
  induction bs with
  | nil => rfl
  | cons b bs ih => rw [noted, foldl_cons, note_voted_of_second h]; exact ih

/-- What the loop finds. -/
structure Scanned (desc : Description n) (bs : List (RoundAttemptState n)) (s s' : Latest n) : Prop where
  first : s'.first = (noted desc bs s).first
  second : s'.second = (noted desc bs s).second
  precommitted : s'.precommitted = (s.precommitted || bs.any (·.check_attempt_is_precommitted desc))
  block : if s.precommitted then s'.precommitted_block = s.precommitted_block
    else match bs.find? (·.check_attempt_is_precommitted desc) with
      | some b => b.get_voted_block desc = some s'.precommitted_block
      | none => s'.precommitted_block = s.precommitted_block

theorem noted_congr (desc : Description n) {s s' : Latest n} (h1 : s.first = s'.first) (h2 : s.second = s'.second) (bs : List (RoundAttemptState n)) :
    (noted desc bs s).first = (noted desc bs s').first ∧ (noted desc bs s).second = (noted desc bs s').second := by
  induction bs generalizing s s' with
  | nil => exact ⟨h1, h2⟩
  | cons b bs ih =>
    refine ih ?_ ?_
    all_goals
      unfold note_voted
      rw [h1, h2]
      split
      · assumption
      · split
        · rfl
        · split_ifs <;> first | rfl | assumption
        · assumption

theorem note_precommitted_ok
    (hb : b.check_attempt_is_precommitted desc = true → ∃ B, b.get_voted_block desc = some B) (s : Latest n) :
    ∃ s', note_precommitted desc s b = .ok s' ∧ s'.first = s.first ∧ s'.second = s.second ∧
      s'.precommitted = (s.precommitted || b.check_attempt_is_precommitted desc) ∧
      if s.precommitted = true ∨ b.check_attempt_is_precommitted desc = false then s'.precommitted_block = s.precommitted_block
      else b.get_voted_block desc = some s'.precommitted_block := by
  unfold note_precommitted
  cases hp : s.precommitted <;> cases hc : b.check_attempt_is_precommitted desc
  · exact ⟨s, by simp, rfl, rfl, hp, by simp⟩
  · obtain ⟨B, hB⟩ := hb hc
    exact ⟨{ s with precommitted := true, precommitted_block := B }, by simp [hB], rfl, rfl, rfl, by simp [hB]⟩
  · exact ⟨s, by simp, rfl, rfl, hp, by simp⟩
  · exact ⟨s, by simp, rfl, rfl, hp, by simp⟩

theorem scanned_stop (hp : s.precommitted = true) (hf : s.f_cnt = 2) (bs : List (RoundAttemptState n)) :
    Scanned desc bs s s :=
  ⟨by rw [noted_of_second hf], by rw [noted_of_second hf], by rw [hp, Bool.true_or], by rw [if_pos hp]⟩

theorem scan_ok {bs : List (RoundAttemptState n)}
    (hbs : ∀ b ∈ bs, b.check_attempt_is_precommitted desc = true → ∃ B, b.get_voted_block desc = some B) (s : Latest n) :
    ∃ s', scan desc bs s = .ok s' ∧ Scanned desc bs s s' := by
  induction bs generalizing s with
  | nil => exact ⟨s, rfl, rfl, rfl, by simp, by split_ifs <;> rfl⟩
  | cons b bs ih =>
    obtain ⟨hp1, hpb1⟩ := note_voted_eq desc s b
    obtain ⟨s2, h2, hfirst, hsecond, hpre, hblock⟩ := note_precommitted_ok (hbs b mem_cons_self) (note_voted desc s b)
    have rest : ∃ s', (if s2.precommitted = true ∧ s2.f_cnt = 2 then .ok s2 else scan desc bs s2) = .ok s' ∧
        Scanned desc bs s2 s' := by
      split_ifs with hstop
      · exact ⟨s2, rfl, scanned_stop hstop.1 hstop.2 bs⟩
      · exact ih (fun b hb => hbs b (mem_cons_of_mem _ hb)) s2
    obtain ⟨s', hs', hscan⟩ := rest
    refine ⟨s', by rw [scan, h2]; exact hs', ?_⟩
    obtain ⟨hf, hs⟩ := noted_congr desc hfirst hsecond bs
    rw [hp1] at hpre hblock
    rw [hpb1] at hblock
    refine ⟨hscan.first.trans hf, hscan.second.trans hs, ?_, ?_⟩
    · rw [hscan.precommitted, hpre, any_cons, Bool.or_assoc]
    · have hb := hscan.block
      rw [hpre] at hb
      cases hp : s.precommitted <;> cases hc : b.check_attempt_is_precommitted desc <;>
        rw [hp, hc] at hb hblock <;> rw [find?_cons, hc]
      · simp only [Bool.or_self, Bool.false_eq_true, if_false, or_true, if_true] at hb hblock ⊢
        rw [hblock] at hb
        exact hb
      · simp only [Bool.false_or, if_true, Bool.false_eq_true, false_or, Bool.true_eq_false, if_false] at hb hblock ⊢
        rw [hb, hblock]
      · simp only [Bool.or_false, if_true, true_or] at hb hblock ⊢
        rw [hb, hblock]
      · simp only [Bool.or_true, if_true, true_or] at hb hblock ⊢
        rw [hb, hblock]

/-- `first` is the latest attempt with a voted block, `second` the latest one with another block. -/
structure LatestOf (desc : Description n) (v : List (RoundAttemptState n)) (s : Latest n) : Prop where
  none : s.first = none → s.second = none ∧ ∀ A ∈ v, A.get_voted_block desc = none
  first : ∀ B a, s.first = some (B, a) → (∃ A ∈ v, A.seqno = a ∧ A.get_voted_block desc = some B) ∧
    ∀ A ∈ v, ∀ E, A.get_voted_block desc = some E → A.seqno ≤ a
  second : ∀ D d, s.second = some (D, d) → ∃ B a, s.first = some (B, a) ∧ d < a ∧
    get_block_id desc D ≠ get_block_id desc B ∧ ∃ A ∈ v, A.seqno = d ∧ A.get_voted_block desc = some D
  same : ∀ A ∈ v, ∀ E, A.get_voted_block desc = some E → s.second_att < A.seqno → ∀ B a, s.first = some (B, a) →
    get_block_id desc E = get_block_id desc B

theorem LatestOf.skip (h : LatestOf desc v s)
    (hlt : ∀ A ∈ v, b.seqno < A.seqno)
    (hb : ∀ E, b.get_voted_block desc = some E → ∃ B a, s.first = some (B, a) ∧
      (s.second_att < b.seqno → get_block_id desc E = get_block_id desc B)) :
    LatestOf desc (b :: v) s where
  none hn := by
    refine ⟨(h.none hn).1, fun A hA => ?_⟩
    rcases mem_cons.1 hA with rfl | hA
    · cases hv : A.get_voted_block desc with
      | none => rfl
      | some E =>
        obtain ⟨B, a, hf, -⟩ := hb E hv
        cases hn.symm.trans hf
    · exact (h.none hn).2 A hA
  first B a hf := by
    obtain ⟨⟨A, hA, ha, hv⟩, hmax⟩ := h.first B a hf
    refine ⟨⟨A, mem_cons_of_mem b hA, ha, hv⟩, fun A' hA' E hE => ?_⟩
    rcases mem_cons.1 hA' with rfl | hA'
    · exact ha ▸ (hlt A hA).le
    · exact hmax A' hA' E hE
  second D d hs := by
    obtain ⟨B, a, hf, hlt, hne, A, hA, hd, hv⟩ := h.second D d hs
    exact ⟨B, a, hf, hlt, hne, A, mem_cons_of_mem b hA, hd, hv⟩
  same A hA E hE hsec B a hf := by
    rcases mem_cons.1 hA with rfl | hA
    · obtain ⟨B', a', hf', hid⟩ := hb E hE
      cases hf.symm.trans hf'
      exact hid hsec
    · exact h.same A hA E hE hsec B a hf

theorem latestOf (desc : Description n) (hv : Sorted (·.seqno) v) (f : Bool) (pb : Option (SentBlock n)) :
    LatestOf desc v (noted desc v.reverse ⟨none, none, f, pb⟩) := by
  induction v with
  | nil => exact ⟨fun _ => ⟨rfl, fun _ => (nomatch ·)⟩, fun _ _ => (nomatch ·), fun _ _ => (nomatch ·), fun _ => (nomatch ·)⟩
  | cons b v ih =>
    have hlt : ∀ A ∈ v, b.seqno < A.seqno := fun A hA => hv.lt_of_cons hA
    specialize ih hv.of_cons
    rw [noted, reverse_cons, foldl_append, foldl_cons, foldl_nil]
    change LatestOf desc (b :: v) (note_voted desc (noted desc v.reverse _) b)
    generalize noted desc v.reverse _ = s at ih
    unfold note_voted
    cases hb : b.get_voted_block desc with
    | none => exact ih.skip hlt fun E hE => nomatch hb.symm.trans hE
    | some B =>
      rcases s with ⟨_ | ⟨A0, a0⟩, _ | ⟨D, d⟩, g, qb⟩
      · -- the first voted block met
        have hnone := (ih.none rfl).2
        refine ⟨(nomatch ·), fun B' a' hf => ?_, fun _ _ => (nomatch ·), fun A hA E hE _ B' a' hf => ?_⟩
        · cases hf
          refine ⟨⟨b, mem_cons_self, rfl, hb⟩, fun A hA E hE => ?_⟩
          rcases mem_cons.1 hA with rfl | hA
          · exact le_rfl
          · cases (hnone A hA).symm.trans hE
        · cases hf
          rcases mem_cons.1 hA with rfl | hA
          · cases hb.symm.trans hE
            rfl
          · cases (hnone A hA).symm.trans hE
      · cases (ih.none rfl).1
      · dsimp only
        split_ifs with hid
        · refine ih.skip hlt fun E hE => ⟨A0, a0, rfl, fun _ => ?_⟩
          cases hb.symm.trans hE
          exact hid.symm
        · -- the first block other than that of the latest attempt
          obtain ⟨⟨A, hA, ha, hvA⟩, hmax⟩ := ih.first A0 a0 rfl
          refine ⟨(nomatch ·), fun B' a' hf => ?_, fun D d hs => ?_, fun A' hA' E hE hsec B' a' hf => ?_⟩
          · cases hf
            refine ⟨⟨A, mem_cons_of_mem b hA, ha, hvA⟩, fun A' hA' E hE => ?_⟩
            rcases mem_cons.1 hA' with rfl | hA'
            · exact ha ▸ (hlt A hA).le
            · exact hmax A' hA' E hE
          · cases hs
            exact ⟨A0, a0, rfl, ha ▸ hlt A hA, Ne.symm hid, b, mem_cons_self, rfl, hb⟩
          · cases hf
            rcases mem_cons.1 hA' with rfl | hA'
            · exact absurd hsec (lt_irrefl _)
            · exact ih.same A' hA' E hE ((Nat.zero_le _).trans_lt (hlt A' hA')) A0 a0 rfl
      · refine ih.skip hlt fun E hE => ⟨A0, a0, rfl, fun hsec => ?_⟩
        obtain ⟨-, -, -, -, -, A, hA, hd, -⟩ := ih.second D d rfl
        have hsec : d < b.seqno := hsec
        have := hlt A hA
        omega

theorem LatestOf.congr {s s' : Latest n} (h : LatestOf desc v s) (h1 : s'.first = s.first)
    (h2 : s'.second = s.second) : LatestOf desc v s' where
  none hn := h2 ▸ h.none (h1 ▸ hn)
  first B a hf := h.first B a (h1 ▸ hf)
  second D d hs := h1 ▸ h.second D d (h2 ▸ hs)
  same A hA E hE hsec B a hf := h.same A hA E hE (by rwa [second_att, h2] at hsec) B a (h1 ▸ hf)

theorem f_cnt_eq_zero : s.f_cnt = 0 ↔ s.first = none := by
  rcases s with ⟨_ | _, _ | _, f, pb⟩ <;> simp [f_cnt]

theorem LatestOf.order (h : LatestOf desc v s) (hpos : ∀ A ∈ v, 0 < A.seqno)
    (hcnt : s.f_cnt ≥ 1) : s.first_att > s.second_att := by
  cases hf : s.first with
  | none => rw [f_cnt_eq_zero.2 hf] at hcnt; omega
  | some Ba =>
    obtain ⟨⟨A, hA, ha, -⟩, -⟩ := h.first Ba.1 Ba.2 hf
    cases hs : s.second with
    | none =>
      rw [first_att, second_att, hf, hs]
      exact (hpos A hA).trans_eq ha
    | some Dd =>
      obtain ⟨B, a, hf', hlt, -⟩ := h.second Dd.1 Dd.2 hs
      rw [first_att, second_att, hf', hs]
      exact hlt

end Latest

/-! ## Rounds -/

namespace RoundState

variable {l r t : RoundState n} {a x : ℕ} {c : CandidateId} {j : Fin n}

/-- The attempts of `t` are those of `l` and `r`. -/
abbrev AttemptsUnion (p : Pointers) (desc : Description n) (l r t : RoundState n) : Prop :=
  CntSortedVector.Union (·.seqno) (RoundAttemptState.merge p desc) l.attempts r.attempts t.attempts

abbrev SentUnion (p : Pointers) (desc : Description n) (l r t : RoundState n) : Prop :=
  CntSortedVector.Union (·.get_id desc) (SessionBlockCandidate.merge p desc) l.sent_blocks r.sent_blocks t.sent_blocks

theorem attempts_union (hl : l.Valid desc) (hr : r.Valid desc) :
    ∃ v, CntSortedVector.merge (·.seqno) p (RoundAttemptState.merge p desc) l.attempts r.attempts = .ok v ∧
      CntSortedVector.Union (·.seqno) (RoundAttemptState.merge p desc) l.attempts r.attempts v := by
  refine merge_union hl.attempts_sorted hr.attempts_sorted (fun A hA B hB hAB => ?_) fun A hA _ =>
    RoundAttemptState.merge_self (hl.attempt A hA).votes_sorted
  obtain ⟨C, hC, hjoin⟩ := RoundAttemptState.merge_ok (p := p) (hl.attempt A hA).votes_sorted (hr.attempt B hB).votes_sorted hAB
  exact ⟨C, hC, hjoin.seqno⟩

theorem sent_union (hl : l.Valid desc) (hr : r.Valid desc) :
    ∃ v, CntSortedVector.merge (·.get_id desc) p (SessionBlockCandidate.merge p desc) l.sent_blocks r.sent_blocks = .ok v ∧
      CntSortedVector.Union (·.get_id desc) (SessionBlockCandidate.merge p desc) l.sent_blocks r.sent_blocks v := by
  refine merge_union hl.sent_sorted hr.sent_sorted (fun s _ s' _ h => ⟨_, candidate_merge_eq h, rfl⟩)
    fun s _ _ => ?_
  rw [candidate_merge_eq rfl]
  simp only [joinSignature_self]

section Attempts
variable (hl : l.Valid desc) (hr : r.Valid desc) (h : AttemptsUnion p desc l r t)
include hl hr

theorem join_of_merge {A B C : RoundAttemptState n} (hA : A ∈ l.attempts) (hB : B ∈ r.attempts) (hAB : A.seqno = B.seqno)
    (hC : A.merge p desc B = .ok C) : RoundAttemptState.Join p desc A B C := by
  obtain ⟨C', hC', hjoin⟩ := RoundAttemptState.merge_ok (p := p) (hl.attempt A hA).votes_sorted (hr.attempt B hB).votes_sorted hAB
  cases hC.symm.trans hC'
  exact hjoin

include h

theorem AttemptsUnion.hasVote : t.HasVote desc a c j ↔ l.HasVote desc a c j ∨ r.HasVote desc a c j :=
  h.exists_iff (fun _ hA _ hB _ hAB hC => (join_of_merge hl hr hA hB hAB hC).hasVote) a

theorem AttemptsUnion.hasPrecommit : t.HasPrecommit a j ↔ l.HasPrecommit a j ∨ r.HasPrecommit a j :=
  h.exists_iff (fun _ hA _ hB _ hAB hC => (join_of_merge hl hr hA hB hAB hC).precommitted) a

theorem AttemptsUnion.votedFor (hv : l.VotedFor desc a c ∨ r.VotedFor desc a c) : t.VotedFor desc a c := by
  rcases hv with hv | hv
  · exact votedFor_mono (fun _ h' => (AttemptsUnion.hasVote hl hr h).2 (.inl h')) hv
  · exact votedFor_mono (fun _ h' => (AttemptsUnion.hasVote hl hr h).2 (.inr h')) hv

theorem AttemptsUnion.valid {sent : List (SessionBlockCandidate n)}
    (hsl : ∀ s ∈ l.sent_blocks, ∃ s' ∈ sent, s'.get_id desc = s.get_id desc)
    (hsr : ∀ s ∈ r.sent_blocks, ∃ s' ∈ sent, s'.get_id desc = s.get_id desc) (A : RoundAttemptState n) (hA : A ∈ t.attempts) :
    A.Valid desc sent := by
  rcases Union.cases h hA with hA | hA | ⟨B, hB, C, hC, hBC, hjoin⟩
  · exact (hl.attempt A hA).sent_mono hsl
  · exact (hr.attempt A hA).sent_mono hsr
  · exact (join_of_merge hl hr hB hC hBC hjoin).valid ((hl.attempt B hB).sent_mono hsl) ((hr.attempt C hC).sent_mono hsr)

end Attempts

/-- The approvals of a candidate. -/
def approval (desc : Description n) (R : RoundState n) (c : CandidateId) (j : Fin n) : Option Signature :=
  (R.get_block desc c).bind fun E => E.approved_by j

theorem SentUnion.approval (h : SentUnion p desc l r t) (c : CandidateId) (j : Fin n) :
    t.approval desc c j = joinSignature (l.approval desc c j) (r.approval desc c j) := by
  have happroval : ∀ R : RoundState n, R.approval desc c j =
      (find (·.get_id desc) R.sent_blocks c).bind fun E : SessionBlockCandidate n => E.approved_by j := fun _ => rfl
  have hc := h.find c
  rw [happroval, happroval, happroval]
  rcases hl : find (·.get_id desc) l.sent_blocks c with _ | E <;> rcases hr : find (·.get_id desc) r.sent_blocks c with _ | F <;>
    rw [hl, hr] at hc
  · rw [← Except.ok.inj hc, hl, hr]
    rfl
  · rw [← Except.ok.inj hc, hl, hr]
    rfl
  · rw [← Except.ok.inj hc, hl, hr]
    exact (joinSignature_none _).symm
  · rw [Result.join, candidate_merge_eq ((find_some hl).2.trans (find_some hr).2.symm)] at hc
    rw [← Except.ok.inj hc, hl, hr]
    rfl

/-- The attempt up to which locks are dropped: the latest one that was not won by
the block of the latest one. -/
def lockFloor (desc : Description n) (v : List (RoundAttemptState n)) : ℕ :=
  (Latest.noted desc v.reverse ⟨none, none, false, none⟩).second_att

/-- The result of `merge` on two different objects. -/
structure Merged (p : Pointers) (desc : Description n) (l r t : RoundState n) : Prop where
  seqno : t.seqno = l.seqno
  attempts : AttemptsUnion p desc l r t
  sent_blocks : SentUnion p desc l r t
  signatures : t.signatures = fun j => joinSignature (l.signatures j) (r.signatures j)
  first_attempt : t.first_attempt = fun j => merge_first_attempt (l.first_attempt j) (r.first_attempt j)
  last_precommit : t.last_precommit = fun j =>
    if lockFloor desc t.attempts < max (l.last_precommit j) (r.last_precommit j)
    then max (l.last_precommit j) (r.last_precommit j) else 0
  flag : t.precommitted = (l.precommitted || r.precommitted || t.attempts.any (·.check_attempt_is_precommitted desc))
  block : if (l.precommitted || r.precommitted) = true
    then t.precommitted_block = if l.precommitted_block.isSome then l.precommitted_block else r.precommitted_block
    else match t.attempts.reverse.find? (·.check_attempt_is_precommitted desc) with
      | some A => A.get_voted_block desc = some t.precommitted_block
      | none => t.precommitted_block = none

theorem contested_of_le_lockFloor (ht : Sorted (·.seqno) t.attempts)
    (hv : ∀ A ∈ t.attempts, Sorted (·.get_id desc) A.votes) (hx : x ≤ lockFloor desc t.attempts)
    (h0 : lockFloor desc t.attempts ≠ 0) : t.Contested desc x := by
  have hlatest := Latest.latestOf desc ht false none
  rw [lockFloor] at hx h0
  generalize Latest.noted desc t.attempts.reverse _ = s at hlatest hx h0
  cases hs : s.second with
  | none => exact absurd (by rw [Latest.second_att, hs]; rfl) h0
  | some Dd =>
    obtain ⟨D, d⟩ := Dd
    obtain ⟨B, a, hf, hlt, hne, A', hA', rfl, hD⟩ := hlatest.second D d hs
    obtain ⟨⟨A, hA, rfl, hB⟩, -⟩ := hlatest.first B a hf
    have hx : x ≤ A'.seqno := by rwa [Latest.second_att, hs] at hx
    have voted : ∀ A ∈ t.attempts, ∀ E, A.get_voted_block desc = some E → t.VotedFor desc A.seqno (get_block_id desc E) :=
      fun A hA E hE => .of_attempt (ht.find_of_mem hA) (RoundAttemptState.votedFor_of_voted (hv A hA) hE).1
    exact ⟨_, _, _, _, hx.trans hlt.le, hx, Ne.symm hne, voted A hA B hB, voted A' hA' D hD⟩

theorem Merged.lock_kept (h : Merged p desc l r t) (ht : t.Valid desc) (j : Fin n) :
    max (l.last_precommit j) (r.last_precommit j) ≤ t.last_precommit j ∨
      t.Contested desc (max (l.last_precommit j) (r.last_precommit j)) := by
  rw [h.last_precommit]
  dsimp only
  split_ifs with hlt
  · exact .inl le_rfl
  · by_cases h0 : lockFloor desc t.attempts = 0
    · exact .inl (h0 ▸ not_lt.1 hlt)
    · exact .inr (contested_of_le_lockFloor ht.attempts_sorted (fun A hA => (ht.attempt A hA).votes_sorted) (not_lt.1 hlt) h0)

theorem SentUnion.mono (h : SentUnion p desc l r t) : (∀ s ∈ l.sent_blocks, ∃ s' ∈ t.sent_blocks, s'.get_id desc = s.get_id desc) ∧
    ∀ s ∈ r.sent_blocks, ∃ s' ∈ t.sent_blocks, s'.get_id desc = s.get_id desc :=
  ⟨fun _ hs => Union.exists_of_mem h (.inl hs), fun _ hs => Union.exists_of_mem h (.inr hs)⟩

theorem merge_first_attempts_eq (l r : NodeVec n ℕ) :
    NodeVec.merge_nat p merge_first_attempt l r = fun j => merge_first_attempt (l j) (r j) := by
  funext j
  refine NodeVec.merge_nat_apply p (fun x => ?_) (fun x => ?_) (fun x => rfl) l r j
  · unfold merge_first_attempt
    split_ifs
    · rfl
    · exact min_self x
  · unfold merge_first_attempt
    split_ifs with h h'
    · exact h.symm
    · rfl
    · exact absurd rfl h'

section Valid
variable (h : Merged p desc l r t)
include h

theorem Merged.block_left (hr : r.Valid desc) (hp : l.precommitted = true)
    (hid : r.precommitted = true →
      get_block_id desc l.precommitted_block = get_block_id desc r.precommitted_block) :
    t.precommitted = true ∧ t.precommitted_block = l.precommitted_block := by
  have hb := h.block
  rw [hp, Bool.true_or, if_pos rfl] at hb
  refine ⟨by rw [h.flag, hp]; rfl, hb.trans ?_⟩
  split_ifs with hsome
  · rfl
  · rw [Option.not_isSome_iff_eq_none.1 hsome]
    cases hp' : r.precommitted with
    | false => exact hr.not_precommitted hp'
    | true => exact (get_block_id_inj (hid hp')).symm.trans (Option.not_isSome_iff_eq_none.1 hsome)

theorem Merged.block_right (hl : l.Valid desc) (hp : r.precommitted = true)
    (hid : l.precommitted = true →
      get_block_id desc l.precommitted_block = get_block_id desc r.precommitted_block) :
    t.precommitted = true ∧ t.precommitted_block = r.precommitted_block := by
  have hb := h.block
  rw [hp, Bool.or_true, if_pos rfl] at hb
  refine ⟨by rw [h.flag, hp, Bool.or_true]; rfl, hb.trans ?_⟩
  split_ifs with hsome
  · cases hp' : l.precommitted with
    | false =>
      rw [hl.not_precommitted hp'] at hsome
      cases hsome
    | true => exact get_block_id_inj (hid hp')
  · rfl

theorem Merged.block_new (hpl : l.precommitted = false) (hpr : r.precommitted = false) :
    (t.precommitted = true → ∃ A ∈ t.attempts, A.check_attempt_is_precommitted desc = true ∧
      A.get_voted_block desc = some t.precommitted_block) ∧ (t.precommitted = false → t.precommitted_block = none) := by
  have hb := h.block
  have hf := h.flag
  rw [hpl, hpr, Bool.or_self] at hb hf
  rw [Bool.false_or] at hf
  rw [if_neg Bool.false_ne_true] at hb
  cases hfind : t.attempts.reverse.find? (·.check_attempt_is_precommitted desc) with
  | some A =>
    rw [hfind] at hb
    have hA := mem_reverse.1 (mem_of_find?_eq_some hfind)
    have hq : A.check_attempt_is_precommitted desc = true := by simpa using find?_some hfind
    refine ⟨fun _ => ⟨A, hA, hq, hb⟩, fun hn => ?_⟩
    rw [hf, any_eq_false] at hn
    exact absurd hq (hn A hA)
  | none =>
    rw [hfind] at hb
    refine ⟨fun ht => ?_, fun _ => hb⟩
    rw [hf, any_eq_true] at ht
    obtain ⟨A, hA, hq⟩ := ht
    exact absurd hq (by simpa using find?_eq_none.1 hfind A (mem_reverse.2 hA))

theorem Merged.valid (hl : l.Valid desc) (hr : r.Valid desc) (hseqno : l.seqno = r.seqno) (hid : l.precommitted = true → r.precommitted = true →
      get_block_id desc l.precommitted_block = get_block_id desc r.precommitted_block) : t.Valid desc := by
  obtain ⟨hsl, hsr⟩ := SentUnion.mono h.sent_blocks
  have hattempt := AttemptsUnion.valid hl hr h.attempts hsl hsr
  have left := fun hp => h.block_left hr hp (hid hp)
  have right := fun hp => h.block_right hl hp fun hp' => hid hp' hp
  refine ⟨h.attempts.sorted, h.sent_blocks.sorted, hattempt, fun j hj => ?_, fun hp => ?_, fun hp => ?_, fun j sig hj => ?_,
    fun s hs b hb => ?_⟩
  · rw [h.last_precommit] at hj ⊢
    dsimp only at hj ⊢
    split_ifs at hj ⊢ with hlt
    · rcases max_choice (l.last_precommit j) (r.last_precommit j) with hm | hm <;> rw [hm] at hj ⊢
      · obtain ⟨c, hc⟩ := hl.lock j hj
        exact ⟨c, AttemptsUnion.votedFor hl hr h.attempts (.inl hc)⟩
      · obtain ⟨c, hc⟩ := hr.lock j hj
        exact ⟨c, AttemptsUnion.votedFor hl hr h.attempts (.inr hc)⟩
    · exact absurd rfl hj
  · cases hpl : l.precommitted with
    | true =>
      obtain ⟨s, hs, hid⟩ := hl.precommitted_sent hpl
      obtain ⟨s', hs', hid'⟩ := hsl s hs
      exact ⟨s', hs', by rw [hid', hid, (left hpl).2]⟩
    | false =>
      cases hpr : r.precommitted with
      | true =>
        obtain ⟨s, hs, hid⟩ := hr.precommitted_sent hpr
        obtain ⟨s', hs', hid'⟩ := hsr s hs
        exact ⟨s', hs', by rw [hid', hid, (right hpr).2]⟩
      | false =>
        obtain ⟨A, hA, -, hv⟩ := (h.block_new hpl hpr).1 hp
        obtain ⟨-, v, hvm, hvb⟩ := RoundAttemptState.votedFor_of_voted (hattempt A hA).votes_sorted hv
        obtain ⟨s, hs, hid⟩ := (hattempt A hA).votes_sent v hvm
        exact ⟨s, hs, hid.trans (congrArg _ hvb)⟩
  · have hf := h.flag
    rw [hp] at hf
    obtain ⟨hf, -⟩ := Bool.or_eq_false_iff.1 hf.symm
    obtain ⟨hpl, hpr⟩ := Bool.or_eq_false_iff.1 hf
    exact (h.block_new hpl hpr).2 hp
  · rw [h.signatures] at hj
    rcases joinSignature_some hj with hj | hj
    · obtain ⟨hp, hv⟩ := hl.signed j sig hj
      exact ⟨(left hp).1, (left hp).2 ▸ hv⟩
    · obtain ⟨hp, hv⟩ := hr.signed j sig hj
      exact ⟨(right hp).1, (right hp).2 ▸ hv⟩
  · rw [h.seqno]
    rcases Union.cases h.sent_blocks hs with hs | hs | ⟨s1, hs1, s2, hs2, hid, hjoin⟩
    · exact hl.priority s hs b hb
    · exact hseqno ▸ hr.priority s hs b hb
    · rw [candidate_merge_eq hid] at hjoin
      cases hjoin
      exact hl.priority s1 hs1 b hb

end Valid

/-- When `merge` stops: two objects of the same round without an attempt. -/
theorem merge_null (hseqno : l.seqno = r.seqno) (hsame : p.same l r = false) (hl : l.attempts = []) (hr : r.attempts = [])
    (hid : l.precommitted = true ∧ r.precommitted = true →
      get_block_id desc l.precommitted_block = get_block_id desc r.precommitted_block) :
    l.merge p desc r = .error .null_pointer := by
  rw [merge, hsame, if_neg Bool.false_ne_true, check_pos hseqno, Result.ok_bind, check_pos hid, Result.ok_bind, hl, hr]
  rfl

theorem merge_ok (hl : l.Valid desc) (hr : r.Valid desc) (hseqno : l.seqno = r.seqno)
    (hid : l.precommitted = true ∧ r.precommitted = true →
      get_block_id desc l.precommitted_block = get_block_id desc r.precommitted_block)
    (hnull : p.same l r = true ∨ l.attempts ≠ [] ∨ r.attempts ≠ []) :
    ∃ t, l.merge p desc r = .ok t ∧ (p.same l r = true ∧ t = l ∧ l = r ∨ Merged p desc l r t) := by
  by_cases hsame : p.same l r = true
  · exact ⟨l, by rw [merge, if_pos hsame], .inl ⟨hsame, rfl, p.eq_of_same hsame⟩⟩
  · obtain ⟨v, hv, hu⟩ := attempts_union (p := p) hl hr
    obtain ⟨sent, hs, hsu⟩ := sent_union (p := p) hl hr
    have hne : v ≠ [] := by
      rintro rfl
      rcases hnull with h | h | h
      · exact hsame h
      · obtain ⟨A, hA⟩ := exists_mem_of_ne_nil _ h
        obtain ⟨B, hB, -⟩ := hu.exists_of_mem (.inl hA)
        cases hB
      · obtain ⟨A, hA⟩ := exists_mem_of_ne_nil _ h
        obtain ⟨B, hB, -⟩ := hu.exists_of_mem (.inr hA)
        cases hB
    have hunion : AttemptsUnion p desc l r { l with attempts := v } := hu
    have hsentu : SentUnion p desc l r { l with sent_blocks := sent } := hsu
    have hattempt := AttemptsUnion.valid hl hr hunion hsentu.mono.1 hsentu.mono.2
    have hvoted : ∀ b ∈ v.reverse, b.check_attempt_is_precommitted desc = true → ∃ B, b.get_voted_block desc = some B := by
      intro b hb hq
      obtain ⟨j, hj⟩ := exists_of_check_weight hq
      obtain ⟨c, hc⟩ := (hattempt b (mem_reverse.1 hb)).voted j hj
      exact hc.voted
    obtain ⟨s, hscan, hs'⟩ := Latest.scan_ok hvoted
      ⟨none, none, l.precommitted || r.precommitted,
        if l.precommitted_block.isSome then l.precommitted_block else r.precommitted_block⟩
    have hmarks := Latest.noted_congr desc (show (⟨none, none, l.precommitted || r.precommitted,
      if l.precommitted_block.isSome then l.precommitted_block else r.precommitted_block⟩ : Latest n).first =
      (⟨none, none, false, none⟩ : Latest n).first from rfl) rfl v.reverse
    have hlatest : Latest.LatestOf desc v s := (Latest.latestOf desc hu.sorted false none).congr
      (hs'.first.trans hmarks.1) (hs'.second.trans hmarks.2)
    have hfloor : lockFloor desc v = s.second_att := by
      rw [lockFloor, Latest.second_att, Latest.second_att, hs'.second, hmarks.2]
    -- without a voted block there are no locks
    have hzero : s.f_cnt = 0 → ∀ j, max (l.last_precommit j) (r.last_precommit j) = 0 := by
      intro hcnt j
      have hno := (hlatest.none (Latest.f_cnt_eq_zero.1 hcnt)).2
      have none_voted : ∀ a c, ¬ (l.VotedFor desc a c ∨ r.VotedFor desc a c) := by
        intro a c hv
        obtain ⟨A, hA, hc⟩ := (AttemptsUnion.votedFor hl hr hunion hv).attempt
        obtain ⟨b, hb⟩ := hc.voted
        cases (hno A (find_some hA).1).symm.trans hb
      rw [Nat.max_eq_zero_iff]
      refine ⟨by_contra fun h => ?_, by_contra fun h => ?_⟩
      · obtain ⟨c, hc⟩ := hl.lock j h
        exact none_voted _ _ (.inl hc)
      · obtain ⟨c, hc⟩ := hr.lock j h
        exact none_voted _ _ (.inr hc)
    rw [merge, if_neg hsame, check_pos hseqno, Result.ok_bind, check_pos hid, Result.ok_bind]
    dsimp only
    rw [hv, Result.ok_bind, check_pos hne, Result.ok_bind, hscan, Result.ok_bind,
      check_pos (hlatest.order fun A hA => (hattempt A hA).seqno_pos), Result.ok_bind, merge_last_precommit, check_pos hzero, hs]
    refine ⟨_, rfl, .inr ⟨rfl, hu, hsu, merge_signatures_eq _ _, ?_, ?_, ?_, ?_⟩⟩
    · exact merge_first_attempts_eq _ _
    · funext j
      change (if s.f_cnt = 0 then _ else _) = _
      rw [hfloor]
      split_ifs with h1 h2 h2
      · rfl
      · exact hzero h1 j
      · rfl
      · rfl
    · exact hs'.precommitted.trans (by rw [any_reverse])
    · have hb := hs'.block
      dsimp only at hb
      by_cases hp : (l.precommitted || r.precommitted) = true
      · rw [if_pos hp] at hb ⊢
        exact hb
      · rw [if_neg hp] at hb ⊢
        obtain ⟨hpl, hpr⟩ := Bool.or_eq_false_iff.1 (Bool.not_eq_true _ ▸ hp)
        rw [hl.not_precommitted hpl, hr.not_precommitted hpr] at hb
        exact hb

end RoundState

end Ton.Session
