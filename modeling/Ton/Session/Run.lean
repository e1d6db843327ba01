import Ton.Session.Joined
import Mathlib.Data.Nat.Pairing
/-!
# Sessions

Nodes merge states and act on them. A node that is not faulty goes on from its
own last state, and leaves no vote or precommit to be implied; a faulty one
may go on from any state. The states of a run are kept against the votes and
precommits that all nodes made (`Voting.Votes`), round by round: the states only
show such votes, and a node that is not faulty has not made more than its own
state shows.
-/

namespace Ton.Session
open Voting List Function Description SentBlock

variable {n : ℕ}

/-- All states that were formed, and the last one that each node formed. -/
structure Network (n : ℕ) where
  states : Set (SessionState n)
  own : Fin n → SessionState n

namespace Network

def create : Network n := ⟨{SessionState.create}, fun _ => SessionState.create⟩

def put (σ : Network n) (i : Fin n) (t : SessionState n) : Network n := ⟨insert t σ.states, Function.update σ.own i t⟩

theorem put_self (σ : Network n) (i : Fin n) (t : SessionState n) : (σ.put i t).own i = t := update_self ..

theorem put_of_ne (σ : Network n) {i j : Fin n} (h : j ≠ i) (t : SessionState n) : (σ.put i t).own j = σ.own j :=
  update_of_ne h ..

/-- One state is formed. What objects are shared may differ from step to step.
`allowed` restricts the implicit actions. -/
inductive Step (desc : Description n) (faulty : Set (Fin n)) (allowed : SessionState n → Fin n → ℕ → Prop) (σ : Network n) :
    Network n → Prop
  | observe (p : Pointers) {l r t : SessionState n} (hl : l ∈ σ.states) (hr : r ∈ σ.states) (h : l.merge p desc r = .ok t) :
    Step desc faulty allowed σ { σ with states := insert t σ.states }
  | merge (p : Pointers) (i : Fin n) {r t : SessionState n} (hr : r ∈ σ.states) (h : (σ.own i).merge p desc r = .ok t) :
    Step desc faulty allowed σ (σ.put i t)
  | action (i : Fin n) (att : ℕ) (act : Message) {s t : SessionState n} (hs : s ∈ σ.states) (own : i ∉ faulty → s = σ.own i)
    (h : s.action desc i att act = .ok t) : Step desc faulty allowed σ (σ.put i t)
  | make_one (i : Fin n) (att : ℕ) {s t : SessionState n} {made : Bool} (hs : s ∈ σ.states)
    (own : i ∉ faulty → s = σ.own i ∧ s.create_action desc i (s.clamp i att) = .ok (.empty s.cur_round.seqno))
    (hallowed : allowed s i att) (h : s.make_one desc i att = .ok (t, made)) : Step desc faulty allowed σ (σ.put i t)

def ReachableBy (desc : Description n) (faulty : Set (Fin n)) (allowed : SessionState n → Fin n → ℕ → Prop) : Network n → Prop :=
  Relation.ReflTransGen (Step desc faulty allowed) create

def Reachable (desc : Description n) (faulty : Set (Fin n)) : Network n → Prop := ReachableBy desc faulty fun _ _ _ => True

end Network

/-- Faulty nodes have less than a third of the weight, and twice the total weight is 64-bit. -/
structure FewFaulty (desc : Description n) (faulty : Set (Fin n)) : Prop where
  total : desc.get_total_weight < 2 ^ 63
  third : 3 * weigh desc.get_node_weight faulty < desc.get_total_weight

variable {p : Pointers} {desc : Description n} {faulty : Set (Fin n)}

theorem FewFaulty.cutoff (h : FewFaulty desc faulty) :
    ∑ i, desc.get_node_weight i + weigh desc.get_node_weight faulty < 2 * desc.get_cutoff_weight := by
  have htotal := h.total
  have hthird := h.third
  unfold get_cutoff_weight
  rw [get_total_weight_eq] at htotal hthird ⊢
  rw [Nat.mod_eq_of_lt (by omega)]
  omega

def quorums (h : FewFaulty desc faulty) : Quorums (Fin n) := .ofWeight desc.get_node_weight desc.get_cutoff_weight faulty h.cutoff

/-- The votes and precommits of every round. -/
abbrev Ballots (n : ℕ) := ℕ → Votes (Fin n) CandidateId

variable {few : FewFaulty desc faulty} {V V' : Ballots n} {i j : Fin n} {k a att : ℕ} {c : CandidateId} {R R' : RoundState n}
  {A : RoundAttemptState n} {s t : SessionState n}

/-- Node `i` has voted or precommitted once more, at most. -/
structure Grown (few : FewFaulty desc faulty) (i : Fin n) (V V' : Ballots n) : Prop where
  inv : ∀ k, (V' k).Inv (quorums few)
  vote : ∀ {k a c j}, j ∈ (V k).vote a c → j ∈ (V' k).vote a c
  precommit : ∀ {k a j}, j ∈ (V k).precommit a → j ∈ (V' k).precommit a
  vote_other : ∀ {k a c j}, j ≠ i → j ∈ (V' k).vote a c → j ∈ (V k).vote a c
  precommit_other : ∀ {k a j}, j ≠ i → j ∈ (V' k).precommit a → j ∈ (V k).precommit a
  time_other : ∀ {k j}, j ≠ i → (V' k).time j = (V k).time j

namespace Grown

theorem refl (hV : ∀ k, (V k).Inv (quorums few)) (i : Fin n) : Grown few i V V :=
  ⟨hV, id, id, fun _ => id, fun _ => id, fun _ => rfl⟩

theorem voted (h : Grown few i V V') (hv : (V k).Voted (quorums few) a c) : (V' k).Voted (quorums few) a c :=
  (quorums few).mono (fun _ => h.vote) hv

theorem committed (h : Grown few i V V') (hc : (V k).Committed (quorums few) c) : (V' k).Committed (quorums few) c := by
  obtain ⟨a, hp, hv⟩ := hc
  exact ⟨a, (quorums few).mono (fun _ => h.precommit) hp, h.voted hv⟩

theorem overruled (h : Grown few i V V') (ho : (V k).Overruled (quorums few) a c) : (V' k).Overruled (quorums few) a c := by
  obtain ⟨e, d, hlt, hne, hv⟩ := ho
  exact ⟨e, d, hlt, hne, h.voted hv⟩

section
variable (hV : ∀ k, (V k).Inv (quorums few)) (k : ℕ)
include hV

theorem update {W : Votes (Fin n) CandidateId} (hW : W.Inv (quorums few))
    (vote : ∀ {a c j}, j ∈ (V k).vote a c → j ∈ W.vote a c) (precommit : ∀ {a j}, j ∈ (V k).precommit a → j ∈ W.precommit a)
    (vote_other : ∀ {a c j}, j ≠ i → j ∈ W.vote a c → j ∈ (V k).vote a c)
    (precommit_other : ∀ {a j}, j ≠ i → j ∈ W.precommit a → j ∈ (V k).precommit a)
    (time_other : ∀ {j}, j ≠ i → W.time j = (V k).time j) : Grown few i V (Function.update V k W) := by
  have at_k : ∀ {P : Votes (Fin n) CandidateId → Votes (Fin n) CandidateId → Prop}, (∀ U, P U U) → P (V k) W →
      ∀ x, P (V x) (Function.update V k W x) := by
    intro P hrefl hk x
    by_cases hx : x = k
    · subst hx
      rwa [update_self]
    · rw [update_of_ne hx]
      exact hrefl _
  refine ⟨fun x => ?_, fun {x a c j} => ?_, fun {x a j} => ?_, fun {x a c j} hj => ?_, fun {x a j} hj => ?_, fun {x j} hj => ?_⟩
  · exact at_k (P := fun U U' => U.Inv (quorums few) → U'.Inv (quorums few)) (fun _ => id) (fun _ => hW) x (hV x)
  · exact at_k (P := fun U U' => j ∈ U.vote a c → j ∈ U'.vote a c) (fun _ => id) vote x
  · exact at_k (P := fun U U' => j ∈ U.precommit a → j ∈ U'.precommit a) (fun _ => id) precommit x
  · exact at_k (P := fun U U' => j ∈ U'.vote a c → j ∈ U.vote a c) (fun _ => id) (vote_other hj) x
  · exact at_k (P := fun U U' => j ∈ U'.precommit a → j ∈ U.precommit a) (fun _ => id) (precommit_other hj) x
  · exact at_k (P := fun U U' => U'.time j = U.time j) (fun _ => rfl) (time_other hj) x

theorem addVote (rules : i ∉ faulty → (V k).time i ≤ a ∧ (∀ d, i ∉ (V k).vote a d) ∧ (V k).Free (quorums few) i c) :
    Grown few i V (Function.update V k ((V k).addVote i a c)) :=
  update hV k ((hV k).addVote rules) .inl id (fun hj h => h.elim id fun h => absurd h.1 hj) (fun _ => id)
    (fun hj => update_of_ne hj ..)

theorem addPrecommit (rules : i ∉ faulty → (V k).time i ≤ a ∧ ∃ d, (V k).Voted (quorums few) a d) :
    Grown few i V (Function.update V k ((V k).addPrecommit i a)) :=
  update hV k ((hV k).addPrecommit rules) id .inl (fun _ => id) (fun hj h => h.elim id fun h => absurd h.1 hj)
    (fun hj => update_of_ne hj ..)

end

end Grown

/-! ## What states show of the votes -/

/-- The votes and precommits of a round are in `V`, and its precommitted block is committed there. -/
structure RoundKnown (few : FewFaulty desc faulty) (V : Ballots n) (R : RoundState n) : Prop where
  vote : ∀ {a c j}, R.HasVote desc a c j → j ∈ (V R.seqno).vote a c
  precommit : ∀ {a j}, R.HasPrecommit a j → j ∈ (V R.seqno).precommit a
  decided : R.precommitted = true → (V R.seqno).Committed (quorums few) (get_block_id desc R.precommitted_block)

structure Known (few : FewFaulty desc faulty) (V : Ballots n) (s : SessionState n) : Prop where
  valid : s.Valid desc
  round : RoundKnown few V s.cur_round
  old : ∀ (k : ℕ) O, s.old_rounds[k]? = some O → (V k).Committed (quorums few) (get_block_id desc O.block)

/-- `R` is the current round of node `i`, and shows all that the node did in it; a
precommit is covered by a lock, or its attempt is overruled. -/
structure RoundFollowed (few : FewFaulty desc faulty) (V : Ballots n) (i : Fin n) (R : RoundState n) : Prop where
  vote : ∀ {a c}, i ∈ (V R.seqno).vote a c → R.HasVote desc a c i
  precommit : ∀ {a}, i ∈ (V R.seqno).precommit a → R.HasPrecommit a i
  ahead : ∀ {k}, R.seqno < k → (∀ a c, i ∉ (V k).vote a c) ∧ ∀ a, i ∉ (V k).precommit a
  lock : ∀ {a c}, i ∈ (V R.seqno).precommit a → (V R.seqno).Voted (quorums few) a c →
    a ≤ R.last_precommit i ∨ (V R.seqno).Overruled (quorums few) a c

structure Followed (few : FewFaulty desc faulty) (V : Ballots n) (i : Fin n) (s : SessionState n) : Prop where
  round : RoundFollowed few V i s.cur_round
  time : ∀ k, (V k).time i ≤ s.att i

theorem RoundKnown.voted (h : RoundKnown few V R) (hv : R.VotedFor desc a c) : (V R.seqno).Voted (quorums few) a c :=
  IsQuorum.mono hv fun _ => h.vote

theorem RoundKnown.overruled (h : RoundKnown few V R) (hV : ∀ k, (V k).Inv (quorums few)) {x : ℕ} (hx : R.Contested desc x)
    (ha : a ≤ x) (hc : (V R.seqno).Voted (quorums few) a c) : (V R.seqno).Overruled (quorums few) a c := by
  obtain ⟨e, f, d, d', he, hf, hne, hd, hd'⟩ := hx
  have later : ∀ {e d}, x ≤ e → R.VotedFor desc e d → d ≠ c → (V R.seqno).Overruled (quorums few) a c := by
    intro e d he hd hne
    refine ⟨e, d, lt_of_le_of_ne (ha.trans he) ?_, hne, h.voted hd⟩
    rintro rfl
    exact hne ((hV _).voted_unique (h.voted hd) hc)
  by_cases hdc : d = c
  · exact later hf hd' fun h => hne (hdc.trans h.symm)
  · exact later he hd hdc

theorem RoundKnown.mono (h : RoundKnown few V R) (hg : Grown few i V V') : RoundKnown few V' R :=
  ⟨fun hv => hg.vote (h.vote hv), fun hp => hg.precommit (h.precommit hp), fun hp => hg.committed (h.decided hp)⟩

theorem Known.mono (h : Known few V s) (hg : Grown few i V V') : Known few V' s :=
  ⟨h.valid, h.round.mono hg, fun k O hk => hg.committed (h.old k O hk)⟩

theorem Followed.mono (h : Followed few V j s) (hV : ∀ k, (V k).Inv (quorums few)) (hg : Grown few i V V') (hj : j ∉ faulty)
    (hne : j ≠ i) : Followed few V' j s where
  round := by
    refine ⟨fun hv => h.round.vote (hg.vote_other hne hv), fun hp => h.round.precommit (hg.precommit_other hne hp),
      fun hk => ⟨fun a c hv => (h.round.ahead hk).1 a c (hg.vote_other hne hv), fun a hp => (h.round.ahead hk).2 a (hg.precommit_other hne hp)⟩,
      fun {a c} hp hc => ?_⟩
    have hp := hg.precommit_other hne hp
    obtain ⟨d, hd⟩ := (hV _).precommit_voted j hj a hp
    obtain rfl := (hg.inv _).voted_unique hc (hg.voted hd)
    exact (h.round.lock hp hd).imp id hg.overruled
  time k := (hg.time_other hne).trans_le (h.time k)

/-! ## Votes and precommits of a node -/

/-- `V'` has what node `i` did by moving round `R` to `R'`, in attempt `att`. -/
structure Cast (few : FewFaulty desc faulty) (V V' : Ballots n) (R : RoundState n) (i : Fin n) (att : ℕ) (A : RoundAttemptState n)
    (R' : RoundState n) : Prop where
  grown : Grown few i V V'
  vote : ∀ {a c j}, R'.HasVote desc a c j → j ∈ (V' R.seqno).vote a c
  precommit : ∀ {a j}, R'.HasPrecommit a j → j ∈ (V' R.seqno).precommit a
  other : ∀ {k}, k ≠ R.seqno → V' k = V k
  time : (V' R.seqno).time i ≤ max ((V R.seqno).time i) att
  new_vote : ∀ {a c}, i ∈ (V' R.seqno).vote a c → i ∈ (V R.seqno).vote a c ∨ R'.HasVote desc a c i
  new_precommit : ∀ {a}, i ∈ (V' R.seqno).precommit a → i ∈ (V R.seqno).precommit a ∨
    a = att ∧ A.precommitted i = true ∧ (R.attempt_at att).precommitted i = false

theorem precommit_pos (hR : R.Valid desc) (hf : RoundFollowed few V i R) (hp : i ∈ (V R.seqno).precommit a) : 0 < a := by
  obtain ⟨B, hB, -⟩ := hf.precommit hp
  obtain ⟨hm, rfl⟩ := Keyed.find_some hB
  exact (hR.attempt B hm).seqno_pos

section Cast
variable (h : RoundState.Moved desc R i att A R') (hR : R.Valid desc) (hk : RoundKnown few V R)
include h hR hk

theorem moved_vote (hg : Grown few i V V') (hA : ∀ {c j}, A.HasVote desc c j → j ∈ (V' R.seqno).vote att c)
    (hv : R'.HasVote desc a c j) : j ∈ (V' R.seqno).vote a c := by
  by_cases ha : att = a
  · subst ha
    exact hA ((h.hasVote_self hR).1 hv)
  · exact hg.vote (hk.vote ((h.hasVote_of_ne hR ha).1 hv))

theorem moved_precommit (hg : Grown few i V V') (hA : ∀ {j}, A.precommitted j = true → j ∈ (V' R.seqno).precommit att)
    (hp : R'.HasPrecommit a j) : j ∈ (V' R.seqno).precommit a := by
  by_cases ha : att = a
  · subst ha
    exact hA ((h.hasPrecommit_self hR).1 hp)
  · exact hg.precommit (hk.precommit ((h.hasPrecommit_of_ne hR ha).1 hp))

theorem cast_none (hV : ∀ k, (V k).Inv (quorums few)) (hvotes : A.votes = (R.attempt_at att).votes)
    (hpre : A.precommitted = (R.attempt_at att).precommitted) : Cast few V V R i att A R' where
  grown := .refl hV i
  vote := moved_vote h hR hk (.refl hV i) fun {c j} hv => by
    rw [RoundAttemptState.HasVote, hvotes] at hv
    exact hk.vote ((RoundState.attempt_at_hasVote hR).1 hv)
  precommit := moved_precommit h hR hk (.refl hV i) fun {j} hp => by
    rw [hpre] at hp
    exact hk.precommit ((RoundState.attempt_at_precommitted hR).1 hp)
  other _ := rfl
  time := le_max_left _ _
  new_vote := .inl
  new_precommit := .inl

omit h in
/-- A node that is not faulty votes by the rules: once in the attempt, and not against its locks. -/
theorem vote_rules (hV : ∀ k, (V k).Inv (quorums few)) (hf : RoundFollowed few V i R) (hatt : 0 < att) {b : Option (SentBlock n)}
    (hnot : (R.attempt_at att).check_vote_received_from i = false)
    (hchoose : R.choose_block_to_vote desc i att (R.attempt_at att).vote_for (R.attempt_at att).vote_for_inited = .ok (some b)) :
    (∀ d, i ∉ (V R.seqno).vote att d) ∧ (V R.seqno).Free (quorums few) i (get_block_id desc b) := by
  have hA := RoundState.attempt_at_valid hR hatt
  refine ⟨fun d hd => ?_, fun e d hp hd => ?_⟩
  · have hv := (RoundState.attempt_at_hasVote hR).2 (hf.vote hd)
    have hrec := (RoundAttemptState.check_vote_iff hA.votes_sorted).2 ⟨d, hv⟩
    rw [hnot] at hrec
    cases hrec
  · rcases hf.lock hp hd with hle | ho
    · have hpos := precommit_pos hR hf hp
      have hlock := hk.voted (RoundState.choose_locked hR hA hchoose (by omega))
      rcases hle.eq_or_lt with rfl | hlt
      · exact .inl ((hV _).voted_unique hd hlock)
      · by_cases hdb : d = get_block_id desc b
        · exact .inl hdb
        · exact .inr ⟨_, _, hlt, Ne.symm hdb, hlock⟩
    · exact .inr ho

theorem cast_ok (hV : ∀ k, (V k).Inv (quorums few)) (hatt : 0 < att)
    (hf : i ∉ faulty → RoundFollowed few V i R ∧ (V R.seqno).time i ≤ att) : ∃ V', Cast few V V' R i att A R' := by
  cases hm : h.moves with
  | stay => exact ⟨V, cast_none h hR hk hV rfl rfl⟩
  | vote_for x hx => exact ⟨V, cast_none h hR hk hV rfl rfl⟩
  | vote b hnot hchoose =>
    have hA := RoundState.attempt_at_valid hR hatt
    have hg := Grown.addVote hV R.seqno fun hi =>
      ⟨(hf hi).2, vote_rules hR hk hV (hf hi).1 hatt hnot hchoose⟩
    have hself := update_self R.seqno ((V R.seqno).addVote i att (get_block_id desc b)) V
    refine ⟨_, hg, moved_vote h hR hk hg fun {c j} hv => ?_, moved_precommit h hR hk hg fun {j} hp => ?_,
      fun hne => update_of_ne hne .., ?_, fun {a c} hv => ?_, fun {a} hp => ?_⟩
    · rw [hself]
      rcases (RoundAttemptState.hasVote_addVote hA.votes_sorted).1 hv with hv | ⟨rfl, rfl⟩
      · exact .inl (hk.vote ((RoundState.attempt_at_hasVote hR).1 hv))
      · exact .inr ⟨rfl, rfl, rfl⟩
    · rw [hself]
      exact hk.precommit ((RoundState.attempt_at_precommitted hR).1 hp)
    · rw [hself]
      exact (update_self ..).le
    · rw [hself] at hv
      rcases hv with hv | ⟨-, rfl, rfl⟩
      · exact .inl hv
      · exact .inr ((h.hasVote_self hR).2 ((RoundAttemptState.hasVote_addVote hA.votes_sorted).2 (.inr ⟨rfl, rfl⟩)))
    · rw [hself] at hp
      exact .inl hp
  | precommit b hvoted hnot =>
    have hA := RoundState.attempt_at_valid hR hatt
    have hquorum : (V R.seqno).Voted (quorums few) att (get_block_id desc b) := by
      refine IsQuorum.mono (RoundAttemptState.votedFor_of_voted hA.votes_sorted hvoted).1 fun j hj => ?_
      exact hk.vote ((RoundState.attempt_at_hasVote hR).1 hj)
    have hg := Grown.addPrecommit hV R.seqno fun hi => ⟨(hf hi).2, _, hquorum⟩
    have hself := update_self R.seqno ((V R.seqno).addPrecommit i att) V
    refine ⟨_, hg, moved_vote h hR hk hg fun {c j} hv => ?_, moved_precommit h hR hk hg fun {j} hp => ?_,
      fun hne => update_of_ne hne .., ?_, fun {a c} hv => ?_, fun {a} hp => ?_⟩
    · rw [hself]
      exact hk.vote ((RoundState.attempt_at_hasVote hR).1 hv)
    · rw [hself]
      rcases RoundAttemptState.addPrecommit_precommitted.1 hp with hp | rfl
      · exact .inl (hk.precommit ((RoundState.attempt_at_precommitted hR).1 hp))
      · exact .inr ⟨rfl, rfl⟩
    · rw [hself]
      exact (update_self ..).le
    · rw [hself] at hv
      exact .inl hv
    · rw [hself] at hp
      rcases hp with hp | ⟨-, rfl⟩
      · exact .inl hp
      · exact .inr ⟨rfl, RoundAttemptState.addPrecommit_precommitted.2 (.inr rfl), hnot⟩

omit hk in
theorem moved_hasPrecommit (hp : R.HasPrecommit a j) : R'.HasPrecommit a j := by
  by_cases ha : att = a
  · subst ha
    exact (h.hasPrecommit_self hR).2 (h.moves.precommitted ((RoundState.attempt_at_precommitted hR).2 hp))
  · exact (h.hasPrecommit_of_ne hR ha).2 hp

omit hk in
theorem Cast.followed (hc : Cast few V V' R i att A R') (hatt : 0 < att) (hf : RoundFollowed few V i R)
    (hlock : ∀ {a d}, i ∈ (V' R.seqno).precommit a → (V' R.seqno).Voted (quorums few) a d →
      a ≤ R'.last_precommit i ∨ (V' R.seqno).Overruled (quorums few) a d) : RoundFollowed few V' i R' where
  vote hv := by
    rw [h.seqno] at hv
    rcases hc.new_vote hv with hv | hv
    · exact h.hasVote hR hatt (hf.vote hv)
    · exact hv
  precommit hp := by
    rw [h.seqno] at hp
    rcases hc.new_precommit hp with hp | ⟨rfl, hp, -⟩
    · exact moved_hasPrecommit h hR (hf.precommit hp)
    · exact (h.hasPrecommit_self hR).2 hp
  ahead hk := by
    rw [h.seqno] at hk
    rw [hc.other hk.ne']
    exact hf.ahead hk
  lock hp hd := by
    rw [h.seqno] at hp hd ⊢
    exact hlock hp hd

omit hR hk in
theorem Cast.known (hc : Cast few V V' R i att A R')
    (hdecided : R'.precommitted = true → (V' R.seqno).Committed (quorums few) (get_block_id desc R'.precommitted_block)) :
    RoundKnown few V' R' where
  vote hv := by
    rw [h.seqno]
    exact hc.vote hv
  precommit hp := by
    rw [h.seqno]
    exact hc.precommit hp
  decided hp := by
    rw [h.seqno]
    exact hdecided hp

omit h hR hk in
theorem Cast.old_lock (hc : Cast few V V' R i att A R') (hV : ∀ k, (V k).Inv (quorums few)) (hi : i ∉ faulty)
    (hf : RoundFollowed few V i R) {d : CandidateId} (hp : i ∈ (V R.seqno).precommit a)
    (hd : (V' R.seqno).Voted (quorums few) a d) : a ≤ R.last_precommit i ∨ (V' R.seqno).Overruled (quorums few) a d := by
  obtain ⟨e, he⟩ := (hV _).precommit_voted i hi a hp
  obtain rfl := (hc.grown.inv _).voted_unique hd (hc.grown.voted he)
  exact (hf.lock hp he).imp id hc.grown.overruled

end Cast

/-! ## Actions -/

theorem RoundKnown.quiet (h : RoundKnown few V R) (hq : R.Quiet R') : RoundKnown few V R' where
  vote hv := by
    rw [hq.seqno]
    exact h.vote (hq.hasVote.1 hv)
  precommit hp := by
    rw [hq.seqno]
    exact h.precommit (hq.hasPrecommit.1 hp)
  decided hp := by
    rw [hq.seqno, hq.precommitted_block]
    exact h.decided (hq.precommitted ▸ hp)

theorem RoundFollowed.quiet (h : RoundFollowed few V i R) (hq : R.Quiet R') : RoundFollowed few V i R' where
  vote hv := hq.hasVote.2 (h.vote (hq.seqno ▸ hv))
  precommit hp := hq.hasPrecommit.2 (h.precommit (hq.seqno ▸ hp))
  ahead hk := h.ahead (hq.seqno ▸ hk)
  lock hp hd := by
    rw [hq.seqno] at hp hd ⊢
    rw [hq.last_precommit]
    exact h.lock hp hd

theorem roundKnown_create (k : ℕ) : RoundKnown few V (RoundState.create k : RoundState n) where
  vote := by
    rintro a c j ⟨B, hB, -⟩
    cases hB
  precommit := by
    rintro a j ⟨B, hB, -⟩
    cases hB
  decided := (nomatch ·)

theorem roundFollowed_create (h : ∀ {k'}, k ≤ k' → (∀ a c, i ∉ (V k').vote a c) ∧ ∀ a, i ∉ (V k').precommit a) :
    RoundFollowed few V i (RoundState.create k : RoundState n) where
  vote hv := absurd hv ((h le_rfl).1 _ _)
  precommit hp := absurd hp ((h le_rfl).2 _)
  ahead hk := h (le_of_lt hk)
  lock hp _ := absurd hp ((h le_rfl).2 _)

section
variable (hV : ∀ k, (V k).Inv (quorums few)) (hR : R.Valid desc) (hk : RoundKnown few V R) (hatt : 0 < att)
include hV hR hk hatt

theorem forwarded_ok (h : RoundState.Forwarded desc R i att A R') (hf : i ∉ faulty → RoundFollowed few V i R ∧ (V R.seqno).time i ≤ att) :
    ∃ V', Cast few V V' R i att A R' ∧ RoundKnown few V' R' ∧ (i ∉ faulty → RoundFollowed few V' i R') := by
  obtain ⟨V', hc⟩ := cast_ok h.toMoved hR hk hV hatt hf
  have hknown : RoundKnown few V' R' := by
    refine hc.known h.toMoved fun hp => ⟨att, ?_, ?_⟩
    · refine IsQuorum.mono (check_weight_iff.1 (h.flag ▸ hp)) fun j hj => ?_
      exact hc.precommit ((h.toMoved.hasPrecommit_self hR).2 hj)
    · have hb := h.block
      rw [if_pos hp] at hb
      have hv := (RoundAttemptState.votedFor_of_voted (h.toMoved.attempt_valid hR hatt).votes_sorted hb).1
      exact IsQuorum.mono hv fun j hj => hc.vote ((h.toMoved.hasVote_self hR).2 hj)
  refine ⟨V', hc, hknown, fun hi => hc.followed h.toMoved hR hatt (hf hi).1 fun {a d} hp hd => ?_⟩
  have overruled : ∀ {x}, R'.Contested desc x → a ≤ x → (V' R.seqno).Overruled (quorums few) a d := by
    intro x hx ha
    rw [← h.toMoved.seqno] at hd ⊢
    exact hknown.overruled hc.grown.inv hx ha hd
  rcases hc.new_precommit hp with hp | ⟨rfl, hp, -⟩
  · rcases hc.old_lock hV hi (hf hi).1 hp hd with hle | ho
    · rcases h.lock_kept i with hkept | hx
      · exact .inl (hle.trans hkept)
      · exact .inr (overruled hx hle)
    · exact .inr ho
  · rcases h.lock_set hp with hset | hx
    · exact .inl hset
    · exact .inr (overruled hx le_rfl)

/-- An implicit vote does no harm. An implicit precommit of a node that is not faulty would leave it without a lock. -/
theorem implied_ok (h : RoundState.Implied desc R i att A R') (hf : i ∉ faulty → RoundFollowed few V i R ∧ (V R.seqno).time i ≤ att)
    (hno : i ∉ faulty → ¬ (A.precommitted i = true ∧ (R.attempt_at att).precommitted i = false)) :
    ∃ V', Cast few V V' (R.enter_attempt i att) i att A R' ∧ RoundKnown few V' R' ∧ (i ∉ faulty → RoundFollowed few V' i R') := by
  have hE := RoundState.enter_attempt_valid hR i att
  have hq := (RoundState.enter_attempt_quiet R i att).1
  have hfE : i ∉ faulty → RoundFollowed few V i (R.enter_attempt i att) := fun hi => (hf hi).1.quiet hq
  obtain ⟨V', hc⟩ := cast_ok h.toMoved hE (hk.quiet hq) hV hatt fun hi => ⟨hfE hi, hq.seqno ▸ (hf hi).2⟩
  refine ⟨V', hc, hc.known h.toMoved fun hp => ?_, fun hi => hc.followed h.toMoved hE hatt (hfE hi) fun {a d} hp hd => ?_⟩
  · rw [h.flag] at hp
    cases hp
  · rcases hc.new_precommit hp with hp | ⟨rfl, hp, hnot⟩
    · rw [h.last_precommit, ← hq.last_precommit]
      exact hc.old_lock hV hi (hfE hi) hp hd
    · rw [RoundState.attempt_at_enter] at hnot
      exact absurd ⟨hp, hnot⟩ (hno hi)

end

theorem no_precommit_of_empty (hp : R.precommitted = false) (hempty : R.create_action desc i att = .ok (.empty R.seqno))
    (hone : (R.attempt_at att).make_one desc i att R' = .ok (A, true)) :
    ¬ (A.precommitted i = true ∧ (R.attempt_at att).precommitted i = false) := by
  rintro ⟨hA, hnot⟩
  rcases RoundAttemptState.make_one_cases hone with ⟨h, -⟩ | ⟨-, -, b, rfl, -⟩ | ⟨-, -, hpre, rfl, b, hb⟩
  · cases h
  · exact absurd (hA.symm.trans hnot) Bool.noConfusion
  · rw [RoundState.create_action, if_neg (by rw [hp]; exact Bool.false_ne_true)] at hempty
    cases hget : get_attempt R.attempts att with
    | none =>
      rw [RoundState.attempt_at, hget] at hb
      cases hb
    | some B =>
      have hB : R.attempt_at att = B := by rw [RoundState.attempt_at, hget]; rfl
      rw [hB] at hpre hb
      rw [hget] at hempty
      have hempty : B.create_action desc R i att = .ok (.empty R.seqno) := hempty
      rw [RoundAttemptState.create_action, hpre, hb] at hempty
      simp only [Bool.false_eq_true, if_false] at hempty
      split_ifs at hempty
      all_goals
        obtain ⟨o, -, hempty⟩ := Result.bind_ok.1 hempty
        cases o with
        | some c => cases hempty
        | none => cases hempty

theorem Known.of_old (ht : t.Valid desc) (hround : RoundKnown few V t.cur_round) (hs : Known few V s)
    (hold : SessionState.OldKept s t) : Known few V t := by
  refine ⟨ht, hround, fun k O hk => ?_⟩
  obtain ⟨O', hO', hb⟩ := hold k O hk
  exact hb ▸ hs.old k O' hO'

theorem cast_time (hcast : Cast few V V' R i att A R') (hf : ∀ k, (V k).time i ≤ att) (k : ℕ) : (V' k).time i ≤ att := by
  by_cases hk : k = R.seqno
  · subst hk
    exact hcast.time.trans (max_le (hf _) le_rfl)
  · rw [hcast.other hk]
    exact hf k

section
variable (hV : ∀ k, (V k).Inv (quorums few)) (hs : Known few V s) (ht : t.Valid desc) (hatt : 0 < att)
  (htime : t.att = NodeVec.change s.att i att) (hle : s.att i ≤ att)
include hV hs ht hatt htime hle

theorem change_ok (hc : SessionState.Change desc s i att t)
    (hf : i ∉ faulty → Followed few V i s) : ∃ V', Grown few i V V' ∧ Known few V' t ∧ (i ∉ faulty → Followed few V' i t) := by
  have hti : t.att i = att := by rw [htime]; exact update_self ..
  have htime : i ∉ faulty → ∀ k, (V k).time i ≤ att := fun hi k => ((hf hi).time k).trans hle
  obtain ⟨hq, -, -⟩ := RoundState.enter_attempt_quiet s.cur_round i att
  cases hc with
  | quiet round old =>
    exact ⟨V, .refl hV i, .of_old ht (hs.round.quiet round) hs old,
      fun hi => ⟨(hf hi).round.quiet round, fun k => hti ▸ htime hi k⟩⟩
  | forwarded A round old =>
    obtain ⟨V', hcast, hknown, hfollowed⟩ := forwarded_ok hV (RoundState.enter_attempt_valid hs.valid.round i att) (hs.round.quiet hq)
      hatt round fun hi => ⟨(hf hi).round.quiet hq, htime hi _⟩
    exact ⟨V', hcast.grown, .of_old ht hknown (hs.mono hcast.grown) old,
      fun hi => ⟨hfollowed hi, fun k => hti ▸ cast_time hcast (htime hi) k⟩⟩
  | closed flag round old =>
    refine ⟨V, .refl hV i, ⟨ht, round ▸ roundKnown_create _, fun k O hk => ?_⟩, fun hi => ⟨?_, fun k => hti ▸ htime hi k⟩⟩
    · rcases old k O hk with ⟨O', hO', hb⟩ | ⟨rfl, hb⟩
      · exact hb ▸ hs.old k O' hO'
      · exact hb ▸ hs.round.decided flag
    · rw [round]
      exact roundFollowed_create fun hk => (hf hi).round.ahead hk

theorem madeOne_ok (hm : SessionState.MadeOne desc s i att t)
    (hf : i ∉ faulty → Followed few V i s ∧ s.create_action desc i att = .ok (.empty s.cur_round.seqno)) :
    ∃ V', Grown few i V V' ∧ Known few V' t ∧ (i ∉ faulty → Followed few V' i t) := by
  have hti : t.att i = att := by rw [htime]; exact update_self ..
  have htime : i ∉ faulty → ∀ k, (V k).time i ≤ att := fun hi k => ((hf hi).1.time k).trans hle
  obtain ⟨hq, -, -⟩ := RoundState.enter_attempt_quiet s.cur_round i att
  cases hm with
  | quiet round _ old =>
    exact ⟨V, .refl hV i, ⟨ht, hs.round.quiet round, fun k O hk => hs.old k O (old ▸ hk)⟩,
      fun hi => ⟨(hf hi).1.round.quiet round, fun k => hti ▸ htime hi k⟩⟩
  | implied A round old =>
    have hp : s.cur_round.precommitted = false := hq.precommitted ▸ round.not_precommitted
    obtain ⟨V', hcast, hknown, hfollowed⟩ := implied_ok hV hs.valid.round hs.round hatt round
      (fun hi => ⟨(hf hi).1.round, htime hi _⟩) fun hi => no_precommit_of_empty hp (hf hi).2 round.made
    exact ⟨V', hcast.grown, ⟨ht, hknown, fun k O hk => hcast.grown.committed (hs.old k O (old ▸ hk))⟩,
      fun hi => ⟨hfollowed hi, fun k => hti ▸ cast_time hcast (htime hi) k⟩⟩

end

/-! ## Merges -/

theorem Known.agree {l r : SessionState n} (hV : ∀ k, (V k).Inv (quorums few)) (hl : Known few V l) (hr : Known few V r) :
    SessionState.Agree desc l r :=
  SessionState.Decided.agree (D := fun k c => (V k).Committed (quorums few) c) (fun k _ _ hc hd => (hV k).committed_unique hc hd)
    ⟨hl.old, hl.round.decided⟩ ⟨hr.old, hr.round.decided⟩

section Merge
variable {l r : SessionState n} (hV : ∀ k, (V k).Inv (quorums few)) (hl : Known few V l) (hr : Known few V r)
include hl hr

theorem merged_known (hseqno : l.cur_round.seqno = r.cur_round.seqno) (h : RoundState.Merged p desc l.cur_round r.cur_round R)
    (hid : l.cur_round.precommitted = true ∧ r.cur_round.precommitted = true →
      get_block_id desc l.cur_round.precommitted_block = get_block_id desc r.cur_round.precommitted_block)
    (hR : R.Valid desc) : RoundKnown few V R := by
  have hvote : ∀ {a c j}, R.HasVote desc a c j → j ∈ (V R.seqno).vote a c := by
    intro a c j hv
    rw [h.seqno]
    rcases (RoundState.AttemptsUnion.hasVote hl.valid.round hr.valid.round h.attempts).1 hv with hv | hv
    · exact hl.round.vote hv
    · exact hseqno ▸ hr.round.vote hv
  have hpre : ∀ {a j}, R.HasPrecommit a j → j ∈ (V R.seqno).precommit a := by
    intro a j hp
    rw [h.seqno]
    rcases (RoundState.AttemptsUnion.hasPrecommit hl.valid.round hr.valid.round h.attempts).1 hp with hp | hp
    · exact hl.round.precommit hp
    · exact hseqno ▸ hr.round.precommit hp
  refine ⟨hvote, hpre, fun hp => ?_⟩
  cases hpl : l.cur_round.precommitted with
  | true =>
    rw [h.seqno, (h.block_left hr.valid.round hpl fun hpr => hid ⟨hpl, hpr⟩).2]
    exact hl.round.decided hpl
  | false =>
    cases hpr : r.cur_round.precommitted with
    | true =>
      rw [h.seqno, (h.block_right hl.valid.round hpr fun hpl => hid ⟨hpl, hpr⟩).2, hseqno]
      exact hr.round.decided hpr
    | false =>
      obtain ⟨B, hB, hq, hvoted⟩ := (h.block_new hpl hpr).1 hp
      have hget := hR.attempts_sorted.find_of_mem hB
      refine ⟨B.seqno, IsQuorum.mono (RoundState.Precommitted.of_attempt hget hq) fun j => hpre, ?_⟩
      have hv := (RoundAttemptState.votedFor_of_voted (hR.attempt B hB).votes_sorted hvoted).1
      exact IsQuorum.mono (RoundState.VotedFor.of_attempt hget hv) fun j => hvote

theorem roundOf_known (h : SessionState.RoundOf p desc l r R) (hR : R.Valid desc) (hagree : SessionState.Agree desc l r) :
    RoundKnown few V R := by
  cases h with
  | left => exact hl.round
  | right => exact hr.round
  | same => exact hl.round
  | merged hseqno h => exact merged_known hl hr hseqno h (hagree.round hseqno) hR

include hV

/-- The merge shows what the node's own state showed, and its locks cover the same attempts. -/
theorem roundOf_followed (h : SessionState.RoundOf p desc l r R) (hR : R.Valid desc) (hRk : RoundKnown few V R)
    (hf : RoundFollowed few V i l.cur_round) : RoundFollowed few V i R := by
  cases h with
  | left => exact hf
  | same => exact hf
  | right hlt =>
    obtain ⟨hv, hp⟩ := hf.ahead hlt
    exact ⟨fun h => absurd h (hv _ _), fun h => absurd h (hp _), fun hk => hf.ahead (hlt.trans hk), fun h _ => absurd h (hp _)⟩
  | merged hseqno h =>
    have hu := h.attempts
    refine ⟨fun hv => ?_, fun hp => ?_, fun hk => hf.ahead (h.seqno ▸ hk), fun {a d} hp hd => ?_⟩
    · exact (RoundState.AttemptsUnion.hasVote hl.valid.round hr.valid.round hu).2 (.inl (hf.vote (h.seqno ▸ hv)))
    · exact (RoundState.AttemptsUnion.hasPrecommit hl.valid.round hr.valid.round hu).2 (.inl (hf.precommit (h.seqno ▸ hp)))
    · rcases hf.lock (h.seqno ▸ hp) (h.seqno ▸ hd) with hle | ho
      · have hle := hle.trans (le_max_left _ (r.cur_round.last_precommit i))
        exact (h.lock_kept hR i).imp hle.trans fun hx => hRk.overruled hV hx hle hd
      · exact .inr (h.seqno.symm ▸ ho)

/-- Merging never fails but on a null vector, and shows no other votes. -/
theorem known_merge (hm : SessionState.Mergeable p l r) : ∃ t, l.merge p desc r = .ok t ∧ Known few V t ∧
    ∀ i, Followed few V i l → Followed few V i t := by
  have hagree := hl.agree hV hr
  obtain ⟨t, ht, hvalid, ⟨-, rfl, rfl⟩ | ⟨R, h⟩⟩ := SessionState.merge_ok hl.valid hr.valid hagree hm
  · exact ⟨t, ht, hl, fun _ => id⟩
  · have hRk := roundOf_known hl hr h.round h.valid hagree
    have hfrom : ∀ {k O}, SessionState.OldFrom desc l r k O → (V k).Committed (quorums few) (get_block_id desc O.block) := by
      intro k O h
      rcases h.block with ⟨O', hO', hb⟩ | ⟨O', hO', hb⟩
      · exact hb ▸ hl.old k O' hO'
      · exact hb ▸ hr.old k O' hO'
    have htime : ∀ i, Followed few V i l → ∀ k, (V k).time i ≤ t.att i := by
      intro i hf k
      rw [h.att]
      exact (hf.time k).trans (le_max_left _ _)
    rcases h.closed with ⟨hcur, hold⟩ | ⟨hp, -, hcur, v, O, hv, hlen, hold, hb⟩
    · exact ⟨t, ht, ⟨hvalid, hcur ▸ hRk, fun k O hk => hfrom (hold k O hk)⟩,
        fun i hf => ⟨hcur ▸ roundOf_followed hV hl hr h.round h.valid hRk hf.round, htime i hf⟩⟩
    · refine ⟨t, ht, ⟨hvalid, hcur ▸ roundKnown_create _, fun k O' hk => ?_⟩, fun i hf => ⟨hcur ▸ roundFollowed_create ?_, htime i hf⟩⟩
      · rw [hv, getElem?_append] at hk
        split_ifs at hk with hlt
        · exact hfrom (hold k O' hk)
        · obtain ⟨hlt', rfl⟩ := List.getElem?_eq_some_iff.1 hk
          obtain rfl : k = R.seqno := by
            simp only [length_singleton] at hlt'
            omega
          rw [getElem_singleton, hb.block]
          exact hRk.decided hp
      · intro k hk
        exact (roundOf_followed hV hl hr h.round h.valid hRk hf.round).ahead hk

end Merge

/-! ## Runs -/

/-- All states show votes of `V` only, and what the nodes that are not faulty did is in their own states. -/
structure Coherent (few : FewFaulty desc faulty) (V : Ballots n) (σ : Network n) : Prop where
  inv : ∀ k, (V k).Inv (quorums few)
  known : ∀ s ∈ σ.states, Known few V s
  own : ∀ i, σ.own i ∈ σ.states
  followed : ∀ i ∉ faulty, Followed few V i (σ.own i)

variable {σ σ' : Network n} {allowed : SessionState n → Fin n → ℕ → Prop}

theorem coherent_create : Coherent few (fun _ => Votes.none) Network.create where
  inv _ := Votes.inv_none fun h => by
    obtain ⟨j, hj⟩ := (show desc.IsQuorum _ from h).nonempty
    exact hj
  known s hs := by
    obtain rfl : s = SessionState.create := hs
    exact ⟨SessionState.valid_create, roundKnown_create 0, fun _ _ => (nomatch ·)⟩
  own _ := rfl
  followed _ _ := ⟨roundFollowed_create fun _ => ⟨fun _ _ => id, fun _ => id⟩, fun _ => le_rfl⟩

theorem Coherent.put (h : Coherent few V σ) (hg : Grown few i V V') (ht : Known few V' t) (hf : i ∉ faulty → Followed few V' i t) :
    Coherent few V' (σ.put i t) where
  inv := hg.inv
  known s hs := by
    rcases hs with rfl | hs
    · exact ht
    · exact (h.known s hs).mono hg
  own j := by
    by_cases hj : j = i
    · subst hj
      rw [σ.put_self]
      exact .inl rfl
    · rw [σ.put_of_ne hj]
      exact .inr (h.own j)
  followed j hj := by
    by_cases hji : j = i
    · subst hji
      rw [σ.put_self]
      exact hf hj
    · rw [σ.put_of_ne hji]
      exact (h.followed j hj).mono h.inv hg hj hji

theorem Coherent.merged (h : Coherent few V σ) {l r : SessionState n} (hl : l ∈ σ.states) (hr : r ∈ σ.states)
    (ht : l.merge p desc r = .ok t) : Known few V t ∧ ∀ i, Followed few V i l → Followed few V i t := by
  by_cases hm : SessionState.Mergeable p l r
  · obtain ⟨t', ht', hk, hf⟩ := known_merge h.inv (h.known l hl) (h.known r hr) hm
    cases ht.symm.trans ht'
    exact ⟨hk, hf⟩
  · cases ht.symm.trans (SessionState.merge_null (h.known l hl).valid (h.known r hr).valid ((h.known l hl).agree h.inv (h.known r hr)) hm)

theorem Coherent.step (h : Coherent few V σ) (hstep : Network.Step desc faulty allowed σ σ') : ∃ V', Coherent few V' σ' := by
  cases hstep with
  | observe p hl hr hm =>
    refine ⟨V, h.inv, fun s hs => ?_, fun i => .inr (h.own i), h.followed⟩
    rcases hs with rfl | hs
    · exact (h.merged hl hr hm).1
    · exact h.known s hs
  | merge p i hr hm =>
    obtain ⟨hk, hf⟩ := h.merged (h.own i) hr hm
    exact ⟨V, h.put (.refl h.inv i) hk fun hi => hf i (h.followed i hi)⟩
  | @action i att act s t hs own ha =>
    obtain ⟨t', ht', hv, htime, hc⟩ := SessionState.action_ok (h.known s hs).valid i att act
    cases ha.symm.trans ht'
    obtain ⟨hpos, hle⟩ := SessionState.clamp_pos s i att
    obtain ⟨V', hg, hk, hf⟩ := change_ok h.inv (h.known s hs) hv hpos htime hle hc fun hi => own hi ▸ h.followed i hi
    exact ⟨V', h.put hg hk hf⟩
  | @make_one i att s t made hs own _ hm =>
    obtain ⟨t', m, ht', hv, -, -, htime, hc⟩ := SessionState.make_one_ok (h.known s hs).valid i att
    cases hm.symm.trans ht'
    obtain ⟨hpos, hle⟩ := SessionState.clamp_pos s i att
    obtain ⟨V', hg, hk, hf⟩ := madeOne_ok h.inv (h.known s hs) hv hpos htime hle hc
      fun hi => ⟨(own hi).1 ▸ h.followed i hi, (own hi).2⟩
    exact ⟨V', h.put hg hk hf⟩

theorem Coherent.run (few : FewFaulty desc faulty) (h : Network.ReachableBy desc faulty allowed σ) : ∃ V, Coherent few V σ := by
  induction h with
  | refl => exact ⟨_, coherent_create⟩
  | tail _ hstep ih =>
    obtain ⟨V, hV⟩ := ih
    exact hV.step hstep

/-! ## Runs that are written out -/

def Pointers.distinct : Pointers := ⟨fun _ _ => false, (nomatch ·)⟩

/-- One step of node `i`: a merge with the last state of another node, an action, or an implicit action of a faulty node. -/
inductive Move (n : ℕ) where
  | merge (i j : Fin n)
  | action (i : Fin n) (att : ℕ) (act : Message)
  | make_one (i : Fin n) (att : ℕ)

/-- The last states of all nodes after a move. -/
def Move.apply (desc : Description n) (own : Fin n → SessionState n) : Move n → Exc (Fin n → SessionState n)
  | .merge i j => Function.update own i <$> (own i).merge .distinct desc (own j)
  | .action i att act => Function.update own i <$> (own i).action desc i att act
  | .make_one i att => (fun t => Function.update own i t.1) <$> (own i).make_one desc i att

def Move.isFaulty (faulty : Fin n → Bool) : Move n → Bool
  | .make_one i _ => faulty i
  | _ => true

/-- The last states of all nodes after the moves. -/
def play (desc : Description n) : List (Move n) → (Fin n → SessionState n) → Exc (Fin n → SessionState n)
  | [], own => .ok own
  | m :: ms, own => do
    let own ← m.apply desc own
    play desc ms own

theorem play_reachable {faulty : Fin n → Bool} (hallowed : ∀ s i att, faulty i = true → allowed s i att) {ms : List (Move n)}
    (hms : ms.all (·.isFaulty faulty) = true) {own own' : Fin n → SessionState n} (h : play desc ms own = .ok own') (σ : Network n)
    (hσ : σ.own = own) (hmem : ∀ i, σ.own i ∈ σ.states) (hr : Network.ReachableBy desc {i | faulty i = true} allowed σ) :
    ∃ σ', Network.ReachableBy desc {i | faulty i = true} allowed σ' ∧ σ'.own = own' ∧ (∀ i, σ'.own i ∈ σ'.states) ∧ σ.states ⊆ σ'.states := by
  induction ms generalizing σ own with
  | nil =>
    cases h
    exact ⟨σ, hr, hσ, hmem, fun _ => id⟩
  | cons m ms ih =>
    obtain ⟨hm, hms⟩ := Bool.and_eq_true_iff.1 (all_cons ▸ hms)
    obtain ⟨own1, hown, hrest⟩ := Result.bind_ok.1 h
    -- one move forms one state
    have step : ∃ i t, own1 = Function.update own i t ∧ Network.Step desc {i | faulty i = true} allowed σ (σ.put i t) := by
      subst hσ
      cases m with
      | merge i j =>
        obtain ⟨t, ht, rfl⟩ := Result.map_ok hown
        exact ⟨i, t, rfl, .merge .distinct i (hmem j) ht⟩
      | action i att act =>
        obtain ⟨t, ht, rfl⟩ := Result.map_ok hown
        exact ⟨i, t, rfl, .action i att act (hmem i) (fun _ => rfl) ht⟩
      | make_one i att =>
        obtain ⟨t, ht, rfl⟩ := Result.map_ok hown
        exact ⟨i, t.1, rfl, .make_one i att (hmem i) (fun hi => absurd hm hi) (hallowed _ i att hm) ht⟩
    obtain ⟨i, t, rfl, hstep⟩ := step
    have hmem' : ∀ j, (σ.put i t).own j ∈ (σ.put i t).states := by
      intro j
      by_cases hj : j = i
      · subst hj
        rw [σ.put_self]
        exact .inl rfl
      · rw [σ.put_of_ne hj]
        exact .inr (hmem j)
    obtain ⟨σ', hσ', hown', hmem', hsub⟩ := ih hms hrest _ (congrArg (Function.update · i t) hσ) hmem' (hr.tail hstep)
    exact ⟨σ', hσ', hown', hmem', fun _ hs => hsub (.inr hs)⟩

section
variable (desc : Description n) (faulty : Fin n → Bool) (allowed : SessionState n → Fin n → ℕ → Prop)
  (hallowed : ∀ s i att, faulty i = true → allowed s i att)
include hallowed

theorem exists_played (ms : List (Move n)) (hms : ms.all (·.isFaulty faulty) = true) (P : (Fin n → SessionState n) → Bool)
    (h : Result.satisfies P (play desc ms fun _ => .create) = true) :
    ∃ σ own, Network.ReachableBy desc {i | faulty i = true} allowed σ ∧ (∀ i, own i ∈ σ.states) ∧ SessionState.create ∈ σ.states ∧
      P own = true := by
  obtain ⟨own, hplay, hP⟩ := Result.exists_of_satisfies h
  obtain ⟨σ, hσ, rfl, hmem, hsub⟩ := play_reachable hallowed hms hplay .create rfl (fun _ => rfl) .refl
  exact ⟨σ, σ.own, hσ, hmem, hsub rfl, hP⟩

theorem exists_played_on (ms ms' : List (Move n)) (hms : ms.all (·.isFaulty faulty) = true) (hms' : ms'.all (·.isFaulty faulty) = true)
    (P : (Fin n → SessionState n) → (Fin n → SessionState n) → Bool)
    (h : Result.satisfies (fun own => Result.satisfies (P own) (play desc ms' own)) (play desc ms fun _ => .create) = true) :
    ∃ σ own own', Network.ReachableBy desc {i | faulty i = true} allowed σ ∧ (∀ i, own i ∈ σ.states) ∧ (∀ i, own' i ∈ σ.states) ∧
      P own own' = true := by
  obtain ⟨own, hplay, h⟩ := Result.exists_of_satisfies h
  obtain ⟨own', hplay', hP⟩ := Result.exists_of_satisfies h
  obtain ⟨σ, hσ, hown, hmem, -⟩ := play_reachable hallowed hms hplay .create rfl (fun _ => rfl) .refl
  obtain ⟨σ', hσ', rfl, hmem', hsub⟩ := play_reachable hallowed hms' hplay' σ hown hmem hσ
  exact ⟨σ', own, σ'.own, hσ', fun i => hsub (hown ▸ hmem i), hmem', hP⟩

end

/-- Four nodes of weight 1; a signature is valid when it is the byte 7. -/
def fourNodes : Description 4 where
  get_node_weight _ := 1
  weights_lt := by decide
  round_candidates := 2
  max_round_attempts := 4
  candidate_id i x y z := Nat.pair i (Nat.pair x (Nat.pair y z)) + 1
  check_signature _ _ _ sig := sig = [7]
  check_approve_signature _ _ _ sig := sig = [7]
  candidate_id_inj h := by
    simp only [Nat.add_right_cancel_iff, Nat.pair_eq_pair] at h
    exact ⟨Fin.ext h.1, h.2.1, h.2.2.1, h.2.2.2⟩
  candidate_id_ne_skip _ _ _ _ := Nat.succ_ne_zero _

def lastFaulty (i : Fin 4) : Bool := i = 3

theorem few_lastFaulty : FewFaulty fourNodes {i | lastFaulty i = true} := by
  constructor <;> simp [weigh, fourNodes, lastFaulty, get_total_weight]

theorem few_none : FewFaulty fourNodes {i | (fun _ => false : Fin 4 → Bool) i = true} := by
  constructor <;> simp [weigh, fourNodes, get_total_weight]

/-- The block that node 0 proposes. -/
def firstBlock : SentBlock 4 := ⟨0, 1, 2, 3⟩

def firstId : CandidateId := get_block_id fourNodes (some firstBlock)

/-- Node 0 proposes a block, nodes 0, 1 and 2 approve and vote for it, nodes 0 and 1 precommit it. -/
def firstVotes : List (Move 4) :=
  [.action 0 1024 (.submittedBlock 0 1 2 3), .action 0 1024 (.approvedBlock 0 firstId [7]), .action 0 1024 (.empty 0),
    .merge 1 0, .action 1 1024 (.approvedBlock 0 firstId [7]), .merge 2 1, .action 2 1024 (.approvedBlock 0 firstId [7]),
    .action 2 1024 (.vote 0 firstId), .merge 0 2, .action 0 1024 (.vote 0 firstId), .merge 1 0, .action 1 1024 (.vote 0 firstId),
    .action 1 1024 (.precommit 0 firstId), .merge 0 1, .action 0 1024 (.precommit 0 firstId)]

/-- Node 2 precommits too, and the three nodes sign the block. -/
def firstSigned : List (Move 4) :=
  firstVotes ++ [.merge 2 0, .action 2 1024 (.precommit 0 firstId), .action 2 1024 (.commit 0 firstId [7]), .merge 0 2,
    .action 0 1024 (.commit 0 firstId [7]), .merge 1 0, .action 1 1024 (.commit 0 firstId [7]), .action 1 1024 (.empty 1), .merge 0 1]

/-- The block that node 1 proposes in the next round. -/
def secondBlock : SentBlock 4 := ⟨1, 1, 2, 3⟩

def secondId : CandidateId := get_block_id fourNodes (some secondBlock)

/-- All three sign the first block, and no state has seen all signatures. -/
def firstHalves : List (Move 4) :=
  firstVotes ++ [.merge 2 0, .action 2 1024 (.precommit 0 firstId), .merge 0 2, .merge 1 2, .action 0 1024 (.commit 0 firstId [7]),
    .action 1 1024 (.commit 0 firstId [7]), .merge 2 1, .action 2 1024 (.commit 0 firstId [7])]

/-- The next round up to the third precommit, which is implicit. -/
def secondVotes : List (Move 4) :=
  [.merge 1 0, .merge 1 2, .action 1 1024 (.submittedBlock 1 1 2 3), .action 1 1024 (.approvedBlock 1 secondId [7]),
    .action 1 1024 (.empty 1), .merge 2 1, .action 2 1024 (.approvedBlock 1 secondId [7]), .merge 0 2,
    .action 0 1024 (.approvedBlock 1 secondId [7]), .action 0 1024 (.vote 1 secondId), .merge 1 0, .action 1 1024 (.vote 1 secondId),
    .merge 2 1, .action 2 1024 (.vote 1 secondId), .action 2 1024 (.precommit 1 secondId), .merge 1 2,
    .action 1 1024 (.precommit 1 secondId), .merge 3 1, .make_one 3 1024, .make_one 3 1024]

end Ton.Session
