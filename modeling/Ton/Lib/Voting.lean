import Mathlib.Data.Set.Basic
import Mathlib.Logic.Function.Basic
import Mathlib.Algebra.BigOperators.Group.Finset.Basic
import Mathlib.Algebra.Order.BigOperators.Group.Finset
/-!
# Voting with locks

Nodes vote for blocks in numbered attempts, and precommit attempts in which a
quorum voted. A node that follows the rules never goes back to an earlier
attempt, votes once in each, and after it precommitted an attempt votes against
its block only if some later attempt was won by another block. No two blocks
can then be committed, whatever the other nodes do.
-/

namespace Voting

/-- Sets of nodes, any two of which share a node that follows the rules. -/
structure Quorums (N : Type) where
  IsQuorum : Set N → Prop
  honest : Set N
  mono : ∀ {A B : Set N}, A ⊆ B → IsQuorum A → IsQuorum B
  meet : ∀ {A B : Set N}, IsQuorum A → IsQuorum B → ∃ i ∈ honest, i ∈ A ∧ i ∈ B

/-- All votes and precommits made so far. `time` is an attempt that a node
has reached. -/
structure Votes (N B : Type) where
  vote : ℕ → B → Set N
  precommit : ℕ → Set N
  time : N → ℕ

namespace Votes

variable {N B : Type} (q : Quorums N)

def none : Votes N B := ⟨fun _ _ => ∅, fun _ => ∅, fun _ => 0⟩

def Voted (V : Votes N B) (a : ℕ) (b : B) : Prop := q.IsQuorum (V.vote a b)

def Committed (V : Votes N B) (b : B) : Prop := ∃ a, q.IsQuorum (V.precommit a) ∧ V.Voted q a b

/-- A later attempt than `a` was won by another block than `b`. -/
def Overruled (V : Votes N B) (a : ℕ) (b : B) : Prop := ∃ e d, a < e ∧ d ≠ b ∧ V.Voted q e d

/-- What stops a node that precommitted attempts from voting against their blocks. -/
def Free (V : Votes N B) (i : N) (b : B) : Prop :=
  ∀ e c, i ∈ V.precommit e → V.Voted q e c → c = b ∨ V.Overruled q e c

/-- `stuck`: once the block of an attempt is overruled, every quorum has a node
that did not precommit that attempt and no longer will. -/
structure Inv (V : Votes N B) : Prop where
  once : ∀ i ∈ q.honest, ∀ a b c, i ∈ V.vote a b → i ∈ V.vote a c → b = c
  vote_time : ∀ i ∈ q.honest, ∀ a b, i ∈ V.vote a b → a ≤ V.time i
  precommit_time : ∀ i ∈ q.honest, ∀ a, i ∈ V.precommit a → a ≤ V.time i
  precommit_voted : ∀ i ∈ q.honest, ∀ a, i ∈ V.precommit a → ∃ b, V.Voted q a b
  turned : ∀ i ∈ q.honest, ∀ a c e d, i ∈ V.precommit a → V.Voted q a c → i ∈ V.vote e d → a < e → d ≠ c →
    V.Overruled q a c
  stuck : ∀ a c, V.Voted q a c → V.Overruled q a c → ∀ Q, q.IsQuorum Q →
    ∃ i ∈ q.honest, i ∈ Q ∧ i ∉ V.precommit a ∧ a < V.time i

variable {q} {V V' : Votes N B}

theorem inv_none (hq : ¬ q.IsQuorum ∅) : (none : Votes N B).Inv q where
  once _ _ _ _ _ h := h.elim
  vote_time _ _ _ _ h := h.elim
  precommit_time _ _ _ h := h.elim
  precommit_voted _ _ _ h := h.elim
  turned _ _ _ _ _ _ h := h.elim
  stuck _ _ h := absurd h hq

theorem Inv.voted_unique (hV : V.Inv q) {a : ℕ} {b c : B} (hb : V.Voted q a b) (hc : V.Voted q a c) : b = c := by
  obtain ⟨i, hi, hib, hic⟩ := q.meet hb hc
  exact hV.once i hi a b c hib hic

theorem Inv.committed_unique (hV : V.Inv q) {b c : B} (hb : V.Committed q b) (hc : V.Committed q c) : b = c := by
  have main : ∀ {b c : B} {a e : ℕ}, q.IsQuorum (V.precommit a) → V.Voted q a b → V.Voted q e c → a < e → c = b := by
    intro b c a e hpa hva hve hae
    by_contra hne
    obtain ⟨i, -, hi, hn, -⟩ := hV.stuck a b hva ⟨e, c, hae, hne, hve⟩ _ hpa
    exact hn hi
  obtain ⟨a, hpa, hva⟩ := hb
  obtain ⟨e, hpe, hve⟩ := hc
  rcases lt_trichotomy a e with h | rfl | h
  · exact (main hpa hva hve h).symm
  · exact hV.voted_unique hva hve
  · exact main hpe hve hva h

variable [DecidableEq N]

def addVote (V : Votes N B) (i : N) (a : ℕ) (b : B) : Votes N B where
  vote a' b' := {j | j ∈ V.vote a' b' ∨ (j = i ∧ a' = a ∧ b' = b)}
  precommit := V.precommit
  time := Function.update V.time i (max (V.time i) a)

def addPrecommit (V : Votes N B) (i : N) (a : ℕ) : Votes N B where
  vote := V.vote
  precommit a' := {j | j ∈ V.precommit a' ∨ (j = i ∧ a' = a)}
  time := Function.update V.time i (max (V.time i) a)

section Grow

theorem le_time (V : Votes N B) (i j : N) (a : ℕ) : V.time j ≤ Function.update V.time i (max (V.time i) a) j := by
  by_cases h : j = i
  · subst h; simp
  · simp [h]

theorem Voted.addVote {a : ℕ} {b : B} (h : V.Voted q a b) (i : N) (e : ℕ) (d : B) : (V.addVote i e d).Voted q a b :=
  q.mono (fun _ hj => Or.inl hj) h

theorem Overruled.addVote {a : ℕ} {b : B} (h : V.Overruled q a b) (i : N) (e : ℕ) (d : B) :
    (V.addVote i e d).Overruled q a b := by
  obtain ⟨e', d', hlt, hne, hv⟩ := h
  exact ⟨e', d', hlt, hne, hv.addVote i e d⟩

end Grow

theorem Inv.addPrecommit (hV : V.Inv q) {i : N} {a : ℕ}
    (rules : i ∈ q.honest → V.time i ≤ a ∧ ∃ b, V.Voted q a b) : (V.addPrecommit i a).Inv q where
  once := hV.once
  vote_time j hj e b h := (hV.vote_time j hj e b h).trans (le_time V i j a)
  precommit_time j hj e h := by
    rcases h with h | ⟨rfl, rfl⟩
    · exact (hV.precommit_time j hj e h).trans (le_time V i j a)
    · simp [Votes.addPrecommit]
  precommit_voted j hj e h := by
    rcases h with h | ⟨rfl, rfl⟩
    · exact hV.precommit_voted j hj e h
    · exact (rules hj).2
  turned j hj e c f d hp hv hd hlt hne := by
    rcases hp with hp | ⟨rfl, rfl⟩
    · exact hV.turned j hj e c f d hp hv hd hlt hne
    · -- the node has voted in a later attempt already
      have hle := (hV.vote_time j hj f d hd).trans (rules hj).1
      omega
  stuck e c hv ho Q hQ := by
    obtain ⟨j, hj, hjQ, hjp, hjt⟩ := hV.stuck e c hv ho Q hQ
    refine ⟨j, hj, hjQ, ?_, hjt.trans_le (le_time V i j a)⟩
    rintro (h | ⟨rfl, rfl⟩)
    · exact hjp h
    · have := (rules hj).1
      omega

theorem Inv.once_addVote (hV : V.Inv q) {i : N} {a : ℕ} {b : B}
    (rules : i ∈ q.honest → ∀ c, i ∉ V.vote a c) {j : N} (hj : j ∈ q.honest) {e : ℕ} {c d : B}
    (hc : j ∈ (V.addVote i a b).vote e c) (hd : j ∈ (V.addVote i a b).vote e d) : c = d := by
  rcases hc with hc | ⟨rfl, rfl, rfl⟩ <;> rcases hd with hd | ⟨h, h', rfl⟩
  · exact hV.once j hj e c d hc hd
  · subst h h'
    exact absurd hc (rules hj c)
  · exact absurd hd (rules hj d)
  · rfl

theorem Inv.addVote (hV : V.Inv q) {i : N} {a : ℕ} {b : B}
    (rules : i ∈ q.honest → V.time i ≤ a ∧ (∀ c, i ∉ V.vote a c) ∧ V.Free q i b) : (V.addVote i a b).Inv q := by
  have once : ∀ j ∈ q.honest, ∀ e c d, j ∈ (V.addVote i a b).vote e c → j ∈ (V.addVote i a b).vote e d → c = d :=
    fun j hj e c d => hV.once_addVote (fun hi => (rules hi).2.1) hj
  have unique : ∀ e c d, (V.addVote i a b).Voted q e c → (V.addVote i a b).Voted q e d → c = d := by
    intro e c d hc hd
    obtain ⟨j, hj, hjc, hjd⟩ := q.meet hc hd
    exact once j hj e c d hjc hjd
  have time : ∀ j ∈ q.honest, ∀ e c, j ∈ (V.addVote i a b).vote e c → e ≤ (V.addVote i a b).time j := by
    rintro j hj e c (h | ⟨rfl, rfl, rfl⟩)
    · exact (hV.vote_time j hj e c h).trans (le_time V i j a)
    · simp [Votes.addVote]
  have turned : ∀ j ∈ q.honest, ∀ e c f d, j ∈ V.precommit e → (V.addVote i a b).Voted q e c →
      j ∈ (V.addVote i a b).vote f d → e < f → d ≠ c → V.Overruled q e c := by
    intro j hj e c f d hp hv hd hlt hne
    obtain ⟨c', hc'⟩ := hV.precommit_voted j hj e hp
    obtain rfl := unique e c c' hv (hc'.addVote i a b)
    rcases hd with hd | ⟨rfl, rfl, rfl⟩
    · exact hV.turned j hj e c f d hp hc' hd hlt hne
    · exact ((rules hj).2.2 e c hp hc').resolve_left (Ne.symm hne)
  refine ⟨once, time, ?_, ?_, ?_, ?_⟩
  · exact fun j hj e h => (hV.precommit_time j hj e h).trans (le_time V i j a)
  · intro j hj e h
    obtain ⟨c, hc⟩ := hV.precommit_voted j hj e h
    exact ⟨c, hc.addVote i a b⟩
  · exact fun j hj e c f d hp hv hd hlt hne => (turned j hj e c f d hp hv hd hlt hne).addVote i a b
  · intro e c hv ho Q hQ
    by_cases hold : V.Voted q e c ∧ V.Overruled q e c
    · obtain ⟨j, hj, hjQ, hjp, hjt⟩ := hV.stuck e c hold.1 hold.2 Q hQ
      exact ⟨j, hj, hjQ, hjp, hjt.trans_le (le_time V i j a)⟩
    · -- a voter of the overruling block is past `e`; had it precommitted `e`, that would have been overruled before
      obtain ⟨f, d, hlt, hne, hd⟩ := ho
      obtain ⟨j, hj, hjQ, hjd⟩ := q.meet hQ hd
      refine ⟨j, hj, hjQ, fun hp => hold ?_, hlt.trans_le (time j hj f d hjd)⟩
      obtain ⟨c', hc'⟩ := hV.precommit_voted j hj e hp
      obtain rfl := unique e c c' hv (hc'.addVote i a b)
      exact ⟨hc', turned j hj e c f d hp hv hjd hlt hne⟩

end Votes

section Weights
variable {N : Type} [Fintype N] (weight : N → ℕ)

open Classical in
noncomputable def weigh (S : Set N) : ℕ := ∑ i, if i ∈ S then weight i else 0

theorem weigh_mono {A B : Set N} (h : A ⊆ B) : weigh weight A ≤ weigh weight B := by
  refine Finset.sum_le_sum fun i _ => ?_
  by_cases hi : i ∈ A
  · rw [if_pos hi, if_pos (h hi)]
  · rw [if_neg hi]
    exact Nat.zero_le _

theorem weigh_empty : weigh weight ∅ = 0 := Finset.sum_eq_zero fun i _ => if_neg (Set.notMem_empty i)

theorem weigh_univ : weigh weight Set.univ = ∑ i, weight i := Finset.sum_congr rfl fun i _ => if_pos (Set.mem_univ i)

theorem weigh_add (A B : Set N) : weigh weight A + weigh weight B = weigh weight (A ∪ B) + weigh weight (A ∩ B) := by
  unfold weigh
  rw [← Finset.sum_add_distrib, ← Finset.sum_add_distrib]
  refine Finset.sum_congr rfl fun i _ => ?_
  by_cases hA : i ∈ A <;> by_cases hB : i ∈ B <;> simp [hA, hB]

/-- Two sets of weight `cutoff` share a node that is not in `faulty`. -/
theorem exists_common {cutoff : ℕ} {A B faulty : Set N} (hA : cutoff ≤ weigh weight A) (hB : cutoff ≤ weigh weight B)
    (h : ∑ i, weight i + weigh weight faulty < 2 * cutoff) : ∃ i ∉ faulty, i ∈ A ∧ i ∈ B := by
  by_contra hno
  have hsub : A ∩ B ⊆ faulty := fun i hi => by_contra fun hf => hno ⟨i, hf, hi.1, hi.2⟩
  have hunion := weigh_mono weight (Set.subset_univ (A ∪ B))
  rw [weigh_univ] at hunion
  have hinter := weigh_mono weight hsub
  have hadd := weigh_add weight A B
  omega

/-- The sets of weight at least `cutoff`. -/
def Quorums.ofWeight (cutoff : ℕ) (faulty : Set N) (h : ∑ i, weight i + weigh weight faulty < 2 * cutoff) : Quorums N where
  IsQuorum S := cutoff ≤ weigh weight S
  honest := Set.compl faulty
  mono hAB hA := hA.trans (weigh_mono weight hAB)
  meet hA hB := exists_common weight hA hB h

end Weights

end Voting
