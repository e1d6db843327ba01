import Ton.Catchain.Runs
/-!
# What a receiver hands out

The delivered blocks in order, their forks and their vector times, and the test
that `CatChainImpl` makes with them. Blocks name each other by hashes that leave out
what they depend on, so two blocks can depend on each other; neither of them is
ever delivered.
-/

namespace Ton.Catchain
open Result List Option Chain

variable {n : ℕ} {Payload : Type} {chain : Chain n Payload}

/-- What `CatChainImpl` keeps of a block for comparing it with others. -/
structure CatChainBlock where
  fork : ℕ
  height : ℕ
  vt : List ℕ

def CatChainBlock.is_descendant_of (self block : CatChainBlock) : Bool :=
  if block.fork ≥ self.vt.length then false else block.height ≤ self.vt.getD block.fork 0

/-- The block as `deliver_block` hands it out. -/
def ReceivedBlock.new_block (b : ReceivedBlock n Payload) : CatChainBlock := ⟨b.fork_id, b.height, b.deps⟩

/-- The block arrived, was written and is not ill. -/
def ReceivedBlock.complete (b : ReceivedBlock n Payload) : Prop := b.state ≠ .none ∧ b.in_db = true ∧ b.state ≠ .ill

namespace Receiver

variable {s s' : Receiver n Payload} {i : Fin n} {h hash : Hash} {b c : ReceivedBlock n Payload}

/-- A proper ancestor. -/
def Ancestor (s : Receiver n Payload) : Hash → Hash → Prop := Relation.TransGen s.history.parent

/-! ## Forks and times -/

theorem history_line (hb : s.blocks h = some b) : s.history.line h = b.fork_id := by
  simp only [history, hb, elim_some]

theorem history_height (hb : s.blocks h = some b) : s.history.height h = b.height := by
  simp only [history, hb, elim_some]

theorem known_of_line {f : ℕ} (hf : 0 < f) (hline : s.history.line h = f) : ∃ b, s.blocks h = some b ∧ b.fork_id = f := by
  cases hb : s.blocks h with
  | none =>
    simp only [history, hb, elim_none] at hline
    omega
  | some b => exact ⟨b, rfl, (history_line hb).symm.trans hline⟩

theorem Inv.linear (hs : Inv chain nothing s) {f : ℕ} (hf : 0 < f) : s.history.Linear f := by
  constructor
  · intro a b ha hb hheight
    obtain ⟨A, hA, hAf⟩ := known_of_line hf ha
    obtain ⟨B, hB, hBf⟩ := known_of_line hf hb
    rw [history_height hA, history_height hB] at hheight
    exact hs.forks.inj hA hB (by omega) (hAf.trans hBf.symm) hheight
  · intro a b ha hb hlt
    obtain ⟨A, hA, hAf⟩ := known_of_line hf ha
    obtain ⟨B, hB, hBf⟩ := known_of_line hf hb
    rw [history_height hA, history_height hB] at hlt
    obtain ⟨p, P, hp, hP, hPf⟩ := hs.forks.step hA hB (by omega) (hAf.trans hBf.symm) hlt
    -- a block with a fork has arrived
    have hroot : b ≠ chain.root_hash := by
      rintro rfl
      rw [hs.shape.root, Option.some.injEq] at hB
      rw [← hB] at hlt
      exact absurd hlt (Nat.not_lt_zero _)
    have hstate : B.state ≠ .none := by
      intro hnone
      have hzero := (hs.shape.blank hB hnone).fork_id
      omega
    obtain ⟨q, Q, hq, hQ, hheight, -⟩ := (hs.shape.received hB hroot hstate).prev
    obtain rfl : p = q := Option.some.inj (hp.symm.trans hq)
    obtain rfl : P = Q := Option.some.inj (hP.symm.trans hQ)
    refine ⟨p, ⟨B, hB, ?_⟩, (history_line hP).trans (hPf.trans hAf), ?_⟩
    · rw [ReceivedBlock.parents, hp]
      exact mem_append_left _ (mem_singleton_self _)
    · rw [history_height hP, history_height hB, hheight]

/-- Comparing with one entry of the vector decides whether a block came before. -/
theorem Inv.is_descendant_of (hs : Inv chain nothing s) (hb : s.blocks h = some b) (hstate : b.state = .delivered) (hc : s.blocks hash = some c)
    (hcstate : c.state = .delivered) (hne : hash ≠ chain.root_hash) : b.new_block.is_descendant_of c.new_block = true ↔ s.history.Before hash h := by
  have hfork := hs.forks.delivered hc hcstate hne
  obtain ⟨-, -, hpos, -⟩ := hs.shape.ident hc hne
  have hline := history_line hc
  have hheight := history_height hc
  have htime := hs.times.delivered hb hstate c.fork_id
  rw [← hline] at htime
  have hlinear := hs.linear hfork
  rw [← hline] at hlinear
  rw [← hlinear.before_iff (by omega) htime, hline, hheight]
  unfold CatChainBlock.is_descendant_of
  change (if c.fork_id ≥ b.deps.length then false else decide (c.height ≤ b.deps.getD c.fork_id 0)) = true ↔ _
  split_ifs with hlen
  · rw [getD_eq_default _ _ hlen]
    exact iff_of_false (fun h => (by cases h)) (by omega)
  · rw [decide_eq_true_iff]

/-! ## Every block is delivered in the end -/

theorem Inv.before_known (hs : Inv chain nothing s) {a : Hash} (hb : (s.blocks h).isSome = true) (hab : s.history.Before a h) :
    (s.blocks a).isSome = true := by
  induction hab using Relation.ReflTransGen.head_induction_on with
  | refl => exact hb
  | head hac _ ih =>
    obtain ⟨C, hC, hp⟩ := hac
    obtain ⟨P, hP⟩ := hs.shape.parents_known hC _ hp
    exact isSome_iff_exists.2 ⟨P, hP⟩

section
variable (hs : Inv chain nothing s) (hqueue : s.to_run = []) (hb : s.blocks h = some b) (hstate : b.state ≠ .none) (hdb : b.in_db = true)
include hs hqueue hb hstate hdb

theorem Inv.delivered_of_parents (hill : b.state ≠ .ill) (hparents : ∀ p ∈ b.parents, s.is_delivered p = true) : s.is_delivered h = true := by
  by_cases hdel : b.state = .delivered
  · exact is_delivered_iff.2 ⟨b, hb, hdel⟩
  have hinit : b.state = .initialized := by
    cases hst : b.state with
    | none => exact absurd hst hstate
    | ill => exact absurd hst hill
    | initialized => rfl
    | delivered => exact absurd hst hdel
  have hpending : b.pending_deps = 0 := by
    rw [hs.links.pending hb hinit id, length_eq_zero_iff, filter_eq_nil_iff]
    intro p hp
    rw [hparents p hp]
    exact fun h => (by cases h)
  have hmem := (hs.links.queue_iff hb hinit id).2 ⟨hpending, hdb⟩
  rw [hqueue] at hmem
  cases hmem

/-- When the queue is empty, a block that waits for nothing but complete ancestors is delivered, unless one of them is its own ancestor. -/
theorem Inv.complete (hancestors : ∀ a A, s.Ancestor a h → s.blocks a = some A → a = chain.root_hash ∨ ReceivedBlock.complete A)
    (hacyclic : ∀ a, s.history.Before a h → ¬ s.Ancestor a a) : s.is_delivered h = true ∨ b.state = .ill := by
  by_cases hill : b.state = .ill
  · exact .inr hill
  refine .inl (History.Before.induction (H := s.history) (P := fun c => s.is_delivered c = true) ?_ hacyclic fun c hch hparents => ?_)
  · -- the ancestors are among the known blocks
    refine Set.Finite.subset (finite_toSet s.keys) fun a ha => ?_
    exact (hs.shape.mem_keys a).2 (hs.before_known (by rw [hb]; rfl) ha)
  · by_cases hroot : c = chain.root_hash
    · rw [hroot]
      exact is_delivered_iff.2 ⟨_, hs.shape.root, rfl⟩
    obtain ⟨C, hC⟩ := isSome_iff_exists.1 (hs.before_known (by rw [hb]; rfl) hch)
    have hcomplete : ReceivedBlock.complete C := by
      rcases Relation.ReflTransGen.cases_tail hch with rfl | ⟨d, hcd, hd⟩
      · rw [Option.some.inj (hC.symm.trans hb)]
        exact ⟨hstate, hdb, hill⟩
      · exact (hancestors c C (Relation.TransGen.tail' hcd hd) hC).resolve_left hroot
    obtain ⟨hCstate, hCdb, hCill⟩ := hcomplete
    exact hs.delivered_of_parents hqueue hC hCstate hCdb hCill fun p hp => hparents p ⟨C, hC, hp⟩

end

/-! ## The result -/

/-- What holds of the blocks handed out so far, and of those that are not. -/
structure Delivery (chain : Chain n Payload) (s : Receiver n Payload) : Prop where
  once : s.delivered_log.Nodup
  causal : ∀ l h l', s.delivered_log = l ++ h :: l' → ∀ b, s.blocks h = some b → ∀ p ∈ b.parents, p = chain.root_hash ∨ p ∈ l
  complete : s.to_run = [] → ∀ h b, s.blocks h = some b → b.state ≠ .none → b.in_db = true →
    (∀ a A, s.Ancestor a h → s.blocks a = some A → a = chain.root_hash ∨ ReceivedBlock.complete A) →
    (∀ a, s.history.Before a h → ¬ s.Ancestor a a) → s.is_delivered h = true ∨ b.state = .ill
  forks : ∀ f, 0 < f → s.history.Linear f
  times : ∀ h b, s.blocks h = some b → b.state = .delivered → ∀ f, IsGreatest (insert 0 (s.history.heights h f)) (b.deps.getD f 0)
  descendants : ∀ h b h' b', s.blocks h = some b → b.state = .delivered → s.blocks h' = some b' → b'.state = .delivered → h' ≠ chain.root_hash →
    (b.new_block.is_descendant_of b'.new_block = true ↔ s.history.Before h' h)
  fork_height : ∀ a, s.step chain a ≠ .error .fork_height

/-- Delivery is causal and has exact vector times; it is complete but for blocks that depend on each other. -/
theorem causal_delivery (s : Receiver n Payload) (h : Reached chain (fun _ _ => True) s) : Delivery chain s := by
  have hs := h.good.inv
  refine ⟨hs.log.nodup, fun l h l' hl b hb => hs.log.order hl hb, fun hqueue h b hb hstate hdb => hs.complete hqueue hb hstate hdb,
    fun f hf => hs.linear hf, fun h b hb hstate f => (hs.times.delivered hb hstate f).isGreatest,
    fun k b k' b' hb hstate hb' hstate' hne => hs.is_descendant_of hb hstate hb' hstate' hne, fun a ha => ?_⟩
  exact (step_spec h.good a).bad_of_error ha rfl

theorem reached_of_run (chain : Chain n Payload) (idx : Fin n) (allow : Bool) (acts : List (Act Payload)) {P : Receiver n Payload → Bool}
    (h : satisfies P (acts.foldlM (step chain) (create chain idx allow)) = true) : ∃ s, Reached chain (fun _ _ => True) s ∧ P s = true := by
  obtain ⟨s, hs, hP⟩ := exists_of_satisfies h
  exact ⟨s, .foldlM (.start ⟨idx, allow, rfl⟩) (fun _ _ _ => trivial) hs, hP⟩

/-- The first block of a source, with a dependency on the first block of another one. -/
def crossed (i j : ℕ) : Block := ⟨0, i, 1, ⟨⟨3, 0, 0, []⟩, [⟨j, 1, 2 * j, sign j 1 (2 * j)⟩]⟩, sign i 1 (2 * i)⟩

/-- A block without dependencies. -/
def lone (i : ℕ) : Block := ⟨0, i, 1, ⟨⟨3, 0, 0, []⟩, []⟩, sign i 1 (2 * i)⟩

/-- Source 1 depends on source 2, and both are delivered. -/
def plain_run : List (Act Message) :=
  [.create_block (crossed 1 2) (.text 1), .written ((numbered 3 5).id_hash ⟨0, 2, 1, 2⟩), .create_block (lone 2) (.text 2),
    .written ((numbered 3 5).id_hash ⟨0, 3, 1, 4⟩), .run_next, .run_next]

theorem causal_delivery_plain : ∃ s : Receiver 3 Message, Delivery (numbered 3 5) s ∧ s.to_run = [] ∧
    s.delivered_log = [(numbered 3 5).id_hash ⟨0, 3, 1, 4⟩, (numbered 3 5).id_hash ⟨0, 2, 1, 2⟩] := by
  obtain ⟨s, hs, hP⟩ := reached_of_run (numbered 3 5) 0 false plain_run
    (P := fun s => s.to_run = [] ∧ s.delivered_log = [(numbered 3 5).id_hash ⟨0, 3, 1, 4⟩, (numbered 3 5).id_hash ⟨0, 2, 1, 2⟩])
    (by decide +kernel)
  exact ⟨s, causal_delivery s hs, of_decide_eq_true hP⟩

/-- Sources 1 and 2 depend on each other. -/
def crossed_run : List (Act Message) :=
  [.create_block (crossed 1 2) (.text 1), .create_block (crossed 2 1) (.text 2), .written ((numbered 3 5).id_hash ⟨0, 2, 1, 2⟩),
    .written ((numbered 3 5).id_hash ⟨0, 3, 1, 4⟩), .run_next]

/-- The queue is empty and every block is complete, but this one is not delivered. -/
def stuck (chain : Chain n Payload) (s : Receiver n Payload) (hash : Hash) : Bool :=
  s.to_run = [] ∧ (s.blocks hash).any (fun b => b.state = .initialized ∧ b.in_db = true) ∧
    s.keys.all fun h => h = chain.root_hash ∨ (s.blocks h).any fun b => b.state ≠ .none ∧ b.in_db = true ∧ b.state ≠ .ill

/-- Every block is received, written and not ill, the queue is empty, and yet a block is neither delivered nor ill. -/
theorem crossed_not_delivered : ∃ s : Receiver 3 Message, Reached (numbered 3 5) (fun _ _ => True) s ∧ s.to_run = [] ∧
    ∃ h b, s.blocks h = some b ∧ b.state ≠ .none ∧ b.in_db = true ∧
      (∀ a A, s.Ancestor a h → s.blocks a = some A → a = (numbered 3 5).root_hash ∨ ReceivedBlock.complete A) ∧
      s.is_delivered h = false ∧ b.state ≠ .ill := by
  obtain ⟨s, hs, hP⟩ := reached_of_run (numbered 3 5) 0 false crossed_run
    (P := fun s => stuck (numbered 3 5) s ((numbered 3 5).id_hash ⟨0, 2, 1, 2⟩)) (by decide +kernel)
  rw [stuck, decide_eq_true_iff] at hP
  obtain ⟨hqueue, hblock, hall⟩ := hP
  obtain ⟨b, hb, hstate⟩ := (Option.any_eq_true _ _).1 hblock
  rw [decide_eq_true_iff] at hstate
  refine ⟨s, hs, hqueue, _, b, hb, by rw [hstate.1]; exact fun h => (by cases h), hstate.2, fun a A _ hA => ?_, ?_,
    by rw [hstate.1]; exact fun h => (by cases h)⟩
  · have hmem := (hs.good.inv.shape.mem_keys a).2 (by rw [hA]; rfl)
    have hcomplete := List.all_eq_true.1 hall a hmem
    rw [decide_eq_true_iff, hA, any_some, decide_eq_true_iff] at hcomplete
    exact hcomplete
  · rw [is_delivered_of hb, hstate.1]
    rfl

end Receiver

end Ton.Catchain
