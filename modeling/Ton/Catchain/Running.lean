import Ton.Catchain.Arrival
/-!
# A block is written and scheduled

`written`, and the block at the front of the queue. While a block is run it is
excepted from the invariant; `Ready` is what is known of it.
-/

namespace Ton.Catchain
open Result List

variable {n : ℕ} {Payload : Type} {chain : Chain n Payload} {ex : Hash → Prop} {bad : Crash → Prop}

namespace Receiver

variable {s s' t : Receiver n Payload} {i : Fin n} {h hash : Hash} {b c : ReceivedBlock n Payload}

/-! ## The queue -/

def queued (s : Receiver n Payload) (queue : List Hash) : Receiver n Payload := { s with to_run := queue }

section
variable (s : Receiver n Payload) (queue : List Hash)

@[simp] theorem queued_blocks : (s.queued queue).blocks = s.blocks := rfl

@[simp] theorem queued_to_run : (s.queued queue).to_run = queue := rfl

@[simp] theorem queued_is_delivered (h : Hash) : (s.queued queue).is_delivered h = s.is_delivered h := rfl

end

theorem queued_some {g : Hash → ReceivedBlock n Payload → ReceivedBlock n Payload} {queue : List Hash} {b' : ReceivedBlock n Payload} :
    ((s.mapBlocks g).queued queue).blocks h = some b' ↔ ∃ b, s.blocks h = some b ∧ g h b = b' := mapBlocks_some

theorem Inv.queued {queue : List Hash} (hs : Shape chain s) (hf : Forks chain ex s) (ht : Times ex s) (hlog : Log chain s) (htables : Tables s)
    (hl : Links chain ex (s.queued queue)) : Inv chain ex (s.queued queue) where
  shape := ⟨hs.1, hs.2, hs.3, hs.4, hs.5, hs.6, fun hb hne hstate =>
    ⟨(hs.received hb hne hstate).1, (hs.received hb hne hstate).2, (hs.received hb hne hstate).3, (hs.received hb hne hstate).4⟩⟩
  links := hl
  forks := ⟨hf.1, hf.2, hf.3, hf.4, hf.5, hf.6, hf.7, hf.8, hf.9, hf.10, hf.11, hf.12⟩
  times := ⟨ht.1, ht.2⟩
  log := ⟨hlog.1, hlog.2, hlog.3⟩
  tables := ⟨htables.1, htables.2, htables.3, htables.4, htables.5, htables.6⟩

/-! ## `written` -/

def stored (b : ReceivedBlock n Payload) : ReceivedBlock n Payload := { b with in_db := true }

section
variable (hs : Inv chain nothing s) (hb : s.blocks hash = some b) (hstate : b.state ≠ .none) (hroot : hash ≠ chain.root_hash)
include hs hb hstate hroot

theorem Inv.written (hdb : b.in_db = false) {queue : List Hash} (hqueue : queue = if b.pending_deps = 0 then s.to_run ++ [hash] else s.to_run) :
    Inv chain nothing ((s.modify hash stored).queued queue) := by
  have hself : ∀ {c}, s.blocks hash = some c → c = b := fun hc => Option.some.inj (hc.symm.trans hb)
  have hkeeps : ∀ h c, s.blocks h = some c → Keeps c (if h = hash then stored c else c) := by
    intro h c hc
    split_ifs with heq
    · refine ⟨rfl, rfl, rfl, rfl, rfl, rfl, Iff.rfl, fun hnone => ?_⟩
      rw [heq] at hc
      rw [hself hc] at hnone
      exact absurd hnone hstate
    · exact .refl c
  have hfields : ∀ h (c : ReceivedBlock n Payload), (if h = hash then stored c else c).state = c.state ∧
      (if h = hash then stored c else c).rev_deps = c.rev_deps ∧ (if h = hash then stored c else c).pending_deps = c.pending_deps ∧
      (if h = hash then stored c else c).fork_id = c.fork_id ∧ (if h = hash then stored c else c).next = c.next ∧
      (if h = hash then stored c else c).deps = c.deps := by
    intro h c
    split_ifs
    · exact ⟨rfl, rfl, rfl, rfl, rfl, rfl⟩
    · exact ⟨rfl, rfl, rfl, rfl, rfl, rfl⟩
  have hset : Settled s (s.mapBlocks fun h b => if h = hash then stored b else b) := by
    refine map_settled (fun h c _ => by rw [(hfields h c).1]) fun h c hc _ => ?_
    exact ⟨(hkeeps h c hc).parents, (hfields h c).2.2.2.1, (hkeeps h c hc).height, (hfields h c).2.2.2.2.2⟩
  have hnot : hash ∉ s.to_run := by
    intro hmem
    obtain ⟨c, hc, -, hcdb⟩ := hs.links.queue_known hmem
    rw [hself hc, hdb] at hcdb
    cases hcdb
  have hmem : ∀ k, k ∈ queue ↔ k ∈ s.to_run ∨ (k = hash ∧ b.pending_deps = 0) := by
    intro k
    rw [hqueue]
    split_ifs with hpending
    · rw [mem_append, mem_singleton, and_iff_left hpending]
    · exact ⟨.inl, fun h => h.resolve_right fun h => hpending h.2⟩
  rw [modify_eq]
  refine Inv.queued (hs.shape.map hkeeps (if_neg hroot.symm))
    (hs.forks.map (fun h c hc => ⟨(hkeeps h c hc).source_id, (hkeeps h c hc).height, (hfields h c).2.2.2.1, (hfields h c).2.2.2.2.1⟩)
      (fun h c hc _ => (hkeeps h c hc).prev) (fun h c hc hinit hex => hs.forks.initialized hc (by rw [← (hfields h c).1]; exact hinit) hex)
      (fun h c hc hdel hne => hs.forks.delivered hc (by rw [← (hfields h c).1]; exact hdel) hne))
    (hs.times.settled hs.shape hs.links hset fun h c' hc' hinit hex => .inl ?_) (hs.log.settled hset rfl)
    (hs.tables.map (fun h c hc => ⟨(hkeeps h c hc).source_id, (hkeeps h c hc).height⟩) (fun h c _ hdel => by rw [(hfields h c).1]; exact hdel)
      (fun h c i hc hill hi => hs.tables.ill hc (by rw [← (hfields h c).1]; exact hill) hi)) ?_
  · obtain ⟨c, hc, rfl⟩ := mapBlocks_some.1 hc'
    exact ⟨c, hc, by rw [← (hfields h c).1]; exact hinit, hex, (hfields h c).2.2.2.2.2, (hkeeps h c hc).parents⟩
  constructor
  · intro p P' c hP' hc
    obtain ⟨P, hP, rfl⟩ := queued_some.1 hP'
    rw [(hfields p P).2.1] at hc
    obtain ⟨C, hC, hCstate⟩ := hs.links.rev_known hP hc
    exact ⟨_, queued_some.2 ⟨C, hC, rfl⟩, by rw [(hfields c C).1]; exact hCstate⟩
  · intro p P' c C' hP' hPstate hC' hCinit hex
    obtain ⟨P, hP, rfl⟩ := queued_some.1 hP'
    obtain ⟨C, hC, rfl⟩ := queued_some.1 hC'
    rw [(hfields p P).2.1, (hkeeps c C hC).parents]
    exact hs.links.rev_iff hP (by rw [← (hfields p P).1]; exact hPstate) hC (by rw [← (hfields c C).1]; exact hCinit) hex
  · intro p P' hP'
    obtain ⟨P, hP, rfl⟩ := queued_some.1 hP'
    rw [(hfields p P).2.1]
    exact hs.links.rev_nodup hP
  · intro c C' hC' hCinit hex
    obtain ⟨C, hC, rfl⟩ := queued_some.1 hC'
    have hpending := hs.links.pending hC (by rw [← (hfields c C).1]; exact hCinit) hex
    rw [(hfields c C).2.2.1, (hkeeps c C hC).parents, hpending]
    simp only [queued_is_delivered, hset.is_delivered]
  · rw [queued_to_run, hqueue]
    split_ifs
    · refine nodup_append.2 ⟨hs.links.queue_nodup, nodup_singleton _, ?_⟩
      intro x hx y hy hxy
      rw [mem_singleton.1 hy] at hxy
      exact hnot (hxy ▸ hx)
    · exact hs.links.queue_nodup
  · intro k hk
    rcases (hmem k).1 hk with hk | ⟨rfl, -⟩
    · obtain ⟨C, hC, hCstate, hCdb⟩ := hs.links.queue_known hk
      refine ⟨_, queued_some.2 ⟨C, hC, rfl⟩, by rw [(hfields k C).1]; exact hCstate, ?_⟩
      split_ifs
      · rfl
      · exact hCdb
    · refine ⟨_, queued_some.2 ⟨b, hb, rfl⟩, ?_⟩
      rw [if_pos rfl]
      exact ⟨hstate, rfl⟩
  · intro c C' hC' hCinit hex
    obtain ⟨C, hC, rfl⟩ := queued_some.1 hC'
    rw [(hfields c C).1] at hCinit
    rw [queued_to_run, hmem, (hfields c C).2.2.1, hs.links.queue_iff hC hCinit hex]
    rcases eq_or_ne c hash with rfl | hne
    · rw [if_pos rfl, hself hC, hdb]
      constructor
      · rintro (⟨-, hfalse⟩ | ⟨-, hpending⟩)
        · cases hfalse
        · exact ⟨hpending, rfl⟩
      · exact fun h => .inr ⟨rfl, h.1⟩
    · rw [if_neg hne]
      exact or_iff_left fun h => hne h.1
  · intro c C' hC' hCstate hne
    obtain ⟨C, hC, rfl⟩ := queued_some.1 hC'
    obtain ⟨hCdb, hpending, hparents⟩ := hs.links.delivered hC (by rw [← (hfields c C).1]; exact hCstate) hne
    rw [(hfields c C).2.2.1, (hkeeps c C hC).parents]
    refine ⟨?_, hpending, fun p hp => (hset.is_delivered p).trans (hparents p hp)⟩
    split_ifs
    · rfl
    · exact hCdb
  · intro p P' c C' hP' hc hC' hCinit
    obtain ⟨P, hP, rfl⟩ := queued_some.1 hP'
    obtain ⟨C, hC, rfl⟩ := queued_some.1 hC'
    rw [(hfields p P).2.1] at hc
    rw [(hfields c C).1] at hCinit
    rw [(hfields p P).1, (hkeeps c C hC).parents]
    exact hs.links.waits hP hc hC hCinit

theorem written_spec :
    ∃ s', s.written hash = .ok s' ∧ Inv chain nothing s' ∧ ((b.in_db = true ∧ s' = s) ∨
      (b.in_db = false ∧ s' = (s.modify hash stored).queued (if b.pending_deps = 0 then s.to_run ++ [hash] else s.to_run))) := by
  unfold written
  rw [deref_eq hb, ok_bind]
  by_cases hdb : b.in_db = true
  · rw [if_pos hdb]
    exact ⟨s, rfl, hs, .inl ⟨hdb, rfl⟩⟩
  · rw [if_neg hdb]
    rw [Bool.not_eq_true] at hdb
    refine ⟨_, rfl, ?_, .inr ⟨hdb, ?_⟩⟩
    · have hw := hs.written hb hstate hroot hdb rfl
      split_ifs at hw ⊢
      · exact hw
      · exact hw
    · split_ifs
      · rfl
      · rfl

end

/-! ## The block at the front of the queue -/

theorem Inv.mono_ex {ex' : Hash → Prop} (hs : Inv chain ex s)
    (hex : ∀ c C, s.blocks c = some C → C.state = .initialized → ¬ ex' c → ¬ ex c) : Inv chain ex' s where
  shape := hs.shape
  links := {
    rev_known := hs.links.rev_known
    rev_iff := fun hP hstate hC hinit hne => hs.links.rev_iff hP hstate hC hinit (hex _ _ hC hinit hne)
    rev_nodup := hs.links.rev_nodup
    pending := fun hC hinit hne => hs.links.pending hC hinit (hex _ _ hC hinit hne)
    queue_nodup := hs.links.queue_nodup
    queue_known := hs.links.queue_known
    queue_iff := fun hC hinit hne => hs.links.queue_iff hC hinit (hex _ _ hC hinit hne)
    delivered := hs.links.delivered
    waits := hs.links.waits }
  forks := {
    le := hs.forks.le
    initialized := fun hb hinit hne => hs.forks.initialized hb hinit (hex _ _ hb hinit hne)
    delivered := hs.forks.delivered
    inj := hs.forks.inj
    top := hs.forks.top
    step := hs.forks.step
    next := hs.forks.next
    first := hs.forks.first
    ids := hs.forks.ids
    ids_le := hs.forks.ids_le
    ids_source := hs.forks.ids_source
    ids_blamed := hs.forks.ids_blamed }
  times := {
    delivered := hs.times.delivered
    initialized := fun hb hinit hne => hs.times.initialized hb hinit (hex _ _ hb hinit hne) }
  log := hs.log
  tables := hs.tables

theorem Inv.drop (hs : Inv chain (· = hash) s) (h : ∀ b, s.blocks hash = some b → b.state ≠ .initialized) : Inv chain nothing s := by
  refine hs.mono_ex fun c C hC hinit _ heq => ?_
  rw [heq] at hC
  exact h C hC hinit

theorem Inv.pop (hs : Inv chain nothing s) {rest : List Hash} (hqueue : s.to_run = hash :: rest) : Inv chain (· = hash) (s.queued rest) := by
  have hs' : Inv chain (· = hash) s := hs.mono_ex fun _ _ _ _ _ => id
  have hnd := hs.links.queue_nodup
  rw [hqueue, nodup_cons] at hnd
  refine Inv.queued hs'.shape hs'.forks hs'.times hs'.log hs'.tables ?_
  refine ⟨hs'.links.rev_known, hs'.links.rev_iff, hs'.links.rev_nodup, hs'.links.pending, hnd.2, fun hk => ?_, fun {c C} hC hinit hne => ?_,
    hs'.links.delivered, hs'.links.waits⟩
  · exact hs.links.queue_known (hqueue ▸ mem_cons_of_mem _ hk)
  · rw [← hs.links.queue_iff hC hinit id, hqueue, mem_cons]
    exact ⟨.inr, fun h => h.resolve_left hne⟩

theorem Shape.not_own_parent (hs : Shape chain s) (hb : s.blocks hash = some b) : hash ∉ b.parents := by
  intro hmem
  by_cases hroot : hash = chain.root_hash
  · rw [hroot, hs.root, Option.some.injEq] at hb
    rw [← hb] at hmem
    cases hmem
  by_cases hstate : b.state = .none
  · have hblank := hs.blank hb hstate
    rw [ReceivedBlock.parents, hblank.prev, hblank.block_deps] at hmem
    cases hmem
  have hr := hs.received hb hroot hstate
  rcases mem_append.1 hmem with hmem | hmem
  · obtain ⟨p, P, hp, hP, hheight, -⟩ := hr.prev
    rw [hp] at hmem
    obtain rfl : hash = p := by simpa using hmem
    rw [Option.some.inj (hP.symm.trans hb)] at hheight
    omega
  · obtain ⟨D, hD, hne⟩ := hr.deps hash hmem
    rw [Option.some.inj (hD.symm.trans hb)] at hne
    exact hne rfl

theorem Shape.undelivered_nodup (hs : Shape chain s) (hb : s.blocks hash = some b) : (b.parents.filter fun p => !s.is_delivered p).Nodup := by
  by_cases hroot : hash = chain.root_hash
  · rw [hroot, hs.root, Option.some.injEq] at hb
    rw [← hb]
    exact nodup_nil
  by_cases hstate : b.state = .none
  · have hblank := hs.blank hb hstate
    rw [ReceivedBlock.parents, hblank.prev, hblank.block_deps]
    exact nodup_nil
  have hr := hs.received hb hroot hstate
  obtain ⟨p, P, hp, hP, -, hsource⟩ := hr.prev
  rw [ReceivedBlock.parents, hp]
  rw [Option.toList_some, singleton_append, filter_cons]
  split_ifs with hdel
  · refine nodup_cons.2 ⟨fun hmem => ?_, hr.nodup.filter _⟩
    obtain ⟨D, hD, hne⟩ := hr.deps p (mem_filter.1 hmem).1
    rcases hsource with rfl | hsource
    · rw [is_delivered_of hs.root] at hdel
      cases hdel
    · rw [Option.some.inj (hD.symm.trans hP)] at hne
      exact hne hsource
  · exact hr.nodup.filter _

/-- A block whose parents are delivered, before it gets its fork. -/
structure Ready (s : Receiver n Payload) (hash : Hash) (b : ReceivedBlock n Payload) : Prop where
  block : s.blocks hash = some b
  state : b.state = .initialized
  pending : b.pending_deps = 0
  in_db : b.in_db = true
  parents : ∀ p ∈ b.parents, s.is_delivered p = true
  fork_id : b.fork_id = 0
  apart : hash ∉ b.rev_deps
  deps : ∀ f x, b.deps.getD f 0 ≤ x ↔ ∀ p ∈ b.parents, s.time p f ≤ x

theorem Ready.of_queue (hs : Inv chain nothing s) {rest : List Hash} (hqueue : s.to_run = hash :: rest) (hb : s.blocks hash = some b)
    (hstate : b.state = .initialized) : Ready (s.queued rest) hash b := by
  obtain ⟨hpending, hdb⟩ := (hs.links.queue_iff hb hstate id).1 (hqueue ▸ mem_cons_self ..)
  have hcount := hs.links.pending hb hstate id
  rw [hpending, eq_comm, length_eq_zero_iff, filter_eq_nil_iff] at hcount
  have hparents : ∀ p ∈ b.parents, s.is_delivered p = true := fun p hp => by simpa using hcount p hp
  have hapart : hash ∉ b.rev_deps := fun hmem =>
    hs.shape.not_own_parent hb ((hs.links.rev_iff hb (by rw [hstate]; exact fun h => (by cases h)) hb hstate id).1 hmem)
  refine ⟨hb, hstate, hpending, hdb, hparents, hs.forks.initialized hb hstate id, hapart, fun f x => ?_⟩
  rw [hs.times.initialized hb hstate id f x]
  exact forall_congr' fun p => ⟨fun h hp => h hp (hparents p hp), fun h hp _ => h hp⟩

end Receiver

end Ton.Catchain
