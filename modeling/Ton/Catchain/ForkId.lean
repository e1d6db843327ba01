import Ton.Catchain.Running
/-!
# A block gets its fork

`add_fork` and `initialize_fork`. The block continues the fork of the previous
block, or starts one of its own; either way the blocks of its fork are all lower,
so the check on its vector never fails.
-/

namespace Ton.Catchain
open Result List Nat
open Option (some.inj)

variable {n : ℕ} {Payload : Type} {chain : Chain n Payload} {ex : Hash → Prop} {bad : Crash → Prop}

namespace Receiver

variable {s s' t : Receiver n Payload} {i : Fin n} {h hash : Hash} {b c : ReceivedBlock n Payload}

/-- A fork was added to a source; it is blamed if it is not the first. -/
structure NewFork (i : Fin n) (s t : Receiver n Payload) : Prop where
  blocks : t.blocks = s.blocks
  keys : t.keys = s.keys
  to_run : t.to_run = s.to_run
  log : t.delivered_log = s.delivered_log
  local_idx : t.local_idx = s.local_idx
  last_sent_block : t.last_sent_block = s.last_sent_block
  total_forks : t.total_forks = s.total_forks + 1
  others : ∀ j, j ≠ i → t.sources j = s.sources j
  fork_ids : (t.sources i).fork_ids = (s.sources i).fork_ids ++ [s.total_forks + 1]
  blamed : (s.sources i).blamed = true → (t.sources i).blamed = true
  second : (s.sources i).fork_ids ≠ [] → (t.sources i).blamed = true
  guilty : (t.sources i).blamed = true → (s.sources i).blamed = true ∨ (s.sources i).fork_ids ≠ []
  tables : Tables t

theorem add_fork_spec (ht : Tables s) (hids : 1 < (s.sources i).fork_ids.length → (s.sources i).blamed = true) :
    ∃ t, s.add_fork i = .ok (t, s.total_forks + 1) ∧ NewFork i s t := by
  unfold add_fork
  have hblame := blame_blamedAt s i
  -- the state after a second fork was blamed, with what is known of it
  obtain ⟨u, hu, hblocks, hkeys, hqueue, hlog, hlocal, hlast, htotal, hothers, hforks, hblamed, hsecond, hguilty, htables⟩ :
      ∃ u, (if (s.sources i).fork_ids.length > 0 then s.blame i else s) = u ∧ u.blocks = s.blocks ∧ u.keys = s.keys ∧ u.to_run = s.to_run ∧
        u.delivered_log = s.delivered_log ∧ u.local_idx = s.local_idx ∧ u.last_sent_block = s.last_sent_block ∧ u.total_forks = s.total_forks ∧
        (∀ j, j ≠ i → u.sources j = s.sources j) ∧ (u.sources i).fork_ids = (s.sources i).fork_ids ∧
        ((s.sources i).blamed = true → (u.sources i).blamed = true) ∧ ((s.sources i).fork_ids ≠ [] → (u.sources i).blamed = true) ∧
        ((u.sources i).blamed = true → (s.sources i).blamed = true ∨ (s.sources i).fork_ids ≠ []) ∧ Tables u := by
    refine ⟨_, rfl, ?_⟩
    split_ifs with hlen
    · exact ⟨hblame.frame.blocks, hblame.frame.keys, hblame.frame.to_run, hblame.frame.log, hblame.frame.local_idx, hblame.frame.last_sent_block,
        hblame.frame.total_forks, hblame.others, hblame.source.fork_ids, fun _ => hblame.source.blamed, fun _ => hblame.source.blamed,
        fun _ => .inr (length_pos_iff.1 hlen), ht.blamedAt hblame⟩
    · exact ⟨rfl, rfl, rfl, rfl, rfl, rfl, rfl, fun _ _ => rfl, rfl, id, fun hne => absurd (length_pos_iff.2 hne) hlen, .inl, ht⟩
  rw [hu]
  dsimp only
  rw [check_pos (succ_pos _), ok_bind, htotal]
  have hself : (({ u with total_forks := s.total_forks + 1 } : Receiver n Payload).modify_source i fun S =>
      { S with fork_ids := S.fork_ids ++ [s.total_forks + 1] }).sources i =
        { u.sources i with fork_ids := (u.sources i).fork_ids ++ [s.total_forks + 1] } :=
    modify_source_self ..
  have hother : ∀ j, j ≠ i → (({ u with total_forks := s.total_forks + 1 } : Receiver n Payload).modify_source i fun S =>
      { S with fork_ids := S.fork_ids ++ [s.total_forks + 1] }).sources j = u.sources j := fun j hj => modify_source_of_ne _ _ hj
  rw [check_pos, ok_bind]
  · refine ⟨_, rfl, hblocks, hkeys, hqueue, hlog, hlocal, hlast, rfl, fun j hj => (hother j hj).trans (hothers j hj), ?_, fun h => ?_, fun h => ?_,
      fun h => ?_, ?_⟩
    · rw [hself, hforks]
    · rw [hself]
      exact hblamed h
    · rw [hself]
      exact hsecond h
    · rw [hself] at h
      exact hguilty h
    · refine ⟨fun {j k h} hk => ?_, fun {h b j} hb hj hfree => ?_, fun {j k} hk hle => ?_, fun {h b j} hb hill hj => ?_, fun {j} hj => ?_, fun j => ?_⟩
      · rcases eq_or_ne j i with rfl | hne
        · rw [hself] at hk
          exact htables.found hk
        · rw [hother j hne] at hk
          exact htables.found hk
      · rcases eq_or_ne j i with rfl | hne
        · rw [hself] at hfree ⊢
          exact htables.complete hb hj hfree
        · rw [hother j hne] at hfree ⊢
          exact htables.complete hb hj hfree
      · rcases eq_or_ne j i with rfl | hne
        · rw [hself] at hle ⊢
          exact htables.delivered hk hle
        · rw [hother j hne] at hle ⊢
          exact htables.delivered hk hle
      · rcases eq_or_ne j i with rfl | hne
        · rw [hself]
          exact htables.ill hb hill hj
        · rw [hother j hne]
          exact htables.ill hb hill hj
      · rcases eq_or_ne j i with rfl | hne
        · rw [hself] at hj ⊢
          exact htables.fork_proof hj
        · rw [hother j hne] at hj ⊢
          exact htables.fork_proof hj
      · rcases eq_or_ne j i with rfl | hne
        · rw [hself]
          exact htables.blamed_heights j
        · rw [hother j hne]
          exact htables.blamed_heights j
  · rw [hself]
    intro hlen
    refine hsecond fun hnil => ?_
    rw [hforks, hnil] at hlen
    exact absurd hlen (lt_irrefl 1)

theorem getD_set_fork (fork_id height : ℕ) (deps : List ℕ) (f : ℕ) :
    (set_fork fork_id height deps).getD f 0 = if f = fork_id then height else deps.getD f 0 := by
  unfold set_fork
  have hlen : fork_id < (deps ++ List.replicate (fork_id + 1 - deps.length) 0).length := by
    rw [length_append, length_replicate]
    omega
  split_ifs with heq
  · rw [heq, getD_eq_getElem?_getD, getElem?_set_self hlen]
    rfl
  · rw [getD_eq_getElem?_getD, getElem?_set_ne (Ne.symm heq), getElem?_append, getD_eq_getElem?_getD]
    split_ifs with hlt
    · rfl
    · rw [getElem?_eq_none (Nat.le_of_not_lt hlt), getElem?_replicate]
      split_ifs
      · rfl
      · rfl

/-- What `initialize_fork` writes into the block. -/
def forked (fork_id : ℕ) (b : ReceivedBlock n Payload) : ReceivedBlock n Payload :=
  { b with fork_id, deps := set_fork fork_id b.height b.deps }

/-- A block with its fork, until it is delivered or ill. -/
structure Running (s : Receiver n Payload) (hash : Hash) (b : ReceivedBlock n Payload) : Prop where
  block : s.blocks hash = some b
  state : b.state = .initialized
  pending : b.pending_deps = 0
  in_db : b.in_db = true
  parents : ∀ p ∈ b.parents, s.is_delivered p = true
  fork_id : 0 < b.fork_id
  apart : hash ∉ b.rev_deps
  deps : ∀ f x, b.deps.getD f 0 ≤ x ↔ (f = b.fork_id → b.height ≤ x) ∧ ∀ p ∈ b.parents, s.time p f ≤ x

/-- The heights of a line among the ancestors bound the entries of the parents' times. -/
theorem time_le (hs : Inv chain ex s) {p : Hash} (hp : s.is_delivered p = true) {f x : ℕ}
    (hle : ∀ a A, s.blocks a = some A → A.fork_id = f → A.height ≤ x) : s.time p f ≤ x := by
  obtain ⟨P, hP, hstate⟩ := is_delivered_iff.1 hp
  rw [time_of hP]
  refine (History.timeAt_iff.1 (hs.times.delivered hP hstate f) x).2 fun a _ hline => ?_
  cases hA : s.blocks a with
  | none =>
    simp only [history, hA, Option.elim_none]
    exact Nat.zero_le x
  | some A =>
    simp only [history, hA, Option.elim_some] at hline ⊢
    exact hle a A hA hline

section Map

variable {g : Hash → ReceivedBlock n Payload → ReceivedBlock n Payload}

theorem Links.map (hl : Links chain ex s) (hg : ∀ h b, s.blocks h = some b → (g h b).state = b.state ∧ (g h b).rev_deps = b.rev_deps ∧
    (g h b).parents = b.parents ∧ (g h b).pending_deps = b.pending_deps ∧ (g h b).in_db = b.in_db) : Links chain ex (s.mapBlocks g) := by
  have hdel : ∀ h, (s.mapBlocks g).is_delivered h = s.is_delivered h := map_is_delivered fun h b hb => by rw [(hg h b hb).1]
  constructor
  · intro p P' c hP' hc
    obtain ⟨P, hP, rfl⟩ := mapBlocks_some.1 hP'
    rw [(hg p P hP).2.1] at hc
    obtain ⟨C, hC, hstate⟩ := hl.rev_known hP hc
    exact ⟨_, mapBlocks_some.2 ⟨C, hC, rfl⟩, by rw [(hg c C hC).1]; exact hstate⟩
  · intro p P' c C' hP' hstate hC' hinit hex
    obtain ⟨P, hP, rfl⟩ := mapBlocks_some.1 hP'
    obtain ⟨C, hC, rfl⟩ := mapBlocks_some.1 hC'
    rw [(hg p P hP).1] at hstate
    rw [(hg c C hC).1] at hinit
    rw [(hg p P hP).2.1, (hg c C hC).2.2.1]
    exact hl.rev_iff hP hstate hC hinit hex
  · intro p P' hP'
    obtain ⟨P, hP, rfl⟩ := mapBlocks_some.1 hP'
    rw [(hg p P hP).2.1]
    exact hl.rev_nodup hP
  · intro c C' hC' hinit hex
    obtain ⟨C, hC, rfl⟩ := mapBlocks_some.1 hC'
    rw [(hg c C hC).1] at hinit
    rw [(hg c C hC).2.2.1, (hg c C hC).2.2.2.1]
    simp only [hdel]
    exact hl.pending hC hinit hex
  · exact hl.queue_nodup
  · intro h hh
    obtain ⟨b, hb, hstate, hdb⟩ := hl.queue_known hh
    exact ⟨_, mapBlocks_some.2 ⟨b, hb, rfl⟩, by rw [(hg h b hb).1]; exact hstate, by rw [(hg h b hb).2.2.2.2]; exact hdb⟩
  · intro c C' hC' hinit hex
    obtain ⟨C, hC, rfl⟩ := mapBlocks_some.1 hC'
    rw [(hg c C hC).1] at hinit
    rw [(hg c C hC).2.2.2.1, (hg c C hC).2.2.2.2]
    exact hl.queue_iff hC hinit hex
  · intro c C' hC' hstate hroot
    obtain ⟨C, hC, rfl⟩ := mapBlocks_some.1 hC'
    rw [(hg c C hC).1] at hstate
    obtain ⟨hdb, hpending, hparents⟩ := hl.delivered hC hstate hroot
    rw [(hg c C hC).2.2.1, (hg c C hC).2.2.2.1, (hg c C hC).2.2.2.2]
    exact ⟨hdb, hpending, fun p hp => (hdel p).trans (hparents p hp)⟩
  · intro p P' c C' hP' hc hC' hinit
    obtain ⟨P, hP, rfl⟩ := mapBlocks_some.1 hP'
    obtain ⟨C, hC, rfl⟩ := mapBlocks_some.1 hC'
    rw [(hg p P hP).2.1] at hc
    rw [(hg c C hC).1] at hinit
    rw [(hg p P hP).1, (hg c C hC).2.2.1]
    exact hl.waits hP hc hC hinit

end Map

/-- What `initialize_fork` changes besides the block itself. -/
structure Forking (s s' : Receiver n Payload) (hash : Hash) : Prop where
  others : ∀ {h c'}, h ≠ hash → s'.blocks h = some c' → ∃ c, s.blocks h = some c ∧ ∃ next, c' = { c with next }
  kept : ∀ {h c}, h ≠ hash → s.blocks h = some c → ∃ next, s'.blocks h = some { c with next }
  keys : s'.keys = s.keys
  to_run : s'.to_run = s.to_run
  log : s'.delivered_log = s.delivered_log
  local_idx : s'.local_idx = s.local_idx
  last_sent_block : s'.last_sent_block = s.last_sent_block
  blamed : ∀ i, (s.sources i).blamed = true → (s'.sources i).blamed = true
  guilty : ∀ i, (s'.sources i).blamed = true → (s.sources i).blamed = true ∨ s'.Twice i
  sources : ∀ {b j}, s.blocks hash = some b → b.source_id ≠ some j → s'.sources j = s.sources j

theorem Running.of_ready (hs : Inv chain ex s) (hr : Ready s hash b) {F : ℕ}
    (hlow : ∀ a A, s.blocks a = some A → A.fork_id = F → A.height < b.height) (hpos : 0 < b.height) :
    b.deps.getD F 0 < b.height ∧ ∀ f x, (forked F b).deps.getD f 0 ≤ x ↔ (f = F → b.height ≤ x) ∧ ∀ p ∈ b.parents, s.time p f ≤ x := by
  have htimes : ∀ p ∈ b.parents, s.time p F ≤ b.height - 1 := fun p hp =>
    time_le hs (hr.parents p hp) fun a A hA hfork => by have := hlow a A hA hfork; omega
  have hlt := (hr.deps F (b.height - 1)).2 htimes
  refine ⟨by omega, fun f x => ?_⟩
  rw [forked, getD_set_fork]
  split_ifs with heq
  · rw [heq]
    constructor
    · exact fun h => ⟨fun _ => h, fun p hp => by have := htimes p hp; omega⟩
    · exact fun h => h.1 rfl
  · rw [hr.deps f x]
    exact ⟨fun h => ⟨fun h => absurd h heq, h⟩, fun h => h.2⟩

section Fork

variable {F : ℕ} (hs : Inv chain (· = hash) s) (hr : Ready s hash b) (hi : b.source_id = some i)

include hs hr

section
variable {g : Hash → ReceivedBlock n Payload → ReceivedBlock n Payload} (hself : g hash b = forked F b)
  (hother : ∀ h c, h ≠ hash → s.blocks h = some c → ∃ next, g h c = { c with next } ∧ (c.state = .none → next = c.next))
include hself hother

theorem fork_keeps :
    ∀ h c, s.blocks h = some c → Keeps c (g h c) ∧ (g h c).state = c.state ∧ (g h c).rev_deps = c.rev_deps ∧
      (g h c).pending_deps = c.pending_deps ∧ (g h c).in_db = c.in_db ∧ (h ≠ hash → (g h c).fork_id = c.fork_id ∧ (g h c).deps = c.deps) := by
  intro h c hc
  rcases eq_or_ne h hash with rfl | hne
  · obtain rfl : c = b := some.inj (hc.symm.trans hr.block)
    rw [hself]
    refine ⟨⟨rfl, rfl, rfl, rfl, rfl, rfl, Iff.rfl, fun hnone => ?_⟩, rfl, rfl, rfl, rfl, fun h => absurd rfl h⟩
    rw [hr.state] at hnone
    cases hnone
  · obtain ⟨next, heq, hnone⟩ := hother h c hne hc
    rw [heq]
    refine ⟨⟨rfl, rfl, rfl, rfl, rfl, rfl, Iff.rfl, fun hst hblank => ?_⟩, rfl, rfl, rfl, rfl, fun _ => ⟨rfl, rfl⟩⟩
    exact ⟨hblank.1, hblank.2, hblank.3, hblank.4, hblank.5, hblank.6, (hnone hst).trans hblank.7, hblank.8⟩

theorem fork_rest (hroot : g chain.root_hash chain.root_block = chain.root_block) :
    Shape chain (s.mapBlocks g) ∧ Links chain (· = hash) (s.mapBlocks g) ∧ Times (· = hash) (s.mapBlocks g) ∧ Log chain (s.mapBlocks g) ∧
      Settled s (s.mapBlocks g) := by
  have hkeeps := fork_keeps hs hr hself hother
  have hset : Settled s (s.mapBlocks g) := by
    refine map_settled (fun h c hc => by rw [(hkeeps h c hc).2.1]) fun h c hc hdel => ?_
    have hne : h ≠ hash := by
      rintro rfl
      rw [some.inj (hc.symm.trans hr.block), hr.state] at hdel
      cases hdel
    obtain ⟨hk, -, -, -, -, hrest⟩ := hkeeps h c hc
    exact ⟨hk.parents, (hrest hne).1, hk.height, (hrest hne).2⟩
  refine ⟨hs.shape.map (fun h c hc => (hkeeps h c hc).1) hroot, hs.links.map fun h c hc => ?_,
    hs.times.settled hs.shape hs.links hset fun h c' hc' hinit hne => .inl ?_, hs.log.settled hset rfl, hset⟩
  · obtain ⟨hk, hstate, hrev, hpending, hdb, -⟩ := hkeeps h c hc
    exact ⟨hstate, hrev, hk.parents, hpending, hdb⟩
  · obtain ⟨c, hc, rfl⟩ := mapBlocks_some.1 hc'
    obtain ⟨hk, hstate, -, -, -, hrest⟩ := hkeeps h c hc
    exact ⟨c, hc, hstate ▸ hinit, hne, (hrest hne).2, hk.parents⟩

end

end Fork

section NewFork

variable (hs : Inv chain (· = hash) s) (hr : Ready s hash b) (hi : b.source_id = some i) (hfork : NewFork i s t)

include hs hr hi hfork

theorem Forks.new_fork (hfirst : b.height = 1 ∨ (s.sources i).fork_ids ≠ []) :
    Forks chain (· = hash) (t.modify hash (forked (s.total_forks + 1))) := by
  have hbt : t.blocks hash = some b := by rw [hfork.blocks]; exact hr.block
  have hcases : ∀ {h c}, (t.modify hash (forked (s.total_forks + 1))).blocks h = some c →
      (h = hash ∧ c = forked (s.total_forks + 1) b) ∨ (h ≠ hash ∧ s.blocks h = some c) := by
    intro h c hc
    rw [← hfork.blocks]
    exact modify_cases hbt hc
  have hself := modify_self t (f := forked (s.total_forks + 1)) hbt
  have hkept : ∀ {h c}, h ≠ hash → s.blocks h = some c → (t.modify hash (forked (s.total_forks + 1))).blocks h = some c := by
    intro h c hne hc
    rw [modify_of_ne t hne, hfork.blocks, hc]
  -- the fork is new
  have hnew : ∀ {h c}, s.blocks h = some c → c.fork_id ≠ s.total_forks + 1 := by
    intro h c hc heq
    have hle := hs.forks.le hc
    omega
  have hids : ∀ j f, f ∈ (t.sources j).fork_ids ↔ f ∈ (s.sources j).fork_ids ∨ (j = i ∧ f = s.total_forks + 1) := by
    intro j f
    rcases eq_or_ne j i with rfl | hne
    · rw [hfork.fork_ids, mem_append, mem_singleton, eq_self_iff_true, true_and]
    · rw [hfork.others j hne]
      exact ⟨.inl, fun h => h.resolve_right fun h => hne h.1⟩
  constructor
  · intro h c hc
    change c.fork_id ≤ t.total_forks
    rw [hfork.total_forks]
    rcases hcases hc with ⟨-, rfl⟩ | ⟨-, hc⟩
    · exact le_rfl
    · exact (hs.forks.le hc).trans (le_succ _)
  · intro h c hc hinit hne
    rcases hcases hc with ⟨heq, -⟩ | ⟨-, hc⟩
    · exact absurd heq hne
    · exact hs.forks.initialized hc hinit hne
  · intro h c hc hdel hne
    rcases hcases hc with ⟨-, rfl⟩ | ⟨-, hc⟩
    · exact succ_pos _
    · exact hs.forks.delivered hc hdel hne
  · intro h c h' c' hc hc' hpos heq hheight
    rcases hcases hc with ⟨rfl, rfl⟩ | ⟨-, hc⟩
    · rcases hcases hc' with ⟨rfl, rfl⟩ | ⟨-, hc'⟩
      · rfl
      · exact absurd heq.symm (hnew hc')
    · rcases hcases hc' with ⟨-, rfl⟩ | ⟨-, hc'⟩
      · exact absurd heq (hnew hc)
      · exact hs.forks.inj hc hc' hpos heq hheight
  · intro h c h' c' hc hc' hpos heq hlt
    rcases hcases hc with ⟨rfl, rfl⟩ | ⟨-, hc⟩
    · rcases hcases hc' with ⟨rfl, rfl⟩ | ⟨-, hc'⟩
      · exact absurd hlt (lt_irrefl _)
      · exact absurd heq.symm (hnew hc')
    · rcases hcases hc' with ⟨-, rfl⟩ | ⟨-, hc'⟩
      · exact absurd heq (hnew hc)
      · exact hs.forks.top hc hc' hpos heq hlt
  · intro h c h' c' hc hc' hpos heq hlt
    rcases hcases hc with ⟨rfl, rfl⟩ | ⟨-, hc⟩
    · rcases hcases hc' with ⟨rfl, rfl⟩ | ⟨-, hc'⟩
      · exact absurd hlt (lt_irrefl _)
      · exact absurd heq.symm (hnew hc')
    · rcases hcases hc' with ⟨-, rfl⟩ | ⟨-, hc'⟩
      · exact absurd heq (hnew hc)
      · obtain ⟨p, P, hp, hP, hPfork⟩ := hs.forks.step hc hc' hpos heq hlt
        refine ⟨p, P, hp, hkept ?_ hP, hPfork⟩
        rintro rfl
        rw [some.inj (hP.symm.trans hr.block), hr.fork_id] at hPfork
        omega
  · intro p P c hP hc
    obtain ⟨P₀, hP₀, hnext, hheight, hsource⟩ : ∃ P₀, s.blocks p = some P₀ ∧ P₀.next = P.next ∧ P₀.height = P.height ∧ P₀.source_id = P.source_id := by
      rcases hcases hP with ⟨rfl, rfl⟩ | ⟨-, hP⟩
      · exact ⟨b, hr.block, rfl, rfl, rfl⟩
      · exact ⟨P, hP, rfl, rfl, rfl⟩
    obtain ⟨C, hC, hCh, hCi, hCpos⟩ := hs.forks.next hP₀ (hnext.trans hc)
    refine ⟨C, hkept ?_ hC, by rw [hCh, hheight], by rw [hCi, hsource], hCpos⟩
    rintro rfl
    rw [some.inj (hC.symm.trans hr.block), hr.fork_id] at hCpos
    exact lt_irrefl 0 hCpos
  · intro j hj
    rcases eq_or_ne j i with rfl | hne
    · rcases hfirst with hone | hold
      · exact ⟨hash, _, hself, hi, hone, succ_pos _⟩
      · obtain ⟨h, c, hc, hsource, hheight, hpos⟩ := hs.forks.first hold
        refine ⟨h, c, hkept ?_ hc, hsource, hheight, hpos⟩
        rintro rfl
        rw [some.inj (hc.symm.trans hr.block), hr.fork_id] at hpos
        exact lt_irrefl 0 hpos
    · obtain ⟨h, c, hc, hsource, hheight, hpos⟩ := hs.forks.first (i := j) (by rw [← hfork.others j hne]; exact hj)
      refine ⟨h, c, hkept ?_ hc, hsource, hheight, hpos⟩
      rintro rfl
      rw [some.inj (hc.symm.trans hr.block), hr.fork_id] at hpos
      exact lt_irrefl 0 hpos
  · intro h c j hc hpos hj
    refine (hids j c.fork_id).2 ?_
    rcases hcases hc with ⟨rfl, rfl⟩ | ⟨-, hc⟩
    · exact .inr ⟨some.inj (hj.symm.trans hi), rfl⟩
    · exact .inl (hs.forks.ids hc hpos hj)
  · intro j f hf
    change 0 < f ∧ f ≤ t.total_forks
    rw [hfork.total_forks]
    rcases (hids j f).1 hf with hf | ⟨-, rfl⟩
    · have hle := hs.forks.ids_le hf
      exact ⟨hle.1, by omega⟩
    · exact ⟨succ_pos _, le_rfl⟩
  · intro j h c hc hf
    rcases hcases hc with ⟨rfl, rfl⟩ | ⟨-, hc⟩
    · rcases (hids j _).1 hf with hf | ⟨rfl, -⟩
      · have hle := (hs.forks.ids_le hf).2
        exact absurd hle (not_succ_le_self _)
      · exact hi
    · rcases (hids j _).1 hf with hf | ⟨-, heq⟩
      · exact hs.forks.ids_source hc hf
      · exact absurd heq (hnew hc)
  · intro j hlen
    change (t.sources j).blamed = true
    change 1 < (t.sources j).fork_ids.length at hlen
    rcases eq_or_ne j i with rfl | hne
    · refine hfork.second fun hnil => ?_
      rw [hfork.fork_ids, hnil] at hlen
      exact absurd hlen (lt_irrefl 1)
    · rw [hfork.others j hne] at hlen ⊢
      exact hs.forks.ids_blamed hlen

theorem Inv.new_fork (hfirst : b.height = 1 ∨ (s.sources i).fork_ids ≠ []) : Inv chain (· = hash) (t.modify hash (forked (s.total_forks + 1))) := by
  have hbt : t.blocks hash = some b := by rw [hfork.blocks]; exact hr.block
  have hne : hash ≠ chain.root_hash := hs.shape.ne_root hr.block (by rw [hr.state]; exact fun h => (by cases h))
  have hrest := fork_rest (F := s.total_forks + 1) (g := fun h b => if h = hash then forked (s.total_forks + 1) b else b) hs hr (if_pos rfl)
    (fun h c hne _ => ⟨c.next, if_neg hne, fun _ => rfl⟩) (if_neg hne.symm)
  have hblocks : (t.modify hash (forked (s.total_forks + 1))).blocks =
      (s.mapBlocks fun h b => if h = hash then forked (s.total_forks + 1) b else b).blocks := by
    rw [modify_eq]
    simp only [mapBlocks, hfork.blocks]
  refine ⟨hrest.1.congr hblocks hfork.keys hfork.last_sent_block, hrest.2.1.congr hblocks hfork.to_run, Forks.new_fork hs hr hi hfork hfirst,
    hrest.2.2.1.congr hblocks, hrest.2.2.2.1.congr hblocks hfork.log, ?_⟩
  rw [modify_eq]
  have hself : ∀ h c, t.blocks h = some c → h = hash → c = b := fun h c hc heq => some.inj ((heq ▸ hc).symm.trans hbt)
  refine hfork.tables.map (fun h c hc => ?_) (fun h c hc hdel => ?_) (fun h c j hc hill hj => ?_)
  · split_ifs
    · exact ⟨rfl, rfl⟩
    · exact ⟨rfl, rfl⟩
  · split_ifs
    · exact hdel
    · exact hdel
  · split_ifs at hill
    · exact hfork.tables.ill hc hill hj
    · exact hfork.tables.ill hc hill hj

end NewFork

section SameFork

variable {p : Hash} {P : ReceivedBlock n Payload} (hs : Inv chain (· = hash) s) (hr : Ready s hash b) (hi : b.source_id = some i)
  (hprev : b.prev = some p) (hP : s.blocks p = some P) (hnext : P.next = none) (hpos : 0 < P.fork_id) (hheight : P.height + 1 = b.height)
  (hsource : P.source_id = some i)

/-- The previous block and the block itself, linked on one fork. -/
def continued (p hash : Hash) (fork_id : ℕ) (h : Hash) (c : ReceivedBlock n Payload) : ReceivedBlock n Payload :=
  if h = hash then forked fork_id c else { c with next := if h = p then some hash else c.next }

include hs hr hP hpos in
theorem continued_eq : (s.modify p fun c => { c with next := some hash }).modify hash (forked P.fork_id) =
    s.mapBlocks (continued p hash P.fork_id) := by
  have hne : p ≠ hash := by
    rintro rfl
    rw [some.inj (hP.symm.trans hr.block), hr.fork_id] at hpos
    exact lt_irrefl 0 hpos
  rw [modify_eq, modify_eq, mapBlocks_mapBlocks]
  refine mapBlocks_congr fun h c _ => ?_
  unfold continued
  rcases eq_or_ne h hash with rfl | hh
  · rw [if_pos rfl, if_neg hne.symm, if_pos rfl]
  · rw [if_neg hh, if_neg hh]
    split_ifs
    · rfl
    · rfl

include hs hr hi hprev hP hnext hpos hheight hsource

theorem Forks.same_fork : Forks chain (· = hash) (s.mapBlocks (continued p hash P.fork_id)) := by
  have hself : ∀ {c}, s.blocks hash = some c → c = b := fun hc => some.inj (hc.symm.trans hr.block)
  -- a block of the mapped state, seen in the old one
  have hcases : ∀ {h c'}, (s.mapBlocks (continued p hash P.fork_id)).blocks h = some c' → (h = hash ∧ c' = forked P.fork_id b) ∨
      (h ≠ hash ∧ ∃ c, s.blocks h = some c ∧ c'.fork_id = c.fork_id ∧ c'.height = c.height ∧ c'.source_id = c.source_id ∧ c'.prev = c.prev ∧
        c'.state = c.state ∧ c'.next = if h = p then some hash else c.next) := by
    intro h c' hc'
    obtain ⟨c, hc, rfl⟩ := mapBlocks_some.1 hc'
    rcases eq_or_ne h hash with rfl | hne
    · rw [hself hc]
      exact .inl ⟨rfl, if_pos rfl⟩
    · refine .inr ⟨hne, c, hc, ?_⟩
      unfold continued
      rw [if_neg hne]
      exact ⟨rfl, rfl, rfl, rfl, rfl, rfl⟩
  have hkept : ∀ {h c}, s.blocks h = some c → 0 < c.fork_id → ∃ c', (s.mapBlocks (continued p hash P.fork_id)).blocks h = some c' ∧
      c'.fork_id = c.fork_id ∧ c'.height = c.height ∧ c'.source_id = c.source_id := by
    intro h c hc hcpos
    refine ⟨_, mapBlocks_some.2 ⟨c, hc, rfl⟩, ?_⟩
    unfold continued
    split_ifs with heq
    · rw [heq] at hc
      rw [hself hc, hr.fork_id] at hcpos
      exact absurd hcpos (lt_irrefl 0)
    · exact ⟨rfl, rfl, rfl⟩
    · exact ⟨rfl, rfl, rfl⟩
  -- the previous block was the last one of its fork
  have hlast : ∀ {h c}, s.blocks h = some c → c.fork_id = P.fork_id → c.height ≤ P.height := by
    intro h c hc heq
    by_contra hlt
    have htop := hs.forks.top hP hc hpos heq.symm (by omega)
    rw [hnext] at htop
    cases htop
  constructor
  · intro h c hc
    change c.fork_id ≤ s.total_forks
    rcases hcases hc with ⟨-, rfl⟩ | ⟨-, c, hc, heq, -⟩
    · have hle := hs.forks.le hP
      exact hle
    · rw [heq]
      exact hs.forks.le hc
  · intro h c' hc' hinit hne
    rcases hcases hc' with ⟨heq, -⟩ | ⟨-, c, hc, heq, -, -, -, hstate, -⟩
    · exact absurd heq hne
    · rw [heq]
      exact hs.forks.initialized hc (hstate ▸ hinit) hne
  · intro h c' hc' hdel hne
    rcases hcases hc' with ⟨-, rfl⟩ | ⟨-, c, hc, heq, -, -, -, hstate, -⟩
    · exact hpos
    · rw [heq]
      exact hs.forks.delivered hc (hstate ▸ hdel) hne
  · intro h c' k d' hc' hd' hcpos heq hh
    rcases hcases hc' with ⟨rfl, rfl⟩ | ⟨-, c, hc, hcf, hch, -⟩
    · rcases hcases hd' with ⟨rfl, rfl⟩ | ⟨-, d, hd, hdf, hdh, -⟩
      · rfl
      · have hle := hlast hd (hdf.symm.trans heq.symm)
        change b.height = d'.height at hh
        omega
    · rcases hcases hd' with ⟨-, rfl⟩ | ⟨-, d, hd, hdf, hdh, -⟩
      · have hle := hlast hc (hcf.symm.trans heq)
        change c'.height = b.height at hh
        omega
      · exact hs.forks.inj hc hd (hcf ▸ hcpos) (by rw [← hcf, ← hdf, heq]) (by rw [← hch, ← hdh, hh])
  · intro h c' k d' hc' hd' hcpos heq hlt
    rcases hcases hc' with ⟨rfl, rfl⟩ | ⟨-, c, hc, hcf, hch, -, -, -, hcn⟩
    · rcases hcases hd' with ⟨-, rfl⟩ | ⟨-, d, hd, hdf, hdh, -⟩
      · exact absurd hlt (lt_irrefl _)
      · have hle := hlast hd (hdf.symm.trans heq.symm)
        change b.height < d'.height at hlt
        omega
    · rw [hcn]
      split_ifs with hp
      · rfl
      rcases hcases hd' with ⟨-, rfl⟩ | ⟨-, d, hd, hdf, hdh, -⟩
      · have hfork : c.fork_id = P.fork_id := hcf.symm.trans heq
        have hle := hlast hc hfork
        refine hs.forks.top hc hP (hcf ▸ hcpos) hfork (lt_of_le_of_ne hle fun hsame => hp ?_)
        exact hs.forks.inj hc hP (hcf ▸ hcpos) hfork hsame
      · exact hs.forks.top hc hd (hcf ▸ hcpos) (by rw [← hcf, ← hdf, heq]) (by rw [← hch, ← hdh]; exact hlt)
  · intro h c' k d' hc' hd' hcpos heq hlt
    rcases hcases hd' with ⟨-, rfl⟩ | ⟨-, d, hd, hdf, hdh, -, hdp, -⟩
    · obtain ⟨P', hP', hPf, -⟩ := hkept hP hpos
      exact ⟨p, P', hprev, hP', hPf.trans heq.symm⟩
    · obtain ⟨c, hc, hcf, hch⟩ : ∃ c, s.blocks h = some c ∧ c'.fork_id = c.fork_id ∧ c'.height = c.height := by
        rcases hcases hc' with ⟨-, rfl⟩ | ⟨-, c, hc, hcf, hch, -⟩
        · have hle := hlast hd (hdf.symm.trans heq.symm)
          change b.height < d'.height at hlt
          omega
        · exact ⟨c, hc, hcf, hch⟩
      obtain ⟨q, Q, hq, hQ, hQf⟩ := hs.forks.step hc hd (hcf ▸ hcpos) (by rw [← hcf, ← hdf, heq]) (by rw [← hch, ← hdh]; exact hlt)
      obtain ⟨Q', hQ', hQ'f, -⟩ := hkept hQ (by omega)
      exact ⟨q, Q', hdp.trans hq, hQ', by rw [hQ'f, hQf, hcf]⟩
  · intro q Q' c hQ' hc
    rcases hcases hQ' with ⟨rfl, rfl⟩ | ⟨-, Q, hQ, -, hQh, hQi, -, -, hQn⟩
    · change b.next = some c at hc
      obtain ⟨C, hC, hCh, hCi, hCpos⟩ := hs.forks.next hr.block hc
      obtain ⟨C', hC', hCf, hCh', hCi'⟩ := hkept hC hCpos
      exact ⟨C', hC', by rw [hCh', hCh]; rfl, by rw [hCi', hCi]; rfl, by rw [hCf]; exact hCpos⟩
    · rw [hQn] at hc
      split_ifs at hc with hq
      · -- the block itself comes next
        cases hc
        rw [hq] at hQ
        obtain rfl : Q = P := some.inj (hQ.symm.trans hP)
        refine ⟨forked Q.fork_id b, mapBlocks_some.2 ⟨b, hr.block, if_pos rfl⟩, ?_, ?_, hpos⟩
        · rw [hQh]
          exact hheight.symm
        · rw [hQi, hsource]
          exact hi
      · obtain ⟨C, hC, hCh, hCi, hCpos⟩ := hs.forks.next hQ hc
        obtain ⟨C', hC', hCf, hCh', hCi'⟩ := hkept hC hCpos
        exact ⟨C', hC', by rw [hCh', hCh, hQh], by rw [hCi', hCi, hQi], by rw [hCf]; exact hCpos⟩
  · intro j hj
    obtain ⟨h, c, hc, hci, hch, hcpos⟩ := hs.forks.first hj
    obtain ⟨c', hc', hcf, hch', hci'⟩ := hkept hc hcpos
    exact ⟨h, c', hc', hci'.trans hci, hch'.trans hch, by rw [hcf]; exact hcpos⟩
  · intro h c' j hc' hcpos hj
    rcases hcases hc' with ⟨-, rfl⟩ | ⟨-, c, hc, hcf, -, hci, -⟩
    · obtain rfl : j = i := some.inj (hj.symm.trans hi)
      have hmem := hs.forks.ids hP hpos hsource
      exact hmem
    · rw [hcf]
      exact hs.forks.ids hc (hcf ▸ hcpos) (hci ▸ hj)
  · exact hs.forks.ids_le
  · intro j h c' hc' hf
    rcases hcases hc' with ⟨-, rfl⟩ | ⟨-, c, hc, hcf, -, hci, -⟩
    · exact hi.trans (hsource.symm.trans (hs.forks.ids_source hP hf))
    · rw [hci]
      exact hs.forks.ids_source hc (hcf ▸ hf)
  · exact hs.forks.ids_blamed

theorem Inv.same_fork (hdel : P.state = .delivered) : Inv chain (· = hash) (s.mapBlocks (continued p hash P.fork_id)) := by
  have hne : hash ≠ chain.root_hash := hs.shape.ne_root hr.block (by rw [hr.state]; exact fun h => (by cases h))
  have hproot : p ≠ chain.root_hash := by
    rintro rfl
    rw [hs.shape.root, Option.some.injEq] at hP
    rw [← hP] at hsource
    cases hsource
  have hrest := fork_rest (F := P.fork_id) (g := continued p hash P.fork_id) hs hr (if_pos rfl)
    (fun h c hh hc => ⟨if h = p then some hash else c.next, if_neg hh, fun hnone => ?_⟩) ?_
  · refine ⟨hrest.1, hrest.2.1, Forks.same_fork hs hr hi hprev hP hnext hpos hheight hsource, hrest.2.2.1, hrest.2.2.2.1,
      hs.tables.map (fun h c hc => ?_) (fun h c hc hcdel => ?_) (fun h c j hc hill hj => ?_)⟩
    · unfold continued
      split_ifs
      · exact ⟨rfl, rfl⟩
      · exact ⟨rfl, rfl⟩
      · exact ⟨rfl, rfl⟩
    · unfold continued
      split_ifs
      · exact hcdel
      · exact hcdel
      · exact hcdel
    · have hstate : (continued p hash P.fork_id h c).state = c.state := by
        unfold continued
        split_ifs
        · rfl
        · rfl
        · rfl
      rw [hstate] at hill
      exact hs.tables.ill hc hill hj
  · split_ifs with heq
    · rw [heq] at hc
      rw [some.inj (hc.symm.trans hP), hdel] at hnone
      cases hnone
    · rfl
  · unfold continued
    rw [if_neg hne.symm, if_neg hproot.symm]

end SameFork

theorem Running.of_settled (hr : Ready s hash b) (hset : Settled s s') {F : ℕ} (hF : 0 < F) (hblock : s'.blocks hash = some (forked F b))
    (hdeps : ∀ f x, (forked F b).deps.getD f 0 ≤ x ↔ (f = F → b.height ≤ x) ∧ ∀ p ∈ b.parents, s.time p f ≤ x) :
    Running s' hash (forked F b) := by
  refine ⟨hblock, hr.state, hr.pending, hr.in_db, fun p hp => (hset.is_delivered p).trans (hr.parents p hp), hF, hr.apart, fun f x => ?_⟩
  rw [hdeps f x]
  refine and_congr Iff.rfl (forall_congr' fun p => forall_congr' fun hp => ?_)
  rw [hset.kept.time (hr.parents p hp)]

/-- What a new fork changes; a second one shows two blocks at one height. -/
theorem NewFork.forking (hr : Ready s hash b) (hi : b.source_id = some i) (hfork : NewFork i s t)
    (hother : (s.sources i).fork_ids ≠ [] → ∃ c C, s.blocks c = some C ∧ c ≠ hash ∧ C.source_id = some i ∧ C.height = b.height) {F : ℕ} :
    Forking s (t.modify hash (forked F)) hash := by
  have hbt : t.blocks hash = some b := by rw [hfork.blocks]; exact hr.block
  refine ⟨fun {h c} hne hc => ?_, fun {h c} hne hc => ?_, hfork.keys, hfork.to_run, hfork.log, hfork.local_idx, hfork.last_sent_block, fun j hj => ?_,
    fun j hj => ?_, fun {c j} hc hj => ?_⟩
  · rw [modify_of_ne t hne, hfork.blocks] at hc
    exact ⟨c, hc, c.next, rfl⟩
  · rw [modify_of_ne t hne, hfork.blocks]
    exact ⟨c.next, hc⟩
  · rcases eq_or_ne j i with rfl | hne
    · exact hfork.blamed hj
    · rw [← hfork.others j hne] at hj
      exact hj
  · rcases eq_or_ne j i with rfl | hne
    · rcases hfork.guilty hj with hj | hj
      · exact .inl hj
      · obtain ⟨c, C, hC, hne, hCi, hCh⟩ := hother hj
        exact .inr ⟨hash, _, c, C, modify_self t hbt, (modify_of_ne t hne).trans (by rw [hfork.blocks, hC]), hne.symm, hi, hCi, hCh.symm⟩
    · refine .inl ?_
      rw [← hfork.others j hne]
      exact hj
  · rw [some.inj (hc.symm.trans hr.block), hi] at hj
    exact hfork.others j fun h => hj (by rw [h])

theorem initialize_fork_spec (hs : Inv chain (· = hash) s) (hr : Ready s hash b) (hi : b.source_id = some i) :
    ∃ s' F, s.initialize_fork hash = .ok s' ∧ Inv chain (· = hash) s' ∧ Running s' hash (forked F b) ∧ Forking s s' hash := by
  have hne : hash ≠ chain.root_hash := hs.shape.ne_root hr.block (by rw [hr.state]; exact fun h => (by cases h))
  obtain ⟨-, -, hpos, -⟩ := hs.shape.ident hr.block hne
  obtain ⟨p, P, hprev, hP, hheight, hsource⟩ := (hs.shape.received hr.block hne (by rw [hr.state]; exact fun h => (by cases h))).prev
  have hpdel := hr.parents p (mem_append_left _ (by rw [hprev]; exact mem_singleton_self _))
  obtain ⟨P', hP', hPstate⟩ := is_delivered_iff.1 hpdel
  obtain rfl : P = P' := some.inj (hP.symm.trans hP')
  unfold initialize_fork
  rw [deref_eq hr.block, ok_bind, check_pos hr.state, ok_bind, check_pos hr.fork_id, ok_bind]
  -- after a new fork
  have hnew : ∀ {t}, NewFork i s t → (b.height = 1 ∨ (s.sources i).fork_ids ≠ []) →
      ((s.sources i).fork_ids ≠ [] → ∃ c C, s.blocks c = some C ∧ c ≠ hash ∧ C.source_id = some i ∧ C.height = b.height) →
      s.choose_fork hash b = .ok (t, s.total_forks + 1) →
      ∃ s' F, (s.choose_fork hash b >>= fun r => do
        check .fork_height (b.deps.getD r.2 0 < b.height)
        .ok (r.1.modify hash fun b => { b with fork_id := r.2, deps := set_fork r.2 b.height b.deps })) = .ok s' ∧
        Inv chain (· = hash) s' ∧ Running s' hash (forked F b) ∧ Forking s s' hash := by
    intro t hfork hfirst hother hchoose
    have hbt : t.blocks hash = some b := by rw [hfork.blocks]; exact hr.block
    obtain ⟨hlt, hdeps⟩ := Running.of_ready hs hr (F := s.total_forks + 1) (fun a A hA heq => by
      have hle := hs.forks.le hA
      omega) hpos
    rw [hchoose, ok_bind]
    dsimp only
    rw [check_pos hlt, ok_bind]
    have hset : Settled s (t.modify hash (forked (s.total_forks + 1))) := by
      refine ⟨fun h c hc hdel => ⟨c, ?_, hdel, rfl, rfl, rfl, rfl⟩, fun h c hc hdel => ?_⟩
      · rw [modify_of_ne t, hfork.blocks, hc]
        rintro rfl
        rw [some.inj (hc.symm.trans hr.block), hr.state] at hdel
        cases hdel
      · rcases modify_cases hbt hc with ⟨-, rfl⟩ | ⟨-, hc⟩
        · change b.state = .delivered at hdel
          rw [hr.state] at hdel
          cases hdel
        · exact ⟨c, hfork.blocks ▸ hc, hdel⟩
    exact ⟨_, s.total_forks + 1, rfl, Inv.new_fork hs hr hi hfork hfirst, .of_settled hr hset (succ_pos _) (modify_self t hbt) hdeps,
      hfork.forking hr hi hother⟩
  obtain ⟨t, hadd, hfork⟩ := add_fork_spec hs.tables (i := i) hs.forks.ids_blamed
  by_cases hone : b.height = 1
  · refine hnew hfork (.inl hone) (fun hids => ?_) ?_
    · obtain ⟨c, C, hC, hCi, hCh, hCpos⟩ := hs.forks.first hids
      refine ⟨c, C, hC, ?_, hCi, hCh.trans hone.symm⟩
      rintro rfl
      rw [some.inj (hC.symm.trans hr.block), hr.fork_id] at hCpos
      exact lt_irrefl 0 hCpos
    · rw [choose_fork, hi, source_of, ok_bind, if_pos hone, hadd]
  have hproot : p ≠ chain.root_hash := by
    rintro rfl
    rw [hs.shape.root, Option.some.injEq] at hP
    rw [← hP] at hheight
    exact hone hheight.symm
  have hPsource : P.source_id = some i := (hsource.resolve_left hproot).trans hi
  have hPpos := hs.forks.delivered hP hPstate hproot
  cases hnext : P.next with
  | some c =>
    refine hnew hfork (.inr (ne_nil_of_mem (hs.forks.ids hP hPpos hPsource))) (fun _ => ?_) ?_
    · obtain ⟨C, hC, hCh, hCi, hCpos⟩ := hs.forks.next hP hnext
      refine ⟨c, C, hC, ?_, hCi.trans hPsource, hCh.trans hheight⟩
      rintro rfl
      rw [some.inj (hC.symm.trans hr.block), hr.fork_id] at hCpos
      exact lt_irrefl 0 hCpos
    · rw [choose_fork, hi, source_of, ok_bind, if_neg hone, hprev]
      dsimp only
      rw [deref_eq hP, ok_bind, hnext, if_neg (by simp), hadd]
  | none =>
    obtain ⟨hlt, hdeps⟩ := Running.of_ready hs hr (F := P.fork_id) (fun a A hA heq => by
      by_contra hge
      have htop := hs.forks.top hP hA hPpos heq.symm (by omega)
      rw [hnext] at htop
      cases htop) hpos
    have hchoose : s.choose_fork hash b = .ok (s.modify p fun c => { c with next := some hash }, P.fork_id) := by
      rw [choose_fork, hi, source_of, ok_bind, if_neg hone, hprev]
      dsimp only
      rw [deref_eq hP, ok_bind, hnext, if_pos Option.isNone_none]
    rw [hchoose, ok_bind]
    dsimp only
    rw [check_pos hlt, ok_bind]
    have heq := continued_eq hs hr hP hPpos
    refine ⟨_, P.fork_id, congrArg Except.ok heq, Inv.same_fork hs hr hi hprev hP hnext hPpos hheight hPsource hPstate, ?_, ?_⟩
    · refine .of_settled hr (map_settled (fun h c _ => ?_) fun h c hc hdel => ?_) hPpos (mapBlocks_some.2 ⟨b, hr.block, if_pos rfl⟩) hdeps
      · unfold continued
        split_ifs
        · exact Iff.rfl
        · exact Iff.rfl
        · exact Iff.rfl
      · have hh : h ≠ hash := by
          rintro rfl
          rw [some.inj (hc.symm.trans hr.block), hr.state] at hdel
          cases hdel
        unfold continued
        rw [if_neg hh]
        exact ⟨rfl, rfl, rfl, rfl⟩
    · refine ⟨fun {h c'} hh hc' => ?_, fun {h c} hh hc => ?_, rfl, rfl, rfl, rfl, rfl, fun _ => id, fun _ => .inl,
        fun _ _ => rfl⟩
      · obtain ⟨c, hc, rfl⟩ := mapBlocks_some.1 hc'
        exact ⟨c, hc, _, if_neg hh⟩
      · exact ⟨_, mapBlocks_some.2 ⟨c, hc, if_neg hh⟩⟩

end Receiver

end Ton.Catchain
