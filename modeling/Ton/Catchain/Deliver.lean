import Ton.Catchain.PreDeliver
/-!
# A block is delivered

`deliver` hands the block out and tells the blocks that wait for it. With it a whole
turn of the scheduler keeps the invariant, and the scheduler comes to an end.
-/

namespace Ton.Catchain
open Result List
open Option (some.inj)

variable {n : ℕ} {Payload : Type} {chain : Chain n Payload} {ex : Hash → Prop} {bad : Crash → Prop}

namespace Receiver

variable {s s' t : Receiver n Payload} {i : Fin n} {h hash : Hash} {b c : ReceivedBlock n Payload}

/-! ## The blocks that wait -/

/-- A waiting block after one of its parents was delivered. -/
def told (d : List ℕ) (b : ReceivedBlock n Payload) : ReceivedBlock n Payload :=
  if b.is_ill then b else { b with deps := update_deps b.deps d, pending_deps := b.pending_deps - 1 }

/-- Whether the block is scheduled when it is told. -/
def wakes (s : Receiver n Payload) (h : Hash) : Bool := (s.blocks h).any fun b => !b.is_ill && (b.pending_deps - 1 = 0 && b.in_db : Bool)

theorem dep_delivered_eq (d : List ℕ) (hb : s.blocks hash = some b) : dep_delivered d s hash =
    .ok ((s.modify hash (told d)).queued (if s.wakes hash then s.to_run ++ [hash] else s.to_run)) := by
  unfold dep_delivered
  rw [deref_eq hb, ok_bind]
  by_cases hill : b.is_ill = true
  · rw [if_pos hill, if_neg]
    · refine congrArg Except.ok ?_
      rw [modify_eq]
      rw [mapBlocks_eq_self fun h c hc => ?_]
      · rfl
      · split_ifs with heq
        · rw [heq] at hc
          rw [some.inj (hc.symm.trans hb), told, if_pos hill]
        · rfl
    · rw [wakes, hb]
      simp [hill]
  · rw [if_neg hill]
    have hmodify : (s.modify hash fun b => { b with deps := update_deps b.deps d, pending_deps := b.pending_deps - 1 }) = s.modify hash (told d) := by
      rw [modify_eq, modify_eq]
      refine mapBlocks_congr fun h c hc => ?_
      split_ifs with heq
      · rw [heq] at hc
        rw [some.inj (hc.symm.trans hb), told, if_neg hill]
      · rfl
    rw [hmodify, schedule_if_ready, deref_eq (modify_self s hb), ok_bind]
    have hwakes : s.wakes hash = true ↔ (told d b).pending_deps = 0 ∧ (told d b).in_db = true := by
      rw [wakes, hb, told, if_neg hill]
      simp [hill]
    refine congrArg Except.ok ?_
    by_cases hw : s.wakes hash = true
    · rw [if_pos (hwakes.1 hw), if_pos hw]
      rfl
    · rw [if_neg fun h => hw (hwakes.2 h), if_neg hw]
      rfl

theorem foldlM_dep_delivered (d : List ℕ) (l : List Hash) (hnd : l.Nodup) (hknown : ∀ c ∈ l, ∃ C, s.blocks c = some C) :
    l.foldlM (dep_delivered d) s = .ok ((s.mapBlocks fun h b => if h ∈ l then told d b else b).queued (s.to_run ++ l.filter s.wakes)) := by
  induction l generalizing s with
  | nil =>
    rw [foldlM_nil]
    refine congrArg Except.ok ?_
    rw [mapBlocks_eq_self fun h c _ => if_neg (not_mem_nil)]
    rw [filter_nil, append_nil]
    rfl
  | cons c l ih =>
    obtain ⟨C, hC⟩ := hknown c (mem_cons_self ..)
    rw [nodup_cons] at hnd
    rw [foldlM_cons, dep_delivered_eq d hC, ok_bind]
    have hother : ∀ k ∈ l, ((s.modify c (told d)).queued (if s.wakes c then s.to_run ++ [c] else s.to_run)).blocks k = s.blocks k := by
      intro k hk
      refine modify_of_ne s ?_
      rintro rfl
      exact hnd.1 hk
    rw [ih hnd.2 fun k hk => ⟨_, (hother k hk).trans (hknown k (mem_cons_of_mem _ hk)).choose_spec⟩]
    refine congrArg Except.ok ?_
    have hfilter : l.filter ((s.modify c (told d)).queued (if s.wakes c then s.to_run ++ [c] else s.to_run)).wakes = l.filter s.wakes :=
      filter_congr fun k hk => by rw [wakes, hother k hk, wakes]
    have hblocks : (s.modify c (told d)).mapBlocks (fun h b => if h ∈ l then told d b else b) =
        s.mapBlocks fun h b => if h ∈ c :: l then told d b else b := by
      rw [modify_eq, mapBlocks_mapBlocks]
      refine mapBlocks_congr fun h b _ => ?_
      rcases eq_or_ne h c with rfl | hne
      · rw [if_neg hnd.1, if_pos rfl, if_pos (mem_cons_self ..)]
      · rw [if_neg hne]
        exact if_congr (by rw [mem_cons, or_iff_right hne]) rfl rfl
    rw [hfilter]
    change ((s.modify c (told d)).mapBlocks (fun h b => if h ∈ l then told d b else b)).queued
      ((if s.wakes c then s.to_run ++ [c] else s.to_run) ++ l.filter s.wakes) = _
    rw [hblocks]
    congr 1
    rw [filter_cons]
    split_ifs
    · rw [append_assoc, singleton_append]
    · rfl

/-! ## The block itself -/

/-- The blocks after `hash`, for which `l` wait, was delivered with the vector `d`. -/
def handed (hash : Hash) (l : List Hash) (d : List ℕ) (h : Hash) (b : ReceivedBlock n Payload) : ReceivedBlock n Payload :=
  if h = hash then { b with state := .delivered, rev_deps := [] } else if h ∈ l then told d b else b

/-- The receiver after a block was delivered, but for the table of its source. -/
def deliverTo (s : Receiver n Payload) (hash : Hash) (b : ReceivedBlock n Payload) : Receiver n Payload :=
  { (s.mapBlocks (handed hash b.rev_deps b.deps)).queued (s.to_run ++ b.rev_deps.filter s.wakes) with calls := s.calls ++ [.new_block hash] }

theorem deliver_eq (hs : Inv chain (· = hash) s) (hr : Running s hash b) (hi : b.source_id = some i) :
    s.deliver hash = .ok ((s.deliverTo hash b).block_delivered i b.height) := by
  have hne : hash ≠ chain.root_hash := hs.shape.ne_root hr.block (by rw [hr.state]; exact fun h => (by cases h))
  obtain ⟨-, -, hpos, -⟩ := hs.shape.ident hr.block hne
  unfold deliver
  rw [deref_eq hr.block, ok_bind, if_neg (by rw [ReceivedBlock.is_ill, hr.state]; decide), check_pos hr.state, ok_bind, check_pos hr.pending,
    ok_bind, check_pos hr.in_db, ok_bind, check_pos hpos, ok_bind]
  dsimp only
  have hother : ∀ k ∈ b.rev_deps, (({ s with calls := s.calls ++ [Call.new_block hash] } : Receiver n Payload).modify hash
      fun b => { b with state := .delivered }).blocks k = s.blocks k := by
    intro k hk
    refine modify_of_ne _ ?_
    rintro rfl
    exact hr.apart hk
  rw [foldlM_dep_delivered b.deps b.rev_deps (hs.links.rev_nodup hr.block) fun k hk => by
    obtain ⟨C, hC, -⟩ := hs.links.rev_known hr.block hk
    exact ⟨C, (hother k hk).trans hC⟩]
  rw [ok_bind, hi, source_of, ok_bind]
  refine congrArg (fun s : Receiver n Payload => Except.ok (s.block_delivered i b.height)) ?_
  have hfilter : b.rev_deps.filter (({ s with calls := s.calls ++ [Call.new_block hash] } : Receiver n Payload).modify hash
      fun b => { b with state := .delivered }).wakes = b.rev_deps.filter s.wakes :=
    filter_congr fun k hk => by rw [wakes, hother k hk, wakes]
  rw [hfilter, modify_eq, modify_eq]
  unfold deliverTo
  have hblocks : (((s.mapBlocks fun h b => if h = hash then { b with state := .delivered } else b).mapBlocks
      fun h c => if h ∈ b.rev_deps then told b.deps c else c).mapBlocks fun h b => if h = hash then { b with rev_deps := [] } else b) =
      s.mapBlocks (handed hash b.rev_deps b.deps) := by
    rw [mapBlocks_mapBlocks, mapBlocks_mapBlocks]
    refine mapBlocks_congr fun h c _ => ?_
    unfold handed
    rcases eq_or_ne h hash with rfl | hh
    · rw [if_pos rfl, if_neg hr.apart, if_pos rfl, if_pos rfl]
    · rw [if_neg hh, if_neg hh, if_neg hh]
  rw [← hblocks]
  rfl

section DeliverTo

variable (hs : Inv chain (· = hash) s) (hr : Running s hash b)

theorem told_fields (d : List ℕ) (c : ReceivedBlock n Payload) : (told d c).source_id = c.source_id ∧ (told d c).height = c.height ∧
    (told d c).fork_id = c.fork_id ∧ (told d c).next = c.next ∧ (told d c).state = c.state ∧ (told d c).rev_deps = c.rev_deps ∧
    (told d c).in_db = c.in_db ∧ (told d c).parents = c.parents ∧ (told d c).prev = c.prev := by
  unfold told
  split_ifs
  · exact ⟨rfl, rfl, rfl, rfl, rfl, rfl, rfl, rfl, rfl⟩
  · exact ⟨rfl, rfl, rfl, rfl, rfl, rfl, rfl, rfl, rfl⟩

theorem told_of_initialized (d : List ℕ) (hstate : c.state = .initialized) :
    told d c = { c with deps := update_deps c.deps d, pending_deps := c.pending_deps - 1 } := by
  rw [told, if_neg]
  rw [ReceivedBlock.is_ill, hstate]
  decide

theorem handed_fields (hash : Hash) (l : List Hash) (d : List ℕ) (h : Hash) (c : ReceivedBlock n Payload) :
    (handed hash l d h c).source_id = c.source_id ∧
    (handed hash l d h c).height = c.height ∧ (handed hash l d h c).fork_id = c.fork_id ∧ (handed hash l d h c).next = c.next ∧
    (handed hash l d h c).in_db = c.in_db ∧ (handed hash l d h c).parents = c.parents ∧ (handed hash l d h c).prev = c.prev := by
  obtain ⟨h1, h2, h3, h4, -, -, h7, h8, h9⟩ := told_fields d c
  unfold handed
  split_ifs
  · exact ⟨rfl, rfl, rfl, rfl, rfl, rfl, rfl⟩
  · exact ⟨h1, h2, h3, h4, h7, h8, h9⟩
  · exact ⟨rfl, rfl, rfl, rfl, rfl, rfl, rfl⟩

theorem handed_state_of_ne (l : List Hash) (d : List ℕ) (hne : h ≠ hash) (c : ReceivedBlock n Payload) :
    (handed hash l d h c).state = c.state ∧ (handed hash l d h c).rev_deps = c.rev_deps := by
  obtain ⟨-, -, -, -, h5, h6, -⟩ := told_fields d c
  unfold handed
  rw [if_neg hne]
  split_ifs
  · exact ⟨h5, h6⟩
  · exact ⟨rfl, rfl⟩

include hs hr

theorem handed_keeps (hc : s.blocks h = some c) : Keeps c (handed hash b.rev_deps b.deps h c) := by
  have hinit : ∀ d : List ℕ, h ∈ b.rev_deps → c.state = .none → Keeps c (told d c) := by
    intro d hmem hnone
    obtain ⟨C, hC, hstate⟩ := hs.links.rev_known hr.block hmem
    rw [some.inj (hC.symm.trans hc), hnone] at hstate
    rcases hstate with h | h
    · cases h
    · cases h
  unfold handed
  split_ifs with heq hmem
  · rw [heq] at hc
    refine ⟨rfl, rfl, rfl, rfl, rfl, rfl, ?_, fun hnone => ?_⟩
    · rw [some.inj (hc.symm.trans hr.block), hr.state]
      exact iff_of_false (fun h => (by cases h)) (fun h => (by cases h))
    · rw [some.inj (hc.symm.trans hr.block), hr.state] at hnone
      cases hnone
  · by_cases hnone : c.state = .none
    · exact hinit _ hmem hnone
    · unfold told
      split_ifs
      · exact .refl c
      · exact ⟨rfl, rfl, rfl, rfl, rfl, rfl, Iff.rfl, fun h => absurd h hnone⟩
  · exact .refl c

theorem deliverTo_is_delivered (h : Hash) : (s.deliverTo hash b).is_delivered h = true ↔ s.is_delivered h = true ∨ h = hash := by
  rw [is_delivered_iff, is_delivered_iff]
  constructor
  · rintro ⟨c', hc', hstate⟩
    obtain ⟨c, hc, rfl⟩ := mapBlocks_some.1 hc'
    by_cases hne : h = hash
    · exact .inr hne
    · rw [(handed_state_of_ne b.rev_deps b.deps hne c).1] at hstate
      exact .inl ⟨c, hc, hstate⟩
  · rintro (⟨c, hc, hstate⟩ | rfl)
    · have hne : h ≠ hash := by
        rintro rfl
        rw [some.inj (hc.symm.trans hr.block), hr.state] at hstate
        cases hstate
      exact ⟨_, mapBlocks_some.2 ⟨c, hc, rfl⟩, by rw [(handed_state_of_ne b.rev_deps b.deps hne c).1]; exact hstate⟩
    · exact ⟨_, mapBlocks_some.2 ⟨b, hr.block, rfl⟩, by rw [handed, if_pos rfl]⟩

theorem deliverTo_kept : Kept s (s.deliverTo hash b) := by
  intro h c hc hstate
  have hne : h ≠ hash := by
    rintro rfl
    rw [some.inj (hc.symm.trans hr.block), hr.state] at hstate
    cases hstate
  -- a delivered block does not wait
  have hmem : h ∉ b.rev_deps := by
    intro hmem
    obtain ⟨C, hC, hCstate⟩ := hs.links.rev_known hr.block hmem
    rw [some.inj (hC.symm.trans hc), hstate] at hCstate
    rcases hCstate with h | h
    · cases h
    · cases h
  refine ⟨c, mapBlocks_some.2 ⟨c, hc, ?_⟩, hstate, rfl, rfl, rfl, rfl⟩
  rw [handed, if_neg hne, if_neg hmem]

omit hs in
theorem undelivered_own : s.is_delivered hash = false := by
  rw [is_delivered_of hr.block, hr.state]
  rfl

omit hs hr in
theorem deliverTo_initialized {k : Hash} {c' : ReceivedBlock n Payload} (hc' : (s.deliverTo hash b).blocks k = some c')
    (hstate : c'.state = .initialized) : ∃ c, s.blocks k = some c ∧ c.state = .initialized ∧ k ≠ hash ∧ c'.parents = c.parents ∧ c'.in_db = c.in_db ∧
      (c'.pending_deps = if k ∈ b.rev_deps then c.pending_deps - 1 else c.pending_deps) ∧
      c'.deps = if k ∈ b.rev_deps then update_deps c.deps b.deps else c.deps := by
  obtain ⟨c, hc, rfl⟩ := mapBlocks_some.1 hc'
  have hne : k ≠ hash := by
    rintro rfl
    rw [handed, if_pos rfl] at hstate
    cases hstate
  rw [(handed_state_of_ne b.rev_deps b.deps hne c).1] at hstate
  obtain ⟨-, -, -, -, hdb, hparents, -⟩ := handed_fields hash b.rev_deps b.deps k c
  refine ⟨c, hc, hstate, hne, hparents, hdb, ?_⟩
  rw [handed, if_neg hne]
  split_ifs
  · rw [told_of_initialized b.deps hstate]
    exact ⟨rfl, rfl⟩
  · exact ⟨rfl, rfl⟩

theorem waits_iff (hc : s.blocks h = some c) (hstate : c.state = .initialized) (hne : h ≠ hash) : h ∈ b.rev_deps ↔ hash ∈ c.parents :=
  hs.links.rev_iff hr.block (by rw [hr.state]; exact fun h => (by cases h)) hc hstate hne

theorem deliverTo_links : Links chain nothing (s.deliverTo hash b) := by
  have hdel := deliverTo_is_delivered hs hr
  have hwaits : ∀ {k c}, s.blocks k = some c → c.state = .initialized → k ≠ hash → (k ∈ b.rev_deps ↔ hash ∈ c.parents) := fun hc hstate hne =>
    waits_iff hs hr hc hstate hne
  -- of the parents that a block waits for, `hash` is taken away
  have hfilter : ∀ {c : ReceivedBlock n Payload}, (c.parents.filter fun p => !(s.deliverTo hash b).is_delivered p) =
      (c.parents.filter fun p => !s.is_delivered p).filter fun p => p != hash := by
    intro c
    rw [filter_filter]
    refine filter_congr fun p _ => ?_
    rw [Bool.eq_iff_iff, Bool.not_eq_true', ← Bool.not_eq_true, hdel p]
    simp [not_or, and_comm]
  have hcount : ∀ {k c}, s.blocks k = some c → c.state = .initialized → k ≠ hash →
      (if k ∈ b.rev_deps then c.pending_deps - 1 else c.pending_deps) = (c.parents.filter fun p => !(s.deliverTo hash b).is_delivered p).length := by
    intro k c hc hstate hne
    rw [hfilter, hs.links.pending hc hstate hne, ← (hs.shape.undelivered_nodup hc).erase_eq_filter hash]
    split_ifs with hmem
    · rw [length_erase_of_mem]
      exact mem_filter.2 ⟨(hwaits hc hstate hne).1 hmem, by rw [undelivered_own hr]; rfl⟩
    · rw [erase_of_not_mem]
      exact fun h => hmem ((hwaits hc hstate hne).2 (mem_filter.1 h).1)
  have hwakes : ∀ {k c}, s.blocks k = some c → c.state = .initialized → (s.wakes k = true ↔ c.pending_deps - 1 = 0 ∧ c.in_db = true) := by
    intro k c hc hstate
    rw [wakes, hc]
    simp [ReceivedBlock.is_ill, hstate]
  -- a block that waits is not scheduled yet
  have hqueue : ∀ k ∈ b.rev_deps.filter s.wakes, k ∉ s.to_run := by
    intro k hk hmem
    obtain ⟨hk, hw⟩ := mem_filter.1 hk
    obtain ⟨C, hC, hstate | hill⟩ := hs.links.rev_known hr.block hk
    · have hne : k ≠ hash := by
        rintro rfl
        exact hr.apart hk
      have hpending := hs.links.pending hC hstate hne
      rw [((hs.links.queue_iff hC hstate hne).1 hmem).1, eq_comm, length_eq_zero_iff] at hpending
      have hmem' : hash ∈ C.parents.filter fun p => !s.is_delivered p :=
        mem_filter.2 ⟨(hwaits hC hstate hne).1 hk, by rw [undelivered_own hr]; rfl⟩
      rw [hpending] at hmem'
      cases hmem'
    · rw [wakes, hC] at hw
      simp [ReceivedBlock.is_ill, hill] at hw
  constructor
  · intro p P' k hP' hk
    obtain ⟨P, hP, rfl⟩ := mapBlocks_some.1 hP'
    have hk' : k ∈ P.rev_deps := by
      rcases eq_or_ne p hash with rfl | hne
      · rw [handed, if_pos rfl] at hk
        cases hk
      · rwa [(handed_state_of_ne b.rev_deps b.deps hne P).2] at hk
    obtain ⟨C, hC, hstate⟩ := hs.links.rev_known hP hk'
    by_cases hne : k = hash
    · -- the block itself does not wait for another one
      rw [hne] at hk' hC
      obtain ⟨hPstate, hmem⟩ := hs.links.waits hP hk' hr.block hr.state
      obtain ⟨Q, hQ, hQstate⟩ := is_delivered_iff.1 (hr.parents p hmem)
      rw [some.inj (hQ.symm.trans hP)] at hQstate
      exact absurd hQstate hPstate
    · exact ⟨_, mapBlocks_some.2 ⟨C, hC, rfl⟩, by rw [(handed_state_of_ne b.rev_deps b.deps hne C).1]; exact hstate⟩
  · intro p P' k C' hP' hPstate hC' hCstate _
    obtain ⟨P, hP, rfl⟩ := mapBlocks_some.1 hP'
    obtain ⟨C, hC, hstate, hne, hparents, -⟩ := deliverTo_initialized hC' hCstate
    have hpne : p ≠ hash := by
      rintro rfl
      rw [handed, if_pos rfl] at hPstate
      exact hPstate rfl
    rw [(handed_state_of_ne b.rev_deps b.deps hpne P).1] at hPstate
    rw [(handed_state_of_ne b.rev_deps b.deps hpne P).2, hparents]
    exact hs.links.rev_iff hP hPstate hC hstate hne
  · intro p P' hP'
    obtain ⟨P, hP, rfl⟩ := mapBlocks_some.1 hP'
    rcases eq_or_ne p hash with rfl | hne
    · rw [handed, if_pos rfl]
      exact nodup_nil
    · rw [(handed_state_of_ne b.rev_deps b.deps hne P).2]
      exact hs.links.rev_nodup hP
  · intro k C' hC' hCstate _
    obtain ⟨C, hC, hstate, hne, hparents, -, hpending, -⟩ := deliverTo_initialized hC' hCstate
    rw [hpending, hparents]
    exact hcount hC hstate hne
  · refine nodup_append.2 ⟨hs.links.queue_nodup, (hs.links.rev_nodup hr.block).filter _, ?_⟩
    rintro x hx y hy rfl
    exact hqueue x hy hx
  · intro k hk
    have hold : ∃ c, s.blocks k = some c ∧ c.state ≠ .none ∧ c.in_db = true := by
      rcases mem_append.1 hk with hk | hk
      · exact hs.links.queue_known hk
      · obtain ⟨hk, hw⟩ := mem_filter.1 hk
        obtain ⟨C, hC, hstate⟩ := hs.links.rev_known hr.block hk
        rw [wakes, hC] at hw
        refine ⟨C, hC, ?_, ?_⟩
        · rcases hstate with h | h
          · rw [h]
            exact fun h => (by cases h)
          · rw [h]
            exact fun h => (by cases h)
        · simp only [Option.any_some, Bool.and_eq_true] at hw
          exact hw.2.2
    obtain ⟨c, hc, hstate, hdb⟩ := hold
    have hk := handed_keeps hs hr hc
    refine ⟨_, mapBlocks_some.2 ⟨c, hc, rfl⟩, fun h => hstate (hk.none_iff.1 h), ?_⟩
    rw [(handed_fields hash b.rev_deps b.deps k c).2.2.2.2.1]
    exact hdb
  · intro k C' hC' hCstate _
    obtain ⟨C, hC, hstate, hne, hparents, hdb, hpending, -⟩ := deliverTo_initialized hC' hCstate
    change k ∈ s.to_run ++ b.rev_deps.filter s.wakes ↔ _
    rw [mem_append, mem_filter, hs.links.queue_iff hC hstate hne, hwakes hC hstate, hpending, hdb]
    split_ifs with hmem
    · -- it waited for `hash`, so its counter was positive
      have hpos : C.pending_deps ≠ 0 := by
        rw [hs.links.pending hC hstate hne]
        refine (length_pos_of_mem (a := hash) (mem_filter.2 ⟨(hwaits hC hstate hne).1 hmem, ?_⟩)).ne'
        rw [undelivered_own hr]
        rfl
      exact ⟨fun h => h.elim (fun h => absurd h.1 hpos) fun h => h.2, fun h => .inr ⟨hmem, h⟩⟩
    · exact ⟨fun h => h.elim id fun h => absurd h.1 hmem, .inl⟩
  · intro k C' hC' hCstate hroot
    obtain ⟨C, hC, rfl⟩ := mapBlocks_some.1 hC'
    obtain ⟨-, -, -, -, hdb, hparents, -⟩ := handed_fields hash b.rev_deps b.deps k C
    rw [hdb, hparents]
    rcases eq_or_ne k hash with rfl | hne
    · rw [some.inj (hC.symm.trans hr.block)]
      refine ⟨hr.in_db, ?_, fun p hp => (hdel p).2 (.inl (hr.parents p hp))⟩
      rw [handed, if_pos rfl]
      exact hr.pending
    · rw [(handed_state_of_ne b.rev_deps b.deps hne C).1] at hCstate
      obtain ⟨hCdb, hCpending, hCparents⟩ := hs.links.delivered hC hCstate hroot
      refine ⟨hCdb, ?_, fun p hp => (hdel p).2 (.inl (hCparents p hp))⟩
      obtain ⟨C'', hC'', -⟩ := deliverTo_kept hs hr k C hC hCstate
      have hmem : k ∉ b.rev_deps := by
        intro hmem
        obtain ⟨D, hD, hDstate⟩ := hs.links.rev_known hr.block hmem
        rw [some.inj (hD.symm.trans hC), hCstate] at hDstate
        rcases hDstate with h | h
        · cases h
        · cases h
      rw [handed, if_neg hne, if_neg hmem]
      exact hCpending
  · intro p P' k C' hP' hk hC' hCstate
    obtain ⟨P, hP, rfl⟩ := mapBlocks_some.1 hP'
    obtain ⟨C, hC, hstate, hne, hparents, -⟩ := deliverTo_initialized hC' hCstate
    have hpne : p ≠ hash := by
      rintro rfl
      rw [handed, if_pos rfl] at hk
      cases hk
    rw [(handed_state_of_ne b.rev_deps b.deps hpne P).2] at hk
    rw [(handed_state_of_ne b.rev_deps b.deps hpne P).1, hparents]
    exact hs.links.waits hP hk hC hstate

theorem deliverTo_time (h : Hash) (hdel : (s.deliverTo hash b).is_delivered h = true) (f : ℕ) : (s.deliverTo hash b).time h f = s.time h f := by
  rcases (deliverTo_is_delivered hs hr h).1 hdel with hdel | rfl
  · exact (deliverTo_kept hs hr).time hdel f
  · have hb : (s.deliverTo h b).blocks h = some (handed h b.rev_deps b.deps h b) := mapBlocks_some.2 ⟨b, hr.block, rfl⟩
    rw [time_of hb, time_of hr.block, handed, if_pos rfl]

theorem deliverTo_times : Times nothing (s.deliverTo hash b) := by
  have hkept := deliverTo_kept hs hr
  constructor
  · intro h c' hc' hstate f
    rcases (deliverTo_is_delivered hs hr h).1 (is_delivered_iff.2 ⟨c', hc', hstate⟩) with hdel | rfl
    · have htime := hkept.timeAt hs.shape hs.links hdel (f := f) (t := s.time h f) (by
        obtain ⟨c, hc, hcstate⟩ := is_delivered_iff.1 hdel
        rw [time_of hc]
        exact hs.times.delivered hc hcstate f)
      rw [← hkept.time hdel, time_of hc'] at htime
      exact htime
    · -- the vector of the block is joined from those of its parents
      obtain ⟨c, hc, rfl⟩ := mapBlocks_some.1 hc'
      obtain rfl : c = b := some.inj (hc.symm.trans hr.block)
      obtain ⟨-, hheight, hfork, -, -, hparents, -⟩ := handed_fields h c.rev_deps c.deps h c
      have hdeps : (handed h c.rev_deps c.deps h c).deps = c.deps := by rw [handed, if_pos rfl]
      rw [hdeps]
      have hparent : ∀ p, (s.deliverTo h c).history.parent p h ↔ p ∈ c.parents := by
        intro p
        constructor
        · rintro ⟨c', hc'', hp⟩
          rw [← some.inj (hc'.symm.trans hc''), hparents] at hp
          exact hp
        · exact fun hp => ⟨_, hc', hparents ▸ hp⟩
      refine History.timeAt_of_parents (fun p => s.time p f) (fun p hp => ?_) fun x => ?_
      · have hpdel := hr.parents p ((hparent p).1 hp)
        refine hkept.timeAt hs.shape hs.links hpdel ?_
        obtain ⟨P, hP, hPstate⟩ := is_delivered_iff.1 hpdel
        rw [time_of hP]
        exact hs.times.delivered hP hPstate f
      · rw [hr.deps f x, eq_comm (a := f)]
        simp only [hparent]
        simp only [history, hc', Option.elim_some, hheight, hfork]
  · intro k c' hc' hstate _ f x
    obtain ⟨c, hc, hcstate, hne, hparents, -, -, hdeps⟩ := deliverTo_initialized hc' hstate
    have hold := hs.times.initialized hc hcstate hne f x
    have hwaits := waits_iff hs hr hc hcstate hne
    rw [hparents, hdeps]
    -- the parents delivered before, and the block itself if it is one
    have hsplit : (∀ p ∈ c.parents, (s.deliverTo hash b).is_delivered p = true → (s.deliverTo hash b).time p f ≤ x) ↔
        (∀ p ∈ c.parents, s.is_delivered p = true → s.time p f ≤ x) ∧ (hash ∈ c.parents → b.deps.getD f 0 ≤ x) := by
      constructor
      · refine fun h => ⟨fun p hp hdel => ?_, fun hmem => ?_⟩
        · have hdel' := (deliverTo_is_delivered hs hr p).2 (.inl hdel)
          rw [← deliverTo_time hs hr p hdel']
          exact h p hp hdel'
        · have hdel' := (deliverTo_is_delivered hs hr hash).2 (.inr rfl)
          rw [← time_of hr.block, ← deliverTo_time hs hr hash hdel']
          exact h hash hmem hdel'
      · rintro ⟨hbefore, hself⟩ p hp hdel
        rw [deliverTo_time hs hr p hdel]
        rcases (deliverTo_is_delivered hs hr p).1 hdel with hdel | rfl
        · exact hbefore p hp hdel
        · rw [time_of hr.block]
          exact hself hp
    rw [hsplit, ← hold, ← hwaits]
    split_ifs with hmem
    · rw [getD_update_deps, max_le_iff]
      exact and_congr Iff.rfl ⟨fun h _ => h, fun h => h hmem⟩
    · exact ⟨fun h => ⟨h, fun h' => absurd h' hmem⟩, And.left⟩

omit hs hr in
theorem deliverTo_log_eq : (s.deliverTo hash b).delivered_log = s.delivered_log ++ [hash] := by
  unfold delivered_log
  change (s.calls ++ [Call.new_block hash]).filterMap Call.delivered_hash = _
  rw [filterMap_append]
  rfl

theorem deliverTo_log : Log chain (s.deliverTo hash b) := by
  have hnew : hash ∉ s.delivered_log := by
    intro hmem
    have hdel := ((hs.log.mem hash).1 hmem).1
    rw [undelivered_own hr] at hdel
    cases hdel
  have hroot : hash ≠ chain.root_hash := hs.shape.ne_root hr.block (by rw [hr.state]; exact fun h => (by cases h))
  have hparents : ∀ {k c'}, (s.deliverTo hash b).blocks k = some c' → ∃ c, s.blocks k = some c ∧ c'.parents = c.parents := by
    intro k c' hc'
    obtain ⟨c, hc, rfl⟩ := mapBlocks_some.1 hc'
    exact ⟨c, hc, (handed_fields _ b.rev_deps b.deps k c).2.2.2.2.2.1⟩
  constructor
  · rw [deliverTo_log_eq]
    refine nodup_append.2 ⟨hs.log.nodup, nodup_singleton _, ?_⟩
    rintro x hx y hy rfl
    rw [mem_singleton.1 hy] at hx
    exact hnew hx
  · intro h
    rw [deliverTo_log_eq, mem_append, mem_singleton, hs.log.mem, deliverTo_is_delivered hs hr]
    constructor
    · rintro (⟨hdel, hne⟩ | rfl)
      · exact ⟨.inl hdel, hne⟩
      · exact ⟨.inr rfl, hroot⟩
    · rintro ⟨hdel | rfl, hne⟩
      · exact .inl ⟨hdel, hne⟩
      · exact .inr rfl
  · intro l h l' hl c' hc' p hp
    obtain ⟨c, hc, heq⟩ := hparents hc'
    rw [heq] at hp
    rw [deliverTo_log_eq] at hl
    rcases eq_nil_or_concat' l' with rfl | ⟨l'', x, rfl⟩
    · -- the block itself comes last
      obtain ⟨rfl, hh⟩ := append_inj' hl rfl
      obtain rfl : hash = h := head_eq_of_cons_eq hh
      obtain rfl : c = b := some.inj (hc.symm.trans hr.block)
      have hdel := hr.parents p hp
      by_cases hproot : p = chain.root_hash
      · exact .inl hproot
      · exact .inr ((hs.log.mem p).2 ⟨hdel, hproot⟩)
    · rw [← cons_append, ← append_assoc] at hl
      obtain ⟨hl, -⟩ := append_inj' hl rfl
      exact hs.log.order hl hc p hp

theorem deliverTo_tables : Tables (s.deliverTo hash b) := by
  have htables : Tables (s.mapBlocks (handed hash b.rev_deps b.deps)) := hs.tables.map (fun h c _ => ?_) (fun h c hc hdel => ?_)
    fun h c j hc hill hj => ?_
  · exact ⟨htables.1, htables.2, htables.3, htables.4, htables.5, htables.6⟩
  · obtain ⟨hi, hheight, -⟩ := handed_fields hash b.rev_deps b.deps h c
    exact ⟨hi, hheight⟩
  · rcases eq_or_ne h hash with rfl | hne
    · rw [handed, if_pos rfl]
    · rw [(handed_state_of_ne b.rev_deps b.deps hne c).1]
      exact hdel
  · have hne : h ≠ hash := by
      rintro rfl
      rw [handed, if_pos rfl] at hill
      cases hill
    rw [(handed_state_of_ne b.rev_deps b.deps hne c).1] at hill
    exact hs.tables.ill hc hill hj

theorem deliverTo_inv : Inv chain nothing (s.deliverTo hash b) := by
  have hroot : hash ≠ chain.root_hash := hs.shape.ne_root hr.block (by rw [hr.state]; exact fun h => (by cases h))
  have hrootstate : chain.root_hash ∉ b.rev_deps := by
    intro hmem
    obtain ⟨C, hC, hstate⟩ := hs.links.rev_known hr.block hmem
    rw [some.inj (hC.symm.trans hs.shape.root)] at hstate
    rcases hstate with h | h
    · cases h
    · cases h
  have hshape : Shape chain (s.mapBlocks (handed hash b.rev_deps b.deps)) := by
    refine hs.shape.map (fun h c hc => handed_keeps hs hr hc) ?_
    rw [handed, if_neg hroot.symm, if_neg hrootstate]
  have hforks : Forks chain nothing (s.mapBlocks (handed hash b.rev_deps b.deps)) := by
    refine hs.forks.map (fun h c _ => ?_) (fun h c _ _ => ?_) (fun h c hc hinit _ => ?_) fun h c hc hdel hne => ?_
    · obtain ⟨h1, h2, h3, h4, -⟩ := handed_fields hash b.rev_deps b.deps h c
      exact ⟨h1, h2, h3, h4⟩
    · exact (handed_fields _ b.rev_deps b.deps h c).2.2.2.2.2.2
    · have hne : h ≠ hash := by
        rintro rfl
        rw [handed, if_pos rfl] at hinit
        cases hinit
      rw [(handed_state_of_ne b.rev_deps b.deps hne c).1] at hinit
      exact hs.forks.initialized hc hinit hne
    · rcases eq_or_ne h hash with rfl | hh
      · rw [some.inj (hc.symm.trans hr.block)]
        exact hr.fork_id
      · rw [(handed_state_of_ne b.rev_deps b.deps hh c).1] at hdel
        exact hs.forks.delivered hc hdel hne
  have hshape' : Shape chain (s.deliverTo hash b) := Shape.congr (s := s.mapBlocks (handed hash b.rev_deps b.deps)) rfl rfl rfl hshape
  exact ⟨hshape', deliverTo_links hs hr, ⟨hforks.1, hforks.2, hforks.3, hforks.4, hforks.5, hforks.6, hforks.7, hforks.8, hforks.9,
    hforks.10, hforks.11, hforks.12⟩, deliverTo_times hs hr, deliverTo_log hs hr, deliverTo_tables hs hr⟩

theorem deliverTo_evolves : Evolves chain hash s (s.deliverTo hash b) := by
  have hg : ∀ h c, s.blocks h = some c → Grew (h = hash) c (handed hash b.rev_deps b.deps h c) := by
    intro h c hc
    have hk := handed_keeps hs hr hc
    obtain ⟨-, -, hfork, -, hdb, -⟩ := handed_fields hash b.rev_deps b.deps h c
    have hdata : (handed hash b.rev_deps b.deps h c).signature = c.signature := by
      unfold handed told
      split_ifs
      · rfl
      · rfl
      · rfl
      · rfl
    refine ⟨hk.source_id, hk.height, hk.data_hash, hdata, hk.payload, hk.prev, hk.block_deps, hdb, fun _ => hfork, ?_⟩
    rcases eq_or_ne h hash with rfl | hne
    · rw [some.inj (hc.symm.trans hr.block), handed, if_pos rfl]
      exact .inr ⟨hr.state, .inr ⟨rfl, rfl⟩⟩
    · exact .inl (handed_state_of_ne b.rev_deps b.deps hne c).1
  refine ⟨fun {h c'} hc' => ?_, fun {h c} hc => ⟨_, mapBlocks_some.2 ⟨c, hc, rfl⟩, hg h c hc⟩, rfl, rfl, rfl, fun _ => id, fun _ => .inl⟩
  obtain ⟨c, hc, rfl⟩ := mapBlocks_some.1 hc'
  exact ⟨c, hc, hg h c hc⟩

end DeliverTo

theorem Evolves.of_frame (hf : Frame s s') (hguilty : ∀ i, (s'.sources i).blamed = true → (s.sources i).blamed = true) : Evolves chain hash s s' where
  back hb' := ⟨_, hf.blocks ▸ hb', .refl _⟩
  kept hb := ⟨_, by rw [hf.blocks]; exact hb, .refl _⟩
  keys := hf.keys
  local_idx := hf.local_idx
  last_sent_block := hf.last_sent_block
  blamed := hf.blamed
  guilty i hi := .inl (hguilty i hi)

theorem block_delivered_blamed (s : Receiver n Payload) (i : Fin n) (height : ℕ) (j : Fin n) :
    ((s.block_delivered i height).sources j).blamed = (s.sources j).blamed := by
  unfold block_delivered
  split_ifs
  · rfl
  · rcases eq_or_ne j i with rfl | hne
    · rw [modify_source_self]
    · rw [modify_source_of_ne s _ hne]

/-- A block that passed the check is handed out. -/
structure Delivers (chain : Chain n Payload) (hash : Hash) (b : ReceivedBlock n Payload) (s s' : Receiver n Payload) : Prop where
  inv : Inv chain nothing s'
  evolves : Evolves chain hash s s'
  delivered : s'.is_delivered hash = true
  to_run : s'.to_run = s.to_run ++ b.rev_deps.filter s.wakes
  log : s'.delivered_log = s.delivered_log ++ [hash]

theorem deliver_spec (hs : Inv chain (· = hash) s) (hr : Running s hash b) (hi : b.source_id = some i) :
    ∃ s', s.deliver hash = .ok s' ∧ Delivers chain hash b s s' := by
  have hframe := block_delivered_frame (s.deliverTo hash b) i b.height
  have hb : (s.deliverTo hash b).blocks hash = some (handed hash b.rev_deps b.deps hash b) := mapBlocks_some.2 ⟨b, hr.block, rfl⟩
  obtain ⟨hsource, hheight, -⟩ := handed_fields hash b.rev_deps b.deps hash b
  have htables : Tables ((s.deliverTo hash b).block_delivered i b.height) := by
    rw [← hheight]
    exact block_delivered_tables (deliverTo_tables hs hr) hb (hsource.trans hi) (by rw [handed, if_pos rfl])
  refine ⟨_, deliver_eq hs hr hi, (deliverTo_inv hs hr).frame hframe htables, ?_, ?_, hframe.to_run, hframe.log.trans deliverTo_log_eq⟩
  · exact (deliverTo_evolves hs hr).trans (.of_frame hframe fun j => by rw [block_delivered_blamed]; exact id)
  · rw [hframe.is_delivered]
    exact (deliverTo_is_delivered hs hr hash).2 (.inr rfl)

end Receiver

end Ton.Catchain
