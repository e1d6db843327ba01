import Ton.Catchain.Steps
/-!
# A block arrives

`create_block` for a block that was accepted: the blocks it names are created, it
is initialized, and it falls ill or is linked to the parents it waits for.
-/

namespace Ton.Catchain
open Result List
open Option (isSome_iff_exists map_some some.inj some.injEq)

variable {n : ℕ} {Payload : Type} {chain : Chain n Payload} {ex : Hash → Prop} {bad : Crash → Prop}

theorem Chain.idOf_inj {i j : Fin n} {k k' : ℕ} {d d' : Hash} : chain.idOf i k d = chain.idOf j k' d' ↔ i = j ∧ k = k' ∧ d = d' := by
  rw [Chain.idOf, Chain.idOf, BlockId.mk.injEq]
  constructor
  · rintro ⟨-, hi, hk, hd⟩
    exact ⟨chain.source_hash_inj hi, by omega, hd⟩
  · rintro ⟨rfl, rfl, rfl⟩
    exact ⟨rfl, rfl, rfl, rfl⟩

theorem Chain.id_hash_ne_root {i : Fin n} {k : ℕ} {d : Hash} (hk : 0 < k) : chain.id_hash (chain.idOf i k d) ≠ chain.root_hash := by
  intro h
  have hid := chain.id_hash_inj h
  rw [Chain.idOf, BlockId.mk.injEq] at hid
  omega

/-- The hash of a block of a source. -/
def Chain.hash_of (chain : Chain n Payload) (i : Fin n) (block : Block) (payload : Payload) : Hash :=
  chain.id_hash (chain.idOf i block.height.toNat (chain.payload_hash payload))

/-- The block that a dependency names. -/
inductive Names (chain : Chain n Payload) (dep : Dep) (hash : Hash) : Prop
  | root (hheight : dep.height = 0) (hsrc : dep.src = n) (hhash : hash = chain.root_hash)
  | block (i : Fin n) (hheight : 0 < dep.height) (hsrc : dep.src = (i : ℕ))
      (hhash : hash = chain.id_hash (chain.idOf i dep.height.toNat dep.data_hash))

namespace Receiver

variable {s s' t : Receiver n Payload} {i : Fin n} {h hash : Hash} {b c : ReceivedBlock n Payload} {dep : Dep} {block : Block} {payload : Payload}

theorem Shape.known (hs : Shape chain s) {k : ℕ} {d : Hash} (hk : 0 < k) (hb : s.blocks (chain.id_hash (chain.idOf i k d)) = some b) :
    b.source_id = some i ∧ b.height = k ∧ b.data_hash = d := by
  obtain ⟨j, hj, -, hhash⟩ := hs.ident hb (Chain.id_hash_ne_root hk)
  obtain ⟨rfl, rfl, rfl⟩ := Chain.idOf_inj.1 (chain.id_hash_inj hhash)
  exact ⟨hj, rfl, rfl⟩

theorem Names.source (hs : Shape chain s) (hn : Names chain dep hash) (hb : s.blocks hash = some b) :
    b.src = dep.src ∧ (b.height : ℤ) = dep.height := by
  rcases hn with ⟨hheight, hsrc, rfl⟩ | ⟨i, hheight, hsrc, rfl⟩
  · rw [hs.root, some.injEq] at hb
    rw [← hb]
    exact ⟨hsrc.symm, hheight.symm⟩
  · obtain ⟨hi, hk, -⟩ := hs.known (by omega) hb
    rw [ReceivedBlock.src, hi]
    exact ⟨hsrc.symm, by omega⟩

/-! ## The blocks that a block names -/

/-- Blocks were created for dependencies, and their forks noted. -/
structure Grown (chain : Chain n Payload) (deps : List Dep) (s s' : Receiver n Payload) : Prop extends Steady s s' where
  kept : ∀ {h b}, s.blocks h = some b → s'.blocks h = some b
  fresh : ∀ {h b}, s'.blocks h = some b → s.blocks h = some b ∨ (s.blocks h = none ∧ ∃ dep ∈ deps, ∃ i, 0 < dep.height ∧ dep.src = (i : Fin n).val ∧
    h = chain.id_hash (chain.idOf i dep.height.toNat dep.data_hash) ∧ b = .blank (some i) dep.height.toNat dep.data_hash dep.signature)
  guilty : ∀ i, (s'.sources i).blamed = true → (s.sources i).blamed = true ∨ s'.Twice i

theorem Grown.refl (deps : List Dep) (s : Receiver n Payload) : Grown chain deps s s :=
  ⟨.refl s, id, .inl, fun _ => .inl⟩

theorem Grown.trans {deps deps' : List Dep} {s'' : Receiver n Payload} (h : Grown chain deps s s') (h' : Grown chain deps' s' s'') :
    Grown chain (deps ++ deps') s s'' where
  toSteady := h.toSteady.trans h'.toSteady
  kept := h'.kept ∘ h.kept
  fresh {hash b} hb := by
    rcases h'.fresh hb with hb | ⟨hnone, dep, hdep, hb⟩
    · rcases h.fresh hb with hb | ⟨hnone, dep, hdep, hb⟩
      · exact .inl hb
      · exact .inr ⟨hnone, dep, mem_append_left _ hdep, hb⟩
    · refine .inr ⟨?_, dep, mem_append_right _ hdep, hb⟩
      by_contra hsome
      obtain ⟨c, hc⟩ := Option.ne_none_iff_exists'.1 hsome
      rw [h.kept hc] at hnone
      cases hnone
  guilty i hi := by
    rcases h'.guilty i hi with hi | hi
    · rcases h.guilty i hi with hi | ⟨hash, b, hash', b', hb, hb', hrest⟩
      · exact .inl hi
      · exact .inr ⟨hash, b, hash', b', h'.kept hb, h'.kept hb', hrest⟩
    · exact .inr hi

variable {s₀ : Receiver n Payload} {g : Hash → ReceivedBlock n Payload → ReceivedBlock n Payload} {height : ℕ} {P : ReceivedBlock n Payload}

theorem Noted.guilty (hn : Noted s i hash height s') (j : Fin n) (hj : (s'.sources j).blamed = true) :
    (s.sources j).blamed = true ∨ (j = i ∧ ∃ other b', s.blocks other = some b' ∧ hash ≠ other ∧ b'.source_id = some i ∧ b'.height = height) := by
  rcases hn with ⟨-, rfl⟩ | ⟨-, rfl⟩ | ⟨other, b', hother, hne, hi, hheight, hblamed⟩
  · exact .inl hj
  · rcases eq_or_ne j i with rfl | hne
    · rw [modify_source_self] at hj
      exact .inl hj
    · rw [modify_source_of_ne s _ hne] at hj
      exact .inl hj
  · rcases eq_or_ne j i with rfl | hne'
    · exact .inr ⟨rfl, other, b', hother, hne, hi, hheight⟩
    · rw [hblamed.others j hne'] at hj
      exact .inl hj

theorem Grown.emplace (hnew : s.blocks hash = none) (hn : Noted s i hash height s') (hi : b.source_id = some i)
    (hheight : b.height = height) (deps : List Dep) (hb : ∃ dep ∈ deps, ∃ i, 0 < dep.height ∧ dep.src = (i : Fin n).val ∧
      hash = chain.id_hash (chain.idOf i dep.height.toNat dep.data_hash) ∧ b = .blank (some i) dep.height.toNat dep.data_hash dep.signature) :
    Grown chain deps s (s'.emplace hash b) := by
  have hframe := hn.frame
  have hnew' : s'.blocks hash = none := by rw [hframe.blocks]; exact hnew
  refine ⟨⟨hframe.to_run, hframe.total_forks, hframe.log, hframe.local_idx, hframe.last_sent_block, hframe.fork_ids, hframe.blamed⟩,
    fun {h c} hc => emplace_of_some hnew' (by rw [hframe.blocks]; exact hc), fun {h c} hc => ?_, fun j hj => ?_⟩
  · rcases emplace_some.1 hc with ⟨rfl, rfl⟩ | ⟨-, hc⟩
    · exact .inr ⟨hnew, hb⟩
    · exact .inl (hframe.blocks ▸ hc)
  · rcases hn.guilty j hj with hj | ⟨rfl, other, b', hother, hne, hi', hheight'⟩
    · exact .inl hj
    · exact .inr ⟨hash, b, other, b', emplace_some.2 (.inl ⟨rfl, rfl⟩), emplace_of_some hnew' (by rw [hframe.blocks]; exact hother), hne, hi, hi',
        hheight.trans hheight'.symm⟩

theorem create_block_dep_spec (hs : Inv chain ex s) (hsend : CanSend bad s) (hdep : DepOk chain s₀ dep) :
    Ends bad (s.create_block_dep chain dep) fun r => Inv chain ex r.1 ∧ CanSend bad r.1 ∧ Grown chain [dep] s r.1 ∧ Names chain dep r.2 ∧
      (r.1.blocks r.2).isSome = true := by
  unfold create_block_dep
  rcases hdep with ⟨hheight, hsrc, -, -⟩ | ⟨i, hheight, hsrc, -⟩
  · rw [if_pos hheight]
    refine .ok ⟨hs, hsend, .refl _ s, .root hheight hsrc rfl, ?_⟩
    rw [hs.shape.root]
    rfl
  rw [if_neg (by omega), block_hash_dep_eq hsrc hheight, ok_bind]
  by_cases hknown : (s.blocks (chain.id_hash (chain.idOf i dep.height.toNat dep.data_hash))).isSome = true
  · rw [if_pos hknown]
    exact .ok ⟨hs, hsend, .refl _ s, .block i hheight hsrc rfl, hknown⟩
  rw [if_neg hknown, get_source_eq_some.2 hsrc, source_of, ok_bind]
  have hnew := Option.not_isSome_iff_eq_none.1 hknown
  refine (on_new_block_spec (b := .blank (some i) dep.height.toNat dep.data_hash dep.signature) hs.shape hs.tables hsend rfl hnew).bind ?_
  rintro t ⟨hnoted, hsend'⟩
  refine .ok ⟨hs.emplace hnew hnoted (by omega) rfl, hsend', .emplace hnew hnoted rfl rfl _ ⟨dep, mem_singleton_self _, i, hheight, hsrc, rfl, rfl⟩,
    .block i hheight hsrc rfl, ?_⟩
  exact isSome_iff_exists.2 ⟨_, emplace_some.2 (.inl ⟨rfl, rfl⟩)⟩

theorem create_blocks_dep_spec (deps : List Dep) (hdeps : ∀ dep ∈ deps, DepOk chain s₀ dep) (hs : Inv chain ex s)
    (hsend : CanSend bad s) :
    Ends bad (s.create_blocks_dep chain deps) fun r => Inv chain ex r.1 ∧ CanSend bad r.1 ∧ Grown chain deps s r.1 ∧
      List.Forall₂ (fun dep hash => Names chain dep hash ∧ (r.1.blocks hash).isSome = true) deps r.2 := by
  induction deps generalizing s with
  | nil => exact .ok ⟨hs, hsend, .refl _ s, .nil⟩
  | cons dep deps ih =>
    unfold create_blocks_dep
    refine (create_block_dep_spec hs hsend (hdeps dep (mem_cons_self ..))).bind ?_
    rintro ⟨t, hash⟩ ⟨ht, hsend', hgrown, hnames, hknown⟩
    refine (ih (fun dep hdep => hdeps dep (mem_cons_of_mem _ hdep)) ht hsend').bind ?_
    rintro ⟨t', hashes⟩ ⟨ht', hsend'', hgrown', hall⟩
    obtain ⟨c, hc⟩ := isSome_iff_exists.1 hknown
    exact .ok ⟨ht', hsend'', hgrown.trans hgrown', .cons ⟨hnames, isSome_iff_exists.2 ⟨c, hgrown'.kept hc⟩⟩ hall⟩

/-! ## The block is initialized -/

/-- What `initialize` writes into the block. -/
def arrived (payload : Payload) (prev : Hash) (deps : List Hash) (signature : Signature) (b : ReceivedBlock n Payload) : ReceivedBlock n Payload :=
  { b with payload := some payload, prev := some prev, block_deps := deps, signature, state := .initialized }

/-- What the parents of an arriving block are. -/
structure Parents (chain : Chain n Payload) (s : Receiver n Payload) (b : ReceivedBlock n Payload) (prev : Hash) (deps : List Hash) : Prop where
  hprev : ∃ P, s.blocks prev = some P ∧ P.height + 1 = b.height ∧ (prev = chain.root_hash ∨ P.source_id = b.source_id)
  hdeps : ∀ d ∈ deps, ∃ D, s.blocks d = some D ∧ D.source_id ≠ b.source_id
  nodup : deps.Nodup

theorem modify_cases (hb : s.blocks hash = some b) {f : ReceivedBlock n Payload → ReceivedBlock n Payload} (hc : (s.modify hash f).blocks h = some c) :
    (h = hash ∧ c = f b) ∨ (h ≠ hash ∧ s.blocks h = some c) := by
  rcases eq_or_ne h hash with rfl | hne
  · rw [modify_self s hb, some.injEq] at hc
    exact .inl ⟨rfl, hc.symm⟩
  · rw [modify_of_ne s hne] at hc
    exact .inr ⟨hne, hc⟩

section Arrive

variable {prev : Hash} {deps : List Hash} {signature : Signature} (hb : s.blocks hash = some b) (hnone : b.state = .none)

include hb hnone

theorem arrive_settled (payload : Payload) (prev : Hash) (deps : List Hash) (signature : Signature) :
    Settled s (s.modify hash (arrived payload prev deps signature)) where
  kept h c hc hstate := by
    have hne : h ≠ hash := by
      rintro rfl
      rw [hb, some.injEq] at hc
      rw [← hc, hnone] at hstate
      cases hstate
    exact ⟨c, (modify_of_ne s hne).trans hc, hstate, rfl, rfl, rfl, rfl⟩
  back h c hc hstate := by
    rcases modify_cases hb hc with ⟨-, rfl⟩ | ⟨-, hc⟩
    · cases hstate
    · exact ⟨c, hc, hstate⟩

theorem Shape.arrive (hs : Shape chain s) (hsize : 0 < chain.size payload) (hhash : chain.payload_hash payload = b.data_hash)
    (hparents : Parents chain s b prev deps) : Shape chain (s.modify hash (arrived payload prev deps signature)) := by
  have hroot := hs.ne_root hb (by rw [hnone]; exact fun h => (by cases h))
  have hids : ∀ h c, s.blocks h = some c → ∃ c', (s.modify hash (arrived payload prev deps signature)).blocks h = some c' ∧
      c'.source_id = c.source_id ∧ c'.height = c.height := by
    intro h c hc
    rcases eq_or_ne h hash with rfl | hne
    · rw [hb, some.injEq] at hc
      rw [← hc]
      exact ⟨_, modify_self s hb, rfl, rfl⟩
    · exact ⟨c, (modify_of_ne s hne).trans hc, rfl, rfl⟩
  constructor
  · exact hs.keys_nodup
  · intro h
    rw [modify_eq, mapBlocks_blocks, Option.isSome_map]
    exact hs.mem_keys h
  · rw [modify_of_ne s hroot.symm]
    exact hs.root
  · obtain ⟨c, hc⟩ := isSome_iff_exists.1 hs.last_sent
    obtain ⟨c', hc', -⟩ := hids _ c hc
    exact isSome_iff_exists.2 ⟨c', hc'⟩
  · intro h c hc hne
    rcases modify_cases hb hc with ⟨rfl, rfl⟩ | ⟨-, hc⟩
    · have hident := hs.ident hb hne
      exact hident
    · exact hs.ident hc hne
  · intro h c hc hstate
    rcases modify_cases hb hc with ⟨-, rfl⟩ | ⟨-, hc⟩
    · cases hstate
    · exact hs.blank hc hstate
  · intro h c hc hne hstate
    have hr : ∃ c₀, Received chain s c₀ ∧ c₀.payload = c.payload ∧ c₀.data_hash = c.data_hash ∧ c₀.prev = c.prev ∧ c₀.block_deps = c.block_deps ∧
        c₀.height = c.height ∧ c₀.source_id = c.source_id := by
      rcases modify_cases hb hc with ⟨rfl, rfl⟩ | ⟨-, hc⟩
      · refine ⟨arrived payload prev deps signature b, ⟨⟨payload, rfl, hsize, hhash⟩, ?_, hparents.hdeps, hparents.nodup⟩, rfl, rfl, rfl, rfl, rfl, rfl⟩
        obtain ⟨P, hP, hheight, hsource⟩ := hparents.hprev
        exact ⟨prev, P, rfl, hP, hheight, hsource⟩
      · exact ⟨c, hs.received hc hne hstate, rfl, rfl, rfl, rfl, rfl, rfl⟩
    obtain ⟨c₀, hr, h1, h2, h3, h4, h5, h6⟩ := hr
    refine ⟨h1 ▸ h2 ▸ hr.payload, ?_, ?_, h4 ▸ hr.nodup⟩
    · obtain ⟨p, P, hp, hP, hheight, hsource⟩ := hr.prev
      obtain ⟨P', hP', hi, hk⟩ := hids p P hP
      exact ⟨p, P', h3 ▸ hp, hP', by rw [hk, ← h5]; exact hheight, by rw [hi, ← h6]; exact hsource⟩
    · intro d hd
      obtain ⟨D, hD, hsource⟩ := hr.deps d (h4 ▸ hd)
      obtain ⟨D', hD', hi, -⟩ := hids d D hD
      exact ⟨D', hD', by rw [hi, ← h6]; exact hsource⟩

theorem Links.arrive (hl : Links chain nothing s) : Links chain (· = hash) (s.modify hash (arrived payload prev deps signature)) := by
  have hset := arrive_settled hb hnone payload prev deps signature
  -- nothing waits in the name of a block that did not arrive
  have hrev : ∀ {p P}, s.blocks p = some P → hash ∉ P.rev_deps := by
    intro p P hP hmem
    obtain ⟨C, hC, hstate⟩ := hl.rev_known hP hmem
    rw [some.inj (hC.symm.trans hb), hnone] at hstate
    rcases hstate with h | h
    · cases h
    · cases h
  have hqueue : hash ∉ s.to_run := by
    intro hmem
    obtain ⟨C, hC, hstate, -⟩ := hl.queue_known hmem
    rw [some.inj (hC.symm.trans hb)] at hstate
    exact hstate hnone
  have hparent : ∀ {p P}, (s.modify hash (arrived payload prev deps signature)).blocks p = some P →
      ∃ P₀, s.blocks p = some P₀ ∧ P.rev_deps = P₀.rev_deps ∧ (P₀.state = .delivered → P.state = .delivered) := by
    intro p P hP
    rcases modify_cases hb hP with ⟨rfl, rfl⟩ | ⟨-, hP⟩
    · refine ⟨b, hb, rfl, ?_⟩
      rw [hnone]
      exact fun h => (by cases h)
    · exact ⟨P, hP, rfl, id⟩
  constructor
  · intro p P c hP hc
    obtain ⟨P₀, hP₀, heq, -⟩ := hparent hP
    rw [heq] at hc
    obtain ⟨C, hC, hstate⟩ := hl.rev_known hP₀ hc
    refine ⟨C, (modify_of_ne s ?_).trans hC, hstate⟩
    rintro rfl
    exact hrev hP₀ hc
  · intro p P c C hP hstate hC hinit hne
    obtain ⟨P₀, hP₀, heq, hdel⟩ := hparent hP
    rw [modify_of_ne s hne] at hC
    rw [heq]
    exact hl.rev_iff hP₀ (fun h => hstate (hdel h)) hC hinit id
  · intro p P hP
    obtain ⟨P₀, hP₀, heq, -⟩ := hparent hP
    rw [heq]
    exact hl.rev_nodup hP₀
  · intro c C hC hinit hne
    rw [modify_of_ne s hne] at hC
    simp only [hset.is_delivered]
    exact hl.pending hC hinit id
  · exact hl.queue_nodup
  · intro c hc
    obtain ⟨C, hC, hstate⟩ := hl.queue_known hc
    refine ⟨C, (modify_of_ne s ?_).trans hC, hstate⟩
    rintro rfl
    exact hqueue hc
  · intro c C hC hinit hne
    rw [modify_of_ne s hne] at hC
    exact hl.queue_iff hC hinit id
  · intro c C hC hstate hroot
    simp only [hset.is_delivered]
    rcases modify_cases hb hC with ⟨-, rfl⟩ | ⟨-, hC⟩
    · cases hstate
    · exact hl.delivered hC hstate hroot
  · intro p P c C hP hc hC hinit
    have hne : c ≠ hash := by
      rintro rfl
      obtain ⟨P₀, hP₀, heq, -⟩ := hparent hP
      exact hrev hP₀ (heq ▸ hc)
    rw [modify_of_ne s hne] at hC
    rcases modify_cases hb hP with ⟨rfl, rfl⟩ | ⟨-, hP⟩
    · exact ⟨fun h => (by cases h), (hl.waits hb hc hC hinit).2⟩
    · exact hl.waits hP hc hC hinit

theorem Inv.arrive (hs : Inv chain nothing s) (hsize : 0 < chain.size payload) (hhash : chain.payload_hash payload = b.data_hash)
    (hparents : Parents chain s b prev deps) : Inv chain (· = hash) (s.modify hash (arrived payload prev deps signature)) := by
  have hset := arrive_settled hb hnone payload prev deps signature
  have hblank := hs.shape.blank hb hnone
  refine ⟨hs.shape.arrive hb hnone hsize hhash hparents, hs.links.arrive hb hnone, ?_,
    hs.times.settled hs.shape hs.links hset (fun h c hc hinit hne => .inl ?_), hs.log.settled hset rfl, ?_⟩
  · have hself : ∀ c, s.blocks hash = some c → c = b := fun c hc => some.inj (hc.symm.trans hb)
    rw [modify_eq]
    refine hs.forks.map (fun h c hc => ?_) (fun h c hc hpos => ?_) (fun h c hc hinit hne => ?_) (fun h c hc hdel hne => ?_)
    · split_ifs
      · exact ⟨rfl, rfl, rfl, rfl⟩
      · exact ⟨rfl, rfl, rfl, rfl⟩
    · split_ifs with heq
      · rw [heq] at hc
        rw [hself c hc, hblank.fork_id] at hpos
        omega
      · rfl
    · rw [if_neg hne] at hinit
      exact hs.forks.initialized hc hinit id
    · split_ifs at hdel with heq
      · cases hdel
      · exact hs.forks.delivered hc hdel hne
  · rw [modify_of_ne s hne] at hc
    exact ⟨c, hc, hinit, id, rfl, rfl⟩
  · rw [modify_eq]
    refine hs.tables.map (fun h c hc => ?_) (fun h c hc hdel => ?_) (fun h c i hc hill hi => ?_)
    · split_ifs
      · exact ⟨rfl, rfl⟩
      · exact ⟨rfl, rfl⟩
    · split_ifs with heq
      · rw [heq, hb, some.injEq] at hc
        rw [← hc, hnone] at hdel
        cases hdel
      · exact hdel
    · split_ifs at hill with heq
      · cases hill
      · exact hs.tables.ill hc hill hi

end Arrive

/-! ## The block is linked to its parents -/

theorem mapBlocks_mapBlocks (s : Receiver n Payload) (g g' : Hash → ReceivedBlock n Payload → ReceivedBlock n Payload) :
    (s.mapBlocks g).mapBlocks g' = s.mapBlocks fun h b => g' h (g h b) := by
  simp only [mapBlocks, Option.map_map]
  rfl

theorem mapBlocks_congr {g g' : Hash → ReceivedBlock n Payload → ReceivedBlock n Payload} (hg : ∀ h b, s.blocks h = some b → g h b = g' h b) :
    s.mapBlocks g = s.mapBlocks g' := by
  have hblocks : (fun h => (s.blocks h).map (g h)) = fun h => (s.blocks h).map (g' h) := by
    funext h
    cases hb : s.blocks h with
    | none => rfl
    | some b => rw [map_some, map_some, hg h b hb]
  rw [mapBlocks, mapBlocks, hblocks]

theorem mapBlocks_eq_self (hg : ∀ h b, s.blocks h = some b → g h b = b) :
    s.mapBlocks g = s := by
  have hblocks : (fun h => (s.blocks h).map (g h)) = s.blocks := by
    funext h
    cases hb : s.blocks h with
    | none => rfl
    | some b => rw [map_some, hg h b hb]
  rw [mapBlocks, hblocks]

theorem map_is_delivered
    (hg : ∀ h b, s.blocks h = some b → ((g h b).state = .delivered ↔ b.state = .delivered)) (h : Hash) :
    (s.mapBlocks g).is_delivered h = s.is_delivered h := by
  rw [Bool.eq_iff_iff, is_delivered_iff, is_delivered_iff]
  constructor
  · rintro ⟨c, hc, hstate⟩
    obtain ⟨b, hb, rfl⟩ := mapBlocks_some.1 hc
    exact ⟨b, hb, (hg h b hb).1 hstate⟩
  · rintro ⟨b, hb, hstate⟩
    exact ⟨_, mapBlocks_some.2 ⟨b, hb, rfl⟩, (hg h b hb).2 hstate⟩

theorem getD_update_deps (deps d : List ℕ) (f : ℕ) : (update_deps deps d).getD f 0 = max (deps.getD f 0) (d.getD f 0) := by
  induction deps generalizing d f with
  | nil =>
    cases d with
    | nil => simp [update_deps]
    | cons y d => simp [update_deps]
  | cons x deps ih =>
    cases d with
    | nil => simp [update_deps]
    | cons y d =>
      cases f with
      | zero =>
        rw [update_deps]
        simp only [getD_cons_zero]
        split_ifs with h
        · exact (max_eq_right h.le).symm
        · exact (max_eq_left (not_lt.1 h)).symm
      | succ f =>
        rw [update_deps]
        simp only [getD_cons_succ]
        exact ih d f

/-- What linking to the parents `ps` makes of the blocks; `deps` is the vector joined from the delivered ones. -/
def linked (delivered : Hash → Bool) (hash : Hash) (ps : List Hash) (deps : List ℕ) (h : Hash) (b : ReceivedBlock n Payload) :
    ReceivedBlock n Payload :=
  if h = hash then { b with deps, pending_deps := b.pending_deps + (ps.filter fun p => !delivered p).length }
  else if h ∈ ps ∧ delivered h = false then { b with rev_deps := b.rev_deps ++ [hash] }
  else b

theorem linked_state (delivered : Hash → Bool) (ps : List Hash) (deps : List ℕ) (b : ReceivedBlock n Payload) :
    (linked delivered hash ps deps h b).state = b.state := by
  unfold linked
  split_ifs
  · rfl
  · rfl
  · rfl

theorem link_delivered {p : Hash} (hP : s.blocks p = some P) (hdel : P.state = .delivered) :
    link hash s p = .ok (s.modify hash fun c => { c with deps := update_deps c.deps P.deps }) := by
  rw [link, deref_eq hP, ok_bind, if_pos]
  rw [ReceivedBlock.delivered]
  exact decide_eq_true hdel

theorem link_waiting {p : Hash} (hP : s.blocks p = some P) (hdel : P.state ≠ .delivered) :
    link hash s p = .ok ((s.modify p fun b => { b with rev_deps := b.rev_deps ++ [hash] }).modify hash
      fun c => { c with pending_deps := c.pending_deps + 1 }) := by
  rw [link, deref_eq hP, ok_bind, if_neg]
  rw [ReceivedBlock.delivered, decide_eq_true_iff]
  exact hdel

theorem foldlM_link (ps : List Hash) (hb : s.blocks hash = some b) (hstate : b.state ≠ .delivered) (hnot : hash ∉ ps)
    (hknown : ∀ p ∈ ps, ∃ P, s.blocks p = some P) (hnodup : (ps.filter fun p => !s.is_delivered p).Nodup) :
    ∃ deps, (∀ f x, deps.getD f 0 ≤ x ↔ b.deps.getD f 0 ≤ x ∧ ∀ p ∈ ps, s.is_delivered p = true → s.time p f ≤ x) ∧
      ps.foldlM (link hash) s = .ok (s.mapBlocks (linked s.is_delivered hash ps deps)) := by
  induction ps generalizing s b with
  | nil =>
    refine ⟨b.deps, fun f x => ⟨fun h => ⟨h, by simp⟩, fun h => h.1⟩, ?_⟩
    rw [foldlM_nil]
    refine congrArg Except.ok (mapBlocks_eq_self fun h c hc => ?_).symm
    unfold linked
    split_ifs with heq hmem
    · rw [heq, hb, some.injEq] at hc
      rw [← hc]
      rfl
    · cases hmem.1
    · rfl
  | cons p ps ih =>
    obtain ⟨P, hP⟩ := hknown p (mem_cons_self ..)
    have hne : hash ≠ p := fun h => hnot (h ▸ mem_cons_self ..)
    have hnot' : hash ∉ ps := fun h => hnot (mem_cons_of_mem _ h)
    have hqne : ∀ q ∈ ps, q ≠ hash := by
      rintro q hq rfl
      exact hnot' hq
    rw [foldlM_cons]
    by_cases hdel : P.state = .delivered
    · have hpdel : s.is_delivered p = true := is_delivered_iff.2 ⟨P, hP, hdel⟩
      rw [link_delivered hP hdel, ok_bind]
      -- the vector is joined
      have hsame : ∀ h, (s.modify hash fun c => { c with deps := update_deps c.deps P.deps }).is_delivered h = s.is_delivered h := by
        intro h
        rw [modify_eq]
        refine map_is_delivered (fun h c _ => ?_) h
        split_ifs
        · exact Iff.rfl
        · exact Iff.rfl
      rw [filter_cons_of_neg (by rw [hpdel]; exact Bool.false_ne_true)] at hnodup
      obtain ⟨deps, hdeps, hloop⟩ := ih (s := s.modify hash fun c => { c with deps := update_deps c.deps P.deps }) (modify_self s hb) hstate hnot'
        (fun q hq => ⟨_, (modify_of_ne s (hqne q hq)).trans (hknown q (mem_cons_of_mem _ hq)).choose_spec⟩)
        (by simp only [hsame]; exact hnodup)
      refine ⟨deps, fun f x => ?_, ?_⟩
      · rw [hdeps f x, getD_update_deps, max_le_iff, and_assoc]
        refine and_congr_right fun _ => ?_
        rw [forall_mem_cons, time_of hP]
        refine and_congr ⟨fun h _ => h, fun h => h hpdel⟩ (forall_congr' fun q => forall_congr' fun hq => ?_)
        rw [hsame, time, time, modify_of_ne s (hqne q hq)]
      · rw [hloop, funext hsame, modify_eq, mapBlocks_mapBlocks]
        refine congrArg Except.ok (mapBlocks_congr fun h c _ => ?_)
        unfold linked
        rw [filter_cons_of_neg (by rw [hpdel]; exact Bool.false_ne_true)]
        rcases eq_or_ne h hash with rfl | hh
        · simp only [if_pos]
        · rw [if_neg hh, if_neg hh, if_neg hh]
          refine if_congr ?_ rfl rfl
          rw [mem_cons]
          constructor
          · exact fun h => ⟨.inr h.1, h.2⟩
          · rintro ⟨rfl | hmem, hfalse⟩
            · rw [hpdel] at hfalse
              cases hfalse
            · exact ⟨hmem, hfalse⟩
    · have hpdel : s.is_delivered p = false := by
        rw [is_delivered_of hP]
        exact decide_eq_false hdel
      rw [link_waiting hP hdel, ok_bind]
      have hsame : ∀ h, ((s.modify p fun b => { b with rev_deps := b.rev_deps ++ [hash] }).modify hash
          fun c => { c with pending_deps := c.pending_deps + 1 }).is_delivered h = s.is_delivered h := by
        intro h
        rw [modify_eq, modify_eq, mapBlocks_mapBlocks]
        refine map_is_delivered (fun h c _ => ?_) h
        split_ifs
        · exact Iff.rfl
        · exact Iff.rfl
        · exact Iff.rfl
        · exact Iff.rfl
      rw [filter_cons_of_pos (by rw [hpdel]; rfl), nodup_cons] at hnodup
      have hpnot : p ∉ ps := fun hmem => hnodup.1 (mem_filter.2 ⟨hmem, by rw [hpdel]; rfl⟩)
      have hqnp : ∀ q ∈ ps, q ≠ p := by
        rintro q hq rfl
        exact hpnot hq
      have hblock : ∀ q, q ≠ p → q ≠ hash → ((s.modify p fun b => { b with rev_deps := b.rev_deps ++ [hash] }).modify hash
          fun c => { c with pending_deps := c.pending_deps + 1 }).blocks q = s.blocks q := by
        intro q hqp hqh
        rw [modify_of_ne _ hqh, modify_of_ne _ hqp]
      have hb' : ((s.modify p fun b => { b with rev_deps := b.rev_deps ++ [hash] }).modify hash
          fun c => { c with pending_deps := c.pending_deps + 1 }).blocks hash = some { b with pending_deps := b.pending_deps + 1 } :=
        modify_self _ ((modify_of_ne s hne).trans hb)
      obtain ⟨deps, hdeps, hloop⟩ := ih hb' hstate hnot'
        (fun q hq => ⟨_, (hblock q (hqnp q hq) (hqne q hq)).trans (hknown q (mem_cons_of_mem _ hq)).choose_spec⟩)
        (by simp only [hsame]; exact hnodup.2)
      refine ⟨deps, fun f x => ?_, ?_⟩
      · rw [hdeps f x]
        refine and_congr_right fun _ => ?_
        rw [forall_mem_cons, hpdel]
        rw [and_iff_right (fun h => (by cases h))]
        refine forall_congr' fun q => forall_congr' fun hq => ?_
        rw [hsame, time, time, hblock q (hqnp q hq) (hqne q hq)]
      · rw [hloop, funext hsame, modify_eq, modify_eq, mapBlocks_mapBlocks, mapBlocks_mapBlocks]
        refine congrArg Except.ok (mapBlocks_congr fun h c _ => ?_)
        unfold linked
        rw [filter_cons_of_pos (by rw [hpdel]; rfl)]
        rcases eq_or_ne h hash with rfl | hh
        · simp only [if_pos, if_neg hne, length_cons]
          congr 1
          omega
        · rw [if_neg hh, if_neg hh, if_neg hh]
          rcases eq_or_ne h p with rfl | hp
          · rw [if_neg (fun h => hpnot h.1), if_pos rfl, if_pos ⟨mem_cons_self .., hpdel⟩]
          · rw [if_neg hp]
            refine if_congr ?_ rfl rfl
            rw [mem_cons, or_iff_right hp]

section Link

variable {ps : List Hash} {deps : List ℕ} (hs : Inv chain (· = hash) s) (hb : s.blocks hash = some b) (hinit : b.state = .initialized)

include hs hb hinit

theorem linked_settled (ps : List Hash) (deps : List ℕ) : Settled s (s.mapBlocks (linked s.is_delivered hash ps deps)) := by
  refine map_settled (fun h c _ => by rw [linked_state]) fun h c hc hdel => ?_
  have hne : h ≠ hash := by
    rintro rfl
    rw [hb, some.injEq] at hc
    rw [← hc, hinit] at hdel
    cases hdel
  unfold linked
  rw [if_neg hne]
  split_ifs
  · exact ⟨rfl, rfl, rfl, rfl⟩
  · exact ⟨rfl, rfl, rfl, rfl⟩

theorem Links.link (hparents : b.parents = ps) (hpending : b.pending_deps = 0) (hdb : b.in_db = false)
    (hrev : ∀ p P, s.blocks p = some P → hash ∉ P.rev_deps) (hqueue : hash ∉ s.to_run) (hnot : hash ∉ ps) :
    Links chain nothing (s.mapBlocks (linked s.is_delivered hash ps deps)) := by
  have hset := linked_settled hs hb hinit ps deps
  have hstate : ∀ h (c : ReceivedBlock n Payload), (linked s.is_delivered hash ps deps h c).state = c.state := fun h c => linked_state ..
  have hparents' : ∀ h (c : ReceivedBlock n Payload), (linked s.is_delivered hash ps deps h c).parents = c.parents := by
    intro h c
    unfold linked
    split_ifs
    · rfl
    · rfl
    · rfl
  have hself : ∀ {c}, s.blocks hash = some c → c = b := fun hc => some.inj (hc.symm.trans hb)
  have hrev_deps : ∀ h c, s.blocks h = some c → (linked s.is_delivered hash ps deps h c).rev_deps =
      if h ∈ ps ∧ s.is_delivered h = false then c.rev_deps ++ [hash] else c.rev_deps := by
    intro h c _
    unfold linked
    rcases eq_or_ne h hash with rfl | hne
    · rw [if_pos rfl, if_neg fun h => hnot h.1]
    · rw [if_neg hne]
      split_ifs
      · rfl
      · rfl
  have hother : ∀ h (c : ReceivedBlock n Payload), h ≠ hash → (linked s.is_delivered hash ps deps h c).pending_deps = c.pending_deps ∧
      (linked s.is_delivered hash ps deps h c).in_db = c.in_db := by
    intro h c hne
    unfold linked
    rw [if_neg hne]
    split_ifs
    · exact ⟨rfl, rfl⟩
    · exact ⟨rfl, rfl⟩
  constructor
  · intro p P' c hP' hc
    obtain ⟨P, hP, rfl⟩ := mapBlocks_some.1 hP'
    rw [hrev_deps p P hP] at hc
    have hcases : c ∈ P.rev_deps ∨ c = hash := by
      split_ifs at hc
      · simpa using hc
      · exact .inl hc
    rcases hcases with hc | rfl
    · obtain ⟨C, hC, hCstate⟩ := hs.links.rev_known hP hc
      exact ⟨_, mapBlocks_some.2 ⟨C, hC, rfl⟩, by rw [hstate]; exact hCstate⟩
    · exact ⟨_, mapBlocks_some.2 ⟨b, hb, rfl⟩, by rw [hstate]; exact .inl hinit⟩
  · intro p P' c C' hP' hPstate hC' hCinit _
    obtain ⟨P, hP, rfl⟩ := mapBlocks_some.1 hP'
    obtain ⟨C, hC, rfl⟩ := mapBlocks_some.1 hC'
    rw [hstate] at hPstate hCinit
    rw [hrev_deps p P hP, hparents']
    have hpdel : s.is_delivered p = false := by
      rw [is_delivered_of hP]
      exact decide_eq_false hPstate
    rcases eq_or_ne c hash with rfl | hne
    · rw [hself hC, hparents]
      split_ifs with hmem
      · exact iff_of_true (mem_append_right _ (mem_singleton_self _)) hmem.1
      · exact iff_of_false (hrev p P hP) fun hp => hmem ⟨hp, hpdel⟩
    · rw [← hs.links.rev_iff hP hPstate hC hCinit hne]
      split_ifs
      · rw [mem_append, mem_singleton, or_iff_left hne]
      · exact Iff.rfl
  · intro p P' hP'
    obtain ⟨P, hP, rfl⟩ := mapBlocks_some.1 hP'
    rw [hrev_deps p P hP]
    split_ifs
    · refine nodup_append.2 ⟨hs.links.rev_nodup hP, nodup_singleton _, ?_⟩
      intro x hx y hy hxy
      rw [mem_singleton.1 hy] at hxy
      exact hrev p P hP (hxy ▸ hx)
    · exact hs.links.rev_nodup hP
  · intro c C' hC' hCinit _
    obtain ⟨C, hC, rfl⟩ := mapBlocks_some.1 hC'
    rw [hstate] at hCinit
    simp only [hset.is_delivered, hparents']
    rcases eq_or_ne c hash with rfl | hne
    · rw [hself hC, hparents]
      unfold linked
      rw [if_pos rfl]
      dsimp only
      rw [hpending, Nat.zero_add]
    · rw [(hother c C hne).1]
      exact hs.links.pending hC hCinit hne
  · exact hs.links.queue_nodup
  · intro c hc
    obtain ⟨C, hC, hCstate, hCdb⟩ := hs.links.queue_known hc
    have hne : c ≠ hash := by
      rintro rfl
      exact hqueue hc
    exact ⟨_, mapBlocks_some.2 ⟨C, hC, rfl⟩, by rw [hstate]; exact hCstate, by rw [(hother c C hne).2]; exact hCdb⟩
  · intro c C' hC' hCinit _
    obtain ⟨C, hC, rfl⟩ := mapBlocks_some.1 hC'
    rw [hstate] at hCinit
    rcases eq_or_ne c hash with rfl | hne
    · rw [hself hC]
      refine iff_of_false hqueue fun h => ?_
      unfold linked at h
      rw [if_pos rfl] at h
      rw [hdb] at h
      cases h.2
    · rw [(hother c C hne).1, (hother c C hne).2]
      exact hs.links.queue_iff hC hCinit hne
  · intro c C' hC' hCstate hroot
    obtain ⟨C, hC, rfl⟩ := mapBlocks_some.1 hC'
    rw [hstate] at hCstate
    have hne : c ≠ hash := by
      rintro rfl
      rw [hself hC, hinit] at hCstate
      cases hCstate
    simp only [hset.is_delivered, hparents', (hother c C hne).1, (hother c C hne).2]
    exact hs.links.delivered hC hCstate hroot
  · intro p P' c C' hP' hc hC' hCinit
    obtain ⟨P, hP, rfl⟩ := mapBlocks_some.1 hP'
    obtain ⟨C, hC, rfl⟩ := mapBlocks_some.1 hC'
    rw [hrev_deps p P hP] at hc
    rw [hstate] at hCinit
    rw [hstate, hparents']
    rcases eq_or_ne c hash with rfl | hne
    · rw [hself hC, hparents]
      split_ifs at hc with hmem
      · refine ⟨fun h => ?_, hmem.1⟩
        rw [is_delivered_of hP, decide_eq_false_iff_not] at hmem
        exact hmem.2 h
      · exact absurd hc (hrev p P hP)
    · refine hs.links.waits hP ?_ hC hCinit
      split_ifs at hc
      · rw [mem_append, mem_singleton] at hc
        exact hc.resolve_right hne
      · exact hc

theorem Inv.link (hparents : b.parents = ps) (hpending : b.pending_deps = 0) (hdb : b.in_db = false) (hfork : b.fork_id = 0)
    (hrev : ∀ p P, s.blocks p = some P → hash ∉ P.rev_deps) (hqueue : hash ∉ s.to_run) (hnot : hash ∉ ps)
    (hdeps : ∀ f x, deps.getD f 0 ≤ x ↔ ∀ p ∈ ps, s.is_delivered p = true → s.time p f ≤ x) :
    Inv chain nothing (s.mapBlocks (linked s.is_delivered hash ps deps)) := by
  have hset := linked_settled hs hb hinit ps deps
  have hroot : hash ≠ chain.root_hash := hs.shape.ne_root hb (by rw [hinit]; exact fun h => (by cases h))
  have hkeeps : ∀ h c, s.blocks h = some c → Keeps c (linked s.is_delivered hash ps deps h c) := by
    intro h c hc
    unfold linked
    split_ifs with heq
    · refine ⟨rfl, rfl, rfl, rfl, rfl, rfl, Iff.rfl, fun hnone => ?_⟩
      rw [heq, hb, some.injEq] at hc
      rw [← hc, hinit] at hnone
      cases hnone
    · exact ⟨rfl, rfl, rfl, rfl, rfl, rfl, Iff.rfl, fun _ hblank =>
        ⟨hblank.1, hblank.2, hblank.3, hblank.4, hblank.5, hblank.6, hblank.7, hblank.8⟩⟩
    · exact .refl c
  have hfields : ∀ h (c : ReceivedBlock n Payload), (linked s.is_delivered hash ps deps h c).fork_id = c.fork_id ∧
      (linked s.is_delivered hash ps deps h c).next = c.next := by
    intro h c
    unfold linked
    split_ifs
    · exact ⟨rfl, rfl⟩
    · exact ⟨rfl, rfl⟩
    · exact ⟨rfl, rfl⟩
  refine ⟨hs.shape.map hkeeps ?_, Links.link hs hb hinit hparents hpending hdb hrev hqueue hnot,
    hs.forks.map (fun h c hc => ⟨(hkeeps h c hc).source_id, (hkeeps h c hc).height, (hfields h c).1, (hfields h c).2⟩)
      (fun h c hc _ => (hkeeps h c hc).prev) (fun h c hc hcinit _ => ?_) (fun h c hc hdel hne => ?_),
    hs.times.settled hs.shape hs.links hset (fun h c' hc' hcinit _ => ?_), hs.log.settled hset rfl,
    hs.tables.map (fun h c hc => ⟨(hkeeps h c hc).source_id, (hkeeps h c hc).height⟩) (fun h c hc hdel => ?_) (fun h c i hc hill hi => ?_)⟩
  · unfold linked
    rw [if_neg hroot.symm, if_neg]
    rintro ⟨-, hfalse⟩
    rw [is_delivered_of hs.shape.root] at hfalse
    cases hfalse
  · rw [linked_state] at hcinit
    rcases eq_or_ne h hash with rfl | hne
    · rw [hb, some.injEq] at hc
      rw [← hc]
      exact hfork
    · exact hs.forks.initialized hc hcinit hne
  · rw [linked_state] at hdel
    exact hs.forks.delivered hc hdel hne
  · obtain ⟨c, hc, rfl⟩ := mapBlocks_some.1 hc'
    rw [linked_state] at hcinit
    rcases eq_or_ne h hash with rfl | hne
    · rw [hb, some.injEq] at hc
      refine .inr fun f x => ?_
      rw [(hkeeps _ c (by rw [hb, hc])).parents, ← hc, hparents]
      unfold linked
      rw [if_pos rfl]
      exact hdeps f x
    · refine .inl ⟨c, hc, hcinit, hne, ?_, (hkeeps h c hc).parents⟩
      unfold linked
      rw [if_neg hne]
      split_ifs
      · rfl
      · rfl
  · rw [linked_state]
    exact hdel
  · rw [linked_state] at hill
    exact hs.tables.ill hc hill hi

end Link

/-! ## What an arrival changes -/

/-- What a message says of a block, and what running it wrote there. -/
structure SameData (b b' : ReceivedBlock n Payload) : Prop where
  source_id : b'.source_id = b.source_id
  height : b'.height = b.height
  data_hash : b'.data_hash = b.data_hash
  signature : b'.signature = b.signature
  payload : b'.payload = b.payload
  prev : b'.prev = b.prev
  block_deps : b'.block_deps = b.block_deps
  fork_id : b'.fork_id = b.fork_id
  in_db : b'.in_db = b.in_db

theorem SameData.refl (b : ReceivedBlock n Payload) : SameData b b := ⟨rfl, rfl, rfl, rfl, rfl, rfl, rfl, rfl, rfl⟩

/-- What a block is after a message arrived under `hash`: known before, named by the message, or the one that arrived. -/
inductive Came (chain : Chain n Payload) (s : Receiver n Payload) (block : Block) (payload : Payload) (hash h : Hash)
    (b' : ReceivedBlock n Payload) : Prop
  | known (b : ReceivedBlock n Payload) (hb : s.blocks h = some b) (hsame : SameData b b')
      (hstate : b'.state = b.state ∨ (b.state = .initialized ∧ b'.state = .ill))
  | named (hnone : s.blocks h = none) (dep : Dep) (hdep : dep ∈ block.data.prev :: block.data.deps) (i : Fin n) (hheight : 0 < dep.height)
      (hsrc : dep.src = (i : ℕ)) (hh : h = chain.id_hash (chain.idOf i dep.height.toNat dep.data_hash)) (hstate : b'.state = .none)
      (hsig : b'.signature = dep.signature)
  | self (hh : h = hash) (hold : ∀ b, s.blocks h = some b → b.state = .none) (hstate : b'.state = .initialized ∨ b'.state = .ill)
      (hpayload : b'.payload = some payload) (hsig : b'.signature = block.signature) (prev : Hash) (hprev : b'.prev = some prev)
      (hnames : Names chain block.data.prev prev) (hdeps : List.Forall₂ (Names chain) block.data.deps b'.block_deps)

/-- What an arrival does to a receiver. -/
structure Arrives (chain : Chain n Payload) (block : Block) (payload : Payload) (hash : Hash)
    (s s' : Receiver n Payload) : Prop extends Steady s s' where
  blocks : ∀ {h b'}, s'.blocks h = some b' → Came chain s block payload hash h b'
  kept : ∀ {h b}, s.blocks h = some b → ∃ b', s'.blocks h = some b' ∧ b'.source_id = b.source_id ∧ b'.height = b.height
  self : ∃ b', s'.blocks hash = some b' ∧ b'.state ≠ .none
  guilty : ∀ i, (s'.sources i).blamed = true → (s.sources i).blamed = true ∨ s'.Twice i ∨ s'.Sick i

theorem Arrives.refl {block : Block} {payload : Payload} (hb : s.blocks hash = some b) (hstate : b.state ≠ .none) :
    Arrives chain block payload hash s s :=
  ⟨.refl s, fun hb => .known _ hb (.refl _) (.inl rfl), fun hb => ⟨_, hb, rfl, rfl⟩, ⟨b, hb, hstate⟩, fun _ => .inl⟩

theorem exists_dep {R : Dep → Hash → Prop} {deps : List Dep} {hashes : List Hash} (h : List.Forall₂ R deps hashes) :
    ∀ hash ∈ hashes, ∃ dep ∈ deps, R dep hash := by
  induction h with
  | nil => simp
  | cons hR _ ih =>
    intro hash hmem
    rcases mem_cons.1 hmem with rfl | hmem
    · exact ⟨_, mem_cons_self .., hR⟩
    · obtain ⟨dep, hdep, hR⟩ := ih hash hmem
      exact ⟨dep, mem_cons_of_mem _ hdep, hR⟩

theorem named_nodup (hs : Shape chain s) {deps : List Dep} {hashes : List Hash}
    (h : List.Forall₂ (fun dep hash => Names chain dep hash ∧ (s.blocks hash).isSome = true) deps hashes) (hnd : (deps.map (·.src)).Nodup) :
    hashes.Nodup := by
  induction h with
  | nil => exact nodup_nil
  | @cons dep hash deps hashes hR hall ih =>
    rw [map_cons, nodup_cons] at hnd
    refine nodup_cons.2 ⟨fun hmem => hnd.1 ?_, ih hnd.2⟩
    obtain ⟨dep', hdep', hnames, -⟩ := exists_dep hall hash hmem
    obtain ⟨c, hc⟩ := isSome_iff_exists.1 hR.2
    refine mem_map.2 ⟨dep', hdep', ?_⟩
    rw [← (Names.source hs hnames hc).1, (Names.source hs hR.1 hc).1]

theorem parents_of_ok (hok : BlockOk chain s₀ block payload i) (hs : Shape chain s) (hi : b.source_id = some i)
    (hheight : b.height = block.height.toNat) {prev : Hash} {deps : List Hash}
    (hprev : Names chain block.data.prev prev ∧ (s.blocks prev).isSome = true)
    (hdeps : List.Forall₂ (fun dep hash => Names chain dep hash ∧ (s.blocks hash).isSome = true) block.data.deps deps) :
    Parents chain s b prev deps := by
  have hnd := nodup_cons.1 hok.nodup
  refine ⟨?_, fun d hd => ?_, named_nodup hs hdeps hnd.2⟩
  · obtain ⟨P, hP⟩ := isSome_iff_exists.1 hprev.2
    obtain ⟨-, hPheight⟩ := Names.source hs hprev.1 hP
    have hsum := hok.prev_height
    refine ⟨P, hP, by omega, ?_⟩
    rcases hprev.1 with ⟨-, -, hroot⟩ | ⟨j, hpos, hsrc, rfl⟩
    · exact .inl hroot
    · refine .inr ?_
      have hsame := hok.prev_src
      rw [if_pos (by omega), hok.src, hsrc] at hsame
      obtain rfl : j = i := Fin.ext (by omega)
      rw [hi, (hs.known (by omega) hP).1]
  · obtain ⟨dep, hdep, hnames, hknown⟩ := exists_dep hdeps d hd
    obtain ⟨D, hD⟩ := isSome_iff_exists.1 hknown
    refine ⟨D, hD, fun hsame => hnd.1 (mem_map.2 ⟨dep, hdep, ?_⟩)⟩
    rw [← (Names.source hs hnames hD).1, ReceivedBlock.src, hsame, hi, hok.src]
    rfl

theorem Illness.sameData (hi : Illness s s') {b' : ReceivedBlock n Payload} (hb' : s'.blocks h = some b') :
    ∃ b, s.blocks h = some b ∧ SameData b b' ∧ (b'.state = b.state ∨ (b.state = .initialized ∧ b'.state = .ill)) := by
  obtain ⟨b, hb, rfl | ⟨hinit, rfl⟩⟩ := hi.back hb'
  · exact ⟨b', hb, .refl _, .inl rfl⟩
  · exact ⟨b, hb, ⟨rfl, rfl, rfl, rfl, rfl, rfl, rfl, rfl, rfl⟩, .inr ⟨hinit, rfl⟩⟩

theorem linked_sameData (hash : Hash) (delivered : Hash → Bool) (ps : List Hash) (deps : List ℕ) (b : ReceivedBlock n Payload) :
    SameData b (linked delivered hash ps deps h b) := by
  unfold linked
  split_ifs
  · exact ⟨rfl, rfl, rfl, rfl, rfl, rfl, rfl, rfl, rfl⟩
  · exact ⟨rfl, rfl, rfl, rfl, rfl, rfl, rfl, rfl, rfl⟩
  · exact .refl b

/-- The blocks named were created and the block filled in; after that only states and links change. -/
theorem Arrives.of_grown {prev : Hash} {deps : List Hash} (hgrown : Grown chain (block.data.prev :: block.data.deps) s t)
    (hb : s.blocks hash = some b) (hnone : b.state = .none) (hprev : Names chain block.data.prev prev)
    (hdeps : List.Forall₂ (Names chain) block.data.deps deps)
    (hblocks : ∀ {h b'}, s'.blocks h = some b' → ∃ c, (t.modify hash (arrived payload prev deps block.signature)).blocks h = some c ∧
      SameData c b' ∧ (b'.state = c.state ∨ (c.state = .initialized ∧ b'.state = .ill)))
    (hkept : ∀ {h c}, (t.modify hash (arrived payload prev deps block.signature)).blocks h = some c →
      ∃ b', s'.blocks h = some b' ∧ b'.source_id = c.source_id ∧ b'.height = c.height)
    (hsteady : Steady t s') (hguilty : ∀ i, (s'.sources i).blamed = true → (t.sources i).blamed = true ∨ s'.Sick i) :
    Arrives chain block payload hash s s' := by
  have hbt := hgrown.kept hb
  have hself := modify_self t (f := arrived payload prev deps block.signature) hbt
  have hold : ∀ {h c}, t.blocks h = some c → ∃ b', s'.blocks h = some b' ∧ b'.source_id = c.source_id ∧ b'.height = c.height := by
    intro h c hc
    rcases eq_or_ne h hash with rfl | hne
    · obtain rfl : c = b := some.inj (hc.symm.trans hbt)
      obtain ⟨b', hb', hi, hheight⟩ := hkept hself
      exact ⟨b', hb', hi, hheight⟩
    · exact hkept ((modify_of_ne t hne).trans hc)
  refine ⟨hgrown.toSteady.trans hsteady, fun {h b'} hb' => ?_, fun hc => hold (hgrown.kept hc), ?_, fun i hi => ?_⟩
  · obtain ⟨c, hc, hsame, hstate⟩ := hblocks hb'
    rcases modify_cases hbt hc with ⟨rfl, rfl⟩ | ⟨hne, hc⟩
    · refine .self rfl (fun b₀ hb₀ => ?_) ?_ hsame.payload hsame.signature prev hsame.prev hprev (by rw [hsame.block_deps]; exact hdeps)
      · rw [some.inj (hb₀.symm.trans hb)]
        exact hnone
      · rcases hstate with h | ⟨-, h⟩
        · exact .inl h
        · exact .inr h
    · rcases hgrown.fresh hc with hc | ⟨hfresh, dep, hdep, j, hheight, hsrc, hh, rfl⟩
      · exact .known c hc hsame hstate
      · refine .named hfresh dep hdep j hheight hsrc hh ?_ hsame.signature
        rcases hstate with h | ⟨h, -⟩
        · exact h
        · cases h
  · obtain ⟨b', hb', -⟩ := hkept hself
    refine ⟨b', hb', fun hstate' => ?_⟩
    obtain ⟨c, hc, -, hstate⟩ := hblocks hb'
    rw [hself, some.injEq] at hc
    rw [← hc, hstate'] at hstate
    rcases hstate with h | ⟨-, h⟩
    · cases h
    · cases h
  · rcases hguilty i hi with hi | hill
    · rcases hgrown.guilty i hi with hi | ⟨h, c, h', c', hc, hc', hne, hci, hci', hheight⟩
      · exact .inl hi
      · obtain ⟨d, hd, hdi, hdh⟩ := hold hc
        obtain ⟨d', hd', hdi', hdh'⟩ := hold hc'
        exact .inr (.inl ⟨h, d, h', d', hd, hd', hne, hdi.trans hci, hdi'.trans hci', by omega⟩)
    · exact .inr (.inr hill)

/-! ## `initialize` and `create_block` -/

theorem linked_kept (delivered : Hash → Bool) {ps : List Hash} {deps : List ℕ} (hc : s.blocks h = some c) :
    ∃ b', (s.mapBlocks (linked delivered hash ps deps)).blocks h = some b' ∧ b'.source_id = c.source_id ∧ b'.height = c.height := by
  have hsame := linked_sameData (h := h) hash delivered ps deps c
  exact ⟨_, mapBlocks_some.2 ⟨c, hc, rfl⟩, hsame.source_id, hsame.height⟩

/-- The block is filled in after the blocks it names are known, and none of them is ill. -/
theorem link_spec (hs : Inv chain nothing t) (hb : t.blocks hash = some b) (hnone : b.state = .none) {prev : Hash} {deps : List Hash}
    (hparents : Parents chain t b prev deps) (hsize : 0 < chain.size payload) (hhash : chain.payload_hash payload = b.data_hash)
    (signature : Signature) :
    ∃ v, (prev :: deps).foldlM (link hash) (t.modify hash (arrived payload prev deps signature)) =
        .ok ((t.modify hash (arrived payload prev deps signature)).mapBlocks
          (linked (t.modify hash (arrived payload prev deps signature)).is_delivered hash (prev :: deps) v)) ∧
      Inv chain nothing ((t.modify hash (arrived payload prev deps signature)).mapBlocks
          (linked (t.modify hash (arrived payload prev deps signature)).is_delivered hash (prev :: deps) v)) := by
  have hblank := hs.shape.blank hb hnone
  have hs' : Inv chain (· = hash) (t.modify hash (arrived payload prev deps signature)) := hs.arrive hb hnone hsize hhash hparents
  have hself := modify_self t (f := arrived payload prev deps signature) hb
  have hnot : hash ∉ prev :: deps := by
    intro hmem
    rcases mem_cons.1 hmem with rfl | hmem
    · obtain ⟨P, hP, hheight, -⟩ := hparents.hprev
      rw [some.inj (hP.symm.trans hb)] at hheight
      omega
    · obtain ⟨D, hD, hne⟩ := hparents.hdeps hash hmem
      rw [some.inj (hD.symm.trans hb)] at hne
      exact hne rfl
  have hknown : ∀ p ∈ prev :: deps, ∃ P, (t.modify hash (arrived payload prev deps signature)).blocks p = some P := by
    intro p hp
    have hne : p ≠ hash := by
      rintro rfl
      exact hnot hp
    rcases mem_cons.1 hp with rfl | hp
    · obtain ⟨P, hP, -⟩ := hparents.hprev
      exact ⟨P, (modify_of_ne t hne).trans hP⟩
    · obtain ⟨D, hD, -⟩ := hparents.hdeps p hp
      exact ⟨D, (modify_of_ne t hne).trans hD⟩
  -- only the root can be named twice, and it is delivered
  have hnodup : ((prev :: deps).filter fun p => !(t.modify hash (arrived payload prev deps signature)).is_delivered p).Nodup := by
    rw [filter_cons]
    split_ifs with hdel
    · refine nodup_cons.2 ⟨fun hmem => ?_, hparents.nodup.filter _⟩
      obtain ⟨D, hD, hne⟩ := hparents.hdeps prev (mem_filter.1 hmem).1
      obtain ⟨P, hP, -, hroot | hsource⟩ := hparents.hprev
      · subst hroot
        rw [is_delivered_of hs'.shape.root] at hdel
        cases hdel
      · rw [some.inj (hD.symm.trans hP)] at hne
        exact hne hsource
    · exact hparents.nodup.filter _
  obtain ⟨v, hv, hloop⟩ := foldlM_link (prev :: deps) hself (fun h => (by cases h)) hnot hknown hnodup
  refine ⟨v, hloop, Inv.link hs' hself rfl rfl hblank.pending_deps hblank.in_db hblank.fork_id (fun p P hP hmem => ?_) (fun hmem => ?_) hnot
    fun f x => ?_⟩
  · obtain ⟨P₀, hP₀, hrev⟩ : ∃ P₀, t.blocks p = some P₀ ∧ P.rev_deps = P₀.rev_deps := by
      rcases modify_cases hb hP with ⟨rfl, rfl⟩ | ⟨-, hP⟩
      · exact ⟨b, hb, rfl⟩
      · exact ⟨P, hP, rfl⟩
    obtain ⟨C, hC, hstate⟩ := hs.links.rev_known hP₀ (hrev ▸ hmem)
    rw [some.inj (hC.symm.trans hb), hnone] at hstate
    rcases hstate with h | h
    · cases h
    · cases h
  · obtain ⟨C, hC, hstate, -⟩ := hs.links.queue_known hmem
    rw [some.inj (hC.symm.trans hb)] at hstate
    exact hstate hnone
  · rw [hv f x]
    refine and_iff_right ?_
    change b.deps.getD f 0 ≤ x
    rw [hblank.deps]
    exact Nat.zero_le x

theorem initialize_block_spec (hs : Inv chain nothing s) (hsend : CanSend bad s) (hok : BlockOk chain s₀ block payload i)
    (hb : s.blocks (chain.hash_of i block payload) = some b) :
    Ends bad (s.initialize_block chain (chain.hash_of i block payload) block payload) fun s' =>
      Inv chain nothing s' ∧ Arrives chain block payload (chain.hash_of i block payload) s s' := by
  have hpos := hok.height
  obtain ⟨hi, hheight, hdata⟩ := hs.shape.known (by omega) hb
  generalize chain.hash_of i block payload = hash at hb ⊢
  unfold initialize_block
  rw [deref_eq hb, ok_bind]
  by_cases hnone : b.state = .none
  case neg =>
    rw [if_pos hnone]
    exact .ok ⟨hs, .refl hb hnone⟩
  rw [if_neg (not_not.2 hnone), check_pos hok.size, ok_bind]
  refine (create_block_dep_spec hs hsend hok.prev).bind ?_
  rintro ⟨t₁, prev⟩ ⟨ht₁, hsend₁, hgrown₁, hprev⟩
  refine (create_blocks_dep_spec block.data.deps hok.deps ht₁ hsend₁).bind ?_
  rintro ⟨t, deps⟩ ⟨ht, -, hgrown₂, hdeps⟩
  dsimp only at hprev ht hgrown₁ hgrown₂ hdeps ⊢
  have hgrown : Grown chain (block.data.prev :: block.data.deps) s t := hgrown₁.trans hgrown₂
  have hbt := hgrown.kept hb
  have hprev' : Names chain block.data.prev prev ∧ (t.blocks prev).isSome = true := by
    obtain ⟨P, hP⟩ := isSome_iff_exists.1 hprev.2
    exact ⟨hprev.1, isSome_iff_exists.2 ⟨P, hgrown₂.kept hP⟩⟩
  have hparents := parents_of_ok hok ht.shape hi hheight hprev' hdeps
  have hnames : List.Forall₂ (Names chain) block.data.deps deps := hdeps.imp fun _ _ h => h.1
  change Ends bad (if (prev :: deps).any (t.modify hash (arrived payload prev deps block.signature)).is_ill then
    set_ill ((t.modify hash (arrived payload prev deps block.signature)).keys.length + 1)
      (t.modify hash (arrived payload prev deps block.signature)) hash else _) _
  split_ifs with hill
  · have ht' : Inv chain (· = hash) (t.modify hash (arrived payload prev deps block.signature)) :=
      ht.arrive hbt hnone hok.size hdata.symm hparents
    have hself := modify_self t (f := arrived payload prev deps block.signature) hbt
    refine (set_ill_spec _ ht' hself (.inl rfl) (fun h hne (_ : ¬ nothing h) => hne) (Nat.lt_succ_of_le (healthy_le _))).mono ?_
    rintro s' ⟨hs', hillness, -⟩
    refine ⟨hs', .of_grown hgrown hb hnone hprev.1 hnames hillness.sameData (fun {h c} hc => ?_)
      ((Steady.modify t hash _).trans hillness.toSteady) hillness.guilty⟩
    obtain ⟨b', hb', rfl | ⟨-, rfl⟩⟩ := hillness.known hc
    · exact ⟨b', hb', rfl, rfl⟩
    · exact ⟨_, hb', rfl, rfl⟩
  · obtain ⟨v, hloop, hs'⟩ := link_spec ht hbt hnone hparents hok.size hdata.symm block.signature
    refine Ends.of_eq ?_ ⟨hs', .of_grown hgrown hb hnone hprev.1 hnames (fun {h b'} hb' => ?_) (fun hc => linked_kept _ hc)
      ⟨rfl, rfl, rfl, rfl, rfl, fun _ => rfl, fun _ => id⟩ fun _ => .inl⟩
    · refine (congrArg (· >>= fun s => s.schedule_if_ready hash) hloop).trans ?_
      have hblank := ht.shape.blank hbt hnone
      rw [ok_bind, schedule_if_ready, deref_eq (mapBlocks_some.2 ⟨_, modify_self t hbt, rfl⟩), ok_bind, if_neg]
      rintro ⟨-, hdb⟩
      rw [(linked_sameData ..).in_db] at hdb
      change b.in_db = true at hdb
      rw [hblank.in_db] at hdb
      cases hdb
    · obtain ⟨c, hc, rfl⟩ := mapBlocks_some.1 hb'
      exact ⟨c, hc, linked_sameData .., .inl (linked_state ..)⟩

/-- A block that was new, and put under its hash before it was initialized. -/
theorem Arrives.of_emplace (hnew : s.blocks hash = none) (hnoted : Noted s i hash height t)
    (hi : b.source_id = some i) (hheight : b.height = height) (hb : b.state = .none) (h : Arrives chain block payload hash (t.emplace hash b) s') :
    Arrives chain block payload hash s s' := by
  have hframe := hnoted.frame
  have hnew' : t.blocks hash = none := by rw [hframe.blocks]; exact hnew
  have hold : ∀ {h c}, s.blocks h = some c → (t.emplace hash b).blocks h = some c := by
    intro h c hc
    exact emplace_of_some hnew' (by rw [hframe.blocks]; exact hc)
  have hsteady : Steady s (t.emplace hash b) := hframe.toSteady.trans ⟨rfl, rfl, rfl, rfl, rfl, fun _ => rfl, fun _ => id⟩
  refine ⟨hsteady.trans h.toSteady, fun {k b'} hb' => ?_, fun hc => h.kept (hold hc), h.self, fun j hj => ?_⟩
  · rcases h.blocks hb' with ⟨c, hc, hsame, hstate⟩ | ⟨hnone, dep, hdep, j, hpos, hsrc, hk, hstate, hsig⟩ |
      ⟨rfl, hold', hstate, hpayload, hsig, prev, hprev, hnames, hdeps⟩
    · rcases emplace_some.1 hc with ⟨rfl, rfl⟩ | ⟨-, hc⟩
      · -- the block itself has arrived by now
        obtain ⟨d, hd, hdstate⟩ := h.self
        rw [some.inj (hd.symm.trans hb')] at hdstate
        rcases hstate with h | ⟨h, -⟩
        · rw [h] at hdstate
          exact absurd hb hdstate
        · rw [hb] at h
          cases h
      · exact .known c (hframe.blocks ▸ hc) hsame hstate
    · refine .named ?_ dep hdep j hpos hsrc hk hstate hsig
      by_contra hsome
      obtain ⟨c, hc⟩ := Option.ne_none_iff_exists'.1 hsome
      rw [hold hc] at hnone
      cases hnone
    · refine .self rfl (fun c hc => ?_) hstate hpayload hsig prev hprev hnames hdeps
      rw [hnew] at hc
      cases hc
  · rcases h.guilty j hj with hj | hj
    · rcases hnoted.guilty j hj with hj | ⟨rfl, other, c, hother, hne, hci, hcheight⟩
      · exact .inl hj
      · obtain ⟨d, hd, hdi, hdh⟩ := h.kept (hold hother)
        obtain ⟨e, he, hei, heh⟩ := h.kept (emplace_some.2 (.inl ⟨rfl, rfl⟩))
        exact .inr (.inl ⟨hash, e, other, d, he, hd, hne, hei.trans hi, hdi.trans hci, by omega⟩)
    · exact .inr hj

theorem create_block_spec (hs : Inv chain nothing s) (hsend : CanSend bad s) (hok : BlockOk chain s₀ block payload i) :
    Ends bad (s.create_block chain block payload) fun r => r.2 = chain.hash_of i block payload ∧ Inv chain nothing r.1 ∧
      Arrives chain block payload (chain.hash_of i block payload) s r.1 := by
  unfold create_block
  have hpos := hok.height
  rw [if_neg (by omega), block_hash_eq hok.incarnation hok.src hok.height, ok_bind]
  cases hb : s.blocks (chain.id_hash (chain.idOf i block.height.toNat (chain.payload_hash payload))) with
  | some b =>
    dsimp only
    split_ifs with hinit
    · refine .ok ⟨rfl, hs, .refl hb fun hnone => ?_⟩
      rw [ReceivedBlock.initialized, hnone] at hinit
      cases hinit
    · refine (initialize_block_spec hs hsend hok hb).bind ?_
      rintro s' ⟨hs', harrives⟩
      exact .ok ⟨rfl, hs', harrives⟩
  | none =>
    dsimp only
    rw [get_source_eq_some.2 hok.src, source_of, ok_bind]
    refine (on_new_block_spec (b := .blank (some i) block.height.toNat (chain.payload_hash payload) []) hs.shape hs.tables hsend rfl hb).bind ?_
    rintro t ⟨hnoted, hsend'⟩
    have htoNat : 0 < block.height.toNat := by omega
    have ht : Inv chain nothing (t.emplace (chain.hash_of i block payload)
        (.blank (some i) block.height.toNat (chain.payload_hash payload) [])) := hs.emplace hb hnoted htoNat rfl
    refine (initialize_block_spec ht hsend' hok (emplace_some.2 (.inl ⟨rfl, rfl⟩))).bind ?_
    rintro s' ⟨hs', harrives⟩
    exact .ok ⟨rfl, hs', .of_emplace hb hnoted rfl rfl rfl harrives⟩

end Receiver

end Ton.Catchain
