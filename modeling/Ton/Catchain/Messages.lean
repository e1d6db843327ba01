import Ton.Catchain.Queries
/-!
# The messages of other nodes

A message is processed, and then the scheduler runs. That a message ends the process
has four causes: a block with a source that there is not, since its id is hashed
before it is checked; a block that names the root block as a dependency, which fails
when it is run; a query for blocks that have not arrived; and a fork that is found
while the own source is blamed. No other message does, in any state.
-/

namespace Ton.Catchain
open Result List Option Chain

variable {n : ℕ} {Payload : Type} {chain : Chain n Payload}

def Sending.block : Sending Payload → Block
  | .signing block _ => block
  | .storing block _ => block

namespace Receiver

/-- What another node can send. -/
inductive Incoming (Payload : Type) where
  | block (block : Block) (payload : Payload)
  | query (query : Query)
  | fork (left right : Dep)

def handle (chain : Chain n Payload) (s : Receiver n Payload) : Incoming Payload → Exc (Receiver n Payload)
  | .block block payload => do
    let s ← s.receive_block chain block payload
    s.run_scheduler chain
  | .query query => do
    let _ ← s.process_query chain query
    s.run_scheduler chain
  | .fork left right => do
    let s ← s.got_fork_proof chain left right
    s.run_scheduler chain

variable {s s' t : Receiver n Payload} {i j : Fin n} {k m : ℕ} {h hash : Hash} {b c : ReceivedBlock n Payload} {block : Block} {payload : Payload}

/-! ## Which messages are harmless -/

/-- A block that comes in at this place shows no fork: it is known, or a fork of its source is, or the place is free. -/
def NoFork (s : Receiver n Payload) (i : Fin n) (k : ℕ) (hash : Hash) : Prop :=
  (s.blocks hash).isSome = true ∨ (s.sources i).fork_proof.isSome = true ∨ (s.sources i).blocks k = none

/-- Neither the block nor one that it names shows a fork. -/
structure ShowsNoFork (chain : Chain n Payload) (s : Receiver n Payload) (block : Block) (payload : Payload) : Prop where
  self : ∀ i : Fin n, block.src = (i : ℕ) → NoFork s i block.height.toNat (chain.hash_of i block payload)
  named : ∀ dep ∈ block.data.prev :: block.data.deps, ∀ i : Fin n, dep.src = (i : ℕ) →
    NoFork s i dep.height.toNat (chain.id_hash (chain.idOf i dep.height.toNat dep.data_hash))

/-- The block is accepted, and has not arrived before. -/
def Takes (chain : Chain n Payload) (s : Receiver n Payload) (block : Block) (payload : Payload) : Prop :=
  Accepts chain s block payload ∧ ∀ (i : Fin n) b, block.src = (i : ℕ) → s.blocks (chain.hash_of i block payload) = some b → b.state = .none

/-- The source of the block exists, and if the block is taken, it does not depend on the root block, and shows no
fork while the own source is blamed and sends nothing. -/
structure HarmlessBlock (chain : Chain n Payload) (s : Receiver n Payload) (block : Block) (payload : Payload) : Prop where
  src : ∃ i : Fin n, block.src = (i : ℕ)
  deps : Takes chain s block payload → ∀ dep ∈ block.data.deps, dep.height ≠ 0
  blamed : Takes chain s block payload → (s.sources s.local_idx).blamed = true → s.active_send = false → ShowsNoFork chain s block payload

def Incoming.Harmless (chain : Chain n Payload) (s : Receiver n Payload) : Incoming Payload → Prop
  | .block block payload => HarmlessBlock chain s block payload
  | .query q => q.Harmless s
  | .fork _ _ => True

/-- The steps of runs in which only harmless messages come in. `CatChainImpl` names blocks of sources only. -/
def Guarded (chain : Chain n Payload) (s : Receiver n Payload) : Act Payload → Prop
  | .create_block block payload => HarmlessBlock chain s block payload
  | .add_block _ deps => chain.root_hash ∉ deps
  | _ => True

/-! ## No block depends on the root block -/

structure Rootless (chain : Chain n Payload) (s : Receiver n Payload) : Prop where
  blocks : ∀ {h b}, s.blocks h = some b → chain.root_hash ∉ b.block_deps
  sending : ∀ sent, s.sending = some sent → ∀ dep ∈ sent.block.data.deps, dep.height ≠ 0
  pending : ∀ p ∈ s.pending_blocks, chain.root_hash ∉ p.2

theorem Rootless.create (idx : Fin n) (allow : Bool) : Rootless chain (create chain idx allow) := by
  refine ⟨fun {h b} hb hmem => ?_, fun sent hsent => (by cases hsent), fun p hp => absurd hp (not_mem_nil)⟩
  rw [(create_blocks.1 hb).2] at hmem
  cases hmem

theorem Rootless.of_outbox (hs : Rootless chain s) (hout : s'.outbox = s.outbox)
    (hblocks : ∀ {h b}, s'.blocks h = some b → chain.root_hash ∉ b.block_deps) :
    Rootless chain s' := by
  have hsending : s'.sending = s.sending := congrArg Outbox.sending hout
  have hpending : s'.pending_blocks = s.pending_blocks := congrArg Outbox.pending_blocks hout
  refine ⟨hblocks, ?_, ?_⟩
  · rw [hsending]
    exact hs.sending
  · rw [hpending]
    exact hs.pending

theorem named_root {dep : Dep} (h : Names chain dep chain.root_hash) : dep.height = 0 := by
  rcases h with ⟨hheight, -, -⟩ | ⟨i, hheight, -, hhash⟩
  · exact hheight
  · exact absurd hhash.symm (id_hash_ne_root (by omega))

theorem Rootless.arrived (hs : Rootless chain s) (hdeps : (∀ b, s.blocks hash = some b → b.state = .none) → ∀ dep ∈ block.data.deps, dep.height ≠ 0)
    (ha : Arrives chain block payload hash s s') (hs' : Shape chain s') (hb : s'.blocks h = some b) : chain.root_hash ∉ b.block_deps := by
  rcases ha.blocks hb with ⟨c, hc, hsame, -⟩ | ⟨-, -, -, -, -, -, -, hstate, -⟩ | ⟨rfl, hold, -, -, -, -, -, -, hnames⟩
  · rw [hsame.block_deps]
    exact hs.blocks hc
  · rw [(hs'.blank hb hstate).block_deps]
    exact not_mem_nil
  · intro hmem
    obtain ⟨dep, hdep, hname⟩ := exists_dep hnames _ hmem
    exact hdeps hold dep hdep (named_root hname)

theorem postAll_pending (block : Block) (proofs : List (Dep × Dep)) (o : Outbox Payload) :
    ∀ p ∈ (Outbox.postAll chain block o proofs).pending_blocks, p ∈ o.pending_blocks ∨ p.2 = [] := by
  induction proofs generalizing o with
  | nil => exact fun p => .inl
  | cons q proofs ih =>
    intro p hp
    rcases ih _ p hp with h | h
    · dsimp only at h
      unfold Outbox.post at h
      split_ifs at h
      · rcases mem_append.1 h with h | h
        · exact .inl h
        · exact .inr (by rw [mem_singleton.1 h])
      · exact .inl h
    · exact .inr h

theorem Rootless.posts {proofs : List (Dep × Dep)} (hs : Rootless chain s) (hshape : Shape chain s) (hp : Posts chain s s' proofs)
    (hblocks : ∀ {h b}, s'.blocks h = some b → chain.root_hash ∉ b.block_deps) : Rootless chain s' := by
  obtain ⟨prev, hprev⟩ := isSome_iff_exists.1 hshape.last_sent
  have hout := hp.outbox prev hprev
  have hsending : s'.sending = _ := congrArg Outbox.sending hout
  have hpending : s'.pending_blocks = _ := congrArg Outbox.pending_blocks hout
  refine ⟨hblocks, fun sent hsent => ?_, fun p hmem => ?_⟩
  · rw [hsending] at hsent
    rcases postAll_sending chain (chain.own_block s.local_idx prev []) proofs s.outbox with heq | ⟨q, heq⟩
    · exact hs.sending sent (heq.symm.trans hsent)
    · rw [heq, Option.some.injEq] at hsent
      subst hsent
      exact fun dep hdep => absurd hdep (not_mem_nil)
  · rw [hpending] at hmem
    rcases postAll_pending _ proofs s.outbox p hmem with h | h
    · exact hs.pending p h
    · rw [h]
      exact not_mem_nil

theorem Rootless.evolves (hs : Rootless chain s) (he : Evolves chain hash s s') (hb : s'.blocks h = some b) : chain.root_hash ∉ b.block_deps := by
  obtain ⟨c, hc, hg⟩ := he.back hb
  rw [hg.block_deps]
  exact hs.blocks hc

theorem Stored.block_deps (hst : Stored hash s s') (hb : s'.blocks h = some b) : ∃ c, s.blocks h = some c ∧ b.block_deps = c.block_deps := by
  rw [hst.blocks] at hb
  split_ifs at hb
  · obtain ⟨c, hc, rfl⟩ := map_eq_some_iff.1 hb
    exact ⟨c, hc, rfl⟩
  · exact ⟨b, hb, rfl⟩

theorem export_deps_heights (hs : Shape chain s) (deps : List Hash) (hdeps : chain.root_hash ∉ deps) :
    Ends (fun _ => True) (s.export_deps deps) fun ds => ∀ dep ∈ ds, dep.height ≠ 0 := by
  induction deps with
  | nil => exact .ok fun dep hdep => absurd hdep (not_mem_nil)
  | cons hash deps ih =>
    obtain ⟨hne, hdeps⟩ := not_or.1 (mem_cons.not.1 hdeps)
    unfold export_deps deref
    cases hb : s.blocks hash with
    | none => exact .error trivial
    | some b =>
      rw [ok_bind]
      unfold check
      split_ifs
      · refine (ih hdeps).bind fun ds hds => .ok fun dep hdep => ?_
        rcases mem_cons.1 hdep with rfl | hdep
        · obtain ⟨-, -, hpos, -⟩ := hs.ident hb (Ne.symm hne)
          exact Int.natCast_ne_zero.2 (Nat.ne_of_gt hpos)
        · exact hds dep hdep
      · exact .error trivial

theorem Rootless.add_block (hs : Rootless chain s) (hshape : Shape chain s) {deps : List Hash} (hdeps : chain.root_hash ∉ deps) :
    Ends (fun _ => True) (s.add_block chain payload deps) (Rootless chain) := by
  unfold Receiver.add_block
  split_ifs
  · refine .ok ⟨hs.blocks, hs.sending, fun p hp => ?_⟩
    rcases mem_append.1 hp with hp | hp
    · exact hs.pending p hp
    · rw [mem_singleton.1 hp]
      exact hdeps
  · unfold check
    split_ifs
    · exact .error trivial
    rw [ok_bind]
    obtain ⟨prev, hprev⟩ := isSome_iff_exists.1 hshape.last_sent
    rw [deref_eq hprev, ok_bind]
    refine (export_deps_heights hshape deps hdeps).bind fun ds hds => .ok ⟨hs.blocks, fun sent hsent => ?_, hs.pending⟩
    rw [← Option.some.inj hsent]
    exact hds

theorem Rootless.finish_own (hs : Rootless chain s) (hshape : Shape chain s) : Ends (fun _ => True) (s.finish_own chain) (Rootless chain) := by
  unfold Receiver.finish_own deref check
  split
  · split
    · exact .error trivial
    rw [ok_bind]
    split_ifs
    · rw [ok_bind]
      dsimp only
      split
      · exact .ok ⟨hs.blocks, fun sent hsent => (by cases hsent), hs.pending⟩
      · rename_i payload deps rest hpending
        have hrest : Rootless chain { s with active_send := false, sending := none, pending_blocks := rest } := by
          refine ⟨hs.blocks, fun sent hsent => (by cases hsent), fun p hp => hs.pending p ?_⟩
          rw [hpending]
          exact mem_cons_of_mem _ hp
        refine hrest.add_block (hshape.congr (s := s) rfl rfl rfl) (hs.pending (payload, deps) ?_)
        rw [hpending]
        exact mem_cons_self ..
    · exact .error trivial
  · exact .ok hs

theorem Rootless.add_block_cont (hs : Rootless chain s) (signature : Signature) :
    Ends (fun _ => True) (s.add_block_cont chain signature) (Rootless chain) := by
  unfold Receiver.add_block_cont
  split
  · rename_i block payload hsending
    dsimp only
    rcases s.validate_block chain { block with signature } payload with e | e | u
    · exact .error trivial
    · exact .error trivial
    · refine .ok ⟨hs.blocks, fun sent hsent => ?_, hs.pending⟩
      rw [← Option.some.inj hsent]
      exact hs.sending (.signing block payload) hsending
  · exact .ok hs

theorem arrive_posts (hs : Good chain s) (block : Block) (payload : Payload) :
    Ends (fun _ => True) (s.arrive chain block payload) fun s' => ∃ proofs, Posts chain s s' proofs := by
  have hsame : ∃ proofs, Posts chain s s proofs := ⟨[], .of_same (.refl s)⟩
  unfold arrive
  split_ifs with hinc
  · exact .ok hsame
  obtain ⟨⟨status, hvalid⟩, hiff⟩ := validate_block_total s (not_not.1 hinc) payload
  rw [hvalid, ok_bind]
  cases status with
  | error e => exact .ok hsame
  | ok u =>
    obtain ⟨i, hok⟩ := hiff.1 hvalid
    refine (create_block_posts hs.inv hok).bind ?_
    rintro ⟨t, hash⟩ ⟨proofs, hposts, -⟩
    exact .ok ⟨proofs, hposts⟩

theorem create_own_posts (hs : Good chain s) : Ends (fun _ => True) (s.create_own chain) fun s' => ∃ proofs, Posts chain s s' proofs := by
  unfold create_own
  split
  · rename_i block payload hsending
    obtain ⟨i, hok⟩ := hs.storing block payload hsending
    refine (create_block_posts hs.inv hok).bind ?_
    rintro ⟨t, hash⟩ ⟨proofs, hposts, -⟩
    have hlast : Posts chain s { t with last_sent_block := hash } proofs := ⟨hposts.outbox, hposts.started, hposts.allow⟩
    exact (SameOut.of_written _ hash).mono fun s' hs' => ⟨proofs, hlast.trans_same hs'⟩
  · exact .ok ⟨[], .of_same (.refl s)⟩

theorem SameOut.of_store (s : Receiver n Payload) (hash : Hash) : SameOut.Of s (s.store hash) := by
  unfold store
  split
  · exact .ok (.refl s)
  · split_ifs
    · exact .ok (.refl s)
    · exact of_written s hash

theorem SameOut.of_got_fork_proof (s : Receiver n Payload) (left right : Dep) : SameOut.Of s (s.got_fork_proof chain left right) := by
  unfold Receiver.got_fork_proof
  refine of_any _ fun r => ?_
  split_ifs
  · exact of_source_of fun i => .ok ((SameOut.on_found_fork_proof s i left right).trans (.blame _ i))
  · exact .ok (.refl s)

theorem BlockOk.accepts (hok : BlockOk chain s block payload i) : Accepts chain s block payload :=
  ⟨hok.incarnation, (validate_block_total s hok.incarnation payload).2.2 ⟨i, hok⟩⟩

theorem BlockOk.takes (hok : BlockOk chain s block payload i) (hold : ∀ b, s.blocks (chain.hash_of i block payload) = some b → b.state = .none) :
    Takes chain s block payload := by
  refine ⟨hok.accepts, fun j b hj => ?_⟩
  obtain rfl : i = j := Fin.ext (by have := hok.src; omega)
  exact hold b

theorem Rootless.step (hs : Rootless chain s) (hgood : Good chain s) {a : Act Payload} (hmay : Guarded chain s a) (h : s.step chain a = .ok s') :
    Rootless chain s' := by
  have hsend : CanSend (fun _ => True) s := .inr (.inr trivial)
  have hshape := hgood.inv.shape
  cases a with
  | create_block block payload =>
    obtain ⟨proofs, hposts⟩ := (arrive_posts hgood block payload).of_ok h
    obtain ⟨hgood', rfl | ⟨i, hok, harrives⟩⟩ := (arrive_spec hgood hsend block payload).of_ok h
    · exact hs
    · exact hs.posts hshape hposts fun hb => hs.arrived (fun hold => hmay.deps (hok.takes hold)) harrives hgood'.inv.shape hb
  | written hash =>
    have hout := (SameOut.of_store s hash).of_ok h
    obtain ⟨t, ht, -, hcases⟩ := store_spec hgood hash
    obtain rfl : t = s' := Except.ok.inj (ht.symm.trans h)
    rcases hcases with rfl | hstored
    · exact hs
    · refine hs.of_outbox hout.outbox fun hb => ?_
      obtain ⟨c, hc, hdeps⟩ := hstored.block_deps hb
      rw [hdeps]
      exact hs.blocks hc
  | run_next =>
    have hout := (SameOut.of_run_next s).of_ok h
    cases hqueue : s.to_run with
    | nil =>
      rw [Receiver.step, run_next, hqueue] at h
      cases h
      exact hs
    | cons hash rest =>
      have hnext : Ends (fun _ => True) (s.run_next chain) _ := run_next_good hgood hqueue (.inl trivial)
      obtain ⟨-, hturn⟩ := hnext.of_ok h
      exact hs.of_outbox hout.outbox fun hb => hs.evolves hturn.evolves hb
  | got_fork_proof left right =>
    have hout := (SameOut.of_got_fork_proof s left right).of_ok h
    obtain ⟨t, ht, -, hcases⟩ := got_fork_proof_spec hgood left right
    obtain rfl : t = s' := Except.ok.inj (ht.symm.trans h)
    rcases hcases with rfl | ⟨i, hblamed, -⟩
    · exact hs
    · refine hs.of_outbox hout.outbox fun {h b} hb => ?_
      rw [hblamed.frame.blocks] at hb
      exact hs.blocks hb
  | add_block payload deps => exact (hs.add_block hshape hmay).of_ok h
  | add_block_cont signature => exact (hs.add_block_cont signature).of_ok h
  | create_own =>
    obtain ⟨proofs, hposts⟩ := (create_own_posts hgood).of_ok h
    obtain ⟨-, rfl | ⟨block, payload, i, t, hsending, hok, harrives, ht, -, hcases⟩⟩ := (create_own_spec hgood hsend).of_ok h
    · exact hs
    · have hblocks : ∀ {h b}, t.blocks h = some b → chain.root_hash ∉ b.block_deps := fun hb =>
        hs.arrived (fun _ => hs.sending _ hsending) harrives ht.inv.shape hb
      refine hs.posts hshape hposts fun {h b} hb => ?_
      rcases hcases with rfl | hstored
      · exact hblocks hb
      · obtain ⟨c, hc, hdeps⟩ := hstored.block_deps hb
        rw [hdeps]
        exact hblocks hc
  | finish_own => exact (hs.finish_own hshape).of_ok h
  | start =>
    cases h
    exact ⟨hs.blocks, hs.sending, hs.pending⟩

theorem Reached.rootless (h : Reached chain (Guarded chain) s) : Rootless chain s := by
  refine (Reach.inv (I := fun s => Good chain s ∧ Rootless chain s) ?_ (fun s a s' hs ha hstep => ?_) h).2
  · rintro s ⟨idx, allow, rfl⟩
    exact ⟨.create chain idx allow, .create idx allow⟩
  · exact ⟨(step_spec hs.1 a).of_ok hstep, hs.2.step hs.1 ha hstep⟩

/-! ## A block that shows no fork -/

/-- Whatever happens, it is not that a blamed source would have to send. -/
abbrev Quiet {α : Type} (x : Exc α) (P : α → Prop) : Prop := Ends (· ≠ .self_blamed) x P

theorem quiet_deref {α : Type} {P : α → Prop} {f : ReceivedBlock n Payload → Exc α} (hf : ∀ b, Quiet (f b) P) : Quiet (s.deref hash >>= f) P := by
  unfold deref
  split
  · exact .error fun h => (by cases h)
  · exact hf _

theorem quiet_source_of {α : Type} {P : α → Prop} {i : Option (Fin n)} {f : Fin n → Exc α} (hf : ∀ i, Quiet (f i) P) : Quiet (source_of i >>= f) P := by
  cases i with
  | none => exact .error fun h => (by cases h)
  | some i => exact hf i

theorem quiet_foldlM {β : Type} {f : Receiver n Payload → β → Exc (Receiver n Payload)} (hf : ∀ t b, Quiet (f t b) fun _ => True) (l : List β) :
    Quiet (l.foldlM f s) fun _ => True :=
  Ends.foldlM (fun t b _ _ => hf t b) trivial

theorem quiet_set_ill (fuel : ℕ) (s : Receiver n Payload) (hash : Hash) : Quiet (set_ill fuel s hash) fun _ => True := by
  induction fuel generalizing s hash with
  | zero => exact .error fun h => (by cases h)
  | succ fuel ih =>
    unfold set_ill
    refine quiet_deref fun b => ?_
    split_ifs
    · exact .ok trivial
    · exact quiet_source_of fun i => quiet_foldlM ih _

theorem quiet_link (hash : Hash) (s : Receiver n Payload) (parent : Hash) : Quiet (link hash s parent) fun _ => True := by
  unfold link
  refine quiet_deref fun b => ?_
  split_ifs
  · exact .ok trivial
  · exact .ok trivial

/-- What was harmless at another place before is so still. -/
def Spares (i : Fin n) (k : ℕ) (s s' : Receiver n Payload) : Prop := ∀ j m h, (j ≠ i ∨ m ≠ k) → NoFork s j m h → NoFork s' j m h

theorem on_new_block_noFork (chain : Chain n Payload) (b : ReceivedBlock n Payload) (hi : b.source_id = some i) (hnew : s.blocks hash = none)
    (hfree : NoFork s i b.height hash) :
    ∃ s', s.on_new_block chain i hash b = .ok s' ∧ s'.blocks = s.blocks ∧ Spares i b.height s s' := by
  unfold on_new_block
  by_cases hproof : (s.sources i).fork_proof.isSome = true
  · rw [if_pos hproof]
    exact ⟨s, rfl, rfl, fun _ _ _ _ => id⟩
  have hnone : (s.sources i).blocks b.height = none := by
    rcases hfree with h | h | h
    · rw [hnew] at h
      cases h
    · exact absurd h hproof
    · exact h
  rw [if_neg hproof, check_pos hi, ok_bind, hnone]
  refine ⟨_, rfl, rfl, fun j m h hne hfree => ?_⟩
  rcases hfree with hk | hp | hm
  · exact .inl hk
  · refine .inr (.inl ?_)
    rcases eq_or_ne j i with rfl | hj
    · rw [modify_source_self]
      exact hp
    · rw [modify_source_of_ne s _ hj]
      exact hp
  · refine .inr (.inr ?_)
    rcases eq_or_ne j i with rfl | hj
    · rw [modify_source_self]
      exact (Function.update_of_ne (hne.resolve_left (fun h => h rfl)) ..).trans hm
    · rw [modify_source_of_ne s _ hj]
      exact hm

theorem Spares.emplace (h : Spares i k s s') (hash : Hash) (b : ReceivedBlock n Payload) : Spares i k s (s'.emplace hash b) := by
  intro j m l hne hfree
  rcases h j m l hne hfree with hk | hrest
  · exact .inl ((SameOut.emplace s' hash b).known l hk)
  · exact .inr hrest

theorem create_block_dep_quiet {dep : Dep} {s₀ : Receiver n Payload} (hdep : DepOk chain s₀ dep)
    (hfree : ∀ i : Fin n, dep.src = (i : ℕ) → NoFork s i dep.height.toNat (chain.id_hash (chain.idOf i dep.height.toNat dep.data_hash))) :
    Quiet (s.create_block_dep chain dep) fun r => ∀ (j : Fin n) (m : ℕ) h, (dep.src = (j : ℕ) → dep.height ≠ m) → NoFork s j m h →
      NoFork r.1 j m h := by
  unfold create_block_dep
  rcases hdep with ⟨hheight, -, -, -⟩ | ⟨i, hheight, hsrc, -⟩
  · rw [if_pos hheight]
    exact .ok fun _ _ _ _ => id
  rw [if_neg (by omega), block_hash_dep_eq hsrc hheight, ok_bind]
  by_cases hknown : (s.blocks (chain.id_hash (chain.idOf i dep.height.toNat dep.data_hash))).isSome = true
  · rw [if_pos hknown]
    exact .ok fun _ _ _ _ => id
  rw [if_neg hknown, get_source_eq_some.2 hsrc, source_of, ok_bind]
  dsimp only
  obtain ⟨t, ht, -, hspares⟩ := on_new_block_noFork chain (.blank (some i) dep.height.toNat dep.data_hash dep.signature) rfl
    (not_isSome_iff_eq_none.1 hknown) (hfree i hsrc)
  rw [ht, ok_bind]
  refine .ok fun j m h hne => hspares.emplace _ _ j m h ?_
  rcases eq_or_ne j i with rfl | hj
  · exact .inr fun hm => hne hsrc (by rw [hm]; exact (Int.toNat_of_nonneg hheight.le).symm)
  · exact .inl hj

theorem create_blocks_dep_quiet (deps : List Dep) {s₀ : Receiver n Payload} (hdeps : ∀ dep ∈ deps, DepOk chain s₀ dep) (hnd : (deps.map (·.src)).Nodup)
    (hfree : ∀ dep ∈ deps, ∀ i : Fin n, dep.src = (i : ℕ) → NoFork s i dep.height.toNat (chain.id_hash (chain.idOf i dep.height.toNat dep.data_hash))) :
    Quiet (s.create_blocks_dep chain deps) fun _ => True := by
  induction deps generalizing s with
  | nil => exact .ok trivial
  | cons dep deps ih =>
    rw [map_cons, nodup_cons] at hnd
    unfold create_blocks_dep
    refine (create_block_dep_quiet (hdeps dep (mem_cons_self ..)) (hfree dep (mem_cons_self ..))).bind ?_
    rintro ⟨t, hash⟩ hspares
    refine (ih (fun d hd => hdeps d (mem_cons_of_mem _ hd)) hnd.2 fun d hd i hi => ?_).bind fun _ _ => .ok trivial
    refine hspares i _ _ (fun hsrc => ?_) (hfree d (mem_cons_of_mem _ hd) i hi)
    exact absurd (List.mem_map.2 ⟨d, hd, hi.trans hsrc.symm⟩) hnd.1

section
variable {s₀ : Receiver n Payload} (hok : BlockOk chain s₀ block payload i)
include hok

/-- The places of the blocks that a valid block names differ from its own. -/
theorem BlockOk.named_apart {dep : Dep} (hdep : dep ∈ block.data.prev :: block.data.deps) {j : Fin n}
    (hj : dep.src = (j : ℕ)) : j ≠ i ∨ dep.height ≠ block.height := by
  rcases mem_cons.1 hdep with rfl | hdep
  · have := hok.prev_height
    exact .inr (by omega)
  · refine .inl ?_
    rintro rfl
    exact (nodup_cons.1 hok.nodup).1 (List.mem_map.2 ⟨dep, hdep, hj.trans hok.src.symm⟩)

theorem initialize_block_quiet (hfree : ∀ dep ∈ block.data.prev :: block.data.deps, ∀ i : Fin n, dep.src = (i : ℕ) →
      NoFork s i dep.height.toNat (chain.id_hash (chain.idOf i dep.height.toNat dep.data_hash))) :
    Quiet (s.initialize_block chain hash block payload) fun _ => True := by
  unfold initialize_block
  refine quiet_deref fun b => ?_
  split_ifs
  · exact .ok trivial
  rw [check_pos hok.size, ok_bind]
  refine (create_block_dep_quiet hok.prev (hfree _ (mem_cons_self ..))).bind ?_
  rintro ⟨t₁, prev⟩ hspares
  have hnd := nodup_cons.1 hok.nodup
  refine (create_blocks_dep_quiet block.data.deps hok.deps hnd.2 fun dep hdep j hj => ?_).bind ?_
  · refine hspares j _ _ (fun hprev => ?_) (hfree dep (mem_cons_of_mem _ hdep) j hj)
    -- the previous block is one of the same source, or the root block
    have hsrc := hok.prev_src
    split_ifs at hsrc
    · exact absurd (List.mem_map.2 ⟨dep, hdep, by rw [hj, ← hprev, hsrc]⟩) hnd.1
    · have := j.2
      omega
  · rintro ⟨t, deps⟩ -
    dsimp only
    split_ifs
    · exact quiet_set_ill _ _ _
    · refine (quiet_foldlM (quiet_link hash) _).bind fun u _ => ?_
      unfold schedule_if_ready
      exact quiet_deref fun b => .ok trivial

theorem create_block_quiet (hfree : ShowsNoFork chain s block payload) :
    Quiet (s.create_block chain block payload) fun _ => True := by
  unfold create_block
  have hpos := hok.height
  rw [if_neg (by omega), block_hash_eq hok.incarnation hok.src hok.height, ok_bind]
  cases hb : s.blocks (chain.id_hash (chain.idOf i block.height.toNat (chain.payload_hash payload))) with
  | some b =>
    dsimp only
    split_ifs
    · exact .ok trivial
    · exact (initialize_block_quiet hok hfree.named).bind fun _ _ => .ok trivial
  | none =>
    dsimp only
    rw [get_source_eq_some.2 hok.src, source_of, ok_bind]
    obtain ⟨t, ht, -, hspares⟩ := on_new_block_noFork chain (.blank (some i) block.height.toNat (chain.payload_hash payload) []) rfl hb
      (hfree.self i hok.src)
    rw [ht, ok_bind]
    refine (initialize_block_quiet hok fun dep hdep j hj => ?_).bind fun _ _ => .ok trivial
    refine hspares.emplace _ _ j _ _ ?_ (hfree.named dep hdep j hj)
    refine (hok.named_apart hdep hj).imp_right fun hne heq => ?_
    change dep.height.toNat = block.height.toNat at heq
    omega

end

/-! ## Every harmless message -/

theorem Reached.run_next (h : Reached chain (Guarded chain) s) {rest : List Hash} (hqueue : s.to_run = hash :: rest) :
    Ends (fun _ => False) (s.run_next chain) fun s' => Reached chain (Guarded chain) s' ∧ s'.load < s.load := by
  have hnext : Ends (fun _ => False) (s.run_next chain) _ := run_next_good h.good hqueue (.inr fun b hb _ => h.rootless.blocks hb)
  obtain ⟨s', hs', -, hturn⟩ := hnext.exists_ok
  exact .of_eq hs' ⟨.step h (a := .run_next) trivial hs', hturn.load⟩

theorem Reached.run_scheduler (h : Reached chain (Guarded chain) s) :
    Ends (fun _ => False) (s.run_scheduler chain) (Reached chain (Guarded chain)) :=
  (run_scheduler_spec (fun _ _ _ hs hqueue => hs.run_next hqueue) h).mono fun _ h => h.1

/-- A block that is accepted and harmless is created without a failure. -/
theorem Reached.create_block (h : Reached chain (Guarded chain) s) (hok : BlockOk chain s block payload i) (hm : HarmlessBlock chain s block payload) :
    ∃ r, s.create_block chain block payload = .ok r := by
  by_cases hsend : CanSend (fun _ => False) s
  · obtain ⟨r, hr, -⟩ := (create_block_good h.good hsend hok).exists_ok
    exact ⟨r, hr⟩
  have hgood : Ends (· = .self_blamed) (s.create_block chain block payload) _ := create_block_good h.good (.inr (.inr rfl)) hok
  have hquiet : Quiet (s.create_block chain block payload) fun _ => True := by
    unfold CanSend at hsend
    rw [not_or, not_or, Bool.not_eq_true, Bool.not_eq_false] at hsend
    by_cases hold : ∀ b, s.blocks (chain.hash_of i block payload) = some b → b.state = .none
    · exact create_block_quiet hok (hm.blamed (hok.takes hold) hsend.2.1 hsend.1)
    · -- a block that arrived before is left as it is
      push Not at hold
      obtain ⟨b, hb, hstate⟩ := hold
      have hpos := hok.height
      unfold Receiver.create_block
      rw [if_neg (by omega), block_hash_eq hok.incarnation hok.src hok.height, ok_bind]
      rw [hash_of] at hb
      dsimp only
      rw [hb]
      dsimp only
      split_ifs
      · exact .ok trivial
      · unfold initialize_block
        rw [deref_eq hb, ok_bind, if_pos hstate]
        exact .ok trivial
  obtain ⟨r, hr, -⟩ := ((hgood.meet hquiet).weaken fun e he => he.2 he.1).exists_ok
  exact ⟨r, hr⟩

theorem Reached.receive_block (h : Reached chain (Guarded chain) s) (hm : HarmlessBlock chain s block payload) :
    Ends (· = .unknown_self_block) (s.receive_block chain block payload) (Reached chain (Guarded chain)) := by
  obtain ⟨i, hi⟩ := hm.src
  have hhash : chain.block_hash block payload =
      .ok (chain.id_hash ⟨block.incarnation, chain.source_hash i, block.height, chain.payload_hash payload⟩) := by
    rw [block_hash, block_id, get_source_hash, get_source_eq_some.2 hi]
    rfl
  unfold Receiver.receive_block
  rw [hhash, ok_bind]
  split
  · exact .ok h
  by_cases hinc : block.incarnation = chain.incarnation
  case neg =>
    rw [if_pos hinc]
    exact .ok h
  rw [if_neg (not_not.2 hinc)]
  obtain ⟨⟨status, hvalid⟩, hiff⟩ := validate_block_total s hinc payload
  rw [hvalid, ok_bind]
  cases status with
  | error e => exact .ok h
  | ok u =>
    dsimp only
    split_ifs with hself
    · exact .error rfl
    obtain ⟨j, hok⟩ := hiff.1 hvalid
    obtain rfl : i = j := Fin.ext (by have := hok.src; omega)
    have hid : chain.id_hash ⟨block.incarnation, chain.source_hash i, block.height, chain.payload_hash payload⟩ = chain.hash_of i block payload := by
      rw [hash_of, idOf, hinc, Int.toNat_of_nonneg hok.height.le]
    obtain ⟨⟨t, hash⟩, hr⟩ := h.create_block hok hm
    have harrive : s.step chain (.create_block block payload) = .ok t := by
      rw [step, arrive, if_neg (not_not.2 hinc), hvalid, ok_bind]
      dsimp only
      rw [hr]
      rfl
    have ht : Reached chain (Guarded chain) t := .step h (a := .create_block block payload) hm harrive
    rw [hr, ok_bind, hid]
    obtain ⟨-, -, harrives⟩ := (create_block_good h.good CanSend.always hok).of_ok hr
    obtain ⟨b, hb, hstate⟩ := harrives.self
    have hpos := hok.height
    have hroot : chain.hash_of i block payload ≠ chain.root_hash := id_hash_ne_root (by omega)
    obtain ⟨u, hu, -, -⟩ := written_good ht.good hb hstate hroot
    have hstore : t.step chain (.written (chain.hash_of i block payload)) = .ok u := by
      obtain ⟨-, -, hheight, -⟩ := ht.good.inv.shape.ident hb hroot
      rw [step, store, hb]
      dsimp only
      rw [if_neg (not_or.2 ⟨hstate, Nat.ne_of_gt hheight⟩), hu]
    dsimp only
    unfold block_written_to_db
    rw [hu, ok_bind]
    exact (Reached.run_scheduler (.step ht (a := .written _) trivial hstore)).weaken fun e he => he.elim

/-- In a run of harmless messages, each of them leaves a state that is reached, unless it is an own block that is not known. -/
theorem harmless_handled (h : Reached chain (Guarded chain) s) (m : Incoming Payload) (hm : m.Harmless chain s) :
    Ends (· = .unknown_self_block) (s.handle chain m) (Reached chain (Guarded chain)) := by
  have hrun : ∀ t : Receiver n Payload, Reached chain (Guarded chain) t →
      Ends (· = .unknown_self_block) (t.run_scheduler chain) (Reached chain (Guarded chain)) :=
    fun t ht => ht.run_scheduler.weaken fun e he => he.elim
  cases m with
  | block block payload => exact (h.receive_block hm).bind hrun
  | query q =>
    obtain ⟨a, ha, -⟩ := (process_query_succeeds h.good.inv q hm).exists_ok
    unfold handle
    dsimp only
    rw [ha]
    exact hrun s h
  | fork left right =>
    obtain ⟨t, ht, -⟩ := got_fork_proof_spec h.good left right
    unfold handle
    dsimp only
    rw [ht]
    exact hrun t (.step h (a := .got_fork_proof left right) trivial ht)

/-- A block, and in the state that it leaves one that depends on it. -/
theorem harmless_handled_two : ∃ s : Receiver 3 Message,
    (create (numbered 3 5) 0 false).handle (numbered 3 5) (.block (lone 1) (.text 1)) = .ok s ∧
      HarmlessBlock (numbered 3 5) s (crossed 2 1) (.text 2) ∧
      Ends (· = .unknown_self_block) (s.handle (numbered 3 5) (.block (crossed 2 1) (.text 2)))
        (Reached (numbered 3 5) (Guarded (numbered 3 5))) := by
  have hm : HarmlessBlock (numbered 3 5) (create (numbered 3 5) 0 false) (lone 1) (.text 1) :=
    ⟨⟨1, rfl⟩, fun _ dep hdep => absurd hdep (not_mem_nil), fun _ hblamed => (by cases hblamed)⟩
  have hstart : Reached (numbered 3 5) (Guarded (numbered 3 5)) (create (numbered 3 5) 0 false) := .start ⟨0, false, rfl⟩
  obtain ⟨s, hs, hP⟩ := exists_of_satisfies (P := fun s => !(s.sources s.local_idx).blamed)
    (x := (create (numbered 3 5) 0 false).handle (numbered 3 5) (.block (lone 1) (.text 1))) (by decide +kernel)
  have hm' : HarmlessBlock (numbered 3 5) s (crossed 2 1) (.text 2) := by
    refine ⟨⟨2, rfl⟩, fun _ dep hdep => ?_, fun _ hblamed => ?_⟩
    · rw [mem_singleton.1 hdep]
      decide
    · rw [hblamed] at hP
      cases hP
  exact ⟨s, hs, hm', harmless_handled ((harmless_handled hstart (.block (lone 1) (.text 1)) hm).of_ok hs) (.block (crossed 2 1) (.text 2)) hm'⟩

theorem reached_failing (idx : Fin n) (allow : Bool) (acts : List (Act Payload)) {m : Incoming Payload} {e : Crash}
    (h : satisfies (fun s => failure (s.handle chain m) = some e) (acts.foldlM (step chain) (create chain idx allow)) = true) :
    ∃ s, Reached chain (fun _ _ => True) s ∧ s.handle chain m = .error e := by
  obtain ⟨s, hs, hP⟩ := reached_of_run chain idx allow acts h
  exact ⟨s, hs, error_of_failure (of_decide_eq_true hP)⟩

/-- The four ways in which a message ends the process: a source that there is not, a dependency on the root block, a
query for a block that is only named so far, and a fork of source 1 while the own source 0 is blamed. -/
theorem messages_abort :
    (∃ s : Receiver 3 Message, Reached (numbered 3 5) (fun _ _ => True) s ∧
      s.handle (numbered 3 5) (.block { lone 1 with src := 3 } (.text 1)) = .error .bad_source_id) ∧
    (∃ s : Receiver 3 Message, Reached (numbered 3 5) (fun _ _ => True) s ∧
      s.handle (numbered 3 5) (.block { lone 1 with data := ⟨⟨3, 0, 0, []⟩, [⟨3, 0, 0, []⟩]⟩ } (.text 1)) = .error .null_source) ∧
    (∃ s : Receiver 3 Message, Reached (numbered 3 5) (fun _ _ => True) s ∧
      s.handle (numbered 3 5) (.query (.getBlocks [(numbered 3 5).id_hash ⟨0, 3, 1, 4⟩])) = .error .not_initialized) ∧
    ∃ s : Receiver 3 Message, Reached (numbered 3 5) (fun _ _ => True) s ∧
      s.handle (numbered 3 5) (.block { lone 1 with signature := sign 1 1 14 } (.text 7)) = .error .self_blamed :=
  ⟨reached_failing 0 false [] (by decide +kernel),
    reached_failing 0 false [] (by decide +kernel),
    reached_failing 0 false [.create_block (crossed 1 2) (.text 1)] (by decide +kernel),
    reached_failing 0 false [.got_fork_proof ⟨0, 1, 0, sign 0 1 0⟩ ⟨0, 1, 1, sign 0 1 1⟩, .create_block (lone 1) (.text 1)]
      (by decide +kernel)⟩

end Receiver

end Ton.Catchain
