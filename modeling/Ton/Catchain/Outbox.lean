import Ton.Catchain.Scheduler
/-!
# What a receiver is about to send

The block being sent and the ones that wait. A fork that is found puts its proof
there; nothing else that an arriving block does, and nothing that the scheduler
does, touches it.
-/

namespace Ton.Catchain
open Result List
open Option (isSome_iff_exists some.inj)

variable {n : ℕ} {Payload : Type} {chain : Chain n Payload} {ex : Hash → Prop} {bad : Crash → Prop}

/-- The block that is being sent, and the ones that wait. -/
structure Outbox (Payload : Type) where
  active_send : Bool
  sending : Option (Sending Payload)
  pending_blocks : List (Payload × List Hash)

/-- A payload without dependencies is added, with the block for it if it is next. -/
def Outbox.post (block : Block) (o : Outbox Payload) (payload : Payload) : Outbox Payload :=
  if o.active_send then { o with pending_blocks := o.pending_blocks ++ [(payload, [])] }
  else { o with active_send := true, sending := some (.signing block payload) }

/-- The next block of a source after `prev`. -/
def Chain.own_block (chain : Chain n Payload) (i : Fin n) (prev : ReceivedBlock n Payload) (deps : List Dep) : Block :=
  ⟨chain.incarnation, (i : ℕ), prev.height + 1, ⟨prev.export_tl_dep, deps⟩, []⟩

namespace Receiver

variable {s s' t : Receiver n Payload} {i : Fin n} {h hash : Hash} {b c : ReceivedBlock n Payload}

def outbox (s : Receiver n Payload) : Outbox Payload := ⟨s.active_send, s.sending, s.pending_blocks⟩

/-- The receiver is about to send what it was, and its own settings are as they were. -/
structure SameOut (s s' : Receiver n Payload) : Prop where
  outbox : s'.outbox = s.outbox
  started : s'.started = s.started
  allow : s'.allow_unsafe_self_blocks_resync = s.allow_unsafe_self_blocks_resync
  known : ∀ h, (s.blocks h).isSome = true → (s'.blocks h).isSome = true

namespace SameOut

theorem refl (s : Receiver n Payload) : SameOut s s := ⟨rfl, rfl, rfl, fun _ => id⟩

theorem trans {s'' : Receiver n Payload} (h : SameOut s s') (h' : SameOut s' s'') : SameOut s s'' :=
  ⟨h'.outbox.trans h.outbox, h'.started.trans h.started, h'.allow.trans h.allow, fun k hk => h'.known k (h.known k hk)⟩

section
variable (s : Receiver n Payload)

theorem modify (hash : Hash) (f : ReceivedBlock n Payload → ReceivedBlock n Payload) : SameOut s (s.modify hash f) := by
  refine ⟨rfl, rfl, rfl, fun k hk => ?_⟩
  rw [modify_eq, mapBlocks_blocks, Option.isSome_map]
  exact hk

theorem emplace (hash : Hash) (b : ReceivedBlock n Payload) : SameOut s (s.emplace hash b) := by
  refine ⟨rfl, rfl, rfl, fun k hk => ?_⟩
  rcases eq_or_ne k hash with rfl | hne
  · exact isSome_iff_exists.2 ⟨b, emplace_some.2 (.inl ⟨rfl, rfl⟩)⟩
  · obtain ⟨c, hc⟩ := isSome_iff_exists.1 hk
    exact isSome_iff_exists.2 ⟨c, emplace_some.2 (.inr ⟨hne, hc⟩)⟩

theorem modify_source (i : Fin n) (f : Source → Source) : SameOut s (s.modify_source i f) :=
  ⟨rfl, rfl, rfl, fun _ => id⟩

theorem blame (i : Fin n) : SameOut s (s.blame i) := by
  unfold Receiver.blame
  split_ifs
  · exact .refl s
  · exact ⟨rfl, rfl, rfl, fun _ => id⟩

theorem blame_at (i : Fin n) (fork height : ℕ) : SameOut s (s.blame_at i fork height) :=
  (blame s i).trans (modify_source _ i _)

theorem on_found_fork_proof (i : Fin n) (left right : Dep) : SameOut s (s.on_found_fork_proof i left right) := by
  unfold Receiver.on_found_fork_proof
  split_ifs
  · exact .refl s
  · exact modify_source s i _

end

/-- Every value that `x` ends in has the outbox of `s`. -/
abbrev Of (s : Receiver n Payload) (x : Exc (Receiver n Payload)) : Prop := Ends (fun _ => True) x (SameOut s)

theorem of_error {e : Crash} : Of s (.error e) := .error trivial

theorem of_deref {f : ReceivedBlock n Payload → Exc (Receiver n Payload)} (hf : ∀ b, Of s (f b)) : Of s (t.deref hash >>= f) := by
  unfold Receiver.deref
  split
  · exact of_error
  · exact hf _

theorem of_check {e : Crash} {p : Prop} [Decidable p] {f : Unit → Exc (Receiver n Payload)} (hf : Of s (f ())) : Of s (check e p >>= f) := by
  unfold check
  split_ifs
  · exact hf
  · exact of_error

theorem of_source_of {i : Option (Fin n)} {f : Fin n → Exc (Receiver n Payload)} (hf : ∀ i, Of s (f i)) : Of s (source_of i >>= f) := by
  cases i with
  | none => exact of_error
  | some i => exact hf i

theorem of_trans (h : SameOut s t) {x : Exc (Receiver n Payload)} (hx : Of t x) : Of s x := hx.mono fun _ => h.trans

theorem of_foldlM {β : Type} {f : Receiver n Payload → β → Exc (Receiver n Payload)} (hf : ∀ t b, Of t (f t b)) (l : List β) :
    Of s (l.foldlM f s) :=
  Ends.foldlM (P := SameOut s) (fun t b _ ht => of_trans ht (hf t b)) (.refl s)

theorem of_set_ill (fuel : ℕ) (s : Receiver n Payload) (hash : Hash) : Of s (set_ill fuel s hash) := by
  induction fuel generalizing s hash with
  | zero => exact of_error
  | succ fuel ih =>
    unfold Receiver.set_ill
    refine of_deref fun b => ?_
    split_ifs
    · exact .ok (.refl s)
    · exact of_source_of fun i => of_trans ((blame s i).trans (modify _ hash _)) (of_foldlM ih _)

theorem of_link (hash : Hash) (s : Receiver n Payload) (parent : Hash) : Of s (link hash s parent) := by
  unfold Receiver.link
  refine of_deref fun b => ?_
  split_ifs
  · exact .ok (modify s hash _)
  · exact .ok ((modify s parent _).trans (modify _ hash _))

theorem of_schedule_if_ready (s : Receiver n Payload) (hash : Hash) : Of s (s.schedule_if_ready hash) := by
  unfold Receiver.schedule_if_ready
  refine of_deref fun b => .ok ?_
  split_ifs
  · exact ⟨rfl, rfl, rfl, fun _ => id⟩
  · exact .refl s

theorem of_dep_delivered (d : List ℕ) (s : Receiver n Payload) (hash : Hash) : Of s (dep_delivered d s hash) := by
  unfold Receiver.dep_delivered
  refine of_deref fun b => ?_
  split_ifs
  · exact .ok (.refl s)
  · exact of_trans (modify s hash _) (of_schedule_if_ready _ hash)

theorem of_written (s : Receiver n Payload) (hash : Hash) : Of s (s.written hash) := by
  unfold Receiver.written
  refine of_deref fun b => ?_
  split_ifs
  · exact .ok (.refl s)
  · exact .ok ((modify s hash fun b => { b with in_db := true }).trans ⟨rfl, rfl, rfl, fun _ => id⟩)
  · exact .ok (modify s hash _)

theorem of_choose_fork {f : Receiver n Payload × ℕ → Exc (Receiver n Payload)} (hf : ∀ r, SameOut s r.1 → Of s (f r)) :
    Of s (s.choose_fork hash b >>= f) := by
  have hadd : ∀ i, Of s (s.add_fork i >>= f) := by
    intro i
    unfold Receiver.add_fork
    have hblame : SameOut s (if (s.sources i).fork_ids.length > 0 then s.blame i else s) := by
      split_ifs
      · exact blame s i
      · exact .refl s
    simp only [bind_assoc]
    refine of_check (of_check ?_)
    exact hf _ ⟨hblame.outbox, hblame.started, hblame.allow, hblame.known⟩
  unfold Receiver.choose_fork
  rw [bind_assoc]
  refine of_source_of fun i => ?_
  split_ifs
  · exact hadd i
  · split
    · exact of_error
    · rw [bind_assoc]
      refine of_deref fun p => ?_
      split_ifs
      · exact hf _ (modify s _ _)
      · exact hadd i

theorem of_initialize_fork (s : Receiver n Payload) (hash : Hash) : Of s (s.initialize_fork hash) := by
  unfold Receiver.initialize_fork
  refine of_deref fun b => of_check (of_check (of_choose_fork fun r hr => ?_))
  exact of_check (.ok (hr.trans (modify _ hash _)))

theorem of_any {α : Type} (x : Exc α) {f : α → Exc (Receiver n Payload)} (hf : ∀ a, Of s (f a)) : Of s (x >>= f) := by
  cases x with
  | error e => exact of_error
  | ok a => exact hf a

theorem of_pre_deliver_data (s : Receiver n Payload) (hash : Hash) (data : Option InnerData) : Of s (s.pre_deliver_data chain hash data) := by
  unfold Receiver.pre_deliver_data
  cases data with
  | none => exact .ok (modify s hash _)
  | some data =>
    cases data with
    | badBlock => exact .ok (.refl s)
    | nop => exact .ok (.refl s)
    | vector => exact .ok (modify s hash _)
    | fork left right =>
      refine of_any _ fun r => ?_
      split_ifs
      · exact of_deref fun b => of_source_of fun i => .ok ((on_found_fork_proof s i left right).trans (blame_at _ i _ _))
      · exact of_set_ill _ s hash

theorem of_pre_deliver (s : Receiver n Payload) (hash : Hash) : Of s (s.pre_deliver chain hash) := by
  unfold Receiver.pre_deliver
  refine of_deref fun b => of_check (of_check (of_check (of_source_of fun i => of_any _ fun v => ?_)))
  cases v with
  | newer => exact of_set_ill _ s hash
  | known_fork => exact of_trans (blame_at s i b.fork_id b.height) (of_set_ill _ _ hash)
  | fine => exact of_pre_deliver_data s hash _

theorem of_deliver (s : Receiver n Payload) (hash : Hash) : Of s (s.deliver hash) := by
  unfold Receiver.deliver
  refine of_deref fun b => ?_
  split_ifs
  · exact .ok (.refl s)
  refine of_check (of_check (of_check (of_check ?_)))
  have hstart : SameOut s (({ s with calls := s.calls ++ [Call.new_block hash] } : Receiver n Payload).modify hash 
        fun b => { b with state := .delivered }) :=
    (modify s hash _).trans ⟨rfl, rfl, rfl, fun _ => id⟩
  refine Ends.bind (of_trans hstart (of_foldlM (of_dep_delivered b.deps) b.rev_deps)) fun t ht => ?_
  refine of_source_of fun i => .ok (SameOut.trans (ht.trans (modify t hash fun b => { b with rev_deps := [] })) ?_)
  unfold Receiver.block_delivered
  split_ifs
  · exact .refl _
  · exact modify_source _ i _

theorem of_run (chain : Chain n Payload) (s : Receiver n Payload) (hash : Hash) : Of s (s.run chain hash) := by
  unfold Receiver.run
  refine of_deref fun b => ?_
  split
  · exact .ok (.refl s)
  · exact .ok (.refl s)
  · exact .ok (.refl s)
  · refine of_check (of_check ?_)
    exact Ends.bind (of_initialize_fork s hash) fun t ht => of_trans ht (Ends.bind (of_pre_deliver t hash) fun u hu => of_trans hu (of_deliver u hash))

theorem of_run_next (s : Receiver n Payload) : Of s (s.run_next chain) := by
  unfold Receiver.run_next
  cases s.to_run with
  | nil => exact .ok (.refl s)
  | cons hash rest => exact (of_run chain { s with to_run := rest } hash).mono fun _ h => ⟨h.outbox, h.started, h.allow, h.known⟩

end SameOut

/-! ## Proofs are posted -/

/-- What is known of a dependency is more than its signature. -/
def KnownDep (chain : Chain n Payload) (s : Receiver n Payload) (i : Fin n) (dep : Dep) : Prop :=
  dep.src = (i : ℕ) ∧ 0 < dep.height ∧ (s.blocks (chain.id_hash (chain.idOf i dep.height.toNat dep.data_hash))).isSome = true

/-- Two blocks of a source at one height, as a proof names them. -/
structure ForkPair (chain : Chain n Payload) (s : Receiver n Payload) (proof : Dep × Dep) : Prop where
  left : ∃ i, KnownDep chain s i proof.1 ∧ KnownDep chain s i proof.2
  height : proof.1.height = proof.2.height
  ne : proof.1.data_hash ≠ proof.2.data_hash

theorem KnownDep.mono {dep : Dep} (h : KnownDep chain s i dep) (hkept : ∀ h b, s.blocks h = some b → ∃ b', s'.blocks h = some b') :
    KnownDep chain s' i dep := by
  refine ⟨h.1, h.2.1, ?_⟩
  obtain ⟨b, hb⟩ := isSome_iff_exists.1 h.2.2
  exact isSome_iff_exists.2 (hkept _ b hb)

theorem ForkPair.mono {proof : Dep × Dep} (h : ForkPair chain s proof) (hkept : ∀ h b, s.blocks h = some b → ∃ b', s'.blocks h = some b') :
    ForkPair chain s' proof := by
  obtain ⟨i, hl, hr⟩ := h.left
  exact ⟨⟨i, hl.mono hkept, hr.mono hkept⟩, h.height, h.ne⟩

/-- The proofs were posted, one after the other. -/
def Outbox.postAll (chain : Chain n Payload) (block : Block) (o : Outbox Payload) (proofs : List (Dep × Dep)) : Outbox Payload :=
  proofs.foldl (fun o p => o.post block (chain.serialize_fork p.1 p.2)) o

/-- Proofs were posted and otherwise the outbox was kept. -/
structure Posts (chain : Chain n Payload) (s s' : Receiver n Payload) (proofs : List (Dep × Dep)) : Prop where
  outbox : ∀ prev, s.blocks s.last_sent_block = some prev →
    s'.outbox = Outbox.postAll chain (chain.own_block s.local_idx prev []) s.outbox proofs
  started : s'.started = s.started
  allow : s'.allow_unsafe_self_blocks_resync = s.allow_unsafe_self_blocks_resync

theorem Posts.of_same (h : SameOut s s') : Posts chain s s' [] := ⟨fun _ _ => h.outbox, h.started, h.allow⟩

theorem Posts.trans_same {proofs : List (Dep × Dep)} (h : Posts chain s t proofs) (h' : SameOut t s') : Posts chain s s' proofs :=
  ⟨fun prev hprev => h'.outbox.trans (h.outbox prev hprev), h'.started.trans h.started, h'.allow.trans h.allow⟩

theorem Posts.trans {proofs proofs' : List (Dep × Dep)} (h : Posts chain s t proofs) (h' : Posts chain t s' proofs')
    (hlast : t.last_sent_block = s.last_sent_block) (hlocal : t.local_idx = s.local_idx)
    (hprev : ∀ prev, s.blocks s.last_sent_block = some prev → t.blocks s.last_sent_block = some prev) : Posts chain s s' (proofs ++ proofs') := by
  refine ⟨fun prev hb => ?_, h'.started.trans h.started, h'.allow.trans h.allow⟩
  rw [h'.outbox prev (by rw [hlast]; exact hprev prev hb), h.outbox prev hb, hlocal, Outbox.postAll, Outbox.postAll, Outbox.postAll, foldl_append]

theorem add_block_proof_posts (hs : Shape chain s) (left right : Dep) :
    Ends (fun _ => True) (s.add_block chain (chain.serialize_fork left right) []) fun s' => Posts chain s s' [(left, right)] := by
  unfold add_block
  obtain ⟨prev, hprev⟩ := isSome_iff_exists.1 hs.last_sent
  split_ifs with hactive
  · refine .ok ⟨fun P hP => ?_, rfl, rfl⟩
    change _ = Outbox.post _ s.outbox _
    rw [Outbox.post, if_pos]
    · rfl
    · exact hactive
  · by_cases hblamed : (s.sources s.local_idx).blamed = true
    · rw [check_neg (not_not.2 hblamed)]
      exact .error trivial
    · rw [check_pos hblamed, ok_bind, deref_eq hprev, ok_bind]
      refine .ok ⟨fun P hP => ?_, rfl, rfl⟩
      obtain rfl : P = prev := some.inj (hP.symm.trans hprev)
      change _ = Outbox.post _ s.outbox _
      rw [Outbox.post, if_neg]
      · rfl
      · exact hactive

/-- A new block posts at most the proof that it is the second one at its height. -/
theorem on_new_block_posts (hs : Shape chain s) (ht : Tables s) {k : ℕ} {d : Hash} (hk : 0 < k) (hi : b.source_id = some i) (hheight : b.height = k)
    (hdata : b.data_hash = d) (hnew : s.blocks (chain.id_hash (chain.idOf i k d)) = none) :
    Ends (fun _ => True) (s.on_new_block chain i (chain.id_hash (chain.idOf i k d)) b) fun s' =>
      ∃ proofs, Posts chain s s' proofs ∧ ∀ t : Receiver n Payload, (∀ h c, s.blocks h = some c → ∃ c', t.blocks h = some c') →
        (t.blocks (chain.id_hash (chain.idOf i k d))).isSome = true → ∀ p ∈ proofs, ForkPair chain t p := by
  have hnone : ∀ {t : Receiver n Payload}, ∀ p ∈ ([] : List (Dep × Dep)), ForkPair chain t p := fun p hp => absurd hp (not_mem_nil)
  unfold on_new_block
  split_ifs with hproof
  · exact .ok ⟨[], .of_same (.refl s), fun _ _ _ => hnone⟩
  rw [check_pos hi, ok_bind]
  cases hother : (s.sources i).blocks b.height with
  | none => exact .ok ⟨[], .of_same (.modify_source s i _), fun _ _ _ => hnone⟩
  | some other =>
    obtain ⟨c, hc, hci, hch⟩ := ht.found hother
    have hne : chain.id_hash (chain.idOf i k d) ≠ other := by
      intro heq
      rw [← heq, hnew] at hc
      cases hc
    dsimp only
    rw [check_pos hne, ok_bind, deref_eq hc, ok_bind]
    have hfound := SameOut.on_found_fork_proof s i b.export_tl_dep c.export_tl_dep
    have hframe : Frame s (s.on_found_fork_proof i b.export_tl_dep c.export_tl_dep) := by
      rw [on_found_fork_proof, if_neg hproof]
      exact frame_modify_source s i (fun _ => rfl) (fun _ => id)
    refine (add_block_proof_posts (hs.frame hframe) b.export_tl_dep c.export_tl_dep).bind fun u hu => .ok ⟨[(b.export_tl_dep, c.export_tl_dep)], ?_, ?_⟩
    · refine ((Posts.of_same hfound).trans hu hframe.last_sent_block hframe.local_idx fun prev hprev => ?_).trans_same (.blame u i)
      rw [hframe.blocks, hprev]
    · intro t hkept hself p hp
      rw [mem_singleton.1 hp]
      have hroot : other ≠ chain.root_hash := by
        rintro rfl
        rw [hs.root, Option.some.injEq] at hc
        rw [← hc] at hci
        cases hci
      obtain ⟨j, hj, hpos, hhash⟩ := hs.ident hc hroot
      obtain rfl : i = j := some.inj (hci.symm.trans hj)
      have hbsrc : b.src = (i : ℕ) := by rw [ReceivedBlock.src, hi, Option.elim_some]
      have hcsrc : c.src = (i : ℕ) := by rw [ReceivedBlock.src, hci, Option.elim_some]
      refine ⟨⟨i, ⟨hbsrc, ?_, ?_⟩, ⟨hcsrc, ?_, ?_⟩⟩, ?_, ?_⟩
      · change (0 : ℤ) < b.height
        omega
      · change (t.blocks (chain.id_hash (chain.idOf i b.height b.data_hash))).isSome = true
        rw [hheight, hdata]
        exact hself
      · change (0 : ℤ) < c.height
        omega
      · change (t.blocks (chain.id_hash (chain.idOf i c.height c.data_hash))).isSome = true
        obtain ⟨c', hc'⟩ := hkept other c hc
        rw [← hhash, hc']
        rfl
      · change (b.height : ℤ) = c.height
        rw [hch]
      · change b.data_hash ≠ c.data_hash
        intro heq
        rw [hch, hheight, ← heq, hdata] at hhash
        exact hne hhash.symm

theorem create_block_dep_posts (hs : Inv chain ex s) {dep : Dep} {s₀ : Receiver n Payload} (hdep : DepOk chain s₀ dep) :
    Ends (fun _ => True) (s.create_block_dep chain dep) fun r => ∃ proofs, Posts chain s r.1 proofs ∧ ∀ p ∈ proofs, ForkPair chain r.1 p := by
  have hsame : ∃ proofs, Posts chain s s proofs ∧ ∀ p ∈ proofs, ForkPair chain s p :=
    ⟨[], .of_same (.refl s), fun p hp => absurd hp (not_mem_nil)⟩
  unfold create_block_dep
  rcases hdep with ⟨hheight, -, -, -⟩ | ⟨i, hheight, hsrc, -⟩
  · rw [if_pos hheight]
    exact .ok hsame
  rw [if_neg (by omega), block_hash_dep_eq hsrc hheight, ok_bind]
  by_cases hknown : (s.blocks (chain.id_hash (chain.idOf i dep.height.toNat dep.data_hash))).isSome = true
  · rw [if_pos hknown]
    exact .ok hsame
  rw [if_neg hknown, get_source_eq_some.2 hsrc, source_of, ok_bind]
  have hnew := Option.not_isSome_iff_eq_none.1 hknown
  have hnoted := on_new_block_spec (b := .blank (some i) dep.height.toNat dep.data_hash dep.signature) hs.shape hs.tables CanSend.always rfl hnew
  refine (hnoted.and (on_new_block_posts hs.shape hs.tables (by omega) rfl rfl rfl hnew)).bind ?_
  rintro t ⟨⟨hnoted, -⟩, proofs, hposts, hpairs⟩
  have hblocks : t.blocks = s.blocks := hnoted.frame.blocks
  refine .ok ⟨proofs, ⟨hposts.outbox, hposts.started, hposts.allow⟩, hpairs _ (fun h c hc => ⟨c, ?_⟩) ?_⟩
  · exact emplace_of_some (hblocks ▸ hnew) (hblocks ▸ hc)
  · exact isSome_iff_exists.2 ⟨_, emplace_some.2 (.inl ⟨rfl, rfl⟩)⟩

theorem create_blocks_dep_posts (deps : List Dep) {s₀ : Receiver n Payload} (hdeps : ∀ dep ∈ deps, DepOk chain s₀ dep) (hs : Inv chain ex s) :
    Ends (fun _ => True) (s.create_blocks_dep chain deps) fun r => ∃ proofs, Posts chain s r.1 proofs ∧ ∀ p ∈ proofs, ForkPair chain r.1 p := by
  induction deps generalizing s with
  | nil => exact .ok ⟨[], .of_same (.refl s), fun p hp => absurd hp (not_mem_nil)⟩
  | cons dep deps ih =>
    unfold create_blocks_dep
    have hdep := hdeps dep (mem_cons_self ..)
    have hdeps' : ∀ d ∈ deps, DepOk chain s₀ d := fun d hd => hdeps d (mem_cons_of_mem _ hd)
    refine ((create_block_dep_spec hs CanSend.always hdep).and (create_block_dep_posts hs hdep)).bind ?_
    rintro ⟨t, hash⟩ ⟨⟨ht, -, hgrown, -⟩, proofs, hposts, hpairs⟩
    refine ((create_blocks_dep_spec deps hdeps' ht CanSend.always).and (ih hdeps' ht)).bind ?_
    rintro ⟨t', hashes⟩ ⟨⟨-, -, hgrown', -⟩, proofs', hposts', hpairs'⟩
    refine .ok ⟨proofs ++ proofs', hposts.trans hposts' hgrown.last_sent_block hgrown.local_idx fun prev hprev => hgrown.kept hprev, fun p hp => ?_⟩
    rcases mem_append.1 hp with hp | hp
    · exact (hpairs p hp).mono fun h c hc => ⟨c, hgrown'.kept hc⟩
    · exact hpairs' p hp

theorem Posts.pairs_same (h : ∃ proofs, Posts chain s t proofs ∧ ∀ p ∈ proofs, ForkPair chain t p) (hsame : SameOut t s') :
    ∃ proofs, Posts chain s s' proofs ∧ ∀ p ∈ proofs, ForkPair chain s' p := by
  obtain ⟨proofs, hposts, hpairs⟩ := h
  exact ⟨proofs, hposts.trans_same hsame, fun p hp => (hpairs p hp).mono fun h c hc => isSome_iff_exists.1 (hsame.known h (by rw [hc]; rfl))⟩

section
variable (hs : Inv chain nothing s) {s₀ : Receiver n Payload} {block : Block} {payload : Payload} (hok : BlockOk chain s₀ block payload i)
include hs hok

theorem initialize_block_posts (hb : s.blocks (chain.hash_of i block payload) = some b) :
    Ends (fun _ => True) (s.initialize_block chain (chain.hash_of i block payload) block payload) fun s' =>
      ∃ proofs, Posts chain s s' proofs ∧ ∀ p ∈ proofs, ForkPair chain s' p := by
  unfold initialize_block
  rw [deref_eq hb, ok_bind]
  split_ifs with hnone
  · exact .ok ⟨[], .of_same (.refl s), fun p hp => absurd hp (not_mem_nil)⟩
  rw [check_pos hok.size, ok_bind]
  refine ((create_block_dep_spec hs CanSend.always hok.prev).and (create_block_dep_posts hs hok.prev)).bind ?_
  rintro ⟨t₁, prev⟩ ⟨⟨ht₁, -, hgrown₁, -⟩, proofs, hposts, hpairs⟩
  refine ((create_blocks_dep_spec block.data.deps hok.deps ht₁ CanSend.always).and
    (create_blocks_dep_posts block.data.deps hok.deps ht₁)).bind ?_
  rintro ⟨t, deps⟩ ⟨⟨ht, -, hgrown₂, -⟩, proofs', hposts', hpairs'⟩
  have hall : ∃ proofs, Posts chain s t proofs ∧ ∀ p ∈ proofs, ForkPair chain t p := by
    refine ⟨proofs ++ proofs', hposts.trans hposts' hgrown₁.last_sent_block hgrown₁.local_idx fun prev hprev => hgrown₁.kept hprev, fun p hp => ?_⟩
    rcases mem_append.1 hp with hp | hp
    · exact (hpairs p hp).mono fun h c hc => ⟨c, hgrown₂.kept hc⟩
    · exact hpairs' p hp
  dsimp only
  have harrived := SameOut.modify t (chain.hash_of i block payload) fun b => { b with
    payload := some payload, prev := some prev, block_deps := deps, signature := block.signature, state := .initialized }
  split_ifs
  · exact (SameOut.of_trans harrived (SameOut.of_set_ill _ _ _)).mono fun s' hs' => Posts.pairs_same hall hs'
  · refine (Ends.bind (SameOut.of_foldlM (SameOut.of_link _) _) fun u hu => ?_)
    exact (SameOut.of_trans (harrived.trans hu) (SameOut.of_schedule_if_ready u _)).mono fun s' hs' => Posts.pairs_same hall hs'

theorem create_block_posts :
    Ends (fun _ => True) (s.create_block chain block payload) fun r => ∃ proofs, Posts chain s r.1 proofs ∧ ∀ p ∈ proofs, ForkPair chain r.1 p := by
  unfold create_block
  have hpos := hok.height
  rw [if_neg (by omega), block_hash_eq hok.incarnation hok.src hok.height, ok_bind]
  cases hb : s.blocks (chain.id_hash (chain.idOf i block.height.toNat (chain.payload_hash payload))) with
  | some b =>
    dsimp only
    split_ifs with hinit
    · exact .ok ⟨[], .of_same (.refl s), fun p hp => absurd hp (not_mem_nil)⟩
    · exact (initialize_block_posts hs hok hb).bind fun s' hs' => .ok hs'
  | none =>
    dsimp only
    rw [get_source_eq_some.2 hok.src, source_of, ok_bind]
    have htoNat : 0 < block.height.toNat := by omega
    have hnoted := on_new_block_spec (b := .blank (some i) block.height.toNat (chain.payload_hash payload) []) hs.shape hs.tables
      CanSend.always rfl hb
    refine (hnoted.and (on_new_block_posts hs.shape hs.tables htoNat rfl rfl rfl hb)).bind ?_
    rintro t ⟨⟨hnoted, -⟩, proofs, hposts, hpairs⟩
    have hframe := hnoted.frame
    have ht : Inv chain nothing (t.emplace (chain.hash_of i block payload)
        (.blank (some i) block.height.toNat (chain.payload_hash payload) [])) := hs.emplace hb hnoted htoNat rfl
    have hself : (t.emplace (chain.hash_of i block payload) (.blank (some i) block.height.toNat (chain.payload_hash payload) [])).blocks
        (chain.hash_of i block payload) = some (.blank (some i) block.height.toNat (chain.payload_hash payload) []) :=
      emplace_some.2 (.inl ⟨rfl, rfl⟩)
    have hnew : t.blocks (chain.hash_of i block payload) = none := by rw [hframe.blocks]; exact hb
    refine ((initialize_block_spec ht CanSend.always hok hself).and (initialize_block_posts ht hok hself)).bind ?_
    rintro s' ⟨⟨-, harrives⟩, proofs', hposts', hpairs'⟩
    -- what was known before is known after the block was initialized
    have hkept : ∀ h c, s.blocks h = some c → ∃ c', s'.blocks h = some c' := by
      intro h c hc
      obtain ⟨c', hc', -⟩ := harrives.kept (emplace_of_some hnew (by rw [hframe.blocks]; exact hc))
      exact ⟨c', hc'⟩
    have hself' : (s'.blocks (chain.hash_of i block payload)).isSome = true := by
      obtain ⟨c', hc', -⟩ := harrives.self
      exact isSome_iff_exists.2 ⟨c', hc'⟩
    refine .ok ⟨proofs ++ proofs', (hposts.trans_same (.emplace t _ _)).trans hposts' hframe.last_sent_block hframe.local_idx fun prev hprev => ?_, ?_⟩
    · exact emplace_of_some hnew (by rw [hframe.blocks]; exact hprev)
    · intro p hp
      rcases mem_append.1 hp with hp | hp
      · exact hpairs s' hkept hself' p hp
      · exact hpairs' p hp

end

end Receiver

end Ton.Catchain
