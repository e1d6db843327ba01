import Ton.Catchain.ForkId
/-!
# A block is checked

`pre_deliver`: the rules for the dependencies, and the inner data of the payload. A
block that breaks a rule, or carries a fork proof that is refused, falls ill.
-/

namespace Ton.Catchain
open Result List

variable {n : ℕ} {Payload : Type} {chain : Chain n Payload} {ex : Hash → Prop} {bad : Crash → Prop}

namespace Receiver

variable {s s' t : Receiver n Payload} {i : Fin n} {h hash : Hash} {b c : ReceivedBlock n Payload}

/-! ## What running a block changes -/

/-- How the state of a block goes on; only the block that is run is delivered. -/
def Later (own : Prop) (st st' : State) : Prop := st' = st ∨ (st = .initialized ∧ (st' = .ill ∨ (own ∧ st' = .delivered)))

variable {own : Prop}

theorem Later.refl (st : State) : Later own st st := .inl rfl

theorem Later.trans {st st' st'' : State} (h : Later own st st') (h' : Later own st' st'') : Later own st st'' := by
  rcases h with rfl | ⟨hinit, hst⟩
  · exact h'
  · rcases h' with rfl | ⟨hinit', -⟩
    · exact .inr ⟨hinit, hst⟩
    · rw [hinit'] at hst
      rcases hst with h | ⟨-, h⟩
      · cases h
      · cases h

/-- A block before and after a block was run. -/
structure Grew (own : Prop) (b b' : ReceivedBlock n Payload) : Prop where
  source_id : b'.source_id = b.source_id
  height : b'.height = b.height
  data_hash : b'.data_hash = b.data_hash
  signature : b'.signature = b.signature
  payload : b'.payload = b.payload
  prev : b'.prev = b.prev
  block_deps : b'.block_deps = b.block_deps
  in_db : b'.in_db = b.in_db
  fork_id : ¬ own → b'.fork_id = b.fork_id
  state : Later own b.state b'.state

theorem Grew.refl (b : ReceivedBlock n Payload) : Grew own b b := ⟨rfl, rfl, rfl, rfl, rfl, rfl, rfl, rfl, fun _ => rfl, .refl _⟩

theorem Grew.trans {b b' b'' : ReceivedBlock n Payload} (h : Grew own b b') (h' : Grew own b' b'') : Grew own b b'' :=
  ⟨h'.1.trans h.1, h'.2.trans h.2, h'.3.trans h.3, h'.4.trans h.4, h'.5.trans h.5, h'.6.trans h.6, h'.7.trans h.7, h'.8.trans h.8,
    fun hown => (h'.9 hown).trans (h.9 hown), h.10.trans h'.10⟩

theorem Grew.of_sameData {b' : ReceivedBlock n Payload} (h : SameData b b')
    (hstate : b'.state = b.state ∨ (b.state = .initialized ∧ b'.state = .ill)) : Grew own b b' :=
  ⟨h.1, h.2, h.3, h.4, h.5, h.6, h.7, h.9, fun _ => h.8, hstate.imp_right fun h => ⟨h.1, .inl h.2⟩⟩

/-- Two dependencies that this receiver takes for a proof that the source made a fork. -/
def Proven (chain : Chain n Payload) (s : Receiver n Payload) (i : Fin n) : Prop :=
  ∃ left right : Dep, DepOk chain s left ∧ DepOk chain s right ∧ 0 < left.height ∧ left.height = right.height ∧ left.src = (i : ℕ) ∧
    right.src = (i : ℕ) ∧ left.data_hash ≠ right.data_hash

/-- What running a block changes. -/
structure Evolves (chain : Chain n Payload) (hash : Hash) (s s' : Receiver n Payload) : Prop where
  back : ∀ {h b'}, s'.blocks h = some b' → ∃ b, s.blocks h = some b ∧ Grew (h = hash) b b'
  kept : ∀ {h b}, s.blocks h = some b → ∃ b', s'.blocks h = some b' ∧ Grew (h = hash) b b'
  keys : s'.keys = s.keys
  local_idx : s'.local_idx = s.local_idx
  last_sent_block : s'.last_sent_block = s.last_sent_block
  blamed : ∀ i, (s.sources i).blamed = true → (s'.sources i).blamed = true
  guilty : ∀ i, (s'.sources i).blamed = true → (s.sources i).blamed = true ∨ s'.Twice i ∨ s'.Sick i ∨ Proven chain s' i

namespace Evolves

theorem refl (hash : Hash) (s : Receiver n Payload) : Evolves chain hash s s :=
  ⟨fun hb => ⟨_, hb, .refl _⟩, fun hb => ⟨_, hb, .refl _⟩, rfl, rfl, rfl, fun _ => id, fun _ => .inl⟩

theorem depOk (h : Evolves chain hash s s') {dep : Dep} (hdep : DepOk chain s dep) : DepOk chain s' dep := by
  rcases hdep with ⟨h1, h2, h3, h4⟩ | ⟨i, h1, h2, h3⟩
  · exact .root h1 h2 h3 h4
  · refine .block i h1 h2 (h3.imp_left fun hk => ?_)
    obtain ⟨b, hb⟩ := Option.isSome_iff_exists.1 hk
    obtain ⟨b', hb', -⟩ := h.kept hb
    rw [hb']
    rfl

theorem twice (h : Evolves chain hash s s') (ht : s.Twice i) : s'.Twice i := by
  obtain ⟨k, b, k', c, hb, hc, hne, hbi, hci, hheight⟩ := ht
  obtain ⟨b', hb', hgb⟩ := h.kept hb
  obtain ⟨c', hc', hgc⟩ := h.kept hc
  exact ⟨k, b', k', c', hb', hc', hne, hgb.source_id.trans hbi, hgc.source_id.trans hci, by rw [hgb.height, hgc.height, hheight]⟩

theorem sick (h : Evolves chain hash s s') (ht : s.Sick i) : s'.Sick i := by
  obtain ⟨k, b, hb, hill, hbi⟩ := ht
  obtain ⟨b', hb', hgb⟩ := h.kept hb
  refine ⟨k, b', hb', ?_, hgb.source_id.trans hbi⟩
  rcases hgb.state with heq | ⟨hinit, -⟩
  · rw [heq, hill]
  · rw [hill] at hinit
    cases hinit

theorem proven (h : Evolves chain hash s s') (hp : Proven chain s i) : Proven chain s' i := by
  obtain ⟨left, right, hl, hr, hrest⟩ := hp
  exact ⟨left, right, h.depOk hl, h.depOk hr, hrest⟩

theorem trans {s'' : Receiver n Payload} (h : Evolves chain hash s s') (h' : Evolves chain hash s' s'') : Evolves chain hash s s'' where
  back {k b''} hb'' := by
    obtain ⟨b', hb', hg'⟩ := h'.back hb''
    obtain ⟨b, hb, hg⟩ := h.back hb'
    exact ⟨b, hb, hg.trans hg'⟩
  kept {k b} hb := by
    obtain ⟨b', hb', hg⟩ := h.kept hb
    obtain ⟨b'', hb'', hg'⟩ := h'.kept hb'
    exact ⟨b'', hb'', hg.trans hg'⟩
  keys := h'.keys.trans h.keys
  local_idx := h'.local_idx.trans h.local_idx
  last_sent_block := h'.last_sent_block.trans h.last_sent_block
  blamed i hi := h'.blamed i (h.blamed i hi)
  guilty i hi := by
    rcases h'.guilty i hi with hi | hi
    · exact (h.guilty i hi).imp_right fun h => h.imp h'.twice fun h => h.imp h'.sick h'.proven
    · exact .inr hi

theorem of_illness (hi : Illness s s') : Evolves chain hash s s' where
  back hb' := by
    obtain ⟨b, hb, hsame, hstate⟩ := hi.sameData hb'
    exact ⟨b, hb, .of_sameData hsame hstate⟩
  kept hb := by
    obtain ⟨b', hb', rfl | ⟨hinit, rfl⟩⟩ := hi.known hb
    · exact ⟨_, hb', .refl _⟩
    · exact ⟨_, hb', .of_sameData ⟨rfl, rfl, rfl, rfl, rfl, rfl, rfl, rfl, rfl⟩ (.inr ⟨hinit, rfl⟩)⟩
  keys := hi.keys
  local_idx := hi.local_idx
  last_sent_block := hi.last_sent_block
  blamed := hi.blamed
  guilty i hb := (hi.guilty i hb).imp_right fun h => .inr (.inl h)

theorem of_blamedAt (hb : BlamedAt i s s') (hguilty : s'.Twice i ∨ s'.Sick i ∨ Proven chain s' i) : Evolves chain hash s s' where
  back hb' := ⟨_, hb.frame.blocks ▸ hb', .refl _⟩
  kept hb' := ⟨_, by rw [hb.frame.blocks]; exact hb', .refl _⟩
  keys := hb.frame.keys
  local_idx := hb.frame.local_idx
  last_sent_block := hb.frame.last_sent_block
  blamed := hb.frame.blamed
  guilty j hj := by
    rcases eq_or_ne j i with rfl | hne
    · exact .inr hguilty
    · rw [hb.others j hne] at hj
      exact .inl hj

theorem of_forking (hr : Ready s hash b) {F : ℕ} (hblock : s'.blocks hash = some (forked F b)) (hf : Forking s s' hash) : Evolves chain hash s s' where
  back {h c'} hc' := by
    rcases eq_or_ne h hash with rfl | hne
    · rw [hblock, Option.some.injEq] at hc'
      rw [← hc']
      exact ⟨b, hr.block, ⟨rfl, rfl, rfl, rfl, rfl, rfl, rfl, rfl, fun h => absurd rfl h, .inl rfl⟩⟩
    · obtain ⟨c, hc, next, rfl⟩ := hf.others hne hc'
      exact ⟨c, hc, ⟨rfl, rfl, rfl, rfl, rfl, rfl, rfl, rfl, fun _ => rfl, .inl rfl⟩⟩
  kept {h c} hc := by
    rcases eq_or_ne h hash with rfl | hne
    · rw [Option.some.inj (hc.symm.trans hr.block)]
      exact ⟨_, hblock, ⟨rfl, rfl, rfl, rfl, rfl, rfl, rfl, rfl, fun h => absurd rfl h, .inl rfl⟩⟩
    · obtain ⟨next, hc'⟩ := hf.kept hne hc
      exact ⟨_, hc', ⟨rfl, rfl, rfl, rfl, rfl, rfl, rfl, rfl, fun _ => rfl, .inl rfl⟩⟩
  keys := hf.keys
  local_idx := hf.local_idx
  last_sent_block := hf.last_sent_block
  blamed := hf.blamed
  guilty i hi := (hf.guilty i hi).imp_right .inl

end Evolves

/-! ## The rules for dependencies -/

/-- The dependency `x` breaks no rule, for a block whose previous block has the heights `d`. -/
structure DepFine (s : Receiver n Payload) (d : List ℕ) (x : Hash) : Prop where
  newer : ∀ {X}, s.blocks x = some X → ¬ (X.fork_id < d.length ∧ X.height ≤ d.getD X.fork_id 0)
  known_fork : ∀ {X i}, s.blocks x = some X → X.source_id = some i → (s.sources i).blamed = true →
    ∀ f ∈ (s.sources i).fork_ids, f ≠ X.fork_id → ¬ (f < d.length ∧ 0 < d.getD f 0)

theorem check_dep_spec (ht : Tables s) {d : List ℕ} {x : Hash} (hb : s.blocks x = some b) (hsource : bad .null_source ∨ b.source_id ≠ none) :
    Ends bad (s.check_dep d x) fun v => v = .fine ↔ DepFine s d x := by
  unfold check_dep
  rw [deref_eq hb, ok_bind]
  cases hi : b.source_id with
  | none =>
    rw [hi] at hsource
    exact .error (hsource.resolve_right fun h => h rfl)
  | some i =>
    have hself : ∀ {X}, s.blocks x = some X → X = b := fun hX => Option.some.inj (hX.symm.trans hb)
    rw [source_of, ok_bind]
    dsimp only
    by_cases hnewer : b.fork_id < d.length ∧ b.height ≤ d.getD b.fork_id 0
    · rw [if_pos hnewer]
      exact .ok (iff_of_false (fun h => (by cases h)) fun h => h.newer hb hnewer)
    rw [if_neg hnewer]
    -- no heights are ever noted
    rw [ht.blamed_heights i, zip_nil_left, any_nil]
    by_cases hknown : (s.sources i).blamed = true ∧ ((s.sources i).fork_ids.any fun f => f ≠ b.fork_id ∧ f < d.length ∧ d.getD f 0 > 0) = true
    · rw [if_pos hknown]
      refine .ok (iff_of_false (fun h => (by cases h)) fun h => ?_)
      obtain ⟨f, hf, hany⟩ := any_eq_true.1 hknown.2
      rw [decide_eq_true_iff] at hany
      exact h.known_fork hb hi hknown.1 f hf hany.1 hany.2
    · rw [if_neg hknown, if_neg (fun h => (by cases h.2))]
      refine .ok (iff_of_true rfl ⟨fun hX => by rw [hself hX]; exact hnewer, fun {X j} hX hj hblamed f hf hne hlt => hknown ?_⟩)
      rw [hself hX] at hj hne
      obtain rfl : i = j := Option.some.inj (hi.symm.trans hj)
      refine ⟨hblamed, any_eq_true.2 ⟨f, hf, ?_⟩⟩
      rw [decide_eq_true_iff]
      exact ⟨hne, hlt⟩

theorem check_deps_spec (ht : Tables s) {d : List ℕ} (xs : List Hash)
    (hknown : ∀ x ∈ xs, ∃ X, s.blocks x = some X ∧ (bad .null_source ∨ X.source_id ≠ none)) :
    Ends bad (s.check_deps d xs) fun v => v = .fine ↔ ∀ x ∈ xs, DepFine s d x := by
  induction xs with
  | nil => exact .ok (iff_of_true rfl (by simp))
  | cons x xs ih =>
    unfold check_deps
    obtain ⟨X, hX, hsource⟩ := hknown x (mem_cons_self ..)
    refine (check_dep_spec ht hX hsource).bind fun v hv => ?_
    rw [forall_mem_cons]
    cases v with
    | fine =>
      refine (ih fun x hx => hknown x (mem_cons_of_mem _ hx)).mono fun v hv' => ?_
      rw [hv', and_iff_right (hv.1 rfl)]
    | newer => exact .ok (iff_of_false (fun h => (by cases h)) fun h => (by cases hv.2 h.1))
    | known_fork => exact .ok (iff_of_false (fun h => (by cases h)) fun h => (by cases hv.2 h.1))

/-! ## Fork proofs -/

/-- Two dependencies prove a fork if each is known or signed, and they differ at one height. -/
theorem fork_proof_ok_spec (chain : Chain n Payload) (s : Receiver n Payload) (left right : Dep) :
    ∃ r, s.fork_proof_ok chain left right = .ok r ∧ (r = true ↔ DepOk chain s left ∧ DepOk chain s right ∧ left.height = right.height ∧
      left.src = right.src ∧ left.data_hash ≠ right.data_hash) := by
  obtain ⟨lstatus, hl, hliff⟩ := validate_block_dep_total chain s left
  obtain ⟨rstatus, hr, hriff⟩ := validate_block_dep_total chain s right
  unfold fork_proof_ok
  rw [hl, ok_bind]
  cases lstatus with
  | error e => exact ⟨false, rfl, iff_of_false (fun h => (by cases h)) fun h => (by cases hliff.2 h.1)⟩
  | ok u =>
    dsimp only
    rw [hr, ok_bind]
    cases rstatus with
    | error e => exact ⟨false, rfl, iff_of_false (fun h => (by cases h)) fun h => (by cases hriff.2 h.2.1)⟩
    | ok u =>
      refine ⟨_, rfl, ?_⟩
      rw [decide_eq_true_iff, and_iff_right (hliff.1 rfl), and_iff_right (hriff.1 rfl)]

theorem proof_source {left right : Dep} (hl : DepOk chain s left) (hr : DepOk chain s right) (hheight : left.height = right.height)
    (hsrc : left.src = right.src) (hne : left.data_hash ≠ right.data_hash) : ∃ i : Fin n, left.src = (i : ℕ) ∧ Proven chain s i := by
  have hl' := hl
  rcases hl with ⟨hzero, -, hhash, -⟩ | ⟨i, hpos, hi, -⟩
  · rcases hr with ⟨-, -, hhash', -⟩ | ⟨j, hpos, -, -⟩
    · exact absurd (hhash.trans hhash'.symm) hne
    · omega
  · exact ⟨i, hi, left, right, hl', hr, hpos, hheight, hi, hsrc ▸ hi, hne⟩

/-! ## `pre_deliver` -/

/-- The block breaks no rule, and carries no proof that is refused. -/
structure Passes (chain : Chain n Payload) (s : Receiver n Payload) (b : ReceivedBlock n Payload) : Prop where
  deps : ∀ x ∈ b.block_deps, DepFine s (((b.prev.bind s.blocks).map (·.deps)).getD []) x
  proof : ∀ left right, b.payload.bind chain.fetch = some (.fork left right) → s.fork_proof_ok chain left right = .ok true

/-- What the check of a block can come to. -/
structure Checked (chain : Chain n Payload) (s : Receiver n Payload) (hash : Hash) (b : ReceivedBlock n Payload) (s' : Receiver n Payload) : Prop where
  evolves : Evolves chain hash s s'
  to_run : s'.to_run = s.to_run
  log : s'.delivered_log = s.delivered_log
  outcome : (s'.is_ill hash = true ∧ Inv chain nothing s') ∨ (Inv chain (· = hash) s' ∧ ∃ is_custom, Running s' hash { b with is_custom })
  rules : s'.is_ill hash = false ↔ Passes chain s b

theorem Running.not_ill (hr : Running s hash b) : s.is_ill hash = false := by
  rw [← Bool.not_eq_true]
  intro hill
  obtain ⟨c, hc, hstate⟩ := is_ill_iff.1 hill
  rw [Option.some.inj (hc.symm.trans hr.block), hr.state] at hstate
  cases hstate

theorem Running.frame (hr : Running s hash b) (hf : Frame s s') : Running s' hash b where
  block := by rw [hf.blocks]; exact hr.block
  state := hr.state
  pending := hr.pending
  in_db := hr.in_db
  parents p hp := (hf.is_delivered p).trans (hr.parents p hp)
  fork_id := hr.fork_id
  apart := hr.apart
  deps f x := by
    simp only [time, hf.blocks]
    exact hr.deps f x

theorem Running.set_ill_spec (hs : Inv chain (· = hash) s) (hr : Running s hash b) :
    Ends bad (set_ill (s.keys.length + 1) s hash) fun s' => Inv chain nothing s' ∧ Illness s s' ∧ s'.is_ill hash = true :=
  Receiver.set_ill_spec _ hs hr.block (.inl hr.state) (fun _ hne _ => hne) (Nat.lt_succ_of_le (healthy_le s))

theorem Evolves.of_blamed_ill (hb : BlamedAt i s t) (hill : Illness t s') (hsick : s'.Sick i) : Evolves chain hash s s' where
  back {h b'} hb' := by
    obtain ⟨b, hb₀, hg⟩ := (Evolves.of_illness hill : Evolves chain hash t s').back hb'
    exact ⟨b, hb.frame.blocks ▸ hb₀, hg⟩
  kept {h b} hb₀ := (Evolves.of_illness hill : Evolves chain hash t s').kept (by rw [hb.frame.blocks]; exact hb₀)
  keys := hill.keys.trans hb.frame.keys
  local_idx := hill.local_idx.trans hb.frame.local_idx
  last_sent_block := hill.last_sent_block.trans hb.frame.last_sent_block
  blamed j hj := hill.blamed j (hb.frame.blamed j hj)
  guilty j hj := by
    rcases hill.guilty j hj with hj | hj
    · rcases eq_or_ne j i with rfl | hne
      · exact .inr (.inr (.inl hsick))
      · rw [hb.others j hne] at hj
        exact .inl hj
    · exact .inr (.inr (.inl hj))

theorem Illness.sick (hill : Illness s s') (hb : s.blocks hash = some b) (hi : b.source_id = some i) (hself : s'.is_ill hash = true) : s'.Sick i := by
  obtain ⟨b', hb', hstate⟩ := is_ill_iff.1 hself
  obtain ⟨c, hc, hsame, -⟩ := hill.sameData hb'
  rw [Option.some.inj (hc.symm.trans hb)] at hsame
  exact ⟨hash, b', hb', hstate, hsame.source_id.trans hi⟩

theorem Inv.custom (hs : Inv chain (· = hash) s) (hr : Running s hash b) (is_custom : Bool) :
    Inv chain (· = hash) (s.modify hash fun b => { b with is_custom }) ∧
      Running (s.modify hash fun b => { b with is_custom }) hash { b with is_custom } ∧
        Evolves chain hash s (s.modify hash fun b => { b with is_custom }) := by
  have hroot : hash ≠ chain.root_hash := hs.shape.ne_root hr.block (by rw [hr.state]; exact fun h => (by cases h))
  have hblock := modify_self s (f := fun b => { b with is_custom }) hr.block
  rw [modify_eq] at hblock ⊢
  have hset : Settled s (s.mapBlocks fun h b => if h = hash then { b with is_custom } else b) := by
    refine map_settled (fun h c _ => ?_) fun h c _ _ => ?_
    · split_ifs
      · exact Iff.rfl
      · exact Iff.rfl
    · split_ifs
      · exact ⟨rfl, rfl, rfl, rfl⟩
      · exact ⟨rfl, rfl, rfl, rfl⟩
  refine ⟨⟨hs.shape.map (fun h c hc => ?_) (if_neg hroot.symm), hs.links.map fun h c _ => ?_, hs.forks.map (fun h c _ => ?_) (fun h c _ _ => ?_)
    (fun h c hc hinit hne => ?_) (fun h c hc hdel hne => ?_), hs.times.settled hs.shape hs.links hset (fun h c' hc' hinit hne => .inl ?_),
    hs.log.settled hset rfl, hs.tables.map (fun h c _ => ?_) (fun h c _ hdel => ?_) (fun h c j hc hill hj => ?_)⟩, ?_, ?_⟩
  · split_ifs with heq
    · refine ⟨rfl, rfl, rfl, rfl, rfl, rfl, Iff.rfl, fun hnone => ?_⟩
      rw [heq] at hc
      rw [Option.some.inj (hc.symm.trans hr.block), hr.state] at hnone
      cases hnone
    · exact .refl c
  · split_ifs
    · exact ⟨rfl, rfl, rfl, rfl, rfl⟩
    · exact ⟨rfl, rfl, rfl, rfl, rfl⟩
  · split_ifs
    · exact ⟨rfl, rfl, rfl, rfl⟩
    · exact ⟨rfl, rfl, rfl, rfl⟩
  · split_ifs
    · rfl
    · rfl
  · rw [if_neg hne] at hinit
    exact hs.forks.initialized hc hinit hne
  · split_ifs at hdel
    · exact hs.forks.delivered hc hdel hne
    · exact hs.forks.delivered hc hdel hne
  · obtain ⟨c, hc, rfl⟩ := mapBlocks_some.1 hc'
    rw [if_neg hne] at hinit ⊢
    exact ⟨c, hc, hinit, hne, rfl, rfl⟩
  · split_ifs
    · exact ⟨rfl, rfl⟩
    · exact ⟨rfl, rfl⟩
  · split_ifs
    · exact hdel
    · exact hdel
  · split_ifs at hill
    · exact hs.tables.ill hc hill hj
    · exact hs.tables.ill hc hill hj
  · refine ⟨hblock, hr.state, hr.pending, hr.in_db, fun p hp => (hset.is_delivered p).trans (hr.parents p hp), hr.fork_id, hr.apart, fun f x => ?_⟩
    rw [hr.deps f x]
    exact and_congr Iff.rfl (forall_congr' fun p => forall_congr' fun hp => by rw [hset.kept.time (hr.parents p hp)])
  · have hg : ∀ h (c : ReceivedBlock n Payload), Grew (h = hash) c (if h = hash then { c with is_custom } else c) := by
      intro h c
      split_ifs
      · exact ⟨rfl, rfl, rfl, rfl, rfl, rfl, rfl, rfl, fun _ => rfl, .inl rfl⟩
      · exact .refl c
    refine ⟨fun {h c'} hc' => ?_, fun {h c} hc => ⟨_, mapBlocks_some.2 ⟨c, hc, rfl⟩, hg h c⟩, rfl, rfl, rfl, fun _ => id, fun _ => .inl⟩
    obtain ⟨c, hc, rfl⟩ := mapBlocks_some.1 hc'
    exact ⟨c, hc, hg h c⟩

/-- The block passes the check without a change but to the tables. -/
theorem Checked.fine (he : Evolves chain hash s s') (hrun : s'.to_run = s.to_run) (hlog : s'.delivered_log = s.delivered_log)
    (is_custom : Bool) (hs : Inv chain (· = hash) s') (hr : Running s' hash { b with is_custom })
    (hrules : ∀ x ∈ b.block_deps, DepFine s (((b.prev.bind s.blocks).map (·.deps)).getD []) x)
    (hproof : ∀ left right, b.payload.bind chain.fetch = some (.fork left right) → s.fork_proof_ok chain left right = .ok true) :
    Checked chain s hash b s' :=
  ⟨he, hrun, hlog, .inr ⟨hs, is_custom, hr⟩, iff_of_true hr.not_ill ⟨hrules, hproof⟩⟩

theorem Checked.ill (hi : b.source_id = some i) (hr : Running t hash b) (hb : BlamedAt i s t ∨ t = s) (hill : Illness t s') (hs : Inv chain nothing s')
    (hself : s'.is_ill hash = true)
    (hbroken : ¬ Passes chain s b) :
    Checked chain s hash b s' := by
  refine ⟨?_, ?_, ?_, .inl ⟨hself, hs⟩, iff_of_false (by rw [hself]; exact fun h => (by cases h)) hbroken⟩
  · rcases hb with hb | rfl
    · exact .of_blamed_ill hb hill (hill.sick hr.block hi hself)
    · exact .of_illness hill
  · rcases hb with hb | rfl
    · exact hill.to_run.trans hb.frame.to_run
    · exact hill.to_run
  · rcases hb with hb | rfl
    · exact hill.log.trans hb.frame.log
    · exact hill.log

theorem pre_deliver_data_spec (hs : Inv chain (· = hash) s) (hr : Running s hash b) (hi : b.source_id = some i)
    (hrules : ∀ x ∈ b.block_deps, DepFine s (((b.prev.bind s.blocks).map (·.deps)).getD []) x) :
    Ends bad (s.pre_deliver_data chain hash (b.payload.bind chain.fetch)) (Checked chain s hash b) := by
  unfold pre_deliver_data
  -- a payload that is no proof
  have hplain : ∀ is_custom, (∀ left right, b.payload.bind chain.fetch ≠ some (.fork left right)) →
      Checked chain s hash b (s.modify hash fun b => { b with is_custom }) := by
    intro is_custom hdata
    obtain ⟨hs', hr', he⟩ := hs.custom hr is_custom
    exact .fine he rfl rfl is_custom hs' hr' hrules fun left right h => absurd h (hdata left right)
  have hsame : (∀ left right, b.payload.bind chain.fetch ≠ some (.fork left right)) → Checked chain s hash b s := fun hdata =>
    .fine (.refl hash s) rfl rfl b.is_custom hs hr hrules fun left right h => absurd h (hdata left right)
  cases hdata : b.payload.bind chain.fetch with
  | none => exact .ok (hplain true fun left right h => (by rw [hdata] at h; cases h))
  | some data =>
    cases data with
    | badBlock => exact .ok (hsame fun left right h => (by rw [hdata] at h; cases h))
    | nop => exact .ok (hsame fun left right h => (by rw [hdata] at h; cases h))
    | vector => exact .ok (hplain true fun left right h => (by rw [hdata] at h; cases h))
    | fork left right =>
      dsimp only
      obtain ⟨r, hproof, hiff⟩ := fork_proof_ok_spec chain s left right
      rw [hproof, ok_bind]
      cases r with
      | false =>
        refine (hr.set_ill_spec hs).mono ?_
        rintro s' ⟨hs', hill, hself⟩
        refine .ill hi hr (.inr rfl) hill hs' hself fun hall => ?_
        have htrue := hall.2 left right hdata
        rw [hproof] at htrue
        cases htrue
      | true =>
        obtain ⟨hl, hrt, hheight, hsrc, hne⟩ := hiff.1 rfl
        obtain ⟨j, hj, hproven⟩ := proof_source hl hrt hheight hsrc hne
        rw [if_pos rfl, deref_eq hr.block, ok_bind, get_source_eq_some.2 hj, source_of, ok_bind]
        have hb := on_found_fork_proof_blame_at s j left right b.fork_id b.height
        have hframe := hb.frame
        have hproven' : Proven chain ((s.on_found_fork_proof j left right).blame_at j b.fork_id b.height) j := by
          obtain ⟨l, r, hdl, hdr, hrest⟩ := hproven
          have hdep : ∀ {dep}, DepOk chain s dep → DepOk chain ((s.on_found_fork_proof j left right).blame_at j b.fork_id b.height) dep := by
            intro dep hdep
            rcases hdep with ⟨h1, h2, h3, h4⟩ | ⟨i, h1, h2, h3⟩
            · exact .root h1 h2 h3 h4
            · exact .block i h1 h2 (by rw [hframe.blocks]; exact h3)
          exact ⟨l, r, hdep hdl, hdep hdr, hrest⟩
        refine .ok (.fine (.of_blamedAt hb (.inr (.inr hproven'))) hframe.to_run hframe.log b.is_custom (hs.blamedAt hb) (hr.frame hframe)
          hrules fun left' right' h => ?_)
        rw [hdata] at h
        cases h
        exact hproof

theorem pre_deliver_spec (hs : Inv chain (· = hash) s) (hr : Running s hash b) (hi : b.source_id = some i)
    (hroot : bad .null_source ∨ chain.root_hash ∉ b.block_deps) : Ends bad (s.pre_deliver chain hash) (Checked chain s hash b) := by
  unfold pre_deliver
  rw [deref_eq hr.block, ok_bind, check_pos hr.state, ok_bind, check_pos hr.pending, ok_bind, check_pos hr.in_db, ok_bind, hi, source_of, ok_bind]
  dsimp only
  refine (check_deps_spec hs.tables (d := (b.prev.bind s.blocks).map (·.deps) |>.getD []) b.block_deps fun x hx => ?_).bind fun v hv => ?_
  · obtain ⟨X, hX, -⟩ := is_delivered_iff.1 (hr.parents x (mem_append_right _ hx))
    refine ⟨X, hX, hroot.imp_right fun hnot hnone => hnot ?_⟩
    by_cases heq : x = chain.root_hash
    · exact heq ▸ hx
    · obtain ⟨j, hj, -⟩ := hs.shape.ident hX heq
      rw [hnone] at hj
      cases hj
  have hbroken : v ≠ .fine → ¬ Passes chain s b :=
    fun hne h => hne (hv.2 h.1)
  cases v with
  | fine => exact pre_deliver_data_spec hs hr hi (hv.1 rfl)
  | newer =>
    refine (hr.set_ill_spec hs).mono ?_
    rintro s' ⟨hs', hill, hself⟩
    exact .ill hi hr (.inr rfl) hill hs' hself (hbroken fun h => (by cases h))
  | known_fork =>
    have hb := blame_at_blamedAt s i b.fork_id b.height
    have hr' := hr.frame hb.frame
    have hkeys := hb.frame.keys
    refine Ends.mono (P := fun s' => Inv chain nothing s' ∧ Illness (s.blame_at i b.fork_id b.height) s' ∧ s'.is_ill hash = true) ?_ ?_
    · rw [← hkeys]
      exact hr'.set_ill_spec (hs.blamedAt hb)
    · rintro s' ⟨hs', hill, hself⟩
      exact .ill hi hr' (.inl hb) hill hs' hself (hbroken fun h => (by cases h))

end Receiver

end Ton.Catchain
