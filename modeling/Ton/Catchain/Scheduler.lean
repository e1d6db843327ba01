import Ton.Catchain.Deliver
/-!
# The scheduler

A turn of the scheduler runs the block at the front of the queue. It keeps the
invariant, delivers the block exactly if it passes the check, and lessens the load:
a block enters the queue once, when the last parent it waits for is delivered. So
the scheduler empties its queue.
-/

namespace Ton.Catchain
open Result List Option

variable {n : ℕ} {Payload : Type} {chain : Chain n Payload} {ex : Hash → Prop} {bad : Crash → Prop}

namespace Receiver

variable {s s' t : Receiver n Payload} {i : Fin n} {h hash : Hash} {b c : ReceivedBlock n Payload}

/-! ## The load -/

/-- The block waits for a parent. -/
def waiting (s : Receiver n Payload) (h : Hash) : Bool := (s.blocks h).any fun b => b.state = .initialized ∧ 0 < b.pending_deps

/-- The queue, and the blocks that may still enter it. -/
def load (s : Receiver n Payload) : ℕ := s.to_run.length + (s.keys.filter s.waiting).length

theorem load_le (s : Receiver n Payload) : s.load ≤ s.to_run.length + s.keys.length := Nat.add_le_add_left (length_filter_le ..) _

theorem waiting_iff : s.waiting h = true ↔ ∃ b, s.blocks h = some b ∧ b.state = .initialized ∧ 0 < b.pending_deps := by
  rw [waiting, Option.any_eq_true]
  refine exists_congr fun b => and_congr mem_def ?_
  rw [decide_eq_true_iff]

/-- Between two states that keep the invariant no block starts to wait. -/
theorem waiting_mono (hs : Inv chain nothing s) (hs' : Inv chain nothing s') (he : Evolves chain hash s s') (h : Hash) (hw : s'.waiting h = true) :
    s.waiting h = true := by
  obtain ⟨b', hb', hinit', hpos⟩ := waiting_iff.1 hw
  obtain ⟨b, hb, hg⟩ := he.back hb'
  have hinit : b.state = .initialized := by
    rcases hg.state with heq | ⟨hinit, -⟩
    · rw [← heq, hinit']
    · exact hinit
  refine waiting_iff.2 ⟨b, hb, hinit, ?_⟩
  rw [hs'.links.pending hb' hinit' id, length_pos_iff_exists_mem] at hpos
  obtain ⟨p, hp⟩ := hpos
  rw [mem_filter] at hp
  rw [hs.links.pending hb hinit id]
  refine length_pos_of_mem (a := p) (mem_filter.2 ⟨?_, ?_⟩)
  · rw [ReceivedBlock.parents, hg.prev, hg.block_deps] at hp
    exact hp.1
  · -- a delivered block stays so
    rw [Bool.not_eq_true', ← Bool.not_eq_true]
    intro hdel
    obtain ⟨P, hP, hPstate⟩ := is_delivered_iff.1 hdel
    obtain ⟨P', hP', hgP⟩ := he.kept hP
    have hPstate' : P'.state = .delivered := by
      rcases hgP.state with heq | ⟨hinit, -⟩
      · rw [heq, hPstate]
      · rw [hPstate] at hinit
        cases hinit
    rw [is_delivered_of hP', hPstate'] at hp
    cases hp.2

variable {rest : List Hash}

theorem load_lt (woken : List Hash) (hs : Inv chain nothing s) (hs' : Inv chain nothing s') (he : Evolves chain hash s s')
    (hqueue : s.to_run = hash :: rest) (hqueue' : s'.to_run = rest ++ woken)
    (hwoken : ∀ k ∈ woken, s.waiting k = true ∧ s'.waiting k = false) : s'.load < s.load := by
  have hnd := hs'.links.queue_nodup
  rw [hqueue', nodup_append] at hnd
  have hle : (s'.keys.filter s'.waiting ++ woken).length ≤ (s.keys.filter s.waiting).length := by
    refine Subperm.length_le (subperm_of_subset ?_ fun k hk => ?_)
    · refine nodup_append.2 ⟨hs'.shape.keys_nodup.filter _, hnd.2.1, ?_⟩
      rintro x hx y hy rfl
      have hwaiting := (mem_filter.1 hx).2
      rw [(hwoken x hy).2] at hwaiting
      cases hwaiting
    · have hwaiting : s.waiting k = true := by
        rcases mem_append.1 hk with hk | hk
        · exact waiting_mono hs hs' he k (mem_filter.1 hk).2
        · exact (hwoken k hk).1
      obtain ⟨c, hc, -⟩ := waiting_iff.1 hwaiting
      exact mem_filter.2 ⟨(hs.shape.mem_keys k).2 (by rw [hc]; rfl), hwaiting⟩
  rw [length_append] at hle
  rw [load, load, hqueue, hqueue', length_append, length_cons]
  omega

/-! ## The check, before and after the block got its fork -/

theorem Forking.prev_deps (hs : Shape chain s) (hb : s.blocks hash = some b) (hf : Forking s s' hash) :
    ((b.prev.bind s'.blocks).map (·.deps)).getD [] = ((b.prev.bind s.blocks).map (·.deps)).getD [] := by
  cases hprev : b.prev with
  | none => rfl
  | some p =>
    have hne : p ≠ hash := by
      rintro rfl
      refine hs.not_own_parent hb (mem_append_left _ ?_)
      rw [hprev]
      exact mem_singleton_self _
    rw [bind_some, bind_some]
    cases hP : s.blocks p with
    | some P =>
      obtain ⟨next, hP'⟩ := hf.kept hne hP
      rw [hP']
      rfl
    | none =>
      cases hP' : s'.blocks p with
      | none => rfl
      | some P' =>
        obtain ⟨P, hP₀, -⟩ := hf.others hne hP'
        rw [hP] at hP₀
        cases hP₀

theorem DepFine.congr {d : List ℕ} {x : Hash} {X X' : ReceivedBlock n Payload} (hX : s.blocks x = some X) (hX' : s'.blocks x = some X')
    (hfork : X'.fork_id = X.fork_id) (hheight : X'.height = X.height) (hsource : X'.source_id = X.source_id)
    (hsources : ∀ i, X.source_id = some i → s'.sources i = s.sources i) (h : DepFine s d x) : DepFine s' d x := by
  have hself : ∀ {Y}, s'.blocks x = some Y → Y = X' := fun hY => Option.some.inj (hY.symm.trans hX')
  refine ⟨fun {Y} hY => ?_, fun {Y i} hY hi => ?_⟩
  · rw [hself hY, hfork, hheight]
    exact h.newer hX
  · rw [hself hY, hsource] at hi
    rw [hself hY, hfork, hsources i hi]
    exact h.known_fork hX hi

section
variable (hs : Shape chain s) (hb : s.blocks hash = some b) (hinit : b.state = .initialized) (hf : Forking s s' hash)
include hs hb hinit hf

theorem Forking.depFine {d : List ℕ}
    {x : Hash} (hx : x ∈ b.block_deps) : DepFine s' d x ↔ DepFine s d x := by
  have hne : hash ≠ chain.root_hash := hs.ne_root hb (by rw [hinit]; exact fun h => (by cases h))
  obtain ⟨X, hX, hsource⟩ := (hs.received hb hne (by rw [hinit]; exact fun h => (by cases h))).deps x hx
  have hxne : x ≠ hash := by
    rintro rfl
    exact hsource (by rw [Option.some.inj (hX.symm.trans hb)])
  obtain ⟨next, hX'⟩ := hf.kept hxne hX
  have hother : ∀ i, X.source_id = some i → s'.sources i = s.sources i := fun i hi => hf.sources hb fun h => hsource (hi.trans h.symm)
  exact ⟨.congr hX' hX rfl rfl rfl fun i hi => (hother i hi).symm, .congr hX hX' rfl rfl rfl hother⟩

theorem Forking.passes (hknown : ∀ h, (s'.blocks h).isSome = (s.blocks h).isSome) {F : ℕ} : Passes chain s' (forked F b) ↔ Passes chain s b := by
  have hprev := hf.prev_deps hs hb
  have hproof : ∀ left right, s'.fork_proof_ok chain left right = s.fork_proof_ok chain left right := by
    intro left right
    unfold fork_proof_ok validate_block_dep get_block
    simp only [hknown]
  constructor
  · refine fun h => ⟨fun x hx => ?_, fun left right hdata => ?_⟩
    · rw [← hprev, ← hf.depFine hs hb hinit hx]
      exact h.deps x hx
    · rw [← hproof]
      exact h.proof left right hdata
  · refine fun h => ⟨fun x hx => ?_, fun left right hdata => ?_⟩
    · have hfine := (hf.depFine hs hb hinit hx).2 (h.deps x hx)
      rw [← hprev] at hfine
      exact hfine
    · rw [hproof]
      exact h.proof left right hdata

end

theorem passes_queued (queue : List Hash) : Passes chain (s.queued queue) b ↔ Passes chain s b :=
  ⟨fun h => ⟨fun x hx => ⟨(h.deps x hx).newer, (h.deps x hx).known_fork⟩, h.proof⟩,
    fun h => ⟨fun x hx => ⟨(h.deps x hx).newer, (h.deps x hx).known_fork⟩, h.proof⟩⟩

/-! ## A turn -/

/-- What one turn does, with `hash` at the front of the queue. -/
structure Turn (chain : Chain n Payload) (hash : Hash) (s s' : Receiver n Payload) : Prop where
  inv : Inv chain nothing s'
  evolves : Evolves chain hash s s'
  log : s'.delivered_log = s.delivered_log ∨ s'.delivered_log = s.delivered_log ++ [hash]
  load : s'.load < s.load
  /-- A block is delivered exactly if it passes the check, and falls ill otherwise. -/
  outcome : ∀ {b}, s.blocks hash = some b → b.state = .initialized →
    (s'.is_ill hash = true ∨ s'.is_delivered hash = true) ∧ (s'.is_delivered hash = true ↔ Passes chain s b)
  unrun : ∀ {b}, s.blocks hash = some b → b.state ≠ .initialized → s'.blocks = s.blocks

theorem Forking.known (hr : Ready s hash b) {F : ℕ} (hblock : s'.blocks hash = some (forked F b)) (hf : Forking s s' hash) (h : Hash) :
    (s'.blocks h).isSome = (s.blocks h).isSome := by
  rw [Bool.eq_iff_iff, isSome_iff_exists, isSome_iff_exists]
  constructor
  · rintro ⟨c', hc'⟩
    rcases eq_or_ne h hash with rfl | hne
    · exact ⟨b, hr.block⟩
    · obtain ⟨c, hc, -⟩ := hf.others hne hc'
      exact ⟨c, hc⟩
  · rintro ⟨c, hc⟩
    rcases eq_or_ne h hash with rfl | hne
    · exact ⟨_, hblock⟩
    · obtain ⟨next, hc'⟩ := hf.kept hne hc
      exact ⟨_, hc'⟩

theorem Turn.skip (hs : Inv chain nothing s) (hqueue : s.to_run = hash :: rest)
    (hstate : ∀ b, s.blocks hash = some b → b.state ≠ .initialized) : Turn chain hash s (s.queued rest) := by
  have hs' : Inv chain nothing (s.queued rest) := (hs.pop hqueue).drop hstate
  have he : Evolves chain hash s (s.queued rest) := ⟨fun hb => ⟨_, hb, .refl _⟩, fun hb => ⟨_, hb, .refl _⟩, rfl, rfl, rfl, fun _ => id, fun _ => .inl⟩
  exact ⟨hs', he, .inl rfl, load_lt [] hs hs' he hqueue (append_nil _).symm fun k hk => absurd hk (not_mem_nil),
    fun hb hinit => absurd hinit (hstate _ hb), fun _ _ => rfl⟩

theorem woken_waiting (hs : Inv chain nothing s) (hb : s.blocks hash = some b) (hinit : b.state = .initialized) (hu : Inv chain (· = hash) t)
    (he : Evolves chain hash s t) (hr : Running t hash c) {k : Hash} (hk : k ∈ c.rev_deps) (hwakes : t.wakes k = true) (hs' : Inv chain nothing s')
    (hqueue : k ∈ s'.to_run) : s.waiting k = true ∧ s'.waiting k = false := by
  constructor
  · obtain ⟨C, hC, hCstate⟩ := hu.links.rev_known hr.block hk
    have hCinit : C.state = .initialized := by
      refine hCstate.resolve_right fun hill => ?_
      rw [wakes, hC, any_some, ReceivedBlock.is_ill, hill] at hwakes
      cases hwakes
    have hne : k ≠ hash := by
      rintro rfl
      exact hr.apart hk
    obtain ⟨C₀, hC₀, hg⟩ := he.back hC
    have hinit₀ : C₀.state = .initialized := by
      rcases hg.state with heq | ⟨h, -⟩
      · rw [← heq, hCinit]
      · exact h
    refine waiting_iff.2 ⟨C₀, hC₀, hinit₀, ?_⟩
    rw [hs.links.pending hC₀ hinit₀ id]
    refine length_pos_of_mem (a := hash) (mem_filter.2 ⟨?_, ?_⟩)
    · have hmem := (waits_iff hu hr hC hCinit hne).1 hk
      rw [ReceivedBlock.parents, hg.prev, hg.block_deps] at hmem
      exact hmem
    · rw [is_delivered_of hb, hinit]
      rfl
  · rw [← Bool.not_eq_true]
    intro hw
    obtain ⟨C', hC', hinit', hpos⟩ := waiting_iff.1 hw
    have hzero := ((hs'.links.queue_iff hC' hinit' id).1 hqueue).1
    omega

theorem run_next_spec (hs : Inv chain nothing s) (hqueue : s.to_run = hash :: rest)
    (hroot : bad .null_source ∨ ∀ b, s.blocks hash = some b → b.state = .initialized → chain.root_hash ∉ b.block_deps) :
    Ends bad (s.run_next chain) (Turn chain hash s) := by
  obtain ⟨b, hb, hnone, -⟩ := hs.links.queue_known (hqueue ▸ mem_cons_self ..)
  unfold run_next
  rw [hqueue]
  change Ends bad ((s.queued rest).run chain hash) _
  unfold run
  rw [deref_eq (s := s.queued rest) hb, ok_bind]
  have hself : ∀ {c}, s.blocks hash = some c → c = b := fun hc => Option.some.inj (hc.symm.trans hb)
  have hskip : b.state ≠ .initialized → Turn chain hash s (s.queued rest) := fun hstate => .skip hs hqueue fun c hc => by rw [hself hc]; exact hstate
  cases hstate : b.state with
  | none => exact absurd hstate hnone
  | ill => exact .ok (hskip (by rw [hstate]; exact fun h => (by cases h)))
  | delivered => exact .ok (hskip (by rw [hstate]; exact fun h => (by cases h)))
  | initialized =>
    dsimp only
    have hran : ∀ {s' : Receiver n Payload} {c}, s.blocks hash = some c → c.state ≠ .initialized → s'.blocks = s.blocks := fun {_ c} hc hne => by
      rw [hself hc] at hne
      exact absurd hstate hne
    have hpop := hs.pop hqueue
    have hr := Ready.of_queue hs hqueue hb hstate
    have hne : hash ≠ chain.root_hash := hs.shape.ne_root hb (by rw [hstate]; exact fun h => (by cases h))
    obtain ⟨i, hi, -⟩ := hs.shape.ident hb hne
    rw [check_pos hr.pending, ok_bind, check_pos hr.in_db, ok_bind]
    obtain ⟨t, F, hfork, ht, hrun, hforking⟩ := initialize_fork_spec hpop hr hi
    rw [hfork, ok_bind]
    have hpasses : Passes chain t (forked F b) ↔ Passes chain s b :=
      (hforking.passes hpop.shape hb hstate (hforking.known hr hrun.block)).trans (passes_queued rest)
    have he₁ : Evolves chain hash (s.queued rest) t := .of_forking hr hrun.block hforking
    refine (pre_deliver_spec ht hrun hi (hroot.imp_right fun h => h b hb hstate)).bind fun u hu => ?_
    have he₂ := he₁.trans hu.evolves
    have hskip₀ : Evolves chain hash s (s.queued rest) :=
        ⟨fun hb => ⟨_, hb, .refl _⟩, fun hb => ⟨_, hb, .refl _⟩, rfl, rfl, rfl, fun _ => id, fun _ => .inl⟩
    have hqueue₂ : u.to_run = rest := hu.to_run.trans hforking.to_run
    rcases hu.outcome with ⟨hill, hinv⟩ | ⟨hinv, is_custom, hrun'⟩
    · -- the block fell ill
      obtain ⟨c, hc, hcstate⟩ := is_ill_iff.1 hill
      have hdel : u.is_delivered hash = false := by
        rw [is_delivered_of hc, hcstate]
        rfl
      have hdeliver : u.deliver hash = .ok u := by
        rw [deliver, deref_eq hc, ok_bind, if_pos]
        rw [ReceivedBlock.is_ill, hcstate]
        rfl
      rw [hdeliver]
      have he := hskip₀.trans he₂
      refine .ok ⟨hinv, he, .inl (hu.log.trans hforking.log), load_lt [] hs hinv he hqueue ?_ fun k hk => absurd hk (not_mem_nil),
        fun {c} hc _ => ?_, hran⟩
      · rw [hqueue₂, append_nil]
      · refine ⟨.inl hill, ?_⟩
        rw [hself hc, ← hpasses, ← hu.rules, hill, hdel]
        exact iff_of_false (fun h => (by cases h)) fun h => (by cases h)
    · -- the block is delivered
      obtain ⟨s', hdeliver, hd⟩ := deliver_spec hinv hrun' hi
      rw [hdeliver]
      have he := (hskip₀.trans he₂).trans hd.evolves
      refine .ok ⟨hd.inv, he, .inr ?_, load_lt (b.rev_deps.filter u.wakes) hs hd.inv he hqueue ?_ fun k hk => ?_,
        fun {c} hc _ => ?_, hran⟩
      · rw [hd.log, hu.log]
        exact congrArg (· ++ [hash]) hforking.log
      · rw [hd.to_run, hqueue₂]
        rfl
      · obtain ⟨hk, hwakes⟩ := mem_filter.1 hk
        refine woken_waiting hs hb hstate hinv (hskip₀.trans he₂) hrun' hk hwakes hd.inv ?_
        rw [hd.to_run]
        exact mem_append_right _ (mem_filter.2 ⟨hk, hwakes⟩)
      · refine ⟨.inr hd.delivered, ?_⟩
        rw [hself hc, ← hpasses, ← hu.rules]
        exact iff_of_true hd.delivered hrun'.not_ill

/-! ## The whole queue -/

section
variable {P : Receiver n Payload → Prop}
  (hturn : ∀ s hash rest, P s → s.to_run = hash :: rest → Ends bad (s.run_next chain) fun s' => P s' ∧ s'.load < s.load)
include hturn

/-- The loop keeps what every turn keeps, and ends with an empty queue. -/
theorem run_all_spec (fuel : ℕ) (hs : P s)
    (hfuel : s.load ≤ fuel) : Ends bad (run_all chain fuel s) fun s' => P s' ∧ s'.to_run = [] := by
  induction fuel generalizing s with
  | zero =>
    have hnil : s.to_run = [] := by
      rw [load] at hfuel
      exact length_eq_zero_iff.1 (by omega)
    rw [run_all, if_pos hnil]
    exact .ok ⟨hs, hnil⟩
  | succ fuel ih =>
    unfold run_all
    cases hqueue : s.to_run with
    | nil =>
      rw [if_pos rfl]
      exact .ok ⟨hs, hqueue⟩
    | cons hash rest =>
      rw [if_neg (fun h => (by cases h))]
      refine (hturn s hash rest hs hqueue).bind ?_
      rintro s' ⟨hs', hlt⟩
      exact ih hs' (by omega)

theorem run_scheduler_spec (hs : P s) :
    Ends bad (s.run_scheduler chain) fun s' => P s' ∧ s'.to_run = [] := run_all_spec hturn _ hs s.load_le

end

end Receiver

end Ton.Catchain
