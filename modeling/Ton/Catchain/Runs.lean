import Ton.Catchain.Outbox
import Ton.Lib.Runs
/-!
# Runs of a receiver

What can happen to a receiver, in single steps: a block arrives, is written to the
database, the scheduler takes one turn, a fork proof comes in, and an own block goes
its way. A message and a run of the scheduler are several such steps, so every state
between two messages is reached by them, and more. Every state that is reached keeps
the invariant.
-/

namespace Ton.Catchain
open Result List Option Nat Function

variable {n : ℕ} {Payload : Type} {chain : Chain n Payload} {bad : Crash → Prop}

inductive Act (Payload : Type) where
  | create_block (block : Block) (payload : Payload)
  | written (hash : Hash)
  | run_next
  | got_fork_proof (left right : Dep)
  | add_block (payload : Payload) (deps : List Hash)
  | add_block_cont (signature : Signature)
  | create_own
  | finish_own
  | start

namespace Receiver

/-- A block arrives, and is created if it is valid. -/
def arrive (chain : Chain n Payload) (s : Receiver n Payload) (block : Block) (payload : Payload) : Exc (Receiver n Payload) :=
  if block.incarnation ≠ chain.incarnation then .ok s
  else do
    match ← s.validate_block chain block payload with
    | .error _ => .ok s
    | .ok () =>
      let (s, _) ← s.create_block chain block payload
      .ok s

/-- A block that arrived was written to the database. -/
def store (s : Receiver n Payload) (hash : Hash) : Exc (Receiver n Payload) :=
  match s.blocks hash with
  | none => .ok s
  | some b => if b.state = .none ∨ b.height = 0 then .ok s else s.written hash

/-- `add_block_cont_3`, up to where the block is scheduled. -/
def create_own (chain : Chain n Payload) (s : Receiver n Payload) : Exc (Receiver n Payload) :=
  match s.sending with
  | some (.storing block payload) => do
    let (s, hash) ← s.create_block chain block payload
    { s with last_sent_block := hash }.written hash
  | _ => .ok s

/-- `add_block_cont_3`, from where the scheduler has run. -/
def finish_own (chain : Chain n Payload) (s : Receiver n Payload) : Exc (Receiver n Payload) :=
  match s.sending with
  | some (.storing _ _) => do
    let b ← s.deref s.last_sent_block
    check .not_delivered b.delivered
    let s := { s with active_send := false, sending := none }
    match s.pending_blocks with
    | [] => .ok s
    | (payload, deps) :: rest => add_block chain { s with pending_blocks := rest } payload deps
  | _ => .ok s

def step (chain : Chain n Payload) (s : Receiver n Payload) : Act Payload → Exc (Receiver n Payload)
  | .create_block block payload => s.arrive chain block payload
  | .written hash => s.store hash
  | .run_next => s.run_next chain
  | .got_fork_proof left right => s.got_fork_proof chain left right
  | .add_block payload deps => s.add_block chain payload deps
  | .add_block_cont signature => s.add_block_cont chain signature
  | .create_own => s.create_own chain
  | .finish_own => s.finish_own chain
  | .start => .ok { s with started := true }

/-- The states that are reached, with each step under a condition. -/
def Reached (chain : Chain n Payload) (may : Receiver n Payload → Act Payload → Prop) : Receiver n Payload → Prop :=
  Reach (step chain) may fun s => ∃ idx allow, s = create chain idx allow

variable {s s' t : Receiver n Payload} {i : Fin n} {h hash : Hash} {b c : ReceivedBlock n Payload} {block : Block} {payload : Payload}

/-! ## The start -/

theorem create_blocks {idx : Fin n} {allow : Bool} : (create chain idx allow).blocks h = some b ↔ h = chain.root_hash ∧ b = chain.root_block := by
  change (if h = chain.root_hash then some chain.root_block else none) = some b ↔ _
  split_ifs with heq
  · rw [Option.some.injEq, and_iff_right heq, eq_comm]
  · exact iff_of_false (fun h => (by cases h)) fun h => heq h.1

theorem Inv.create (chain : Chain n Payload) (idx : Fin n) (allow : Bool) : Inv chain nothing (create chain idx allow) := by
  have hroot : (Receiver.create chain idx allow).blocks chain.root_hash = some chain.root_block := if_pos rfl
  have hrootstate : chain.root_block.state = .delivered := rfl
  have hdel : ∀ h, (Receiver.create chain idx allow).is_delivered h = true ↔ h = chain.root_hash := by
    intro h
    rw [is_delivered_iff]
    constructor
    · rintro ⟨b, hb, -⟩
      exact (create_blocks.1 hb).1
    · rintro rfl
      exact ⟨_, hroot, rfl⟩
  have hinit : ∀ {h b}, (Receiver.create chain idx allow).blocks h = some b → b.state ≠ .initialized := by
    intro h b hb hstate
    rw [(create_blocks.1 hb).2] at hstate
    cases hstate
  have hfork : ∀ {h b}, (Receiver.create chain idx allow).blocks h = some b → ¬ 0 < b.fork_id := by
    intro h b hb hpos
    rw [(create_blocks.1 hb).2] at hpos
    exact absurd hpos (lt_irrefl 0)
  refine ⟨?_, ?_, ?_, ?_, ?_, ?_⟩
  · refine ⟨nodup_singleton _, fun h => ?_, hroot, ?_, fun {h b} hb hne => ?_, fun {h b} hb hstate => ?_, fun {h b} hb hne _ => ?_⟩
    · change h ∈ [chain.root_hash] ↔ _
      rw [mem_singleton, isSome_iff_exists]
      constructor
      · rintro rfl
        exact ⟨_, hroot⟩
      · rintro ⟨b, hb⟩
        exact (create_blocks.1 hb).1
    · exact isSome_iff_exists.2 ⟨_, hroot⟩
    · exact absurd (create_blocks.1 hb).1 hne
    · rw [(create_blocks.1 hb).2] at hstate
      cases hstate
    · exact absurd (create_blocks.1 hb).1 hne
  · refine ⟨fun {p P c} hP hc => ?_, fun {p P c C} _ _ hC hstate _ => absurd hstate (hinit hC), fun {p P} hP => ?_,
      fun {c C} hC hstate _ => absurd hstate (hinit hC), nodup_nil, fun {h} hh => absurd hh (not_mem_nil),
      fun {c C} hC hstate _ => absurd hstate (hinit hC), fun {c C} hC _ hne => absurd (create_blocks.1 hC).1 hne,
      fun {p P c C} hP hc _ _ => ?_⟩
    · rw [(create_blocks.1 hP).2] at hc
      cases hc
    · rw [(create_blocks.1 hP).2]
      exact nodup_nil
    · rw [(create_blocks.1 hP).2] at hc
      cases hc
  · refine ⟨fun {h b} hb => ?_, fun {h b} hb hstate _ => absurd hstate (hinit hb), fun {h b} hb _ hne => absurd (create_blocks.1 hb).1 hne,
      fun {h b h' b'} hb _ hpos _ _ => absurd hpos (hfork hb), fun {h b h' b'} hb _ hpos _ _ => absurd hpos (hfork hb),
      fun {h b h' b'} hb _ hpos _ _ => absurd hpos (hfork hb), fun {p P c} hP hnext => ?_, fun {i} hne => absurd rfl hne,
      fun {h b i} hb hpos _ => absurd hpos (hfork hb), fun {i f} hf => absurd hf (not_mem_nil), fun {i h b} _ hf => absurd hf (not_mem_nil),
      fun {i} hlt => absurd hlt (Nat.not_lt_zero 1)⟩
    · rw [(create_blocks.1 hb).2]
      exact Nat.zero_le _
    · rw [(create_blocks.1 hP).2] at hnext
      cases hnext
  · refine ⟨fun {h b} hb _ f => ?_, fun {h b} hb hstate _ => absurd hstate (hinit hb)⟩
    obtain ⟨rfl, rfl⟩ := create_blocks.1 hb
    refine History.timeAt_of_parents (fun _ => 0) (fun p hp => ?_) fun x => ?_
    · obtain ⟨c, hc, hp⟩ := hp
      rw [(create_blocks.1 hc).2] at hp
      cases hp
    · refine iff_of_true (Nat.zero_le x) ⟨fun _ => ?_, fun _ _ => Nat.zero_le x⟩
      simp only [history, hroot, elim_some]
      exact Nat.zero_le x
  · refine ⟨nodup_nil, fun h => ?_, fun {l h l'} hl => ?_⟩
    · rw [hdel]
      exact iff_of_false (not_mem_nil) fun h => h.2 h.1
    · have hnil : ([] : List Hash) = l ++ h :: l' := hl
      rw [eq_comm, append_eq_nil_iff] at hnil
      cases hnil.2
  · refine ⟨fun {i k h} hk => (by cases hk), fun {h b i} hb hi _ => ?_, fun {i k} hpos hle => absurd hle (Nat.not_le_of_lt hpos),
      fun {h b i} hb hill _ => ?_, fun {i} hf => (by cases hf), fun _ => rfl⟩
    · rw [(create_blocks.1 hb).2] at hi
      cases hi
    · rw [(create_blocks.1 hb).2] at hill
      cases hill

/-! ## One step -/

/-- No block is forgotten. -/
def Knows (s s' : Receiver n Payload) : Prop := ∀ h, (s.blocks h).isSome = true → (s'.blocks h).isSome = true

theorem Knows.of_eq (h : s'.blocks = s.blocks) : Knows s s' := by
  intro k hk
  rw [h]
  exact hk

theorem Arrives.knows (h : Arrives chain block payload hash s s') : Knows s s' := by
  intro k hk
  obtain ⟨b, hb⟩ := isSome_iff_exists.1 hk
  obtain ⟨b', hb', -⟩ := h.kept hb
  exact isSome_iff_exists.2 ⟨b', hb'⟩

theorem DepOk.mono {dep : Dep} (hdep : DepOk chain s dep) (h : Knows s s') : DepOk chain s' dep := by
  rcases hdep with ⟨h1, h2, h3, h4⟩ | ⟨i, h1, h2, h3⟩
  · exact .root h1 h2 h3 h4
  · exact .block i h1 h2 (h3.imp_left (h _))

theorem BlockOk.mono (hok : BlockOk chain s block payload i) (h : Knows s s') : BlockOk chain s' block payload i :=
  ⟨hok.1, hok.2, hok.3, hok.4, hok.5, hok.6, hok.7, hok.8.mono h, fun dep hdep => (hok.9 dep hdep).mono h, hok.10, hok.11⟩

/-- The block that is being stored is valid. -/
def Storing (chain : Chain n Payload) (s : Receiver n Payload) : Prop :=
  ∀ block payload, s.sending = some (.storing block payload) → ∃ i, BlockOk chain s block payload i

theorem Storing.of_outbox (h : Storing chain s) (heq : s'.outbox = s.outbox) (hknows : Knows s s') : Storing chain s' := by
  intro block payload hsending
  have hout : s'.sending = s.sending := congrArg Outbox.sending heq
  obtain ⟨i, hok⟩ := h block payload (hout.symm.trans hsending)
  exact ⟨i, hok.mono hknows⟩

theorem postAll_sending (chain : Chain n Payload) (block : Block) (proofs : List (Dep × Dep)) (o : Outbox Payload) :
    (Outbox.postAll chain block o proofs).sending = o.sending ∨
      ∃ payload, (Outbox.postAll chain block o proofs).sending = some (.signing block payload) := by
  induction proofs generalizing o with
  | nil => exact .inl rfl
  | cons p proofs ih =>
    rw [Outbox.postAll, foldl_cons]
    rcases ih (o.post block (chain.serialize_fork p.1 p.2)) with h | h
    · rw [Outbox.postAll] at h
      rw [h, Outbox.post]
      split_ifs
      · exact .inl rfl
      · exact .inr ⟨_, rfl⟩
    · exact .inr h

theorem Storing.posts {proofs : List (Dep × Dep)} (h : Storing chain s) (hs : Shape chain s) (hp : Posts chain s s' proofs) (hknows : Knows s s') :
    Storing chain s' := by
  intro block payload hsending
  obtain ⟨prev, hprev⟩ := isSome_iff_exists.1 hs.last_sent
  have hout := congrArg Outbox.sending (hp.outbox prev hprev)
  change s'.sending = _ at hout
  rw [hsending] at hout
  rcases postAll_sending chain (chain.own_block s.local_idx prev []) proofs s.outbox with heq | ⟨p, heq⟩
  · obtain ⟨i, hok⟩ := h block payload (heq.symm.trans hout.symm)
    exact ⟨i, hok.mono hknows⟩
  · rw [heq] at hout
    cases hout

/-- A state that is reached. -/
structure Good (chain : Chain n Payload) (s : Receiver n Payload) : Prop where
  inv : Inv chain nothing s
  storing : Storing chain s

theorem create_block_good (hs : Good chain s) (hsend : CanSend bad s) {s₀ : Receiver n Payload} (hok : BlockOk chain s₀ block payload i) :
    Ends bad (s.create_block chain block payload) fun r => r.2 = chain.hash_of i block payload ∧ Good chain r.1 ∧
      Arrives chain block payload (chain.hash_of i block payload) s r.1 := by
  refine ((create_block_spec hs.inv hsend hok).and (create_block_posts hs.inv hok)).mono ?_
  rintro r ⟨⟨hhash, hinv, harrives⟩, proofs, hposts, -⟩
  exact ⟨hhash, ⟨hinv, hs.storing.posts hs.inv.shape hposts harrives.knows⟩, harrives⟩

theorem arrive_spec (hs : Good chain s) (hsend : CanSend bad s) (block : Block) (payload : Payload) :
    Ends bad (s.arrive chain block payload) fun s' => Good chain s' ∧
      (s' = s ∨ ∃ i, BlockOk chain s block payload i ∧ Arrives chain block payload (chain.hash_of i block payload) s s') := by
  unfold arrive
  split_ifs with hinc
  · exact .ok ⟨hs, .inl rfl⟩
  obtain ⟨⟨status, hvalid⟩, hiff⟩ := validate_block_total s (not_not.1 hinc) payload
  rw [hvalid, ok_bind]
  cases status with
  | error e => exact .ok ⟨hs, .inl rfl⟩
  | ok u =>
    obtain ⟨i, hok⟩ := hiff.1 hvalid
    dsimp only
    refine (create_block_good hs hsend hok).bind ?_
    rintro ⟨t, hash⟩ ⟨-, ht, harrives⟩
    exact .ok ⟨ht, .inr ⟨i, hok, harrives⟩⟩

/-- What writing a block changes. -/
structure Stored (hash : Hash) (s s' : Receiver n Payload) : Prop where
  blocks : ∀ h, s'.blocks h = if h = hash then (s.blocks h).map stored else s.blocks h
  sources : s'.sources = s.sources
  log : s'.delivered_log = s.delivered_log
  local_idx : s'.local_idx = s.local_idx
  last_sent_block : s'.last_sent_block = s.last_sent_block
  to_run : s'.to_run = s.to_run ∨ s'.to_run = s.to_run ++ [hash]

theorem written_good (hs : Good chain s) (hb : s.blocks hash = some b) (hstate : b.state ≠ .none) (hroot : hash ≠ chain.root_hash) :
    ∃ s', s.written hash = .ok s' ∧ Good chain s' ∧ (s' = s ∨ Stored hash s s') := by
  obtain ⟨s', hs', hinv, hcases⟩ := written_spec hs.inv hb hstate hroot
  have hsame := (SameOut.of_written s hash).of_ok hs'
  refine ⟨s', hs', ⟨hinv, hs.storing.of_outbox hsame.outbox hsame.known⟩, ?_⟩
  rcases hcases with ⟨-, heq⟩ | ⟨-, rfl⟩
  · exact .inl heq
  · refine .inr ⟨fun h => ?_, rfl, rfl, rfl, rfl, ?_⟩
    · rw [queued_blocks, modify_eq, mapBlocks_blocks]
      split_ifs
      · rfl
      · exact Option.map_id'
    · rw [queued_to_run]
      split_ifs
      · exact .inr rfl
      · exact .inl rfl

theorem store_spec (hs : Good chain s) (hash : Hash) : ∃ s', s.store hash = .ok s' ∧ Good chain s' ∧ (s' = s ∨ Stored hash s s') := by
  unfold store
  cases hb : s.blocks hash with
  | none => exact ⟨s, rfl, hs, .inl rfl⟩
  | some b =>
    dsimp only
    split_ifs with hskip
    · exact ⟨s, rfl, hs, .inl rfl⟩
    · obtain ⟨hstate, hheight⟩ := not_or.1 hskip
      refine written_good hs hb hstate ?_
      rintro rfl
      rw [hs.inv.shape.root, Option.some.injEq] at hb
      rw [← hb] at hheight
      exact hheight rfl

theorem run_next_good (hs : Good chain s) {rest : List Hash} (hqueue : s.to_run = hash :: rest)
    (hroot : bad .null_source ∨ ∀ b, s.blocks hash = some b → b.state = .initialized → chain.root_hash ∉ b.block_deps) :
    Ends bad (s.run_next chain) fun s' => Good chain s' ∧ Turn chain hash s s' := by
  refine ((run_next_spec hs.inv hqueue hroot).and (SameOut.of_run_next s)).mono ?_
  rintro s' ⟨hturn, hsame⟩
  exact ⟨⟨hturn.inv, hs.storing.of_outbox hsame.outbox hsame.known⟩, hturn⟩

theorem got_fork_proof_spec (hs : Good chain s) (left right : Dep) : ∃ s', s.got_fork_proof chain left right = .ok s' ∧ Good chain s' ∧
    (s' = s ∨ ∃ i, BlamedAt i s s' ∧ Proven chain s i) := by
  obtain ⟨r, hproof, hiff⟩ := fork_proof_ok_spec chain s left right
  unfold got_fork_proof
  rw [hproof, ok_bind]
  cases r with
  | false => exact ⟨s, rfl, hs, .inl rfl⟩
  | true =>
    obtain ⟨hl, hr, hheight, hsrc, hne⟩ := hiff.1 rfl
    obtain ⟨i, hi, hproven⟩ := proof_source hl hr hheight hsrc hne
    rw [if_pos rfl, get_source_eq_some.2 hi, source_of, ok_bind]
    have hblamed := on_found_fork_proof_blame s i left right
    have hsame := (SameOut.on_found_fork_proof s i left right).trans (.blame _ i)
    exact ⟨_, rfl, ⟨hs.inv.blamedAt hblamed, hs.storing.of_outbox hsame.outbox hsame.known⟩, .inr ⟨i, hblamed, hproven⟩⟩

/-- Only what is about to be sent differs. -/
structure SameBut (s s' : Receiver n Payload) : Prop where
  frame : Frame s s'
  sources : s'.sources = s.sources

theorem SameBut.inv (h : SameBut s s') (hs : Inv chain nothing s) : Inv chain nothing s' := by
  refine hs.frame h.frame ?_
  have ht := hs.tables
  refine ⟨?_, ?_, ?_, ?_, ?_, ?_⟩
  · rw [h.sources, h.frame.blocks]
    exact ht.found
  · rw [h.sources, h.frame.blocks]
    exact ht.complete
  · simp only [h.sources, h.frame.is_delivered]
    exact ht.delivered
  · rw [h.sources, h.frame.blocks]
    exact ht.ill
  · rw [h.sources]
    exact ht.fork_proof
  · rw [h.sources]
    exact ht.blamed_heights

/-- How `add_block` may fail. -/
inductive CannotAdd : Crash → Prop
  | self_blamed : CannotAdd .self_blamed
  | null_pointer : CannotAdd .null_pointer
  | self_dep : CannotAdd .self_dep

theorem export_deps_ends (s : Receiver n Payload) (deps : List Hash) : Ends CannotAdd (s.export_deps deps) fun _ => True := by
  induction deps with
  | nil => exact .ok trivial
  | cons hash deps ih =>
    unfold export_deps deref
    cases s.blocks hash with
    | none => exact .error .null_pointer
    | some b =>
      rw [ok_bind]
      unfold check
      split_ifs
      · exact ih.bind fun _ _ => .ok trivial
      · exact .error .self_dep

theorem add_block_spec (s : Receiver n Payload) (payload : Payload) (deps : List Hash) :
    Ends CannotAdd (s.add_block chain payload deps) fun s' => SameBut s s' ∧
      (s'.sending = s.sending ∨ ∃ block, s'.sending = some (.signing block payload)) := by
  have hframe : ∀ {s' : Receiver n Payload}, s'.blocks = s.blocks → s'.keys = s.keys → s'.to_run = s.to_run → s'.total_forks = s.total_forks →
      s'.calls = s.calls → s'.local_idx = s.local_idx → s'.last_sent_block = s.last_sent_block → s'.sources = s.sources → SameBut s s' := by
    intro s' h1 h2 h3 h4 h5 h6 h7 h8
    exact ⟨⟨⟨h3, h4, by rw [delivered_log, h5, delivered_log], h6, h7, fun i => by rw [h8], fun i => by rw [h8]; exact id⟩, h1, h2⟩, h8⟩
  unfold add_block
  split_ifs
  · exact .ok ⟨hframe rfl rfl rfl rfl rfl rfl rfl rfl, .inl rfl⟩
  by_cases hblamed : (s.sources s.local_idx).blamed = true
  · rw [check_neg (not_not.2 hblamed)]
    exact .error .self_blamed
  rw [check_pos hblamed, ok_bind]
  unfold deref
  cases s.blocks s.last_sent_block with
  | none => exact .error .null_pointer
  | some prev => exact (export_deps_ends s deps).bind fun ds _ => .ok ⟨hframe rfl rfl rfl rfl rfl rfl rfl rfl, .inr ⟨_, rfl⟩⟩

theorem add_block_good (hs : Good chain s) (payload : Payload) (deps : List Hash) :
    Ends CannotAdd (s.add_block chain payload deps) fun s' => Good chain s' ∧ SameBut s s' := by
  refine (add_block_spec s payload deps).mono ?_
  rintro s' ⟨hsame, hsending⟩
  refine ⟨⟨hsame.inv hs.inv, fun block p hp => ?_⟩, hsame⟩
  rcases hsending with heq | ⟨b, heq⟩
  · obtain ⟨i, hok⟩ := hs.storing block p (heq.symm.trans hp)
    exact ⟨i, hok.mono (.of_eq hsame.frame.blocks)⟩
  · rw [heq] at hp
    cases hp

theorem sameBut_out {out : Outbox Payload} (hout : out = ⟨s'.active_send, s'.sending, s'.pending_blocks⟩)
    (h : s' = { s with active_send := out.active_send, sending := out.sending, pending_blocks := out.pending_blocks }) : SameBut s s' := by
  subst hout
  rw [h]
  exact ⟨⟨⟨rfl, rfl, rfl, rfl, rfl, fun _ => rfl, fun _ => id⟩, rfl, rfl⟩, rfl⟩

theorem add_block_cont_spec (hs : Good chain s) (signature : Signature) :
    Ends (fun e => e = .invalid_own_block ∨ e = .bad_incarnation) (s.add_block_cont chain signature) fun s' => Good chain s' ∧ SameBut s s' := by
  have hsame : Good chain s ∧ SameBut s s := ⟨hs, sameBut_out rfl rfl⟩
  unfold add_block_cont
  split
  · rename_i block payload hsending
    by_cases hinc : block.incarnation = chain.incarnation
    · have hsigned : ({ block with signature } : Block).incarnation = chain.incarnation := hinc
      obtain ⟨⟨status, hvalid⟩, hiff⟩ := validate_block_total s hsigned payload
      dsimp only
      rw [hvalid, ok_bind]
      cases status with
      | error e => exact .error (.inl rfl)
      | ok u =>
        have hbut : SameBut s { s with sending := some (.storing { block with signature } payload) } := sameBut_out rfl rfl
        refine .ok ⟨⟨hbut.inv hs.inv, fun b p hp => ?_⟩, hbut⟩
        cases hp
        obtain ⟨i, hok⟩ := hiff.1 hvalid
        exact ⟨i, hok.mono (.of_eq rfl)⟩
    · have hcheck : s.validate_block chain { block with signature } payload = .error .bad_incarnation := by
        unfold validate_block pre_validate_block
        rw [check_neg (by exact hinc)]
        rfl
      dsimp only
      rw [hcheck]
      exact .error (.inr rfl)
  · exact .ok hsame

theorem Inv.last_sent (hs : Inv chain nothing s) (hknown : (s.blocks hash).isSome = true) : Inv chain nothing { s with last_sent_block := hash } := by
  obtain ⟨hsh, hl, hf, htm, hlog, htb⟩ := hs
  refine ⟨⟨hsh.1, hsh.2, hsh.3, hknown, hsh.5, hsh.6, fun hb hne hst => (hsh.received hb hne hst).congr (s := s) rfl⟩, hl.congr (s := s) rfl rfl,
    ⟨hf.1, hf.2, hf.3, hf.4, hf.5, hf.6, hf.7, hf.8, hf.9, hf.10, hf.11, hf.12⟩, htm.congr (s := s) rfl, hlog.congr (s := s) rfl rfl,
    ⟨htb.1, htb.2, htb.3, htb.4, htb.5, htb.6⟩⟩

/-- The own block arrives, is the last one sent from then on, and is written. -/
theorem create_own_spec (hs : Good chain s) (hsend : CanSend bad s) : Ends bad (s.create_own chain) fun s' => Good chain s' ∧ (s' = s ∨
    ∃ block payload i t, s.sending = some (.storing block payload) ∧ BlockOk chain s block payload i ∧
      Arrives chain block payload (chain.hash_of i block payload) s t ∧ Good chain t ∧
      Good chain { t with last_sent_block := chain.hash_of i block payload } ∧
      (s' = { t with last_sent_block := chain.hash_of i block payload } ∨
        Stored (chain.hash_of i block payload) { t with last_sent_block := chain.hash_of i block payload } s')) := by
  unfold create_own
  split
  · rename_i block payload hsending
    obtain ⟨i, hok⟩ := hs.storing block payload hsending
    refine (create_block_good hs hsend hok).bind ?_
    rintro ⟨t, hash⟩ ⟨hhash, ht, harrives⟩
    dsimp only at hhash ht harrives ⊢
    subst hhash
    obtain ⟨b, hb, hstate⟩ := harrives.self
    have hinv := ht.inv.last_sent (isSome_iff_exists.2 ⟨b, hb⟩)
    have hlast : Good chain { t with last_sent_block := chain.hash_of i block payload } := ⟨hinv, ht.storing.of_outbox (s := t) rfl (.of_eq rfl)⟩
    have hpos := hok.height
    obtain ⟨s', hs', hgood, hcases⟩ := written_good hlast hb hstate (Chain.id_hash_ne_root (by omega))
    exact .of_eq hs' ⟨hgood, .inr ⟨block, payload, i, t, hsending, hok, harrives, ht, hlast, hcases⟩⟩
  · exact .ok ⟨hs, .inl rfl⟩

/-- How the end of sending a block may fail. -/
def CannotFinish (e : Crash) : Prop := e = .not_delivered ∨ CannotAdd e

theorem finish_own_spec (hs : Good chain s) : Ends CannotFinish (s.finish_own chain) fun s' => Good chain s' ∧ SameBut s s' := by
  unfold finish_own
  split
  · rename_i block payload hsending
    unfold deref
    obtain ⟨b, hb⟩ := isSome_iff_exists.1 hs.inv.shape.last_sent
    rw [hb]
    dsimp only
    rw [ok_bind]
    by_cases hdel : b.delivered = true
    case neg =>
      rw [check_neg hdel]
      exact .error (.inl rfl)
    rw [check_pos hdel, ok_bind]
    have hbut : ∀ pending, SameBut s { s with active_send := false, sending := none, pending_blocks := pending } := fun _ => sameBut_out rfl rfl
    have hgood : ∀ pending, Good chain { s with active_send := false, sending := none, pending_blocks := pending } := fun pending =>
      ⟨(hbut pending).inv hs.inv, fun block payload h => (by cases h)⟩
    split
    · exact .ok ⟨hgood _, hbut _⟩
    · rename_i payload deps rest hpending
      refine ((add_block_good (hgood rest) payload deps).mono ?_).weaken fun e he => .inr he
      rintro s' ⟨hs', hsame⟩
      exact ⟨hs', (hbut rest).frame.trans hsame.frame, hsame.sources⟩
  · exact .ok ⟨hs, sameBut_out rfl rfl⟩

theorem start_good (hs : Good chain s) : Good chain { s with started := true } ∧ SameBut s { s with started := true } := by
  have hbut : SameBut s { s with started := true } := ⟨⟨⟨rfl, rfl, rfl, rfl, rfl, fun _ => rfl, fun _ => id⟩, rfl, rfl⟩, rfl⟩
  exact ⟨⟨hbut.inv hs.inv, hs.storing.of_outbox (s := s) rfl (.of_eq rfl)⟩, hbut⟩

theorem Good.create (chain : Chain n Payload) (idx : Fin n) (allow : Bool) : Good chain (create chain idx allow) :=
  ⟨.create chain idx allow, fun _ _ h => (by cases h)⟩

/-- Every step that succeeds keeps the invariant, and none fails on the height in the vector. -/
theorem step_spec (hs : Good chain s) (a : Act Payload) : Ends (· ≠ .fork_height) (s.step chain a) (Good chain) := by
  have hsend : CanSend (· ≠ .fork_height) s := .inr (.inr fun h => (by cases h))
  cases a with
  | create_block block payload => exact (arrive_spec hs hsend block payload).mono fun _ h => h.1
  | written hash =>
    obtain ⟨s', hs', hgood, -⟩ := store_spec hs hash
    exact .of_eq hs' hgood
  | run_next =>
    cases hqueue : s.to_run with
    | nil =>
      refine .of_eq ?_ hs
      rw [step, run_next, hqueue]
    | cons hash rest => exact (run_next_good hs hqueue (.inl fun h => (by cases h))).mono fun _ h => h.1
  | got_fork_proof left right =>
    obtain ⟨s', hs', hgood, -⟩ := got_fork_proof_spec hs left right
    exact .of_eq hs' hgood
  | add_block payload deps =>
    refine ((add_block_good hs payload deps).mono fun _ h => h.1).weaken fun e he => ?_
    rintro rfl
    cases he
  | add_block_cont signature =>
    refine ((add_block_cont_spec hs signature).mono fun _ h => h.1).weaken fun e he => ?_
    rintro rfl
    rcases he with h | h
    · cases h
    · cases h
  | create_own => exact (create_own_spec hs hsend).mono fun _ h => h.1
  | finish_own =>
    refine ((finish_own_spec hs).mono fun _ h => h.1).weaken fun e he => ?_
    rintro rfl
    rcases he with h | h
    · cases h
    · cases h
  | start => exact .ok (start_good hs).1

theorem Reached.good {may : Receiver n Payload → Act Payload → Prop} (h : Reached chain may s) : Good chain s := by
  refine Reach.inv_of_ends (fun _ _ => (· ≠ .fork_height)) ?_ (fun s a hs _ => step_spec hs a) h
  rintro s ⟨idx, allow, rfl⟩
  exact .create chain idx allow

/-! ## What a step comes to -/

/-- What can be seen of a step in the blocks and the sources. -/
inductive Move (chain : Chain n Payload) (may : Receiver n Payload → Act Payload → Prop) (s s' : Receiver n Payload) : Prop
  | same (hblocks : s'.blocks = s.blocks) (hsources : s'.sources = s.sources) (hlog : s'.delivered_log = s.delivered_log)
      (hlocal : s'.local_idx = s.local_idx)
  | arrives (block : Block) (payload : Payload) (i : Fin n) (hok : BlockOk chain s block payload i)
      (h : Arrives chain block payload (chain.hash_of i block payload) s s')
      (hfrom : may s (.create_block block payload) ∨ s.sending = some (.storing block payload))
  | stored (hash : Hash) (h : Stored hash s s')
  | turn (hash : Hash) (rest : List Hash) (hqueue : s.to_run = hash :: rest) (hmay : may s .run_next) (h : Turn chain hash s s')
  | blamed (i : Fin n) (h : BlamedAt i s s') (hproven : Proven chain s i)

variable {may : Receiver n Payload → Act Payload → Prop}

theorem SameBut.move (h : SameBut s s') : Move chain may s s' := .same h.frame.blocks h.sources h.frame.log h.frame.local_idx

theorem step_moves (hs : Good chain s) {a : Act Payload} (hmay : may s a) (h : s.step chain a = .ok s') :
    Relation.ReflTransGen (fun s s' => Good chain s ∧ Good chain s' ∧ Move chain may s s') s s' := by
  have hsend : CanSend (fun _ => True) s := .inr (.inr trivial)
  cases a with
  | create_block block payload =>
    obtain ⟨hgood, rfl | ⟨i, hok, harrives⟩⟩ := (arrive_spec hs hsend block payload).of_ok h
    · exact .refl
    · exact .single ⟨hs, hgood, .arrives block payload i hok harrives (.inl hmay)⟩
  | written hash =>
    obtain ⟨t, ht, hgood, hcases⟩ := store_spec hs hash
    obtain rfl : t = s' := Except.ok.inj (ht.symm.trans h)
    rcases hcases with rfl | hstored
    · exact .refl
    · exact .single ⟨hs, hgood, .stored hash hstored⟩
  | run_next =>
    cases hqueue : s.to_run with
    | nil =>
      rw [step, run_next, hqueue] at h
      cases h
      exact .refl
    | cons hash rest =>
      have hnext : Ends (fun _ => True) (s.run_next chain) _ := run_next_good hs hqueue (.inl trivial)
      obtain ⟨hgood, hturn⟩ := hnext.of_ok h
      exact .single ⟨hs, hgood, .turn hash rest hqueue hmay hturn⟩
  | got_fork_proof left right =>
    obtain ⟨t, ht, hgood, hcases⟩ := got_fork_proof_spec hs left right
    obtain rfl : t = s' := Except.ok.inj (ht.symm.trans h)
    rcases hcases with rfl | ⟨i, hblamed, hproven⟩
    · exact .refl
    · exact .single ⟨hs, hgood, .blamed i hblamed hproven⟩
  | add_block payload deps =>
    obtain ⟨hgood, hsame⟩ := (add_block_good hs payload deps).of_ok h
    exact .single ⟨hs, hgood, hsame.move⟩
  | add_block_cont signature =>
    obtain ⟨hgood, hsame⟩ := (add_block_cont_spec hs signature).of_ok h
    exact .single ⟨hs, hgood, hsame.move⟩
  | create_own =>
    obtain ⟨hgood, rfl | ⟨block, payload, i, t, hsending, hok, harrives, ht, hlast, hcases⟩⟩ := (create_own_spec hs hsend).of_ok h
    · exact .refl
    · have hmoves : Relation.ReflTransGen (fun s s' => Good chain s ∧ Good chain s' ∧ Move chain may s s') s
          { t with last_sent_block := chain.hash_of i block payload } :=
        .tail (.single ⟨hs, ht, .arrives block payload i hok harrives (.inr hsending)⟩) ⟨ht, hlast, .same rfl rfl rfl rfl⟩
      rcases hcases with rfl | hstored
      · exact hmoves
      · exact hmoves.tail ⟨hlast, hgood, .stored _ hstored⟩
  | finish_own =>
    obtain ⟨hgood, hsame⟩ := (finish_own_spec hs).of_ok h
    exact .single ⟨hs, hgood, hsame.move⟩
  | start =>
    cases h
    exact .single ⟨hs, (start_good hs).1, (start_good hs).2.move⟩

theorem Reached.inv_moves {P : Receiver n Payload → Prop} (hcreate : ∀ idx allow, P (create chain idx allow))
    (hmove : ∀ s s', Good chain s → Good chain s' → P s → Move chain may s s' → P s') (h : Reached chain may s) : P s := by
  refine (Reach.inv (I := fun s => Good chain s ∧ P s) ?_ (fun s a s' hs ha hstep => ⟨(step_spec hs.1 a).of_ok hstep, ?_⟩) h).2
  · rintro s ⟨idx, allow, rfl⟩
    exact ⟨.create chain idx allow, hcreate idx allow⟩
  · have hmoves := step_moves hs.1 ha hstep
    clear hstep
    induction hmoves with
    | refl => exact hs.2
    | tail _ hlast ih => exact hmove _ _ hlast.1 hlast.2.1 ih hlast.2.2

end Receiver

/-! ## A chain to run -/

/-- A payload that is a text, or a fork proof. -/
inductive Message where
  | text (k : ℕ)
  | fork (left right : Dep)

namespace Message

def encode_height : ℤ → ℕ
  | .ofNat k => 2 * k
  | .negSucc k => 2 * k + 1

theorem encode_height_inj : Injective encode_height := by
  intro x y h
  cases x with
  | ofNat k =>
    cases y with
    | ofNat k' =>
      simp only [encode_height] at h
      exact congrArg Int.ofNat (by omega)
    | negSucc k' =>
      simp only [encode_height] at h
      omega
  | negSucc k =>
    cases y with
    | ofNat k' =>
      simp only [encode_height] at h
      omega
    | negSucc k' =>
      simp only [encode_height] at h
      exact congrArg Int.negSucc (by omega)

def encode_signature : Signature → ℕ
  | [] => 0
  | x :: xs => Nat.pair x (encode_signature xs) + 1

theorem encode_signature_inj : Injective encode_signature := by
  intro x y h
  induction x generalizing y with
  | nil =>
    cases y with
    | nil => rfl
    | cons y ys =>
      simp only [encode_signature] at h
      omega
  | cons x xs ih =>
    cases y with
    | nil =>
      simp only [encode_signature] at h
      omega
    | cons y ys =>
      simp only [encode_signature, Nat.add_right_cancel_iff, pair_eq_pair] at h
      rw [Fin.ext h.1, ih h.2]

def encode_dep (dep : Dep) : ℕ :=
  Nat.pair (encode_height dep.src) (Nat.pair (encode_height dep.height) (Nat.pair dep.data_hash (encode_signature dep.signature)))

theorem encode_dep_inj : Injective encode_dep := by
  intro x y h
  simp only [encode_dep, pair_eq_pair] at h
  obtain ⟨hsrc, hheight, hhash, hsig⟩ := h
  cases x
  cases y
  congr 1
  · exact encode_height_inj hsrc
  · exact encode_height_inj hheight
  · exact encode_signature_inj hsig

def encode : Message → ℕ
  | .text k => 2 * k
  | .fork left right => 2 * Nat.pair (encode_dep left) (encode_dep right) + 1

theorem encode_inj : Injective encode := by
  intro x y h
  cases x with
  | text k =>
    cases y with
    | text k' =>
      simp only [encode] at h
      exact congrArg text (by omega)
    | fork l r =>
      simp only [encode] at h
      omega
  | fork l r =>
    cases y with
    | text k' =>
      simp only [encode] at h
      omega
    | fork l' r' =>
      simp only [encode] at h
      have hpair : Nat.pair (encode_dep l) (encode_dep r) = Nat.pair (encode_dep l') (encode_dep r') := by omega
      rw [pair_eq_pair] at hpair
      rw [encode_dep_inj hpair.1, encode_dep_inj hpair.2]

end Message

/-- The signature of a source under the block of a height with the hash of its payload. -/
def sign (i height data_hash : ℕ) : Signature := [i, height, data_hash].map fun x => ⟨x % 256, mod_lt x (succ_pos 255)⟩

/-- Hashes that are numberings, and signatures that name what is signed. -/
def Chain.numbered (n max_deps : ℕ) : Chain n Message where
  incarnation := 0
  max_deps
  source_hash i := i + 1
  id_hash id := Nat.pair (Nat.pair id.incarnation id.src) (Nat.pair (Message.encode_height id.height) id.data_hash)
  payload_hash := Message.encode
  size _ := 1
  fetch
    | .text _ => none
    | .fork left right => some (.fork left right)
  serialize_fork := .fork
  check_signature i id signature := signature = sign i id.height.toNat id.data_hash
  source_hash_inj i j h := Fin.ext (by simpa using h)
  id_hash_inj x y h := by
    simp only [pair_eq_pair] at h
    obtain ⟨⟨hinc, hsrc⟩, hheight, hhash⟩ := h
    cases x
    cases y
    congr 1
    exact Message.encode_height_inj hheight
  payload_hash_inj := Message.encode_inj
  fetch_fork _ _ := rfl
  fork_size _ _ := Nat.one_pos
  not_signed_empty _ _ := rfl

end Ton.Catchain
