import Ton.Catchain.Receiver
import Ton.Lib.Ends
import Ton.Lib.VectorTime
/-!
# What holds of a receiver between two steps

The invariant comes in parts, each about a few of the fields: what a block is
(`Shape`), who waits for whom (`Links`), the forks, the vector times, the blocks
handed out so far (`Log`) and the tables of the sources. A block that is being run
is excepted from what holds of initialized blocks.
-/

namespace Ton.Catchain
open Result Option

variable {n : ℕ} {Payload : Type}

/-- `prev_` and `block_deps_` -/
def ReceivedBlock.parents (b : ReceivedBlock n Payload) : List Hash := b.prev.toList ++ b.block_deps

def Call.delivered_hash : Call → Option Hash
  | .blame _ => none
  | .new_block hash => some hash

namespace Receiver

def is_delivered (s : Receiver n Payload) (hash : Hash) : Bool := (s.blocks hash).any (·.delivered)

/-- An entry of a block's vector. -/
def time (s : Receiver n Payload) (hash : Hash) (fork : ℕ) : ℕ := ((s.blocks hash).elim [] (·.deps)).getD fork 0

/-- The blocks as events on the lines of their forks. -/
def history (s : Receiver n Payload) : History Hash ℕ where
  parent p h := ∃ b, s.blocks h = some b ∧ p ∈ b.parents
  line h := (s.blocks h).elim 0 (·.fork_id)
  height h := (s.blocks h).elim 0 (·.height)

/-- The blocks that were delivered, in this order. -/
def delivered_log (s : Receiver n Payload) : List Hash := s.calls.filterMap Call.delivered_hash

/-- Two blocks of the source at one height are known. -/
abbrev Twice (s : Receiver n Payload) (i : Fin n) : Prop :=
  ∃ h b h' b', s.blocks h = some b ∧ s.blocks h' = some b' ∧ h ≠ h' ∧ b.source_id = some i ∧ b'.source_id = some i ∧ b.height = b'.height

/-- A block of the source is ill. -/
abbrev Sick (s : Receiver n Payload) (i : Fin n) : Prop := ∃ h b, s.blocks h = some b ∧ b.state = .ill ∧ b.source_id = some i

/-- The blocks, changed one by one. -/
def mapBlocks (s : Receiver n Payload) (g : Hash → ReceivedBlock n Payload → ReceivedBlock n Payload) : Receiver n Payload :=
  { s with blocks := fun h => (s.blocks h).map (g h) }

/-! ## The invariant -/

/-- What a block that arrived has. -/
structure Received (chain : Chain n Payload) (s : Receiver n Payload) (b : ReceivedBlock n Payload) : Prop where
  payload : ∃ payload, b.payload = some payload ∧ 0 < chain.size payload ∧ chain.payload_hash payload = b.data_hash
  prev : ∃ p P, b.prev = some p ∧ s.blocks p = some P ∧ P.height + 1 = b.height ∧ (p = chain.root_hash ∨ P.source_id = b.source_id)
  deps : ∀ d ∈ b.block_deps, ∃ D, s.blocks d = some D ∧ D.source_id ≠ b.source_id
  nodup : b.block_deps.Nodup

structure Blank (b : ReceivedBlock n Payload) : Prop where
  payload : b.payload = none
  prev : b.prev = none
  block_deps : b.block_deps = []
  deps : b.deps = []
  pending_deps : b.pending_deps = 0
  fork_id : b.fork_id = 0
  next : b.next = none
  in_db : b.in_db = false

structure Shape (chain : Chain n Payload) (s : Receiver n Payload) : Prop where
  keys_nodup : s.keys.Nodup
  mem_keys : ∀ h, h ∈ s.keys ↔ (s.blocks h).isSome
  root : s.blocks chain.root_hash = some chain.root_block
  last_sent : (s.blocks s.last_sent_block).isSome = true
  ident : ∀ {h b}, s.blocks h = some b → h ≠ chain.root_hash →
    ∃ i, b.source_id = some i ∧ 0 < b.height ∧ h = chain.id_hash (chain.idOf i b.height b.data_hash)
  blank : ∀ {h b}, s.blocks h = some b → b.state = .none → Blank b
  received : ∀ {h b}, s.blocks h = some b → h ≠ chain.root_hash → b.state ≠ .none → Received chain s b

/-- The counters of parents that are not delivered yet, the links back, and the queue. -/
structure Links (chain : Chain n Payload) (ex : Hash → Prop) (s : Receiver n Payload) : Prop where
  rev_known : ∀ {p P c}, s.blocks p = some P → c ∈ P.rev_deps → ∃ C, s.blocks c = some C ∧ (C.state = .initialized ∨ C.state = .ill)
  rev_iff : ∀ {p P c C}, s.blocks p = some P → P.state ≠ .delivered → s.blocks c = some C → C.state = .initialized → ¬ ex c →
    (c ∈ P.rev_deps ↔ p ∈ C.parents)
  rev_nodup : ∀ {p P}, s.blocks p = some P → P.rev_deps.Nodup
  pending : ∀ {c C}, s.blocks c = some C → C.state = .initialized → ¬ ex c →
    C.pending_deps = (C.parents.filter fun p => !s.is_delivered p).length
  queue_nodup : s.to_run.Nodup
  queue_known : ∀ {h}, h ∈ s.to_run → ∃ b, s.blocks h = some b ∧ b.state ≠ .none ∧ b.in_db = true
  queue_iff : ∀ {c C}, s.blocks c = some C → C.state = .initialized → ¬ ex c → (c ∈ s.to_run ↔ C.pending_deps = 0 ∧ C.in_db = true)
  delivered : ∀ {c C}, s.blocks c = some C → C.state = .delivered → c ≠ chain.root_hash →
    C.in_db = true ∧ C.pending_deps = 0 ∧ ∀ p ∈ C.parents, s.is_delivered p = true
  waits : ∀ {p P c C}, s.blocks p = some P → c ∈ P.rev_deps → s.blocks c = some C → C.state = .initialized → P.state ≠ .delivered ∧ p ∈ C.parents

/-- The blocks of a fork follow each other, and the forks belong to the sources. -/
structure Forks (chain : Chain n Payload) (ex : Hash → Prop) (s : Receiver n Payload) : Prop where
  le : ∀ {h b}, s.blocks h = some b → b.fork_id ≤ s.total_forks
  initialized : ∀ {h b}, s.blocks h = some b → b.state = .initialized → ¬ ex h → b.fork_id = 0
  delivered : ∀ {h b}, s.blocks h = some b → b.state = .delivered → h ≠ chain.root_hash → 0 < b.fork_id
  inj : ∀ {h b h' b'}, s.blocks h = some b → s.blocks h' = some b' → 0 < b.fork_id → b.fork_id = b'.fork_id → b.height = b'.height → h = h'
  top : ∀ {h b h' b'}, s.blocks h = some b → s.blocks h' = some b' → 0 < b.fork_id → b.fork_id = b'.fork_id → b.height < b'.height →
    b.next.isSome = true
  step : ∀ {h b h' b'}, s.blocks h = some b → s.blocks h' = some b' → 0 < b.fork_id → b.fork_id = b'.fork_id → b.height < b'.height →
    ∃ p P, b'.prev = some p ∧ s.blocks p = some P ∧ P.fork_id = b.fork_id
  next : ∀ {p P c}, s.blocks p = some P → P.next = some c →
    ∃ C, s.blocks c = some C ∧ C.height = P.height + 1 ∧ C.source_id = P.source_id ∧ 0 < C.fork_id
  first : ∀ {i}, (s.sources i).fork_ids ≠ [] → ∃ h b, s.blocks h = some b ∧ b.source_id = some i ∧ b.height = 1 ∧ 0 < b.fork_id
  ids : ∀ {h b i}, s.blocks h = some b → 0 < b.fork_id → b.source_id = some i → b.fork_id ∈ (s.sources i).fork_ids
  ids_le : ∀ {i f}, f ∈ (s.sources i).fork_ids → 0 < f ∧ f ≤ s.total_forks
  ids_source : ∀ {i h b}, s.blocks h = some b → b.fork_id ∈ (s.sources i).fork_ids → b.source_id = some i
  ids_blamed : ∀ {i}, 1 < (s.sources i).fork_ids.length → (s.sources i).blamed = true

/-- The vectors: that of a delivered block is its time, that of an initialized one is joined from the parents delivered so far. -/
structure Times (ex : Hash → Prop) (s : Receiver n Payload) : Prop where
  delivered : ∀ {h b}, s.blocks h = some b → b.state = .delivered → ∀ f, s.history.TimeAt h f (b.deps.getD f 0)
  initialized : ∀ {h b}, s.blocks h = some b → b.state = .initialized → ¬ ex h → ∀ f x,
    b.deps.getD f 0 ≤ x ↔ ∀ p ∈ b.parents, s.is_delivered p = true → s.time p f ≤ x

/-- What was handed out: every delivered block once, after its parents. -/
structure Log (chain : Chain n Payload) (s : Receiver n Payload) : Prop where
  nodup : s.delivered_log.Nodup
  mem : ∀ h, h ∈ s.delivered_log ↔ s.is_delivered h = true ∧ h ≠ chain.root_hash
  order : ∀ {l h l'}, s.delivered_log = l ++ h :: l' → ∀ {b}, s.blocks h = some b → ∀ p ∈ b.parents, p = chain.root_hash ∨ p ∈ l

/-- The tables of the sources. That of a source that is not blamed has all its blocks. -/
structure Tables (s : Receiver n Payload) : Prop where
  found : ∀ {i k h}, (s.sources i).blocks k = some h → ∃ b, s.blocks h = some b ∧ b.source_id = some i ∧ b.height = k
  complete : ∀ {h b i}, s.blocks h = some b → b.source_id = some i → (s.sources i).blamed = false → (s.sources i).blocks b.height = some h
  delivered : ∀ {i k}, 0 < k → k ≤ (s.sources i).delivered_height → ∃ h, (s.sources i).blocks k = some h ∧ s.is_delivered h = true
  ill : ∀ {h b i}, s.blocks h = some b → b.state = .ill → b.source_id = some i → (s.sources i).blamed = true
  fork_proof : ∀ {i}, (s.sources i).fork_proof.isSome = true → (s.sources i).blamed = true
  blamed_heights : ∀ i, (s.sources i).blamed_heights = []

structure Inv (chain : Chain n Payload) (ex : Hash → Prop) (s : Receiver n Payload) : Prop where
  shape : Shape chain s
  links : Links chain ex s
  forks : Forks chain ex s
  times : Times ex s
  log : Log chain s
  tables : Tables s

/-- Nothing is excepted. -/
def nothing : Hash → Prop := fun _ => False

variable {chain : Chain n Payload} {ex : Hash → Prop} {s s' : Receiver n Payload} {h hash : Hash} {b : ReceivedBlock n Payload}

theorem is_delivered_iff : s.is_delivered h = true ↔ ∃ b, s.blocks h = some b ∧ b.state = .delivered := by
  rw [is_delivered, any_eq_true]
  refine exists_congr fun b => and_congr mem_def ?_
  rw [ReceivedBlock.delivered, decide_eq_true_iff]

theorem is_delivered_of (hb : s.blocks h = some b) : s.is_delivered h = decide (b.state = .delivered) := by
  rw [is_delivered, hb]
  rfl

theorem is_ill_iff : s.is_ill h = true ↔ ∃ b, s.blocks h = some b ∧ b.state = .ill := by
  rw [is_ill, any_eq_true]
  refine exists_congr fun b => and_congr mem_def ?_
  rw [ReceivedBlock.is_ill, decide_eq_true_iff]

theorem deref_eq (hb : s.blocks h = some b) : s.deref h = .ok b := by
  rw [deref, hb]

theorem time_of (hb : s.blocks h = some b) (f : ℕ) : s.time h f = b.deps.getD f 0 := by
  rw [time, hb]
  rfl

@[simp] theorem mapBlocks_blocks (s : Receiver n Payload) (g : Hash → ReceivedBlock n Payload → ReceivedBlock n Payload) (h : Hash) :
    (s.mapBlocks g).blocks h = (s.blocks h).map (g h) := rfl

theorem mapBlocks_some {g : Hash → ReceivedBlock n Payload → ReceivedBlock n Payload} {b' : ReceivedBlock n Payload} :
    (s.mapBlocks g).blocks h = some b' ↔ ∃ b, s.blocks h = some b ∧ g h b = b' := by
  rw [mapBlocks_blocks, map_eq_some_iff]

theorem modify_eq (s : Receiver n Payload) (hash : Hash) (f : ReceivedBlock n Payload → ReceivedBlock n Payload) :
    s.modify hash f = s.mapBlocks fun h b => if h = hash then f b else b := by
  rw [modify, mapBlocks]
  congr 1
  funext h
  rcases eq_or_ne h hash with rfl | hne
  · rw [Function.update_self]
    simp
  · rw [Function.update_of_ne hne]
    simp [hne]

section
variable (s : Receiver n Payload) {f : ReceivedBlock n Payload → ReceivedBlock n Payload}

theorem modify_self (hb : s.blocks hash = some b) :
    (s.modify hash f).blocks hash = some (f b) := by
  rw [modify_eq, mapBlocks_blocks, hb, map_some, if_pos rfl]

theorem modify_of_ne (hne : h ≠ hash) :
    (s.modify hash f).blocks h = s.blocks h := Function.update_of_ne hne ..

end

/-! ## Blocks that stay as they are -/

/-- What stays where blocks are created, linked or fall ill; a source may be blamed. -/
structure Steady (s s' : Receiver n Payload) : Prop where
  to_run : s'.to_run = s.to_run
  total_forks : s'.total_forks = s.total_forks
  log : s'.delivered_log = s.delivered_log
  local_idx : s'.local_idx = s.local_idx
  last_sent_block : s'.last_sent_block = s.last_sent_block
  fork_ids : ∀ i, (s'.sources i).fork_ids = (s.sources i).fork_ids
  blamed : ∀ i, (s.sources i).blamed = true → (s'.sources i).blamed = true

theorem Steady.refl (s : Receiver n Payload) : Steady s s := ⟨rfl, rfl, rfl, rfl, rfl, fun _ => rfl, fun _ => id⟩

theorem Steady.trans {s'' : Receiver n Payload} (h : Steady s s') (h' : Steady s' s'') : Steady s s'' where
  to_run := h'.to_run.trans h.to_run
  total_forks := h'.total_forks.trans h.total_forks
  log := h'.log.trans h.log
  local_idx := h'.local_idx.trans h.local_idx
  last_sent_block := h'.last_sent_block.trans h.last_sent_block
  fork_ids i := (h'.fork_ids i).trans (h.fork_ids i)
  blamed i hi := h'.blamed i (h.blamed i hi)

theorem Steady.modify (s : Receiver n Payload) (hash : Hash) (f : ReceivedBlock n Payload → ReceivedBlock n Payload) : Steady s (s.modify hash f) :=
  ⟨rfl, rfl, rfl, rfl, rfl, fun _ => rfl, fun _ => id⟩

/-- Only the sources, what is sent, and what was told of blames may differ. -/
structure Frame (s s' : Receiver n Payload) : Prop extends Steady s s' where
  blocks : s'.blocks = s.blocks
  keys : s'.keys = s.keys

namespace Frame

theorem refl (s : Receiver n Payload) : Frame s s := ⟨.refl s, rfl, rfl⟩

theorem trans {s'' : Receiver n Payload} (h : Frame s s') (h' : Frame s' s'') : Frame s s'' :=
  ⟨h.toSteady.trans h'.toSteady, h'.blocks.trans h.blocks, h'.keys.trans h.keys⟩

theorem is_delivered (h : Frame s s') (hash : Hash) : s'.is_delivered hash = s.is_delivered hash := by
  rw [Receiver.is_delivered, h.blocks, Receiver.is_delivered]

end Frame

section
variable (hblocks : s'.blocks = s.blocks)
include hblocks

theorem Received.congr (hr : Received chain s b) : Received chain s' b where
  payload := hr.payload
  prev := by rw [hblocks]; exact hr.prev
  deps := by rw [hblocks]; exact hr.deps
  nodup := hr.nodup

theorem Shape.congr (hkeys : s'.keys = s.keys) (hlast : s'.last_sent_block = s.last_sent_block)
    (hs : Shape chain s) : Shape chain s' where
  keys_nodup := by rw [hkeys]; exact hs.keys_nodup
  mem_keys := by rw [hkeys, hblocks]; exact hs.mem_keys
  root := by rw [hblocks]; exact hs.root
  last_sent := by rw [hblocks, hlast]; exact hs.last_sent
  ident := by rw [hblocks]; exact hs.ident
  blank := by rw [hblocks]; exact hs.blank
  received hb hroot hstate := (hs.received (hblocks ▸ hb) hroot hstate).congr hblocks

theorem is_delivered_congr (hash : Hash) : s'.is_delivered hash = s.is_delivered hash := by
  rw [is_delivered, hblocks, is_delivered]

theorem Links.congr (hqueue : s'.to_run = s.to_run) (hs : Links chain ex s) : Links chain ex s' where
  rev_known := by rw [hblocks]; exact hs.rev_known
  rev_iff := by rw [hblocks]; exact hs.rev_iff
  rev_nodup := by rw [hblocks]; exact hs.rev_nodup
  pending := by simp only [hblocks, is_delivered_congr hblocks]; exact hs.pending
  queue_nodup := by rw [hqueue]; exact hs.queue_nodup
  queue_known := by rw [hqueue, hblocks]; exact hs.queue_known
  queue_iff := by rw [hqueue, hblocks]; exact hs.queue_iff
  delivered := by simp only [hblocks, is_delivered_congr hblocks]; exact hs.delivered
  waits := by rw [hblocks]; exact hs.waits

theorem Times.congr (hs : Times ex s) : Times ex s' where
  delivered := by
    simp only [history, hblocks]
    exact hs.delivered
  initialized := by
    simp only [hblocks, is_delivered_congr hblocks, time]
    exact hs.initialized

theorem Log.congr (hlog : s'.delivered_log = s.delivered_log) (hs : Log chain s) : Log chain s' where
  nodup := by rw [hlog]; exact hs.nodup
  mem := by simp only [hlog, is_delivered_congr hblocks]; exact hs.mem
  order := by rw [hlog, hblocks]; exact hs.order

end

section
variable (hf : Frame s s')
include hf

theorem Shape.frame (hs : Shape chain s) : Shape chain s' := hs.congr hf.blocks hf.keys hf.last_sent_block

theorem Links.frame (hs : Links chain ex s) : Links chain ex s' := hs.congr hf.blocks hf.to_run

theorem Forks.frame (hs : Forks chain ex s) : Forks chain ex s' where
  le := by rw [hf.blocks, hf.total_forks]; exact hs.le
  initialized := by rw [hf.blocks]; exact hs.initialized
  delivered := by rw [hf.blocks]; exact hs.delivered
  inj := by rw [hf.blocks]; exact hs.inj
  top := by rw [hf.blocks]; exact hs.top
  step := by rw [hf.blocks]; exact hs.step
  next := by rw [hf.blocks]; exact hs.next
  first := by simp only [hf.blocks, hf.fork_ids]; exact hs.first
  ids := by simp only [hf.blocks, hf.fork_ids]; exact hs.ids
  ids_le := by simp only [hf.fork_ids, hf.total_forks]; exact hs.ids_le
  ids_source := by simp only [hf.blocks, hf.fork_ids]; exact hs.ids_source
  ids_blamed hi := hf.blamed _ (hs.ids_blamed (hf.fork_ids _ ▸ hi))

theorem Times.frame (hs : Times ex s) : Times ex s' := hs.congr hf.blocks

theorem Log.frame (hs : Log chain s) : Log chain s' := hs.congr hf.blocks hf.log

/-- Of the parts of the invariant only the tables of the sources can be broken. -/
theorem Inv.frame (hs : Inv chain ex s) (ht : Tables s') : Inv chain ex s' where
  shape := hs.shape.frame hf
  links := hs.links.frame hf
  forks := hs.forks.frame hf
  times := hs.times.frame hf
  log := hs.log.frame hf
  tables := ht

end

end Receiver

end Ton.Catchain
