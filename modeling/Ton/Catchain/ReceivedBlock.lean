import Ton.Catchain.Validate
/-!
# Received blocks and their sources

`catchain-receiver-source.cpp` and `catchain-received-block.cpp`, and of the
receiver the functions these call. A block is created when it is first named,
initialized when it arrives, scheduled when it is written and its parents are
delivered, and then run: it gets its fork, is checked, and is delivered or ill.
-/

namespace Ton.Catchain
open Function

namespace Receiver

variable {n : ℕ} {Payload : Type} (chain : Chain n Payload)

def modify (s : Receiver n Payload) (hash : Hash) (f : ReceivedBlock n Payload → ReceivedBlock n Payload) : Receiver n Payload :=
  { s with blocks := update s.blocks hash ((s.blocks hash).map f) }

def emplace (s : Receiver n Payload) (hash : Hash) (b : ReceivedBlock n Payload) : Receiver n Payload :=
  { s with blocks := update s.blocks hash (some b), keys := s.keys ++ [hash] }

def modify_source (s : Receiver n Payload) (i : Fin n) (f : Source → Source) : Receiver n Payload :=
  { s with sources := update s.sources i (f (s.sources i)) }

def run_block (s : Receiver n Payload) (hash : Hash) : Receiver n Payload := { s with to_run := s.to_run ++ [hash] }

def is_ill (s : Receiver n Payload) (hash : Hash) : Bool := (s.blocks hash).any (·.is_ill)

/-! ## Sources -/

/-- `blame()` -/
def blame (s : Receiver n Payload) (i : Fin n) : Receiver n Payload :=
  if (s.sources i).blamed then s
  else
    let s := s.modify_source i fun S => { S with blamed := true, blocks := fun _ => none, delivered_height := 0 }
    { s with calls := s.calls ++ [.blame i] }

/-- The new table of `blame(fork, height)`, which stays empty when it is empty. -/
def note_blamed (heights : List ℕ) (fork height : ℕ) : List ℕ :=
  if heights.length > 0 then
    let heights := heights ++ List.replicate (fork + 1 - heights.length) 0
    if heights.getD fork 0 = 0 ∨ heights.getD fork 0 > height then heights.set fork height else heights
  else heights

/-- `blame(fork, height)` -/
def blame_at (s : Receiver n Payload) (i : Fin n) (fork height : ℕ) : Receiver n Payload :=
  (s.blame i).modify_source i fun S => { S with blamed_heights := note_blamed S.blamed_heights fork height }

def add_fork (s : Receiver n Payload) (i : Fin n) : Exc (Receiver n Payload × ℕ) := do
  let s := if (s.sources i).fork_ids.length > 0 then s.blame i else s
  let F := s.total_forks + 1
  let s := { s with total_forks := F }
  check .no_fork_id (F > 0)
  let s := s.modify_source i fun S => { S with fork_ids := S.fork_ids ++ [F] }
  check .not_blamed ((s.sources i).fork_ids.length > 1 → (s.sources i).blamed)
  .ok (s, F)

/-- The loop of `block_delivered`, which ends at a height without a delivered block. -/
def delivered_upto (s : Receiver n Payload) (blocks : ℕ → Option Hash) : ℕ → ℕ → ℕ
  | 0, height => height
  | fuel + 1, height =>
    match (blocks (height + 1)).bind s.blocks with
    | none => height
    | some b => if b.delivered then delivered_upto s blocks fuel (height + 1) else height

def block_delivered (s : Receiver n Payload) (i : Fin n) (height : ℕ) : Receiver n Payload :=
  if (s.sources i).blamed then s
  else s.modify_source i fun S =>
    let delivered_height := if S.delivered_height + 1 = height then height else S.delivered_height
    { S with delivered_height := delivered_upto s S.blocks s.keys.length delivered_height }

/-! ## Sending a block -/

/-- The dependencies that `add_block` names. -/
def export_deps (s : Receiver n Payload) : List Hash → Exc (List Dep)
  | [] => .ok []
  | hash :: hashes => do
    let b ← s.deref hash
    check .self_dep (b.source_id ≠ some s.local_idx)
    let deps ← export_deps s hashes
    .ok (b.export_tl_dep :: deps)

/-- Up to the request for a signature. -/
def add_block (s : Receiver n Payload) (payload : Payload) (deps : List Hash) : Exc (Receiver n Payload) :=
  if s.active_send then .ok { s with pending_blocks := s.pending_blocks ++ [(payload, deps)] }
  else do
    check .self_blamed (¬ (s.sources s.local_idx).blamed)
    let prev ← s.deref s.last_sent_block
    let deps ← s.export_deps deps
    let block : Block := ⟨chain.incarnation, (s.local_idx : ℕ), prev.height + 1, ⟨prev.export_tl_dep, deps⟩, []⟩
    .ok { s with active_send := true, sending := some (.signing block payload) }

/-! ## New blocks -/

def on_found_fork_proof (s : Receiver n Payload) (i : Fin n) (left right : Dep) : Receiver n Payload :=
  if (s.sources i).fork_proof.isSome then s else s.modify_source i fun S => { S with fork_proof := some (left, right) }

/-- The block `b` is still under construction. -/
def on_new_block (s : Receiver n Payload) (i : Fin n) (hash : Hash) (b : ReceivedBlock n Payload) : Exc (Receiver n Payload) :=
  if (s.sources i).fork_proof.isSome then .ok s
  else do
    check .wrong_source (b.source_id = some i)
    match (s.sources i).blocks b.height with
    | none => .ok (s.modify_source i fun S => { S with blocks := update S.blocks b.height (some hash) })
    | some other => do
      check .same_hash (hash ≠ other)
      let b' ← s.deref other
      let left := b.export_tl_dep
      let right := b'.export_tl_dep
      let s := s.on_found_fork_proof i left right
      let s ← s.add_block chain (chain.serialize_fork left right) []
      .ok (s.blame i)

/-- `create_block` for a dependency. -/
def create_block_dep (s : Receiver n Payload) (dep : Dep) : Exc (Receiver n Payload × Hash) :=
  if dep.height = 0 then .ok (s, chain.root_hash)
  else do
    let hash ← chain.block_hash_dep dep
    if (s.blocks hash).isSome then .ok (s, hash)
    else do
      let i ← source_of (get_source n dep.src)
      let b := .blank (some i) dep.height.toNat dep.data_hash dep.signature
      let s ← s.on_new_block chain i hash b
      .ok (s.emplace hash b, hash)

def create_blocks_dep (s : Receiver n Payload) : List Dep → Exc (Receiver n Payload × List Hash)
  | [] => .ok (s, [])
  | dep :: deps => do
    let (s, hash) ← s.create_block_dep chain dep
    let (s, hashes) ← create_blocks_dep s deps
    .ok (s, hash :: hashes)

/-- The recursion is at most as deep as there are blocks that are not ill. -/
def set_ill : ℕ → Receiver n Payload → Hash → Exc (Receiver n Payload)
  | 0, _, _ => .error .too_deep
  | fuel + 1, s, hash => do
    let b ← s.deref hash
    if b.is_ill then .ok s
    else do
      let i ← source_of b.source_id
      let s := (s.blame i).modify hash fun b => { b with state := .ill }
      b.rev_deps.foldlM (set_ill fuel) s

/-- The two vectors are merged, entry by entry. -/
def update_deps : List ℕ → List ℕ → List ℕ
  | deps, [] => deps
  | [], d => d
  | x :: deps, y :: d => (if x < y then y else x) :: update_deps deps d

/-- One of `prev_` and `block_deps_`. -/
def link (hash : Hash) (s : Receiver n Payload) (parent : Hash) : Exc (Receiver n Payload) := do
  let b ← s.deref parent
  if b.delivered then .ok (s.modify hash fun c => { c with deps := update_deps c.deps b.deps })
  else .ok ((s.modify parent fun b => { b with rev_deps := b.rev_deps ++ [hash] }).modify hash
    fun c => { c with pending_deps := c.pending_deps + 1 })

def schedule_if_ready (s : Receiver n Payload) (hash : Hash) : Exc (Receiver n Payload) := do
  let b ← s.deref hash
  .ok (if b.pending_deps = 0 ∧ b.in_db then s.run_block hash else s)

def initialize_block (s : Receiver n Payload) (hash : Hash) (block : Block) (payload : Payload) : Exc (Receiver n Payload) := do
  let b ← s.deref hash
  if b.state ≠ .none then .ok s
  else do
    check .empty_payload (chain.size payload > 0)
    let (s, prev) ← s.create_block_dep chain block.data.prev
    let (s, deps) ← s.create_blocks_dep chain block.data.deps
    let s := s.modify hash fun b => { b with
      payload := some payload, prev := some prev, block_deps := deps, signature := block.signature, state := .initialized }
    if (prev :: deps).any s.is_ill then set_ill (s.keys.length + 1) s hash
    else do
      let s ← (prev :: deps).foldlM (link hash) s
      s.schedule_if_ready hash

/-- `create_block` for a block. The code inserts a new block after it is initialized, which
looks up blocks of other heights and sources only. -/
def create_block (s : Receiver n Payload) (block : Block) (payload : Payload) : Exc (Receiver n Payload × Hash) :=
  if block.height = 0 then .ok (s, chain.root_hash)
  else do
    let hash ← chain.block_hash block payload
    match s.blocks hash with
    | some b =>
      if b.initialized then .ok (s, hash)
      else do
        let s ← s.initialize_block chain hash block payload
        .ok (s, hash)
    | none => do
      let i ← source_of (get_source n block.src)
      -- the signature is set by `initialize_block`
      let b := .blank (some i) block.height.toNat (chain.payload_hash payload) []
      let s ← s.on_new_block chain i hash b
      let s ← (s.emplace hash b).initialize_block chain hash block payload
      .ok (s, hash)

def written (s : Receiver n Payload) (hash : Hash) : Exc (Receiver n Payload) := do
  let b ← s.deref hash
  if b.in_db then .ok s
  else
    let s := s.modify hash fun b => { b with in_db := true }
    .ok (if b.pending_deps = 0 then s.run_block hash else s)

/-! ## Running a block -/

def set_fork (fork_id height : ℕ) (deps : List ℕ) : List ℕ :=
  (deps ++ List.replicate (fork_id + 1 - deps.length) 0).set fork_id height

/-- The fork of a block: that of its previous block, if it is the first one after it. -/
def choose_fork (s : Receiver n Payload) (hash : Hash) (b : ReceivedBlock n Payload) : Exc (Receiver n Payload × ℕ) := do
  let i ← source_of b.source_id
  if b.height = 1 then s.add_fork i
  else
    match b.prev with
    | none => .error .null_pointer
    | some prev => do
      let p ← s.deref prev
      if p.next.isNone then .ok (s.modify prev fun p => { p with next := some hash }, p.fork_id)
      else s.add_fork i

def initialize_fork (s : Receiver n Payload) (hash : Hash) : Exc (Receiver n Payload) := do
  let b ← s.deref hash
  check .not_initialized (b.state = .initialized)
  check .has_fork (b.fork_id = 0)
  let (s, fork_id) ← s.choose_fork hash b
  check .fork_height (b.deps.getD fork_id 0 < b.height)
  .ok (s.modify hash fun b => { b with fork_id, deps := set_fork fork_id b.height b.deps })

/-- What is wrong with a direct dependency. -/
inductive Verdict where
  | fine
  | newer
  | known_fork
  deriving DecidableEq

/-- The rules for one dependency of a block, where `d` are the heights of the previous block. -/
def check_dep (s : Receiver n Payload) (d : List ℕ) (x : Hash) : Exc Verdict := do
  let X ← s.deref x
  let i ← source_of X.source_id
  let S := s.sources i
  if X.fork_id < d.length ∧ X.height ≤ d.getD X.fork_id 0 then .ok .newer
  else if S.blamed ∧ (S.fork_ids.any fun f => f ≠ X.fork_id ∧ f < d.length ∧ d.getD f 0 > 0) then .ok .known_fork
  else if S.blamed ∧ ((S.blamed_heights.zip d).any fun v => v.1 > 0 ∧ v.2 ≥ v.1) then .ok .known_fork
  else .ok .fine

/-- The first dependency with something wrong decides. -/
def check_deps (s : Receiver n Payload) (d : List ℕ) : List Hash → Exc Verdict
  | [] => .ok .fine
  | x :: xs => do
    match ← s.check_dep d x with
    | .fine => check_deps s d xs
    | v => .ok v

/-- Whether two dependencies prove that their source made a fork. -/
def fork_proof_ok (s : Receiver n Payload) (left right : Dep) : Exc Bool := do
  match ← s.validate_block_dep chain left with
  | .error _ => .ok false
  | .ok () =>
    match ← s.validate_block_dep chain right with
    | .error _ => .ok false
    | .ok () => .ok (left.height = right.height ∧ left.src = right.src ∧ left.data_hash ≠ right.data_hash)

/-- `pre_deliver` for the inner data of the payload. -/
def pre_deliver_data (s : Receiver n Payload) (hash : Hash) (data : Option InnerData) : Exc (Receiver n Payload) := do
  match data with
  | none => .ok (s.modify hash fun b => { b with is_custom := true })
  | some .badBlock => .ok s
  | some .nop => .ok s
  | some .vector => .ok (s.modify hash fun b => { b with is_custom := true })
  | some (.fork left right) =>
    if ← s.fork_proof_ok chain left right then do
      let b ← s.deref hash
      let i ← source_of (get_source n left.src)
      .ok ((s.on_found_fork_proof i left right).blame_at i b.fork_id b.height)
    else set_ill (s.keys.length + 1) s hash

def pre_deliver (s : Receiver n Payload) (hash : Hash) : Exc (Receiver n Payload) := do
  let b ← s.deref hash
  check .not_initialized (b.state = .initialized)
  check .pending (b.pending_deps = 0)
  check .not_in_db b.in_db
  let i ← source_of b.source_id
  let d := ((b.prev.bind s.blocks).map (·.deps)).getD []
  match ← s.check_deps d b.block_deps with
  | .newer => set_ill (s.keys.length + 1) s hash
  | .known_fork => set_ill (s.keys.length + 1) (s.blame_at i b.fork_id b.height) hash
  | .fine => s.pre_deliver_data chain hash (b.payload.bind chain.fetch)

/-- A parent of the block was delivered, with the heights `d`. -/
def dep_delivered (d : List ℕ) (s : Receiver n Payload) (hash : Hash) : Exc (Receiver n Payload) := do
  let b ← s.deref hash
  if b.is_ill then .ok s
  else
    (s.modify hash fun b => { b with deps := update_deps b.deps d, pending_deps := b.pending_deps - 1 }).schedule_if_ready hash

def deliver (s : Receiver n Payload) (hash : Hash) : Exc (Receiver n Payload) := do
  let b ← s.deref hash
  if b.is_ill then .ok s
  else do
    check .not_initialized (b.state = .initialized)
    check .pending (b.pending_deps = 0)
    check .not_in_db b.in_db
    -- `export_tl`
    check .root_exported (b.height > 0)
    let s := { s with calls := s.calls ++ [Call.new_block hash] }
    let s := s.modify hash fun b => { b with state := .delivered }
    let s ← b.rev_deps.foldlM (dep_delivered b.deps) s
    let s := s.modify hash fun b => { b with rev_deps := [] }
    let i ← source_of b.source_id
    .ok (s.block_delivered i b.height)

def run (s : Receiver n Payload) (hash : Hash) : Exc (Receiver n Payload) := do
  let b ← s.deref hash
  match b.state with
  | .ill => .ok s
  | .none => .ok s
  | .delivered => .ok s
  | .initialized => do
    check .pending (b.pending_deps = 0)
    check .not_in_db b.in_db
    let s ← s.initialize_fork hash
    let s ← s.pre_deliver chain hash
    s.deliver hash

end Receiver

end Ton.Catchain
