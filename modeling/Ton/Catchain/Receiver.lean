import Ton.Catchain.ReceivedBlock
/-!
# What a receiver answers and sends

`catchain-receiver.cpp`: the messages of other nodes (`receive_block`,
`process_query`, `got_fork_proof`), the scheduler, and the way of an own block
from `add_block` over the signature and the database to `add_block_cont_3`.
-/

namespace Ton.Catchain

namespace Receiver

variable {n : ℕ} {Payload : Type} (chain : Chain n Payload)

/-- One turn of the scheduler's loop. -/
def run_next (s : Receiver n Payload) : Exc (Receiver n Payload) :=
  match s.to_run with
  | [] => .ok s
  | hash :: rest => run chain { s with to_run := rest } hash

def run_all : ℕ → Receiver n Payload → Exc (Receiver n Payload)
  | 0, s => if s.to_run = [] then .ok s else .error .too_deep
  | fuel + 1, s =>
    if s.to_run = [] then .ok s
    else do
      let s ← s.run_next chain
      run_all fuel s

/-- Every turn takes a block from the queue, and each block can be put there once more. -/
def run_scheduler (s : Receiver n Payload) : Exc (Receiver n Payload) := run_all chain (s.to_run.length + s.keys.length) s

def block_written_to_db (s : Receiver n Payload) (hash : Hash) : Exc (Receiver n Payload) := do
  let s ← s.written hash
  s.run_scheduler chain

/-! ## Messages -/

def receive_block (s : Receiver n Payload) (block : Block) (payload : Payload) : Exc (Receiver n Payload) := do
  let id ← chain.block_hash block payload
  if (s.get_block id).any (·.initialized) then .ok s
  else if block.incarnation ≠ chain.incarnation then .ok s
  else
    match ← s.validate_block chain block payload with
    | .error _ => .ok s
    | .ok () =>
      if block.src = (s.local_idx : ℕ) ∧ (!s.allow_unsafe_self_blocks_resync ∨ s.started) then .error .unknown_self_block
      else do
        let (s, _) ← s.create_block chain block payload
        s.block_written_to_db chain id

/-- What is sent of a block, with its payload. -/
def export_tl (s : Receiver n Payload) (b : ReceivedBlock n Payload) : Exc (Block × Option Payload) := do
  check .not_initialized b.initialized
  check .root_exported (b.height > 0)
  match b.prev.bind s.blocks with
  | none => .error .null_pointer
  | some prev => do
    let deps ← b.block_deps.mapM s.deref
    .ok (⟨chain.incarnation, b.src, b.height, ⟨prev.export_tl_dep, deps.map (·.export_tl_dep)⟩, b.signature⟩, b.payload)

/-- The same with `CHECK(get_payload().size() > 0)`. -/
def block_update (s : Receiver n Payload) (b : ReceivedBlock n Payload) : Exc (Block × Option Payload) := do
  let update ← s.export_tl chain b
  check .empty_payload (b.payload.any fun payload => chain.size payload > 0)
  .ok update

/-- An answer, with the blocks that are sent besides it. -/
inductive Answer (Payload : Type) where
  | blockNotFound
  | blockResult (block : Block × Option Payload)
  | sent (blocks : List (Block × Option Payload))
  | difference (sent_upto : List ℤ) (blocks : List (Block × Option Payload))
  | differenceFork (left right : Dep)
  | error

inductive Query where
  | getBlock (block : Hash)
  | getBlocks (blocks : List Hash)
  | getBlockHistory (block : Hash) (height : ℤ) (stop_if : List Hash)
  | getDifference (rt : List ℤ)

def getBlock (s : Receiver n Payload) (block : Hash) : Exc (Answer Payload) :=
  match s.blocks block with
  | none => .ok .blockNotFound
  | some b =>
    if b.height = 0 ∨ !b.initialized then .ok .blockNotFound
    else do
      let update ← s.export_tl chain b
      .ok (.blockResult update)

def send_blocks (s : Receiver n Payload) : List Hash → Exc (List (Block × Option Payload))
  | [] => .ok []
  | hash :: hashes =>
    match s.blocks hash with
    | none => send_blocks s hashes
    | some b =>
      if b.height > 0 then do
        let update ← s.block_update chain b
        let rest ← send_blocks s hashes
        .ok (update :: rest)
      else send_blocks s hashes

def getBlocks (s : Receiver n Payload) (blocks : List Hash) : Exc (Answer Payload) :=
  if blocks.length > 100 then .ok .error
  else do
    let sent ← s.send_blocks chain blocks
    .ok (.sent sent)

/-- `h` blocks back from a block. -/
def send_history (s : Receiver n Payload) (stop_if : List Hash) : ℕ → Option Hash → Exc (List (Block × Option Payload))
  | 0, _ => .ok []
  | h + 1, hash =>
    match hash with
    | none => .error .null_pointer
    | some hash =>
      if hash ∈ stop_if then .ok []
      else do
        let b ← s.deref hash
        let update ← s.block_update chain b
        let rest ← send_history s stop_if h b.prev
        .ok (update :: rest)

def getBlockHistory (s : Receiver n Payload) (block : Hash) (height : ℤ) (stop_if : List Hash) : Exc (Answer Payload) :=
  if height ≤ 0 then .ok .error
  else
    match s.blocks block with
    | none => .ok (.sent [])
    | some b => do
      let sent ← s.send_history chain stop_if (min (min height 100).toNat b.height) (some block)
      .ok (.sent sent)

/-- How many blocks are sent when at most `x` are sent of each source. -/
def difference_sum (vt my_vt : List ℤ) (x : ℤ) : ℤ :=
  ((vt.zip my_vt).map fun v => if v.1 ≥ 0 ∧ v.2 > v.1 then min (v.2 - v.1) x else 0).sum

/-- The search for the number of blocks that are sent of each source, which halves `r - l`. -/
def difference_limit (vt my_vt : List ℤ) : ℕ → ℤ → ℤ → ℤ
  | 0, _, r => r
  | fuel + 1, l, r =>
    if r - l > 1 then
      let x := (r + l) / 2
      if difference_sum vt my_vt x > 100 then difference_limit vt my_vt fuel l x else difference_limit vt my_vt fuel x r
    else r

/-- `t` blocks of a source, from the one after `height` on. -/
def send_range (s : Receiver n Payload) (i : Fin n) : ℕ → ℕ → Exc (List (Block × Option Payload))
  | 0, _ => .ok []
  | t + 1, height =>
    match (s.sources i).blocks (height + 1) with
    | none => .error .bad_difference
    | some hash => do
      let b ← s.deref hash
      let update ← s.block_update chain b
      let rest ← send_range s i t (height + 1)
      .ok (update :: rest)

def send_difference (s : Receiver n Payload) (vt : Fin n → ℤ) (r : ℤ) : List (Fin n) → Exc (List (Block × Option Payload))
  | [] => .ok []
  | i :: is =>
    if vt i ≥ 0 ∧ (s.sources i).delivered_height > vt i then do
      let t := min ((s.sources i).delivered_height - vt i) r
      check .bad_difference (t > 0)
      let sent ← s.send_range chain i t.toNat (vt i).toNat
      let rest ← send_difference s vt r is
      .ok (sent ++ rest)
    else send_difference s vt r is

def getDifference (s : Receiver n Payload) (rt : List ℤ) : Exc (Answer Payload) :=
  if rt.length ≠ n then .ok .error
  else
    let vt : Fin n → ℤ := fun i => rt.getD i 0
    match (List.finRange n).findSome? fun i => if vt i ≥ 0 then (s.sources i).fork_proof else none with
    | some (left, right) => .ok (.differenceFork left right)
    | none => do
      let my_vt := (List.finRange n).map fun i => if vt i ≥ 0 then ((s.sources i).delivered_height : ℤ) else -1
      let r := difference_limit rt my_vt 7 0 101
      check .bad_difference (r > 0)
      let sent ← s.send_difference chain vt r (List.finRange n)
      -- what was sent is counted in the vector that came with the query
      .ok (.difference ((List.finRange n).map fun i =>
        if vt i ≥ 0 ∧ (s.sources i).delivered_height > vt i then vt i + min ((s.sources i).delivered_height - vt i) r else vt i) sent)

def process_query (s : Receiver n Payload) : Query → Exc (Answer Payload)
  | .getBlock block => s.getBlock chain block
  | .getBlocks blocks => s.getBlocks chain blocks
  | .getBlockHistory block height stop_if => s.getBlockHistory chain block height stop_if
  | .getDifference rt => s.getDifference chain rt

def got_fork_proof (s : Receiver n Payload) (left right : Dep) : Exc (Receiver n Payload) := do
  if ← s.fork_proof_ok chain left right then do
    let i ← source_of (get_source n left.src)
    .ok ((s.on_found_fork_proof i left right).blame i)
  else .ok s

/-! ## Own blocks -/

/-- `add_block_cont`: the block was signed, and is checked before it is stored. -/
def add_block_cont (s : Receiver n Payload) (signature : Signature) : Exc (Receiver n Payload) :=
  match s.sending with
  | some (.signing block payload) => do
    let block := { block with signature }
    match ← s.validate_block chain block payload with
    | .error _ => .error .invalid_own_block
    | .ok () => .ok { s with sending := some (.storing block payload) }
  | _ => .ok s

end Receiver

end Ton.Catchain
