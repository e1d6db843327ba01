import Ton.Lib.Result
import Mathlib
/-!
# The state of a catchain receiver

The messages of `ton_api.tl` and the data of `catchain-received-block.hpp`,
`catchain-receiver-source.hpp` and `catchain-receiver.hpp`. `n` is the number of
sources. A block lives in the map `blocks` under its hash, so the hash stands for
the pointer; times, neighbours and what is only logged are left out.
-/

namespace Ton.Catchain

/-- The ways a call can end the process: null pointers, the checks, and the two fatal log lines. -/
inductive Crash where
  | null_pointer
  | null_source
  | bad_source_id
  | bad_incarnation
  | empty_payload
  | wrong_source
  | same_hash
  | no_fork_id
  | not_blamed
  | self_blamed
  | self_dep
  | not_initialized
  | pending
  | not_in_db
  | has_fork
  | fork_height
  | ill_dep
  | root_exported
  | not_delivered
  | bad_difference
  | invalid_own_block
  | unknown_self_block
  | too_deep
  deriving DecidableEq, Repr

abbrev Exc := Except Crash

/-- `CHECK(c)` -/
def check (e : Crash) (c : Prop) [Decidable c] : Exc Unit := if c then .ok () else .error e

theorem check_pos {e : Crash} {c : Prop} [Decidable c] (h : c) : check e c = .ok () := if_pos h

theorem check_neg {e : Crash} {c : Prop} [Decidable c] (h : ¬ c) : check e c = .error e := if_neg h

/-- Hashes are 256-bit numbers. -/
abbrev Hash := ℕ

abbrev Signature := List (Fin 256)

/-! ## Messages -/

/-- `catchain.block.dep` -/
structure Dep where
  src : ℤ
  height : ℤ
  data_hash : Hash
  signature : Signature
  deriving DecidableEq, Repr

/-- `catchain.block.data` -/
structure BlockData where
  prev : Dep
  deps : List Dep
  deriving DecidableEq, Repr

/-- `catchain.block` -/
structure Block where
  incarnation : Hash
  src : ℤ
  height : ℤ
  data : BlockData
  signature : Signature
  deriving DecidableEq, Repr

/-- `catchain.block.id`; its `src` is the hash of a key. -/
structure BlockId where
  incarnation : Hash
  src : Hash
  height : ℤ
  data_hash : Hash
  deriving DecidableEq, Repr

/-- `catchain.block.inner.Data`; what `badBlock` and `vector` hold is not read. -/
inductive InnerData where
  | badBlock
  | fork (left right : Dep)
  | nop
  | vector
  deriving DecidableEq, Repr

/-- What all receivers of a chain share. A payload is read through its size, its hash
and `fetch`, which parses it as inner data; the hash functions have no collisions, and an
Ed25519 signature is never empty. -/
structure Chain (n : ℕ) (Payload : Type) where
  incarnation : Hash
  max_deps : ℕ
  source_hash : Fin n → Hash
  id_hash : BlockId → Hash
  payload_hash : Payload → Hash
  size : Payload → ℕ
  fetch : Payload → Option InnerData
  serialize_fork : Dep → Dep → Payload
  check_signature : Fin n → BlockId → Signature → Bool
  source_hash_inj : source_hash.Injective
  id_hash_inj : id_hash.Injective
  payload_hash_inj : payload_hash.Injective
  fetch_fork : ∀ left right, fetch (serialize_fork left right) = some (.fork left right)
  fork_size : ∀ left right, 0 < size (serialize_fork left right)
  not_signed_empty : ∀ i id, check_signature i id [] = false

/-! ## Blocks -/

/-- `CatChainReceivedBlockImpl::State`, without the `bs_` -/
inductive State where
  | none
  | ill
  | initialized
  | delivered
  deriving DecidableEq, Repr

/-- `source_id` is absent for the root block, whose number is that of no source; `payload`
is absent while it is empty. -/
structure ReceivedBlock (n : ℕ) (Payload : Type) where
  source_id : Option (Fin n)
  height : ℕ
  data_hash : Hash
  signature : Signature
  payload : Option Payload
  state : State
  prev : Option Hash
  next : Option Hash
  block_deps : List Hash
  deps : List ℕ
  rev_deps : List Hash
  fork_id : ℕ
  pending_deps : ℕ
  is_custom : Bool
  in_db : Bool

namespace ReceivedBlock

variable {n : ℕ} {Payload : Type}

/-- `bs_initialized` and later states. -/
def initialized (b : ReceivedBlock n Payload) : Bool := b.state = .initialized ∨ b.state = .delivered

def delivered (b : ReceivedBlock n Payload) : Bool := b.state = .delivered

def is_ill (b : ReceivedBlock n Payload) : Bool := b.state = .ill

/-- A source id as it is sent; the root block has the one after the last. -/
def src (b : ReceivedBlock n Payload) : ℤ := b.source_id.elim n fun i => (i : ℕ)

def export_tl_dep (b : ReceivedBlock n Payload) : Dep := ⟨b.src, b.height, b.data_hash, b.signature⟩

/-- A block that nothing is known of but its id. -/
def blank (source_id : Option (Fin n)) (height : ℕ) (data_hash : Hash) (signature : Signature) : ReceivedBlock n Payload where
  source_id
  height
  data_hash
  signature
  payload := none
  state := .none
  prev := none
  next := none
  block_deps := []
  deps := []
  rev_deps := []
  fork_id := 0
  pending_deps := 0
  is_custom := false
  in_db := false

end ReceivedBlock

/-- `blocks` are the blocks by height. -/
structure Source where
  blamed : Bool
  fork_ids : List ℕ
  blamed_heights : List ℕ
  blocks : ℕ → Option Hash
  fork_proof : Option (Dep × Dep)
  delivered_height : ℕ

def Source.create : Source := ⟨false, [], [], fun _ => none, none, 0⟩

/-! ## Receivers -/

/-- What the receiver tells `CatChainImpl`. -/
inductive Call where
  | blame (src_id : ℕ)
  | new_block (hash : Hash)
  deriving DecidableEq, Repr

/-- The block that is being sent, up to where it got. -/
inductive Sending (Payload : Type) where
  | signing (block : Block) (payload : Payload)
  | storing (block : Block) (payload : Payload)

/-- `keys` are the keys of `blocks`, `calls` are all calls made so far. -/
structure Receiver (n : ℕ) (Payload : Type) where
  local_idx : Fin n
  allow_unsafe_self_blocks_resync : Bool
  started : Bool
  blocks : Hash → Option (ReceivedBlock n Payload)
  keys : List Hash
  sources : Fin n → Source
  total_forks : ℕ
  to_run : List Hash
  last_sent_block : Hash
  active_send : Bool
  pending_blocks : List (Payload × List Hash)
  sending : Option (Sending Payload)
  calls : List Call

variable {n : ℕ} {Payload : Type}

/-- The source with this number. A negative number is beyond the last source when it is read as unsigned. -/
def get_source (n : ℕ) (src : ℤ) : Option (Fin n) := if h : 0 ≤ src ∧ src.toNat < n then some ⟨src.toNat, h.2⟩ else none

namespace Chain

variable (chain : Chain n Payload)

def get_source_hash (src : ℤ) : Exc Hash :=
  match get_source n src with
  | none => .error .bad_source_id
  | some i => .ok (chain.source_hash i)

def block_id (block : Block) (payload : Payload) : Exc BlockId := do
  let src ← chain.get_source_hash block.src
  .ok ⟨block.incarnation, src, block.height, chain.payload_hash payload⟩

def block_id_dep (dep : Dep) : Exc BlockId := do
  let src ← chain.get_source_hash dep.src
  .ok ⟨chain.incarnation, src, dep.height, dep.data_hash⟩

def block_hash (block : Block) (payload : Payload) : Exc Hash := do
  let id ← chain.block_id block payload
  .ok (chain.id_hash id)

def block_hash_dep (dep : Dep) : Exc Hash := do
  let id ← chain.block_id_dep dep
  .ok (chain.id_hash id)

/-- The id of a block of a source. -/
def idOf (i : Fin n) (height : ℕ) (data_hash : Hash) : BlockId := ⟨chain.incarnation, chain.source_hash i, height, data_hash⟩

def root_hash : Hash := chain.id_hash ⟨chain.incarnation, chain.incarnation, 0, chain.incarnation⟩

def root_block : ReceivedBlock n Payload := { ReceivedBlock.blank none 0 chain.incarnation [] with state := .delivered }

end Chain

/-- The receiver before anything came in. -/
def Receiver.create (chain : Chain n Payload) (local_idx : Fin n) (allow_unsafe_self_blocks_resync : Bool) : Receiver n Payload where
  local_idx
  allow_unsafe_self_blocks_resync
  started := false
  blocks h := if h = chain.root_hash then some chain.root_block else none
  keys := [chain.root_hash]
  sources _ := .create
  total_forks := 0
  to_run := []
  last_sent_block := chain.root_hash
  active_send := false
  pending_blocks := []
  sending := none
  calls := []

end Ton.Catchain
