import Ton.Lib.Ancestry
import Ton.Lib.Runs
import Ton.Lib.VectorTime
/-!
# The top blocks of a catchain

`CatChainImpl` of `catchain.cpp`: the blocks that the receiver has delivered, and those that are
offered for processing next. `blocks` has the newest first; the flags of a block are functions of
its hash, as a block is one object. The alarms, the callbacks and what starts a processing are left
out: `send_process` is an event, with the blocks that `get_random` picks.
-/

namespace Ton.Catchain.Processing

open Ancestry

variable {Hash : Type} [DecidableEq Hash]

structure CatChainBlock (Hash : Type) where
  source : Nat
  fork : Nat
  height : Nat
  hash : Hash
  prev : Option Hash
  deps : List Hash
  vt : List Nat

namespace CatChainBlock

/-- In the order of the recursions over a block: `prev`, then `deps`. -/
def parents (B : CatChainBlock Hash) : List Hash := B.prev.toList ++ B.deps

def is_descendant_of (B block : CatChainBlock Hash) : Bool :=
  if block.fork ≥ B.vt.length then false else block.height ≤ B.vt.getD block.fork 0

end CatChainBlock

/-- `td::RandomMap` is its keys. -/
structure CatChain (Hash : Type) where
  sources : Nat
  local_idx : Nat
  max_deps : Nat
  blocks : List (CatChainBlock Hash) := []
  processed : Hash → Bool := fun _ => false
  preprocess_is_sent : Hash → Bool := fun _ => false
  blamed_sources : Nat → Bool := fun _ => false
  top_source_blocks : Nat → Option (CatChainBlock Hash) := fun _ => none
  top_blocks : Finset Hash := ∅

/-- A failed `CHECK`. -/
inductive Abort
  | check

namespace CatChain

def get_block (σ : CatChain Hash) (hash : Hash) : Option (CatChainBlock Hash) := σ.blocks.find? fun B => B.hash = hash

def set_processed (σ : CatChain Hash) (block : Hash) : CatChain Hash :=
  { σ with processed := mark CatChainBlock.hash CatChainBlock.parents σ.blocks σ.processed block }

def send_preprocess (σ : CatChain Hash) (block : Hash) : CatChain Hash :=
  { σ with preprocess_is_sent := mark CatChainBlock.hash CatChainBlock.parents σ.blocks σ.preprocess_is_sent block }

/-- The loop of `send_process` with the picks of `get_random`, and the blocks that are offered. -/
def send_process (σ : CatChain Hash) (v : List Hash) : List Hash → Except Abort (CatChain Hash × List Hash)
  | [] => if σ.top_blocks = ∅ ∨ v.length ≥ σ.max_deps then .ok (σ, v) else .error .check
  | pick :: picks =>
    if σ.top_blocks = ∅ ∨ v.length ≥ σ.max_deps ∨ pick ∉ σ.top_blocks then .error .check
    else match σ.get_block pick with
    | none => .error .check
    | some B =>
      let σ := { σ with top_blocks := σ.top_blocks.erase pick }
      if B.source = σ.sources ∨ σ.blamed_sources B.source = false then (σ.set_processed pick).send_process (v ++ [pick]) picks
      else σ.send_process v picks

def on_new_block (σ : CatChain Hash) (B : CatChainBlock Hash) : Except Abort (CatChain Hash) :=
  if B.prev.toList.all (fun p => (σ.get_block p).isSome) = false then .error .check
  else if B.deps.all (fun d => (σ.get_block d).isSome) = false then .error .check
  else if B.source ≥ σ.sources then .error .check
  else
    let top := B.prev.toList.foldl (fun top p => top.erase p) σ.top_blocks
    if σ.blamed_sources B.source then .ok { σ with blocks := B :: σ.blocks, top_blocks := top }
    else
      let top := B.deps.foldl (fun top d => top.erase d) top
      .ok { ({ σ with blocks := B :: σ.blocks } : CatChain Hash).send_preprocess B.hash with
        top_source_blocks := Function.update σ.top_source_blocks B.source (some B),
        top_blocks := if B.source ≠ σ.local_idx then insert B.hash top else top }

/-- `top_source_blocks_[j]->is_descendant_of(B)` for some other source `j`. -/
def has_descendant (σ : CatChain Hash) (i : Nat) (B : CatChainBlock Hash) : Bool :=
  (List.range σ.sources).any fun j => i ≠ j && !σ.blamed_sources j && (σ.top_source_blocks j).any fun C => C.is_descendant_of B

/-- The loop of `on_blame`. -/
def recompute (σ : CatChain Hash) : Finset Hash :=
  ((List.range σ.sources).filterMap fun i =>
    if σ.blamed_sources i = false ∧ i ≠ σ.local_idx then
      (σ.top_source_blocks i).bind fun B =>
        if σ.processed B.hash then none else if σ.has_descendant i B then none else some B.hash
    else none).toFinset

def on_blame (σ : CatChain Hash) (src_id : Nat) : CatChain Hash :=
  if σ.blamed_sources src_id then σ
  else
    let σ := { σ with
      blamed_sources := Function.update σ.blamed_sources src_id true,
      top_source_blocks := Function.update σ.top_source_blocks src_id none }
    { σ with top_blocks := σ.recompute }

end CatChain

/-! ## Events -/

inductive Event (Hash : Type)
  | new_block (B : CatChainBlock Hash)
  | blame (src_id : Nat)
  | process (picks : List Hash)

/-- One event, with all blocks that have been offered so far. -/
def turn (s : CatChain Hash × List Hash) : Event Hash → Except Abort (CatChain Hash × List Hash)
  | .new_block B => (fun σ => (σ, s.2)) <$> s.1.on_new_block B
  | .blame src_id => .ok (s.1.on_blame src_id, s.2)
  | .process picks => (fun r => (r.1, s.2 ++ r.2)) <$> s.1.send_process [] picks

end Ton.Catchain.Processing
