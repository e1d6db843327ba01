import Ton.Lib.Leaves
import Ton.Cells.DataCell
import Ton.Shard.PrefixTree
import Ton.Text.BlockIdExt
/-!
# The shard configuration

`ShardConfig` of `mc-config.cpp`: for each workchain a binary tree with a `ShardDescr` in each
leaf. A tree whose cells cannot be read is `broken`, as is an entry of the dictionary that is not
one reference and a leaf that `McShardHash::unpack` refuses. A `ShardDescr` is its fields; the
bits have the width of each, and all of it fits in a cell. The check of a new tree,
`t_BinTree_ShardDescr.validate_ref`, is generated from `block.tlb`: it is the parameter `validate_ref`.
-/

namespace Ton.Shard
open BitVec (allOnes)

open Text

abbrev CatchainSeqno := BitVec 32
abbrev UnixTime := BitVec 32

def shardIdAll : ShardId := rootShardId

namespace ShardIdFull

def is_valid (s : ShardIdFull) : Bool := s.workchain != workchainInvalid

def is_masterchain (s : ShardIdFull) : Bool := s.workchain == masterchainId

def pfx_len (s : ShardIdFull) : Nat := shard_prefix_length s.shard

def to_str (s : ShardIdFull) : Bytes := [ch '('] ++ print_int s.workchain ++ [ch ','] ++ print_shard s.shard ++ [ch ')']

/-- `shard_is_parent(parent, child)`. -/
def is_parent (parent child : ShardIdFull) : Bool :=
  parent.workchain == child.workchain && (lower_bit64 child.shard != 0 && shard_parent child.shard == parent.shard)

end ShardIdFull

def shard_full (b : BlockIdExt) : ShardIdFull := ⟨b.id.workchain, b.id.shard⟩

/-! ## Shard descriptions -/

/-- `td::RefInt256` is an integer or null. -/
structure Currencies where
  grams : Option Int := none
  extra : Option DataCell := none

/-- `store_or_zero` and what is read again: an amount that is not there is zero, one over 120 bits does not fit. -/
def Currencies.store_or_zero (c : Currencies) : Option Currencies :=
  match c.grams with
  | none => some { grams := some 0 }
  | some g => if 0 ≤ g ∧ g < 2 ^ 120 then some c else none

inductive FsmState
  | fsm_none | fsm_split | fsm_merge
  deriving DecidableEq

inductive FutureSplitMerge
  | fsm_none
  | fsm_split (split_utime interval : UnixTime)
  | fsm_merge (merge_utime interval : UnixTime)

/-- Both forms, `shard_descr` and `shard_descr_new`. -/
structure ShardDescr where
  seq_no : BlockSeqno
  reg_mc_seqno : BlockSeqno
  start_lt : LogicalTime
  end_lt : LogicalTime
  root_hash : Bits256
  file_hash : Bits256
  before_split : Bool
  before_merge : Bool
  want_split : Bool
  want_merge : Bool
  next_catchain_seqno : CatchainSeqno
  next_validator_shard : ShardId
  min_ref_mc_seqno : BlockSeqno
  gen_utime : UnixTime
  split_merge_at : FutureSplitMerge
  fees_collected : Currencies
  funds_created : Currencies

structure McShardHash where
  blk : BlockIdExt
  start_lt : LogicalTime
  end_lt : LogicalTime
  gen_utime : UnixTime := 0
  fsm_utime : UnixTime := 0
  fsm_interval : UnixTime := 0
  min_ref_mc_seqno : BlockSeqno := allOnes 32
  reg_mc_seqno : BlockSeqno := allOnes 32
  fsm : FsmState := .fsm_none
  before_split : Bool := false
  before_merge : Bool := false
  want_split : Bool := false
  want_merge : Bool := false
  next_catchain_seqno : CatchainSeqno := allOnes 32
  next_validator_shard : ShardId := shardIdAll
  fees_collected : Currencies := {}
  funds_created : Currencies := {}

namespace McShardHash

def is_valid (h : McShardHash) : Bool := h.blk.id.workchain != workchainInvalid

def shard (h : McShardHash) : ShardIdFull := shard_full h.blk

def set_fsm (h : McShardHash) (fsm : FsmState) (fsm_utime fsm_interval : UnixTime) : McShardHash :=
  { h with fsm, fsm_utime, fsm_interval }

/-- A plain update keeps the state of the ancestor. -/
def take_fsm (h : McShardHash) (ancestor : Option McShardHash) : McShardHash :=
  match ancestor with
  | some ancestor => if ancestor.fsm ≠ .fsm_none then h.set_fsm ancestor.fsm ancestor.fsm_utime ancestor.fsm_interval else h
  | none => h

def pack (h : McShardHash) : Option ShardDescr := do
  guard h.is_valid
  let fees_collected ← h.fees_collected.store_or_zero
  let funds_created ← h.funds_created.store_or_zero
  some {
    seq_no := h.blk.id.seqno, reg_mc_seqno := h.reg_mc_seqno, start_lt := h.start_lt, end_lt := h.end_lt,
    root_hash := h.blk.root_hash, file_hash := h.blk.file_hash,
    before_split := h.before_split, before_merge := h.before_merge, want_split := h.want_split, want_merge := h.want_merge,
    next_catchain_seqno := h.next_catchain_seqno, next_validator_shard := h.next_validator_shard,
    min_ref_mc_seqno := h.min_ref_mc_seqno, gen_utime := h.gen_utime,
    split_merge_at := match h.fsm with
      | .fsm_none => .fsm_none
      | .fsm_split => .fsm_split h.fsm_utime h.fsm_interval
      | .fsm_merge => .fsm_merge h.fsm_utime h.fsm_interval,
    fees_collected, funds_created }

def unpack (descr : ShardDescr) (id : ShardIdFull) : McShardHash :=
  let sh : McShardHash := {
    blk := ⟨⟨id.workchain, id.shard, descr.seq_no⟩, descr.root_hash, descr.file_hash⟩,
    start_lt := descr.start_lt, end_lt := descr.end_lt, gen_utime := descr.gen_utime,
    min_ref_mc_seqno := descr.min_ref_mc_seqno, reg_mc_seqno := descr.reg_mc_seqno,
    before_split := descr.before_split, before_merge := descr.before_merge, want_split := descr.want_split, want_merge := descr.want_merge,
    next_catchain_seqno := descr.next_catchain_seqno,
    next_validator_shard := if descr.next_validator_shard ≠ 0 then descr.next_validator_shard else id.shard,
    fees_collected := descr.fees_collected, funds_created := descr.funds_created }
  match descr.split_merge_at with
  | .fsm_none => sh
  | .fsm_split utime interval => sh.set_fsm .fsm_split utime interval
  | .fsm_merge utime interval => sh.set_fsm .fsm_merge utime interval

end McShardHash

/-! ## The configuration -/

abbrev ShardTree := BinTree ShardDescr

structure ShardConfig where
  shard_hashes_dict : Option (WorkchainId → Option ShardTree)
  mc_shard_hash : Option McShardHash
  shards_updated : List ShardIdFull

/-- What ends an update: a status with code -666, or the failed `CHECK(ins.second)`. -/
inductive Fault
  | status (message : Bytes)
  | check

/-- The characters of a text. -/
def text (s : String) : Bytes := s.toList.map ch

def print_bool (b : Bool) : Bytes := text (if b then "true" else "false")

namespace ShardConfig

/-- The loop of `get_shard_hash_raw_from`. -/
def descend (id : ShardIdFull) (exact : Bool) : ShardTree → ShardId → BitVec 64 → Nat → Option (ShardIdFull × ShardDescr)
  | .leaf descr, _, m, len => if len ≠ 0 && exact then none else some (⟨id.workchain, (id.shard ||| m) - (m >>> 1)⟩, descr)
  | .fork left right, z, m, len =>
    if len = 0 then none
    else if z.msb then descend id exact right (z <<< 1) (m >>> 1) (len - 1)
    else descend id exact left (z <<< 1) (m >>> 1) (len - 1)
  | .broken, _, _, _ => none

def get_shard_hash_raw (σ : ShardConfig) (id : ShardIdFull) (exact : Bool) : Option (ShardIdFull × ShardDescr) := do
  let dict ← σ.shard_hashes_dict
  if id.is_masterchain || !id.is_valid then none
  else
    let root ← dict id.workchain
    descend id exact root id.shard (allOnes 64) id.pfx_len

def get_shard_hash (σ : ShardConfig) (id : ShardIdFull) (exact : Bool) : Option McShardHash :=
  if id.is_masterchain then if !exact || id.shard == shardIdAll then σ.mc_shard_hash else none
  else (σ.get_shard_hash_raw id exact).map fun r => McShardHash.unpack r.2 r.1

def has_workchain (σ : ShardConfig) (workchain : WorkchainId) : Bool :=
  match σ.shard_hashes_dict with
  | some dict => (dict workchain).isSome
  | none => false

/-! ## The check of an update -/

/-- The new top block may be the last one before a split. -/
def check_before_split (new_info odef : McShardHash) (before_split before_merge : Bool) : Except Fault Unit :=
  if !new_info.before_split then .ok ()
  else if before_merge || before_split then .error (.status (text "cannot register a before-split block " ++ new_info.blk.to_str ++
    text " at the end of a chain that itself starts with a split/merge event"))
  else if odef.fsm ≠ .fsm_split then .error (.status (text "cannot register a before-split block " ++ new_info.blk.to_str ++
    text " because fsm_split state was not set for this shard beforehand"))
  else if new_info.gen_utime < odef.fsm_utime ∨ new_info.gen_utime ≥ odef.fsm_utime + odef.fsm_interval then
    .error (.status (text "cannot register a before-split block " ++ new_info.blk.to_str ++
      text " because fsm_split state was enabled for unixtime " ++ print_nat odef.fsm_utime.toNat ++ text " .. " ++
      print_nat (odef.fsm_utime + odef.fsm_interval).toNat ++ text " but the block is generated at " ++
      print_nat new_info.gen_utime.toNat))
  else .ok ()

/-- The new top block may be the first one after a merge. -/
def check_merged (new_info odef : McShardHash) (before_merge : Bool) : Except Fault Unit :=
  if !before_merge then .ok ()
  else if odef.fsm ≠ .fsm_merge then .error (.status (text "cannot register merged block " ++ new_info.blk.to_str ++
    text " because fsm_merge state was not set for shard " ++ (shard_full odef.blk).to_str ++ text " beforehand"))
  else if new_info.gen_utime < odef.fsm_utime ∨ new_info.gen_utime ≥ odef.fsm_utime + odef.fsm_interval then
    .error (.status (text "cannot register merged block " ++ new_info.blk.to_str ++
      text " because fsm_merge state was enabled for shard " ++ (shard_full odef.blk).to_str ++ text " for unixtime " ++
      print_nat odef.fsm_utime.toNat ++ text " .. " ++ print_nat (odef.fsm_utime + odef.fsm_interval).toNat ++
      text " but the block is generated at " ++ print_nat new_info.gen_utime.toNat))
  else .ok ()

/-- One turn of the loop over the start blocks. -/
def check_start_block (σ : ShardConfig) (new_info : McShardHash) (before_split before_merge : Bool) (ob : BlockIdExt) :
    Except Fault McShardHash :=
  match σ.get_shard_hash (shard_full ob) true with
  | none => .error (.status (text "the start block " ++ ob.to_str ++
      text " of a top shard block update is not contained in the previous shard configuration"))
  | some odef =>
    if odef.blk ≠ ob then .error (.status (text "the start block " ++ ob.to_str ++
      text " of a top shard block update is not contained in the previous shard configuration"))
    else if shard_full ob ∈ σ.shards_updated then .error (.status (text "the shard of the start block " ++ ob.to_str ++
      text " of a top shard block update has been already updated in the current shard configuration"))
    else if odef.before_split ≠ before_split then .error (.status (text "the shard of the start block " ++ ob.to_str ++
      text " had before_split=" ++ print_bool odef.before_split ++
      text " but the top shard block update is valid only if before_split=" ++ print_bool before_split))
    else if odef.before_merge ≠ before_merge then .error (.status (text "the shard of the start block " ++ ob.to_str ++
      text " had before_merge=" ++ print_bool odef.before_merge ++
      text " but the top shard block update is valid only if before_merge=" ++ print_bool before_merge))
    else do
      check_before_split new_info odef before_split before_merge
      check_merged new_info odef before_merge
      .ok odef

/-- `std::max`. -/
def std_max (a b : CatchainSeqno) : CatchainSeqno := if a < b then b else a

/-- The loop over the start blocks: the largest catchain seqno, and the ancestor of a plain update. -/
def check_start_blocks (σ : ShardConfig) (new_info : McShardHash) (before_split before_merge : Bool) :
    List BlockIdExt → CatchainSeqno → Option McShardHash → Except Fault (CatchainSeqno × Option McShardHash)
  | [], old_cc_seqno, ancestor => .ok (old_cc_seqno, ancestor)
  | ob :: old_blkids, old_cc_seqno, ancestor => do
    let odef ← check_start_block σ new_info before_split before_merge ob
    check_start_blocks σ new_info before_split before_merge old_blkids
      (std_max old_cc_seqno odef.next_catchain_seqno)
      (if !before_merge && !before_split then some odef else ancestor)

/-- The checks of the shards, with `before_split` and `before_merge`. -/
def check_shards (new_info : McShardHash) : List BlockIdExt → Except Fault (Bool × Bool)
  | [ob] =>
    let before_split := (shard_full ob).is_parent new_info.shard
    if new_info.shard ≠ shard_full ob ∧ before_split = false then .error (.status (text
      "the start block of a top shard block update must either coincide with the final shard or be its parent"))
    else .ok (before_split, false)
  | [ob1, ob2] =>
    let before_split := (shard_full ob1).is_parent new_info.shard
    if !(shard_full ob1).is_sibling (shard_full ob2) then
      .error (.status (text "the two start blocks of a top shard block update must be siblings"))
    else if !new_info.shard.is_parent (shard_full ob1) then .error (.status (text
      "the two start blocks of a top shard block update do not merge into expected final shard " ++ (shard_full ob1).to_str))
    else .ok (before_split, true)
  | _ => .error (.status (text "must have either one or two start blocks in a top shard block update"))

/-- The seqno that is expected after start blocks with `old_cc_seqno`. -/
def expected_cc_seqno (old_cc_seqno : CatchainSeqno) (before_merge : Bool) : CatchainSeqno :=
  if before_merge then old_cc_seqno + 1 else old_cc_seqno

/-- With the ancestor, which only `update_shard_block_info` takes. -/
def may_update_shard_block_info (σ : ShardConfig) (new_info : Option McShardHash) (old_blkids : List BlockIdExt) (lt_limit : LogicalTime) :
    Except Fault (Bool × Option McShardHash) :=
  if σ.shard_hashes_dict.isNone then .error (.status (text "no shard top block dictionary present"))
  else match new_info with
  | none => .error (.status (text "suggested new top shard block info is empty"))
  | some new_info =>
    if !new_info.is_valid then .error (.status (text "new top shard block description is invalid"))
    else if new_info.shard.workchain = workchainInvalid ∨ new_info.shard.workchain = masterchainId then
      .error (.status (text "new top shard block description belongs to an invalid workchain"))
    else if !σ.has_workchain new_info.shard.workchain then
      .error (.status (text "new top shard block belongs to an unknown or disabled workchain"))
    else do
      let (before_split, before_merge) ← check_shards new_info old_blkids
      let (old_cc_seqno, ancestor) ← check_start_blocks σ new_info before_split before_merge old_blkids 0 none
      if expected_cc_seqno old_cc_seqno before_merge ≠ new_info.next_catchain_seqno then .error (.status (
        text "the top shard block update is generated with catchain_seqno=" ++ print_nat new_info.next_catchain_seqno.toNat ++
        text " but previous shard configuration expects " ++ print_nat (expected_cc_seqno old_cc_seqno before_merge).toNat))
      else if new_info.end_lt ≥ lt_limit then .error (.status (text "the top shard block update has end_lt " ++
        print_nat new_info.end_lt.toNat ++ text " which is larger than the current limit " ++ print_nat lt_limit.toNat))
      else .ok (!before_split, ancestor)

/-! ## The updates -/

def btree_set (value : ShardTree) : ShardTree → ShardId → Option ShardTree
  | .fork left right, shard =>
    if shard = 0 then none
    else if shard = shardIdAll then some value
    else if shard &&& 1#64 <<< 63 ≠ 0 then (btree_set value right (shard <<< 1)).map (.fork left)
    else (btree_set value left (shard <<< 1)).map (.fork · right)
  | _, shard =>
    if shard = 0 then none
    else if shard = shardIdAll then some value
    else none -- branch does not exist

/-- Swapped so that the left shard is first. -/
def in_order (new_info1 new_info2 : McShardHash) : McShardHash × McShardHash :=
  if new_info1.blk.id.shard > new_info2.blk.id.shard then (new_info2, new_info1) else (new_info1, new_info2)

section
variable (validate_ref : ShardTree → Bool)

/-- `none` is `false`. -/
def set_shard_info (σ : ShardConfig) (shard : ShardIdFull) (value : ShardTree) : Except Fault (Option ShardConfig) :=
  match σ.shard_hashes_dict with
  | none => .ok none
  | some dict =>
    if !validate_ref value then .ok none
    else
      match (dict shard.workchain).bind fun root => btree_set value root shard.shard with
      | none => .ok none
      | some root =>
        if shard ∈ σ.shards_updated then .error .check
        else .ok (some { σ with
          shard_hashes_dict := some (fun wc => if wc = shard.workchain then some root else dict wc),
          shards_updated := shard :: σ.shards_updated })

def do_update_shard_info (σ : ShardConfig) (new_info : McShardHash) : Except Fault (Option ShardConfig) :=
  match new_info.pack with
  | some descr => set_shard_info validate_ref σ new_info.shard (.leaf descr)
  | none => .ok none

def do_update_shard_info2 (σ : ShardConfig) (new_info1 new_info2 : McShardHash) : Except Fault (Option ShardConfig) :=
  if !new_info1.shard.is_sibling new_info2.shard then .ok none
  else
    let infos := in_order new_info1 new_info2
    match infos.1.pack, infos.2.pack with
    | some descr1, some descr2 => set_shard_info validate_ref σ infos.1.shard.parent (.fork (.leaf descr1) (.leaf descr2))
    | _, _ => .ok none

def update_shard_block_info (σ : ShardConfig) (new_info : Option McShardHash) (old_blkids : List BlockIdExt) :
    Except Fault ShardConfig := do
  let (res, ancestor) ← σ.may_update_shard_block_info new_info old_blkids (allOnes 64)
  match new_info with
  | none => .error (.status []) -- refused above
  | some new_info =>
    if !res then .error (.status (text "cannot apply the after-split update for " ++ new_info.blk.to_str ++
      text " without a corresponding sibling update"))
    else do
      let ok ← do_update_shard_info validate_ref σ (new_info.take_fsm ancestor)
      match ok with
      | some σ => .ok σ
      | none => .error (.status (text
          "unknown serialization error for (BinTree ShardDescr) while updating shard configuration to include " ++ new_info.blk.to_str))

/-- Of the two, `update_shard_block_info2` takes no limit and no ancestor. -/
def update_shard_block_info2 (σ : ShardConfig) (new_info1 new_info2 : Option McShardHash) (old_blkids : List BlockIdExt) :
    Except Fault ShardConfig := do
  let (res1, _) ← σ.may_update_shard_block_info new_info1 old_blkids (allOnes 64)
  let (res2, _) ← σ.may_update_shard_block_info new_info2 old_blkids (allOnes 64)
  match new_info1, new_info2 with
  | some new_info1, some new_info2 =>
    if res1 || res2 then .error (.status (text "the two updates in update_shard_block_info2 must follow a shard split event"))
    else do
      let infos := in_order new_info1 new_info2
      let ok ← do_update_shard_info2 validate_ref σ infos.1 infos.2
      match ok with
      | some σ => .ok σ
      | none => .error (.status (text
          "unknown serialization error for (BinTree ShardDescr) while updating shard configuration to include " ++
          infos.1.blk.to_str ++ text " and " ++ infos.2.blk.to_str))
  | _, _ => .error (.status []) -- refused above

end

end ShardConfig

/-- A call of `update_shard_block_info` or of `update_shard_block_info2`. -/
inductive Update
  | one (new_info : Option McShardHash) (old_blkids : List BlockIdExt)
  | two (new_info1 new_info2 : Option McShardHash) (old_blkids : List BlockIdExt)

namespace Update

def old_blkids : Update → List BlockIdExt
  | one _ old_blkids => old_blkids
  | two _ _ old_blkids => old_blkids

def new_infos : Update → List (Option McShardHash)
  | one new_info _ => [new_info]
  | two new_info1 new_info2 _ => [new_info1, new_info2]

def apply (validate_ref : ShardTree → Bool) (σ : ShardConfig) : Update → Except Fault ShardConfig
  | one new_info old_blkids => σ.update_shard_block_info validate_ref new_info old_blkids
  | two new_info1 new_info2 old_blkids => σ.update_shard_block_info2 validate_ref new_info1 new_info2 old_blkids

end Update

end Ton.Shard
