import Ton.Lib.Runs
import Ton.Shard.Placed
/-!
# The shards of one masterchain block

The updates of one `ShardConfig`. Each that is accepted follows one or two leaves, `Continues`, and
writes its own, `Placed`. The set `shards_updated` has the place that was written: under each of its
shards there is nothing of the starting configuration.
-/

namespace Ton.Shard
open Result BinTree Text List

/-! ## What an update follows -/

/-- The block is the top one of its shard, with this description. -/
def IsLeaf (σ : ShardConfig) (ob : BlockIdExt) (odef : McShardHash) : Prop :=
  σ.get_shard_hash (shard_full ob) true = some odef ∧ odef.blk = ob

/-- Generated in the time that the state of `odef` gives. -/
def InTime (n odef : McShardHash) : Prop := odef.fsm_utime ≤ n.gen_utime ∧ n.gen_utime < odef.fsm_utime + odef.fsm_interval

/-- What the flags of `odef` say to a block `n` that comes next. -/
structure Follows (n odef : McShardHash) (before_split before_merge : Bool) : Prop where
  split : odef.before_split = before_split
  merge : odef.before_merge = before_merge
  to_split : n.before_split = true → before_merge = false ∧ before_split = false ∧ odef.fsm = .fsm_split ∧ InTime n odef
  to_merge : before_merge = true → odef.fsm = .fsm_merge ∧ InTime n odef

/-- The block `n` comes after leaves of the configuration; `true` is after a split. -/
inductive Continues (σ : ShardConfig) (n : McShardHash) : List BlockIdExt → Bool → Prop
  | plain {ob : BlockIdExt} {odef : McShardHash} (hleaf : IsLeaf σ ob odef) (hshard : n.shard = shard_full ob)
    (hfollows : Follows n odef false false) (hcc : n.next_catchain_seqno = odef.next_catchain_seqno) : Continues σ n [ob] false
  | split {ob : BlockIdExt} {odef : McShardHash} (hleaf : IsLeaf σ ob odef) (hshard : (shard_full ob).is_parent n.shard = true)
    (hfollows : Follows n odef true false) (hcc : n.next_catchain_seqno = odef.next_catchain_seqno) : Continues σ n [ob] true
  | merge {ob1 ob2 : BlockIdExt} {odef1 odef2 : McShardHash} (hleaf1 : IsLeaf σ ob1 odef1) (hleaf2 : IsLeaf σ ob2 odef2)
    (hsib : (shard_full ob1).is_sibling (shard_full ob2) = true) (hshard : n.shard.is_parent (shard_full ob1) = true)
    (hfollows1 : Follows n odef1 false true) (hfollows2 : Follows n odef2 false true)
    (hcc : n.next_catchain_seqno = ShardConfig.std_max odef1.next_catchain_seqno odef2.next_catchain_seqno + 1) : Continues σ n [ob1, ob2] false

namespace ShardConfig

/-- A refusal. -/
def Refused (f : Fault) : Prop := ∃ message, f = .status message

theorem refused (message : Bytes) : Refused (.status message) := ⟨message, rfl⟩

variable {σ : ShardConfig} {n : McShardHash} {before_split before_merge : Bool}

theorem in_time {odef : McShardHash} (h : ¬(n.gen_utime < odef.fsm_utime ∨ n.gen_utime ≥ odef.fsm_utime + odef.fsm_interval)) : InTime n odef := by
  rw [not_or] at h
  exact ⟨BitVec.not_lt.1 h.1, BitVec.not_le.1 h.2⟩

theorem check_before_split_ends (odef : McShardHash) :
    Ends Refused (check_before_split n odef before_split before_merge)
      fun _ => n.before_split = true → before_merge = false ∧ before_split = false ∧ odef.fsm = .fsm_split ∧ InTime n odef := by
  refine .ite (fun h => .ok fun h' => ?_) fun _ => .ite (fun _ => .error (refused _)) fun hfirst => ?_
  · rw [h'] at h
    cases h
  · refine .ite (fun _ => .error (refused _)) fun hfsm => .ite (fun _ => .error (refused _)) fun htime => .ok fun _ => ?_
    rw [Bool.or_eq_true, not_or, Bool.not_eq_true, Bool.not_eq_true] at hfirst
    exact ⟨hfirst.1, hfirst.2, not_not.1 hfsm, in_time htime⟩

theorem check_merged_ends (odef : McShardHash) :
    Ends Refused (check_merged n odef before_merge) fun _ => before_merge = true → odef.fsm = .fsm_merge ∧ InTime n odef := by
  refine .ite (fun h => .ok fun h' => ?_) fun _ => .ite (fun _ => .error (refused _)) fun hfsm => ?_
  · rw [h'] at h
    cases h
  · exact .ite (fun _ => .error (refused _)) fun htime => .ok fun _ => ⟨not_not.1 hfsm, in_time htime⟩

theorem check_start_block_ends (ob : BlockIdExt) :
    Ends Refused (check_start_block σ n before_split before_merge ob)
      fun odef => IsLeaf σ ob odef ∧ shard_full ob ∉ σ.shards_updated ∧ Follows n odef before_split before_merge := by
  unfold check_start_block
  cases hleaf : σ.get_shard_hash (shard_full ob) true with
  | none => exact .error (refused _)
  | some odef =>
    refine .ite (fun _ => .error (refused _)) fun hblk => .ite (fun _ => .error (refused _)) fun hnew => ?_
    refine .ite (fun _ => .error (refused _)) fun hsplit => .ite (fun _ => .error (refused _)) fun hmerge => ?_
    refine (check_before_split_ends odef).bind fun _ hto_split => (check_merged_ends odef).bind fun _ hto_merge => .ok ?_
    exact ⟨⟨hleaf, not_not.1 hblk⟩, hnew, not_not.1 hsplit, not_not.1 hmerge, hto_split, hto_merge⟩

theorem std_max_zero (x : CatchainSeqno) : std_max 0 x = x := by
  unfold std_max
  split
  · rfl
  · next h => exact BitVec.le_antisymm (BitVec.le_def.2 (Nat.zero_le _)) (BitVec.not_lt.1 h)

/-- What the loop over the start blocks has checked of one. -/
def Passed (σ : ShardConfig) (n : McShardHash) (before_split before_merge : Bool) (ob : BlockIdExt) (odef : McShardHash) : Prop :=
  IsLeaf σ ob odef ∧ shard_full ob ∉ σ.shards_updated ∧ Follows n odef before_split before_merge

theorem passed_of_mem {obs : List BlockIdExt} {odefs : List McShardHash} (h : List.Forall₂ (Passed σ n before_split before_merge) obs odefs)
    {ob : BlockIdExt} (hob : ob ∈ obs) : ∃ odef, Passed σ n before_split before_merge ob odef := by
  induction h with
  | nil => cases hob
  | cons hhead _ ih =>
    rcases mem_cons.1 hob with rfl | hob
    · exact ⟨_, hhead⟩
    · exact ih hob

theorem check_start_blocks_ends (obs : List BlockIdExt) (cc : CatchainSeqno) (ancestor : Option McShardHash) :
    Ends Refused (check_start_blocks σ n before_split before_merge obs cc ancestor) fun r =>
      ∃ odefs, List.Forall₂ (Passed σ n before_split before_merge) obs odefs ∧
        r.1 = odefs.foldl (fun cc odef => std_max cc odef.next_catchain_seqno) cc := by
  induction obs generalizing cc ancestor with
  | nil => exact .ok ⟨[], .nil, rfl⟩
  | cons ob obs ih =>
    rw [check_start_blocks]
    refine (check_start_block_ends ob).bind fun odef hodef => (ih _ _).mono ?_
    rintro r ⟨odefs, hall, hcc⟩
    exact ⟨odef :: odefs, .cons hodef hall, hcc⟩

/-- The shards of the blocks fit together. -/
inductive Shards (n : McShardHash) : List BlockIdExt → Bool → Bool → Prop
  | one {ob : BlockIdExt} (h : (shard_full ob).is_parent n.shard = false → n.shard = shard_full ob) :
    Shards n [ob] ((shard_full ob).is_parent n.shard) false
  | two {ob1 ob2 : BlockIdExt} (hsib : (shard_full ob1).is_sibling (shard_full ob2) = true)
    (hparent : n.shard.is_parent (shard_full ob1) = true) : Shards n [ob1, ob2] ((shard_full ob1).is_parent n.shard) true

theorem check_shards_ends (obs : List BlockIdExt) : Ends Refused (check_shards n obs) fun r => Shards n obs r.1 r.2 := by
  rcases obs with _ | ⟨ob1, _ | ⟨ob2, _ | ⟨ob3, obs⟩⟩⟩
  · exact .error (refused _)
  · refine .ite (fun _ => .error (refused _)) fun hshard => .ok (.one fun hparent => ?_)
    by_contra hne
    exact hshard ⟨hne, hparent⟩
  · refine .ite (fun _ => .error (refused _)) fun hsib => .ite (fun _ => .error (refused _)) fun hparent => .ok (.two ?_ ?_)
    · simpa using hsib
    · simpa using hparent
  · exact .error (refused _)

end ShardConfig

/-! ## Parents -/

namespace ShardIdFull

variable {x y : ShardIdFull}

theorem is_parent_iff : x.is_parent y = true ↔ x = y.parent ∧ y.shard ≠ 0 := by
  obtain ⟨wx, x⟩ := x
  obtain ⟨wy, y⟩ := y
  have hlow : lower_bit64 y ≠ 0 ↔ y ≠ 0 := by
    constructor
    · rintro h rfl
      exact h rfl
    · exact lower_bit64_ne_zero
  simp only [is_parent, parent, Bool.and_eq_true, beq_iff_eq, bne_iff_ne, ShardIdFull.mk.injEq, hlow]
  constructor
  · rintro ⟨hw, hy, hx⟩
    exact ⟨⟨hw, hx.symm⟩, hy⟩
  · rintro ⟨⟨hw, hx⟩, hy⟩
    exact ⟨hw, hy, hx.symm⟩

theorem parent_word (hx : y.parent.shard ≠ 0) (hy : y.shard ≠ 0) :
    ∃ (r : Prefix) (hr : r.1.length < 63) (b : Bool), y.shard = (r.child hr b).word ∧ y.parent.shard = r.word := by
  obtain ⟨q, hq⟩ := exists_prefix hy
  by_cases h0 : q.1.length = 0
  · have hnil : q = Prefix.nil := Subtype.ext (length_eq_zero_iff.1 h0)
    have hroot : shard_parent shardIdAll = 0 := by decide
    rw [parent, hq, hnil, Prefix.word_nil, hroot] at hx
    exact absurd rfl hx
  · obtain ⟨r, hr, b, rfl⟩ := Prefix.exists_child h0
    exact ⟨r, hr, b, hq, by rw [parent, hq, Prefix.shard_parent_word]⟩

theorem not_is_parent (h : x.is_parent y = true) : y.is_parent x = false := by
  by_contra h'
  rw [Bool.not_eq_false] at h'
  rw [is_parent_iff] at h h'
  obtain ⟨hx, hy⟩ := h
  obtain ⟨hy', hx'⟩ := h'
  obtain ⟨r, hr, b, h1, h2⟩ := parent_word (hx ▸ hx') hy
  obtain ⟨r', hr', b', h3, h4⟩ := parent_word (hy' ▸ hy) hx'
  rw [← hx] at h2
  rw [← hy'] at h4
  have e1 : r = r'.child hr' b' := Prefix.word_injective (h2.symm.trans h3)
  have e2 : r' = r.child hr b := Prefix.word_injective (h4.symm.trans h1)
  have l1 : r.1.length = r'.1.length + 1 := by
    rw [e1]
    exact length_append
  have l2 : r'.1.length = r.1.length + 1 := by
    rw [e2]
    exact length_append
  omega

end ShardIdFull

namespace ShardConfig

variable {σ : ShardConfig}

theorem may_update_ends (new_info : Option McShardHash) (obs : List BlockIdExt) (lt_limit : LogicalTime) :
    Ends Refused (σ.may_update_shard_block_info new_info obs lt_limit)
      fun r => ∃ n, new_info = some n ∧ Continues σ n obs (!r.1) ∧ (∀ ob ∈ obs, shard_full ob ∉ σ.shards_updated) ∧
        n.shard.workchain ≠ workchainInvalid ∧ n.shard.workchain ≠ masterchainId := by
  refine .ite (fun _ => .error (refused _)) fun _ => ?_
  cases new_info with
  | none => exact .error (refused _)
  | some n =>
    refine .ite (fun _ => .error (refused _)) fun _ => .ite (fun _ => .error (refused _)) fun hwc => .ite (fun _ => .error (refused _)) fun _ => ?_
    rw [not_or] at hwc
    refine (check_shards_ends obs).bind ?_
    rintro ⟨before_split, before_merge⟩ hshards
    refine (check_start_blocks_ends obs 0 none).bind ?_
    rintro ⟨cc, ancestor⟩ ⟨odefs, hall, hfold⟩
    refine .ite (fun _ => .error (refused _)) fun hcc => .ite (fun _ => .error (refused _)) fun _ => .ok ?_
    replace hcc := not_not.1 hcc
    dsimp only at hshards hfold ⊢
    subst hfold
    refine ⟨n, rfl, ?_, ?_, hwc⟩
    · rw [Bool.not_not]
      cases hshards with
      | one hshard =>
        obtain _ | ⟨⟨hleaf, -, hfollows⟩, _ | _⟩ := hall
        have hseqno := hcc.symm.trans (std_max_zero _)
        cases hparent : (shard_full _).is_parent n.shard
        · rw [hparent] at hfollows
          exact .plain hleaf (hshard hparent) hfollows hseqno
        · rw [hparent] at hfollows
          exact .split hleaf hparent hfollows hseqno
      | two hsib hparent =>
        obtain _ | ⟨⟨hleaf1, -, hfollows1⟩, _ | ⟨⟨hleaf2, -, hfollows2⟩, _ | _⟩⟩ := hall
        have hnot := ShardIdFull.not_is_parent hparent
        rw [hnot] at hfollows1 hfollows2 ⊢
        have hseqno := hcc.symm
        rw [foldl_cons, foldl_cons, foldl_nil, std_max_zero] at hseqno
        exact .merge hleaf1 hleaf2 hsib hparent hfollows1 hfollows2 hseqno
    · intro ob hob
      obtain ⟨odef, hodef⟩ := passed_of_mem hall hob
      exact hodef.2.1

end ShardConfig

end Ton.Shard
