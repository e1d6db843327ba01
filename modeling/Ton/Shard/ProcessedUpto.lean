import Mathlib.Data.List.Pairwise
import Mathlib.Data.List.Sort
import Ton.Lib.Subsume
import Ton.Shard.PrefixTree
/-!
# What was processed

`MsgProcessedUptoCollection` of `block.cpp`: up to which logical time the messages to some
shards have been imported, by the masterchain block that was known then. One entry contains
another whose shard is under its own and that is not later.

A hash is a number: the bytes are compared from the first on.
-/

namespace Ton.Shard
open List
open BitVec (le_def lt_def toNat_inj)

def ShardIdFull.is_ancestor (parent child : ShardIdFull) : Bool :=
  parent.workchain == child.workchain && shard_is_ancestor parent.shard child.shard

/-- What is read of a message in the queue. -/
structure EnqueuedMsgDescr where
  cur_prefix : AccountIdPrefixFull
  next_prefix : AccountIdPrefixFull
  lt : LogicalTime
  enqueued_lt : LogicalTime
  hash : BitVec 256

def EnqueuedMsgDescr.same_workchain (msg : EnqueuedMsgDescr) : Bool := msg.cur_prefix.workchain == msg.next_prefix.workchain

/-- The function is set later, when it is. -/
structure MsgProcessedUpto where
  shard : ShardId
  mc_seqno : BlockSeqno
  last_inmsg_lt : LogicalTime
  last_inmsg_hash : BitVec 256
  compute_shard_end_lt : Option (AccountIdPrefixFull → LogicalTime) := none

namespace MsgProcessedUpto

/-- `operator<`. -/
def lt (z other : MsgProcessedUpto) : Bool := z.shard < other.shard || z.shard == other.shard && z.mc_seqno < other.mc_seqno

def contains_at (z : MsgProcessedUpto) (other_shard : ShardId) (other_lt : LogicalTime) (other_hash : BitVec 256)
    (other_mc_seqno : BlockSeqno) : Bool :=
  shard_is_ancestor z.shard other_shard && z.mc_seqno ≥ other_mc_seqno &&
    (z.last_inmsg_lt > other_lt || z.last_inmsg_lt == other_lt && !(z.last_inmsg_hash < other_hash))

def contains (z other : MsgProcessedUpto) : Bool :=
  shard_is_ancestor z.shard other.shard && z.mc_seqno ≥ other.mc_seqno &&
    (z.last_inmsg_lt > other.last_inmsg_lt ||
      z.last_inmsg_lt == other.last_inmsg_lt && !(z.last_inmsg_hash < other.last_inmsg_hash))

/-- `none` where the function is called and was not set. -/
def already_processed (z : MsgProcessedUpto) (msg : EnqueuedMsgDescr) : Option Bool :=
  if msg.lt > z.last_inmsg_lt then some false
  else if !shard_contains z.shard msg.next_prefix.account_id_prefix then some false
  else if msg.lt = z.last_inmsg_lt ∧ z.last_inmsg_hash < msg.hash then some false
  -- what comes from the same shard may have been processed before the masterchain knew it
  else if msg.same_workchain && shard_contains z.shard msg.cur_prefix.account_id_prefix then some true
  else z.compute_shard_end_lt.map fun f => msg.enqueued_lt < f msg.cur_prefix

/-- The entry as it is stored. -/
def stored (z : MsgProcessedUpto) : MsgProcessedUpto := { z with compute_shard_end_lt := none }

end MsgProcessedUpto

open MsgProcessedUpto

structure MsgProcessedUptoCollection where
  owner : ShardIdFull
  valid : Bool := false
  list : List MsgProcessedUpto := []

/-- `std::sort` of the entries: in order, where those of one shard and one block may come in any order. -/
structure StdSort where
  sort : List MsgProcessedUpto → List MsgProcessedUpto
  perm : ∀ l, (sort l).Perm l
  sorted : ∀ l, (sort l).Pairwise fun x y => y.lt x = false

namespace MsgProcessedUptoCollection

def insert (c : MsgProcessedUptoCollection) (mc_seqno : BlockSeqno) (last_proc_lt : LogicalTime) (last_proc_hash : BitVec 256) :
    Bool × MsgProcessedUptoCollection :=
  if last_proc_lt = 0 then (false, c)
  else if c.list.any (·.contains_at c.owner.shard last_proc_lt last_proc_hash mc_seqno) then (true, c)
  else (true, { c with list := c.list ++ [{ shard := c.owner.shard, mc_seqno, last_inmsg_lt := last_proc_lt, last_inmsg_hash := last_proc_hash }] })

def reduced_list : List MsgProcessedUpto → Bool
  | [] => true
  | z :: rest => rest.all (fun w => !(z.contains w || w.contains z)) && reduced_list rest

def is_reduced (c : MsgProcessedUptoCollection) : Bool := c.valid && reduced_list c.list

def contains (c : MsgProcessedUptoCollection) (p_upto : MsgProcessedUpto) : Bool := c.list.any (·.contains p_upto)

def contains_all (c other : MsgProcessedUptoCollection) : Bool := other.list.all (c.contains ·)

/-- The loop over the entries: `ok` and what is returned. -/
def find_update (other : MsgProcessedUptoCollection) : List MsgProcessedUpto → Option MsgProcessedUpto → Bool × Option MsgProcessedUpto
  | [], found => (true, found)
  | z :: rest, found =>
    if !other.contains z then (if found.isSome then (false, found) else find_update other rest (some z))
    else find_update other rest found

def is_simple_update_of (c other : MsgProcessedUptoCollection) : Bool × Option MsgProcessedUpto :=
  if !c.contains_all other then (false, none)
  else if other.contains_all c then (true, none)
  else find_update other c.list none

/-- It always returns true. -/
def compactify (S : StdSort) (c : MsgProcessedUptoCollection) : MsgProcessedUptoCollection :=
  { c with list := Subsume.reduce MsgProcessedUpto.contains (S.sort c.list) }

def split (S : StdSort) (c : MsgProcessedUptoCollection) (new_owner : ShardIdFull) : Bool × MsgProcessedUptoCollection :=
  if !c.owner.is_ancestor new_owner then (false, c)
  else if c.owner = new_owner then (true, c)
  else
    let kept := c.list.filter fun z => shard_intersects z.shard new_owner.shard
    let list := kept.map fun z => { z with shard := shard_intersection z.shard new_owner.shard }
    (true, compactify S { c with list, owner := new_owner })

def combine_with (S : StdSort) (c other : MsgProcessedUptoCollection) : Bool × MsgProcessedUptoCollection :=
  if !(other.owner = c.owner || other.owner.is_sibling c.owner) then (false, c)
  else
    let owner := if c.owner ≠ other.owner then c.owner.parent else c.owner
    (true, compactify S { c with list := c.list ++ other.list, owner })

/-- `none` where an entry has no function and is asked for it. -/
def already_processed_list (msg : EnqueuedMsgDescr) : List MsgProcessedUpto → Option Bool
  | [] => some false
  | rec :: rest =>
    match rec.already_processed msg with
    | none => none
    | some true => some true
    | some false => already_processed_list msg rest

def already_processed (c : MsgProcessedUptoCollection) (msg : EnqueuedMsgDescr) : Option Bool :=
  if !c.owner.contains msg.next_prefix then some false else already_processed_list msg c.list

/-- Every entry has a shard, and one that the owner contains. -/
def Owned (c : MsgProcessedUptoCollection) : Prop :=
  c.owner.shard ≠ 0 ∧ ∀ z ∈ c.list, z.shard ≠ 0 ∧ shard_contains c.owner.shard z.shard = true

end MsgProcessedUptoCollection

/-! ## One entry and another -/

section
variable {x y s p : ShardId}

theorem lower_le_iff_ctz (hx : x ≠ 0) (hy : y ≠ 0) : lower_bit64 x ≤ lower_bit64 y ↔ x.ctz.toNat ≤ y.ctz.toNat := by
  rw [le_def, lower_bit64_toNat hx, lower_bit64_toNat hy]
  exact Nat.pow_le_pow_iff_right (by decide)

theorem is_ancestor_eq (x y : ShardId) : shard_is_ancestor x y = (decide (lower_bit64 y ≤ lower_bit64 x) && shard_contains x y) := rfl

theorem is_ancestor_refl (x : ShardId) : shard_is_ancestor x x = true := by
  rw [is_ancestor_eq]
  simp [shard_contains]

/-- Under an ancestor there is all that is under its descendants. -/
theorem contains_of_ancestor (hx : x ≠ 0) (hy : y ≠ 0) (h : shard_is_ancestor x y = true) (hp : shard_contains y p = true) :
    shard_contains x p = true := by
  rw [is_ancestor_eq, Bool.and_eq_true, decide_eq_true_eq, lower_le_iff_ctz hy hx, shard_contains_iff hx] at h
  rw [shard_contains_iff hy] at hp
  rw [shard_contains_iff hx]
  intro j hj
  rw [h.2 j hj, hp j (by omega)]

theorem eq_zero_of_ancestor (h : shard_is_ancestor 0 y = true) : y = 0 := by
  by_contra hy
  rw [is_ancestor_eq, Bool.and_eq_true, decide_eq_true_eq, le_def, lower_bit64_toNat hy] at h
  exact absurd h.1 (Nat.not_le.2 (Nat.two_pow_pos _))

theorem is_ancestor_trans (h : shard_is_ancestor x y = true) (hp : shard_is_ancestor y p = true) : shard_is_ancestor x p = true := by
  by_cases hx : x = 0
  · subst hx
    obtain rfl := eq_zero_of_ancestor h
    exact hp
  by_cases hy : y = 0
  · subst hy
    obtain rfl := eq_zero_of_ancestor hp
    exact h
  rw [is_ancestor_eq, Bool.and_eq_true, decide_eq_true_eq] at hp
  have hc := contains_of_ancestor hx hy h hp.2
  rw [is_ancestor_eq, Bool.and_eq_true, decide_eq_true_eq] at h ⊢
  exact ⟨BitVec.le_trans hp.1 h.1, hc⟩

end

namespace MsgProcessedUpto

section
variable {w z p : MsgProcessedUpto} {msg : EnqueuedMsgDescr}

theorem contains_iff : z.contains p = true ↔ shard_is_ancestor z.shard p.shard = true ∧ p.mc_seqno ≤ z.mc_seqno ∧
    (p.last_inmsg_lt < z.last_inmsg_lt ∨ z.last_inmsg_lt = p.last_inmsg_lt ∧ p.last_inmsg_hash ≤ z.last_inmsg_hash) := by
  simp [contains, and_assoc, BitVec.not_lt]

theorem contains_refl (z : MsgProcessedUpto) : z.contains z = true :=
  contains_iff.2 ⟨is_ancestor_refl _, BitVec.le_refl _, .inr ⟨rfl, BitVec.le_refl _⟩⟩

theorem contains_trans (h : w.contains z = true) (h' : z.contains p = true) : w.contains p = true := by
  rw [contains_iff] at h h' ⊢
  obtain ⟨h1, h2, h3⟩ := h
  obtain ⟨g1, g2, g3⟩ := h'
  refine ⟨is_ancestor_trans h1 g1, BitVec.le_trans g2 h2, ?_⟩
  simp only [lt_def, le_def, ← toNat_inj] at h3 g3 ⊢
  omega

/-- Of two entries for one shard and one block, one contains the other. -/
theorem contains_or (hs : w.shard = z.shard) (hm : w.mc_seqno = z.mc_seqno) : w.contains z = true ∨ z.contains w = true := by
  rw [contains_iff, contains_iff, hs, hm]
  simp only [is_ancestor_refl, BitVec.le_refl, true_and, lt_def, le_def, ← toNat_inj]
  omega

/-- A later block knows later ends of the shards. -/
def Monotone (l : List MsgProcessedUpto) : Prop :=
  ∀ z ∈ l, ∀ w ∈ l, ∃ f g, z.compute_shard_end_lt = some f ∧ w.compute_shard_end_lt = some g ∧
    (z.mc_seqno ≤ w.mc_seqno → ∀ a, f a ≤ g a)

theorem already_processed_true : z.already_processed msg = some true ↔ msg.lt ≤ z.last_inmsg_lt ∧
    shard_contains z.shard msg.next_prefix.account_id_prefix = true ∧ (msg.lt = z.last_inmsg_lt → msg.hash ≤ z.last_inmsg_hash) ∧
    (msg.same_workchain = true ∧ shard_contains z.shard msg.cur_prefix.account_id_prefix = true ∨
      ∃ f, z.compute_shard_end_lt = some f ∧ msg.enqueued_lt < f msg.cur_prefix) := by
  unfold already_processed
  by_cases h1 : msg.lt > z.last_inmsg_lt
  · rw [if_pos h1]
    exact iff_of_false (by simp) fun h => absurd h.1 (BitVec.not_le.2 h1)
  by_cases h2 : shard_contains z.shard msg.next_prefix.account_id_prefix = true
  swap
  · rw [if_neg h1, if_pos (by simpa using h2)]
    exact iff_of_false (by simp) fun h => h2 h.2.1
  by_cases h3 : msg.lt = z.last_inmsg_lt ∧ z.last_inmsg_hash < msg.hash
  · rw [if_neg h1, if_neg (by simpa using h2), if_pos h3]
    exact iff_of_false (by simp) fun h => absurd (h.2.2.1 h3.1) (BitVec.not_le.2 h3.2)
  have h3' : msg.lt = z.last_inmsg_lt → msg.hash ≤ z.last_inmsg_hash := fun heq => BitVec.not_lt.1 fun hlt => h3 ⟨heq, hlt⟩
  rw [if_neg h1, if_neg (by simpa using h2), if_neg h3, and_iff_right (BitVec.not_lt.1 h1), and_iff_right h2, and_iff_right h3']
  by_cases h4 : msg.same_workchain = true ∧ shard_contains z.shard msg.cur_prefix.account_id_prefix = true
  · rw [if_pos (by simpa using h4)]
    exact iff_of_true rfl (.inl h4)
  · rw [if_neg (by simpa using h4), or_iff_right h4, Option.map_eq_some_iff]
    simp

theorem already_processed_of_contains {f g : AccountIdPrefixFull → LogicalTime} (hw : w.shard ≠ 0) (hz : z.shard ≠ 0)
    (h : w.contains z = true) (hf : z.compute_shard_end_lt = some f) (hg : w.compute_shard_end_lt = some g)
    (hmono : z.mc_seqno ≤ w.mc_seqno → ∀ a, f a ≤ g a) (hp : z.already_processed msg = some true) :
    w.already_processed msg = some true := by
  obtain ⟨h1, h2, h3⟩ := contains_iff.1 h
  obtain ⟨g1, g2, g3, g4⟩ := already_processed_true.1 hp
  rw [already_processed_true]
  refine ⟨?_, contains_of_ancestor hw hz h1 g2, ?_, ?_⟩
  · simp only [lt_def, le_def, ← toNat_inj] at h3 g1 ⊢
    omega
  · simp only [lt_def, le_def, ← toNat_inj] at h3 g1 g3 ⊢
    omega
  · rcases g4 with ⟨hsame, hc⟩ | ⟨f', hf', hlt⟩
    · exact .inl ⟨hsame, contains_of_ancestor hw hz h1 hc⟩
    · rw [hf] at hf'
      cases hf'
      refine .inr ⟨g, hg, ?_⟩
      exact lt_def.2 (lt_of_lt_of_le (lt_def.1 hlt) (le_def.1 (hmono h2 _)))

end

end MsgProcessedUpto

/-! ## Collections -/

namespace MsgProcessedUptoCollection

section
variable {S : StdSort} {c other : MsgProcessedUptoCollection} {p z : MsgProcessedUpto} {l : List MsgProcessedUpto}

theorem contains_iff : c.contains p = true ↔ ∃ z ∈ c.list, z.contains p = true := by
  rw [contains, any_eq_true]

theorem mem_of_mem_compactify (h : z ∈ (c.compactify S).list) : z ∈ c.list :=
  (S.perm c.list).mem_iff.1 (Subsume.reduce_sublist.subset h)

theorem Owned.compactify (h : c.Owned) (S : StdSort) : (c.compactify S).Owned :=
  ⟨h.1, fun z hz => h.2 z (mem_of_mem_compactify hz)⟩

theorem exists_kept (S : StdSort) (hz : z ∈ c.list) : ∃ w ∈ (c.compactify S).list, w.contains z = true := by
  apply Subsume.exists_reduce_covers
  · exact fun x _ => contains_refl x
  · exact fun x _ y _ z _ h1 h2 => contains_trans h1 h2
  · exact (S.perm c.list).mem_iff.2 hz

theorem compactify_contains (S : StdSort) (c : MsgProcessedUptoCollection) (p : MsgProcessedUpto) : (c.compactify S).contains p = c.contains p := by
  rw [Bool.eq_iff_iff, contains_iff, contains_iff]
  constructor
  · rintro ⟨z, hz, hp⟩
    exact ⟨z, mem_of_mem_compactify hz, hp⟩
  · rintro ⟨z, hz, hp⟩
    obtain ⟨w, hw, hc⟩ := exists_kept S hz
    exact ⟨w, hw, contains_trans hc hp⟩

theorem reduced_list_iff : reduced_list l = true ↔ l.Pairwise (Subsume.Apart MsgProcessedUpto.contains) := by
  induction l with
  | nil => simp [reduced_list]
  | cons z l ih => simp [reduced_list, ih, Subsume.Apart]

theorem compactify_reduced (c : MsgProcessedUptoCollection) : reduced_list (c.compactify S).list = true :=
  reduced_list_iff.2 Subsume.reduce_apart

variable {x y : MsgProcessedUpto}

theorem key_of_apart (h : Subsume.Apart MsgProcessedUpto.contains x y) (hs : x.shard = y.shard) :
    x.mc_seqno ≠ y.mc_seqno := by
  intro hm
  rcases contains_or hs hm with hc | hc
  · rw [h.1] at hc
    cases hc
  · rw [h.2] at hc
    cases hc

theorem eq_of_key (h : l.Pairwise (Subsume.Apart MsgProcessedUpto.contains)) (hx : x ∈ l) (hy : y ∈ l)
    (hs : x.shard = y.shard) (hm : x.mc_seqno = y.mc_seqno) : x = y := by
  by_contra hne
  have : Std.Symm (Subsume.Apart MsgProcessedUpto.contains) := ⟨fun _ _ h => ⟨h.2, h.1⟩⟩
  exact key_of_apart (h.forall hx hy hne) hs hm

theorem key_of_not_lt (h : x.lt y = false) (h' : y.lt x = false) : x.shard = y.shard ∧ x.mc_seqno = y.mc_seqno := by
  simp only [lt, Bool.or_eq_false_iff, Bool.and_eq_false_iff, decide_eq_false_iff_not, beq_eq_false_iff_ne, ne_eq, lt_def,
    ← toNat_inj] at h h' ⊢
  omega

theorem compactify_idem (S : StdSort) (c : MsgProcessedUptoCollection) : (c.compactify S).compactify S = c.compactify S := by
  have hapart : (c.compactify S).list.Pairwise (Subsume.Apart MsgProcessedUpto.contains) := Subsume.reduce_apart
  -- the list that is kept is in order, and no two of its entries compare equal
  have hsort : S.sort (c.compactify S).list = (c.compactify S).list := by
    have hperm := S.perm (c.compactify S).list
    refine Perm.eq_of_pairwise ?_ (S.sorted _) ((S.sorted c.list).sublist Subsume.reduce_sublist) hperm
    intro x y hx hy h1 h2
    obtain ⟨hs, hm⟩ := key_of_not_lt h2 h1
    exact eq_of_key hapart (hperm.mem_iff.1 hx) hy hs hm
  have hlist : ((c.compactify S).compactify S).list = (c.compactify S).list := by
    show Subsume.reduce _ (S.sort (c.compactify S).list) = _
    rw [hsort, Subsume.reduce_of_apart hapart]
  rw [compactify, compactify] at *
  simpa using hlist

theorem Owned.insert (h : c.Owned) (mc_seqno : BlockSeqno) (lt : LogicalTime) (hash : BitVec 256) : (c.insert mc_seqno lt hash).2.Owned := by
  unfold MsgProcessedUptoCollection.insert
  split
  · exact h
  · split
    · exact h
    · refine ⟨h.1, fun z hz => ?_⟩
      rcases mem_append.1 hz with hz | hz
      · exact h.2 z hz
      · rw [mem_singleton.1 hz]
        exact ⟨h.1, by simp [shard_contains]⟩

theorem insert_contains (c : MsgProcessedUptoCollection) (mc_seqno : BlockSeqno) {lt : LogicalTime} (hash : BitVec 256) (hlt : lt ≠ 0)
    (p : MsgProcessedUpto) : (c.insert mc_seqno lt hash).1 = true ∧
      (c.insert mc_seqno lt hash).2.contains p = (c.contains p || (MsgProcessedUpto.mk c.owner.shard mc_seqno lt hash none).contains p) := by
  unfold MsgProcessedUptoCollection.insert
  rw [if_neg hlt]
  split
  · next hany =>
    refine ⟨rfl, ?_⟩
    obtain ⟨z, hz, hc⟩ := any_eq_true.1 hany
    have hc : z.contains (MsgProcessedUpto.mk c.owner.shard mc_seqno lt hash none) = true := hc
    dsimp only
    rw [Bool.eq_iff_iff, Bool.or_eq_true]
    refine ⟨.inl, fun hp => hp.elim id fun hp => ?_⟩
    exact contains_iff.2 ⟨z, hz, contains_trans hc hp⟩
  · refine ⟨rfl, ?_⟩
    simp [contains]

/-! ## Updates -/

/-- The entries that the other collection does not cover. -/
def new_entries (c other : MsgProcessedUptoCollection) : List MsgProcessedUpto := c.list.filter fun z => !other.contains z

theorem find_update_some (l : List MsgProcessedUpto) (x : MsgProcessedUpto) :
    find_update other l (some x) = ((l.filter fun z => !other.contains z).isEmpty, some x) := by
  induction l with
  | nil => rfl
  | cons z l ih =>
    rw [find_update]
    by_cases hz : other.contains z = true
    · simp [hz, ih]
    · simp [hz]

theorem find_update_none (l : List MsgProcessedUpto) : find_update other l none =
    (decide ((l.filter fun z => !other.contains z).length ≤ 1), (l.filter fun z => !other.contains z).head?) := by
  induction l with
  | nil => rfl
  | cons z l ih =>
    rw [find_update]
    by_cases hz : other.contains z = true
    · simp [hz, ih]
    · simp only [hz, find_update_some, Bool.not_false, Bool.false_eq_true, filter_cons, if_true, length_cons, head?_cons,
        Option.isSome_none, if_false, Prod.mk.injEq, and_true]
      cases l.filter fun z => !other.contains z <;> simp

theorem is_simple_update (c other : MsgProcessedUptoCollection) :
    ((c.is_simple_update_of other).1 = true ↔ c.contains_all other = true ∧ (new_entries c other).length ≤ 1) ∧
      ((c.is_simple_update_of other).1 = true → (c.is_simple_update_of other).2 = (new_entries c other).head?) := by
  have hnone : other.contains_all c = true ↔ new_entries c other = [] := by
    simp [contains_all, new_entries, filter_eq_nil_iff]
  unfold is_simple_update_of
  by_cases hc : c.contains_all other = true
  · by_cases ho : other.contains_all c = true
    · simp [hc, ho, hnone.1 ho]
    · simp [hc, ho, find_update_none, new_entries]
  · simp [hc]

/-! ## Messages -/

theorem already_processed_list_eq {msg : EnqueuedMsgDescr} (h : ∀ z ∈ l, ∃ f, z.compute_shard_end_lt = some f) :
    already_processed_list msg l = some (l.any fun z => z.already_processed msg == some true) := by
  induction l with
  | nil => rfl
  | cons z l ih =>
    obtain ⟨⟨f, hf⟩, hl⟩ := forall_mem_cons.1 h
    have hz : ∃ b, z.already_processed msg = some b := by
      unfold MsgProcessedUpto.already_processed
      rw [hf]
      split_ifs <;> exact ⟨_, rfl⟩
    obtain ⟨b, hb⟩ := hz
    rw [already_processed_list, hb, any_cons, hb]
    cases b with
    | true => rfl
    | false => simp [ih hl]

theorem Owned.compactify_processed (h : c.Owned) (S : StdSort) (hm : Monotone c.list) (msg : EnqueuedMsgDescr) :
    (c.compactify S).already_processed msg = c.already_processed msg := by
  have hset : ∀ z ∈ c.list, ∃ f, z.compute_shard_end_lt = some f := fun z hz => by
    obtain ⟨f, -, hf, -⟩ := hm z hz z hz
    exact ⟨f, hf⟩
  unfold already_processed
  rw [already_processed_list_eq hset, already_processed_list_eq fun z hz => hset z (mem_of_mem_compactify hz)]
  congr 2
  rw [Bool.eq_iff_iff, any_eq_true, any_eq_true]
  simp only [beq_iff_eq]
  constructor
  · rintro ⟨z, hz, hp⟩
    exact ⟨z, mem_of_mem_compactify hz, hp⟩
  · rintro ⟨z, hz, hp⟩
    obtain ⟨w, hw, hc⟩ := exists_kept S hz
    have hw' := mem_of_mem_compactify hw
    obtain ⟨f, g, hf, hg, hmono⟩ := hm z hz w hw'
    exact ⟨w, hw, already_processed_of_contains (h.2 w hw').1 (h.2 z hz).1 hc hf hg hmono hp⟩

/-! ## Collections are owned -/

theorem intersection_owned {x y : ShardId} (hx : x ≠ 0) (hy : y ≠ 0) (h : shard_intersects x y = true) :
    shard_intersection x y ≠ 0 ∧ shard_contains y (shard_intersection x y) = true := by
  obtain ⟨a, rfl⟩ := exists_prefix hx
  obtain ⟨b, rfl⟩ := exists_prefix hy
  rw [Prefix.intersects_iff] at h
  rw [Prefix.shard_intersection_word]
  split
  · next hlt =>
    refine ⟨a.word_ne_zero, (Prefix.contains_iff hlt.le).2 ?_⟩
    exact h.resolve_left fun hp => absurd hp.length_le (by omega)
  · exact ⟨b.word_ne_zero, by simp [shard_contains]⟩

theorem Owned.split (h : c.Owned) (S : StdSort) {new_owner : ShardIdFull} (hn : new_owner.shard ≠ 0) : (c.split S new_owner).2.Owned := by
  unfold MsgProcessedUptoCollection.split
  split
  · exact h
  · split
    · exact h
    · apply Owned.compactify
      refine ⟨hn, fun z hz => ?_⟩
      obtain ⟨w, hw, rfl⟩ := mem_map.1 hz
      obtain ⟨hw, hi⟩ := mem_filter.1 hw
      exact intersection_owned (h.2 w hw).1 hn hi

theorem parent_of_sibling {x y : ShardId} (hx : x ≠ 0) (hy : y ≠ 0) (h : shard_is_sibling x y = true) :
    shard_parent y ≠ 0 ∧ shard_is_ancestor (shard_parent y) x = true ∧ shard_is_ancestor (shard_parent y) y = true := by
  obtain ⟨a, rfl⟩ := exists_prefix hx
  obtain ⟨b, rfl⟩ := exists_prefix hy
  obtain ⟨r, hr, e, rfl, rfl⟩ := Prefix.sibling_iff.1 h
  rw [Prefix.shard_parent_word]
  exact ⟨r.word_ne_zero, Prefix.ancestor_iff.2 (prefix_append _ _), Prefix.ancestor_iff.2 (prefix_append _ _)⟩

theorem Owned.combine_with (h : c.Owned) (ho : other.Owned) (S : StdSort) : (c.combine_with S other).2.Owned := by
  unfold MsgProcessedUptoCollection.combine_with
  split
  · exact h
  next hs =>
  apply Owned.compactify
  by_cases heq : c.owner = other.owner
  · rw [if_neg (not_not.2 heq)]
    refine ⟨h.1, fun z hz => ?_⟩
    rcases mem_append.1 hz with hz | hz
    · exact h.2 z hz
    · rw [heq]
      exact ho.2 z hz
  · rw [if_pos heq]
    have hsib : shard_is_sibling other.owner.shard c.owner.shard = true := by
      simp only [Bool.not_eq_true', Bool.or_eq_false_iff, decide_eq_false_iff_not, not_and, Bool.not_eq_false] at hs
      have := hs fun h => heq h.symm
      simp only [ShardIdFull.is_sibling, Bool.and_eq_true] at this
      exact this.2
    -- the parent is the owner of both halves
    obtain ⟨h0, h1, h2⟩ := parent_of_sibling ho.1 h.1 hsib
    refine ⟨h0, fun z hz => ?_⟩
    rcases mem_append.1 hz with hz | hz
    · exact ⟨(h.2 z hz).1, contains_of_ancestor h0 h.1 h2 (h.2 z hz).2⟩
    · exact ⟨(ho.2 z hz).1, contains_of_ancestor h0 ho.1 h1 (ho.2 z hz).2⟩

end

end MsgProcessedUptoCollection

end Ton.Shard
