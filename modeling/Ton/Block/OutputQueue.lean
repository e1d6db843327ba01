import Ton.Dict.Traverse
import Ton.Shard.PrefixTree
/-!
# Merging the output queues of neighbours

`output-queue-merger.cpp`: the messages for one shard that lie in the output queues of its
neighbours, in the order of their logical times. A queue is an augmented dictionary in which each
node has the least time below it, so of the nodes only those are read whose turn has come.

The key of a message is its workchain, the next 64 bits of its address and its hash.
-/

namespace Ton.Block
open BigEndian CellTraits Dict LabelParser Shard List

/-- `MsgEnvelope::get_created_lt`, of the cell of an envelope. -/
abbrev GetCreatedLt := DataCell → Option LogicalTime

/-- `Aug_OutMsgQueue`. The time of a message is that in its envelope, the first reference of the value. -/
def aug_OutMsgQueue (get_created_lt : GetCreatedLt) : AugmentationData where
  skip_extra cs := if cs.have_bits 64 then some (cs.advance 64) else none
  eval_leaf cb cs := do
    let msg_env ← cs.prefetch_ref 0
    let created_lt ← get_created_lt msg_env
    cb.store_bits_bool (toBits 64 created_lt.toNat)
  eval_fork cb left_cs right_cs := do
    let x ← left_cs.prefetch_ulong 64
    let y ← right_cs.prefetch_ulong 64
    cb.store_bits_bool (toBits 64 (min x y))
  eval_empty cb := cb.store_bits_bool (toBits 64 0)

def max_key_len : Nat := 32 + 64 + 256

/-- A node of a queue. Of the key the first `key_len` bits are known. -/
structure MsgKeyValue where
  msg : Option CellSlice := none
  lt : Nat := 0
  source : Int := -1
  key : List Bool := []
  deriving Inhabited

namespace MsgKeyValue

def key_len (kv : MsgKeyValue) : Nat := kv.key.length

def is_fork (kv : MsgKeyValue) : Bool := kv.key_len < max_key_len

/-- `operator<`, with `bits_memcmp` of the hashes in the keys. -/
def less (kv other : MsgKeyValue) : Bool :=
  kv.lt < other.lt || (kv.lt == other.lt && ofBits ((kv.key.drop 96).take 256) < ofBits ((other.key.drop 96).take 256))

def invalidate (kv : MsgKeyValue) : Bool × MsgKeyValue := (false, { kv with msg := none, lt := 0, source := -1 })

def get_node_lt (node : Option DataCell) (key_pfx_len : Nat) : Except Exc Nat :=
  match node with
  | none => .ok (2 ^ 64 - 1)
  | some cell =>
    if key_pfx_len > max_key_len then .ok (2 ^ 64 - 1)
    else do
      let label ← LabelParser.parse cell (max_key_len - key_pfx_len) .chk_size
      .ok ((label.skip_label.remainder.prefetch_ulong 64).getD (2 ^ 64 - 1))

/-- The bits of `key_pfx` are those that the key starts with then. -/
def unpack_node (kv : MsgKeyValue) (key_pfx : List Bool) (node : Option DataCell) : Except Exc (Bool × MsgKeyValue) :=
  match node with
  | none => .ok kv.invalidate
  | some cell =>
    if key_pfx.length ≥ max_key_len then .ok kv.invalidate
    else do
      let label ← LabelParser.parse cell (max_key_len - key_pfx.length) .chk_size
      let (bits, label) := label.extract_label
      let kv := { kv with key := key_pfx ++ bits }
      match label.remainder.fetch_ulong 64 with
      | (none, _) => .ok kv.invalidate
      | (some lt, msg) =>
        if kv.is_fork ∧ ¬(msg.size = 0 ∧ msg.size_refs = 2) then .ok kv.invalidate
        else .ok (true, { kv with lt, msg := some msg })

def replace_with_child (kv : MsgKeyValue) (child_idx : Bool) : Except Exc (Bool × MsgKeyValue) :=
  match kv.msg with
  | none => .ok (false, kv)
  | some msg =>
    if !kv.is_fork ∨ ¬(msg.size = 0 ∧ msg.size_refs = 2) then .ok (false, kv)
    else kv.unpack_node (kv.key ++ [child_idx]) (msg.prefetch_ref child_idx.toNat)

/-- A node that was unpacked has the bits before its label. -/
theorem unpack_node_key {kv kv' : MsgKeyValue} {key_pfx : List Bool} {node : Option DataCell}
    (h : kv.unpack_node key_pfx node = .ok (true, kv')) : key_pfx <+: kv'.key ∧ key_pfx.length < max_key_len := by
  unfold unpack_node at h
  split at h
  · cases h
  · split at h
    · cases h
    · next hlen =>
      obtain ⟨label, -, h⟩ := Result.bind_ok.1 h
      dsimp only at h
      split at h
      · cases h
      · split at h
        · cases h
        · cases h
          exact ⟨prefix_append _ _, Nat.lt_of_not_le hlen⟩

/-- Goes down to the first node whose key has the bits of `req_pfx`, if there is one. -/
def replace_by_prefix (req_pfx : List Bool) (kv : MsgKeyValue) : Except Exc (Bool × MsgKeyValue) :=
  if req_pfx.take kv.key_len ≠ kv.key.take req_pfx.length then .ok (false, kv)
  else if kv.key_len ≥ req_pfx.length then .ok (true, kv)
  else match h : kv.replace_with_child (req_pfx.getD kv.key_len false) with
  | .error e => .error e
  | .ok (false, child) => .ok (false, child)
  | .ok (true, child) => replace_by_prefix req_pfx child
termination_by max_key_len - kv.key_len
decreasing_by
  unfold replace_with_child at h
  split at h
  · cases h
  · split at h
    · cases h
    · obtain ⟨hkey, hlen⟩ := unpack_node_key h
      have := hkey.length_le
      simp only [length_append, length_singleton, key_len] at *
      omega

/-- The node becomes the child that has its time, and the other child is the second result. -/
def split (kv : MsgKeyValue) : Except Exc (Bool × MsgKeyValue × MsgKeyValue) :=
  match kv.msg with
  | none => .ok (false, kv, {})
  | some msg =>
    if !kv.is_fork then .ok (false, kv, {})
    else do
      let left_lt ← get_node_lt (msg.prefetch_ref 0) (kv.key_len + 1)
      let sw := left_lt == kv.lt
      let (ok, second) ← unpack_node { source := kv.source } (kv.key ++ [sw]) (msg.prefetch_ref sw.toNat)
      if !ok then .ok (false, kv, second)
      else do
        let (ok, first) ← kv.unpack_node (kv.key ++ [!sw]) (msg.prefetch_ref (!sw).toNat)
        .ok (ok && first.lt == kv.lt && kv.lt ≤ second.lt, first, second)

theorem split_key {kv first second : MsgKeyValue} (h : kv.split = .ok (true, first, second)) :
    kv.key_len < first.key_len ∧ kv.key_len < second.key_len ∧ kv.key_len < max_key_len ∧ first.lt = kv.lt := by
  unfold split at h
  split at h
  · cases h
  · split at h
    · cases h
    · next msg hfork =>
      obtain ⟨left_lt, -, h⟩ := Result.bind_ok.1 h
      obtain ⟨⟨ok, second'⟩, hsecond, h⟩ := Result.bind_ok.1 h
      cases ok with
      | false => cases h
      | true =>
        obtain ⟨⟨ok, first'⟩, hfirst, h⟩ := Result.bind_ok.1 h
        cases ok with
        | false => cases h
        | true =>
          simp only [Except.ok.injEq, Prod.mk.injEq] at h
          obtain ⟨hok, rfl, rfl⟩ := h
          have h1 := (unpack_node_key hfirst).1.length_le
          have h2 := (unpack_node_key hsecond).1.length_le
          simp only [length_append, length_singleton] at h1 h2
          exact ⟨h1, h2, by simpa [is_fork] using hfork, by simpa using (Bool.and_eq_true_iff.1 hok).1⟩

end MsgKeyValue

/-- A heap under `greater`, as far as the times go: a node that was split stays at the front under another key. -/
def IsHeap (heap : List MsgKeyValue) : Prop :=
  ∀ i a b, 0 < i → heap[(i - 1) / 2]? = some a → heap[i]? = some b → a.lt ≤ b.lt

theorem IsHeap.least {top kv : MsgKeyValue} {rest : List MsgKeyValue} (h : IsHeap (top :: rest)) (hkv : kv ∈ top :: rest) : top.lt ≤ kv.lt := by
  obtain ⟨i, hi⟩ := mem_iff_getElem?.1 hkv
  induction i using Nat.strong_induction_on generalizing kv with
  | _ i ih =>
    rcases Nat.eq_zero_or_pos i with rfl | hpos
    · cases hi
      exact le_rfl
    · have hlen := (List.getElem?_eq_some_iff.1 hi).1
      have hparent : (i - 1) / 2 < (top :: rest).length := by omega
      have ha := getElem?_eq_getElem hparent
      exact (ih _ (by omega) (getElem_mem hparent) ha).trans (h i _ _ hpos ha hi)

theorem IsHeap.replace {top top' : MsgKeyValue} {rest : List MsgKeyValue} (h : IsHeap (top :: rest)) (hlt : top'.lt = top.lt) :
    IsHeap (top' :: rest) := by
  intro i a b hi ha hb
  obtain ⟨i, rfl⟩ := Nat.exists_eq_succ_of_ne_zero hi.ne'
  have hchild := fun a ha => h (i + 1) a b hi ha hb
  generalize (i + 1 - 1) / 2 = j at ha hchild
  cases j with
  | zero =>
    cases ha
    exact hlt ▸ hchild top rfl
  | succ j => exact hchild a ha

/-- `std::make_heap`, `std::push_heap` and `std::pop_heap`, the last one without the entry that it
moves to the end, and `std::sort` under `less`. -/
structure Algorithms where
  make_heap : List MsgKeyValue → List MsgKeyValue
  push_heap : List MsgKeyValue → List MsgKeyValue
  pop_heap : List MsgKeyValue → List MsgKeyValue
  sort : List MsgKeyValue → List MsgKeyValue
  make_perm : ∀ l, (make_heap l).Perm l
  push_perm : ∀ l, (push_heap l).Perm l
  pop_perm : ∀ top rest, (pop_heap (top :: rest)).Perm rest
  sort_perm : ∀ l, (sort l).Perm l
  make : ∀ l, IsHeap (make_heap l)
  push : ∀ l kv, IsHeap l → IsHeap (push_heap (l ++ [kv]))
  pop : ∀ top rest, IsHeap (top :: rest) → IsHeap (pop_heap (top :: rest))
  sorted : ∀ l, (sort l).Pairwise fun kv kv' => kv'.less kv = false

/-- Of `McShardDescr` what is used here. -/
structure McShardDescr where
  is_disabled : Bool
  outmsg_root : Option DataCell

structure OutputQueueMerger where
  msg_list : List MsgKeyValue := []
  heap : List MsgKeyValue := []
  pos : Nat := 0
  eof : Bool := false
  failed : Bool := false

namespace OutputQueueMerger

/-- Splitting a node makes the sum less, and so does taking one away. -/
def weight (heap : List MsgKeyValue) : Nat := (heap.map fun kv => 3 ^ (max_key_len + 1 - kv.key_len)).sum

theorem weight_perm {heap heap' : List MsgKeyValue} (h : heap.Perm heap') : weight heap = weight heap' := (h.map _).sum_eq

theorem weight_cons (kv : MsgKeyValue) (heap : List MsgKeyValue) : weight (kv :: heap) = 3 ^ (max_key_len + 1 - kv.key_len) + weight heap :=
  sum_cons

variable (A : Algorithms)

theorem weight_split {top first second : MsgKeyValue} (h : top.split = .ok (true, first, second)) (rest : List MsgKeyValue) :
    weight (A.push_heap (first :: rest ++ [second])) < weight (top :: rest) := by
  obtain ⟨h1, h2, h3, -⟩ := MsgKeyValue.split_key h
  have hpow : ∀ k, top.key_len < k → 3 ^ (max_key_len + 1 - k) ≤ 3 ^ (max_key_len - top.key_len) :=
    fun k hk => Nat.pow_le_pow_right (by decide) (by omega)
  have hone := hpow _ h1
  have htwo := hpow _ h2
  have hpos : 0 < 3 ^ (max_key_len - top.key_len) := Nat.pow_pos (by decide)
  rw [weight_perm (A.push_perm _), weight_perm (perm_append_singleton second (first :: rest)), weight_cons, weight_cons,
    weight_cons, show max_key_len + 1 - top.key_len = max_key_len - top.key_len + 1 by omega, pow_succ]
  omega

theorem weight_pop (top : MsgKeyValue) (rest : List MsgKeyValue) : weight (A.pop_heap (top :: rest)) < weight (top :: rest) := by
  have hpos : 0 < 3 ^ (max_key_len + 1 - top.key_len) := Nat.pow_pos (by decide)
  rw [weight_perm (A.pop_perm top rest), weight_cons]
  omega

/-- The loops of `load`: a fork at the front is split, a message is added to those of this call,
until the times are above `lt`. The first result is false when a split failed. -/
def load_loop (lt : Nat) (heap added : List MsgKeyValue) : Except Exc (Bool × List MsgKeyValue × List MsgKeyValue) :=
  match heap with
  | [] => .ok (true, [], added)
  | top :: rest =>
    if top.is_fork then
      match h : top.split with
      | .error e => .error e
      | .ok (false, first, _) => .ok (false, first :: rest, added)
      | .ok (true, first, second) => load_loop lt (A.push_heap (first :: rest ++ [second])) added
    else if top.lt ≠ lt then .error .check
    else match h : A.pop_heap (top :: rest) with
    | [] => .ok (true, [], added ++ [top])
    | next :: others => if next.lt ≤ lt then load_loop lt (next :: others) (added ++ [top]) else .ok (true, next :: others, added ++ [top])
termination_by weight heap
decreasing_by
  · exact weight_split A h rest
  · exact h ▸ weight_pop A top rest

def load (m : OutputQueueMerger) : Except Exc (Bool × OutputQueueMerger) :=
  match m.heap with
  | [] => .ok (false, m)
  | top :: _ =>
    if m.failed then .ok (false, m)
    else do
      let (ok, heap, added) ← load_loop A top.lt m.heap []
      if !ok then .ok (false, { m with heap, msg_list := m.msg_list ++ added, failed := true })
      else .ok (true, { m with heap, msg_list := m.msg_list ++ A.sort added })

def common_pfx (queue_for : ShardIdFull) : List Bool :=
  toBits 32 (queue_for.workchain.toNat) ++ (toBits 64 queue_for.shard.toNat).take (shard_prefix_length queue_for.shard)

def add_root (common_pfx : List Bool) (src : Int) (outmsg_root : Option DataCell) (heap : List MsgKeyValue) : Except Exc (List MsgKeyValue) :=
  match outmsg_root with
  | none => .ok heap
  | some outmsg_root => do
    let (_, kv) ← MsgKeyValue.unpack_node { source := src } [] (some outmsg_root)
    let (found, kv) ← kv.replace_by_prefix common_pfx
    .ok (if found then heap ++ [kv] else heap)

/-- The loop of `init`, from the `i`-th neighbour on. -/
def add_roots (common_pfx : List Bool) : Nat → List McShardDescr → List MsgKeyValue → Except Exc (List MsgKeyValue)
  | _, [], heap => .ok heap
  | i, neighbor :: neighbors, heap =>
    (if neighbor.is_disabled then .ok heap else add_root common_pfx i neighbor.outmsg_root heap) >>= add_roots common_pfx (i + 1) neighbors

def init (queue_for : ShardIdFull) (neighbors : List McShardDescr) : Except Exc OutputQueueMerger := do
  let heap ← add_roots (common_pfx queue_for) 0 neighbors []
  let m : OutputQueueMerger := { heap := A.make_heap heap, eof := heap.isEmpty }
  if m.eof then .ok m else Prod.snd <$> m.load A

def cur (m : OutputQueueMerger) : Option MsgKeyValue := if m.eof then none else m.msg_list[m.pos]?

def next (m : OutputQueueMerger) : Except Exc (Bool × OutputQueueMerger) :=
  if m.eof then .ok (false, m)
  else do
    let m := { m with pos := m.pos + 1 }
    if m.pos < m.msg_list.length then .ok (true, m)
    else do
      let (ok, m) ← m.load A
      .ok (ok, { m with eof := !ok })

end OutputQueueMerger

end Ton.Block
