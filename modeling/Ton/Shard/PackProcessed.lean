import Ton.Dict.Adding
import Ton.Dict.Foreach
import Ton.Shard.ProcessedUpto
/-!
# What was processed, as a dictionary

`MsgProcessedUptoCollection::pack` writes an entry under its shard and block, and `unpack`
reads the entries back. The collections are those that the code makes.
-/

namespace Ton.Shard
open Dict Result BigEndian CellTraits BitMap MsgProcessedUpto List Function

namespace MsgProcessedUptoCollection

@[irreducible] def entry_key (z : MsgProcessedUpto) : List Bool := toBits 64 z.shard.toNat ++ toBits 32 z.mc_seqno.toNat

/-- One round of the loop of `pack`, `none` where it returns false. -/
def pack_entry (dict : Dictionary) (z : MsgProcessedUpto) : Except Exc (Option Dictionary) :=
  match (({} : CellBuilder).store_bits_bool (toBits 64 z.last_inmsg_lt.toNat)).bind
      (·.store_bits_bool (toBits 256 z.last_inmsg_hash.toNat)) with
  | none => .ok none
  | some cb2 => do
    let (dict, added) ← dict.set_builder (entry_key z) cb2 .Add
    .ok (if added then some dict else none)

def pack_entries : Dictionary → List MsgProcessedUpto → Except Exc (Option Dictionary)
  | dict, [] => .ok (some dict)
  | dict, z :: rest => do
    match ← pack_entry dict z with
    | none => .ok none
    | some dict => pack_entries dict rest

/-- `append_dict_to_bool`. -/
def append_dict (dict : Dictionary) (cb : CellBuilder) : Option CellBuilder :=
  match dict.root_cell with
  | none => cb.store_bits_bool [false]
  | some c => (cb.store_bits_bool [true]).bind (·.store_ref_bool c)

def pack (S : StdSort) (c : MsgProcessedUptoCollection) (cb : CellBuilder) : Except Exc (Option CellBuilder) := do
  match ← pack_entries { key_bits := 96 } (c.compactify S).list with
  | none => .ok none
  | some dict => .ok (append_dict dict cb)

/-- The dictionary that a slice with a bit, and with a reference if it is set, holds. -/
def read_dict (root : CellSlice) (n : Nat) : Except Exc Dictionary :=
  match root.bits, root.refs with
  | [false], [] => .ok { key_bits := n }
  | [true], [c] => .ok { root_cell := some c, key_bits := n }
  | _, _ => .error (.vm .dict_err "invalid dictionary")

def read_entry (value : CellSlice) (key : List Bool) : MsgProcessedUpto where
  shard := BitVec.ofNat 64 (ofBits (key.take 64))
  mc_seqno := BitVec.ofNat 32 (ofBits ((key.drop 64).take 32))
  last_inmsg_lt := BitVec.ofNat 64 (ofBits (value.bits.take 64))
  last_inmsg_hash := BitVec.ofNat 256 (ofBits ((value.bits.drop 64).take 256))

/-- What the constructor does with an entry. -/
def unpack_entry (owner : ShardIdFull) : ForeachStep (List MsgProcessedUpto) := fun value key list =>
  if value.bits.length + value.refs.length * 2 ^ 16 ≠ 64 + 256 then (false, list)
  else
    -- the entry is in the list before it is checked
    let z := read_entry value key
    (z.shard != 0 && shard_contains owner.shard z.shard, list ++ [z])

def unpack (owner : ShardIdFull) (cs_ref : CellSlice) : Except Exc (Option MsgProcessedUptoCollection) := do
  let dict ← read_dict cs_ref 96
  let (valid, list) ← dict.check_for_each (unpack_entry owner) false []
  .ok (if valid then some { owner, valid, list } else none)

/-- The collections that the code makes, for owners that are shards. -/
inductive Made (S : StdSort) : MsgProcessedUptoCollection → Prop
  | new (owner : ShardIdFull) : owner.shard ≠ 0 → Made S { owner }
  | unpack {owner : ShardIdFull} {cs : CellSlice} {c : MsgProcessedUptoCollection} :
      owner.shard ≠ 0 → unpack owner cs = .ok (some c) → Made S c
  | insert {c : MsgProcessedUptoCollection} (mc_seqno : BlockSeqno) (lt : LogicalTime) (hash : BitVec 256) :
      Made S c → Made S (c.insert mc_seqno lt hash).2
  | compactify {c : MsgProcessedUptoCollection} : Made S c → Made S (c.compactify S)
  | split {c : MsgProcessedUptoCollection} {new_owner : ShardIdFull} : new_owner.shard ≠ 0 → Made S c → Made S (c.split S new_owner).2
  | combine_with {c other : MsgProcessedUptoCollection} : Made S c → Made S other → Made S (c.combine_with S other).2
  | set_end_lt {c : MsgProcessedUptoCollection} (g : MsgProcessedUpto → Option (AccountIdPrefixFull → LogicalTime)) :
      Made S c → Made S { c with list := c.list.map fun z => { z with compute_shard_end_lt := g z } }

section
variable {S : StdSort} {c : MsgProcessedUptoCollection} {z : MsgProcessedUpto} {l : List MsgProcessedUpto} {owner : ShardIdFull}

/-! ## Entries -/

@[irreducible] def entry_value (z : MsgProcessedUpto) : CellSlice := ⟨toBits 64 z.last_inmsg_lt.toNat ++ toBits 256 z.last_inmsg_hash.toNat, []⟩

theorem ofNat_ofBits {w : Nat} (x : BitVec w) : BitVec.ofNat w (ofBits (toBits w x.toNat)) = x := by
  rw [ofBits_toBits, Nat.mod_eq_of_lt x.isLt, BitVec.ofNat_toNat, BitVec.setWidth_eq]

theorem read_entry_stored (z : MsgProcessedUpto) : read_entry (entry_value z) (entry_key z) = z.stored := by
  unfold read_entry entry_value entry_key
  rw [take_left' (toBits_length 64 _), take_left' (toBits_length 64 _), drop_left' (toBits_length 64 _),
    drop_left' (toBits_length 64 _), take_of_length_le (toBits_length 32 _).le, take_of_length_le (toBits_length 256 _).le,
    ofNat_ofBits, ofNat_ofBits, ofNat_ofBits, ofNat_ofBits]
  rfl

theorem key_of_entry_key {x y : MsgProcessedUpto} (h : entry_key x = entry_key y) : x.shard = y.shard ∧ x.mc_seqno = y.mc_seqno := by
  rw [entry_key, entry_key] at h
  obtain ⟨h1, h2⟩ := append_inj h (by rw [toBits_length, toBits_length])
  exact ⟨by rw [← ofNat_ofBits x.shard, h1, ofNat_ofBits], by rw [← ofNat_ofBits x.mc_seqno, h2, ofNat_ofBits]⟩

section
variable (z : MsgProcessedUpto)

theorem length_entry_key : (entry_key z).length = 96 := by
  rw [entry_key, length_append, toBits_length, toBits_length]

theorem entry_value_refs : (entry_value z).refs = [] := by rw [entry_value]

theorem entry_value_size : (entry_value z).bits.length = 64 + 256 := by
  rw [entry_value, length_append, toBits_length, toBits_length]

theorem small_entry : SmallValue (entry_value z) := by
  refine ⟨entry_value_refs z, ?_⟩
  rw [entry_value_size]
  decide

theorem store_entry : (({} : CellBuilder).store_bits_bool (toBits 64 z.last_inmsg_lt.toNat)).bind
    (·.store_bits_bool (toBits 256 z.last_inmsg_hash.toNat)) = some ⟨(entry_value z).bits, []⟩ := by
  rw [entry_value]
  simp [CellBuilder.store_bits_bool, CellBuilder.can_extend_by, toBits_length, max_bits]

end

section
variable {d : Dictionary} {f : BitMap CellSlice} (hd : d.Holds f) (h96 : d.key_bits = 96) (hs : SmallMap f)
include hd h96 hs

theorem pack_entry_ok (hnone : f (entry_key z) = none) :
    ∃ d', pack_entry d z = .ok (some d') ∧ d'.Holds (update f (entry_key z) (some (entry_value z))) ∧ d'.key_bits = 96 := by
  have hvalue : (⟨(entry_value z).bits, []⟩ : CellSlice) = entry_value z := congrArg (CellSlice.mk _) (entry_value_refs z).symm
  have hsmall : SmallBuilder ⟨(entry_value z).bits, []⟩ := by
    rw [SmallBuilder, hvalue]
    exact small_entry z
  have hlen : d.key_bits ≤ max_entry_key := by
    rw [h96]
    decide
  obtain ⟨d', h1, h2, h3⟩ := hd.set_builder_ok hsmall hs ((length_entry_key z).trans h96.symm) hlen .Add
  have hw : SetMode.Add.writes (f (entry_key z)) = true := by
    rw [hnone]
    rfl
  rw [hw] at h1
  rw [SetMode.apply, hw, if_pos rfl, hvalue] at h2
  refine ⟨d', ?_, h2, h3.trans h96⟩
  unfold pack_entry
  simp only [store_entry, h1, ok_bind, if_true]

theorem pack_entries_ok (hl : l.Pairwise fun x y => entry_key x ≠ entry_key y) (hnone : ∀ z ∈ l, f (entry_key z) = none) :
    ∃ d' f', pack_entries d l = .ok (some d') ∧ d'.Holds f' ∧ d'.key_bits = 96 ∧
      ∀ k v, f' k = some v ↔ f k = some v ∨ ∃ z ∈ l, k = entry_key z ∧ v = entry_value z := by
  -- `f` is what is written so far
  induction l generalizing d f with
  | nil => exact ⟨d, f, rfl, hd, h96, fun k v => by simp⟩
  | cons z l ih =>
    rw [pairwise_cons] at hl
    rw [forall_mem_cons] at hnone
    obtain ⟨d₁, h1, h2, h3⟩ := pack_entry_ok hd h96 hs hnone.1
    obtain ⟨d', f', g1, g2, g3, g4⟩ := ih h2 h3 (hs.update (small_entry z)) hl.2 fun w hw => by
      rw [update_of_ne (hl.1 w hw).symm]
      exact hnone.2 w hw
    refine ⟨d', f', ?_, g2, g3, fun k v => ?_⟩
    · rw [pack_entries, h1]
      exact g1
    · rw [g4, exists_mem_cons_iff]
      by_cases hk : k = entry_key z
      · subst hk
        rw [update_self, hnone.1]
        simp [eq_comm]
      · rw [update_of_ne hk]
        simp [hk]

end

variable {cb : CellBuilder} {es : List (List Bool × CellSlice)}

theorem each_unpack_entry (list : List MsgProcessedUpto)
    (h : ∀ e ∈ es, ∃ z : MsgProcessedUpto, e = (entry_key z, entry_value z) ∧ z.shard ≠ 0 ∧ shard_contains owner.shard z.shard = true) :
    each (unpack_entry owner) es list = (true, list ++ es.map fun e => read_entry e.2 e.1) := by
  induction es generalizing list with
  | nil => simp [each]
  | cons e es ih =>
    rw [forall_mem_cons] at h
    obtain ⟨⟨z, rfl, h0, hc⟩, h⟩ := h
    have hsize : (entry_value z).bits.length + (entry_value z).refs.length * 2 ^ 16 = 64 + 256 := by
      rw [entry_value_size, entry_value_refs, length_nil, zero_mul, add_zero]
    have hstep : unpack_entry owner (entry_value z) (entry_key z) list = (true, list ++ [z.stored]) := by
      rw [unpack_entry, if_neg (not_not.2 hsize), read_entry_stored]
      have h0 : z.stored.shard ≠ 0#64 := h0
      have hc : shard_contains owner.shard z.stored.shard = true := hc
      simp [h0, hc]
    rw [each, hstep]
    dsimp only
    rw [ih _ h, map_cons, read_entry_stored]
    simp

theorem each_refused (list : List MsgProcessedUpto)
    (h : ∃ e ∈ es, ∃ z : MsgProcessedUpto, e = (entry_key z, entry_value z) ∧ ¬(z.shard ≠ 0 ∧ shard_contains owner.shard z.shard = true)) :
    (each (unpack_entry owner) es list).1 = false := by
  induction es generalizing list with
  | nil => simp at h
  | cons e es ih =>
    rw [each]
    split
    · next hstep =>
      rw [exists_mem_cons_iff] at h
      refine ih _ (h.resolve_left ?_)
      rintro ⟨z, rfl, hbad⟩
      rw [unpack_entry, read_entry_stored] at hstep
      split at hstep
      · cases hstep
      · have hok : (z.shard != 0 && shard_contains owner.shard z.shard) = true := (Prod.mk.inj hstep).1
        rw [Bool.and_eq_true, bne_iff_ne] at hok
        exact hbad hok
    · rfl

theorem entry_key_ne (S : StdSort) (c : MsgProcessedUptoCollection) :
    (c.compactify S).list.Pairwise fun x y => entry_key x ≠ entry_key y := by
  refine (reduced_list_iff.1 (compactify_reduced c)).imp fun hapart heq => ?_
  obtain ⟨hs, hm⟩ := key_of_entry_key heq
  exact key_of_apart hapart hs hm

/-- The slice that is appended, and the dictionary that is read from it. -/
theorem append_dict_read {d : Dictionary} (hroom : cb.can_extend_by 1 1 = true) :
    ∃ s : CellSlice, append_dict d cb = some ⟨cb.bits ++ s.bits, cb.refs ++ s.refs⟩ ∧ read_dict s d.key_bits = .ok d := by
  obtain ⟨root, n⟩ := d
  simp only [CellBuilder.can_extend_by, Bool.and_eq_true, decide_eq_true_eq] at hroom
  cases root with
  | none =>
    refine ⟨⟨[false], []⟩, ?_, rfl⟩
    simp [append_dict, CellBuilder.store_bits_bool, CellBuilder.can_extend_by, hroom.1]
  | some r =>
    refine ⟨⟨[true], [r]⟩, ?_, rfl⟩
    have hlt : cb.refs.length < max_refs := by omega
    simp [append_dict, CellBuilder.store_bits_bool, CellBuilder.store_ref_bool, CellBuilder.can_extend_by, hroom.1, hlt]

/-- What is written, and the entries that are read from it for an owner. -/
theorem pack_each (S : StdSort) (c : MsgProcessedUptoCollection) (hroom : cb.can_extend_by 1 1 = true)
    (owner : ShardIdFull) : ∃ (s : CellSlice) (es : List (List Bool × CellSlice)),
      c.pack S cb = .ok (some ⟨cb.bits ++ s.bits, cb.refs ++ s.refs⟩) ∧
      (∀ e, e ∈ es ↔ ∃ z ∈ (c.compactify S).list, e = (entry_key z, entry_value z)) ∧
      read_dict s 96 >>= (·.check_for_each (unpack_entry owner) false []) = .ok (each (unpack_entry owner) es []) := by
  have hempty : (({ key_bits := 96 } : Dictionary)).Holds empty := ⟨rfl, by decide⟩
  obtain ⟨d, f, hpack, hd, h96, hf⟩ := pack_entries_ok hempty rfl smallMap_empty (entry_key_ne S c) fun _ _ => rfl
  obtain ⟨s, hs, hread⟩ := append_dict_read (d := d) hroom
  obtain ⟨es, hes, hrun⟩ := hd.check_for_each (unpack_entry owner) false
  refine ⟨s, es, ?_, fun e => ?_, ?_⟩
  · rw [pack, hpack]
    exact congrArg _ hs
  · rw [hes, hf]
    simp [BitMap.empty, Prod.ext_iff]
  · rw [← h96, hread, ok_bind, hrun]

theorem unpack_eq {s : CellSlice} {r : Bool × List MsgProcessedUpto}
    (h : read_dict s 96 >>= (·.check_for_each (unpack_entry owner) false []) = .ok r) :
    unpack owner s = .ok (if r.1 then some { owner, valid := r.1, list := r.2 } else none) := by
  obtain ⟨d, hd, hr⟩ := bind_ok.1 h
  rw [unpack, hd, ok_bind, hr]
  rfl

theorem pack_unpack (S : StdSort) (c : MsgProcessedUptoCollection) (hroom : cb.can_extend_by 1 1 = true) :
    ∃ s : CellSlice, c.pack S cb = .ok (some ⟨cb.bits ++ s.bits, cb.refs ++ s.refs⟩) ∧ (c.Owned →
      ∃ u, unpack c.owner s = .ok (some u) ∧ u.owner = c.owner ∧ ∀ z, z ∈ u.list ↔ ∃ w ∈ (c.compactify S).list, z = w.stored) := by
  obtain ⟨s, es, hpack, hes, hrun⟩ := pack_each S c hroom c.owner
  refine ⟨s, hpack, fun h => ?_⟩
  have heach : each (unpack_entry c.owner) es [] = (true, [] ++ es.map fun e => read_entry e.2 e.1) := by
    refine each_unpack_entry [] fun e he => ?_
    obtain ⟨z, hz, heq⟩ := (hes e).1 he
    exact ⟨z, heq, (h.compactify S).2 z hz⟩
  refine ⟨{ owner := c.owner, valid := true, list := es.map fun e => read_entry e.2 e.1 }, ?_, rfl, fun z => ?_⟩
  · rw [unpack_eq hrun, heach]
    rfl
  · rw [mem_map]
    constructor
    · rintro ⟨e, he, rfl⟩
      obtain ⟨w, hw, rfl⟩ := (hes e).1 he
      exact ⟨w, hw, read_entry_stored w⟩
    · rintro ⟨w, hw, rfl⟩
      exact ⟨(entry_key w, entry_value w), (hes _).2 ⟨w, hw, rfl⟩, read_entry_stored w⟩

theorem pack_refused (S : StdSort) (hroom : cb.can_extend_by 1 1 = true)
    (hz : ∃ z ∈ (c.compactify S).list, ¬(z.shard ≠ 0 ∧ shard_contains c.owner.shard z.shard = true)) :
    ∃ s : CellSlice, c.pack S cb = .ok (some ⟨cb.bits ++ s.bits, cb.refs ++ s.refs⟩) ∧ unpack c.owner s = .ok none := by
  obtain ⟨s, es, hpack, hes, hrun⟩ := pack_each S c hroom c.owner
  obtain ⟨z, hz, hbad⟩ := hz
  refine ⟨s, hpack, ?_⟩
  rw [unpack_eq hrun, each_refused [] ⟨_, (hes _).2 ⟨z, hz, rfl⟩, z, rfl, hbad⟩]
  rfl

/-! ## What is made -/

theorem unpack_owned (hn : owner.shard ≠ 0) {cs : CellSlice} (h : unpack owner cs = .ok (some c)) : c.Owned := by
  obtain ⟨dict, -, h⟩ := bind_ok.1 h
  obtain ⟨⟨valid, list⟩, hrun, h⟩ := bind_ok.1 h
  cases valid with
  | false => cases h
  | true =>
    cases h
    refine ⟨hn, ?_⟩
    unfold Dictionary.check_for_each at hrun
    obtain ⟨-, -, hrun⟩ := bind_ok.1 hrun
    split at hrun
    · cases hrun
      simp
    · refine dict_check_for_each_inv (σ := List MsgProcessedUpto)
        (I := fun l => ∀ z ∈ l, z.shard ≠ 0 ∧ shard_contains owner.shard z.shard = true) ?_ _ (fun z hz => absurd hz (not_mem_nil)) hrun
      intro v k s s' hs hstep
      unfold unpack_entry at hstep
      split at hstep
      · cases hstep
      · obtain ⟨hok, rfl⟩ := Prod.mk.inj hstep
        intro z hz
        rcases mem_append.1 hz with hz | hz
        · exact hs z hz
        · rw [mem_singleton.1 hz]
          simpa using hok

theorem Made.owned (h : Made S c) : c.Owned := by
  induction h with
  | new owner hn => exact ⟨hn, by simp⟩
  | unpack hn hu => exact unpack_owned hn hu
  | insert mc_seqno lt hash _ ih => exact ih.insert mc_seqno lt hash
  | compactify _ ih => exact ih.compactify S
  | split hn _ ih => exact ih.split S hn
  | combine_with _ _ ih ih' => exact ih.combine_with ih' S
  | set_end_lt g _ ih =>
    refine ⟨ih.1, fun z hz => ?_⟩
    obtain ⟨w, hw, rfl⟩ := mem_map.1 hz
    exact ih.2 w hw

end

/-- Sorting by merges. -/
def merge_sort : StdSort where
  sort l := l.mergeSort fun x y => !y.lt x
  perm l := mergeSort_perm l _
  sorted l := by
    have htrans : ∀ x y z : MsgProcessedUpto, (!y.lt x) = true → (!z.lt y) = true → (!z.lt x) = true := by
      intro x y z h h'
      simp only [lt, Bool.not_eq_true', Bool.or_eq_false_iff, Bool.and_eq_false_iff, decide_eq_false_iff_not, beq_eq_false_iff_ne, ne_eq,
        BitVec.lt_def, ← BitVec.toNat_inj] at h h' ⊢
      omega
    have htotal : ∀ x y : MsgProcessedUpto, ((!y.lt x) || !x.lt y) = true := by
      intro x y
      simp only [lt, Bool.or_eq_true, Bool.not_eq_true', Bool.or_eq_false_iff, Bool.and_eq_false_iff, decide_eq_false_iff_not,
        beq_eq_false_iff_ne, ne_eq, BitVec.lt_def, ← BitVec.toNat_inj]
      omega
    exact (pairwise_mergeSort htrans htotal l).imp fun h => by simpa using h

end MsgProcessedUptoCollection

open MsgProcessedUptoCollection

/-- To compact a collection keeps what it means: the points it covers, its text and the messages that it has processed. -/
theorem processed_upto_compact (S : StdSort) (c : MsgProcessedUptoCollection) :
    (∀ p, (c.compactify S).contains p = c.contains p) ∧ (c.valid = true → (c.compactify S).is_reduced = true) ∧
    (c.compactify S).compactify S = c.compactify S ∧
    (∀ cb : CellBuilder, cb.can_extend_by 1 1 = true →
      ∃ s : CellSlice, c.pack S cb = .ok (some ⟨cb.bits ++ s.bits, cb.refs ++ s.refs⟩) ∧ (Made S c →
        ∃ u, unpack c.owner s = .ok (some u) ∧ u.owner = c.owner ∧ ∀ z, z ∈ u.list ↔ ∃ w ∈ (c.compactify S).list, z = w.stored)) ∧
    (∀ mc_seqno lt hash, lt ≠ 0 → ∀ p, (c.insert mc_seqno lt hash).1 = true ∧
      (c.insert mc_seqno lt hash).2.contains p = (c.contains p || (MsgProcessedUpto.mk c.owner.shard mc_seqno lt hash none).contains p)) ∧
    (∀ other, ((c.is_simple_update_of other).1 = true ↔ c.contains_all other = true ∧ (new_entries c other).length ≤ 1) ∧
      ((c.is_simple_update_of other).1 = true → (c.is_simple_update_of other).2 = (new_entries c other).head?)) ∧
    (Made S c → Monotone c.list → ∀ msg, (c.compactify S).already_processed msg = c.already_processed msg) := by
  refine ⟨compactify_contains S c, fun hv => ?_, compactify_idem S c, fun cb hroom => ?_,
    fun mc_seqno lt hash hlt p => insert_contains c mc_seqno hash hlt p, is_simple_update c, fun hc hm msg => ?_⟩
  · rw [is_reduced, compactify_reduced, Bool.and_true]
    exact hv
  · obtain ⟨s, hpack, hunpack⟩ := pack_unpack S c hroom
    exact ⟨s, hpack, fun hc => hunpack hc.owned⟩
  · exact hc.owned.compactify_processed S hm msg

/-- Of two points the later one covers the other: one is kept, written and read back, and no message is judged differently. -/
theorem two_points_compact :
    let c : MsgProcessedUptoCollection :=
      { owner := ⟨0, rootShardId⟩, list := [⟨rootShardId, 1, 1, 0, some fun _ => 7⟩, ⟨rootShardId, 2, 5, 0, some fun _ => 7⟩] }
    (c.compactify merge_sort).list = [⟨rootShardId, 2, 5, 0, some fun _ => 7⟩] ∧
    (∃ s : CellSlice, c.pack merge_sort {} = .ok (some ⟨s.bits, s.refs⟩) ∧ ∃ u, unpack ⟨0, rootShardId⟩ s = .ok (some u)) ∧
      ∀ msg, (c.compactify merge_sort).already_processed msg = c.already_processed msg := by
  intro c
  have hmade : Made merge_sort c :=
    .set_end_lt (fun _ => some fun _ => 7) (.insert 2 5 0 (.insert 1 1 0 (.new ⟨0, rootShardId⟩ (by decide))))
  have hmono : MsgProcessedUpto.Monotone c.list := by
    simp [MsgProcessedUpto.Monotone, c]
  have hsort : merge_sort.sort c.list = c.list := mergeSort_of_pairwise (by simp [c, MsgProcessedUpto.lt])
  have hlist : (c.compactify merge_sort).list = Subsume.reduce MsgProcessedUpto.contains c.list := congrArg (Subsume.reduce _) hsort
  obtain ⟨-, -, -, hwrite, -, -, hprocessed⟩ := processed_upto_compact merge_sort c
  obtain ⟨s, hpack, hunpack⟩ := hwrite {} (by decide)
  obtain ⟨u, hu, -⟩ := hunpack hmade
  exact ⟨hlist.trans rfl, ⟨s, hpack, u, hu⟩, hprocessed hmade hmono⟩

/-- A point at time zero is refused, a full builder takes no entries, and what no shard owns is not read back. -/
theorem processed_upto_refused :
    (MsgProcessedUptoCollection.insert { owner := ⟨0, rootShardId⟩ } 1 0 0).1 = false ∧
    (MsgProcessedUptoCollection.insert { owner := ⟨0, rootShardId⟩ } 1 0 0).2.contains ⟨rootShardId, 1, 0, 0, none⟩ = false ∧
    (MsgProcessedUptoCollection.mk ⟨0, rootShardId⟩ true []).pack merge_sort ⟨List.replicate max_bits false, []⟩ = .ok none ∧
    ∃ s : CellSlice, (MsgProcessedUptoCollection.mk ⟨0, rootShardId⟩ true [⟨0, 1, 1, 0, none⟩]).pack merge_sort {} = .ok (some ⟨s.bits, s.refs⟩) ∧
      unpack ⟨0, rootShardId⟩ s = .ok none := by
  refine ⟨by decide, by decide, ?_, ?_⟩
  · have hlist : ((MsgProcessedUptoCollection.mk ⟨0, rootShardId⟩ true []).compactify merge_sort).list = [] :=
      eq_nil_iff_forall_not_mem.2 fun z hz => not_mem_nil (mem_of_mem_compactify hz)
    rw [pack, hlist]
    simp [pack_entries, append_dict, CellBuilder.store_bits_bool, CellBuilder.can_extend_by]
  · obtain ⟨w, hw, -⟩ := exists_kept (c := ⟨⟨0, rootShardId⟩, true, [⟨0, 1, 1, 0, none⟩]⟩) merge_sort (mem_singleton.2 rfl)
    have hroom : CellBuilder.can_extend_by {} 1 1 = true := by decide
    refine pack_refused merge_sort hroom ⟨w, hw, fun h => h.1 ?_⟩
    rw [mem_singleton.1 (mem_of_mem_compactify hw)]

end Ton.Shard
