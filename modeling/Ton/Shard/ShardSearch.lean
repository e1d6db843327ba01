import Ton.Shard.Neighbors
/-!
# Searches in the shard configuration

`ShardConfig::get_shard_hash_ids` walks the tree of each workchain with a stack and asks a filter at
each node, also at the inner ones; the searches for neighbours and for shards that intersect are
this walk. The dictionary gives its entries as a list, in the order of `check_for_each`.
A `broken` node ends the search, and so does a fork below which no shard can be.
-/

namespace BinTree
open List Option

/-- How many nodes the loop can meet. -/
def nodes {α : Type} : BinTree α → Nat
  | leaf _ => 1
  | fork left right => 1 + nodes left + nodes right
  | broken => 1

end BinTree

namespace Ton.Shard

open BigEndian BinTree Text List Option

/-- A shard, and whether it is a leaf. -/
abbrev ShardFilter := ShardIdFull → Bool → Bool

/-- `shard_intersects` of full identifiers. -/
def ShardIdFull.intersects (x y : ShardIdFull) : Bool := x.workchain == y.workchain && shard_intersects x.shard y.shard

def block_shard (b : BlockId) : ShardIdFull := ⟨b.workchain, b.shard⟩

namespace ShardConfig

/-- The loop with the stack. -/
def walk (workchain : WorkchainId) (filter : ShardFilter) (stack : List (ShardTree × ShardId)) (res : List BlockId) : Option (List BlockId) :=
  match stack with
  | [] => some res
  | (.broken, _) :: _ => none
  | (.leaf descr, shard) :: stack =>
    if filter ⟨workchain, shard⟩ true then walk workchain filter stack (res ++ [⟨workchain, shard, descr.seq_no⟩])
    else walk workchain filter stack res
  | (.fork left right, shard) :: stack =>
    if filter ⟨workchain, shard⟩ false then
      -- a shard of 63 bits has no children
      let delta := lower_bit64 shard >>> 1
      if delta = 0 then none
      else walk workchain filter ((left, shard - delta) :: (right, shard + delta) :: stack) res
    else walk workchain filter stack res
termination_by (stack.map (·.1.nodes)).sum
decreasing_by all_goals simp only [map_cons, sum_cons, nodes]; omega

/-- The masterchain is a shard when its seqno is not zero. -/
def mc_block (σ : ShardConfig) : Option BlockId := σ.mc_shard_hash.bind fun h => if h.blk.id.seqno ≠ 0 then some h.blk.id else none

def add_mc (mc : Option BlockId) (filter : ShardFilter) (res : List BlockId) : List BlockId :=
  match mc with
  | some b => if filter ⟨masterchainId, shardIdAll⟩ true then res ++ [b] else res
  | none => res

/-- The entries one after the other; the masterchain comes before the first workchain that is not negative. -/
def check_entries (mc : Option BlockId) (filter : ShardFilter) :
    List (WorkchainId × ShardTree) → List BlockId → Bool → Option (List BlockId × Bool)
  | [], res, mcout => some (res, mcout)
  | (workchain, root) :: entries, res, mcout => do
    let out := decide (0 ≤ workchain.toInt) && !mcout
    let res ← walk workchain filter [(root, shardIdAll)] (if out then add_mc mc filter res else res)
    check_entries mc filter entries res (mcout || out)

def get_shard_hash_ids (σ : ShardConfig) (entries : List (WorkchainId × ShardTree)) (filter : ShardFilter) : List BlockId :=
  if σ.shard_hashes_dict.isNone then []
  else match check_entries σ.mc_block filter entries [] σ.mc_block.isNone with
    | none => []
    | some (res, mcout) => if !mcout then add_mc σ.mc_block filter res else res

section
variable (σ : ShardConfig) (entries : List (WorkchainId × ShardTree)) (myself : ShardIdFull)

def get_intersecting_shard_hash_ids : List BlockId := σ.get_shard_hash_ids entries fun shard _ => myself.intersects shard

def get_neighbor_shard_hash_ids : List BlockId := σ.get_shard_hash_ids entries fun shard _ => is_neighbor myself shard

def get_proper_neighbor_shard_hash_ids : List BlockId :=
  σ.get_shard_hash_ids entries fun shard leaf => is_neighbor myself shard && !(leaf && myself.intersects shard)

end

/-! ## All leaves -/

/-- The leaves under a place, from the left. -/
def listing (workchain : WorkchainId) : ShardTree → Prefix → List BlockId
  | .leaf descr, p => [⟨workchain, p.word, descr.seq_no⟩]
  | .fork left right, p =>
    if h : p.1.length < 63 then listing workchain left (p.child h false) ++ listing workchain right (p.child h true) else []
  | .broken, _ => []

theorem listing_leaf (workchain : WorkchainId) (descr : ShardDescr) (p : Prefix) :
    listing workchain (.leaf descr) p = [⟨workchain, p.word, descr.seq_no⟩] := rfl

theorem listing_fork (workchain : WorkchainId) (left right : ShardTree) (p : Prefix) : listing workchain (.fork left right) p =
    if h : p.1.length < 63 then listing workchain left (p.child h false) ++ listing workchain right (p.child h true) else [] := rfl

/-- Everything can be read, and no fork is too deep for its shards. -/
def Fits : ShardTree → Nat → Prop
  | .leaf _, _ => True
  | .fork left right, depth => depth < 63 ∧ Fits left (depth + 1) ∧ Fits right (depth + 1)
  | .broken, _ => False

variable {mc : Option BlockId} {b : BlockId} {p : Prefix}

theorem mem_listing {workchain : WorkchainId} {t : ShardTree} : b ∈ listing workchain t p ↔
    ∃ (k : List Bool) (hk : (p.1 ++ k).length ≤ 63) (descr : ShardDescr), t.leaf_at k = some descr ∧
      b = ⟨workchain, Prefix.word ⟨p.1 ++ k, hk⟩, descr.seq_no⟩ := by
  induction t generalizing p with
  | leaf descr =>
    rw [listing_leaf, mem_singleton]
    constructor
    · rintro rfl
      refine ⟨[], by simpa using p.2, descr, rfl, ?_⟩
      simp
    · rintro ⟨k, hk, descr', hleaf, rfl⟩
      rw [leaf_at_leaf] at hleaf
      split at hleaf
      · next h =>
        subst h
        cases hleaf
        simp
      · cases hleaf
  | broken =>
    constructor
    · exact fun h => absurd h not_mem_nil
    · rintro ⟨k, hk, descr, hleaf, -⟩
      cases hleaf
  | fork l r ihl ihr =>
    rw [listing_fork]
    constructor
    · intro h
      split at h
      · next hlen =>
        rcases mem_append.1 h with h | h
        · obtain ⟨k, hk, descr, hleaf, rfl⟩ := ihl.1 h
          exact ⟨false :: k, by simpa [Prefix.child] using hk, descr, hleaf, by simp [Prefix.child]⟩
        · obtain ⟨k, hk, descr, hleaf, rfl⟩ := ihr.1 h
          exact ⟨true :: k, by simpa [Prefix.child] using hk, descr, hleaf, by simp [Prefix.child]⟩
      · cases h
    · rintro ⟨k, hk, descr, hleaf, rfl⟩
      cases k with
      | nil => cases hleaf
      | cons b k =>
        have hlen : p.1.length < 63 := by
          rw [length_append, length_cons] at hk
          omega
        rw [dif_pos hlen, mem_append]
        rw [leaf_at_fork_cons] at hleaf
        cases b
        · exact .inl (ihl.2 ⟨k, by simpa [Prefix.child] using hk, descr, hleaf, by simp [Prefix.child]⟩)
        · exact .inr (ihr.2 ⟨k, by simpa [Prefix.child] using hk, descr, hleaf, by simp [Prefix.child]⟩)

/-! ## The walk -/

/-- What passes as a leaf passes at every node above. -/
def Upward (workchain : WorkchainId) (filter : ShardFilter) : Prop :=
  ∀ p q : Prefix, p.1 <+: q.1 → filter ⟨workchain, q.word⟩ true = true → filter ⟨workchain, p.word⟩ false = true

theorem delta_ne_zero (h : p.1.length < 63) : lower_bit64 p.word >>> 1 ≠ 0 := by
  intro h0
  have hnat := congrArg BitVec.toNat h0
  rw [BitVec.toNat_ushiftRight, p.lower_word, show 63 - p.1.length = 62 - p.1.length + 1 by omega, Nat.pow_succ,
    Nat.shiftRight_eq_div_pow, Nat.pow_one, Nat.mul_div_cancel _ (by decide)] at hnat
  exact absurd hnat (Nat.two_pow_pos _).ne'

section
variable {workchain : WorkchainId} {filter : ShardFilter} (hup : Upward workchain filter) {t : ShardTree}
include hup

/-- The node on top of the stack adds the leaves under it that pass. -/
theorem walk_node {p : Prefix}
    (ht : Fits t p.1.length) (stack : List (ShardTree × ShardId)) (res : List BlockId) :
    walk workchain filter ((t, p.word) :: stack) res =
      walk workchain filter stack (res ++ (listing workchain t p).filter fun b => filter (block_shard b) true) := by
  induction t generalizing p stack res with
  | leaf descr =>
    rw [walk, listing_leaf, filter_singleton]
    show _ = walk workchain filter stack (res ++ bif filter ⟨workchain, p.word⟩ true then _ else [])
    cases filter ⟨workchain, p.word⟩ true
    · exact congrArg (walk workchain filter stack) (append_nil res).symm
    · rfl
  | broken => exact absurd ht id
  | fork l r ihl ihr =>
    obtain ⟨hlen, hl, hr⟩ := ht
    have hsize : ∀ b, (p.child hlen b).1.length = p.1.length + 1 := fun b => by simp [Prefix.child]
    rw [walk, listing_fork, dif_pos hlen, filter_append]
    by_cases hf : filter ⟨workchain, p.word⟩ false = true
    · have hleft : p.word - lower_bit64 p.word >>> 1 = (p.child hlen false).word := Prefix.shard_child_word hlen true
      have hright : p.word + lower_bit64 p.word >>> 1 = (p.child hlen true).word := Prefix.shard_child_word hlen false
      rw [if_pos hf]
      dsimp only
      rw [if_neg (delta_ne_zero hlen), hleft, hright, ihl (by rwa [hsize]), ihr (by rwa [hsize]), append_assoc]
    · -- what is skipped has no leaf that passes
      have hnone : ∀ b ∈ listing workchain (.fork l r) p, ¬filter (block_shard b) true = true := by
        intro b hb hpass
        obtain ⟨k, hk, descr, -, rfl⟩ := mem_listing.1 hb
        exact hf (hup p ⟨p.1 ++ k, hk⟩ (prefix_append ..) hpass)
      rw [listing_fork, dif_pos hlen] at hnone
      rw [if_neg hf, ← filter_append, filter_eq_nil_iff.2 hnone, append_nil]

theorem walk_root (ht : Fits t 0)
    (res : List BlockId) : walk workchain filter [(t, shardIdAll)] res =
      some (res ++ (listing workchain t Prefix.nil).filter fun b => filter (block_shard b) true) := by
  rw [← Prefix.word_nil, walk_node hup ht, walk]

end

/-! ## The entries -/

/-- The masterchain and the leaves of the entries, in the order of the search. -/
def everything (mc : Option BlockId) : List (WorkchainId × ShardTree) → Bool → List BlockId
  | [], mcout => if mcout then [] else mc.toList
  | (workchain, root) :: entries, mcout =>
    let out := decide (0 ≤ workchain.toInt) && !mcout
    (if out then mc.toList else []) ++ listing workchain root Prefix.nil ++ everything mc entries (mcout || out)

theorem everything_nil (mc : Option BlockId) (mcout : Bool) : everything mc [] mcout = if mcout then [] else mc.toList := rfl

theorem everything_cons (mc : Option BlockId) (e : WorkchainId × ShardTree) (entries : List (WorkchainId × ShardTree)) (mcout : Bool) :
    everything mc (e :: entries) mcout = (if decide (0 ≤ e.1.toInt) && !mcout then mc.toList else []) ++ listing e.1 e.2 Prefix.nil ++
      everything mc entries (mcout || decide (0 ≤ e.1.toInt) && !mcout) := rfl

theorem add_mc_eq {filter : ShardFilter} (hmc : ∀ b ∈ mc, block_shard b = ⟨masterchainId, shardIdAll⟩) (res : List BlockId) :
    add_mc mc filter res = res ++ mc.toList.filter fun b => filter (block_shard b) true := by
  cases mc with
  | none => exact (append_nil _).symm
  | some b =>
    rw [add_mc, toList_some, filter_singleton, hmc b rfl]
    cases filter ⟨masterchainId, shardIdAll⟩ true
    · exact (append_nil res).symm
    · rfl

theorem check_entries_eq {filter : ShardFilter} (hup : ∀ workchain, Upward workchain filter)
    (hmc : ∀ b ∈ mc, block_shard b = ⟨masterchainId, shardIdAll⟩) {entries : List (WorkchainId × ShardTree)}
    (hfit : ∀ e ∈ entries, Fits e.2 0) (res : List BlockId) (mcout : Bool) :
    (check_entries mc filter entries res mcout).map (fun r => if !r.2 then add_mc mc filter r.1 else r.1) =
      some (res ++ (everything mc entries mcout).filter fun b => filter (block_shard b) true) := by
  induction entries generalizing res mcout with
  | nil =>
    rw [check_entries, everything_nil]
    cases mcout
    · exact congrArg some (add_mc_eq hmc res)
    · exact congrArg some (append_nil _).symm
  | cons e entries ih =>
    obtain ⟨workchain, root⟩ := e
    rw [check_entries, everything_cons, walk_root (hup workchain) (hfit _ mem_cons_self), bind_eq_bind, bind_some,
      ih fun e he => hfit e (mem_cons_of_mem _ he)]
    rw [filter_append, filter_append]
    cases decide (0 ≤ workchain.toInt) && !mcout
    · simp
    · simp [add_mc_eq hmc]

theorem mem_everything {entries : List (WorkchainId × ShardTree)} {mcout : Bool} :
    b ∈ everything mc entries mcout ↔ mcout = false ∧ b ∈ mc ∨ ∃ e ∈ entries, b ∈ listing e.1 e.2 Prefix.nil := by
  induction entries generalizing mcout with
  | nil => cases mcout <;> simp [everything_nil]
  | cons e entries ih =>
    rw [everything_cons, mem_append, mem_append, ih]
    cases mcout <;> by_cases hw : 0 ≤ e.1.toInt <;> simp [hw] <;> tauto

/-! ## No leaf twice -/

theorem listing_workchain {workchain : WorkchainId} {t : ShardTree} (h : b ∈ listing workchain t p) :
    b.workchain = workchain := by
  obtain ⟨k, hk, descr, -, rfl⟩ := mem_listing.1 h
  rfl

theorem listing_nodup (workchain : WorkchainId) (t : ShardTree) (p : Prefix) : (listing workchain t p).Nodup := by
  induction t generalizing p with
  | leaf descr => exact nodup_singleton _
  | broken => exact nodup_nil
  | fork l r ihl ihr =>
    rw [listing_fork]
    split
    · next hlen =>
      refine (ihl _).append (ihr _) fun b hl hr => ?_
      obtain ⟨k, hk, descr, -, rfl⟩ := mem_listing.1 hl
      obtain ⟨k', hk', descr', -, heq⟩ := mem_listing.1 hr
      have hword := congrArg Subtype.val (Prefix.word_injective (congrArg BlockId.shard heq))
      simp [Prefix.child] at hword
    · exact nodup_nil

theorem everything_nodup (hmc : ∀ b ∈ mc, b.workchain = masterchainId) {entries : List (WorkchainId × ShardTree)}
    (hkeys : (entries.map Prod.fst).Nodup) (hno : ∀ e ∈ entries, e.1 ≠ masterchainId) (mcout : Bool) : (everything mc entries mcout).Nodup := by
  have hsingle : mc.toList.Nodup := by
    cases mc with
    | none => exact nodup_nil
    | some b => exact nodup_singleton b
  induction entries generalizing mcout with
  | nil =>
    rw [everything_nil]
    split
    · exact nodup_nil
    · exact hsingle
  | cons e entries ih =>
    rw [map_cons, nodup_cons] at hkeys
    -- other entries have other workchains, and the masterchain is not an entry
    have hother : ∀ b ∈ listing e.1 e.2 Prefix.nil, ∀ mcout, b ∉ everything mc entries mcout := by
      intro b hb mcout hrest
      have hw := listing_workchain hb
      rcases mem_everything.1 hrest with ⟨-, hb'⟩ | ⟨e', he', hb'⟩
      · exact hno e mem_cons_self (hw.symm.trans (hmc b hb'))
      · exact hkeys.1 (List.mem_map.2 ⟨e', he', (listing_workchain hb').symm.trans hw⟩)
    rw [everything_cons]
    refine Nodup.append (Nodup.append ?_ (listing_nodup ..) ?_) (ih hkeys.2 (fun e he => hno e (mem_cons_of_mem _ he)) _) ?_
    · split
      · exact hsingle
      · exact nodup_nil
    · intro b hb hl
      split at hb
      · exact hno e mem_cons_self ((listing_workchain hl).symm.trans (hmc b (mem_toList.1 hb)))
      · cases hb
    · intro b hb hrest
      rcases mem_append.1 hb with hb | hb
      · split at hb
        · next hout =>
          have hbmc := mem_toList.1 hb
          rw [hout, Bool.or_true] at hrest
          rcases mem_everything.1 hrest with ⟨h, -⟩ | ⟨e', he', hb'⟩
          · cases h
          · exact hno e' (mem_cons_of_mem _ he') ((listing_workchain hb').symm.trans (hmc b hbmc))
        · cases hb
      · exact hother b hb _ hrest

/-! ## The searches -/

/-- The entries are those of the dictionary, which can be read; the masterchain is not one of them, and has one shard. -/
structure WellFormed (σ : ShardConfig) (entries : List (WorkchainId × ShardTree)) : Prop where
  dict : ∃ dict, σ.shard_hashes_dict = some dict ∧ ∀ workchain root, (workchain, root) ∈ entries ↔ dict workchain = some root
  nodup : (entries.map Prod.fst).Nodup
  fits : ∀ e ∈ entries, Fits e.2 0
  not_mc : ∀ e ∈ entries, e.1 ≠ masterchainId
  masterchain : ∀ h, σ.mc_shard_hash = some h → h.shard = ⟨masterchainId, shardIdAll⟩

/-- The masterchain, or the leaf of a shard, with the seqno of its last block. -/
def Has (σ : ShardConfig) (b : BlockId) : Prop :=
  b ∈ σ.mc_block ∨ ∃ (p : Prefix) (descr : ShardDescr), σ.leaf b.workchain p = some descr ∧ b.shard = p.word ∧ b.seqno = descr.seq_no

/-- The list has the shards of the configuration with the property, each of them once. -/
def Lists (σ : ShardConfig) (l : List BlockId) (P : ShardIdFull → Prop) : Prop := l.Nodup ∧ ∀ b, b ∈ l ↔ σ.Has b ∧ P (block_shard b)

section
variable {σ : ShardConfig} {entries : List (WorkchainId × ShardTree)}

theorem WellFormed.mc_block (h : σ.WellFormed entries) : ∀ b ∈ σ.mc_block, block_shard b = ⟨masterchainId, shardIdAll⟩ := by
  intro b hb
  obtain ⟨mc, hmc, hb⟩ := bind_eq_some_iff.1 hb
  split at hb
  · cases hb
    exact h.masterchain mc hmc
  · cases hb

theorem WellFormed.has_iff (h : σ.WellFormed entries) (b : BlockId) : b ∈ everything σ.mc_block entries σ.mc_block.isNone ↔ σ.Has b := by
  obtain ⟨dict, hdict, hentries⟩ := h.dict
  rw [mem_everything, Has]
  refine or_congr ⟨And.right, fun hb => ⟨?_, hb⟩⟩ ?_
  · rw [mem_def.1 hb]
    rfl
  · simp only [mem_listing, leaf, hdict, bind_some, bind_eq_some_iff]
    constructor
    · rintro ⟨⟨workchain, root⟩, he, k, hk, descr, hleaf, rfl⟩
      exact ⟨⟨k, hk⟩, descr, ⟨root, (hentries _ _).1 he, hleaf⟩, rfl, rfl⟩
    · rintro ⟨p, descr, ⟨root, hroot, hleaf⟩, hshard, hseqno⟩
      refine ⟨(b.workchain, root), (hentries _ _).2 hroot, p.1, p.2, descr, hleaf, ?_⟩
      obtain ⟨workchain, shard, seqno⟩ := b
      obtain rfl : shard = p.word := hshard
      obtain rfl : seqno = descr.seq_no := hseqno
      rfl

/-- A search loses nothing by what it skips when the filter passes every node above a leaf that it passes. -/
theorem WellFormed.lists (h : σ.WellFormed entries) {filter : ShardFilter} (hup : ∀ workchain, Upward workchain filter)
    {P : ShardIdFull → Prop} (hP : ∀ s, filter s true = true ↔ P s) : σ.Lists (σ.get_shard_hash_ids entries filter) P := by
  have hrun : σ.get_shard_hash_ids entries filter = (everything σ.mc_block entries σ.mc_block.isNone).filter fun b => filter (block_shard b) true := by
    obtain ⟨dict, hdict, -⟩ := h.dict
    obtain ⟨⟨res, mcout⟩, hcheck, hres⟩ := map_eq_some_iff.1 (check_entries_eq hup h.mc_block h.fits [] σ.mc_block.isNone)
    rw [get_shard_hash_ids, hdict, if_neg (by simp), hcheck]
    exact hres
  constructor
  · rw [hrun]
    exact (everything_nodup (fun b hb => congrArg ShardIdFull.workchain (h.mc_block b hb)) h.nodup h.not_mc _).filter _
  · intro b
    rw [hrun, mem_filter, h.has_iff, hP]

end

section
variable {myself : ShardIdFull} (hm : myself.shard ≠ 0) (workchain : WorkchainId)
include hm

theorem upward_neighbor : Upward workchain fun shard _ => is_neighbor myself shard := by
  intro p q hpq hq
  show is_neighbor myself ⟨workchain, p.word⟩ = true
  exact is_neighbor_ancestor (y := ⟨workchain, q.word⟩) hm q.word_ne_zero p.word_ne_zero rfl (Prefix.ancestor_iff.2 hpq) hq

theorem upward_proper_neighbor : Upward workchain fun shard leaf => is_neighbor myself shard && !(leaf && myself.intersects shard) := by
  intro p q hpq hq
  rw [Bool.and_eq_true] at hq
  have hn : is_neighbor myself ⟨workchain, p.word⟩ = true := upward_neighbor hm workchain p q hpq hq.1
  exact (Bool.and_true _).trans hn

theorem upward_intersecting : Upward workchain fun shard _ => myself.intersects shard := by
  intro p q hpq hq
  obtain ⟨r, hr⟩ := exists_prefix hm
  unfold ShardIdFull.intersects at hq ⊢
  rw [Bool.and_eq_true, hr, Prefix.intersects_iff] at hq
  rw [Bool.and_eq_true, hr, Prefix.intersects_iff]
  refine ⟨hq.1, ?_⟩
  rcases hq.2 with h | h
  · exact prefix_or_prefix_of_prefix h hpq
  · exact .inr (hpq.trans h)

end

/-- Neighbours of one workchain are shards with accounts that differ in one digit at most; being a neighbour is symmetric and goes up
to the ancestors; and each search gives exactly the shards that it is for. -/
theorem neighbor_search_exact :
    (∀ x y : ShardIdFull, x.Sound → y.Sound → x.workchain = y.workchain → (is_neighbor x y = true ↔
      ∃ a b : AccountIdPrefix, shard_contains x.shard a = true ∧ shard_contains y.shard b = true ∧ ∃ k, ∀ i < 16, i ≠ k → digit a i = digit b i)) ∧
    (∀ x y : ShardIdFull, x.Sound → y.Sound → is_neighbor x y = is_neighbor y x) ∧
    (∀ x y y' : ShardIdFull, x.Sound → y.Sound → y'.Sound → y'.workchain = y.workchain → shard_is_ancestor y'.shard y.shard = true →
      is_neighbor x y = true → is_neighbor x y' = true) ∧
    ∀ (σ : ShardConfig) (entries : List (WorkchainId × ShardTree)) (myself : ShardIdFull), σ.WellFormed entries → myself.Sound →
      σ.Lists (σ.get_neighbor_shard_hash_ids entries myself) (fun s => is_neighbor myself s = true) ∧
      σ.Lists (σ.get_proper_neighbor_shard_hash_ids entries myself) (fun s => is_neighbor myself s = true ∧ ¬myself.intersects s = true) ∧
      σ.Lists (σ.get_intersecting_shard_hash_ids entries myself) (fun s => myself.intersects s = true) := by
  refine ⟨fun x y hx hy hw => is_neighbor_iff hx hy hw, fun x y hx hy => is_neighbor_comm hx.ne_zero hy.ne_zero, ?_, ?_⟩
  · intro x y y' hx hy hy' hw ha hn
    exact is_neighbor_ancestor hx.ne_zero hy.ne_zero hy'.ne_zero hw ha hn
  · intro σ entries myself h hm
    refine ⟨?_, ?_, ?_⟩
    · exact h.lists (upward_neighbor hm.ne_zero) fun _ => Iff.rfl
    · exact h.lists (upward_proper_neighbor hm.ne_zero) fun s => by simp
    · exact h.lists (upward_intersecting hm.ne_zero) fun _ => Iff.rfl

/-- One workchain with two shards, and no block of the masterchain yet: the left shard has the right one as its proper neighbour. -/
theorem neighbor_search_exact_halves :
    let descr : ShardDescr := {
      seq_no := 7, reg_mc_seqno := 1, start_lt := 0, end_lt := 1, root_hash := fun _ => 0, file_hash := fun _ => 0,
      before_split := false, before_merge := false, want_split := false, want_merge := false,
      next_catchain_seqno := 0, next_validator_shard := 0, min_ref_mc_seqno := 0, gen_utime := 0,
      split_merge_at := .fsm_none, fees_collected := {}, funds_created := {} }
    let root : ShardTree := .fork (.leaf descr) (.leaf descr)
    let σ : ShardConfig := ⟨some fun workchain => if workchain = 0 then some root else none, none, []⟩
    let myself : ShardIdFull := ⟨0, 0x4000000000000000⟩
    σ.Lists (σ.get_neighbor_shard_hash_ids [(0, root)] myself) (fun s => is_neighbor myself s = true) ∧
      ⟨0, 0xC000000000000000, 7⟩ ∈ σ.get_proper_neighbor_shard_hash_ids [(0, root)] myself ∧
      ⟨0, 0x4000000000000000, 7⟩ ∈ σ.get_intersecting_shard_hash_ids [(0, root)] myself := by
  intro descr root σ myself
  have hσ : σ.WellFormed [(0, root)] := by
    refine ⟨⟨_, rfl, fun workchain t => ?_⟩, nodup_singleton _, ?_, ?_, fun h hh => by cases hh⟩
    · rw [mem_singleton, Prod.mk.injEq]
      split
      · next h => simp [h, eq_comm]
      · next h => exact ⟨fun he => absurd he.1 h, fun he => by cases he⟩
    · intro e he
      rw [mem_singleton.1 he]
      exact ⟨by decide, trivial, trivial⟩
    · intro e he
      rw [mem_singleton.1 he]
      decide
  obtain ⟨-, -, -, hsearch⟩ := neighbor_search_exact
  obtain ⟨hneighbor, hproper, hintersecting⟩ := hsearch σ [(0, root)] myself hσ ⟨by decide, fun h => by cases h⟩
  have hleft : σ.Has ⟨0, 0x4000000000000000, 7⟩ := .inr ⟨⟨[false], by decide⟩, descr, rfl, by decide +kernel, rfl⟩
  have hright : σ.Has ⟨0, 0xC000000000000000, 7⟩ := .inr ⟨⟨[true], by decide⟩, descr, rfl, by decide +kernel, rfl⟩
  have hshards : is_neighbor myself ⟨0, 0xC000000000000000⟩ = true ∧ ¬myself.intersects ⟨0, 0xC000000000000000⟩ = true ∧
      myself.intersects ⟨0, 0x4000000000000000⟩ = true := by decide +kernel
  exact ⟨hneighbor, (hproper.2 _).2 ⟨hright, hshards.1, hshards.2.1⟩, (hintersecting.2 _).2 ⟨hleft, hshards.2.2⟩⟩

end ShardConfig

end Ton.Shard
