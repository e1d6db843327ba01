import Ton.Shard.Hypercube
import Ton.Shard.UpdatedOnce
/-!
# One shard for each account

In whatever order the shards of a workchain are updated, split and merged: where each account has had
a shard, it has exactly one. So every configuration gives a layout, on which messages are routed.
-/

namespace Ton.Shard
open Result BinTree Option

/-- A shard of the configuration, to which the account belongs. -/
def ShardConfig.Owns (σ : ShardConfig) (wc : WorkchainId) (a : AccountIdPrefix) (s : ShardId) : Prop :=
  s ≠ 0 ∧ shard_contains s a = true ∧ (σ.get_shard_hash ⟨wc, s⟩ true).isSome = true

/-- The prefixes of the shards to which an account belongs. -/
theorem exists_way (a : AccountIdPrefix) : ∃ way : Prefix, way.1.length = 63 ∧ ∀ p : Prefix, shard_contains p.word a = true ↔ p.1 <+: way.1 := by
  have hone : (a ||| 1).getLsbD 0 = true := by simp
  have hne : a ||| 1 ≠ 0 := by
    intro h
    rw [h] at hone
    simp at hone
  -- with its lowest bit set the account is the word of a prefix, which has all 63 bits
  obtain ⟨way, hway⟩ := exists_prefix hne
  have hlen : way.1.length = 63 := by
    have hle := way.2
    by_contra hlt
    have hctz : 0 < way.word.ctz.toNat := by
      rw [way.ctz_word]
      omega
    have hzero := BitVec.getLsbD_false_of_lt_ctz hctz
    rw [← hway, hone] at hzero
    cases hzero
  refine ⟨way, hlen, fun p => ?_⟩
  have hle : p.1.length ≤ way.1.length := p.2.trans_eq hlen.symm
  rw [← Prefix.contains_iff hle, ← hway, shard_contains_iff p.word_ne_zero, shard_contains_iff p.word_ne_zero]
  refine forall₂_congr fun j hj => ?_
  have hj0 : j ≠ 0 := Nat.ne_zero_of_lt hj
  simp [hj0]

namespace ShardConfig

variable {σ : ShardConfig} {wc : WorkchainId} {a : AccountIdPrefix} {s s' : ShardId} {way : Prefix}

theorem owns_iff (hmc : wc ≠ masterchainId) (hwc : wc ≠ workchainInvalid)
    (hway : ∀ p : Prefix, shard_contains p.word a = true ↔ p.1 <+: way.1) :
    σ.Owns wc a s ↔ ∃ p : Prefix, s = p.word ∧ p.1 <+: way.1 ∧ (σ.leaf wc p).isSome = true := by
  constructor
  · rintro ⟨hs, hin, htop⟩
    obtain ⟨p, rfl⟩ := exists_prefix hs
    rw [get_shard_hash_word σ hmc hwc, isSome_map] at htop
    exact ⟨p, rfl, (hway p).1 hin, htop⟩
  · rintro ⟨p, rfl, hin, htop⟩
    refine ⟨p.word_ne_zero, (hway p).2 hin, ?_⟩
    rwa [get_shard_hash_word σ hmc hwc, isSome_map]

/-- Of two leaves on one way neither is above the other. -/
theorem leaf_unique {p q : Prefix} (hp : (σ.leaf wc p).isSome = true) (hq : (σ.leaf wc q).isSome = true) (h : p.1 <+: q.1) : p = q := by
  obtain ⟨x, hx⟩ := isSome_iff_exists.1 hp
  obtain ⟨y, hy⟩ := isSome_iff_exists.1 hq
  obtain ⟨dict, hdict, hx⟩ := bind_eq_some_iff.1 hx
  obtain ⟨root, hroot, hx⟩ := bind_eq_some_iff.1 hx
  rw [leaf, hdict, bind_some, hroot] at hy
  exact Subtype.ext (eq_of_leaf_at hx hy h)

theorem Owns.eq (hmc : wc ≠ masterchainId) (hwc : wc ≠ workchainInvalid) (h : σ.Owns wc a s) (h' : σ.Owns wc a s') : s = s' := by
  obtain ⟨way, -, hway⟩ := exists_way a
  obtain ⟨p, rfl, hin, htop⟩ := (owns_iff hmc hwc hway).1 h
  obtain ⟨q, rfl, hin', htop'⟩ := (owns_iff hmc hwc hway).1 h'
  rcases List.prefix_or_prefix_of_prefix hin hin' with hle | hle
  · rw [leaf_unique htop htop' hle]
  · rw [leaf_unique htop' htop hle]

end ShardConfig

section
variable {validate_ref : ShardTree → Bool} {σ σ₀ σ' : ShardConfig} {u : Update} {s : ShardIdFull} {value : ShardTree} {wc : WorkchainId}

variable {way : List Bool}

/-- Under the place that is written the new leaves leave nothing out. -/
theorem Passes.covers (h : Passes σ u s value) {q : Prefix} (hq : s.shard = q.word) (hlen : way.length = 63)
    (hin : q.1 <+: way) : ∃ p : Prefix, q.1 <+: p.1 ∧ p.1 <+: way ∧ (value.leaf_at (p.1.drop q.1.length)).isSome = true := by
  cases h with
  | one _ _ _ _ => exact ⟨q, List.prefix_rfl, hin, by simp⟩
  | two hcont1 hcont2 _ _ horder hle hsib _ _ =>
    obtain ⟨h63, -, -⟩ := split_children hcont1 hcont2 horder hle hsib hq
    obtain ⟨t, rfl⟩ := hin
    cases t with
    | nil =>
      rw [List.append_nil] at hlen
      omega
    | cons b t =>
      refine ⟨q.child h63 b, ⟨[b], rfl⟩, ⟨t, by simp [Prefix.child]⟩, ?_⟩
      cases b <;> simp [Prefix.child]

/-- Each way still ends in a leaf: a new one, or the one it had. -/
theorem ShardConfig.Placed.covers (hplaced : Placed σ s value σ') (h : Passes σ u s value) (hlen : way.length = 63)
    (hold : ∃ p : Prefix, p.1 <+: way ∧ (σ.leaf wc p).isSome = true) : ∃ p : Prefix, p.1 <+: way ∧ (σ'.leaf wc p).isSome = true := by
  obtain ⟨q, hq, hleaves⟩ := hplaced.place
  by_cases hin : wc = s.workchain ∧ q.1 <+: way
  · obtain ⟨p, hqp, hp, hleaf⟩ := h.covers hq hlen hin.2
    refine ⟨p, hp, ?_⟩
    rwa [hleaves, if_pos ⟨hin.1, hqp⟩]
  · obtain ⟨p, hp, hleaf⟩ := hold
    refine ⟨p, hp, ?_⟩
    rwa [hleaves, if_neg fun hc => hin ⟨hc.1, hc.2.trans hp⟩]

/-- Any calls, in any order. -/
abbrev AnyRun (validate_ref : ShardTree → Bool) (σ₀ : ShardConfig) (state : ShardConfig × List Update) : Prop :=
  Reach (turn validate_ref) (fun _ _ => True) (fun state => state = (σ₀, [])) state

theorem AnyRun.covers {state : ShardConfig × List Update} (h : AnyRun validate_ref σ₀ state) (hlen : way.length = 63)
    (hold : ∃ p : Prefix, p.1 <+: way ∧ (σ₀.leaf wc p).isSome = true) : ∃ p : Prefix, p.1 <+: way ∧ (state.1.leaf wc p).isSome = true := by
  refine Reach.inv (I := fun state => ∃ p : Prefix, p.1 <+: way ∧ (state.1.leaf wc p).isSome = true) ?_ ?_ h
  · rintro _ rfl
    exact hold
  · rintro ⟨σ, l⟩ u ⟨σ', l'⟩ hi - hturn
    rw [turn] at hturn
    rcases (show Ends _ (u.apply validate_ref σ) _ from ShardConfig.apply_ends u) with ⟨σ₁, happly, s, value, hpasses, hplaced⟩ | ⟨f, happly, -⟩
    · rw [happly] at hturn
      cases hturn
      exact hplaced.covers hpasses hlen hi
    · rw [happly] at hturn
      cases f with
      | status message =>
        cases hturn
        exact hi
      | check => cases hturn

/-- After any calls, each account of a workchain in which each had a shard has exactly one, and these
shards are those of a layout. -/
theorem accounts_partitioned {state : ShardConfig × List Update} (h : AnyRun validate_ref σ₀ state) (hmc : wc ≠ masterchainId)
    (hwc : wc ≠ workchainInvalid) (hstart : ∀ a, ∃ s, σ₀.Owns wc a s) :
    (∀ a, ∃! s, state.1.Owns wc a s) ∧ ∃ L : ShardLayout, ∀ a s, state.1.Owns wc a s ↔ L.shard wc a = s := by
  have hall : ∀ a, ∃ s, state.1.Owns wc a s := by
    intro a
    obtain ⟨way, hlen, hway⟩ := exists_way a
    obtain ⟨s₀, hs₀⟩ := hstart a
    obtain ⟨p₀, -, hold⟩ := (ShardConfig.owns_iff hmc hwc hway).1 hs₀
    obtain ⟨p, hp⟩ := h.covers hlen ⟨p₀, hold⟩
    exact ⟨p.word, (ShardConfig.owns_iff hmc hwc hway).2 ⟨p, rfl, hp⟩⟩
  choose home hhome using hall
  have hunique : ∀ a s, state.1.Owns wc a s → s = home a := fun a s hs => hs.eq hmc hwc (hhome a)
  refine ⟨fun a => ⟨home a, hhome a, hunique a⟩, ?_⟩
  -- the other workchains have one shard
  let L : ShardLayout := {
    shard := fun w a => if w = wc then home a else rootShardId
    shard_ne_zero := fun w a => by
      split
      · exact (hhome a).1
      · decide
    contains_self := fun w a => by
      split
      · exact (hhome a).2.1
      · exact shard_contains_rootShardId a
    disjoint := fun w a a' hin => by
      split
      · next hw =>
        rw [if_pos hw] at hin
        exact (hunique a' _ ⟨(hhome a).1, hin, (hhome a).2.2⟩).symm
      · rfl
    masterchain := fun a => if_neg hmc.symm }
  have hL : ∀ a, L.shard wc a = home a := fun a => if_pos rfl
  refine ⟨L, fun a s => ⟨fun hs => (hL a).trans (hunique a s hs).symm, ?_⟩⟩
  rintro rfl
  exact hL a ▸ hhome a

/-- One shard is split: each account is in exactly one of the two. -/
theorem accounts_partitioned_split : ∃ state, turn (fun _ => true) (one_shard splitting_block, []) split_call = .ok state ∧
    ∀ a, ∃! s, state.1.Owns 0 a s := by
  have hok : satisfies (fun _ => true) (turn (fun _ => true) (one_shard splitting_block, []) split_call) = true := by decide +kernel
  obtain ⟨state, hstate, -⟩ := exists_of_satisfies hok
  have hstart : ∀ a, ∃ s, (one_shard splitting_block).Owns 0 a s :=
    fun a => ⟨shardIdAll, by decide, shard_contains_rootShardId a, by decide +kernel⟩
  exact ⟨state, hstate, (accounts_partitioned (.step (.start rfl) trivial hstate) (by decide) (by decide) hstart).1⟩

end

end Ton.Shard
