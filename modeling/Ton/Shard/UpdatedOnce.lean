import Ton.Shard.ShardUpdates
/-!
# Updates one after the other

What one call writes, and the runs of calls. A run in which no call starts below a shard that
has been split keeps `Inv`: each leaf is of the starting configuration, or it has been installed
and has a mark.
-/

namespace Ton.Shard
open Result BinTree Text List ShardIdFull

/-! ## What a call writes -/

namespace ShardConfig

variable {validate_ref : ShardTree → Bool} {σ σ' : ShardConfig} {s : ShardIdFull} {value : ShardTree}

/-- `value` is put at `s`, which gets the mark. -/
structure Placed (σ : ShardConfig) (s : ShardIdFull) (value : ShardTree) (σ' : ShardConfig) : Prop where
  place : ∃ q : Prefix, s.shard = q.word ∧ ∀ wc (p : Prefix),
    σ'.leaf wc p = if wc = s.workchain ∧ q.1 <+: p.1 then value.leaf_at (p.1.drop q.1.length) else σ.leaf wc p
  marks : σ'.shards_updated = s :: σ.shards_updated

theorem btree_set_zero (t : ShardTree) : btree_set value t 0 = none := by
  cases t with
  | fork l r => rw [btree_set, if_pos rfl]
  | leaf x => rw [btree_set, if_pos rfl]; simp
  | broken => rw [btree_set, if_pos rfl]; simp

theorem set_shard_info_ends (σ : ShardConfig) (s : ShardIdFull) (value : ShardTree) :
    Ends (fun f => f = .check ∧ s ∈ σ.shards_updated) (set_shard_info validate_ref σ s value)
      fun r => ∀ σ', r = some σ' → Placed σ s value σ' := by
  unfold set_shard_info
  cases hdict : σ.shard_hashes_dict with
  | none => exact .ok fun _ h => nomatch h
  | some dict =>
    refine .ite (fun _ => .ok fun _ h => nomatch h) fun _ => ?_
    cases hset : (dict s.workchain).bind fun root => btree_set value root s.shard with
    | none => exact .ok fun _ h => nomatch h
    | some root' =>
      refine .ite (fun hmem => .error ⟨rfl, hmem⟩) fun hnew => .ok ?_
      rintro _ ⟨⟩
      obtain ⟨root, hroot, hset⟩ := Option.bind_eq_some_iff.1 hset
      have hs : s.shard ≠ 0 := by
        intro h0
        rw [h0, btree_set_zero] at hset
        cases hset
      obtain ⟨q, hq⟩ := exists_prefix hs
      rw [hq, btree_set_word] at hset
      refine ⟨⟨q, hq, fun wc p => ?_⟩, rfl⟩
      have hleaves := leaf_at_graft hset p.1
      by_cases hwc : wc = s.workchain
      · subst hwc
        simpa [leaf, hdict, hroot] using hleaves
      · simp [leaf, hdict, hwc]

end ShardConfig

theorem McShardHash.take_fsm_eq (n : McShardHash) (ancestor : Option McShardHash) :
    ∃ fsm utime interval, n.take_fsm ancestor = n.set_fsm fsm utime interval := by
  unfold McShardHash.take_fsm
  cases ancestor with
  | none => exact ⟨n.fsm, n.fsm_utime, n.fsm_interval, rfl⟩
  | some a =>
    dsimp only
    split
    · exact ⟨_, _, _, rfl⟩
    · exact ⟨n.fsm, n.fsm_utime, n.fsm_interval, rfl⟩

/-- The leaf of a block: the state may be that of its ancestor. -/
def Stored (n : McShardHash) (descr : ShardDescr) : Prop := ∃ fsm utime interval, (n.set_fsm fsm utime interval).pack = some descr

/-- A call that passes, with the place and the tree that it writes. -/
inductive Passes (σ : ShardConfig) : Update → ShardIdFull → ShardTree → Prop
  | one {n : McShardHash} {obs : List BlockIdExt} {descr : ShardDescr} (hcont : Continues σ n obs false)
    (hwc : n.shard.workchain ≠ workchainInvalid ∧ n.shard.workchain ≠ masterchainId)
    (hnew : ∀ ob ∈ obs, shard_full ob ∉ σ.shards_updated) (hstored : Stored n descr) : Passes σ (.one (some n) obs) n.shard (.leaf descr)
  | two {n1 n2 l r : McShardHash} {obs : List BlockIdExt} {descr1 descr2 : ShardDescr} (hcont1 : Continues σ n1 obs true)
    (hcont2 : Continues σ n2 obs true) (hwc : n1.shard.workchain ≠ workchainInvalid ∧ n1.shard.workchain ≠ masterchainId)
    (hnew : ∀ ob ∈ obs, shard_full ob ∉ σ.shards_updated) (horder : (l, r) = (n1, n2) ∨ (l, r) = (n2, n1))
    (hle : l.blk.id.shard ≤ r.blk.id.shard) (hsib : l.shard.is_sibling r.shard = true)
    (hstored1 : Stored l descr1) (hstored2 : Stored r descr2) :
    Passes σ (.two (some n1) (some n2) obs) l.shard.parent (.fork (.leaf descr1) (.leaf descr2))

namespace ShardConfig

variable {validate_ref : ShardTree → Bool} {σ : ShardConfig}

theorem in_order_spec (n1 n2 : McShardHash) :
    (in_order n1 n2 = (n1, n2) ∨ in_order n1 n2 = (n2, n1)) ∧ (in_order n1 n2).1.blk.id.shard ≤ (in_order n1 n2).2.blk.id.shard := by
  unfold in_order
  split
  · next h => exact ⟨.inr rfl, BitVec.le_of_lt h⟩
  · next h => exact ⟨.inl rfl, BitVec.not_lt.1 h⟩

theorem in_order_of_le {l r : McShardHash} (h : l.blk.id.shard ≤ r.blk.id.shard) : in_order l r = (l, r) := by
  rw [in_order, if_neg]
  exact BitVec.not_lt.2 h

/-- A call is refused, or it passes and is written, unless its place has a mark. -/
theorem apply_ends (u : Update) :
    Ends (fun f => Refused f ∨ f = .check ∧ ∃ s value, Passes σ u s value ∧ s ∈ σ.shards_updated) (u.apply validate_ref σ)
      fun σ' => ∃ s value, Passes σ u s value ∧ Placed σ s value σ' := by
  cases u with
  | one new_info obs =>
    refine ((may_update_ends new_info obs _).weaken fun _ => .inl).bind ?_
    rintro ⟨res, ancestor⟩ ⟨n, rfl, hcont, hnew, hwc⟩
    refine .ite (fun _ => .error (.inl (refused _))) fun hres => ?_
    have hplain : Continues σ n obs false := by
      have hres' : res = true := by simpa using hres
      rw [hres'] at hcont
      exact hcont
    obtain ⟨fsm, utime, interval, htake⟩ := n.take_fsm_eq ancestor
    refine Ends.bind (P := fun r => ∀ σ', r = some σ' → ∃ s value, Passes σ (.one (some n) obs) s value ∧ Placed σ s value σ') ?_ ?_
    · rw [do_update_shard_info, htake]
      cases hpack : (n.set_fsm fsm utime interval).pack with
      | none => exact .ok fun _ h => nomatch h
      | some descr =>
        have hpasses : Passes σ (.one (some n) obs) n.shard (.leaf descr) := .one hplain hwc hnew ⟨_, _, _, hpack⟩
        refine ((set_shard_info_ends σ _ _).weaken ?_).mono fun r hr σ' h => ⟨_, _, hpasses, hr σ' h⟩
        rintro _ ⟨rfl, hmem⟩
        exact .inr ⟨rfl, _, _, hpasses, hmem⟩
    · intro r hr
      cases r with
      | none => exact .error (.inl (refused _))
      | some σ' => exact .ok (hr σ' rfl)
  | two new_info1 new_info2 obs =>
    refine ((may_update_ends new_info1 obs _).weaken fun _ => .inl).bind ?_
    rintro ⟨res1, a1⟩ ⟨n1, rfl, hcont1, hnew, hwc⟩
    refine ((may_update_ends new_info2 obs _).weaken fun _ => .inl).bind ?_
    rintro ⟨res2, a2⟩ ⟨n2, rfl, hcont2, -, -⟩
    refine .ite (fun _ => .error (.inl (refused _))) fun hres => ?_
    rw [Bool.or_eq_true, not_or, Bool.not_eq_true, Bool.not_eq_true] at hres
    obtain ⟨rfl, rfl⟩ := hres
    obtain ⟨horder, hle⟩ := in_order_spec n1 n2
    generalize in_order n1 n2 = infos at horder hle
    obtain ⟨l, r⟩ := infos
    refine Ends.bind (P := fun r => ∀ σ', r = some σ' → ∃ s value, Passes σ (.two (some n1) (some n2) obs) s value ∧ Placed σ s value σ') ?_ ?_
    · rw [do_update_shard_info2]
      refine .ite (fun _ => .ok fun _ h => nomatch h) fun hsib => ?_
      rw [in_order_of_le hle]
      dsimp only
      cases hpack1 : l.pack with
      | none => exact .ok fun _ h => nomatch h
      | some descr1 =>
        cases hpack2 : r.pack with
        | none => exact .ok fun _ h => nomatch h
        | some descr2 =>
          have hpasses : Passes σ (.two (some n1) (some n2) obs) l.shard.parent (.fork (.leaf descr1) (.leaf descr2)) :=
            .two hcont1 hcont2 hwc hnew horder hle (by simpa using hsib) ⟨l.fsm, l.fsm_utime, l.fsm_interval, hpack1⟩
              ⟨r.fsm, r.fsm_utime, r.fsm_interval, hpack2⟩
          refine ((set_shard_info_ends σ _ _).weaken ?_).mono fun r hr σ' h => ⟨_, _, hpasses, hr σ' h⟩
          rintro _ ⟨rfl, hmem⟩
          exact .inr ⟨rfl, _, _, hpasses, hmem⟩
    · intro o ho
      cases o with
      | none => exact .error (.inl (refused _))
      | some σ' => exact .ok (ho σ' rfl)

end ShardConfig

/-! ## What stays -/

/-- The shard was written in this configuration, or its parent was split. -/
def Marked (σ : ShardConfig) (s : ShardIdFull) : Prop := s ∈ σ.shards_updated ∨ s.parent ∈ σ.shards_updated

/-- No start block is below a shard that has been written: it is not a leaf that a split has put there. -/
def Unsplit (σ : ShardConfig) (u : Update) : Prop := ∀ ob ∈ u.old_blkids, (shard_full ob).parent ∉ σ.shards_updated

/-- A call of the list has put the leaf there. -/
def Installed (l : List Update) (s : ShardIdFull) (descr : ShardDescr) : Prop :=
  ∃ u ∈ l, ∃ n, some n ∈ u.new_infos ∧ n.shard = s ∧ Stored n descr

structure Inv (σ₀ σ : ShardConfig) (l : List Update) : Prop where
  leaves : ∀ wc p descr, σ.leaf wc p = some descr →
    σ₀.leaf wc p = some descr ∨ Installed l ⟨wc, p.word⟩ descr ∧ Marked σ ⟨wc, p.word⟩
  accepted : ∀ u ∈ l, ∀ n, some n ∈ u.new_infos → (∃ after_split, Continues σ₀ n u.old_blkids after_split) ∧ Marked σ n.shard

section
variable {σ σ₀ σ' : ShardConfig} {n : McShardHash} {obs : List BlockIdExt} {after_split : Bool}

theorem Continues.workchain (h : Continues σ n obs after_split) : ∀ ob ∈ obs, (shard_full ob).workchain = n.shard.workchain := by
  intro ob hob
  cases h with
  | plain _ hshard _ _ =>
    rw [mem_singleton.1 hob, hshard]
  | split _ hshard _ _ =>
    rw [mem_singleton.1 hob, (is_parent_iff.1 hshard).1]
    rfl
  | @merge ob1 ob2 _ _ _ _ hsib hshard _ _ _ =>
    have hw1 : (shard_full ob1).workchain = n.shard.workchain := by
      rw [(is_parent_iff.1 hshard).1]
      rfl
    have hw2 : (shard_full ob1).workchain = (shard_full ob2).workchain := by
      rw [is_sibling, Bool.and_eq_true, beq_iff_eq] at hsib
      exact hsib.1
    rcases mem_cons.1 hob with rfl | hob
    · exact hw1
    · rw [mem_singleton.1 hob, ← hw2, hw1]

/-- A configuration with the same start blocks is continued as well. -/
theorem Continues.of_leaves (h : Continues σ n obs after_split) (hsame : ∀ ob ∈ obs, ∀ odef, IsLeaf σ ob odef → IsLeaf σ₀ ob odef) :
    Continues σ₀ n obs after_split := by
  cases h with
  | plain hleaf hshard hfollows hcc => exact .plain (hsame _ (mem_singleton.2 rfl) _ hleaf) hshard hfollows hcc
  | split hleaf hshard hfollows hcc => exact .split (hsame _ (mem_singleton.2 rfl) _ hleaf) hshard hfollows hcc
  | merge hleaf1 hleaf2 hsib hshard hfollows1 hfollows2 hcc =>
    exact .merge (hsame _ (mem_cons_self ..) _ hleaf1) (hsame _ (mem_cons_of_mem _ (mem_singleton.2 rfl)) _ hleaf2)
      hsib hshard hfollows1 hfollows2 hcc

theorem Inv.start_leaf {l : List Update} (hi : Inv σ₀ σ l) {ob : BlockIdExt} {odef : McShardHash} (hwc : ob.id.workchain ≠ workchainInvalid)
    (hmc : ob.id.workchain ≠ masterchainId) (hmark : ¬Marked σ (shard_full ob)) (h : IsLeaf σ ob odef) : IsLeaf σ₀ ob odef := by
  obtain ⟨hget, hblk⟩ := h
  refine ⟨?_, hblk⟩
  have hs : ob.id.shard ≠ 0 := by
    intro h0
    rw [shard_full, h0] at hget
    refine ShardConfig.get_shard_hash_zero σ hmc hget ?_
    rw [hblk, h0]
  obtain ⟨p, hp⟩ := exists_prefix hs
  rw [shard_full, hp] at hget hmark ⊢
  rw [ShardConfig.get_shard_hash_word _ hmc hwc, Option.map_eq_some_iff] at hget ⊢
  obtain ⟨descr, hleaf, rfl⟩ := hget
  rcases hi.leaves _ _ _ hleaf with hstart | ⟨-, hmarked⟩
  · exact ⟨descr, hstart, rfl⟩
  · exact absurd hmarked hmark

end

namespace Passes

variable {σ σ₀ σ' : ShardConfig} {u : Update} {s : ShardIdFull} {value : ShardTree} {l : List Update}

theorem new (h : Passes σ u s value) : ∀ ob ∈ u.old_blkids, shard_full ob ∉ σ.shards_updated := by
  cases h with
  | one _ _ hnew _ => exact hnew
  | two _ _ _ hnew _ _ _ _ _ => exact hnew

theorem place_new (h : Passes σ u s value) (hu : Unsplit σ u) : s ∉ σ.shards_updated := by
  cases h with
  | one hcont _ hnew _ =>
    cases hcont with
    | plain _ hshard _ _ =>
      rw [hshard]
      exact hnew _ (mem_singleton.2 rfl)
    | merge _ _ _ hshard _ _ _ =>
      rw [(is_parent_iff.1 hshard).1]
      exact hu _ (mem_cons_self ..)
  | two hcont1 hcont2 _ hnew horder _ _ _ _ =>
    cases hcont1 with
    | split _ hshard1 _ _ =>
      cases hcont2 with
      | split _ hshard2 _ _ =>
        rcases horder with heq | heq
        · obtain ⟨rfl, -⟩ := Prod.mk.inj heq
          rw [← (is_parent_iff.1 hshard1).1]
          exact hnew _ (mem_singleton.2 rfl)
        · obtain ⟨rfl, -⟩ := Prod.mk.inj heq
          rw [← (is_parent_iff.1 hshard2).1]
          exact hnew _ (mem_singleton.2 rfl)

theorem continues_start (h : Passes σ u s value) (hu : Unsplit σ u) (hi : Inv σ₀ σ l) (n : McShardHash) (hn : some n ∈ u.new_infos) :
    ∃ after_split, Continues σ₀ n u.old_blkids after_split := by
  have hleaves : ∀ ob ∈ u.old_blkids, ∀ odef, ob.id.workchain ≠ workchainInvalid → ob.id.workchain ≠ masterchainId →
      IsLeaf σ ob odef → IsLeaf σ₀ ob odef := by
    intro ob hob odef hwc hmc
    refine hi.start_leaf hwc hmc ?_
    rintro (hmark | hmark)
    · exact h.new ob hob hmark
    · exact hu ob hob hmark
  have key : ∀ (m : McShardHash) b, Continues σ m u.old_blkids b →
      m.shard.workchain ≠ workchainInvalid ∧ m.shard.workchain ≠ masterchainId → ∃ b, Continues σ₀ m u.old_blkids b := by
    rintro m b hcont ⟨hwc, hmc⟩
    refine ⟨b, hcont.of_leaves fun ob hob odef => hleaves ob hob odef ?_ ?_⟩
    · rw [← hcont.workchain ob hob] at hwc
      exact hwc
    · rw [← hcont.workchain ob hob] at hmc
      exact hmc
  cases h with
  | one hcont hwc _ _ =>
    cases mem_singleton.1 hn
    exact key _ _ hcont hwc
  | @two n1 n2 _ _ obs _ _ hcont1 hcont2 hwc _ _ _ _ _ _ =>
    rcases mem_cons.1 hn with heq | hn
    · cases heq
      exact key _ _ hcont1 hwc
    · have hn2 : n = n2 := Option.some.inj (mem_singleton.1 hn)
      have hwc1 := hcont1.workchain
      have hwc2 := hcont2.workchain
      have hsame : n2.shard.workchain = n1.shard.workchain := by
        cases hcont1 with
        | split _ _ _ _ => exact (hwc2 _ (mem_singleton.2 rfl)).symm.trans (hwc1 _ (mem_singleton.2 rfl))
      rw [hn2]
      rw [← hsame] at hwc
      exact key _ _ hcont2 hwc

theorem children {l r : ShardIdFull} (hsib : l.is_sibling r = true) (hle : l.shard ≤ r.shard) {q : Prefix} (hq : l.parent.shard = q.word)
    (hl : l.shard ≠ 0) (hr : r.shard ≠ 0) :
    ∃ h : q.1.length < 63, l.shard = (q.child h false).word ∧ r.shard = (q.child h true).word := by
  obtain ⟨p, hp⟩ := exists_prefix hl
  obtain ⟨p', hp'⟩ := exists_prefix hr
  rw [is_sibling, Bool.and_eq_true, hp, hp', Prefix.sibling_iff] at hsib
  obtain ⟨-, t, ht, b, rfl, rfl⟩ := hsib
  rw [parent, hp, Prefix.shard_parent_word] at hq
  obtain rfl := Prefix.word_injective hq
  cases b with
  | false => exact ⟨ht, hp, hp'⟩
  | true =>
    rw [hp, hp', BitVec.le_def, Prefix.child_toNat, Prefix.child_toNat] at hle
    have hpos := Nat.two_pow_pos (62 - t.1.length)
    have hlt := Nat.le_of_mul_le_mul_right hle hpos
    simp at hlt

theorem split_children {n1 n2 l r : McShardHash} {obs : List BlockIdExt} (hcont1 : Continues σ n1 obs true) (hcont2 : Continues σ n2 obs true)
    (horder : (l, r) = (n1, n2) ∨ (l, r) = (n2, n1)) (hle : l.blk.id.shard ≤ r.blk.id.shard) (hsib : l.shard.is_sibling r.shard = true)
    {q : Prefix} (hq : l.shard.parent.shard = q.word) :
    ∃ h : q.1.length < 63, l.shard = ⟨l.shard.workchain, (q.child h false).word⟩ ∧ r.shard = ⟨l.shard.workchain, (q.child h true).word⟩ := by
  have hne : ∀ m : McShardHash, Continues σ m obs true → m.shard.shard ≠ 0 := by
    intro m hm
    cases hm with
    | split _ hshard _ _ => exact (is_parent_iff.1 hshard).2
  have hl : l.shard.shard ≠ 0 ∧ r.shard.shard ≠ 0 := by
    rcases horder with heq | heq
    · obtain ⟨rfl, rfl⟩ := Prod.mk.inj heq
      exact ⟨hne _ hcont1, hne _ hcont2⟩
    · obtain ⟨rfl, rfl⟩ := Prod.mk.inj heq
      exact ⟨hne _ hcont2, hne _ hcont1⟩
  have hwc : l.shard.workchain = r.shard.workchain := by
    rw [is_sibling, Bool.and_eq_true, beq_iff_eq] at hsib
    exact hsib.1
  obtain ⟨h, h1, h2⟩ := children hsib hle hq hl.1 hl.2
  refine ⟨h, ?_, ?_⟩
  · rw [← h1]
  · rw [← h2, hwc]

/-- The leaves that are written are those of the call, and have a mark. -/
theorem leaves_new (h : Passes σ u s value) (hplaced : ShardConfig.Placed σ s value σ') {wc : WorkchainId} {p : Prefix} {descr : ShardDescr}
    (hleaf : σ'.leaf wc p = some descr) :
    σ.leaf wc p = some descr ∨ Installed [u] ⟨wc, p.word⟩ descr ∧ Marked σ' ⟨wc, p.word⟩ := by
  obtain ⟨⟨q, hq, hleaves⟩, hmarks⟩ := hplaced
  rw [hleaves] at hleaf
  split at hleaf
  · next hin =>
    obtain ⟨rfl, hprefix⟩ := hin
    obtain ⟨t, ht⟩ := hprefix
    rw [← ht, drop_left] at hleaf
    right
    cases h with
    | @one n obs d hcont hwc hnew hstored =>
      rw [leaf_at_leaf] at hleaf
      split at hleaf
      · next hnil =>
        cases hleaf
        have hpq : p = q := Subtype.ext (by rw [← ht, hnil, append_nil])
        have hs : (⟨n.shard.workchain, p.word⟩ : ShardIdFull) = n.shard := by rw [hpq, ← hq]
        rw [hs]
        exact ⟨⟨_, mem_singleton.2 rfl, n, mem_singleton.2 rfl, rfl, hstored⟩, .inl (hmarks ▸ mem_cons_self ..)⟩
      · cases hleaf
    | @two n1 n2 l r obs descr1 descr2 hcont1 hcont2 hwc hnew horder hle hsib hstored1 hstored2 =>
      obtain ⟨h63, hl, hr⟩ := split_children hcont1 hcont2 horder hle hsib hq
      have hmem : some l ∈ (Update.two (some n1) (some n2) obs).new_infos ∧ some r ∈ (Update.two (some n1) (some n2) obs).new_infos := by
        rcases horder with heq | heq
        · obtain ⟨rfl, rfl⟩ := Prod.mk.inj heq
          exact ⟨mem_cons_self .., mem_cons_of_mem _ (mem_singleton.2 rfl)⟩
        · obtain ⟨rfl, rfl⟩ := Prod.mk.inj heq
          exact ⟨mem_cons_of_mem _ (mem_singleton.2 rfl), mem_cons_self ..⟩
      have hmark : ∀ b, Marked σ' ⟨l.shard.workchain, (q.child h63 b).word⟩ := by
        intro b
        have hparent : (⟨l.shard.workchain, (q.child h63 b).word⟩ : ShardIdFull).parent = l.shard.parent := by
          rw [parent, Prefix.shard_parent_word, ← hq]
          rfl
        right
        rw [hparent, hmarks]
        exact mem_cons_self ..
      cases t with
      | nil => cases hleaf
      | cons b t =>
        rw [leaf_at_fork_cons] at hleaf
        have hchild : t = [] → p = q.child h63 b := by
          rintro rfl
          exact Subtype.ext ht.symm
        cases b with
        | false =>
          rw [if_neg Bool.false_ne_true, leaf_at_leaf] at hleaf
          split at hleaf
          · next hnil =>
            cases hleaf
            rw [hchild hnil]
            exact ⟨⟨_, mem_singleton.2 rfl, l, hmem.1, hl, hstored1⟩, hmark false⟩
          · cases hleaf
        | true =>
          rw [if_pos rfl, leaf_at_leaf] at hleaf
          split at hleaf
          · next hnil =>
            cases hleaf
            rw [hchild hnil]
            exact ⟨⟨_, mem_singleton.2 rfl, r, hmem.2, hr, hstored2⟩, hmark true⟩
          · cases hleaf
  · exact .inl hleaf

theorem marked_new (h : Passes σ u s value) (hplaced : ShardConfig.Placed σ s value σ') (n : McShardHash) (hn : some n ∈ u.new_infos) :
    Marked σ' n.shard := by
  cases h with
  | one _ _ _ _ =>
    cases mem_singleton.1 hn
    exact .inl (hplaced.marks ▸ mem_cons_self ..)
  | @two n1 n2 l r obs _ _ hcont1 hcont2 _ _ horder _ _ _ _ =>
    have hparents : n1.shard.parent = n2.shard.parent := by
      cases hcont1 with
      | split _ hshard1 _ _ =>
        cases hcont2 with
        | split _ hshard2 _ _ => exact (is_parent_iff.1 hshard1).1.symm.trans (is_parent_iff.1 hshard2).1
    have hl : l.shard.parent = n1.shard.parent := by
      rcases horder with heq | heq
      · rw [(Prod.mk.inj heq).1]
      · rw [(Prod.mk.inj heq).1, hparents]
    have hmark : n.shard.parent = l.shard.parent := by
      rcases mem_cons.1 hn with heq | hn
      · rw [Option.some.inj heq, hl]
      · rw [Option.some.inj (mem_singleton.1 hn), hl, hparents]
    right
    rw [hmark, hplaced.marks]
    exact mem_cons_self ..

end Passes

/-! ## Runs -/

section
variable (validate_ref : ShardTree → Bool) {σ σ₀ σ' : ShardConfig} {u : Update} {l : List Update}

/-- A call on a configuration, with the calls accepted so far: one that is refused changes nothing. -/
def turn (state : ShardConfig × List Update) (u : Update) : Except Fault (ShardConfig × List Update) :=
  match u.apply validate_ref state.1 with
  | .ok σ => .ok (σ, u :: state.2)
  | .error (.status _) => .ok state
  | .error .check => .error .check

/-- The runs from a configuration in which no call starts at a leaf that a split has put there. -/
abbrev Run (σ₀ : ShardConfig) (state : ShardConfig × List Update) : Prop :=
  Reach (turn validate_ref) (fun state u => Unsplit state.1 u) (fun state => state = (σ₀, [])) state

theorem Marked.mono {s s' : ShardIdFull} {value : ShardTree} (h : Marked σ s) (hplaced : ShardConfig.Placed σ s' value σ') : Marked σ' s := by
  rw [Marked, hplaced.marks]
  exact h.imp (mem_cons_of_mem _) (mem_cons_of_mem _)

theorem Inv.step {s : ShardIdFull} {value : ShardTree} (hi : Inv σ₀ σ l) (hu : Unsplit σ u) (h : Passes σ u s value)
    (hplaced : ShardConfig.Placed σ s value σ') : Inv σ₀ σ' (u :: l) where
  leaves wc p descr hleaf := by
    rcases h.leaves_new hplaced hleaf with hold | ⟨⟨v, hv, hinstalled⟩, hmark⟩
    · rcases hi.leaves wc p descr hold with hstart | ⟨⟨v, hv, hinstalled⟩, hmark⟩
      · exact .inl hstart
      · exact .inr ⟨⟨v, mem_cons_of_mem _ hv, hinstalled⟩, hmark.mono hplaced⟩
    · rw [mem_singleton] at hv
      exact .inr ⟨⟨v, hv ▸ mem_cons_self .., hinstalled⟩, hmark⟩
  accepted v hv n hn := by
    rcases mem_cons.1 hv with rfl | hv
    · exact ⟨h.continues_start hu hi n hn, h.marked_new hplaced n hn⟩
    · obtain ⟨hcont, hmark⟩ := hi.accepted v hv n hn
      exact ⟨hcont, hmark.mono hplaced⟩

theorem Run.inv {state : ShardConfig × List Update} (h : Run validate_ref σ₀ state) : Inv σ₀ state.1 state.2 := by
  refine Reach.inv (I := fun state => Inv σ₀ state.1 state.2) ?_ ?_ h
  · rintro _ rfl
    exact ⟨fun _ _ _ h => .inl h, fun _ h => nomatch h⟩
  · rintro ⟨σ, l⟩ u ⟨σ', l'⟩ hi hu hturn
    rw [turn] at hturn
    rcases (show Ends _ (u.apply validate_ref σ) _ from ShardConfig.apply_ends u) with ⟨σ₁, happly, s, value, hpasses, hplaced⟩ | ⟨f, happly, hf⟩
    · rw [happly] at hturn
      cases hturn
      exact hi.step hu hpasses hplaced
    · rw [happly] at hturn
      cases f with
      | status message =>
        cases hturn
        exact hi
      | check => cases hturn

theorem apply_not_check (hu : Unsplit σ u) : u.apply validate_ref σ ≠ .error .check := by
  intro h
  rcases (show Ends _ (u.apply validate_ref σ) _ from ShardConfig.apply_ends u).bad_of_error h with ⟨message, hm⟩ | ⟨-, s, value, hpasses, hmem⟩
  · cases hm
  · exact hpasses.place_new hu hmem

theorem marked_refused (hu : Unsplit σ u) {ob : BlockIdExt} (hob : ob ∈ u.old_blkids) (hmark : Marked σ (shard_full ob)) :
    ∃ message, u.apply validate_ref σ = .error (.status message) := by
  rcases (show Ends _ (u.apply validate_ref σ) _ from ShardConfig.apply_ends u) with ⟨σ', -, s, value, hpasses, -⟩ | ⟨f, happly, hf⟩
  · rcases hmark with hmark | hmark
    · exact absurd hmark (hpasses.new ob hob)
    · exact absurd hmark (hu ob hob)
  · cases f with
    | status message => exact ⟨message, happly⟩
    | check => exact absurd happly (apply_not_check validate_ref hu)

/-- In a run in which no call starts at a leaf that a split has put there: a call that starts at a new leaf
is refused, the new leaves continue those of the starting configuration, all other leaves are still its
own, and the check does not fail. -/
theorem updated_once {state : ShardConfig × List Update} (h : Run validate_ref σ₀ state) :
    (∀ u, Unsplit state.1 u → (∃ ob ∈ u.old_blkids, ∃ v ∈ state.2, ∃ n, some n ∈ v.new_infos ∧ shard_full ob = n.shard) →
        ∃ message, u.apply validate_ref state.1 = .error (.status message)) ∧
      (∀ v ∈ state.2, ∀ n, some n ∈ v.new_infos → ∃ after_split, Continues σ₀ n v.old_blkids after_split) ∧
      (∀ wc p descr, state.1.leaf wc p = some descr → σ₀.leaf wc p = some descr ∨ Installed state.2 ⟨wc, p.word⟩ descr) ∧
      ∀ u, Unsplit state.1 u → u.apply validate_ref state.1 ≠ .error .check := by
  have hi := h.inv
  refine ⟨?_, fun v hv n hn => (hi.accepted v hv n hn).1, fun wc p descr hleaf => (hi.leaves wc p descr hleaf).imp_right And.left,
    fun u hu => apply_not_check validate_ref hu⟩
  rintro u hu ⟨ob, hob, v, hv, n, hn, hshard⟩
  refine marked_refused validate_ref hu hob ?_
  rw [hshard]
  exact (hi.accepted v hv n hn).2

/-! ## A split, and what comes after it -/

/-- A block of a shard of workchain 0. -/
def block_of (shard : ShardId) (seqno : BlockSeqno) (cc_seqno : CatchainSeqno) : McShardHash :=
  { blk := ⟨⟨0, shard, seqno⟩, fun _ => 0, fun _ => 0⟩, start_lt := 0, end_lt := 1000, next_catchain_seqno := cc_seqno }

/-- One shard, whose top block is `n`. -/
def one_shard (n : McShardHash) : ShardConfig :=
  ⟨some fun wc => if wc = 0 then some (n.pack.elim .broken .leaf) else none, none, []⟩

def unsplit_block : McShardHash := block_of shardIdAll 5 3
def unsplit_next : Update := .one (some (block_of shardIdAll 6 3)) [unsplit_block.blk]

theorem updated_once_next : ∃ state, turn (fun _ => true) (one_shard unsplit_block, []) unsplit_next = .ok state ∧
    ∀ u, Unsplit state.1 u → u.apply (fun _ => true) state.1 ≠ .error .check := by
  have hok : satisfies (fun _ => true) (turn (fun _ => true) (one_shard unsplit_block, []) unsplit_next) = true := by decide +kernel
  obtain ⟨state, hstate, -⟩ := exists_of_satisfies hok
  have hu : Unsplit (one_shard unsplit_block) unsplit_next := fun _ _ h => nomatch h
  exact ⟨state, hstate, (updated_once (fun _ => true) (.step (.start rfl) hu hstate)).2.2.2⟩

def splitting_block : McShardHash := { block_of shardIdAll 5 3 with before_split := true }
def left_shard : ShardId := 0x4000000000000000
def right_shard : ShardId := 0xC000000000000000

/-- A block of a child that waits for a merge. -/
def merging_block (shard : ShardId) : McShardHash := { (block_of shard 6 3).set_fsm .fsm_merge 0 100 with before_merge := true }

def split_call : Update := .two (some (block_of left_shard 6 3)) (some (block_of right_shard 6 3)) [splitting_block.blk]
def child_call : Update := .one (some (block_of left_shard 7 3)) [(block_of left_shard 6 3).blk]
def split_merging_call : Update := .two (some (merging_block left_shard)) (some (merging_block right_shard)) [splitting_block.blk]
def merge_call : Update := .one (some (block_of shardIdAll 7 4)) [(merging_block left_shard).blk, (merging_block right_shard).blk]

def fails_check : Except Fault ShardConfig → Bool
  | .error .check => true
  | _ => false

/-- After a split the left child is updated once more, and a merge of both children ends in the check. -/
theorem split_updated_twice :
    (∃ σ₁ σ₂, split_call.apply (fun _ => true) (one_shard splitting_block) = .ok σ₁ ∧ child_call.apply (fun _ => true) σ₁ = .ok σ₂) ∧
      ∃ σ₁, split_merging_call.apply (fun _ => true) (one_shard splitting_block) = .ok σ₁ ∧
        fails_check (merge_call.apply (fun _ => true) σ₁) = true := by
  constructor
  · have h : satisfies (fun σ => satisfies (fun _ => true) (child_call.apply (fun _ => true) σ))
        (split_call.apply (fun _ => true) (one_shard splitting_block)) = true := by decide +kernel
    obtain ⟨σ₁, h1, h⟩ := exists_of_satisfies h
    obtain ⟨σ₂, h2, -⟩ := exists_of_satisfies h
    exact ⟨σ₁, σ₂, h1, h2⟩
  · have h : satisfies (fun σ => fails_check (merge_call.apply (fun _ => true) σ))
        (split_merging_call.apply (fun _ => true) (one_shard splitting_block)) = true := by decide +kernel
    obtain ⟨σ₁, h1, h⟩ := exists_of_satisfies h
    exact ⟨σ₁, h1, h⟩

end

end Ton.Shard
