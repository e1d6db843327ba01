import Ton.Dict.Traverse
import Ton.Shard.ShardConfig
/-!
# Searches among the previous masterchain blocks

`ConfigInfo::get_mc_block_by_lt`, `get_prev_key_block` and `get_next_key_block` of
`mc-config.cpp`: searches in `OldMcBlocksInfo`, the dictionary of the previous blocks by their
seqno. The extra of a node says whether there is a key block under it, and the largest
`end_lt` there. The current block is in the state and not in the dictionary.
-/

namespace Ton.Block
open BigEndian CellBuilder Result BitMap BitOrder Dict Shard Text List Function

instance (b : BlockIdExt) : Decidable b.is_valid := inferInstanceAs (Decidable (_ ≠ _))

/-- 256 bits as bytes. -/
def load_bits256 (bits : List Bool) : Bits256 := fun i => UInt8.ofNat (ofBits ((bits.drop (8 * i)).take 8))

/-- `ext_blk_ref$_ end_lt:uint64 seq_no:uint32 root_hash:bits256 file_hash:bits256`, and nothing after it. -/
def ExtBlkRef.unpack (cs : CellSlice) : Option (BlockIdExt × ℕ) :=
  if cs.bits.length = 608 ∧ cs.refs = [] then
    some (⟨⟨masterchainId, shardIdAll, BitVec.ofNat 32 (ofBits ((cs.bits.drop 64).take 32))⟩,
      load_bits256 (cs.bits.drop 96), load_bits256 (cs.bits.drop 352)⟩, ofBits (cs.bits.take 64))
  else none

def unpack_old_mc_block_id (old_blk_info : CellSlice) (seqno : ℕ) : Option (BlockIdExt × ℕ) := do
  guard (old_blk_info.have_bits 1)
  let (blkid, end_lt) ← ExtBlkRef.unpack (old_blk_info.advance 1)
  guard (blkid.id.seqno.toNat = seqno)
  some (blkid, end_lt)

structure ConfigInfo where
  prev_blocks_dict : AugmentedDictionary
  block_id : BlockIdExt
  lt : LogicalTime
  is_key_state : Bool

namespace ConfigInfo

/-- The function of `get_mc_block_by_lt`. -/
def by_lt (req_lt : LogicalTime) : TraverseFunc := fun _ extra _ =>
  if extra.have_bits 65 then
    if ofBits ((extra.bits.drop 1).take 64) < req_lt.toNat then 0 else 6
  else -1

/-- That of `get_prev_key_block`. -/
def prev_key (req_seqno : BlockSeqno) : TraverseFunc := fun key_prefix extra _ =>
  if extra.prefetch_ulong 1 ≠ some 1 then 0
  else
    let x := ofBits key_prefix
    let d := 32 - key_prefix.length
    if d = 0 then if x ≤ req_seqno.toNat then 1 else 0
    else
      -- the children begin at `2 * x` and `2 * x + 1` in steps of `2 ^ (d - 1)`
      let y := req_seqno.toNat >>> (d - 1)
      if y < 2 * x then 0 else if y = 2 * x then 1 else 5

/-- That of `get_next_key_block`. -/
def next_key (req_seqno : BlockSeqno) : TraverseFunc := fun key_prefix extra _ =>
  if extra.prefetch_ulong 1 ≠ some 1 then 0
  else
    let x := ofBits key_prefix
    let d := 32 - key_prefix.length
    if d = 0 then if x ≥ req_seqno.toNat then 1 else 0
    else
      let y := req_seqno.toNat >>> (d - 1)
      if y > 2 * x + 1 then 0 else if y = 2 * x + 1 then 2 else 6

/-- What was found in the dictionary; a block that cannot be unpacked ends the process, and so does a failed `check`. -/
def unpack_found (check : BlockIdExt → Bool) : List Bool × CellSlice × CellSlice → Except TraverseExc (BlockIdExt × ℕ)
  | (key, value, _) =>
    match unpack_old_mc_block_id value (ofBits key) with
    | none => .error (.exc .check)
    | some (blkid, end_lt) => if check blkid then .ok (blkid, end_lt) else .error (.exc .check)

variable (c : ConfigInfo)

def get_mc_block_by_lt (req_lt : LogicalTime) : Except TraverseExc (Option (BlockIdExt × ℕ)) :=
  if req_lt > c.lt then .ok none
  else do
    match ← c.prev_blocks_dict.traverse_extra 32 (by_lt req_lt) with
    | some found => some <$> unpack_found (fun _ => true) found
    | none => .ok (if c.block_id.is_valid then some (c.block_id, c.lt.toNat) else none)

def get_prev_key_block (req_seqno : BlockSeqno) : Except TraverseExc (Option (BlockIdExt × ℕ)) :=
  if c.block_id.is_valid ∧ c.is_key_state ∧ c.block_id.id.seqno ≤ req_seqno then .ok (some (c.block_id, c.lt.toNat))
  else do
    match ← c.prev_blocks_dict.traverse_extra 32 (prev_key req_seqno) with
    | some found => some <$> unpack_found (fun blkid => blkid.id.seqno ≤ req_seqno) found
    | none => .ok none

def get_next_key_block (req_seqno : BlockSeqno) : Except TraverseExc (Option (BlockIdExt × ℕ)) := do
  match ← c.prev_blocks_dict.traverse_extra 32 (next_key req_seqno) with
  | some found => some <$> unpack_found (fun blkid => blkid.id.seqno ≥ req_seqno) found
  | none =>
    .ok (if c.block_id.is_valid ∧ c.is_key_state ∧ c.block_id.id.seqno ≥ req_seqno then some (c.block_id, c.lt.toNat) else none)

end ConfigInfo

/-! ## What the extras say -/

def key_flag (v : CellSlice) : Bool := v.bits.headD false

def max_end_lt (v : CellSlice) : ℕ := ofBits ((v.bits.drop 1).take 64)

/-- The extra of a subtree. -/
structure Summary (t : Trie CellSlice) (e : CellSlice) : Prop where
  size : e.bits.length = 65
  key : key_flag e = true ↔ ∃ k v, t.lookup k = some v ∧ key_flag v = true
  le_lt : ∀ k v, t.lookup k = some v → max_end_lt v ≤ max_end_lt e

theorem eval_leaf_contents {v : CellSlice} {e : CellBuilder} (h : aug_OldMcBlocksInfo.eval_leaf {} v = some e) :
    e.contents.bits.length = 65 ∧ key_flag e.contents = key_flag v ∧ max_end_lt e.contents = max_end_lt v := by
  simp only [aug_OldMcBlocksInfo] at h
  split at h
  · next hv =>
    have hlen := have_65 hv
    have he := store_bits_bool_some h
    subst he
    refine ⟨by simp [contents, hlen], ?_, ?_⟩
    · cases hb : v.bits with
      | nil => simp [hb] at hlen
      | cons b bits => simp [key_flag, contents, hb]
    · simp only [max_end_lt, contents, nil_append, drop_take, take_take]
      rfl
  · cases h

theorem eval_fork_contents {e1 e2 : CellSlice} {cb : CellBuilder} (h : aug_OldMcBlocksInfo.eval_fork {} e1 e2 = some cb) :
    cb.contents.bits = (key_flag e1 || key_flag e2) :: toBits 64 (max (max_end_lt e1) (max_end_lt e2)) := by
  simp only [aug_OldMcBlocksInfo] at h
  split at h
  · obtain ⟨cb₁, h₁, h₂⟩ := Option.bind_eq_some_iff.1 h
    rw [contents, store_bits_bool_some h₂, store_bits_bool_some h₁]
    simp only [nil_append, cons_append, key_flag, max_end_lt]
  · cases h

variable {e : CellSlice}

theorem summary {t : Trie CellSlice} (h : aug_OldMcBlocksInfo.fold t = some e) : Summary t e := by
  induction t generalizing e with
  | leaf label v =>
    obtain ⟨e', he', rfl⟩ := Option.map_eq_some_iff.1 h
    obtain ⟨hlen, hkey, hlt⟩ := eval_leaf_contents he'
    have hlook : ∀ k w, (Trie.leaf label v).lookup k = some w ↔ k = label ∧ w = v := by
      intro k w
      show update empty label (some v) k = some w ↔ _
      by_cases hk : k = label
      · subst hk
        simp [eq_comm]
      · simp [hk, empty]
    refine ⟨hlen, ?_, fun k w hk => ?_⟩
    · rw [hkey]
      constructor
      · exact fun hv => ⟨label, v, (hlook _ _).2 ⟨rfl, rfl⟩, hv⟩
      · rintro ⟨k, w, hk, hw⟩
        exact ((hlook k w).1 hk).2 ▸ hw
    · rw [((hlook k w).1 hk).2, hlt]
  | fork label l r ihl ihr =>
    obtain ⟨e1, he1, h⟩ := Option.bind_eq_some_iff.1 h
    obtain ⟨e2, he2, h⟩ := Option.bind_eq_some_iff.1 h
    obtain ⟨cb, hcb, rfl⟩ := Option.map_eq_some_iff.1 h
    have h1 := ihl he1
    have h2 := ihr he2
    have hbits := eval_fork_contents hcb
    have hmax : max_end_lt cb.contents = max (max_end_lt e1) (max_end_lt e2) := by
      have hlt : ∀ e : CellSlice, max_end_lt e < 2 ^ 64 := fun e =>
        (ofBits_lt _).trans_le (Nat.pow_le_pow_right (by decide) (length_take_le ..))
      rw [max_end_lt, hbits, drop_one, tail_cons, take_of_length_le (by simp), ofBits_toBits, Nat.mod_eq_of_lt]
      exact max_lt (hlt e1) (hlt e2)
    have hlook : ∀ k v, (Trie.fork label l r).lookup k = some v ↔
        ∃ k', (k = label ++ false :: k' ∧ l.lookup k' = some v) ∨ (k = label ++ true :: k' ∧ r.lookup k' = some v) := by
      intro k v
      constructor
      · intro hk
        obtain ⟨k₁, rfl, hk₁⟩ := under_some (show under label (split l.lookup r.lookup) k = some v from hk)
        obtain ⟨b, k', rfl, hb⟩ := split_some hk₁
        cases b
        · exact ⟨k', .inl ⟨rfl, hb⟩⟩
        · exact ⟨k', .inr ⟨rfl, hb⟩⟩
      · rintro ⟨k', ⟨rfl, hk'⟩ | ⟨rfl, hk'⟩⟩
        · exact (under_split_append ..).trans hk'
        · exact (under_split_append ..).trans hk'
    refine ⟨by simp [hbits], ?_, fun k v hk => ?_⟩
    · have hflag : key_flag cb.contents = (key_flag e1 || key_flag e2) := by rw [key_flag, hbits]; rfl
      rw [hflag, Bool.or_eq_true, h1.key, h2.key]
      constructor
      · rintro (⟨k, v, hk, hv⟩ | ⟨k, v, hk, hv⟩)
        · exact ⟨_, v, (hlook _ v).2 ⟨k, .inl ⟨rfl, hk⟩⟩, hv⟩
        · exact ⟨_, v, (hlook _ v).2 ⟨k, .inr ⟨rfl, hk⟩⟩, hv⟩
      · rintro ⟨k, v, hk, hv⟩
        obtain ⟨k', ⟨-, hk'⟩ | ⟨-, hk'⟩⟩ := (hlook k v).1 hk
        · exact .inl ⟨k', v, hk', hv⟩
        · exact .inr ⟨k', v, hk', hv⟩
    · rw [hmax]
      obtain ⟨k', ⟨-, hk'⟩ | ⟨-, hk'⟩⟩ := (hlook k v).1 hk
      · exact le_max_of_le_left (h1.le_lt k' v hk')
      · exact le_max_of_le_right (h2.le_lt k' v hk')

/-! ## Guides -/

theorem lookup_fork_cons (l r : Trie CellSlice) (b : Bool) (k : List Bool) :
    (Trie.fork [] l r).lookup (b :: k) = (if b then r.lookup else l.lookup) k := by
  show under [] (split l.lookup r.lookup) (b :: k) = _
  rw [under_nil, split_cons]
  cases b <;> rfl

theorem have_bits_65 (h : e.bits.length = 65) : e.have_bits 65 = true := decide_eq_true h.ge

theorem prefetch_flag (h : e.bits.length = 65) : e.prefetch_ulong 1 ≠ some 1 ↔ key_flag e = false := by
  obtain ⟨bits, refs⟩ := e
  cases bits with
  | nil => cases h
  | cons b bits => cases b <;> simp [CellSlice.prefetch_ulong, CellSlice.have_bits, CellSlice.size, key_flag, ofBits_cons]

theorem ofBits_under (pre k : List Bool) (b : Bool) : ofBits (pre ++ [b] ++ k) = (2 * ofBits pre + b.toNat) * 2 ^ k.length + ofBits k := by
  rw [ofBits_append, ofBits_append, ofBits_cons]
  simp [Nat.mul_comm]

namespace ConfigInfo

theorem by_lt_guides (req_lt : LogicalTime) :
    Guides aug_OldMcBlocksInfo 32 false (fun _ v => req_lt.toNat ≤ max_end_lt v) (by_lt req_lt) where
  leaf k v e _ he := by
    obtain ⟨hlen, -, hlt⟩ := eval_leaf_contents he
    have hval : by_lt req_lt k e.contents (some v) = if max_end_lt v < req_lt.toNat then 0 else 6 := by
      rw [by_lt, if_pos (have_bits_65 hlen), ← hlt]
      rfl
    rw [hval]
    split
    · next h => exact ⟨le_refl _, fun h0 => absurd h0 (by decide), fun h0 => absurd h (not_lt.2 h0)⟩
    · next h => exact ⟨by decide, fun _ => not_lt.1 h, fun _ => by decide⟩
  fork pre l r e _ _ he := by
    have hs := summary he
    have hval : by_lt req_lt pre e none = if max_end_lt e < req_lt.toNat then 0 else 6 := by
      rw [by_lt, if_pos (have_bits_65 hs.size)]
      rfl
    rw [hval]
    split
    · next h =>
      refine .inl ⟨rfl, fun k v hk hw => ?_, fun k v hk hw => ?_⟩
      · exact absurd (hs.le_lt (false :: k) v ((lookup_fork_cons l r false k).trans hk)) (by omega)
      · exact absurd (hs.le_lt (true :: k) v ((lookup_fork_cons l r true k).trans hk)) (by omega)
    · exact .inr (.inr (.inr rfl))

theorem free_of_flag {l r : Trie CellSlice} {e : CellSlice} (hs : Summary (.fork [] l r) e) (hflag : key_flag e = false)
    {pre : List Bool} {wanted : List Bool → CellSlice → Prop} (hw : ∀ k v, wanted k v → key_flag v = true) :
    Free wanted (pre ++ [false]) l ∧ Free wanted (pre ++ [true]) r := by
  have hno : ∀ (b : Bool) k v, (if b then r.lookup else l.lookup) k = some v → ¬key_flag v = true := by
    intro b k v hk hv
    have hkey := hs.key.2 ⟨b :: k, v, (lookup_fork_cons l r b k).trans hk, hv⟩
    rw [hflag] at hkey
    cases hkey
  exact ⟨fun k v hk hwk => hno false k v hk (hw _ _ hwk), fun k v hk hwk => hno true k v hk (hw _ _ hwk)⟩

theorem fork_depth {l : Trie CellSlice} {pre : List Bool} (hl : ∀ k v, l.lookup k = some v → pre.length + 1 + k.length = 32) :
    32 - pre.length ≠ 0 ∧ ∀ k v, l.lookup k = some v → k.length = 32 - pre.length - 1 := by
  obtain ⟨k₀, v₀, hk₀⟩ := l.exists_key
  have h₀ := hl k₀ v₀ hk₀
  exact ⟨by omega, fun k v hk => by have := hl k v hk; omega⟩

/-- A leaf is chosen if it is a key block on the right side. -/
theorem key_leaf {v : CellSlice} {e : CellBuilder} {P : Prop} [Decidable P] {d : ℕ} {deeper : Int} (hd : d = 0)
    (he : aug_OldMcBlocksInfo.eval_leaf {} v = some e) :
    0 ≤ (if e.contents.prefetch_ulong 1 ≠ some 1 then 0 else if d = 0 then if P then 1 else 0 else deeper : Int) ∧
      (0 < (if e.contents.prefetch_ulong 1 ≠ some 1 then 0 else if d = 0 then if P then 1 else 0 else deeper : Int) ↔ key_flag v = true ∧ P) := by
  obtain ⟨hlen, hkey, -⟩ := eval_leaf_contents he
  by_cases hflag : key_flag v = true
  · rw [if_neg (by rw [prefetch_flag hlen, hkey, hflag]; decide), if_pos hd]
    split <;> simp [*]
  · rw [if_pos ((prefetch_flag hlen).2 (hkey.trans (Bool.not_eq_true _ ▸ hflag)))]
    simp [hflag]

theorem prev_key_guides (req_seqno : BlockSeqno) :
    Guides aug_OldMcBlocksInfo 32 true (fun k v => key_flag v = true ∧ ofBits k ≤ req_seqno.toNat) (prev_key req_seqno) where
  leaf k v e hk he := key_leaf (d := 32 - k.length) (by rw [hk]) he
  fork pre l r e hl hr he := by
    have hs := summary he
    obtain ⟨hd, hll⟩ := fork_depth hl
    obtain ⟨-, hlr⟩ := fork_depth hr
    unfold prev_key
    by_cases hflag : key_flag e = false
    · rw [if_pos ((prefetch_flag hs.size).2 hflag)]
      exact .inl ⟨rfl, free_of_flag hs hflag fun _ _ h => h.1⟩
    · rw [if_neg (mt (prefetch_flag hs.size).1 hflag)]
      dsimp only
      rw [if_neg hd, Nat.shiftRight_eq_div_pow]
      generalize 32 - pre.length - 1 = m at *
      have hpos := Nat.two_pow_pos m
      -- all keys of a child start at this number
      have hbelow : ∀ (b : Bool) (k : List Bool), k.length = m → (2 * ofBits pre + b.toNat) * 2 ^ m ≤ ofBits (pre ++ [b] ++ k) := by
        intro b k hk
        rw [ofBits_under, hk]
        exact Nat.le_add_right _ _
      split
      · next hlt =>
        rw [Nat.div_lt_iff_lt_mul hpos] at hlt
        refine .inl ⟨rfl, fun k v hk hw => ?_, fun k v hk hw => ?_⟩
        · exact absurd ((hbelow false k (hll k v hk)).trans hw.2) (not_le.2 hlt)
        · have hmore : 2 * ofBits pre * 2 ^ m ≤ (2 * ofBits pre + 1) * 2 ^ m := Nat.mul_le_mul_right _ (Nat.le_succ _)
          exact absurd (hmore.trans ((hbelow true k (hlr k v hk)).trans hw.2)) (not_le.2 hlt)
      · split
        · next heq =>
          have hlt : req_seqno.toNat < (2 * ofBits pre + 1) * 2 ^ m := (Nat.div_lt_iff_lt_mul hpos).1 (by omega)
          exact .inr (.inl ⟨rfl, fun k v hk hw => absurd ((hbelow true k (hlr k v hk)).trans hw.2) (not_le.2 hlt)⟩)
        · exact .inr (.inr (.inr rfl))

theorem next_key_guides (req_seqno : BlockSeqno) :
    Guides aug_OldMcBlocksInfo 32 false (fun k v => key_flag v = true ∧ req_seqno.toNat ≤ ofBits k) (next_key req_seqno) where
  leaf k v e hk he := key_leaf (d := 32 - k.length) (by rw [hk]) he
  fork pre l r e hl hr he := by
    have hs := summary he
    obtain ⟨hd, hll⟩ := fork_depth hl
    obtain ⟨-, hlr⟩ := fork_depth hr
    unfold next_key
    by_cases hflag : key_flag e = false
    · rw [if_pos ((prefetch_flag hs.size).2 hflag)]
      exact .inl ⟨rfl, free_of_flag hs hflag fun _ _ h => h.1⟩
    · rw [if_neg (mt (prefetch_flag hs.size).1 hflag)]
      dsimp only
      rw [if_neg hd, Nat.shiftRight_eq_div_pow]
      generalize 32 - pre.length - 1 = m at *
      have hpos := Nat.two_pow_pos m
      -- all keys of a child end before this number
      have hbelow : ∀ (b : Bool) (k : List Bool), k.length = m → ofBits (pre ++ [b] ++ k) < (2 * ofBits pre + b.toNat + 1) * 2 ^ m := by
        intro b k hk
        have hlt := ofBits_lt k
        rw [hk] at hlt
        rw [ofBits_under, hk, Nat.succ_mul (2 * ofBits pre + b.toNat)]
        exact Nat.add_lt_add_left hlt _
      split
      · next hgt =>
        have hle : (2 * ofBits pre + 2) * 2 ^ m ≤ req_seqno.toNat := (Nat.le_div_iff_mul_le hpos).1 hgt
        refine .inl ⟨rfl, fun k v hk hw => ?_, fun k v hk hw => ?_⟩
        · have hmore : (2 * ofBits pre + 1) * 2 ^ m ≤ (2 * ofBits pre + 2) * 2 ^ m := Nat.mul_le_mul_right _ (Nat.le_succ _)
          exact absurd (hle.trans hw.2) (not_le.2 ((hbelow false k (hll k v hk)).trans_le hmore))
        · exact absurd (hle.trans hw.2) (not_le.2 (hbelow true k (hlr k v hk)))
      · split
        · next heq =>
          have hle : (2 * ofBits pre + 1) * 2 ^ m ≤ req_seqno.toNat := (Nat.le_div_iff_mul_le hpos).1 heq.ge
          exact .inr (.inr (.inl ⟨rfl, fun k v hk hw => absurd (hle.trans hw.2) (not_le.2 (hbelow false k (hll k v hk)))⟩))
        · exact .inr (.inr (.inr rfl))

/-! ## The searches -/

/-- A dictionary of blocks, each under its seqno, all before the current block. -/
structure Chain (c : ConfigInfo) (f : BitMap CellSlice) : Prop where
  aug : c.prev_blocks_dict.aug = aug_OldMcBlocksInfo
  key_bits : c.prev_blocks_dict.key_bits = 32
  holds : c.prev_blocks_dict.Holds f
  blocks : ∀ k v, f k = some v → ∃ b end_lt, unpack_old_mc_block_id v (ofBits k) = some (b, end_lt)
  seqno_lt : c.block_id.is_valid → ∀ k v, f k = some v → ofBits k < c.block_id.id.seqno.toNat
  lt_le : ∀ k v, f k = some v → max_end_lt v ≤ c.lt.toNat

/-- A block of the dictionary: its identifier, its `end_lt` and whether it is a key block. -/
def Recorded (f : BitMap CellSlice) (b : BlockIdExt) (end_lt : ℕ) (key : Bool) : Prop :=
  ∃ k v, f k = some v ∧ unpack_old_mc_block_id v (ofBits k) = some (b, end_lt) ∧ key = key_flag v

def Current (c : ConfigInfo) (b : BlockIdExt) (end_lt : ℕ) (key : Bool) : Prop :=
  c.block_id.is_valid ∧ b = c.block_id ∧ end_lt = c.lt.toNat ∧ key = c.is_key_state

def Knows (c : ConfigInfo) (f : BitMap CellSlice) (b : BlockIdExt) (end_lt : ℕ) (key : Bool) : Prop :=
  Recorded f b end_lt key ∨ c.Current b end_lt key

/-- The wanted block whose seqno comes first in the order `le`, or that no known block is wanted. -/
def Picks (known wanted : BlockIdExt → ℕ → Bool → Prop) (le : ℕ → ℕ → Prop) : Option (BlockIdExt × ℕ) → Prop
  | none => ∀ b end_lt key, known b end_lt key → ¬wanted b end_lt key
  | some (b, end_lt) => ∃ key, known b end_lt key ∧ wanted b end_lt key ∧ ∀ b' end_lt' key', known b' end_lt' key' →
      wanted b' end_lt' key' → le b.id.seqno.toNat b'.id.seqno.toNat

end ConfigInfo

theorem unpack_some {v : CellSlice} {seqno : ℕ} {b : BlockIdExt} {end_lt : ℕ} (h : unpack_old_mc_block_id v seqno = some (b, end_lt)) :
    b.id.seqno.toNat = seqno ∧ end_lt = max_end_lt v := by
  obtain ⟨_, hv, h⟩ := Option.bind_eq_some_iff.1 h
  obtain ⟨⟨blkid, lt⟩, hunpack, h⟩ := Option.bind_eq_some_iff.1 h
  obtain ⟨_, hseqno, h⟩ := Option.bind_eq_some_iff.1 h
  obtain ⟨rfl, rfl⟩ := Prod.mk.inj (Option.some.inj h)
  rw [Option.guard_eq_some'] at hv hseqno
  unfold ExtBlkRef.unpack at hunpack
  split at hunpack
  · rw [CellSlice.advance, if_pos hv] at hunpack
    exact ⟨hseqno, (congrArg Prod.snd (Option.some.inj hunpack)).symm⟩
  · cases hunpack

namespace ConfigInfo
variable {c : ConfigInfo} {f : BitMap CellSlice}

/-- A traversal leads to the first wanted block of the dictionary, and that block is unpacked. -/
theorem Chain.search (h : c.Chain f) {high : Bool} {wanted_entry : List Bool → CellSlice → Prop} {traverse_node : TraverseFunc}
    (hg : Guides aug_OldMcBlocksInfo 32 high wanted_entry traverse_node) (wanted : BlockIdExt → ℕ → Bool → Prop)
    (le : ℕ → ℕ → Prop) (check : BlockIdExt → Bool)
    (hw : ∀ k v b end_lt, b.id.seqno.toNat = ofBits k → end_lt = max_end_lt v → (wanted_entry k v ↔ wanted b end_lt (key_flag v)))
    (hrefl : ∀ n, le n n) (hle : ∀ k k' : List Bool, k.length = k'.length → Ahead high high k k' → le (ofBits k) (ofBits k'))
    (hcheck : ∀ b end_lt key, wanted b end_lt key → check b = true) :
    (∃ found r, c.prev_blocks_dict.traverse_extra 32 traverse_node = .ok (some found) ∧ unpack_found check found = .ok r ∧
      Picks (Recorded f) wanted le (some r)) ∨
    c.prev_blocks_dict.traverse_extra 32 traverse_node = .ok none ∧ Picks (Recorded f) wanted le none := by
  have hlen : ∀ {k v}, f k = some v → k.length = c.prev_blocks_dict.key_bits := fun hk =>
    Root.key_length Kind.augmented_fixed Kind.augmented_passes h.holds.root hk
  obtain ⟨o, hrun, hfind⟩ := h.holds.traverse_extra aug_OldMcBlocksInfo_lawful hg h.aug h.key_bits
  cases o with
  | none =>
    refine .inr ⟨hrun, ?_⟩
    rintro b end_lt key ⟨k, v, hk, hb, rfl⟩ hwb
    obtain ⟨hseqno, hlt⟩ := unpack_some hb
    exact hfind k v hk ((hw k v b end_lt hseqno hlt).2 hwb)
  | some found =>
    obtain ⟨k, v, extra⟩ := found
    obtain ⟨_, rfl, hk, hwk, hfirst⟩ := hfind
    obtain ⟨b, end_lt, hb⟩ := h.blocks k v hk
    obtain ⟨hseqno, hlt⟩ := unpack_some hb
    have hwb := (hw k v b end_lt hseqno hlt).1 hwk
    refine .inl ⟨_, (b, end_lt), hrun, ?_, key_flag v, ⟨k, v, hk, hb, rfl⟩, hwb, ?_⟩
    · simp only [unpack_found, hb, hcheck b end_lt _ hwb, if_true]
    · rintro b' end_lt' key' ⟨k', v', hk', hb', rfl⟩ hwb'
      obtain ⟨hseqno', hlt'⟩ := unpack_some hb'
      rw [hseqno, hseqno']
      rcases hfirst k' v' hk' ((hw k' v' b' end_lt' hseqno' hlt').2 hwb') with rfl | hahead
      · exact hrefl _
      · exact hle k k' ((hlen hk).trans (hlen hk').symm) hahead

/-- What the dictionary has comes first where the current block does not, and the current block is there when nothing else is. -/
theorem Picks.known {wanted : BlockIdExt → ℕ → Bool → Prop} {le : ℕ → ℕ → Prop} {r : BlockIdExt × ℕ}
    (h : Picks (Recorded f) wanted le (some r)) (hcur : ∀ b end_lt key, c.Current b end_lt key → wanted b end_lt key →
      le r.1.id.seqno.toNat b.id.seqno.toNat) : Picks (c.Knows f) wanted le (some r) := by
  obtain ⟨key, hr, hw, hfirst⟩ := h
  refine ⟨key, .inl hr, hw, ?_⟩
  rintro b end_lt key' (hb | hb) hwb
  · exact hfirst b end_lt key' hb hwb
  · exact hcur b end_lt key' hb hwb

theorem Chain.seqno_before (h : c.Chain f) {b b' : BlockIdExt} {end_lt end_lt' : ℕ} {key key' : Bool} (hb : Recorded f b end_lt key)
    (hb' : c.Current b' end_lt' key') : b.id.seqno.toNat < b'.id.seqno.toNat := by
  obtain ⟨k, v, hk, hu, rfl⟩ := hb
  obtain ⟨hvalid, rfl, -, -⟩ := hb'
  rw [(unpack_some hu).1]
  exact h.seqno_lt hvalid k v hk

section
variable {wanted : BlockIdExt → ℕ → Bool → Prop} {le : ℕ → ℕ → Prop}

theorem Picks.current (hrefl : ∀ n, le n n) (hvalid : c.block_id.is_valid)
    (hw : wanted c.block_id c.lt.toNat c.is_key_state)
    (hrec : ∀ b end_lt key, Recorded f b end_lt key → wanted b end_lt key → le c.block_id.id.seqno.toNat b.id.seqno.toNat) :
    Picks (c.Knows f) wanted le (some (c.block_id, c.lt.toNat)) := by
  refine ⟨c.is_key_state, .inr ⟨hvalid, rfl, rfl, rfl⟩, hw, ?_⟩
  rintro b end_lt key (hb | ⟨-, rfl, -, -⟩) hwb
  · exact hrec b end_lt key hb hwb
  · exact hrefl _

theorem Picks.nothing (h : Picks (Recorded f) wanted le none)
    (hcur : c.block_id.is_valid → ¬wanted c.block_id c.lt.toNat c.is_key_state) : Picks (c.Knows f) wanted le none := by
  rintro b end_lt key (hb | ⟨hvalid, rfl, rfl, rfl⟩) hwb
  · exact h b end_lt key hb hwb
  · exact hcur hvalid hwb

end

theorem get_mc_block_by_lt_picks (h : c.Chain f) (req_lt : LogicalTime) : ∃ o, c.get_mc_block_by_lt req_lt = .ok o ∧
    Picks (c.Knows f) (fun _ end_lt _ => req_lt.toNat ≤ end_lt) (· ≤ ·) o := by
  unfold get_mc_block_by_lt
  by_cases hlt : req_lt > c.lt
  · rw [if_pos hlt]
    have hlt' : c.lt.toNat < req_lt.toNat := hlt
    refine ⟨none, rfl, Picks.nothing ?_ fun _ => by omega⟩
    rintro b end_lt key ⟨k, v, hk, hb, rfl⟩
    rw [(unpack_some hb).2]
    have hle := h.lt_le k v hk
    omega
  · rw [if_neg hlt]
    have hle : req_lt.toNat ≤ c.lt.toNat := not_lt.1 hlt
    rcases h.search (by_lt_guides req_lt) (fun _ end_lt _ => req_lt.toNat ≤ end_lt) (· ≤ ·) (fun _ => true)
      (fun k v b end_lt _ hv => by rw [hv]) le_refl (fun k k' hk hahead => ((ofBits_lt_iff hk).1 hahead).le) (fun _ _ _ _ => rfl)
      with ⟨found, r, hrun, hr, hpick⟩ | ⟨hrun, hno⟩
    · refine ⟨some r, ?_, hpick.known fun b end_lt key hb _ => ?_⟩
      · rw [hrun]
        exact congrArg (some <$> ·) hr
      · obtain ⟨key', hrec, -⟩ := hpick
        exact (h.seqno_before hrec hb).le
    · rw [hrun]
      by_cases hvalid : c.block_id.is_valid
      · refine ⟨some (c.block_id, c.lt.toNat), congrArg Except.ok (if_pos hvalid), ?_⟩
        exact Picks.current le_refl hvalid hle fun b end_lt key hb hwb => absurd hwb (hno b end_lt key hb)
      · exact ⟨none, congrArg Except.ok (if_neg hvalid), Picks.nothing hno fun hv => absurd hv hvalid⟩

theorem get_prev_key_block_picks (h : c.Chain f) (req_seqno : BlockSeqno) : ∃ o, c.get_prev_key_block req_seqno = .ok o ∧
    Picks (c.Knows f) (fun b _ key => key = true ∧ b.id.seqno.toNat ≤ req_seqno.toNat) (· ≥ ·) o := by
  unfold get_prev_key_block
  by_cases hcur : c.block_id.is_valid ∧ c.is_key_state ∧ c.block_id.id.seqno ≤ req_seqno
  · rw [if_pos hcur]
    refine ⟨_, rfl, Picks.current le_refl hcur.1 hcur.2 fun b end_lt key hb _ => ?_⟩
    exact (h.seqno_before hb ⟨hcur.1, rfl, rfl, rfl⟩).le
  · rw [if_neg hcur]
    -- the current block was asked first, so it is not wanted here
    have hnone : ∀ b end_lt key, c.Current b end_lt key → ¬(key = true ∧ b.id.seqno.toNat ≤ req_seqno.toNat) := by
      rintro b end_lt key ⟨hvalid, rfl, -, rfl⟩ hw
      exact hcur ⟨hvalid, hw⟩
    rcases h.search (prev_key_guides req_seqno) (fun b _ key => key = true ∧ b.id.seqno.toNat ≤ req_seqno.toNat) (· ≥ ·)
      (fun blkid => blkid.id.seqno ≤ req_seqno) (fun k v b end_lt hseqno _ => by rw [hseqno]) le_refl
      (fun k k' hk hahead => ((ofBits_lt_iff hk.symm).1 ((ahead_not (d := false) (e := false) hk).1 hahead)).le) (fun b _ _ hw => decide_eq_true hw.2)
      with ⟨found, r, hrun, hr, hpick⟩ | ⟨hrun, hno⟩
    · refine ⟨some r, ?_, hpick.known fun b end_lt key hb hw => absurd hw (hnone b end_lt key hb)⟩
      rw [hrun]
      exact congrArg (some <$> ·) hr
    · rw [hrun]
      exact ⟨none, rfl, Picks.nothing hno fun hv => hnone _ _ _ ⟨hv, rfl, rfl, rfl⟩⟩

theorem get_next_key_block_picks (h : c.Chain f) (req_seqno : BlockSeqno) : ∃ o, c.get_next_key_block req_seqno = .ok o ∧
    Picks (c.Knows f) (fun b _ key => key = true ∧ req_seqno.toNat ≤ b.id.seqno.toNat) (· ≤ ·) o := by
  unfold get_next_key_block
  rcases h.search (next_key_guides req_seqno) (fun b _ key => key = true ∧ req_seqno.toNat ≤ b.id.seqno.toNat) (· ≤ ·)
    (fun blkid => blkid.id.seqno ≥ req_seqno) (fun k v b end_lt hseqno _ => by rw [hseqno]) le_refl
    (fun k k' hk hahead => ((ofBits_lt_iff hk).1 hahead).le) (fun b _ _ hw => decide_eq_true hw.2)
    with ⟨found, r, hrun, hr, hpick⟩ | ⟨hrun, hno⟩
  · refine ⟨some r, ?_, hpick.known fun b end_lt key hb _ => ?_⟩
    · rw [hrun]
      exact congrArg (some <$> ·) hr
    · obtain ⟨key', hrec, -⟩ := hpick
      exact (h.seqno_before hrec hb).le
  · rw [hrun]
    by_cases hcur : c.block_id.is_valid ∧ c.is_key_state ∧ c.block_id.id.seqno ≥ req_seqno
    · refine ⟨some (c.block_id, c.lt.toNat), congrArg Except.ok (if_pos hcur), ?_⟩
      exact Picks.current le_refl hcur.1 hcur.2 fun b end_lt key hb hwb => absurd hwb (hno b end_lt key hb)
    · exact ⟨none, congrArg Except.ok (if_neg hcur), Picks.nothing hno fun hv hw => hcur ⟨hv, hw⟩⟩

/-- Every search finds the block it is for, counting the current one, and finds nothing exactly when there is none. -/
theorem block_searches_exact (h : c.Chain f) :
    (∀ req_lt : LogicalTime, ∃ o, c.get_mc_block_by_lt req_lt = .ok o ∧
      Picks (c.Knows f) (fun _ end_lt _ => req_lt.toNat ≤ end_lt) (· ≤ ·) o) ∧
    (∀ req_seqno : BlockSeqno, ∃ o, c.get_prev_key_block req_seqno = .ok o ∧
      Picks (c.Knows f) (fun b _ key => key = true ∧ b.id.seqno.toNat ≤ req_seqno.toNat) (· ≥ ·) o) ∧
    ∀ req_seqno : BlockSeqno, ∃ o, c.get_next_key_block req_seqno = .ok o ∧
      Picks (c.Knows f) (fun b _ key => key = true ∧ req_seqno.toNat ≤ b.id.seqno.toNat) (· ≤ ·) o :=
  ⟨get_mc_block_by_lt_picks h, get_prev_key_block_picks h, get_next_key_block_picks h⟩

/-- A key block and the block after it are recorded, under one fork, and the current block is no key block. -/
theorem block_searches_exact_three_blocks :
    let key_block : CellSlice := ⟨true :: toBits 64 10 ++ toBits 32 1 ++ List.replicate 512 false, []⟩
    let block : CellSlice := ⟨false :: toBits 64 15 ++ toBits 32 2 ++ List.replicate 512 false, []⟩
    let f : BitMap CellSlice := update (update BitMap.empty (toBits 32 1) (some key_block)) (toBits 32 2) (some block)
    ∃ c : ConfigInfo, c.block_id.id.seqno = 3 ∧
      (∃ o, c.get_mc_block_by_lt 12 = .ok o ∧ Picks (c.Knows f) (fun _ end_lt _ => 12 ≤ end_lt) (· ≤ ·) o) ∧
      (∃ o, c.get_prev_key_block 7 = .ok o ∧ Picks (c.Knows f) (fun b _ key => key = true ∧ b.id.seqno.toNat ≤ 7) (· ≥ ·) o) ∧
      ∃ o, c.get_next_key_block 2 = .ok o ∧ Picks (c.Knows f) (fun b _ key => key = true ∧ 2 ≤ b.id.seqno.toNat) (· ≤ ·) o := by
  intro key_block block f
  have hrun : satisfies (fun r => r.1 && r.2.2) (do
      let p ← AugmentedDictionary.set ⟨aug_OldMcBlocksInfo, none, 32⟩ (toBits 32 1) key_block .Set
      let q ← p.1.set (toBits 32 2) block .Set
      .ok (p.2, q)) = true := by
    decide +kernel
  obtain ⟨⟨w₁, d, w⟩, hd, hw⟩ := exists_of_satisfies hrun
  obtain ⟨⟨d₁, w₁'⟩, hd₁, hd⟩ := bind_ok.1 hd
  obtain ⟨q, hset, hd⟩ := bind_ok.1 hd
  cases hd
  obtain ⟨rfl, rfl⟩ := Bool.and_eq_true_iff.1 hw
  have hempty : AugmentedDictionary.Holds ⟨aug_OldMcBlocksInfo, none, 32⟩ BitMap.empty := ⟨rfl, by decide⟩
  obtain ⟨hholds₁, haug₁, hbits₁⟩ := hempty.set aug_OldMcBlocksInfo_lawful rfl hd₁
  obtain ⟨hholds, haug, hbits⟩ := hholds₁.set (haug₁ ▸ aug_OldMcBlocksInfo_lawful) (by rw [hbits₁]; rfl) hset
  have hf : ∀ k v, f k = some v →
      ((unpack_old_mc_block_id v (ofBits k)).isSome && decide (ofBits k < 3) && decide (max_end_lt v ≤ 20)) = true := by
    intro k v hk
    simp only [f, update_apply] at hk
    split_ifs at hk with h2 h1
    · subst h2
      cases hk
      decide +kernel
    · subst h1
      cases hk
      decide +kernel
    · cases hk
  simp only [Bool.and_eq_true, decide_eq_true_iff, Option.isSome_iff_exists] at hf
  have hchain : Chain ⟨d, ⟨⟨masterchainId, shardIdAll, 3⟩, fun _ => 0, fun _ => 0⟩, 20, false⟩ f := by
    refine ⟨haug.trans haug₁, hbits.trans hbits₁, hholds, fun k v hk => ?_, fun _ k v hk => (hf k v hk).1.2, fun k v hk => (hf k v hk).2⟩
    obtain ⟨⟨⟨⟨b, end_lt⟩, hb⟩, -⟩, -⟩ := hf k v hk
    exact ⟨b, end_lt, hb⟩
  obtain ⟨by_lt, prev, next⟩ := block_searches_exact hchain
  exact ⟨_, rfl, by_lt 12, prev 7, next 2⟩

end ConfigInfo

end Ton.Block
