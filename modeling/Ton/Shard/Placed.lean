import Ton.Shard.ShardConfig
/-!
# Places in the trees of shards

The loops over the bits of a shard follow its prefix: `get_shard_hash` reads the leaf at the
prefix, `btree_set` grafts a tree there.
-/

namespace Ton.Shard
open BigEndian BinTree BitVec Option Bool

/-! ## The bits of a prefix -/

namespace Prefix

def nil : Prefix := ⟨[], Nat.zero_le _⟩

def tail {b : Bool} {p : List Bool} (h : (b :: p).length ≤ 63) : Prefix := ⟨p, by rw [List.length_cons] at h; omega⟩

theorem word_nil : nil.word = shardIdAll := by decide

variable {p : List Bool} {b : Bool}

theorem word_cons_ne (h : (b :: p).length ≤ 63) : word ⟨b :: p, h⟩ ≠ shardIdAll := by
  intro heq
  rw [← word_nil] at heq
  cases congrArg Subtype.val (word_injective heq)

theorem word_cons_toNat (h : (b :: p).length ≤ 63) :
    (word ⟨b :: p, h⟩).toNat = b.toNat * 2 ^ 63 + (tail h).word.toNat / 2 := by
  have hlen : p.length + 1 ≤ 63 := h
  rw [word_toNat, word_toNat, tail, List.length_cons, ofBits_cons]
  have hk : 63 - p.length = (63 - (p.length + 1)) + 1 := by omega
  have hsplit : 2 ^ 63 = 2 * 2 ^ p.length * 2 ^ (63 - (p.length + 1)) := by
    rw [← Nat.pow_succ', ← Nat.pow_add]
    congr 1
    omega
  rw [hsplit, hk, Nat.pow_succ _ (63 - (p.length + 1)), ← Nat.mul_assoc (2 * ofBits p + 1), Nat.mul_div_cancel _ (by decide)]
  ring

theorem word_even {p : Prefix} (h : p.1.length < 63) : p.word.toNat % 2 = 0 := by
  rw [word_toNat, show 63 - p.1.length = (62 - p.1.length) + 1 by omega, Nat.pow_succ, ← Nat.mul_assoc, Nat.mul_mod_left]

theorem msb_cons (h : (b :: p).length ≤ 63) : (word ⟨b :: p, h⟩).msb = b := by
  have hw := word_cons_toNat h
  have hlt := (tail h).word.isLt
  rw [msb_eq_decide]
  cases b
  · rw [decide_eq_false_iff_not]
    rw [toNat_false] at hw
    omega
  · rw [decide_eq_true_eq]
    rw [toNat_true] at hw
    omega

theorem shift_cons (h : (b :: p).length ≤ 63) : word ⟨b :: p, h⟩ <<< 1 = (tail h).word := by
  have hw := word_cons_toNat h
  have hlt := (tail h).word.isLt
  have heven : (tail h).word.toNat % 2 = 0 := word_even (by rw [List.length_cons] at h; exact h)
  apply eq_of_toNat_eq
  rw [toNat_shiftLeft, Nat.shiftLeft_eq, hw]
  cases b
  · rw [toNat_false]
    omega
  · rw [toNat_true]
    omega

theorem true_id (p : Prefix) :
    (p.word ||| BitVec.allOnes 64 >>> p.1.length) - (BitVec.allOnes 64 >>> p.1.length >>> 1) = p.word := by
  have hlen := p.2
  have hw := p.word_toNat
  have hpow : 2 ^ (64 - p.1.length) = 2 ^ (63 - p.1.length) * 2 := by
    rw [← Nat.pow_succ]
    congr 1
    omega
  have hmask : (BitVec.allOnes 64 >>> p.1.length).toNat = 2 ^ (64 - p.1.length) - 1 := by
    have h64 : 2 ^ 64 = 2 ^ (64 - p.1.length) * 2 ^ p.1.length := by
      rw [← Nat.pow_add]
      congr 1
      omega
    rw [toNat_ushiftRight, toNat_allOnes, Nat.shiftRight_eq_div_pow, h64]
    have h1 := Nat.two_pow_pos (64 - p.1.length)
    have h2 := Nat.two_pow_pos p.1.length
    rw [Nat.div_eq_iff h2]
    constructor
    · rw [Nat.sub_mul]
      omega
    · have hmul : (2 ^ (64 - p.1.length) - 1 + 1) * 2 ^ p.1.length = 2 ^ (64 - p.1.length) * 2 ^ p.1.length := by
        rw [Nat.sub_add_cancel h1]
      rw [Nat.add_mul, Nat.one_mul] at hmul
      omega
  have hor : p.word.toNat ||| (2 ^ (64 - p.1.length) - 1) =
      ofBits p.1 * 2 ^ (64 - p.1.length) + (2 ^ (64 - p.1.length) - 1) := by
    have hlt : 2 ^ (64 - p.1.length) - 1 < 2 ^ (64 - p.1.length) := by
      have := Nat.two_pow_pos (64 - p.1.length)
      omega
    have hhalf : 2 ^ (63 - p.1.length) < 2 ^ (64 - p.1.length) := Nat.pow_lt_pow_right (by decide) (by omega)
    have hones : 2 ^ (63 - p.1.length) ||| (2 ^ (64 - p.1.length) - 1) = 2 ^ (64 - p.1.length) - 1 := by
      apply Nat.eq_of_testBit_eq
      intro i
      rw [Nat.testBit_or, Nat.testBit_two_pow_sub_one, Nat.testBit_two_pow]
      by_cases hi : 63 - p.1.length = i
      · simp [hi]
        omega
      · simp [hi]
    have hsplit : p.word.toNat = ofBits p.1 * 2 ^ (64 - p.1.length) + 2 ^ (63 - p.1.length) := by
      rw [hw, hpow]
      ring
    rw [hsplit, Nat.mul_comm, Nat.two_pow_add_eq_or_of_lt hhalf, Nat.or_assoc, hones, ← Nat.two_pow_add_eq_or_of_lt hlt]
  apply eq_of_toNat_eq
  have hshift : (BitVec.allOnes 64 >>> p.1.length >>> 1).toNat = 2 ^ (63 - p.1.length) - 1 := by
    rw [toNat_ushiftRight, hmask, Nat.shiftRight_eq_div_pow, hpow]
    omega
  have hle : BitVec.allOnes 64 >>> p.1.length >>> 1 ≤ p.word ||| BitVec.allOnes 64 >>> p.1.length := by
    rw [le_def, toNat_or, hmask, hor, hshift]
    have := Nat.two_pow_pos (63 - p.1.length)
    omega
  rw [toNat_sub_of_le hle, toNat_or, hmask, hor, hshift, hw, hpow]
  have h1 := Nat.two_pow_pos (63 - p.1.length)
  have hmul : (2 * ofBits p.1 + 1) * 2 ^ (63 - p.1.length) =
      ofBits p.1 * (2 ^ (63 - p.1.length) * 2) + 2 ^ (63 - p.1.length) := by
    ring
  omega

end Prefix

namespace ShardConfig

/-! ## Reading -/

theorem descend_word (id : ShardIdFull) (t : ShardTree) (m : BitVec 64) (p : Prefix) :
    descend id true t p.word m p.1.length =
      (t.leaf_at p.1).map fun descr => (⟨id.workchain, (id.shard ||| m >>> p.1.length) - (m >>> p.1.length >>> 1)⟩, descr) := by
  obtain ⟨p, hp⟩ := p
  induction p generalizing t m with
  | nil => cases t <;> rfl
  | cons b p ih =>
    cases t with
    | leaf descr => rfl
    | broken => rfl
    | fork l r =>
      have hne : (b :: p).length ≠ 0 := Nat.succ_ne_zero _
      have hshift : m >>> 1 >>> p.length = m >>> (p.length + 1) := by rw [← shiftRight_add, Nat.add_comm]
      have htail : (b :: p).length - 1 = p.length := rfl
      have hrest : ∀ t : ShardTree, descend id true t (Prefix.tail hp).word (m >>> 1) p.length =
          (t.leaf_at p).map fun descr =>
            (⟨id.workchain, (id.shard ||| m >>> (p.length + 1)) - (m >>> (p.length + 1) >>> 1)⟩, descr) := by
        intro t
        have hp' := ih t (m >>> 1) (Prefix.tail hp).2
        rw [hshift] at hp'
        exact hp'
      rw [descend, if_neg hne, Prefix.msb_cons, Prefix.shift_cons, htail, leaf_at_fork_cons]
      cases b
      · exact hrest l
      · exact hrest r

/-- The description in the leaf of a shard. -/
def leaf (σ : ShardConfig) (workchain : WorkchainId) (p : Prefix) : Option ShardDescr :=
  σ.shard_hashes_dict.bind fun dict => (dict workchain).bind fun root => root.leaf_at p.1

theorem get_shard_hash_word (σ : ShardConfig) {wc : WorkchainId} (hmc : wc ≠ masterchainId) (hwc : wc ≠ workchainInvalid) (p : Prefix) :
    σ.get_shard_hash ⟨wc, p.word⟩ true = (σ.leaf wc p).map fun descr => McShardHash.unpack descr ⟨wc, p.word⟩ := by
  have hmc' : (⟨wc, p.word⟩ : ShardIdFull).is_masterchain = false := by simpa [ShardIdFull.is_masterchain] using hmc
  have hvalid : (⟨wc, p.word⟩ : ShardIdFull).is_valid = true := by simpa [ShardIdFull.is_valid] using hwc
  have hlen : (⟨wc, p.word⟩ : ShardIdFull).pfx_len = p.1.length := p.length_word
  rw [get_shard_hash, hmc', if_neg Bool.false_ne_true, get_shard_hash_raw, leaf, hmc', hvalid]
  cases σ.shard_hashes_dict with
  | none => rfl
  | some dict =>
    cases hroot : dict wc with
    | none => simp [hroot]
    | some root =>
      have hdescend := descend_word ⟨wc, p.word⟩ root (BitVec.allOnes 64) p
      rw [p.true_id] at hdescend
      simp only [bind_eq_bind, bind_some, hroot, hlen, hdescend, Bool.not_true, Bool.or_self, false_eq_true,
        if_false]
      rw [map_map]
      rfl

theorem get_shard_hash_zero (σ : ShardConfig) {wc : WorkchainId} (hmc : wc ≠ masterchainId) {h : McShardHash}
    (hh : σ.get_shard_hash ⟨wc, 0⟩ true = some h) : h.blk.id.shard ≠ 0 := by
  have hmc' : (⟨wc, 0⟩ : ShardIdFull).is_masterchain = false := by simpa [ShardIdFull.is_masterchain] using hmc
  rw [get_shard_hash, hmc', if_neg Bool.false_ne_true, map_eq_some_iff] at hh
  obtain ⟨⟨id, descr⟩, hraw, rfl⟩ := hh
  rw [get_shard_hash_raw, bind_eq_bind, bind_eq_some_iff] at hraw
  obtain ⟨dict, -, hraw⟩ := hraw
  split at hraw
  · cases hraw
  · rw [bind_eq_bind, bind_eq_some_iff] at hraw
    obtain ⟨root, -, hraw⟩ := hraw
    have hlen : (⟨wc, 0⟩ : ShardIdFull).pfx_len = 0 := rfl
    rw [hlen] at hraw
    cases root with
    | leaf d =>
      cases hraw
      have hshard : ∀ (d : ShardDescr) (s : ShardIdFull), (McShardHash.unpack d s).blk.id.shard = s.shard := by
        intro d s
        rw [McShardHash.unpack]
        split <;> rfl
      rw [hshard]
      show ((0 : ShardId) ||| BitVec.allOnes 64) - BitVec.allOnes 64 >>> 1 ≠ 0
      decide
    | fork l r => cases hraw
    | broken => cases hraw

/-! ## Writing -/

theorem top_bit (w : BitVec 64) : w &&& 1#64 <<< 63 ≠ 0 ↔ w.msb = true := by
  have hand : w &&& 1#64 <<< 63 = if w.getLsbD 63 then BitVec.twoPow 64 63 else 0#64 := and_twoPow w 63
  rw [hand, msb_eq_getLsbD_last]
  cases w.getLsbD 63
  · simp
  · decide

theorem btree_set_word (value t : ShardTree) (p : Prefix) : btree_set value t p.word = graft value t p.1 := by
  obtain ⟨p, hp⟩ := p
  have hzero := Prefix.word_ne_zero ⟨p, hp⟩
  induction p generalizing t with
  | nil =>
    have hall : Prefix.word ⟨[], hp⟩ = shardIdAll := Prefix.word_nil
    rw [graft_nil]
    cases t with
    | fork l r => rw [btree_set, if_neg hzero, if_pos hall]
    | leaf x => rw [btree_set, if_neg hzero, if_pos hall]; simp
    | broken => rw [btree_set, if_neg hzero, if_pos hall]; simp
  | cons b p ih =>
    have hall := Prefix.word_cons_ne hp
    cases t with
    | leaf x => rw [btree_set, if_neg hzero, if_neg hall, graft]; all_goals simp
    | broken => rw [btree_set, if_neg hzero, if_neg hall, graft]; all_goals simp
    | fork l r =>
      have htail : ∀ t, btree_set value t (Prefix.tail hp).word = graft value t p :=
        fun t => ih t (Prefix.tail hp).2 (Prefix.tail hp).word_ne_zero
      rw [btree_set, if_neg hzero, if_neg hall, graft_fork_cons, Prefix.shift_cons, htail, htail]
      simp only [top_bit, Prefix.msb_cons]

end ShardConfig

end Ton.Shard
