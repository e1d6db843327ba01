import Ton.Cells.Slice
import Ton.Shard.PrefixTree
/-!
# `block::ShardId`

The shard identifier of the block structures: a workchain and a prefix, built from a
word or from a word and a length, and written in 104 bits.
-/

namespace Ton.Shard
open BigEndian List BitVec Option Prefix CellBuilder
open Nat (mod_eq_of_lt mod_lt two_pow_pos)

/-- `block::ShardId`. -/
structure BlockShardId where
  workchain_id : WorkchainId
  shard_pfx_len : Int
  shard_pfx : BitVec 64
deriving DecidableEq

namespace BlockShardId

def init (s : BlockShardId) : BlockShardId :=
  if s.shard_pfx = 0 then { s with shard_pfx := 1#64 <<< 63, shard_pfx_len := 0 }
  else { s with shard_pfx_len := 63 - s.shard_pfx.ctz.toNat }

/-- `ShardId(wc_id, sh_pfx)`. -/
def of_pfx (wc_id : WorkchainId) (sh_pfx : BitVec 64) : BlockShardId := init ⟨wc_id, 0, sh_pfx⟩

/-- `ShardId(wc_id, sh_pfx, sh_pfx_len)`. -/
def of_pfx_len (wc_id : WorkchainId) (sh_pfx : BitVec 64) (sh_pfx_len : Int) : BlockShardId :=
  if sh_pfx_len < 0 then ⟨wc_id, 0, 1#64 <<< 63⟩
  else if sh_pfx_len > 63 then ⟨wc_id, 63, sh_pfx ||| 1⟩
  else
    let pow := 1#64 <<< (63 - sh_pfx_len.toNat)
    ⟨wc_id, sh_pfx_len, (sh_pfx ||| pow) &&& (pow - 1)⟩

/-- `operator==`. -/
def eq (s other : BlockShardId) : Bool := s.workchain_id == other.workchain_id && s.shard_pfx == other.shard_pfx

def invalidate (s : BlockShardId) : BlockShardId := { s with workchain_id := workchainInvalid, shard_pfx_len := 0 }

def store_ulong_rchk_bool (cb : CellBuilder) (val : Nat) (val_bits : Nat) : Option CellBuilder :=
  if val ≥ 2 ^ val_bits then none else cb.store_bits_bool (toBits val_bits val)

def serialize (s : BlockShardId) (cb : CellBuilder) : Option CellBuilder :=
  if s.workchain_id = workchainInvalid ∨ cb.remaining_bits < 104 then none
  else do
    let cb ← cb.store_bits_bool (toBits 2 0)
    -- the length as `unsigned long long`
    let cb ← store_ulong_rchk_bool cb (s.shard_pfx_len % 2 ^ 64).toNat 6
    let cb ← cb.store_bits_bool (toBits 32 s.workchain_id.toNat)
    cb.store_bits_bool (toBits 64 (s.shard_pfx &&& (s.shard_pfx - 1)).toNat)

/-- `deserialize`: whether it returns true, and what becomes of the identifier and the slice. -/
def deserialize (s : BlockShardId) (cs : CellSlice) : Bool × BlockShardId × CellSlice :=
  let (tag, cs) := cs.fetch_ulong 2
  if tag ≠ some 0 then (false, s.invalidate, cs) else
  match cs.fetch_ulong 6 with
  | (none, cs) => (false, s.invalidate, cs)
  | (some len, cs) =>
    let s := { s with shard_pfx_len := len }
    match cs.fetch_ulong 32 with
    | (none, cs) => (false, s.invalidate, cs)
    | (some wc, cs) =>
      let s := { s with workchain_id := BitVec.ofNat 32 wc }
      if s.workchain_id = workchainInvalid then (false, s.invalidate, cs) else
      match cs.fetch_ulong 64 with
      | (none, cs) => (false, s.invalidate, cs)
      | (some pfx, cs) =>
        let s := { s with shard_pfx := BitVec.ofNat 64 pfx }
        let pow2 := 1#64 <<< (63 - len)
        if s.shard_pfx &&& (pow2 - 1) = 0 then (true, { s with shard_pfx := s.shard_pfx ||| pow2 }, cs)
        else (false, s.invalidate, cs)

/-! ## The words of the prefixes -/

/-- The identifier of a prefix. -/
def at_pfx (wc : WorkchainId) (p : Prefix) : BlockShardId := ⟨wc, p.1.length, p.word⟩

/-- The first `len` bits of a word. -/
def first_bits (pfx : BitVec 64) (len : Nat) (h : len ≤ 63) : Prefix :=
  ⟨(toBits 64 pfx.toNat).take len, by rw [length_take, toBits_length]; omega⟩

section
variable (wc : WorkchainId) (p : Prefix)

theorem of_pfx_word : of_pfx wc p.word = at_pfx wc p := by
  have := p.2
  rw [of_pfx, init, if_neg p.word_ne_zero, at_pfx]
  simp only [BlockShardId.mk.injEq, true_and, and_true]
  rw [p.ctz_word]
  omega

theorem one_shift_toNat {k : Nat} (h : k ≤ 63) : (1#64 <<< k).toNat = 2 ^ k := by
  have hlt : 2 ^ k < 2 ^ 64 := Nat.pow_lt_pow_right (by decide) (by omega)
  rw [toNat_shiftLeft, Nat.shiftLeft_eq, toNat_ofNat, Nat.one_mod, Nat.one_mul, mod_eq_of_lt hlt]

theorem pow_sub_one_toNat {k : Nat} (h : k ≤ 63) : (1#64 <<< k - 1).toNat = 2 ^ k - 1 := by
  have hpos := two_pow_pos k
  have hle : (1 : BitVec 64) ≤ 1#64 <<< k := by
    rw [le_def, one_shift_toNat h]
    exact hpos
  rw [toNat_sub_of_le hle, one_shift_toNat h]
  rfl

/-- The three-argument constructor loses the prefix and the one behind it. -/
theorem of_pfx_len_ne (sh_pfx : BitVec 64) (len : Nat) (h : len ≤ 63) :
    (of_pfx_len wc sh_pfx len).shard_pfx ≠ (first_bits sh_pfx len h).word := by
  intro heq
  have hlen : (first_bits sh_pfx len h).1.length = len := by
    rw [first_bits, length_take, toBits_length]
    omega
  have hge := (first_bits sh_pfx len h).word_toNat
  rw [hlen, ← heq, of_pfx_len, if_neg (by omega), if_neg (by omega)] at hge
  simp only [Int.toNat_natCast] at hge
  rw [toNat_and, pow_sub_one_toNat (by omega), Nat.and_two_pow_sub_one_eq_mod] at hge
  have hmod := mod_lt (sh_pfx ||| 1#64 <<< (63 - len)).toNat (two_pow_pos (63 - len))
  rw [hge] at hmod
  have := Nat.le_mul_of_pos_left (2 ^ (63 - len)) (show 0 < 2 * ofBits (first_bits sh_pfx len h).1 + 1 by omega)
  omega

end

/-! ## The 104 bits -/

/-- The four fields. -/
def serial (tag len : Nat) (wc : WorkchainId) (pfx : BitVec 64) : List Bool :=
  toBits 2 tag ++ (toBits 6 len ++ (toBits 32 wc.toNat ++ toBits 64 pfx.toNat))

theorem length_serial (tag len : Nat) (wc : WorkchainId) (pfx : BitVec 64) : (serial tag len wc pfx).length = 104 := by
  simp only [serial, length_append, toBits_length]

theorem exists_serial {bits : List Bool} (h : bits.length = 104) :
    ∃ tag < 4, ∃ len < 64, ∃ wc pfx, bits = serial tag len wc pfx := by
  have hcut : ∀ (w : Nat) (l : List Bool), w ≤ l.length → ∃ v < 2 ^ w, l = toBits w v ++ l.drop w := by
    intro w l hw
    have hlen : (l.take w).length = w := by
      rw [length_take]
      omega
    have hlt := ofBits_lt (l.take w)
    rw [hlen] at hlt
    refine ⟨ofBits (l.take w), hlt, ?_⟩
    have hto := toBits_ofBits (l.take w)
    rw [hlen] at hto
    rw [hto, take_append_drop]
  obtain ⟨tag, htag, h1⟩ := hcut 2 bits (by omega)
  obtain ⟨len, hlen, h2⟩ := hcut 6 (bits.drop 2) (by rw [length_drop]; omega)
  obtain ⟨wc, hwc, h3⟩ := hcut 32 ((bits.drop 2).drop 6) (by simp only [length_drop]; omega)
  obtain ⟨pfx, hpfx, h4⟩ := hcut 64 (((bits.drop 2).drop 6).drop 32) (by simp only [length_drop]; omega)
  refine ⟨tag, htag, len, hlen, BitVec.ofNat 32 wc, BitVec.ofNat 64 pfx, ?_⟩
  have hrest : (((bits.drop 2).drop 6).drop 32).drop 64 = [] := by
    apply drop_eq_nil_of_le
    simp only [length_drop]
    omega
  rw [hrest, append_nil] at h4
  rw [serial, toNat_ofNat, mod_eq_of_lt hwc, toNat_ofNat, mod_eq_of_lt hpfx, ← h4, ← h3, ← h2, ← h1]

theorem serial_inj {tag tag' len len' : Nat} {wc wc' : WorkchainId} {pfx pfx' : BitVec 64} (htag : tag < 4) (htag' : tag' < 4)
    (hlen : len < 64) (hlen' : len' < 64) (h : serial tag len wc pfx = serial tag' len' wc' pfx') :
    tag = tag' ∧ len = len' ∧ wc = wc' ∧ pfx = pfx' := by
  have hval : ∀ {w a b : Nat}, a < 2 ^ w → b < 2 ^ w → toBits w a = toBits w b → a = b := by
    intro w a b ha hb hab
    have := congrArg ofBits hab
    rwa [ofBits_toBits, ofBits_toBits, mod_eq_of_lt ha, mod_eq_of_lt hb] at this
  obtain ⟨h1, h⟩ := append_inj h (by simp only [toBits_length])
  obtain ⟨h2, h⟩ := append_inj h (by simp only [toBits_length])
  obtain ⟨h3, h4⟩ := append_inj h (by simp only [toBits_length])
  exact ⟨hval htag htag' h1, hval hlen hlen' h2, eq_of_toNat_eq (hval wc.isLt wc'.isLt h3),
    eq_of_toNat_eq (hval pfx.isLt pfx'.isLt h4)⟩

theorem fetch_toBits {w v : Nat} (hw : w ≤ 64) (hv : v < 2 ^ w) (r : List Bool) (refs : List DataCell) :
    (⟨toBits w v ++ r, refs⟩ : CellSlice).fetch_ulong w = (some v, ⟨r, refs⟩) := by
  have hhave : (⟨toBits w v ++ r, refs⟩ : CellSlice).have_bits w = true := by
    simp [CellSlice.have_bits, CellSlice.size]
  have htake : (toBits w v ++ r).take w = toBits w v := by
    rw [take_append_of_le_length (by simp), take_of_length_le (by simp)]
  have hdrop : (toBits w v ++ r).drop w = r := by
    rw [drop_append_of_le_length (by simp), drop_of_length_le (by simp), nil_append]
  rw [CellSlice.fetch_ulong, hhave, CellSlice.advance, if_pos hhave]
  simp only [htake, hdrop, ofBits_toBits, mod_eq_of_lt hv]
  rw [if_neg (by simpa using hw)]

section
variable {pfx : BitVec 64} {len : Nat} (h : len ≤ 63)

theorem length_first_bits : (first_bits pfx len h).1.length = len := by
  rw [first_bits, length_take, toBits_length]
  omega

theorem ofBits_first_bits :
    ofBits (first_bits pfx len h).1 = pfx.toNat / 2 ^ (64 - len) := by
  have hlen := toBits_length 64 pfx.toNat
  have hval : ofBits (toBits 64 pfx.toNat) = pfx.toNat := by rw [ofBits_toBits, mod_eq_of_lt pfx.isLt]
  unfold first_bits
  dsimp only
  generalize toBits 64 pfx.toNat = l at *
  have hsplit := ofBits_append (l.take len) (l.drop len)
  have hlt := ofBits_lt (l.drop len)
  rw [take_append_drop, hval] at hsplit
  rw [length_drop, hlen] at hsplit hlt
  rw [hsplit, Nat.mul_comm, Nat.mul_add_div (two_pow_pos _), Nat.div_eq_of_lt hlt, Nat.add_zero]

/-- Setting the marker behind a prefix that zeroes follow, whatever bit was there. -/
theorem or_marker (hz : pfx.toNat % 2 ^ (63 - len) = 0) :
    pfx ||| 1#64 <<< (63 - len) = (first_bits pfx len h).word := by
  have hone : ∀ m : Nat, m ||| 1 = 2 * (m / 2) + 1 := by
    intro m
    have := @Nat.or_mod_two_eq_one m 1
    have hdiv : (m ||| 1) / 2 = m / 2 := by rw [Nat.or_div_two]; simp
    omega
  obtain ⟨m, hm⟩ := Nat.dvd_of_mod_eq_zero hz
  apply eq_of_toNat_eq
  rw [word_toNat, length_first_bits, ofBits_first_bits, toNat_or, one_shift_toNat (by omega), hm,
    show 64 - len = 63 - len + 1 by omega, Nat.pow_succ, Nat.mul_div_mul_left _ _ (two_pow_pos _), Nat.mul_comm _ m,
    ← Nat.shiftLeft_eq, ← Nat.one_shiftLeft (63 - len), ← Nat.shiftLeft_or_distrib, hone, Nat.shiftLeft_eq, Nat.one_shiftLeft]

end

/-- What is below the marker must be zero; the marker itself is not looked at. -/
theorem deserialize_serial (s : BlockShardId) {tag len : Nat} (htag : tag < 4) (hlen : len ≤ 63) (wc : WorkchainId)
    (pfx : BitVec 64) (r : List Bool) (refs : List DataCell) :
    if tag = 0 ∧ wc ≠ workchainInvalid ∧ pfx.toNat % 2 ^ (63 - len) = 0 then
      deserialize s ⟨serial tag len wc pfx ++ r, refs⟩ = (true, at_pfx wc (first_bits pfx len hlen), ⟨r, refs⟩)
    else (deserialize s ⟨serial tag len wc pfx ++ r, refs⟩).1 = false := by
  have hand : pfx &&& (1#64 <<< (63 - len) - 1) = 0 ↔ pfx.toNat % 2 ^ (63 - len) = 0 := by
    rw [← toNat_inj, toNat_and, pow_sub_one_toNat (by omega), Nat.and_two_pow_sub_one_eq_mod]
    rfl
  unfold deserialize serial
  simp only [List.append_assoc]
  rw [fetch_toBits (by decide) htag]
  by_cases h0 : tag = 0
  · subst h0
    simp only [ne_eq, not_true_eq_false, if_false, true_and]
    rw [fetch_toBits (by decide) (by omega)]
    simp only
    rw [fetch_toBits (by decide) wc.isLt]
    simp only [ofNat_toNat, setWidth_eq]
    by_cases hwc : wc = workchainInvalid
    · simp [hwc]
    · rw [if_neg hwc, fetch_toBits (by decide) pfx.isLt]
      simp only [ofNat_toNat, setWidth_eq, hwc, not_false_eq_true, true_and, hand]
      split
      · next hz => rw [or_marker hlen hz, at_pfx, length_first_bits]
      · rfl
  · simp [h0]

theorem without_marker (p : Prefix) : (p.word &&& (p.word - 1)).toNat = ofBits p.1 * 2 ^ (64 - p.1.length) := by
  have hp := p.2
  have hpos := two_pow_pos (63 - p.1.length)
  rw [low_toNat p.word_ne_zero, p.ctz_word, p.word_toNat, show 64 - p.1.length = 63 - p.1.length + 1 by omega, Nat.pow_succ,
    Nat.mul_comm (2 ^ _) 2, Nat.mul_div_mul_right _ _ hpos, show (2 * ofBits p.1 + 1) / 2 = ofBits p.1 by omega]
  ring

theorem store_bits_bool_of_le {cb : CellBuilder} {bs : List Bool} (h : bs.length ≤ cb.remaining_bits) :
    cb.store_bits_bool bs = some { cb with bits := cb.bits ++ bs } := by
  rw [store_bits_bool, if_pos]
  simpa [can_extend_by, remaining_bits] using h

theorem serialize_eq {s : BlockShardId} (hwc : s.workchain_id ≠ workchainInvalid) {len : Nat}
    (hlen : (s.shard_pfx_len % 2 ^ 64).toNat = len) (h : len ≤ 63) {cb : CellBuilder} (hcb : 104 ≤ cb.remaining_bits) :
    s.serialize cb = some { cb with bits := cb.bits ++ serial 0 len s.workchain_id (s.shard_pfx &&& (s.shard_pfx - 1)) } := by
  have hroom := hcb
  unfold remaining_bits at hroom
  have hneg : ¬(s.workchain_id = workchainInvalid ∨ cb.remaining_bits < 104) := fun h => h.elim hwc (fun h => by omega)
  rw [serialize, if_neg hneg]
  simp only [hlen, store_ulong_rchk_bool, if_neg (show ¬len ≥ 2 ^ 6 by omega), bind_eq_bind]
  rw [store_bits_bool_of_le (by rw [toBits_length]; omega), bind_some,
    store_bits_bool_of_le (by simp only [remaining_bits, length_append, toBits_length]; omega), bind_some,
    store_bits_bool_of_le (by simp only [remaining_bits, length_append, toBits_length]; omega), bind_some,
    store_bits_bool_of_le (by simp only [remaining_bits, length_append, toBits_length]; omega)]
  simp only [serial, List.append_assoc]

theorem serialize_at {wc : WorkchainId} (hwc : wc ≠ workchainInvalid) (p : Prefix) {cb : CellBuilder}
    (hcb : 104 ≤ cb.remaining_bits) : (at_pfx wc p).serialize cb =
      some { cb with bits := cb.bits ++ serial 0 p.1.length wc (p.word &&& (p.word - 1)) } := by
  have hp := p.2
  exact serialize_eq (s := at_pfx wc p) hwc (by simp only [at_pfx]; omega) hp hcb

theorem deserialize_serialize (s : BlockShardId) {wc : WorkchainId} (hwc : wc ≠ workchainInvalid) (p : Prefix) (r : List Bool)
    (refs : List DataCell) : deserialize s ⟨serial 0 p.1.length wc (p.word &&& (p.word - 1)) ++ r, refs⟩ =
      (true, at_pfx wc p, ⟨r, refs⟩) := by
  have hp := p.2
  have hpow : (64 - p.1.length) = 1 + (63 - p.1.length) := by omega
  have hz : (p.word &&& (p.word - 1)).toNat % 2 ^ (63 - p.1.length) = 0 := by
    rw [without_marker, hpow, Nat.pow_add, ← Nat.mul_assoc]
    exact Nat.mul_mod_left _ _
  have h := deserialize_serial s (by decide : 0 < 4) hp wc (p.word &&& (p.word - 1)) r refs
  rw [if_pos ⟨rfl, hwc, hz⟩] at h
  rw [h]
  have hbits : first_bits (p.word &&& (p.word - 1)) p.1.length hp = p := by
    refine Subtype.ext (ofBits_inj (length_first_bits hp) ?_)
    rw [ofBits_first_bits, without_marker, Nat.mul_div_left _ (two_pow_pos _)]
  rw [hbits]

/-! ## What is written and what is read -/

/-- The identifiers that the constructors make. -/
inductive Built : BlockShardId → Prop
  | of_pfx (wc : WorkchainId) (sh_pfx : BitVec 64) : Built (of_pfx wc sh_pfx)
  | of_pfx_len (wc : WorkchainId) (sh_pfx : BitVec 64) (sh_pfx_len : Int) : Built (of_pfx_len wc sh_pfx sh_pfx_len)

/-- The strings that `serialize` writes for some of the identifiers. -/
def Produced (ids : BlockShardId → Prop) (bits : List Bool) : Prop := ∃ s cb, ids s ∧ s.serialize {} = some cb ∧ cb.bits = bits

/-- The strings of tag zero and a valid workchain whose length and word are such. -/
def Holding (P : Nat → Nat → Prop) (bits : List Bool) : Prop :=
  ∃ len ≤ 63, ∃ wc, wc ≠ workchainInvalid ∧ ∃ pfx : BitVec 64, P len pfx.toNat ∧ bits = serial 0 len wc pfx

/-- The bit behind the prefix is set, and zeroes follow. -/
def Marked (len pfx : Nat) : Prop := pfx % 2 ^ (64 - len) = 2 ^ (63 - len)

/-- The prefix is gone, and what is left below the marker is not zero. -/
def Lost (len pfx : Nat) : Prop := 0 < pfx ∧ pfx < 2 ^ (63 - len) ∧ pfx % 2 = 0

section
variable {P Q : Nat → Nat → Prop} {tag len : Nat} {wc : WorkchainId} {pfx : BitVec 64} {bits : List Bool}

theorem holding_iff (htag : tag < 4) (hlen : len ≤ 63) :
    Holding P (serial tag len wc pfx) ↔ tag = 0 ∧ wc ≠ workchainInvalid ∧ P len pfx.toNat := by
  constructor
  · rintro ⟨len', hlen', wc', hwc', pfx', hP, heq⟩
    obtain ⟨rfl, rfl, rfl, rfl⟩ := serial_inj htag (by decide) (by omega) (by omega) heq
    exact ⟨rfl, hwc', hP⟩
  · rintro ⟨rfl, hwc, hP⟩
    exact ⟨len, hlen, wc, hwc, pfx, hP, rfl⟩

theorem holding_differ (h : bits.length = 104) :
    (Holding P bits ↔ Holding Q bits) ↔ ¬Holding (fun len pfx => ¬(P len pfx ↔ Q len pfx)) bits := by
  obtain ⟨tag, htag, len, hlen, wc, pfx, rfl⟩ := exists_serial h
  simp only [holding_iff htag (show len ≤ 63 by omega)]
  tauto

theorem Holding.congr (h : ∀ len ≤ 63, ∀ pfx, P len pfx ↔ Q len pfx) : Holding P bits ↔ Holding Q bits := by
  constructor
  · rintro ⟨len, hlen, wc, hwc, pfx, hP, rfl⟩
    exact ⟨len, hlen, wc, hwc, pfx, (h len hlen _).1 hP, rfl⟩
  · rintro ⟨len, hlen, wc, hwc, pfx, hQ, rfl⟩
    exact ⟨len, hlen, wc, hwc, pfx, (h len hlen _).2 hQ, rfl⟩

theorem accepts_iff (s : BlockShardId) (h : bits.length = 104) (refs : List DataCell) :
    (deserialize s ⟨bits, refs⟩).1 = true ↔ Holding (fun len pfx => pfx % 2 ^ (63 - len) = 0) bits := by
  obtain ⟨tag, htag, len, hlen, wc, pfx, rfl⟩ := exists_serial h
  have hlen : len ≤ 63 := by omega
  have hd := deserialize_serial s htag hlen wc pfx [] refs
  rw [append_nil] at hd
  rw [holding_iff htag hlen]
  split at hd
  · next hc =>
    rw [hd]
    exact ⟨fun _ => hc, fun _ => rfl⟩
  · next hc =>
    rw [hd]
    exact ⟨fun h => absurd h (by simp), fun h => absurd h hc⟩

theorem serialize_bits {s : BlockShardId} {cb : CellBuilder} (h : s.serialize {} = some cb) :
    s.workchain_id ≠ workchainInvalid ∧ ∃ len ≤ 63, (s.shard_pfx_len % 2 ^ 64).toNat = len ∧
      cb.bits = serial 0 len s.workchain_id (s.shard_pfx &&& (s.shard_pfx - 1)) := by
  by_cases hwc : s.workchain_id = workchainInvalid
  · rw [serialize, if_pos (.inl hwc)] at h
    cases h
  refine ⟨hwc, (s.shard_pfx_len % 2 ^ 64).toNat, ?_⟩
  by_cases hlen : (s.shard_pfx_len % 2 ^ 64).toNat ≤ 63
  · rw [serialize_eq hwc rfl hlen (by decide)] at h
    cases h
    exact ⟨hlen, rfl, rfl⟩
  · rw [serialize, if_neg (fun h => h.elim hwc (fun h => absurd h (by decide))), store_bits_bool_of_le (by decide)] at h
    simp only [bind_eq_bind, bind_some, store_ulong_rchk_bool, if_pos (show (s.shard_pfx_len % 2 ^ 64).toNat ≥ 2 ^ 6 by omega),
      bind_none] at h
    cases h

theorem low_even (x : BitVec 64) : (x &&& (x - 1)).toNat % 2 = 0 := by
  by_cases hx : x = 0
  · simp [hx]
  · rw [low_toNat hx, Nat.pow_succ', Nat.mul_assoc]
    exact Nat.mul_mod_right _ _

/-- The word of an even one with its last bit set. -/
theorem low_of_even (h : pfx.toNat % 2 = 0) : (pfx ||| 1) &&& ((pfx ||| 1) - 1) = pfx := by
  have hword := @or_marker pfx 63 le_rfl (Nat.mod_one _)
  rw [show pfx ||| 1 = (first_bits pfx 63 le_rfl).word from hword]
  apply eq_of_toNat_eq
  rw [without_marker, ofBits_first_bits, length_first_bits]
  omega

theorem produced_iff : Produced (fun _ => True) bits ↔ Holding (fun _ pfx => pfx % 2 = 0) bits := by
  constructor
  · rintro ⟨s, cb, -, hs, rfl⟩
    obtain ⟨hwc, len, hlen, -, hb⟩ := serialize_bits hs
    exact ⟨len, hlen, _, hwc, _, low_even _, hb⟩
  · rintro ⟨len, hlen, wc, hwc, pfx, heven, rfl⟩
    refine ⟨⟨wc, len, pfx ||| 1⟩, _, trivial, serialize_eq hwc (show (len % 2 ^ 64 : Int).toNat = len by omega) hlen (by decide), ?_⟩
    simp only [low_of_even heven]
    rfl

theorem at_root (wc : WorkchainId) : at_pfx wc ⟨[], Nat.zero_le 63⟩ = ⟨wc, 0, 1#64 <<< 63⟩ := by
  have hword : Prefix.word ⟨[], Nat.zero_le 63⟩ = 1#64 <<< 63 := by decide
  rw [at_pfx, hword]
  rfl

theorem of_pfx_at (wc : WorkchainId) (sh_pfx : BitVec 64) : ∃ p, of_pfx wc sh_pfx = at_pfx wc p := by
  by_cases h : sh_pfx = 0
  · refine ⟨⟨[], Nat.zero_le 63⟩, ?_⟩
    rw [at_root]
    exact if_pos h
  · obtain ⟨p, rfl⟩ := exists_prefix h
    exact ⟨p, of_pfx_word wc p⟩

theorem of_pfx_len_mid (wc : WorkchainId) (sh_pfx : BitVec 64) (hlen : len ≤ 63) :
    of_pfx_len wc sh_pfx len = ⟨wc, len, (sh_pfx ||| 1#64 <<< (63 - len)) &&& (1#64 <<< (63 - len) - 1)⟩ ∧
      ((sh_pfx ||| 1#64 <<< (63 - len)) &&& (1#64 <<< (63 - len) - 1)).toNat = sh_pfx.toNat % 2 ^ (63 - len) := by
  constructor
  · rw [of_pfx_len, if_neg (by omega), if_neg (by omega)]
    rfl
  · rw [toNat_and, pow_sub_one_toNat (by omega), Nat.and_two_pow_sub_one_eq_mod, toNat_or, one_shift_toNat (by omega),
      Nat.or_mod_two_pow, Nat.mod_self, Nat.or_zero]

theorem produced_built_iff : Produced Built bits ↔
    Holding (fun len pfx => pfx % 2 ^ (64 - len) = 0 ∨ pfx < 2 ^ (63 - len) ∧ pfx % 2 = 0) bits := by
  constructor
  · rintro ⟨s, cb, hbuilt, hs, rfl⟩
    obtain ⟨hwc, len, hlen, hl, hb⟩ := serialize_bits hs
    refine ⟨len, hlen, _, hwc, _, ?_, hb⟩
    have hat : ∀ p : Prefix, s = at_pfx s.workchain_id p → (s.shard_pfx &&& (s.shard_pfx - 1)).toNat % 2 ^ (64 - len) = 0 := by
      intro p hp
      have := p.2
      rw [hp] at hl ⊢
      obtain rfl : p.1.length = len := by
        simp only [at_pfx] at hl
        omega
      rw [at_pfx, without_marker]
      exact Nat.mul_mod_left _ _
    cases hbuilt with
    | of_pfx wc sh_pfx =>
      obtain ⟨p, hp⟩ := of_pfx_at wc sh_pfx
      exact .inl (hat p (by rw [hp]; rfl))
    | of_pfx_len wc sh_pfx sh_pfx_len =>
      by_cases h1 : sh_pfx_len < 0
      · exact .inl (hat _ (by rw [at_root, of_pfx_len, if_pos h1]))
      by_cases h2 : sh_pfx_len > 63
      · rw [of_pfx_len, if_neg h1, if_pos h2] at hl ⊢
        obtain rfl : len = 63 := hl.symm
        exact .inl (low_even _)
      · obtain ⟨m, rfl⟩ := Int.eq_ofNat_of_zero_le (not_lt.1 h1)
        obtain ⟨hs, hval⟩ := of_pfx_len_mid wc sh_pfx (show m ≤ 63 by omega)
        rw [hs] at hl ⊢
        obtain rfl : m = len := by
          simp only at hl
          omega
        refine .inr ⟨lt_of_le_of_lt ?_ (mod_lt sh_pfx.toNat (two_pow_pos (63 - m))), low_even _⟩
        rw [← hval, toNat_and]
        exact Nat.and_le_left
  · rintro ⟨len, hlen, wc, hwc, pfx, h, rfl⟩
    by_cases hz : pfx.toNat % 2 ^ (64 - len) = 0
    · refine ⟨_, _, .of_pfx wc (first_bits pfx len hlen).word, (of_pfx_word wc _).symm ▸ serialize_at hwc _ (by decide), ?_⟩
      have hpfx : (first_bits pfx len hlen).word &&& ((first_bits pfx len hlen).word - 1) = pfx := by
        apply eq_of_toNat_eq
        rw [without_marker, ofBits_first_bits, length_first_bits, Nat.div_mul_cancel (Nat.dvd_of_mod_eq_zero hz)]
      rw [hpfx, length_first_bits]
      rfl
    · obtain ⟨hlt, heven⟩ := h.resolve_left hz
      -- the marker is above the word, so the constructor keeps the word
      have hpow : 63 - len ≠ 0 := by
        intro h0
        rw [h0] at hlt
        exact hz (by rw [show pfx.toNat = 0 by omega, Nat.zero_mod])
      have hodd : (pfx ||| 1).toNat < 2 ^ (63 - len) := by
        rw [toNat_or]
        exact Nat.or_lt_two_pow hlt (Nat.one_lt_two_pow hpow)
      obtain ⟨hs, hval⟩ := of_pfx_len_mid wc (pfx ||| 1) hlen
      rw [mod_eq_of_lt hodd, toNat_inj] at hval
      rw [hval] at hs
      have hser := @serialize_eq ⟨wc, len, pfx ||| 1⟩ hwc len (by simp only; omega) hlen {} (by decide)
      refine ⟨_, { bits := serial 0 len wc ((pfx ||| 1) &&& ((pfx ||| 1) - 1)) }, .of_pfx_len wc (pfx ||| 1) len, ?_, ?_⟩
      · rw [hs]
        exact hser
      · rw [low_of_even heven]

theorem marked_or_lost (hlen : len ≤ 63) (w : Nat) :
    ¬(w % 2 ^ (63 - len) = 0 ↔ w % 2 ^ (64 - len) = 0 ∨ w < 2 ^ (63 - len) ∧ w % 2 = 0) ↔ Marked len w ∨ Lost len w := by
  unfold Marked Lost
  rw [show 64 - len = 63 - len + 1 by omega, Nat.pow_succ]
  have hpos := two_pow_pos (63 - len)
  have hmul : w % (2 ^ (63 - len) * 2) = w % 2 ^ (63 - len) + 2 ^ (63 - len) * (w / 2 ^ (63 - len) % 2) := Nat.mod_mul
  generalize 2 ^ (63 - len) = k at *
  have hlow := mod_lt w hpos
  rcases Nat.mod_two_eq_zero_or_one (w / k) with hq | hq
  · rw [hq, Nat.mul_zero, Nat.add_zero] at hmul
    rw [hmul]
    by_cases hwk : w < k
    · rw [mod_eq_of_lt hwk]
      omega
    · omega
  · rw [hq, Nat.mul_one] at hmul
    rw [hmul]
    have hwk : ¬w < k := fun h => by rw [Nat.div_eq_of_lt h] at hq; cases hq
    omega

end

end BlockShardId

open BlockShardId in
theorem shard_identifiers (wc : WorkchainId) (p : Prefix) :
    (∀ sh_pfx len, ∀ h : len ≤ 60,
      let word := (first_bits sh_pfx len (by omega)).word
      (of_pfx_len wc sh_pfx len).shard_pfx ≠ word ∧ (of_pfx_len wc sh_pfx len).eq (of_pfx wc word) = false) ∧
    of_pfx wc p.word = at_pfx wc p ∧
    (wc ≠ workchainInvalid → ∃ bits, bits.length = 104 ∧
      (∀ cb : CellBuilder, 104 ≤ cb.remaining_bits → (at_pfx wc p).serialize cb = some { cb with bits := cb.bits ++ bits }) ∧
      ∀ s r refs, deserialize s ⟨bits ++ r, refs⟩ = (true, at_pfx wc p, ⟨r, refs⟩)) ∧
    (∀ s bits refs, bits.length = 104 →
      (((deserialize s ⟨bits, refs⟩).1 = true ↔ Produced Built bits) ↔ ¬Holding (fun len pfx => Marked len pfx ∨ Lost len pfx) bits) ∧
      (((deserialize s ⟨bits, refs⟩).1 = true ↔ Produced (fun _ => True) bits) ↔
        ¬Holding (fun len pfx => ¬(pfx % 2 ^ (63 - len) = 0 ↔ pfx % 2 = 0)) bits)) ∧
    (∀ shard : ShardId, shard ≠ 0 → ∃! p : Prefix, shard = p.word) ∧
    ∀ q : Prefix,
      (shard_is_ancestor p.word q.word = true ↔ p.1 <+: q.1) ∧
      (p.1.length < 63 → ∀ left, shard_parent (shard_child p.word left) = p.word) ∧
      (shard_is_sibling p.word q.word = true ↔
        ∃ r : Prefix, r.1.length < 63 ∧ ∃ left, p.word = shard_child r.word left ∧ q.word = shard_child r.word !left) ∧
      (shard_intersects p.word q.word = true ↔
        shard_is_ancestor p.word q.word = true ∨ shard_is_ancestor q.word p.word = true) ∧
      shard_intersection p.word q.word = if q.1.length < p.1.length then p.word else q.word := by
  refine ⟨fun sh_pfx len h => ?_, of_pfx_word wc p, fun hwc => ?_, fun s bits refs h => ?_, fun shard h => ?_, fun q => ?_⟩
  · have hne := of_pfx_len_ne wc sh_pfx len (by omega)
    refine ⟨hne, ?_⟩
    rw [of_pfx_word, eq, Bool.and_eq_false_iff]
    exact .inr (by simpa [at_pfx] using hne)
  · exact ⟨_, length_serial _ _ _ _, fun cb hcb => serialize_at hwc p hcb, fun s r refs => deserialize_serialize s hwc p r refs⟩
  · rw [accepts_iff s h refs, produced_built_iff, produced_iff, holding_differ h, holding_differ h]
    exact ⟨not_congr (Holding.congr fun len hlen pfx => marked_or_lost hlen pfx), Iff.rfl⟩
  · obtain ⟨p, hp⟩ := exists_prefix h
    exact ⟨p, hp, fun q hq => word_injective (hq.symm.trans hp)⟩
  · refine ⟨ancestor_iff, fun h left => ?_, ?_, ?_, shard_intersection_word⟩
    · rw [shard_child_word h, shard_parent_word]
    · rw [sibling_iff]
      constructor
      · rintro ⟨r, hr, b, rfl, rfl⟩
        refine ⟨r, hr, !b, ?_, ?_⟩
        · rw [shard_child_word hr, Bool.not_not]
        · rw [shard_child_word hr, Bool.not_not]
      · rintro ⟨r, hr, left, hp, hq⟩
        rw [shard_child_word hr] at hp hq
        exact ⟨r, hr, !left, word_injective hp, word_injective hq⟩
    · rw [intersects_iff, ancestor_iff, ancestor_iff]

open BlockShardId in
/-- The constructor on the root's own prefix, what is written of an identifier of 61 ones, and a string that is read
but written for no identifier at all. -/
theorem shard_identifiers_fail :
    (of_pfx_len 0 0 0).shard_pfx ≠ (first_bits 0 0 (by decide)).word ∧
    (of_pfx_len 0 (-1) 61).serialize {} = some { bits := serial 0 61 0 2 } ∧
    (deserialize ⟨0, 0, 0⟩ ⟨serial 0 61 0 2, []⟩).1 = false ∧
    (deserialize ⟨0, 0, 0⟩ ⟨serial 0 63 0 1, []⟩).1 = true ∧ ¬Produced (fun _ => True) (serial 0 63 0 1) := by
  refine ⟨of_pfx_len_ne 0 0 0 (by decide), ?_, ?_, (accepts_iff _ (length_serial _ _ _ _) _).2 ⟨63, le_rfl, 0, by decide, 1, rfl, rfl⟩, ?_⟩
  · exact @serialize_eq (of_pfx_len 0 (-1) 61) (by decide) 61 (by decide) (by decide) {} (by decide)
  · rw [Bool.eq_false_iff, ne_eq, accepts_iff _ (length_serial _ _ _ _), holding_iff (by decide) (by decide)]
    exact fun h => absurd h.2.2 (by decide)
  · rw [produced_iff, holding_iff (by decide) le_rfl]
    exact fun h => absurd h.2.2 (by decide)

end Ton.Shard
