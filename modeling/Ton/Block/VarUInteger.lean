import Ton.Dict.Total
/-!
# Integers in cells

`bigint.hpp`, `refint.cpp` and `VarUIntegerPos` of `block-parse.cpp`: positive
integers of a bounded number of bytes, with their length before them. The null
reference is the outer `none`, and a `BigInt256` that is not a number the inner one.
-/

namespace Ton.Block
open BigEndian CellTraits Dict List Option

abbrev BigInt256 := Option Int

namespace BigInt256

/-- The largest and the least number with five digits from `-2 ^ 51` to `2 ^ 51 - 1`. -/
def max_value : Int := (2 ^ 51 - 1) * (1 + 2 ^ 52 + 2 ^ 104 + 2 ^ 156 + 2 ^ 208)
def min_value : Int := -2 ^ 51 * (1 + 2 ^ 52 + 2 ^ 104 + 2 ^ 156 + 2 ^ 208)

def normalize (x : Int) : BigInt256 := if min_value ≤ x ∧ x ≤ max_value then some x else none

def add : BigInt256 → BigInt256 → BigInt256
  | some x, some y => normalize (x + y)
  | _, _ => none

def sub : BigInt256 → BigInt256 → BigInt256
  | some x, some y => normalize (x - y)
  | _, _ => none

def sgn : BigInt256 → Int
  | some x => x.sign
  | none => -2 ^ 31

def cmp : BigInt256 → BigInt256 → Int
  | some x, some y => (x - y).sign
  | some x, none => if x < 0 then -1 else 1
  | none, some y => if y > 0 then -1 else 1
  | none, none => 0

/-- `bit_size(false)`. -/
def bit_size : BigInt256 → Nat
  | some x => if x < 0 then 0x7fffffff else len_bits x.toNat
  | none => 0x7fffffff

end BigInt256

/-- `fetch_int256(bits, false)`. -/
def fetch_int256 (cs : CellSlice) (bits : Nat) : Option BigInt256 × CellSlice :=
  if cs.have_bits bits then (some (some (ofBits (cs.bits.take bits) : Int)), cs.advance bits) else (none, cs)

/-- `store_int256_bool(value, val_bits, false)`. -/
def store_int256_bool (cb : CellBuilder) (value : BigInt256) (val_bits : Nat) : Option CellBuilder :=
  match value with
  | some x => if 0 ≤ x ∧ x < 2 ^ val_bits then cb.store_bits_bool (toBits val_bits x.toNat) else none
  | none => none

structure VarUIntegerPos where
  n : Nat
  store_pos_only : Bool

namespace VarUIntegerPos

def ln (t : VarUIntegerPos) : Nat := len_bits (t.n - 1)

def as_integer_skip (t : VarUIntegerPos) (cs : CellSlice) : Option BigInt256 × CellSlice :=
  match cs.fetch_ulong t.ln with
  | (some len, cs) =>
    -- `prefetch_ulong` at the end of the data is not zero either
    if len > 0 ∧ len < t.n ∧ cs.prefetch_ulong 8 ≠ some 0 then fetch_int256 cs (len * 8) else (none, cs)
  | (none, cs) => (none, cs)

def store_integer_value (t : VarUIntegerPos) (cb : CellBuilder) (value : BigInt256) : Option CellBuilder :=
  let k := value.bit_size
  if k ≤ (t.n - 1) * 8 ∧ value.sgn ≥ t.store_pos_only.toNat then do
    let cb ← cb.store_bits_bool (toBits t.ln ((k + 7) / 8))
    store_int256_bool cb value ((k + 7) / 8 * 8)
  else none

def store_integer_ref (t : VarUIntegerPos) (cb : CellBuilder) (value : Option BigInt256) : Option CellBuilder :=
  value.bind (t.store_integer_value cb)

/-- `TLB::add_values`. -/
def add_values (t : VarUIntegerPos) (cb : CellBuilder) (cs1 cs2 : CellSlice) : Option CellBuilder := do
  let x ← (t.as_integer_skip cs1).1
  let y ← (t.as_integer_skip cs2).1
  t.store_integer_ref cb (some (x.add y))

/-- `TLB::sub_values`: `none` is -1; the second component says whether the difference is not zero. -/
def sub_values (t : VarUIntegerPos) (cb : CellBuilder) (cs1 cs2 : CellSlice) : Option (CellBuilder × Bool) := do
  let x ← (t.as_integer_skip cs1).1
  let y ← (t.as_integer_skip cs2).1
  let x := x.sub y
  let cb ← t.store_integer_ref cb (some x)
  some (cb, x.sgn != 0)

end VarUIntegerPos

def t_VarUIntegerPos_32 : VarUIntegerPos := ⟨32, true⟩
def t_VarUIntegerPosRelaxed_32 : VarUIntegerPos := ⟨32, false⟩

/-! ## What is stored -/

/-- A positive integer of at most 31 bytes. -/
abbrev Amount := { x : Nat // 0 < x ∧ x < 2 ^ 248 }

def byte_len (x : Nat) : Nat := (len_bits x + 7) / 8

/-- The form of an amount in a cell. -/
def Amount.enc (x : Amount) : CellSlice := ⟨toBits 5 (byte_len x) ++ toBits (byte_len x * 8) x, []⟩

theorem two_pow_len_bits_le {x : Nat} (hx : 0 < x) : 2 ^ (len_bits x - 1) ≤ x := by
  rw [len_bits, if_neg hx.ne']
  exact Nat.log2_self_le hx.ne'

theorem len_bits_le_iff {x k : Nat} : len_bits x ≤ k ↔ x < 2 ^ k := by
  constructor
  · intro h
    exact (lt_two_pow_len_bits x).trans_le (Nat.pow_le_pow_right (by omega) h)
  · intro h
    rcases Nat.eq_zero_or_pos x with rfl | hx
    · exact Nat.zero_le k
    · by_contra hlt
      have := Nat.pow_le_pow_right (n := 2) (by omega) (show k ≤ len_bits x - 1 by omega)
      exact absurd h (by have := two_pow_len_bits_le hx; omega)

theorem Amount.byte_len_pos (x : Amount) : 0 < byte_len x := by
  have : 0 < len_bits x := by
    rw [len_bits, if_neg x.2.1.ne']
    omega
  unfold byte_len
  omega

theorem Amount.byte_len_lt (x : Amount) : byte_len x < 32 := by
  have := len_bits_le_iff.2 x.2.2
  unfold byte_len
  omega

theorem lt_byte_len (x : Nat) : x < 2 ^ (byte_len x * 8) :=
  (lt_two_pow_len_bits x).trans_le (Nat.pow_le_pow_right (by omega) (by unfold byte_len; omega))

theorem Amount.enc_small : Small Amount.enc := by
  intro x
  have := x.byte_len_lt
  refine ⟨rfl, ?_⟩
  simp only [Amount.enc, length_append, toBits_length, max_small_value]
  omega

theorem Amount.first_byte (x : Amount) : ofBits ((toBits (byte_len x * 8) x).take 8) ≠ 0 := by
  intro h0
  have hpos := x.byte_len_pos
  have hsplit := ofBits_append ((toBits (byte_len x * 8) x).take 8) ((toBits (byte_len x * 8) x).drop 8)
  rw [take_append_drop, h0, Nat.zero_mul, Nat.zero_add, ofBits_toBits_of_lt (lt_byte_len x)] at hsplit
  have hlt := ofBits_lt ((toBits (byte_len x * 8) x).drop 8)
  rw [← hsplit, length_drop, toBits_length] at hlt
  have hle := two_pow_len_bits_le x.2.1
  have hmono : 2 ^ (byte_len x * 8 - 8) ≤ 2 ^ (len_bits x - 1) := Nat.pow_le_pow_right (by omega) (by unfold byte_len; omega)
  omega

theorem as_integer_skip_enc {t : VarUIntegerPos} (ht : t.n = 32) (x : Amount) :
    (t.as_integer_skip x.enc).1 = some (some ((x : Nat) : Int)) := by
  have hln : t.ln = 5 := by rw [VarUIntegerPos.ln, ht]; decide
  have hlt := x.byte_len_lt
  have hpos := x.byte_len_pos
  have h8 : CellSlice.prefetch_ulong ⟨toBits (byte_len x * 8) x, []⟩ 8 ≠ some 0 := by
    have hh : CellSlice.have_bits ⟨toBits (byte_len x * 8) x, []⟩ 8 = true := by
      simp only [CellSlice.have_bits, CellSlice.size, toBits_length, decide_eq_true_eq]
      omega
    simp only [CellSlice.prefetch_ulong, hh, Bool.not_true, Bool.false_or, gt_iff_lt, show ¬64 < 8 by omega, decide_false,
      Bool.false_eq_true, if_false, ne_eq, Option.some.injEq]
    exact x.first_byte
  rw [VarUIntegerPos.as_integer_skip, hln, Amount.enc, fetch_ulong_append _ _ _ 5 (toBits_length 5 _) (by omega),
    ofBits_toBits_of_lt (by omega)]
  dsimp only
  rw [if_pos ⟨hpos, by omega, h8⟩]
  have hh : CellSlice.have_bits ⟨toBits (byte_len x * 8) x, []⟩ (byte_len x * 8) = true := by
    simp [CellSlice.have_bits, CellSlice.size, toBits_length]
  rw [fetch_int256, if_pos hh]
  simp only [Option.some.injEq, Nat.cast_inj]
  rw [take_of_length_le (by rw [toBits_length]), ofBits_toBits_of_lt (lt_byte_len x)]

theorem Amount.enc_injective : Function.Injective Amount.enc := by
  intro x y h
  have hx := as_integer_skip_enc (t := ⟨32, true⟩) rfl x
  rw [h, as_integer_skip_enc rfl y] at hx
  simp only [Option.some.injEq, Nat.cast_inj] at hx
  exact Subtype.ext hx.symm

theorem normalize_of_small {x : Int} (h1 : -2 ^ 256 ≤ x) (h2 : x ≤ 2 ^ 256) : BigInt256.normalize x = some x := by
  refine if_pos ⟨?_, ?_⟩
  · exact le_trans (by unfold BigInt256.min_value; norm_num) h1
  · exact h2.trans (by unfold BigInt256.max_value; norm_num)

section Store
variable {t : VarUIntegerPos} (ht : t.n = 32) {cb : CellBuilder}
include ht

theorem ln_32 : t.ln = 5 := by
  rw [VarUIntegerPos.ln, ht]
  decide

theorem store_amount (hfit : cb.bits.length + max_small_value ≤ max_bits) (x : Amount) :
    t.store_integer_value cb (some ((x : Nat) : Int)) = some ⟨cb.bits ++ x.enc.bits, cb.refs⟩ := by
  have hlt := x.byte_len_lt
  have hpos := x.2.1
  have hk : len_bits x ≤ (t.n - 1) * 8 := by
    rw [ht]
    exact len_bits_le_iff.2 x.2.2
  have hsize : BigInt256.bit_size (some ((x : Nat) : Int)) = len_bits x := by
    rw [BigInt256.bit_size, if_neg (by omega), Int.toNat_natCast]
  have hsgn : BigInt256.sgn (some ((x : Nat) : Int)) = 1 := Int.sign_eq_one_of_pos (by omega)
  simp only [max_small_value, max_bits] at hfit
  have hrange : (0 : Int) ≤ (x : Nat) ∧ ((x : Nat) : Int) < 2 ^ ((len_bits x + 7) / 8 * 8) :=
    ⟨by omega, by exact_mod_cast lt_byte_len x⟩
  have hb : (len_bits (x : Nat) + 7) / 8 = byte_len x := rfl
  rw [VarUIntegerPos.store_integer_value, hsize, if_pos ⟨hk, by rw [hsgn]; cases t.store_pos_only <;> decide⟩, ln_32 ht]
  rw [CellBuilder.store_bits_bool, if_pos (by simp [CellBuilder.can_extend_by, toBits_length, max_bits]; omega), bind_eq_bind,
    bind_some, store_int256_bool]
  rw [if_pos hrange, CellBuilder.store_bits_bool, if_pos (by simp [CellBuilder.can_extend_by, toBits_length, max_bits]; omega),
    Int.toNat_natCast, Amount.enc, hb, append_assoc]

theorem store_too_large {z : Int} (hz : 2 ^ 248 ≤ z) : t.store_integer_value cb (some z) = none := by
  have hk : ¬len_bits z.toNat ≤ (t.n - 1) * 8 := by
    rw [ht, len_bits_le_iff]
    omega
  have hsize : BigInt256.bit_size (some z) = len_bits z.toNat := if_neg (by omega)
  rw [VarUIntegerPos.store_integer_value, hsize, if_neg fun h => hk h.1]

theorem store_negative {z : Int} (hz : z < 0) : t.store_integer_value cb (some z) = none := by
  have hsize : BigInt256.bit_size (some z) = 0x7fffffff := if_pos hz
  rw [VarUIntegerPos.store_integer_value, hsize, ht, if_neg]
  omega

theorem store_zero (hrelaxed : t.store_pos_only = false) (hfit : cb.bits.length + max_small_value ≤ max_bits) :
    ∃ cb', t.store_integer_value cb (some 0) = some cb' := by
  simp only [max_small_value, max_bits] at hfit
  rw [VarUIntegerPos.store_integer_value]
  rw [if_pos ⟨Nat.zero_le _, by rw [hrelaxed]; decide⟩, ln_32 ht, CellBuilder.store_bits_bool,
    if_pos (by simp [CellBuilder.can_extend_by, toBits_length, max_bits]; omega), bind_eq_bind, bind_some,
    store_int256_bool]
  rw [if_pos ⟨le_rfl, by positivity⟩, CellBuilder.store_bits_bool,
    if_pos (by simp [CellBuilder.can_extend_by, toBits_length, max_bits, BigInt256.bit_size, len_bits])]
  exact ⟨_, rfl⟩

end Store

/-! ## What the operations do to amounts -/

def add_op : BitMap.Op Amount := fun x y =>
  if h : x.1 + y.1 < 2 ^ 248 then some (some ⟨x.1 + y.1, Nat.add_pos_left x.2.1 _, h⟩) else none

def sub_op : BitMap.Op Amount := fun x y =>
  if y.1 ≤ x.1 then some (if h : y.1 < x.1 then some ⟨x.1 - y.1, Nat.sub_pos_of_lt h, (Nat.sub_le _ _).trans_lt x.2.2⟩ else none)
  else none

theorem add_values_enc {t : VarUIntegerPos} (ht : t.n = 32) {cb : CellBuilder} (hfit : cb.bits.length + max_small_value ≤ max_bits)
    (x y : Amount) : t.add_values cb x.enc y.enc = (add_op x y).bind fun z => z.map fun z => ⟨cb.bits ++ z.enc.bits, cb.refs⟩ := by
  obtain ⟨hx, hx'⟩ := x.2
  obtain ⟨hy, hy'⟩ := y.2
  rw [VarUIntegerPos.add_values, as_integer_skip_enc ht, as_integer_skip_enc ht]
  simp only [bind_eq_bind, bind_some, VarUIntegerPos.store_integer_ref, BigInt256.add]
  rw [normalize_of_small (by omega) (by omega), add_op]
  split
  · next h => exact store_amount ht hfit ⟨x.1 + y.1, Nat.add_pos_left hx _, h⟩
  · next h => exact store_too_large ht (by omega)

theorem sub_values_enc {t : VarUIntegerPos} (ht : t.n = 32) (hrelaxed : t.store_pos_only = false) {cb : CellBuilder}
    (hfit : cb.bits.length + max_small_value ≤ max_bits) (x y : Amount) : match sub_op x y with
    | none => t.sub_values cb x.enc y.enc = none
    | some none => ∃ cb', t.sub_values cb x.enc y.enc = some (cb', false)
    | some (some z) => t.sub_values cb x.enc y.enc = some (⟨cb.bits ++ z.enc.bits, cb.refs⟩, true) := by
  obtain ⟨hx, hx'⟩ := x.2
  obtain ⟨hy, hy'⟩ := y.2
  have hsub : BigInt256.sub (some ((x : Nat) : Int)) (some ((y : Nat) : Int)) = some (((x : Nat) : Int) - (y : Nat)) :=
    normalize_of_small (by omega) (by omega)
  have hvalues : t.sub_values cb x.enc y.enc =
      (t.store_integer_value cb (some (((x : Nat) : Int) - (y : Nat)))).map fun cb => (cb, (((x : Nat) : Int) - (y : Nat)).sign != 0) := by
    rw [VarUIntegerPos.sub_values, as_integer_skip_enc ht, as_integer_skip_enc ht]
    simp only [bind_eq_bind, bind_some, VarUIntegerPos.store_integer_ref, hsub, BigInt256.sgn]
    cases t.store_integer_value cb (some (((x : Nat) : Int) - (y : Nat))) <;> rfl
  rw [hvalues, sub_op]
  by_cases hle : y.1 ≤ x.1
  · rw [if_pos hle]
    by_cases hlt : y.1 < x.1
    · rw [dif_pos hlt]
      have := store_amount ht hfit ⟨x.1 - y.1, Nat.sub_pos_of_lt hlt, (Nat.sub_le _ _).trans_lt hx'⟩
      rw [Nat.cast_sub hle] at this
      simp only [this, map_some]
      rw [Int.sign_eq_one_of_pos (by omega)]
      rfl
    · rw [dif_neg hlt]
      obtain ⟨cb', hcb⟩ := store_zero ht hrelaxed hfit
      refine ⟨cb', ?_⟩
      rw [show ((x : Nat) : Int) - (y : Nat) = 0 by omega, hcb]
      rfl
  · rw [if_neg hle]
    dsimp only
    rw [store_negative ht (by omega)]
    rfl

end Ton.Block
