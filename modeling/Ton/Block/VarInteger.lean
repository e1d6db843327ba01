import Ton.Block.VarUInteger
/-!
# Integers of a variable number of bytes

`VarUInteger`, `VarUIntegerPos`, `VarInteger` and `VarIntegerNz` of `block-parse.cpp`: the
number of bytes, then the bytes. The four differ in whether the number has a sign,
whether it may be empty, and in how they see that a byte less would do.
-/

namespace Ton.Block
open BigEndian CellTraits Dict List

/-- The number that bits denote in two's complement. -/
def ofSigned (l : List Bool) : Int := if l.head? = some true then ofBits l - 2 ^ l.length else ofBits l

/-- `prefetch_long`. -/
def prefetch_long (cs : CellSlice) (bits : Nat) : Int :=
  -- `fetch_long_eof`
  if !cs.have_bits bits || bits > 64 then -2 ^ 63 else ofSigned (cs.bits.take bits)

/-- The conversion to `int`. -/
def to_int (x : Int) : Int := (x + 2 ^ 31) % 2 ^ 32 - 2 ^ 31

def redundant_int (cs : CellSlice) : Bool :=
  let t := to_int (prefetch_long cs 9)
  t == 0 || t == -1

/-- `bit_size(true)`. -/
def bit_size_signed : BigInt256 → Nat
  | some x => if x = 0 then 0 else if x > 0 then len_bits x.toNat + 1 else len_bits (-x - 1).toNat + 1
  | none => 0x7fffffff

/-- `store_int256_bool(value, val_bits, true)`. -/
def store_signed_bool (cb : CellBuilder) (value : BigInt256) (val_bits : Nat) : Option CellBuilder :=
  match value with
  | some x =>
    if -2 ^ val_bits ≤ 2 * x ∧ 2 * x < 2 ^ val_bits then cb.store_bits_bool (toBits val_bits (x % 2 ^ val_bits).toNat) else none
  | none => none

/-- `fetch_int256(bits, true)`. -/
def fetch_signed (cs : CellSlice) (bits : Nat) : Option BigInt256 × CellSlice :=
  if cs.have_bits bits then (some (some (ofSigned (cs.bits.take bits))), cs.advance bits) else (none, cs)

/-! ## What the four types share -/

namespace VarInt

def ln (n : Nat) : Nat := len_bits (n - 1)

/-- Whether a number of bytes may stand before the number. -/
def allows (n least len : Nat) : Prop := least ≤ len ∧ len < n

instance (n least len : Nat) : Decidable (allows n least len) := inferInstanceAs (Decidable (_ ∧ _))

def skip (n least : Nat) (cs : CellSlice) : Option CellSlice :=
  match cs.fetch_ulong (ln n) with
  | (some len, cs) => if allows n least len ∧ cs.have_bits (len * 8) then some (cs.advance (len * 8)) else none
  | (none, _) => none

/-- `leading` is the test of the first byte. -/
def validate_skip (n least : Nat) (leading : CellSlice → Bool) (cs : CellSlice) : Option CellSlice :=
  match cs.fetch_ulong (ln n) with
  | (some len, cs) =>
    if allows n least len ∧ (len = 0 ∨ leading cs) ∧ cs.have_bits (len * 8) then some (cs.advance (len * 8)) else none
  | (none, _) => none

def as_integer_skip (n least : Nat) (leading : CellSlice → Bool) (fetch : CellSlice → Nat → Option BigInt256 × CellSlice)
    (cs : CellSlice) : Option BigInt256 × CellSlice :=
  match cs.fetch_ulong (ln n) with
  | (some len, cs) => if allows n least len ∧ (len = 0 ∨ leading cs) then fetch cs (len * 8) else (none, cs)
  | (none, cs) => (none, cs)

/-- `as_uint` and `as_int`: numbers of at most eight bytes, under a test of the whole slice. -/
def as_long (n least : Nat) (whole : CellSlice → Bool) (value : List Bool → Int) (eof : Int) (cs : CellSlice) : Int :=
  match cs.prefetch_ulong (ln n) with
  | some len =>
    if least ≤ len ∧ len ≤ 8 ∧ cs.have_bits (ln n + len * 8) ∧ whole cs then value ((cs.bits.drop (ln n)).take (len * 8)) else eof
  | none => eof

def store_integer_value (n : Nat) (size : BigInt256 → Nat) (may : BigInt256 → Bool)
    (store : CellBuilder → BigInt256 → Nat → Option CellBuilder) (cb : CellBuilder) (value : BigInt256) : Option CellBuilder :=
  let k := size value
  if k ≤ (n - 1) * 8 ∧ may value then do
    let cb ← cb.store_bits_bool (toBits (ln n) ((k + 7) / 8))
    store cb value ((k + 7) / 8 * 8)
  else none

def nonzero_byte (cs : CellSlice) : Bool := cs.prefetch_ulong 8 != some 0

end VarInt

/-! ## The four types -/

structure VarUInteger where
  n : Nat

structure VarInteger where
  n : Nat

structure VarIntegerNz where
  n : Nat

open VarInt

namespace VarUInteger
variable (t : VarUInteger)

def skip := VarInt.skip t.n 0
def validate_skip := VarInt.validate_skip t.n 0 nonzero_byte
def as_integer_skip := VarInt.as_integer_skip t.n 0 nonzero_byte fetch_int256
def as_uint := as_long t.n 0 (fun _ => true) (fun l => ofBits l) (2 ^ 64 - 1)
def store_integer_value := VarInt.store_integer_value t.n BigInt256.bit_size (fun _ => true) store_int256_bool

end VarUInteger

namespace VarUIntegerPos
variable (t : VarUIntegerPos)

def skip := VarInt.skip t.n 1
def validate_skip := VarInt.validate_skip t.n 1 nonzero_byte
def as_uint := as_long t.n 1 nonzero_byte (fun l => ofBits l) (2 ^ 64 - 1)

end VarUIntegerPos

namespace VarInteger
variable (t : VarInteger)

def skip := VarInt.skip t.n 0
def validate_skip := VarInt.validate_skip t.n 0 fun cs => !redundant_int cs
def as_integer_skip := VarInt.as_integer_skip t.n 0 (fun cs => !redundant_int cs) fetch_signed
def as_int := as_long t.n 0 (fun _ => true) ofSigned (-2 ^ 63)
def store_integer_value := VarInt.store_integer_value t.n bit_size_signed (fun _ => true) store_signed_bool

end VarInteger

namespace VarIntegerNz
variable (t : VarIntegerNz)

def skip := VarInt.skip t.n 1
def validate_skip := VarInt.validate_skip t.n 1 fun cs => !redundant_int cs
def as_integer_skip := VarInt.as_integer_skip t.n 1 (fun cs => !redundant_int cs) fetch_signed
def as_int := as_long t.n 1 (fun cs => !redundant_int cs) ofSigned (-2 ^ 63)
def store_integer_value := VarInt.store_integer_value t.n bit_size_signed (fun v => v.sgn != 0) store_signed_bool

end VarIntegerNz

/-! ## Bits in two's complement -/

theorem have_bits_iff {cs : CellSlice} {bits : Nat} : cs.have_bits bits = true ↔ bits ≤ cs.bits.length := by
  rw [CellSlice.have_bits, decide_eq_true_eq]
  rfl

section
variable {l a b : List Bool}

theorem ofSigned_emod (l : List Bool) : ofSigned l % 2 ^ l.length = ofBits l := by
  have hlt := ofBits_lt l
  have hlt' : (ofBits l : Int) < 2 ^ l.length := by exact_mod_cast hlt
  unfold ofSigned
  split
  · rw [Int.sub_emod_right, Int.emod_eq_of_lt (by omega) hlt']
  · rw [Int.emod_eq_of_lt (by omega) hlt']

theorem ofSigned_inj (hl : a.length = b.length) (h : ofSigned a = ofSigned b) : a = b := by
  have ha := ofSigned_emod a
  rw [h, hl, ofSigned_emod b] at ha
  exact ofBits_inj hl (by exact_mod_cast ha.symm)

theorem ofSigned_cons (s : Bool) (l : List Bool) : ofSigned (s :: l) = ofBits l - s.toNat * 2 ^ l.length := by
  have hpow : ((2 ^ l.length : Nat) : Int) = 2 ^ l.length := by push_cast; rfl
  unfold ofSigned
  rw [ofBits_cons, length_cons, pow_succ]
  cases s
  · simp
  · simp
    ring

theorem ofSigned_sign (s : Bool) (k : Nat) (l : List Bool) : ofSigned (List.replicate k s ++ s :: l) = ofSigned (s :: l) := by
  induction k with
  | zero => rfl
  | succ k ih =>
    rw [← ih, replicate_succ, cons_append, ofSigned_cons]
    generalize hx : List.replicate k s ++ s :: l = x at *
    have hxs : ∃ y, x = s :: y := by
      subst hx
      cases k with
      | zero => exact ⟨l, rfl⟩
      | succ k => exact ⟨_, by rw [replicate_succ, cons_append]⟩
    obtain ⟨y, rfl⟩ := hxs
    rw [ofSigned_cons, ofBits_cons, length_cons, pow_succ]
    cases s
    · simp
    · simp
      ring

theorem ofSigned_bounds (s : Bool) (l : List Bool) : -2 ^ l.length ≤ ofSigned (s :: l) ∧ ofSigned (s :: l) < 2 ^ l.length := by
  have hlt : (ofBits l : Int) < 2 ^ l.length := by exact_mod_cast ofBits_lt l
  have hpos : (0 : Int) < 2 ^ l.length := by positivity
  rw [ofSigned_cons]
  cases s
  · simp
    omega
  · simp
    omega

theorem ofSigned_toBits {w : Nat} {v : Int} (h1 : -2 ^ w ≤ 2 * v) (h2 : 2 * v < 2 ^ w) : ofSigned (toBits w (v % 2 ^ w).toNat) = v := by
  cases w with
  | zero =>
    have h0 : v = 0 := by omega
    simp [toBits, ofSigned, h0]
  | succ w =>
    have hlen : (toBits (w + 1) (v % 2 ^ (w + 1)).toNat).length = w + 1 := toBits_length _ _
    have hpos : (0 : Int) < 2 ^ (w + 1) := by positivity
    have hval : (ofBits (toBits (w + 1) (v % 2 ^ (w + 1)).toNat) : Int) = v % 2 ^ (w + 1) := by
      rw [ofBits_toBits_of_lt]
      · exact Int.toNat_of_nonneg (Int.emod_nonneg _ hpos.ne')
      · zify
        rw [Int.toNat_of_nonneg (Int.emod_nonneg _ hpos.ne')]
        exact Int.emod_lt_of_pos _ hpos
    generalize toBits (w + 1) (v % 2 ^ (w + 1)).toNat = l at *
    obtain ⟨s, t, rfl⟩ := exists_cons_of_length_eq_add_one hlen
    have hb := ofSigned_bounds s t
    have hmod := ofSigned_emod (s :: t)
    rw [hval, hlen] at hmod
    rw [length_cons, Nat.add_right_cancel_iff] at hlen
    rw [hlen] at hb
    have hdvd : (2 : Int) ^ (w + 1) ∣ ofSigned (s :: t) - v := Int.ModEq.dvd hmod.symm
    have hzero := Int.eq_zero_of_abs_lt_dvd hdvd (by rw [pow_succ] at *; exact abs_lt.2 ⟨by omega, by omega⟩)
    omega

theorem bit_size_signed_le {v : Int} {k : Nat} : bit_size_signed (some v) ≤ k ↔ -2 ^ k ≤ 2 * v ∧ 2 * v < 2 ^ k := by
  have hpos : (0 : Int) < 2 ^ k := by positivity
  have hlen : ∀ x : Nat, len_bits x + 1 ≤ k ↔ (2 * x : Int) < 2 ^ k ∧ 0 < k := by
    intro x
    cases k with
    | zero => simp
    | succ k =>
      rw [Nat.add_le_add_iff_right, len_bits_le_iff, pow_succ]
      zify
      constructor
      · intro h
        exact ⟨by omega, by omega⟩
      · intro h
        omega
  unfold bit_size_signed
  dsimp only
  split_ifs with h0 h1
  · subst h0
    simp
  · rw [hlen, Int.toNat_of_nonneg h1.le]
    cases k with
    | zero =>
      simp
      omega
    | succ k => exact ⟨fun h => ⟨by omega, h.1⟩, fun h => ⟨h.2, by omega⟩⟩
  · rw [hlen, Int.toNat_of_nonneg (by omega)]
    cases k with
    | zero =>
      simp
      omega
    | succ k => exact ⟨fun h => ⟨by rw [pow_succ] at *; omega, by omega⟩, fun h => ⟨by rw [pow_succ] at *; omega, by omega⟩⟩

def signed_len (v : Int) : Nat := (bit_size_signed (some v) + 7) / 8

theorem signed_len_le {v : Int} {k : Nat} : signed_len v ≤ k ↔ -2 ^ (k * 8) ≤ 2 * v ∧ 2 * v < 2 ^ (k * 8) := by
  rw [← bit_size_signed_le, signed_len]
  omega

/-- Nine equal bits at the start are the first byte and the sign of the rest. -/
theorem nine_bits_iff {k : Nat} (hl : l.length = (k + 2) * 8) :
    (∃ s, l.take 9 = List.replicate 9 s) ↔ signed_len (ofSigned l) ≤ k + 1 := by
  rw [signed_len_le]
  constructor
  · rintro ⟨s, hs⟩
    have hsplit : l = List.replicate 8 s ++ s :: l.drop 9 := by
      conv_lhs => rw [← take_append_drop 9 l, hs]
      simp [replicate_succ]
    have hb := ofSigned_bounds s (l.drop 9)
    rw [← ofSigned_sign s 8, ← hsplit, length_drop, hl] at hb
    have hpow : (2 : Int) ^ ((k + 1) * 8) = 2 * 2 ^ ((k + 2) * 8 - 9) := by
      rw [← pow_succ']
      congr 1
      omega
    rw [hpow]
    omega
  · rintro ⟨h1, h2⟩
    have hx := ofSigned_toBits h1 h2
    have hlen := toBits_length ((k + 1) * 8) (ofSigned l % 2 ^ ((k + 1) * 8)).toNat
    generalize toBits ((k + 1) * 8) (ofSigned l % 2 ^ ((k + 1) * 8)).toNat = x at *
    have hlen' : x.length = k * 8 + 7 + 1 := by omega
    obtain ⟨s, t, rfl⟩ := exists_cons_of_length_eq_add_one hlen'
    rw [← ofSigned_sign s 8] at hx
    have heq := ofSigned_inj (by simp at hlen ⊢; omega) hx
    refine ⟨s, ?_⟩
    rw [← heq]
    simp [replicate_succ]

theorem ofSigned_replicate (s : Bool) (k : Nat) : ofSigned (List.replicate (k + 1) s) = -s.toNat := by
  rw [replicate_succ', ofSigned_sign, ofSigned_cons]
  simp

theorem redundant_iff {refs : List DataCell} (hl : 9 ≤ l.length) :
    redundant_int ⟨l, refs⟩ = true ↔ ∃ s, l.take 9 = List.replicate 9 s := by
  have hhave : (⟨l, refs⟩ : CellSlice).have_bits 9 = true := have_bits_iff.2 hl
  have hlen : (l.take 9).length = 9 := by simp [hl]
  have hval : prefetch_long ⟨l, refs⟩ 9 = ofSigned (l.take 9) := by simp [prefetch_long, hhave]
  have hinj : ∀ s : Bool, ofSigned (l.take 9) = -(s.toNat : Int) ↔ l.take 9 = List.replicate 9 s := by
    intro s
    rw [← ofSigned_replicate s 8]
    exact ⟨fun h => ofSigned_inj (by simp [hl]) h, fun h => by rw [h]⟩
  obtain ⟨s, t, hst⟩ := exists_cons_of_length_eq_add_one hlen
  have hb := ofSigned_bounds s t
  rw [← hst] at hb
  have ht : t.length = 8 := by
    rw [hst] at hlen
    simpa using hlen
  rw [ht] at hb
  have hint : to_int (ofSigned (l.take 9)) = ofSigned (l.take 9) := by
    unfold to_int
    omega
  have h0 := hinj false
  have h1 := hinj true
  simp only [Bool.toNat_false, Bool.toNat_true, Nat.cast_zero, Nat.cast_one, neg_zero] at h0 h1
  unfold redundant_int
  rw [hval, hint]
  dsimp only
  rw [Bool.or_eq_true, beq_iff_eq, beq_iff_eq, h0, h1, Bool.exists_bool]

theorem redundant_short {refs : List DataCell} (hl : l.length < 9) : redundant_int ⟨l, refs⟩ = true := by
  have hhave : (⟨l, refs⟩ : CellSlice).have_bits 9 = false := by
    rw [← Bool.not_eq_true, have_bits_iff]
    exact Nat.not_le.2 hl
  simp [redundant_int, prefetch_long, hhave, to_int]

end

/-! ## Reading and writing -/

namespace VarInt

section
variable {n least len : Nat} {body rest : List Bool} {refs : List DataCell} {leading whole : CellSlice → Bool}
  (hn : n ≤ 33) (hlen : len < n) (hbody : body.length = len * 8)

theorem ln_le (hn : n ≤ 33) : ln n ≤ 6 := len_bits_le_iff.2 (by omega)

theorem lt_two_pow_ln (hlen : len < n) : len < 2 ^ ln n := (Nat.le_sub_one_of_lt hlen).trans_lt (lt_two_pow_len_bits (n - 1))

/-- The form of a number of `len` bytes. -/
def form (n len : Nat) (body : List Bool) : List Bool := toBits (ln n) len ++ body

include hn hlen

theorem fetch_len : (⟨form n len body ++ rest, refs⟩ : CellSlice).fetch_ulong (ln n) = (some len, ⟨body ++ rest, refs⟩) := by
  have := ln_le hn
  rw [form, append_assoc, fetch_ulong_append _ _ _ _ (toBits_length _ _) (by omega), ofBits_toBits_of_lt (lt_two_pow_ln hlen)]

theorem as_integer_skip_form {fetch : CellSlice → Nat → Option BigInt256 × CellSlice} {value : List Bool → Int}
    (hfetch : fetch ⟨body ++ rest, refs⟩ (len * 8) = (some (some (value body)), ⟨rest, refs⟩)) :
    (as_integer_skip n least leading fetch ⟨form n len body ++ rest, refs⟩ = (some (some (value body)), ⟨rest, refs⟩) ↔
      least ≤ len ∧ (len = 0 ∨ leading ⟨body ++ rest, refs⟩)) := by
  rw [as_integer_skip, fetch_len hn hlen]
  dsimp only
  rw [hfetch]
  simp only [allows, hlen, and_true]
  split
  · next h => exact iff_of_true rfl h
  · next h => exact iff_of_false (by simp) h

include hbody

theorem skip_form : skip n least ⟨form n len body ++ rest, refs⟩ = if least ≤ len then some ⟨rest, refs⟩ else none := by
  rw [skip, fetch_len hn hlen]
  dsimp only
  rw [have_bits_append body rest refs _ hbody, advance_append body rest refs _ hbody]
  simp [allows, hlen]

theorem validate_skip_form : validate_skip n least leading ⟨form n len body ++ rest, refs⟩ =
    if least ≤ len ∧ (len = 0 ∨ leading ⟨body ++ rest, refs⟩) then some ⟨rest, refs⟩ else none := by
  rw [validate_skip, fetch_len hn hlen]
  dsimp only
  rw [have_bits_append body rest refs _ hbody, advance_append body rest refs _ hbody]
  simp [allows, hlen]

theorem as_long_form {value : List Bool → Int} {eof : Int} : as_long n least whole value eof ⟨form n len body ++ rest, refs⟩ =
    if least ≤ len ∧ len ≤ 8 ∧ whole ⟨form n len body ++ rest, refs⟩ then value body else eof := by
  have hln := ln_le hn
  have hform : (form n len body).length = ln n + len * 8 := by rw [form, length_append, toBits_length, hbody]
  have hpre : (⟨form n len body ++ rest, refs⟩ : CellSlice).prefetch_ulong (ln n) = some len := by
    rw [form, append_assoc, prefetch_ulong_append _ _ _ _ (toBits_length _ _) (by omega), ofBits_toBits_of_lt (lt_two_pow_ln hlen)]
  have hdrop : ((form n len body ++ rest).drop (ln n)).take (len * 8) = body := by
    rw [form, append_assoc, drop_left' (toBits_length _ _), take_left' hbody]
  rw [as_long, hpre]
  dsimp only
  rw [have_bits_append _ rest refs _ hform, hdrop]
  simp

end

theorem of_validate_skip {n least : Nat} {leading : CellSlice → Bool} {cs cs' : CellSlice} (hn : n ≤ 33)
    (h : validate_skip n least leading cs = some cs') : ∃ len body, least ≤ len ∧ len < n ∧ body.length = len * 8 ∧
      cs.bits = form n len body ++ cs'.bits ∧ cs.refs = cs'.refs ∧ (len = 0 ∨ leading ⟨body ++ cs'.bits, cs'.refs⟩) := by
  have hln := ln_le hn
  unfold validate_skip at h
  have hfetch : ∀ len cs₁, cs.fetch_ulong (ln n) = (some len, cs₁) → cs.bits = toBits (ln n) len ++ cs₁.bits ∧ cs.refs = cs₁.refs := by
    intro len cs₁ hf
    unfold CellSlice.fetch_ulong at hf
    split at hf
    · cases hf
    · next hc =>
      have hhave : cs.have_bits (ln n) = true := by
        by_contra hno
        simp [hno] at hc
      have htake : (cs.bits.take (ln n)).length = ln n := length_take_of_le (have_bits_iff.1 hhave)
      cases hf
      have hto := toBits_ofBits (cs.bits.take (ln n))
      rw [htake] at hto
      rw [CellSlice.advance, if_pos hhave, hto]
      exact ⟨(take_append_drop _ _).symm, rfl⟩
  split at h
  · next len cs₁ hf =>
    obtain ⟨hb, hr⟩ := hfetch len cs₁ hf
    split at h
    · next hc =>
      obtain ⟨⟨h1, h2⟩, h3, h4⟩ := hc
      cases h
      have htake : (cs₁.bits.take (len * 8)).length = len * 8 := length_take_of_le (have_bits_iff.1 h4)
      rw [CellSlice.advance, if_pos h4]
      refine ⟨len, cs₁.bits.take (len * 8), h1, h2, htake, ?_, hr, ?_⟩
      · rw [form, append_assoc, take_append_drop]
        exact hb
      · rw [take_append_drop]
        exact h3
    · cases h
  · cases h

end VarInt

theorem store_bits_bool_of_room {cb : CellBuilder} {bs : List Bool} (h : cb.bits.length + bs.length ≤ max_bits) :
    cb.store_bits_bool bs = some ⟨cb.bits ++ bs, cb.refs⟩ := by
  rw [CellBuilder.store_bits_bool, if_pos]
  simp [CellBuilder.can_extend_by]
  omega

theorem VarInt.store_form {n : Nat} {size : BigInt256 → Nat} {may : BigInt256 → Bool}
    {store : CellBuilder → BigInt256 → Nat → Option CellBuilder} {v : BigInt256} {body : List Bool} (hsize : size v ≤ (n - 1) * 8)
    (hmay : may v = true) (hstore : ∀ cb, store cb v ((size v + 7) / 8 * 8) = cb.store_bits_bool body) {cb : CellBuilder}
    (hroom : cb.bits.length + (form n ((size v + 7) / 8) body).length ≤ max_bits) :
    store_integer_value n size may store cb v = some ⟨cb.bits ++ form n ((size v + 7) / 8) body, cb.refs⟩ := by
  rw [form, length_append] at hroom
  rw [store_integer_value]
  rw [if_pos ⟨hsize, hmay⟩, store_bits_bool_of_room (by omega), Option.bind_eq_bind, Option.bind_some, hstore,
    store_bits_bool_of_room (by rw [length_append]; omega), form, append_assoc]

/-! ## Round trips -/

/-- A value is stored, and read back and skipped whatever follows it. -/
def RoundTrips (store : CellBuilder → BigInt256 → Option CellBuilder) (as_integer_skip : CellSlice → Option BigInt256 × CellSlice)
    (validate_skip skip : CellSlice → Option CellSlice) (as_long : CellSlice → Int) (fits : Prop) (v : Int) (rest : CellSlice) : Prop :=
  ∃ bits : List Bool, bits.length ≤ max_bits ∧
    (∀ cb : CellBuilder, cb.bits.length + bits.length ≤ max_bits → store cb (some v) = some ⟨cb.bits ++ bits, cb.refs⟩) ∧
    as_integer_skip ⟨bits ++ rest.bits, rest.refs⟩ = (some (some v), rest) ∧
    validate_skip ⟨bits ++ rest.bits, rest.refs⟩ = some rest ∧ skip ⟨bits ++ rest.bits, rest.refs⟩ = some rest ∧
    (fits → as_long ⟨bits ++ rest.bits, rest.refs⟩ = v)

/-- What is left of a slice is behind something that is stored. -/
def Produced (store : CellBuilder → BigInt256 → Option CellBuilder) (cs cs' : CellSlice) : Prop :=
  ∃ v cb, store {} (some v) = some cb ∧ cs = ⟨cb.bits ++ cs'.bits, cs'.refs⟩

section Unsigned
variable {n : Nat} {v : Int}

theorem byte_len_le {x k : Nat} : byte_len x ≤ k ↔ x < 2 ^ (k * 8) := by
  rw [← len_bits_le_iff, byte_len]
  omega

theorem first_byte_iff {l : List Bool} {k : Nat} (hl : l.length = (k + 1) * 8) : ofBits (l.take 8) = 0 ↔ byte_len (ofBits l) ≤ k := by
  have hsplit := ofBits_append (l.take 8) (l.drop 8)
  have hlt := ofBits_lt (l.drop 8)
  rw [take_append_drop, length_drop, hl, show (k + 1) * 8 - 8 = k * 8 by omega] at hsplit
  rw [length_drop, hl, show (k + 1) * 8 - 8 = k * 8 by omega] at hlt
  rw [byte_len_le, hsplit]
  constructor
  · intro h
    rw [h]
    omega
  · intro h
    by_contra hne
    have := Nat.le_mul_of_pos_left (2 ^ (k * 8)) (Nat.pos_of_ne_zero hne)
    omega

theorem VarInt.nonzero_byte_iff {l : List Bool} {refs : List DataCell} (hl : 8 ≤ l.length) :
    nonzero_byte ⟨l, refs⟩ = true ↔ ofBits (l.take 8) ≠ 0 := by
  have hhave : (⟨l, refs⟩ : CellSlice).have_bits 8 = true := have_bits_iff.2 hl
  simp [nonzero_byte, CellSlice.prefetch_ulong, hhave]

def unsigned_body (v : Int) : List Bool := toBits (byte_len v.toNat * 8) v.toNat

theorem length_unsigned_body : (unsigned_body v).length = byte_len v.toNat * 8 := toBits_length _ _

theorem ofBits_unsigned_body (hv : 0 ≤ v) : (ofBits (unsigned_body v) : Int) = v := by
  rw [unsigned_body, ofBits_toBits_of_lt (lt_byte_len _), Int.toNat_of_nonneg hv]

theorem bit_size_eq (hv : 0 ≤ v) : BigInt256.bit_size (some v) = len_bits v.toNat := by
  rw [BigInt256.bit_size, if_neg (by omega)]

theorem store_unsigned (hv : 0 ≤ v) (cb : CellBuilder) :
    store_int256_bool cb (some v) ((BigInt256.bit_size (some v) + 7) / 8 * 8) = cb.store_bits_bool (unsigned_body v) := by
  have hlt := lt_byte_len v.toNat
  rw [bit_size_eq hv, store_int256_bool, ← byte_len, if_pos, unsigned_body]
  refine ⟨hv, ?_⟩
  zify at hlt
  rwa [Int.toNat_of_nonneg hv] at hlt

theorem fetch_unsigned (body rest : List Bool) (refs : List DataCell) {len : Nat} (hl : body.length = len * 8) :
    fetch_int256 ⟨body ++ rest, refs⟩ (len * 8) = (some (some (ofBits body : Int)), ⟨rest, refs⟩) := by
  rw [fetch_int256, if_pos (have_bits_append _ _ _ _ hl), advance_append _ _ _ _ hl, take_left' hl]

theorem unsigned_leading (hv : 0 ≤ v) (rest : List Bool) (refs : List DataCell) :
    byte_len v.toNat = 0 ∨ VarInt.nonzero_byte ⟨unsigned_body v ++ rest, refs⟩ = true := by
  rcases Nat.eq_zero_or_eq_succ_pred (byte_len v.toNat) with h | h
  · exact .inl h
  · refine .inr ?_
    have hlen := @length_unsigned_body v
    rw [h] at hlen
    have hval := ofBits_unsigned_body hv
    rw [VarInt.nonzero_byte_iff (by rw [length_append]; omega), take_append_of_le_length (by omega), ne_eq,
      first_byte_iff hlen, show ofBits (unsigned_body v) = v.toNat by omega]
    omega

theorem unsigned_round_trip (hn : n ≤ 33) (hpos : 1 ≤ n) (hv : 0 ≤ v) (hlt : v < 2 ^ ((n - 1) * 8)) {least : Nat}
    (hleast : least ≤ byte_len v.toNat) {may : BigInt256 → Bool} (hmay : may (some v) = true) {whole : CellSlice → Bool}
    (rest : CellSlice) (hwhole : whole ⟨VarInt.form n (byte_len v.toNat) (unsigned_body v) ++ rest.bits, rest.refs⟩ = true) :
    RoundTrips (VarInt.store_integer_value n BigInt256.bit_size may store_int256_bool)
      (VarInt.as_integer_skip n least VarInt.nonzero_byte fetch_int256) (VarInt.validate_skip n least VarInt.nonzero_byte)
      (VarInt.skip n least) (VarInt.as_long n least whole (fun l => ofBits l) (2 ^ 64 - 1)) (v < 2 ^ 64) v rest := by
  have hnat : v.toNat < 2 ^ ((n - 1) * 8) := by
    zify
    rwa [Int.toNat_of_nonneg hv]
  have hlen : byte_len v.toNat < n := by
    have := byte_len_le.2 hnat
    omega
  have hln := VarInt.ln_le hn
  have hbody := @length_unsigned_body v
  have hsize : BigInt256.bit_size (some v) ≤ (n - 1) * 8 := by
    rw [bit_size_eq hv]
    exact len_bits_le_iff.2 hnat
  have hbytes : (BigInt256.bit_size (some v) + 7) / 8 = byte_len v.toNat := by
    rw [bit_size_eq hv]
    rfl
  have hlead := unsigned_leading hv rest.bits rest.refs
  have hval := ofBits_unsigned_body hv
  have hread := @VarInt.as_integer_skip_form n least _ _ _ _ VarInt.nonzero_byte hn hlen _ (fun l => (ofBits l : Int))
    (fetch_unsigned (unsigned_body v) rest.bits rest.refs hbody)
  refine ⟨VarInt.form n (byte_len v.toNat) (unsigned_body v), ?_, fun cb hroom => ?_, ?_, ?_, ?_, fun h64 => ?_⟩
  · rw [VarInt.form, length_append, toBits_length, hbody]
    simp only [max_bits]
    omega
  · rw [← hbytes] at hroom ⊢
    exact VarInt.store_form hsize hmay (store_unsigned hv) hroom
  · have h := hread.2 ⟨hleast, hlead⟩
    rw [hval] at h
    exact h
  · rw [VarInt.validate_skip_form hn hlen hbody, if_pos ⟨hleast, hlead⟩]
  · rw [VarInt.skip_form hn hlen hbody, if_pos hleast]
  · have h8 : byte_len v.toNat ≤ 8 := byte_len_le.2 (by omega)
    rw [VarInt.as_long_form hn hlen hbody, if_pos ⟨hleast, h8, hwhole⟩]
    exact hval

/-- `as_uint` looks at the first byte of the whole slice, which starts with the length field. -/
theorem whole_nonzero (hn : n ≤ 33) (hlen : byte_len v.toNat < n) (hpos : 1 ≤ byte_len v.toNat) (rest : CellSlice) :
    VarInt.nonzero_byte ⟨VarInt.form n (byte_len v.toNat) (unsigned_body v) ++ rest.bits, rest.refs⟩ = true := by
  have hln := VarInt.ln_le hn
  have hbody := @length_unsigned_body v
  have hform : 8 ≤ (VarInt.form n (byte_len v.toNat) (unsigned_body v)).length := by
    rw [VarInt.form, length_append, toBits_length, hbody]
    omega
  rw [VarInt.nonzero_byte_iff (by rw [length_append]; omega), take_append_of_le_length hform, VarInt.form, take_append,
    take_of_length_le (by rw [toBits_length]; omega), ofBits_append, ofBits_toBits_of_lt (VarInt.lt_two_pow_ln hlen)]
  have := Nat.mul_pos hpos (Nat.two_pow_pos ((unsigned_body v).take (8 - (toBits (VarInt.ln n) (byte_len v.toNat)).length)).length)
  omega

theorem unsigned_produced (hn : n ≤ 33) {least : Nat} {may : BigInt256 → Bool} (hmay : ∀ v : Nat, least ≤ byte_len v → may (some v) = true)
    {cs cs' : CellSlice} (h : VarInt.validate_skip n least VarInt.nonzero_byte cs = some cs') :
    Produced (VarInt.store_integer_value n BigInt256.bit_size may store_int256_bool) cs cs' := by
  obtain ⟨len, body, hleast, hlen, hbody, hbits, hrefs, hlead⟩ := VarInt.of_validate_skip hn h
  have hlt := ofBits_lt body
  rw [hbody] at hlt
  have hlen' : byte_len (ofBits body) = len := by
    refine Nat.le_antisymm (byte_len_le.2 hlt) ?_
    cases len with
    | zero => exact Nat.zero_le _
    | succ k =>
      rcases hlead with h0 | h0
      · cases h0
      · rw [VarInt.nonzero_byte_iff (by rw [length_append]; omega), take_append_of_le_length (by omega), ne_eq,
          first_byte_iff hbody] at h0
        omega
  have hln := VarInt.ln_le hn
  have hform : unsigned_body (ofBits body) = body := by
    rw [unsigned_body, Int.toNat_natCast, hlen', ← hbody, toBits_ofBits]
  have hsize : BigInt256.bit_size (some (ofBits body : Int)) ≤ (n - 1) * 8 := by
    rw [bit_size_eq (Int.natCast_nonneg _), Int.toNat_natCast, len_bits_le_iff]
    exact hlt.trans_le (Nat.pow_le_pow_right (by omega) (by omega))
  have hbytes : (BigInt256.bit_size (some (ofBits body : Int)) + 7) / 8 = len := by
    rw [bit_size_eq (Int.natCast_nonneg _), Int.toNat_natCast]
    exact hlen'
  have hroom : ([] : List Bool).length + (VarInt.form n ((BigInt256.bit_size (some (ofBits body : Int)) + 7) / 8)
      (unsigned_body (ofBits body))).length ≤ max_bits := by
    rw [hbytes, hform, VarInt.form, length_append, toBits_length, hbody]
    simp only [max_bits, length_nil]
    omega
  have hstore := @VarInt.store_form n _ _ _ _ _ hsize (hmay (ofBits body) (hlen' ▸ hleast)) (store_unsigned (Int.natCast_nonneg _)) {} hroom
  refine ⟨_, _, hstore, ?_⟩
  rw [hbytes, hform, nil_append, ← hbits, ← hrefs]

end Unsigned

section Signed
variable {n : Nat} {v : Int}

def signed_body (v : Int) : List Bool := toBits (signed_len v * 8) (v % 2 ^ (signed_len v * 8)).toNat

theorem length_signed_body : (signed_body v).length = signed_len v * 8 := toBits_length _ _

theorem ofSigned_signed_body : ofSigned (signed_body v) = v := by
  obtain ⟨h1, h2⟩ := signed_len_le.1 (Nat.le_refl (signed_len v))
  exact ofSigned_toBits h1 h2

theorem signed_len_zero : signed_len v = 0 ↔ v = 0 := by
  rw [← Nat.le_zero, signed_len_le]
  omega

theorem store_signed (cb : CellBuilder) :
    store_signed_bool cb (some v) ((bit_size_signed (some v) + 7) / 8 * 8) = cb.store_bits_bool (signed_body v) :=
  if_pos (signed_len_le.1 (Nat.le_refl (signed_len v)))

theorem fetch_signed_append (body rest : List Bool) (refs : List DataCell) {len : Nat} (hl : body.length = len * 8) :
    fetch_signed ⟨body ++ rest, refs⟩ (len * 8) = (some (some (ofSigned body)), ⟨rest, refs⟩) := by
  rw [fetch_signed, if_pos (have_bits_append _ _ _ _ hl), advance_append _ _ _ _ hl, take_left' hl]

/-- A byte with the sign bit that follows it is taken for a redundant one. -/
theorem one_byte_redundant {body : List Bool} (hbody : body.length = 8) (rest : List Bool) (refs : List DataCell) :
    redundant_int ⟨body ++ rest, refs⟩ = true ↔ rest = [] ∨ ∃ s r, rest = s :: r ∧ ofSigned body = -(s.toNat : Int) := by
  cases rest with
  | nil =>
    rw [append_nil]
    exact iff_of_true (redundant_short (by omega)) (.inl rfl)
  | cons b r =>
    rw [redundant_iff (by simp; omega)]
    have htake : (body ++ b :: r).take 9 = body ++ [b] := by
      rw [take_append, take_of_length_le (by omega), hbody]
      rfl
    have hinj : ∀ s : Bool, ofSigned body = -(s.toNat : Int) ↔ body = List.replicate 8 s := by
      intro s
      rw [← ofSigned_replicate s 7]
      exact ⟨fun h => ofSigned_inj (by simp [hbody]) h, fun h => by rw [h]⟩
    rw [htake]
    constructor
    · rintro ⟨s, hs⟩
      rw [replicate_succ'] at hs
      obtain ⟨h1, h2⟩ := append_inj hs (by simp [hbody])
      cases h2
      exact .inr ⟨b, r, rfl, (hinj b).2 h1⟩
    · rintro (h | ⟨s, r', h, hs⟩)
      · cases h
      · cases h
        refine ⟨b, ?_⟩
        rw [(hinj b).1 hs]
        rfl

/-- What follows a number decides whether its single byte is taken for redundant. -/
def Obscures (v : Int) (rest : CellSlice) : Prop := rest.bits = [] ∨ v = -1 ∧ ∃ r, rest.bits = true :: r

/-- The test of the first nine bits passes unless the number is one byte and what follows obscures it. -/
theorem signed_leading (rest : CellSlice) :
    (signed_len v = 0 ∨ (!redundant_int ⟨signed_body v ++ rest.bits, rest.refs⟩) = true) ↔ ¬(signed_len v = 1 ∧ Obscures v rest) := by
  have hlen := @length_signed_body v
  have hval := @ofSigned_signed_body v
  rw [Bool.not_eq_true']
  match hk : signed_len v with
  | 0 => simp
  | 1 =>
    have hv : v ≠ 0 := fun h => by
      rw [signed_len_zero.2 h] at hk
      cases hk
    rw [hk] at hlen
    rw [← Bool.not_eq_true, one_byte_redundant hlen, hval]
    simp only [Nat.one_ne_zero, false_or, true_and, Obscures]
    refine not_congr (or_congr_right ?_)
    constructor
    · rintro ⟨s, r, hr, hs⟩
      cases s
      · exact absurd hs (by simpa using hv)
      · exact ⟨by simpa using hs, r, hr⟩
    · rintro ⟨h, r, hr⟩
      exact ⟨true, r, hr, by simpa using h⟩
  | k + 2 =>
    rw [hk] at hlen
    rw [← Bool.not_eq_true, redundant_iff (by rw [length_append]; omega), take_append_of_le_length (by omega),
      nine_bits_iff hlen, hval, hk]
    simp

theorem signed_round_trip (hn : n ≤ 33) (hpos : 1 ≤ n) (hv : signed_len v < n) {least : Nat} (hleast : least ≤ signed_len v)
    {may : BigInt256 → Bool} (hmay : may (some v) = true) {whole : CellSlice → Bool} (rest : CellSlice) :
    RoundTrips (VarInt.store_integer_value n bit_size_signed may store_signed_bool)
      (VarInt.as_integer_skip n least (fun cs => !redundant_int cs) fetch_signed) (VarInt.validate_skip n least fun cs => !redundant_int cs)
      (VarInt.skip n least) (VarInt.as_long n least whole ofSigned (-2 ^ 63)) (-2 ^ 63 ≤ v ∧ v < 2 ^ 63) v rest ↔
    ¬(signed_len v = 1 ∧ Obscures v rest) ∧ (-2 ^ 63 < v ∧ v < 2 ^ 63 →
      whole ⟨VarInt.form n (signed_len v) (signed_body v) ++ rest.bits, rest.refs⟩ = true) := by
  have hln := VarInt.ln_le hn
  have hbody := @length_signed_body v
  have hval := @ofSigned_signed_body v
  have hsize : bit_size_signed (some v) ≤ (n - 1) * 8 := by
    unfold signed_len at hv
    omega
  have hbytes : (bit_size_signed (some v) + 7) / 8 = signed_len v := rfl
  have hform : (VarInt.form n (signed_len v) (signed_body v)).length ≤ max_bits := by
    rw [VarInt.form, length_append, toBits_length, hbody]
    simp only [max_bits]
    omega
  have hlead := @signed_leading v rest
  have hread := @VarInt.as_integer_skip_form n least _ _ _ _ (fun cs => !redundant_int cs) hn hv _ _
    (fetch_signed_append (signed_body v) rest.bits rest.refs hbody)
  have hstore : ∀ cb : CellBuilder, cb.bits.length + (VarInt.form n (signed_len v) (signed_body v)).length ≤ max_bits →
      VarInt.store_integer_value n bit_size_signed may store_signed_bool cb (some v) =
        some ⟨cb.bits ++ VarInt.form n (signed_len v) (signed_body v), cb.refs⟩ :=
    fun cb hroom => VarInt.store_form hsize hmay store_signed hroom
  have hlong : -2 ^ 63 < v ∧ v < 2 ^ 63 → (VarInt.as_long n least whole ofSigned (-2 ^ 63)
      ⟨VarInt.form n (signed_len v) (signed_body v) ++ rest.bits, rest.refs⟩ = v ↔
        whole ⟨VarInt.form n (signed_len v) (signed_body v) ++ rest.bits, rest.refs⟩ = true) := by
    rintro ⟨h1, h2⟩
    have h8 : signed_len v ≤ 8 := signed_len_le.2 (by omega)
    rw [VarInt.as_long_form hn hv hbody, hval]
    split
    · next h => exact iff_of_true rfl h.2.2
    · next h => exact iff_of_false (by omega) fun hw => h ⟨hleast, h8, hw⟩
  constructor
  · rintro ⟨bits, hbits, hst, h1, -, -, h4⟩
    have heq : bits = VarInt.form n (signed_len v) (signed_body v) := by
      have hs := hst {} (by simpa using hbits)
      rw [hstore {} (by simpa using hform)] at hs
      simpa using hs.symm
    subst heq
    rw [hval] at hread
    exact ⟨hlead.1 (hread.1 h1).2, fun h64 => (hlong h64).1 (h4 ⟨h64.1.le, h64.2⟩)⟩
  · rintro ⟨hc, hw⟩
    have hl := hlead.2 hc
    refine ⟨_, hform, hstore, ?_, ?_, ?_, fun h64 => ?_⟩
    · have h := hread.2 ⟨hleast, hl⟩
      rw [hval] at h
      exact h
    · rw [VarInt.validate_skip_form hn hv hbody, if_pos ⟨hleast, hl⟩]
    · rw [VarInt.skip_form hn hv hbody, if_pos hleast]
    · rcases h64.1.lt_or_eq with hlt | heq
      · exact (hlong ⟨hlt, h64.2⟩).2 (hw ⟨hlt, h64.2⟩)
      · -- the least number is also what stands for a failure
        rw [VarInt.as_long_form hn hv hbody, hval, ← heq, ite_self]

/-- A zero byte before a one is accepted. -/
def ZeroByte (n : Nat) (cs : CellSlice) : Prop := 1 < n ∧ ∃ r, cs.bits = VarInt.form n 1 (List.replicate 8 false) ++ true :: r

theorem signed_produced (hn : n ≤ 33) {least : Nat} {may : BigInt256 → Bool} (hmay : ∀ v, least ≤ signed_len v → may (some v) = true)
    {cs cs' : CellSlice} (h : VarInt.validate_skip n least (fun cs => !redundant_int cs) cs = some cs') :
    Produced (VarInt.store_integer_value n bit_size_signed may store_signed_bool) cs cs' ↔ ¬ZeroByte n cs := by
  obtain ⟨len, body, hleast, hlen, hbody, hbits, hrefs, hlead⟩ := VarInt.of_validate_skip hn h
  have hln := VarInt.ln_le hn
  have hfits : signed_len (ofSigned body) ≤ len := by
    rw [signed_len_le]
    cases body with
    | nil => simp [ofSigned]
    | cons s t =>
      have hb := ofSigned_bounds s t
      rw [← hbody, length_cons, pow_succ]
      omega
  constructor
  · rintro ⟨v, cb, hst, hcs⟩ ⟨hn1, r, hr⟩
    have hcond : bit_size_signed (some v) ≤ (n - 1) * 8 ∧ may (some v) = true := by
      by_contra hno
      rw [VarInt.store_integer_value, if_neg hno] at hst
      cases hst
    have hv : signed_len v < n := by
      unfold signed_len
      omega
    have hlenv := @length_signed_body v
    have hroom : ([] : List Bool).length + (VarInt.form n (signed_len v) (signed_body v)).length ≤ max_bits := by
      rw [VarInt.form, length_append, toBits_length, hlenv]
      simp only [max_bits, length_nil]
      omega
    rw [VarInt.store_form hcond.1 hcond.2 store_signed hroom] at hst
    cases hst
    rw [hcs, nil_append, VarInt.form, VarInt.form, append_assoc, append_assoc] at hr
    obtain ⟨h1, h2⟩ := append_inj hr (by rw [toBits_length, toBits_length])
    have hone : signed_len v = 1 := by
      have := congrArg ofBits h1
      have hlt : (bit_size_signed (some v) + 7) / 8 < 2 ^ VarInt.ln n := VarInt.lt_two_pow_ln hv
      rwa [ofBits_toBits_of_lt hlt, ofBits_toBits_of_lt (VarInt.lt_two_pow_ln hn1)] at this
    have hzero := (append_inj h2 (by rw [hlenv, hone]; rfl)).1
    have hval := @ofSigned_signed_body v
    rw [hzero, ofSigned_replicate] at hval
    rw [signed_len_zero.2 (by simpa using hval.symm)] at hone
    cases hone
  · intro hz
    have hexact : signed_len (ofSigned body) = len := by
      rcases len with _ | _ | k
      · exact Nat.le_zero.1 hfits
      · by_contra hne
        have h0 : ofSigned body = 0 := signed_len_zero.1 (by omega)
        have hb : body = List.replicate 8 false := by
          refine ofSigned_inj (by simpa using hbody) ?_
          rw [h0, ofSigned_replicate]
          rfl
        rw [Bool.not_eq_true', ← Bool.not_eq_true, one_byte_redundant hbody, h0] at hlead
        rcases hlead with h | h
        · cases h
        · rcases hr : cs'.bits with _ | ⟨_ | _, r⟩
          · exact h (.inl hr)
          · exact h (.inr ⟨false, r, hr, rfl⟩)
          · exact hz ⟨hlen, r, by rw [hbits, hb, hr]⟩
      · rw [Bool.not_eq_true', ← Bool.not_eq_true, redundant_iff (by rw [length_append]; omega),
          take_append_of_le_length (by omega), nine_bits_iff hbody] at hlead
        rcases hlead with h | h
        · cases h
        · omega
    have hsame : signed_body (ofSigned body) = body :=
      ofSigned_inj (by rw [length_signed_body, hexact, hbody]) ofSigned_signed_body
    have hsize : bit_size_signed (some (ofSigned body)) ≤ (n - 1) * 8 := by
      unfold signed_len at hexact
      omega
    have hroom : ([] : List Bool).length + (VarInt.form n (signed_len (ofSigned body)) (signed_body (ofSigned body))).length ≤ max_bits := by
      rw [hexact, hsame, VarInt.form, length_append, toBits_length, hbody]
      simp only [max_bits, length_nil]
      omega
    have hstore := @VarInt.store_form n _ _ _ _ _ hsize (hmay _ (hexact ▸ hleast)) store_signed {} hroom
    refine ⟨_, _, hstore, ?_⟩
    rw [show (bit_size_signed (some (ofSigned body)) + 7) / 8 = len from hexact, hsame, nil_append, ← hbits, ← hrefs]

/-- The length field is all ones, and so are the bits after it up to the ninth. -/
def AllOnes (n : Nat) (v : Int) : Prop := (VarInt.form n (signed_len v) (signed_body v)).take 9 = List.replicate 9 true

/-- `redundant_int` on the whole slice sees the length field first. -/
theorem whole_redundant (hn : n ≤ 33) (hv : signed_len v < n) (h0 : v ≠ 0) (rest : CellSlice) :
    (!redundant_int ⟨VarInt.form n (signed_len v) (signed_body v) ++ rest.bits, rest.refs⟩) = true ↔ ¬AllOnes n v := by
  have hln := VarInt.ln_le hn
  have hpow := VarInt.lt_two_pow_ln hv
  have hpos : signed_len v ≠ 0 := mt signed_len_zero.1 h0
  have hln0 : VarInt.ln n ≠ 0 := fun h => by
    rw [h] at hpow
    omega
  have hform : 9 ≤ (VarInt.form n (signed_len v) (signed_body v)).length := by
    rw [VarInt.form, length_append, toBits_length, length_signed_body]
    omega
  rw [Bool.not_eq_true', ← Bool.not_eq_true, redundant_iff (by rw [length_append]; omega), take_append_of_le_length hform,
    Bool.exists_bool, or_iff_right]
  · rfl
  · intro h
    have htake : toBits (VarInt.ln n) (signed_len v) = List.replicate (VarInt.ln n) false := by
      have := congrArg (List.take (VarInt.ln n)) h
      rwa [take_take, Nat.min_eq_left (by omega), VarInt.form, take_left' (toBits_length _ _), take_replicate,
        Nat.min_eq_left (by omega)] at this
    have := congrArg ofBits htake
    rw [ofBits_toBits_of_lt hpow, ofBits_replicate, if_neg (by decide)] at this
    exact hpos this

end Signed

theorem VarUIntegerPos.as_integer_skip_eq (t : VarUIntegerPos) :
    t.as_integer_skip = VarInt.as_integer_skip t.n 1 VarInt.nonzero_byte fetch_int256 := by
  funext cs
  unfold VarUIntegerPos.as_integer_skip VarInt.as_integer_skip VarUIntegerPos.ln VarInt.ln
  generalize cs.fetch_ulong (len_bits (t.n - 1)) = r
  obtain ⟨_ | len, cs₁⟩ := r
  · rfl
  · refine if_congr ?_ rfl rfl
    rw [VarInt.allows, VarInt.nonzero_byte, bne_iff_ne]
    constructor
    · rintro ⟨h1, h2, h3⟩
      exact ⟨⟨h1, h2⟩, .inr h3⟩
    · rintro ⟨⟨h1, h2⟩, h3⟩
      exact ⟨h1, h2, h3.resolve_left (by omega)⟩

theorem VarUIntegerPos.store_integer_value_eq (t : VarUIntegerPos) : t.store_integer_value =
    VarInt.store_integer_value t.n BigInt256.bit_size (fun v => decide (v.sgn ≥ t.store_pos_only.toNat)) store_int256_bool := by
  funext cb v
  unfold VarUIntegerPos.store_integer_value VarInt.store_integer_value VarUIntegerPos.ln VarInt.ln
  simp only [decide_eq_true_eq]

/-- The types without a sign are read back in any context; those with one when a single byte is followed by a bit that
does not look like more of the sign, and `VarIntegerNz.as_int` when the length field and what follows are not all ones. -/
theorem var_integers (n : Nat) (h1 : 1 ≤ n) (hn : n ≤ 33) :
    (∀ v rest, 0 ≤ v → v < 2 ^ ((n - 1) * 8) → let t : VarUInteger := ⟨n⟩
      RoundTrips t.store_integer_value t.as_integer_skip t.validate_skip t.skip t.as_uint (v < 2 ^ 64) v rest) ∧
    (∀ pos_only v rest, 0 < v → v < 2 ^ ((n - 1) * 8) → let t : VarUIntegerPos := ⟨n, pos_only⟩
      RoundTrips t.store_integer_value t.as_integer_skip t.validate_skip t.skip t.as_uint (v < 2 ^ 64) v rest) ∧
    (∀ v rest, -2 ^ ((n - 1) * 8) ≤ 2 * v → 2 * v < 2 ^ ((n - 1) * 8) → let t : VarInteger := ⟨n⟩
      (RoundTrips t.store_integer_value t.as_integer_skip t.validate_skip t.skip t.as_int (-2 ^ 63 ≤ v ∧ v < 2 ^ 63) v rest ↔
        ¬(signed_len v = 1 ∧ Obscures v rest))) ∧
    (∀ v rest, -2 ^ ((n - 1) * 8) ≤ 2 * v → 2 * v < 2 ^ ((n - 1) * 8) → v ≠ 0 → let t : VarIntegerNz := ⟨n⟩
      (RoundTrips t.store_integer_value t.as_integer_skip t.validate_skip t.skip t.as_int (-2 ^ 63 ≤ v ∧ v < 2 ^ 63) v rest ↔
        ¬(signed_len v = 1 ∧ Obscures v rest) ∧ (-2 ^ 63 < v ∧ v < 2 ^ 63 → ¬AllOnes n v))) ∧
    ∀ cs cs',
      (VarUInteger.validate_skip ⟨n⟩ cs = some cs' → Produced (VarUInteger.store_integer_value ⟨n⟩) cs cs') ∧
      (∀ pos_only, VarUIntegerPos.validate_skip ⟨n, pos_only⟩ cs = some cs' →
        Produced (VarUIntegerPos.store_integer_value ⟨n, pos_only⟩) cs cs') ∧
      (VarInteger.validate_skip ⟨n⟩ cs = some cs' → (Produced (VarInteger.store_integer_value ⟨n⟩) cs cs' ↔ ¬ZeroByte n cs)) ∧
      (VarIntegerNz.validate_skip ⟨n⟩ cs = some cs' → (Produced (VarIntegerNz.store_integer_value ⟨n⟩) cs cs' ↔ ¬ZeroByte n cs)) := by
  have hsigned : ∀ v : Int, -2 ^ ((n - 1) * 8) ≤ 2 * v → 2 * v < 2 ^ ((n - 1) * 8) → signed_len v < n := by
    intro v hv1 hv2
    have := signed_len_le.2 ⟨hv1, hv2⟩
    omega
  have hunsigned : ∀ v : Int, 0 ≤ v → v < 2 ^ ((n - 1) * 8) → byte_len v.toNat < n := by
    intro v hv hlt
    have := (byte_len_le (k := n - 1)).2 (by zify; rwa [Int.toNat_of_nonneg hv])
    omega
  have hsgn : ∀ (pos_only : Bool) (v : Int), 0 < v → decide (BigInt256.sgn (some v) ≥ pos_only.toNat) = true := by
    intro pos_only v hv
    rw [BigInt256.sgn, Int.sign_eq_one_of_pos hv]
    cases pos_only <;> decide
  have hfirst : ∀ v : Int, 0 < v → 1 ≤ byte_len v.toNat := by
    intro v hv
    by_contra h
    have := byte_len_le.1 (show byte_len v.toNat ≤ 0 by omega)
    omega
  refine ⟨fun v rest h0 hlt => ?_, fun pos_only v rest h0 hlt => ?_, fun v rest hv1 hv2 => ?_, fun v rest hv1 hv2 h0 => ?_,
    fun cs cs' => ⟨fun h => ?_, fun pos_only h => ?_, fun h => ?_, fun h => ?_⟩⟩
  · exact unsigned_round_trip hn h1 h0 hlt (Nat.zero_le _) rfl rest rfl
  · dsimp only
    rw [VarUIntegerPos.as_integer_skip_eq, VarUIntegerPos.store_integer_value_eq]
    exact unsigned_round_trip hn h1 h0.le hlt (hfirst v h0) (hsgn pos_only v h0) rest
      (whole_nonzero hn (hunsigned v h0.le hlt) (hfirst v h0) rest)
  · exact (signed_round_trip hn h1 (hsigned v hv1 hv2) (Nat.zero_le _) rfl rest).trans (by simp)
  · have hlen := hsigned v hv1 hv2
    have hpos : 1 ≤ signed_len v := Nat.pos_of_ne_zero (mt signed_len_zero.1 h0)
    have hw := whole_redundant hn hlen h0 rest
    have hmay : ((BigInt256.sgn (some v)) != 0) = true := by simpa [BigInt256.sgn] using h0
    have h := @signed_round_trip n v hn h1 hlen 1 hpos (fun v => v.sgn != 0) hmay (fun cs => !redundant_int cs) rest
    rw [hw] at h
    exact h
  · exact unsigned_produced hn (fun _ _ => rfl) h
  · rw [VarUIntegerPos.store_integer_value_eq]
    refine unsigned_produced hn (fun v hv => hsgn pos_only v ?_) h
    by_contra h0
    rw [show v = 0 by omega] at hv
    exact absurd hv (by decide)
  · exact signed_produced hn (fun _ _ => rfl) h
  · refine signed_produced hn (fun v hv => ?_) h
    have : v ≠ 0 := fun h0 => by
      rw [signed_len_zero.2 h0] at hv
      omega
    simpa [BigInt256.sgn] using this

theorem var_integers_three : RoundTrips (VarInteger.store_integer_value ⟨3⟩) (VarInteger.as_integer_skip ⟨3⟩)
    (VarInteger.validate_skip ⟨3⟩) (VarInteger.skip ⟨3⟩) (VarInteger.as_int ⟨3⟩) (-2 ^ 63 ≤ (1000 : Int) ∧ (1000 : Int) < 2 ^ 63) 1000 ⟨[], []⟩ :=
  ((var_integers 3 (by decide) (by decide)).2.2.1 1000 ⟨[], []⟩ (by decide) (by decide)).2 fun h => absurd h.1 (by decide)

/-- Five and minus one in one byte, and a zero byte that is accepted. -/
theorem var_integers_fail :
    ¬RoundTrips (VarInteger.store_integer_value ⟨7⟩) (VarInteger.as_integer_skip ⟨7⟩) (VarInteger.validate_skip ⟨7⟩)
      (VarInteger.skip ⟨7⟩) (VarInteger.as_int ⟨7⟩) (-2 ^ 63 ≤ (5 : Int) ∧ (5 : Int) < 2 ^ 63) 5 ⟨[], []⟩ ∧
    ¬RoundTrips (VarInteger.store_integer_value ⟨7⟩) (VarInteger.as_integer_skip ⟨7⟩) (VarInteger.validate_skip ⟨7⟩)
      (VarInteger.skip ⟨7⟩) (VarInteger.as_int ⟨7⟩) (-2 ^ 63 ≤ (-1 : Int) ∧ (-1 : Int) < 2 ^ 63) (-1) ⟨[true], []⟩ ∧
    (VarInteger.validate_skip ⟨7⟩ ⟨VarInt.form 7 1 (List.replicate 8 false) ++ [true], []⟩).isSome = true := by
  refine ⟨fun h => ?_, fun h => ?_, by decide⟩
  · have := (@signed_round_trip 7 5 (by decide) (by decide) (by decide) 0 (by decide) (fun _ => true) rfl (fun _ => true) ⟨[], []⟩).1 h
    exact this.1 ⟨by decide, .inl rfl⟩
  · have := (@signed_round_trip 7 (-1) (by decide) (by decide) (by decide) 0 (by decide) (fun _ => true) rfl (fun _ => true) ⟨[true], []⟩).1 h
    exact this.1 ⟨by decide, .inr ⟨rfl, [], rfl⟩⟩

end Ton.Block
