import Ton.Cells.Preload
import Ton.Text.HexLiteral
/-!
# Copying bits

`bits_memcpy`, `bits_memset`, `bits_store_long_top` and `bits_load_long_top` of
`bitstring.cpp`. The buffers of a copy are two memories, so they do not overlap; a number
of bits that a buffer can hold is far below the range of `std::size_t`.
-/

namespace Ton.Td.bitstring
open BitVec

open Preload (bswap32)
open Text.HexLiteral (Memory bit bit_byte)
open Function (update update_of_ne update_self)

/-! ## Words in memory -/

/-- `as<unsigned>(p)`, the first byte lowest. -/
def as_unsigned (mem : Memory) (p : ℤ) : BitVec 32 := mem (p + 3) ++ mem (p + 2) ++ mem (p + 1) ++ mem p

/-- `as<unsigned long long>(p)` -/
def as_uint64 (mem : Memory) (p : ℤ) : BitVec 64 := as_unsigned mem (p + 4) ++ as_unsigned mem p

def bswap64 (x : BitVec 64) : BitVec 64 := bswap32 (x.setWidth 32) ++ bswap32 ((x >>> 32).setWidth 32)

/-- The first `n` bytes of a word, the lowest one first. -/
def set_bytes {w : ℕ} (mem : Memory) (p : ℤ) (n : ℕ) (x : BitVec w) : Memory :=
  fun j => if p ≤ j ∧ j < p + n then (x >>> (8 * (j - p).toNat)).setWidth 8 else mem j

/-- `std::memcpy(to, from, n)` -/
def memcpy (mem : Memory) (p : ℤ) (src : Memory) (q : ℤ) (n : ℕ) : Memory :=
  fun j => if p ≤ j ∧ j < p + n then src (q + (j - p)) else mem j

/-- `std::memset(to, c, n)` -/
def memset (mem : Memory) (p : ℤ) (c : BitVec 8) (n : ℕ) : Memory :=
  fun j => if p ≤ j ∧ j < p + n then c else mem j

/-! ## `bits_memcpy` -/

/-- `(unsigned char)((a & ~mask) | (b & mask))` -/
def merge (a b : BitVec 8) (mask : BitVec 32) : BitVec 8 :=
  (a.setWidth 32 &&& ~~~mask ||| b.setWidth 32 &&& mask).setWidth 8

/-- `-0x100 >> n` -/
def high_mask (n : ℕ) : BitVec 32 := (-0x100#32).sshiftRight n

/-- `0xff >> n` -/
def low_mask (n : ℕ) : BitVec 32 := 0xff#32 >>> n

/-- The variables of the loops. -/
structure Copying where
  dst : Memory
  to_ptr : ℤ
  from_ptr : ℤ
  acc : BitVec 64
  b : ℕ
  bit_count : ℕ

/-- `while (bit_count >= 32)` -/
def copy_words (src : Memory) : ℕ → Copying → Copying
  | 0, st => st
  | rounds + 1, st =>
    if st.bit_count ≥ 32 then
      let acc := st.acc <<< 32 ||| (bswap32 (as_unsigned src st.from_ptr)).setWidth 64
      copy_words src rounds { st with
        acc, from_ptr := st.from_ptr + 4, dst := set_bytes st.dst st.to_ptr 4 (bswap32 ((acc >>> st.b).setWidth 32)),
        to_ptr := st.to_ptr + 4, bit_count := st.bit_count - 32 }
    else st

/-- `while (bit_count >= 8)` -/
def copy_octets (src : Memory) : ℕ → Copying → Copying
  | 0, st => st
  | rounds + 1, st =>
    if st.bit_count ≥ 8 then
      copy_octets src rounds { st with
        acc := st.acc <<< 8 ||| (src st.from_ptr).setWidth 64, from_ptr := st.from_ptr + 1, bit_count := st.bit_count - 8, b := st.b + 8 }
    else st

/-- `if (bit_count > 0)` -/
def copy_tail (src : Memory) (st : Copying) : Copying :=
  if st.bit_count > 0 then
    { st with
      acc := st.acc <<< st.bit_count ||| (src st.from_ptr >>> (8 - st.bit_count)).setWidth 64, b := st.b + st.bit_count, bit_count := 0 }
  else st

/-- `while (b >= 8)` -/
def flush_octets : ℕ → Copying → Copying
  | 0, st => st
  | rounds + 1, st =>
    if st.b ≥ 8 then
      flush_octets rounds { st with
        b := st.b - 8, dst := update st.dst st.to_ptr ((st.acc >>> (st.b - 8)).setWidth 8), to_ptr := st.to_ptr + 1 }
    else st

/-- What is left in the accumulator. -/
def flush (st : Copying) : Memory :=
  let st := flush_octets st.b st
  if st.b > 0 then
    update st.dst st.to_ptr (((st.dst st.to_ptr).setWidth 32 &&& low_mask st.b ||| st.acc.setWidth 32 <<< (8 - st.b)).setWidth 8)
  else st.dst

/-- Both offsets are `offs`, and `bit_count` counts from the start of the first byte. -/
def copy_aligned (dst : Memory) (to_ptr : ℤ) (src : Memory) (from_ptr : ℤ) (offs bit_count : ℕ) : Memory :=
  if bit_count < 8 then
    update dst to_ptr (merge (dst to_ptr) (src from_ptr) (high_mask bit_count &&& low_mask offs))
  else
    let l := bit_count / 8
    let dst :=
      if offs = 0 then memcpy dst to_ptr src from_ptr l
      else memcpy (update dst to_ptr (merge (dst to_ptr) (src from_ptr) (low_mask offs))) (to_ptr + 1) src (from_ptr + 1) (l - 1)
    if bit_count % 8 ≠ 0 then
      update dst (to_ptr + l) (merge (dst (to_ptr + l)) (src (from_ptr + l)) (high_mask (bit_count % 8)))
    else dst

def bits_memcpy (dst : Memory) (to_offs : ℤ) (src : Memory) (from_offs : ℤ) (bit_count : ℕ) : Memory :=
  if bit_count = 0 then dst
  else
    let from_ptr := from_offs / 8
    let to_ptr := to_offs / 8
    let from_offs := (from_offs % 8).toNat
    let to_offs := (to_offs % 8).toNat
    let sz := bit_count
    let bit_count := bit_count + from_offs
    if from_offs = to_offs then copy_aligned dst to_ptr src from_ptr to_offs bit_count
    else
      let b := to_offs
      let acc := if b ≠ 0 then (dst to_ptr >>> (8 - b)).setWidth 64 else 0
      let first := src from_ptr &&& 0xff#8 >>> from_offs
      if bit_count < 8 then
        flush ⟨dst, to_ptr, from_ptr, acc <<< sz ||| (first >>> (8 - bit_count)).setWidth 64, b + sz, 0⟩
      else
        let ld := 8 - from_offs
        let st : Copying := ⟨dst, to_ptr, from_ptr + 1, acc <<< ld ||| first.setWidth 64, b + ld, bit_count - 8⟩
        flush (copy_tail src (copy_octets src st.bit_count (copy_words src st.bit_count st)))

/-! ## `bits_memset` -/

def bits_memset (dst : Memory) (to_offs : ℤ) (val : Bool) (bit_count : ℕ) : Memory :=
  if bit_count = 0 then dst
  else
    let to_ptr := to_offs / 8
    let to_offs := (to_offs % 8).toNat
    let sz := bit_count
    let bit_count := bit_count + to_offs
    let c := (dst to_ptr).setWidth 32
    if bit_count ≤ 8 then
      let mask := (high_mask sz &&& 0xff#32) >>> to_offs
      update dst to_ptr ((if val then c ||| mask else c &&& ~~~mask).setWidth 8)
    else
      let dst := update dst to_ptr ((if val then c ||| low_mask to_offs else c &&& high_mask to_offs).setWidth 8)
      let l := bit_count / 8
      let dst := memset dst (to_ptr + 1) (if val then 0xff else 0) (l - 1)
      if bit_count % 8 ≠ 0 then
        let c := (dst (to_ptr + l)).setWidth 32
        update dst (to_ptr + l)
          ((if val then c ||| high_mask (bit_count % 8) else c &&& low_mask (bit_count % 8)).setWidth 8)
      else dst

/-! ## Words of up to 64 bits -/

/-- `while (p >= q)`, for eight rounds at most. -/
def store_octets (z : BitVec 64) (q : ℤ) : ℕ → Memory × ℤ × ℤ → Memory × ℤ × ℤ
  | 0, st => st
  | rounds + 1, (dst, to_ptr, p) =>
    if p ≥ q then store_octets z q rounds (update dst to_ptr ((z >>> p.toNat).setWidth 8), to_ptr + 1, p - 8) else (dst, to_ptr, p)

/-- The bits up to the end of `z`. -/
def store_within (dst : Memory) (to_ptr : ℤ) (z : BitVec 64) (top_bits : ℕ) : Memory :=
  let q : ℤ := 64 - top_bits
  let st :=
    store_octets z q 8
      (if q ≤ 32 then (set_bytes dst to_ptr 4 (bswap32 ((z >>> 32).setWidth 32)), to_ptr + 4, 56 - 32) else (dst, to_ptr, 56))
  let (dst, to_ptr, p) := st
  let top_bits := (p + 8 - q).toNat
  if top_bits > 0 then
    let mask := low_mask top_bits
    -- `p` is below zero only after all the bits
    update dst to_ptr ((((dst to_ptr).setWidth 64 &&& mask.setWidth 64) ||| (z >>> p.toNat &&& (~~~mask).signExtend 64)).setWidth 8)
  else dst

/-- `none` is the `CHECK`. -/
def bits_store_long_top (dst : Memory) (to_offs : ℤ) (val : BitVec 64) (top_bits : ℕ) : Option Memory :=
  if top_bits > 64 then none
  else if top_bits = 0 then some dst
  else
    let to_ptr := to_offs / 8
    let to_offs := (to_offs % 8).toNat
    if to_offs = 0 ∧ top_bits % 8 = 0 then some (set_bytes dst to_ptr (top_bits / 8) (bswap64 val))
    else
      let z := ((dst to_ptr).setWidth 32 &&& high_mask to_offs).setWidth 64 <<< 56 ||| val >>> to_offs
      let top_bits := top_bits + to_offs
      if top_bits > 64 then
        let dst := set_bytes dst to_ptr 8 (bswap64 z)
        let z := val <<< (8 - to_offs)
        let mask := low_mask (top_bits - 64)
        some (update dst (to_ptr + 8)
          (((dst (to_ptr + 8)).setWidth 32 &&& mask ||| z.setWidth 32 &&& ~~~mask).setWidth 8))
      else some (store_within dst to_ptr z top_bits)

/-- `tmp` is what the eight bytes of the variable hold before they are set. -/
def bits_load_long_top (tmp src : Memory) (from_offs : ℤ) (top_bits : ℕ) : Option (BitVec 64) :=
  if top_bits > 64 then none
  else if top_bits = 0 then some 0
  else
    let from_ptr := from_offs / 8
    let from_offs := (from_offs % 8).toNat
    if from_offs + top_bits ≤ 64 then
      let tmp := memcpy tmp 0 src from_ptr ((from_offs + top_bits + 7) / 8)
      some (bswap64 (as_uint64 tmp 0) <<< from_offs &&& BitVec.allOnes 64 <<< (64 - top_bits))
    else
      let z := bswap64 (as_uint64 src from_ptr) <<< from_offs ||| (src (from_ptr + 8) >>> (8 - from_offs)).setWidth 64
      some (z &&& BitVec.allOnes 64 <<< (64 - top_bits))

/-! ## Bits of words -/

section Words
variable {mem : Memory} {p : ℤ} {i k : ℕ}

theorem bit_eq (mem : Memory) (j : ℤ) : bit mem j = (mem (j / 8)).getLsbD (7 - (j % 8).toNat) := by
  have h := bit_byte mem (j / 8) (show (j % 8).toNat < 8 by omega)
  rwa [show 8 * (j / 8) + ((j % 8).toNat : ℤ) = j by omega] at h

theorem getLsbD_byte (mem : Memory) (p : ℤ) (hk : k < 8) : (mem p).getLsbD k = bit mem (8 * p + 7 - k) := by
  have h := bit_byte mem p (show 7 - k < 8 by omega)
  rw [show 7 - (7 - k) = k by omega, show (8 * p + (7 - k : ℕ) : ℤ) = 8 * p + 7 - k by omega] at h
  exact h.symm

theorem getLsbD_as_unsigned (mem : Memory) (p : ℤ) (hi : i < 32) :
    (as_unsigned mem p).getLsbD i = (mem (p + (i / 8 : ℕ))).getLsbD (i % 8) := by
  simp only [as_unsigned, getLsbD_append]
  have h : i / 8 = 0 ∨ i / 8 = 1 ∨ i / 8 = 2 ∨ i / 8 = 3 := by omega
  rcases h with h | h | h | h
  · rw [if_pos (by omega), h, show i % 8 = i by omega, Nat.cast_zero, add_zero]
  · rw [if_neg (by omega), if_pos (by omega), h, show i - 8 = i % 8 by omega]
    rfl
  · rw [if_neg (by omega), if_neg (by omega), if_pos (by omega), h, show i - 8 - 8 = i % 8 by omega]
    rfl
  · rw [if_neg (by omega), if_neg (by omega), if_neg (by omega), h, show i - 8 - 8 - 8 = i % 8 by omega]
    rfl

theorem getLsbD_bswap32 (x : BitVec 32) (hi : i < 32) : (bswap32 x).getLsbD i = x.getLsbD (24 - 8 * (i / 8) + i % 8) := by
  simp only [bswap32, getLsbD_append, getLsbD_extractLsb']
  have h : i / 8 = 0 ∨ i / 8 = 1 ∨ i / 8 = 2 ∨ i / 8 = 3 := by omega
  rcases h with h | h | h | h
  · rw [if_pos (by omega), decide_eq_true (by omega), Bool.true_and, show 24 - 8 * (i / 8) + i % 8 = 24 + i by omega]
  · rw [if_neg (by omega), if_pos (by omega), decide_eq_true (by omega), Bool.true_and,
      show 24 - 8 * (i / 8) + i % 8 = 16 + (i - 8) by omega]
  · rw [if_neg (by omega), if_neg (by omega), if_pos (by omega), decide_eq_true (by omega), Bool.true_and,
      show 24 - 8 * (i / 8) + i % 8 = 8 + (i - 8 - 8) by omega]
  · rw [if_neg (by omega), if_neg (by omega), if_neg (by omega), decide_eq_true (by omega), Bool.true_and,
      show 24 - 8 * (i / 8) + i % 8 = 0 + (i - 8 - 8 - 8) by omega]

theorem getLsbD_bswap64 (x : BitVec 64) (hi : i < 64) : (bswap64 x).getLsbD i = x.getLsbD (56 - 8 * (i / 8) + i % 8) := by
  rw [bswap64, getLsbD_append]
  split_ifs with h
  · rw [getLsbD_bswap32 _ h, getLsbD_setWidth, getLsbD_ushiftRight, decide_eq_true (by omega), Bool.true_and,
      show 56 - 8 * (i / 8) + i % 8 = 32 + (24 - 8 * (i / 8) + i % 8) by omega]
  · rw [getLsbD_bswap32 _ (by omega), getLsbD_setWidth, decide_eq_true (by omega), Bool.true_and,
      show 56 - 8 * (i / 8) + i % 8 = 24 - 8 * ((i - 32) / 8) + (i - 32) % 8 by omega]

theorem getLsbD_load32 (mem : Memory) (p : ℤ) (hi : i < 32) : (bswap32 (as_unsigned mem p)).getLsbD i = bit mem (8 * p + 31 - i) := by
  rw [getLsbD_bswap32 _ hi, getLsbD_as_unsigned _ _ (by omega), getLsbD_byte _ _ (by omega)]
  congr 1
  omega

theorem getLsbD_load64 (mem : Memory) (p : ℤ) (hi : i < 64) : (bswap64 (as_uint64 mem p)).getLsbD i = bit mem (8 * p + 63 - i) := by
  rw [getLsbD_bswap64 _ hi, as_uint64, getLsbD_append]
  split_ifs with h
  · rw [getLsbD_as_unsigned _ _ h, getLsbD_byte _ _ (by omega)]
    congr 1
    omega
  · rw [getLsbD_as_unsigned _ _ (by omega), getLsbD_byte _ _ (by omega)]
    congr 1
    omega

theorem getLsbD_high_mask {n : ℕ} (hn : n ≤ 8) (hi : i < 8) : (high_mask n).getLsbD i = decide (8 ≤ n + i) := by
  have h : ∀ n < 9, ∀ i < 8, (high_mask n).getLsbD i = decide (8 ≤ n + i) := by decide
  exact h n (by omega) i hi

theorem getLsbD_low_mask (n i : ℕ) : (low_mask n).getLsbD i = decide (n + i < 8) := by
  have h : ∀ k, (0xff#32).getLsbD k = decide (k < 8) := by
    intro k
    by_cases hk : k < 8
    · have h8 : ∀ k < 8, (0xff#32).getLsbD k = true := by decide
      rw [h8 k hk, decide_eq_true hk]
    · rw [decide_eq_false hk]
      by_cases h32 : k < 32
      · have h32' : ∀ k < 32, ¬k < 8 → (0xff#32).getLsbD k = false := by decide
        exact h32' k h32 hk
      · exact getLsbD_of_ge _ _ (by omega)
  rw [low_mask, getLsbD_ushiftRight, h]

theorem getLsbD_merge (a b : BitVec 8) (mask : BitVec 32) (hi : i < 8) :
    (merge a b mask).getLsbD i = if mask.getLsbD i then b.getLsbD i else a.getLsbD i := by
  have h : i < 32 := by omega
  rw [merge, getLsbD_setWidth, getLsbD_or, getLsbD_and, getLsbD_and, getLsbD_not, getLsbD_setWidth,
    getLsbD_setWidth]
  cases mask.getLsbD i <;> simp [h, hi]

end Words

/-! ## What is written -/

/-- The bits from `lo` to `hi` become those of `f`, the others are kept. -/
def Writes (dst dst' : Memory) (lo hi : ℤ) (f : ℤ → Bool) : Prop := ∀ j, bit dst' j = if lo ≤ j ∧ j < hi then f j else bit dst j

section Writes
variable {dst dst' dst₁ dst₂ src : Memory} {lo mid mid' hi p q d : ℤ} {f g : ℤ → Bool} {a b n : ℕ}

theorem Writes.refl (dst : Memory) (lo : ℤ) (f : ℤ → Bool) : Writes dst dst lo lo f := by
  intro j
  rw [if_neg (by omega)]

theorem Writes.trans (h : Writes dst dst₁ lo mid f) (h' : Writes dst₁ dst₂ mid' hi f) (hmid : mid' = mid) (h1 : lo ≤ mid) (h2 : mid ≤ hi) :
    Writes dst dst₂ lo hi f := by
  subst hmid
  intro j
  rw [h' j, h j]
  split_ifs <;> first | rfl | omega

theorem Writes.ends (h : Writes dst dst' lo hi f) {lo' hi' : ℤ} (hlo : lo' = lo) (hhi : hi' = hi) : Writes dst dst' lo' hi' f := by
  subst hlo hhi
  exact h

theorem Writes.of_head (h : Writes dst dst' lo hi fun j => if j < mid then bit dst j else f j) (hmid : lo ≤ mid) : Writes dst dst' mid hi f := by
  intro j
  rw [h j]
  dsimp only
  split_ifs <;> first | rfl | omega

theorem Writes.congr (h : Writes dst dst' lo hi f) (hf : ∀ j, lo ≤ j → j < hi → f j = g j) : Writes dst dst' lo hi g := by
  intro j
  rw [h j]
  split_ifs with hj
  · exact hf j hj.1 hj.2
  · rfl

theorem writes_update {v : BitVec 8} (hb : b ≤ 8)
    (hv : ∀ k < 8, v.getLsbD (7 - k) = if a ≤ k ∧ k < b then f (8 * p + k) else bit dst (8 * p + k)) :
    Writes dst (update dst p v) (8 * p + a) (8 * p + b) f := by
  intro j
  rw [bit_eq]
  by_cases hj : j / 8 = p
  · have hk := hv (j % 8).toNat (by omega)
    rw [show (8 * p + ((j % 8).toNat : ℕ) : ℤ) = j by omega] at hk
    rw [hj, update_self, hk]
    congr 1
    exact propext (by omega)
  · rw [update_of_ne hj, if_neg (by omega), ← bit_eq]

theorem writes_bytes {v : ℤ → BitVec 8} (hf : ∀ j, p ≤ j → j < p + n → ∀ k < 8, (v j).getLsbD (7 - k) = f (8 * j + k)) :
    Writes dst (fun j => if p ≤ j ∧ j < p + n then v j else dst j) (8 * p) (8 * (p + n)) f := by
  intro j
  rw [bit_eq]
  by_cases hj : p ≤ j / 8 ∧ j / 8 < p + n
  · rw [if_pos hj, if_pos (by omega), hf _ hj.1 hj.2 _ (by omega)]
    congr 1
    omega
  · rw [if_neg hj, if_neg (by omega), ← bit_eq]

theorem writes_memcpy (dst src : Memory) (n : ℕ) (hd : q = p + d) :
    Writes dst (memcpy dst p src q n) (8 * p) (8 * (p + n)) fun j => bit src (j + 8 * d) := by
  refine writes_bytes fun j _ _ k hk => ?_
  rw [getLsbD_byte _ _ (by omega)]
  congr 1
  omega

theorem writes_memset (dst : Memory) (p : ℤ) (val : Bool) (n : ℕ) :
    Writes dst (memset dst p (if val then 0xff else 0) n) (8 * p) (8 * (p + n)) fun _ => val := by
  refine writes_bytes fun j _ _ k hk => ?_
  have h : ∀ k < 8, (0xff#8).getLsbD (7 - k) = true := by decide
  cases val with
  | true => exact h k hk
  | false => exact getLsbD_zero

theorem writes_bswap32 (dst : Memory) (p : ℤ) (x : BitVec 32) :
    Writes dst (set_bytes dst p 4 (bswap32 x)) (8 * p) (8 * (p + 4)) fun j => x.getLsbD (31 - (j - 8 * p).toNat) := by
  refine writes_bytes (n := 4) fun j h1 h2 k hk => ?_
  rw [getLsbD_setWidth, decide_eq_true (by omega), Bool.true_and, getLsbD_ushiftRight, getLsbD_bswap32 _ (by omega)]
  congr 1
  omega

theorem writes_bswap64 (dst : Memory) (p : ℤ) (x : BitVec 64) (hn : n ≤ 8) :
    Writes dst (set_bytes dst p n (bswap64 x)) (8 * p) (8 * (p + n)) fun j => x.getLsbD (63 - (j - 8 * p).toNat) := by
  refine writes_bytes fun j h1 h2 k hk => ?_
  rw [getLsbD_setWidth, decide_eq_true (by omega), Bool.true_and, getLsbD_ushiftRight, getLsbD_bswap64 _ (by omega)]
  congr 1
  omega

theorem writes_merge (dst src : Memory) (mask : BitVec 32) (hb : b ≤ 8) (hmask : ∀ k < 8, mask.getLsbD (7 - k) = decide (a ≤ k ∧ k < b))
    (hd : q = p + d) :
    Writes dst (update dst p (merge (dst p) (src q) mask)) (8 * p + a) (8 * p + b) fun j => bit src (j + 8 * d) := by
  refine writes_update hb fun k hk => ?_
  rw [getLsbD_merge _ _ _ (by omega), hmask k hk, getLsbD_byte _ _ (by omega), getLsbD_byte _ _ (by omega)]
  simp only [decide_eq_true_eq]
  congr 2 <;> omega

theorem writes_set (dst : Memory) (p : ℤ) (val : Bool) (on off : BitVec 32) (hb : b ≤ 8)
    (hon : ∀ k < 8, on.getLsbD (7 - k) = decide (a ≤ k ∧ k < b)) (hoff : ∀ k < 8, off.getLsbD (7 - k) = !decide (a ≤ k ∧ k < b)) :
    Writes dst (update dst p ((if val then (dst p).setWidth 32 ||| on else (dst p).setWidth 32 &&& off).setWidth 8))
      (8 * p + a) (8 * p + b) fun _ => val := by
  refine writes_update hb fun k hk => ?_
  have h8 : 7 - k < 8 := by omega
  have h32 : 7 - k < 32 := by omega
  have hbyte := getLsbD_byte dst p h8
  rw [show 8 * p + 7 - (7 - k : ℕ) = 8 * p + k by omega] at hbyte
  rw [getLsbD_setWidth, decide_eq_true h8, Bool.true_and]
  cases val with
  | true =>
    rw [if_pos rfl, getLsbD_or, getLsbD_setWidth, decide_eq_true h32, Bool.true_and, hbyte, hon k hk]
    by_cases hab : a ≤ k ∧ k < b <;> simp [hab]
  | false =>
    rw [if_neg Bool.false_ne_true, getLsbD_and, getLsbD_setWidth, decide_eq_true h32, Bool.true_and, hbyte, hoff k hk]
    by_cases hab : a ≤ k ∧ k < b <;> simp [hab]

end Writes

/-! ## `bits_memset` and the aligned copy -/

section Aligned
variable {n o : ℕ}

theorem bits_memset_writes (dst : Memory) (to_offs : ℤ) (val : Bool) (n : ℕ) :
    Writes dst (bits_memset dst to_offs val n) to_offs (to_offs + n) fun _ => val := by
  rw [bits_memset]
  by_cases h0 : n = 0
  · rw [if_pos h0, h0, Nat.cast_zero, add_zero]
    exact Writes.refl _ _ _
  rw [if_neg h0]
  have ho : to_offs = 8 * (to_offs / 8) + ((to_offs % 8).toNat : ℤ) := by omega
  have ho8 : (to_offs % 8).toNat < 8 := by omega
  dsimp only
  generalize (to_offs % 8).toNat = o at *
  generalize to_offs / 8 = p at *
  subst ho
  have hon : ∀ k < 8, (low_mask o).getLsbD (7 - k) = decide (o ≤ k ∧ k < 8) := by
    intro k hk
    rw [getLsbD_low_mask]
    exact decide_eq_decide.2 (by omega)
  have hoff : ∀ k < 8, (high_mask o).getLsbD (7 - k) = !decide (o ≤ k ∧ k < 8) := by
    intro k hk
    rw [getLsbD_high_mask (by omega) (by omega), ← decide_not]
    exact decide_eq_decide.2 (by omega)
  by_cases hshort : n + o ≤ 8
  · rw [if_pos hshort]
    have hmask : ∀ k < 8, ((high_mask n &&& 0xff#32) >>> o).getLsbD (7 - k) = decide (o ≤ k ∧ k < n + o) := by
      intro k hk
      rw [getLsbD_ushiftRight, getLsbD_and]
      have hff := getLsbD_low_mask 0 (o + (7 - k))
      rw [low_mask, ushiftRight_zero] at hff
      rw [hff]
      by_cases hk' : o ≤ k
      · rw [getLsbD_high_mask (by omega) (by omega), ← Bool.decide_and]
        exact decide_eq_decide.2 (by omega)
      · rw [decide_eq_false (by omega), Bool.and_false, decide_eq_false (by omega)]
    have hbyte := writes_set dst p val _ (~~~((high_mask n &&& 0xff#32) >>> o)) hshort hmask fun k hk => by
      rw [getLsbD_not, hmask k hk, decide_eq_true (by omega), Bool.true_and]
    exact hbyte.ends rfl (by push_cast; ring)
  rw [if_neg hshort]
  have hhead := writes_set dst p val _ _ le_rfl hon hoff
  have hbody := hhead.trans (writes_memset _ (p + 1) val ((n + o) / 8 - 1)) (by push_cast; ring) (by omega) (by omega)
  generalize memset _ (p + 1) _ _ = d at hbody ⊢
  by_cases hrest : (n + o) % 8 ≠ 0
  · rw [if_pos hrest]
    have htail := writes_set d (p + ((n + o) / 8 : ℕ)) val (high_mask ((n + o) % 8)) (low_mask ((n + o) % 8)) (a := 0) (b := (n + o) % 8)
      (by omega) (fun k hk => ?_) fun k hk => ?_
    · exact (hbody.trans htail (by omega) (by omega) (by omega)).ends rfl (by omega)
    · rw [getLsbD_high_mask (by omega) (by omega)]
      exact decide_eq_decide.2 (by omega)
    · rw [getLsbD_low_mask, ← decide_not]
      exact decide_eq_decide.2 (by omega)
  · rw [if_neg hrest]
    exact hbody.ends rfl (by omega)

theorem copy_aligned_writes (dst src : Memory) (p q : ℤ) (ho : o < 8) (hn : 0 < n) :
    Writes dst (copy_aligned dst p src q o (n + o)) (8 * p + o) (8 * p + o + n) fun j => bit src (j + 8 * (q - p)) := by
  have hd : q = p + (q - p) := by omega
  have hlow : ∀ k < 8, (low_mask o).getLsbD (7 - k) = decide (o ≤ k ∧ k < 8) := by
    intro k hk
    rw [getLsbD_low_mask]
    exact decide_eq_decide.2 (by omega)
  rw [copy_aligned]
  by_cases hshort : n + o < 8
  · rw [if_pos hshort]
    refine (writes_merge dst src _ (a := o) (b := n + o) (by omega) (fun k hk => ?_) hd).ends rfl (by push_cast; ring)
    rw [getLsbD_and, hlow k hk, getLsbD_high_mask (by omega) (by omega), ← Bool.decide_and]
    exact decide_eq_decide.2 (by omega)
  rw [if_neg hshort]
  dsimp only
  -- the whole bytes
  have hbody : Writes dst (if o = 0 then memcpy dst p src q ((n + o) / 8)
      else memcpy (update dst p (merge (dst p) (src q) (low_mask o))) (p + 1) src (q + 1) ((n + o) / 8 - 1))
      (8 * p + o) (8 * (p + ((n + o) / 8 : ℕ))) fun j => bit src (j + 8 * (q - p)) := by
    split_ifs with h0
    · exact (writes_memcpy dst src _ hd).ends (by omega) rfl
    · exact ((writes_merge dst src _ le_rfl hlow hd).trans (writes_memcpy _ src _ (by omega)) (by push_cast; ring) (by omega) (by omega)).ends
        rfl (by omega)
  generalize ite (o = 0) _ _ = d at hbody ⊢
  split_ifs with hrest
  · have htail := writes_merge d src (high_mask ((n + o) % 8)) (p := p + ((n + o) / 8 : ℕ)) (q := q + ((n + o) / 8 : ℕ)) (a := 0)
      (b := (n + o) % 8) (d := q - p) (by omega) (fun k hk => ?_) (by omega)
    · exact (hbody.trans htail (by omega) (by omega) (by omega)).ends rfl (by omega)
    · rw [getLsbD_high_mask (by omega) (by omega)]
      exact decide_eq_decide.2 (by omega)
  · exact hbody.ends rfl (by omega)

end Aligned

/-! ## The copy through the accumulator -/

/-- The bits of `f` up to `hi` are written, in the accumulator, or still to be read, in this order. -/
structure Copied (dst src : Memory) (lo hi : ℤ) (f : ℤ → Bool) (st : Copying) : Prop where
  le : lo ≤ 8 * st.to_ptr
  writes : Writes dst st.dst lo (8 * st.to_ptr) f
  acc : ∀ k < st.b, st.acc.getLsbD k = f (8 * st.to_ptr + st.b - 1 - k)
  rest : ∀ i < st.bit_count, f (8 * st.to_ptr + st.b + i) = bit src (8 * st.from_ptr + i)
  total : 8 * st.to_ptr + st.b + st.bit_count = hi

section Copied
variable {dst dst' src : Memory} {lo hi e p : ℤ} {f : ℤ → Bool} {st : Copying} {acc x : BitVec 64} {b n : ℕ}

theorem getLsbD_fill (hacc : ∀ k < b, acc.getLsbD k = f (e - 1 - k)) (hx : ∀ k < n, x.getLsbD k = f (e + n - 1 - k))
    (hz : ∀ k, n ≤ k → x.getLsbD k = false) (hb : b + n ≤ 64) :
    ∀ k < b + n, (acc <<< n ||| x).getLsbD k = f (e + n - 1 - k) := by
  intro k hk
  rw [getLsbD_or, getLsbD_shiftLeft, decide_eq_true (show k < 64 by omega), Bool.true_and]
  by_cases hkn : k < n
  · rw [decide_eq_true hkn, Bool.not_true, Bool.false_and, Bool.false_or, hx k hkn]
  · rw [decide_eq_false hkn, Bool.not_false, Bool.true_and, hz k (by omega), Bool.or_false, hacc _ (by omega)]
    congr 1
    omega

section
variable (h : Copied dst src lo hi f st)
include h

theorem Copied.read (hn : n ≤ st.bit_count) (hb : st.b + n ≤ 64)
    (hp : n < st.bit_count → 8 * p = 8 * st.from_ptr + n) (hx : ∀ k < n, x.getLsbD k = bit src (8 * st.from_ptr + n - 1 - k))
    (hz : ∀ k, n ≤ k → x.getLsbD k = false) :
    Copied dst src lo hi f { st with acc := st.acc <<< n ||| x, from_ptr := p, b := st.b + n, bit_count := st.bit_count - n } := by
  have htotal := h.total
  refine ⟨h.le, h.writes, ?_, fun i hi => ?_, by dsimp only; omega⟩
  · have hfill := getLsbD_fill h.acc (x := x) (n := n) (fun k hk => ?_) hz hb
    · intro k hk
      rw [hfill k hk]
      congr 1
      dsimp only
      omega
    · have hrest := h.rest (n - 1 - k) (by omega)
      rw [hx k hk, show 8 * st.from_ptr + n - 1 - k = 8 * st.from_ptr + (n - 1 - k : ℕ) by omega, ← hrest]
      congr 1
      omega
  · dsimp only at hi ⊢
    have hrest := h.rest (n + i) (by omega)
    rw [show 8 * p + i = 8 * st.from_ptr + (n + i : ℕ) by have := hp (by omega); omega, ← hrest]
    congr 1
    omega

theorem Copied.write (hb : st.b = b + 8 * n)
    (hw : Writes st.dst dst' (8 * st.to_ptr) (8 * (st.to_ptr + n)) fun j => st.acc.getLsbD (b + 8 * n - 1 - (j - 8 * st.to_ptr).toNat)) :
    Copied dst src lo hi f { st with dst := dst', to_ptr := st.to_ptr + n, b := b } := by
  have htotal := h.total
  have hle := h.le
  refine ⟨by dsimp only; omega, ?_, fun k hk => ?_, fun i hi => ?_, by dsimp only; omega⟩
  · refine h.writes.trans (hw.congr fun j h1 h2 => ?_) rfl hle (by dsimp only; omega)
    rw [h.acc _ (by omega)]
    congr 1
    omega
  · rw [h.acc k (by dsimp only at hk; omega)]
    congr 1
    dsimp only
    omega
  · rw [← h.rest i hi]
    congr 1
    dsimp only
    omega

theorem Copied.copy_words (hb : st.b ≤ 15) {r : ℕ} (hr : st.bit_count ≤ r) :
    Copied dst src lo hi f (copy_words src r st) ∧ (copy_words src r st).b = st.b ∧
      (copy_words src r st).bit_count ≤ st.bit_count ∧ (copy_words src r st).bit_count < 32 := by
  induction r generalizing st with
  | zero => exact ⟨h, rfl, le_rfl, by rw [bitstring.copy_words]; omega⟩
  | succ r ih =>
    rw [bitstring.copy_words]
    by_cases hlong : st.bit_count ≥ 32
    · rw [if_pos hlong]
      have hread := h.read (n := 32) (p := st.from_ptr + 4) (x := (bswap32 (as_unsigned src st.from_ptr)).setWidth 64) hlong (by omega)
        (by omega) (fun k hk => ?_) fun k hk => ?_
      · dsimp only
        generalize st.acc <<< 32 ||| (bswap32 (as_unsigned src st.from_ptr)).setWidth 64 = acc at hread ⊢
        have hbytes : Writes st.dst (set_bytes st.dst st.to_ptr 4 (bswap32 ((acc >>> st.b).setWidth 32))) (8 * st.to_ptr)
            (8 * (st.to_ptr + 4)) fun j => acc.getLsbD (st.b + 8 * 4 - 1 - (j - 8 * st.to_ptr).toNat) := by
          refine (writes_bswap32 _ _ _).congr fun j h1 h2 => ?_
          rw [getLsbD_setWidth, decide_eq_true (by omega), Bool.true_and, getLsbD_ushiftRight]
          congr 1
          omega
        obtain ⟨h1, h2, h3, h4⟩ := ih (hread.write rfl hbytes) hb (by dsimp only; omega)
        exact ⟨h1, h2, h3.trans (by dsimp only; omega), h4⟩
      · rw [getLsbD_setWidth, decide_eq_true (by omega), Bool.true_and, getLsbD_load32 _ _ hk]
        congr 1
        push_cast
        ring
      · rw [getLsbD_setWidth, getLsbD_of_ge _ _ hk, Bool.and_false]
    · rw [if_neg hlong]
      exact ⟨h, rfl, le_rfl, by omega⟩

theorem Copied.copy_octets (hb : st.b + st.bit_count ≤ 64) {r : ℕ} (hr : st.bit_count ≤ r) :
    Copied dst src lo hi f (copy_octets src r st) ∧
      (copy_octets src r st).b + (copy_octets src r st).bit_count = st.b + st.bit_count ∧
      (copy_octets src r st).bit_count < 8 := by
  induction r generalizing st with
  | zero => exact ⟨h, rfl, by rw [bitstring.copy_octets]; omega⟩
  | succ r ih =>
    rw [bitstring.copy_octets]
    by_cases hlong : st.bit_count ≥ 8
    · rw [if_pos hlong]
      have hread := h.read (n := 8) (p := st.from_ptr + 1) (x := (src st.from_ptr).setWidth 64) hlong (by omega)
        (by omega) (fun k hk => ?_) fun k hk => ?_
      · obtain ⟨h1, h2, h3⟩ := ih hread (by dsimp only; omega) (by dsimp only; omega)
        exact ⟨h1, h2.trans (by dsimp only; omega), h3⟩
      · rw [getLsbD_setWidth, decide_eq_true (by omega), Bool.true_and, getLsbD_byte _ _ hk]
        congr 1
        push_cast
        ring
      · rw [getLsbD_setWidth, getLsbD_of_ge _ _ hk, Bool.and_false]
    · rw [if_neg hlong]
      exact ⟨h, rfl, by omega⟩

theorem Copied.copy_tail (hb : st.b + st.bit_count ≤ 64) (hc : st.bit_count < 8) :
    Copied dst src lo hi f (copy_tail src st) ∧ (copy_tail src st).b ≤ 64 ∧ (copy_tail src st).bit_count = 0 := by
  rw [bitstring.copy_tail]
  by_cases h0 : st.bit_count > 0
  · rw [if_pos h0]
    have hread := h.read (n := st.bit_count) (p := st.from_ptr) (x := (src st.from_ptr >>> (8 - st.bit_count)).setWidth 64) le_rfl hb
      (by omega) (fun k hk => ?_) fun k hk => ?_
    · rw [Nat.sub_self] at hread
      exact ⟨hread, hb, rfl⟩
    · rw [getLsbD_setWidth, decide_eq_true (by omega), Bool.true_and, getLsbD_ushiftRight, getLsbD_byte _ _ (by omega)]
      congr 1
      omega
    · rw [getLsbD_setWidth, getLsbD_ushiftRight, getLsbD_of_ge _ _ (by omega), Bool.and_false]
  · rw [if_neg h0]
    exact ⟨h, by omega, by omega⟩

theorem Copied.flush_octets (hb : st.b ≤ 64) {r : ℕ} (hr : st.b ≤ r) :
    Copied dst src lo hi f (flush_octets r st) ∧ (flush_octets r st).b < 8 ∧
      (flush_octets r st).bit_count = st.bit_count := by
  induction r generalizing st with
  | zero => exact ⟨h, by rw [bitstring.flush_octets]; omega, rfl⟩
  | succ r ih =>
    rw [bitstring.flush_octets]
    by_cases hlong : st.b ≥ 8
    · rw [if_pos hlong]
      have hbyte : Writes st.dst (update st.dst st.to_ptr ((st.acc >>> (st.b - 8)).setWidth 8)) (8 * st.to_ptr)
          (8 * (st.to_ptr + (1 : ℕ))) fun j => st.acc.getLsbD (st.b - 8 + 8 * 1 - 1 - (j - 8 * st.to_ptr).toNat) := by
        refine (writes_update (a := 0) (b := 8) le_rfl fun k hk => ?_).ends (by push_cast; ring) (by push_cast; ring)
        rw [if_pos (by omega), getLsbD_setWidth, decide_eq_true (by omega), Bool.true_and, getLsbD_ushiftRight]
        congr 1
        omega
      exact ih (h.write (n := 1) (b := st.b - 8) (by omega) hbyte) (by dsimp only; omega) (by dsimp only; omega)
    · rw [if_neg hlong]
      exact ⟨h, by omega, rfl⟩

theorem Copied.flush (hb : st.b ≤ 64) (hc : st.bit_count = 0) : Writes dst (flush st) lo hi f := by
  obtain ⟨h', h8, hc'⟩ := h.flush_octets hb le_rfl
  rw [bitstring.flush]
  generalize bitstring.flush_octets st.b st = st' at *
  have htotal := h'.total
  have hle := h'.le
  split_ifs with h0
  · refine h'.writes.trans (((writes_update (a := 0) (b := st'.b) (by omega) fun k hk => ?_)).ends (by omega) (by omega)) rfl hle (by omega)
    have hbyte := getLsbD_byte st'.dst st'.to_ptr (show 7 - k < 8 by omega)
    rw [show 8 * st'.to_ptr + 7 - (7 - k : ℕ) = 8 * st'.to_ptr + k by omega] at hbyte
    rw [getLsbD_setWidth, decide_eq_true (by omega), Bool.true_and, getLsbD_or, getLsbD_and, getLsbD_low_mask,
      getLsbD_shiftLeft, getLsbD_setWidth, getLsbD_setWidth, hbyte, decide_eq_true (show 7 - k < 32 by omega), Bool.true_and,
      Bool.true_and]
    by_cases hk' : k < st'.b
    · rw [if_pos (by omega), decide_eq_false (by omega), Bool.and_false, Bool.false_or, decide_eq_false (by omega), Bool.not_false, Bool.true_and,
        decide_eq_true (by omega), Bool.true_and, h'.acc _ (by omega)]
      congr 1
      omega
    · rw [if_neg (by omega), decide_eq_true (by omega), Bool.and_true, decide_eq_true (by omega), Bool.not_true, Bool.false_and, Bool.or_false]
  · exact h'.writes.ends rfl (by omega)

theorem Copied.finish (hb : st.b ≤ 15) :
    Writes dst (bitstring.flush (bitstring.copy_tail src (bitstring.copy_octets src st.bit_count (bitstring.copy_words src st.bit_count st))))
      lo hi f := by
  obtain ⟨h1, hb1, hle, hc1⟩ := h.copy_words hb le_rfl
  obtain ⟨h2, hb2, hc2⟩ := h1.copy_octets (by omega) hle
  obtain ⟨h3, hb3, hc3⟩ := h2.copy_tail (by omega) hc2
  exact h3.flush hb3 hc3

end

end Copied

theorem bits_memcpy_writes (dst : Memory) (to_offs : ℤ) (src : Memory) (from_offs : ℤ) (n : ℕ) :
    Writes dst (bits_memcpy dst to_offs src from_offs n) to_offs (to_offs + n) fun j => bit src (j - to_offs + from_offs) := by
  rw [bits_memcpy]
  by_cases h0 : n = 0
  · rw [if_pos h0, h0, Nat.cast_zero, add_zero]
    exact Writes.refl _ _ _
  rw [if_neg h0]
  have ho : to_offs = 8 * (to_offs / 8) + ((to_offs % 8).toNat : ℤ) := by omega
  have ho8 : (to_offs % 8).toNat < 8 := by omega
  have hs : from_offs = 8 * (from_offs / 8) + ((from_offs % 8).toNat : ℤ) := by omega
  have hs8 : (from_offs % 8).toNat < 8 := by omega
  dsimp only
  generalize (to_offs % 8).toNat = o at *
  generalize to_offs / 8 = p at *
  generalize (from_offs % 8).toNat = s at *
  generalize from_offs / 8 = q at *
  subst ho hs
  by_cases heq : s = o
  · subst heq
    rw [if_pos rfl]
    refine (copy_aligned_writes dst src p q hs8 (by omega)).congr fun j h1 h2 => ?_
    congr 1
    ring
  rw [if_neg heq]
  -- the head of the first byte is copied onto itself
  refine Writes.of_head (show Writes dst _ (8 * p) _ _ from ?_) (by omega)
  set f : ℤ → Bool := fun j => if j < 8 * p + o then bit dst j else bit src (j - (8 * p + o) + (8 * q + s)) with hf
  have hhead : ∀ k < o, (if o ≠ 0 then (dst p >>> (8 - o)).setWidth 64 else 0).getLsbD k = f (8 * p + o - 1 - k) := by
    intro k hk
    rw [if_pos (by omega), getLsbD_setWidth, decide_eq_true (by omega), Bool.true_and, getLsbD_ushiftRight,
      getLsbD_byte _ _ (by omega), hf]
    dsimp only
    rw [if_pos (by omega)]
    congr 1
    omega
  have hfirst : ∀ k, (src q &&& 0xff#8 >>> s).getLsbD k = (decide (s + k < 8) && (src q).getLsbD k) := by
    intro k
    have hff : ∀ k, (0xff#8).getLsbD k = decide (k < 8) := by
      intro k
      by_cases hk : k < 8
      · have h8 : ∀ k < 8, (0xff#8).getLsbD k = true := by decide
        rw [h8 k hk, decide_eq_true hk]
      · rw [decide_eq_false hk, getLsbD_of_ge _ _ (by omega)]
    rw [getLsbD_and, getLsbD_ushiftRight, hff, Bool.and_comm]
  have hrest : ∀ i : ℕ, f (8 * p + o + i) = bit src (8 * q + s + i) := by
    intro i
    rw [hf]
    dsimp only
    rw [if_neg (by omega)]
    congr 1
    ring
  by_cases hshort : n + s < 8
  · rw [if_pos hshort]
    have hfill := getLsbD_fill hhead (x := ((src q &&& 0xff#8 >>> s) >>> (8 - (n + s))).setWidth 64) (n := n) (fun k hk => ?_) (fun k hk => ?_)
      (by omega)
    · have hstart : Copied dst src (8 * p) (8 * p + o + n) f ⟨dst, p, q, (if o ≠ 0 then (dst p >>> (8 - o)).setWidth 64 else 0) <<< n |||
          ((src q &&& 0xff#8 >>> s) >>> (8 - (n + s))).setWidth 64, o + n, 0⟩ := by
        refine ⟨le_rfl, Writes.refl _ _ _, fun k hk => ?_, fun i hi => absurd hi (Nat.not_lt_zero i), by dsimp only; omega⟩
        rw [hfill k hk]
        congr 1
        dsimp only
        push_cast
        ring
      exact hstart.flush (by dsimp only; omega) rfl
    · rw [getLsbD_setWidth, decide_eq_true (by omega), Bool.true_and, getLsbD_ushiftRight, hfirst, decide_eq_true (by omega),
        Bool.true_and, getLsbD_byte _ _ (by omega), show 8 * p + o + n - 1 - k = 8 * p + o + (n - 1 - k : ℕ) by omega, hrest]
      congr 1
      omega
    · rw [getLsbD_setWidth, getLsbD_ushiftRight, hfirst, decide_eq_false (show ¬s + (8 - (n + s) + k) < 8 by omega),
        Bool.false_and, Bool.and_false]
  · rw [if_neg hshort]
    have hfill := getLsbD_fill hhead (x := (src q &&& 0xff#8 >>> s).setWidth 64) (n := 8 - s) (fun k hk => ?_) (fun k hk => ?_) (by omega)
    · have hstart : Copied dst src (8 * p) (8 * p + o + n) f ⟨dst, p, q + 1,
          (if o ≠ 0 then (dst p >>> (8 - o)).setWidth 64 else 0) <<< (8 - s) ||| (src q &&& 0xff#8 >>> s).setWidth 64, o + (8 - s), n + s - 8⟩ := by
        refine ⟨le_rfl, Writes.refl _ _ _, fun k hk => ?_, fun i hi => ?_, by dsimp only; omega⟩
        · rw [hfill k hk]
          congr 1
          dsimp only
          push_cast
          ring
        · dsimp only
          rw [show 8 * p + (o + (8 - s) : ℕ) + i = 8 * p + o + (8 - s + i : ℕ) by omega, hrest]
          congr 1
          omega
      exact hstart.finish (by dsimp only; omega)
    · rw [getLsbD_setWidth, decide_eq_true (by omega), Bool.true_and, hfirst, decide_eq_true (by omega), Bool.true_and,
        getLsbD_byte _ _ (by omega), show 8 * p + o + (8 - s : ℕ) - 1 - k = 8 * p + o + (8 - s - 1 - k : ℕ) by omega, hrest]
      congr 1
      omega
    · rw [getLsbD_setWidth, hfirst, decide_eq_false (show ¬s + k < 8 by omega), Bool.false_and, Bool.and_false]

/-! ## Words -/

section Store
variable {dst : Memory} {z : BitVec 64} {to_ptr p q : ℤ} {n o : ℕ} {st : Memory × ℤ × ℤ}

/-- The bits of `z` above the lowest `p + 8` are written. -/
structure Stored (dst : Memory) (z : BitVec 64) (to_ptr : ℤ) (st : Memory × ℤ × ℤ) : Prop where
  le : to_ptr ≤ st.2.1
  place : 8 * (st.2.1 - to_ptr) + st.2.2 = 56
  writes : Writes dst st.1 (8 * to_ptr) (8 * st.2.1) fun j => z.getLsbD (63 - (j - 8 * to_ptr).toNat)

theorem store_octets_stored (h : Stored dst z to_ptr st) (hq : 0 ≤ q) (hp : q ≤ st.2.2 + 8) {r : ℕ} (hr : st.2.2 < 8 * r) :
    Stored dst z to_ptr (store_octets z q r st) ∧ (store_octets z q r st).2.2 < q ∧ q ≤ (store_octets z q r st).2.2 + 8 := by
  induction r generalizing st with
  | zero => exact ⟨h, by rw [store_octets]; omega, hp⟩
  | succ r ih =>
    obtain ⟨d, t, p⟩ := st
    obtain ⟨hle, hplace, hwrites⟩ := h
    dsimp only at hle hplace hwrites hp hr
    rw [store_octets]
    by_cases hlong : p ≥ q
    · rw [if_pos hlong]
      refine ih ⟨by dsimp only; omega, by dsimp only; omega, ?_⟩ (by dsimp only; omega) (by dsimp only; omega)
      refine hwrites.trans ((writes_update (a := 0) (b := 8) le_rfl fun k hk => ?_).ends (by push_cast; ring) (by push_cast; ring)) rfl
        (by omega) (by dsimp only; omega)
      rw [if_pos (by omega), getLsbD_setWidth, decide_eq_true (by omega), Bool.true_and, getLsbD_ushiftRight]
      congr 1
      omega
    · rw [if_neg hlong]
      exact ⟨⟨hle, hplace, hwrites⟩, by dsimp only; omega, hp⟩

theorem store_within_writes (dst : Memory) (to_ptr : ℤ) (z : BitVec 64) (h0 : 0 < n) (hn : n ≤ 64) :
    Writes dst (store_within dst to_ptr z n) (8 * to_ptr) (8 * to_ptr + n) fun j => z.getLsbD (63 - (j - 8 * to_ptr).toNat) := by
  have hstart : Stored dst z to_ptr
      (if (64 - n : ℤ) ≤ 32 then (set_bytes dst to_ptr 4 (bswap32 ((z >>> 32).setWidth 32)), to_ptr + 4, 56 - 32) else (dst, to_ptr, 56)) := by
    split_ifs with hq
    · refine ⟨by dsimp only; omega, by dsimp only; omega, (writes_bswap32 _ _ _).congr fun j h1 h2 => ?_⟩
      rw [getLsbD_setWidth, decide_eq_true (by omega), Bool.true_and, getLsbD_ushiftRight]
      congr 1
      omega
    · exact ⟨le_rfl, by dsimp only; omega, Writes.refl _ _ _⟩
  have hfirst : (64 - n : ℤ) ≤
      (if (64 - n : ℤ) ≤ 32 then (set_bytes dst to_ptr 4 (bswap32 ((z >>> 32).setWidth 32)), to_ptr + 4, (56 - 32 : ℤ))
        else (dst, to_ptr, 56)).2.2 + 8 ∧
      (if (64 - n : ℤ) ≤ 32 then (set_bytes dst to_ptr 4 (bswap32 ((z >>> 32).setWidth 32)), to_ptr + 4, (56 - 32 : ℤ)) else (dst, to_ptr, 56)).2.2 <
        8 * (8 : ℕ) := by
    split_ifs with hq
    · exact ⟨by dsimp only; omega, by norm_num⟩
    · exact ⟨by dsimp only; omega, by norm_num⟩
  obtain ⟨⟨hle, hplace, hwrites⟩, hlt, hge⟩ := store_octets_stored hstart (by omega) hfirst.1 hfirst.2
  rw [store_within]
  dsimp only
  generalize store_octets z (64 - n : ℤ) 8 _ = st at *
  obtain ⟨d, t, p⟩ := st
  dsimp only at hle hplace hwrites hlt hge ⊢
  split_ifs with hrest
  · refine hwrites.trans ((writes_update (a := 0) (b := (p + 8 - (64 - n)).toNat) (by omega) fun k hk => ?_).ends (by omega) (by omega)) rfl
      (by omega) (by omega)
    have hbyte := getLsbD_byte d t (show 7 - k < 8 by omega)
    rw [show 8 * t + 7 - (7 - k : ℕ) = 8 * t + k by omega] at hbyte
    rw [getLsbD_setWidth, decide_eq_true (by omega), Bool.true_and, getLsbD_or, getLsbD_and, getLsbD_and,
      getLsbD_setWidth, getLsbD_setWidth, decide_eq_true (show 7 - k < 64 by omega), Bool.true_and, Bool.true_and, hbyte,
      getLsbD_ushiftRight, getLsbD_signExtend, decide_eq_true (show 7 - k < 64 by omega), Bool.true_and,
      if_pos (show 7 - k < 32 by omega), getLsbD_not, decide_eq_true (show 7 - k < 32 by omega), Bool.true_and, getLsbD_low_mask]
    by_cases hk' : k < (p + 8 - (64 - n)).toNat
    · rw [if_pos (by omega), decide_eq_false (by omega), Bool.and_false, Bool.false_or, Bool.not_false, Bool.and_true]
      congr 1
      omega
    · rw [if_neg (by omega), decide_eq_true (by omega), Bool.and_true, Bool.not_true, Bool.and_false, Bool.or_false]
  · exact hwrites.ends rfl (by omega)

theorem bits_store_long_top_writes (dst : Memory) (to_offs : ℤ) (val : BitVec 64) (hn : n ≤ 64) :
    ∃ dst', bits_store_long_top dst to_offs val n = some dst' ∧
      Writes dst dst' to_offs (to_offs + n) fun j => val.getLsbD (63 - (j - to_offs).toNat) := by
  rw [bits_store_long_top, if_neg (by omega)]
  by_cases h0 : n = 0
  · rw [if_pos h0, h0, Nat.cast_zero, add_zero]
    exact ⟨dst, rfl, Writes.refl _ _ _⟩
  rw [if_neg h0]
  have ho : to_offs = 8 * (to_offs / 8) + ((to_offs % 8).toNat : ℤ) := by omega
  have ho8 : (to_offs % 8).toNat < 8 := by omega
  dsimp only
  generalize (to_offs % 8).toNat = o at *
  generalize to_offs / 8 = p at *
  subst ho
  by_cases haligned : o = 0 ∧ n % 8 = 0
  · rw [if_pos haligned]
    obtain ⟨rfl, hn8⟩ := haligned
    refine ⟨_, rfl, ((writes_bswap64 dst p val (n := n / 8) (by omega)).ends (by omega) (by omega)).congr fun j h1 h2 => ?_⟩
    rw [Nat.cast_zero, add_zero]
  rw [if_neg haligned]
  -- the word that starts with the head of the first byte
  set z := ((dst p).setWidth 32 &&& high_mask o).setWidth 64 <<< 56 ||| val >>> o with hz
  set f : ℤ → Bool := fun j => if j < 8 * p + o then bit dst j else val.getLsbD (63 - (j - (8 * p + o)).toNat) with hf
  have hbits : ∀ i < 64, z.getLsbD i = f (8 * p + 63 - i) := by
    intro i hi
    rw [hz, hf, getLsbD_or, getLsbD_shiftLeft, getLsbD_setWidth, getLsbD_and, getLsbD_setWidth,
      getLsbD_ushiftRight, decide_eq_true hi, Bool.true_and, decide_eq_true (show i - 56 < 64 by omega), Bool.true_and,
      decide_eq_true (show i - 56 < 32 by omega), Bool.true_and, getLsbD_high_mask (by omega) (show i - 56 < 8 by omega)]
    dsimp only
    split_ifs with hhead
    · rw [getLsbD_of_ge val _ (show 64 ≤ o + i by omega), Bool.or_false, decide_eq_false (show ¬i < 56 by omega), Bool.not_false,
        Bool.true_and, decide_eq_true (show 8 ≤ o + (i - 56) by omega), Bool.and_true, getLsbD_byte _ _ (by omega)]
      congr 1
      omega
    · by_cases h56 : i < 56
      · rw [decide_eq_true h56, Bool.not_true, Bool.false_and, Bool.false_or]
        congr 1
        omega
      · rw [decide_eq_false (show ¬8 ≤ o + (i - 56) by omega), Bool.and_false, Bool.and_false, Bool.false_or]
        congr 1
        omega
  have htop : ∀ j, 8 * p ≤ j → j < 8 * p + 64 → z.getLsbD (63 - (j - 8 * p).toNat) = f j := by
    intro j h1 h2
    rw [hbits _ (by omega)]
    congr 1
    omega
  by_cases hlong : n + o > 64
  · rw [if_pos hlong]
    refine ⟨_, rfl, Writes.of_head (show Writes dst _ (8 * p) _ f from ?_) (by omega)⟩
    refine ((writes_bswap64 dst p z le_rfl).congr fun j h1 h2 => htop j h1 (by push_cast at h2; omega)).trans
      ((writes_update (p := p + 8) (a := 0) (b := n + o - 64) (by omega) fun k hk => ?_).ends rfl (by omega)) (by push_cast; ring)
      (by omega) (by omega)
    have hbyte := getLsbD_byte (set_bytes dst p 8 (bswap64 z)) (p + 8) (show 7 - k < 8 by omega)
    rw [show 8 * (p + 8) + 7 - (7 - k : ℕ) = 8 * (p + 8) + k by omega] at hbyte
    rw [getLsbD_setWidth, decide_eq_true (by omega), Bool.true_and, getLsbD_or, getLsbD_and, getLsbD_and,
      getLsbD_setWidth, getLsbD_setWidth, decide_eq_true (show 7 - k < 32 by omega), Bool.true_and, Bool.true_and, hbyte,
      getLsbD_not, decide_eq_true (show 7 - k < 32 by omega), Bool.true_and, getLsbD_low_mask, getLsbD_shiftLeft,
      decide_eq_true (show 7 - k < 64 by omega), Bool.true_and]
    by_cases hk' : k < n + o - 64
    · rw [if_pos (by omega), decide_eq_false (show ¬n + o - 64 + (7 - k) < 8 by omega), Bool.and_false, Bool.false_or, Bool.not_false,
        Bool.and_true, decide_eq_false (by omega), Bool.not_false, Bool.true_and, hf]
      dsimp only
      rw [if_neg (by omega)]
      congr 1
      omega
    · rw [if_neg (by omega), decide_eq_true (show n + o - 64 + (7 - k) < 8 by omega), Bool.and_true, Bool.not_true, Bool.and_false, Bool.or_false]
  · rw [if_neg hlong]
    refine ⟨_, rfl, Writes.of_head (show Writes dst _ (8 * p) _ f from ?_) (by omega)⟩
    exact ((store_within_writes dst p z (n := n + o) (by omega) (by omega)).congr fun j h1 h2 => htop j h1 (by omega)).ends rfl (by push_cast; ring)

theorem bits_load_long_top_eq (tmp src : Memory) (from_offs : ℤ) (hn : n ≤ 64) :
    ∃ r, bits_load_long_top tmp src from_offs n = some r ∧
      ∀ i < 64, r.getLsbD i = (decide (64 ≤ n + i) && bit src (from_offs + 63 - i)) := by
  rw [bits_load_long_top, if_neg (by omega)]
  by_cases h0 : n = 0
  · rw [if_pos h0, h0]
    refine ⟨0, rfl, fun i hi => ?_⟩
    rw [decide_eq_false (by omega), Bool.false_and]
    exact getLsbD_zero
  rw [if_neg h0]
  have ho : from_offs = 8 * (from_offs / 8) + ((from_offs % 8).toNat : ℤ) := by omega
  have ho8 : (from_offs % 8).toNat < 8 := by omega
  dsimp only
  generalize (from_offs % 8).toNat = o at *
  generalize from_offs / 8 = p at *
  subst ho
  have hmask : ∀ i < 64, (BitVec.allOnes 64 <<< (64 - n)).getLsbD i = decide (64 ≤ n + i) := by
    intro i hi
    rw [getLsbD_shiftLeft, decide_eq_true hi, Bool.true_and, getLsbD_allOnes, decide_eq_true (show i - (64 - n) < 64 by omega),
      Bool.and_true, ← decide_not]
    exact decide_eq_decide.2 (by omega)
  by_cases hshort : o + n ≤ 64
  · rw [if_pos hshort]
    refine ⟨_, rfl, fun i hi => ?_⟩
    rw [getLsbD_and, hmask i hi, Bool.and_comm]
    by_cases htop : 64 ≤ n + i
    · rw [decide_eq_true htop, Bool.true_and, Bool.true_and, getLsbD_shiftLeft, decide_eq_true hi, decide_eq_false (by omega), Bool.true_and,
        Bool.not_false, Bool.true_and, getLsbD_load64 _ _ (by omega), writes_memcpy tmp src _ (show p = 0 + p by ring), if_pos (by omega)]
      dsimp only
      congr 1
      omega
    · rw [decide_eq_false htop, Bool.false_and, Bool.false_and]
  · rw [if_neg hshort]
    refine ⟨_, rfl, fun i hi => ?_⟩
    rw [getLsbD_and, hmask i hi, Bool.and_comm]
    congr 1
    rw [getLsbD_or, getLsbD_shiftLeft, decide_eq_true hi, Bool.true_and, getLsbD_setWidth, decide_eq_true hi, Bool.true_and,
      getLsbD_ushiftRight]
    by_cases hio : i < o
    · rw [decide_eq_true hio, Bool.not_true, Bool.false_and, Bool.false_or, getLsbD_byte _ _ (by omega)]
      congr 1
      omega
    · rw [decide_eq_false hio, Bool.not_false, Bool.true_and, getLsbD_load64 _ _ (by omega), getLsbD_of_ge _ _ (by omega), Bool.or_false]
      congr 1
      omega

end Store

/-- Each copy writes its bits and no others, and a word is read back as it was stored. -/
theorem copies_exact :
    (∀ (dst : Memory) (to_offs : ℤ) (src : Memory) (from_offs : ℤ) (bit_count : ℕ),
      (∀ i < bit_count, bit (bits_memcpy dst to_offs src from_offs bit_count) (to_offs + i) = bit src (from_offs + i)) ∧
      ∀ j, ¬(to_offs ≤ j ∧ j < to_offs + bit_count) → bit (bits_memcpy dst to_offs src from_offs bit_count) j = bit dst j) ∧
    (∀ (dst : Memory) (to_offs : ℤ) (val : Bool) (bit_count : ℕ),
      (∀ i < bit_count, bit (bits_memset dst to_offs val bit_count) (to_offs + i) = val) ∧
      ∀ j, ¬(to_offs ≤ j ∧ j < to_offs + bit_count) → bit (bits_memset dst to_offs val bit_count) j = bit dst j) ∧
    ∀ (dst : Memory) (offs : ℤ) (val : BitVec 64) (top_bits : ℕ), top_bits ≤ 64 →
      ∃ dst', bits_store_long_top dst offs val top_bits = some dst' ∧
        (∀ tmp, bits_load_long_top tmp dst' offs top_bits = some (val &&& BitVec.allOnes 64 <<< (64 - top_bits))) ∧
        ∀ j, ¬(offs ≤ j ∧ j < offs + top_bits) → bit dst' j = bit dst j := by
  refine ⟨fun dst to_offs src from_offs n => ⟨fun i hi => ?_, fun j hj => ?_⟩, fun dst to_offs val n => ⟨fun i hi => ?_, fun j hj => ?_⟩,
    fun dst offs val n hn => ?_⟩
  · rw [bits_memcpy_writes dst to_offs src from_offs n, if_pos (by omega)]
    dsimp only
    congr 1
    ring
  · rw [bits_memcpy_writes dst to_offs src from_offs n, if_neg hj]
  · rw [bits_memset_writes dst to_offs val n, if_pos (by omega)]
  · rw [bits_memset_writes dst to_offs val n, if_neg hj]
  · obtain ⟨dst', hstore, hw⟩ := bits_store_long_top_writes dst offs val hn
    refine ⟨dst', hstore, fun tmp => ?_, fun j hj => by rw [hw j, if_neg hj]⟩
    obtain ⟨r, hr, hbits⟩ := bits_load_long_top_eq tmp dst' offs hn
    rw [hr]
    congr 1
    apply eq_of_getLsbD_eq
    intro i hi
    rw [hbits i hi, getLsbD_and, getLsbD_shiftLeft, getLsbD_allOnes, decide_eq_true hi, Bool.true_and,
      decide_eq_true (show i - (64 - n) < 64 by omega), Bool.and_true]
    by_cases htop : 64 ≤ n + i
    · rw [decide_eq_true htop, Bool.true_and, decide_eq_false (by omega), Bool.not_false, Bool.and_true, hw, if_pos (by omega)]
      dsimp only
      congr 1
      omega
    · rw [decide_eq_false htop, Bool.false_and, decide_eq_true (by omega), Bool.not_true, Bool.and_false]

/-- A word of nine bits across a byte. -/
theorem copies_exact_nine : ∃ dst', bits_store_long_top (fun _ => 0) 5 (BitVec.allOnes 64) 9 = some dst' ∧
    bits_load_long_top (fun _ => 0xa5) dst' 5 9 = some (BitVec.allOnes 64 &&& BitVec.allOnes 64 <<< 55) := by
  obtain ⟨dst', h1, h2, -⟩ := copies_exact.2.2 (fun _ => 0) 5 (BitVec.allOnes 64) 9 (by decide)
  exact ⟨dst', h1, h2 fun _ => 0xa5⟩

end Ton.Td.bitstring
