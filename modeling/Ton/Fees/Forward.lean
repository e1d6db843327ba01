import Mathlib.Algebra.Order.Floor.Div
import Ton.BigInt.Product
import Ton.BigInt.Shift
import Ton.Td.Uint128
/-!
# Message fees

`MsgPrices` of `transaction.cpp`. The fee for a message is what the comment above
`compute_fwd_fees` says as long as it fits 64 bits. The fee for hypercube routing is
rounded down where that comment rounds up.
-/

namespace Ton.Fees
open BigInt Td BitVec

structure MsgPrices where
  lump_price : U64
  bit_price : U64
  cell_price : U64
  ihr_factor : BitVec 32
  first_frac : BitVec 32

namespace MsgPrices

section
variable (α : Type) [Uint128 α] (p : MsgPrices)

def compute_fwd_fees (cells bits : U64) : U64 :=
  p.lump_price + Uint128.lo (Uint128.shr (Uint128.add (Uint128.add (Uint128.mult64 (Uint128.from_unsigned p.bit_price : α) bits)
    (Uint128.mult64 (Uint128.from_unsigned p.cell_price) cells)) (Uint128.from_unsigned 0xffff)) 16)

def compute_fwd_ihr_fees (cells bits : U64) (ihr_disabled : Bool) : U64 × U64 :=
  let fwd := compute_fwd_fees α p cells bits
  if ihr_disabled then (fwd, 0)
  else (fwd, Uint128.lo (Uint128.shr (Uint128.mult64 (Uint128.from_unsigned fwd : α) (p.ihr_factor.setWidth 64)) 16))

def get_first_part64 (total : U64) : U64 :=
  Uint128.lo (Uint128.shr (Uint128.mult64 (Uint128.from_unsigned total : α) (p.first_frac.setWidth 64)) 16)

end

/-- `get_first_part` of a `RefInt256`. -/
def get_first_part (p : MsgPrices) (total : AnyIntView) : AnyIntView :=
  ((RefInt256.mul_long total p.first_frac.toNat).rshift_any 16 (-1)).normalize_bool_any

/-! ## What the comment says -/

/-- `msg_fwd_fees` -/
def msg_fwd_fees (p : MsgPrices) (cells bits : Nat) : Nat :=
  p.lump_price.toNat + (p.bit_price.toNat * bits + p.cell_price.toNat * cells) ⌈/⌉ 2 ^ 16

/-- `ihr_fwd_fees` -/
def ihr_fwd_fees (p : MsgPrices) (cells bits : Nat) : Nat := (p.msg_fwd_fees cells bits * p.ihr_factor.toNat) ⌈/⌉ 2 ^ 16

/-- A fee of 64 bits for an amount: exact where that fits, and never less. -/
structure Charges (fee : U64) (amount : Nat) : Prop where
  fits : amount < 2 ^ 64 → fee.toNat = amount
  not_less : 2 ^ 64 ≤ amount → amount ≤ fee.toNat

theorem charges_iff {fee : U64} {amount : Nat} : Charges fee amount ↔ fee.toNat = amount := by
  have h := fee.isLt
  constructor
  · rintro ⟨h1, h2⟩
    rcases lt_or_ge amount (2 ^ 64) with hlt | hge
    · exact h1 hlt
    · have := h2 hge
      omega
  · intro e
    exact ⟨fun _ => e, fun hge => by omega⟩

/-- What the fees are said to be: the formulas, growing with the message, and a first part of them that the two overloads agree on. -/
structure Stated (α : Type) [Uint128 α] (p : MsgPrices) (cells bits : U64) (ihr_disabled : Bool) : Prop where
  fwd : Charges (p.compute_fwd_fees α cells bits) (p.msg_fwd_fees cells.toNat bits.toNat)
  pair : (p.compute_fwd_ihr_fees α cells bits ihr_disabled).1 = p.compute_fwd_fees α cells bits
  ihr : Charges (p.compute_fwd_ihr_fees α cells bits ihr_disabled).2 (if ihr_disabled then 0 else p.ihr_fwd_fees cells.toNat bits.toNat)
  monotone : ∀ cells' bits' : U64, cells' ≤ cells → bits' ≤ bits → p.compute_fwd_fees α cells' bits' ≤ p.compute_fwd_fees α cells bits
  agree : p.first_frac.toNat ≤ 2 ^ 16 → ∀ (total : U64) (x : AnyIntView), x.Is total.toNat → x.max_size = 5 →
    (p.get_first_part x).Is (p.get_first_part64 α total).toNat
  within64 : p.first_frac.toNat ≤ 2 ^ 16 → ∀ total : U64, p.get_first_part64 α total ≤ total
  within : p.first_frac.toNat ≤ 2 ^ 16 → ∀ (x : AnyIntView) (v : Int), x.Is v → x.max_size = 5 → 0 ≤ v →
    ∃ w, (p.get_first_part x).Is w ∧ w ≤ v

section
variable {α : Type} [Uint128 α] {p : MsgPrices} {cells bits : U64} {x : AnyIntView} {v : Int}

theorem msg_fwd_fees_eq (p : MsgPrices) (cells bits : Nat) :
    p.msg_fwd_fees cells bits = p.lump_price.toNat + (p.bit_price.toNat * bits + p.cell_price.toNat * cells + 0xffff) / 2 ^ 16 := by
  rw [msg_fwd_fees, Nat.ceilDiv_eq_add_pred_div, Nat.add_sub_assoc (by norm_num), show 2 ^ 16 - 1 = 0xffff by norm_num]

theorem msg_fwd_fees_mono {cells' bits' : Nat} {cells bits : Nat} (hc : cells' ≤ cells) (hb : bits' ≤ bits) :
    p.msg_fwd_fees cells' bits' ≤ p.msg_fwd_fees cells bits := by
  have h1 := Nat.mul_le_mul_left p.bit_price.toNat hb
  have h2 := Nat.mul_le_mul_left p.cell_price.toNat hc
  rw [msg_fwd_fees_eq, msg_fwd_fees_eq]
  omega

/-- The sum of 128 bits may wrap, and so may the fee; neither does where the fee fits. -/
theorem toNat_compute_fwd_fees (h : p.msg_fwd_fees cells.toNat bits.toNat < 2 ^ 64) :
    (p.compute_fwd_fees α cells bits).toNat = p.msg_fwd_fees cells.toNat bits.toNat := by
  have hffff : (0xffff : U64).toNat = 0xffff := rfl
  rw [msg_fwd_fees_eq] at h ⊢
  rw [compute_fwd_fees, toNat_add, Uint128.toNat_lo, Uint128.toNat_shr _ (by norm_num), Uint128.toNat_add, Uint128.toNat_add,
    Uint128.toNat_mult64, Uint128.toNat_mult64, Uint128.toNat_from_unsigned, Uint128.toNat_from_unsigned, Uint128.toNat_from_unsigned, hffff]
  generalize p.bit_price.toNat * bits.toNat = b at *
  generalize p.cell_price.toNat * cells.toNat = c at *
  omega

theorem charges_fwd : Charges (p.compute_fwd_fees α cells bits) (p.msg_fwd_fees cells.toNat bits.toNat) ↔
    p.msg_fwd_fees cells.toNat bits.toNat < 2 ^ 64 := by
  rw [charges_iff]
  constructor
  · intro e
    rw [← e]
    exact isLt _
  · exact toNat_compute_fwd_fees

theorem toNat_fraction (a : U64) (f : BitVec 32) :
    (Uint128.lo (Uint128.shr (Uint128.mult64 (Uint128.from_unsigned a : α) (f.setWidth 64)) 16)).toNat = a.toNat * f.toNat / 2 ^ 16 % 2 ^ 64 := by
  have hf := f.isLt
  have ha := a.isLt
  have hlt : a.toNat * f.toNat < 2 ^ 64 * 2 ^ 32 := Nat.mul_lt_mul'' ha hf
  rw [Uint128.toNat_lo, Uint128.toNat_shr _ (by norm_num), Uint128.toNat_mult64, Uint128.toNat_from_unsigned, toNat_setWidth,
    Nat.mod_eq_of_lt (show f.toNat < 2 ^ 64 by omega)]
  omega

theorem compute_fwd_ihr_fees_true : p.compute_fwd_ihr_fees α cells bits true = (p.compute_fwd_fees α cells bits, 0) := by
  rw [compute_fwd_ihr_fees, if_pos rfl]

theorem compute_fwd_ihr_fees_fst (ihr_disabled : Bool) :
    (p.compute_fwd_ihr_fees α cells bits ihr_disabled).1 = p.compute_fwd_fees α cells bits := by
  rw [compute_fwd_ihr_fees]
  split
  · rfl
  · rfl

theorem charges_ihr (h : p.msg_fwd_fees cells.toNat bits.toNat < 2 ^ 64) :
    Charges (p.compute_fwd_ihr_fees α cells bits false).2 (p.ihr_fwd_fees cells.toNat bits.toNat) ↔
      2 ^ 16 ∣ p.msg_fwd_fees cells.toNat bits.toNat * p.ihr_factor.toNat ∧
        p.msg_fwd_fees cells.toNat bits.toNat * p.ihr_factor.toNat / 2 ^ 16 < 2 ^ 64 := by
  have e : (p.compute_fwd_ihr_fees α cells bits false).2.toNat =
      p.msg_fwd_fees cells.toNat bits.toNat * p.ihr_factor.toNat / 2 ^ 16 % 2 ^ 64 := by
    rw [← toNat_compute_fwd_fees (α := α) h]
    exact toNat_fraction _ _
  rw [charges_iff, e, ihr_fwd_fees, Nat.ceilDiv_eq_add_pred_div]
  generalize p.msg_fwd_fees cells.toNat bits.toNat * p.ihr_factor.toNat = n
  omega

/-! ## The first part -/

theorem toNat_get_first_part64 (hf : p.first_frac.toNat ≤ 2 ^ 16) (total : U64) :
    (p.get_first_part64 α total).toNat = total.toNat * p.first_frac.toNat / 2 ^ 16 := by
  have h := Nat.mul_le_mul_left total.toNat hf
  have ht := total.isLt
  rw [get_first_part64, toNat_fraction]
  omega

theorem mul_long_cases (hx : x.Is v) {t : Int} (ht : -Half ≤ t ∧ t ≤ Half) :
    (RefInt256.mul_long x t).Is (v * t) ∨ (RefInt256.mul_long x t).digits = [] := by
  unfold RefInt256.mul_long AnyIntView.mul_short_opt
  split
  · next h => exact (hx.mul_tiny ⟨h.2, h.1⟩).normalize_cases.imp And.right And.right
  · have hds : ∀ d ∈ x.digits, -(Base * 2 ^ 60) ≤ t * d ∧ t * d ≤ Base * 2 ^ 60 := by
      intro d hd
      have := hx.normal.balanced d hd
      simp only [Half, Base] at *
      constructor <;> nlinarith
    have hcases := hx.holds.mul_add_short_cases (y := t) (z := 0) (Z := 2 ^ 60) (by decide) (by decide) hds
    rw [add_zero, mul_comm t] at hcases
    unfold AnyIntView.mul_short
    generalize x.mul_add_short_any t 0 = r at *
    obtain ⟨r, b⟩ := r
    rcases hcases with ⟨rfl, h⟩ | ⟨rfl, h⟩
    · exact h.normalize_cases.imp And.right And.right
    · exact .inr (AnyIntView.normalize_nan rfl)

theorem get_first_part_is (h0 : 0 ≤ v) (hf : p.first_frac.toNat ≤ 2 ^ 16)
    (h : (RefInt256.mul_long x p.first_frac.toNat).Is (v * p.first_frac.toNat)) :
    (p.get_first_part x).Is (v * p.first_frac.toNat / 2 ^ 16) ∧ v * p.first_frac.toNat / 2 ^ 16 ≤ v := by
  have hle : v * p.first_frac.toNat / 2 ^ 16 ≤ v := by
    have h1 := mul_le_mul_of_nonneg_left (show (p.first_frac.toNat : Int) ≤ 2 ^ 16 by omega) h0
    omega
  have hpos : 0 ≤ v * p.first_frac.toNat := mul_nonneg h0 (Int.natCast_nonneg _)
  have hhold := h.rshift 16 (-1)
  rw [roundDiv_neg (by norm_num) (by norm_num)] at hhold
  refine ⟨hhold.normalize ?_, hle⟩
  -- the quotient lies between zero and the product
  have hr := SignedDigits.inRange_mono base_eq half_pos h.room h.inRange
  rw [AnyIntView.max_size_rshift_any]
  unfold SignedDigits.InRange at hr ⊢
  generalize SignedDigits.ones Base (RefInt256.mul_long x p.first_frac.toNat).max_size = o at *
  simp only [Half] at *
  omega

theorem max_size_mul_long (x : AnyIntView) (t : Int) : (RefInt256.mul_long x t).max_size = x.max_size := by
  unfold RefInt256.mul_long AnyIntView.mul_short_opt
  rw [AnyIntView.max_size_normalize]
  split
  · rfl
  · have hm := x.max_size_mul_add_short_any t 0
    unfold AnyIntView.mul_short
    generalize x.mul_add_short_any t 0 = r at *
    obtain ⟨r, _ | _⟩ := r
    · exact hm
    · exact hm

/-- A product that has no room is not a number; shifted down, what is not a number counts as one below zero. -/
theorem get_first_part_nan (hmax : x.max_size = 5) (h : (RefInt256.mul_long x p.first_frac.toNat).digits = []) : (p.get_first_part x).Is (-1) := by
  have hsize : (RefInt256.mul_long x p.first_frac.toNat).size = 0 := by rw [AnyIntView.size, h, List.length_nil]
  have hsgn : (RefInt256.mul_long x p.first_frac.toNat).sgn < 0 := by
    rw [AnyIntView.sgn, if_neg (by rw [AnyIntView.is_valid_iff, h]; simp)]
    norm_num
  have hone : ((RefInt256.mul_long x p.first_frac.toNat).assign (-1)).Is (-1) :=
    ⟨SignedDigits.normal_singleton.2 ⟨by decide, by decide⟩, by rfl, by rw [AnyIntView.size, AnyIntView.assign, max_size_mul_long, hmax]; decide⟩
  rw [get_first_part, AnyIntView.rshift_beyond (by rw [hsize]; decide), if_neg (by decide), if_pos (by decide), if_pos hsgn, hone.normalize]
  exact hone

theorem get_first_part_agrees (hf : p.first_frac.toNat ≤ 2 ^ 16) (total : U64) (hx : x.Is total.toNat) (hmax : x.max_size = 5) :
    (p.get_first_part x).Is (p.get_first_part64 α total).toNat := by
  have hfit : Fits257 (total.toNat * p.first_frac.toNat : Int) := by
    have h := Nat.mul_le_mul_left total.toNat hf
    have ht := total.isLt
    unfold Fits257
    constructor <;> norm_cast <;> omega
  have hmul := (RefInt256.mul_long_computes hx hmax (t := p.first_frac.toNat) (by simp only [Half]; omega)).1 hfit
  have h := (get_first_part_is (Int.natCast_nonneg _) hf hmul).1
  rw [toNat_get_first_part64 hf]
  exact_mod_cast h

theorem get_first_part_le (hf : p.first_frac.toNat ≤ 2 ^ 16) (hx : x.Is v) (hmax : x.max_size = 5) (h0 : 0 ≤ v) :
    ∃ w, (p.get_first_part x).Is w ∧ w ≤ v := by
  rcases mul_long_cases hx (t := p.first_frac.toNat) (by simp only [Half]; omega) with h | h
  · exact ⟨_, get_first_part_is h0 hf h⟩
  · exact ⟨-1, get_first_part_nan hmax h, by omega⟩

end

/-- When the fees are what the comment says. -/
def Divisible (p : MsgPrices) (cells bits : U64) (ihr_disabled : Bool) : Prop :=
  p.msg_fwd_fees cells.toNat bits.toNat < 2 ^ 64 ∧
    (ihr_disabled = false → 2 ^ 16 ∣ p.msg_fwd_fees cells.toNat bits.toNat * p.ihr_factor.toNat ∧
      p.msg_fwd_fees cells.toNat bits.toNat * p.ihr_factor.toNat / 2 ^ 16 < 2 ^ 64)

/-- The fees are what the comment says exactly where they fit and the fee for hypercube routing has nothing to round. -/
theorem stated_iff (α : Type) [Uint128 α] (p : MsgPrices) (cells bits : U64) (ihr_disabled : Bool) :
    Stated α p cells bits ihr_disabled ↔ Divisible p cells bits ihr_disabled := by
  constructor
  · intro h
    have hfit := charges_fwd.1 h.fwd
    refine ⟨hfit, fun hd => ?_⟩
    subst hd
    have hihr := h.ihr
    rw [if_neg Bool.false_ne_true] at hihr
    exact (charges_ihr hfit).1 hihr
  · rintro ⟨hfit, hihr⟩
    have hfwd := toNat_compute_fwd_fees (α := α) hfit
    refine ⟨charges_fwd.2 hfit, ?_, ?_, fun cells' bits' hc hb => ?_, fun hf total x hx hmax => get_first_part_agrees hf total hx hmax,
      fun hf total => ?_, fun hf x v hx hmax h0 => get_first_part_le hf hx hmax h0⟩
    · exact compute_fwd_ihr_fees_fst ihr_disabled
    · cases ihr_disabled with
      | false =>
        rw [if_neg Bool.false_ne_true]
        exact (charges_ihr hfit).2 (hihr rfl)
      | true =>
        rw [if_pos rfl, compute_fwd_ihr_fees_true]
        exact charges_iff.2 rfl
    · have hmono := msg_fwd_fees_mono (p := p) (le_def.1 hc) (le_def.1 hb)
      rw [le_def, hfwd, toNat_compute_fwd_fees (hmono.trans_lt hfit)]
      exact hmono
    · have h := Nat.mul_le_mul_left total.toNat hf
      rw [le_def, toNat_get_first_part64 hf]
      omega

/-- A lump of one nanogram, routed at one and a half of it: the half is lost. -/
theorem not_stated_half : ¬Stated uint128_emulated ⟨1, 0, 0, 98304, 21845⟩ 0 0 false := by
  intro h
  have hihr := charges_iff.1 h.ihr
  revert hihr
  decide +kernel

end MsgPrices

end Ton.Fees
