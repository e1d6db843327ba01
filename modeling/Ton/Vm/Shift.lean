import Ton.BigInt.RoundPow2
import Ton.Lib.Result
import Ton.Vm.AddMul
/-!
# Shifts and remainders on the stack

`exec_shrmod` pushes a shifted number, its remainder modulo the power of two, or
both. The quotient is exact; the remainder is where the words have room for it, as
`PowInside` says.
-/

namespace Ton.BigInt.RefInt256

/-- `operator<<`. -/
def lshift (x : AnyIntView) (y : Nat) : AnyIntView := (x.lshift_any y).normalize_bool_any

def rshift (x : AnyIntView) (y : Nat) (round_mode : Int) : AnyIntView := (x.rshift_any y round_mode).normalize_bool_any

/-- `mod_pow2` followed by `normalize`. -/
def mod_pow2 (x : AnyIntView) (y : Nat) (round_mode : Int) : AnyIntView := (x.mod_pow2_round y round_mode).normalize_bool_any

end Ton.BigInt.RefInt256

namespace Ton.Vm

open BigInt SignedDigits Result

/-- What an instruction with an exponent reads before its operands. -/
structure ShiftArgs where
  exponent : Nat
  round_mode : Int
  variant : Nat

/-- The exponent comes with the instruction when bit 1 of `mode` is set, and from the stack, above `n` operands,
when it is not. -/
def pop_shift_args (n args mode : Nat) (st : Stack) : Except Excno (ShiftArgs × Stack) := do
  let imm := mode / 2 % 2 = 1
  let ops := if imm then args / 256 else args
  let round_mode : Int := ops % 4 - 1
  if ops / 4 % 4 = 0 ∨ round_mode = 2 then throw .inv_opcode
  if imm then
    check_underflow n st
    return (⟨args % 256 + 1, round_mode, ops / 4 % 4⟩, st)
  check_underflow (n + 1) st
  let (y, st) ← pop_smallint_range 256 st
  return (⟨y.toNat, round_mode, ops / 4 % 4⟩, st)

/-- `if (!y) round_mode = -1`. -/
def ShiftArgs.mode (a : ShiftArgs) : Int := if a.exponent = 0 then -1 else a.round_mode

/-- `push_int_quiet` for the results of a variant in turn. -/
def push_results (variant : Nat) (quot rem : AnyIntView) (quiet : Bool) (st : Stack) : Except Excno Stack :=
  match variant with
  | 1 => push_int_quiet quot quiet st
  | 3 => do
    let st ← push_int_quiet quot quiet st
    push_int_quiet rem quiet st
  | 2 => push_int_quiet rem quiet st
  | _ => .ok st

def exec_shrmod (args mode : Nat) (st : Stack) : Except Excno Stack := do
  let (a, st) ← pop_shift_args 1 args mode st
  let (x, st) ← pop_int st
  push_results a.variant (RefInt256.rshift x a.exponent a.mode) (RefInt256.mod_pow2 x a.exponent a.mode) (mode % 2 = 1) st

def exec_lshift (quiet : Bool) (st : Stack) : Except Excno Stack := do
  check_underflow 2 st
  let (y, st) ← pop_smallint_range 1023 st
  let (x, st) ← pop_int st
  push_int_quiet (RefInt256.lshift x y.toNat) quiet st

/-- The stack with the exact results of a variant. -/
def push_exact_results (variant : Nat) (q r : Int) (quiet : Bool) (st : Stack) : Except Excno Stack :=
  match variant with
  | 1 => push_exact q quiet st
  | 3 => do
    let st ← push_exact q quiet st
    push_exact r quiet st
  | 2 => push_exact r quiet st
  | _ => .ok st

section
variable {x quot rem : AnyIntView} {v q r mode : Int} (quiet : Bool) (st : Stack)

theorem push_results_eq {variant : Nat} (hq : variant ≠ 2 → Computes quot q) (hr : variant ≠ 1 → Computes rem r) (hquot : quot.max_size = 5)
    (hrem : rem.max_size = 5) : push_results variant quot rem quiet st = push_exact_results variant q r quiet st := by
  unfold push_results push_exact_results
  split
  · exact push_computes (hq (by decide)) hquot quiet st
  · rw [push_computes (hq (by decide)) hquot quiet st]
    cases push_exact q quiet st with
    | error e => rfl
    | ok st => exact push_computes (hr (by decide)) hrem quiet st
  · exact push_computes (hr (by decide)) hrem quiet st
  · rfl

/-- The arguments of a variant of an instruction. -/
def op_args (variant : Nat) (mode : Int) : Nat := 4 * variant + (mode + 1).toNat

variable {variant n y : Nat} (hvariant : 1 ≤ variant ∧ variant ≤ 3) (hmode : -1 ≤ mode ∧ mode ≤ 1)
include hvariant hmode

theorem op_args_eq : op_args variant mode / 4 % 4 = variant ∧ ((op_args variant mode : Int) % 4 - 1 = mode) := by
  unfold op_args
  omega

theorem pop_shift_args_stack (hy : y ≤ 256) (hn : n ≤ st.length) :
    pop_shift_args n (op_args variant mode) quiet.toNat (.int (refint y) :: st) = .ok (⟨y, mode, variant⟩, st) := by
  obtain ⟨h1, h2⟩ := op_args_eq hvariant hmode
  have himm : ¬quiet.toNat / 2 % 2 = 1 := by cases quiet <;> decide
  have hpop := pop_smallint_range_ok (show 0 ≤ (y : Int) ∧ (y : Int) ≤ 256 by omega) (by norm_num) st
  have hlen : check_underflow (n + 1) (.int (refint y) :: st) = .ok () := if_neg (by simpa using hn)
  unfold pop_shift_args
  simp only [himm, if_false, h1, h2]
  rw [if_neg (by omega), hlen, ok_bind, hpop, ok_bind, Int.toNat_natCast]
  rfl

theorem pop_shift_args_imm (hy0 : 1 ≤ y) (hy : y ≤ 256) (hn : n ≤ st.length) :
    pop_shift_args n (256 * op_args variant mode + (y - 1)) (2 + quiet.toNat) st = .ok (⟨y, mode, variant⟩, st) := by
  obtain ⟨h1, h2⟩ := op_args_eq hvariant hmode
  have himm : (2 + quiet.toNat) / 2 % 2 = 1 := by cases quiet <;> decide
  have hlen : check_underflow n st = .ok () := if_neg (not_lt.2 hn)
  have hops : (256 * op_args variant mode + (y - 1)) / 256 = op_args variant mode := by omega
  have hexp : (256 * op_args variant mode + (y - 1)) % 256 + 1 = y := by omega
  unfold pop_shift_args
  simp only [himm, if_true, hops, hexp, h1, h2]
  rw [if_neg (by omega), hlen, ok_bind]
  rfl

end

/-! ## Exactness -/

/-- An instruction with an exponent leaves the exact results in both of its forms. -/
def PushesExactly (exec : Nat → Nat → Stack → Except Excno Stack) (ops : Stack) (y : Nat) (mode : Int) (variant : Nat) (q r : Int) : Prop :=
  ∀ (quiet : Bool) (st : Stack),
    exec (op_args variant mode) quiet.toNat (.int (refint y) :: (ops ++ st)) = push_exact_results variant q r quiet st ∧
    (1 ≤ y → exec (256 * op_args variant mode + (y - 1)) (2 + quiet.toNat) (ops ++ st) = push_exact_results variant q r quiet st)

/-- The shifts of a number and its remainder are exact, as values and on the stack. -/
def ShiftExact (x : Int257) (y : Nat) (mode : Int) : Prop :=
  let q := roundDiv mode x.toInt (2 ^ y)
  let r := x.toInt - q * 2 ^ y
  (RefInt256.rshift x.view y mode).Is q ∧ (RefInt256.mod_pow2 x.view y mode).Is r ∧ Computes (RefInt256.lshift x.view y) (x.toInt * 2 ^ y) ∧
    (∀ (quiet : Bool) (st : Stack), exec_lshift quiet (.int (refint y) :: .int x.view :: st) = push_exact (x.toInt * 2 ^ y) quiet st) ∧
    ∀ variant, 1 ≤ variant ∧ variant ≤ 3 → PushesExactly exec_shrmod [.int x.view] y mode variant q r

section
variable {v mode : Int} {y variant : Nat}

theorem quiet_mod_two (quiet : Bool) : decide (quiet.toNat % 2 = 1) = quiet ∧ decide ((2 + quiet.toNat) % 2 = 1) = quiet := by
  cases quiet <;> decide

/-- The rounding mode that is used makes no difference when nothing is shifted out. -/
theorem roundDiv_mode (v : Int) : roundDiv (ShiftArgs.mode ⟨y, mode, variant⟩) v (2 ^ y) = roundDiv mode v (2 ^ y) := by
  unfold ShiftArgs.mode
  by_cases h0 : y = 0 <;> simp [h0]

theorem fits_remainder (v : Int) (hy : y ≤ 256) (mode : Int) : Fits257 (v - roundDiv mode v (2 ^ y) * 2 ^ y) ∧
    -2 ^ y ≤ v - roundDiv mode v (2 ^ y) * 2 ^ y ∧ v - roundDiv mode v (2 ^ y) * 2 ^ y < 2 ^ y := by
  have hp1 : (1 : Int) ≤ 2 ^ y := one_le_pow₀ one_le_two
  have hp2 : (2 : Int) ^ y ≤ 2 ^ 256 := pow_le_pow_right₀ one_le_two hy
  have hrem : -2 ^ y ≤ v - roundDiv mode v (2 ^ y) * 2 ^ y ∧ v - roundDiv mode v (2 ^ y) * 2 ^ y < 2 ^ y := by
    have h := roundDiv_remainder mode v (show (2 : Int) ^ y ≠ 0 by omega)
    unfold IsRemainder at h
    split at h
    · omega
    split at h <;> omega
  exact ⟨⟨hrem.1.trans' (by omega), hrem.2.trans_le hp2⟩, hrem⟩

/-- A quotient by a power of two has no more bits than the number. -/
theorem fits_quotient (hv : Fits257 v) (hy : y ≤ 256) (mode : Int) : Fits257 (roundDiv mode v (2 ^ y)) := by
  have hp1 : (1 : Int) ≤ 2 ^ y := one_le_pow₀ one_le_two
  obtain ⟨-, hrem⟩ := fits_remainder v hy mode
  obtain ⟨h1, h2⟩ := hv
  rcases hp1.eq_or_lt with hone | htwo
  · rw [← hone, roundDiv_one]
    exact ⟨h1, h2⟩
  · generalize roundDiv mode v (2 ^ y) = q at *
    generalize (2 : Int) ^ y = p at *
    constructor
    · by_contra hlt
      nlinarith [mul_le_mul_of_nonneg_right (show q ≤ -2 ^ 256 - 1 by omega) (show 0 ≤ p by omega)]
    · by_contra hge
      nlinarith [mul_le_mul_of_nonneg_right (show (2 : Int) ^ 256 ≤ q by omega) (show 0 ≤ p by omega)]

theorem rshift_is (x : Int257) (hy : y ≤ 256) (mode : Int) : (RefInt256.rshift x.view y mode).Is (roundDiv mode x.toInt (2 ^ y)) := by
  apply (x.is.rshift y mode).normalize
  rw [AnyIntView.max_size_rshift_any]
  exact (fits_quotient x.fits hy mode).inRange

theorem lshift_computes (x : Int257) (hy : y < 260) : Computes (RefInt256.lshift x.view y) (x.toInt * 2 ^ y) := by
  rcases x.is.lshift_cases (e := y) hy with h | ⟨hd, hr⟩
  · exact h.computes (by rw [AnyIntView.max_size_lshift_any]; exact le_rfl)
  · exact computes_nan (AnyIntView.normalize_nan hd) fun hfit => hr hfit.inRange

@[simp] theorem max_size_mod_pow2_round (x : AnyIntView) (e : Nat) (mode : Int) : (x.mod_pow2_round e mode).max_size = x.max_size := by
  unfold AnyIntView.mod_pow2_round AnyIntView.add_pow2_any
  dsimp only
  split_ifs <;> simp [AnyIntView.assign]

theorem exec_shrmod_eq {x : AnyIntView} {args m : Nat} {a : ShiftArgs} {st₀ st : Stack}
    (hpop : pop_shift_args 1 args m st₀ = .ok (a, .int x :: st)) :
    exec_shrmod args m st₀ =
      push_results a.variant (RefInt256.rshift x a.exponent a.mode) (RefInt256.mod_pow2 x a.exponent a.mode) (m % 2 = 1) st := by
  unfold exec_shrmod
  rw [hpop, ok_bind]
  rfl

/-- The quotient, and so every shift, is exact; the remainder is where the words have room for it. -/
theorem shift_exact_iff (x : Int257) (hy : y ≤ 256) (hmode : -1 ≤ mode ∧ mode ≤ 1) :
    ShiftExact x y mode ↔ AnyIntView.PowInside mode x.view x.toInt y := by
  have hmod := fun m => x.is.mod_pow2_iff (e := y) m (show y + 1 < 260 by omega)
  refine ⟨fun h => (hmod mode).1 h.2.1, fun h => ?_⟩
  have hrem := (hmod mode).2 h
  refine ⟨rshift_is x hy mode, hrem, lshift_computes x (by omega), fun quiet st => ?_, fun variant hvariant quiet st => ?_⟩
  · have hpop := pop_smallint_range_ok (show 0 ≤ (y : Int) ∧ (y : Int) ≤ 1023 by omega) (by norm_num) (.int x.view :: st)
    have hlen : check_underflow 2 (.int (refint y) :: .int x.view :: st) = .ok () := if_neg (by simp)
    unfold exec_lshift
    rw [hlen, ok_bind, hpop, ok_bind]
    exact push_computes (lshift_computes x (by omega)) (by simp [RefInt256.lshift]; rfl) quiet st
  have hinside : AnyIntView.PowInside (ShiftArgs.mode ⟨y, mode, variant⟩) x.view x.toInt y := by
    unfold ShiftArgs.mode
    by_cases h0 : y = 0
    · exact .inl h0
    · simpa [h0] using h
  have hq := rshift_is x hy (ShiftArgs.mode ⟨y, mode, variant⟩)
  have hr := (hmod (ShiftArgs.mode ⟨y, mode, variant⟩)).2 hinside
  rw [roundDiv_mode] at hq hr
  have hpush := push_results_eq quiet st (fun _ : variant ≠ 2 => hq.computes) (fun _ : variant ≠ 1 => AnyIntView.Is.computes hr)
    (by simp [RefInt256.rshift]; rfl) (by simp; rfl)
  simp only [List.cons_append, List.nil_append]
  constructor
  · rw [exec_shrmod_eq (pop_shift_args_stack quiet (.int x.view :: st) hvariant hmode hy (by simp)), (quiet_mod_two quiet).1]
    exact hpush
  · intro hy0
    rw [exec_shrmod_eq (pop_shift_args_imm quiet (.int x.view :: st) hvariant hmode hy0 hy (by simp)), (quiet_mod_two quiet).2]
    exact hpush

end

theorem shift_exact_at_seven : ShiftExact (.ofInt (-7) (by decide)) 1 0 :=
  (shift_exact_iff (.ofInt (-7) (by decide)) (by decide) (by decide)).2 (by decide +kernel)

/-- `MODPOW2` of a negative number of four words is not a number for `2 ^ 208`. -/
theorem mod_pow2_not_a_number :
    (RefInt256.mod_pow2 (refint (-2 ^ 206)) 208 (-1)).is_valid = false ∧
      -2 ^ 206 - roundDiv (-1) (-2 ^ 206) (2 ^ 208) * 2 ^ 208 = 2 ^ 208 - 2 ^ 206 ∧
      ¬ShiftExact (.ofInt (-2 ^ 206) (by decide)) 208 (-1) := by
  refine ⟨by decide +kernel, by decide +kernel, fun h => ?_⟩
  exact h.2.1.normal.ne_nil (by decide +kernel)

end Ton.Vm
