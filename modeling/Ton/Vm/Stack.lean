import Ton.BigInt.Fits
/-!
# The stack of the virtual machine

`stack.cpp`, as far as the arithmetic instructions use it. An integer on the
stack is a `BigInt256`, which may not be a number.
-/

namespace Ton.Vm

open BigInt SignedDigits

/-- What the arithmetic instructions throw. -/
inductive Excno where
  | stk_und
  | int_ov
  | range_chk
  | inv_opcode
  | type_chk
  deriving DecidableEq

inductive StackEntry where
  | int (x : AnyIntView)
  /-- A cell, a slice, a tuple and so on. -/
  | other
  deriving DecidableEq

/-- The top comes first. -/
abbrev Stack := List StackEntry

def check_underflow (n : Nat) (st : Stack) : Except Excno Unit := if st.length < n then .error .stk_und else .ok ()

def pop_int : Stack → Except Excno (AnyIntView × Stack)
  | [] => .error .stk_und
  | .int x :: st => .ok (x, st)
  | .other :: _ => .error .type_chk

/-- `pop_smallint_range`, from `0` on. -/
def pop_smallint_range (max : Int) (st : Stack) : Except Excno (Int × Stack) :=
  match pop_int st with
  | .error e => .error e
  | .ok (x, st) =>
    let res := x.to_long_any
    if res > max ∨ res < 0 then .error .range_chk else .ok (res, st)

/-- `make_refint`: a `BigInt256` with the words of another integer, not a number when they are too many. -/
def make_refint (x : AnyIntView) : AnyIntView :=
  match (bigInt 257 []).set_any x with
  | (y, true) => y
  | (_, false) => nan

def push_int_quiet (val : AnyIntView) (quiet : Bool) (st : Stack) : Except Excno Stack :=
  if !val.signed_fits_bits_any 257 then
    if !quiet then .error .int_ov
    else if val.is_valid then .ok (.int nan :: st)
    else .ok (.int val :: st)
  else .ok (.int val :: st)

/-! ## Pushing an exact result -/

/-- The stack with a number on it; one without 257 bits is an overflow, or pushed as not a number. -/
def push_exact (v : Int) (quiet : Bool) (st : Stack) : Except Excno Stack :=
  if Fits257 v ∨ quiet = true then .ok (.int (refint v) :: st) else .error .int_ov

section
variable {x : AnyIntView} {v : Int}

theorem nan_of_digits (hd : x.digits = []) (hmax : x.max_size = 5) : x = nan := by
  cases x
  cases hd
  cases hmax
  rfl

/-- A result that is the number, or one that the range test turns down. -/
theorem push_computes (h : Computes x v) (hmax : x.max_size = 5) (quiet : Bool) (st : Stack) :
    push_int_quiet x quiet st = push_exact v quiet st := by
  unfold push_int_quiet push_exact
  by_cases hv : Fits257 v
  · have hx := h.1 hv
    rw [hx.fits257.2 hv, if_neg (by simp), if_pos (.inl hv), hx.eq_refint hv hmax]
  · rw [h.2 hv, refint_nan hv]
    cases quiet with
    | false => simp [hv]
    | true =>
      simp only [Bool.not_false, Bool.not_true, Bool.false_eq_true, if_true, if_false, or_true]
      split
      · rfl
      · next hvalid =>
        rw [AnyIntView.is_valid_iff, not_not] at hvalid
        rw [nan_of_digits hvalid hmax]

theorem pop_smallint_range_ok {max y : Int} (hy : 0 ≤ y ∧ y ≤ max) (hmax : max < 2 ^ 63) (st : Stack) :
    pop_smallint_range max (.int (refint y) :: st) = .ok (y, st) := by
  have hfit : Fits257 y := ⟨by omega, by omega⟩
  have hlong := (refint_is hfit).to_long
  rw [if_pos (by omega)] at hlong
  unfold pop_smallint_range pop_int
  dsimp only
  rw [hlong, if_neg (by omega)]

end

end Ton.Vm
