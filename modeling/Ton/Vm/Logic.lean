import Ton.BigInt.LogOp
import Ton.Vm.AddMul
/-!
# Bitwise instructions

`AND`, `OR`, `XOR` and `NOT`. The binary ones are exact but for a first operand
with fewer words than the second whose result needs one word more.
-/

namespace Ton.Vm

open BigInt SignedDigits

def exec_and : Bool → Stack → Except Excno Stack := exec_binary (RefInt256.log_op .And)

def exec_or : Bool → Stack → Except Excno Stack := exec_binary (RefInt256.log_op .Or)

def exec_xor : Bool → Stack → Except Excno Stack := exec_binary (RefInt256.log_op .Xor)

def exec_not : Bool → Stack → Except Excno Stack := exec_unary RefInt256.not

/-- The instruction of an operation. -/
def exec_log : LogOp → Bool → Stack → Except Excno Stack
  | .And => exec_and
  | .Or => exec_or
  | .Xor => exec_xor

theorem exec_log_eq (L : LogOp) : exec_log L = exec_binary (RefInt256.log_op L) := by cases L <;> rfl

@[simp] theorem max_size_log_op (L : LogOp) (x y : AnyIntView) : (RefInt256.log_op L x y).max_size = x.max_size := by
  unfold RefInt256.log_op AnyIntView.log_op_any AnyIntView.log_op_loops
  dsimp only
  split_ifs <;> first | rfl | (split <;> [rfl; (split_ifs <;> rfl)])

theorem max_size_logical_not (x : AnyIntView) : x.logical_not.max_size = x.max_size := by
  unfold AnyIntView.logical_not
  split <;> rfl

section
variable (x y : Int257) (quiet : Bool) (st : Stack)

/-- `~` is exact, and so are the instructions with two operands just when the result has a word for each of
its digits. -/
theorem log_op_exact_iff (L : LogOp) :
    ((RefInt256.log_op L x.view y.view).Is (L.op x.toInt y.toInt) ↔ ¬L.NoWord x y) ∧
      (exec_log L quiet (.int y.view :: .int x.view :: st) = push_exact (L.op x.toInt y.toInt) quiet st ↔ ¬L.NoWord x y) ∧
      (RefInt256.not x.view).Is (Int.lnot x.toInt) ∧ exec_not quiet (.int x.view :: st) = push_exact (Int.lnot x.toInt) quiet st := by
  have hfit : Fits257 (L.op x.toInt y.toInt) := L.fits x.fits y.fits
  have hexec : exec_log L quiet (.int y.view :: .int x.view :: st) = push_int_quiet (RefInt256.log_op L x.view y.view) quiet st := by
    rw [exec_log_eq]
    rfl
  have hnot : (RefInt256.not x.view).Is (Int.lnot x.toInt) := by
    have hx := x.fits
    rw [lnot_eq]
    refine x.is.logical_not.normalize ?_
    rw [max_size_logical_not]
    apply Fits257.inRange
    unfold Fits257 at *
    exact ⟨by unfold Int257.toInt; omega, by unfold Int257.toInt; omega⟩
  refine ⟨?_, ?_, hnot, ?_⟩
  · rcases log_op_cases L x y with ⟨hc, h⟩ | ⟨hc, h⟩
    · exact iff_of_true h hc
    · exact iff_of_false (fun hi => hi.normal.ne_nil h) (not_not.2 hc)
  · rw [hexec]
    rcases log_op_cases L x y with ⟨hc, h⟩ | ⟨hc, h⟩
    · exact iff_of_true (push_computes h.computes (by simp; rfl) quiet st) hc
    · refine iff_of_false (fun he => ?_) (not_not.2 hc)
      -- the result is not a number, so it is pushed as such or not at all
      unfold push_int_quiet push_exact at he
      rw [signed_fits_bits_invalid h] at he
      cases quiet with
      | false => simp [hfit] at he
      | true =>
        have hvalid : (RefInt256.log_op L x.view y.view).is_valid = false := by
          simp [AnyIntView.is_valid, AnyIntView.size, h]
        have hr : RefInt256.log_op L x.view y.view = refint (L.op x.toInt y.toInt) := by simpa [hfit, hvalid] using he
        rw [hr] at h
        exact (refint_is hfit).normal.ne_nil h
  · exact push_computes hnot.computes (by simp [RefInt256.not, max_size_logical_not]; rfl) quiet st

end

/-- `-1 ^ y` is not a number where `y ^ -1` is one. -/
theorem log_op_not_a_number :
    (RefInt256.log_op .Xor (refint (-1)) (refint (-2 ^ 103 - 2 ^ 51))).is_valid = false ∧
      RefInt256.log_op .Xor (refint (-2 ^ 103 - 2 ^ 51)) (refint (-1)) = refint (2 ^ 103 + 2 ^ 51 - 1) ∧
      Int.xor (-1) (-2 ^ 103 - 2 ^ 51) = 2 ^ 103 + 2 ^ 51 - 1 := by
  decide +kernel

end Ton.Vm
