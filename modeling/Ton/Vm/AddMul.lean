import Ton.BigInt.Product
import Ton.Vm.Stack
/-!
# Sums and products on the stack

The instructions of `register_add_mul_ops`. Each of them pops its operands and
pushes what the operation of `refint.cpp` leaves.
-/

namespace Ton.Vm

open BigInt SignedDigits

/-- An instruction with one operand. -/
def exec_unary (op : AnyIntView → AnyIntView) (quiet : Bool) (st : Stack) : Except Excno Stack := do
  check_underflow 1 st
  let (x, st) ← pop_int st
  push_int_quiet (op x) quiet st

/-- An instruction with two operands, the second one on top. -/
def exec_binary (op : AnyIntView → AnyIntView → AnyIntView) (quiet : Bool) (st : Stack) : Except Excno Stack := do
  check_underflow 2 st
  let (y, st) ← pop_int st
  let (x, st) ← pop_int st
  push_int_quiet (op x y) quiet st

def exec_add : Bool → Stack → Except Excno Stack := exec_binary RefInt256.add

def exec_sub : Bool → Stack → Except Excno Stack := exec_binary RefInt256.sub

def exec_subr : Bool → Stack → Except Excno Stack := exec_binary fun x y => RefInt256.sub y x

def exec_negate : Bool → Stack → Except Excno Stack := exec_unary RefInt256.neg

def exec_inc : Bool → Stack → Except Excno Stack := exec_unary fun x => RefInt256.add_long x 1

/-- `x - 1` adds `-1`. -/
def exec_dec : Bool → Stack → Except Excno Stack := exec_unary fun x => RefInt256.add_long x (-1)

/-- `(signed char)args`. -/
def signed_char (args : Nat) : Int := (args + 128 : Int) % 256 - 128

def exec_add_tinyint8 (args : Nat) : Bool → Stack → Except Excno Stack := exec_unary fun x => RefInt256.add_long x (signed_char args)

def exec_mul_tinyint8 (args : Nat) : Bool → Stack → Except Excno Stack := exec_unary fun x => RefInt256.mul_long x (signed_char args)

def exec_mul : Bool → Stack → Except Excno Stack := exec_binary RefInt256.mul

section
variable (x y : Int257) {v : Int} (quiet : Bool) (st : Stack)

theorem size_le (x : Int257) : x.view.size ≤ 5 := x.is.room

theorem exec_unary_eq {op : AnyIntView → AnyIntView} (h : Computes (op x.view) v) (hmax : (op x.view).max_size = 5) :
    exec_unary op quiet (.int x.view :: st) = push_exact v quiet st := push_computes h hmax quiet st

theorem exec_binary_eq {op : AnyIntView → AnyIntView → AnyIntView} (h : Computes (op x.view y.view) v) (hmax : (op x.view y.view).max_size = 5) :
    exec_binary op quiet (.int y.view :: .int x.view :: st) = push_exact v quiet st := push_computes h hmax quiet st

theorem max_size_mul_short_opt (x : AnyIntView) (t : Int) : (x.mul_short_opt t).max_size = x.max_size := by
  unfold AnyIntView.mul_short_opt AnyIntView.mul_short
  have h := x.max_size_mul_add_short_any t 0
  split
  · rfl
  · split <;> next hr => rw [hr] at h; exact h

/-- The sums and products of the instructions are exact, or an overflow. -/
theorem exec_add_mul_eq (args : Nat) :
    exec_add quiet (.int y.view :: .int x.view :: st) = push_exact (x.toInt + y.toInt) quiet st ∧
      exec_sub quiet (.int y.view :: .int x.view :: st) = push_exact (x.toInt - y.toInt) quiet st ∧
      exec_subr quiet (.int y.view :: .int x.view :: st) = push_exact (y.toInt - x.toInt) quiet st ∧
      exec_mul quiet (.int y.view :: .int x.view :: st) = push_exact (x.toInt * y.toInt) quiet st ∧
      exec_negate quiet (.int x.view :: st) = push_exact (-x.toInt) quiet st ∧
      exec_inc quiet (.int x.view :: st) = push_exact (x.toInt + 1) quiet st ∧
      exec_dec quiet (.int x.view :: st) = push_exact (x.toInt - 1) quiet st ∧
      exec_add_tinyint8 args quiet (.int x.view :: st) = push_exact (x.toInt + signed_char args) quiet st ∧
      exec_mul_tinyint8 args quiet (.int x.view :: st) = push_exact (x.toInt * signed_char args) quiet st := by
  have hchar : -128 ≤ signed_char args ∧ signed_char args ≤ 127 := by
    unfold signed_char
    omega
  refine ⟨?_, ?_, ?_, ?_, ?_, ?_, ?_, ?_, ?_⟩
  · exact exec_binary_eq x y quiet st (RefInt256.add_computes x.is rfl y.is (size_le y)) (by simp [RefInt256.add, AnyIntView.add_any]; rfl)
  · exact exec_binary_eq x y quiet st (RefInt256.sub_computes x.is rfl y.is (size_le y)) (by simp [RefInt256.sub, AnyIntView.sub_any]; rfl)
  · exact exec_binary_eq x y quiet st (RefInt256.sub_computes y.is rfl x.is (size_le x)) (by simp [RefInt256.sub, AnyIntView.sub_any]; rfl)
  · exact exec_binary_eq x y quiet st (RefInt256.mul_computes x.is rfl y.is (size_le y)) (by simp [RefInt256.mul]; rfl)
  · exact exec_unary_eq x quiet st (RefInt256.neg_computes x.is rfl) (by simp [RefInt256.neg]; rfl)
  · exact exec_unary_eq x quiet st (RefInt256.add_long_computes x.is rfl (by decide)) (by simp [RefInt256.add_long]; rfl)
  · exact exec_unary_eq x quiet st (RefInt256.add_long_computes x.is rfl (by decide)) (by simp [RefInt256.add_long]; rfl)
  · exact exec_unary_eq x quiet st (RefInt256.add_long_computes x.is rfl (by omega)) (by simp [RefInt256.add_long]; rfl)
  · exact exec_unary_eq x quiet st (RefInt256.mul_long_computes x.is rfl (by simp only [Half]; omega))
      (by simp [RefInt256.mul_long, max_size_mul_short_opt]; rfl)

/-- The operations on normalised integers are exact, what they cannot hold is seen by the range test, and
the order is that of the numbers. -/
theorem ring_operations_exact (t : Int) (ht : -128 ≤ t ∧ t ≤ 127) :
    Computes (RefInt256.add x.view y.view) (x.toInt + y.toInt) ∧ Computes (RefInt256.sub x.view y.view) (x.toInt - y.toInt) ∧
      Computes (RefInt256.neg x.view) (-x.toInt) ∧ Computes (RefInt256.mul x.view y.view) (x.toInt * y.toInt) ∧
      Computes (RefInt256.add_long x.view t) (x.toInt + t) ∧ Computes (x.view.mul_tiny_any t).normalize_bool_any (x.toInt * t) ∧
      Computes (x.view.mul_short t).normalize_bool_any (x.toInt * t) ∧ Computes (RefInt256.mul_long x.view t) (x.toInt * t) ∧
      (∀ (r : AnyIntView) (v : Int) (quiet : Bool) (st : Stack), Computes r v → r.max_size = 5 →
        push_int_quiet r quiet st = push_exact v quiet st) ∧
      (∀ (d e : AnyIntView) (v : Int), d.Holds v → e.Holds v → d.max_size = e.max_size →
        d.normalize_bool_any.digits = e.normalize_bool_any.digits) ∧
      x.view.normalize_bool_any = x.view ∧
      x.view.cmp_any y.view = (x.toInt - y.toInt).sign ∧ x.view.sgn = x.toInt.sign ∧ (x.view.eq_any y.view = true ↔ x.toInt = y.toInt) := by
  have hshort : -Half ≤ t ∧ t ≤ Half := by
    simp only [Half]
    omega
  have htiny : -MaxDenorm ≤ t ∧ t ≤ MaxDenorm := by
    simp only [MaxDenorm]
    omega
  refine ⟨RefInt256.add_computes x.is rfl y.is (size_le y), RefInt256.sub_computes x.is rfl y.is (size_le y),
    RefInt256.neg_computes x.is rfl, RefInt256.mul_computes x.is rfl y.is (size_le y),
    RefInt256.add_long_computes x.is rfl (by omega), (x.is.mul_tiny htiny).computes le_rfl,
    RefInt256.mul_short_computes x.is rfl hshort, RefInt256.mul_long_computes x.is rfl hshort, ?_, ?_, x.is.normalize,
    x.is.cmp_eq y.is, x.is.sgn_eq, x.is.eq_iff y.is⟩
  · intro r v quiet st h hmax
    exact push_computes h hmax quiet st
  · intro d e v hd he hmax
    exact hd.normalize_unique he hmax

theorem ring_operations_exact_at_two :
    Computes (RefInt256.mul (refint 2) (refint 3)) (2 * 3) ∧ Computes (RefInt256.add_long (refint 2) (-128)) (2 + -128) := by
  have h := ring_operations_exact (.ofInt 2 (by decide)) (.ofInt 3 (by decide)) (-128) (by decide)
  simp only [Int257.view_eq, Int257.toInt_ofInt] at h
  exact ⟨h.2.2.2.1, h.2.2.2.2.1⟩

end

end Ton.Vm
