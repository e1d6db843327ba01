import Mathlib
/-!
# The symbolic stack of the code generator

`Stack` of `codegen.cpp`: each entry of the stack is labelled with a variable and a constant. The
top is first here, so that `at(i)` is the entry `i` of the list; what an assertion ends is `none`.
Comments are left out, and the output is enabled.
-/

namespace Ton.FunC

abbrev VarIdx := Int

/-- `var_const_idx_t`; without a constant it is -1. -/
abbrev Entry := VarIdx × Int

/-! ## Instructions -/

section
variable {α : Type}

/-- `at(i) = get(0)`, then the top is popped. -/
def pop_at (i : Nat) : List α → Option (List α)
  | [] => none
  | x :: l => if i < (x :: l).length then some (((x :: l).set i x).tail) else none

def push_at (i : Nat) (l : List α) : Option (List α) := l[i]?.map (· :: l)

def xchg_at (i j : Nat) (l : List α) : Option (List α) :=
  l[i]?.bind fun x => l[j]?.map fun y => (l.set i y).set j x

end

inductive AsmOp
  | pop (i : Nat)
  | push (i : Nat)
  | xchg (i j : Nat)
  deriving DecidableEq

/-- An instruction on a stack of values. -/
def AsmOp.run {α : Type} : AsmOp → List α → Option (List α)
  | pop i => pop_at i
  | push i => push_at i
  | xchg i j => xchg_at i j

def run_all {α : Type} : List AsmOp → List α → Option (List α)
  | [], l => some l
  | op :: ops, l => (op.run l).bind (run_all ops)

structure Stack where
  s : List Entry
  o : List AsmOp := []
  deriving DecidableEq

def labels (s : List Entry) : List VarIdx := s.map Prod.fst

namespace Stack

def depth (st : Stack) : Nat := st.s.length

/-- From the bottom up. -/
def vars (st : Stack) : List VarIdx := (labels st.s).reverse

/-- The first entry from `start` on that has the label; `none` is -1. -/
def find (s : List Entry) (var : VarIdx) (start : Nat) : Option Nat :=
  ((s.drop start).findIdx? fun e => e.1 = var).map (· + start)

/-- The first one in `[start .. stop)`. -/
def find_range (s : List Entry) (var : VarIdx) (start stop : Nat) : Option Nat := find (s.take stop) var start

/-- The first one outside `[start .. stop)`. -/
def find_outside (s : List Entry) (var : VarIdx) (start stop : Nat) : Option Nat :=
  if start ≥ stop then find s var 0
  else match find_range s var 0 start with
  | some t => some t
  | none => find s var stop

def issue_pop (i : Nat) (st : Stack) : Option Stack := (pop_at i st.s).map fun s => ⟨s, st.o ++ [AsmOp.pop i]⟩

def issue_push (i : Nat) (st : Stack) : Option Stack := (push_at i st.s).map fun s => ⟨s, st.o ++ [AsmOp.push i]⟩

/-- Equal entries are not exchanged. -/
def issue_xchg (i j : Nat) (st : Stack) : Option Stack :=
  st.s[i]?.bind fun x => st.s[j]?.bind fun y =>
    if i ≠ j ∧ x ≠ y then (xchg_at i j st.s).map fun s => ⟨s, st.o ++ [AsmOp.xchg i j]⟩ else some st

/-! ## `drop_vars_except` -/

section
variable (needed : VarIdx → Bool)

/-- Not needed, or found above; the range leaves out the entry right above. -/
def unneeded (s : List Entry) (i : Nat) : Bool :=
  s[i]?.any fun e => !needed e.1 || (find_range s e.1 0 (i - 1)).isSome

def first_unneeded (s : List Entry) : Option Nat := (List.range s.length).find? (unneeded needed s)

/-- The loop, which ends before it has dropped more than there is; with what was dropped so far. -/
def drop_loop : Nat → Nat → Stack → Option (Stack × Nat)
  | 0, dropped, st => some (st, dropped)
  | n + 1, dropped, st =>
    match first_unneeded needed st.s with
    | none => some (st, dropped)
    | some i => (st.issue_pop i).bind (drop_loop n (dropped + 1))

end

/-- `used` are the variables of `var_info` that are not unused. -/
def drop_vars_except (used : VarIdx → Bool) (excl_var : VarIdx) (st : Stack) : Option (Stack × Nat) :=
  drop_loop (fun idx => used idx || idx = excl_var) st.depth 0 st

/-! ## `enforce_state` -/

/-- Drops the top while it is not in `req_stack`. -/
def drop_unused (req_stack : List VarIdx) : List Entry → List AsmOp → Stack
  | [], o => ⟨[], o⟩
  | e :: s, o => if e.1 ∈ req_stack then ⟨e :: s, o⟩ else drop_unused req_stack s (o ++ [AsmOp.pop 0])

/-- One turn of the loop, which makes the `i`-th entry from below an `x`. -/
def enforce_one (req_stack : List VarIdx) (i : Nat) (x : VarIdx) (st : Stack) : Option Stack :=
  if i < st.depth ∧ (labels st.s)[st.depth - i - 1]? = some x then some st
  else
    let st := drop_unused req_stack st.s st.o
    (find st.s x 0).bind fun j =>
      (if j ≥ st.depth - i then (st.issue_push j).map fun st => (st, 0) else some (st, j)).bind fun r =>
        if i < r.1.depth then
          (r.1.issue_xchg r.2 (r.1.depth - i - 1)).bind fun st =>
            if (labels st.s)[st.depth - i - 1]? = some x then some st else none
        else none

def enforce_loop (req_stack : List VarIdx) : List VarIdx → Nat → Stack → Option Stack
  | [], _, st => some st
  | x :: xs, i, st => (enforce_one req_stack i x st).bind (enforce_loop req_stack xs (i + 1))

/-- Drops the top while the stack is deeper than `k`. -/
def pop_down (k : Nat) : List Entry → List AsmOp → Stack
  | [], o => ⟨[], o⟩
  | e :: s, o => if (e :: s).length > k then pop_down k s (o ++ [AsmOp.pop 0]) else ⟨e :: s, o⟩

def enforce_state (req_stack : List VarIdx) (st : Stack) : Option Stack :=
  (enforce_loop req_stack req_stack 0 st).bind fun st =>
    let st := pop_down req_stack.length st.s st.o
    if labels st.s = req_stack.reverse then some st else none

/-! ## `rearrange_top` -/

/-- The variables with their flags: one that comes again is not the last. -/
def clear_last : List VarIdx → List Bool → List (VarIdx × Bool)
  | [], _ => []
  | x :: top, last => (x, last.headD false && x ∉ top) :: clear_last top last.tail

def rearrange_loop : List (VarIdx × Bool) → Nat → Nat → Stack → Option Stack
  | [], _, ss, st => if ss = 0 then some st else none
  | (x, last) :: rest, i, ss, st =>
    (find_outside st.s x ss (ss + i)).bind fun j =>
      if last then
        if ss = 0 then none
        else (st.issue_xchg (ss - 1) j).bind fun st =>
          if (labels st.s)[ss - 1]? = some x then rearrange_loop rest (i + 1) (ss - 1) st else none
      else (st.issue_push j).bind fun st => (st.issue_xchg 0 ss).bind fun st =>
        if (labels st.s)[ss]? = some x then rearrange_loop rest (i + 1) ss st else none

def rearrange_top (top : List VarIdx) (last : List Bool) (st : Stack) : Option Stack :=
  let marked := clear_last top last
  rearrange_loop marked 0 (marked.countP fun e => e.2) st

end Stack

end Ton.FunC
