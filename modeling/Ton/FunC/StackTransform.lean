import Ton.Lib.Sparse
import Mathlib
/-!
# Stack transforms

`StackTransform` of `func.h` and `stack-transform.cpp`: a map of stack indices that is `x + d` but for
the pairs listed. The array is `A` with the `n` pairs that count, then `rest`, which is what it still
holds beyond. Once a transform is invalid every operation leaves it so: that is `none`. The `int`
fields do not overflow.
-/

namespace Ton.FunC

open Sparse

def max_n : Nat := 16

def inf_x : Int := 0x7fffffff

def c_start : Int := -1000

/-- `y == (short)y` -/
def is_short (y : Int) : Bool := -0x8000 ≤ y && y < 0x8000

structure StackTransform where
  d : Int := 0
  dp : Int := 0
  c : Int := 0
  A : List (Int × Int) := []
  rest : List (Int × Int)
  deriving DecidableEq

namespace StackTransform

/-- A new transform; the array is not initialized. -/
def id (rest : List (Int × Int)) : StackTransform := { rest := rest }

def touch (t : StackTransform) (i : Int) : StackTransform := { t with dp := max t.dp (i + t.d + 1) }

def get (t : StackTransform) (x : Int) : Int :=
  if x ≤ c_start then x - t.c else (get? t.A (x + t.d)).getD (x + t.d)

def set (t : StackTransform) (x y : Int) (relaxed : Bool) : Option StackTransform :=
  if x < 0 then
    if relaxed && y = x + t.d then some t else none
  else
    let t := if relaxed then t else t.touch x
    let x := x + t.d
    let before := below t.A x
    let after := from_key t.A x
    if after.head?.map Prod.fst = some x then
      if x ≠ y then
        if is_short y then some { t with A := before ++ (x, y) :: after.tail } else none
      else some { t with A := before ++ after.tail, rest := after.getLast?.toList ++ t.rest }
    else if x ≠ y then
      if !is_short x || !is_short y || t.A.length = max_n then none
      else some (({ t with A := before ++ (x, y) :: after, rest := t.rest.tail }.touch (x - t.d)).touch y)
    else some t

def remove_negative (t : StackTransform) : StackTransform :=
  let kept := from_key t.A t.d
  { t with A := kept, rest := t.A.drop kept.length ++ t.rest }

def shift (t : StackTransform) (offs : Int) : StackTransform :=
  let t := { t with d := t.d + offs }
  if offs ≤ 0 then t else t.remove_negative

def assign (t other : StackTransform) : Option StackTransform :=
  if other.A.length > max_n then none
  else some { other with rest := (t.A ++ t.rest).drop other.A.length }

/-! ## The list of values -/

def assign_loop : List Int → Int → StackTransform → Option StackTransform
  | [], _, t => some t
  | y :: list, x, t =>
    if y ≠ x then
      if !is_short x || !is_short y || t.A.length = max_n then none
      else assign_loop list (x + 1) { t with dp := max t.dp (max x y + 1), A := t.A ++ [(x, y)], rest := t.rest.tail }
    else assign_loop list (x + 1) t

/-- `operator=` -/
def assign_list (t : StackTransform) (list : List Int) : Option StackTransform :=
  if list.length > 255 then none
  else
    let t := id (t.A ++ t.rest)
    match list.getLast? with
    | none => some t
    | some last =>
      let d := last - (list.length - 1)
      if d ≥ 128 ∨ d < -128 then none else assign_loop list.dropLast d { t with d := d }

/-! ## Composition -/

def try_load (l : List (Int × Int)) (offs : Int) : Int := (l.head?.map fun p => p.1 + offs).getD inf_x

def try_store (d : Int) (out : List (Int × Int)) (x y : Int) : Option (List (Int × Int)) :=
  if x = y ∨ x < d then some out
  else if out.length = max_n || !is_short x || !is_short y then none
  else some (out ++ [(x, y)])

/-- The loop of `compose`. What is stored at `inf_x` does not fit. -/
def compose_loop (a : StackTransform) (d : Int) : Nat → List (Int × Int) → List (Int × Int) → List (Int × Int) →
    Option (List (Int × Int))
  | 0, _, _, _ => none
  | fuel + 1, l1, l2, out =>
    let x1 := try_load l1 0
    let x2 := try_load l2 a.d
    if x1 < x2 then
      match l1 with
      | [] => none
      | p :: l1 => (try_store d out x1 p.2).bind (compose_loop a d fuel l1 l2)
    else if x2 < inf_x then
      match l2 with
      | [] => none
      | q :: l2 => (try_store d out x2 (a.get q.2)).bind (compose_loop a d fuel (if x1 = x2 then l1.tail else l1) l2)
    else some out

/-- `c := a * b` -/
def compose (a b c : StackTransform) : Option StackTransform :=
  (compose_loop a (a.d + b.d) (a.A.length + b.A.length + 1) a.A b.A []).map fun A =>
    { d := a.d + b.d, dp := max a.dp (b.dp + a.d), c := a.c + b.c, A := A, rest := (c.A ++ c.rest).drop A.length }

/-- `rest` is what the array of the result holds at first. -/
def apply (t other : StackTransform) (rest : List (Int × Int)) : Option StackTransform :=
  (compose t other (id rest)).bind t.assign

def preapply (t other : StackTransform) (rest : List (Int × Int)) : Option StackTransform :=
  (compose other t (id rest)).bind t.assign

/-! ## Stack operations -/

def apply_xchg (t : StackTransform) (i j : Int) (relaxed : Bool) : Option StackTransform :=
  if i < 0 ∨ j < 0 then none
  else if i = j then some (if relaxed then t else t.touch i)
  else (((t.touch i).touch j).set i (t.get j) false).bind fun t' => t'.set j (t.get i) false

def apply_push (t : StackTransform) (i : Int) : Option StackTransform :=
  if i < 0 then none else ((t.touch i).shift (-1)).set 0 (t.get i) false

def apply_push_newconst (t : StackTransform) : Option StackTransform :=
  { t.shift (-1) with c := t.c + 1 }.set 0 (c_start - t.c) false

def apply_pop (t : StackTransform) (i : Int) : Option StackTransform :=
  if i < 0 then none
  else if i = 0 then some ((t.touch 0).shift 1)
  else (t.set i (t.get 0) false).map fun t => t.shift 1

def apply_blkpop (t : StackTransform) (k : Int) : Option StackTransform :=
  if k < 0 then none
  else if k = 0 then some t
  else some ((t.touch (k - 1)).shift k)

def equal (t other : StackTransform) (relaxed : Bool) : Bool :=
  t.A.length = other.A.length && t.d = other.d && t.A = other.A && (relaxed || t.dp = other.dp)

def almost_equal (t other : StackTransform) : Bool := t.equal other true

def Xchg (rest : List (Int × Int)) (i j : Int) (relaxed : Bool) : Option StackTransform := (id rest).apply_xchg i j relaxed

def Push (rest : List (Int × Int)) (i : Int) : Option StackTransform := (id rest).apply_push i

def Pop (rest : List (Int × Int)) (i : Int) : Option StackTransform := (id rest).apply_pop i

/-! ## Preimages -/

/-- The loop goes over the whole array. -/
def preimage_count (t : StackTransform) (y : Int) : Int :=
  (t.A ++ t.rest).foldl (fun count p => if p.2 = y then count + 1 else if p.1 = y then count - 1 else count) (if y ≥ t.d then 1 else 0)

def preimage_loop (y d : Int) : List (Int × Int) → Bool → List Int
  | [], _ => []
  | p :: l, f =>
    let more := if p.1 > y && f then [y - d] else []
    let f := f && !(p.1 > y)
    if p.1 = y then more ++ preimage_loop y d l false
    else if p.2 = y then more ++ (p.1 - d) :: preimage_loop y d l f
    else more ++ preimage_loop y d l f

def preimage (t : StackTransform) (y : Int) : List Int := preimage_loop y t.d (t.A ++ t.rest) (y ≥ t.d)

end StackTransform

end Ton.FunC
