import Ton.Session.PersistentVector
/-!
# Merging vectors of any elements

The templates of `persistent-vector.h` for any type of elements and any `merge_f`. A merge
returns one of its operands when a first loop finds that it is the result; the loop over a
`CntVector` takes it that an element that is not set changes nothing. A null pointer is the
empty vector.
-/

namespace Ton.Session.Generic
open Keyed List BitVec

/-- What the templates use of an element: `!=`, and the element as a condition. `ne` may tell apart what is equal. -/
structure Element (α : Type) where
  ne : α → α → Bool
  is_set : α → Bool
  eq_of_ne : ∀ {x y : α}, ne x y = false → x = y

variable {α κ : Type}

/-- Entry by entry; the longer one keeps its end. -/
def Merged (f : α → α → α) (l r v : List α) : Prop := ∀ i : ℕ, v[i]? = Option.merge f l[i]? r[i]?

theorem Merged.unique {f : α → α → α} {l r v w : List α} (hv : Merged f l r v) (hw : Merged f l r w) : v = w :=
  ext_getElem? fun i => (hv i).trans (hw i).symm

theorem Merged.cons {f : α → α → α} {l r v : List α} {x y z : α} (h : Merged f l r v) (hz : z = f x y) :
    Merged f (x :: l) (y :: r) (z :: v) := by
  intro i
  cases i with
  | zero => exact congrArg some hz
  | succ i => exact h i

theorem merged_nil_left (f : α → α → α) (r : List α) : Merged f [] r r := by
  intro i
  cases h : r[i]? <;> rfl

theorem merged_nil_right (f : α → α → α) (l : List α) : Merged f l [] l := by
  intro i
  cases h : l[i]? <;> rfl

theorem merged_self {f : α → α → α} (hid : ∀ x, f x x = x) (l : List α) : Merged f l l l := by
  intro i
  cases h : l[i]? with
  | none => rfl
  | some x => exact congrArg some (hid x).symm

/-! ## `CntVector` -/

namespace CntVector

variable (E : Element α)

/-- The loop that finds out about `ret_left` and `ret_right`. -/
def reuse : List α → List α → Bool × Bool
  | [], [] => (true, true)
  | [], _ :: _ => (false, true)
  | _ :: _, [] => (true, false)
  | x :: l, y :: r =>
    let (ret_left, ret_right) := reuse l r
    if E.ne x y then (ret_left && !E.is_set y, ret_right && !E.is_set x) else (ret_left, ret_right)

/-- The second loop. -/
def entries (merge_f : α → α → α) (merge_all : Bool) : List α → List α → List α
  | [], r => if merge_all then r.map fun y => merge_f y y else r
  | x :: l, [] => if merge_all then (x :: l).map fun x => merge_f x x else x :: l
  | x :: l, y :: r => merge_f x y :: entries merge_f merge_all l r

def merge (p : Pointers) (merge_f : α → α → α) (merge_all : Bool) (l r : List α) : Exc (List α) :=
  if !merge_all ∧ l = [] then .ok r
  else if !merge_all ∧ r = [] then .ok l
  else if !merge_all ∧ p.same l r then .ok l
  -- with `merge_all`, the size of a null pointer
  else if l = [] ∨ r = [] then .error .null_pointer
  else if !merge_all ∧ (reuse E l r).1 then .ok l
  else if !merge_all ∧ (reuse E l r).2 then .ok r
  else .ok (entries merge_f merge_all l r)

/-- An entry that is not set changes nothing in the one at the same place. -/
def Unharmed (f : α → α → α) (l r : List α) : Prop :=
  ∀ (i : ℕ) (x y : α), l[i]? = some x → r[i]? = some y → (E.is_set x = false → f x y = y) ∧ (E.is_set y = false → f x y = x)

section Spec
variable {E} {p : Pointers} {f : α → α → α} {merge_all : Bool} {l r : List α}

theorem Unharmed.head {x y : α} (h : Unharmed E f (x :: l) (y :: r)) :
    (E.is_set x = false → f x y = y) ∧ (E.is_set y = false → f x y = x) := h 0 x y rfl rfl

theorem Unharmed.tail {x y : α} (h : Unharmed E f (x :: l) (y :: r)) : Unharmed E f l r := fun i => h (i + 1)

theorem reuse_cons (x y : α) (l r : List α) : reuse E (x :: l) (y :: r) =
    if E.ne x y then ((reuse E l r).1 && !E.is_set y, (reuse E l r).2 && !E.is_set x) else reuse E l r := rfl

theorem entries_cons (x y : α) (l r : List α) : entries f merge_all (x :: l) (y :: r) = f x y :: entries f merge_all l r := rfl

section
variable (hid : ∀ x, f x x = x)
include hid

theorem reuse_left (hunset : Unharmed E f l r) (h : (reuse E l r).1 = true) : Merged f l r l := by
  induction l generalizing r with
  | nil =>
    cases r with
    | nil => exact merged_nil_left f []
    | cons y r => cases h
  | cons x l ih =>
    cases r with
    | nil => exact merged_nil_right f (x :: l)
    | cons y r =>
      rw [reuse_cons] at h
      by_cases hne : E.ne x y = true
      · rw [if_pos hne, Bool.and_eq_true, Bool.not_eq_true'] at h
        exact (ih hunset.tail h.1).cons (hunset.head.2 h.2).symm
      · rw [if_neg hne] at h
        obtain rfl := E.eq_of_ne (Bool.not_eq_true _ ▸ hne)
        exact (ih hunset.tail h).cons (hid x).symm

theorem reuse_right (hunset : Unharmed E f l r) (h : (reuse E l r).2 = true) : Merged f l r r := by
  induction l generalizing r with
  | nil => exact merged_nil_left f r
  | cons x l ih =>
    cases r with
    | nil => cases h
    | cons y r =>
      rw [reuse_cons] at h
      by_cases hne : E.ne x y = true
      · rw [if_pos hne, Bool.and_eq_true, Bool.not_eq_true'] at h
        exact (ih hunset.tail h.1).cons (hunset.head.1 h.2).symm
      · rw [if_neg hne] at h
        obtain rfl := E.eq_of_ne (Bool.not_eq_true _ ▸ hne)
        exact (ih hunset.tail h).cons (hid x).symm

theorem map_self (l : List α) : (l.map fun x => f x x) = l := by
  simp only [hid, map_id']

theorem entries_merged (merge_all : Bool) (l r : List α) : Merged f l r (entries f merge_all l r) := by
  induction l generalizing r with
  | nil =>
    rw [entries, map_self hid, ite_self]
    exact merged_nil_left f r
  | cons x l ih =>
    cases r with
    | nil =>
      rw [entries, map_self hid, ite_self]
      exact merged_nil_right f (x :: l)
    | cons y r =>
      rw [entries_cons]
      exact (ih r).cons rfl

theorem merge_eq (hunset : merge_all = false → Unharmed E f l r) (hall : merge_all = true → l ≠ [] ∧ r ≠ []) :
    merge E p f merge_all l r = .ok (entries f merge_all l r) := by
  have he := entries_merged hid merge_all l r
  have hsome : ∀ v, Merged f l r v → (.ok v : Exc (List α)) = .ok (entries f merge_all l r) := fun v hv =>
    congrArg Except.ok (hv.unique he)
  unfold merge
  split_ifs with h1 h2 h3 h4 h5 h6
  · exact hsome r (h1.2 ▸ merged_nil_left f r)
  · exact hsome l (h2.2 ▸ merged_nil_right f l)
  · exact hsome l (p.eq_of_same h3.2 ▸ merged_self hid l)
  · cases merge_all with
    | false => simp_all
    | true => exact absurd h4 (by simpa using hall rfl)
  · exact hsome l (reuse_left hid (hunset (by simpa using h5.1)) h5.2)
  · exact hsome r (reuse_right hid (hunset (by simpa using h6.1)) h6.2)
  · rfl

end

end Spec

end CntVector

/-! ## `CntVector<bool>` -/

namespace CntVectorBool

abbrev Words := List (BitVec 32)

def get_bit (value : Words) (idx : ℕ) : Bool := value.getD (idx / 32) 0 &&& 1#32 <<< (idx % 32) ≠ 0

def set_bit (value : Words) (idx : ℕ) (v : Bool) : Words :=
  value.modify (idx / 32) fun w => if v then w ||| 1#32 <<< (idx % 32) else w &&& ~~~(1#32 <<< (idx % 32))

def max_size (l : Words) : ℕ := l.length * 32

/-- The entries that the words hold. -/
def bits (l : Words) : List Bool := (List.range (max_size l)).map (get_bit l)

/-- `none` where the `CHECK` of the sizes fails. -/
def merge (p : Pointers) (l r : Words) : Option Words :=
  if l = [] then some r
  else if r = [] then some l
  else if p.same l r then some l
  else if max_size l ≠ max_size r then none
  else if (List.zipWith (fun x y => y &&& ~~~x) l r).all (· = 0) then some l
  else if (List.zipWith (fun x y => x &&& ~~~y) l r).all (· = 0) then some r
  else some (List.zipWith (fun x y => x ||| y) l r)

/-- The entry `i` of the other `merge`. -/
def joined (merge_f : Bool → Bool → Bool) (l r : Words) (i : ℕ) : Bool :=
  if i ≥ max_size l then get_bit r i
  else if i ≥ max_size r then get_bit l i
  else merge_f (get_bit l i) (get_bit r i)

/-- `merge` with a function. -/
def merge_with (p : Pointers) (merge_f : Bool → Bool → Bool) (l r : Words) : Words :=
  if l = [] then r
  else if r = [] then l
  else if p.same l r then l
  else
    let sz := max (max_size l) (max_size r)
    (List.range sz).foldl (fun v i => set_bit v i (joined merge_f l r i)) (List.replicate (sz / 32) 0)

section Spec
variable {p : Pointers} {f : Bool → Bool → Bool} {l r v : Words} {i j : ℕ}

theorem get_bit_eq (v : Words) (i : ℕ) : get_bit v i = (v.getD (i / 32) 0).getLsbD (i % 32) := by
  rw [get_bit, ← twoPow_eq, and_twoPow]
  cases (v.getD (i / 32) 0).getLsbD (i % 32) with
  | true =>
    rw [if_pos rfl, decide_eq_true_iff]
    intro h
    have := congrArg (BitVec.getLsbD · (i % 32)) h
    simp [Nat.mod_lt] at this
  | false => simp

theorem getElem?_bits (l : Words) (i : ℕ) : (bits l)[i]? = if i < max_size l then some (get_bit l i) else none := by
  rw [bits, getElem?_map]
  split_ifs with h
  · rw [getElem?_range h]
    rfl
  · rw [List.getElem?_eq_none (by simpa using h)]
    rfl

theorem merged_joined (hv : max_size v = max (max_size l) (max_size r)) (h : ∀ i < max_size v, get_bit v i = joined f l r i) :
    Merged f (bits l) (bits r) (bits v) := by
  intro i
  rw [getElem?_bits, getElem?_bits, getElem?_bits]
  by_cases hi : i < max_size v
  · rw [if_pos hi, h i hi, joined]
    by_cases hl : i < max_size l
    · rw [if_pos hl, if_neg (by omega)]
      by_cases hr : i < max_size r
      · rw [if_pos hr, if_neg (by omega)]
        rfl
      · rw [if_neg hr, if_pos (by omega)]
        rfl
    · rw [if_neg hl, if_pos (by omega), if_pos (by omega)]
      rfl
  · rw [if_neg hi, if_neg (by omega), if_neg (by omega)]
    rfl

theorem merged_or (hl : l.length = v.length) (hr : r.length = v.length) (h : ∀ i, get_bit v i = (get_bit l i || get_bit r i)) :
    Merged (· || ·) (bits l) (bits r) (bits v) := by
  refine merged_joined (by simp [max_size, hl, hr]) fun i hi => ?_
  have hi' : i < v.length * 32 := hi
  rw [h, joined, if_neg (by rw [max_size, hl]; omega), if_neg (by rw [max_size, hr]; omega)]

theorem or_covered (hlen : l.length = r.length) (h : (List.zipWith (fun x y => y &&& ~~~x) l r).all (· = 0) = true) (i : ℕ) :
    get_bit l i = (get_bit l i || get_bit r i) := by
  have hword : r.getD (i / 32) 0 &&& ~~~(l.getD (i / 32) 0) = 0 := by
    by_cases hk : i / 32 < l.length
    · rw [all_eq_true] at h
      have hz := h _ (getElem_mem (n := i / 32) (by rw [length_zipWith]; omega))
      rw [getElem_zipWith, decide_eq_true_eq] at hz
      rwa [getD_eq_getElem _ _ hk, getD_eq_getElem _ _ (hlen ▸ hk)]
    · rw [getD_eq_default _ _ (by omega : r.length ≤ i / 32)]
      exact zero_and
  have hbit := congrArg (BitVec.getLsbD · (i % 32)) hword
  have hlt : i % 32 < 32 := Nat.mod_lt _ (by norm_num)
  simp only [getLsbD_and, getLsbD_not, hlt, decide_true, Bool.true_and] at hbit
  rw [get_bit_eq, get_bit_eq]
  cases hx : (l.getD (i / 32) 0).getLsbD (i % 32) with
  | true => rfl
  | false =>
    rw [hx] at hbit
    simpa using hbit.symm

theorem get_bit_or (hlen : l.length = r.length) (i : ℕ) :
    get_bit (List.zipWith (fun x y => x ||| y) l r) i = (get_bit l i || get_bit r i) := by
  rw [get_bit_eq, get_bit_eq, get_bit_eq, ← getLsbD_or]
  congr 1
  by_cases hk : i / 32 < l.length
  · have hz : i / 32 < (List.zipWith (fun x y : BitVec 32 => x ||| y) l r).length := by rw [length_zipWith]; omega
    rw [getD_eq_getElem _ _ hz, getElem_zipWith, getD_eq_getElem _ _ hk, getD_eq_getElem _ _ (hlen ▸ hk)]
  · rw [getD_eq_default _ _ (by omega : l.length ≤ i / 32), getD_eq_default _ _ (by omega : r.length ≤ i / 32),
      getD_eq_default _ _ (by rw [length_zipWith]; omega)]
    rfl

theorem merge_merged (h : max_size l = max_size r ∨ l = [] ∨ r = []) : ∃ v, merge p l r = some v ∧ Merged (· || ·) (bits l) (bits r) (bits v) := by
  unfold merge
  split_ifs with h1 h2 h3 h4 h5 h6
  · exact ⟨r, rfl, h1 ▸ merged_nil_left _ (bits r)⟩
  · exact ⟨l, rfl, h2 ▸ merged_nil_right _ (bits l)⟩
  · exact ⟨l, rfl, p.eq_of_same h3 ▸ merged_self Bool.or_self (bits l)⟩
  · rcases h with h | h | h
    · exact absurd h h4
    · exact absurd h h1
    · exact absurd h h2
  · have hlen : l.length = r.length := by unfold max_size at h4; omega
    exact ⟨l, rfl, merged_or rfl hlen.symm (or_covered hlen h5)⟩
  · have hlen : l.length = r.length := by unfold max_size at h4; omega
    rw [zipWith_comm] at h6
    refine ⟨r, rfl, merged_or hlen rfl fun i => ?_⟩
    rw [Bool.or_comm]
    exact or_covered hlen.symm h6 i
  · have hlen : l.length = r.length := by unfold max_size at h4; omega
    exact ⟨_, rfl, merged_or (by rw [length_zipWith]; omega) (by rw [length_zipWith]; omega) (get_bit_or hlen)⟩

theorem length_set_bit (v : Words) (i : ℕ) (b : Bool) : (set_bit v i b).length = v.length := length_modify ..

theorem get_bit_set_bit (hi : i / 32 < v.length) (b : Bool) (j : ℕ) : get_bit (set_bit v i b) j = if j = i then b else get_bit v j := by
  have hlt : j % 32 < 32 := Nat.mod_lt _ (by norm_num)
  have hlt' : i % 32 < 32 := Nat.mod_lt _ (by norm_num)
  rw [get_bit_eq, get_bit_eq, set_bit, getD_eq_getElem?_getD, getD_eq_getElem?_getD, getElem?_modify, ← twoPow_eq]
  by_cases hk : i / 32 = j / 32
  · rw [← hk, List.getElem?_eq_getElem hi]
    simp only [if_true, Option.map_eq_map, Option.map_some, Option.getD_some]
    by_cases hij : j = i
    · subst hij
      cases b <;> simp [hlt]
    · have hne : i % 32 ≠ j % 32 := by omega
      cases b <;> simp [hij, hne.symm, hlt]
  · have hij : j ≠ i := by rintro rfl; exact hk rfl
    rw [if_neg hij]
    simp [hk]

/-- The bits that are set one after the other, starting with no bits. -/
theorem fill_bits (g : ℕ → Bool) (m n : ℕ) (hn : n ≤ m * 32) :
    ((List.range n).foldl (fun v i => set_bit v i (g i)) (List.replicate m 0)).length = m ∧
      ∀ j, get_bit ((List.range n).foldl (fun v i => set_bit v i (g i)) (List.replicate m 0)) j = if j < n then g j else false := by
  induction n with
  | zero =>
    refine ⟨length_replicate, fun j => ?_⟩
    have hword : (List.replicate m (0 : BitVec 32)).getD (j / 32) 0 = 0 := by
      rcases lt_or_ge (j / 32) m with h | h
      · exact getD_replicate _ h
      · exact getD_eq_default _ _ (by rwa [length_replicate])
    rw [range_zero, foldl_nil, get_bit_eq, hword, if_neg (Nat.not_lt_zero j)]
    exact getLsbD_zero
  | succ n ih =>
    obtain ⟨h1, h2⟩ := ih (by omega)
    rw [range_succ, foldl_append, foldl_cons, foldl_nil]
    refine ⟨by rw [length_set_bit, h1], fun j => ?_⟩
    rw [get_bit_set_bit (by rw [h1]; omega), h2]
    split_ifs with h3 h4 h5 <;> first | rfl | omega | (subst h3; rfl)

theorem merge_with_merged (hid : ∀ b, f b b = b) (l r : Words) : Merged f (bits l) (bits r) (bits (merge_with p f l r)) := by
  unfold merge_with
  split_ifs with h1 h2 h3
  · exact h1 ▸ merged_nil_left _ (bits r)
  · exact h2 ▸ merged_nil_right _ (bits l)
  · exact p.eq_of_same h3 ▸ merged_self hid (bits l)
  · have hsz : max (max_size l) (max_size r) = max (max_size l) (max_size r) / 32 * 32 := by
      unfold max_size
      omega
    obtain ⟨hlen, hbits⟩ := fill_bits (joined f l r) (max (max_size l) (max_size r) / 32) (max (max_size l) (max_size r)) hsz.le
    refine merged_joined ?_ fun i hi => ?_
    · rw [max_size, hlen, ← hsz]
    · rw [max_size, hlen, ← hsz] at hi
      rw [hbits, if_pos hi]

end Spec

end CntVectorBool

/-! ## `CntSortedVector` -/

namespace CntSortedVector

variable [LinearOrder κ] (E : Element α) (key : α → κ)

/-- The first loop of `merge`; `Compare` orders by the key. -/
def covers : ℕ → List α → List α → Bool × Bool
  | 0, _, _ => (false, false)
  | _ + 1, [], [] => (true, true)
  | _ + 1, [], _ :: _ => (false, true)
  | _ + 1, _ :: _, [] => (true, false)
  | fuel + 1, a :: l, b :: r =>
    if key a < key b then ((covers fuel l (b :: r)).1, false)
    else if key b < key a then (false, (covers fuel (a :: l) r).2)
    else if E.ne a b then (false, false)
    else covers fuel l r

/-- The second loop, for a function that does not fail. -/
def zip (merge_f : α → α → α) (l r : List α) : Exc (List α) :=
  Session.CntSortedVector.zip key (fun a b => .ok (merge_f a b)) (l.length + r.length) l r

def merge (p : Pointers) (merge_f : α → α → α) (l r : List α) : Exc (List α) :=
  if l = [] then .ok r
  else if r = [] then .ok l
  else if p.same l r then .ok l
  else if (covers E key (l.length + r.length + 1) l r).1 then .ok l
  else if (covers E key (l.length + r.length + 1) l r).2 then .ok r
  else zip key merge_f l r

def push (v : List α) (value : α) : List α :=
  if v = [] then [value]
  else
    match Session.CntSortedVector.search key v (key value) v.length 0 v.length with
    | .inl x =>
      match v[x]? with
      | some y => if E.ne y value then v.set x value else v
      | none => v
    | .inr r => v.take r ++ value :: v.drop r

section Spec
open Session.CntSortedVector (Union union_nil_left union_nil_right union_of_subset_left union_of_subset_right zip_union sorted_push find_push)
variable {E} {key} {p : Pointers} {f : α → α → α} {l r v : List α}

theorem subset_of_covers (fuel : ℕ) (l r : List α) :
    ((covers E key fuel l r).1 = true → ∀ b ∈ r, b ∈ l) ∧ ((covers E key fuel l r).2 = true → ∀ a ∈ l, a ∈ r) := by
  induction fuel generalizing l r with
  | zero => exact ⟨(nomatch ·), (nomatch ·)⟩
  | succ fuel ih =>
    rcases l with _ | ⟨a, l⟩ <;> rcases r with _ | ⟨b, r⟩
    · exact ⟨fun _ _ h => h, fun _ _ h => h⟩
    · exact ⟨(nomatch ·), fun _ _ h => nomatch h⟩
    · exact ⟨fun _ _ => (nomatch ·), (nomatch ·)⟩
    · rw [covers]
      split_ifs with h1 h2 h3
      · exact ⟨fun h x hx => mem_cons_of_mem a ((ih l (b :: r)).1 h x hx), (nomatch ·)⟩
      · exact ⟨(nomatch ·), fun h x hx => mem_cons_of_mem b ((ih (a :: l) r).2 h x hx)⟩
      · exact ⟨(nomatch ·), (nomatch ·)⟩
      · obtain rfl := E.eq_of_ne (Bool.not_eq_true _ ▸ h3)
        exact ⟨fun h _ => (cons_subset_cons a ((ih l r).1 h ·) ·), fun h _ => (cons_subset_cons a ((ih l r).2 h ·) ·)⟩

/-- Whatever is returned is what the second loop makes, and that is the union. -/
theorem merge_union (hl : Sorted key l) (hr : Sorted key r) (hid : ∀ x, f x x = x) (hkey : ∀ a b, key a = key b → key (f a b) = key a) :
    ∃ v, merge E key p f l r = .ok v ∧ zip key f l r = .ok v ∧ Union key (fun a b => .ok (f a b)) l r v := by
  obtain ⟨w, hw, hu⟩ := zip_union (f := fun a b => .ok (f a b)) hl hr (fun a _ b _ hab => ⟨f a b, rfl, hkey a b hab⟩)
    (l.length + r.length) le_rfl
  have hok : ∀ a : α, (.ok (f a a) : Exc α) = .ok a := fun a => congrArg Except.ok (hid a)
  have hsome : ∀ v, Union key (fun a b => .ok (f a b)) l r v → (.ok v : Exc (List α)) = .ok w := fun v hv =>
    congrArg Except.ok (hv.unique hu)
  refine ⟨w, ?_, hw, hu⟩
  unfold merge
  split_ifs with h1 h2 h3 h4 h5
  · exact hsome r (h1 ▸ union_nil_left hr)
  · exact hsome l (h2 ▸ union_nil_right hl)
  · exact hsome l (union_of_subset_left hl (fun a _ _ => hok a) fun b hb => p.eq_of_same h3 ▸ hb)
  · exact hsome l (union_of_subset_left hl (fun a _ _ => hok a) ((subset_of_covers _ l r).1 h4))
  · exact hsome r (union_of_subset_right hr (fun a _ _ => hok a) ((subset_of_covers _ l r).2 h5))
  · exact hw

/-- An element that is there already is put in the place where it is. -/
theorem push_eq (hs : Sorted key v) (value : α) : push E key v value = Session.CntSortedVector.push key v value := by
  rw [push]
  by_cases hv : v = []
  · subst hv
    rfl
  rw [if_neg hv, Session.CntSortedVector.push]
  have hf := Session.CntSortedVector.found hs (key value)
  cases h : Session.CntSortedVector.search key v (key value) v.length 0 v.length with
  | inr r => rfl
  | inl x =>
    rw [h] at hf
    obtain ⟨y, hy, -⟩ := hf
    simp only [hy]
    split_ifs with hne
    · rfl
    · obtain rfl := E.eq_of_ne (Bool.not_eq_true _ ▸ hne)
      obtain ⟨hx, rfl⟩ := List.getElem?_eq_some_iff.1 hy
      exact (set_getElem_self hx).symm

theorem push_spec (hs : Sorted key v) (value : α) : Sorted key (push E key v value) ∧
    ∀ k, find key (push E key v value) k = if key value = k then some value else find key v k := by
  rw [push_eq hs]
  exact ⟨sorted_push hs value, find_push hs value⟩

end Spec

end CntSortedVector

/-! ## All of them -/

section
variable [LinearOrder κ]

/-- Every merge is what its second loop makes, entry by entry or key by key, if what is not set changes nothing where a vector
may be returned unchanged, and a function for a sorted vector keeps the key; a push is the insertion. -/
theorem merges_exact (E : Element α) (p : Pointers) (f : α → α → α) (hid : ∀ x, f x x = x) :
    (∀ l r : List α, CntVector.Unharmed E f l r →
      CntVector.merge E p f false l r = .ok (CntVector.entries f false l r) ∧ Merged f l r (CntVector.entries f false l r)) ∧
    (∀ l r : List α, l ≠ [] → r ≠ [] →
      CntVector.merge E p f true l r = .ok (CntVector.entries f true l r) ∧ Merged f l r (CntVector.entries f true l r)) ∧
    (∀ l r : CntVectorBool.Words, CntVectorBool.max_size l = CntVectorBool.max_size r ∨ l = [] ∨ r = [] →
      ∃ v, CntVectorBool.merge p l r = some v ∧ Merged (· || ·) (CntVectorBool.bits l) (CntVectorBool.bits r) (CntVectorBool.bits v)) ∧
    (∀ (g : Bool → Bool → Bool) (l r : CntVectorBool.Words), (∀ b, g b b = b) →
      Merged g (CntVectorBool.bits l) (CntVectorBool.bits r) (CntVectorBool.bits (CntVectorBool.merge_with p g l r))) ∧
    (∀ key : α → κ, (∀ a b, key a = key b → key (f a b) = key a) → ∀ l r : List α, Sorted key l → Sorted key r →
      ∃ v, CntSortedVector.merge E key p f l r = .ok v ∧ CntSortedVector.zip key f l r = .ok v ∧
        Session.CntSortedVector.Union key (fun a b => .ok (f a b)) l r v) ∧
    (∀ (key : α → κ) (v : List α) (value : α), Sorted key v → Sorted key (CntSortedVector.push E key v value) ∧
      ∀ k, find key (CntSortedVector.push E key v value) k = if key value = k then some value else find key v k) := by
  refine ⟨fun l r hunset => ⟨CntVector.merge_eq hid (fun _ => hunset) (by simp), CntVector.entries_merged hid false l r⟩,
    fun l r hl hr => ⟨CntVector.merge_eq hid (by simp) fun _ => ⟨hl, hr⟩, CntVector.entries_merged hid true l r⟩,
    fun l r h => CntVectorBool.merge_merged h, fun g l r hg => CntVectorBool.merge_with_merged hg l r,
    fun key hkey l r hl hr => CntSortedVector.merge_union hl hr hid hkey, fun key v value hs => CntSortedVector.push_spec hs value⟩

end

/-- Numbers, which are set unless they are zero. -/
def number : Element ℕ := ⟨(· != ·), (· != 0), fun h => by simpa using h⟩

theorem eq_of_never {α : Type} {x y : α} (h : false = true) : x = y := absurd h Bool.false_ne_true

/-- Two vectors never lie at the same address. -/
def apart : Pointers := ⟨fun _ _ => false, eq_of_never⟩

theorem merges_exact_max : CntVector.merge number apart max false [0, 3] [5] = .ok [5, 3] ∧
    CntVector.merge number apart min true [0, 3] [5] = .ok [0, 3] := by
  have h := merges_exact (κ := ℕ) number apart max Nat.max_self
  refine ⟨(h.1 [0, 3] [5] fun i x y hx hy => ⟨fun h0 => ?_, fun h0 => ?_⟩).1,
    ((merges_exact (κ := ℕ) number apart min Nat.min_self).2.1 [0, 3] [5] (by simp) (by simp)).1⟩
  · simp_all [number]
  · simp_all [number]

/-- Zero counts as not set, and is dropped although it is the least; a function that changes the key leaves the keys out of
order; vectors of bits of two lengths end the process, and so does a null pointer with `merge_all`. -/
theorem merges_not_exact : (CntVector.merge number apart min false [0] [5] = .ok [5] ∧ ¬Merged min [0] [5] [5]) ∧
    (CntSortedVector.merge number (· % 3) apart (· ||| ·) [1] [4, 2] = .ok [5, 2] ∧ ¬Sorted (· % 3) [5, 2]) ∧
    CntVectorBool.merge apart [0] [0, 0] = none ∧ CntVector.merge number apart max true [] [5] = .error .null_pointer := by
  refine ⟨⟨rfl, fun h => ?_⟩, ⟨rfl, ?_⟩, rfl, rfl⟩
  · have h0 := h 0
    simp at h0
  · simp [Sorted]

end Ton.Session.Generic
