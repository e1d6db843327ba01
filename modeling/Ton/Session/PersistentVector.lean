import Ton.Lib.Keyed
import Mathlib.Data.Fintype.Basic
/-!
# Persistent vectors

`persistent-vector.h`. Vectors are never changed in place; a null pointer stands
for the empty one. `CntVector` comes in two kinds: with one entry for each of the
`n` nodes (`NodeVec`), or growing (a list). A `CntSortedVector` is a list with
growing keys.
-/

namespace Ton.Session
open List
open Except (ok.inj)

/-- The ways a call can end the process: a null pointer, an index out of range, and the checks that may fail. -/
inductive Crash where
  | null_pointer
  | out_of_range
  | seqno_mismatch
  | id_mismatch
  | precommitted_blocks_differ
  | no_voted_block
  | no_attempt
  | attempt_order
  | lock_without_votes
  | not_precommitted
  | not_signed
  | still_signed
  | no_candidate
  | negative_priority
  | not_skip
  | bad_index
  | unreachable
  deriving DecidableEq, Repr

abbrev Exc := Except Crash

/-- `CHECK(c)` -/
def check (e : Crash) (c : Prop) [Decidable c] : Exc Unit := if c then .ok () else .error e

theorem check_pos {e : Crash} {c : Prop} [Decidable c] (h : c) : check e c = .ok () := if_pos h

/-- Whether two objects lie at the same address. Equal objects may lie at different ones. -/
structure Pointers where
  same : {α : Type} → α → α → Bool
  eq_of_same : ∀ {α : Type} {x y : α}, same x y = true → x = y

variable {α κ : Type} {n : ℕ}

abbrev NodeVec (n : ℕ) (α : Type) := Fin n → α

namespace NodeVec

def change (l : NodeVec n α) (idx : Fin n) (value : α) : NodeVec n α := Function.update l idx value

def modify (l : NodeVec n α) (mod_f : α → α) : NodeVec n α := fun i => mod_f (l i)

/-- `ne` compares two entries with `!=`, `isSet` is an entry taken as a condition. -/
def merge (p : Pointers) (ne : α → α → Bool) (isSet : α → Bool) (merge_f : α → α → α) (l r : NodeVec n α) : NodeVec n α :=
  if p.same l r then l
  else if ∀ i, ne (l i) (r i) → !isSet (r i) then l
  else if ∀ i, ne (l i) (r i) → !isSet (l i) then r
  else fun i => merge_f (l i) (r i)

/-- `merge` with `merge_all`. -/
def merge_all (merge_f : α → α → α) (l r : NodeVec n α) : NodeVec n α := fun i => merge_f (l i) (r i)

/-- `CntVector<bool>::merge` -/
def merge_bool (p : Pointers) (l r : NodeVec n Bool) : NodeVec n Bool :=
  if p.same l r then l
  else if ∀ i, r i → l i then l
  else if ∀ i, l i → r i then r
  else fun i => l i || r i

/-- Numbers are unset when they are 0. -/
def merge_nat (p : Pointers) (merge_f : ℕ → ℕ → ℕ) (l r : NodeVec n ℕ) : NodeVec n ℕ := merge p (· != ·) (· != 0) merge_f l r

/-- Pointers are unset when they are null. -/
def merge_ptr (p : Pointers) (merge_f : Option α → Option α → Option α) (l r : NodeVec n (Option α)) :
    NodeVec n (Option α) :=
  merge p (fun x y => match x, y with
    | none, none => false
    | some x, some y => !p.same x y
    | _, _ => true) Option.isSome merge_f l r

theorem merge_apply (p : Pointers) {ne : α → α → Bool} {isSet : α → Bool} {f : α → α → α}
    (hne : ∀ x y, ne x y = false → x = y) (hid : ∀ x, f x x = x)
    (hl : ∀ x y, isSet y = false → f x y = x) (hr : ∀ x y, isSet x = false → f x y = y) (l r : NodeVec n α) :
    merge p ne isSet f l r = fun i => f (l i) (r i) := by
  unfold merge
  split_ifs with hsame hleft hright
  · rw [p.eq_of_same hsame]
    funext i
    rw [hid]
  · funext i
    cases h : ne (l i) (r i) with
    | true => exact (hl _ _ (by simpa using hleft i h)).symm
    | false => rw [← hne _ _ h, hid]
  · funext i
    cases h : ne (l i) (r i) with
    | true => exact (hr _ _ (by simpa using hright i h)).symm
    | false => rw [← hne _ _ h, hid]
  · rfl

@[simp] theorem merge_bool_apply (p : Pointers) (l r : NodeVec n Bool) (i : Fin n) :
    merge_bool p l r i = (l i || r i) := by
  unfold merge_bool
  split_ifs with hsame hleft hright
  · rw [p.eq_of_same hsame, Bool.or_self]
  · cases hr : r i with
    | true => rw [hleft i hr, Bool.true_or]
    | false => rw [Bool.or_false]
  · cases hl : l i with
    | true => rw [hright i hl, Bool.true_or]
    | false => rw [Bool.false_or]
  · rfl

theorem merge_nat_apply (p : Pointers) {f : ℕ → ℕ → ℕ} (hid : ∀ x, f x x = x) (hl : ∀ x, f x 0 = x)
    (hr : ∀ x, f 0 x = x) (l r : NodeVec n ℕ) (i : Fin n) : merge_nat p f l r i = f (l i) (r i) := by
  unfold merge_nat
  rw [merge_apply p (by simp) hid]
  · intro x y h
    rw [show y = 0 by simpa using h, hl]
  · intro x y h
    rw [show x = 0 by simpa using h, hr]

theorem merge_ptr_apply (p : Pointers) {f : Option α → Option α → Option α} (hid : ∀ x, f x x = x)
    (hl : ∀ x, f x none = x) (hr : ∀ x, f none x = x) (l r : NodeVec n (Option α)) (i : Fin n) :
    merge_ptr p f l r i = f (l i) (r i) := by
  unfold merge_ptr
  rw [merge_apply p _ hid]
  · rintro x (_ | y) h
    · exact hl x
    · cases h
  · rintro (_ | x) y h
    · exact hr y
    · cases h
  · rintro (_ | x) (_ | y) h
    · rfl
    · cases h
    · cases h
    · exact congrArg some (p.eq_of_same (by simpa using h))

end NodeVec

namespace CntVector

/-- The loop that finds out if one of the two is the result; the entries are never null. -/
def covers (p : Pointers) : List α → List α → Bool × Bool
  | [], [] => (true, true)
  | [], _ :: _ => (false, true)
  | _ :: _, [] => (true, false)
  | x :: l, y :: r => if p.same x y then covers p l r else (false, false)

def zip (merge_f : α → α → Exc α) : List α → List α → Exc (List α)
  | [], r => .ok r
  | l, [] => .ok l
  | x :: l, y :: r => do
    let z ← merge_f x y
    let v ← zip merge_f l r
    .ok (z :: v)

def merge (p : Pointers) (merge_f : α → α → Exc α) (l r : List α) : Exc (List α) :=
  if l = [] then .ok r
  else if r = [] then .ok l
  else if p.same l r then .ok l
  else if (covers p l r).1 then .ok l
  else if (covers p l r).2 then .ok r
  else zip merge_f l r

theorem eq_of_covers (p : Pointers) : ∀ l r : List α,
    ((covers p l r).1 = true → ∃ t, l = r ++ t) ∧ ((covers p l r).2 = true → ∃ t, r = l ++ t)
  | [], [] => ⟨fun _ => ⟨[], rfl⟩, fun _ => ⟨[], rfl⟩⟩
  | [], y :: r => ⟨(nomatch ·), fun _ => ⟨y :: r, rfl⟩⟩
  | x :: l, [] => ⟨fun _ => ⟨x :: l, rfl⟩, (nomatch ·)⟩
  | x :: l, y :: r => by
    rw [covers]
    split_ifs with hsame
    · obtain rfl := p.eq_of_same hsame
      refine ⟨fun h => ?_, fun h => ?_⟩
      · obtain ⟨t, ht⟩ := (eq_of_covers p l r).1 h
        exact ⟨t, by rw [ht, cons_append]⟩
      · obtain ⟨t, ht⟩ := (eq_of_covers p l r).2 h
        exact ⟨t, by rw [ht, cons_append]⟩
    · exact ⟨(nomatch ·), (nomatch ·)⟩

section Spec
variable {p : Pointers} {f : α → α → Exc α} {l r v : List α}

/-- Entry by entry; the longer one keeps its end. -/
def Zipped (f : α → α → Exc α) (l r v : List α) : Prop := ∀ i : ℕ, Result.join f l[i]? r[i]? = .ok v[i]?

section
variable (hf : ∀ (i : ℕ) x y, l[i]? = some x → r[i]? = some y → ∃ z, f x y = .ok z)
include hf

theorem zip_spec :
    ∃ v, zip f l r = .ok v ∧ Zipped f l r v := by
  induction l, r using zip.induct with
  | case1 r => exact ⟨r, by rw [zip], fun i => by simp [Result.join]⟩
  | case2 l hl => exact ⟨l, by cases l <;> simp_all [zip], fun i => by cases h : l[i]? <;> simp [Result.join]⟩
  | case3 x l y r ih =>
    obtain ⟨z, hz⟩ := hf 0 x y rfl rfl
    obtain ⟨v, hv, hzip⟩ := ih fun i x y hx hy => hf (i + 1) x y hx hy
    refine ⟨z :: v, by rw [zip, hz, hv]; rfl, fun i => ?_⟩
    cases i with
    | zero => simp [Result.join, hz]
    | succ i => exact hzip i

theorem merge_spec (hid : ∀ (i : ℕ) x, l[i]? = some x → r[i]? = some x → f x x = .ok x) :
    ∃ v, merge p f l r = .ok v ∧ Zipped f l r v := by
  have left : ∀ t, l = r ++ t → Zipped f l r l := by
    rintro t rfl i
    cases hr : r[i]? with
    | none => cases (r ++ t)[i]? <;> rfl
    | some y =>
      have hy : (r ++ t)[i]? = some y := by rw [getElem?_append_left (List.getElem?_eq_some_iff.1 hr).1, hr]
      rw [hy, Result.join, hid i y hy hr]
      rfl
  have right : ∀ t, r = l ++ t → Zipped f l r r := by
    rintro t rfl i
    cases hl : l[i]? with
    | none => rfl
    | some x =>
      have hx : (l ++ t)[i]? = some x := by rw [getElem?_append_left (List.getElem?_eq_some_iff.1 hl).1, hl]
      rw [hx, Result.join, hid i x hl hx]
      rfl
  unfold merge
  split_ifs with h1 h2 h3 h4 h5
  · exact ⟨r, rfl, right r (by rw [h1, nil_append])⟩
  · exact ⟨l, rfl, left l (by rw [h2, nil_append])⟩
  · exact ⟨l, rfl, left [] (by rw [p.eq_of_same h3, append_nil])⟩
  · obtain ⟨t, ht⟩ := (eq_of_covers p l r).1 h4
    exact ⟨l, rfl, left t ht⟩
  · obtain ⟨t, ht⟩ := (eq_of_covers p l r).2 h5
    exact ⟨r, rfl, right t ht⟩
  · exact zip_spec hf

end

theorem Zipped.length (h : Zipped f l r v) : v.length = max l.length r.length := by
  have hnone : ∀ i : ℕ, v.length ≤ i ↔ l.length ≤ i ∧ r.length ≤ i := by
    intro i
    have hi := h i
    rw [← List.getElem?_eq_none_iff, ← List.getElem?_eq_none_iff, ← List.getElem?_eq_none_iff]
    rcases hl : l[i]? with _ | x <;> rcases hr : r[i]? with _ | y <;> rw [hl, hr] at hi
    · simp [← ok.inj hi]
    · simp [← ok.inj hi]
    · simp [← ok.inj hi]
    · obtain ⟨z, -, hz⟩ := Result.map_ok hi
      simp [← hz]
  have h1 := (hnone v.length).1 le_rfl
  have h2 := (hnone (max l.length r.length)).2 ⟨le_max_left _ _, le_max_right _ _⟩
  omega

end Spec

end CntVector

namespace CntSortedVector

variable [LinearOrder κ] (key : α → κ)

/-- The binary search for `k`, with `l = lo - 1` and `r = hi`: the place it is at, or the place where it belongs. -/
def search (v : List α) (k : κ) : ℕ → ℕ → ℕ → ℕ ⊕ ℕ
  | 0, _, hi => .inr hi
  | fuel + 1, lo, hi =>
    if lo < hi then
      let x := (hi + lo - 1) / 2
      match v[x]? with
      | none => .inr hi
      | some y =>
        if key y < k then search v k fuel (x + 1) hi
        else if k < key y then search v k fuel lo x
        else .inl x
    else .inr hi

def get (v : List α) (k : κ) : Option α :=
  match search key v k v.length 0 v.length with
  | .inl x => v[x]?
  | .inr _ => none

def push (v : List α) (value : α) : List α :=
  match search key v (key value) v.length 0 v.length with
  | .inl x => v.set x value
  | .inr r => v.take r ++ value :: v.drop r

/-- The first loop of `merge`: whether one of the two is the result. -/
def covers (p : Pointers) : ℕ → List α → List α → Bool × Bool
  | 0, _, _ => (false, false)
  | _ + 1, [], [] => (true, true)
  | _ + 1, [], _ :: _ => (false, true)
  | _ + 1, _ :: _, [] => (true, false)
  | fuel + 1, a :: l, b :: r =>
    if key a < key b then ((covers p fuel l (b :: r)).1, false)
    else if key b < key a then (false, (covers p fuel (a :: l) r).2)
    else if p.same a b then covers p fuel l r
    else (false, false)

/-- The second loop. -/
def zip (merge_f : α → α → Exc α) : ℕ → List α → List α → Exc (List α)
  | 0, _, _ => .ok []
  | _ + 1, [], [] => .ok []
  | fuel + 1, [], b :: r => (b :: ·) <$> zip merge_f fuel [] r
  | fuel + 1, a :: l, [] => (a :: ·) <$> zip merge_f fuel l []
  | fuel + 1, a :: l, b :: r =>
    if key a < key b then (a :: ·) <$> zip merge_f fuel l (b :: r)
    else if key b < key a then (b :: ·) <$> zip merge_f fuel (a :: l) r
    else do
      let c ← merge_f a b
      (c :: ·) <$> zip merge_f fuel l r

def merge (p : Pointers) (merge_f : α → α → Exc α) (l r : List α) : Exc (List α) :=
  if l = [] then .ok r
  else if r = [] then .ok l
  else if p.same l r then .ok l
  else if (covers key p (l.length + r.length + 1) l r).1 then .ok l
  else if (covers key p (l.length + r.length + 1) l r).2 then .ok r
  else zip key merge_f (l.length + r.length) l r

section Search
open Keyed
variable {key} {v : List α} {k : κ}

/-- What the search found. -/
def Found (key : α → κ) (v : List α) (k : κ) : ℕ ⊕ ℕ → Prop
  | .inl x => ∃ y, v[x]? = some y ∧ key y = k
  | .inr r => (∀ j y, j < r → v[j]? = some y → key y < k) ∧ ∀ j y, r ≤ j → v[j]? = some y → k < key y

section
variable (hs : Sorted key v)
include hs

theorem search_found (fuel lo hi : ℕ) (hfuel : hi ≤ lo + fuel) (hlen : hi ≤ v.length)
    (hlo : ∀ j y, j < lo → v[j]? = some y → key y < k) (hhi : ∀ j y, hi ≤ j → v[j]? = some y → k < key y) :
    Found key v k (search key v k fuel lo hi) := by
  induction fuel generalizing lo hi with
  | zero => exact ⟨fun j y hj => hlo j y (by omega), hhi⟩
  | succ fuel ih =>
    rw [search]
    split_ifs with hlt
    · have hx : (hi + lo - 1) / 2 < v.length := by omega
      dsimp only
      rw [getElem?_eq_getElem hx]
      dsimp only
      split_ifs with h1 h2
      · refine ih _ _ (by omega) hlen (fun j y hj hy => ?_) hhi
        rcases Nat.lt_succ_iff_lt_or_eq.1 hj with hj | rfl
        · exact (hs.lt hj hy (getElem?_eq_getElem hx)).trans h1
        · rw [getElem?_eq_getElem hx] at hy
          exact Option.some.inj hy ▸ h1
      · refine ih _ _ (by omega) (by omega) hlo (fun j y hj hy => ?_)
        rcases hj.lt_or_eq with hj | rfl
        · exact h2.trans (hs.lt hj (getElem?_eq_getElem hx) hy)
        · rw [getElem?_eq_getElem hx] at hy
          exact Option.some.inj hy ▸ h2
      · exact ⟨_, getElem?_eq_getElem hx, le_antisymm (not_lt.1 h2) (not_lt.1 h1)⟩
    · exact ⟨fun j y hj => hlo j y (by omega), hhi⟩

theorem found (k : κ) : Found key v k (search key v k v.length 0 v.length) := by
  refine search_found hs v.length 0 v.length (by omega) le_rfl (fun j y hj => by omega) fun j y hj hy => ?_
  have := (List.getElem?_eq_some_iff.1 hy).1
  omega

theorem get_eq (k : κ) : get key v k = find key v k := by
  have hf := found hs k
  rw [get]
  cases h : search key v k v.length 0 v.length with
  | inl x =>
    rw [h] at hf
    obtain ⟨y, hy, rfl⟩ := hf
    exact hy.trans (hs.find_of_mem (mem_of_getElem? hy)).symm
  | inr r =>
    rw [h] at hf
    refine (find_eq_none.2 fun y hy => ?_).symm
    obtain ⟨j, hj⟩ := mem_iff_getElem?.1 hy
    rcases lt_or_ge j r with hr | hr
    · exact (hf.1 j y hr hj).ne
    · exact (hf.2 j y hr hj).ne'

theorem push_spec (value : α) : Sorted key (push key v value) ∧
    ∀ k, find key (push key v value) k = if key value = k then some value else find key v k := by
  have hf := found hs (key value)
  rw [push]
  cases h : search key v (key value) v.length 0 v.length with
  | inl x =>
    rw [h] at hf
    obtain ⟨y, hy, hk⟩ := hf
    exact ⟨hs.set hy hk.symm, find_set hs hy hk.symm⟩
  | inr r =>
    rw [h] at hf
    have h1 : ∀ b ∈ v.take r, key b < key value := by
      intro b hb
      obtain ⟨j, hj⟩ := mem_iff_getElem?.1 hb
      rw [getElem?_take] at hj
      split_ifs at hj with hr
      exact hf.1 j b hr hj
    have h2 : ∀ b ∈ v.drop r, key value < key b := by
      intro b hb
      obtain ⟨j, hj⟩ := mem_iff_getElem?.1 hb
      rw [getElem?_drop] at hj
      exact hf.2 (r + j) b (Nat.le_add_right r j) hj
    refine ⟨Sorted.insert (Pairwise.take hs) (Pairwise.drop hs) h1 h2, fun k => ?_⟩
    rw [find_insert h1, take_append_drop]

theorem sorted_push (value : α) : Sorted key (push key v value) := (push_spec hs value).1

theorem find_push (value : α) (k : κ) :
    find key (push key v value) k = if key value = k then some value else find key v k := (push_spec hs value).2 k

end

end Search

section Merge
open Keyed
variable {key} {p : Pointers} {f : α → α → Exc α} {l r v : List α}

/-- `v` is sorted and has what `l` and `r` have, joined by `f` where both have the key. -/
structure Union (key : α → κ) (f : α → α → Exc α) (l r v : List α) : Prop where
  sorted : Sorted key v
  find : ∀ k, Result.join f (find key l k) (find key r k) = .ok (find key v k)

theorem Union.mem (h : Union key f l r v) {c : α} (hc : c ∈ v) : (∃ a ∈ l, key a = key c) ∨ ∃ b ∈ r, key b = key c := by
  have hk := h.find (key c)
  rw [h.sorted.find_of_mem hc] at hk
  rcases hl : Keyed.find key l (key c) with _ | a
  · rcases hr : Keyed.find key r (key c) with _ | b
    · rw [hl, hr] at hk
      cases hk
    · exact .inr ⟨b, find_some hr⟩
  · exact .inl ⟨a, find_some hl⟩

theorem Union.cases (h : Union key f l r v) {c : α} (hc : c ∈ v) :
    c ∈ l ∨ c ∈ r ∨ ∃ a ∈ l, ∃ b ∈ r, key a = key b ∧ f a b = .ok c := by
  have hk := h.find (key c)
  rw [h.sorted.find_of_mem hc] at hk
  rcases hl : Keyed.find key l (key c) with _ | a <;> rcases hr : Keyed.find key r (key c) with _ | b <;> rw [hl, hr] at hk
  · cases hk
  · obtain rfl := Option.some.inj (ok.inj hk)
    exact .inr (.inl (find_some hr).1)
  · obtain rfl := Option.some.inj (ok.inj hk)
    exact .inl (find_some hl).1
  · obtain ⟨c', hc', he⟩ := Result.map_ok hk
    obtain rfl := Option.some.inj he
    obtain ⟨ha, hka⟩ := find_some hl
    obtain ⟨hb, hkb⟩ := find_some hr
    exact .inr (.inr ⟨a, ha, b, hb, hka.trans hkb.symm, hc'⟩)

theorem Union.exists_of_mem (h : Union key f l r v) {a : α} (ha : a ∈ l ∨ a ∈ r) : ∃ c ∈ v, key c = key a := by
  cases hv : Keyed.find key v (key a) with
  | some c => exact ⟨c, find_some hv⟩
  | none =>
    have hk := h.find (key a)
    rw [hv] at hk
    rcases hl : Keyed.find key l (key a) with _ | x <;> rcases hr : Keyed.find key r (key a) with _ | y <;> rw [hl, hr] at hk
    · rcases ha with ha | ha
      · exact absurd rfl (find_eq_none.1 hl a ha)
      · exact absurd rfl (find_eq_none.1 hr a ha)
    · cases hk
    · cases hk
    · obtain ⟨z, -, hz⟩ := Result.map_ok hk
      cases hz

theorem Union.exists_iff (h : Union key f l r v) {P : α → Prop}
    (hP : ∀ a ∈ l, ∀ b ∈ r, ∀ c, key a = key b → f a b = .ok c → (P c ↔ P a ∨ P b)) (k : κ) :
    (∃ c, Keyed.find key v k = some c ∧ P c) ↔
      (∃ a, Keyed.find key l k = some a ∧ P a) ∨ ∃ b, Keyed.find key r k = some b ∧ P b := by
  have hk := h.find k
  rcases hl : Keyed.find key l k with _ | a <;> rcases hr : Keyed.find key r k with _ | b <;> rw [hl, hr] at hk
  · simp [← ok.inj hk]
  · simp [← ok.inj hk]
  · simp [← ok.inj hk]
  · obtain ⟨c, hc, hkc⟩ := Result.map_ok hk
    obtain ⟨ha, hka⟩ := find_some hl
    obtain ⟨hb, hkb⟩ := find_some hr
    simpa [← hkc] using hP a ha b hb c (hka.trans hkb.symm) hc

theorem Union.left {a : α} (h : Union key f l r v) (hv : ∀ b ∈ l, key a < key b) (hr : ∀ b ∈ r, key a < key b) :
    Union key f (a :: l) r (a :: v) := by
  refine ⟨h.sorted.cons fun c hc => ?_, fun k => ?_⟩
  · rcases h.mem hc with ⟨b, hb, hbc⟩ | ⟨b, hb, hbc⟩
    · exact hbc ▸ hv b hb
    · exact hbc ▸ hr b hb
  · rw [find_cons, find_cons]
    split_ifs with hk
    · rw [find_none_of_lt fun b hb => hk ▸ hr b hb]
      rfl
    · exact h.find k

theorem Union.right {b : α} (h : Union key f l r v) (hl : ∀ a ∈ l, key b < key a) (hr : ∀ a ∈ r, key b < key a) :
    Union key f l (b :: r) (b :: v) := by
  refine ⟨h.sorted.cons fun c hc => ?_, fun k => ?_⟩
  · rcases h.mem hc with ⟨a, ha, hac⟩ | ⟨a, ha, hac⟩
    · exact hac ▸ hl a ha
    · exact hac ▸ hr a ha
  · rw [find_cons, find_cons]
    split_ifs with hk
    · rw [find_none_of_lt fun a ha => hk ▸ hl a ha]
      rfl
    · exact h.find k

theorem Union.both {a b c : α} (h : Union key f l r v) (hl : ∀ x ∈ l, key a < key x) (hr : ∀ x ∈ r, key b < key x)
    (hab : key a = key b) (hc : f a b = .ok c) (hkc : key c = key a) : Union key f (a :: l) (b :: r) (c :: v) := by
  refine ⟨h.sorted.cons fun d hd => ?_, fun k => ?_⟩
  · rw [hkc]
    rcases h.mem hd with ⟨x, hx, hxd⟩ | ⟨x, hx, hxd⟩
    · exact hxd ▸ hl x hx
    · exact hxd ▸ hab ▸ hr x hx
  · rw [find_cons, find_cons, find_cons, ← hab, hkc]
    split_ifs with hk
    · rw [Result.join, hc]
      rfl
    · exact h.find k

theorem union_nil_left (hr : Sorted key r) : Union key f [] r r := ⟨hr, fun _ => rfl⟩

theorem union_nil_right (hl : Sorted key l) : Union key f l [] l :=
  ⟨hl, fun k => by cases h : Keyed.find key l k <;> rfl⟩

theorem zip_union (hl : Sorted key l) (hr : Sorted key r)
    (hf : ∀ a ∈ l, ∀ b ∈ r, key a = key b → ∃ c, f a b = .ok c ∧ key c = key a) (fuel : ℕ) (hfuel : l.length + r.length ≤ fuel) :
    ∃ v, zip key f fuel l r = .ok v ∧ Union key f l r v := by
  induction fuel generalizing l r with
  | zero =>
    obtain rfl : l = [] := length_eq_zero_iff.1 (by omega)
    obtain rfl : r = [] := length_eq_zero_iff.1 (by simpa using hfuel)
    exact ⟨[], rfl, union_nil_left hr⟩
  | succ fuel ih =>
    rcases l with _ | ⟨a, l⟩ <;> rcases r with _ | ⟨b, r⟩
    · exact ⟨[], rfl, union_nil_left hr⟩
    · obtain ⟨v, hv, hu⟩ := ih hl hr.of_cons (fun _ h => nomatch h) (by simpa using hfuel)
      exact ⟨b :: v, by rw [zip, hv]; rfl, hu.right (fun _ h => nomatch h) fun x hx => hr.lt_of_cons hx⟩
    · obtain ⟨v, hv, hu⟩ := ih hl.of_cons hr (fun _ _ _ h => nomatch h) (by simpa using hfuel)
      exact ⟨a :: v, by rw [zip, hv]; rfl, hu.left (fun x hx => hl.lt_of_cons hx) fun _ h => nomatch h⟩
    · simp only [length_cons] at hfuel
      rw [zip]
      split_ifs with h1 h2
      · obtain ⟨v, hv, hu⟩ := ih hl.of_cons hr (fun x hx => hf x (mem_cons_of_mem _ hx))
          (by rw [length_cons]; omega)
        refine ⟨a :: v, by rw [hv]; rfl, hu.left (fun x hx => hl.lt_of_cons hx) fun x hx => ?_⟩
        rcases mem_cons.1 hx with rfl | hx
        · exact h1
        · exact h1.trans (hr.lt_of_cons hx)
      · obtain ⟨v, hv, hu⟩ := ih hl hr.of_cons (fun x hx y hy => hf x hx y (mem_cons_of_mem _ hy))
          (by rw [length_cons]; omega)
        refine ⟨b :: v, by rw [hv]; rfl, hu.right (fun x hx => ?_) fun x hx => hr.lt_of_cons hx⟩
        rcases mem_cons.1 hx with rfl | hx
        · exact h2
        · exact h2.trans (hl.lt_of_cons hx)
      · have hab : key a = key b := le_antisymm (not_lt.1 h2) (not_lt.1 h1)
        obtain ⟨c, hc, hkc⟩ := hf a mem_cons_self b mem_cons_self hab
        obtain ⟨v, hv, hu⟩ := ih hl.of_cons hr.of_cons
          (fun x hx y hy => hf x (mem_cons_of_mem _ hx) y (mem_cons_of_mem _ hy)) (by omega)
        exact ⟨c :: v, by rw [hc, hv]; rfl,
          hu.both (fun x hx => hl.lt_of_cons hx) (fun x hx => hr.lt_of_cons hx) hab hc hkc⟩

theorem subset_of_covers (fuel : ℕ) (l r : List α) :
    ((covers key p fuel l r).1 = true → ∀ b ∈ r, b ∈ l) ∧ ((covers key p fuel l r).2 = true → ∀ a ∈ l, a ∈ r) := by
  induction fuel generalizing l r with
  | zero => exact ⟨(nomatch ·), (nomatch ·)⟩
  | succ fuel ih =>
    rcases l with _ | ⟨a, l⟩ <;> rcases r with _ | ⟨b, r⟩
    · exact ⟨fun _ _ h => h, fun _ _ h => h⟩
    · exact ⟨(nomatch ·), fun _ _ h => nomatch h⟩
    · exact ⟨fun _ _ => (nomatch ·), (nomatch ·)⟩
    · rw [covers]
      split_ifs with h1 h2 h3
      · exact ⟨fun h x hx => mem_cons_of_mem a ((ih l (b :: r)).1 h x hx), (nomatch ·)⟩
      · exact ⟨(nomatch ·), fun h x hx => mem_cons_of_mem b ((ih (a :: l) r).2 h x hx)⟩
      · obtain rfl := p.eq_of_same h3
        exact ⟨fun h _ => (cons_subset_cons a ((ih l r).1 h ·) ·), fun h _ => (cons_subset_cons a ((ih l r).2 h ·) ·)⟩
      · exact ⟨(nomatch ·), (nomatch ·)⟩

theorem union_of_subset_left (hl : Sorted key l) (hid : ∀ a ∈ l, a ∈ r → f a a = .ok a) (h : ∀ b ∈ r, b ∈ l) :
    Union key f l r l := by
  refine ⟨hl, fun k => ?_⟩
  rcases hr : Keyed.find key r k with _ | b
  · cases Keyed.find key l k <;> rfl
  · obtain ⟨hb, rfl⟩ := find_some hr
    rw [hl.find_of_mem (h b hb), Result.join, hid b (h b hb) hb]
    rfl

theorem union_of_subset_right (hr : Sorted key r) (hid : ∀ a ∈ l, a ∈ r → f a a = .ok a) (h : ∀ a ∈ l, a ∈ r) :
    Union key f l r r := by
  refine ⟨hr, fun k => ?_⟩
  rcases hl : Keyed.find key l k with _ | a
  · rfl
  · obtain ⟨ha, rfl⟩ := find_some hl
    rw [hr.find_of_mem (h a ha), Result.join, hid a ha (h a ha)]
    rfl

theorem merge_union (hl : Sorted key l) (hr : Sorted key r)
    (hf : ∀ a ∈ l, ∀ b ∈ r, key a = key b → ∃ c, f a b = .ok c ∧ key c = key a)
    (hid : ∀ a ∈ l, a ∈ r → f a a = .ok a) : ∃ v, merge key p f l r = .ok v ∧ Union key f l r v := by
  unfold merge
  split_ifs with h1 h2 h3 h4 h5
  · exact ⟨r, rfl, h1 ▸ union_nil_left hr⟩
  · exact ⟨l, rfl, h2 ▸ union_nil_right hl⟩
  · exact ⟨l, rfl, union_of_subset_left hl hid fun b hb => p.eq_of_same h3 ▸ hb⟩
  · exact ⟨l, rfl, union_of_subset_left hl hid ((subset_of_covers _ l r).1 h4)⟩
  · exact ⟨r, rfl, union_of_subset_right hr hid ((subset_of_covers _ l r).2 h5)⟩
  · exact zip_union hl hr hf _ le_rfl

theorem Union.unique {v' : List α} (h : Union key f l r v) (h' : Union key f l r v') : v = v' :=
  h.sorted.ext h'.sorted fun k => ok.inj ((h.find k).symm.trans (h'.find k))

end Merge

end CntSortedVector
end Ton.Session
