import Ton.Lib.Enumeration
import Ton.Dict.Seeking
/-!
# What iterators enumerate

A dictionary with the list of its keys in the order of an iterator. Whatever was called
before, the iterator stands at a key of the list or at the end, and `rewind`, `next` and
`lookup` move it along the list (`iterator_enumerates`).
-/

namespace Ton.Dict
open List hiding after lookup next
open Result BitMap BitOrder DictIterator Enumeration Option
open Prod (fst)

/-! ## The list of the keys -/

theorem Readable.exists_keys {label_mode : Check} {n : Nat} {f : BitMap CellSlice} {c : DataCell} (h : Readable label_mode n f c) (d e : Bool) :
    ∃ ks : List (List Bool), (∀ k, k ∈ ks ↔ (f k).isSome = true) ∧ ks.Pairwise (Ahead d e) := by
  induction h generalizing d with
  | @leaf label v c p hp hr =>
    refine ⟨[label], fun k => ?_, pairwise_singleton _ _⟩
    rw [mem_singleton]
    constructor
    · intro hk
      have hval := under_append label [] (single v)
      rw [append_nil, single_nil] at hval
      rw [hk, hval]
      rfl
    · intro hk
      obtain ⟨w, hw⟩ := isSome_iff_exists.1 hk
      obtain ⟨r, rfl, hr⟩ := under_some hw
      rw [(single_some hr).1, append_nil]
  | @fork label bits m f g c1 c2 c refs p hp hr h1 h2 ih1 ih2 =>
    have hside : ∀ b : Bool, ∃ ks : List (List Bool), (∀ k, k ∈ ks ↔ ((if b then g else f) k).isSome = true) ∧ ks.Pairwise (Ahead e e) := by
      intro b
      cases b with
      | false => exact ih1 e
      | true => exact ih2 e
    -- the keys of the branch in the direction come first
    obtain ⟨ks, hks, hks'⟩ := hside (after label d e)
    obtain ⟨ls, hls, hls'⟩ := hside (!after label d e)
    have hmap : ∀ (b : Bool) {ks : List (List Bool)}, ks.Pairwise (Ahead e e) → (ks.map (label ++ b :: ·)).Pairwise (Ahead d e) := by
      intro b ks hpair
      refine hpair.map _ fun x y hxy => ?_
      rwa [ahead_append, ahead_cons_self]
    refine ⟨ks.map (label ++ after label d e :: ·) ++ ls.map (label ++ (!after label d e) :: ·), fun k => ?_,
      pairwise_append.2 ⟨hmap _ hks', hmap _ hls', ?_⟩⟩
    · rw [mem_append, List.mem_map, List.mem_map]
      constructor
      · rintro (⟨r, hr, rfl⟩ | ⟨r, hr, rfl⟩)
        · rw [under_split_append]
          exact (hks r).1 hr
        · rw [under_split_append]
          exact (hls r).1 hr
      · intro hk
        obtain ⟨w, hw⟩ := isSome_iff_exists.1 hk
        obtain ⟨s, rfl, hs⟩ := under_some hw
        obtain ⟨b, r, rfl, hr⟩ := split_some hs
        by_cases hb : b = after label d e
        · subst hb
          exact .inl ⟨r, (hks r).2 (by rw [hr]; rfl), rfl⟩
        · obtain rfl : b = !after label d e := Bool.eq_not.2 hb
          exact .inr ⟨r, (hls r).2 (by rw [hr]; rfl), rfl⟩
    · intro x hx y hy
      obtain ⟨x, -, rfl⟩ := List.mem_map.1 hx
      obtain ⟨y, -, rfl⟩ := List.mem_map.1 hy
      rw [ahead_part _ _ _ (Bool.not_ne_self _).symm]

theorem ReadableRoot.exists_keys {label_mode : Check} {n : Nat} {f : BitMap CellSlice} {o : Option DataCell} (h : ReadableRoot label_mode n f o)
    (d e : Bool) : ∃ ks : List (List Bool), (∀ k, k ∈ ks ↔ (f k).isSome = true) ∧ ks.Pairwise (Ahead d e) := by
  cases o with
  | none =>
    rw [show f = empty from h]
    exact ⟨[], fun k => by simp [empty], List.Pairwise.nil⟩
  | some c => exact Readable.exists_keys h d e

/-! ## compare_keys -/

theorem bits_memcmp_spec {a b : List Bool} (hl : a.length = b.length) :
    (bits_memcmp a b < 0 ↔ Ahead false false a b) ∧ (0 < bits_memcmp a b ↔ Ahead false false b a) := by
  induction a generalizing b with
  | nil =>
    obtain rfl : b = [] := length_eq_zero_iff.1 hl.symm
    exact ⟨iff_of_false (lt_irrefl _) ahead_nil_left, iff_of_false (lt_irrefl _) ahead_nil_left⟩
  | cons x a ih =>
    cases b with
    | nil => cases hl
    | cons y b =>
      rw [bits_memcmp]
      by_cases hxy : x = y
      · subst hxy
        rw [if_pos rfl, ahead_cons_self, ahead_cons_self]
        exact ih (by simpa using hl)
      · rw [if_neg hxy, ahead_cons_of_ne hxy, ahead_cons_of_ne (Ne.symm hxy)]
        cases x <;> cases y <;> simp_all

theorem compare_keys_spec {it : DictIterator} {d e : Bool} (h0 : 0 < it.key_bits_) (horder : it.order_ = modeOf d e) {a b : List Bool}
    (ha : a.length = it.key_bits_) (hb : b.length = it.key_bits_) :
    (it.compare_keys a b < 0 ↔ Ahead d e a b) ∧ (0 < it.compare_keys a b ↔ Ahead d e b a) := by
  have horder' : it.order_ ≥ 0 ↔ e = false := by
    rw [horder]
    cases d <;> cases e <;> decide
  have hfirst : it.order_ % 2 = 1 ↔ d = true := by
    rw [horder]
    cases d <;> cases e <;> decide
  cases a with
  | nil => simp only [length_nil] at ha; omega
  | cons x a =>
    cases b with
    | nil => simp only [length_nil] at hb; omega
    | cons y b =>
      have hl : a.length = b.length := by simpa using ha.trans hb.symm
      rw [compare_keys, if_neg (by omega), take_of_length_le (by omega), take_of_length_le (by omega)]
      dsimp only
      rw [if_congr hfirst rfl rfl, if_congr horder' rfl rfl, headD_cons, headD_cons, bits_memcmp]
      by_cases hxy : x = y
      · subst hxy
        obtain ⟨hlt, hgt⟩ := bits_memcmp_spec hl
        rw [ahead_cons_self, ahead_cons_self, if_pos rfl]
        rw [if_neg (by simp)]
        cases e with
        | false =>
          rw [if_pos rfl]
          exact ⟨hlt, hgt⟩
        | true =>
          rw [if_neg (by simp), Int.neg_lt_zero_iff, Int.neg_pos, hlt, hgt]
          exact ⟨(ahead_not hl).symm, (ahead_not hl.symm).symm⟩
      · rw [ahead_cons_of_ne hxy, ahead_cons_of_ne (Ne.symm hxy)]
        cases x <;> cases y <;> cases d <;> simp_all

/-! ## One place for one key -/

section Unique
variable {label_mode : Check} {root : DataCell} {n : Nat} {f : BitMap CellSlice} {path path' : List Fork} {key : List Bool} {val val' : CellSlice}

section
variable (h : AtLeaf label_mode root n f path key val) (h' : AtLeaf label_mode root n f path' key val')
include h h'

theorem AtLeaf.length_le : path'.length ≤ path.length := by
  obtain ⟨pre, label, c, p, htrail, hp, hr, hm, hkey⟩ := h.leads
  obtain ⟨pre', label', c', p', htrail', -, -, -, hkey'⟩ := h'.leads
  by_contra hlt
  have hsplit : path' = path'.take (path'.length - path.length - 1) ++ path'.drop (path'.length - path.length - 1) := (take_append_drop ..).symm
  rw [hsplit] at htrail'
  obtain ⟨pre₁, c₁, g₁, hcons, hpre₁⟩ := htrail'.drop
  have hlen : (path'.drop (path'.length - path.length - 1)).length = path.length + 1 := by
    rw [length_drop]
    omega
  generalize path'.drop (path'.length - path.length - 1) = tail at hcons hlen
  have hpfx : pre₁ <+: key := hpre₁.trans (hkey' ▸ prefix_append _ _)
  cases hcons with
  | nil => cases hlen
  | @cons tail pre₂ label₂ bits c₂ c1 c2 refs g₀ g₁ m q b h₂ hq hr₂ hm₂ h1 h2 =>
    obtain ⟨-, rfl, rfl⟩ := htrail.unique h₂ (hkey ▸ prefix_append _ _) ((prefix_append _ _).trans ((prefix_append _ _).trans hpfx))
      (by simpa using hlen.symm)
    obtain rfl : p = q := Except.ok.inj (hp.symm.trans hq)
    obtain ⟨rfl, -⟩ := hr.unique hr₂
    omega

theorem AtLeaf.unique : path = path' := by
  obtain ⟨pre, label, c, p, htrail, -, -, -, hkey⟩ := h.leads
  obtain ⟨pre', label', c', p', htrail', -, -, -, hkey'⟩ := h'.leads
  exact (htrail.unique htrail' (hkey ▸ prefix_append _ _) (hkey' ▸ prefix_append _ _) (Nat.le_antisymm (h'.length_le h) (h.length_le h'))).1

end

theorem Stands.unique {order : Int} {it it' : DictIterator} {p : List Bool × CellSlice} (h : Stands label_mode root n order f it (some p))
    (h' : Stands label_mode root n order f it' (some p)) : it = it' := by
  obtain ⟨key, val⟩ := p
  cases h with
  | key hit hat hleaf =>
    generalize hkey : it.key_buffer = key at h' hat
    cases h' with
    | key hit' hat' hleaf' =>
      obtain ⟨r, l, b, ord, k, path, leaf⟩ := it
      obtain ⟨r', l', b', ord', k', path', leaf'⟩ := it'
      have hpath := hat.unique hat'
      have h1 := hit.root_eq.trans hit'.root_eq.symm
      have h2 := hit.mode_eq.trans hit'.mode_eq.symm
      have h3 := hit.bits_eq.trans hit'.bits_eq.symm
      have h4 := hit.order_eq.trans hit'.order_eq.symm
      dsimp only at hpath h1 h2 h3 h4 hkey hleaf hleaf'
      rw [hpath, h1, h2, h3, h4, hkey, hleaf, hleaf']

end Unique

/-! ## Iterators of a dictionary -/

section Spot
variable (dict : DictionaryFixed) (d e : Bool) (f : BitMap CellSlice)

/-- The iterator stands at a key of the dictionary or at the end. -/
inductive Spot (it : DictIterator) : Option (List Bool × CellSlice) → Prop
  | null (hroot : dict.root_cell = none) (hnull : it.root_ = none) (hvalid : it.is_valid = true) (bits_eq : it.key_bits_ = dict.key_bits)
      (order_eq : it.order_ = modeOf d e) (hleaf : it.leaf_ = none) : Spot it none
  | rooted {root : DataCell} {o : Option (List Bool × CellSlice)} (hroot : dict.root_cell = some root)
      (hs : Stands dict.methods.label_mode root dict.key_bits (modeOf d e) f it o) : Spot it o

variable {dict d e f} {it : DictIterator} {o : Option (List Bool × CellSlice)}

theorem Spot.cur_pos (h : Spot dict d e f it o) : it.cur_pos = o.map fst ∧ it.cur_value_raw = o.map Prod.snd ∧ it.eof = o.isNone := by
  cases h with
  | null hroot hnull hvalid bits_eq order_eq hleaf => simp [DictIterator.cur_pos, cur_value_raw, eof, hleaf]
  | rooted hroot hs =>
    cases hs with
    | eof hit hpath hleaf => simp [DictIterator.cur_pos, cur_value_raw, eof, hleaf]
    | key hit hat hleaf => simp [DictIterator.cur_pos, cur_value_raw, eof, hleaf]

theorem Spot.constants (h : Spot dict d e f it o) : it.key_bits_ = dict.key_bits ∧ it.order_ = modeOf d e := by
  cases h with
  | null hroot hnull hvalid bits_eq order_eq hleaf => exact ⟨bits_eq, order_eq⟩
  | rooted hroot hs =>
    cases hs with
    | eof hit hpath hleaf => exact ⟨hit.bits_eq, hit.order_eq⟩
    | key hit hat hleaf => exact ⟨hit.bits_eq, hit.order_eq⟩

theorem Spot.unique {it' : DictIterator} {p : List Bool × CellSlice} (h : Spot dict d e f it (some p)) (h' : Spot dict d e f it' (some p)) :
    it = it' := by
  cases h with
  | rooted hroot hs =>
    cases h' with
    | rooted hroot' hs' =>
      obtain rfl := Option.some.inj (hroot.symm.trans hroot')
      exact hs.unique hs'

theorem firstOf_empty (wanted : List Bool → Prop) : FirstOf d e empty wanted none := .absent fun k v hk => by cases hk

theorem Spot.rewind (hd : ReadableRoot dict.methods.label_mode dict.key_bits f dict.root_cell) (h : Spot dict d e f it o) (to_end : Bool) :
    ∃ it' o', it.rewind to_end = .ok (it', true) ∧ Spot dict d e f it' o' ∧ FirstOf (d ^^ to_end) (e ^^ to_end) f (fun _ => True) o' := by
  cases h with
  | null hroot hnull hvalid bits_eq order_eq hleaf =>
    rw [hroot] at hd
    obtain rfl : f = empty := hd
    refine ⟨it, none, ?_, .null hroot hnull hvalid bits_eq order_eq hleaf, firstOf_empty _⟩
    rw [DictIterator.rewind, hvalid, hnull]
    rfl
  | @rooted root o hroot hs =>
    rw [hroot] at hd
    obtain ⟨⟨it', o', hr, hs', ho⟩, it'', hr'⟩ := rewind_spec hs hd to_end
    have hsome := (Prod.ext_iff.1 (Except.ok.inj (hr.symm.trans hr'))).2
    dsimp only at hsome
    refine ⟨it', o', ?_, .rooted hroot hs', ho⟩
    rw [hr, hsome]

theorem Spot.next {key : List Bool} {val : CellSlice} (h : Spot dict d e f it (some (key, val))) (back : Bool) : ∃ it' o',
    it.next back = .ok (it', o'.isSome) ∧ Spot dict d e f it' o' ∧
      FirstOf (d ^^ back) (e ^^ back) f (Ahead (d ^^ back) (e ^^ back) key) o' := by
  cases h with
  | rooted hroot hs =>
    obtain ⟨it', o', hr, hs', ho⟩ := next_spec hs back
    exact ⟨it', o', hr, .rooted hroot hs', ho⟩

theorem Spot.next_eof (h : Spot dict d e f it none) (back : Bool) : it.next back = .ok (it, false) := by
  have heof := h.cur_pos.2.2
  rw [DictIterator.next, heof, isNone_none, Bool.or_true, if_pos rfl]

theorem Spot.lookup (hd : ReadableRoot dict.methods.label_mode dict.key_bits f dict.root_cell) (h : Spot dict d e f it o) {pos : List Bool}
    (hpos : pos.length ≤ dict.key_bits) (strict_after back : Bool) : ∃ it' o', it.lookup pos strict_after back = .ok (it', o'.isSome) ∧
      Spot dict d e f it' o' ∧ FirstOf (d ^^ back) (e ^^ back) f (Beyond (d ^^ back) (e ^^ back) pos strict_after) o' := by
  cases h with
  | null hroot hnull hvalid bits_eq order_eq hleaf =>
    rw [hroot] at hd
    obtain rfl : f = empty := hd
    refine ⟨it, none, ?_, .null hroot hnull hvalid bits_eq order_eq hleaf, firstOf_empty _⟩
    rw [DictIterator.lookup, hnull, if_pos (by simp)]
    rfl
  | rooted hroot hs =>
    rw [hroot] at hd
    obtain ⟨it', o', hr, hs', ho⟩ := lookup_spec hs hd hpos strict_after back
    exact ⟨it', o', hr, .rooted hroot hs', ho⟩

end Spot

/-! ## Moves along the list -/

section Along
variable {dict : DictionaryFixed} {d e : Bool} {f : BitMap CellSlice} {it : DictIterator} {o : Option (List Bool × CellSlice)}
  {ks : List (List Bool)} {wanted : List Bool → Prop} {k pos : List Bool} {n : Nat}

theorem FirstOf.firstIn (h : FirstOf d e f wanted o) (hks : ∀ k, k ∈ ks ↔ (f k).isSome = true) : FirstIn (Ahead d e) ks wanted (o.map fst) := by
  have hmem : ∀ {k}, k ∈ ks → ∃ v, f k = some v := fun {k} hk => isSome_iff_exists.1 ((hks k).1 hk)
  cases h with
  | absent h =>
    refine .absent fun k hk => ?_
    obtain ⟨v, hv⟩ := hmem hk
    exact h k v hv
  | @found key val hval hwanted h =>
    refine .found ((hks key).2 (by rw [hval]; rfl)) hwanted fun k hk => ?_
    obtain ⟨v, hv⟩ := hmem hk
    exact h k v hv

theorem past_iff (hk : k.length = n) (hpos : pos.length ≤ n) : Past d e pos k ↔ ∀ x, x.length = n → pos <+: x → Ahead d e x k := by
  constructor
  · rintro h x hx ⟨q, rfl⟩
    exact h.ahead (hx.trans hk.symm)
  · intro h
    by_contra hpast
    by_cases hp : pos <+: k
    · exact ahead_irrefl d e k (h k hk hp)
    · have hlen : (pos ++ List.replicate (n - pos.length) false).length = n := by
        rw [length_append, length_replicate]
        omega
      exact (ahead_of_not_past hpast hp (hlen.trans hk.symm)).asymm (h _ hlen (prefix_append _ _))

/-- The keys at or behind a prefix, by the keys that start with it. -/
theorem beyond_iff (hk : k.length = n) (hpos : pos.length ≤ n) (strict_after : Bool) : Beyond d e pos strict_after k ↔
    if strict_after then ∀ x, x.length = n → pos <+: x → Ahead d e x k else ∃ x, x.length = n ∧ pos <+: x ∧ (x = k ∨ Ahead d e x k) := by
  cases strict_after with
  | true => rw [if_pos rfl, ← past_iff hk hpos, Beyond, or_iff_left (by simp)]
  | false =>
    rw [if_neg Bool.false_ne_true]
    constructor
    · rintro (hpast | ⟨-, hp⟩)
      · have hlen : (pos ++ List.replicate (n - pos.length) false).length = n := by
          rw [length_append, length_replicate]
          omega
        exact ⟨_, hlen, prefix_append _ _, .inr ((past_iff hk hpos).1 hpast _ hlen (prefix_append _ _))⟩
      · exact ⟨k, hk, hp, .inl rfl⟩
    · rintro ⟨x, hx, hp, rfl | hahead⟩
      · exact .inr ⟨rfl, hp⟩
      · by_cases hpk : pos <+: k
        · exact .inr ⟨rfl, hpk⟩
        · left
          by_contra hpast
          obtain ⟨q, rfl⟩ := hp
          exact (ahead_of_not_past hpast hpk (hx.trans hk.symm)).asymm hahead

/-- One key is before another in the direction of the search. -/
def DictIterator.Before (it : DictIterator) (backw : Bool) (a b : List Bool) : Prop :=
    if backw then 0 < it.compare_keys a b else it.compare_keys a b < 0

/-- The key is at or after the keys that start with `pos`, or after all of them if `strict_after`. -/
def DictIterator.Sought (it : DictIterator) (pos : List Bool) (strict_after backw : Bool) (k : List Bool) : Prop :=
  if strict_after then ∀ x, x.length = it.key_bits_ → pos <+: x → it.Before backw x k
  else ∃ x, x.length = it.key_bits_ ∧ pos <+: x ∧ (x = k ∨ it.Before backw x k)

/-- The iterator stands at the first of the keys, or at the end if there is none. -/
def DictIterator.At (it : DictIterator) (f : BitMap CellSlice) (todo : List (List Bool)) : Prop :=
  it.cur_pos = todo.head? ∧ it.cur_value_raw = todo.head?.bind f

/-- The keys that `next` visits from where the iterator stands, and the iterator after that. -/
def DictIterator.visits : Nat → DictIterator → Except Exc (List (List Bool) × DictIterator)
  | 0, it => .ok ([], it)
  | m + 1, it =>
    match it.cur_pos with
    | none => .ok ([], it)
    | some key => do
      let (it, _) ← it.next false
      let (keys, last) ← visits m it
      .ok (key :: keys, last)

theorem before_iff (h0 : 0 < it.key_bits_) (horder : it.order_ = modeOf d e) {a b : List Bool} (ha : a.length = it.key_bits_)
    (hb : b.length = it.key_bits_) (back : Bool) : it.Before back a b ↔ Ahead (d ^^ back) (e ^^ back) a b := by
  obtain ⟨hlt, hgt⟩ := compare_keys_spec h0 horder ha hb
  cases back with
  | false =>
    rw [Before, if_neg Bool.false_ne_true, hlt, Bool.xor_false, Bool.xor_false]
  | true =>
    rw [Before, if_pos rfl, hgt, Bool.xor_true, Bool.xor_true, ahead_not (ha.trans hb.symm)]

theorem sought_iff (h0 : 0 < it.key_bits_) (horder : it.order_ = modeOf d e) (hk : k.length = it.key_bits_) (hpos : pos.length ≤ it.key_bits_)
    (strict_after back : Bool) : it.Sought pos strict_after back k ↔ Beyond (d ^^ back) (e ^^ back) pos strict_after k := by
  rw [beyond_iff hk hpos, Sought]
  have hbefore := fun {x : List Bool} (hx : x.length = it.key_bits_) => before_iff h0 horder hx hk back
  cases strict_after with
  | true =>
    rw [if_pos rfl, if_pos rfl]
    exact forall_congr' fun x => forall_congr' fun hx => by rw [hbefore hx]
  | false =>
    rw [if_neg Bool.false_ne_true, if_neg Bool.false_ne_true]
    exact exists_congr fun x => and_congr_right fun hx => by rw [hbefore hx]

theorem Spot.value {key : List Bool} {val : CellSlice} (h : Spot dict d e f it (some (key, val))) : f key = some val := by
  cases h with
  | rooted hroot hs =>
    cases hs with
    | key hit hat hleaf =>
      obtain ⟨-, -, -, -, -, -, hval, -⟩ := hat.exists_trail (d := d) (e := e)
      exact hval

theorem Spot.at_iff (h : Spot dict d e f it o) (todo : List (List Bool)) : it.At f todo ↔ o.map fst = todo.head? := by
  obtain ⟨hpos, hval, -⟩ := h.cur_pos
  rw [At, hpos, hval]
  refine and_iff_left_of_imp fun htodo => ?_
  rw [← htodo]
  cases o with
  | none => rfl
  | some p => exact h.value.symm

end Along

/-! ## Histories -/

/-- The iterators of a dictionary that calls lead to. -/
inductive DictIterator.Reachable (dict : DictionaryFixed) (mode : Nat) : DictIterator → Prop
  | start {key_buffer : List Bool} (h : key_buffer.length = dict.key_bits) : Reachable dict mode (DictIterator.of dict mode key_buffer)
  | rewind {it it' : DictIterator} {to_end res : Bool} (h : Reachable dict mode it) (hcall : it.rewind to_end = .ok (it', res)) :
      Reachable dict mode it'
  | next {it it' : DictIterator} {go_back res : Bool} (h : Reachable dict mode it) (hcall : it.next go_back = .ok (it', res)) : Reachable dict mode it'
  | lookup {it it' : DictIterator} {pos : List Bool} {strict_after backw res : Bool} (h : Reachable dict mode it)
      (hcall : it.lookup pos strict_after backw = .ok (it', res)) : Reachable dict mode it'

/-- The directions of a mode, at the first bit and at the others. -/
theorem of_order (mode : Nat) : minmax_mode (mode % 2 = 1) (mode / 2 % 2 = 1) = modeOf (decide (mode % 2 = 1) ^^ decide (mode / 2 % 2 = 1))
    (mode % 2 = 1) :=
  minmax_mode_eq _ _

section Histories
variable {dict : DictionaryFixed} {mode : Nat} {f : BitMap CellSlice} {it : DictIterator}

theorem DictIterator.Reachable.spot (hd : ReadableRoot dict.methods.label_mode dict.key_bits f dict.root_cell) (h0 : 1 ≤ dict.key_bits)
    (hmax : dict.key_bits ≤ max_key_bits) (h : Reachable dict mode it) :
    ∃ o, Spot dict (decide (mode % 2 = 1) ^^ decide (mode / 2 % 2 = 1)) (mode % 2 = 1) f it o := by
  induction h with
  | @start key_buffer hkey =>
    refine ⟨none, ?_⟩
    rw [DictIterator.of, if_pos ⟨h0, hmax⟩]
    cases hroot : dict.root_cell with
    | none => exact .null hroot rfl (by simp [is_valid, h0, hmax, Nat.lt_of_succ_le]) rfl (of_order mode) rfl
    | some root => exact .rooted hroot (.eof ⟨rfl, rfl, rfl, of_order mode, hkey, h0, hmax⟩ rfl rfl)
  | rewind h hcall ih =>
    obtain ⟨o, ho⟩ := ih
    obtain ⟨it', o', hr, ho', -⟩ := ho.rewind hd _
    cases hr.symm.trans hcall
    exact ⟨o', ho'⟩
  | @next it it' go_back res h hcall ih =>
    obtain ⟨o, ho⟩ := ih
    cases o with
    | none =>
      cases (ho.next_eof go_back).symm.trans hcall
      exact ⟨none, ho⟩
    | some p =>
      obtain ⟨it'', o', hr, ho', -⟩ := ho.next go_back
      cases hr.symm.trans hcall
      exact ⟨o', ho'⟩
  | @lookup it it' pos strict_after backw res h hcall ih =>
    obtain ⟨o, ho⟩ := ih
    by_cases hpos : pos.length ≤ dict.key_bits
    · obtain ⟨it'', o', hr, ho', -⟩ := ho.lookup hd hpos strict_after backw
      cases hr.symm.trans hcall
      exact ⟨o', ho'⟩
    · -- refused
      have hbits := ho.constants.1
      rw [DictIterator.lookup, if_pos (by simp; omega)] at hcall
      cases hcall
      exact ⟨o, ho⟩

/-- What calls do with an iterator, where `ks` are the keys of the dictionary. -/
structure DictIterator.Enumerates (it : DictIterator) (f : BitMap CellSlice) (ks : List (List Bool)) : Prop where
  sorted : ks.Pairwise fun a b => it.compare_keys a b < 0
  stands : ∃ done todo, ks = done ++ todo ∧ it.At f todo
  rewind : ∃ it', it.rewind false = .ok (it', true) ∧ it'.At f ks ∧ ∀ m ≥ ks.length, ∃ last, it'.visits m = .ok (ks, last) ∧ last.eof = true
  rewind_to_end : ∃ it', it.rewind true = .ok (it', true) ∧ it'.At f ks.getLast?.toList
  next : ∀ done key todo, ks = done ++ key :: todo → it.At f (key :: todo) → ∃ it', it.next false = .ok (it', !todo.isEmpty) ∧ it'.At f todo ∧
    (todo ≠ [] → it'.next true = .ok (it, true))
  next_back : ∀ done key todo, ks = done ++ key :: todo → it.At f (key :: todo) → ∃ it', it.next true = .ok (it', !done.isEmpty) ∧
    it'.At f done.getLast?.toList ∧ (done ≠ [] → it'.next false = .ok (it, true))
  next_eof : it.eof = true → ∀ go_back, it.next go_back = .ok (it, false)
  lookup : ∀ pos strict_after backw, pos.length ≤ it.key_bits_ → ∃ it', it.lookup pos strict_after backw = .ok (it', !it'.eof) ∧
    FirstIn (it.Before backw) ks (it.Sought pos strict_after backw) it'.cur_pos ∧ it'.At f it'.cur_pos.toList

section Enumerates
variable {d e : Bool} {o o' : Option (List Bool × CellSlice)} {it' : DictIterator} {ks done todo : List (List Bool)} {key : List Bool}

theorem Spot.determined (h : Spot dict d e f it o) (h' : Spot dict d e f it' o') (ho : o.map fst = some key) (ho' : o'.map fst = some key) :
    it = it' := by
  obtain ⟨⟨key, val⟩, rfl, rfl⟩ := map_eq_some_iff.1 ho
  obtain ⟨⟨key, val'⟩, rfl, rfl⟩ := map_eq_some_iff.1 ho'
  obtain rfl : val = val' := Option.some.inj (h.value.symm.trans h'.value)
  exact h.unique h'

section
variable (h : Spot dict d e f it o) (ho : o.map fst = some key) (hks : ∀ k, k ∈ ks ↔ (f k).isSome = true)
include h ho hks

theorem Spot.next_along (hpair : ks.Pairwise (Ahead d e)) (hsplit : ks = done ++ key :: todo) :
    ∃ it' o', it.next false = .ok (it', o'.isSome) ∧ Spot dict d e f it' o' ∧ o'.map fst = todo.head? := by
  obtain ⟨⟨key, val⟩, rfl, rfl⟩ := map_eq_some_iff.1 ho
  obtain ⟨it', o', hr, ho', hfirst⟩ := h.next false
  rw [Bool.xor_false, Bool.xor_false] at hfirst
  have hin := hfirst.firstIn hks
  subst hsplit
  exact ⟨it', o', hr, ho', hin.unique (fun a _ b _ hab => hab.asymm) (firstIn_next hpair fun a _ b _ hab => hab.asymm)⟩

theorem Spot.next_back_along (hlen : ∀ k ∈ ks, k.length = dict.key_bits) (hpair : ks.Pairwise (Ahead d e)) (hsplit : ks = done ++ key :: todo) :
    ∃ it' o', it.next true = .ok (it', o'.isSome) ∧ Spot dict d e f it' o' ∧ o'.map fst = done.getLast? := by
  obtain ⟨⟨key, val⟩, rfl, rfl⟩ := map_eq_some_iff.1 ho
  obtain ⟨it', o', hr, ho', hfirst⟩ := h.next true
  rw [Bool.xor_true, Bool.xor_true] at hfirst
  have hnot : ∀ {a b}, a ∈ ks → b ∈ ks → (Ahead (!d) (!e) a b ↔ Ahead d e b a) := fun ha hb => ahead_not ((hlen _ ha).trans (hlen _ hb).symm)
  have hkey : key ∈ ks := by
    rw [hsplit]
    simp
  have hin := (hfirst.firstIn hks).congr (fun k hk => hnot hkey hk) fun a ha b hb => (hnot ha hb).1
  subst hsplit
  exact ⟨it', o', hr, ho', hin.unique (fun a _ b _ hab => hab.asymm) (firstIn_prev hpair fun a _ b _ hab => hab.asymm)⟩

end

theorem Spot.visits (h : Spot dict d e f it o) (ho : o.map fst = todo.head?) (hks : ∀ k, k ∈ ks ↔ (f k).isSome = true)
    (hpair : ks.Pairwise (Ahead d e)) (hsplit : ks = done ++ todo) {m : Nat} (hm : todo.length ≤ m) :
    ∃ last, it.visits m = .ok (todo, last) ∧ last.eof = true := by
  induction todo generalizing it o done m with
  | nil =>
    obtain ⟨hpos, -, heof⟩ := h.cur_pos
    obtain rfl : o = none := map_eq_none_iff.1 ho
    refine ⟨it, ?_, heof⟩
    cases m with
    | zero => rfl
    | succ m => rw [DictIterator.visits, hpos]; rfl
  | cons key todo ih =>
    obtain ⟨it', o', hr, h', ho'⟩ := h.next_along ho hks hpair hsplit
    cases m with
    | zero => cases hm
    | succ m =>
      have hsplit' : ks = (done ++ [key]) ++ todo := by simp [hsplit]
      obtain ⟨last, hvisits, heof⟩ := ih h' ho' hsplit' (Nat.le_of_succ_le_succ hm)
      refine ⟨last, ?_, heof⟩
      rw [DictIterator.visits, h.cur_pos.1, ho]
      simp only [head?_cons, hr, ok_bind, hvisits]

theorem head?_toList {α : Type} (o : Option α) : o.toList.head? = o := by
  cases o <;> rfl

theorem isSome_of_fst {o : Option (List Bool × CellSlice)} {k : Option (List Bool)} (h : o.map fst = k) : o.isSome = k.isSome := by
  rw [← h, isSome_map]

theorem Spot.at_of_head (h : Spot dict d e f it o) (ho : o.map fst = todo.head?) : it.At f todo := (h.at_iff todo).2 ho

theorem Spot.enumerates (hd : ReadableRoot dict.methods.label_mode dict.key_bits f dict.root_cell) (h0 : 1 ≤ dict.key_bits)
    (hks : ∀ k, k ∈ ks ↔ (f k).isSome = true) (hpair : ks.Pairwise (Ahead d e)) (h : Spot dict d e f it o) : it.Enumerates f ks := by
  have hlen : ∀ k ∈ ks, k.length = dict.key_bits := by
    intro k hk
    obtain ⟨v, hv⟩ := isSome_iff_exists.1 ((hks k).1 hk)
    exact hd.length hv
  obtain ⟨hbits, horder⟩ := h.constants
  have hpos : 0 < it.key_bits_ := by omega
  have hbefore : ∀ {a b}, a ∈ ks → b ∈ ks → ∀ back, it.Before back a b ↔ Ahead (d ^^ back) (e ^^ back) a b :=
    fun ha hb => before_iff hpos horder ((hlen _ ha).trans hbits.symm) ((hlen _ hb).trans hbits.symm)
  have hnot : ∀ {a b}, a ∈ ks → b ∈ ks → (Ahead (!d) (!e) a b ↔ Ahead d e b a) := fun ha hb => ahead_not ((hlen _ ha).trans (hlen _ hb).symm)
  refine ⟨?sorted, ?stands, ?rewind, ?rewind_to_end, ?next, ?next_back, ?next_eof, ?lookup⟩
  case sorted =>
    refine hpair.imp_of_mem fun ha hb hab => ?_
    rw [← Bool.xor_false d, ← Bool.xor_false e, ← hbefore ha hb] at hab
    exact hab
  case stands =>
    cases o with
    | none => exact ⟨ks, [], (append_nil ks).symm, h.at_of_head rfl⟩
    | some p =>
      have hmem : p.1 ∈ ks := (hks p.1).2 (by rw [h.value]; rfl)
      obtain ⟨done, todo, hsplit⟩ := append_of_mem hmem
      exact ⟨done, p.1 :: todo, hsplit, h.at_of_head rfl⟩
  case rewind =>
    obtain ⟨it', o', hr, h', hfirst⟩ := h.rewind hd false
    rw [Bool.xor_false, Bool.xor_false] at hfirst
    have ho' := (hfirst.firstIn hks).unique (fun a _ b _ hab => hab.asymm) (firstIn_all hpair)
    exact ⟨it', hr, h'.at_of_head ho', fun m hm => h'.visits ho' hks hpair (nil_append ks).symm hm⟩
  case rewind_to_end =>
    obtain ⟨it', o', hr, h', hfirst⟩ := h.rewind hd true
    rw [Bool.xor_true, Bool.xor_true] at hfirst
    have hin := (hfirst.firstIn hks).congr (fun _ _ => Iff.rfl) fun a ha b hb => (hnot ha hb).1
    have ho' := hin.unique (fun a _ b _ hab => hab.asymm) (firstIn_last hpair)
    exact ⟨it', hr, h'.at_of_head (by rw [head?_toList, ho'])⟩
  case next =>
    intro done key todo hsplit hat
    have ho := (h.at_iff _).1 hat
    obtain ⟨it', o', hr, h', ho'⟩ := h.next_along ho hks hpair hsplit
    refine ⟨it', ?_, h'.at_of_head ho', fun hne => ?_⟩
    · rw [hr, isSome_of_fst ho']
      cases todo <;> rfl
    · obtain ⟨key', todo', rfl⟩ := exists_cons_of_ne_nil hne
      have hsplit' : ks = (done ++ [key]) ++ key' :: todo' := by simp [hsplit]
      obtain ⟨it'', o'', hr', h'', ho''⟩ := h'.next_back_along ho' hks hlen hpair hsplit'
      rw [getLast?_concat] at ho''
      rw [hr', isSome_of_fst ho'', h''.determined h ho'' ho]
      rfl
  case next_back =>
    intro done key todo hsplit hat
    have ho := (h.at_iff _).1 hat
    obtain ⟨it', o', hr, h', ho'⟩ := h.next_back_along ho hks hlen hpair hsplit
    refine ⟨it', ?_, h'.at_of_head (by rw [head?_toList, ho']), fun hne => ?_⟩
    · rw [hr, isSome_of_fst ho']
      cases done with
      | nil => rfl
      | cons key' done => rw [getLast?_cons, isEmpty_cons]; rfl
    · obtain ⟨done', key', rfl⟩ := (eq_nil_or_concat' done).resolve_left hne
      rw [getLast?_concat] at ho'
      have hsplit' : ks = done' ++ key' :: key :: todo := by simp [hsplit]
      obtain ⟨it'', o'', hr', h'', ho''⟩ := h'.next_along ho' hks hpair hsplit'
      rw [hr', isSome_of_fst ho'', h''.determined h ho'' ho]
      rfl
  case next_eof =>
    intro heof back
    rw [h.cur_pos.2.2, isNone_iff_eq_none] at heof
    subst heof
    exact h.next_eof back
  case lookup =>
    intro pos strict_after backw hle
    obtain ⟨it', o', hr, h', hfirst⟩ := h.lookup hd (hle.trans hbits.le) strict_after backw
    obtain ⟨hcur, -, heof⟩ := h'.cur_pos
    refine ⟨it', ?_, ?_, h'.at_of_head (by rw [head?_toList, hcur])⟩
    · rw [hr, heof, not_isNone]
    · rw [hcur]
      refine (hfirst.firstIn hks).congr (fun k hk => ?_) fun a ha b hb => (hbefore ha hb backw).2
      rw [sought_iff hpos horder ((hlen k hk).trans hbits.symm) hle]

/-- Whatever was called before, an iterator goes along the keys of the dictionary in the order of its mode. -/
theorem iterator_enumerates (dict : DictionaryFixed) (hd : ReadableRoot dict.methods.label_mode dict.key_bits f dict.root_cell)
    (h0 : 1 ≤ dict.key_bits) (hmax : dict.key_bits ≤ max_key_bits) (mode : Nat) :
    ∃ ks : List (List Bool), ks.Nodup ∧ (∀ k, k ∈ ks ↔ (f k).isSome = true) ∧ ∀ it, Reachable dict mode it → it.Enumerates f ks := by
  obtain ⟨ks, hks, hpair⟩ := hd.exists_keys (decide (mode % 2 = 1) ^^ decide (mode / 2 % 2 = 1)) (mode % 2 = 1)
  refine ⟨ks, hpair.imp Ahead.ne, hks, fun it hit => ?_⟩
  obtain ⟨o, ho⟩ := hit.spot hd h0 hmax
  exact ho.enumerates hd h0 hks hpair

/-- A dictionary of two keys, backwards. -/
theorem iterator_enumerates_two_keys :
    let ops : List Op := [.set [false, true] ⟨[true], []⟩ .Set, .set [true, true] ⟨[], []⟩ .Set]
    ∃ (d : Dictionary) (rs : List Ret) (ks : List (List Bool)), Op.execAll ⟨none, 2⟩ ops = .ok (d, rs) ∧ ks.Nodup ∧
      (∀ k, k ∈ ks ↔ ((Op.specAll empty ops).1 k).isSome = true) ∧
      ∀ it, Reachable ⟨d.root_cell, 2, .fixed⟩ 1 it → it.Enumerates (Op.specAll empty ops).1 ks := by
  intro ops
  obtain ⟨d, rs, h, hd⟩ := exists_execAll (show 2 ≤ max_key_bits by decide) (show ∀ op ∈ ops, _ by decide) (by decide +kernel)
  have hread := hd.readable
  obtain ⟨ks, hnodup, hks, hit⟩ := iterator_enumerates ⟨d.root_cell, 2, .fixed⟩ hread (show 1 ≤ 2 by decide) (show 2 ≤ max_key_bits by decide) 1
  exact ⟨d, rs, ks, h, hnodup, hks, hit⟩

end Enumerates

end Histories

end Ton.Dict
