import Ton.Block.VarUInteger
/-!
# Amounts in several currencies

`CurrencyCollection` of `block.cpp`: grams, and a dictionary of amounts in other
currencies under their 32-bit ids. Sums and differences of the dictionaries are
`HashmapE::add_values_ref` and `sub_values_ref` of `block-parse.cpp`, two calls of
`combine_with`.
-/

namespace Ton.Block

open BigEndian CellTraits Dict BitMap

/-! ## The code -/

/-- A `HashmapE`. -/
structure HashmapE where
  n : Nat
  value_type : VarUIntegerPos

namespace HashmapE

/-- The `combine` of `add_values_ref`. -/
def add_combine (t : HashmapE) : CombineFunc := fun cb cs1 cs2 _ =>
  match t.value_type.add_values cb cs1 cs2 with
  | some cb => .ok (some cb)
  | none => .error .combine

/-- The `combine` of `sub_values_ref`. -/
def sub_combine (t : HashmapE) : CombineFunc := fun cb cs1 cs2 _ =>
  match t.value_type.sub_values cb cs1 cs2 with
  | some (cb, true) => .ok (some cb)
  | some (_, false) => .ok none
  | none => .error .combine

def add_values_ref (t : HashmapE) (arg1 arg2 : Option DataCell) : Except Exc (Bool × Option DataCell) := do
  let dict1 : Dictionary := ⟨arg1, t.n⟩
  let (dict1, ok) ← dict1.combine_with ⟨arg2, t.n⟩ t.add_combine 0
  .ok (if ok then (true, dict1.root_cell) else (false, none))

def sub_values_ref (t : HashmapE) (arg1 arg2 : Option DataCell) : Except Exc (Int × Option DataCell) := do
  let dict1 : Dictionary := ⟨arg1, t.n⟩
  let (dict1, ok) ← dict1.combine_with ⟨arg2, t.n⟩ t.sub_combine 1
  .ok (if ok then (if dict1.root_cell.isSome then 1 else 0, dict1.root_cell) else (-1, none))

end HashmapE

/-- The two types of `ExtraCurrencyCollection`; the second one can store a zero. -/
def dict_type : HashmapE := ⟨32, t_VarUIntegerPos_32⟩
def dict_type2 : HashmapE := ⟨32, t_VarUIntegerPosRelaxed_32⟩

def add_extra_currency (extra1 extra2 : Option DataCell) : Except Exc (Bool × Option DataCell) :=
  if extra2.isNone then .ok (true, extra1)
  else if extra1.isNone then .ok (true, extra2)
  else dict_type.add_values_ref extra1 extra2

def sub_extra_currency (extra1 extra2 : Option DataCell) : Except Exc (Bool × Option DataCell) :=
  if extra2.isNone then .ok (true, extra1)
  else if extra1.isNone then .ok (false, none)
  else do
    let (r, res) ← dict_type2.sub_values_ref extra1 extra2
    .ok (r ≥ 0, res)

structure CurrencyCollection where
  grams : Option BigInt256 := none
  extra : Option DataCell := none

namespace CurrencyCollection

def is_valid (c : CurrencyCollection) : Bool := c.grams.isSome

/-- `add`, `operator+` and `operator+=`. -/
def add (a b : CurrencyCollection) : Except Exc CurrencyCollection :=
  match a.grams, b.grams with
  | some x, some y =>
    match x.add y with
    | none => .ok {}
    | some z => do
      let (ok, extra) ← add_extra_currency a.extra b.extra
      .ok (if ok then ⟨some (some z), extra⟩ else {})
  | _, _ => .ok {}

/-- `sub`, `operator-` and `operator-=`. -/
def sub (a b : CurrencyCollection) : Except Exc CurrencyCollection :=
  match a.grams, b.grams with
  | some x, some y =>
    match x.sub y with
    | none => .ok {}
    | some z =>
      if BigInt256.sgn (some z) ≥ 0 then do
        let (ok, extra) ← sub_extra_currency a.extra b.extra
        .ok (if ok then ⟨some (some z), extra⟩ else {})
      else .ok {}
  | _, _ => .ok {}

/-- `operator==`. -/
def eq (a b : CurrencyCollection) : Bool :=
  match a.grams, b.grams with
  | some x, some y =>
    x.cmp y == 0 && (a.extra.isSome == b.extra.isSome) &&
      match a.extra, b.extra with
      | some c, some d => c.get_hash max_level == d.get_hash max_level
      | _, _ => true
  | _, _ => false

/-- `operator>=`. -/
def ge (a b : CurrencyCollection) : Except Exc Bool :=
  match a.grams, b.grams with
  | some x, some y =>
    if x.cmp y ≥ 0 then do
      let (ok, _) ← sub_extra_currency a.extra b.extra
      .ok ok
    else .ok false
  | _, _ => .ok false

end CurrencyCollection

/-! ## Currency ids as keys -/

abbrev CurrencyId := BitVec 32

@[irreducible] def idBits (id : CurrencyId) : List Bool := toBits 32 id.toNat

theorem idBits_length (id : CurrencyId) : (idBits id).length = 32 := by rw [idBits, toBits_length]

theorem ofBits_idBits (id : CurrencyId) : BitVec.ofNat 32 (ofBits (idBits id)) = id := by
  rw [idBits, ofBits_toBits_of_lt id.isLt, BitVec.ofNat_toNat, BitVec.setWidth_eq]

variable {k : List Bool}

theorem idBits_ofBits (hk : k.length = 32) : idBits (BitVec.ofNat 32 (ofBits k)) = k := by
  have hlt := ofBits_lt k
  rw [hk] at hlt
  rw [idBits, BitVec.toNat_ofNat, Nat.mod_eq_of_lt hlt, ← hk, toBits_ofBits]

theorem idBits_inj {i j : CurrencyId} (h : idBits i = idBits j) : i = j := by
  rw [← ofBits_idBits i, ← ofBits_idBits j, h]

theorem ofBits_take_idBits (id : CurrencyId) (l : Nat) : ofBits ((idBits id).take l) = id.toNat / 2 ^ (32 - l) := by
  have hsplit := ofBits_append ((idBits id).take l) ((idBits id).drop l)
  rw [List.take_append_drop, idBits, ofBits_toBits_of_lt id.isLt, ← idBits, List.length_drop, idBits_length] at hsplit
  have hlt := ofBits_lt ((idBits id).drop l)
  rw [List.length_drop, idBits_length] at hlt
  rw [hsplit, Nat.mul_comm, Nat.mul_add_div (Nat.two_pow_pos _), Nat.div_eq_of_lt hlt, Nat.add_zero]

theorem take_idBits_iff (i j : CurrencyId) (l : Nat) : (idBits i).take l = (idBits j).take l ↔ i >>> (32 - l) = j >>> (32 - l) := by
  have shift : i >>> (32 - l) = j >>> (32 - l) ↔ i.toNat / 2 ^ (32 - l) = j.toNat / 2 ^ (32 - l) := by
    rw [← BitVec.toNat_inj, BitVec.toNat_ushiftRight, BitVec.toNat_ushiftRight, Nat.shiftRight_eq_div_pow, Nat.shiftRight_eq_div_pow]
  by_cases hl : l ≤ 32
  · rw [shift, ← ofBits_take_idBits i l, ← ofBits_take_idBits j l]
    refine ⟨congrArg ofBits, fun h => ofBits_inj ?_ h⟩
    rw [List.length_take, List.length_take, idBits_length, idBits_length]
  · rw [List.take_of_length_le (by rw [idBits_length]; omega), List.take_of_length_le (by rw [idBits_length]; omega),
      Nat.sub_eq_zero_of_le (by omega), BitVec.ushiftRight_zero, BitVec.ushiftRight_zero]
    exact ⟨idBits_inj, congrArg idBits⟩

/-- The amounts in other currencies; zero where there is none. -/
abbrev Extra := CurrencyId → Nat

/-- The dictionary of amounts. -/
def amounts (m : Extra) : BitMap Amount := fun k =>
  if h : k.length = 32 ∧ 0 < m (BitVec.ofNat 32 (ofBits k)) ∧ m (BitVec.ofNat 32 (ofBits k)) < 2 ^ 248 then some ⟨_, h.2⟩ else none

theorem amounts_idBits (m : Extra) {id : CurrencyId} (h0 : 0 < m id) (hlt : m id < 2 ^ 248) :
    amounts m (idBits id) = some ⟨m id, h0, hlt⟩ := by
  have e := ofBits_idBits id
  rw [amounts, dif_pos ⟨idBits_length id, by rwa [e], by rwa [e]⟩]
  simp only [e]

theorem amounts_some {m : Extra} {x : Amount} (h : amounts m k = some x) : ∃ id, k = idBits id ∧ x.1 = m id := by
  unfold amounts at h
  split at h
  · next hk =>
    cases h
    exact ⟨_, (idBits_ofBits hk.1).symm, rfl⟩
  · cases h

theorem amounts_pos {m : Extra} {x : Amount} (h : amounts m k = some x) : ∃ id, k = idBits id ∧ m id ≠ 0 := by
  obtain ⟨id, hk, hx⟩ := amounts_some h
  exact ⟨id, hk, hx ▸ x.2.1.ne'⟩

/-! ## Sums and differences of the maps -/

/-- For any number of leading bits on which all ids of `b` agree, each id of `b`
agrees with some id of `a` on one bit more. -/
def Reaches (a b : Extra) : Prop := ∀ l, (∀ i j, b i ≠ 0 → b j ≠ 0 → i >>> (32 - l) = j >>> (32 - l)) →
  ∀ i, b i ≠ 0 → ∃ j, a j ≠ 0 ∧ j >>> (32 - (l + 1)) = i >>> (32 - (l + 1))

section Maps
variable {a b : Extra} (ha : ∀ id, a id < 2 ^ 248) (hb : ∀ id, b id < 2 ^ 248)
include ha hb

omit ha hb in
theorem ext_amounts {m : Extra} {f : BitMap Amount} (hlen : ∀ k v, f k = some v → k.length = 32)
    (h : ∀ id, f (idBits id) = amounts m (idBits id)) : f = amounts m := by
  funext k
  by_cases hk : k.length = 32
  · rw [← idBits_ofBits hk]
    exact h _
  · rw [amounts, dif_neg fun h => hk h.1]
    cases hf : f k with
    | none => rfl
    | some v => exact absurd (hlen k v hf) hk

theorem covers_amounts_iff : Covers (amounts a) (amounts b) ↔ Reaches a b := by
  constructor
  · intro h l hall i hi
    have hcommon : ∀ k v, amounts b k = some v → (idBits i).take l <+: k := by
      intro k v hk
      obtain ⟨j, rfl, hj⟩ := amounts_pos hk
      rw [(take_idBits_iff i j l).2 (hall i j hi hj)]
      exact List.take_prefix _ _
    obtain ⟨k, v, hk, e⟩ := h _ hcommon _ _ (amounts_idBits b (Nat.pos_of_ne_zero hi) (hb i))
    obtain ⟨j, rfl, hj⟩ := amounts_pos hk
    refine ⟨j, hj, ?_⟩
    rw [List.length_take, idBits_length] at e
    by_cases hl : l ≤ 32
    · rw [Nat.min_eq_left hl] at e
      exact (take_idBits_iff j i (l + 1)).1 e
    · rw [Nat.min_eq_right (by omega)] at e
      have := (take_idBits_iff j i 33).1 e
      rwa [show 32 - (l + 1) = 32 - 33 by omega]
  · intro h p hp k v hk
    obtain ⟨i, rfl, hi⟩ := amounts_pos hk
    have hall : ∀ i j, b i ≠ 0 → b j ≠ 0 → i >>> (32 - p.length) = j >>> (32 - p.length) := by
      intro i j hi hj
      have h1 := List.prefix_iff_eq_take.1 (hp _ _ (amounts_idBits b (Nat.pos_of_ne_zero hi) (hb i)))
      have h2 := List.prefix_iff_eq_take.1 (hp _ _ (amounts_idBits b (Nat.pos_of_ne_zero hj) (hb j)))
      exact (take_idBits_iff i j _).1 (h1.symm.trans h2)
    obtain ⟨j, hj, e⟩ := h p.length hall i hi
    exact ⟨_, _, amounts_idBits a (Nat.pos_of_ne_zero hj) (ha j), (take_idBits_iff j i _).2 e⟩

omit ha hb in
theorem amounts_zero {m : Extra} {id : CurrencyId} (h : m id = 0) : amounts m (idBits id) = none := by
  rw [amounts, dif_neg]
  rw [ofBits_idBits]
  omega

omit ha hb in
theorem merge_length {op : BitMap.Op Amount} {k : List Bool} {v : Amount} (h : merge op (amounts a) (amounts b) k = some v) :
    k.length = 32 := by
  unfold merge at h
  split at h
  · next hx _ =>
    obtain ⟨id, rfl, -⟩ := amounts_pos hx
    exact idBits_length id
  · next hx _ =>
    obtain ⟨id, rfl, -⟩ := amounts_pos hx
    exact idBits_length id
  · next hy =>
    obtain ⟨id, rfl, -⟩ := amounts_pos h
    exact idBits_length id

theorem conflict_add_iff : Conflict add_op (amounts a) (amounts b) ↔ ¬∀ id, a id + b id < 2 ^ 248 := by
  constructor
  · rintro ⟨k, x, y, hx, hy, ho⟩ hall
    obtain ⟨id, rfl, ex⟩ := amounts_some hx
    obtain ⟨id', e, ey⟩ := amounts_some hy
    obtain rfl := idBits_inj e
    have := hall id
    rw [add_op, dif_pos (by omega)] at ho
    cases ho
  · intro h
    obtain ⟨id, hid⟩ := not_forall.1 h
    have h1 := ha id
    have h2 := hb id
    refine ⟨_, _, _, amounts_idBits a (by omega) h1, amounts_idBits b (by omega) h2, dif_neg hid⟩

theorem merge_add (hab : ∀ id, a id + b id < 2 ^ 248) : merge add_op (amounts a) (amounts b) = amounts fun id => a id + b id := by
  refine ext_amounts (fun _ _ => merge_length) fun id => ?_
  have hsum := hab id
  rcases Nat.eq_zero_or_pos (a id) with h1 | h1
  · rcases Nat.eq_zero_or_pos (b id) with h2 | h2
    · simp only [merge, amounts_zero h1, amounts_zero h2]
      rw [amounts_zero (by omega)]
    · simp only [merge, amounts_zero h1, amounts_idBits b h2 (hb id)]
      rw [amounts_idBits _ (by omega) hsum]
      simp only [h1, Nat.zero_add]
  · rcases Nat.eq_zero_or_pos (b id) with h2 | h2
    · simp only [merge, amounts_zero h2, amounts_idBits a h1 (ha id)]
      rw [amounts_idBits _ (by omega) hsum]
      simp only [h2, Nat.add_zero]
    · simp only [merge, amounts_idBits a h1 (ha id), amounts_idBits b h2 (hb id), add_op]
      rw [dif_pos hsum, amounts_idBits _ (by omega) hsum]
      rfl

theorem conflict_sub_iff : Conflict sub_op (amounts a) (amounts b) ↔ ¬∀ id, a id ≠ 0 → b id ≤ a id := by
  constructor
  · rintro ⟨k, x, y, hx, hy, ho⟩ hall
    obtain ⟨id, rfl, ex⟩ := amounts_some hx
    obtain ⟨id', e, ey⟩ := amounts_some hy
    obtain rfl := idBits_inj e
    have h0 := x.2.1
    have := hall id (by omega)
    rw [sub_op, if_pos (by omega)] at ho
    cases ho
  · intro h
    obtain ⟨id, hid⟩ := not_forall.1 h
    obtain ⟨h0, hlt⟩ := Classical.not_imp.1 hid
    refine ⟨_, _, _, amounts_idBits a (by omega) (ha id), amounts_idBits b (by omega) (hb id), if_neg hlt⟩

/-- What subtraction makes of two maps: an id that only `b` has stays. -/
def difference (a b : Extra) : Extra := fun id => if a id = 0 then b id else a id - b id

theorem merge_sub (hab : ∀ id, a id ≠ 0 → b id ≤ a id) : merge sub_op (amounts a) (amounts b) = amounts (difference a b) := by
  refine ext_amounts (fun _ _ => merge_length) fun id => ?_
  have hlt := ha id
  rcases Nat.eq_zero_or_pos (a id) with h1 | h1
  · have hd : difference a b id = b id := if_pos h1
    rcases Nat.eq_zero_or_pos (b id) with h2 | h2
    · simp only [merge, amounts_zero h1, amounts_zero h2]
      rw [amounts_zero (hd.trans h2)]
    · simp only [merge, amounts_zero h1, amounts_idBits b h2 (hb id)]
      rw [amounts_idBits _ (by omega) (by rw [hd]; exact hb id)]
      simp only [hd]
  · have hd : difference a b id = a id - b id := if_neg (by omega)
    have hle := hab id (by omega)
    rcases Nat.eq_zero_or_pos (b id) with h2 | h2
    · simp only [merge, amounts_zero h2, amounts_idBits a h1 (ha id)]
      rw [amounts_idBits _ (by omega) (by omega)]
      simp only [hd, h2, Nat.sub_zero]
    · simp only [merge, amounts_idBits a h1 (ha id), amounts_idBits b h2 (hb id), sub_op]
      rw [if_pos hle, Option.getD_some]
      by_cases hlt : b id < a id
      · rw [dif_pos hlt, amounts_idBits _ (by omega) (by omega)]
        simp only [hd]
      · rw [dif_neg hlt, amounts_zero (by omega)]

end Maps

/-! ## The dictionaries -/

theorem add_combine_computes : dict_type.add_combine.Computes Amount.enc add_op := by
  intro cb x y key hr hfit
  rw [HashmapE.add_combine, add_values_enc rfl hfit, hr, add_op]
  by_cases h : x.1 + y.1 < 2 ^ 248
  · rw [dif_pos h]
    rfl
  · rw [dif_neg h]
    rfl

theorem sub_combine_computes : dict_type2.sub_combine.Computes Amount.enc sub_op := by
  intro cb x y key hr hfit
  have h := sub_values_enc (t := dict_type2.value_type) rfl rfl hfit x y
  rw [HashmapE.sub_combine]
  rcases hop : sub_op x y with _ | _ | z
  · rw [hop] at h
    rw [h]
  · rw [hop] at h
    obtain ⟨cb', h⟩ := h
    rw [h]
  · rw [hop] at h
    rw [h, hr]

section Extra
variable {N : List Bool → Nat → CellSlice → DataCell → Prop} (hN : EdgeForm N)
include hN

theorem combine_with_yields {op : BitMap.Op Amount} {comb : CombineFunc} (hcomb : comb.Computes Amount.enc op) {f g : BitMap Amount}
    {c d : DataCell} {mode : Nat} (hmode : mode = 0 ∨ mode = 1) (hc : Held N Amount.enc 32 f c) (hd : Held N Amount.enc 32 g d) :
    (Bad op mode f g ∧ Dictionary.combine_with ⟨some c, 32⟩ ⟨some d, 32⟩ comb mode = .ok (⟨some c, 32⟩, false)) ∨
      (¬Bad op mode f g ∧ ∃ res, Dictionary.combine_with ⟨some c, 32⟩ ⟨some d, 32⟩ comb mode = .ok (⟨res, 32⟩, true) ∧
        HeldRoot N Amount.enc 32 (merge op f g) res) := by
  have hv : ∀ e : DataCell, Dictionary.force_validate ⟨some e, 32⟩ = .ok () := fun e => rfl
  have h := dict_combine_with_merge hN Amount.enc_small hcomb 32 [] hmode (by decide) hc.exists_below hd.exists_below rfl rfl
  rw [Dictionary.combine_with, hv, hv, Result.ok_bind, Result.ok_bind, if_neg (not_not.2 rfl)]
  rcases h with ⟨hb, h⟩ | ⟨hb, res, h, hh⟩
  · refine .inl ⟨hb, ?_⟩
    simp only [List.length_nil] at h
    simp only [h]
  · refine .inr ⟨hb, res, ?_, hh⟩
    simp only [List.length_nil] at h
    simp only [h]

variable {a b : Extra} (ha : ∀ id, a id < 2 ^ 248) (hb : ∀ id, b id < 2 ^ 248) {e1 e2 : Option DataCell}
  (h1 : HeldRoot N Amount.enc 32 (amounts a) e1) (h2 : HeldRoot N Amount.enc 32 (amounts b) e2)
include ha hb

omit hN hb in
theorem eq_zero_of_null (h : HeldRoot N Amount.enc 32 (amounts a) none) : a = fun _ => 0 := by
  funext id
  by_contra h0
  have := amounts_idBits a (Nat.pos_of_ne_zero h0) (ha id)
  rw [show amounts a = empty from h] at this
  cases this

omit hN ha hb in
theorem exists_id {c : DataCell} (h : Held N Amount.enc 32 (amounts a) c) : ∃ id, a id ≠ 0 := by
  obtain ⟨k, v, hk⟩ := h.hasKey
  obtain ⟨id, -, hid⟩ := amounts_pos hk
  exact ⟨id, hid⟩

include h1 h2

theorem add_extra_currency_spec :
    ((∀ id, a id + b id < 2 ^ 248) ∧ ∃ res, add_extra_currency e1 e2 = .ok (true, res) ∧
      HeldRoot N Amount.enc 32 (amounts fun id => a id + b id) res) ∨
    ((¬∀ id, a id + b id < 2 ^ 248) ∧ ∃ res, add_extra_currency e1 e2 = .ok (false, res)) := by
  unfold add_extra_currency
  cases e2 with
  | none =>
    obtain rfl := eq_zero_of_null hb h2
    exact .inl ⟨ha, e1, rfl, h1⟩
  | some d =>
    cases e1 with
    | none =>
      obtain rfl := eq_zero_of_null ha h1
      refine .inl ⟨fun id => by rw [Nat.zero_add]; exact hb id, some d, rfl, ?_⟩
      simpa only [Nat.zero_add] using h2
    | some c =>
      simp only [Option.isNone_some, Bool.false_eq_true, if_false, HashmapE.add_values_ref]
      have hbad : Bad add_op 0 (amounts a) (amounts b) ↔ ¬∀ id, a id + b id < 2 ^ 248 := by
        rw [Bad, conflict_add_iff ha hb]
        simp
      rcases combine_with_yields hN add_combine_computes (.inl rfl) h1 h2 with ⟨hb', h⟩ | ⟨hb', res, h, hh⟩
      · exact .inr ⟨hbad.1 hb', none, by rw [show dict_type.n = 32 from rfl, h]; rfl⟩
      · have hfits := not_not.1 fun h => hb' (hbad.2 h)
        rw [merge_add ha hb hfits] at hh
        exact .inl ⟨hfits, res, by rw [show dict_type.n = 32 from rfl, h]; rfl, hh⟩

theorem sub_extra_currency_spec :
    (((∀ id, a id ≠ 0 → b id ≤ a id) ∧ Reaches a b) ∧ ∃ res, sub_extra_currency e1 e2 = .ok (true, res) ∧
      HeldRoot N Amount.enc 32 (amounts (difference a b)) res) ∨
    (¬((∀ id, a id ≠ 0 → b id ≤ a id) ∧ Reaches a b) ∧ ∃ res, sub_extra_currency e1 e2 = .ok (false, res)) := by
  unfold sub_extra_currency
  cases e2 with
  | none =>
    obtain rfl := eq_zero_of_null hb h2
    refine .inl ⟨⟨fun id _ => Nat.zero_le _, fun _ _ i hi => absurd rfl hi⟩, e1, rfl, ?_⟩
    have : (difference a fun _ => 0) = a := by
      funext id
      unfold difference
      split
      · next h => exact h.symm
      · rfl
    rwa [this]
  | some d =>
    cases e1 with
    | none =>
      obtain rfl := eq_zero_of_null ha h1
      obtain ⟨i, hi⟩ := exists_id h2
      refine .inr ⟨fun h => ?_, none, rfl⟩
      have hall : ∀ i j : CurrencyId, b i ≠ 0 → b j ≠ 0 → i >>> (32 - 0) = j >>> (32 - 0) := by
        intro i j _ _
        rw [BitVec.ushiftRight_eq_zero (by omega), BitVec.ushiftRight_eq_zero (by omega)]
      obtain ⟨j, hj, -⟩ := h.2 0 hall i hi
      exact hj rfl
    | some c =>
      simp only [Option.isNone_some, Bool.false_eq_true, if_false, HashmapE.sub_values_ref]
      have hbad : Bad sub_op 1 (amounts a) (amounts b) ↔ ¬((∀ id, a id ≠ 0 → b id ≤ a id) ∧ Reaches a b) := by
        rw [Bad, conflict_sub_iff ha hb, covers_amounts_iff ha hb, not_and_or]
        simp
      rcases combine_with_yields hN sub_combine_computes (.inr rfl) h1 h2 with ⟨hb', h⟩ | ⟨hb', res, h, hh⟩
      · exact .inr ⟨hbad.1 hb', none, by rw [show dict_type2.n = 32 from rfl, h]; rfl⟩
      · have hok := not_not.1 fun h => hb' (hbad.2 h)
        rw [merge_sub ha hb hok.1] at hh
        refine .inl ⟨hok, res, ?_, hh⟩
        rw [show dict_type2.n = 32 from rfl, h]
        cases res <;> rfl

end Extra

/-! ## Collections -/

/-- An edge whose label has any form that the parser takes. -/
def Parsed (label : List Bool) (n : Nat) (payload : CellSlice) (c : DataCell) : Prop :=
  label.length ≤ n ∧ (∃ data, DataCell.create data payload.refs false = .ok c) ∧
    ∃ p, LabelParser.parse c n .chk_min = .ok p ∧ p.Reads label payload

theorem parsed_edgeForm : EdgeForm Parsed where
  of_node h := ⟨h.length_le, ⟨_, CellBuilder.finalize_create h.cell⟩, h.parse_ok fun _ => trivial⟩
  length_le h := h.1
  created h := h.2.1
  parse := by
    rintro label n payload c ⟨hle, -, p, hp, hr⟩ hv
    refine ⟨p, ?_, hr⟩
    obtain ⟨cs, hcs, hp⟩ := Result.bind_ok.1 hp
    rw [LabelParser.parse, hcs, Result.ok_bind]
    cases hl : LabelParser.parse_label cs n with
    | none => rw [hl] at hp; cases hp
    | some p' =>
      rw [hl] at hp
      obtain rfl : p' = p := Except.ok.inj hp
      simp only [hr.validate_all hle hv, Result.ok_bind]

namespace CurrencyCollection

/-- A valid collection, read as grams and a map; `N` says which forms of labels are taken. -/
structure ReadsAs (N : List Bool → Nat → CellSlice → DataCell → Prop) (c : CurrencyCollection) (grams : Nat) (extra : Extra) : Prop where
  grams_eq : c.grams = some (some (grams : Int))
  grams_le : (grams : Int) ≤ BigInt256.max_value
  extra_lt : ∀ id, extra id < 2 ^ 248
  extra_held : HeldRoot N Amount.enc 32 (amounts extra) c.extra

/-- As far as `validate` is concerned. -/
abbrev Reads := ReadsAs Parsed

/-- With the labels that the code itself writes. -/
abbrev ReadsCanonical := ReadsAs Node

section Spec
variable {N : List Bool → Nat → CellSlice → DataCell → Prop} (hN : EdgeForm N) {a b : CurrencyCollection} {ga gb : Nat}
  {ma mb : Extra} (ha : a.ReadsAs N ga ma) (hb : b.ReadsAs N gb mb)
include hN ha hb

/-- All components of the sum can be represented. -/
def Fits (ga gb : Nat) (ma mb : Extra) : Prop :=
  ((ga + gb : Nat) : Int) ≤ BigInt256.max_value ∧ ∀ id, ma id + mb id < 2 ^ 248

theorem add_spec : (Fits ga gb ma mb ∧ ∃ c, a.add b = .ok c ∧ c.ReadsAs N (ga + gb) fun id => ma id + mb id) ∨
    (¬Fits ga gb ma mb ∧ ∃ c, a.add b = .ok c ∧ c.is_valid = false) := by
  have hmin : BigInt256.min_value ≤ 0 := by decide
  rw [add, ha.grams_eq, hb.grams_eq]
  simp only [BigInt256.add, ← Nat.cast_add]
  by_cases hg : ((ga + gb : Nat) : Int) ≤ BigInt256.max_value
  · rw [BigInt256.normalize, if_pos ⟨hmin.trans (Int.natCast_nonneg _), hg⟩]
    rcases add_extra_currency_spec hN ha.extra_lt hb.extra_lt ha.extra_held hb.extra_held with ⟨hf, res, h, hh⟩ | ⟨hf, res, h⟩
    · refine .inl ⟨⟨hg, hf⟩, ⟨some (some ((ga + gb : Nat) : Int)), res⟩, ?_, rfl, hg, hf, hh⟩
      rw [h]
      rfl
    · refine .inr ⟨fun hfits => hf hfits.2, {}, ?_, rfl⟩
      rw [h]
      rfl
  · rw [BigInt256.normalize, if_neg fun h => hg h.2]
    exact .inr ⟨fun hfits => hg hfits.1, {}, rfl, rfl⟩

/-- When subtraction goes through. -/
def Subtracts (ga gb : Nat) (ma mb : Extra) : Prop := gb ≤ ga ∧ (∀ id, ma id ≠ 0 → mb id ≤ ma id) ∧ Reaches ma mb

theorem sub_spec : (Subtracts ga gb ma mb ∧ ∃ c, a.sub b = .ok c ∧ c.ReadsAs N (ga - gb) (difference ma mb)) ∨
    (¬Subtracts ga gb ma mb ∧ ∃ c, a.sub b = .ok c ∧ c.is_valid = false) := by
  have hga := ha.grams_le
  have hgb := hb.grams_le
  have hmin : BigInt256.min_value = -BigInt256.max_value - (1 + 2 ^ 52 + 2 ^ 104 + 2 ^ 156 + 2 ^ 208) := by decide
  have hsub : BigInt256.sub (some (ga : Int)) (some (gb : Int)) = some ((ga : Int) - gb) := if_pos ⟨by omega, by omega⟩
  rw [sub, ha.grams_eq, hb.grams_eq]
  have hsgn : BigInt256.sgn (some ((ga : Int) - gb)) ≥ 0 ↔ gb ≤ ga := by
    rw [BigInt256.sgn, ge_iff_le, Int.sign_nonneg_iff]
    omega
  simp only [hsub]
  by_cases hg : gb ≤ ga
  · rw [if_pos (hsgn.2 hg)]
    have hlt : ∀ id, difference ma mb id < 2 ^ 248 := by
      intro id
      have h1 := ha.extra_lt id
      have h2 := hb.extra_lt id
      unfold difference
      split <;> omega
    rcases sub_extra_currency_spec hN ha.extra_lt hb.extra_lt ha.extra_held hb.extra_held with ⟨hf, res, h, hh⟩ | ⟨hf, res, h⟩
    · refine .inl ⟨⟨hg, hf⟩, ⟨some (some ((ga : Int) - gb)), res⟩, ?_, ?_, ?_, hlt, hh⟩
      · rw [h]
        rfl
      · rw [Nat.cast_sub hg]
      · omega
    · refine .inr ⟨fun hs => hf hs.2, {}, ?_, rfl⟩
      rw [h]
      rfl
  · rw [if_neg (mt hsgn.1 hg)]
    exact .inr ⟨fun hs => hg hs.1, {}, rfl, rfl⟩

theorem ge_spec : ∃ r, a.ge b = .ok r ∧ (r = true ↔ Subtracts ga gb ma mb) := by
  rw [ge, ha.grams_eq, hb.grams_eq]
  have hcmp : BigInt256.cmp (some (ga : Int)) (some (gb : Int)) ≥ 0 ↔ gb ≤ ga := by
    rw [BigInt256.cmp, ge_iff_le, Int.sign_nonneg_iff]
    omega
  simp only
  by_cases hg : gb ≤ ga
  · rw [if_pos (hcmp.2 hg)]
    rcases sub_extra_currency_spec hN ha.extra_lt hb.extra_lt ha.extra_held hb.extra_held with ⟨hf, res, h, -⟩ | ⟨hf, res, h⟩
    · refine ⟨true, by rw [h]; rfl, iff_of_true rfl ⟨hg, hf⟩⟩
    · refine ⟨false, by rw [h]; rfl, iff_of_false Bool.false_ne_true fun hs => hf hs.2⟩
  · rw [if_neg (mt hcmp.1 hg)]
    exact ⟨false, rfl, iff_of_false Bool.false_ne_true fun hs => hg hs.1⟩

theorem add_sub_spec (hf : Fits ga gb ma mb) : ∃ c d, a.add b = .ok c ∧ c.sub b = .ok d ∧ d.ReadsAs N ga ma := by
  rcases add_spec hN ha hb with ⟨-, c, hadd, hc⟩ | ⟨hn, -⟩
  · have hs : Subtracts (ga + gb) gb (fun id => ma id + mb id) mb := by
      refine ⟨Nat.le_add_left _ _, fun id _ => Nat.le_add_left _ _, fun l _ i hi => ⟨i, ?_, rfl⟩⟩
      simp only
      omega
    rcases sub_spec hN hc hb with ⟨-, d, hsub, hd⟩ | ⟨hn, -⟩
    · have hdiff : difference (fun id => ma id + mb id) mb = ma := by
        funext id
        simp only [difference]
        split <;> omega
      rw [hdiff, Nat.add_sub_cancel] at hd
      exact ⟨c, d, hadd, hsub, hd⟩
    · exact absurd hs hn
  · exact absurd hf hn

end Spec

theorem ReadsAs.eq_of_canonical {a d : CurrencyCollection} {g : Nat} {m : Extra} (ha : a.ReadsCanonical g m) (hd : d.ReadsCanonical g m) :
    d.eq a = true := by
  have hextra : d.extra = a.extra := (HeldRoot.root hd.extra_held).unique Kind.plain_canonical (HeldRoot.root ha.extra_held)
  rw [eq, hd.grams_eq, ha.grams_eq, hextra]
  cases a.extra <;> simp [BigInt256.cmp]

/-! ## Exactness -/

/-- Arithmetic on `a` and `b` is that of their grams and of their maps. -/
structure Exact (a b : CurrencyCollection) (ga gb : Nat) (ma mb : Extra) : Prop where
  add_fits : Fits ga gb ma mb → ∃ c, a.add b = .ok c ∧ c.Reads (ga + gb) fun id => ma id + mb id
  add_overflow : ¬Fits ga gb ma mb → ∃ c, a.add b = .ok c ∧ c.is_valid = false
  sub_iff : ∃ c, a.sub b = .ok c ∧ (c.is_valid = true ↔ gb ≤ ga ∧ ∀ id, mb id ≤ ma id) ∧
    (c.is_valid = true → c.Reads (ga - gb) fun id => ma id - mb id)
  ge_iff : ∃ r c, a.ge b = .ok r ∧ a.sub b = .ok c ∧ (r = true ↔ c.is_valid = true)
  add_sub : Fits ga gb ma mb → ∃ c d, a.add b = .ok c ∧ c.sub b = .ok d ∧ d.Reads ga ma ∧
    (a.ReadsCanonical ga ma → b.ReadsCanonical gb mb → d.eq a = true)
  no_new_id : ∀ res m, sub_extra_currency a.extra b.extra = .ok (true, res) → (∀ id, m id < 2 ^ 248) →
    HeldRoot Parsed Amount.enc 32 (amounts m) res → ∀ id, ma id = 0 → m id = 0

/-- Only the ids that subtraction is said to refuse can go wrong: `b` has some that
`a` has not, no common id runs short, and the ids of `a` go both ways where those
of `b` part. -/
def Refused (ma mb : Extra) : Prop := (∀ id, ma id ≠ 0 → mb id ≤ ma id) → Reaches ma mb → ∀ id, ma id = 0 → mb id = 0

variable {a b : CurrencyCollection} {ga gb : Nat} {ma mb : Extra}

theorem amounts_inj (hma : ∀ id, ma id < 2 ^ 248) (hmb : ∀ id, mb id < 2 ^ 248) (h : amounts ma = amounts mb) : ma = mb := by
  funext id
  have hid := congrFun h (idBits id)
  rcases Nat.eq_zero_or_pos (ma id) with h1 | h1
  · rcases Nat.eq_zero_or_pos (mb id) with h2 | h2
    · rw [h1, h2]
    · rw [amounts_zero h1, amounts_idBits mb h2 (hmb id)] at hid
      cases hid
  · rcases Nat.eq_zero_or_pos (mb id) with h2 | h2
    · rw [amounts_zero h2, amounts_idBits ma h1 (hma id)] at hid
      cases hid
    · rw [amounts_idBits ma h1 (hma id), amounts_idBits mb h2 (hmb id)] at hid
      exact congrArg Subtype.val (Option.some.inj hid)

/-- Where the difference is refused as it should be, it is exact. -/
theorem difference_eq (hr : Refused ma mb) (hle : ∀ id, ma id ≠ 0 → mb id ≤ ma id) (hreach : Reaches ma mb) :
    difference ma mb = fun id => ma id - mb id := by
  funext id
  unfold difference
  split
  · next h0 => rw [hr hle hreach id h0, h0]
  · rfl

theorem reaches_of_le (hle : ∀ id, mb id ≤ ma id) : Reaches ma mb := fun _ _ i hi => ⟨i, by have := hle i; omega, rfl⟩

section Exactness
variable (ha : a.Reads ga ma) (hb : b.Reads gb mb)
include ha hb

theorem Exact.refused (h : Exact a b ga gb ma mb) : Refused ma mb := by
  intro hle hreach id h0
  -- the difference of the extra currencies keeps the id
  rcases sub_extra_currency_spec parsed_edgeForm ha.extra_lt hb.extra_lt ha.extra_held hb.extra_held with ⟨-, res, hres, hh⟩ | ⟨hn, -⟩
  · have hlt : ∀ id, difference ma mb id < 2 ^ 248 := by
      intro id
      have h1 := ha.extra_lt id
      have h2 := hb.extra_lt id
      unfold difference
      split <;> omega
    have := h.no_new_id res _ hres hlt hh id h0
    rwa [difference, if_pos h0] at this
  · exact absurd ⟨hle, hreach⟩ hn

omit ha hb in
theorem subtracts_iff (hr : Refused ma mb) : Subtracts ga gb ma mb ↔ gb ≤ ga ∧ ∀ id, mb id ≤ ma id := by
  constructor
  · rintro ⟨hg, hle, hreach⟩
    refine ⟨hg, fun id => ?_⟩
    by_cases h0 : ma id = 0
    · rw [hr hle hreach id h0]
      exact Nat.zero_le _
    · exact hle id h0
  · rintro ⟨hg, hle⟩
    exact ⟨hg, fun id _ => hle id, reaches_of_le hle⟩

theorem exact_of_refused (hr : Refused ma mb) : Exact a b ga gb ma mb := by
  have hsub := sub_spec parsed_edgeForm ha hb
  refine ⟨?_, ?_, ?_, ?_, ?_, ?_⟩
  · intro hf
    rcases add_spec parsed_edgeForm ha hb with ⟨-, h⟩ | ⟨hn, -⟩
    · exact h
    · exact absurd hf hn
  · intro hf
    rcases add_spec parsed_edgeForm ha hb with ⟨hy, -⟩ | ⟨-, h⟩
    · exact absurd hy hf
    · exact h
  · rcases hsub with ⟨hs, c, hc, hreads⟩ | ⟨hs, c, hc, hinv⟩
    · rw [difference_eq hr hs.2.1 hs.2.2] at hreads
      have hvalid : c.is_valid = true := by
        rw [is_valid, hreads.grams_eq]
        rfl
      exact ⟨c, hc, iff_of_true hvalid ((subtracts_iff hr).1 hs), fun _ => hreads⟩
    · exact ⟨c, hc, iff_of_false (by rw [hinv]; exact Bool.false_ne_true) (mt (subtracts_iff hr).2 hs), fun h => by rw [hinv] at h; cases h⟩
  · obtain ⟨r, hge, hriff⟩ := ge_spec parsed_edgeForm ha hb
    rcases hsub with ⟨hs, c, hc, hreads⟩ | ⟨hs, c, hc, hinv⟩
    · have hvalid : c.is_valid = true := by
        rw [is_valid, hreads.grams_eq]
        rfl
      exact ⟨r, c, hge, hc, iff_of_true (hriff.2 hs) hvalid⟩
    · exact ⟨r, c, hge, hc, iff_of_false (mt hriff.1 hs) (by rw [hinv]; exact Bool.false_ne_true)⟩
  · intro hf
    obtain ⟨c, d, hc, hd, hreads⟩ := add_sub_spec parsed_edgeForm ha hb hf
    refine ⟨c, d, hc, hd, hreads, fun ha' hb' => ?_⟩
    obtain ⟨c', d', hc', hd', hcan⟩ := add_sub_spec node_edgeForm ha' hb' hf
    obtain rfl : c' = c := Except.ok.inj (hc'.symm.trans hc)
    obtain rfl : d' = d := Except.ok.inj (hd'.symm.trans hd)
    exact ha'.eq_of_canonical hcan
  · intro res m hres hm hh id h0
    rcases sub_extra_currency_spec parsed_edgeForm ha.extra_lt hb.extra_lt ha.extra_held hb.extra_held with
      ⟨⟨hle, hreach⟩, res', hres', hh'⟩ | ⟨-, res', hres'⟩
    · rw [hres'] at hres
      obtain rfl : res' = res := congrArg Prod.snd (Except.ok.inj hres)
      rw [difference_eq hr hle hreach] at hh'
      have hsub : ∀ id, ma id - mb id < 2 ^ 248 := fun id => (Nat.sub_le _ _).trans_lt (ha.extra_lt id)
      rw [amounts_inj hm hsub (hh.map_unique parsed_edgeForm Amount.enc_injective hh')]
      simp only [h0, Nat.zero_sub]
    · rw [hres'] at hres
      cases hres

end Exactness

/-- All is exact unless subtraction misses an id that it should refuse. -/
theorem currency_exact_iff (a b : CurrencyCollection) (ga gb : Nat) (ma mb : Extra) (ha : a.Reads ga ma) (hb : b.Reads gb mb) :
    Exact a b ga gb ma mb ↔ Refused ma mb := ⟨Exact.refused ha hb, exact_of_refused ha hb⟩

/-! ## Two ids that part at the first bit -/

theorem under_one {α : Type} (p k : List Bool) (v : α) : under p (one v) k = if k = p then some v else none := by
  by_cases hk : k = p
  · have := under_append p [] (one v)
    rw [List.append_nil, one_nil] at this
    rw [if_pos hk, hk, this]
  · rw [if_neg hk]
    by_contra h
    obtain ⟨w, hw⟩ := Option.ne_none_iff_exists'.1 h
    obtain ⟨k', rfl, hk'⟩ := under_some hw
    exact hk (by rw [(one_some hk').1, List.append_nil])

/-- One unit each of two currencies. -/
def units (i j : CurrencyId) : Extra := fun id => if id = i ∨ id = j then 1 else 0

def unit : Amount := ⟨1, by decide, by decide⟩

theorem amounts_units {i j : CurrencyId} {ri rj : List Bool} (hi : idBits i = false :: ri) (hj : idBits j = true :: rj) :
    amounts (units i j) = split (under ri (one unit)) (under rj (one unit)) := by
  symm
  refine ext_amounts (fun k v hk => ?_) fun id => ?_
  · obtain ⟨b, k, rfl, hk'⟩ := split_some hk
    cases b with
    | false =>
      rw [if_neg Bool.false_ne_true, under_one] at hk'
      split at hk'
      · next e => rw [e, ← hi, idBits_length]
      · cases hk'
    | true =>
      rw [if_pos rfl, under_one] at hk'
      split at hk'
      · next e => rw [e, ← hj, idBits_length]
      · cases hk'
  · by_cases hid : id = i ∨ id = j
    · have h1 : units i j id = 1 := if_pos hid
      rw [amounts_idBits _ (by omega) (by rw [h1]; decide)]
      rcases hid with rfl | rfl
      · rw [hi, split_cons, if_neg Bool.false_ne_true, under_one, if_pos rfl]
        exact congrArg some (Subtype.ext h1.symm)
      · rw [hj, split_cons, if_pos rfl, under_one, if_pos rfl]
        exact congrArg some (Subtype.ext h1.symm)
    · rw [amounts_zero (if_neg hid)]
      cases hk : idBits id with
      | nil => rfl
      | cons b k =>
        cases b with
        | false =>
          rw [split_cons, if_neg Bool.false_ne_true, under_one, if_neg]
          rintro rfl
          exact hid (.inl (idBits_inj (hk.trans hi.symm)))
        | true =>
          rw [split_cons, if_pos rfl, under_one, if_neg]
          rintro rfl
          exact hid (.inr (idBits_inj (hk.trans hj.symm)))

theorem exists_units {N : List Bool → Nat → CellSlice → DataCell → Prop} (hN : EdgeForm N) {i j : CurrencyId} {ri rj : List Bool}
    (hi : idBits i = false :: ri) (hj : idBits j = true :: rj) : ∃ c : CurrencyCollection, c.ReadsAs N 0 (units i j) := by
  have hli : ri.length = 31 := Nat.succ.inj ((congrArg List.length hi).symm.trans (idBits_length i))
  have hlj : rj.length = 31 := Nat.succ.inj ((congrArg List.length hj).symm.trans (idBits_length j))
  obtain ⟨c1, -, h1⟩ := finalize_load (n := 31) hN Amount.enc_small ri (.leaf unit) (by omega) (by decide)
  obtain ⟨c2, -, h2⟩ := finalize_load (n := 31) hN Amount.enc_small rj (.leaf unit) (by omega) (by decide)
  obtain ⟨c, -, h⟩ := finalize_load (n := 32) hN Amount.enc_small [] (.fork h1 h2) (by decide) (by decide)
  refine ⟨⟨some (some 0), some c⟩, rfl, by decide, fun id => ?_, ?_⟩
  · unfold units
    split <;> decide
  · rw [under_nil] at h
    rw [amounts_units hi hj]
    exact h

/-- With ids 0 and 2 ^ 31 of one collection and 1 and 2 ^ 31 + 1 of the other, nothing is refused. -/
theorem not_refused_units : ¬Refused (units 0 0x80000000) (units 1 0x80000001) := by
  intro h
  have hle : ∀ id, units 0 0x80000000 id ≠ 0 → units 1 0x80000001 id ≤ units 0 0x80000000 id := by
    intro id h0
    unfold units at h0 ⊢
    split at h0
    · split <;> simp_all
    · exact absurd rfl h0
  have hreach : Reaches (units 0 0x80000000) (units 1 0x80000001) := by
    intro l hall i hi
    have hl : l = 0 := by
      by_contra hl
      -- the two ids of `b` differ in their first bit
      have hbit := congrArg (BitVec.getLsbD · (31 - (32 - l))) (hall 1 0x80000001 (by decide) (by decide))
      simp only [BitVec.getLsbD_ushiftRight] at hbit
      rw [show 32 - l + (31 - (32 - l)) = 31 by omega] at hbit
      exact absurd hbit (by decide)
    subst hl
    have hi' : i = 1 ∨ i = 0x80000001 := by
      by_contra hne
      exact hi (if_neg hne)
    rcases hi' with rfl | rfl
    · exact ⟨0, by decide, by decide⟩
    · exact ⟨0x80000000, by decide, by decide⟩
  exact absurd (h hle hreach 1 (by decide)) (by decide)

theorem idBits_0 : idBits 0 = false :: List.replicate 31 false := by
  rw [idBits]
  rfl

theorem idBits_high : idBits 0x80000000 = true :: List.replicate 31 false := by
  rw [idBits]
  rfl

theorem idBits_1 : idBits 1 = false :: (List.replicate 30 false ++ [true]) := by
  rw [idBits]
  rfl

theorem idBits_high_1 : idBits 0x80000001 = true :: (List.replicate 30 false ++ [true]) := by
  rw [idBits]
  rfl

theorem currency_not_exact : ∃ a b : CurrencyCollection, a.Reads 0 (units 0 0x80000000) ∧ b.Reads 0 (units 1 0x80000001) ∧
    ¬Exact a b 0 0 (units 0 0x80000000) (units 1 0x80000001) := by
  obtain ⟨a, ha⟩ := exists_units parsed_edgeForm idBits_0 idBits_high
  obtain ⟨b, hb⟩ := exists_units parsed_edgeForm idBits_1 idBits_high_1
  exact ⟨a, b, ha, hb, fun h => not_refused_units (Exact.refused ha hb h)⟩

theorem currency_exact_iff_units : ∃ a b : CurrencyCollection, a.Reads 0 (units 0 0x80000000) ∧ b.Reads 0 (units 0 0x80000001) ∧
    (Exact a b 0 0 (units 0 0x80000000) (units 0 0x80000001) ↔ Refused (units 0 0x80000000) (units 0 0x80000001)) := by
  obtain ⟨a, ha⟩ := exists_units parsed_edgeForm idBits_0 idBits_high
  obtain ⟨b, hb⟩ := exists_units parsed_edgeForm idBits_0 idBits_high_1
  exact ⟨a, b, ha, hb, currency_exact_iff a b 0 0 _ _ ha hb⟩

end CurrencyCollection

end Ton.Block
