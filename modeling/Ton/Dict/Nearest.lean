import Ton.Lib.BitOrder
import Ton.Dict.Fixed
import Ton.Dict.Reading
/-!
# Ordered lookups

`lookup_nearest_key` and `get_minmax_key`. The lowest bit of `mode` is the direction at
the first key bit, the next one that at all others; it is shifted where the first key
bit is passed, in a label or at a fork. `modeOf d e` has the directions `d` and `e`, so
the descents are told by the orders of `BitOrder`, which are those of numbers.
-/

namespace Ton.Dict
open Result BitMap BitOrder Option

/-! ## The lookup -/

/-- `dict_lookup_nearest`: the key buffer from the node on as it is left, and the value. -/
def dict_lookup_nearest (label_mode : Check) (dict : Option DataCell) (key : List Bool) (n : Nat) (allow_eq : Bool) (mode : Int) :
    Except Exc (List Bool × Option CellSlice) :=
  match dict with
  | none => .ok (key, none)
  | some cell => do
    let label ← LabelParser.parse cell n label_mode
    let pfx_len := label.common_prefix_len (key.take n)
    if _h : ¬(pfx_len ≤ label.l_bits ∧ label.l_bits ≤ n) then .error .check
    else if pfx_len < label.l_bits then
      if key.getD pfx_len false = decide ((if pfx_len ≠ 0 then mode / 2 else mode) % 2 = 1) then .ok (key, none)
      else match ← dict_lookup_minmax label_mode dict n (-1 - mode) with
        | none => .ok (key, none)
        | some (key, val) => .ok (key, some val)
    else
      let l := label.l_bits
      let mode := if l ≠ 0 then mode / 2 else mode
      if _hn : n - l = 0 then .ok (key, if allow_eq then some label.skip_label.remainder else none)
      else do
        let bit := key.getD l false
        let (rest, res) ← dict_lookup_nearest label_mode (label.remainder.prefetch_ref bit.toNat) (key.drop (l + 1)) (n - l - 1) allow_eq (mode / 2)
        let up : Bool := mode % 2 = 1
        if res.isSome || bit == up then .ok (key.take l ++ bit :: rest, res)
        else match ← dict_lookup_minmax label_mode (label.remainder.prefetch_ref up.toNat) (n - l - 1) ((-1 - mode) / 2) with
          | none => .ok (key.take l ++ up :: rest, none)
          | some (rest, val) => .ok (key.take l ++ up :: rest, some val)
termination_by n
decreasing_by omega

namespace DictionaryFixed

/-- The key buffer after the call, and the value. -/
def lookup_nearest_key (d : DictionaryFixed) (key : List Bool) (fetch_next allow_eq invert_first : Bool) :
    Except Exc (List Bool × Option CellSlice) := do
  d.force_validate
  if key.length ≠ d.key_bits then .ok (key, none)
  else dict_lookup_nearest d.methods.label_mode d.root_cell key key.length allow_eq (minmax_mode fetch_next invert_first)

/-- The key buffer after the call, and the value. -/
def get_minmax_key (d : DictionaryFixed) (key : List Bool) (fetch_max invert_first : Bool) : Except Exc (List Bool × Option CellSlice) := do
  d.force_validate
  if key.length ≠ d.key_bits then .ok (key, none)
  else match ← dict_lookup_minmax d.methods.label_mode d.root_cell key.length (minmax_mode fetch_max invert_first) with
    | none => .ok (key, none)
    | some (key, val) => .ok (key, some val)

end DictionaryFixed

/-! ## Directions -/

/-- The mode with the direction `d` at the first bit and `e` at the others. -/
def modeOf (d e : Bool) : Int := minmax_mode e (d ^^ e)

theorem modeOf_bit (d e : Bool) : decide (modeOf d e % 2 = 1) = d := by
  cases d <;> cases e <;> rfl

theorem modeOf_half (d e : Bool) : modeOf d e / 2 = modeOf e e := by
  cases d <;> cases e <;> rfl

theorem modeOf_not (d e : Bool) : -1 - modeOf d e = modeOf (!d) (!e) := by
  cases d <;> cases e <;> rfl

theorem minmax_mode_eq (e s : Bool) : minmax_mode e s = modeOf (e ^^ s) e := by
  cases e <;> cases s <;> rfl

theorem modeOf_after (d e : Bool) (p : List Bool) : (if p.length ≠ 0 then modeOf d e / 2 else modeOf d e) = modeOf (after p d e) e := by
  cases p with
  | nil => rfl
  | cons x p => rw [if_pos (by simp), modeOf_half, after_cons]

theorem after_not (d e : Bool) (p : List Bool) : after p (!d) (!e) = !after p d e := by
  cases p <;> rfl

/-! ## The first key -/

section Search
variable {label_mode : Check} {n : Nat} {f : BitMap CellSlice} {c : DataCell}

/-- The key that is ahead of all others. -/
def First (d e : Bool) (f : BitMap CellSlice) (key : List Bool) (val : CellSlice) : Prop :=
  f key = some val ∧ ∀ k v, f k = some v → k = key ∨ Ahead d e key k

variable {g₀ g₁ : BitMap CellSlice} {val : CellSlice} {d e allow_eq x : Bool} {g : BitMap CellSlice}

theorem First.fork {d e : Bool} {label key : List Bool}
    (h : First e e (if after label d e then g₁ else g₀) key val) :
    First d e (under label (split g₀ g₁)) (label ++ after label d e :: key) val := by
  refine ⟨by rw [under_split_append]; exact h.1, fun k v hk => ?_⟩
  obtain ⟨k₁, rfl, hk₁⟩ := under_some hk
  obtain ⟨b, k₂, rfl, hb⟩ := split_some hk₁
  by_cases hbit : after label d e = b
  · subst hbit
    rcases h.2 k₂ v hb with rfl | hahead
    · exact .inl rfl
    · right
      rwa [ahead_append, ahead_cons_self]
  · right
    rw [ahead_part _ _ _ hbit]

theorem First.leaf (d e : Bool) (label : List Bool) (v : CellSlice) : First d e (under label (single v)) label v := by
  refine ⟨?_, fun k w hk => .inl ?_⟩
  · have h := under_append label [] (single v)
    rwa [List.append_nil, single_nil] at h
  · obtain ⟨k', rfl, hk'⟩ := under_some hk
    rw [(single_some hk').1, List.append_nil]

theorem minmax_loop_spec (h : Readable label_mode n f c) (d e : Bool) :
    ∃ key val, minmax_loop label_mode (some c) n (modeOf d e) = .ok (key, val) ∧ First d e f key val := by
  induction n using Nat.strong_induction_on generalizing f c d with
  | _ n ih =>
  obtain ⟨label, m, g, payload, p, hn, rfl, hp, hr, hunder⟩ := h.exists_node
  rw [minmax_loop.eq_def]
  simp only [hp, ok_bind, hr.extract_label, hr.extract_l_bits]
  rw [dif_neg (by omega)]
  cases hunder with
  | leaf v =>
    rw [dif_pos (by omega)]
    exact ⟨label, payload, rfl, .leaf d e label payload⟩
  | @fork bits m g₀ g₁ c1 c2 refs h1 h2 =>
    rw [dif_neg (by omega), modeOf_after, modeOf_bit, modeOf_half]
    obtain ⟨key, val, hrec, hfirst⟩ := ih m (by omega) (h1.side h2 (after label d e)) e
    rw [prefetch_ref_side, show n - label.length - 1 = m by omega, hrec]
    exact ⟨_, val, rfl, hfirst.fork⟩

theorem dict_lookup_minmax_spec (h : Readable label_mode n f c) (d e : Bool) :
    ∃ key val, dict_lookup_minmax label_mode (some c) n (modeOf d e) = .ok (some (key, val)) ∧ First d e f key val := by
  obtain ⟨key, val, hloop, hfirst⟩ := minmax_loop_spec h d e
  refine ⟨key, val, ?_, hfirst⟩
  rw [dict_lookup_minmax, if_neg (by simp), hloop]
  rfl

/-! ## The nearest key -/

/-- The keys behind the given one, or it too. -/
def Wanted (d e : Bool) (key : List Bool) (allow_eq : Bool) (k : List Bool) : Prop := Ahead d e key k ∨ allow_eq = true ∧ k = key

/-- The first of the wanted keys is found, or the buffer is left when there is none. -/
inductive Nearest (d e : Bool) (f : BitMap CellSlice) (key : List Bool) (allow_eq : Bool) : List Bool × Option CellSlice → Prop
  | absent (h : ∀ k v, f k = some v → ¬ Wanted d e key allow_eq k) : Nearest d e f key allow_eq (key, none)
  | found {key' : List Bool} {val : CellSlice} (hval : f key' = some val) (hwanted : Wanted d e key allow_eq key')
      (h : ∀ k v, f k = some v → Wanted d e key allow_eq k → k = key' ∨ Ahead d e key' k) : Nearest d e f key allow_eq (key', some val)

theorem wanted_cons {d e allow_eq : Bool} (p k k' : List Bool) (b : Bool) :
    Wanted d e (p ++ b :: k) allow_eq (p ++ b :: k') ↔ Wanted e e k allow_eq k' := by
  rw [Wanted, Wanted, ahead_append, ahead_cons_self, List.append_right_inj, List.cons_inj_right]

theorem wanted_part {d e allow_eq x y : Bool} (p k k' : List Bool) (h : x ≠ y) :
    Wanted d e (p ++ x :: k) allow_eq (p ++ y :: k') ↔ x = after p d e := by
  rw [Wanted, ahead_part _ _ _ h, or_iff_left]
  rintro ⟨-, heq⟩
  exact h (List.cons.inj (List.append_cancel_left heq)).1.symm

/-- All keys of a map with one start lie on one side of a key that leaves it. -/
theorem Nearest.off {p q k : List Bool} (hx : x = after p d e) :
    Nearest d e (under (p ++ x :: q) g) (p ++ (!x) :: k) allow_eq (p ++ (!x) :: k, none) := by
  refine .absent fun k' v hk' => ?_
  obtain ⟨k', rfl, -⟩ := under_some hk'
  rw [List.append_assoc, List.cons_append, wanted_part _ _ _ (by simp), hx]
  simp

theorem Nearest.of_first {p q k key' : List Bool} (hx : x ≠ after p d e)
    (h : First d e (under (p ++ x :: q) g) key' val) : Nearest d e (under (p ++ x :: q) g) (p ++ (!x) :: k) allow_eq (key', some val) := by
  refine .found h.1 ?_ fun k' v hk' _ => h.2 k' v hk'
  obtain ⟨k', rfl, -⟩ := under_some h.1
  rw [List.append_assoc, List.cons_append, wanted_part _ _ _ (by simp)]
  exact Bool.not_eq.2 hx

theorem Nearest.child {d e allow_eq b : Bool} {label k k' : List Bool} {res : Option CellSlice}
    (h : Nearest e e (if b then g₁ else g₀) k allow_eq (k', res)) (hb : res.isSome = true ∨ b ≠ after label d e) :
    Nearest d e (under label (split g₀ g₁)) (label ++ b :: k) allow_eq (label ++ b :: k', res) := by
  cases h with
  | absent h =>
    refine .absent fun k₁ v hk₁ => ?_
    obtain ⟨k₂, rfl, hk₂⟩ := under_some hk₁
    obtain ⟨y, k₃, rfl, hy⟩ := split_some hk₂
    by_cases hby : b = y
    · subst hby
      rw [wanted_cons]
      exact h k₃ v hy
    · rw [wanted_part _ _ _ hby]
      exact hb.resolve_left (by simp)
  | found hval hwanted h =>
    refine .found (by rw [under_split_append]; exact hval) ((wanted_cons ..).2 hwanted) fun k₁ v hk₁ hw => ?_
    obtain ⟨k₂, rfl, hk₂⟩ := under_some hk₁
    obtain ⟨y, k₃, rfl, hy⟩ := split_some hk₂
    by_cases hby : b = y
    · subst hby
      rw [wanted_cons] at hw
      rcases h k₃ v hy hw with rfl | hahead
      · exact .inl rfl
      · right
        rwa [ahead_append, ahead_cons_self]
    · rw [wanted_part _ _ _ hby] at hw
      right
      rwa [ahead_part _ _ _ hby]

theorem Nearest.other {d e allow_eq b : Bool} {label k k' rest : List Bool}
    (h : Nearest e e (if b then g₁ else g₀) k allow_eq (rest, none)) (hb : b = after label d e)
    (hfirst : First e e (if !b then g₁ else g₀) k' val) :
    Nearest d e (under label (split g₀ g₁)) (label ++ b :: k) allow_eq (label ++ (!b) :: k', some val) := by
  have hne : b ≠ !b := by simp
  refine .found (by rw [under_split_append]; exact hfirst.1) ((wanted_part _ _ _ hne).2 hb) fun k₁ v hk₁ hw => ?_
  obtain ⟨k₂, rfl, hk₂⟩ := under_some hk₁
  obtain ⟨y, k₃, rfl, hy⟩ := split_some hk₂
  by_cases hby : b = y
  · subst hby
    rw [wanted_cons] at hw
    cases h with
    | absent h => exact absurd hw (h k₃ v hy)
  · obtain rfl : y = !b := by cases b <;> cases y <;> simp_all
    rcases hfirst.2 k₃ v hy with rfl | hahead
    · exact .inl rfl
    · right
      rwa [ahead_append, ahead_cons_self]

theorem dict_lookup_nearest_spec (h : Readable label_mode n f c) {key : List Bool} (hk : key.length = n) (allow_eq d e : Bool) :
    ∃ r, dict_lookup_nearest label_mode (some c) key n allow_eq (modeOf d e) = .ok r ∧ Nearest (!d) (!e) f key allow_eq r := by
  induction n using Nat.strong_induction_on generalizing f c key d with
  | _ n ih =>
  have htake : key.take n = key := List.take_of_length_le (by omega)
  obtain ⟨label, m, g, payload, p, hn, rfl, hp, hr, hunder⟩ := h.exists_node
  have hle := same_upto_le_left label key
  rw [dict_lookup_nearest.eq_def]
  simp only [hp, ok_bind, htake, hr.l_bits, hr.common_prefix_len]
  rw [dif_neg (by omega)]
  by_cases hlt : same_upto label key < label.length
  · -- the label leaves the key
    rw [if_pos hlt]
    obtain ⟨p, x, q, k, hlen, rfl, rfl⟩ := same_upto_split hlt (by omega)
    have hbit : (p ++ (!x) :: k).getD p.length false = !x := by simp
    rw [← hlen, modeOf_after, modeOf_bit, hbit]
    by_cases hdir : (!x) = after p d e
    · rw [if_pos hdir]
      refine ⟨_, rfl, .off ?_⟩
      rw [after_not, ← hdir, Bool.not_not]
    · rw [if_neg hdir, modeOf_not]
      obtain ⟨key', val, hmin, hfirst⟩ := dict_lookup_minmax_spec h (!d) (!e)
      rw [hmin]
      refine ⟨_, rfl, .of_first ?_ hfirst⟩
      rw [after_not]
      intro heq
      exact hdir (by rw [heq, Bool.not_not])
  · rw [if_neg hlt]
    have hprefix : label <+: key := same_upto_eq_length.1 (by omega)
    cases hunder with
    | leaf v =>
      obtain rfl : label = key := hprefix.eq_of_length (by omega)
      rw [dif_pos (by omega), hr.skip_label]
      refine ⟨_, rfl, ?_⟩
      have hfirst := First.leaf (!d) (!e) label payload
      cases allow_eq with
      | true => exact .found hfirst.1 (.inr ⟨rfl, rfl⟩) fun k v hk _ => hfirst.2 k v hk
      | false =>
        refine .absent fun k v hk => ?_
        obtain ⟨k', rfl, hk'⟩ := under_some hk
        rw [(single_some hk').1, List.append_nil]
        rintro (hahead | ⟨hfalse, -⟩)
        · exact ahead_irrefl _ _ _ hahead
        · cases hfalse
    | @fork bits m g₀ g₁ c1 c2 refs h1 h2 =>
      obtain ⟨k, hkey, hdrop, htk⟩ := exists_next_bit hprefix (by omega)
      obtain ⟨b, hb⟩ : ∃ b, key.getD label.length false = b := ⟨_, rfl⟩
      have hkl : k.length = m := by
        have hlen := congrArg List.length hkey
        simp only [List.length_append, List.length_cons] at hlen
        omega
      rw [hb] at hkey
      have hchild := fun x : Bool => (hr.prefetch_ref x.toNat).trans (prefetch_ref_side bits c1 c2 refs x)
      obtain ⟨⟨rest, res⟩, hrec, hnear⟩ := ih m (by omega) (h1.side h2 b) hkl e
      rw [dif_neg (by omega)]
      simp only [hb, hdrop, htk, hchild, show n - label.length - 1 = m by omega]
      rw [modeOf_after, modeOf_bit, modeOf_half, hrec, ok_bind]
      subst hkey
      by_cases hdone : (res.isSome || b == after label d e) = true
      · rw [if_pos hdone]
        refine ⟨_, rfl, hnear.child ?_⟩
        rw [Bool.or_eq_true, beq_iff_eq] at hdone
        rw [after_not]
        refine hdone.imp id fun heq hne => ?_
        rw [heq] at hne
        simp at hne
      · rw [if_neg hdone, modeOf_not, modeOf_half]
        rw [Bool.or_eq_true, beq_iff_eq, not_or, Bool.not_eq_true, isSome_eq_false_iff, isNone_iff_eq_none] at hdone
        obtain ⟨rfl, hdir⟩ := hdone
        obtain rfl : b = !after label d e := Bool.eq_not.2 hdir
        obtain ⟨k', val, hmin, hfirst⟩ := dict_lookup_minmax_spec (h1.side h2 (after label d e)) (!e) (!e)
        rw [hmin]
        refine ⟨_, rfl, ?_⟩
        have hother : Nearest (!d) (!e) (under label (split g₀ g₁)) (label ++ (!after label d e) :: k) allow_eq
            (label ++ (!!after label d e) :: k', some val) := hnear.other (after_not d e label).symm (by rwa [Bool.not_not])
        rwa [Bool.not_not] at hother

end Search

/-! ## The methods -/

/-- The order of a search: by the numbers that the keys stand for, upwards or downwards. -/
def Precedes (up s : Bool) (a b : List Bool) : Prop := if up then number s a < number s b else number s b < number s a

variable {wanted : List Bool → Prop} {up s : Bool}

theorem ahead_precedes {a b : List Bool} (hl : a.length = b.length) : Ahead ((!up) ^^ s) (!up) a b ↔ Precedes up s a b := by
  rw [ahead_iff hl]
  cases up <;> rfl

/-- `r` is the first of the wanted keys with its value, or the buffer as it was if there is none. -/
structure IsFirst (up s : Bool) (f : BitMap CellSlice) (wanted : List Bool → Prop) (key : List Bool) (r : List Bool × Option CellSlice) :
    Prop where
  none_iff : r.2 = none ↔ ∀ k, (f k).isSome = true → ¬ wanted k
  unchanged : r.2 = none → r.1 = key
  found : ∀ val, r.2 = some val → f r.1 = some val ∧ wanted r.1 ∧ ∀ k, (f k).isSome = true → wanted k → k = r.1 ∨ Precedes up s r.1 k

theorem IsFirst.of_absent {f : BitMap CellSlice} {key : List Bool}
    (h : ∀ k v, f k = some v → ¬ wanted k) : IsFirst up s f wanted key (key, none) := by
  refine ⟨iff_of_true rfl fun k hk => ?_, fun _ => rfl, fun val hval => by cases hval⟩
  obtain ⟨v, hv⟩ := isSome_iff_exists.1 hk
  exact h k v hv

theorem IsFirst.of_found {f : BitMap CellSlice} {key key' : List Bool} {val : CellSlice}
    (hval : f key' = some val) (hwanted : wanted key') (h : ∀ k v, f k = some v → wanted k → k = key' ∨ Precedes up s key' k) :
    IsFirst up s f wanted key (key', some val) := by
  refine ⟨iff_of_false (by simp) fun hnone => ?_, ?_, fun w hw => ?_⟩
  · exact hnone key' (by rw [hval]; rfl) hwanted
  · intro hnone
    cases hnone
  · cases hw
    refine ⟨hval, hwanted, fun k hk => ?_⟩
    obtain ⟨v, hv⟩ := isSome_iff_exists.1 hk
    exact h k v hv

section Methods
variable {d : DictionaryFixed} {f : BitMap CellSlice}

section
variable (hd : ReadableRoot d.methods.label_mode d.key_bits f d.root_cell) (hmax : d.key_bits ≤ max_key_bits) {key : List Bool}
  (hkey : key.length = d.key_bits)
include hd hmax hkey

theorem lookup_nearest_key_spec (fetch_next allow_eq invert_first : Bool) :
    ∃ r, d.lookup_nearest_key key fetch_next allow_eq invert_first = .ok r ∧
      IsFirst fetch_next invert_first f (fun k => Precedes fetch_next invert_first key k ∨ allow_eq = true ∧ k = key) key r := by
  rw [DictionaryFixed.lookup_nearest_key, d.force_validate_ok hmax, ok_bind, if_neg (by omega), minmax_mode_eq]
  have hlen : ∀ {k v}, f k = some v → key.length = k.length := fun hk => hkey.trans (hd.length hk).symm
  obtain ⟨root_cell, key_bits, methods⟩ := d
  dsimp only at hd hmax hkey
  subst hkey
  cases root_cell with
  | none =>
    rw [show f = empty from hd]
    exact ⟨_, by rw [dict_lookup_nearest.eq_def], .of_absent fun k v hk => by cases hk⟩
  | some c =>
    obtain ⟨r, hr, hnear⟩ := dict_lookup_nearest_spec hd rfl allow_eq (fetch_next ^^ invert_first) fetch_next
    refine ⟨r, hr, ?_⟩
    rw [← Bool.not_xor] at hnear
    cases hnear with
    | absent h =>
      refine .of_absent fun k v hk => ?_
      rw [← ahead_precedes (hlen hk)]
      exact h k v hk
    | found hval hwanted h =>
      refine .of_found hval ?_ fun k v hk hw => ?_
      · rw [← ahead_precedes (hlen hval)]
        exact hwanted
      · rw [← ahead_precedes (hlen hk)] at hw
        rw [← ahead_precedes ((hlen hval).symm.trans (hlen hk))]
        exact h k v hk hw

theorem get_minmax_key_spec (fetch_max invert_first : Bool) :
    ∃ r, d.get_minmax_key key fetch_max invert_first = .ok r ∧ IsFirst (!fetch_max) invert_first f (fun _ => True) key r := by
  rw [DictionaryFixed.get_minmax_key, d.force_validate_ok hmax, ok_bind, if_neg (by omega), minmax_mode_eq]
  have hlen : ∀ {k v}, f k = some v → k.length = d.key_bits := fun hk => hd.length hk
  rw [hkey]
  cases hc : d.root_cell with
  | none =>
    rw [hc] at hd
    rw [show f = empty from hd]
    exact ⟨_, rfl, .of_absent fun k v hk => by cases hk⟩
  | some c =>
    rw [hc] at hd
    obtain ⟨key', val, hmin, hval, hfirst⟩ := dict_lookup_minmax_spec hd (fetch_max ^^ invert_first) fetch_max
    rw [hmin]
    refine ⟨_, rfl, .of_found hval trivial fun k v hk _ => (hfirst k v hk).imp id fun hahead => ?_⟩
    rw [← ahead_precedes ((hlen hval).trans (hlen hk).symm), Bool.not_not]
    exact hahead

end

/-- Ordered lookups find the least key above or the greatest key below, and the least or the greatest key of all. -/
theorem ordered_lookups (hd : ReadableRoot d.methods.label_mode d.key_bits f d.root_cell) (hmax : d.key_bits ≤ max_key_bits) (key : List Bool)
    (hkey : key.length = d.key_bits) (fetch_next allow_eq fetch_max invert_first : Bool) :
    (∃ r, d.lookup_nearest_key key fetch_next allow_eq invert_first = .ok r ∧
      IsFirst fetch_next invert_first f (fun k => Precedes fetch_next invert_first key k ∨ allow_eq = true ∧ k = key) key r) ∧
    ∃ r, d.get_minmax_key key fetch_max invert_first = .ok r ∧ IsFirst (!fetch_max) invert_first f (fun _ => True) key r :=
  ⟨lookup_nearest_key_spec hd hmax hkey fetch_next allow_eq invert_first, get_minmax_key_spec hd hmax hkey fetch_max invert_first⟩

/-- The key above -2 in a dictionary of 1 and -1. -/
theorem ordered_lookups_two_keys :
    let ops : List Op := [.set [false, true] ⟨[true], []⟩ .Set, .set [true, true] ⟨[], []⟩ .Set]
    ∃ d rs r, Op.execAll ⟨none, 2⟩ ops = .ok (d, rs) ∧
      DictionaryFixed.lookup_nearest_key ⟨d.root_cell, 2, .fixed⟩ [true, false] true false true = .ok r ∧
      IsFirst true true (Op.specAll empty ops).1 (fun k => Precedes true true [true, false] k ∨ false = true ∧ k = [true, false])
        [true, false] r := by
  intro ops
  obtain ⟨d, rs, h, hd⟩ := exists_execAll (show 2 ≤ max_key_bits by decide) (show ∀ op ∈ ops, _ by decide) (by decide +kernel)
  have hread := hd.readable
  obtain ⟨⟨r, hr, hfirst⟩, -⟩ := ordered_lookups (d := ⟨d.root_cell, 2, .fixed⟩) hread (show 2 ≤ max_key_bits by decide)
      [true, false] rfl true false false true
  exact ⟨d, rs, r, h, hr, hfirst⟩

end Methods

end Ton.Dict
