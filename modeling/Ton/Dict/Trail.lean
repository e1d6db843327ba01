import Ton.Dict.Iterator
/-!
# Where an iterator stands

`Trail` is what holds of the path of an iterator at any time: it leads from the root to a
node, along the bits that the key buffer starts with. `dive` goes to the first key below
(`dive_spec`), the way back finds the first key behind all keys below (`backtrack_spec`).
Both are told for the directions `d` at the first bit of a key and `e` at the others.
-/

namespace Ton.Dict
open List hiding after

open Result BitMap BitOrder

/-! ## Modes -/

theorem turn_modeOf (d e back : Bool) : turn (modeOf d e) back = modeOf (d ^^ back) (e ^^ back) := by
  cases d <;> cases e <;> cases back <;> rfl

theorem bit_at_modeOf (d e : Bool) (p : List Bool) : bit_at (modeOf d e) p.length = after p d e := by
  cases p with
  | nil => exact modeOf_bit d e
  | cons x p =>
    rw [bit_at, if_pos (by simp), modeOf_half]
    exact modeOf_bit e e

/-! ## The key buffer -/

theorem put_prefix {key p q : List Bool} {n : Nat} (hkey : key.length = n) (hp : p <+: key) (hlen : p.length + q.length ≤ n) :
    (put key p.length q).length = n ∧ p ++ q <+: put key p.length q := by
  obtain ⟨r, rfl⟩ := hp
  rw [put, take_left]
  refine ⟨?_, _, rfl⟩
  simp only [length_append, length_drop] at hkey ⊢
  omega

/-! ## Trails -/

section Trail
variable (label_mode : Check) (root : DataCell) (n : Nat) (f : BitMap CellSlice)

/-- The path leads to the node `c`, which holds the map `g` of the keys that go on after `pre`. -/
inductive Trail : List Fork → List Bool → DataCell → BitMap CellSlice → Prop
  | nil (h : Readable label_mode n f root) : Trail [] [] root f
  | cons {path : List Fork} {pre label bits : List Bool} {c c1 c2 : DataCell} {refs : List DataCell} {g₀ g₁ : BitMap CellSlice} {m : Nat}
      {p : LabelParser} (b : Bool) (h : Trail path pre c (under label (split g₀ g₁))) (hp : LabelParser.parse c (n - pre.length) label_mode = .ok p)
      (hr : p.Reads label ⟨bits, c1 :: c2 :: refs⟩) (hm : n - pre.length = label.length + (m + 1)) (h1 : Readable label_mode m g₀ c1)
      (h2 : Readable label_mode m g₁ c2) :
      Trail (⟨some (if b then c2 else c1), some (if !b then c2 else c1), pre.length + label.length, b⟩ :: path) (pre ++ label ++ [b])
        (if b then c2 else c1) (if b then g₁ else g₀)

variable {label_mode root n f} {path : List Fork} {pre : List Bool} {c : DataCell} {g : BitMap CellSlice}

section
variable (h : Trail label_mode root n f path pre c g)
include h

theorem Trail.length_le : pre.length ≤ n := by
  cases h with
  | nil h => exact Nat.zero_le n
  | cons b h hp hr hm h1 h2 =>
    simp only [length_append, length_singleton]
    omega

theorem Trail.readable : Readable label_mode (n - pre.length) g c := by
  cases h with
  | nil h => exact h
  | @cons path pre label bits c c1 c2 refs g₀ g₁ m p b h hp hr hm h1 h2 =>
    have hlen : n - (pre ++ label ++ [b]).length = m := by
      simp only [length_append, length_singleton]
      omega
    rw [hlen]
    exact h1.side h2 b

theorem Trail.lookup (k : List Bool) : f (pre ++ k) = g k := by
  induction h generalizing k with
  | nil h => rfl
  | cons b h hp hr hm h1 h2 ih =>
    rw [append_assoc, append_assoc, ih, singleton_append, under_split_append]

theorem Trail.node (it : DictIterator) (hroot : it.root_ = some root) (hpath : it.path_ = path) :
    it.node = (some c, pre.length) := by
  rw [DictIterator.node, hpath]
  cases h with
  | nil h => rw [hroot]; rfl
  | cons b h hp hr hm h1 h2 =>
    simp only [length_append, length_singleton]

theorem Trail.mode (d e : Bool) :
    (if path.isEmpty then modeOf d e else modeOf d e / 2) = modeOf (after pre d e) e := by
  cases h with
  | nil h => rfl
  | cons b h hp hr hm h1 h2 =>
    rw [isEmpty_cons, if_neg Bool.false_ne_true, modeOf_half, after, if_neg (by simp)]

end

theorem Trail.push {label bits key : List Bool} {c1 c2 : DataCell} {refs : List DataCell} {g₀ g₁ : BitMap CellSlice} {m : Nat} {p : LabelParser}
    (h : Trail label_mode root n f path pre c (under label (split g₀ g₁))) (hp : LabelParser.parse c (n - pre.length) label_mode = .ok p)
    (hr : p.Reads label ⟨bits, c1 :: c2 :: refs⟩) (hm : n - pre.length = label.length + (m + 1)) (h1 : Readable label_mode m g₀ c1)
    (h2 : Readable label_mode m g₁ c2) (hkey : key.length = n) (hpre : pre ++ label <+: key) (b : Bool) :
    (put key (pre ++ label).length [b]).length = n ∧ pre ++ label ++ [b] <+: put key (pre ++ label).length [b] ∧
      Trail label_mode root n f
        (⟨CellSlice.prefetch_ref ⟨bits, c1 :: c2 :: refs⟩ b.toNat, CellSlice.prefetch_ref ⟨bits, c1 :: c2 :: refs⟩ (!b).toNat,
          (pre ++ label).length, b⟩ :: path)
        (pre ++ label ++ [b]) (if b then c2 else c1) (if b then g₁ else g₀) := by
  have hlen : (pre ++ label).length + [b].length ≤ n := by
    rw [length_append, length_singleton]
    omega
  obtain ⟨hput, hpfx⟩ := put_prefix hkey hpre hlen
  refine ⟨hput, hpfx, ?_⟩
  rw [prefetch_ref_side, prefetch_ref_side, length_append]
  exact .cons b h hp hr hm h1 h2

end Trail

/-! ## Wanted keys -/

section Wanted
variable {d e : Bool} {f : BitMap CellSlice} {wanted wanted' : List Bool → Prop} {pre label : List Bool}

/-- The first of the wanted keys with its value, if there is one. -/
inductive FirstOf (d e : Bool) (f : BitMap CellSlice) (wanted : List Bool → Prop) : Option (List Bool × CellSlice) → Prop
  | absent (h : ∀ k v, f k = some v → ¬ wanted k) : FirstOf d e f wanted none
  | found {key : List Bool} {val : CellSlice} (hval : f key = some val) (hwanted : wanted key)
      (h : ∀ k v, f k = some v → wanted k → k = key ∨ Ahead d e key k) : FirstOf d e f wanted (some (key, val))

theorem FirstOf.congr {o : Option (List Bool × CellSlice)} (h : FirstOf d e f wanted o) (hiff : ∀ k v, f k = some v → (wanted k ↔ wanted' k)) :
    FirstOf d e f wanted' o := by
  cases h with
  | absent h => exact .absent fun k v hk hw => h k v hk ((hiff k v hk).2 hw)
  | found hval hwanted h => exact .found hval ((hiff _ _ hval).1 hwanted) fun k v hk hw => h k v hk ((hiff k v hk).2 hw)

/-- All keys that start with `pre` are wanted, and no wanted key is ahead of them. -/
structure Takes (d e : Bool) (f : BitMap CellSlice) (wanted : List Bool → Prop) (pre : List Bool) : Prop where
  all : ∀ k v, f (pre ++ k) = some v → wanted (pre ++ k)
  others : ∀ k v, f k = some v → wanted k → pre <+: k ∨ Past d e pre k

theorem exists_of_under {g : BitMap CellSlice} (hg : ∀ k, f (pre ++ k) = under label g k) {k : List Bool} {v : CellSlice} (hk : f k = some v)
    (hp : pre <+: k) : ∃ r, k = pre ++ label ++ r ∧ g r = some v := by
  obtain ⟨r, rfl⟩ := hp
  rw [hg] at hk
  obtain ⟨r, rfl, hr⟩ := under_some hk
  exact ⟨r, by rw [append_assoc], hr⟩

variable {g₀ g₁ : BitMap CellSlice}

theorem exists_of_fork (hg : ∀ k, f (pre ++ k) = under label (split g₀ g₁) k) {k : List Bool} {v : CellSlice}
    (hk : f k = some v) (hp : pre <+: k) : ∃ y r, k = pre ++ label ++ y :: r ∧ (if y then g₁ else g₀) r = some v := by
  obtain ⟨r, rfl, hr⟩ := exists_of_under hg hk hp
  obtain ⟨y, s, rfl, hs⟩ := split_some hr
  exact ⟨y, s, rfl, hs⟩

theorem past_leave {n : Nat} {q k : List Bool} (hlen : k.length = n) (hq : (pre ++ q).length ≤ n) (hp : ¬ pre <+: k) :
    Past d e (pre ++ q) k ↔ Past d e pre k := by
  rw [length_append] at hq
  exact past_append_of_not_prefix (by omega) hp

theorem past_bit (p r : List Bool) (x y : Bool) : Past d e (p ++ [x]) (p ++ y :: r) ↔ y ≠ x ∧ x = after p d e := by
  rw [past_append_left, past_cons]

theorem Takes.branch {n : Nat} (h : Takes d e f wanted pre) (hlen : ∀ k v, f k = some v → k.length = n)
    (hl : (pre ++ label).length < n) (hg : ∀ k, f (pre ++ k) = under label (split g₀ g₁) k) :
    Takes d e f wanted (pre ++ label ++ [after (pre ++ label) d e]) := by
  refine ⟨fun k v hk => ?_, fun k v hk hw => ?_⟩
  · rw [append_assoc, append_assoc] at hk ⊢
    exact h.all _ v hk
  · by_cases hp : pre <+: k
    · obtain ⟨y, r, rfl, -⟩ := exists_of_fork hg hk hp
      by_cases hy : y = after (pre ++ label) d e
      · left
        subst hy
        exact ⟨r, by simp⟩
      · right
        rw [past_bit]
        exact ⟨hy, rfl⟩
    · right
      rw [append_assoc, past_leave (hlen k v hk) (by simp at hl ⊢; omega) hp]
      exact (h.others k v hk hw).resolve_left hp

theorem Takes.leaf {n : Nat} {val : CellSlice} (h : Takes d e f wanted pre) (hlen : ∀ k v, f k = some v → k.length = n)
    (hl : (pre ++ label).length = n) (hg : ∀ k, f (pre ++ k) = under label (single val) k) : FirstOf d e f wanted (some (pre ++ label, val)) := by
  have hval : f (pre ++ label) = some val := by
    have hempty := under_append label [] (single val)
    rw [append_nil, single_nil] at hempty
    rw [hg, hempty]
  refine .found hval (h.all label val hval) fun k v hk hw => ?_
  rcases h.others k v hk hw with hp | hpast
  · obtain ⟨r, rfl, hr⟩ := exists_of_under hg hk hp
    rw [(single_some hr).1, append_nil]
    exact .inl rfl
  · exact .inr (hpast.ahead (hl.trans (hlen k v hk).symm))

end Wanted

/-! ## Standing at a key -/

section Stands
variable (label_mode : Check) (root : DataCell) (n : Nat) (order : Int) (f : BitMap CellSlice)

/-- What no call changes, of an iterator over a dictionary that is not empty. -/
structure Over (it : DictIterator) : Prop where
  root_eq : it.root_ = some root
  mode_eq : it.label_mode_ = label_mode
  bits_eq : it.key_bits_ = n
  order_eq : it.order_ = order
  buffer : it.key_buffer.length = n
  pos : 0 < n
  le_max : n ≤ max_key_bits

theorem Over.write {it : DictIterator} {label_mode : Check} {root : DataCell} {n : Nat} {order : Int} (hit : Over label_mode root n order it)
    {key : List Bool} (hkey : key.length = n) (path : List Fork) (leaf : Option CellSlice) :
    Over label_mode root n order { it with key_buffer := key, path_ := path, leaf_ := leaf } :=
  ⟨hit.root_eq, hit.mode_eq, hit.bits_eq, hit.order_eq, hkey, hit.pos, hit.le_max⟩

/-- The path ends above the leaf of the key. -/
structure AtLeaf (path : List Fork) (key : List Bool) (val : CellSlice) : Prop where
  leads : ∃ pre label c p, Trail label_mode root n f path pre c (under label (single val)) ∧
    LabelParser.parse c (n - pre.length) label_mode = .ok p ∧ p.Reads label val ∧ n - pre.length = label.length ∧ key = pre ++ label

inductive Stands (it : DictIterator) : Option (List Bool × CellSlice) → Prop
  | eof (hit : Over label_mode root n order it) (hpath : it.path_ = []) (hleaf : it.leaf_ = none) : Stands it none
  | key {val : CellSlice} (hit : Over label_mode root n order it) (hat : AtLeaf label_mode root n f it.path_ it.key_buffer val)
      (hleaf : it.leaf_ = some val) : Stands it (some (it.key_buffer, val))

/-- The call ends at the first wanted key and returns true, or at the end and returns false. -/
def Reaches (d e : Bool) (wanted : List Bool → Prop) (r : Except Exc (DictIterator × Bool)) : Prop :=
  ∃ it' o, r = .ok (it', o.isSome) ∧ Stands label_mode root n order f it' o ∧ FirstOf d e f wanted o

variable {label_mode root n order f} {d e : Bool} {it : DictIterator} {path : List Fork} {pre : List Bool} {c : DataCell} {g : BitMap CellSlice}
  {wanted wanted' : List Bool → Prop}

theorem Reaches.congr {r : Except Exc (DictIterator × Bool)} (h : Reaches label_mode root n order f d e wanted r)
    (hiff : ∀ k v, f k = some v → (wanted k ↔ wanted' k)) : Reaches label_mode root n order f d e wanted' r := by
  obtain ⟨it', o, hr, hs, ho⟩ := h
  exact ⟨it', o, hr, hs, ho.congr hiff⟩

theorem Trail.root_readable (h : Trail label_mode root n f path pre c g) : Readable label_mode n f root := by
  induction h with
  | nil h => exact h
  | cons b h hp hr hm h1 h2 ih => exact ih

theorem Trail.key_length (h : Trail label_mode root n f path pre c g) {k : List Bool} {v : CellSlice} (hk : f k = some v) : k.length = n :=
  h.root_readable.length hk

open DictIterator

theorem dive_loop_spec (h : Trail label_mode root n f path pre c g) {key : List Bool} (hkey : key.length = n) (hpre : pre <+: key)
    (htakes : Takes d e f wanted pre) : ∃ key' path' val,
      dive_loop label_mode (some c) pre.length (n - pre.length) (modeOf (after pre d e) e) key path = .ok (key', path', val) ∧ key'.length = n ∧
      AtLeaf label_mode root n f path' key' val ∧ FirstOf d e f wanted (some (key', val)) := by
  have hlen : ∀ k v, f k = some v → k.length = n := fun k v hk => h.key_length hk
  have hle := h.length_le
  induction hm : n - pre.length using Nat.strong_induction_on generalizing path pre c g key with
  | _ m₀ ih =>
  obtain ⟨label, m, g', payload, p, hn, rfl, hp, hr, hunder⟩ := h.readable.exists_node
  rw [hm] at hp hn
  obtain ⟨hput, hpfx⟩ := put_prefix hkey hpre (q := label) (by omega)
  rw [dive_loop.eq_def]
  simp only [hp, ok_bind, hr.extract_label, hr.extract_l_bits]
  rw [dif_neg (by omega)]
  cases hunder with
  | leaf =>
    rw [dif_pos (by omega)]
    have hfull : (pre ++ label).length = n := by
      rw [length_append]
      omega
    have hkey' : put key pre.length label = pre ++ label := (hpfx.eq_of_length (hfull.trans hput.symm)).symm
    rw [hkey']
    have hp' : LabelParser.parse c (n - pre.length) label_mode = .ok p := by rw [hm]; exact hp
    exact ⟨_, _, _, rfl, hfull, ⟨⟨pre, label, c, p, h, hp', hr, by omega, rfl⟩⟩, htakes.leaf hlen hfull h.lookup⟩
  | @fork bits m g₀ g₁ c1 c2 refs h1 h2 =>
    rw [dif_neg (by omega), modeOf_after, modeOf_bit, modeOf_half, ← after_append]
    have hl : (pre ++ label).length < n := by
      rw [length_append]
      omega
    have hnext := htakes.branch hlen hl h.lookup
    generalize after (pre ++ label) d e = b at hnext ⊢
    have hp' : LabelParser.parse c (n - pre.length) label_mode = .ok p := by rw [hm]; exact hp
    obtain ⟨hput', hpfx', htrail⟩ := h.push hp' hr (by omega) h1 h2 hput hpfx b
    have hlast : (pre ++ label ++ [b]).length = pre.length + label.length + 1 := by
      simp only [length_append, length_singleton]
    have hafter : after (pre ++ label ++ [b]) d e = e := if_neg (by simp)
    obtain ⟨key', path', val, hrec, hrest⟩ := ih (n - (pre ++ label ++ [b]).length) (by omega) htrail hput' hpfx' hnext (by omega) rfl
    refine ⟨key', path', val, ?_, hrest⟩
    rw [← hrec, prefetch_ref_side, hlast, hafter, length_append, show m₀ - label.length - 1 = n - (pre.length + label.length + 1) by omega]

theorem dive_spec (hit : Over label_mode root n order it) (h : Trail label_mode root n f it.path_ pre c g) (hpre : pre <+: it.key_buffer)
    (htakes : Takes d e f wanted pre) {mode : Int} (hmode : (if it.path_.isEmpty then mode else mode / 2) = modeOf (after pre d e) e) :
    Reaches label_mode root n order f d e wanted (it.dive mode) ∧ ∃ it', it.dive mode = .ok (it', true) := by
  obtain ⟨key', path', val, hloop, hlen, hat, hfirst⟩ := dive_loop_spec h hit.buffer hpre htakes
  have hdive : it.dive mode = .ok ({ it with key_buffer := key', path_ := path', leaf_ := some val }, true) := by
    unfold dive
    rw [h.node it hit.root_eq rfl]
    dsimp only
    rw [hmode, hit.mode_eq, hit.bits_eq, hloop]
    rfl
  refine ⟨⟨_, some (key', val), hdive, .key (hit.write hlen _ _) hat rfl, hfirst⟩,
    _, hdive⟩

/-- The way back ends at the first key behind all those below the path. -/
theorem backtrack_spec (hit : Over label_mode root n order it) (h : Trail label_mode root n f path pre c g) (hpre : pre <+: it.key_buffer) :
    Reaches label_mode root n order f d e (Past d e pre) (it.backtrack (modeOf d e) path) := by
  induction h with
  | nil h =>
    exact ⟨_, none, rfl, .eof (hit.write hit.buffer _ _) rfl rfl,
      .absent fun k v _ => not_past_nil⟩
  | @cons path pre label bits c c1 c2 refs g₀ g₁ m p b h hp hr hm h1 h2 ih =>
    have hlen : ∀ k v, f k = some v → k.length = n := fun k v hk => h.key_length hk
    have hle : (pre ++ label ++ [b]).length ≤ n := by
      simp only [length_append, length_singleton]
      omega
    have hbuffer : pre ++ label <+: it.key_buffer := (prefix_append _ _).trans hpre
    rw [backtrack]
    dsimp only
    rw [← length_append, bit_at_modeOf]
    by_cases hb : b = after (pre ++ label) d e
    · rw [if_pos hb]
      obtain ⟨hput, hpfx⟩ := put_prefix (q := [!b]) hit.buffer hbuffer (by simpa only [length_append, length_singleton] using hle)
      have htrail := Trail.cons (!b) h hp hr hm h1 h2
      rw [Bool.not_not, ← length_append] at htrail
      refine (dive_spec (hit.write hput _ _) htrail hpfx
        ⟨fun k v _ => ?_, fun k v hk hw => ?_⟩ (htrail.mode d e)).1
      · rw [append_assoc (pre ++ label), singleton_append, past_bit]
        exact ⟨by simp, hb⟩
      · by_cases hpk : pre <+: k
        · obtain ⟨y, r, rfl, -⟩ := exists_of_fork h.lookup hk hpk
          rw [past_bit] at hw
          obtain rfl : y = !b := Bool.eq_not.2 hw.1
          exact .inl ⟨r, by simp⟩
        · right
          rw [append_assoc, past_leave (hlen k v hk) (by simpa [append_assoc] using hle) hpk] at hw ⊢
          exact hw
    · rw [if_neg hb]
      refine (ih ((prefix_append _ _).trans hbuffer)).congr fun k v hk => ?_
      by_cases hpk : pre <+: k
      · obtain ⟨y, r, rfl, -⟩ := exists_of_fork h.lookup hk hpk
        rw [past_bit, append_assoc]
        exact iff_of_false (not_past_append d e pre _) fun h => hb h.2
      · rw [append_assoc, past_leave (hlen k v hk) (by simpa using hle) hpk]

end Stands

end Ton.Dict
