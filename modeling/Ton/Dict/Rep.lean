import Ton.Lib.Trie
import Ton.Dict.Dictionary
/-!
# The map a dictionary cell stands for

`Root K n f c`: the cell `c`, or the null cell, is the dictionary with keys of at
most `n` bits that holds the map `f`. The kind `K` says how values and children
are laid out in a payload; it is what the three classes of dictionaries differ in.

Behind `Root` is a trie, so a map has only one cell (`Root.unique`). The
operations are checked through `Root.exists_node` and `Root.mk`, which take one
node apart and put one together.
-/

namespace Ton.Dict

open BigEndian CellTraits Result BitMap

/-- The layout of payloads under an edge after which up to `m` key bits are left. -/
structure Kind where
  Leaf : (m : Nat) → (value payload : CellSlice) → Prop
  Fork : (m : Nat) → (c1 c2 : DataCell) → (payload : CellSlice) → Prop

/-- The map of a single value with no key bits left. -/
def single (v : CellSlice) : BitMap CellSlice := Function.update empty [] (some v)

theorem under_single (label : List Bool) (v : CellSlice) :
    under label (single v) = Function.update empty label (some v) := by
  rw [single, ← update_under, under_empty, List.append_nil]

inductive Rep (K : Kind) : Nat → Trie CellSlice → DataCell → Prop
  | leaf {label : List Bool} {m : Nat} {v p : CellSlice} {c : DataCell} :
      K.Leaf m v p → Node label (label.length + m) p c → Rep K (label.length + m) (.leaf label v) c
  | fork {label : List Bool} {m : Nat} {l r : Trie CellSlice} {c1 c2 c : DataCell} {p : CellSlice} :
      Rep K m l c1 → Rep K m r c2 → K.Fork (m + 1) c1 c2 p → Node label (label.length + (m + 1)) p c →
        Rep K (label.length + (m + 1)) (.fork label l r) c

def Root (K : Kind) (n : Nat) (f : BitMap CellSlice) : Option DataCell → Prop
  | none => f = empty
  | some c => ∃ t, Rep K n t c ∧ t.lookup = f

/-- A payload under an edge, and the map of the keys from there on. -/
inductive Payload (K : Kind) : Nat → BitMap CellSlice → CellSlice → Prop
  | leaf {m : Nat} {v p : CellSlice} : K.Leaf m v p → Payload K m (single v) p
  | fork {m : Nat} {f g : BitMap CellSlice} {c1 c2 : DataCell} {p : CellSlice} :
      Root K m f (some c1) → Root K m g (some c2) → K.Fork (m + 1) c1 c2 p → Payload K (m + 1) (split f g) p

section Root
variable {K : Kind} {n : Nat} {f : BitMap CellSlice}

theorem Root.exists_node {c : DataCell} (h : Root K n f (some c)) :
    ∃ label m g p, n = label.length + m ∧ f = under label g ∧ Payload K m g p ∧ Node label n p c := by
  obtain ⟨t, ht, rfl⟩ := h
  cases ht with
  | leaf hv hn => exact ⟨_, _, _, _, rfl, (under_single _ _).symm, .leaf hv, hn⟩
  | fork hl hr hp hn => exact ⟨_, _, _, _, rfl, rfl, .fork ⟨_, hl, rfl⟩ ⟨_, hr, rfl⟩ hp, hn⟩

theorem Root.mk {label : List Bool} {m : Nat} {g : BitMap CellSlice} {p : CellSlice} {c : DataCell}
    (hp : Payload K m g p) (hm : n = label.length + m) (hn : Node label n p c) : Root K n (under label g) (some c) := by
  subst hm
  cases hp with
  | leaf hv => exact ⟨_, .leaf hv hn, (under_single _ _).symm⟩
  | fork hl hr hp =>
    obtain ⟨l, hl, rfl⟩ := hl
    obtain ⟨r, hr, rfl⟩ := hr
    exact ⟨_, .fork hl hr hp hn, rfl⟩

/-- The payload of a value, and that of two children, is fixed by the kind. -/
structure Kind.Canonical (K : Kind) : Prop where
  leaf : ∀ {m : Nat} {v p p' : CellSlice}, K.Leaf m v p → K.Leaf m v p' → p = p'
  fork : ∀ {m : Nat} {c1 c2 : DataCell} {p p' : CellSlice}, K.Fork m c1 c2 p → K.Fork m c1 c2 p' → p = p'

theorem Rep.unique (hK : K.Canonical) {t : Trie CellSlice} {c c' : DataCell} (h : Rep K n t c) (h' : Rep K n t c') :
    c = c' := by
  induction h generalizing c' with
  | @leaf label m v p c hv hn =>
    generalize hk : label.length + m = k at *
    cases h' with
    | leaf hv' hn' =>
      obtain rfl : m = _ := Nat.add_left_cancel hk
      obtain rfl := hK.leaf hv hv'
      exact hn.unique hn'
  | @fork label m l r c1 c2 c p hl hr hp hn ihl ihr =>
    generalize hk : label.length + (m + 1) = k at *
    cases h' with
    | fork hl' hr' hp' hn' =>
      obtain rfl : m = _ := Nat.succ.inj (Nat.add_left_cancel hk)
      obtain rfl := ihl hl'
      obtain rfl := ihr hr'
      obtain rfl := hK.fork hp hp'
      exact hn.unique hn'

theorem Root.unique (hK : K.Canonical) {c c' : Option DataCell} (h : Root K n f c) (h' : Root K n f c') : c = c' := by
  -- a trie has a key, so only the null cell stands for the empty map
  have nonempty : ∀ {t : Trie CellSlice}, t.lookup ≠ empty := by
    intro t ht
    obtain ⟨k, v, hk⟩ := t.exists_key
    rw [ht] at hk
    cases hk
  cases c with
  | none =>
    cases c' with
    | none => rfl
    | some c' =>
      obtain ⟨t, -, ht⟩ := h'
      exact absurd (ht.trans h) nonempty
  | some c =>
    obtain ⟨t, hc, rfl⟩ := h
    cases c' with
    | none => exact absurd h' nonempty
    | some c' =>
      obtain ⟨t', hc', ht⟩ := h'
      obtain rfl := Trie.lookup_injective ht
      rw [hc.unique hK hc']

theorem Root.eq_none_of_empty {c : Option DataCell} (hK : K.Canonical) (h : Root K n empty c) : c = none :=
  h.unique hK (show Root K n empty none from rfl)

end Root

end Ton.Dict
