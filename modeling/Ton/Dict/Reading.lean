import Ton.Dict.Refine
/-!
# Dictionaries as they are read

`Readable` is a dictionary that was not necessarily written by this code: its labels
are taken by the parser, in whatever form, and each fork has two children. The map is
that of the payloads of the leaves. Dictionaries that hold a map are readable
(`Root.readable`), with its values as the layout stores them.
-/

namespace Ton.Dict
open Result BitMap Function

/-- The cell `c` is read as a dictionary with keys of `n` bits, with the payloads `f`. -/
inductive Readable (label_mode : Check) : Nat → BitMap CellSlice → DataCell → Prop
  | leaf {label : List Bool} {v : CellSlice} {c : DataCell} {p : LabelParser} :
      LabelParser.parse c label.length label_mode = .ok p → p.Reads label v → Readable label_mode label.length (under label (single v)) c
  | fork {label bits : List Bool} {m : Nat} {f g : BitMap CellSlice} {c1 c2 c : DataCell} {refs : List DataCell} {p : LabelParser} :
      LabelParser.parse c (label.length + (m + 1)) label_mode = .ok p → p.Reads label ⟨bits, c1 :: c2 :: refs⟩ →
        Readable label_mode m f c1 → Readable label_mode m g c2 → Readable label_mode (label.length + (m + 1)) (under label (split f g)) c

/-- The null cell is the empty dictionary. -/
def ReadableRoot (label_mode : Check) (n : Nat) (f : BitMap CellSlice) : Option DataCell → Prop
  | none => f = empty
  | some c => Readable label_mode n f c

/-- What is under an edge. -/
inductive Under (label_mode : Check) : Nat → BitMap CellSlice → CellSlice → Prop
  | leaf (v : CellSlice) : Under label_mode 0 (single v) v
  | fork {bits : List Bool} {m : Nat} {f g : BitMap CellSlice} {c1 c2 : DataCell} {refs : List DataCell} :
      Readable label_mode m f c1 → Readable label_mode m g c2 → Under label_mode (m + 1) (split f g) ⟨bits, c1 :: c2 :: refs⟩

/-- What `DictionaryFixed` has of its own, and the virtual methods. -/
structure DictionaryFixed where
  root_cell : Option DataCell
  key_bits : Nat
  methods : Virtual

def DictionaryFixed.force_validate (d : DictionaryFixed) : Except Exc Unit :=
  if d.key_bits > max_key_bits then .error (.vm .dict_err "invalid dictionary") else .ok ()

theorem DictionaryFixed.force_validate_ok {d : DictionaryFixed} (h : d.key_bits ≤ max_key_bits) : d.force_validate = .ok () := by
  rw [force_validate, if_neg (by omega)]

section Readable
variable {label_mode : Check} {n : Nat} {f : BitMap CellSlice} {c : DataCell}

theorem Readable.exists_node (h : Readable label_mode n f c) : ∃ label m g payload p, n = label.length + m ∧ f = under label g ∧
    LabelParser.parse c n label_mode = .ok p ∧ p.Reads label payload ∧ Under label_mode m g payload := by
  cases h with
  | leaf hp hr => exact ⟨_, 0, _, _, _, rfl, rfl, hp, hr, .leaf _⟩
  | fork hp hr h1 h2 => exact ⟨_, _, _, _, _, rfl, rfl, hp, hr, .fork h1 h2⟩

theorem Readable.side {m : Nat} {f g : BitMap CellSlice} {c1 c2 : DataCell} (h1 : Readable label_mode m f c1) (h2 : Readable label_mode m g c2)
    (b : Bool) : Readable label_mode m (if b then g else f) (if b then c2 else c1) := by
  cases b with
  | false => exact h1
  | true => exact h2

theorem prefetch_ref_side (bits : List Bool) (c1 c2 : DataCell) (refs : List DataCell) (b : Bool) :
    CellSlice.prefetch_ref ⟨bits, c1 :: c2 :: refs⟩ b.toNat = some (if b then c2 else c1) := by
  cases b <;> rfl

variable {k : List Bool}

theorem single_some {v w : CellSlice} (h : single v k = some w) : k = [] ∧ w = v := by
  by_cases hk : k = []
  · subst hk
    rw [single, update_self] at h
    exact ⟨rfl, (Option.some.inj h).symm⟩
  · rw [single, update_of_ne hk] at h
    cases h

@[simp] theorem single_nil (v : CellSlice) : single v [] = some v := update_self ..

theorem Readable.length (h : Readable label_mode n f c) {v : CellSlice} (hk : f k = some v) : k.length = n := by
  induction h generalizing k v with
  | leaf hp hr =>
    obtain ⟨k', rfl, hk'⟩ := under_some hk
    rw [(single_some hk').1, List.append_nil]
  | fork hp hr h1 h2 ih1 ih2 =>
    obtain ⟨k', rfl, hk'⟩ := under_some hk
    obtain ⟨b, k', rfl, hb⟩ := split_some hk'
    rw [List.length_append, List.length_cons]
    cases b with
    | false => rw [ih1 hb]
    | true => rw [ih2 hb]

theorem Readable.exists_key (h : Readable label_mode n f c) : ∃ k v, f k = some v := by
  induction h with
  | @leaf label v c p hp hr => exact ⟨label ++ [], v, by rw [under_append, single_nil]⟩
  | @fork label bits m f g c1 c2 c refs p hp hr h1 h2 ih1 ih2 =>
    obtain ⟨k, v, hk⟩ := ih1
    exact ⟨label ++ false :: k, v, by rwa [under_append, split_cons]⟩

theorem ReadableRoot.length {o : Option DataCell} (h : ReadableRoot label_mode n f o) {v : CellSlice} (hk : f k = some v) :
    k.length = n := by
  cases o with
  | none =>
    rw [show f = empty from h] at hk
    cases hk
  | some c => exact Readable.length h hk

/-- A dictionary that holds a map is readable, with payloads as the layout has them. -/
theorem Root.readable {K : Kind} (hK : K.Fixed) (hpass : K.Passes label_mode) (h : Root K n f (some c)) :
    ∃ g, Readable label_mode n g c ∧ ∀ k, Option.Rel (K.Leaf 0) (f k) (g k) := by
  induction n using Nat.strong_induction_on generalizing f c with
  | _ n ih =>
  obtain ⟨label, m, f', p, hn, rfl, hp, hnode⟩ := h.exists_node
  obtain ⟨lp, hlp, hr⟩ := hnode.parse_ok fun hlt => hp.passes hK hpass (by omega)
  have hunder : ∀ {g : BitMap CellSlice}, (∀ k, Option.Rel (K.Leaf 0) (f' k) (g k)) →
      ∀ k, Option.Rel (K.Leaf 0) (under label f' k) (under label g k) := by
    intro g hg k
    unfold under
    split_ifs
    · exact hg _
    · exact .none
  subst hn
  cases hp with
  | @leaf m v p hv =>
    obtain rfl := hK.leaf hv
    refine ⟨_, .leaf hlp hr, hunder fun k => ?_⟩
    by_cases hk : k = []
    · subst hk
      rw [single_nil, single_nil]
      exact .some hv
    · rw [single, single, update_of_ne hk, update_of_ne hk]
      exact .none
  | @fork m f₀ f₁ c1 c2 p h1 h2 hfork =>
    obtain ⟨rest, hrefs⟩ := hK.fork hfork
    obtain ⟨g₀, hg₀, hrel₀⟩ := ih m (by omega) h1
    obtain ⟨g₁, hg₁, hrel₁⟩ := ih m (by omega) h2
    obtain ⟨bits, refs⟩ := p
    dsimp only at hrefs
    subst hrefs
    refine ⟨_, .fork hlp hr hg₀ hg₁, hunder fun k => ?_⟩
    cases k with
    | nil => exact .none
    | cons b k =>
      cases b with
      | false => exact hrel₀ k
      | true => exact hrel₁ k

theorem Dictionary.Holds.readable {d : Dictionary} (h : d.Holds f) : ReadableRoot .chk_all d.key_bits f d.root_cell := by
  have hroot := h.root
  cases hc : d.root_cell with
  | none =>
    rw [hc] at hroot
    exact hroot
  | some c =>
    rw [hc] at hroot
    obtain ⟨g, hg, hrel⟩ := hroot.readable Kind.plain_fixed Kind.plain_passes
    have heq : g = f := funext fun k => plain_rel (hrel k)
    rwa [heq] at hg

end Readable

end Ton.Dict
