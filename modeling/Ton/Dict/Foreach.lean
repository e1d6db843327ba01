import Ton.Dict.Reading
/-!
# Calling a function for each entry

`check_for_each` calls a function for the entries of a dictionary, one after the other, until
it returns false. What the function writes is passed along as a state.
-/

namespace Ton.Dict
open BigEndian CellTraits CellBuilder Result BitMap List

/-- A callback with what it writes. -/
abbrev ForeachStep (σ : Type) := CellSlice → List Bool → σ → Bool × σ

/-- The key buffer is the list `pre` of the bits before the current node. -/
def dict_check_for_each {σ : Type} (label_mode : Check) (foreach_func : ForeachStep σ) (dict : Option DataCell) (pre : List Bool)
    (n : Nat) (invert_first : Bool) (s : σ) : Except Exc (Bool × σ) :=
  match dict with
  | none => .ok (true, s)
  | some cell => do
    let label ← LabelParser.parse cell n label_mode
    let (bits, label) := label.extract_label
    let l := label.l_bits
    if _hn : l = n then .ok (foreach_func label.remainder (pre ++ bits) s)
    else if _h : ¬l < n then .error .check
    else do
      let c1 := label.remainder.prefetch_ref 0
      let c2 := label.remainder.prefetch_ref 1
      -- the halves change places at the root only, and only where its label is empty
      let invert_first := if l ≠ 0 then false else invert_first
      let (c1, c2) := if invert_first then (c2, c1) else (c1, c2)
      let (more, s) ← dict_check_for_each label_mode foreach_func c1 (pre ++ bits ++ [invert_first]) (n - (l + 1)) false s
      if !more then .ok (false, s)
      else dict_check_for_each label_mode foreach_func c2 (pre ++ bits ++ [!invert_first]) (n - (l + 1)) false s
termination_by n
decreasing_by all_goals omega

def Dictionary.check_for_each {σ : Type} (d : Dictionary) (foreach_func : ForeachStep σ) (invert_first : Bool) (s : σ) :
    Except Exc (Bool × σ) := do
  d.force_validate
  if d.root_cell.isNone then .ok (true, s)
  else dict_check_for_each .chk_all foreach_func d.root_cell [] d.key_bits invert_first s

/-- The calls for a list of entries. -/
def each {σ : Type} (foreach_func : ForeachStep σ) : List (List Bool × CellSlice) → σ → Bool × σ
  | [], s => (true, s)
  | (key, value) :: rest, s =>
    match foreach_func value key s with
    | (true, s) => each foreach_func rest s
    | (false, s) => (false, s)

section
variable {σ : Type} {foreach_func : ForeachStep σ} {es es' : List (List Bool × CellSlice)} {s s' : σ}

theorem each_append_true (h : each foreach_func es s = (true, s')) : each foreach_func (es ++ es') s = each foreach_func es' s' := by
  induction es generalizing s with
  | nil =>
    cases h
    rfl
  | cons e es ih =>
    obtain ⟨key, value⟩ := e
    rw [cons_append, each]
    rw [each] at h
    split at h
    · exact ih h
    · cases h

theorem each_append_false (h : each foreach_func es s = (false, s')) : each foreach_func (es ++ es') s = (false, s') := by
  induction es generalizing s with
  | nil => cases h
  | cons e es ih =>
    obtain ⟨key, value⟩ := e
    rw [cons_append, each]
    rw [each] at h
    split at h
    · exact ih h
    · exact h

/-- The entries of a map, under some bits that start all keys. -/
def Entries (pre : List Bool) (f : BitMap CellSlice) (es : List (List Bool × CellSlice)) : Prop :=
  ∀ k v, (k, v) ∈ es ↔ ∃ k', k = pre ++ k' ∧ f k' = some v

theorem Entries.join {pre label : List Bool} {f g : BitMap CellSlice} {b : Bool}
    (h1 : Entries (pre ++ label ++ [b]) (if b then g else f) es) (h2 : Entries (pre ++ label ++ [!b]) (if !b then g else f) es') :
    Entries pre (under label (split f g)) (es ++ es') := by
  intro k v
  rw [mem_append, h1, h2]
  constructor
  · rintro (⟨k', rfl, hk⟩ | ⟨k', rfl, hk⟩)
    · exact ⟨label ++ b :: k', by simp, by rw [under_split_append]; exact hk⟩
    · exact ⟨label ++ (!b) :: k', by simp, by rw [under_split_append]; exact hk⟩
  · rintro ⟨k', rfl, hk⟩
    obtain ⟨r, rfl, hr⟩ := under_some hk
    obtain ⟨x, t, rfl, ht⟩ := split_some hr
    by_cases hx : x = b
    · subst hx
      exact .inl ⟨t, by simp, ht⟩
    · obtain rfl : x = !b := by cases x <;> cases b <;> simp_all
      exact .inr ⟨t, by simp, ht⟩

/-- The function is called for the entries, as long as it returns true. -/
theorem dict_check_for_each_spec {K : Kind} {label_mode : Check} (hK : K.Fixed) (hleaf : ∀ {v p}, K.Leaf 0 v p → p = v)
    (hpass : K.Passes label_mode) (n : Nat) {f : BitMap CellSlice} {dict : Option DataCell} (pre : List Bool) (invert_first : Bool)
    (hd : Root K n f dict) : ∃ es, Entries pre f es ∧
      ∀ s : σ, dict_check_for_each label_mode foreach_func dict pre n invert_first s = .ok (each foreach_func es s) := by
  induction n using Nat.strong_induction_on generalizing f dict pre invert_first with
  | _ n ih =>
  cases dict with
  | none =>
    obtain rfl : f = empty := hd
    refine ⟨[], fun k v => ?_, fun s => by rw [dict_check_for_each.eq_def]; rfl⟩
    apply iff_of_false
    · simp
    · rintro ⟨k', -, h⟩
      cases h
  | some cell =>
    obtain ⟨label, m, g, p, hn, rfl, hp, hnode⟩ := hd.exists_node
    obtain ⟨lp, hlp, hr⟩ := hnode.parse_ok fun hlt => hp.passes hK hpass (by omega)
    cases hp with
    | @leaf _ v _ hv =>
      obtain rfl := hK.leaf hv
      obtain rfl := hleaf hv
      refine ⟨[(pre ++ label, p)], fun k w => ?_, fun s => ?_⟩
      · rw [mem_singleton, Prod.mk.injEq]
        constructor
        · rintro ⟨rfl, rfl⟩
          exact ⟨label, rfl, by rw [under_single, Function.update_self]⟩
        · rintro ⟨k', rfl, hk⟩
          obtain ⟨r, rfl, hr⟩ := under_some hk
          obtain ⟨rfl, rfl⟩ := single_some hr
          exact ⟨by rw [append_nil], rfl⟩
      · rw [dict_check_for_each.eq_def]
        simp only [hlp, ok_bind, hr.extract_label, hr.extract_l_bits]
        rw [dif_pos (by omega), each]
        rcases foreach_func p (pre ++ label) s with ⟨_ | _, s'⟩
        · rfl
        · rfl
    | @fork m f₀ f₁ c1 c2 p h1 h2 hp =>
      obtain ⟨rest, hrefs⟩ := hK.fork hp
      have e1 : p.prefetch_ref 0 = some c1 := by rw [CellSlice.prefetch_ref, hrefs]; rfl
      have e2 : p.prefetch_ref 1 = some c2 := by rw [CellSlice.prefetch_ref, hrefs]; rfl
      have hm : n - (label.length + 1) = m := by omega
      -- the bit of the half that comes first
      obtain ⟨first, hfirst⟩ : ∃ first, (if label.length ≠ 0 then false else invert_first) = first := ⟨_, rfl⟩
      have hside : ∀ b : Bool, Root K m (if b then f₁ else f₀) (if b then some c2 else some c1) := by
        intro b
        cases b with
        | false => exact h1
        | true => exact h2
      obtain ⟨es, hes, hrun⟩ := ih m (by omega) (pre ++ label ++ [first]) false (hside first)
      obtain ⟨es', hes', hrun'⟩ := ih m (by omega) (pre ++ label ++ [!first]) false (hside !first)
      refine ⟨es ++ es', hes.join hes', fun s => ?_⟩
      have hswap : (if first = true then (some c2, some c1) else (some c1, some c2)) =
          (if first then some c2 else some c1, if !first then some c2 else some c1) := by
        cases first <;> rfl
      rw [dict_check_for_each.eq_def]
      simp only [hlp, ok_bind, hr.extract_label, hr.extract_l_bits]
      rw [dif_neg (by omega), dif_neg (by omega), e1, e2, hm, hfirst, hswap]
      dsimp only
      rw [hrun, ok_bind]
      cases hfst : each foreach_func es s with
      | mk more s' =>
        cases more with
        | false => rw [each_append_false hfst]; rfl
        | true =>
          rw [each_append_true hfst]
          exact hrun' s'

end

theorem Dictionary.Holds.check_for_each {σ : Type} {d : Dictionary} {f : BitMap CellSlice} (hd : d.Holds f)
    (foreach_func : ForeachStep σ) (invert_first : Bool) : ∃ es, (∀ k v, (k, v) ∈ es ↔ f k = some v) ∧
      ∀ s, d.check_for_each foreach_func invert_first s = .ok (each foreach_func es s) := by
  have hspec : ∃ es, Entries [] f es ∧ ∀ s, dict_check_for_each .chk_all foreach_func d.root_cell [] d.key_bits invert_first s =
      .ok (each foreach_func es s) :=
    dict_check_for_each_spec Kind.plain_fixed (fun h => h.2) Kind.plain_passes d.key_bits [] invert_first hd.root
  obtain ⟨es, hes, hrun⟩ := hspec
  refine ⟨es, fun k v => ?_, fun s => ?_⟩
  · rw [hes]
    simp
  · unfold Dictionary.check_for_each
    rw [hd.force_validate, ok_bind]
    split
    · next hnone =>
      rw [← hrun s, Option.isNone_iff_eq_none.1 hnone, dict_check_for_each.eq_def]
    · exact hrun s

/-- What each call of the function keeps holds in the end, where all calls succeed. -/
theorem dict_check_for_each_inv {σ : Type} {I : σ → Prop} {label_mode : Check} {foreach_func : ForeachStep σ}
    (hstep : ∀ v k s s', I s → foreach_func v k s = (true, s') → I s') (n : Nat) {dict : Option DataCell} {pre : List Bool}
    {invert_first : Bool} {s s' : σ} (hs : I s) (h : dict_check_for_each label_mode foreach_func dict pre n invert_first s = .ok (true, s')) :
    I s' := by
  induction n using Nat.strong_induction_on generalizing dict pre invert_first s s' with
  | _ n ih =>
  rw [dict_check_for_each.eq_def] at h
  cases dict with
  | none =>
    cases h
    exact hs
  | some cell =>
    obtain ⟨label, -, h⟩ := bind_ok.1 h
    dsimp only at h
    split at h
    · exact hstep _ _ _ _ hs (Except.ok.inj h)
    · split at h
      · cases h
      · next hlt =>
        rw [not_not] at hlt
        obtain ⟨⟨more, s₁⟩, h1, h⟩ := bind_ok.1 h
        cases more with
        | false => cases h
        | true => exact ih _ (by omega) (ih _ (by omega) hs h1) h

end Ton.Dict
