import Mathlib.Data.List.Forall2
import Ton.Cells.Tree
import Ton.Boc.BagOfCells
/-!
# What is imported into a bag

After the import of some cells the list holds each cell below them once, every
reference goes to an earlier entry, and a cell is flagged for caching when it is used
more than once (`Imported`). Cells are told apart by their hashes, so all of this is
for cells among which no two have one hash (`HashInj`).
-/

namespace Ton.Boc
open BigEndian CellTraits Result BagOfCells DataCell List

/-- No two cells of the list have one hash. -/
def HashInj (U : List DataCell) : Prop := ∀ a ∈ U, ∀ b ∈ U, hash a = hash b → a = b

/-- How often a cell occurs in a list. -/
def uses (cells : List DataCell) (c : DataCell) : Nat := cells.countP fun d => hash d == hash c

/-- The cells of a list. -/
def dcs (l : List CellInfo) : List DataCell := l.map CellInfo.dc_ref

/-- The references of all cells. -/
def children (cells : List DataCell) : List DataCell := cells.flatMap DataCell.refs

/-- The list after the import of the cells `E`, all of whose subcells are in `U`. -/
structure Imported (U E : List DataCell) (l : List CellInfo) : Prop where
  mem : ∀ c ∈ dcs l, c ∈ U
  pending : ∀ c ∈ E, c ∈ dcs l
  nodup : ((dcs l).map hash).Nodup
  refs : ∀ (i : Nat) (ci : CellInfo), l[i]? = some ci →
    List.Forall₂ (fun r k => k < i ∧ (dcs l)[k]? = some r) ci.dc_ref.refs ci.ref_idx
  flags : ∀ ci ∈ l, ci.should_cache = decide (2 ≤ uses (E ++ children (dcs l)) ci.dc_ref)
  used : ∀ ci ∈ l, 1 ≤ uses (E ++ children (dcs l)) ci.dc_ref
  fresh : ∀ ci ∈ l, ci.new_idx = .unseen
  hcnt : ∀ ci ∈ l, ci.hcnt = ci.dc_ref.get_level_mask.get_hashes_count ∧ ci.is_root_cell = false

/-- How the import of `cells` changes a bag. `refs` counts those cells that are references. -/
structure Grows (cells : List DataCell) (refs : Nat) (b b' : BagOfCells) : Prop where
  prefixed : dcs b.cell_list <+: dcs b'.cell_list
  new : ∀ d ∈ dcs b'.cell_list, d ∈ dcs b.cell_list ∨ d ∈ subcellsList cells
  int_refs : b'.int_refs + ((dcs b.cell_list).map get_refs_cnt).sum =
    b.int_refs + ((dcs b'.cell_list).map get_refs_cnt).sum + refs
  data_bytes : b'.data_bytes + ((dcs b.cell_list).map (get_serialized_size · false)).sum =
    b.data_bytes + ((dcs b'.cell_list).map (get_serialized_size · false)).sum

theorem Grows.trans {cells cells' : List DataCell} {n n' : Nat} {b b₁ b₂ : BagOfCells} (h : Grows cells n b b₁)
    (h' : Grows cells' n' b₁ b₂) : Grows (cells ++ cells') (n + n') b b₂ where
  prefixed := h.prefixed.trans h'.prefixed
  new d hd := by
    rcases h'.new d hd with hd | hd
    · rcases h.new d hd with hd | hd
      · exact .inl hd
      · obtain ⟨c, hc, hd⟩ := mem_subcellsList.1 hd
        exact .inr (mem_subcellsList.2 ⟨c, by simp [hc], hd⟩)
    · obtain ⟨c, hc, hd⟩ := mem_subcellsList.1 hd
      exact .inr (mem_subcellsList.2 ⟨c, by simp [hc], hd⟩)
  int_refs := by
    have h1 := h.int_refs
    have h2 := h'.int_refs
    omega
  data_bytes := by
    have h1 := h.data_bytes
    have h2 := h'.data_bytes
    omega

section Uses

theorem uses_append (a b : List DataCell) (c : DataCell) : uses (a ++ b) c = uses a c + uses b c := countP_append ..

theorem uses_eq_zero {cells : List DataCell} {c : DataCell} (h : ∀ d ∈ cells, hash d ≠ hash c) : uses cells c = 0 := by
  rw [uses, countP_eq_zero]
  intro d hd
  simpa using h d hd

theorem uses_singleton_self (c : DataCell) : uses [c] c = 1 := by simp [uses]

theorem uses_singleton_ne {c d : DataCell} (h : hash d ≠ hash c) : uses [d] c = 0 := uses_eq_zero (by simpa using h)

theorem children_append (a b : List DataCell) : children (a ++ b) = children a ++ children b := flatMap_append

end Uses

theorem not_mem_subcells_refs (c : DataCell) : c ∉ subcellsList c.refs := by
  intro h
  have := height_lt_of_mem h
  rw [← height_eq] at this
  omega

section Find
variable {b : BagOfCells} {c : DataCell}

theorem find_some {pos : Nat} (h : b.find (hash c) = some pos) :
    ∃ ci, b.cell_list[pos]? = some ci ∧ hash ci.dc_ref = hash c := by
  rw [find, findIdx?_eq_some_iff_getElem] at h
  obtain ⟨hlt, hp, -⟩ := h
  exact ⟨_, getElem?_eq_getElem hlt, by simpa using hp⟩

theorem find_none (h : b.find (hash c) = none) : ∀ d ∈ dcs b.cell_list, hash d ≠ hash c := by
  intro d hd he
  rw [find, findIdx?_eq_none_iff] at h
  obtain ⟨ci, hci, rfl⟩ := mem_map.1 hd
  simpa [he] using h ci hci

theorem dcs_modify (l : List CellInfo) (pos : Nat) : dcs (l.modify pos fun ci => { ci with should_cache := true }) = dcs l := by
  apply ext_getElem?
  intro i
  simp only [dcs, getElem?_map, getElem?_modify]
  cases l[i]? with
  | none => rfl
  | some ci => by_cases h : pos = i <;> simp [h]

end Find

theorem exists_of_forall₂ {α β : Type} {R : α → β → Prop} {as : List α} {bs : List β} (h : List.Forall₂ R as bs) {a : α}
    (ha : a ∈ as) : ∃ b ∈ bs, R a b := by
  induction h with
  | nil => cases ha
  | cons hab _ ih =>
    rcases mem_cons.1 ha with rfl | ha
    · exact ⟨_, by simp, hab⟩
    · obtain ⟨b, hb, hr⟩ := ih ha
      exact ⟨b, by simp [hb], hr⟩

section Steps
variable {U E : List DataCell} {l : List CellInfo} {c : DataCell}

variable {ci : CellInfo}

theorem mem_dcs (h : ci ∈ l) : ci.dc_ref ∈ dcs l := mem_map_of_mem h

theorem getElem?_dcs {i : Nat} (h : l[i]? = some ci) : (dcs l)[i]? = some ci.dc_ref := by
  rw [dcs, getElem?_map, h]
  rfl

theorem uses_extend (E X : List DataCell) (c d : DataCell) : uses (E ++ [c] ++ X) d = uses (E ++ X) d + uses [c] d := by
  simp only [uses_append]
  omega

theorem Imported.children_mem (h : Imported U E l) : ∀ d ∈ children (dcs l), d ∈ dcs l := by
  intro d hd
  obtain ⟨c, hc, hd⟩ := mem_flatMap.1 hd
  obtain ⟨ci, hci, rfl⟩ := mem_map.1 hc
  obtain ⟨i, hi⟩ := mem_iff_getElem?.1 hci
  obtain ⟨k, -, hk⟩ := exists_of_forall₂ (h.refs i ci hi) hd
  exact mem_of_getElem? hk.2

theorem Imported.uses_new (h : Imported U E l) (hnew : ∀ d ∈ dcs l, hash d ≠ hash c) : uses (E ++ children (dcs l)) c = 0 := by
  apply uses_eq_zero
  intro d hd
  rcases mem_append.1 hd with hd | hd
  · exact hnew d (h.pending d hd)
  · exact hnew d (h.children_mem d hd)

theorem Imported.index_inj (h : Imported U E l) {i j : Nat} {ci cj : CellInfo} (hi : l[i]? = some ci) (hj : l[j]? = some cj)
    (he : hash ci.dc_ref = hash cj.dc_ref) : i = j := by
  have hi' : ((dcs l).map hash)[i]? = some (hash ci.dc_ref) := by rw [getElem?_map, getElem?_dcs hi]; rfl
  have hj' : ((dcs l).map hash)[j]? = some (hash cj.dc_ref) := by rw [getElem?_map, getElem?_dcs hj]; rfl
  obtain ⟨hlt, -⟩ := List.getElem?_eq_some_iff.1 hi'
  exact (getElem?_inj hlt h.nodup).1 (by rw [hi', hj', he])

theorem Imported.cache (h : Imported U E l) {pos : Nat} (hpos : l[pos]? = some ci) :
    Imported U (E ++ [ci.dc_ref]) (l.modify pos fun ci => { ci with should_cache := true }) := by
  have hd : dcs (l.modify pos fun ci => { ci with should_cache := true }) = dcs l := dcs_modify l pos
  have hentry : ∀ {j : Nat} {cj' : CellInfo}, (l.modify pos fun ci => { ci with should_cache := true })[j]? = some cj' →
      ∃ cj, l[j]? = some cj ∧ cj' = if pos = j then { cj with should_cache := true } else cj := by
    intro j cj' hj
    rw [getElem?_modify, Option.map_eq_map, Option.map_eq_some_iff] at hj
    obtain ⟨cj, hj, rfl⟩ := hj
    refine ⟨cj, hj, ?_⟩
    split <;> rfl
  refine ⟨by rw [hd]; exact h.mem, ?_, by rw [hd]; exact h.nodup, ?_, ?_, ?_, ?_, ?_⟩
  · intro c hc
    rw [hd]
    rcases mem_append.1 hc with hc | hc
    · exact h.pending c hc
    · rw [mem_singleton.1 hc]
      exact mem_dcs (mem_of_getElem? hpos)
  · intro j cj' hj
    obtain ⟨cj, hj', rfl⟩ := hentry hj
    rw [hd]
    split <;> exact h.refs j cj hj'
  · intro cj' hcj
    obtain ⟨j, hj⟩ := mem_iff_getElem?.1 hcj
    obtain ⟨cj, hj', rfl⟩ := hentry hj
    rw [hd, uses_extend]
    have hmem := mem_of_getElem? hj'
    split
    · next he =>
      subst he
      cases hpos.symm.trans hj'
      have := h.used ci hmem
      simp only [uses_singleton_self]
      exact (decide_eq_true (Nat.succ_le_succ this)).symm
    · next hne =>
      rw [h.flags cj hmem, uses_singleton_ne (fun he => hne (h.index_inj hpos hj' he))]
      rfl
  · intro cj' hcj
    obtain ⟨j, hj⟩ := mem_iff_getElem?.1 hcj
    obtain ⟨cj, hj', rfl⟩ := hentry hj
    rw [hd, uses_extend]
    have := h.used cj (mem_of_getElem? hj')
    split <;> exact Nat.le_add_right_of_le this
  · intro cj' hcj
    obtain ⟨j, hj⟩ := mem_iff_getElem?.1 hcj
    obtain ⟨cj, hj', rfl⟩ := hentry hj
    have := h.fresh cj (mem_of_getElem? hj')
    split <;> exact this
  · intro cj' hcj
    obtain ⟨j, hj⟩ := mem_iff_getElem?.1 hcj
    obtain ⟨cj, hj', rfl⟩ := hentry hj
    have := h.hcnt cj (mem_of_getElem? hj')
    split <;> exact this

/-- Importing a cell that is not in the list, after its references. -/
theorem Imported.emplace (h : Imported U (E ++ c.refs) l) (hc : c ∈ U) (hnew : ∀ d ∈ dcs l, hash d ≠ hash c) {idx : List Nat}
    (hidx : List.Forall₂ (fun r k => (dcs l)[k]? = some r) c.refs idx) (wt : Nat) :
    Imported U (E ++ [c]) (l ++ [⟨c, idx, wt, c.get_level_mask.get_hashes_count, .unseen, false, false⟩]) := by
  have hd : dcs (l ++ [⟨c, idx, wt, c.get_level_mask.get_hashes_count, .unseen, false, false⟩]) = dcs l ++ [c] := by simp [dcs]
  have hlen : (dcs l).length = l.length := length_map _
  have hat : ∀ {k : Nat} {r : DataCell}, (dcs l)[k]? = some r → k < l.length ∧ (dcs l ++ [c])[k]? = some r := by
    intro k r hk
    obtain ⟨hlt, -⟩ := List.getElem?_eq_some_iff.1 hk
    exact ⟨hlen ▸ hlt, by rw [getElem?_append_left hlt, hk]⟩
  have huses : ∀ d, uses (E ++ [c] ++ children (dcs l ++ [c])) d = uses (E ++ c.refs ++ children (dcs l)) d + uses [c] d := by
    intro d
    have e : children [c] = c.refs := by simp [children]
    simp only [children_append, uses_append, e]
    omega
  have hzero := h.uses_new hnew
  refine ⟨?_, ?_, ?_, ?_, ?_, ?_, ?_, ?_⟩
  · intro d hd'
    rw [hd] at hd'
    rcases mem_append.1 hd' with hd' | hd'
    · exact h.mem d hd'
    · rwa [mem_singleton.1 hd']
  · intro d hd'
    rw [hd]
    rcases mem_append.1 hd' with hd' | hd'
    · exact mem_append_left _ (h.pending d (mem_append_left _ hd'))
    · exact mem_append_right _ hd'
  · rw [hd, map_append, nodup_append]
    refine ⟨h.nodup, by simp, ?_⟩
    intro x hx y hy
    obtain ⟨d, hd', rfl⟩ := mem_map.1 hx
    rw [map_singleton, mem_singleton] at hy
    rw [hy]
    exact hnew d hd'
  · intro i ci hi
    rw [hd]
    rcases Nat.lt_trichotomy i l.length with hlt | rfl | hgt
    · rw [getElem?_append_left hlt] at hi
      exact (h.refs i ci hi).imp fun r k hk => ⟨hk.1, (hat hk.2).2⟩
    · rw [getElem?_concat_length] at hi
      cases hi
      exact hidx.imp fun r k hk => hat hk
    · rw [getElem?_eq_none (by simp; omega)] at hi
      cases hi
  · intro ci hci
    rw [hd, huses]
    rcases mem_append.1 hci with hci | hci
    · rw [h.flags ci hci, uses_singleton_ne (fun he => hnew _ (mem_dcs hci) he.symm)]
      rfl
    · rw [mem_singleton.1 hci]
      rw [hzero, uses_singleton_self]
      rfl
  · intro ci hci
    rw [hd, huses]
    rcases mem_append.1 hci with hci | hci
    · exact Nat.le_add_right_of_le (h.used ci hci)
    · rw [mem_singleton.1 hci, uses_singleton_self]
      exact Nat.le_add_left _ _
  · intro ci hci
    rcases mem_append.1 hci with hci | hci
    · exact h.fresh ci hci
    · rw [mem_singleton.1 hci]
  · intro ci hci
    rcases mem_append.1 hci with hci | hci
    · exact h.hcnt ci hci
    · rw [mem_singleton.1 hci]
      exact ⟨rfl, rfl⟩

end Steps

section Bags
variable {U E : List DataCell} {b : BagOfCells} {c : DataCell}

theorem Grows.cache (b : BagOfCells) (pos : Nat) (cells : List DataCell) : Grows cells 0 b (b.cache pos) := by
  have hd : dcs (b.cache pos).cell_list = dcs b.cell_list := dcs_modify b.cell_list pos
  constructor
  · exact ⟨[], by rw [append_nil, hd]⟩
  · rw [hd]
    exact fun d hd => .inl hd
  · rw [hd]
    rfl
  · rw [hd]
    rfl

theorem dcs_emplace (b : BagOfCells) (c : DataCell) (refs : List Nat) (wt : Nat) :
    dcs (b.emplace c refs wt).cell_list = dcs b.cell_list ++ [c] := by
  simp [dcs, BagOfCells.emplace]

theorem Grows.emplace {b' : BagOfCells} (h : Grows c.refs c.refs.length b b') (refs : List Nat) (wt : Nat) :
    Grows [c] 0 b (b'.emplace c refs wt) := by
  have hd := dcs_emplace b' c refs wt
  have h1 := h.int_refs
  have h2 := h.data_bytes
  constructor
  · rw [hd]
    exact h.prefixed.trans (prefix_append ..)
  · intro d hmem
    rw [hd] at hmem
    rw [subcellsList, subcells_eq]
    rcases mem_append.1 hmem with hmem | hmem
    · rcases h.new d hmem with hmem | hmem
      · exact .inl hmem
      · exact .inr (by simp [hmem])
    · exact .inr (by simp [mem_singleton.1 hmem])
  · have e : c.get_refs_cnt = c.refs.length := rfl
    rw [hd]
    simp only [BagOfCells.emplace, map_append, sum_append, map_singleton, sum_singleton, e]
    omega
  · rw [hd]
    simp only [BagOfCells.emplace, map_append, sum_append, map_singleton, sum_singleton]
    omega

theorem Grows.add_ref {cells : List DataCell} {n : Nat} {b' : BagOfCells} (h : Grows cells n b b') :
    Grows cells (n + 1) b { b' with int_refs := b'.int_refs + 1 } where
  prefixed := h.prefixed
  new := h.new
  int_refs := by
    have := h.int_refs
    simp only
    omega
  data_bytes := h.data_bytes

theorem Grows.refl (b : BagOfCells) : Grows [] 0 b b where
  prefixed := prefix_refl _
  new _ hd := .inl hd
  int_refs := rfl
  data_bytes := rfl

mutual

/-- What the import of a cell does. The depth bound is what the cell's height respects. -/
theorem import_cell_spec (hU : HashInj U) : ∀ (c : DataCell) (depth : Nat) (E : List DataCell) (b : BagOfCells),
    (∀ d ∈ subcells c, d ∈ U) → Imported U E b.cell_list → depth + height c ≤ max_depth →
    ∃ b' k, import_cell c depth b = .ok (b', k) ∧ Imported U (E ++ [c]) b'.cell_list ∧ Grows [c] 0 b b' ∧
      b'.roots = b.roots ∧ (dcs b'.cell_list)[k]? = some c
  | .mk special data refs m hashes depths, depth, E, b, hsub, hb, hdepth => by
    rw [import_cell]
    simp only
    generalize hc : DataCell.mk special data refs m hashes depths = c at *
    have hrefs : refs = c.refs := by rw [← hc]; rfl
    have hcU := hsub c (mem_subcells_self c)
    rw [if_neg (by omega)]
    cases hf : b.find (hash c) with
    | some pos =>
      obtain ⟨ci, hpos, he⟩ := find_some hf
      have hci := getElem?_dcs hpos
      obtain rfl := hU _ (hb.mem _ (mem_of_getElem? hci)) _ hcU he
      refine ⟨_, _, rfl, hb.cache hpos, .cache .., rfl, ?_⟩
      rw [BagOfCells.cache, dcs_modify, hci]
    | none =>
      rw [height_eq] at hdepth
      have hsub' : ∀ d ∈ subcellsList refs, d ∈ U := by
        intro d hd
        apply hsub
        rw [subcells_eq, ← hrefs]
        exact mem_cons_of_mem _ hd
      obtain ⟨b', idx, sum, he, hi, hg, hroots, hidx⟩ := import_refs_spec hU refs (depth + 1) E b 1 hsub' hb (by
        intro r hr
        have := height_lt hr
        rw [hrefs] at this
        omega)
      rw [hrefs] at hi hg hidx
      have hnew : ∀ d ∈ dcs b'.cell_list, hash d ≠ hash c := by
        intro d hd hdc
        rcases hg.new d hd with h | h
        · exact find_none hf d h hdc
        · have hdU := hsub' d (hrefs ▸ h)
          exact not_mem_subcells_refs c (hU d hdU c hcU hdc ▸ h)
      simp only [he, ok_bind]
      refine ⟨_, _, rfl, hi.emplace hcU hnew hidx _, hg.emplace idx sum, hroots, ?_⟩
      rw [dcs_emplace, cell_count, ← length_map CellInfo.dc_ref]
      exact getElem?_concat_length

theorem import_refs_spec (hU : HashInj U) : ∀ (cells : List DataCell) (depth : Nat) (E : List DataCell) (b : BagOfCells)
    (sum : Nat), (∀ d ∈ subcellsList cells, d ∈ U) → Imported U E b.cell_list → (∀ c ∈ cells, depth + height c ≤ max_depth) →
    ∃ b' idx sum', import_refs cells depth b sum = .ok (b', idx, sum') ∧ Imported U (E ++ cells) b'.cell_list ∧
      Grows cells cells.length b b' ∧ b'.roots = b.roots ∧
      List.Forall₂ (fun r k => (dcs b'.cell_list)[k]? = some r) cells idx
  | [], depth, E, b, sum, hsub, hb, hdepth => ⟨b, [], sum, by rw [import_refs], by simpa using hb, .refl b, rfl, .nil⟩
  | c :: cs, depth, E, b, sum, hsub, hb, hdepth => by
    obtain ⟨b₁, k, h1, hi1, hg1, hr1, hk⟩ := import_cell_spec hU c depth E b
      (fun d hd => hsub d (mem_append_left _ hd)) hb (hdepth c (by simp))
    obtain ⟨b₂, idx, sum', h2, hi2, hg2, hr2, hidx⟩ := import_refs_spec hU cs depth (E ++ [c])
      { b₁ with int_refs := b₁.int_refs + 1 } (sum + wt_at b₁.cell_list k) (fun d hd => hsub d (mem_append_right _ hd))
      hi1 (fun c hc => hdepth c (by simp [hc]))
    refine ⟨b₂, k :: idx, sum', ?_, by simpa using hi2, ?_, hr2.trans hr1, .cons ?_ hidx⟩
    · rw [import_refs, h1, ok_bind]
      simp only [h2, ok_bind]
    · have := hg1.add_ref.trans hg2
      rwa [Nat.zero_add, Nat.add_comm] at this
    · obtain ⟨l, hl⟩ := hg2.prefixed
      rw [← hl, getElem?_append_left (List.getElem?_eq_some_iff.1 hk).1, hk]

end

theorem import_roots_spec (hU : HashInj U) (roots : List RootInfo) (E : List DataCell) (b : BagOfCells)
    (hsub : ∀ d ∈ subcellsList (roots.map RootInfo.cell), d ∈ U) (hb : Imported U E b.cell_list)
    (hdepth : ∀ r ∈ roots, height r.cell ≤ max_depth) :
    ∃ b' roots', import_roots roots b = .ok (b', roots') ∧ Imported U (E ++ roots.map RootInfo.cell) b'.cell_list ∧
      Grows (roots.map RootInfo.cell) 0 b b' ∧
      List.Forall₂ (fun r r' => r'.cell = r.cell ∧ (dcs b'.cell_list)[r'.idx]? = some r.cell) roots roots' := by
  induction roots generalizing E b with
  | nil => exact ⟨b, [], rfl, by simpa using hb, .refl b, .nil⟩
  | cons r roots ih =>
    obtain ⟨b₁, k, h1, hi1, hg1, -, hk⟩ := import_cell_spec hU r.cell 0 E b
      (fun d hd => hsub d (mem_append_left _ hd)) hb (by simpa using hdepth r (by simp))
    obtain ⟨b₂, roots', h2, hi2, hg2, hr⟩ := ih (E ++ [r.cell]) b₁ (fun d hd => hsub d (mem_append_right _ hd)) hi1
      (fun r hr => hdepth r (by simp [hr]))
    refine ⟨b₂, { r with idx := k } :: roots', ?_, by simpa using hi2, hg1.trans hg2, .cons ⟨rfl, ?_⟩ hr⟩
    · rw [import_roots, h1, ok_bind]
      simp only [h2, ok_bind]
    · obtain ⟨l, hl⟩ := hg2.prefixed
      rw [← hl, getElem?_append_left (List.getElem?_eq_some_iff.1 hk).1, hk]

end Bags

mutual

theorem Imported.closed {U E : List DataCell} {l : List CellInfo} (h : Imported U E l) {d : DataCell} :
    ∀ {c : DataCell}, c ∈ dcs l → d ∈ subcells c → d ∈ dcs l
  | .mk special data refs m hashes depths, hc, hd => by
    rw [subcells_eq] at hd
    rcases List.mem_cons.1 hd with rfl | hd
    · exact hc
    · have hrefs : ∀ r ∈ refs, r ∈ dcs l := fun r hr => h.children_mem r (List.mem_flatMap.2 ⟨_, hc, hr⟩)
      exact h.closed_refs hrefs hd

theorem Imported.closed_refs {U E : List DataCell} {l : List CellInfo} (h : Imported U E l) {d : DataCell} :
    ∀ {cs : List DataCell}, (∀ c ∈ cs, c ∈ dcs l) → d ∈ subcellsList cs → d ∈ dcs l
  | [], _, hd => by cases hd
  | c :: cs, hcs, hd => by
    rcases List.mem_append.1 hd with hd | hd
    · exact h.closed (hcs c (by simp)) hd
    · exact h.closed_refs (fun c hc => hcs c (by simp [hc])) hd

end

theorem Imported.nil (U : List DataCell) : Imported U [] [] := by
  constructor <;> simp [dcs]

end Ton.Boc
