import Ton.Cells.Levels
/-!
# Cells as trees

The cells below a cell, and how deep they go: never deeper than the depth that
`create` computes, at whatever level, so never more than `max_depth`.
-/

namespace Ton

open BigEndian CellTraits Result

namespace DataCell

mutual

/-- The cell and all cells below it, once for every path. -/
def subcells : DataCell → List DataCell
  | mk special data refs m hashes depths => mk special data refs m hashes depths :: subcellsList refs

def subcellsList : List DataCell → List DataCell
  | [] => []
  | c :: cs => subcells c ++ subcellsList cs

end

mutual

/-- The length of the longest path down. -/
def height : DataCell → Nat
  | mk _ _ refs _ _ _ => heightList refs

/-- One more than the largest height, zero without cells. -/
def heightList : List DataCell → Nat
  | [] => 0
  | c :: cs => max (height c + 1) (heightList cs)

end

variable {c : DataCell} {cs : List DataCell}

theorem mem_subcellsList {d : DataCell} : d ∈ subcellsList cs ↔ ∃ c ∈ cs, d ∈ subcells c := by
  induction cs with
  | nil => simp [subcellsList]
  | cons c cs ih => simp [subcellsList, ih]

theorem subcells_eq (c : DataCell) : subcells c = c :: subcellsList c.refs := by
  cases c
  rfl

theorem mem_subcells_self (c : DataCell) : c ∈ subcells c := by
  rw [subcells_eq]
  exact List.mem_cons_self

theorem height_eq (c : DataCell) : height c = heightList c.refs := by
  cases c
  rfl

theorem heightList_le {n : Nat} (h : ∀ c ∈ cs, height c + 1 ≤ n) : heightList cs ≤ n := by
  induction cs with
  | nil => exact Nat.zero_le n
  | cons c cs ih =>
    rw [heightList]
    exact max_le (h c (by simp)) (ih fun c hc => h c (by simp [hc]))

theorem height_lt (h : c ∈ cs) : height c + 1 ≤ heightList cs := by
  induction cs with
  | nil => cases h
  | cons a cs ih =>
    rw [heightList]
    rcases List.mem_cons.1 h with rfl | h
    · exact le_max_left _ _
    · exact le_trans (ih h) (le_max_right _ _)

mutual

theorem height_le_of_mem {d : DataCell} : ∀ {c : DataCell}, d ∈ subcells c → height d ≤ height c
  | mk special data refs m hashes depths, h => by
    rw [subcells_eq] at h
    rcases List.mem_cons.1 h with rfl | h
    · exact le_refl _
    · exact le_trans (Nat.le_succ _) (height_lt_of_mem h)

theorem height_lt_of_mem {d : DataCell} : ∀ {cs : List DataCell}, d ∈ subcellsList cs → height d + 1 ≤ heightList cs
  | [], h => by cases h
  | c :: cs, h => by
    rw [heightList]
    rcases List.mem_append.1 h with h | h
    · exact le_trans (Nat.succ_le_succ (height_le_of_mem h)) (le_max_left _ _)
    · exact le_trans (height_lt_of_mem h) (le_max_right _ _)

end

mutual

theorem mem_subcells_cases {d : DataCell} : ∀ {c : DataCell}, d ∈ subcells c → d = c ∨ ∃ e ∈ subcells c, d ∈ e.refs
  | mk special data refs m hashes depths, h => by
    rw [subcells_eq] at h ⊢
    rcases List.mem_cons.1 h with rfl | h
    · exact .inl rfl
    · rcases mem_subcellsList_cases h with h | ⟨e, he, h⟩
      · exact .inr ⟨_, List.mem_cons_self, h⟩
      · exact .inr ⟨e, List.mem_cons_of_mem _ he, h⟩

theorem mem_subcellsList_cases {d : DataCell} : ∀ {cs : List DataCell}, d ∈ subcellsList cs →
    d ∈ cs ∨ ∃ e ∈ subcellsList cs, d ∈ e.refs
  | [], h => by cases h
  | c :: cs, h => by
    rcases List.mem_append.1 h with h | h
    · rcases mem_subcells_cases h with rfl | ⟨e, he, h⟩
      · exact .inl List.mem_cons_self
      · exact .inr ⟨e, List.mem_append_left _ he, h⟩
    · rcases mem_subcellsList_cases h with h | ⟨e, he, h⟩
      · exact .inl (List.mem_cons_of_mem _ h)
      · exact .inr ⟨e, List.mem_append_right _ he, h⟩

end

mutual

theorem Made.subcells {d : DataCell} : ∀ {c : DataCell}, c.Made → d ∈ subcells c → d.Made
  | mk special data refs m hashes depths, hc, h => by
    rw [subcells_eq] at h
    rcases List.mem_cons.1 h with rfl | h
    · exact hc
    · have hrefs : ∀ r ∈ refs, r.Made := hc.refs
      exact Made.subcellsList hrefs h

theorem Made.subcellsList {d : DataCell} : ∀ {cs : List DataCell}, (∀ c ∈ cs, c.Made) → d ∈ subcellsList cs → d.Made
  | [], _, h => by cases h
  | c :: cs, hcs, h => by
    rcases List.mem_append.1 h with h | h
    · exact Made.subcells (hcs c (by simp)) h
    · exact Made.subcellsList (fun c hc => hcs c (by simp [hc])) h

end

theorem Made.refs_pruned (h : c.Made) (hp : c.special_type = .PrunnedBranch) : c.refs = [] := by
  obtain ⟨hm, -⟩ := h.loop
  rw [hp] at hm
  exact (check_type_pruned hm).1

theorem Made.height_le_depth (h : c.Made) (level : Nat) : height c ≤ c.get_depth level := by
  induction h generalizing level with
  | @create data refs special c hrefs hc ih =>
    have hmade : c.Made := .create hrefs hc
    obtain ⟨-, -, hcr⟩ := create_fields hc
    rw [height_eq]
    by_cases hp : c.special_type = .PrunnedBranch
    · rw [hmade.refs_pruned hp]
      exact Nat.zero_le _
    · rw [(hmade.get_depth_eq hp level).1, hcr, depthAt]
      split
      · apply heightList_le
        intro r hr
        exact Nat.succ_le_succ (le_trans (ih r hr _) (le_maxDepth hr _))
      · next he =>
        rw [not_not, List.length_eq_zero_iff] at he
        rw [he]
        exact Nat.zero_le _

theorem Made.height_le (h : c.Made) : height c ≤ max_depth := by
  by_cases hp : c.special_type = .PrunnedBranch
  · rw [height_eq, h.refs_pruned hp]
    exact Nat.zero_le _
  · exact le_trans (h.height_le_depth 0) (h.get_depth_eq hp 0).2

end DataCell

end Ton
