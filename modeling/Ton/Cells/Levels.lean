import Mathlib.Tactic.IntervalCases
import Ton.Cells.DataCell
/-!
# Hashes and depths at every level

What `create` computes, level by level. A cell stores one hash and one depth for each
significant level; those at any other level are those of the significant level below
it (`LevelMask.top`).
-/

namespace Ton
open BigEndian CellTraits Result List

namespace LevelMask

/-- The significant levels of a mask, in order. -/
def levels (m : LevelMask) : List Nat := (List.range (m.get_level + 1)).filter m.is_significant

/-- The highest significant level up to a given one. -/
def top (m : LevelMask) (level : Nat) : Nat := (m.apply level).get_level

variable {m : LevelMask}

theorem apply_of_le (hm : m.mask < 8) {level : Nat} (h : 3 ≤ level) : m.apply level = m := by
  have : m.mask < 2 ^ level := Nat.lt_of_lt_of_le hm (Nat.pow_le_pow_right (n := 2) (by decide) h)
  simp only [apply, Nat.and_two_pow_sub_one_eq_mod, Nat.mod_eq_of_lt this]

/-- A fact about the levels of a mask is a fact about eight masks and four levels. -/
theorem forall_levels {P : LevelMask → Nat → Prop} (hP : ∀ m < 8, ∀ level < 4, P ⟨m⟩ level)
    (hle : ∀ m : LevelMask, m.mask < 8 → ∀ level, 3 ≤ level → P m 3 → P m level) (hm : m.mask < 8)
    (level : Nat) : P m level := by
  by_cases h : level < 4
  · exact hP m.mask hm level h
  · exact hle m hm level (by omega) (hP m.mask hm 3 (by decide))

theorem getElem?_levels (hm : m.mask < 8) (level : Nat) :
    m.levels[(m.apply level).get_hash_i]? = some (m.top level) := by
  refine forall_levels (P := fun m level => m.levels[(m.apply level).get_hash_i]? = some (m.top level)) (by decide) ?_ hm level
  intro m hm level h
  simp only [top, apply_of_le hm h, apply_of_le hm (Nat.le_refl 3)]
  exact id

/-- The hash of a level is that of the significant level below it. -/
theorem top_hash_i (hm : m.mask < 8) (level : Nat) : (m.apply (m.top level)).get_hash_i = (m.apply level).get_hash_i := by
  refine forall_levels (P := fun m level => (m.apply (m.top level)).get_hash_i = (m.apply level).get_hash_i) (by decide) ?_ hm level
  intro m hm level h
  simp only [top, apply_of_le hm h, apply_of_le hm (Nat.le_refl 3)]
  exact id

theorem levels_length (hm : m.mask < 8) : m.levels.length = m.get_hashes_count := by
  obtain ⟨m⟩ := m
  revert m
  decide

end LevelMask

namespace DataCell

/-- The depth that `create` computes at a level. -/
def depthAt (type : SpecialType) (refs : List DataCell) (level : Nat) : Nat :=
  if refs.length ≠ 0 then maxDepth refs (childLevel type level) + 1 else maxDepth refs (childLevel type level)

variable {refs : List DataCell}

theorem hashLoop_depths {special : Bool} {type : SpecialType} {data : List Bool} {m : LevelMask}
    {ls : List Nat} {hashes hashes' : List Hash} {depths depths' : List Nat}
    (h : hashLoop special type data refs m ls hashes depths = .ok (hashes', depths')) :
    depths' = depths ++ ls.map (depthAt type refs) ∧ ∀ l ∈ ls, depthAt type refs l ≤ max_depth := by
  induction ls generalizing hashes depths with
  | nil =>
    cases h
    exact ⟨by simp, by simp⟩
  | cons l ls ih =>
    simp only [hashLoop] at h
    split at h
    · cases h
    · next hdepth =>
      obtain ⟨e, hle⟩ := ih h
      refine ⟨by rw [e]; simp [depthAt], ?_⟩
      intro l' hl'
      rcases mem_cons.1 hl' with rfl | hl'
      · unfold depthAt
        split
        · next hne =>
          have := fun hge => hdepth ⟨hne, hge⟩
          omega
        · next he =>
          rw [not_not, length_eq_zero_iff] at he
          simp [he, maxDepth]
      · exact hle l' hl'

theorem le_maxDepth {r : DataCell} (h : r ∈ refs) (level : Nat) : r.get_depth level ≤ maxDepth refs level := by
  have key : ∀ (l : List DataCell) (d : Nat), d ≤ l.foldl (fun d r => max d (r.get_depth level)) d ∧
      ∀ r ∈ l, r.get_depth level ≤ l.foldl (fun d r => max d (r.get_depth level)) d := by
    intro l
    induction l with
    | nil => simp
    | cons a l ih =>
      intro d
      obtain ⟨h1, h2⟩ := ih (max d (a.get_depth level))
      refine ⟨le_trans (le_max_left _ _) h1, ?_⟩
      intro r hr
      rcases mem_cons.1 hr with rfl | hr
      · exact le_trans (le_max_right _ _) h1
      · exact h2 r hr
  exact (key refs 0).2 r h

theorem create_special_type {data : List Bool} {special : Bool} {c : DataCell} {type : SpecialType}
    (hc : create data refs special = .ok c) (htype : new_type data special = .ok type) : c.special_type = type := by
  obtain ⟨e1, e2, -⟩ := create_fields hc
  rw [special_type, e1, e2]
  unfold new_type at htype
  cases special with
  | false =>
    cases htype
    rfl
  | true =>
    simp only [Bool.not_true, Bool.false_eq_true, if_false] at htype
    split at htype
    · cases htype
    · split at htype
      · cases htype
      · cases htype
        rfl

section Made
variable {c : DataCell}

theorem Made.loop (h : c.Made) : check_type c.special_type c.data c.refs = .ok c.get_level_mask ∧
    hashLoop c.is_special c.special_type c.data c.refs c.get_level_mask (hashLevels c.special_type c.get_level_mask) [] [] =
      .ok (c.hashes, c.depths) := by
  obtain ⟨type, m, hashes, depths, htype, hm, -, -, hloop, e⟩ := create_ok h.create_self
  obtain rfl := create_special_type h.create_self htype
  rw [e]
  exact ⟨hm, hloop⟩

theorem hashLevels_eq {type : SpecialType} (h : type ≠ .PrunnedBranch) (m : LevelMask) : hashLevels type m = m.levels := by
  rw [hashLevels, if_neg h, Nat.sub_self]
  rfl

theorem Made.get_depth_eq (h : c.Made) (hp : c.special_type ≠ .PrunnedBranch) (level : Nat) :
    c.get_depth level = depthAt c.special_type c.refs (c.get_level_mask.top level) ∧ c.get_depth level ≤ max_depth := by
  obtain ⟨-, hloop⟩ := h.loop
  obtain ⟨hdepths, hle⟩ := hashLoop_depths hloop
  rw [hashLevels_eq hp] at hdepths hle
  have htop := LevelMask.getElem?_levels h.mask_lt level
  have hget : c.get_depth level = depthAt c.special_type c.refs (c.get_level_mask.top level) := by
    rw [get_depth, if_neg hp, hdepths, nil_append, getD_eq_getElem?_getD, getElem?_map, htop]
    rfl
  exact ⟨hget, hget ▸ hle _ (mem_of_getElem? htop)⟩

theorem hashLoop_hashes {special : Bool} {type : SpecialType} {data : List Bool} {refs : List DataCell} {m : LevelMask}
    {ls : List Nat} {hashes hashes' : List Hash} {depths depths' : List Nat}
    (h : hashLoop special type data refs m ls hashes depths = .ok (hashes', depths')) (hl : ∀ x ∈ hashes, x.length = hash_bytes) :
    hashes'.length = hashes.length + ls.length ∧ ∀ x ∈ hashes', x.length = hash_bytes := by
  induction ls generalizing hashes depths with
  | nil =>
    cases h
    exact ⟨rfl, hl⟩
  | cons l ls ih =>
    simp only [hashLoop] at h
    split at h
    · cases h
    · obtain ⟨e, hlen⟩ := ih h (by
        intro x hx
        rcases mem_append.1 hx with hx | hx
        · exact hl x hx
        · rw [mem_singleton.1 hx]
          exact Sha256.sha256_length _)
      refine ⟨?_, hlen⟩
      rw [e, length_append, length_singleton, length_cons]
      omega

/-- There is a hash for each significant level, or for the highest one only. -/
theorem Made.hashes_length (h : c.Made) :
    c.hashes.length = (if c.special_type = .PrunnedBranch then 1 else c.get_level_mask.get_hashes_count) ∧
      ∀ x ∈ c.hashes, x.length = hash_bytes := by
  obtain ⟨-, hloop⟩ := h.loop
  obtain ⟨e, hlen⟩ := hashLoop_hashes hloop (by simp)
  refine ⟨?_, hlen⟩
  have hlevels := LevelMask.levels_length h.mask_lt
  rw [e, length_nil, Nat.zero_add, hashLevels, length_drop]
  rw [LevelMask.levels] at hlevels
  have hpos : 1 ≤ c.get_level_mask.get_hashes_count := Nat.succ_pos _
  split <;> omega

theorem hash_i_le {m : LevelMask} (hm : m.mask < 8) (level : Nat) : (m.apply level).get_hash_i ≤ m.get_hash_i := by
  refine LevelMask.forall_levels (P := fun m level => (m.apply level).get_hash_i ≤ m.get_hash_i) (by decide) ?_ hm level
  intro m hm level h _
  rw [LevelMask.apply_of_le hm h]

end Made

end DataCell

end Ton
