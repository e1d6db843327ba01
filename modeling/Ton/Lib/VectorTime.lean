import Mathlib
/-!
# Vector times

Events with their parents, each at a height of one line. The time of an event
holds for each line the greatest height among the event and what came before it.
Where the lines are chains, comparing one height with one entry of a time decides
whether an event came before another.
-/

structure History (β φ : Type) where
  parent : β → β → Prop
  line : β → φ
  height : β → ℕ

namespace History
open Relation

variable {β φ : Type} (H : History β φ) {a b p : β} {f : φ} {t : ℕ}

/-- The event itself, or one of its ancestors. -/
def Before : β → β → Prop := ReflTransGen H.parent

/-- The heights of a line among an event and what came before it. -/
def heights (b : β) (f : φ) : Set ℕ := {k | ∃ a, H.Before a b ∧ H.line a = f ∧ H.height a = k}

/-- `t` is the entry of the line in the time of the event. -/
def TimeAt (b : β) (f : φ) (t : ℕ) : Prop := IsLUB (H.heights b f) t

/-- The events of a line follow each other, each the parent of the next. -/
structure Linear (f : φ) : Prop where
  inj : ∀ a b, H.line a = f → H.line b = f → H.height a = H.height b → a = b
  step : ∀ a b, H.line a = f → H.line b = f → H.height a < H.height b → ∃ p, H.parent p b ∧ H.line p = f ∧ H.height p + 1 = H.height b

variable {H}

theorem timeAt_iff : H.TimeAt b f t ↔ ∀ x, t ≤ x ↔ ∀ a, H.Before a b → H.line a = f → H.height a ≤ x := by
  rw [TimeAt, isLUB_iff_le_iff]
  refine forall_congr' fun x => iff_congr Iff.rfl ?_
  constructor
  · exact fun h a hab hf => h ⟨a, hab, hf, rfl⟩
  · rintro h k ⟨a, hab, hf, rfl⟩
    exact h a hab hf

theorem TimeAt.isGreatest (h : H.TimeAt b f t) : IsGreatest (insert 0 (H.heights b f)) t := by
  constructor
  · by_cases hne : (H.heights b f).Nonempty
    · refine .inr ?_
      have hmem := Nat.sSup_mem hne ⟨t, h.1⟩
      rwa [h.csSup_eq hne] at hmem
    · refine .inl ?_
      rw [Set.not_nonempty_iff_eq_empty] at hne
      rw [TimeAt, hne, isLUB_empty_iff] at h
      exact Nat.le_zero.1 (h 0)
  · rintro k (rfl | hk)
    · exact Nat.zero_le t
    · exact h.1 hk

theorem TimeAt.exists (h : H.TimeAt b f t) (ht : 0 < t) : ∃ a, H.Before a b ∧ H.line a = f ∧ H.height a = t := by
  rcases h.isGreatest.1 with h0 | hmem
  · omega
  · exact hmem

theorem TimeAt.le (h : H.TimeAt b f t) (hab : H.Before a b) (ha : H.line a = f) : H.height a ≤ t := h.1 ⟨a, hab, ha, rfl⟩

/-- The time of an event is joined from its own height and the times of its parents. -/
theorem timeAt_of_parents (time : β → ℕ) (hp : ∀ p, H.parent p b → H.TimeAt p f (time p))
    (ht : ∀ x, t ≤ x ↔ (H.line b = f → H.height b ≤ x) ∧ ∀ p, H.parent p b → time p ≤ x) : H.TimeAt b f t := by
  rw [timeAt_iff]
  intro x
  rw [ht x]
  constructor
  · rintro ⟨hown, hparents⟩ a hab hf
    rcases ReflTransGen.cases_tail hab with rfl | ⟨p, hap, hpb⟩
    · exact hown hf
    · exact ((hp p hpb).le hap hf).trans (hparents p hpb)
  · intro h
    refine ⟨h b ReflTransGen.refl, fun p hpb => ?_⟩
    rw [timeAt_iff.1 (hp p hpb) x]
    exact fun a hap hf => h a (ReflTransGen.tail hap hpb) hf

theorem TimeAt.congr {H' : History β φ} {S : Set β} (hS : ∀ a b, b ∈ S → H.parent a b → a ∈ S)
    (hparent : ∀ a b, b ∈ S → (H'.parent a b ↔ H.parent a b)) (hline : ∀ a ∈ S, H'.line a = H.line a)
    (hheight : ∀ a ∈ S, H'.height a = H.height a) (hb : b ∈ S) (h : H.TimeAt b f t) : H'.TimeAt b f t := by
  have hmem : ∀ a, H'.Before a b → H.Before a b ∧ a ∈ S := by
    intro a hab
    induction hab using ReflTransGen.head_induction_on with
    | refl => exact ⟨ReflTransGen.refl, hb⟩
    | head hac _ ih =>
      have hac' := (hparent _ _ ih.2).1 hac
      exact ⟨ReflTransGen.head hac' ih.1, hS _ _ ih.2 hac'⟩
  have hback : ∀ a, H.Before a b → H'.Before a b ∧ a ∈ S := by
    intro a hab
    induction hab using ReflTransGen.head_induction_on with
    | refl => exact ⟨ReflTransGen.refl, hb⟩
    | head hac _ ih => exact ⟨ReflTransGen.head ((hparent _ _ ih.2).2 hac) ih.1, hS _ _ ih.2 hac⟩
  rw [timeAt_iff] at h ⊢
  intro x
  rw [h x]
  constructor
  · intro hx a hab hf
    obtain ⟨hab, ha⟩ := hmem a hab
    rw [hheight a ha]
    exact hx a hab (by rw [← hline a ha, hf])
  · intro hx a hab hf
    obtain ⟨hab, ha⟩ := hback a hab
    rw [← hheight a ha]
    exact hx a hab (by rw [hline a ha, hf])

theorem Linear.before (h : H.Linear f) (ha : H.line a = f) (hb : H.line b = f) (hab : H.height a ≤ H.height b) : H.Before a b := by
  induction hk : H.height b generalizing b with
  | zero => rw [h.inj a b ha hb (by omega)]; exact ReflTransGen.refl
  | succ k ih =>
    rcases Nat.lt_or_ge (H.height a) (H.height b) with hlt | hge
    · obtain ⟨p, hpb, hp, hheight⟩ := h.step a b ha hb hlt
      exact ReflTransGen.tail (ih hp (by omega) (by omega)) hpb
    · rw [h.inj a b ha hb (by omega)]
      exact ReflTransGen.refl

theorem Linear.before_iff (h : H.Linear (H.line a)) (ha : 0 < H.height a) (ht : H.TimeAt b (H.line a) t) : H.height a ≤ t ↔ H.Before a b := by
  constructor
  · intro hle
    obtain ⟨c, hcb, hline, hheight⟩ := ht.exists (by omega)
    exact (h.before rfl hline (by omega)).trans hcb
  · exact fun hab => ht.le hab rfl

/-- Without a cycle among finitely many events before it, an event is reached from its parents. -/
theorem Before.induction {b : β} (hfin : {a | H.Before a b}.Finite) (hacyclic : ∀ a, H.Before a b → ¬ TransGen H.parent a a)
    {P : β → Prop} (hP : ∀ c, H.Before c b → (∀ p, H.parent p c → P p) → P c) : P b := by
  have : Finite {a // H.Before a b} := hfin
  let r : {a // H.Before a b} → {a // H.Before a b} → Prop := fun x y => TransGen H.parent x.1 y.1
  have htrans : IsTrans _ r := ⟨fun _ _ _ => TransGen.trans⟩
  have hirrefl : Std.Irrefl r := ⟨fun x => hacyclic x.1 x.2⟩
  have hwf : WellFounded r := Finite.wellFounded_of_trans_of_irrefl r
  refine hwf.induction (C := fun x => P x.1) ⟨b, ReflTransGen.refl⟩ fun x ih => ?_
  refine hP x.1 x.2 fun p hp => ?_
  exact ih ⟨p, ReflTransGen.head hp x.2⟩ (TransGen.single hp)

end History
