import Mathlib
/-!
# Lists in causal order

Items that name earlier ones as their parents, the newest first. `mark` sets a flag for an item and
all that came before it; it stops at an item that has the flag, since all before it has it too.
-/

namespace Ancestry
open Relation List

variable {α ι : Type} (name : α → ι) (parents : α → List ι)

/-- The item `b` of the list has `a` as a parent. -/
def Parent (l : List α) (a b : ι) : Prop := ∃ x ∈ l, name x = b ∧ a ∈ parents x

/-- `a` is `b` or came before it. -/
def Before (l : List α) : ι → ι → Prop := ReflTransGen (Parent name parents l)

def Known (l : List α) (a : ι) : Prop := ∃ x ∈ l, name x = a

/-- Every item is new, and its parents are further down the list. -/
def Causal : List α → Prop
  | [] => True
  | x :: l => ¬Known name l (name x) ∧ (∀ p ∈ parents x, Known name l p) ∧ Causal l

/-- Marks an item and what came before it. -/
def mark [DecidableEq ι] : List α → (ι → Bool) → ι → ι → Bool
  | [], f, _ => f
  | x :: l, f, b =>
    if name x = b then if f b then f else Function.update ((parents x).foldl (mark l) f) b true
    else mark l f b

/-- The marks are closed under parents. -/
def Closed (l : List α) (f : ι → Bool) : Prop := ∀ a b, Parent name parents l a b → f b = true → f a = true

variable {name parents} {l : List α} {x : α} {a b c : ι} {f : ι → Bool}

theorem Parent.known (h : Parent name parents l a b) : Known name l b := by
  obtain ⟨y, hy, hb, -⟩ := h
  exact ⟨y, hy, hb⟩

theorem Causal.parent_known (hl : Causal name parents l) (h : Parent name parents l a b) : Known name l a := by
  induction l with
  | nil =>
    obtain ⟨y, hy, -⟩ := h
    cases hy
  | cons x l ih =>
    obtain ⟨-, hparents, hl⟩ := hl
    obtain ⟨y, hy, hb, ha⟩ := h
    rcases mem_cons.1 hy with rfl | hy
    · obtain ⟨z, hz, hza⟩ := hparents a ha
      exact ⟨z, mem_cons_of_mem _ hz, hza⟩
    · obtain ⟨z, hz, hza⟩ := ih hl ⟨y, hy, hb, ha⟩
      exact ⟨z, mem_cons_of_mem _ hz, hza⟩

theorem Causal.before_known (hl : Causal name parents l) (h : Before name parents l a b) (hb : Known name l b) : Known name l a := by
  induction h using ReflTransGen.head_induction_on with
  | refl => exact hb
  | head hp _ _ => exact hl.parent_known hp

/-- Of an item that is not the new one, the parents are as before. -/
theorem parent_cons (hb : name x ≠ b) : Parent name parents (x :: l) a b ↔ Parent name parents l a b := by
  constructor
  · rintro ⟨y, hy, hyb, ha⟩
    rcases mem_cons.1 hy with rfl | hy
    · exact absurd hyb hb
    · exact ⟨y, hy, hyb, ha⟩
  · rintro ⟨y, hy, hyb, ha⟩
    exact ⟨y, mem_cons_of_mem _ hy, hyb, ha⟩

theorem parent_new (hl : Causal name parents (x :: l)) : Parent name parents (x :: l) a (name x) ↔ a ∈ parents x := by
  constructor
  · rintro ⟨y, hy, hyb, ha⟩
    rcases mem_cons.1 hy with rfl | hy
    · exact ha
    · exact absurd ⟨y, hy, hyb⟩ hl.1
  · exact fun ha => ⟨x, mem_cons_self .., rfl, ha⟩

theorem Before.cons (h : Before name parents l a b) : Before name parents (x :: l) a b := by
  induction h with
  | refl => exact .refl
  | tail _ hp ih =>
    obtain ⟨y, hy, hyb, ha⟩ := hp
    exact .tail ih ⟨y, mem_cons_of_mem _ hy, hyb, ha⟩

theorem before_old (hl : Causal name parents (x :: l)) (hb : Known name l b) : Before name parents (x :: l) a b ↔ Before name parents l a b := by
  constructor
  · intro h
    induction h using ReflTransGen.head_induction_on with
    | refl => exact .refl
    | @head a c hp hcb ih =>
      refine .head ((parent_cons ?_).1 hp) ih
      rintro rfl
      exact hl.1 (hl.2.2.before_known ih hb)
  · exact Before.cons

/-- Before the new item are itself and what came before its parents. -/
theorem before_new (hl : Causal name parents (x :: l)) :
    Before name parents (x :: l) a (name x) ↔ a = name x ∨ ∃ p ∈ parents x, Before name parents l a p := by
  constructor
  · intro h
    rcases ReflTransGen.cases_tail h with heq | ⟨p, hap, hp⟩
    · exact .inl heq.symm
    · rw [parent_new hl] at hp
      exact .inr ⟨p, hp, (before_old hl (hl.2.1 p hp)).1 hap⟩
  · rintro (rfl | ⟨p, hp, hap⟩)
    · exact .refl
    · exact .tail ((before_old hl (hl.2.1 p hp)).2 hap) ((parent_new hl).2 hp)

theorem not_before_old (hl : Causal name parents (x :: l)) (hb : Known name l b) : ¬Before name parents (x :: l) (name x) b := by
  intro h
  exact hl.1 (hl.2.2.before_known ((before_old hl hb).1 h) hb)

theorem Causal.unique (hl : Causal name parents l) {x y : α} (hx : x ∈ l) (hy : y ∈ l) (h : name x = name y) : x = y := by
  induction l with
  | nil => cases hx
  | cons z l ih =>
    rcases mem_cons.1 hx with hxz | hxl
    · rcases mem_cons.1 hy with hyz | hyl
      · rw [hxz, hyz]
      · rw [hxz] at h
        exact absurd ⟨y, hyl, h.symm⟩ hl.1
    · rcases mem_cons.1 hy with hyz | hyl
      · rw [hyz] at h
        exact absurd ⟨x, hxl, h⟩ hl.1
      · exact ih hl.2.2 hxl hyl

theorem Causal.antisymm (hl : Causal name parents l) (hab : Before name parents l a b) (hba : Before name parents l b a) : a = b := by
  induction l with
  | nil =>
    rcases ReflTransGen.cases_head hab with heq | ⟨c, ⟨y, hy, -⟩, -⟩
    · exact heq
    · cases hy
  | cons x l ih =>
    by_cases ha : Known name l a
    · have hba' := (before_old hl ha).1 hba
      have hb := hl.2.2.before_known hba' ha
      exact ih hl.2.2 ((before_old hl hb).1 hab) hba'
    · by_cases hb : Known name l b
      · exact absurd (hl.2.2.before_known ((before_old hl hb).1 hab) hb) ha
      · -- neither is old: a step between them would be one to the new item from an old one
        rcases ReflTransGen.cases_tail hab with heq | ⟨p, hap, hp⟩
        · exact heq.symm
        · obtain ⟨y, hy, rfl, hpy⟩ := hp
          rcases mem_cons.1 hy with rfl | hy
          · exact absurd (hl.2.2.before_known ((before_old hl (hl.2.1 p hpy)).1 hap) (hl.2.1 p hpy)) ha
          · exact absurd ⟨y, hy, rfl⟩ hb

theorem Closed.before (hf : Closed name parents l f) (h : Before name parents l a b) (hb : f b = true) : f a = true := by
  induction h using ReflTransGen.head_induction_on with
  | refl => exact hb
  | head hp _ ih => exact hf _ _ hp ih

theorem Closed.tail (hl : Causal name parents (x :: l)) (hf : Closed name parents (x :: l) f) : Closed name parents l f := by
  intro a b hp hb
  refine hf a b ((parent_cons ?_).2 hp) hb
  rintro rfl
  exact hl.1 hp.known

section
variable [DecidableEq ι]

theorem mark_iff (hl : Causal name parents l) (hf : Closed name parents l f) (hb : Known name l b) (c : ι) :
    mark name parents l f b c = true ↔ f c = true ∨ Before name parents l c b := by
  induction l generalizing f b c with
  | nil =>
    obtain ⟨y, hy, -⟩ := hb
    cases hy
  | cons x l ih =>
    rw [mark]
    by_cases hx : name x = b
    · subst hx
      rw [if_pos rfl]
      by_cases hmarked : f (name x) = true
      · rw [if_pos hmarked]
        constructor
        · exact .inl
        · rintro (hc | hc)
          · exact hc
          · exact hf.before hc hmarked
      · rw [if_neg hmarked]
        -- the parents one after the other, each closing what it marks
        have hfold : ∀ ps : List ι, (∀ p ∈ ps, Known name l p) → ∀ g : ι → Bool, Closed name parents l g → ∀ c,
            ps.foldl (mark name parents l) g c = true ↔ g c = true ∨ ∃ p ∈ ps, Before name parents l c p := by
          intro ps
          induction ps with
          | nil => simp
          | cons p ps ihp =>
            intro hps g hg c
            have hmark := ih hl.2.2 hg (hps p (mem_cons_self ..))
            have hclosed : Closed name parents l (mark name parents l g p) := by
              intro a b hab hb'
              rw [hmark] at hb' ⊢
              rcases hb' with hb' | hb'
              · exact .inl (hg a b hab hb')
              · exact .inr (.head hab hb')
            rw [foldl_cons, ihp (fun q hq => hps q (mem_cons_of_mem _ hq)) _ hclosed c, hmark c]
            simp [or_assoc]
        rw [before_new hl, Function.update_apply]
        by_cases hc : c = name x
        · simp [hc]
        · rw [if_neg hc, hfold _ hl.2.1 f (Closed.tail hl hf) c]
          simp [hc]
    · rw [if_neg hx]
      have hb' : Known name l b := by
        obtain ⟨y, hy, hyb⟩ := hb
        rcases mem_cons.1 hy with rfl | hy
        · exact absurd hyb hx
        · exact ⟨y, hy, hyb⟩
      rw [ih hl.2.2 (Closed.tail hl hf) hb' c, before_old hl hb']

theorem closed_mark (hl : Causal name parents l) (hf : Closed name parents l f) (hb : Known name l b) :
    Closed name parents l (mark name parents l f b) := by
  intro a c hac hc
  rw [mark_iff hl hf hb] at hc ⊢
  rcases hc with hc | hc
  · exact .inl (hf a c hac hc)
  · exact .inr (.head hac hc)

end

theorem exists_last (hl : Causal name parents l) {P : ι → Prop} (ha : Known name l a) (hP : P a) :
    ∃ b, P b ∧ Before name parents l a b ∧ ∀ c, Known name l c → P c → Before name parents l b c → c = b := by
  induction l with
  | nil =>
    obtain ⟨y, hy, -⟩ := ha
    cases hy
  | cons x l ih =>
    have hcases : ∀ c, Known name (x :: l) c → c = name x ∨ Known name l c := by
      rintro c ⟨y, hy, rfl⟩
      rcases mem_cons.1 hy with rfl | hy
      · exact .inl rfl
      · exact .inr ⟨y, hy, rfl⟩
    by_cases hnew : P (name x) ∧ Before name parents (x :: l) a (name x)
    · refine ⟨name x, hnew.1, hnew.2, fun c hc _ hbc => ?_⟩
      rcases hcases c hc with rfl | hc
      · rfl
      · exact absurd hbc (not_before_old hl hc)
    · have ha' : Known name l a := by
        rcases hcases a ha with rfl | ha
        · exact absurd ⟨hP, .refl⟩ hnew
        · exact ha
      obtain ⟨b, hb, hab, hmax⟩ := ih hl.2.2 ha'
      refine ⟨b, hb, hab.cons, fun c hc hPc hbc => ?_⟩
      rcases hcases c hc with rfl | hc
      · exact absurd ⟨hPc, hab.cons.trans hbc⟩ hnew
      · exact hmax c hc hPc ((before_old hl hc).1 hbc)

end Ancestry
