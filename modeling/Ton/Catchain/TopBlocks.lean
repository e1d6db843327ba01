import Ton.Catchain.CatChain
/-!
# Which blocks are on top

The top blocks are the latest blocks of the sources, without those that are processed already and
those that came before the latest block of another source. What the receiver promises of a block is
`Delivers`: its parents are known, it follows the latest block of its source, and its vector time
is the one of its history.
-/

namespace Ton.Catchain.Processing
open Ancestry Result List Option Bool Processing.CatChainBlock

variable {Hash : Type} [DecidableEq Hash]

/-- `a` is `b` or one of its ancestors. -/
abbrev Past (l : List (CatChainBlock Hash)) : Hash → Hash → Prop := Before CatChainBlock.hash parents l

/-! ## Vector times -/

/-- The blocks as events on the lines of their forks. -/
def events (l : List (CatChainBlock Hash)) : History Hash (Option Nat) where
  parent := Parent CatChainBlock.hash parents l
  line h := (l.find? fun B => B.hash = h).map (·.fork)
  height h := (l.find? fun B => B.hash = h).elim 0 (·.height)

/-- Every vector time is the one of the block's history, and every fork is a chain. -/
structure Timed (l : List (CatChainBlock Hash)) : Prop where
  time : ∀ B ∈ l, ∀ f, (events l).TimeAt B.hash (some f) (B.vt.getD f 0)
  linear : ∀ f, (events l).Linear (some f)
  height_pos : ∀ B ∈ l, 0 < B.height

section
variable {l : List (CatChainBlock Hash)} {B C : CatChainBlock Hash}

theorem find_of_mem (hl : Causal CatChainBlock.hash parents l) (hB : B ∈ l) : l.find? (fun C => C.hash = B.hash) = some B := by
  cases hfind : l.find? fun C => C.hash = B.hash with
  | none =>
    have hnone := find?_eq_none.1 hfind B hB
    simp at hnone
  | some C =>
    have hC := mem_of_find?_eq_some hfind
    have heq : C.hash = B.hash := by simpa using find?_some hfind
    rw [hl.unique hC hB heq]

/-- One comparison of heights decides whether a block came before another. -/
theorem is_descendant_iff (hl : Causal CatChainBlock.hash parents l) (ht : Timed l) (hB : B ∈ l) (hC : C ∈ l) :
    B.is_descendant_of C = true ↔ Past l C.hash B.hash := by
  have hline : (events l).line C.hash = some C.fork := by
    show (l.find? fun D => D.hash = C.hash).map (·.fork) = some C.fork
    rw [find_of_mem hl hC]
    rfl
  have hheight : (events l).height C.hash = C.height := by
    show (l.find? fun D => D.hash = C.hash).elim 0 (·.height) = C.height
    rw [find_of_mem hl hC]
    rfl
  have hpos := ht.height_pos C hC
  have hlinear := ht.linear C.fork
  have htime := ht.time B hB C.fork
  rw [← hline] at hlinear htime
  have hiff := hlinear.before_iff (hheight ▸ hpos) htime
  rw [hheight] at hiff
  refine Iff.trans ?_ hiff
  unfold is_descendant_of
  split
  · next hlen =>
    have hzero : B.vt.getD C.fork 0 = 0 := by
      rw [getD_eq_getElem?_getD, getElem?_eq_none hlen]
      rfl
    rw [hzero]
    simp
    omega
  · simp

end

/-! ## The set that is meant -/

/-- All blocks of its source came before it. -/
def Latest (l : List (CatChainBlock Hash)) (B : CatChainBlock Hash) : Prop := B ∈ l ∧ ∀ C ∈ l, C.source = B.source → Past l C.hash B.hash

structure IsTop (σ : CatChain Hash) (B : CatChainBlock Hash) : Prop where
  latest : Latest σ.blocks B
  remote : B.source ≠ σ.local_idx
  honest : σ.blamed_sources B.source = false
  new : σ.processed B.hash = false
  free : ∀ C, Latest σ.blocks C → C.source ≠ B.source → σ.blamed_sources C.source = false → ¬Past σ.blocks B.hash C.hash

/-- What holds of the blocks and of the latest ones. -/
structure Core (σ : CatChain Hash) : Prop where
  causal : Causal CatChainBlock.hash parents σ.blocks
  timed : Timed σ.blocks
  source_lt : ∀ B ∈ σ.blocks, B.source < σ.sources
  latest : ∀ i B, σ.blamed_sources i = false → (σ.top_source_blocks i = some B ↔ Latest σ.blocks B ∧ B.source = i)
  some_latest : ∀ B ∈ σ.blocks, σ.blamed_sources B.source = false → (σ.top_source_blocks B.source).isSome = true
  closed : Closed CatChainBlock.hash parents σ.blocks σ.processed
  processed_known : ∀ h, σ.processed h = true → Known CatChainBlock.hash σ.blocks h

def OnTop (σ : CatChain Hash) : Prop := ∀ h, h ∈ σ.top_blocks ↔ ∃ B, B.hash = h ∧ IsTop σ B

section
variable {σ : CatChain Hash} {B C : CatChainBlock Hash}

theorem Latest.unique (hs : Core σ) (hB : Latest σ.blocks B) (hC : Latest σ.blocks C) (h : B.source = C.source) : B = C := by
  have hBC := hC.2 B hB.1 h
  have hCB := hB.2 C hC.1 h.symm
  exact hs.causal.unique hB.1 hC.1 (hs.causal.antisymm hBC hCB)

theorem Core.exists_latest (hs : Core σ) (hB : B ∈ σ.blocks) (hhonest : σ.blamed_sources B.source = false) :
    ∃ C, Latest σ.blocks C ∧ C.source = B.source ∧ Past σ.blocks B.hash C.hash := by
  obtain ⟨C, hC⟩ := isSome_iff_exists.1 (hs.some_latest B hB hhonest)
  obtain ⟨hlatest, hsource⟩ := (hs.latest _ _ hhonest).1 hC
  exact ⟨C, hlatest, hsource, hlatest.2 B hB hsource.symm⟩

theorem mem_recompute (hs : Core σ) (h : Hash) : h ∈ σ.recompute ↔ ∃ B, B.hash = h ∧ IsTop σ B := by
  have hfree : ∀ B, Latest σ.blocks B → (σ.has_descendant B.source B = false ↔
      ∀ C, Latest σ.blocks C → C.source ≠ B.source → σ.blamed_sources C.source = false → ¬Past σ.blocks B.hash C.hash) := by
    intro B hB
    unfold CatChain.has_descendant
    rw [List.any_eq_false]
    constructor
    · intro hnone C hC hne hhonest hpast
      have hj := hnone C.source (mem_range.2 (hs.source_lt C hC.1))
      rw [(hs.latest _ _ hhonest).2 ⟨hC, rfl⟩] at hj
      have hdesc := (is_descendant_iff hs.causal hs.timed hC.1 hB.1).2 hpast
      simp [hhonest, hdesc, hne.symm] at hj
    · intro hall j _ hj
      cases htop : σ.top_source_blocks j with
      | none => simp [htop] at hj
      | some C =>
        simp only [htop, and_eq_true, decide_eq_true_eq, not_eq_true', any_some] at hj
        obtain ⟨⟨hne, hhonest⟩, hdesc⟩ := hj
        obtain ⟨hC, hsource⟩ := (hs.latest _ _ hhonest).1 htop
        refine hall C hC ?_ ?_ ((is_descendant_iff hs.causal hs.timed hC.1 hB.1).1 hdesc)
        · rw [hsource]
          exact fun h => hne h.symm
        · rw [hsource]
          exact hhonest
  rw [CatChain.recompute, List.mem_toFinset, mem_filterMap]
  constructor
  · rintro ⟨i, -, hi⟩
    split at hi
    · next hcond =>
      obtain ⟨B, hB, hi⟩ := bind_eq_some_iff.1 hi
      obtain ⟨hlatest, rfl⟩ := (hs.latest _ _ hcond.1).1 hB
      split at hi
      · cases hi
      · next hnew =>
        split at hi
        · cases hi
        · next hnone =>
          cases hi
          exact ⟨B, rfl, hlatest, hcond.2, hcond.1, eq_false_iff.2 hnew, (hfree B hlatest).1 (eq_false_iff.2 hnone)⟩
    · cases hi
  · rintro ⟨B, rfl, hB⟩
    refine ⟨B.source, mem_range.2 (hs.source_lt B hB.latest.1), ?_⟩
    rw [if_pos ⟨hB.honest, hB.remote⟩, (hs.latest _ _ hB.honest).2 ⟨hB.latest, rfl⟩, bind_some, hB.new,
      (hfree B hB.latest).2 hB.free]
    rfl

/-- Every block that is not processed is on top or came before one that is, or before the latest of the local source. -/
theorem not_lost (hs : Core σ) (htop : OnTop σ) (hB : B ∈ σ.blocks) (hhonest : σ.blamed_sources B.source = false) (hnew : σ.processed B.hash = false) :
    ∃ C, Past σ.blocks B.hash C.hash ∧ (C.hash ∈ σ.top_blocks ∨ Latest σ.blocks C ∧ C.source = σ.local_idx) := by
  obtain ⟨A, hA, hsource, hpast⟩ := hs.exists_latest hB hhonest
  obtain ⟨c, ⟨C, hC, rfl, hChonest⟩, hAC, hlast⟩ := exists_last hs.causal (a := A.hash)
    (P := fun h => ∃ D, Latest σ.blocks D ∧ D.hash = h ∧ σ.blamed_sources D.source = false)
    ⟨A, hA.1, rfl⟩ ⟨A, hA, rfl, hsource ▸ hhonest⟩
  have hBC : Past σ.blocks B.hash C.hash := hpast.trans hAC
  refine ⟨C, hBC, ?_⟩
  by_cases hlocal : C.source = σ.local_idx
  · exact .inr ⟨hC, hlocal⟩
  · refine .inl ((htop _).2 ⟨C, rfl, hC, hlocal, hChonest, ?_, ?_⟩)
    · by_contra hprocessed
      rw [not_eq_false] at hprocessed
      rw [hs.closed.before hBC hprocessed] at hnew
      cases hnew
    · intro D hD hne hDhonest hCD
      have heq := hlast D.hash ⟨D, hD.1, rfl⟩ ⟨D, hD, rfl, hDhonest⟩ hCD
      exact hne (congrArg source (hs.causal.unique hD.1 hC.1 heq))

end

end Ton.Catchain.Processing
