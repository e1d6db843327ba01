import Ton.Catchain.TopBlocks
/-!
# The top blocks over a run

Each event keeps `Inv`: a new block takes its parents off the set and nothing else was under it, a
blame computes the set anew, and a block that is processed leaves it with none of the others marked.
-/

namespace Ton.Catchain.Processing
open Ancestry Result List Bool Function

variable {Hash : Type} [DecidableEq Hash]

/-- What the receiver promises of a new block, and that a block of an honest source has no
direct dependency on a block of a blamed one. -/
structure Delivers (σ : CatChain Hash) (B : CatChainBlock Hash) : Prop where
  causal : Causal CatChainBlock.hash CatChainBlock.parents (B :: σ.blocks)
  timed : Timed (B :: σ.blocks)
  prev_source : ∀ P ∈ σ.blocks, B.prev = some P.hash → P.source = B.source
  chain : σ.blamed_sources B.source = false → B.prev = (σ.top_source_blocks B.source).map (·.hash)
  honest_deps : σ.blamed_sources B.source = false → ∀ D ∈ σ.blocks, D.hash ∈ B.deps → σ.blamed_sources D.source = false

structure Inv (s : CatChain Hash × List Hash) : Prop where
  core : Core s.1
  top : OnTop s.1
  nodup : s.2.Nodup
  offered : ∀ h ∈ s.2, s.1.processed h = true

variable {σ σ' : CatChain Hash} {B : CatChainBlock Hash}

/-! ## A new block -/

theorem foldl_erase (t : Finset Hash) (l : List Hash) (h : Hash) : h ∈ l.foldl (fun t p => t.erase p) t ↔ h ∈ t ∧ h ∉ l := by
  induction l generalizing t with
  | nil => simp
  | cons p l ih =>
    rw [foldl_cons, ih, Finset.mem_erase, mem_cons]
    tauto

omit [DecidableEq Hash] in
theorem mem_known {l : List (CatChainBlock Hash)} {C : CatChainBlock Hash} (hC : C ∈ l) : Known CatChainBlock.hash l C.hash := ⟨C, hC, rfl⟩

omit [DecidableEq Hash] in
theorem latest_old (hB : Causal CatChainBlock.hash CatChainBlock.parents (B :: σ.blocks)) {C : CatChainBlock Hash} (hC : C.source ≠ B.source) :
    Latest (B :: σ.blocks) C ↔ Latest σ.blocks C := by
  constructor
  · rintro ⟨hmem, hall⟩
    rcases mem_cons.1 hmem with rfl | hmem
    · exact absurd rfl hC
    · exact ⟨hmem, fun D hD hsource => (before_old hB (mem_known hmem)).1 (hall D (mem_cons_of_mem _ hD) hsource)⟩
  · rintro ⟨hmem, hall⟩
    refine ⟨mem_cons_of_mem _ hmem, fun D hD hsource => ?_⟩
    rcases mem_cons.1 hD with rfl | hD
    · exact absurd hsource.symm hC
    · exact (hall D hD hsource).cons

theorem latest_new (hs : Core σ) (hB : Delivers σ B) (hhonest : σ.blamed_sources B.source = false) {C : CatChainBlock Hash} (hC : C.source = B.source) :
    Latest (B :: σ.blocks) C ↔ C = B := by
  constructor
  · rintro ⟨hmem, hall⟩
    rcases mem_cons.1 hmem with heq | hmem
    · exact heq
    · exact absurd (hall B (mem_cons_self ..) hC.symm) (not_before_old hB.causal (mem_known hmem))
  · rintro rfl
    refine ⟨mem_cons_self .., fun D hD hsource => ?_⟩
    rcases mem_cons.1 hD with rfl | hD
    · exact .refl
    · have hDhonest : σ.blamed_sources D.source = false := hsource ▸ hhonest
      obtain ⟨A, hA, hAsource, hDA⟩ := hs.exists_latest hD hDhonest
      have hprev := hB.chain hhonest
      rw [(hs.latest _ A hhonest).2 ⟨hA, hAsource.trans hsource⟩] at hprev
      refine (before_new hB.causal).2 (.inr ⟨A.hash, ?_, hDA⟩)
      rw [CatChainBlock.parents, hprev]
      exact mem_cons_self ..

theorem core_new (hs : Core σ) (hB : Delivers σ B) (hlt : B.source < σ.sources) {top : Finset Hash} {sent : Hash → Bool}
    {latest : Nat → Option (CatChainBlock Hash)}
    (hlatest : latest = if σ.blamed_sources B.source then σ.top_source_blocks else update σ.top_source_blocks B.source (some B)) :
    Core { σ with blocks := B :: σ.blocks, preprocess_is_sent := sent, top_source_blocks := latest, top_blocks := top } where
  causal := hB.causal
  timed := hB.timed
  source_lt C hC := by
    rcases mem_cons.1 hC with rfl | hC
    · exact hlt
    · exact hs.source_lt C hC
  latest i C hi := by
    show latest i = some C ↔ Latest (B :: σ.blocks) C ∧ C.source = i
    by_cases hiB : i = B.source
    · subst hiB
      rw [hlatest, if_neg (by rw [hi]; exact Bool.false_ne_true), update_self]
      constructor
      · rintro ⟨⟩
        exact ⟨(latest_new hs hB hi rfl).2 rfl, rfl⟩
      · rintro ⟨hC, hsource⟩
        rw [(latest_new hs hB hi hsource).1 hC]
    · have hold : latest i = σ.top_source_blocks i := by
        rw [hlatest]
        split
        · rfl
        · rw [update_of_ne hiB]
      rw [hold, hs.latest i C hi]
      refine and_congr_left fun hsource => ?_
      rw [latest_old hB.causal (by rw [hsource]; exact hiB)]
  some_latest C hC hhonest := by
    show (latest C.source).isSome = true
    by_cases hCB : C.source = B.source
    · have hBhonest : ¬σ.blamed_sources B.source = true := by
        rw [← hCB, hhonest]
        exact Bool.false_ne_true
      rw [hlatest, if_neg hBhonest, hCB, update_self]
      rfl
    · have hC' : C ∈ σ.blocks := by
        rcases mem_cons.1 hC with rfl | hC
        · exact absurd rfl hCB
        · exact hC
      rw [hlatest]
      split
      · exact hs.some_latest C hC' hhonest
      · rw [update_of_ne hCB]
        exact hs.some_latest C hC' hhonest
  closed a b hab hb := by
    have hknown := hs.processed_known b hb
    have hne : B.hash ≠ b := by
      rintro rfl
      exact hB.causal.1 hknown
    exact hs.closed a b ((parent_cons hne).1 hab) hb
  processed_known h hh := by
    obtain ⟨C, hC, heq⟩ := hs.processed_known h hh
    exact ⟨C, mem_cons_of_mem _ hC, heq⟩

theorem isTop_blamed (hB : Delivers σ B) (hblamed : σ.blamed_sources B.source = true) {top : Finset Hash} {C : CatChainBlock Hash} :
    IsTop { σ with blocks := B :: σ.blocks, top_blocks := top } C ↔ IsTop σ C := by
  have hne : ∀ D : CatChainBlock Hash, σ.blamed_sources D.source = false → D.source ≠ B.source := by
    intro D hD heq
    rw [heq, hblamed] at hD
    cases hD
  constructor
  · rintro ⟨hlatest, hremote, hhonest, hnew, hfree⟩
    have hC := (latest_old hB.causal (hne C hhonest)).1 hlatest
    refine ⟨hC, hremote, hhonest, hnew, fun D hD hDC hDhonest hpast => ?_⟩
    exact hfree D ((latest_old hB.causal (hne D hDhonest)).2 hD) hDC hDhonest hpast.cons
  · rintro ⟨hlatest, hremote, hhonest, hnew, hfree⟩
    refine ⟨(latest_old hB.causal (hne C hhonest)).2 hlatest, hremote, hhonest, hnew, fun D hD hDC hDhonest hpast => ?_⟩
    have hD' := (latest_old hB.causal (hne D hDhonest)).1 hD
    exact hfree D hD' hDC hDhonest ((before_old hB.causal (mem_known hD'.1)).1 hpast)

/-- A block on top that is no parent of the new one did not come before it, and is of another source. -/
theorem not_parent (hs : Core σ) (hB : Delivers σ B) (hhonest : σ.blamed_sources B.source = false) {C : CatChainBlock Hash} (hC : IsTop σ C)
    (hparent : C.hash ∉ B.parents) : C.source ≠ B.source ∧ ∀ p ∈ B.parents, ¬Past σ.blocks C.hash p := by
  constructor
  · intro heq
    have hprev := hB.chain hhonest
    rw [(hs.latest _ C hhonest).2 ⟨hC.latest, heq⟩] at hprev
    refine hparent ?_
    rw [CatChainBlock.parents, hprev]
    exact mem_cons_self ..
  · intro p hp hpast
    obtain ⟨P, hP, rfl⟩ := hB.causal.2.1 p hp
    have hPhonest : σ.blamed_sources P.source = false := by
      rw [CatChainBlock.parents, mem_append] at hp
      rcases hp with hp | hp
      · rw [hB.prev_source P hP (Option.mem_toList.1 hp)]
        exact hhonest
      · exact hB.honest_deps hhonest P hP hp
    by_cases hsource : P.source = C.source
    · have heq := hs.causal.antisymm hpast (hC.latest.2 P hP hsource)
      rw [heq] at hparent
      exact hparent hp
    · obtain ⟨A, hA, hAsource, hPA⟩ := hs.exists_latest hP hPhonest
      refine hC.free A hA ?_ ?_ (hpast.trans hPA)
      · rw [hAsource]
        exact hsource
      · rw [hAsource]
        exact hPhonest

/-- With a block of an honest source, the tops are itself and those that are no parents of it. -/
theorem isTop_honest (hs : Core σ) (hB : Delivers σ B) (hhonest : σ.blamed_sources B.source = false) {top : Finset Hash} {sent : Hash → Bool}
    {latest : Nat → Option (CatChainBlock Hash)} {C : CatChainBlock Hash} :
    IsTop { σ with blocks := B :: σ.blocks, preprocess_is_sent := sent, top_source_blocks := latest, top_blocks := top } C ↔
      C = B ∧ B.source ≠ σ.local_idx ∨ IsTop σ C ∧ C.hash ∉ B.parents := by
  constructor
  · rintro ⟨hlatest, hremote, hChonest, hnew, hfree⟩
    by_cases hsource : C.source = B.source
    · exact .inl ⟨(latest_new hs hB hhonest hsource).1 hlatest, hsource ▸ hremote⟩
    · have hC := (latest_old hB.causal hsource).1 hlatest
      have hnotB := hfree B ((latest_new hs hB hhonest rfl).2 rfl) (Ne.symm hsource) hhonest
      have hparents : ∀ p ∈ B.parents, ¬Past σ.blocks C.hash p := fun p hp hpast =>
        hnotB ((before_new hB.causal).2 (.inr ⟨p, hp, hpast⟩))
      refine .inr ⟨⟨hC, hremote, hChonest, hnew, fun D hD hDC hDhonest hpast => ?_⟩, fun hp => hparents _ hp .refl⟩
      by_cases hDB : D.source = B.source
      · have hprev := hB.chain hhonest
        rw [(hs.latest _ D hhonest).2 ⟨hD, hDB⟩] at hprev
        refine hparents D.hash ?_ hpast
        rw [CatChainBlock.parents, hprev]
        exact mem_cons_self ..
      · exact hfree D ((latest_old hB.causal hDB).2 hD) hDC hDhonest hpast.cons
  · rintro (⟨rfl, hremote⟩ | ⟨hC, hparent⟩)
    · refine ⟨(latest_new hs hB hhonest rfl).2 rfl, hremote, hhonest, ?_, fun D hD hDB hDhonest => ?_⟩
      · by_contra hprocessed
        rw [not_eq_false] at hprocessed
        exact hB.causal.1 (hs.processed_known _ hprocessed)
      · exact not_before_old hB.causal (mem_known ((latest_old hB.causal hDB).1 hD).1)
    · obtain ⟨hsource, hparents⟩ := not_parent hs hB hhonest hC hparent
      refine ⟨(latest_old hB.causal hsource).2 hC.latest, hC.remote, hC.honest, hC.new, fun D hD hDC hDhonest hpast => ?_⟩
      by_cases hDB : D.source = B.source
      · rw [(latest_new hs hB hhonest hDB).1 hD] at hpast
        rcases (before_new hB.causal).1 hpast with heq | ⟨p, hp, hCp⟩
        · exact hB.causal.1 (heq ▸ mem_known hC.latest.1)
        · exact hparents p hp hCp
      · have hD' := (latest_old hB.causal hDB).1 hD
        exact hC.free D hD' hDC hDhonest ((before_old hB.causal (mem_known hD'.1)).1 hpast)

theorem on_new_block_inv {offered : List Hash} (hi : Inv (σ, offered)) (hB : Delivers σ B) (h : σ.on_new_block B = .ok σ') : Inv (σ', offered) := by
  obtain ⟨hs, htop, hnodup, hoffered⟩ := hi
  rw [CatChain.on_new_block, ite_error_ok, ite_error_ok, ite_error_ok] at h
  obtain ⟨-, -, hlt, h⟩ := h
  rw [not_le] at hlt
  split at h
  · next hblamed =>
    cases h
    refine ⟨core_new hs hB hlt (if_pos hblamed).symm, fun h => ?_, hnodup, hoffered⟩
    rw [foldl_erase, htop h]
    simp only [isTop_blamed hB hblamed]
    -- the parent in the chain is of the blamed source, so it is not on top
    constructor
    · exact And.left
    · rintro ⟨C, rfl, hC⟩
      refine ⟨⟨C, rfl, hC⟩, fun hprev => ?_⟩
      have hsource := hB.prev_source C hC.latest.1 (Option.mem_toList.1 hprev)
      have hhonest := hC.honest
      rw [hsource, hblamed] at hhonest
      cases hhonest
  · next hhonest =>
    cases h
    rw [not_eq_true] at hhonest
    have hlatest : update σ.top_source_blocks B.source (some B) =
        if σ.blamed_sources B.source then σ.top_source_blocks else update σ.top_source_blocks B.source (some B) := by
      rw [hhonest]
      rfl
    refine ⟨core_new hs hB hlt hlatest, fun h => ?_, hnodup, hoffered⟩
    have hmem : ∀ t, t = B.deps.foldl (fun top d => top.erase d) (B.prev.toList.foldl (fun top p => top.erase p) σ.top_blocks) →
        (h ∈ t ↔ ∃ C, C.hash = h ∧ IsTop σ C ∧ C.hash ∉ B.parents) := by
      rintro t rfl
      rw [foldl_erase, foldl_erase, htop h, CatChainBlock.parents]
      constructor
      · rintro ⟨⟨⟨C, rfl, hC⟩, h1⟩, h2⟩
        exact ⟨C, rfl, hC, fun hp => (mem_append.1 hp).elim h1 h2⟩
      · rintro ⟨C, rfl, hC, hp⟩
        exact ⟨⟨⟨C, rfl, hC⟩, fun h1 => hp (mem_append_left _ h1)⟩, fun h2 => hp (mem_append_right _ h2)⟩
    have hmeant : (∃ C, C.hash = h ∧ (C = B ∧ B.source ≠ σ.local_idx ∨ IsTop σ C ∧ C.hash ∉ B.parents)) ↔
        (h = B.hash ∧ B.source ≠ σ.local_idx) ∨ ∃ C, C.hash = h ∧ IsTop σ C ∧ C.hash ∉ B.parents := by
      constructor
      · rintro ⟨C, rfl, ⟨rfl, hremote⟩ | hC⟩
        · exact .inl ⟨rfl, hremote⟩
        · exact .inr ⟨C, rfl, hC⟩
      · rintro (⟨rfl, hremote⟩ | ⟨C, rfl, hC⟩)
        · exact ⟨B, rfl, .inl ⟨rfl, hremote⟩⟩
        · exact ⟨C, rfl, .inr hC⟩
    refine Iff.trans ?_ (exists_congr fun C => and_congr_right fun _ => (isTop_honest hs hB hhonest).symm)
    rw [hmeant, ← hmem _ rfl]
    show h ∈ (if B.source ≠ σ.local_idx then _ else _) ↔ _
    split
    · next hremote => simp [hremote]
    · next hlocal => simp [hlocal]

/-! ## A blame -/

theorem on_blame_inv {offered : List Hash} (hi : Inv (σ, offered)) (src_id : Nat) : Inv (σ.on_blame src_id, offered) := by
  obtain ⟨hs, htop, hnodup, hoffered⟩ := hi
  unfold CatChain.on_blame
  split
  · exact ⟨hs, htop, hnodup, hoffered⟩
  · have hne : ∀ i, update σ.blamed_sources src_id true i = false → i ≠ src_id ∧ σ.blamed_sources i = false := by
      intro i hi
      by_cases h : i = src_id
      · subst h
        rw [update_self] at hi
        cases hi
      · rw [update_of_ne h] at hi
        exact ⟨h, hi⟩
    have hcore : ∀ top, Core { σ with
        blamed_sources := update σ.blamed_sources src_id true,
        top_source_blocks := update σ.top_source_blocks src_id none,
        top_blocks := top } := fun top =>
      { causal := hs.causal
        timed := hs.timed
        source_lt := hs.source_lt
        latest := fun i C hi => by
          obtain ⟨h, hhonest⟩ := hne i hi
          show update σ.top_source_blocks src_id none i = some C ↔ _
          rw [update_of_ne h]
          exact hs.latest i C hhonest
        some_latest := fun C hC hi => by
          obtain ⟨h, hhonest⟩ := hne _ hi
          show (update σ.top_source_blocks src_id none C.source).isSome = true
          rw [update_of_ne h]
          exact hs.some_latest C hC hhonest
        closed := hs.closed
        processed_known := hs.processed_known }
    refine ⟨hcore _, fun h => ?_, hnodup, hoffered⟩
    have hmem := mem_recompute (hcore σ.top_blocks) h
    refine hmem.trans (exists_congr fun C => and_congr_right fun _ => ?_)
    exact ⟨fun ⟨h1, h2, h3, h4, h5⟩ => ⟨h1, h2, h3, h4, h5⟩, fun ⟨h1, h2, h3, h4, h5⟩ => ⟨h1, h2, h3, h4, h5⟩⟩

/-! ## Processing -/

/-- The block that is picked leaves the set, and its marks touch no other top block. -/
theorem pick_inv {offered : List Hash} (hi : Inv (σ, offered)) {pick : Hash} (hpick : pick ∈ σ.top_blocks) :
    Inv (({ σ with top_blocks := σ.top_blocks.erase pick } : CatChain Hash).set_processed pick, offered ++ [pick]) := by
  obtain ⟨hs, htop, hnodup, hoffered⟩ := hi
  obtain ⟨P, rfl, hP⟩ := (htop _).1 hpick
  have hknown := mem_known hP.latest.1
  have hmark := mark_iff hs.causal hs.closed hknown
  have hnew : P.hash ∉ offered := by
    intro hmem
    have hprocessed := hoffered _ hmem
    rw [hP.new] at hprocessed
    cases hprocessed
  refine ⟨⟨hs.causal, hs.timed, hs.source_lt, hs.latest, hs.some_latest, closed_mark hs.causal hs.closed hknown, fun h hh => ?_⟩, fun h => ?_, ?_,
    fun h hh => ?_⟩
  · rcases (hmark h).1 hh with hold | hpast
    · exact hs.processed_known h hold
    · exact hs.causal.before_known hpast hknown
  · show h ∈ σ.top_blocks.erase P.hash ↔ _
    rw [Finset.mem_erase, htop h]
    constructor
    · rintro ⟨hne, C, rfl, hC⟩
      refine ⟨C, rfl, hC.latest, hC.remote, hC.honest, ?_, hC.free⟩
      by_contra hprocessed
      rw [not_eq_false] at hprocessed
      rcases (hmark C.hash).1 hprocessed with hold | hpast
      · rw [hC.new] at hold
        cases hold
      · by_cases hsource : P.source = C.source
        · exact hne (congrArg CatChainBlock.hash (Latest.unique hs hC.latest hP.latest hsource.symm))
        · exact hC.free P hP.latest hsource hP.honest hpast
    · rintro ⟨C, rfl, hlatest, hremote, hhonest, hCnew, hfree⟩
      have hnot := eq_false_iff.1 hCnew
      refine ⟨fun heq => hnot ((hmark C.hash).2 (.inr (heq ▸ .refl))), C, rfl, hlatest, hremote, hhonest, ?_, hfree⟩
      by_contra hprocessed
      rw [not_eq_false] at hprocessed
      exact hnot ((hmark C.hash).2 (.inl hprocessed))
  · rw [nodup_append]
    refine ⟨hnodup, nodup_singleton _, fun a ha b hb => ?_⟩
    rw [mem_singleton] at hb
    rintro rfl
    exact hnew (hb ▸ ha)
  · refine (hmark h).2 ?_
    rcases mem_append.1 hh with hh | hh
    · exact .inl (hoffered h hh)
    · rw [mem_singleton.1 hh]
      exact .inr .refl

theorem send_process_inv {offered v v' : List Hash} (picks : List Hash) (hi : Inv (σ, offered ++ v)) (h : σ.send_process v picks = .ok (σ', v')) :
    Inv (σ', offered ++ v') := by
  induction picks generalizing σ v with
  | nil =>
    rw [CatChain.send_process] at h
    split at h
    · cases h
      exact hi
    · cases h
  | cons pick picks ih =>
    rw [CatChain.send_process, ite_error_ok] at h
    obtain ⟨hcond, h⟩ := h
    have hpick : pick ∈ σ.top_blocks := by
      by_contra hnot
      exact hcond (.inr (.inr hnot))
    cases hget : σ.get_block pick with
    | none =>
      rw [hget] at h
      cases h
    | some B =>
      rw [hget] at h
      obtain ⟨P, hPpick, hP⟩ := (hi.top _).1 hpick
      have hB : B = P := by
        have hmem := mem_of_find?_eq_some hget
        have heq : B.hash = pick := by simpa using find?_some hget
        exact hi.core.causal.unique hmem hP.latest.1 (heq.trans hPpick.symm)
      have hhonest : B.source = σ.sources ∨ σ.blamed_sources B.source = false := .inr (hB ▸ hP.honest)
      dsimp only at h
      rw [if_pos hhonest] at h
      refine ih ?_ h
      rw [← append_assoc]
      exact pick_inv hi hpick

/-! ## Runs -/

/-- A catchain without blocks. -/
def Empty (s : CatChain Hash × List Hash) : Prop :=
  s.1.blocks = [] ∧ (∀ h, s.1.processed h = false) ∧ (∀ i, s.1.top_source_blocks i = none) ∧ s.1.top_blocks = ∅ ∧ s.2 = []

/-- A new block is as the receiver promises. -/
def May (s : CatChain Hash × List Hash) : Event Hash → Prop
  | .new_block B => Delivers s.1 B
  | .blame _ => True
  | .process _ => True

abbrev TopRun (s : CatChain Hash × List Hash) : Prop := Reach turn May Empty s

theorem empty_inv {s : CatChain Hash × List Hash} (h : Empty s) : Inv s := by
  obtain ⟨σ, offered⟩ := s
  obtain ⟨hblocks, hprocessed, hlatest, htop, hoffered⟩ := h
  dsimp only at hblocks hprocessed hlatest htop hoffered
  have hline : ∀ h, (events σ.blocks).line h = none := by
    intro h
    rw [hblocks]
    rfl
  have hno : ∀ C, C ∉ σ.blocks := by
    intro C
    rw [hblocks]
    exact not_mem_nil
  refine ⟨⟨?_, ⟨fun B hB => absurd hB (hno B), fun f => ⟨fun a b ha => ?_, fun a b ha => ?_⟩, fun B hB => absurd hB (hno B)⟩,
    fun B hB => absurd hB (hno B), fun i B _ => ?_, fun B hB => absurd hB (hno B), fun a b _ hb => ?_, fun h hh => ?_⟩, fun h => ?_, ?_, ?_⟩
  · show Causal CatChainBlock.hash CatChainBlock.parents σ.blocks
    rw [hblocks]
    trivial
  · rw [hline] at ha
    cases ha
  · rw [hline] at ha
    cases ha
  · show σ.top_source_blocks i = some B ↔ _
    rw [hlatest]
    exact ⟨(fun h => nomatch h), fun h => absurd h.1.1 (hno B)⟩
  · rw [hprocessed] at hb
    cases hb
  · rw [hprocessed] at hh
    cases hh
  · show h ∈ σ.top_blocks ↔ _
    rw [htop]
    exact ⟨fun hm => absurd hm (Finset.notMem_empty h), fun ⟨C, _, hC⟩ => absurd hC.latest.1 (hno C)⟩
  · show offered.Nodup
    rw [hoffered]
    exact nodup_nil
  · intro h hh
    rw [hoffered] at hh
    cases hh

theorem turn_inv {s s' : CatChain Hash × List Hash} {e : Event Hash} (hi : Inv s) (hmay : May s e) (h : turn s e = .ok s') : Inv s' := by
  obtain ⟨σ, offered⟩ := s
  cases e with
  | new_block B =>
    obtain ⟨σ', hσ', rfl⟩ := map_ok h
    exact on_new_block_inv hi hmay hσ'
  | blame src_id =>
    cases h
    exact on_blame_inv hi src_id
  | process picks =>
    obtain ⟨⟨σ', v⟩, hσ', rfl⟩ := map_ok h
    refine send_process_inv picks ?_ hσ'
    rw [append_nil]
    exact hi

theorem TopRun.inv {s : CatChain Hash × List Hash} (h : TopRun s) : Inv s :=
  Reach.inv (fun _ => empty_inv) (fun _ _ _ hi hmay hturn => turn_inv hi hmay hturn) h

/-- In every state of a run: the top blocks are the ones that are meant and the ones a blame would compute, no
block has been offered twice, and a block that is not processed came before one that is on top or before
the latest of the local source. -/
theorem top_blocks_right {s : CatChain Hash × List Hash} (h : TopRun s) :
    (∀ hash, hash ∈ s.1.top_blocks ↔ ∃ B, B.hash = hash ∧ IsTop s.1 B) ∧ s.1.top_blocks = s.1.recompute ∧ s.2.Nodup ∧
      ∀ B ∈ s.1.blocks, s.1.blamed_sources B.source = false → s.1.processed B.hash = false →
        ∃ C, Past s.1.blocks B.hash C.hash ∧ (C.hash ∈ s.1.top_blocks ∨ Latest s.1.blocks C ∧ C.source = s.1.local_idx) := by
  have hi := h.inv
  refine ⟨hi.top, ?_, hi.nodup, fun B hB hhonest hnew => not_lost hi.core hi.top hB hhonest hnew⟩
  ext hash
  rw [mem_recompute hi.core]
  exact hi.top hash

/-! ## A block, and another one after it -/

def two_sources : CatChain Nat := { sources := 2, local_idx := 0, max_deps := 4 }
def three_sources : CatChain Nat := { two_sources with sources := 3 }
def remote_block : CatChainBlock Nat := ⟨1, 1, 1, 1, none, [], [0, 1]⟩
def local_block : CatChainBlock Nat := ⟨0, 0, 1, 2, none, [1], [1, 1]⟩
def relay_block : CatChainBlock Nat := ⟨2, 2, 1, 2, none, [1], [0, 1, 1]⟩

section
variable {l : List (CatChainBlock Nat)} (hl : ∀ B ∈ l, B = remote_block ∨ B = relay_block)
include hl

theorem relayed_parent {p h : Nat}
    (hp : (events l).parent p h) : p = 1 ∧ h = 2 := by
  obtain ⟨C, hC, rfl, hp⟩ := hp
  rcases hl C hC with rfl | rfl
  · cases hp
  · exact ⟨mem_singleton.1 hp, rfl⟩

theorem relayed_line {h f : Nat}
    (hf : (events l).line h = some f) : h = f := by
  obtain ⟨C, hC, rfl⟩ := Option.map_eq_some_iff.1 hf
  have hh : C.hash = h := by simpa using find?_some hC
  rcases hl C (mem_of_find?_eq_some hC) with rfl | rfl
  · exact hh.symm
  · exact hh.symm

theorem relayed_linear (f : Nat) :
    (events l).Linear (some f) := by
  refine ⟨fun a b ha hb _ => ?_, fun a b ha hb h => ?_⟩
  · rw [relayed_line hl ha, relayed_line hl hb]
  · rw [relayed_line hl ha, relayed_line hl hb] at h
    exact absurd h (lt_irrefl _)

theorem remote_block_time (hline : (events l).line 1 = some 1 ∧ (events l).height 1 = 1) (f : Nat) :
    (events l).TimeAt 1 (some f) (remote_block.vt.getD f 0) := by
  have hno : ∀ p, ¬(events l).parent p 1 := fun p hp => absurd (relayed_parent hl hp).2 (by decide)
  refine History.timeAt_of_parents (fun _ => 0) (fun p hp => absurd hp (hno p)) fun x => ?_
  rw [hline.1, hline.2]
  rcases f with _ | _ | f
  · simp [remote_block]
  · simp [remote_block, hno]
  · simp [remote_block]

end

theorem remote_block_delivers : Delivers three_sources remote_block where
  causal := by
    refine ⟨?_, ?_, trivial⟩
    · rintro ⟨C, hC, -⟩
      cases hC
    · intro p hp
      cases hp
  timed := by
    have hl : ∀ B ∈ [remote_block], B = remote_block ∨ B = relay_block := fun B hB => .inl (mem_singleton.1 hB)
    refine ⟨fun B hB => ?_, relayed_linear hl, fun B hB => ?_⟩
    · rw [mem_singleton.1 hB]
      exact remote_block_time hl ⟨rfl, rfl⟩
    · rw [mem_singleton.1 hB]
      decide
  prev_source P hP := nomatch hP
  chain _ := rfl
  honest_deps _ D hD := nomatch hD

theorem relay_block_delivers {σ : CatChain Nat} (hblocks : σ.blocks = [remote_block]) (hblamed : σ.blamed_sources 1 = false)
    (htop : σ.top_source_blocks 2 = none) : Delivers σ relay_block := by
  have hl : ∀ B ∈ [relay_block, remote_block], B = remote_block ∨ B = relay_block := by simp
  have hcausal : Causal CatChainBlock.hash CatChainBlock.parents [relay_block, remote_block] := by
    refine ⟨?_, ?_, remote_block_delivers.causal⟩
    · rintro ⟨C, hC, hhash⟩
      rw [mem_singleton.1 hC] at hhash
      exact absurd hhash (by decide)
    · intro p hp
      exact ⟨remote_block, mem_singleton.2 rfl, (mem_singleton.1 hp).symm⟩
  have hparent : ∀ p, (events [relay_block, remote_block]).parent p relay_block.hash ↔ p = 1 := fun p =>
    ⟨fun hp => (relayed_parent hl hp).1, fun hp => ⟨relay_block, by simp, rfl, mem_singleton.2 hp⟩⟩
  refine ⟨?_, ?_, ?_, fun _ => ?_, fun _ D hD _ => ?_⟩
  · rw [hblocks]
    exact hcausal
  · rw [hblocks]
    refine ⟨fun B hB f => ?_, relayed_linear hl, fun B hB => ?_⟩
    · rcases hl B hB with rfl | rfl
      · exact remote_block_time hl ⟨rfl, rfl⟩ f
      · refine History.timeAt_of_parents (fun _ => remote_block.vt.getD f 0) (fun p hp => ?_) fun x => ?_
        · rw [(hparent p).1 hp]
          exact remote_block_time hl ⟨rfl, rfl⟩ f
        · show _ ↔ (some 2 = some f → 1 ≤ x) ∧ _
          simp only [hparent, forall_eq]
          rcases f with _ | _ | _ | f
          · simp [remote_block, relay_block]
          · simp [remote_block, relay_block]
          · simp [remote_block, relay_block]
          · simp [remote_block, relay_block]
    · rcases hl B hB with rfl | rfl
      · decide
      · decide
  · rintro P - ⟨⟩
  · rw [show relay_block.source = 2 from rfl, htop]
    rfl
  · rw [hblocks] at hD
    rw [mem_singleton.1 hD]
    exact hblamed

/-- A source's block is processed, another source's block depends on it, and the first is blamed. -/
theorem top_blocks_right_relayed : ∃ s, [.new_block remote_block, .process [1], .new_block relay_block, .blame 1].foldlM turn (three_sources, []) =
    .ok s ∧
    s.1.top_blocks = s.1.recompute ∧ s.1.top_blocks = {2} ∧ s.2 = [1] := by
  have hempty : Empty (three_sources, []) := ⟨rfl, fun _ => rfl, fun _ => rfl, rfl, rfl⟩
  have hremote : May (three_sources, []) (.new_block remote_block) := remote_block_delivers
  have hrelay : TopRun _ := .step (a := .new_block relay_block) (.step (a := .process [1]) (.step (.start hempty) hremote rfl) trivial rfl)
    (relay_block_delivers rfl rfl rfl) rfl
  have hrun := top_blocks_right (.step (a := .blame 1) hrelay trivial rfl)
  exact ⟨_, rfl, hrun.2.1, by decide +kernel, rfl⟩

/-- The block of the other source is not processed, and is under the local block only; and a block under one of a
blamed source stays on top although a block of an honest source is over it. -/
theorem unprocessed_lost : (∃ s, [.new_block remote_block, .new_block local_block].foldlM turn (two_sources, []) = .ok s ∧
    remote_block ∈ s.1.blocks ∧ s.1.blamed_sources 1 = false ∧ s.1.processed 1 = false ∧ s.1.top_blocks = ∅) ∧
    ∃ s, [.new_block remote_block, .blame 2, .new_block relay_block, .new_block ⟨3, 3, 1, 3, none, [2], [0, 1, 1, 1]⟩].foldlM turn
      ({ two_sources with sources := 4 }, []) = .ok s ∧ s.1.top_blocks = {1, 3} ∧ s.1.recompute = {3} :=
  ⟨⟨_, rfl, mem_cons_of_mem _ (mem_singleton.2 rfl), rfl, rfl, rfl⟩, _, rfl, by decide +kernel, by decide +kernel⟩

end Ton.Catchain.Processing
