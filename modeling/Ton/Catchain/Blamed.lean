import Ton.Catchain.Agreement
/-!
# Who is blamed

A source is blamed for two blocks of one height, for an ill block or on a fork proof. Of these only
the ill block is left for a source that signs one block of each height.
-/

namespace Ton.Catchain

variable {n : ℕ} {Payload : Type} {chain : Chain n Payload} {may : Receiver n Payload → Act Payload → Prop}

namespace Receiver

variable {s s' : Receiver n Payload} {i : Fin n} {h : Hash} {b : ReceivedBlock n Payload}

/-- No move forgets a block, or that it is ill. -/
theorem Move.kept (hmove : Move chain may s s') (hb : s.blocks h = some b) : ∃ b', s'.blocks h = some b' ∧ b'.source_id = b.source_id ∧
    b'.height = b.height ∧ (b.state = .ill → b'.state = .ill) := by
  rcases hmove with ⟨hblocks, -⟩ | ⟨block, payload, j, hok, harrives, -⟩ | ⟨hash, hstored⟩ | ⟨hash, rest, -, -, hturn⟩ | ⟨j, hblamed, -⟩
  · exact ⟨b, by rw [hblocks, hb], rfl, rfl, id⟩
  · obtain ⟨b', hb', hi, hheight⟩ := harrives.kept hb
    refine ⟨b', hb', hi, hheight, fun hill => ?_⟩
    rcases harrives.blocks hb' with ⟨c, hc, -, hstate⟩ | ⟨hnone, -⟩ | ⟨rfl, hold, -⟩
    · obtain rfl : b = c := Option.some.inj (hb.symm.trans hc)
      rcases hstate with heq | ⟨-, hill'⟩
      · rw [heq, hill]
      · exact hill'
    · cases hnone.symm.trans hb
    · -- a block that is filled in had no state before
      cases hill.symm.trans (hold b hb)
  · by_cases heq : h = hash
    · exact ⟨Receiver.stored b, by rw [hstored.blocks, if_pos heq, hb, Option.map_some], rfl, rfl, id⟩
    · exact ⟨b, by rw [hstored.blocks, if_neg heq, hb], rfl, rfl, id⟩
  · obtain ⟨b', hb', hg⟩ := hturn.evolves.kept hb
    refine ⟨b', hb', hg.source_id, hg.height, fun hill => ?_⟩
    rcases hg.state with heq | ⟨hinit, -⟩
    · rw [heq, hill]
    · rw [hill] at hinit
      cases hinit
  · exact ⟨b, by rw [hblamed.frame.blocks, hb], rfl, rfl, id⟩

/-- What a source can be blamed for. -/
def Guilty (chain : Chain n Payload) (s : Receiver n Payload) (i : Fin n) : Prop := s.Twice i ∨ s.Sick i ∨ Proven chain s i

theorem Guilty.move (hg : Guilty chain s i) (hmove : Move chain may s s') : Guilty chain s' i := by
  rcases hg with ⟨h, b, h', c, hb, hc, hne, hbi, hci, hheight⟩ | ⟨h, b, hb, hill, hbi⟩ | ⟨left, right, hl, hr, hrest⟩
  · obtain ⟨b', hb', hbi', hk, -⟩ := hmove.kept hb
    obtain ⟨c', hc', hci', hk', -⟩ := hmove.kept hc
    exact .inl ⟨h, b', h', c', hb', hc', hne, hbi'.trans hbi, hci'.trans hci, by rw [hk, hk', hheight]⟩
  · obtain ⟨b', hb', hbi', -, hill'⟩ := hmove.kept hb
    exact .inr (.inl ⟨h, b', hb', hill' hill, hbi'.trans hbi⟩)
  · have hknows : Knows s s' := fun h hk => by
      obtain ⟨b, hb⟩ := Option.isSome_iff_exists.1 hk
      obtain ⟨b', hb', -⟩ := hmove.kept hb
      exact Option.isSome_iff_exists.2 ⟨b', hb'⟩
    exact .inr (.inr ⟨left, right, hl.mono hknows, hr.mono hknows, hrest⟩)

theorem Reached.guilty (h : Reached chain may s) : ∀ i, (s.sources i).blamed = true → Guilty chain s i := by
  refine h.inv_moves (P := fun s => ∀ i, (s.sources i).blamed = true → Guilty chain s i) (fun idx allow i hi => ?_) fun s s' _ _ hP hmove i hi => ?_
  · cases hi
  have hkept : Guilty chain s i → Guilty chain s' i := fun hg => hg.move hmove
  have hold : (s.sources i).blamed = true → Guilty chain s' i := fun hb => hkept (hP i hb)
  rcases hmove with ⟨-, hsources⟩ | ⟨block, payload, j, hok, harrives, -⟩ | ⟨hash, hstored⟩ | ⟨hash, rest, -, -, hturn⟩ | ⟨j, hblamed, hproven⟩
  · exact hold (hsources ▸ hi)
  · rcases harrives.guilty i hi with hb | htwice | hsick
    · exact hold hb
    · exact .inl htwice
    · exact .inr (.inl hsick)
  · exact hold (hstored.sources ▸ hi)
  · exact (hturn.evolves.guilty i hi).elim hold id
  · by_cases hij : i = j
    · subst hij
      exact hkept (.inr (.inr hproven))
    · exact hold (hblamed.others i hij ▸ hi)

/-- Whoever signs one block of each height has no two of one height, and no fork is proven. -/
theorem SignsOnce.guiltless (h : Reached chain may s) (honce : chain.SignsOnce i) : ¬ s.Twice i ∧ ¬ Proven chain s i := by
  have hs := h.good.inv.shape
  have hsigned := h.signed
  constructor
  · rintro ⟨k, b, k', c, hb, hc, hne, hbi, hci, hheight⟩
    have hdata : b.data_hash = c.data_hash := honce _ _ _ _ _ (hsigned k b i hb hbi) (hheight ▸ hsigned k' c i hc hci)
    -- the root has no source
    have hroot : ∀ {k b}, s.blocks k = some b → b.source_id = some i → k ≠ chain.root_hash := by
      rintro k b hb hbi rfl
      rw [hs.root, Option.some.injEq] at hb
      rw [← hb] at hbi
      cases hbi
    obtain ⟨j, hj, -, hk⟩ := hs.ident hb (hroot hb hbi)
    obtain ⟨j', hj', -, hk'⟩ := hs.ident hc (hroot hc hci)
    obtain rfl : j = j' := Option.some.inj (hj.symm.trans (hbi.trans (hci.symm.trans hj')))
    exact hne (by rw [hk, hk', hheight, hdata])
  · rintro ⟨left, right, hl, hr, hpos, hheight, hli, hri, hne⟩
    obtain ⟨signature, hleft⟩ := hl.signed hsigned hs hli hpos
    obtain ⟨signature', hright⟩ := hr.signed hsigned hs hri (hheight ▸ hpos)
    exact hne (honce _ _ _ _ _ hleft (hheight ▸ hright))

/-- A fork that is known or an ill block is always blamed, and nothing else but what a receiver takes
for the proof of a fork. So a source that signs one block of each height is blamed if and only if one of its blocks is ill. -/
theorem blamed_exact (h : Reached chain may s) (i : Fin n) : (s.Twice i ∨ s.Sick i → (s.sources i).blamed = true) ∧
    ((s.sources i).blamed = true → s.Twice i ∨ s.Sick i ∨ Proven chain s i) ∧
      (chain.SignsOnce i → ((s.sources i).blamed = true ↔ s.Sick i)) := by
  have ht := h.good.inv.tables
  have hsick : s.Sick i → (s.sources i).blamed = true := fun ⟨k, b, hb, hill, hbi⟩ => ht.ill hb hill hbi
  refine ⟨?_, h.guilty i, fun honce => ⟨fun hi => ?_, hsick⟩⟩
  · rintro (⟨k, b, k', c, hb, hc, hne, hbi, hci, hheight⟩ | hill)
    · by_contra hfree
      rw [Bool.not_eq_true] at hfree
      exact hne (Option.some.inj ((ht.complete hb hbi hfree).symm.trans (hheight ▸ ht.complete hc hci hfree)))
    · exact hsick hill
  · obtain ⟨htwice, hproven⟩ := SignsOnce.guiltless h honce
    exact ((h.guilty i hi).resolve_left htwice).resolve_right hproven

/-- A source sends two blocks of height 1. -/
theorem blamed_exact_two_blocks : ∃ s : Receiver 3 Message, (s.sources 1).blamed = true ∧ (s.Twice 1 ∨ s.Sick 1 ∨ Proven (Chain.numbered 3 5) s 1) := by
  obtain ⟨s, hs, hP⟩ := reached_of_run (Chain.numbered 3 5) 0 false
    [.create_block (lone 1) (.text 1), .create_block { lone 1 with signature := sign 1 1 4 } (.text 2)]
    (P := fun s => (s.sources 1).blamed) (by decide +kernel)
  exact ⟨s, hP, (blamed_exact hs 1).2.1 hP⟩

end Receiver

end Ton.Catchain
