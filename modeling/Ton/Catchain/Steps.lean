import Ton.Catchain.Sources
/-!
# The invariant is kept

One section for each way the blocks change: a block is named for the first time,
falls ill, arrives, is written, gets its fork, is delivered.
-/

namespace Ton.Catchain
open Result List Option Function

variable {n : ℕ} {Payload : Type} {chain : Chain n Payload} {ex : Hash → Prop} {bad : Crash → Prop}

namespace Receiver

variable {s s' : Receiver n Payload} {i : Fin n} {h hash : Hash} {b c : ReceivedBlock n Payload}

/-! ## Delivered blocks stay as they are -/

/-- What the times of delivered blocks are read from is kept. -/
def Kept (s s' : Receiver n Payload) : Prop :=
  ∀ h b, s.blocks h = some b → b.state = .delivered → ∃ b', s'.blocks h = some b' ∧ b'.state = .delivered ∧ b'.parents = b.parents ∧
    b'.fork_id = b.fork_id ∧ b'.height = b.height ∧ b'.deps = b.deps

/-- And no other block is delivered. -/
structure Settled (s s' : Receiver n Payload) : Prop where
  kept : Kept s s'
  back : ∀ h b', s'.blocks h = some b' → b'.state = .delivered → ∃ b, s.blocks h = some b ∧ b.state = .delivered

theorem Settled.is_delivered (hset : Settled s s') (h : Hash) : s'.is_delivered h = s.is_delivered h := by
  rw [Bool.eq_iff_iff, is_delivered_iff, is_delivered_iff]
  constructor
  · rintro ⟨b', hb', hstate⟩
    exact hset.back h b' hb' hstate
  · rintro ⟨b, hb, hstate⟩
    obtain ⟨b', hb', hstate', -⟩ := hset.kept h b hb hstate
    exact ⟨b', hb', hstate'⟩

theorem Kept.time (hkept : Kept s s') (hdel : s.is_delivered h = true) (f : ℕ) : s'.time h f = s.time h f := by
  obtain ⟨b, hb, hstate⟩ := is_delivered_iff.1 hdel
  obtain ⟨b', hb', -, -, -, -, hdeps⟩ := hkept h b hb hstate
  rw [time_of hb', time_of hb, hdeps]

theorem parents_delivered (hs : Shape chain s) (hl : Links chain ex s) (hb : s.blocks h = some b) (hstate : b.state = .delivered) :
    ∀ p ∈ b.parents, s.is_delivered p = true := by
  by_cases hroot : h = chain.root_hash
  · intro p hp
    rw [hroot, hs.root, Option.some.injEq] at hb
    rw [← hb] at hp
    cases hp
  · exact (hl.delivered hb hstate hroot).2.2

theorem Kept.timeAt (hs : Shape chain s) (hl : Links chain ex s) (hkept : Kept s s') {f t : ℕ} (hdel : s.is_delivered h = true)
    (ht : s.history.TimeAt h f t) : s'.history.TimeAt h f t := by
  refine ht.congr (S := {h | s.is_delivered h = true}) ?_ ?_ ?_ ?_ hdel
  · rintro p c hc ⟨C, hC, hp⟩
    obtain ⟨C', hC', hstate⟩ := is_delivered_iff.1 hc
    obtain rfl : C = C' := Option.some.inj (hC.symm.trans hC')
    exact parents_delivered hs hl hC hstate p hp
  · intro p c hc
    obtain ⟨C, hC, hstate⟩ := is_delivered_iff.1 hc
    obtain ⟨C', hC', -, hparents, -⟩ := hkept c C hC hstate
    constructor
    · rintro ⟨D, hD, hp⟩
      obtain rfl : C' = D := Option.some.inj (hC'.symm.trans hD)
      exact ⟨C, hC, hparents ▸ hp⟩
    · rintro ⟨D, hD, hp⟩
      obtain rfl : C = D := Option.some.inj (hC.symm.trans hD)
      exact ⟨C', hC', hparents ▸ hp⟩
  · intro c hc
    obtain ⟨C, hC, hstate⟩ := is_delivered_iff.1 hc
    obtain ⟨C', hC', -, -, hfork, -⟩ := hkept c C hC hstate
    simp only [history, hC, hC', elim_some, hfork]
  · intro c hc
    obtain ⟨C, hC, hstate⟩ := is_delivered_iff.1 hc
    obtain ⟨C', hC', -, -, -, hheight, -⟩ := hkept c C hC hstate
    simp only [history, hC, hC', elim_some, hheight]

variable {ex' : Hash → Prop}

theorem Times.settled (hs : Shape chain s) (hl : Links chain ex s) (ht : Times ex s) (hset : Settled s s')
    (hinit : ∀ h b', s'.blocks h = some b' → b'.state = .initialized → ¬ ex' h →
      (∃ b, s.blocks h = some b ∧ b.state = .initialized ∧ ¬ ex h ∧ b'.deps = b.deps ∧ b'.parents = b.parents) ∨
        ∀ f x, b'.deps.getD f 0 ≤ x ↔ ∀ p ∈ b'.parents, s.is_delivered p = true → s.time p f ≤ x) : Times ex' s' where
  delivered {h b'} hb' hstate' f := by
    obtain ⟨b, hb, hstate⟩ := hset.back h b' hb' hstate'
    obtain ⟨b'', hb'', -, -, -, -, hdeps⟩ := hset.kept h b hb hstate
    obtain rfl : b' = b'' := Option.some.inj (hb'.symm.trans hb'')
    rw [hdeps]
    exact hset.kept.timeAt hs hl (is_delivered_iff.2 ⟨b, hb, hstate⟩) (ht.delivered hb hstate f)
  initialized {h b'} hb' hinit' hex f x := by
    have hold : b'.deps.getD f 0 ≤ x ↔ ∀ p ∈ b'.parents, s.is_delivered p = true → s.time p f ≤ x := by
      rcases hinit h b' hb' hinit' hex with ⟨b, hb, hstate, hex', hdeps, hparents⟩ | hjoined
      · rw [hdeps, hparents]
        exact ht.initialized hb hstate hex' f x
      · exact hjoined f x
    rw [hold]
    refine forall_congr' fun p => forall_congr' fun _ => ?_
    rw [hset.is_delivered]
    refine forall_congr' fun hp => ?_
    rw [hset.kept.time hp]

theorem Log.settled (hlog : Log chain s) (hset : Settled s s') (heq : s'.delivered_log = s.delivered_log) : Log chain s' where
  nodup := by
    rw [heq]
    exact hlog.nodup
  mem := by
    simp only [heq, hset.is_delivered]
    exact hlog.mem
  order {l h l'} hl {b'} hb' p hp := by
    rw [heq] at hl
    have hmem : h ∈ s.delivered_log := by
      rw [hl]
      simp
    obtain ⟨b, hb, hstate⟩ := is_delivered_iff.1 ((hlog.mem h).1 hmem).1
    obtain ⟨b'', hb'', -, hparents, -⟩ := hset.kept h b hb hstate
    obtain rfl : b' = b'' := Option.some.inj (hb'.symm.trans hb'')
    exact hlog.order hl hb p (hparents ▸ hp)

/-! ## A new block -/

@[simp] theorem emplace_sources : (s.emplace hash b).sources = s.sources := rfl

theorem emplace_some : (s.emplace hash b).blocks h = some c ↔ (h = hash ∧ c = b) ∨ (h ≠ hash ∧ s.blocks h = some c) := by
  change update s.blocks hash (some b) h = some c ↔ _
  rcases eq_or_ne h hash with rfl | hne
  · rw [update_self, Option.some.injEq]
    exact ⟨fun h => .inl ⟨rfl, h.symm⟩, fun h => (h.resolve_right fun h => h.1 rfl).2.symm⟩
  · rw [update_of_ne hne]
    exact ⟨fun h => .inr ⟨hne, h⟩, fun h => (h.resolve_left fun h => hne h.1).2⟩

theorem emplace_of_some (hnew : s.blocks hash = none) (hc : s.blocks h = some c) : (s.emplace hash b).blocks h = some c := by
  refine emplace_some.2 (.inr ⟨?_, hc⟩)
  rintro rfl
  rw [hnew] at hc
  cases hc

theorem emplace_is_delivered (hnew : s.blocks hash = none) (hb : b.state = .none) (h : Hash) :
    (s.emplace hash b).is_delivered h = s.is_delivered h := by
  rcases eq_or_ne h hash with rfl | hne
  · rw [is_delivered_of (emplace_some.2 (.inl ⟨rfl, rfl⟩)), is_delivered, hnew, hb]
    rfl
  · rw [is_delivered, is_delivered]
    change Option.any _ (update s.blocks hash (some b) h) = _
    rw [update_of_ne hne]

theorem Received.extend (hr : Received chain s b) (hext : ∀ h c, s.blocks h = some c → s'.blocks h = some c) : Received chain s' b where
  payload := hr.payload
  prev := by
    obtain ⟨p, P, hp, hP, hheight, hsource⟩ := hr.prev
    exact ⟨p, P, hp, hext p P hP, hheight, hsource⟩
  deps d hd := by
    obtain ⟨D, hD, hne⟩ := hr.deps d hd
    exact ⟨D, hext d D hD, hne⟩
  nodup := hr.nodup

theorem blank_blank (i : Option (Fin n)) (height : ℕ) (data_hash : Hash) (signature : Signature) :
    Blank (ReceivedBlock.blank i height data_hash signature : ReceivedBlock n Payload) := ⟨rfl, rfl, rfl, rfl, rfl, rfl, rfl, rfl⟩

theorem Shape.parents_known (hs : Shape chain s) (hb : s.blocks h = some b) : ∀ p ∈ b.parents, ∃ P, s.blocks p = some P := by
  intro p hp
  by_cases hroot : h = chain.root_hash
  · rw [hroot, hs.root, Option.some.injEq] at hb
    rw [← hb] at hp
    cases hp
  by_cases hstate : b.state = .none
  · have hblank := hs.blank hb hstate
    rw [ReceivedBlock.parents, hblank.prev, hblank.block_deps] at hp
    cases hp
  have hr := hs.received hb hroot hstate
  rcases mem_append.1 hp with hp | hp
  · obtain ⟨q, Q, hq, hQ, -⟩ := hr.prev
    rw [hq] at hp
    obtain rfl : p = q := by simpa using hp
    exact ⟨Q, hQ⟩
  · obtain ⟨D, hD, -⟩ := hr.deps p hp
    exact ⟨D, hD⟩

section NewBlock

variable {height : ℕ} {data_hash : Hash} {signature : Signature} (hnew : s.blocks hash = none)

include hnew

theorem Shape.emplace (hs : Shape chain s) (hb : b = .blank (some i) height data_hash signature) (hheight : 0 < height)
    (hhash : hash = chain.id_hash (chain.idOf i height data_hash)) : Shape chain (s.emplace hash b) where
  keys_nodup := by
    refine nodup_append.2 ⟨hs.keys_nodup, nodup_singleton _, ?_⟩
    intro x hx y hy hxy
    rw [mem_singleton.1 hy] at hxy
    rw [hxy, hs.mem_keys, hnew] at hx
    cases hx
  mem_keys h := by
    change h ∈ s.keys ++ [hash] ↔ (update s.blocks hash (some b) h).isSome = true
    rw [mem_append, mem_singleton, hs.mem_keys]
    rcases eq_or_ne h hash with rfl | hne
    · rw [update_self]
      exact iff_of_true (.inr rfl) rfl
    · rw [update_of_ne hne]
      exact or_iff_left hne
  root := emplace_of_some hnew hs.root
  last_sent := by
    obtain ⟨c, hc⟩ := isSome_iff_exists.1 hs.last_sent
    exact isSome_iff_exists.2 ⟨c, emplace_of_some hnew hc⟩
  ident {h c} hc hroot := by
    rcases emplace_some.1 hc with ⟨rfl, rfl⟩ | ⟨-, hc⟩
    · rw [hb]
      exact ⟨i, rfl, hheight, hhash⟩
    · exact hs.ident hc hroot
  blank {h c} hc hnone := by
    rcases emplace_some.1 hc with ⟨rfl, rfl⟩ | ⟨-, hc⟩
    · rw [hb]
      exact blank_blank ..
    · exact hs.blank hc hnone
  received {h c} hc hroot hstate := by
    rcases emplace_some.1 hc with ⟨rfl, rfl⟩ | ⟨-, hc⟩
    · rw [hb] at hstate
      exact absurd rfl hstate
    · exact (hs.received hc hroot hstate).extend fun h c => emplace_of_some hnew

theorem Links.emplace (hs : Shape chain s) (hl : Links chain ex s) (hb : b.state = .none) (hrev : b.rev_deps = []) :
    Links chain ex (s.emplace hash b) where
  rev_known {p P c} hP hc := by
    rcases emplace_some.1 hP with ⟨rfl, rfl⟩ | ⟨-, hP⟩
    · rw [hrev] at hc
      cases hc
    · obtain ⟨C, hC, hstate⟩ := hl.rev_known hP hc
      exact ⟨C, emplace_of_some hnew hC, hstate⟩
  rev_iff {p P c C} hP hstate hC hinit hex := by
    rcases emplace_some.1 hC with ⟨-, rfl⟩ | ⟨-, hC'⟩
    · rw [hb] at hinit
      cases hinit
    rcases emplace_some.1 hP with ⟨hp, rfl⟩ | ⟨-, hP'⟩
    · -- nothing names a block that is not known yet
      rw [hrev, hp]
      refine iff_of_false (by simp) fun hmem => ?_
      obtain ⟨Q, hQ⟩ := hs.parents_known hC' hash hmem
      rw [hnew] at hQ
      cases hQ
    · exact hl.rev_iff hP' hstate hC' hinit hex
  rev_nodup {p P} hP := by
    rcases emplace_some.1 hP with ⟨rfl, rfl⟩ | ⟨-, hP⟩
    · rw [hrev]
      exact nodup_nil
    · exact hl.rev_nodup hP
  pending {c C} hC hinit hex := by
    simp only [emplace_is_delivered hnew hb]
    rcases emplace_some.1 hC with ⟨rfl, rfl⟩ | ⟨-, hC⟩
    · rw [hb] at hinit
      cases hinit
    · exact hl.pending hC hinit hex
  queue_nodup := hl.queue_nodup
  queue_known {h} hh := by
    obtain ⟨c, hc, hstate⟩ := hl.queue_known hh
    exact ⟨c, emplace_of_some hnew hc, hstate⟩
  queue_iff {c C} hC hinit hex := by
    rcases emplace_some.1 hC with ⟨rfl, rfl⟩ | ⟨-, hC⟩
    · rw [hb] at hinit
      cases hinit
    · exact hl.queue_iff hC hinit hex
  delivered {c C} hC hstate hroot := by
    simp only [emplace_is_delivered hnew hb]
    rcases emplace_some.1 hC with ⟨rfl, rfl⟩ | ⟨-, hC⟩
    · rw [hb] at hstate
      cases hstate
    · exact hl.delivered hC hstate hroot
  waits {p P c C} hP hc hC hinit := by
    rcases emplace_some.1 hP with ⟨rfl, rfl⟩ | ⟨-, hP⟩
    · rw [hrev] at hc
      cases hc
    rcases emplace_some.1 hC with ⟨rfl, rfl⟩ | ⟨-, hC⟩
    · rw [hb] at hinit
      cases hinit
    · exact hl.waits hP hc hC hinit

theorem Forks.emplace (hf : Forks chain ex s) (hb : b.state = .none) (hfork : b.fork_id = 0) (hnext : b.next = none) :
    Forks chain ex (s.emplace hash b) where
  le {h c} hc := by
    rcases emplace_some.1 hc with ⟨rfl, rfl⟩ | ⟨-, hc⟩
    · rw [hfork]
      exact Nat.zero_le _
    · exact hf.le hc
  initialized {h c} hc hinit hex := by
    rcases emplace_some.1 hc with ⟨rfl, rfl⟩ | ⟨-, hc⟩
    · exact hfork
    · exact hf.initialized hc hinit hex
  delivered {h c} hc hstate hroot := by
    rcases emplace_some.1 hc with ⟨rfl, rfl⟩ | ⟨-, hc⟩
    · rw [hb] at hstate
      cases hstate
    · exact hf.delivered hc hstate hroot
  inj {h c h' c'} hc hc' hpos heq hheight := by
    rcases emplace_some.1 hc with ⟨rfl, rfl⟩ | ⟨-, hc⟩
    · omega
    · rcases emplace_some.1 hc' with ⟨rfl, rfl⟩ | ⟨-, hc'⟩
      · omega
      · exact hf.inj hc hc' hpos heq hheight
  top {h c h' c'} hc hc' hpos heq hlt := by
    rcases emplace_some.1 hc with ⟨rfl, rfl⟩ | ⟨-, hc⟩
    · omega
    · rcases emplace_some.1 hc' with ⟨rfl, rfl⟩ | ⟨-, hc'⟩
      · omega
      · exact hf.top hc hc' hpos heq hlt
  step {h c h' c'} hc hc' hpos heq hlt := by
    rcases emplace_some.1 hc with ⟨rfl, rfl⟩ | ⟨-, hc⟩
    · omega
    · rcases emplace_some.1 hc' with ⟨rfl, rfl⟩ | ⟨-, hc'⟩
      · omega
      · obtain ⟨p, P, hp, hP, hfork⟩ := hf.step hc hc' hpos heq hlt
        exact ⟨p, P, hp, emplace_of_some hnew hP, hfork⟩
  next {p P c} hP hc := by
    rcases emplace_some.1 hP with ⟨rfl, rfl⟩ | ⟨-, hP⟩
    · rw [hnext] at hc
      cases hc
    · obtain ⟨C, hC, hrest⟩ := hf.next hP hc
      exact ⟨C, emplace_of_some hnew hC, hrest⟩
  first {j} hj := by
    obtain ⟨h, c, hc, hrest⟩ := hf.first hj
    exact ⟨h, c, emplace_of_some hnew hc, hrest⟩
  ids {h c j} hc hpos hj := by
    rcases emplace_some.1 hc with ⟨rfl, rfl⟩ | ⟨-, hc⟩
    · omega
    · exact hf.ids hc hpos hj
  ids_le := hf.ids_le
  ids_source {j h c} hc hmem := by
    rcases emplace_some.1 hc with ⟨rfl, rfl⟩ | ⟨-, hc⟩
    · have hpos := (hf.ids_le hmem).1
      omega
    · exact hf.ids_source hc hmem
  ids_blamed := hf.ids_blamed

theorem emplace_settled (hb : b.state = .none) : Settled s (s.emplace hash b) where
  kept h c hc hstate := ⟨c, emplace_of_some hnew hc, hstate, rfl, rfl, rfl, rfl⟩
  back h c hc hstate := by
    rcases emplace_some.1 hc with ⟨rfl, rfl⟩ | ⟨-, hc⟩
    · rw [hb] at hstate
      cases hstate
    · exact ⟨c, hc, hstate⟩

theorem Times.emplace (hs : Shape chain s) (hl : Links chain ex s) (ht : Times ex s) (hb : b.state = .none) : Times ex (s.emplace hash b) := by
  refine ht.settled hs hl (emplace_settled hnew hb) fun h c hc hinit hex => ?_
  rcases emplace_some.1 hc with ⟨rfl, rfl⟩ | ⟨-, hc⟩
  · rw [hb] at hinit
    cases hinit
  · exact .inl ⟨c, hc, hinit, hex, rfl, rfl⟩

theorem Tables.emplace (ht : Tables s) (hi : b.source_id = some i) (hb : b.state = .none)
    (hblamed : (s.sources i).blamed = true) : Tables (s.emplace hash b) where
  found {j k h} hk := by
    obtain ⟨c, hc, hj⟩ := ht.found hk
    exact ⟨c, emplace_of_some hnew hc, hj⟩
  complete {h c j} hc hj hfree := by
    rcases emplace_some.1 hc with ⟨rfl, rfl⟩ | ⟨-, hc⟩
    · obtain rfl : i = j := Option.some.inj (hi.symm.trans hj)
      change (s.sources i).blamed = false at hfree
      rw [hblamed] at hfree
      cases hfree
    · exact ht.complete hc hj hfree
  delivered {j k} hk hle := by
    simp only [emplace_is_delivered hnew hb]
    exact ht.delivered hk hle
  ill {h c j} hc hill hj := by
    rcases emplace_some.1 hc with ⟨rfl, rfl⟩ | ⟨-, hc⟩
    · rw [hb] at hill
      cases hill
    · exact ht.ill hc hill hj
  fork_proof := ht.fork_proof
  blamed_heights := ht.blamed_heights

theorem Tables.emplace_new (ht : Tables s) (hi : b.source_id = some i) (hb : b.state = .none)
    (hfree : (s.sources i).blocks b.height = none) :
    Tables ((s.modify_source i fun S => { S with blocks := update S.blocks b.height (some hash) }).emplace hash b) where
  found {j k h} hk := by
    rw [emplace_sources] at hk
    rcases eq_or_ne j i with rfl | hj
    · rw [modify_source_self] at hk
      dsimp only at hk
      rcases eq_or_ne k b.height with rfl | hne
      · rw [update_self, Option.some.injEq] at hk
        exact ⟨b, emplace_some.2 (.inl ⟨hk.symm, rfl⟩), hi, rfl⟩
      · rw [update_of_ne hne] at hk
        obtain ⟨c, hc, hj⟩ := ht.found hk
        exact ⟨c, emplace_of_some hnew hc, hj⟩
    · rw [modify_source_of_ne s _ hj] at hk
      obtain ⟨c, hc, hj⟩ := ht.found hk
      exact ⟨c, emplace_of_some hnew hc, hj⟩
  complete {h c j} hc hj hblamed := by
    rw [emplace_sources] at hblamed ⊢
    rcases eq_or_ne j i with rfl | hne
    · rw [modify_source_self] at hblamed ⊢
      dsimp only at hblamed ⊢
      rcases emplace_some.1 hc with ⟨rfl, rfl⟩ | ⟨-, hc⟩
      · rw [update_self]
      · have hold := ht.complete hc hj hblamed
        rw [update_of_ne, hold]
        intro hheight
        rw [hheight, hfree] at hold
        cases hold
    · rw [modify_source_of_ne s _ hne] at hblamed ⊢
      rcases emplace_some.1 hc with ⟨rfl, rfl⟩ | ⟨-, hc⟩
      · exact absurd (Option.some.inj (hj.symm.trans hi)) hne
      · exact ht.complete hc hj hblamed
  delivered {j k} hk hle := by
    rw [emplace_sources] at hle ⊢
    rcases eq_or_ne j i with rfl | hj
    · rw [modify_source_self] at hle ⊢
      dsimp only at hle ⊢
      obtain ⟨h, hh, hdel⟩ := ht.delivered hk hle
      refine ⟨h, ?_, (emplace_is_delivered hnew hb h).trans hdel⟩
      rw [update_of_ne, hh]
      rintro rfl
      rw [hfree] at hh
      cases hh
    · rw [modify_source_of_ne s _ hj] at hle ⊢
      obtain ⟨h, hh, hdel⟩ := ht.delivered hk hle
      exact ⟨h, hh, (emplace_is_delivered hnew hb h).trans hdel⟩
  ill {h c j} hc hill hj := by
    rcases emplace_some.1 hc with ⟨rfl, rfl⟩ | ⟨-, hc⟩
    · rw [hb] at hill
      cases hill
    · rw [emplace_sources]
      rcases eq_or_ne j i with rfl | hne
      · rw [modify_source_self]
        exact ht.ill hc hill hj
      · rw [modify_source_of_ne s _ hne]
        exact ht.ill hc hill hj
  fork_proof {j} hj := by
    rw [emplace_sources] at hj ⊢
    rcases eq_or_ne j i with rfl | hne
    · rw [modify_source_self] at hj ⊢
      exact ht.fork_proof hj
    · rw [modify_source_of_ne s _ hne] at hj ⊢
      exact ht.fork_proof hj
  blamed_heights j := by
    rw [emplace_sources]
    rcases eq_or_ne j i with rfl | hne
    · rw [modify_source_self]
      exact ht.blamed_heights j
    · rw [modify_source_of_ne s _ hne]
      exact ht.blamed_heights j

theorem Inv.emplace (hs : Inv chain ex s) (hnoted : Noted s i hash height s') (hheight : 0 < height)
    (hhash : hash = chain.id_hash (chain.idOf i height data_hash)) :
    Inv chain ex (s'.emplace hash (.blank (some i) height data_hash signature)) := by
  have hframe := hnoted.frame
  have hnew' : s'.blocks hash = none := by rw [hframe.blocks]; exact hnew
  -- apart from the tables, `s'` is as `s`
  have hshape := hs.shape.frame hframe
  have hlinks := hs.links.frame hframe
  refine ⟨hshape.emplace hnew' rfl hheight hhash, hlinks.emplace hnew' hshape rfl rfl, (hs.forks.frame hframe).emplace hnew' rfl rfl rfl,
    (hs.times.frame hframe).emplace hnew' hshape hlinks rfl,
    (hs.log.frame hframe).settled (emplace_settled hnew' rfl) rfl, ?_⟩
  rcases hnoted with ⟨hblamed, rfl⟩ | ⟨hfree, rfl⟩ | ⟨-, -, -, -, -, -, hblamed⟩
  · exact hs.tables.emplace hnew rfl rfl hblamed
  · exact hs.tables.emplace_new (b := .blank (some i) height data_hash signature) hnew rfl rfl hfree
  · exact (hs.tables.blamedAt hblamed).emplace hnew' rfl rfl hblamed.source.blamed

end NewBlock

/-! ## Changing known blocks -/

/-- What never changes of a block that is known. -/
structure Keeps (b b' : ReceivedBlock n Payload) : Prop where
  source_id : b'.source_id = b.source_id
  height : b'.height = b.height
  data_hash : b'.data_hash = b.data_hash
  payload : b'.payload = b.payload
  prev : b'.prev = b.prev
  block_deps : b'.block_deps = b.block_deps
  none_iff : b'.state = .none ↔ b.state = .none
  blank : b.state = .none → Blank b → Blank b'

theorem Keeps.refl (b : ReceivedBlock n Payload) : Keeps b b := ⟨rfl, rfl, rfl, rfl, rfl, rfl, Iff.rfl, fun _ => id⟩

theorem Keeps.parents {b' : ReceivedBlock n Payload} (h : Keeps b b') : b'.parents = b.parents := by
  rw [ReceivedBlock.parents, h.prev, h.block_deps, ReceivedBlock.parents]

section Map

variable {g : Hash → ReceivedBlock n Payload → ReceivedBlock n Payload}

theorem Received.map (hr : Received chain s b) {b' : ReceivedBlock n Payload} (hb : Keeps b b')
    (hg : ∀ h c, s.blocks h = some c → (g h c).source_id = c.source_id ∧ (g h c).height = c.height) : Received chain (s.mapBlocks g) b' where
  payload := by
    rw [hb.payload, hb.data_hash]
    exact hr.payload
  prev := by
    obtain ⟨p, P, hp, hP, hheight, hsource⟩ := hr.prev
    refine ⟨p, g p P, hb.prev.trans hp, mapBlocks_some.2 ⟨P, hP, rfl⟩, ?_, ?_⟩
    · rw [(hg p P hP).2, hb.height]
      exact hheight
    · rw [(hg p P hP).1, hb.source_id]
      exact hsource
  deps d hd := by
    obtain ⟨D, hD, hne⟩ := hr.deps d (hb.block_deps ▸ hd)
    refine ⟨g d D, mapBlocks_some.2 ⟨D, hD, rfl⟩, ?_⟩
    rw [(hg d D hD).1, hb.source_id]
    exact hne
  nodup := hb.block_deps ▸ hr.nodup

theorem Shape.map (hs : Shape chain s) (hg : ∀ h b, s.blocks h = some b → Keeps b (g h b))
    (hroot : g chain.root_hash chain.root_block = chain.root_block) : Shape chain (s.mapBlocks g) where
  keys_nodup := hs.keys_nodup
  mem_keys h := by
    rw [mapBlocks_blocks, isSome_map]
    exact hs.mem_keys h
  root := mapBlocks_some.2 ⟨_, hs.root, hroot⟩
  last_sent := by
    rw [mapBlocks_blocks, isSome_map]
    exact hs.last_sent
  ident {h b'} hb' hne := by
    obtain ⟨b, hb, rfl⟩ := mapBlocks_some.1 hb'
    have hk := hg h b hb
    rw [hk.source_id, hk.height, hk.data_hash]
    exact hs.ident hb hne
  blank {h b'} hb' hnone := by
    obtain ⟨b, hb, rfl⟩ := mapBlocks_some.1 hb'
    have hk := hg h b hb
    exact hk.blank (hk.none_iff.1 hnone) (hs.blank hb (hk.none_iff.1 hnone))
  received {h b'} hb' hne hstate := by
    obtain ⟨b, hb, rfl⟩ := mapBlocks_some.1 hb'
    have hk := hg h b hb
    exact (hs.received hb hne fun hnone => hstate (hk.none_iff.2 hnone)).map hk fun h c hc => ⟨(hg h c hc).source_id, (hg h c hc).height⟩

theorem Forks.map {ex' : Hash → Prop} (hf : Forks chain ex s)
    (hg : ∀ h b, s.blocks h = some b → (g h b).source_id = b.source_id ∧ (g h b).height = b.height ∧ (g h b).fork_id = b.fork_id ∧
      (g h b).next = b.next)
    (hprev : ∀ h b, s.blocks h = some b → 0 < b.fork_id → (g h b).prev = b.prev)
    (hinit : ∀ h b, s.blocks h = some b → (g h b).state = .initialized → ¬ ex' h → b.fork_id = 0)
    (hdel : ∀ h b, s.blocks h = some b → (g h b).state = .delivered → h ≠ chain.root_hash → 0 < b.fork_id) :
    Forks chain ex' (s.mapBlocks g) where
  le {h b'} hb' := by
    obtain ⟨b, hb, rfl⟩ := mapBlocks_some.1 hb'
    rw [(hg h b hb).2.2.1]
    exact hf.le hb
  initialized {h b'} hb' hstate hex := by
    obtain ⟨b, hb, rfl⟩ := mapBlocks_some.1 hb'
    rw [(hg h b hb).2.2.1]
    exact hinit h b hb hstate hex
  delivered {h b'} hb' hstate hroot := by
    obtain ⟨b, hb, rfl⟩ := mapBlocks_some.1 hb'
    rw [(hg h b hb).2.2.1]
    exact hdel h b hb hstate hroot
  inj {h b' k c'} hb' hc' hpos heq hheight := by
    obtain ⟨b, hb, rfl⟩ := mapBlocks_some.1 hb'
    obtain ⟨c, hc, rfl⟩ := mapBlocks_some.1 hc'
    obtain ⟨-, hbh, hbf, -⟩ := hg h b hb
    obtain ⟨-, hch, hcf, -⟩ := hg k c hc
    rw [hbf] at hpos heq
    rw [hcf] at heq
    rw [hbh, hch] at hheight
    exact hf.inj hb hc hpos heq hheight
  top {h b' k c'} hb' hc' hpos heq hlt := by
    obtain ⟨b, hb, rfl⟩ := mapBlocks_some.1 hb'
    obtain ⟨c, hc, rfl⟩ := mapBlocks_some.1 hc'
    obtain ⟨-, hbh, hbf, hbn⟩ := hg h b hb
    obtain ⟨-, hch, hcf, -⟩ := hg k c hc
    rw [hbf] at hpos heq
    rw [hcf] at heq
    rw [hbh, hch] at hlt
    rw [hbn]
    exact hf.top hb hc hpos heq hlt
  step {h b' k c'} hb' hc' hpos heq hlt := by
    obtain ⟨b, hb, rfl⟩ := mapBlocks_some.1 hb'
    obtain ⟨c, hc, rfl⟩ := mapBlocks_some.1 hc'
    obtain ⟨-, hbh, hbf, -⟩ := hg h b hb
    obtain ⟨-, hch, hcf, -⟩ := hg k c hc
    rw [hbf] at hpos heq ⊢
    rw [hcf] at heq
    rw [hbh, hch] at hlt
    obtain ⟨p, P, hp, hP, hfork⟩ := hf.step hb hc hpos heq hlt
    refine ⟨p, g p P, ?_, mapBlocks_some.2 ⟨P, hP, rfl⟩, ?_⟩
    · rw [hprev k c hc (by omega)]
      exact hp
    · rw [(hg p P hP).2.2.1]
      exact hfork
  next {p P' c} hP' hc := by
    obtain ⟨P, hP, rfl⟩ := mapBlocks_some.1 hP'
    obtain ⟨hPi, hPh, -, hPn⟩ := hg p P hP
    rw [hPn] at hc
    obtain ⟨C, hC, hheight, hsource, hpos⟩ := hf.next hP hc
    obtain ⟨hCi, hCh, hCf, -⟩ := hg c C hC
    exact ⟨g c C, mapBlocks_some.2 ⟨C, hC, rfl⟩, by rw [hCh, hPh, hheight], by rw [hCi, hPi, hsource], by rw [hCf]; exact hpos⟩
  first {i} hi := by
    obtain ⟨h, b, hb, hsource, hheight, hpos⟩ := hf.first hi
    obtain ⟨hbi, hbh, hbf, -⟩ := hg h b hb
    exact ⟨h, g h b, mapBlocks_some.2 ⟨b, hb, rfl⟩, hbi.trans hsource, hbh.trans hheight, by rw [hbf]; exact hpos⟩
  ids {h b' i} hb' hpos hi := by
    obtain ⟨b, hb, rfl⟩ := mapBlocks_some.1 hb'
    obtain ⟨hbi, -, hbf, -⟩ := hg h b hb
    rw [hbf] at hpos ⊢
    rw [hbi] at hi
    exact hf.ids hb hpos hi
  ids_le := hf.ids_le
  ids_source {i h b'} hb' hmem := by
    obtain ⟨b, hb, rfl⟩ := mapBlocks_some.1 hb'
    obtain ⟨hbi, -, hbf, -⟩ := hg h b hb
    rw [hbf] at hmem
    rw [hbi]
    exact hf.ids_source hb hmem
  ids_blamed := hf.ids_blamed

theorem Tables.map (ht : Tables s)
    (hg : ∀ h b, s.blocks h = some b → (g h b).source_id = b.source_id ∧ (g h b).height = b.height)
    (hdel : ∀ h b, s.blocks h = some b → b.state = .delivered → (g h b).state = .delivered)
    (hill : ∀ h b i, s.blocks h = some b → (g h b).state = .ill → b.source_id = some i → (s.sources i).blamed = true) :
    Tables (s.mapBlocks g) where
  found {i k h} hk := by
    obtain ⟨b, hb, hi, hheight⟩ := ht.found hk
    exact ⟨g h b, mapBlocks_some.2 ⟨b, hb, rfl⟩, (hg h b hb).1.trans hi, (hg h b hb).2.trans hheight⟩
  complete {h b' i} hb' hi hfree := by
    obtain ⟨b, hb, rfl⟩ := mapBlocks_some.1 hb'
    rw [(hg h b hb).1] at hi
    rw [(hg h b hb).2]
    exact ht.complete hb hi hfree
  delivered {i k} hk hle := by
    obtain ⟨h, hh, hdelivered⟩ := ht.delivered hk hle
    obtain ⟨b, hb, hstate⟩ := is_delivered_iff.1 hdelivered
    exact ⟨h, hh, is_delivered_iff.2 ⟨g h b, mapBlocks_some.2 ⟨b, hb, rfl⟩, hdel h b hb hstate⟩⟩
  ill {h b' i} hb' hstate hi := by
    obtain ⟨b, hb, rfl⟩ := mapBlocks_some.1 hb'
    rw [(hg h b hb).1] at hi
    exact hill h b i hb hstate hi
  fork_proof := ht.fork_proof
  blamed_heights := ht.blamed_heights

theorem map_settled (hg : ∀ h b, s.blocks h = some b → ((g h b).state = .delivered ↔ b.state = .delivered))
    (hdel : ∀ h b, s.blocks h = some b → b.state = .delivered →
      (g h b).parents = b.parents ∧ (g h b).fork_id = b.fork_id ∧ (g h b).height = b.height ∧ (g h b).deps = b.deps) :
    Settled s (s.mapBlocks g) where
  kept h b hb hstate := ⟨g h b, mapBlocks_some.2 ⟨b, hb, rfl⟩, (hg h b hb).2 hstate, hdel h b hb hstate⟩
  back h b' hb' hstate := by
    obtain ⟨b, hb, rfl⟩ := mapBlocks_some.1 hb'
    exact ⟨b, hb, (hg h b hb).1 hstate⟩

end Map

/-! ## Illness -/

def fall_ill (b : ReceivedBlock n Payload) : ReceivedBlock n Payload := { b with state := .ill }

theorem Shape.ne_root (hs : Shape chain s) (hb : s.blocks hash = some b) (hstate : b.state ≠ .delivered) : hash ≠ chain.root_hash := by
  rintro rfl
  rw [hs.root, Option.some.injEq] at hb
  rw [← hb] at hstate
  exact hstate rfl

theorem fall_ill_is_delivered (hb : s.blocks hash = some b) (hstate : b.state = .initialized) (h : Hash) :
    (s.modify hash fall_ill).is_delivered h = s.is_delivered h := by
  rcases eq_or_ne h hash with rfl | hne
  · rw [is_delivered_of (modify_self s hb), is_delivered_of hb, hstate]
    rfl
  · rw [is_delivered, modify_of_ne s hne, is_delivered]

theorem Links.fall_ill (hl : Links chain ex s) (hb : s.blocks hash = some b) (hstate : b.state = .initialized)
    (hex : ∀ h, h ≠ hash → ¬ ex' h → ¬ ex h) : Links chain ex' (s.modify hash fall_ill) := by
  have hcases : ∀ {h c}, (s.modify hash Receiver.fall_ill).blocks h = some c →
      (h = hash ∧ c = Receiver.fall_ill b) ∨ (h ≠ hash ∧ s.blocks h = some c) := by
    intro h c hc
    rcases eq_or_ne h hash with rfl | hne
    · rw [modify_self s hb, Option.some.injEq] at hc
      exact .inl ⟨rfl, hc.symm⟩
    · rw [modify_of_ne s hne] at hc
      exact .inr ⟨hne, hc⟩
  -- every block keeps all but its state
  have hold : ∀ {h c}, (s.modify hash Receiver.fall_ill).blocks h = some c →
      ∃ c', s.blocks h = some c' ∧ c.rev_deps = c'.rev_deps ∧ (c.state = .delivered ↔ c'.state = .delivered) := by
    intro h c hc
    rcases hcases hc with ⟨rfl, rfl⟩ | ⟨-, hc⟩
    · refine ⟨b, hb, rfl, ?_⟩
      rw [hstate]
      exact iff_of_false (fun h => (by cases h)) (fun h => (by cases h))
    · exact ⟨c, hc, rfl, Iff.rfl⟩
  have hinit : ∀ {h c}, (s.modify hash Receiver.fall_ill).blocks h = some c → c.state = .initialized → h ≠ hash ∧ s.blocks h = some c := by
    intro h c hc hstate
    rcases hcases hc with ⟨-, rfl⟩ | h
    · cases hstate
    · exact h
  have hnew : ∀ {h c}, s.blocks h = some c → ∃ c', (s.modify hash Receiver.fall_ill).blocks h = some c' ∧
      (c'.state = c.state ∨ c'.state = .ill) ∧ c'.in_db = c.in_db := by
    intro h c hc
    rcases eq_or_ne h hash with rfl | hne
    · rw [hb, Option.some.injEq] at hc
      rw [← hc]
      exact ⟨_, modify_self s hb, .inr rfl, rfl⟩
    · exact ⟨c, (modify_of_ne s hne).trans hc, .inl rfl, rfl⟩
  constructor
  · intro p P c hP hc
    obtain ⟨P', hP', hrev, -⟩ := hold hP
    obtain ⟨C, hC, hCstate⟩ := hl.rev_known hP' (hrev ▸ hc)
    obtain ⟨C', hC', h | h, -⟩ := hnew hC
    · exact ⟨C', hC', by rw [h]; exact hCstate⟩
    · exact ⟨C', hC', .inr h⟩
  · intro p P c C hP hPstate hC hCinit hexc
    obtain ⟨P', hP', hrev, hdel⟩ := hold hP
    obtain ⟨hne, hC'⟩ := hinit hC hCinit
    rw [hrev]
    exact hl.rev_iff hP' (fun h => hPstate (hdel.2 h)) hC' hCinit (hex c hne hexc)
  · intro p P hP
    obtain ⟨P', hP', hrev, -⟩ := hold hP
    rw [hrev]
    exact hl.rev_nodup hP'
  · intro c C hC hCinit hexc
    obtain ⟨hne, hC'⟩ := hinit hC hCinit
    simp only [fall_ill_is_delivered hb hstate]
    exact hl.pending hC' hCinit (hex c hne hexc)
  · exact hl.queue_nodup
  · intro h hh
    obtain ⟨c, hc, hcstate, hdb⟩ := hl.queue_known hh
    obtain ⟨c', hc', h | h, hdb'⟩ := hnew hc
    · exact ⟨c', hc', by rw [h]; exact hcstate, hdb'.trans hdb⟩
    · exact ⟨c', hc', by rw [h]; exact fun h => (by cases h), hdb'.trans hdb⟩
  · intro c C hC hCinit hexc
    obtain ⟨hne, hC'⟩ := hinit hC hCinit
    exact hl.queue_iff hC' hCinit (hex c hne hexc)
  · intro c C hC hCstate hroot
    simp only [fall_ill_is_delivered hb hstate]
    rcases hcases hC with ⟨-, rfl⟩ | ⟨-, hC'⟩
    · cases hCstate
    · exact hl.delivered hC' hCstate hroot
  · intro p P c C hP hc hC hCinit
    obtain ⟨P', hP', hrev, hdel⟩ := hold hP
    obtain ⟨-, hC'⟩ := hinit hC hCinit
    obtain ⟨hne, hmem⟩ := hl.waits hP' (hrev ▸ hc) hC' hCinit
    exact ⟨fun h => hne (hdel.1 h), hmem⟩

theorem Inv.fall_ill (hs : Inv chain ex s) (hb : s.blocks hash = some b) (hstate : b.state = .initialized)
    (hi : b.source_id = some i) (hblamed : (s.sources i).blamed = true) (hex : ∀ h, h ≠ hash → ¬ ex' h → ¬ ex h) :
    Inv chain ex' (s.modify hash fall_ill) := by
  have hroot : hash ≠ chain.root_hash := hs.shape.ne_root hb (by rw [hstate]; exact fun h => (by cases h))
  have hself : ∀ c, s.blocks hash = some c → c = b := fun c hc => Option.some.inj (hc.symm.trans hb)
  have hlinks := hs.links.fall_ill hb hstate hex
  rw [modify_eq] at hlinks ⊢
  have hset : Settled s (s.mapBlocks fun h b => if h = hash then Receiver.fall_ill b else b) := by
    refine map_settled (fun h c hc => ?_) (fun h c hc hdel => ?_)
    · split_ifs with heq
      · rw [heq] at hc
        rw [hself c hc, hstate]
        exact iff_of_false (fun h => (by cases h)) (fun h => (by cases h))
      · exact Iff.rfl
    · split_ifs
      · exact ⟨rfl, rfl, rfl, rfl⟩
      · exact ⟨rfl, rfl, rfl, rfl⟩
  refine ⟨hs.shape.map (fun h c hc => ?_) (if_neg hroot.symm), hlinks, hs.forks.map (fun h c hc => ?_) (fun h c hc _ => ?_)
    (fun h c hc hinit hexh => ?_) (fun h c hc hdel hne => ?_), hs.times.settled hs.shape hs.links hset (fun h c' hc' hinit hexh => ?_),
    hs.log.settled hset rfl, hs.tables.map (fun h c hc => ?_) (fun h c hc hdel => ?_) (fun h c j hc hill hj => ?_)⟩
  · split_ifs with heq
    · rw [heq] at hc
      rw [hself c hc]
      refine ⟨rfl, rfl, rfl, rfl, rfl, rfl, ?_, fun _ hblank => ⟨hblank.1, hblank.2, hblank.3, hblank.4, hblank.5, hblank.6, hblank.7, hblank.8⟩⟩
      rw [hstate]
      exact iff_of_false (fun h => (by cases h)) (fun h => (by cases h))
    · exact .refl c
  · split_ifs
    · exact ⟨rfl, rfl, rfl, rfl⟩
    · exact ⟨rfl, rfl, rfl, rfl⟩
  · split_ifs
    · rfl
    · rfl
  · split_ifs at hinit with heq
    · cases hinit
    · exact hs.forks.initialized hc hinit (hex h heq hexh)
  · split_ifs at hdel with heq
    · cases hdel
    · exact hs.forks.delivered hc hdel hne
  · obtain ⟨c, hc, rfl⟩ := mapBlocks_some.1 hc'
    split_ifs at hinit with heq
    · cases hinit
    · refine .inl ⟨c, hc, hinit, hex h heq hexh, ?_, ?_⟩
      · rw [if_neg heq]
      · rw [if_neg heq]
  · split_ifs
    · exact ⟨rfl, rfl⟩
    · exact ⟨rfl, rfl⟩
  · split_ifs with heq
    · rw [heq] at hc
      rw [hself c hc, hstate] at hdel
      cases hdel
    · exact hdel
  · split_ifs at hill with heq
    · rw [heq] at hc
      rw [hself c hc, hi] at hj
      cases hj
      exact hblamed
    · exact hs.tables.ill hc hill hj

/-- Some initialized blocks fell ill, and their sources were blamed. -/
structure Illness (s s' : Receiver n Payload) : Prop extends Steady s s' where
  blocks : ∀ h, s'.blocks h = s.blocks h ∨ ∃ b, s.blocks h = some b ∧ b.state = .initialized ∧ s'.blocks h = some (fall_ill b)
  keys : s'.keys = s.keys
  guilty : ∀ i, (s'.sources i).blamed = true → (s.sources i).blamed = true ∨ s'.Sick i

namespace Illness

theorem refl (s : Receiver n Payload) : Illness s s := ⟨.refl s, fun _ => .inl rfl, rfl, fun _ => .inl⟩

theorem ill_kept (hi : Illness s s') (hb : s.blocks h = some b) (hstate : b.state ≠ .initialized) : s'.blocks h = some b := by
  rcases hi.blocks h with heq | ⟨c, hc, hinit, -⟩
  · rw [heq, hb]
  · rw [hb, Option.some.injEq] at hc
    rw [hc] at hstate
    exact absurd hinit hstate

theorem trans {s'' : Receiver n Payload} (h : Illness s s') (h' : Illness s' s'') : Illness s s'' where
  toSteady := h.toSteady.trans h'.toSteady
  blocks hash := by
    rcases h.blocks hash with heq | ⟨b, hb, hinit, heq⟩
    · rcases h'.blocks hash with heq' | ⟨b, hb, hinit, heq'⟩
      · exact .inl (heq'.trans heq)
      · exact .inr ⟨b, heq ▸ hb, hinit, heq'⟩
    · exact .inr ⟨b, hb, hinit, h'.ill_kept heq (fun h => (by cases h))⟩
  keys := h'.keys.trans h.keys
  guilty i hi := by
    rcases h'.guilty i hi with hi | hi
    · rcases h.guilty i hi with hi | ⟨hash, b, hb, hill, hsource⟩
      · exact .inl hi
      · exact .inr ⟨hash, b, h'.ill_kept hb (by rw [hill]; exact fun h => (by cases h)), hill, hsource⟩
    · exact .inr hi

/-- A block that is known stays known, and of its state only `initialized` can change. -/
theorem known (hi : Illness s s') (hb : s.blocks h = some b) :
    ∃ b', s'.blocks h = some b' ∧ (b' = b ∨ (b.state = .initialized ∧ b' = fall_ill b)) := by
  rcases hi.blocks h with heq | ⟨c, hc, hinit, heq⟩
  · exact ⟨b, heq.trans hb, .inl rfl⟩
  · obtain rfl : b = c := Option.some.inj (hb.symm.trans hc)
    exact ⟨_, heq, .inr ⟨hinit, rfl⟩⟩

theorem back {b' : ReceivedBlock n Payload} (hi : Illness s s') (hb : s'.blocks h = some b') :
    ∃ b, s.blocks h = some b ∧ (b' = b ∨ (b.state = .initialized ∧ b' = fall_ill b)) := by
  rcases hi.blocks h with heq | ⟨c, hc, hinit, heq⟩
  · exact ⟨b', heq ▸ hb, .inl rfl⟩
  · exact ⟨c, hc, .inr ⟨hinit, Option.some.inj (hb.symm.trans heq)⟩⟩

end Illness

/-- The number of blocks that are not ill, which bounds the recursion of `set_ill`. -/
def healthy (s : Receiver n Payload) : ℕ := (s.keys.filter fun h => !s.is_ill h).length

theorem healthy_le (s : Receiver n Payload) : s.healthy ≤ s.keys.length := length_filter_le ..

theorem fall_ill_illness (hb : s.blocks hash = some b) (hstate : b.state = .initialized) (hi : b.source_id = some i) :
    Illness s ((s.blame i).modify hash fall_ill) := by
  have hframe := (blame_blamedAt s i).frame
  have hb' : (s.blame i).blocks hash = some b := by rw [hframe.blocks]; exact hb
  refine ⟨hframe.toSteady.trans (.modify _ hash _), fun h => ?_, hframe.keys, fun j hj => ?_⟩
  · rcases eq_or_ne h hash with rfl | hne
    · exact .inr ⟨b, hb, hstate, modify_self _ hb'⟩
    · rw [modify_of_ne _ hne, hframe.blocks]
      exact .inl rfl
  · rcases eq_or_ne j i with rfl | hne
    · exact .inr ⟨hash, _, modify_self _ hb', rfl, hi⟩
    · exact .inl (by rw [← (blame_blamedAt s i).others j hne]; exact hj)

theorem Illness.healthy_le (h : Illness s s') : s'.healthy ≤ s.healthy := by
  unfold healthy
  rw [h.keys]
  refine (monotone_filter_right s.keys fun c hc => ?_).length_le
  by_contra hill
  rw [Bool.not_eq_true', ← Bool.not_eq_true, not_not] at hill
  obtain ⟨b, hb, hstate⟩ := is_ill_iff.1 hill
  have hkept := h.ill_kept hb (by rw [hstate]; exact fun h => (by cases h))
  rw [is_ill_iff.2 ⟨b, hkept, hstate⟩] at hc
  cases hc

theorem Illness.healthy_lt (hs : Shape chain s) (h : Illness s s') (hb : s.blocks hash = some b) (hstate : b.state = .initialized)
    (hill : s'.is_ill hash = true) : s'.healthy < s.healthy := by
  unfold healthy
  rw [h.keys]
  have hmem : hash ∈ s.keys.filter fun h => !s.is_ill h := by
    refine mem_filter.2 ⟨(hs.mem_keys hash).2 (by rw [hb]; rfl), ?_⟩
    rw [Bool.not_eq_true', ← Bool.not_eq_true]
    intro hold
    obtain ⟨c, hc, hc'⟩ := is_ill_iff.1 hold
    rw [Option.some.inj (hc.symm.trans hb), hstate] at hc'
    cases hc'
  have hnot : hash ∉ s.keys.filter fun h => !s'.is_ill h := by
    intro hmem'
    rw [mem_filter, hill] at hmem'
    cases hmem'.2
  have hsub : (s.keys.filter fun h => !s'.is_ill h).Sublist (s.keys.filter fun h => !s.is_ill h) := by
    refine monotone_filter_right s.keys fun c hc => ?_
    by_contra hold
    rw [Bool.not_eq_true', ← Bool.not_eq_true, not_not] at hold
    obtain ⟨d, hd, hdstate⟩ := is_ill_iff.1 hold
    rw [is_ill_iff.2 ⟨d, h.ill_kept hd (by rw [hdstate]; exact fun h => (by cases h)), hdstate⟩] at hc
    cases hc
  refine lt_of_le_of_ne hsub.length_le fun heq => ?_
  rw [hsub.eq_of_length heq] at hnot
  exact hnot hmem

theorem set_ill_spec (fuel : ℕ) (hs : Inv chain ex s) (hb : s.blocks hash = some b)
    (hstate : b.state = .initialized ∨ b.state = .ill ∧ ex' = ex) (hex : ∀ h, h ≠ hash → ¬ ex' h → ¬ ex h) (hfuel : s.healthy < fuel) :
    Ends bad (set_ill fuel s hash) fun s' => Inv chain ex' s' ∧ Illness s s' ∧ s'.is_ill hash = true := by
  induction fuel generalizing s hash b ex with
  | zero => omega
  | succ fuel ih =>
    unfold set_ill
    rw [deref_eq hb, ok_bind]
    by_cases hill : b.state = .ill
    · rw [if_pos (by rw [ReceivedBlock.is_ill]; exact decide_eq_true hill)]
      rcases hstate with hinit | ⟨-, rfl⟩
      · rw [hill] at hinit
        cases hinit
      · exact .ok ⟨hs, .refl s, is_ill_iff.2 ⟨b, hb, hill⟩⟩
    rw [if_neg (by rw [ReceivedBlock.is_ill, decide_eq_true_iff]; exact hill)]
    have hinit := hstate.resolve_right fun h => hill h.1
    obtain ⟨i, hi, -⟩ := hs.shape.ident hb (hs.shape.ne_root hb (by rw [hinit]; exact fun h => (by cases h)))
    rw [hi, source_of, ok_bind]
    have hblame := blame_blamedAt s i
    have hb' : (s.blame i).blocks hash = some b := by rw [hblame.frame.blocks]; exact hb
    have hs' : Inv chain ex' ((s.blame i).modify hash fall_ill) :=
      (hs.blamedAt hblame).fall_ill hb' hinit hi hblame.source.blamed hex
    have hillness := fall_ill_illness hb hinit hi
    have hself : ((s.blame i).modify hash fall_ill).is_ill hash = true := is_ill_iff.2 ⟨_, modify_self _ hb', rfl⟩
    have hlt := hillness.healthy_lt hs.shape hb hinit hself
    refine (Ends.foldlM (P := fun s' => Inv chain ex' s' ∧ Illness ((s.blame i).modify hash fall_ill) s') ?_ ⟨hs', .refl _⟩).mono ?_
    · rintro t c hc ⟨ht, hill'⟩
      obtain ⟨C, hC, hCstate⟩ := hs.links.rev_known hb hc
      obtain ⟨C', hC', hC''⟩ := (hillness.trans hill').known hC
      refine (ih ht hC' ?_ (fun _ _ => id) ?_).mono fun t' ht' => ⟨ht'.1, hill'.trans ht'.2.1⟩
      · rcases hC'' with rfl | ⟨-, rfl⟩
        · exact hCstate.imp_right fun h => ⟨h, rfl⟩
        · exact .inr ⟨rfl, rfl⟩
      · have hle := hill'.healthy_le
        omega
    · rintro t ⟨ht, hill'⟩
      refine ⟨ht, hillness.trans hill', is_ill_iff.2 ⟨_, hill'.ill_kept (modify_self _ hb') (fun h => (by cases h)), rfl⟩⟩

end Receiver

end Ton.Catchain
