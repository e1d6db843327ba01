import Ton.Catchain.Delivery
/-!
# What the hash of a block fixes

A hash, and the signature under it, cover the source of a block, its height and its
payload. The dependencies are not covered: a message can name others under the same
hash, and receivers that deliver it then disagree on its ancestors. What all of them
agree on besides is the line of previous blocks of a source that signs one block a
height.
-/

namespace Ton.Catchain
open Result Option Chain

variable {n : ℕ} {Payload : Type} {chain : Chain n Payload} {may may' : Receiver n Payload → Act Payload → Prop}

/-- The source signs at most one block of every height. -/
def Chain.SignsOnce (chain : Chain n Payload) (i : Fin n) : Prop :=
  ∀ k d d' signature signature', chain.check_signature i (chain.idOf i k d) signature = true →
    chain.check_signature i (chain.idOf i k d') signature' = true → d = d'

namespace Receiver

variable {s s' : Receiver n Payload} {i : Fin n} {h : Hash} {b b' : ReceivedBlock n Payload} {block block' : Block} {payload payload' : Payload}

/-- `receive_block` takes the message, if it does not know the block. -/
def Accepts (chain : Chain n Payload) (s : Receiver n Payload) (block : Block) (payload : Payload) : Prop :=
  block.incarnation = chain.incarnation ∧ s.validate_block chain block payload = .ok (.ok ())

theorem Accepts.ok (h : Accepts chain s block payload) : ∃ i, BlockOk chain s block payload i := (validate_block_total s h.1 payload).2.1 h.2

/-! ## Every known block is signed -/

def Signed (chain : Chain n Payload) (s : Receiver n Payload) : Prop :=
  ∀ h b i, s.blocks h = some b → b.source_id = some i → chain.check_signature i (chain.idOf i b.height b.data_hash) b.signature = true

theorem Signed.create (idx : Fin n) (allow : Bool) : Signed chain (create chain idx allow) := by
  intro h b i hb hi
  rw [(create_blocks.1 hb).2] at hi
  cases hi

theorem Signed.move (hs' : Good chain s') (h : Signed chain s) (hmove : Move chain may s s') : Signed chain s' := by
  intro k b' i hb' hi
  rcases hmove with ⟨hblocks, -⟩ | ⟨block, payload, j, hok, harrives, -⟩ | ⟨hash, hstored⟩ | ⟨hash, rest, -, -, hturn⟩ | ⟨j, hblamed, -⟩
  · exact h k b' i (hblocks ▸ hb') hi
  · have hpos := hok.height
    rcases harrives.blocks hb' with ⟨b, hb, hsame, -⟩ | ⟨hnone, dep, hdep, l, hheight, hsrc, rfl, -, hsig⟩ | ⟨rfl, -, -, -, hsig, -⟩
    · rw [hsame.height, hsame.data_hash, hsame.signature]
      exact h k b i hb (hsame.source_id.symm.trans hi)
    · -- a dependency that is not known is signed
      obtain ⟨hl, hk, hd⟩ := hs'.inv.shape.known (by omega) hb'
      obtain rfl : l = i := Option.some.inj (hl.symm.trans hi)
      have hdepok : DepOk chain s dep := by
        rcases List.mem_cons.1 hdep with rfl | hdep
        · exact hok.prev
        · exact hok.deps dep hdep
      rw [hk, hd, hsig]
      rcases hdepok with ⟨hzero, -⟩ | ⟨j', -, hj', hknown⟩
      · omega
      · obtain rfl : l = j' := Fin.ext (by omega)
        refine hknown.resolve_left fun hsome => ?_
        rw [hnone] at hsome
        cases hsome
    · obtain ⟨hl, hk, hd⟩ := hs'.inv.shape.known (by omega) hb'
      obtain rfl : j = i := Option.some.inj (hl.symm.trans hi)
      rw [hk, hd, hsig]
      exact hok.signed
  · rw [hstored.blocks] at hb'
    split_ifs at hb'
    · obtain ⟨b, hb, rfl⟩ := map_eq_some_iff.1 hb'
      exact h k b i hb hi
    · exact h k b' i hb' hi
  · obtain ⟨b, hb, hg⟩ := hturn.evolves.back hb'
    rw [hg.height, hg.data_hash, hg.signature]
    exact h k b i hb (hg.source_id.symm.trans hi)
  · exact h k b' i (hblamed.frame.blocks ▸ hb') hi

theorem Reached.signed (h : Reached chain may s) : Signed chain s :=
  h.inv_moves (fun idx allow => .create idx allow) fun _ _ _ hs' hP hmove => hP.move hs' hmove

theorem DepOk.signed (hsigned : Signed chain s) (hs : Shape chain s) {dep : Dep} (hdep : DepOk chain s dep) (hsrc : dep.src = (i : ℕ))
    (hheight : 0 < dep.height) :
    ∃ signature, chain.check_signature i (chain.idOf i dep.height.toNat dep.data_hash) signature = true := by
  rcases hdep with ⟨hzero, -⟩ | ⟨j, -, hj, hknown | hsig⟩
  · omega
  · obtain rfl : i = j := Fin.ext (by omega)
    obtain ⟨b, hb⟩ := isSome_iff_exists.1 hknown
    obtain ⟨hbi, hk, hd⟩ := hs.known (by omega) hb
    have h := hsigned _ b i hb hbi
    rw [hk, hd] at h
    exact ⟨_, h⟩
  · obtain rfl : i = j := Fin.ext (by omega)
    exact ⟨_, hsig⟩

/-! ## Two messages with one hash -/

/-- What two messages with one hash have in common. -/
structure SameHash (chain : Chain n Payload) (block block' : Block) (payload payload' : Payload) : Prop where
  src : block.src = block'.src
  height : block.height = block'.height
  payload : payload = payload'
  prev_src : block.data.prev.src = block'.data.prev.src
  prev_height : block.data.prev.height = block'.data.prev.height
  prev : ∀ i : Fin n, block.src = (i : ℕ) → chain.SignsOnce i → block.data.prev.data_hash = block'.data.prev.data_hash

theorem sameHash_of_accepts (h : Reached chain may s) (h' : Reached chain may' s') (ha : Accepts chain s block payload)
    (ha' : Accepts chain s' block' payload') (heq : chain.block_hash block payload = chain.block_hash block' payload') :
    SameHash chain block block' payload payload' := by
  obtain ⟨i, hok⟩ := ha.ok
  obtain ⟨j, hok'⟩ := ha'.ok
  have hpos := hok.height
  have hpos' := hok'.height
  rw [block_hash_eq hok.incarnation hok.src hok.height, block_hash_eq hok'.incarnation hok'.src hok'.height, Except.ok.injEq] at heq
  obtain ⟨rfl, hheight, hhash⟩ := idOf_inj.1 (chain.id_hash_inj heq)
  have hheight' : block.height = block'.height := by omega
  have hsrc : block.src = block'.src := hok.src.trans hok'.src.symm
  have hprev_height : block.data.prev.height = block'.data.prev.height := by
    have h1 := hok.prev_height
    have h2 := hok'.prev_height
    omega
  have hprev_src : block.data.prev.src = block'.data.prev.src := by rw [hok.prev_src, hok'.prev_src, hsrc, hheight']
  refine ⟨hsrc, hheight', chain.payload_hash_inj hhash, hprev_src, hprev_height, fun j hj honce => ?_⟩
  obtain rfl : i = j := Fin.ext (by have := hok.src; omega)
  have hsrc_prev := hok.prev_src
  split_ifs at hsrc_prev with hfirst
  · -- both name a block that the source signed
    have hprev_pos : 0 < block.data.prev.height := by
      have := hok.prev_height
      omega
    obtain ⟨sig, hsig⟩ := hok.prev.signed h.signed h.good.inv.shape (hsrc_prev.trans hok.src) hprev_pos
    obtain ⟨sig', hsig'⟩ := hok'.prev.signed h'.signed h'.good.inv.shape (hprev_src.symm.trans (hsrc_prev.trans hok.src)) (hprev_height ▸ hprev_pos)
    rw [← hprev_height] at hsig'
    exact honce _ _ _ _ _ hsig hsig'
  · -- both name the root block
    have hroot : ∀ {t : Receiver n Payload} {dep : Dep}, DepOk chain t dep → dep.height = 0 → dep.data_hash = chain.incarnation := by
      rintro t dep (⟨-, -, hhash, -⟩ | ⟨l, hl, -⟩) hzero
      · exact hhash
      · omega
    have hzero : block.data.prev.height = 0 := by
      have := hok.prev_height
      omega
    rw [hroot hok.prev hzero, hroot hok'.prev (hprev_height ▸ hzero)]

/-! ## Two receivers with one block -/

/-- `k` blocks back from a block. -/
def prevs (s : Receiver n Payload) : ℕ → Hash → Option Hash
  | 0, h => some h
  | k + 1, h => ((s.blocks h).bind (·.prev)).bind (prevs s k)

/-- What two receivers agree on of a block that both delivered. -/
structure SameBlock (chain : Chain n Payload) (s s' : Receiver n Payload) (h : Hash) (b b' : ReceivedBlock n Payload) : Prop where
  source_id : b.source_id = b'.source_id
  height : b.height = b'.height
  payload : b.payload = b'.payload
  prevs : ∀ i, b.source_id = some i → chain.SignsOnce i → ∀ k, s.prevs k h = s'.prevs k h

theorem sameBlock_ident (hs : Shape chain s) (hs' : Shape chain s') (hb : s.blocks h = some b) (hb' : s'.blocks h = some b')
    (hne : h ≠ chain.root_hash) :
    b.source_id = b'.source_id ∧ b.height = b'.height ∧ b.data_hash = b'.data_hash := by
  obtain ⟨i, hi, -, hhash⟩ := hs.ident hb hne
  obtain ⟨j, hj, -, hhash'⟩ := hs'.ident hb' hne
  obtain ⟨rfl, hheight, hdata⟩ := idOf_inj.1 (chain.id_hash_inj (hhash.symm.trans hhash'))
  exact ⟨hi.trans hj.symm, hheight, hdata⟩

section
variable (hr : Reached chain may s) (hr' : Reached chain may' s')
include hr hr'

/-- Arrived blocks of a source that signs once have the same previous block everywhere. -/
theorem prev_eq (hb : s.blocks h = some b) (hb' : s'.blocks h = some b')
    (hne : h ≠ chain.root_hash) (hstate : b.state ≠ .none) (hstate' : b'.state ≠ .none) (hi : b.source_id = some i) (honce : chain.SignsOnce i) :
    b.prev = b'.prev := by
  have hs := hr.good.inv.shape
  have hs' := hr'.good.inv.shape
  obtain ⟨hsource, hheight, -⟩ := sameBlock_ident hs hs' hb hb' hne
  obtain ⟨p, P, hp, hP, hPh, hPi⟩ := (hs.received hb hne hstate).prev
  obtain ⟨q, Q, hq, hQ, hQh, hQi⟩ := (hs'.received hb' hne hstate').prev
  have hzero : P.height = Q.height := by omega
  rw [hp, hq]
  by_cases hproot : p = chain.root_hash
  · rw [hproot, hs.root, Option.some.injEq] at hP
    rw [← hP] at hzero
    by_cases hqroot : q = chain.root_hash
    · rw [hproot, hqroot]
    · obtain ⟨-, -, hpos, -⟩ := hs'.ident hQ hqroot
      change 0 = Q.height at hzero
      omega
  · obtain ⟨j, hj, hpos, hphash⟩ := hs.ident hP hproot
    have hqroot : q ≠ chain.root_hash := by
      rintro rfl
      rw [hs'.root, Option.some.injEq] at hQ
      rw [← hQ] at hzero
      change P.height = 0 at hzero
      omega
    obtain ⟨l, hl, -, hqhash⟩ := hs'.ident hQ hqroot
    have hPsource := (hPi.resolve_left hproot).trans hi
    have hQsource := (hQi.resolve_left hqroot).trans (hsource.symm.trans hi)
    obtain rfl : j = i := Option.some.inj (hj.symm.trans hPsource)
    obtain rfl : l = j := Option.some.inj (hl.symm.trans hQsource)
    have hsig := hr.signed p P l hP hj
    have hsig' := hr'.signed q Q l hQ hl
    rw [← hzero] at hsig'
    rw [hphash, hqhash, ← hzero, honce _ _ _ _ _ hsig hsig']

theorem prevs_eq (hdel : s.is_delivered h = true) (hdel' : s'.is_delivered h = true)
    (hsource : h ≠ chain.root_hash → ∃ b, s.blocks h = some b ∧ b.source_id = some i) (honce : chain.SignsOnce i) (k : ℕ) :
    s.prevs k h = s'.prevs k h := by
  have hs := hr.good.inv
  have hs' := hr'.good.inv
  induction k generalizing h with
  | zero => rfl
  | succ k ih =>
    obtain ⟨b, hb, hstate⟩ := is_delivered_iff.1 hdel
    obtain ⟨b', hb', hstate'⟩ := is_delivered_iff.1 hdel'
    rw [prevs, prevs, hb, hb', bind_some, bind_some]
    by_cases hne : h = chain.root_hash
    · rw [hne, hs.shape.root, Option.some.injEq] at hb
      rw [hne, hs'.shape.root, Option.some.injEq] at hb'
      rw [← hb, ← hb']
      rfl
    obtain ⟨c, hc, hi⟩ := hsource hne
    obtain rfl : b = c := Option.some.inj (hb.symm.trans hc)
    rw [← prev_eq hr hr' hb hb' hne (by rw [hstate]; exact fun h => (by cases h)) (by rw [hstate']; exact fun h => (by cases h)) hi honce]
    obtain ⟨p, P, hp, hP, -, hPi⟩ := (hs.shape.received hb hne (by rw [hstate]; exact fun h => (by cases h))).prev
    have heq := prev_eq hr hr' hb hb' hne (by rw [hstate]; exact fun h => (by cases h)) (by rw [hstate']; exact fun h => (by cases h)) hi honce
    have hmem : ∀ {c : ReceivedBlock n Payload}, c.prev = some p → p ∈ c.parents := by
      intro c hcp
      rw [ReceivedBlock.parents, hcp]
      exact List.mem_append_left _ (List.mem_singleton_self _)
    rw [hp, bind_some, bind_some]
    refine ih (parents_delivered hs.shape hs.links hb hstate p (hmem hp))
      (parents_delivered hs'.shape hs'.links hb' hstate' p (hmem (heq.symm.trans hp))) fun hproot => ⟨P, hP, ?_⟩
    exact (hPi.resolve_left hproot).trans hi

theorem sameBlock_of_delivered (hb : s.blocks h = some b) (hb' : s'.blocks h = some b')
    (hstate : b.state = .delivered) (hstate' : b'.state = .delivered) : SameBlock chain s s' h b b' := by
  have hs := hr.good.inv.shape
  have hs' := hr'.good.inv.shape
  by_cases hne : h = chain.root_hash
  · have hroot : b = b' := by
      rw [hne, hs.root, Option.some.injEq] at hb
      rw [hne, hs'.root, Option.some.injEq] at hb'
      exact hb.symm.trans hb'
    rw [← hroot]
    refine ⟨rfl, rfl, rfl, fun i hi _ k => ?_⟩
    rw [hne, hs.root, Option.some.injEq] at hb
    rw [← hb] at hi
    cases hi
  · obtain ⟨hsource, hheight, hdata⟩ := sameBlock_ident hs hs' hb hb' hne
    obtain ⟨p, hp, -, hphash⟩ := (hs.received hb hne (by rw [hstate]; exact fun h => (by cases h))).payload
    obtain ⟨p', hp', -, hphash'⟩ := (hs'.received hb' hne (by rw [hstate']; exact fun h => (by cases h))).payload
    refine ⟨hsource, hheight, ?_, fun i hi honce k => ?_⟩
    · rw [hp, hp', chain.payload_hash_inj (hphash.trans (hdata.trans hphash'.symm))]
    · exact prevs_eq hr hr' (is_delivered_iff.2 ⟨b, hb, hstate⟩) (is_delivered_iff.2 ⟨b', hb', hstate'⟩) (fun _ => ⟨b, hb, hi⟩) honce k

end

/-- What a hash fixes: of two messages that receivers of a chain accept, and of two blocks that they delivered. -/
theorem hash_fixes (hr : Reached chain may s) (hr' : Reached chain may' s') :
    (∀ block block' payload payload', Accepts chain s block payload → Accepts chain s' block' payload' →
      chain.block_hash block payload = chain.block_hash block' payload' → SameHash chain block block' payload payload') ∧
    ∀ h b b', s.blocks h = some b → s'.blocks h = some b' → b.state = .delivered → b'.state = .delivered → SameBlock chain s s' h b b' :=
  ⟨fun _ _ _ _ ha ha' heq => sameHash_of_accepts hr hr' ha ha' heq,
    fun _ _ _ hb hb' hstate hstate' => sameBlock_of_delivered hr hr' hb hb' hstate hstate'⟩

/-- Source `i` sends a block without dependencies. -/
def lone_run (i : ℕ) : List (Act Message) :=
  [.create_block (lone i) (.text i), .written ((numbered 3 5).id_hash ⟨0, i + 1, 1, 2 * i⟩), .run_next]

/-- Two receivers that got the block of source 2 in different runs agree on it. -/
theorem hash_fixes_lone : ∃ s s' : Receiver 3 Message, ∃ b b', s.blocks ((numbered 3 5).id_hash ⟨0, 3, 1, 4⟩) = some b ∧ b.state = .delivered ∧
    SameBlock (numbered 3 5) s s' ((numbered 3 5).id_hash ⟨0, 3, 1, 4⟩) b b' := by
  obtain ⟨s, hs, hP⟩ := reached_of_run (numbered 3 5) 0 false (lone_run 2)
    (P := fun s => s.is_delivered ((numbered 3 5).id_hash ⟨0, 3, 1, 4⟩)) (by decide +kernel)
  obtain ⟨s', hs', hP'⟩ := reached_of_run (numbered 3 5) 0 false plain_run
    (P := fun s => s.is_delivered ((numbered 3 5).id_hash ⟨0, 3, 1, 4⟩)) (by decide +kernel)
  obtain ⟨b, hb, hstate⟩ := is_delivered_iff.1 hP
  obtain ⟨b', hb', hstate'⟩ := is_delivered_iff.1 hP'
  exact ⟨s, s', b, b', hb, hstate, (hash_fixes hs hs').2 _ b b' hb hb' hstate hstate'⟩

/-- The first block of source 1 with and without a dependency: both messages are accepted under one hash, and two
receivers that deliver it disagree on its ancestors. -/
theorem same_hash_other_deps : ∃ s s' : Receiver 3 Message, Reached (numbered 3 5) (fun _ _ => True) s ∧
    Reached (numbered 3 5) (fun _ _ => True) s' ∧
    (∃ t block block' payload, Reached (numbered 3 5) (fun _ _ => True) t ∧ Accepts (numbered 3 5) t block payload ∧
      Accepts (numbered 3 5) t block' payload ∧
      (numbered 3 5).block_hash block payload = (numbered 3 5).block_hash block' payload ∧ block.data.deps ≠ block'.data.deps) ∧
    ∃ h a, s.is_delivered h = true ∧ s'.is_delivered h = true ∧ s'.Ancestor a h ∧ ¬ s.Ancestor a h := by
  obtain ⟨s, hs, hP⟩ := reached_of_run (numbered 3 5) 0 false (lone_run 1)
    (P := fun s => s.is_delivered ((numbered 3 5).id_hash ⟨0, 2, 1, 2⟩) ∧ s.blocks ((numbered 3 5).id_hash ⟨0, 3, 1, 4⟩) = none) (by decide +kernel)
  obtain ⟨s', hs', hP'⟩ := reached_of_run (numbered 3 5) 0 false plain_run
    (P := fun s => s.is_delivered ((numbered 3 5).id_hash ⟨0, 2, 1, 2⟩) ∧ (s.blocks ((numbered 3 5).id_hash ⟨0, 2, 1, 2⟩)).any fun b =>
      (numbered 3 5).id_hash ⟨0, 3, 1, 4⟩ ∈ b.parents) (by decide +kernel)
  rw [decide_eq_true_iff] at hP hP'
  refine ⟨s, s', hs, hs', ⟨create (numbered 3 5) 0 false, lone 1, crossed 1 2, .text 1, .start ⟨0, false, rfl⟩, ⟨rfl, by decide +kernel⟩,
    ⟨rfl, by decide +kernel⟩, by decide +kernel, by decide +kernel⟩, (numbered 3 5).id_hash ⟨0, 2, 1, 2⟩, (numbered 3 5).id_hash ⟨0, 3, 1, 4⟩,
    hP.1, hP'.1, ?_, fun hancestor => ?_⟩
  · obtain ⟨b, hb, hmem⟩ := (any_eq_true _ _).1 hP'.2
    exact .single ⟨b, hb, of_decide_eq_true hmem⟩
  · -- an ancestor is known
    obtain ⟨b, hb, -⟩ := is_delivered_iff.1 hP.1
    have hknown := hs.good.inv.before_known (by rw [hb]; rfl) hancestor.to_reflTransGen
    rw [hP.2] at hknown
    cases hknown

end Receiver

end Ton.Catchain
