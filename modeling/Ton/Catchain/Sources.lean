import Ton.Catchain.Invariant
/-!
# Blaming sources

What `blame`, `on_found_fork_proof`, `on_new_block` and `block_delivered` do to the
tables of the sources. They leave the blocks alone, so only `Tables` is to be shown.
-/

namespace Ton.Catchain

open Result

variable {n : ℕ} {Payload : Type} {chain : Chain n Payload} {ex : Hash → Prop} {bad : Crash → Prop}

namespace Receiver

variable {s s' : Receiver n Payload} {i j : Fin n} {h hash : Hash} {b : ReceivedBlock n Payload}

/-- The source after it was blamed, whatever else was noted. -/
structure Blamed (S S' : Source) : Prop where
  blamed : S'.blamed = true
  fork_ids : S'.fork_ids = S.fork_ids
  blamed_heights : S.blamed_heights = [] → S'.blamed_heights = []
  table : ∀ {k h}, S'.blocks k = some h → S.blocks k = some h
  delivered : S'.delivered_height = 0 ∨ (S'.blocks = S.blocks ∧ S'.delivered_height = S.delivered_height)

/-- Only one source changed, and it is blamed. -/
structure BlamedAt (i : Fin n) (s s' : Receiver n Payload) : Prop where
  frame : Frame s s'
  others : ∀ j, j ≠ i → s'.sources j = s.sources j
  source : Blamed (s.sources i) (s'.sources i)

theorem BlamedAt.trans {s'' : Receiver n Payload} (h : BlamedAt i s s') (h' : BlamedAt i s' s'') : BlamedAt i s s'' where
  frame := h.frame.trans h'.frame
  others j hj := (h'.others j hj).trans (h.others j hj)
  source := {
    blamed := h'.source.blamed
    fork_ids := h'.source.fork_ids.trans h.source.fork_ids
    blamed_heights := h'.source.blamed_heights ∘ h.source.blamed_heights
    table := h.source.table ∘ h'.source.table
    delivered := by
      rcases h'.source.delivered with h0 | ⟨hblocks, hheight⟩
      · exact .inl h0
      · rcases h.source.delivered with h0 | ⟨hblocks', hheight'⟩
        · exact .inl (hheight.trans h0)
        · exact .inr ⟨hblocks.trans hblocks', hheight.trans hheight'⟩ }

theorem Tables.blamedAt (ht : Tables s) (h : BlamedAt i s s') : Tables s' where
  found {j k hash} hk := by
    rw [h.frame.blocks]
    rcases eq_or_ne j i with rfl | hj
    · exact ht.found (h.source.table hk)
    · rw [h.others j hj] at hk
      exact ht.found hk
  complete {hash b j} hb hj hblamed := by
    rw [h.frame.blocks] at hb
    rcases eq_or_ne j i with rfl | hne
    · rw [h.source.blamed] at hblamed
      cases hblamed
    · rw [h.others j hne] at hblamed ⊢
      exact ht.complete hb hj hblamed
  delivered {j k} hk hle := by
    simp only [h.frame.is_delivered]
    rcases eq_or_ne j i with rfl | hj
    · rcases h.source.delivered with h0 | ⟨hblocks, hheight⟩
      · omega
      · rw [hblocks]
        exact ht.delivered hk (hheight ▸ hle)
    · rw [h.others j hj] at hle ⊢
      exact ht.delivered hk hle
  ill {hash b j} hb hill hj := h.frame.blamed j (ht.ill (h.frame.blocks ▸ hb) hill hj)
  fork_proof {j} hj := by
    rcases eq_or_ne j i with rfl | hne
    · exact h.source.blamed
    · rw [h.others j hne] at hj ⊢
      exact ht.fork_proof hj
  blamed_heights j := by
    rcases eq_or_ne j i with rfl | hne
    · exact h.source.blamed_heights (ht.blamed_heights j)
    · rw [h.others j hne]
      exact ht.blamed_heights j

theorem Inv.blamedAt (hs : Inv chain ex s) (h : BlamedAt i s s') : Inv chain ex s' := hs.frame h.frame (hs.tables.blamedAt h)

/-! ## `modify_source` -/

@[simp] theorem modify_source_self (s : Receiver n Payload) (i : Fin n) (f : Source → Source) :
    (s.modify_source i f).sources i = f (s.sources i) := Function.update_self ..

theorem modify_source_of_ne (s : Receiver n Payload) (f : Source → Source) (hj : j ≠ i) : (s.modify_source i f).sources j = s.sources j :=
  Function.update_of_ne hj ..

theorem frame_modify_source (s : Receiver n Payload) (i : Fin n) {f : Source → Source} (hf : ∀ S, (f S).fork_ids = S.fork_ids)
    (hblamed : ∀ S, S.blamed = true → (f S).blamed = true) : Frame s (s.modify_source i f) where
  blocks := rfl
  keys := rfl
  to_run := rfl
  total_forks := rfl
  log := rfl
  local_idx := rfl
  last_sent_block := rfl
  fork_ids j := by
    rcases eq_or_ne j i with rfl | hj
    · rw [modify_source_self, hf]
    · rw [modify_source_of_ne s f hj]
  blamed j hj := by
    rcases eq_or_ne j i with rfl | hne
    · rw [modify_source_self]
      exact hblamed _ hj
    · rw [modify_source_of_ne s f hne]
      exact hj

/-! ## Blame -/

theorem blame_eq (s : Receiver n Payload) (h : (s.sources i).blamed = false) : s.blame i =
    { s.modify_source i fun S => { S with blamed := true, blocks := fun _ => none, delivered_height := 0 } with
      calls := s.calls ++ [.blame i] } := by
  rw [blame, if_neg (by rw [h]; exact Bool.false_ne_true)]
  rfl

theorem blame_blamedAt (s : Receiver n Payload) (i : Fin n) : BlamedAt i s (s.blame i) := by
  rcases h : (s.sources i).blamed with _ | _
  · rw [blame_eq s h]
    have hframe : Frame s (s.modify_source i fun S => { S with blamed := true, blocks := fun _ => none, delivered_height := 0 }) :=
      frame_modify_source s i (fun _ => rfl) (fun _ _ => rfl)
    refine ⟨⟨⟨rfl, rfl, ?_, rfl, rfl, hframe.fork_ids, hframe.blamed⟩, rfl, rfl⟩, fun j hj => ?_, ?_⟩
    · rw [delivered_log, List.filterMap_append]
      exact List.append_nil _
    · dsimp only
      rw [modify_source_of_ne s _ hj]
    · dsimp only
      rw [modify_source_self]
      exact ⟨rfl, rfl, id, fun hk => (by cases hk), .inl rfl⟩
  · rw [blame, if_pos h]
    exact ⟨.refl s, fun _ _ => rfl, h, rfl, id, id, .inr ⟨rfl, rfl⟩⟩

@[simp] theorem note_blamed_nil (fork height : ℕ) : note_blamed [] fork height = [] := rfl

section
variable (s : Receiver n Payload) (i : Fin n)

theorem noted_blamedAt (fork height : ℕ) (hi : (s.sources i).blamed = true) :
    BlamedAt i s (s.modify_source i fun S => { S with blamed_heights := note_blamed S.blamed_heights fork height }) := by
  refine ⟨frame_modify_source _ i (fun _ => rfl) (fun _ => id), fun j hj => modify_source_of_ne _ _ hj, ?_⟩
  rw [modify_source_self]
  refine ⟨hi, rfl, fun hnil => ?_, id, .inr ⟨rfl, rfl⟩⟩
  dsimp only
  rw [hnil, note_blamed_nil]

theorem blame_at_blamedAt (fork height : ℕ) : BlamedAt i s (s.blame_at i fork height) := by
  have hblame := blame_blamedAt s i
  exact hblame.trans (noted_blamedAt _ i fork height hblame.source.blamed)

theorem on_found_fork_proof_blame (left right : Dep) :
    BlamedAt i s ((s.on_found_fork_proof i left right).blame i) := by
  unfold on_found_fork_proof
  split_ifs with h
  · exact blame_blamedAt s i
  · have hblame := blame_blamedAt (s.modify_source i fun S => { S with fork_proof := some (left, right) }) i
    have hframe : Frame s (s.modify_source i fun S => { S with fork_proof := some (left, right) }) :=
      frame_modify_source s i (fun _ => rfl) (fun _ => id)
    refine ⟨hframe.trans hblame.frame, fun j hj => ?_, ?_⟩
    · rw [hblame.others j hj, modify_source_of_ne s _ hj]
    · have hsource := hblame.source
      rw [modify_source_self] at hsource
      exact ⟨hsource.blamed, hsource.fork_ids, hsource.blamed_heights, hsource.table, hsource.delivered⟩

theorem on_found_fork_proof_blame_at (left right : Dep) (fork height : ℕ) :
    BlamedAt i s ((s.on_found_fork_proof i left right).blame_at i fork height) := by
  have hblame := on_found_fork_proof_blame s i left right
  exact hblame.trans (noted_blamedAt _ i fork height hblame.source.blamed)

end

/-! ## What a new block shows of its source -/

/-- Whether a block can be sent, or it is granted that it cannot. -/
def CanSend (bad : Crash → Prop) (s : Receiver n Payload) : Prop :=
  s.active_send = true ∨ (s.sources s.local_idx).blamed = false ∨ bad .self_blamed

theorem CanSend.always : CanSend (fun _ => True) s := .inr (.inr trivial)

theorem add_block_fork_spec (payload : Payload) (hs : Shape chain s) (hsend : CanSend bad s) :
    Ends bad (s.add_block chain payload []) fun s' => Frame s s' ∧ s'.sources = s.sources ∧ s'.active_send = true := by
  unfold add_block
  by_cases hactive : s.active_send = true
  · rw [if_pos hactive]
    exact .ok ⟨⟨⟨rfl, rfl, rfl, rfl, rfl, fun _ => rfl, fun _ => id⟩, rfl, rfl⟩, rfl, hactive⟩
  rw [if_neg hactive]
  by_cases hblamed : (s.sources s.local_idx).blamed = true
  · rw [check_neg (not_not.2 hblamed)]
    refine .error ?_
    rcases hsend with h | h | h
    · exact absurd h hactive
    · rw [h] at hblamed
      cases hblamed
    · exact h
  · obtain ⟨prev, hprev⟩ := Option.isSome_iff_exists.1 hs.last_sent
    rw [check_pos hblamed, ok_bind, deref_eq hprev, ok_bind]
    exact .ok ⟨⟨⟨rfl, rfl, rfl, rfl, rfl, fun _ => rfl, fun _ => id⟩, rfl, rfl⟩, rfl, rfl⟩

/-- What is noted of a new block: nothing when a fork of its source is known, its place in
the table, or a fork. -/
inductive Noted (s : Receiver n Payload) (i : Fin n) (hash : Hash) (height : ℕ) (s' : Receiver n Payload) : Prop
  | known (hi : (s.sources i).blamed = true) (heq : s' = s)
  | new (hfree : (s.sources i).blocks height = none)
      (heq : s' = s.modify_source i fun S => { S with blocks := Function.update S.blocks height (some hash) })
  | fork (other : Hash) (b : ReceivedBlock n Payload) (hother : s.blocks other = some b) (hne : hash ≠ other) (hi : b.source_id = some i)
      (hheight : b.height = height) (h : BlamedAt i s s')

theorem Noted.frame {height : ℕ} (h : Noted s i hash height s') : Frame s s' := by
  rcases h with ⟨-, rfl⟩ | ⟨-, rfl⟩ | ⟨-, -, -, -, -, -, h⟩
  · exact .refl _
  · exact frame_modify_source s i (fun _ => rfl) (fun _ => id)
  · exact h.frame

theorem on_new_block_spec (hs : Shape chain s) (ht : Tables s) (hsend : CanSend bad s) (hi : b.source_id = some i)
    (hnew : s.blocks hash = none) :
    Ends bad (s.on_new_block chain i hash b) fun s' => Noted s i hash b.height s' ∧ CanSend bad s' := by
  unfold on_new_block
  by_cases hproof : (s.sources i).fork_proof.isSome = true
  · rw [if_pos hproof]
    exact .ok ⟨.known (ht.fork_proof hproof) rfl, hsend⟩
  rw [if_neg hproof, check_pos hi, ok_bind]
  cases hother : (s.sources i).blocks b.height with
  | none =>
    refine .ok ⟨.new hother rfl, ?_⟩
    rcases hsend with h | h | h
    · exact .inl h
    · refine .inr (.inl ?_)
      rcases eq_or_ne s.local_idx i with hl | hl
      · rw [hl] at h
        rw [← h]
        change ((s.modify_source i _).sources s.local_idx).blamed = _
        rw [hl, modify_source_self]
      · rw [← h]
        change ((s.modify_source i _).sources s.local_idx).blamed = _
        rw [modify_source_of_ne s _ hl]
    · exact .inr (.inr h)
  | some other =>
    obtain ⟨b', hb', hi', hheight'⟩ := ht.found hother
    have hne : hash ≠ other := by
      rintro rfl
      rw [hnew] at hb'
      cases hb'
    dsimp only
    rw [check_pos hne, ok_bind, deref_eq hb', ok_bind]
    -- the proof is noted and sent before the source is blamed
    have hfound : s.on_found_fork_proof i b.export_tl_dep b'.export_tl_dep =
        s.modify_source i fun S => { S with fork_proof := some (b.export_tl_dep, b'.export_tl_dep) } := by
      rw [on_found_fork_proof, if_neg hproof]
    have hframe : Frame s (s.on_found_fork_proof i b.export_tl_dep b'.export_tl_dep) := by
      rw [hfound]
      exact frame_modify_source s i (fun _ => rfl) (fun _ => id)
    have hsend' : CanSend bad (s.on_found_fork_proof i b.export_tl_dep b'.export_tl_dep) := by
      rw [hfound]
      rcases hsend with h | h | h
      · exact .inl h
      · refine .inr (.inl ?_)
        change ((s.modify_source i _).sources s.local_idx).blamed = _
        rcases eq_or_ne s.local_idx i with hl | hl
        · rw [hl, modify_source_self, ← hl]
          exact h
        · rw [modify_source_of_ne s _ hl]
          exact h
      · exact .inr (.inr h)
    refine (add_block_fork_spec (chain.serialize_fork b.export_tl_dep b'.export_tl_dep) (hs.frame hframe) hsend').bind ?_
    rintro s' ⟨hframe', hsources, hactive⟩
    have hblame := blame_blamedAt s' i
    refine .ok ⟨.fork other b' hb' hne hi' hheight' ⟨(hframe.trans hframe').trans hblame.frame, fun j hj => ?_, ?_⟩, .inl ?_⟩
    · rw [hblame.others j hj, hsources, hfound, modify_source_of_ne s _ hj]
    · have hsource := hblame.source
      rw [hsources, hfound, modify_source_self] at hsource
      exact ⟨hsource.blamed, hsource.fork_ids, hsource.blamed_heights, hsource.table, hsource.delivered⟩
    · rw [blame]
      split_ifs
      · exact hactive
      · exact hactive

/-! ## A delivered block -/

theorem delivered_upto_spec (s : Receiver n Payload) (blocks : ℕ → Option Hash) (fuel height : ℕ) :
    ∀ k, height < k → k ≤ delivered_upto s blocks fuel height → ∃ h, blocks k = some h ∧ s.is_delivered h = true := by
  induction fuel generalizing height with
  | zero =>
    intro k hlt hle
    rw [delivered_upto] at hle
    omega
  | succ fuel ih =>
    intro k hlt hle
    rw [delivered_upto] at hle
    cases hnext : (blocks (height + 1)).bind s.blocks with
    | none =>
      rw [hnext] at hle
      dsimp only at hle
      omega
    | some b =>
      rw [hnext] at hle
      dsimp only at hle
      split_ifs at hle with hb
      · rcases Nat.lt_or_ge (height + 1) k with hk | hk
        · exact ih (height + 1) k hk hle
        · obtain rfl : k = height + 1 := by omega
          obtain ⟨h, hh, hhb⟩ := Option.bind_eq_some_iff.1 hnext
          refine ⟨h, hh, ?_⟩
          rw [is_delivered, hhb]
          exact hb
      · omega

theorem block_delivered_frame (s : Receiver n Payload) (i : Fin n) (height : ℕ) : Frame s (s.block_delivered i height) := by
  unfold block_delivered
  split_ifs
  · exact .refl s
  · exact frame_modify_source s i (fun _ => rfl) (fun _ => id)

theorem block_delivered_tables (ht : Tables s) (hb : s.blocks h = some b) (hi : b.source_id = some i) (hstate : b.state = .delivered) :
    Tables (s.block_delivered i b.height) := by
  unfold block_delivered
  split_ifs with hblamed
  · exact ht
  have hself := ht.complete hb hi (by simpa using hblamed)
  have hframe : Frame s (s.modify_source i fun S => { S with
      delivered_height := delivered_upto s S.blocks s.keys.length (if S.delivered_height + 1 = b.height then b.height else S.delivered_height) }) :=
    frame_modify_source s i (fun _ => rfl) (fun _ => id)
  refine ⟨?_, ?_, ?_, ?_, ?_, ?_⟩
  · intro j k hash hk
    rcases eq_or_ne j i with rfl | hj
    · rw [modify_source_self] at hk
      exact ht.found hk
    · rw [modify_source_of_ne s _ hj] at hk
      exact ht.found hk
  · intro hash c j hc hj hfree
    rcases eq_or_ne j i with rfl | hne
    · rw [modify_source_self] at hfree ⊢
      exact ht.complete hc hj hfree
    · rw [modify_source_of_ne s _ hne] at hfree ⊢
      exact ht.complete hc hj hfree
  · intro j k hk hle
    simp only [hframe.is_delivered]
    rcases eq_or_ne j i with rfl | hj
    · rw [modify_source_self] at hle ⊢
      dsimp only at hle ⊢
      -- up to the old height, the block itself, or passed by the loop
      by_cases hlow : k ≤ (s.sources j).delivered_height
      · exact ht.delivered hk hlow
      split_ifs at hle with hnext
      · rcases Nat.lt_or_ge b.height k with hlt | hge
        · exact delivered_upto_spec s _ _ _ k hlt hle
        · obtain rfl : k = b.height := by omega
          exact ⟨h, hself, is_delivered_iff.2 ⟨b, hb, hstate⟩⟩
      · exact delivered_upto_spec s _ _ _ k (by omega) hle
    · rw [modify_source_of_ne s _ hj] at hle ⊢
      exact ht.delivered hk hle
  · intro hash c j hc hill hj
    exact hframe.blamed j (ht.ill hc hill hj)
  · intro j hj
    rcases eq_or_ne j i with rfl | hne
    · rw [modify_source_self] at hj ⊢
      exact ht.fork_proof hj
    · rw [modify_source_of_ne s _ hne] at hj ⊢
      exact ht.fork_proof hj
  · intro j
    rcases eq_or_ne j i with rfl | hne
    · rw [modify_source_self]
      exact ht.blamed_heights j
    · rw [modify_source_of_ne s _ hne]
      exact ht.blamed_heights j

end Receiver

end Ton.Catchain
