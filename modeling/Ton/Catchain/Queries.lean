import Ton.Catchain.Agreement
/-!
# Answering queries

A block is exported when it is initialized; then its previous block, its
dependencies and its payload are there. `getDifference` sends delivered blocks only,
so it never fails; `getBlocks` and `getBlockHistory` do not look at the state of a
block before they export it.
-/

namespace Ton.Catchain
open Result List

variable {n : ℕ} {Payload : Type} {chain : Chain n Payload} {bad : Crash → Prop}

namespace Receiver

variable {s : Receiver n Payload} {i : Fin n} {h hash : Hash} {b : ReceivedBlock n Payload}

/-- No value, but also no way to fail. -/
abbrev Succeeds {α : Type} (x : Exc α) : Prop := Ends (fun _ => False) x fun _ => True

theorem Succeeds.bind {α β : Type} {x : Exc α} {f : α → Exc β} (hx : Succeeds x) (hf : ∀ a, Succeeds (f a)) : Succeeds (x >>= f) :=
  Ends.bind hx fun a _ => hf a

theorem mapM_succeeds {α β : Type} {f : α → Exc β} (l : List α) (hf : ∀ a ∈ l, Succeeds (f a)) : Succeeds (l.mapM f) := by
  induction l with
  | nil => exact .ok trivial
  | cons a l ih =>
    rw [mapM_cons]
    exact (hf a (mem_cons_self ..)).bind fun b => (ih fun a ha => hf a (mem_cons_of_mem _ ha)).bind fun _ => .ok trivial

/-! ## Exporting a block -/

section
variable (hs : Shape chain s) (hb : s.blocks h = some b) (hinit : b.initialized = true) (hpos : 0 < b.height)
include hs hb hinit hpos

theorem export_tl_succeeds :
    Succeeds (s.export_tl chain b) := by
  have hne : h ≠ chain.root_hash := by
    rintro rfl
    rw [hs.root, Option.some.injEq] at hb
    rw [← hb] at hpos
    exact absurd hpos (lt_irrefl 0)
  have hstate : b.state ≠ .none := by
    intro hnone
    rw [ReceivedBlock.initialized, hnone] at hinit
    cases hinit
  have hr := hs.received hb hne hstate
  obtain ⟨p, P, hp, hP, -⟩ := hr.prev
  unfold export_tl
  rw [check_pos hinit, ok_bind, check_pos hpos, ok_bind, hp, Option.bind_some, hP]
  refine (mapM_succeeds b.block_deps fun d hd => ?_).bind fun _ => .ok trivial
  obtain ⟨D, hD, -⟩ := hr.deps d hd
  rw [deref_eq hD]
  exact .ok trivial

theorem block_update_succeeds :
    Succeeds (s.block_update chain b) := by
  unfold block_update
  refine (export_tl_succeeds hs hb hinit hpos).bind fun _ => ?_
  have hne : h ≠ chain.root_hash := by
    rintro rfl
    rw [hs.root, Option.some.injEq] at hb
    rw [← hb] at hpos
    exact absurd hpos (lt_irrefl 0)
  have hstate : b.state ≠ .none := by
    intro hnone
    rw [ReceivedBlock.initialized, hnone] at hinit
    cases hinit
  obtain ⟨payload, hp, hsize, -⟩ := (hs.received hb hne hstate).payload
  rw [check_pos]
  · exact .ok trivial
  · rw [hp, Option.any_some, decide_eq_true_iff]
    exact hsize

end

/-! ## The queries -/

theorem getBlock_succeeds (hs : Shape chain s) (hash : Hash) : Succeeds (s.getBlock chain hash) := by
  unfold getBlock
  cases hb : s.blocks hash with
  | none => exact .ok trivial
  | some b =>
    dsimp only
    split_ifs with hskip
    · exact .ok trivial
    · obtain ⟨hpos, hinit⟩ := not_or.1 hskip
      exact (export_tl_succeeds hs hb (by simpa using hinit) (Nat.pos_of_ne_zero hpos)).bind fun _ => .ok trivial

/-- Every block asked for that is known, but for the root block, is initialized. -/
def AllInitialized (s : Receiver n Payload) (hashes : List Hash) : Prop :=
  ∀ hash ∈ hashes, ∀ b, s.blocks hash = some b → 0 < b.height → b.initialized = true

theorem send_blocks_succeeds (hs : Shape chain s) (hashes : List Hash) (hall : AllInitialized s hashes) : Succeeds (s.send_blocks chain hashes) := by
  induction hashes with
  | nil => exact .ok trivial
  | cons hash hashes ih =>
    have ih := ih fun h hh => hall h (mem_cons_of_mem _ hh)
    unfold send_blocks
    cases hb : s.blocks hash with
    | none => exact ih
    | some b =>
      dsimp only
      split_ifs with hpos
      · exact (block_update_succeeds hs hb (hall hash (mem_cons_self ..) b hb hpos) hpos).bind fun _ => ih.bind fun _ => .ok trivial
      · exact ih

/-- The blocks that are walked over, from one back to its previous ones, are initialized. -/
def WalkInitialized (s : Receiver n Payload) (stop_if : List Hash) : ℕ → Hash → Prop
  | 0, _ => True
  | k + 1, hash => hash ∈ stop_if ∨ ∃ b, s.blocks hash = some b ∧ b.initialized = true ∧ ∀ p, b.prev = some p → WalkInitialized s stop_if k p

theorem send_history_succeeds (hs : Shape chain s) (stop_if : List Hash) (k : ℕ) (hb : s.blocks hash = some b) (hk : k ≤ b.height)
    (hwalk : WalkInitialized s stop_if k hash) : Succeeds (s.send_history chain stop_if k (some hash)) := by
  induction k generalizing hash b with
  | zero => exact .ok trivial
  | succ k ih =>
    unfold send_history
    dsimp only
    split_ifs with hstop
    · exact .ok trivial
    obtain ⟨c, hc, hinit, hprev⟩ := hwalk.resolve_left hstop
    obtain rfl : b = c := Option.some.inj (hb.symm.trans hc)
    rw [deref_eq hb, ok_bind]
    refine (block_update_succeeds hs hb hinit (by omega)).bind fun _ => Succeeds.bind ?_ fun _ => .ok trivial
    have hne : hash ≠ chain.root_hash := by
      rintro rfl
      rw [hs.root, Option.some.injEq] at hb
      rw [← hb] at hk
      exact absurd hk (Nat.not_succ_le_zero k)
    have hstate : b.state ≠ .none := by
      intro hnone
      rw [ReceivedBlock.initialized, hnone] at hinit
      cases hinit
    obtain ⟨p, P, hp, hP, hheight, -⟩ := (hs.received hb hne hstate).prev
    rw [hp]
    exact ih hP (by omega) (hprev p hp)

/-- How many blocks `getBlockHistory` walks over at most. -/
def history_length (height : ℤ) (b : ReceivedBlock n Payload) : ℕ := min (min height 100).toNat b.height

theorem getBlockHistory_succeeds (hs : Shape chain s) (hash : Hash) (height : ℤ) (stop_if : List Hash)
    (hwalk : height ≤ 0 ∨ ∀ b, s.blocks hash = some b → WalkInitialized s stop_if (history_length height b) hash) :
    Succeeds (s.getBlockHistory chain hash height stop_if) := by
  unfold getBlockHistory
  split_ifs with hheight
  · exact .ok trivial
  cases hb : s.blocks hash with
  | none => exact .ok trivial
  | some b => exact (send_history_succeeds hs stop_if _ hb (Nat.min_le_right ..) (hwalk.resolve_left hheight b hb)).bind fun _ => .ok trivial

theorem difference_limit_pos (vt my_vt : List ℤ) (fuel : ℕ) {l r : ℤ} (hl : 0 ≤ l) (hr : 0 < r) : 0 < difference_limit vt my_vt fuel l r := by
  induction fuel generalizing l r with
  | zero => exact hr
  | succ fuel ih =>
    unfold difference_limit
    dsimp only
    split_ifs with hlt
    · exact ih hl (by omega)
    · exact ih (by omega) hr
    · exact hr

/-- How many blocks of a source are delivered above the height in the query. A negative height asks for none. -/
def missing (s : Receiver n Payload) (rt : List ℤ) (i : Fin n) : ℕ :=
  if 0 ≤ rt.getD i 0 then (s.sources i).delivered_height - (rt.getD i 0).toNat else 0

/-- The delivered block of a source at a height, as it is exported. -/
def Sends (chain : Chain n Payload) (s : Receiver n Payload) (p : Fin n × ℕ) (update : Block × Option Payload) : Prop :=
  ∃ hash b, (s.sources p.1).blocks p.2 = some hash ∧ s.blocks hash = some b ∧ b.state = .delivered ∧ b.source_id = some p.1 ∧ b.height = p.2 ∧
    s.block_update chain b = .ok update

theorem send_range_sends (hs : Inv chain nothing s) (i : Fin n) (t height : ℕ) (ht : height + t ≤ (s.sources i).delivered_height) :
    ∃ sent, s.send_range chain i t height = .ok sent ∧ List.Forall₂ (Sends chain s) ((List.range' (height + 1) t).map (Prod.mk i)) sent := by
  induction t generalizing height with
  | zero => exact ⟨[], rfl, .nil⟩
  | succ t ih =>
    obtain ⟨hash, hhash, hdel⟩ := hs.tables.delivered (i := i) (k := height + 1) (Nat.succ_pos _) (by omega)
    obtain ⟨b, hb, hstate⟩ := is_delivered_iff.1 hdel
    obtain ⟨c, hc, hsource, hheight⟩ := hs.tables.found hhash
    obtain rfl : b = c := Option.some.inj (hb.symm.trans hc)
    have hinit : b.initialized = true := by
      rw [ReceivedBlock.initialized, hstate]
      rfl
    rcases block_update_succeeds hs.shape hb hinit (by omega) with ⟨update, hupdate, -⟩ | ⟨_, -, hbad⟩
    · obtain ⟨rest, hrest, hall⟩ := ih (height + 1) (by omega)
      refine ⟨update :: rest, ?_, .cons ⟨hash, b, hhash, hb, hstate, hsource, hheight, hupdate⟩ hall⟩
      rw [send_range, hhash]
      dsimp only
      rw [deref_eq hb, ok_bind, hupdate, ok_bind, hrest, ok_bind]
    · exact hbad.elim

theorem send_difference_sends (hs : Inv chain nothing s) (rt : List ℤ) {r : ℕ} (hr : 0 < r) (is : List (Fin n)) :
    ∃ sent, s.send_difference chain (fun i : Fin n => rt.getD i 0) r is = .ok sent ∧ List.Forall₂ (Sends chain s)
      (is.flatMap fun i : Fin n => (List.range' ((rt.getD i 0).toNat + 1) (min (s.missing rt i) r)).map (Prod.mk i)) sent := by
  induction is with
  | nil => exact ⟨[], rfl, .nil⟩
  | cons i is ih =>
    obtain ⟨rest, hrest, hall⟩ := ih
    rw [send_difference, flatMap_cons]
    split_ifs with hsend
    · have hm : s.missing rt i = (s.sources i).delivered_height - (rt.getD i 0).toNat := if_pos hsend.1
      obtain ⟨sent, hsent, hblocks⟩ := send_range_sends hs i (min (s.missing rt i) r) (rt.getD i 0).toNat (by omega)
      have ht : (min ((s.sources i).delivered_height - rt.getD i 0) r).toNat = min (s.missing rt i) r := by omega
      dsimp only
      rw [check_pos (by omega), ok_bind, ht, hsent, ok_bind, hrest, ok_bind]
      exact ⟨_, rfl, rel_append hblocks hall⟩
    · have hm : s.missing rt i = 0 := by
        unfold missing
        split_ifs <;> omega
      rw [hm, Nat.zero_min]
      exact ⟨rest, hrest, hall⟩

theorem getDifference_succeeds (hs : Inv chain nothing s) (rt : List ℤ) : Succeeds (s.getDifference chain rt) := by
  unfold getDifference
  split_ifs
  · exact .ok trivial
  dsimp only
  split
  · exact .ok trivial
  · have hr := difference_limit_pos rt ((List.finRange n).map fun i : Fin n =>
      if rt.getD (i : ℕ) 0 ≥ 0 then ((s.sources i).delivered_height : ℤ) else -1) 7
      (l := 0) (r := 101) (by omega) (by omega)
    obtain ⟨r, hcast⟩ := Int.eq_ofNat_of_zero_le hr.le
    rw [hcast] at hr ⊢
    obtain ⟨sent, hsent, -⟩ := send_difference_sends hs rt (r := r) (by omega) (List.finRange n)
    rw [check_pos hr, ok_bind, hsent]
    exact .ok trivial

/-- A query that is refused, or exports initialized blocks only. -/
def Query.Harmless (s : Receiver n Payload) : Query → Prop
  | .getBlock _ => True
  | .getBlocks blocks => blocks.length > 100 ∨ AllInitialized s blocks
  | .getBlockHistory block height stop_if =>
    height ≤ 0 ∨ ∀ b, s.blocks block = some b → WalkInitialized s stop_if (history_length height b) block
  | .getDifference _ => True

theorem process_query_succeeds (hs : Inv chain nothing s) (query : Query) (h : query.Harmless s) : Succeeds (s.process_query chain query) := by
  cases query with
  | getBlock block => exact getBlock_succeeds hs.shape block
  | getBlocks blocks =>
    unfold process_query getBlocks
    dsimp only
    split_ifs with hlong
    · exact .ok trivial
    · exact (send_blocks_succeeds hs.shape blocks (h.resolve_left hlong)).bind fun _ => .ok trivial
  | getBlockHistory block height stop_if => exact getBlockHistory_succeeds hs.shape block height stop_if h
  | getDifference rt => exact getDifference_succeeds hs rt

end Receiver

end Ton.Catchain
