import Ton.Rldp2.Connection
/-!
# One part over a channel

A sender and a receiver of one part, with a channel that loses, repeats, delays and reorders
what they send: a symbol or an acknowledgement that was ever sent may come at any time, any
number of times, or never. The receiver counts symbols from zero and the sender counts
packets from one, so packet `n` carries the symbol `n - 1`.
-/

namespace Ton.Rldp2
open SenderPackets Result List Nat

variable {Time : Type} [LT Time] [DecidableLT Time]

/-- Of the packets in flight before, the numbers of those that are not in flight after. -/
def marked_by (before after : List (Packet Time)) : List ℕ :=
  (before.filter fun p => p.is_in_flight && after.any fun q => decide (q.seqno = p.seqno) && !q.is_in_flight).map fun p => p.seqno

structure Channel (Time : Type) where
  sender : SenderPackets Time
  inbox : Inbox := {}
  /-- The symbols sent. -/
  symbols : List ℕ := []
  /-- The acknowledgements sent. -/
  confirms : List Ack := []
  /-- The packets acknowledged through a mask. -/
  marked : List ℕ := []

inductive Event (Time : Type) where
  | send (now : Time)
  | deliver (symbol : ℕ)
  | confirm
  | on_ack (ack : Ack) (loss_at : Time)

namespace Channel

def start (sent_at : Time) : Channel Time := { sender := .start sent_at }

def step (ch : Channel Time) : Event Time → Except Check (Channel Time)
  | .send now => do
    let sender ← RldpSender.on_send ch.sender ch.sender.next_seqno now
    .ok { ch with sender, symbols := dec32 ch.sender.next_seqno :: ch.symbols }
  | .deliver symbol => .ok { ch with inbox := ch.inbox.on_received symbol }
  | .confirm => .ok { ch with confirms := ch.inbox.ack :: ch.confirms }
  | .on_ack ack loss_at => do
    let (after, _) ← ch.sender.on_ack ack
    let (sender, _) ← RldpSender.on_ack ch.sender ack loss_at
    .ok { ch with sender, marked := marked_by ch.sender.packets after.packets ++ ch.marked }

omit [LT Time] [DecidableLT Time]

/-- Only what was sent comes, and the numbers last. -/
def Honest (ch : Channel Time) : Event Time → Prop
  | .send _ => ch.sender.CanSend
  | .deliver symbol => symbol ∈ ch.symbols
  | .confirm => True
  | .on_ack ack _ => ack ∈ ch.confirms

/-- Where a bit names the number of a packet in flight, the symbol before the one that it stands for has come too. -/
def Gapless (ch : Channel Time) (ack : Ack) : Prop :=
  ch.sender.Fresh ack → ∀ i < 32, ack.received_mask.getLsbD i = true → ∀ packet ∈ ch.sender.packets, packet.is_in_flight = true →
    packet.seqno + i = ack.max_seqno → ack.max_seqno - i - 1 ∈ ch.inbox.received

def May (ch : Channel Time) : Event Time → Prop
  | .on_ack ack loss_at => ch.Honest (.on_ack ack loss_at) ∧ ch.Gapless ack
  | e => ch.Honest e

/-! ## What an acknowledgement marks -/

/-- A map that keeps the numbers marks the packets that it takes out of the flight. -/
theorem mem_marked_by_map {last seqno : ℕ} {packets : List (Packet Time)} (h : Consecutive last packets) {f : Packet Time → Packet Time}
    (hf : ∀ packet, (f packet).seqno = packet.seqno) : seqno ∈ marked_by packets (packets.map f) ↔
      ∃ packet ∈ packets, packet.is_in_flight = true ∧ (f packet).is_in_flight = false ∧ packet.seqno = seqno := by
  unfold marked_by
  rw [mem_map]
  constructor
  · rintro ⟨packet, hp, rfl⟩
    obtain ⟨hp, hc⟩ := mem_filter.1 hp
    obtain ⟨hflying, hany⟩ := Bool.and_eq_true_iff.1 hc
    obtain ⟨q, hq, hqc⟩ := any_eq_true.1 hany
    obtain ⟨packet', hp', rfl⟩ := mem_map.1 hq
    simp only [hf, Bool.and_eq_true, decide_eq_true_eq, Bool.not_eq_true'] at hqc
    obtain ⟨k, hk⟩ := mem_iff_getElem?.1 hp
    obtain ⟨j, hj⟩ := mem_iff_getElem?.1 hp'
    have hkj := h.seqno_inj hk hj hqc.1.symm
    subst hkj
    rw [hk, Option.some.injEq] at hj
    subst hj
    exact ⟨packet, hp, hflying, hqc.2, rfl⟩
  · rintro ⟨packet, hp, hflying, hclear, rfl⟩
    refine ⟨packet, mem_filter.2 ⟨hp, ?_⟩, rfl⟩
    rw [hflying, Bool.true_and, any_eq_true]
    exact ⟨f packet, mem_map_of_mem hp, by simp [hf, hclear]⟩

theorem clear_seqno (max_seqno : ℕ) (is : List ℕ) (packet : Packet Time) : (clear max_seqno is packet).seqno = packet.seqno := by
  unfold clear
  split <;> rfl

theorem clear_flying {max_seqno : ℕ} {is : List ℕ} {packet : Packet Time} (hp : packet.is_in_flight = true) :
    (clear max_seqno is packet).is_in_flight = false ↔ Covers max_seqno is packet := by
  unfold clear
  split_ifs with hc
  · exact ⟨fun _ => hc, fun _ => rfl⟩
  · exact ⟨fun h0 => absurd (hp.symm.trans h0) (by decide), fun h0 => absurd h0 hc⟩

/-- The packets marked are those in flight that a bit of a fresh acknowledgement names. -/
theorem mem_marked {s s' : SenderPackets Time} {ack : Ack} {update : Update Time} (h : s.Consistent) (hs' : s.Acked ack s' update)
    {seqno : ℕ} : seqno ∈ marked_by s.packets s'.packets ↔ s.Fresh ack ∧ ∃ packet ∈ s.packets, packet.is_in_flight = true ∧
      Covers (s.clamp ack).max_seqno (bits_range ack.received_mask) packet ∧ packet.seqno = seqno := by
  rw [hs'.packets]
  split_ifs with hf
  · rw [mem_marked_by_map h.queue (clear_seqno _ _)]
    constructor
    · rintro ⟨packet, hp, hflying, hclear, he⟩
      exact ⟨hf, packet, hp, hflying, (clear_flying hflying).1 hclear, he⟩
    · rintro ⟨-, packet, hp, hflying, hcov, he⟩
      exact ⟨packet, hp, hflying, (clear_flying hflying).2 hcov, he⟩
  · constructor
    · intro hm
      rw [← map_id s.packets] at hm
      nth_rewrite 1 [map_id] at hm
      obtain ⟨packet, -, hflying, hclear, -⟩ := (mem_marked_by_map h.queue fun _ => rfl).1 hm
      exact absurd (hflying.symm.trans hclear) (by decide)
    · rintro ⟨h0, -⟩
      exact absurd h0 hf

/-! ## Every run -/

/-- What was sent, what came of it, and what the acknowledgements say. -/
structure Faithful (ch : Channel Time) : Prop where
  sender : ch.sender.Consistent
  inbox : ch.inbox.Tells
  sent : ∀ symbol ∈ ch.symbols, symbol < ch.sender.last_seqno
  came : ch.inbox.received ⊆ ch.symbols
  confirms : ∀ ack ∈ ch.confirms, ack.max_seqno ≤ ch.sender.last_seqno ∧ ack.received_count ≤ ch.inbox.accepted.length
  counted : ch.sender.received_count ≤ ch.inbox.accepted.length

variable {ch ch' : Channel Time}

theorem Faithful.start (sent_at : Time) : Faithful (start sent_at) where
  sender := .start sent_at
  inbox := .empty
  sent symbol hs := by cases hs
  came := Subset.refl _
  confirms ack ha := by cases ha
  counted := le_refl 0

theorem Faithful.max_le (h : ch.Faithful) : ch.inbox.ack.max_seqno ≤ ch.sender.last_seqno := by
  rcases h.inbox.largest with hm | ⟨-, h0⟩
  · exact (h.sent _ (h.came hm)).le
  · exact h0 ▸ Nat.zero_le _

/-- The symbols accepted are distinct and below the number of the last packet, so the count did not wrap. -/
theorem Faithful.accepted_lt (h : ch.Faithful) : ch.inbox.accepted.length < 2 ^ 32 := by
  have hsub : ch.inbox.accepted ⊆ List.range ch.sender.last_seqno := fun symbol hs =>
    mem_range.2 (h.sent symbol (h.came (h.inbox.sub hs)))
  have hle := (h.inbox.nodup.subperm hsub).length_le
  rw [length_range] at hle
  exact lt_of_le_of_lt hle h.sender.counts.bound

theorem Faithful.count_eq (h : ch.Faithful) : ch.inbox.ack.received_count = ch.inbox.accepted.length := by
  rw [h.inbox.count, mod_eq_of_lt h.accepted_lt]

theorem Faithful.clamp_eq (h : ch.Faithful) {ack : Ack} (ha : ack ∈ ch.confirms) : (ch.sender.clamp ack).max_seqno = ack.max_seqno :=
  min_eq_left (h.confirms ack ha).1

/-- What an acknowledgement of the receiver does to the sender: it counts no more than came, and what it marks has come exactly
when there is no gap. -/
theorem Faithful.on_ack (h : ch.Faithful) {ack : Ack} (ha : ack ∈ ch.confirms) : ∃ s' update, ch.sender.on_ack ack = .ok (s', update) ∧
    s'.received_count = ch.sender.received_count + update.new_received ∧ s'.received_count ≤ ch.inbox.accepted.length ∧
      ((∀ seqno ∈ marked_by ch.sender.packets s'.packets, seqno - 1 ∈ ch.inbox.received) ↔ ch.Gapless ack) := by
  obtain ⟨s', update, hs', -, hacked⟩ := on_ack_spec h.sender ack
  refine ⟨s', update, hs', ?_, ?_, ?_⟩
  · rw [hacked.received_count, hacked.new_received]
    omega
  · rw [hacked.received_count]
    exact Nat.max_le.2 ⟨h.counted, (min_le_left _ _).trans (h.confirms ack ha).2⟩
  · have hclamp := h.clamp_eq ha
    constructor
    · intro hmarks hfresh i hi hbit packet hp hflying hseq
      have hcov : Covers (ch.sender.clamp ack).max_seqno (bits_range ack.received_mask) packet := by
        rw [hclamp]
        exact ⟨by omega, mem_bits_range.2 (by rw [show ack.max_seqno - packet.seqno = i by omega]; exact ⟨hi, hbit⟩)⟩
      have hm := hmarks _ ((mem_marked h.sender hacked).2 ⟨hfresh, packet, hp, hflying, hcov, rfl⟩)
      rwa [show ack.max_seqno - i - 1 = packet.seqno - 1 by omega]
    · intro hgap seqno hm
      obtain ⟨hfresh, packet, hp, hflying, ⟨hle, hbit⟩, rfl⟩ := (mem_marked h.sender hacked).1 hm
      rw [hclamp] at hle hbit
      obtain ⟨hi, hbit⟩ := mem_bits_range.1 hbit
      have hr := hgap hfresh _ hi hbit packet hp hflying (by omega)
      rwa [show ack.max_seqno - (ack.max_seqno - packet.seqno) - 1 = packet.seqno - 1 by omega] at hr

theorem accepted_length_le (b : Inbox) (symbol : ℕ) : b.accepted.length ≤ (b.on_received symbol).accepted.length := by
  unfold Inbox.on_received
  dsimp only
  split
  · exact le_succ _
  · exact le_refl _

theorem Faithful.step [LT Time] [DecidableLT Time] (h : ch.Faithful) {e : Event Time} (he : ch.Honest e) (hs : ch.step e = .ok ch') :
    ch'.Faithful ∧ ch.inbox.received ⊆ ch'.inbox.received := by
  cases e with
  | send now =>
    have hroom : ch.sender.CanSend := he
    have hsend : RldpSender.on_send ch.sender ch.sender.next_seqno now =
        .ok (ch.sender.push { is_in_flight := true, sent_at := now, seqno := ch.sender.next_seqno }) := send_eq rfl
    simp only [Channel.step, hsend, ok_bind] at hs
    cases hs
    have hlast : dec32 ch.sender.next_seqno = ch.sender.last_seqno := by
      have hlt : ch.sender.last_seqno + 1 < 2 ^ 32 := hroom
      unfold dec32 next_seqno inc32
      omega
    refine ⟨⟨h.sender.push hroom rfl rfl, h.inbox, fun symbol hm => ?_, fun symbol hm => ?_, fun ack ha => ?_, h.counted⟩, Subset.refl _⟩
    · show symbol < (ch.sender.push _).last_seqno
      rw [push_last_seqno hroom]
      rcases mem_cons.1 hm with he | hm
      · rw [he, hlast]
        exact lt_succ_self _
      · exact (h.sent symbol hm).trans (lt_succ_self _)
    · exact mem_cons_of_mem _ (h.came hm)
    · obtain ⟨hmax, hcount⟩ := h.confirms ack ha
      refine ⟨?_, hcount⟩
      show ack.max_seqno ≤ (ch.sender.push _).last_seqno
      rw [push_last_seqno hroom]
      exact hmax.trans (le_succ _)
  | deliver symbol =>
    simp only [Channel.step] at hs
    cases hs
    have hle := accepted_length_le ch.inbox symbol
    refine ⟨⟨h.sender, h.inbox.on_received symbol, h.sent, ?_, fun ack ha => ?_, h.counted.trans hle⟩, subset_cons_self ..⟩
    · exact cons_subset.2 ⟨he, h.came⟩
    · exact ⟨(h.confirms ack ha).1, (h.confirms ack ha).2.trans hle⟩
  | confirm =>
    simp only [Channel.step] at hs
    cases hs
    refine ⟨⟨h.sender, h.inbox, h.sent, h.came, fun ack ha => ?_, h.counted⟩, Subset.refl _⟩
    rcases mem_cons.1 ha with rfl | ha
    · exact ⟨h.max_le, h.count_eq.le⟩
    · exact h.confirms ack ha
  | on_ack ack loss_at =>
    simp only [Channel.step] at hs
    obtain ⟨⟨after, update⟩, -, hs⟩ := bind_ok.1 hs
    obtain ⟨r, hr, hs⟩ := bind_ok.1 hs
    cases hs
    obtain ⟨hcons, hlast, hcount⟩ := RldpSender.on_ack_consistent h.sender hr
    have hle : r.1.received_count ≤ ch.inbox.accepted.length := by
      rw [hcount]
      exact Nat.max_le.2 ⟨h.counted, (min_le_left _ _).trans (h.confirms ack he).2⟩
    refine ⟨⟨hcons, h.inbox, ?_, h.came, ?_, hle⟩, Subset.refl _⟩
    · rw [hlast]
      exact h.sent
    · rw [hlast]
      exact h.confirms

/-- The packets marked carried symbols that came. -/
def Truthful (ch : Channel Time) : Prop := ∀ seqno ∈ ch.marked, seqno - 1 ∈ ch.inbox.received

theorem Truthful.step [LT Time] [DecidableLT Time] (ht : ch.Truthful) (h : ch.Faithful) {e : Event Time} (he : ch.May e)
    (hs : ch.step e = .ok ch') (hsub : ch.inbox.received ⊆ ch'.inbox.received) : ch'.Truthful := by
  have hold : ∀ seqno ∈ ch.marked, seqno - 1 ∈ ch'.inbox.received := fun seqno hm => hsub (ht seqno hm)
  cases e with
  | send now =>
    simp only [Channel.step] at hs
    obtain ⟨sender, -, hs⟩ := bind_ok.1 hs
    cases hs
    exact hold
  | deliver symbol =>
    simp only [Channel.step] at hs
    cases hs
    exact hold
  | confirm =>
    simp only [Channel.step] at hs
    cases hs
    exact hold
  | on_ack ack loss_at =>
    obtain ⟨hack, hgap⟩ := he
    obtain ⟨s', update, hs', -, -, hiff⟩ := h.on_ack hack
    simp only [Channel.step, hs', ok_bind] at hs
    obtain ⟨r, -, hs⟩ := bind_ok.1 hs
    cases hs
    intro seqno hm
    rcases mem_append.1 hm with hm | hm
    · exact hiff.2 hgap seqno hm
    · exact hold seqno hm

theorem May.honest {e : Event Time} (he : ch.May e) : ch.Honest e := by
  cases e with
  | on_ack ack loss_at => exact he.1
  | _ => exact he

/-- The receiver's half holds in every run; a packet marked carried a symbol that came as long as no acknowledgement meets a gap,
and the next acknowledgement marks such packets only exactly when it meets none. -/
theorem acks_truthful [LT Time] [DecidableLT Time] (h : Reach step May (fun ch : Channel Time => ∃ sent_at, ch = start sent_at) ch) :
    ch.inbox.Tells ∧ ch.inbox.ack.received_count = ch.inbox.accepted.length ∧ ch.sender.received_count ≤ ch.inbox.accepted.length ∧
      (∀ seqno ∈ ch.marked, seqno - 1 ∈ ch.inbox.received) ∧
      ∀ ack ∈ ch.confirms, ∃ s' update, ch.sender.on_ack ack = .ok (s', update) ∧
        ch.sender.received_count + update.new_received ≤ ch.inbox.accepted.length ∧
        ((∀ seqno ∈ marked_by ch.sender.packets s'.packets, seqno - 1 ∈ ch.inbox.received) ↔ ch.Gapless ack) := by
  have hinv : ch.Faithful ∧ ch.Truthful := by
    refine h.inv (I := fun ch => ch.Faithful ∧ ch.Truthful) ?_ fun ch e ch' hch he hs => ?_
    · rintro _ ⟨sent_at, rfl⟩
      exact ⟨.start sent_at, fun seqno hm => by cases hm⟩
    · obtain ⟨hf, hsub⟩ := hch.1.step he.honest hs
      exact ⟨hf, hch.2.step hch.1 he hs hsub⟩
  obtain ⟨hf, ht⟩ := hinv
  refine ⟨hf.inbox, hf.count_eq, hf.counted, ht, fun ack ha => ?_⟩
  obtain ⟨s', update, hs', hcount, hle, hiff⟩ := hf.on_ack ha
  exact ⟨s', update, hs', hcount ▸ hle, hiff⟩

/-- Symbol 0 is lost and symbol 1 comes: bit 0 of the acknowledgement is that of symbol 1, and the sender marks packet 1,
which carried symbol 0. -/
theorem lost_packet_marked : ¬∀ ch : Channel ℕ, Reach step Honest (fun ch : Channel ℕ => ∃ sent_at, ch = start sent_at) ch →
    ∀ seqno ∈ ch.marked, seqno - 1 ∈ ch.inbox.received := by
  intro hall
  have h0 : Reach step Honest (fun ch : Channel ℕ => ∃ sent_at, ch = start sent_at) (start 0) := .start ⟨0, rfl⟩
  have h1 := Reach.step h0 (show Honest _ (.send 0) from show 0 + 1 < 2 ^ 32 by decide) rfl
  have h2 := Reach.step h1 (show Honest _ (.send 0) from show 1 + 1 < 2 ^ 32 by decide) rfl
  have h3 := Reach.step h2 (show Honest _ (.deliver 1) from show 1 ∈ symbols _ by decide) rfl
  have h4 := Reach.step h3 (show Honest _ .confirm from trivial) rfl
  have h5 := Reach.step h4 (show Honest _ (.on_ack ⟨1, 1, 1⟩ 0) from show (⟨1, 1, 1⟩ : Ack) ∈ [⟨1, 1, 1⟩] by decide) rfl
  exact absurd (hall _ h5 1 (by decide)) (by decide)

/-- Both symbols come before the acknowledgement, and packet 1 is marked. -/
theorem acks_truthful_two_symbols : ∃ ch : Channel ℕ, ch.marked = [1] ∧ ch.inbox.ack = ⟨1, 3, 2⟩ ∧
    ∀ seqno ∈ ch.marked, seqno - 1 ∈ ch.inbox.received := by
  have h0 : Reach step May (fun ch : Channel ℕ => ∃ sent_at, ch = start sent_at) (start 0) := .start ⟨0, rfl⟩
  have h1 := Reach.step h0 (show May _ (.send 0) from show 0 + 1 < 2 ^ 32 by decide) rfl
  have h2 := Reach.step h1 (show May _ (.send 0) from show 1 + 1 < 2 ^ 32 by decide) rfl
  have h3 := Reach.step h2 (show May _ (.deliver 1) from show 1 ∈ symbols _ by decide) rfl
  have h4 := Reach.step h3 (show May _ (.deliver 0) from show 0 ∈ symbols _ by decide) rfl
  have h5 := Reach.step h4 (show May _ .confirm from trivial) rfl
  have h6 := Reach.step h5 (show May _ (.on_ack ⟨1, 3, 2⟩ 0) from ⟨show (⟨1, 3, 2⟩ : Ack) ∈ [⟨1, 3, 2⟩] by decide, by
    rintro - i - - packet - - -
    show 1 - i - 1 ∈ [0, 1]
    rw [show 1 - i - 1 = 0 by omega]
    decide⟩) rfl
  exact ⟨_, rfl, rfl, (acks_truthful h6).2.2.2.1⟩

end Channel

end Ton.Rldp2
