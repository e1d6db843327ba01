import Ton.Rldp2.Ack
import Ton.Lib.Result
/-!
# The sender's queue of packets

`SenderPackets.h`, `SenderPackets.cpp`: the packets sent that have not left the queue, and
counters of `uint32`. A time is a value of any type with a comparison. Of a packet the size
and the `bdw_packet_info` are left out: nothing here reads them.
-/

namespace Ton.Rldp2
open List Nat

/-- A `uint32` minus one. -/
def dec32 (x : ℕ) : ℕ := (x + (2 ^ 32 - 1)) % 2 ^ 32

def add32 (x y : ℕ) : ℕ := (x + y) % 2 ^ 32

def sub32 (x y : ℕ) : ℕ := (x + (2 ^ 32 - y)) % 2 ^ 32

/-- The checks that end the process. -/
inductive Check
  | send_seqno
  | packet_seqno
  | new_received
  deriving DecidableEq

def ensure (e : Check) (c : Prop) [Decidable c] : Except Check Unit := if c then .ok () else .error e

theorem ensure_pos {e : Check} {c : Prop} [Decidable c] (h : c) : ensure e c = .ok () := if_pos h

theorem ensure_neg {e : Check} {c : Prop} [Decidable c] (h : ¬c) : ensure e c = .error e := if_neg h

structure Packet (Time : Type) where
  is_in_flight : Bool := false
  sent_at : Time
  seqno : ℕ := 0
  deriving DecidableEq

structure Limits (Time : Type) where
  sent_at : Time
  seqno : ℕ := 0

structure DropUpdate (Time : Type) where
  new_ack : ℕ := 0
  new_lost : ℕ := 0
  o_loss_at : Option Time := none
  deriving DecidableEq

structure Update (Time : Type) where
  was_max_updated : Bool := false
  new_received : ℕ := 0
  drop_update : DropUpdate Time := {}
  deriving DecidableEq

structure SenderPackets (Time : Type) where
  packets : List (Packet Time) := []
  in_flight_count : ℕ := 0
  received_count : ℕ := 0
  last_seqno : ℕ := 0
  max_packet : Packet Time
  total_ack : ℕ := 0
  total_lost : ℕ := 0
  last_total_ack : ℕ := 0
  last_total_lost : ℕ := 0
  last_loss : Option Time := none
  left_ack : ℕ := 0
  deriving DecidableEq

variable {Time : Type} [LT Time] [DecidableLT Time]

def Limits.should_drop (limits : Limits Time) (packet : Packet Time) : Bool :=
  !packet.is_in_flight || decide (packet.sent_at < limits.sent_at) || decide (packet.seqno < limits.seqno)

namespace SenderPackets

omit [LT Time] [DecidableLT Time] in
section
variable (s : SenderPackets Time)

/-- A new sender; `sent_at` is that of `max_packet_`, which no packet set yet. -/
def start (sent_at : Time) : SenderPackets Time := { max_packet := { sent_at } }

def next_seqno : ℕ := inc32 s.last_seqno

/-- The packet is in flight no more. -/
def mark_lost (packet : Packet Time) : SenderPackets Time :=
  if !packet.is_in_flight then s
  else { s with total_lost := inc32 s.total_lost, in_flight_count := dec32 s.in_flight_count, last_loss := some packet.sent_at }

def mark_ack (packet : Packet Time) : SenderPackets Time :=
  if !packet.is_in_flight then s
  else { s with
    left_ack := if s.left_ack > 0 then dec32 s.left_ack else s.left_ack,
    total_ack := inc32 s.total_ack,
    in_flight_count := dec32 s.in_flight_count }

def mark_ack_or_lost (packet : Packet Time) : SenderPackets Time :=
  if s.left_ack ≠ 0 then s.mark_ack packet else s.mark_lost packet

/-- The place of the packet in the queue, and the packet. -/
def get_packet (seqno : ℕ) : Except Check (Option (ℕ × Packet Time)) :=
  match s.packets with
  | [] => .ok none
  | front :: _ =>
    if front.seqno > seqno then .ok none
    else match s.packets[seqno - front.seqno]? with
      | none => .ok none
      | some packet => do
        ensure .packet_seqno (packet.seqno = seqno)
        .ok (some (seqno - front.seqno, packet))

/-- `send` after its check. -/
def push (packet : Packet Time) : SenderPackets Time :=
  { s with
    packets := s.packets ++ [packet],
    last_seqno := inc32 s.last_seqno,
    in_flight_count := add32 s.in_flight_count packet.is_in_flight.toNat }

def send (packet : Packet Time) : Except Check (SenderPackets Time) := do
  ensure .send_seqno (s.next_seqno = packet.seqno)
  .ok (s.push packet)

end

/-- The loop of `drop_packets`, over what is left of the queue. -/
def drop_loop (limits : Limits Time) : List (Packet Time) → SenderPackets Time → SenderPackets Time
  | [], s => { s with packets := [] }
  | packet :: packets, s =>
    if limits.should_drop packet then drop_loop limits packets (s.mark_ack_or_lost packet)
    else { s with packets := packet :: packets }

def drop_packets (s : SenderPackets Time) (limits : Limits Time) : SenderPackets Time × DropUpdate Time :=
  let s := drop_loop limits s.packets s
  ({ s with last_total_ack := s.total_ack, last_total_lost := s.total_lost, last_loss := none },
    { new_ack := sub32 s.total_ack s.last_total_ack, new_lost := sub32 s.total_lost s.last_total_lost, o_loss_at := s.last_loss })

omit [LT Time] [DecidableLT Time] in
section
variable (s : SenderPackets Time)

/-- The set bits of a mask, the lowest first. -/
def bits_range (mask : BitVec 32) : List ℕ := (List.range 32).filter fun i => mask.getLsbD i

/-- The loop of `on_ack` over the bits of the mask. -/
def mark_mask (max_seqno : ℕ) : List ℕ → SenderPackets Time → Except Check (SenderPackets Time)
  | [], s => .ok s
  | i :: is, s =>
    if max_seqno < i then .ok s
    else do
      match ← s.get_packet (max_seqno - i) with
      | none => .ok s
      | some (k, packet) =>
        mark_mask max_seqno is { s.mark_ack packet with packets := s.packets.set k { packet with is_in_flight := false } }

/-- What `on_ack` takes of the acknowledgement. -/
def clamp (ack : Ack) : Ack :=
  let max_seqno := min ack.max_seqno s.last_seqno
  { ack with max_seqno, received_count := min ack.received_count max_seqno }

/-- The count: how much it grows, and the state after that. -/
def count_received (received_count : ℕ) : SenderPackets Time × ℕ :=
  if s.received_count < received_count then
    let new_received := received_count - s.received_count
    ({ s with left_ack := min (add32 s.left_ack new_received) s.in_flight_count, received_count }, new_received)
  else (s, 0)

/-- The count first, then the packet with the highest number, then those of the mask. -/
def on_ack (ack : Ack) : Except Check (SenderPackets Time × Update Time) := do
  let ack := s.clamp ack
  let (s, new_received) := s.count_received ack.received_count
  if s.max_packet.seqno > ack.max_seqno then .ok (s, { new_received })
  else
    match ← s.get_packet ack.max_seqno with
    | none => .ok (s, { new_received })
    | some (_, packet) =>
      let was_max_updated := decide (s.max_packet.seqno < ack.max_seqno)
      let s := if was_max_updated then { s with max_packet := packet } else s
      let s ← s.mark_mask ack.max_seqno (bits_range ack.received_mask)
      .ok (s, { was_max_updated, new_received })

end

/-! ## The queue -/

omit [LT Time] [DecidableLT Time]

/-- The packets of a queue have consecutive numbers, up to `last`. -/
structure Consecutive (last : ℕ) (packets : List (Packet Time)) : Prop where
  length_le : packets.length ≤ last
  seqno : ∀ (k : ℕ) (packet : Packet Time), packets[k]? = some packet → packet.seqno + packets.length = last + 1 + k

def flying (packets : List (Packet Time)) : ℕ := packets.countP fun packet => packet.is_in_flight

/-- The counters, while the queue is `packets`. -/
structure Counts (s : SenderPackets Time) (packets : List (Packet Time)) : Prop where
  in_flight : s.in_flight_count = flying packets
  sent : s.total_ack + s.total_lost + s.in_flight_count = s.last_seqno
  left : s.left_ack ≤ s.in_flight_count
  reported : s.last_total_ack ≤ s.total_ack ∧ s.last_total_lost ≤ s.total_lost
  bound : s.last_seqno < 2 ^ 32

/-- What holds of a sender between two calls. -/
structure Consistent (s : SenderPackets Time) : Prop where
  counts : s.Counts s.packets
  queue : Consecutive s.last_seqno s.packets
  received : s.received_count ≤ s.last_seqno
  newest : s.max_packet.seqno ≤ s.last_seqno

variable {s s' : SenderPackets Time} {packet front : Packet Time} {packets packets' : List (Packet Time)} {last seqno k : ℕ}

theorem flying_cons : flying (packet :: packets) = flying packets + packet.is_in_flight.toNat := by
  unfold flying
  rw [countP_cons]
  cases packet.is_in_flight <;> rfl

theorem flying_append : flying (packets ++ [packet]) = flying packets + packet.is_in_flight.toNat := by
  unfold flying
  rw [countP_append, countP_singleton]
  cases packet.is_in_flight <;> rfl

theorem flying_set (hk : packets[k]? = some packet) :
    flying packets = flying (packets.set k { packet with is_in_flight := false }) + packet.is_in_flight.toNat := by
  induction packets generalizing k with
  | nil => cases hk
  | cons front packets ih =>
    cases k with
    | zero =>
      rw [getElem?_cons_zero, Option.some.injEq] at hk
      subst hk
      rw [set_cons_zero, flying_cons, flying_cons]
      rfl
    | succ k =>
      rw [getElem?_cons_succ] at hk
      rw [set_cons_succ, flying_cons, flying_cons, ih hk]
      omega

theorem Consecutive.nil (last : ℕ) : Consecutive last ([] : List (Packet Time)) where
  length_le := Nat.zero_le _
  seqno k packet h := by simp at h

theorem Consecutive.tail (h : Consecutive last (packet :: packets)) : Consecutive last packets where
  length_le := (le_succ _).trans h.length_le
  seqno k p hk := by
    have hp := h.seqno (k + 1) p (by rw [getElem?_cons_succ, hk])
    rw [length_cons] at hp
    omega

theorem Consecutive.push (h : Consecutive last packets) (hp : packet.seqno = last + 1) : Consecutive (last + 1) (packets ++ [packet]) where
  length_le := by
    rw [length_append, length_singleton]
    exact succ_le_succ h.length_le
  seqno k p hk := by
    rw [length_append, length_singleton]
    rcases lt_or_ge k packets.length with hlt | hge
    · rw [getElem?_append_left hlt] at hk
      have := h.seqno k p hk
      omega
    · rw [getElem?_append_right hge, getElem?_singleton] at hk
      split at hk
      · cases hk
        omega
      · cases hk

theorem Consecutive.set (h : Consecutive last packets) (hk : packets[k]? = some packet) :
    Consecutive last (packets.set k { packet with is_in_flight := false }) where
  length_le := by
    rw [length_set]
    exact h.length_le
  seqno j p hj := by
    rw [length_set]
    rw [getElem?_set] at hj
    split_ifs at hj with hkj
    · cases hj
      subst hkj
      exact h.seqno k packet hk
    · exact h.seqno j p hj

theorem get_packet_found (h : Consecutive s.last_seqno s.packets) (seqno : ℕ) :
    s.get_packet seqno = .ok none ∧ (∀ packet ∈ s.packets, packet.seqno ≠ seqno) ∨
    ∃ k packet, s.get_packet seqno = .ok (some (k, packet)) ∧ s.packets[k]? = some packet ∧ packet.seqno = seqno := by
  have hseq := h.seqno
  unfold get_packet
  cases hq : s.packets with
  | nil => exact .inl ⟨rfl, by simp⟩
  | cons front packets =>
    rw [hq] at hseq
    dsimp only
    have hfront := hseq 0 front rfl
    by_cases hlt : front.seqno > seqno
    · rw [if_pos hlt]
      refine .inl ⟨rfl, fun packet hp => ?_⟩
      obtain ⟨k, hk⟩ := mem_iff_getElem?.1 hp
      have := hseq k packet hk
      omega
    · rw [if_neg hlt]
      cases hk : (front :: packets)[seqno - front.seqno]? with
      | none =>
        refine .inl ⟨rfl, fun packet hp => ?_⟩
        obtain ⟨k, hk'⟩ := mem_iff_getElem?.1 hp
        have hp' := hseq k packet hk'
        have hlt' := (List.getElem?_eq_some_iff.1 hk').1
        have hge := List.getElem?_eq_none_iff.1 hk
        omega
      | some packet =>
        have hp := hseq _ packet hk
        have hs : packet.seqno = seqno := by omega
        refine .inr ⟨_, packet, ?_, hk, hs⟩
        dsimp only
        rw [ensure_pos hs]
        rfl

/-! ## Marks -/

section
variable (s : SenderPackets Time) (packet : Packet Time)

@[simp] theorem mark_ack_last_seqno : (s.mark_ack packet).last_seqno = s.last_seqno := by
  unfold mark_ack
  split <;> rfl

@[simp] theorem mark_ack_received :
    (s.mark_ack packet).received_count = s.received_count := by
  unfold mark_ack
  split <;> rfl

@[simp] theorem mark_ack_max : (s.mark_ack packet).max_packet = s.max_packet := by
  unfold mark_ack
  split <;> rfl

@[simp] theorem mark_ack_or_lost_last_seqno :
    (s.mark_ack_or_lost packet).last_seqno = s.last_seqno := by
  unfold mark_ack_or_lost mark_ack mark_lost
  split_ifs <;> rfl

@[simp] theorem mark_ack_or_lost_received :
    (s.mark_ack_or_lost packet).received_count = s.received_count := by
  unfold mark_ack_or_lost mark_ack mark_lost
  split_ifs <;> rfl

@[simp] theorem mark_ack_or_lost_max :
    (s.mark_ack_or_lost packet).max_packet = s.max_packet := by
  unfold mark_ack_or_lost mark_ack mark_lost
  split_ifs <;> rfl

end

theorem Counts.queued (h : s.Counts packets) : ({ s with packets := packets' } : SenderPackets Time).Counts packets :=
  ⟨h.in_flight, h.sent, h.left, h.reported, h.bound⟩

/-- A mark keeps the counters right for the queue without the packet in flight. -/
theorem Counts.mark_ack (h : s.Counts packets) (hp : flying packets = flying packets' + packet.is_in_flight.toNat) :
    (s.mark_ack packet).Counts packets' := by
  obtain ⟨hflight, hsent, hleft, hrep, hbound⟩ := h
  unfold SenderPackets.mark_ack
  cases hf : packet.is_in_flight with
  | false =>
    rw [hf] at hp
    exact ⟨hflight.trans hp, hsent, hleft, hrep, hbound⟩
  | true =>
    rw [hf, Bool.toNat_true] at hp
    simp only [Bool.not_true, Bool.false_eq_true, if_false]
    constructor <;> simp only [inc32, dec32] <;> first | split_ifs <;> omega | omega

theorem Counts.mark_lost (h : s.Counts packets) (hl : s.left_ack = 0)
    (hp : flying packets = flying packets' + packet.is_in_flight.toNat) : (s.mark_lost packet).Counts packets' := by
  obtain ⟨hflight, hsent, hleft, hrep, hbound⟩ := h
  unfold SenderPackets.mark_lost
  cases hf : packet.is_in_flight with
  | false =>
    rw [hf] at hp
    exact ⟨hflight.trans hp, hsent, hleft, hrep, hbound⟩
  | true =>
    rw [hf, Bool.toNat_true] at hp
    simp only [Bool.not_true, Bool.false_eq_true, if_false]
    constructor <;> simp only [inc32, dec32] <;> omega

theorem Counts.mark_ack_or_lost (h : s.Counts packets)
    (hp : flying packets = flying packets' + packet.is_in_flight.toNat) : (s.mark_ack_or_lost packet).Counts packets' := by
  unfold SenderPackets.mark_ack_or_lost
  split_ifs with hl
  · exact h.mark_ack hp
  · exact h.mark_lost (not_not.1 hl) hp

/-! ## The loops -/

/-- A packet is acknowledged by the bits `is` of a mask whose maximum is `max_seqno`. -/
def Covers (max_seqno : ℕ) (is : List ℕ) (packet : Packet Time) : Prop := packet.seqno ≤ max_seqno ∧ max_seqno - packet.seqno ∈ is

instance (max_seqno : ℕ) (is : List ℕ) : DecidablePred (Covers max_seqno is : Packet Time → Prop) := fun _ => inferInstanceAs (Decidable (_ ∧ _))

def clear (max_seqno : ℕ) (is : List ℕ) (packet : Packet Time) : Packet Time :=
  if Covers max_seqno is packet then { packet with is_in_flight := false } else packet

variable {max_seqno : ℕ} {is : List ℕ}

theorem clear_of_not (h : ¬Covers max_seqno is packet) : clear max_seqno is packet = packet := if_neg h

theorem map_clear_eq (h : ∀ packet ∈ packets, ¬Covers max_seqno is packet) :
    packets.map (clear max_seqno is) = packets := by
  rw [map_congr_left fun packet hp => clear_of_not (h packet hp), map_id']

/-- Between a packet of the queue and the last one sent there is no gap. -/
theorem Consecutive.exists_seqno (h : Consecutive last packets) (hp : packet ∈ packets) (hle : packet.seqno ≤ seqno) (hlast : seqno ≤ last) :
    ∃ packet ∈ packets, packet.seqno = seqno := by
  obtain ⟨k, hk⟩ := mem_iff_getElem?.1 hp
  have hs := h.seqno k packet hk
  have hlt := (List.getElem?_eq_some_iff.1 hk).1
  obtain ⟨q, hq⟩ : ∃ q, packets[k + (seqno - packet.seqno)]? = some q :=
    ⟨_, getElem?_eq_getElem (by omega)⟩
  have hq' := h.seqno _ q hq
  exact ⟨q, mem_of_getElem? hq, by omega⟩

theorem Consecutive.seqno_inj (h : Consecutive last packets) {j : ℕ} {q : Packet Time} (hk : packets[k]? = some packet)
    (hj : packets[j]? = some q) (he : packet.seqno = q.seqno) : k = j := by
  have := h.seqno k packet hk
  have := h.seqno j q hj
  omega

theorem map_clear_set {max_seqno i : ℕ} (h : Consecutive last packets) (hi : i ≤ max_seqno) (hk : packets[k]? = some packet)
    (hs : packet.seqno = max_seqno - i) :
    (packets.set k { packet with is_in_flight := false }).map (clear max_seqno is) = packets.map (clear max_seqno (i :: is)) := by
  apply ext_getElem?
  intro j
  rw [getElem?_map, getElem?_map, getElem?_set]
  have hklt := (List.getElem?_eq_some_iff.1 hk).1
  by_cases hkj : k = j
  · subst hkj
    rw [if_pos rfl, if_pos hklt, hk, Option.map_some, Option.map_some]
    have hcov : Covers max_seqno (i :: is) packet := ⟨by omega, by rw [show max_seqno - packet.seqno = i by omega]; exact mem_cons_self ..⟩
    unfold clear
    rw [if_pos hcov]
    split <;> rfl
  · rw [if_neg hkj]
    cases hj : packets[j]? with
    | none => rfl
    | some q =>
      have hne : max_seqno - q.seqno ≠ i ∨ max_seqno < q.seqno := by
        by_contra hcon
        exact hkj (h.seqno_inj hk hj (by omega))
      have hiff : Covers max_seqno is q ↔ Covers max_seqno (i :: is) q := by
        unfold Covers
        rw [mem_cons]
        constructor
        · rintro ⟨hle, hm⟩
          exact ⟨hle, .inr hm⟩
        · rintro ⟨hle, he | hm⟩
          · omega
          · exact ⟨hle, hm⟩
      simp only [Option.map_some, clear, hiff]

/-- What the marks of an acknowledgement leave alone. -/
structure Frame (s s' : SenderPackets Time) : Prop where
  last_seqno : s'.last_seqno = s.last_seqno
  received_count : s'.received_count = s.received_count
  max_packet : s'.max_packet = s.max_packet

theorem Frame.trans {s'' : SenderPackets Time} (h : Frame s s') (h' : Frame s' s'') : Frame s s'' :=
  ⟨h'.last_seqno.trans h.last_seqno, h'.received_count.trans h.received_count, h'.max_packet.trans h.max_packet⟩

/-- The loop over the bits marks exactly the packets that they name. -/
theorem mark_mask_spec (hmax : max_seqno ≤ s.last_seqno) (hq : Consecutive s.last_seqno s.packets) (hc : s.Counts s.packets)
    (is : List ℕ) (hsorted : is.Pairwise (· < ·)) : ∃ s', s.mark_mask max_seqno is = .ok s' ∧ s'.Counts s'.packets ∧
      Consecutive s'.last_seqno s'.packets ∧ Frame s s' ∧ s'.packets = s.packets.map (clear max_seqno is) := by
  induction is generalizing s with
  | nil => exact ⟨s, rfl, hc, hq, ⟨rfl, rfl, rfl⟩, (map_clear_eq fun packet _ hcov => not_mem_nil hcov.2).symm⟩
  | cons i is ih =>
    obtain ⟨hfirst, hsorted⟩ := pairwise_cons.1 hsorted
    have hmem : ∀ {packet : Packet Time}, Covers max_seqno (i :: is) packet → i ≤ max_seqno - packet.seqno := by
      intro packet hcov
      rcases mem_cons.1 hcov.2 with he | hm
      · exact he.ge
      · exact (hfirst _ hm).le
    unfold mark_mask
    by_cases hi : max_seqno < i
    · rw [if_pos hi]
      refine ⟨s, rfl, hc, hq, ⟨rfl, rfl, rfl⟩, (map_clear_eq fun packet _ hcov => ?_).symm⟩
      have := hmem hcov
      omega
    · rw [if_neg hi]
      rcases get_packet_found hq (max_seqno - i) with ⟨hget, hno⟩ | ⟨k, packet, hget, hk, hseq⟩
      · rw [hget]
        refine ⟨s, rfl, hc, hq, ⟨rfl, rfl, rfl⟩, (map_clear_eq fun packet hp hcov => ?_).symm⟩
        -- a packet named by a later bit is further down, so this one would be in the queue too
        have hlow := hmem hcov
        have hle := hcov.1
        obtain ⟨q, hq', he⟩ := hq.exists_seqno hp (show packet.seqno ≤ max_seqno - i by omega) (by omega)
        exact hno q hq' he
      · rw [hget, Result.ok_bind]
        dsimp only
        obtain ⟨s', hs', hc', hq', hframe, hmap⟩ := ih (s :=
          { s.mark_ack packet with packets := s.packets.set k { packet with is_in_flight := false } })
          (by simpa using hmax) (by simpa using hq.set hk) (hc.mark_ack (flying_set hk)).queued hsorted
        refine ⟨s', hs', hc', hq', Frame.trans ⟨by simp, by simp, by simp⟩ hframe, hmap.trans ?_⟩
        exact map_clear_set hq (not_lt.1 hi) hk hseq

/-! ## The operations -/

theorem bits_range_sorted (mask : BitVec 32) : (bits_range mask).Pairwise (· < ·) :=
  pairwise_lt_range.filter _

theorem mem_bits_range {mask : BitVec 32} {i : ℕ} : i ∈ bits_range mask ↔ i < 32 ∧ mask.getLsbD i = true := by
  rw [bits_range, mem_filter, mem_range]

theorem Consistent.start (sent_at : Time) : (start sent_at).Consistent where
  counts := ⟨rfl, rfl, le_refl 0, ⟨le_refl 0, le_refl 0⟩, Nat.two_pow_pos 32⟩
  queue := .nil 0
  received := le_refl 0
  newest := le_refl 0

/-- A sender that has not used up the sequence numbers. -/
def CanSend (s : SenderPackets Time) : Prop := s.last_seqno + 1 < 2 ^ 32

theorem push_last_seqno (hroom : s.CanSend) (packet : Packet Time) : (s.push packet).last_seqno = s.last_seqno + 1 := mod_eq_of_lt hroom

theorem send_eq (hp : s.next_seqno = packet.seqno) : s.send packet = .ok (s.push packet) := by
  rw [send, ensure_pos hp]
  rfl

theorem Consistent.push (h : s.Consistent) (hroom : s.CanSend) (hp : s.next_seqno = packet.seqno) (hf : packet.is_in_flight = true) :
    (s.push packet).Consistent := by
  have hlast := push_last_seqno hroom packet
  obtain ⟨⟨hflight, hsent, hleft, hrep, hbound⟩, hq, hrec, hnew⟩ := h
  have hadd : (s.push packet).in_flight_count = s.in_flight_count + 1 := by
    show add32 s.in_flight_count packet.is_in_flight.toNat = _
    rw [hf]
    exact mod_eq_of_lt (lt_of_le_of_lt (succ_le_succ (by omega)) hroom)
  constructor
  case counts =>
    constructor
    case in_flight =>
      rw [hadd, hflight]
      show _ = flying (s.packets ++ [packet])
      rw [flying_append, hf]
      rfl
    case sent =>
      rw [hadd, hlast, ← hsent]
      exact (Nat.add_assoc _ _ _).symm
    case left =>
      rw [hadd]
      exact hleft.trans (le_succ _)
    case reported => exact hrep
    case bound =>
      rw [hlast]
      exact hroom
  case queue =>
    rw [hlast]
    exact hq.push (hp.symm.trans (mod_eq_of_lt hroom))
  case received =>
    rw [hlast]
    exact hrec.trans (le_succ _)
  case newest =>
    rw [hlast]
    exact hnew.trans (le_succ _)

/-- The count of symbols received grows to that of the acknowledgement. -/
theorem Counts.count_received (h : s.Counts packets) (received_count : ℕ) : (s.count_received received_count).1.Counts packets := by
  obtain ⟨hflight, hsent, hleft, hrep, hbound⟩ := h
  unfold SenderPackets.count_received
  split_ifs
  · exact ⟨hflight, hsent, min_le_right _ _, hrep, hbound⟩
  · exact ⟨hflight, hsent, hleft, hrep, hbound⟩

section
variable (s : SenderPackets Time) (received_count : ℕ)

theorem count_received_new :
    (s.count_received received_count).2 = received_count - s.received_count := by
  unfold count_received
  split_ifs
  · rfl
  · dsimp only
    omega

theorem count_received_count :
    (s.count_received received_count).1.received_count = max s.received_count received_count := by
  unfold count_received
  split_ifs with h
  · exact (max_eq_right h.le).symm
  · exact (max_eq_left (not_lt.1 h)).symm

@[simp] theorem count_received_packets :
    (s.count_received received_count).1.packets = s.packets := by
  unfold count_received
  split_ifs <;> rfl

@[simp] theorem count_received_last_seqno :
    (s.count_received received_count).1.last_seqno = s.last_seqno := by
  unfold count_received
  split_ifs <;> rfl

@[simp] theorem count_received_max :
    (s.count_received received_count).1.max_packet = s.max_packet := by
  unfold count_received
  split_ifs <;> rfl

end

/-- The acknowledgement is not older than the newest, and its maximum is a packet of the queue. -/
def Fresh (s : SenderPackets Time) (ack : Ack) : Prop :=
  s.max_packet.seqno ≤ (s.clamp ack).max_seqno ∧ ∃ packet ∈ s.packets, packet.seqno = (s.clamp ack).max_seqno

instance (s : SenderPackets Time) (ack : Ack) : Decidable (s.Fresh ack) := inferInstanceAs (Decidable (_ ∧ _))

/-- What an acknowledgement does. -/
structure Acked (s : SenderPackets Time) (ack : Ack) (s' : SenderPackets Time) (update : Update Time) : Prop where
  last_seqno : s'.last_seqno = s.last_seqno
  new_received : update.new_received = (s.clamp ack).received_count - s.received_count
  received_count : s'.received_count = max s.received_count (s.clamp ack).received_count
  was_max_updated : update.was_max_updated = true ↔ s.Fresh ack ∧ s.max_packet.seqno < (s.clamp ack).max_seqno
  packets : s'.packets =
    if s.Fresh ack then s.packets.map (clear (s.clamp ack).max_seqno (bits_range ack.received_mask)) else s.packets

theorem on_ack_spec (h : s.Consistent) (ack : Ack) : ∃ s' update, s.on_ack ack = .ok (s', update) ∧ s'.Consistent ∧ s.Acked ack s' update := by
  obtain ⟨hc, hq, hrec, hnew⟩ := h
  have hmax : (s.clamp ack).max_seqno ≤ s.last_seqno := min_le_right _ _
  have hcount : (s.clamp ack).received_count ≤ s.last_seqno := (min_le_right _ _).trans hmax
  have hcc := hc.count_received (s.clamp ack).received_count
  have hcr := count_received_count s (s.clamp ack).received_count
  have hcn := count_received_new s (s.clamp ack).received_count
  obtain ⟨t, n, hpair⟩ : ∃ t n, s.count_received (s.clamp ack).received_count = (t, n) := ⟨_, _, rfl⟩
  have hp : t.packets = s.packets := by simpa [hpair] using count_received_packets s (s.clamp ack).received_count
  have hl : t.last_seqno = s.last_seqno := by simpa [hpair] using count_received_last_seqno s (s.clamp ack).received_count
  have hm : t.max_packet = s.max_packet := by simpa [hpair] using count_received_max s (s.clamp ack).received_count
  rw [hpair] at hcc hcr hcn
  dsimp only at hcc hcr hcn
  have ht : t.Consistent := by
    refine ⟨hp ▸ hcc, by rw [hl, hp]; exact hq, ?_, by rw [hl, hm]; exact hnew⟩
    rw [hcr, hl]
    exact max_le hrec hcount
  unfold on_ack
  dsimp only
  rw [hpair]
  dsimp only
  rw [hm]
  by_cases hold : s.max_packet.seqno > (s.clamp ack).max_seqno
  · have hno : ¬s.Fresh ack := fun hf => absurd hf.1 (not_le.2 hold)
    rw [if_pos hold]
    exact ⟨t, _, rfl, ht, hl, hcn, hcr, ⟨fun h0 => absurd h0 Bool.false_ne_true, fun h0 => absurd h0.1 hno⟩, by rw [if_neg hno, hp]⟩
  · rw [if_neg hold]
    rcases get_packet_found ht.queue (s.clamp ack).max_seqno with ⟨hget, hnone⟩ | ⟨k, packet, hget, hk, hseq⟩
    · have hno : ¬s.Fresh ack := fun ⟨_, packet, hpk, he⟩ => hnone packet (hp ▸ hpk) he
      rw [hget]
      exact ⟨t, _, rfl, ht, hl, hcn, hcr, ⟨fun h0 => absurd h0 Bool.false_ne_true, fun h0 => absurd h0.1 hno⟩, by rw [if_neg hno, hp]⟩
    · have hf : s.Fresh ack := ⟨not_lt.1 hold, packet, hp ▸ mem_of_getElem? hk, hseq⟩
      rw [hget, Result.ok_bind]
      dsimp only
      generalize hu : (if decide (s.max_packet.seqno < (s.clamp ack).max_seqno) = true then { t with max_packet := packet } else t) = u
      have hup : u.packets = s.packets := by
        rw [← hu, ← hp]
        split <;> rfl
      have hul : u.last_seqno = s.last_seqno := by
        rw [← hu, ← hl]
        split <;> rfl
      have hur : u.received_count = t.received_count := by
        rw [← hu]
        split <;> rfl
      have huc : u.Counts u.packets := by
        rw [← hu]
        split
        · exact ⟨ht.counts.in_flight, ht.counts.sent, ht.counts.left, ht.counts.reported, ht.counts.bound⟩
        · exact ht.counts
      have hum : u.max_packet.seqno ≤ s.last_seqno := by
        rw [← hu]
        split
        · exact hseq.le.trans hmax
        · exact hm ▸ hnew
      obtain ⟨s', hs', hc', hq', hframe, hmap⟩ := mark_mask_spec (show (s.clamp ack).max_seqno ≤ u.last_seqno by rw [hul]; exact hmax)
          (by rw [hul, hup]; exact hq) huc
        (bits_range (s.clamp ack).received_mask) (bits_range_sorted _)
      have hl' : s'.last_seqno = s.last_seqno := hframe.last_seqno.trans hul
      have hr' : s'.received_count = max s.received_count (s.clamp ack).received_count := hframe.received_count.trans (hur.trans hcr)
      rw [hs', Result.ok_bind]
      refine ⟨s', _, rfl, ⟨hc', hq', ?_, ?_⟩, hl', hcn, hr', ?_, ?_⟩
      · rw [hr', hl']
        exact max_le hrec hcount
      · rw [hframe.max_packet, hl']
        exact hum
      · dsimp only
        rw [decide_eq_true_iff]
        exact ⟨fun hlt => ⟨hf, hlt⟩, fun hlt => hlt.2⟩
      · rw [if_pos hf, hmap, hup]
        rfl

theorem drop_loop_spec [LT Time] [DecidableLT Time] (limits : Limits Time) (packets : List (Packet Time)) (hc : s.Counts packets)
    (hq : Consecutive s.last_seqno packets) : (drop_loop limits packets s).Counts (drop_loop limits packets s).packets ∧
      Consecutive (drop_loop limits packets s).last_seqno (drop_loop limits packets s).packets ∧ Frame s (drop_loop limits packets s) ∧
      (drop_loop limits packets s).packets <:+ packets := by
  induction packets generalizing s with
  | nil => exact ⟨hc.queued, .nil _, ⟨rfl, rfl, rfl⟩, suffix_refl _⟩
  | cons packet packets ih =>
    unfold drop_loop
    split_ifs
    · obtain ⟨hc', hq', hframe, hsuf⟩ := ih (hc.mark_ack_or_lost flying_cons) (by rw [mark_ack_or_lost_last_seqno]; exact hq.tail)
      exact ⟨hc', hq', Frame.trans ⟨by simp, by simp, by simp⟩ hframe, hsuf.trans (suffix_cons ..)⟩
    · exact ⟨hc.queued, hq, ⟨rfl, rfl, rfl⟩, suffix_refl _⟩

theorem drop_packets_spec [LT Time] [DecidableLT Time] (h : s.Consistent) (limits : Limits Time) : (s.drop_packets limits).1.Consistent ∧
    Frame s (s.drop_packets limits).1 ∧ (s.drop_packets limits).1.packets <:+ s.packets := by
  obtain ⟨hc, hq, hframe, hsuf⟩ := drop_loop_spec limits s.packets h.counts h.queue
  refine ⟨⟨⟨hc.in_flight, hc.sent, hc.left, ⟨le_refl _, le_refl _⟩, hc.bound⟩, hq, ?_, ?_⟩,
    ⟨hframe.last_seqno, hframe.received_count, hframe.max_packet⟩, hsuf⟩
  · show (drop_loop limits s.packets s).received_count ≤ (drop_loop limits s.packets s).last_seqno
    rw [hframe.received_count, hframe.last_seqno]
    exact h.received
  · show (drop_loop limits s.packets s).max_packet.seqno ≤ (drop_loop limits s.packets s).last_seqno
    rw [hframe.max_packet, hframe.last_seqno]
    exact h.newest

end SenderPackets

end Ton.Rldp2
