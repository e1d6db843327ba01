import Ton.Rldp2.SenderPackets
import Ton.Lib.Runs
/-!
# Senders of a connection

`RldpSender` and the outbound side of `RldpConnection`. Of a sender the queue is modelled; its
timers and the statistics of round trips, losses and bandwidth are numbers of type `double`, so
a time that comes from them is a parameter of the call. The open parts are listed with the transfer
and the number of each. `drop_packets` as a call of its own is more than the connection makes.
-/

namespace Ton.Rldp2
open SenderPackets Result List

variable {Time : Type} [LT Time] [DecidableLT Time]

def sub_or_zero (a b : ℕ) : ℕ := if a < b then 0 else a - b

namespace RldpSender

def DEFAULT_PACKET_TRESHOLD : ℕ := 3

/-- `loss_at` is the time before which a packet counts as lost. -/
def on_ack (packets : SenderPackets Time) (ack : Ack) (loss_at : Time) : Except Check (SenderPackets Time × Update Time) := do
  let (packets, update) ← packets.on_ack ack
  if !update.was_max_updated then do
    ensure .new_received (update.new_received = 0)
    .ok (packets, update)
  else
    let limits : Limits Time := ⟨loss_at, sub_or_zero packets.max_packet.seqno DEFAULT_PACKET_TRESHOLD⟩
    let (packets, drop_update) := packets.drop_packets limits
    .ok (packets, { update with drop_update })

omit [LT Time] [DecidableLT Time] in
def on_send (packets : SenderPackets Time) (seqno : ℕ) (now : Time) : Except Check (SenderPackets Time) :=
  packets.send { is_in_flight := true, sent_at := now, seqno }

/-- The acknowledgement does not raise the count, or it brings a new maximum whose packet is still in the queue. -/
def Harmless (packets : SenderPackets Time) (ack : Ack) : Prop :=
  (packets.clamp ack).received_count ≤ packets.received_count ∨ packets.Fresh ack ∧ packets.max_packet.seqno < (packets.clamp ack).max_seqno

variable {packets : SenderPackets Time}

/-- The check of `on_ack` fails on the other acknowledgements, and on these only. -/
theorem on_ack_ok_iff (h : packets.Consistent) (ack : Ack) (loss_at : Time) :
    (∃ r, on_ack packets ack loss_at = .ok r) ↔ Harmless packets ack := by
  obtain ⟨s', update, hs', -, hacked⟩ := on_ack_spec h ack
  have hnew := hacked.new_received
  have hmax := hacked.was_max_updated
  unfold on_ack Harmless
  rw [hs', ok_bind]
  dsimp only
  cases hu : update.was_max_updated with
  | false =>
    rw [hu] at hmax
    have hno : ¬(packets.Fresh ack ∧ packets.max_packet.seqno < (packets.clamp ack).max_seqno) := fun h => Bool.false_ne_true (hmax.2 h)
    rw [Bool.not_false, if_pos rfl]
    constructor
    · rintro ⟨r, hr⟩
      by_cases hz : update.new_received = 0
      · exact .inl (by omega)
      · rw [ensure_neg hz] at hr
        cases hr
    · rintro (hle | hf)
      · exact ⟨_, by rw [ensure_pos (by omega)]; rfl⟩
      · exact absurd hf hno
  | true =>
    rw [Bool.not_true, if_neg Bool.false_ne_true]
    exact ⟨fun _ => .inr (hmax.1 hu), fun _ => ⟨_, rfl⟩⟩

theorem on_ack_consistent (h : packets.Consistent) {ack : Ack} {loss_at : Time} {r : SenderPackets Time × Update Time}
    (hr : on_ack packets ack loss_at = .ok r) : r.1.Consistent ∧ r.1.last_seqno = packets.last_seqno ∧
      r.1.received_count = max packets.received_count (packets.clamp ack).received_count := by
  obtain ⟨s', update, hs', hcons, hacked⟩ := on_ack_spec h ack
  unfold on_ack at hr
  rw [hs', ok_bind] at hr
  dsimp only at hr
  split at hr
  · obtain ⟨-, -, hr⟩ := bind_ok.1 hr
    cases hr
    exact ⟨hcons, hacked.last_seqno, hacked.received_count⟩
  · cases hr
    obtain ⟨hd, hframe, -⟩ := drop_packets_spec hcons ⟨loss_at, sub_or_zero s'.max_packet.seqno DEFAULT_PACKET_TRESHOLD⟩
    exact ⟨hd, hframe.last_seqno.trans hacked.last_seqno, hframe.received_count.trans hacked.received_count⟩

end RldpSender

/-! ## The connection -/

/-- A call of the sender of a part. -/
inductive Call (Time : Type) where
  | on_send (now : Time)
  | drop_packets (limits : Limits Time)
  | on_ack (ack : Ack) (loss_at : Time)

def Call.run (packets : SenderPackets Time) : Call Time → Except Check (SenderPackets Time)
  | .on_send now => RldpSender.on_send packets packets.next_seqno now
  | .drop_packets limits => .ok (packets.drop_packets limits).1
  | .on_ack ack loss_at => do
    let (packets, _) ← RldpSender.on_ack packets ack loss_at
    .ok packets

section
variable {Transfer : Type} [DecidableEq Transfer]

/-- The senders of the open parts. -/
abbrev Parts (Transfer Time : Type) := List ((Transfer × ℕ) × SenderPackets Time)

def get_part (key : Transfer × ℕ) (parts : Parts Transfer Time) : Option (SenderPackets Time) :=
  (parts.find? fun part => part.1 = key).map Prod.snd

def set_part (key : Transfer × ℕ) (packets : SenderPackets Time) (parts : Parts Transfer Time) : Parts Transfer Time :=
  parts.map fun part => if part.1 = key then (key, packets) else part

def drop_part (key : Transfer × ℕ) (parts : Parts Transfer Time) : Parts Transfer Time := parts.filter fun part => part.1 ≠ key

structure RldpConnection (Transfer Time : Type) where
  parts : Parts Transfer Time := []
  in_flight_count : ℕ := 0

inductive Action (Transfer Time : Type) where
  | open_part (key : Transfer × ℕ) (sent_at : Time)
  | call (key : Transfer × ℕ) (call : Call Time)
  | complete (key : Transfer × ℕ)
  | timeout (transfer : Transfer)

/-- A `Guard` around a call. -/
def guarded (in_flight_count before after : ℕ) : ℕ := add32 (sub32 in_flight_count before) after

def RldpConnection.step (c : RldpConnection Transfer Time) : Action Transfer Time → Except Check (RldpConnection Transfer Time)
  | .open_part key sent_at =>
    match get_part key c.parts with
    | some _ => .ok c
    | none => .ok { c with parts := (key, .start sent_at) :: c.parts }
  | .call key call =>
    match get_part key c.parts with
    | none => .ok c
    | some packets => do
      let packets' ← call.run packets
      .ok ⟨set_part key packets' c.parts, guarded c.in_flight_count packets.in_flight_count packets'.in_flight_count⟩
  | .complete key =>
    match get_part key c.parts with
    | none => .ok c
    | some packets => .ok ⟨drop_part key c.parts, sub32 c.in_flight_count packets.in_flight_count⟩
  | .timeout transfer =>
    .ok ⟨c.parts.filter fun part => part.1.1 ≠ transfer,
      (c.parts.filter fun part => part.1.1 = transfer).foldl (fun count part => sub32 count part.2.in_flight_count) c.in_flight_count⟩

/-! ## The sum over the open parts -/

omit [LT Time] [DecidableLT Time]

def total (parts : Parts Transfer Time) : ℕ := (parts.map fun part => part.2.in_flight_count).sum

omit [DecidableEq Transfer] in
theorem total_cons (part : (Transfer × ℕ) × SenderPackets Time) (parts : Parts Transfer Time) :
    total (part :: parts) = part.2.in_flight_count + total parts := sum_cons

variable {parts : Parts Transfer Time} {key : Transfer × ℕ} {packets : SenderPackets Time}

theorem get_part_mem (h : get_part key parts = some packets) : (key, packets) ∈ parts := by
  obtain ⟨part, hp, rfl⟩ := Option.map_eq_some_iff.1 h
  have hk : part.1 = key := by simpa using find?_some hp
  rw [← hk]
  exact mem_of_find?_eq_some hp

theorem drop_part_of_not_mem (h : key ∉ parts.map Prod.fst) : drop_part key parts = parts := by
  rw [drop_part, filter_eq_self]
  rintro part hp
  simp only [ne_eq, decide_not, Bool.not_eq_true', decide_eq_false_iff_not]
  rintro rfl
  exact h (mem_map_of_mem hp)

theorem set_part_of_not_mem (h : key ∉ parts.map Prod.fst) : set_part key packets parts = parts := by
  rw [set_part]
  conv_rhs => rw [← map_id parts]
  refine map_congr_left fun part hp => if_neg ?_
  rintro rfl
  exact h (mem_map_of_mem hp)

theorem total_part (hn : (parts.map Prod.fst).Nodup) (h : get_part key parts = some packets) (packets' : SenderPackets Time) :
    total parts = packets.in_flight_count + total (drop_part key parts) ∧
      total (set_part key packets' parts) = packets'.in_flight_count + total (drop_part key parts) := by
  induction parts with
  | nil => cases h
  | cons part parts ih =>
    rw [map_cons, nodup_cons] at hn
    by_cases hk : part.1 = key
    · have hno : key ∉ parts.map Prod.fst := hk ▸ hn.1
      have hp : part.2 = packets := by
        rw [get_part, find?_cons_of_pos (by simpa using hk)] at h
        exact Option.some.inj h
      have hdrop : drop_part key (part :: parts) = parts := by
        rw [drop_part, filter_cons_of_neg (by simp [hk])]
        exact drop_part_of_not_mem hno
      have hset : set_part key packets' (part :: parts) = (key, packets') :: parts := by
        rw [set_part, map_cons, if_pos hk]
        exact congrArg _ (set_part_of_not_mem hno)
      rw [hdrop, hset, total_cons, total_cons, hp]
      exact ⟨rfl, rfl⟩
    · have hdrop : drop_part key (part :: parts) = part :: drop_part key parts := by
        rw [drop_part, filter_cons_of_pos (by simp [hk])]
        rfl
      have hset : set_part key packets' (part :: parts) = part :: set_part key packets' parts := by
        rw [set_part, map_cons, if_neg hk]
        rfl
      rw [get_part, find?_cons_of_neg (by simpa using hk)] at h
      obtain ⟨h1, h2⟩ := ih hn.2 h
      rw [hdrop, hset, total_cons, total_cons, total_cons, h1, h2]
      exact ⟨by omega, by omega⟩

theorem set_part_keys : (set_part key packets parts).map Prod.fst = parts.map Prod.fst := by
  rw [set_part, map_map]
  refine map_congr_left fun part _ => ?_
  by_cases hk : part.1 = key
  · simp [hk]
  · simp [hk]

theorem set_part_forall {P : SenderPackets Time → Prop} (h : ∀ part ∈ parts, P part.2) (hp : P packets) :
    ∀ part ∈ set_part key packets parts, P part.2 := by
  intro part hm
  obtain ⟨part', hm', rfl⟩ := mem_map.1 hm
  split
  · exact hp
  · exact h part' hm'

omit [DecidableEq Transfer] in
theorem foldl_sub32 {count : ℕ} (hle : total parts ≤ count) (hbound : count < 2 ^ 32) :
    parts.foldl (fun count part => sub32 count part.2.in_flight_count) count = count - total parts := by
  induction parts generalizing count with
  | nil => exact (Nat.sub_zero count).symm
  | cons part parts ih =>
    rw [total_cons] at hle
    have hsub : sub32 count part.2.in_flight_count = count - part.2.in_flight_count := by
      unfold sub32
      omega
    rw [foldl_cons, hsub, ih (by omega) (by omega), total_cons]
    omega

omit [DecidableEq Transfer] in
theorem total_filter (parts : Parts Transfer Time) (p : (Transfer × ℕ) × SenderPackets Time → Bool) :
    total parts = total (parts.filter p) + total (parts.filter fun part => !p part) := by
  induction parts with
  | nil => rfl
  | cons part parts ih =>
    rw [total_cons, ih]
    cases hp : p part with
    | true =>
      rw [filter_cons_of_pos hp, filter_cons_of_neg (by simp [hp]), total_cons]
      omega
    | false =>
      rw [filter_cons_of_neg (by simp [hp]), filter_cons_of_pos (by simp [hp]), total_cons]
      omega

/-! ## Every run -/

/-- The counts of a connection are those of its parts, and each part is consistent. -/
structure Balanced (c : RldpConnection Transfer Time) : Prop where
  keys : (c.parts.map Prod.fst).Nodup
  consistent : ∀ part ∈ c.parts, part.2.Consistent
  in_flight : c.in_flight_count = total c.parts
  bound : c.in_flight_count < 2 ^ 32

/-- The condition on a call: the numbers last, or the acknowledgement is harmless. -/
def Call.May (count : ℕ) (packets : SenderPackets Time) : Call Time → Prop
  | .on_send _ => packets.CanSend ∧ count + 1 < 2 ^ 32
  | .drop_packets _ => True
  | .on_ack ack _ => RldpSender.Harmless packets ack

def RldpConnection.May (c : RldpConnection Transfer Time) : Action Transfer Time → Prop
  | .call key call => ∀ packets, get_part key c.parts = some packets → call.May c.in_flight_count packets
  | _ => True

end

omit [LT Time] [DecidableLT Time] in
theorem SenderPackets.flying_clear (max_seqno : ℕ) (is : List ℕ) (packets : List (Packet Time)) :
    flying (packets.map (clear max_seqno is)) ≤ flying packets := by
  induction packets with
  | nil => exact le_refl _
  | cons packet packets ih =>
    rw [map_cons, flying_cons, flying_cons]
    refine Nat.add_le_add ih ?_
    unfold clear
    split
    · exact Nat.zero_le _
    · exact le_refl _

theorem SenderPackets.drop_packets_in_flight {s : SenderPackets Time} (h : s.Consistent) (limits : Limits Time) :
    (s.drop_packets limits).1.in_flight_count ≤ s.in_flight_count := by
  obtain ⟨hd, -, hsuf⟩ := drop_packets_spec h limits
  rw [hd.counts.in_flight, h.counts.in_flight]
  exact hsuf.sublist.countP_le

theorem RldpSender.on_ack_in_flight {packets : SenderPackets Time} (h : packets.Consistent) {ack : Ack} {loss_at : Time}
    {r : SenderPackets Time × Update Time} (hr : on_ack packets ack loss_at = .ok r) : r.1.in_flight_count ≤ packets.in_flight_count := by
  obtain ⟨s', update, hs', hcons, hacked⟩ := on_ack_spec h ack
  have hle : s'.in_flight_count ≤ packets.in_flight_count := by
    rw [hcons.counts.in_flight, h.counts.in_flight, hacked.packets]
    split
    · exact flying_clear ..
    · exact le_refl _
  unfold on_ack at hr
  rw [hs', ok_bind] at hr
  dsimp only at hr
  split at hr
  · obtain ⟨-, -, hr⟩ := bind_ok.1 hr
    cases hr
    exact hle
  · cases hr
    exact (drop_packets_in_flight hcons _).trans hle

/-- A call under its condition succeeds, and what it leaves in flight still fits. -/
theorem Call.run_spec {packets : SenderPackets Time} (h : packets.Consistent) {count : ℕ} (hle : packets.in_flight_count ≤ count)
    (hbound : count < 2 ^ 32) {call : Call Time} (hmay : call.May count packets) : ∃ packets', call.run packets = .ok packets' ∧
      packets'.Consistent ∧ count - packets.in_flight_count + packets'.in_flight_count < 2 ^ 32 := by
  cases call with
  | on_send now =>
    obtain ⟨hroom, hcount⟩ := hmay
    have hc : (packets.push { is_in_flight := true, sent_at := now, seqno := packets.next_seqno }).Consistent := h.push hroom rfl rfl
    refine ⟨_, send_eq rfl, hc, ?_⟩
    rw [hc.counts.in_flight]
    show count - packets.in_flight_count + flying (packets.packets ++ [_]) < 2 ^ 32
    rw [flying_append, ← h.counts.in_flight, Bool.toNat_true]
    omega
  | drop_packets limits =>
    have hdrop := drop_packets_in_flight h limits
    exact ⟨_, rfl, (drop_packets_spec h limits).1, by omega⟩
  | on_ack ack loss_at =>
    obtain ⟨r, hr⟩ := (RldpSender.on_ack_ok_iff h ack loss_at).2 hmay
    have hflight := RldpSender.on_ack_in_flight h hr
    exact ⟨r.1, by rw [run, hr, ok_bind], (RldpSender.on_ack_consistent h hr).1, by omega⟩

section
variable {Transfer : Type} [DecidableEq Transfer] {c c' : RldpConnection Transfer Time}

omit [LT Time] [DecidableLT Time] [DecidableEq Transfer] in
theorem Balanced.empty : Balanced ({} : RldpConnection Transfer Time) where
  keys := nodup_nil
  consistent part hp := by cases hp
  in_flight := rfl
  bound := Nat.two_pow_pos 32

omit [LT Time] [DecidableLT Time] [DecidableEq Transfer] in
/-- The parts that a filter keeps, and a count that the others are taken off. -/
theorem Balanced.keep (h : Balanced c) (p : (Transfer × ℕ) × SenderPackets Time → Bool) {count : ℕ}
    (hcount : count = c.in_flight_count - total (c.parts.filter fun part => !p part)) : Balanced ⟨c.parts.filter p, count⟩ where
  keys := (filter_sublist.map Prod.fst).nodup h.keys
  consistent part hp := h.consistent part (mem_of_mem_filter hp)
  in_flight := by
    have htotal := total_filter c.parts p
    have hsum := h.in_flight
    show count = total (c.parts.filter p)
    omega
  bound := by
    have hbound := h.bound
    show count < 2 ^ 32
    omega

/-- A step under the condition succeeds and leaves the counts right. -/
theorem Balanced.step (h : Balanced c) {a : Action Transfer Time} (hmay : c.May a) : ∃ c', c.step a = .ok c' ∧ Balanced c' := by
  cases a with
  | open_part key sent_at =>
    cases hg : get_part key c.parts with
    | some packets => exact ⟨c, by simp only [RldpConnection.step, hg], h⟩
    | none =>
      simp only [RldpConnection.step, hg]
      refine ⟨_, rfl, ?_, ?_, ?_, h.bound⟩
      · refine nodup_cons.2 ⟨fun hm => ?_, h.keys⟩
        obtain ⟨part, hp, he⟩ := mem_map.1 hm
        rw [get_part, Option.map_eq_none_iff, find?_eq_none] at hg
        exact hg part hp (by simpa using he)
      · rintro part hp
        rcases mem_cons.1 hp with rfl | hp
        · exact .start sent_at
        · exact h.consistent part hp
      · exact h.in_flight.trans (by rw [total_cons]; exact (Nat.zero_add _).symm)
  | call key call =>
    cases hg : get_part key c.parts with
    | none => exact ⟨c, by simp only [RldpConnection.step, hg], h⟩
    | some packets =>
      have hsum := h.in_flight
      have hbound := h.bound
      have htotal := (total_part h.keys hg packets).1
      have hcons : packets.Consistent := h.consistent _ (get_part_mem hg)
      obtain ⟨packets', hrun, hc, hroom⟩ := Call.run_spec hcons (show _ ≤ c.in_flight_count by omega) hbound (hmay packets hg)
      have htotal' := (total_part h.keys hg packets').2
      have hguard : guarded c.in_flight_count packets.in_flight_count packets'.in_flight_count = total (set_part key packets' c.parts) := by
        unfold guarded add32 sub32
        omega
      simp only [RldpConnection.step, hg, hrun, ok_bind]
      refine ⟨_, rfl, ?_, set_part_forall h.consistent hc, hguard, ?_⟩
      · rw [set_part_keys]
        exact h.keys
      · show guarded _ _ _ < 2 ^ 32
        rw [hguard]
        omega
  | complete key =>
    cases hg : get_part key c.parts with
    | none => exact ⟨c, by simp only [RldpConnection.step, hg], h⟩
    | some packets =>
      have hsum := h.in_flight
      have hbound := h.bound
      have htotal := (total_part h.keys hg packets).1
      have hother : total (c.parts.filter fun part => !decide (part.1 ≠ key)) = packets.in_flight_count := by
        have hfilter := total_filter c.parts fun part => decide (part.1 ≠ key)
        unfold drop_part at htotal
        omega
      simp only [RldpConnection.step, hg]
      refine ⟨_, rfl, h.keep (fun part => part.1 ≠ key) ?_⟩
      rw [hother]
      unfold sub32
      omega
  | timeout transfer =>
    have hfilter := total_filter c.parts fun part => decide (part.1.1 ≠ transfer)
    have hsum := h.in_flight
    have hsame : (c.parts.filter fun part => !decide (part.1.1 ≠ transfer)) = c.parts.filter fun part => part.1.1 = transfer := by
      refine filter_congr fun part _ => ?_
      rw [← decide_not, decide_eq_decide]
      exact not_not
    refine ⟨_, rfl, h.keep (fun part => part.1.1 ≠ transfer) ?_⟩
    rw [← hsame]
    exact foldl_sub32 (by omega) h.bound

/-- In a run whose acknowledgements are harmless the counts are right, and no check fails; of the acknowledgements that may
come next, the others end the process. -/
theorem accounting (h : Reach RldpConnection.step RldpConnection.May (fun c : RldpConnection Transfer Time => c = {}) c) :
    Balanced c ∧ (∀ a, c.May a → ∃ c', c.step a = .ok c') ∧
      ∀ key packets ack loss_at, get_part key c.parts = some packets →
        ((∃ c', c.step (.call key (.on_ack ack loss_at)) = .ok c') ↔ RldpSender.Harmless packets ack) := by
  have hb : Balanced c := by
    refine h.inv ?_ fun c a c' hc hmay hstep => ?_
    · rintro _ rfl
      exact .empty
    · obtain ⟨c'', hs, hb⟩ := hc.step hmay
      rw [hs] at hstep
      cases hstep
      exact hb
  refine ⟨hb, fun a hmay => ?_, fun key packets ack loss_at hg => ?_⟩
  · obtain ⟨c', hs, -⟩ := hb.step hmay
    exact ⟨c', hs⟩
  · rw [← RldpSender.on_ack_ok_iff (hb.consistent _ (get_part_mem hg)) ack loss_at]
    constructor
    · rintro ⟨c', hs⟩
      simp only [RldpConnection.step, hg] at hs
      obtain ⟨packets', hrun, -⟩ := bind_ok.1 hs
      obtain ⟨r, hr, -⟩ := bind_ok.1 hrun
      exact ⟨r, hr⟩
    · rintro ⟨r, hr⟩
      simp only [RldpConnection.step, hg, Call.run, hr, ok_bind]
      exact ⟨_, rfl⟩

end

/-- Symbol 2 overtakes symbol 0: the second acknowledgement of the receiver has the old maximum and a larger count. -/
theorem reordered_packets_abort : [.open_part (0, 0) 0, .call (0, 0) (.on_send 0), .call (0, 0) (.on_send 0), .call (0, 0) (.on_send 0),
      .call (0, 0) (.on_ack (({} : Inbox).on_received 2).ack 0),
      .call (0, 0) (.on_ack ((({} : Inbox).on_received 2).on_received 0).ack 0)].foldlM RldpConnection.step
    ({} : RldpConnection ℕ ℕ) = .error .new_received := by
  rfl

/-- Of three packets the last one is acknowledged first, and the limits drop the two that are left. -/
theorem accounting_three_packets : ∃ c : RldpConnection ℕ ℕ, c.parts.map (fun p => p.2.total_lost) = [2] ∧ c.in_flight_count = 0 ∧ Balanced c := by
  have hsend : ∀ {c : RldpConnection ℕ ℕ} {packets : SenderPackets ℕ} {now : ℕ}, get_part (0, 0) c.parts = some packets →
      packets.CanSend ∧ c.in_flight_count + 1 < 2 ^ 32 → c.May (.call (0, 0) (.on_send now)) := by
    intro c packets now hget hcan packets' hget'
    obtain rfl := Option.some.inj (hget.symm.trans hget')
    exact hcan
  have h0 : Reach RldpConnection.step RldpConnection.May (fun c : RldpConnection ℕ ℕ => c = {}) ⟨[((0, 0), .start 0)], 0⟩ :=
    .step (.start rfl) (show RldpConnection.May _ (.open_part (0, 0) 0) from trivial) rfl
  have h1 : Reach RldpConnection.step RldpConnection.May (fun c : RldpConnection ℕ ℕ => c = {}) _ :=
    .step h0 (@hsend _ _ 1 rfl ⟨show 0 + 1 < 2 ^ 32 by decide, by decide⟩) rfl
  have h2 : Reach RldpConnection.step RldpConnection.May (fun c : RldpConnection ℕ ℕ => c = {}) _ :=
    .step h1 (@hsend _ _ 2 rfl ⟨show 1 + 1 < 2 ^ 32 by decide, by decide⟩) rfl
  have h3 : Reach RldpConnection.step RldpConnection.May (fun c : RldpConnection ℕ ℕ => c = {}) _ :=
    .step h2 (@hsend _ _ 3 rfl ⟨show 2 + 1 < 2 ^ 32 by decide, by decide⟩) rfl
  have h4 : Reach RldpConnection.step RldpConnection.May (fun c : RldpConnection ℕ ℕ => c = {}) _ :=
    .step h3 (show RldpConnection.May _ (.call (0, 0) (.on_ack ⟨3, 1, 1⟩ 0)) by rintro _ ⟨⟩; exact .inr (by decide)) rfl
  have h5 : Reach RldpConnection.step RldpConnection.May (fun c : RldpConnection ℕ ℕ => c = {}) _ :=
    .step h4 (show RldpConnection.May _ (.call (0, 0) (.drop_packets ⟨9, 2⟩)) from fun _ _ => trivial) rfl
  exact ⟨_, rfl, rfl, (accounting h5).1⟩

end Ton.Rldp2
