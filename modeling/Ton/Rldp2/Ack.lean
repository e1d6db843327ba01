import Mathlib
/-!
# Acknowledgements

`Ack.h`, `Ack.cpp`: what the receiver of a part has got of it. Of the symbols received it
remembers the largest and, as a mask, which ones among the 32 up to it; a symbol further
behind is taken for one that it has already.
-/

namespace Ton.Rldp2
open List

/-- A `uint32` plus one. -/
def inc32 (x : ℕ) : ℕ := (x + 1) % 2 ^ 32

structure Ack where
  max_seqno : ℕ := 0
  received_mask : BitVec 32 := 0
  received_count : ℕ := 0
  deriving DecidableEq

namespace Ack

/-- The first half: a larger symbol is the new maximum, and the mask moves with it. -/
def raise_max (ack : Ack) (seqno : ℕ) : Ack :=
  if seqno > ack.max_seqno then
    let diff := seqno - ack.max_seqno
    { ack with max_seqno := seqno, received_mask := if diff ≥ 32 then 0 else ack.received_mask <<< diff }
  else ack

/-- With whether the packet is new. -/
def on_got_packet (ack : Ack) (seqno : ℕ) : Ack × Bool :=
  let ack := ack.raise_max seqno
  let offset := ack.max_seqno - seqno
  if offset < 32 then
    let mask := 1#32 <<< offset
    if ack.received_mask &&& mask = 0 then
      ({ ack with received_count := inc32 ack.received_count, received_mask := ack.received_mask ||| mask }, true)
    else (ack, false)
  else (ack, false)

/-! ## Bits of the mask -/

theorem getLsbD_one_shift {k i : ℕ} (hk : k < 32) : (1#32 <<< k).getLsbD i = decide (i = k) := by
  rw [BitVec.getLsbD_shiftLeft, BitVec.getLsbD_one]
  rcases lt_trichotomy i k with h | rfl | h
  · simp [h, h.ne]
  · simp [hk]
  · simp [h.ne', Nat.sub_ne_zero_of_lt h]

theorem mask_eq_zero_iff {m : BitVec 32} {k : ℕ} (hk : k < 32) : m &&& 1#32 <<< k = 0 ↔ m.getLsbD k = false := by
  constructor
  · intro h
    have hbit := congrArg (fun v => v.getLsbD k) h
    simpa [getLsbD_one_shift hk] using hbit
  · intro h
    apply BitVec.eq_of_getLsbD_eq
    intro i _
    rw [BitVec.getLsbD_and, getLsbD_one_shift hk]
    by_cases hik : i = k
    · simp [hik, h]
    · simp [hik]

end Ack

/-! ## What an acknowledgement says -/

/-- The receiver of a part, with what has come to it: every symbol `received`, and those it has `accepted`. -/
structure Inbox where
  ack : Ack := {}
  received : List ℕ := []
  accepted : List ℕ := []
  deriving DecidableEq

/-- `RldpReceiver::on_received`; the timer for the next acknowledgement is left out. -/
def Inbox.on_received (b : Inbox) (seqno : ℕ) : Inbox where
  ack := (b.ack.on_got_packet seqno).1
  received := seqno :: b.received
  accepted := if (b.ack.on_got_packet seqno).2 then seqno :: b.accepted else b.accepted

/-- The maximum, the bits and the count are those of the symbols that came. -/
structure Inbox.Tells (b : Inbox) : Prop where
  le_max : ∀ s ∈ b.received, s ≤ b.ack.max_seqno
  largest : b.ack.max_seqno ∈ b.received ∨ b.received = [] ∧ b.ack.max_seqno = 0
  bits : ∀ i < 32, b.ack.received_mask.getLsbD i = true ↔ i ≤ b.ack.max_seqno ∧ b.ack.max_seqno - i ∈ b.accepted
  recent : ∀ s ∈ b.received, b.ack.max_seqno < s + 32 → s ∈ b.accepted
  sub : b.accepted ⊆ b.received
  nodup : b.accepted.Nodup
  count : b.ack.received_count = b.accepted.length % 2 ^ 32

namespace Inbox

variable {b : Inbox}

theorem Tells.empty : Tells {} where
  le_max s hs := by cases hs
  largest := .inr ⟨rfl, rfl⟩
  bits i hi := by simp
  recent s hs := by cases hs
  sub := Subset.refl _
  nodup := nodup_nil
  count := rfl

theorem Tells.raise_max_bits (h : b.Tells) (seqno : ℕ) {i : ℕ} (hi : i < 32) :
    (b.ack.raise_max seqno).received_mask.getLsbD i = true ↔
      i ≤ (b.ack.raise_max seqno).max_seqno ∧ (b.ack.raise_max seqno).max_seqno - i ∈ b.accepted := by
  unfold Ack.raise_max
  by_cases hs : seqno > b.ack.max_seqno
  · rw [if_pos hs]
    dsimp only
    by_cases hd : seqno - b.ack.max_seqno ≥ 32
    · rw [if_pos hd]
      constructor
      · intro h0
        simp at h0
      · rintro ⟨_, hm⟩
        have := h.le_max _ (h.sub hm)
        omega
    · rw [if_neg hd, BitVec.getLsbD_shiftLeft]
      by_cases hlt : i < seqno - b.ack.max_seqno
      · constructor
        · intro h0
          simp [hlt] at h0
        · rintro ⟨_, hm⟩
          have := h.le_max _ (h.sub hm)
          omega
      · have hbit := h.bits (i - (seqno - b.ack.max_seqno)) (by omega)
        have hsub : b.ack.max_seqno - (i - (seqno - b.ack.max_seqno)) = seqno - i ∨ seqno < i := by omega
        simp only [hi, decide_true, hlt, decide_false, Bool.not_false, Bool.true_and, hbit]
        constructor
        · rintro ⟨hle, hm⟩
          rcases hsub with he | he
          · exact ⟨by omega, he ▸ hm⟩
          · omega
        · rintro ⟨hle, hm⟩
          rcases hsub with he | he
          · exact ⟨by omega, he ▸ hm⟩
          · omega
  · rw [if_neg hs]
    exact h.bits i hi

theorem raise_max_max (ack : Ack) (seqno : ℕ) : (ack.raise_max seqno).max_seqno = max ack.max_seqno seqno := by
  unfold Ack.raise_max
  split
  · next h => exact (max_eq_right h.le).symm
  · next h => exact (max_eq_left (not_lt.1 h)).symm

theorem raise_max_count (ack : Ack) (seqno : ℕ) : (ack.raise_max seqno).received_count = ack.received_count := by
  unfold Ack.raise_max
  split <;> rfl

/-- A packet is taken for new exactly when it is, and within 32 of the maximum. -/
theorem Tells.on_got_packet_new (h : b.Tells) (seqno : ℕ) :
    (b.ack.on_got_packet seqno).2 = true ↔ max b.ack.max_seqno seqno < seqno + 32 ∧ seqno ∉ b.accepted := by
  unfold Ack.on_got_packet
  dsimp only
  rw [raise_max_max]
  by_cases hoff : max b.ack.max_seqno seqno - seqno < 32
  · have hbit := h.raise_max_bits seqno hoff
    rw [raise_max_max, Nat.sub_sub_self (le_max_right _ _)] at hbit
    rw [if_pos hoff]
    by_cases hz : (b.ack.raise_max seqno).received_mask &&& 1#32 <<< (max b.ack.max_seqno seqno - seqno) = 0
    · rw [if_pos hz]
      rw [Ack.mask_eq_zero_iff hoff] at hz
      rw [hz] at hbit
      have hno : seqno ∉ b.accepted := fun hm => Bool.false_ne_true (hbit.2 ⟨Nat.sub_le _ _, hm⟩)
      exact ⟨fun _ => ⟨by omega, hno⟩, fun _ => rfl⟩
    · rw [if_neg hz]
      rw [Ack.mask_eq_zero_iff hoff, Bool.not_eq_false] at hz
      exact ⟨fun h0 => absurd h0 Bool.false_ne_true, fun hn => absurd (hbit.1 hz).2 hn.2⟩
  · rw [if_neg hoff]
    exact ⟨fun h0 => absurd h0 Bool.false_ne_true, fun hn => absurd hn.1 (by omega)⟩

theorem on_got_packet_max (ack : Ack) (seqno : ℕ) : (ack.on_got_packet seqno).1.max_seqno = max ack.max_seqno seqno := by
  unfold Ack.on_got_packet
  dsimp only
  rw [← raise_max_max]
  split_ifs <;> rfl

theorem on_got_packet_count (ack : Ack) (seqno : ℕ) : (ack.on_got_packet seqno).1.received_count =
    if (ack.on_got_packet seqno).2 then inc32 ack.received_count else ack.received_count := by
  unfold Ack.on_got_packet
  dsimp only
  by_cases hoff : (ack.raise_max seqno).max_seqno - seqno < 32
  · rw [if_pos hoff]
    by_cases hz : (ack.raise_max seqno).received_mask &&& 1#32 <<< ((ack.raise_max seqno).max_seqno - seqno) = 0
    · rw [if_pos hz]
      exact congrArg inc32 (raise_max_count ack seqno)
    · rw [if_neg hz]
      exact raise_max_count ack seqno
  · rw [if_neg hoff]
    exact raise_max_count ack seqno

/-- A new packet sets the bit at its distance, and nothing else changes in the mask. -/
theorem on_got_packet_bits (ack : Ack) (seqno : ℕ) (i : ℕ) : (ack.on_got_packet seqno).1.received_mask.getLsbD i =
    ((ack.raise_max seqno).received_mask.getLsbD i ||
      ((ack.on_got_packet seqno).2 && decide (i = max ack.max_seqno seqno - seqno))) := by
  unfold Ack.on_got_packet
  dsimp only
  rw [raise_max_max]
  split_ifs with hoff hz
  · rw [BitVec.getLsbD_or, Ack.getLsbD_one_shift hoff, Bool.true_and]
  · simp
  · simp

theorem Tells.on_received (h : b.Tells) (seqno : ℕ) : (b.on_received seqno).Tells := by
  have hmax : (b.on_received seqno).ack.max_seqno = max b.ack.max_seqno seqno := on_got_packet_max _ _
  have hnew := h.on_got_packet_new seqno
  have hacc : ∀ s, s ∈ (b.on_received seqno).accepted ↔ s ∈ b.accepted ∨ (b.ack.on_got_packet seqno).2 = true ∧ s = seqno := by
    intro s
    unfold Inbox.on_received
    dsimp only
    split_ifs with hn
    · rw [mem_cons, hn, or_comm]
      simp
    · simp [hn]
  constructor
  case le_max =>
    intro s hs
    rw [hmax]
    rcases mem_cons.1 hs with rfl | hs
    · exact le_max_right _ _
    · exact le_max_of_le_left (h.le_max s hs)
  case largest =>
    left
    rw [hmax]
    show max b.ack.max_seqno seqno ∈ seqno :: b.received
    rcases le_total b.ack.max_seqno seqno with hle | hle
    · rw [max_eq_right hle]
      exact mem_cons_self ..
    · rw [max_eq_left hle]
      rcases h.largest with hm | ⟨-, h0⟩
      · exact mem_cons_of_mem _ hm
      · rw [h0, show seqno = 0 by omega]
        exact mem_cons_self ..
  case bits =>
    intro i hi
    show (b.ack.on_got_packet seqno).1.received_mask.getLsbD i = true ↔ _
    have hold := h.raise_max_bits seqno hi
    rw [raise_max_max] at hold
    rw [on_got_packet_bits, Bool.or_eq_true, hold, Bool.and_eq_true, decide_eq_true_eq, hmax, hacc]
    have hle : seqno ≤ max b.ack.max_seqno seqno := le_max_right _ _
    constructor
    · rintro (⟨hi', hm⟩ | ⟨hn, rfl⟩)
      · exact ⟨hi', .inl hm⟩
      · exact ⟨Nat.sub_le _ _, .inr ⟨hn, Nat.sub_sub_self hle⟩⟩
    · rintro ⟨hi', hm | ⟨hn, he⟩⟩
      · exact .inl ⟨hi', hm⟩
      · exact .inr ⟨hn, by omega⟩
  case recent =>
    intro s hs hrec
    rw [hmax] at hrec
    rw [hacc]
    rcases mem_cons.1 hs with rfl | hs
    · by_cases hin : s ∈ b.accepted
      · exact .inl hin
      · exact .inr ⟨hnew.2 ⟨hrec, hin⟩, rfl⟩
    · exact .inl (h.recent s hs (lt_of_le_of_lt (le_max_left _ _) hrec))
  case sub =>
    intro s hs
    rcases (hacc s).1 hs with hs | ⟨-, rfl⟩
    · exact mem_cons_of_mem _ (h.sub hs)
    · exact mem_cons_self ..
  case nodup =>
    unfold Inbox.on_received
    dsimp only
    split_ifs with hn
    · exact nodup_cons.2 ⟨(hnew.1 hn).2, h.nodup⟩
    · exact h.nodup
  case count =>
    show (b.ack.on_got_packet seqno).1.received_count = _
    rw [on_got_packet_count, h.count]
    unfold Inbox.on_received
    dsimp only
    split_ifs with hn
    · simp [inc32]
    · rfl

end Inbox

end Ton.Rldp2
