import Ton.Catchain.Queries
/-!
# What getDifference sends

Of each source in the query the next delivered blocks are sent, in order. How many of one source is
found by bisection: it is the first number with which more than 100 are sent in all.
-/

namespace Ton.Catchain
open Result List

theorem cut_exact {n : ℕ} {m : Fin n → ℕ} {r : ℕ} (hpos : 0 < r) (hbelow : ∑ i, min (m i) (r - 1) ≤ 100)
    (hover : r = 101 ∨ 100 < ∑ i, min (m i) r) : (∑ i, m i ≤ 100 → ∀ i, min (m i) r = m i) ∧
      (100 < ∑ i, m i → 100 < ∑ i, min (m i) r ∧ ∑ i, min (m i) r ≤ 100 + (Finset.univ.filter fun i => 0 < m i).card) := by
  have hle : ∑ i, min (m i) r ≤ ∑ i, m i := Finset.sum_le_sum fun i _ => Nat.min_le_left _ _
  refine ⟨fun htotal i => Nat.min_eq_left ?_, fun htotal => ⟨?_, ?_⟩⟩
  · have hi : m i ≤ ∑ i, m i := Finset.single_le_sum (fun _ _ => Nat.zero_le _) (Finset.mem_univ i)
    omega
  · rcases hover with rfl | hover
    · by_contra hlow
      -- no source has more than 100, so that all of them would be sent with 100 as well
      have hall : ∀ i, min (m i) (101 - 1) = m i := by
        intro i
        have hi : min (m i) 101 ≤ ∑ i, min (m i) 101 := Finset.single_le_sum (f := fun i => min (m i) 101) (fun _ _ => Nat.zero_le _)
            (Finset.mem_univ i)
        omega
      simp only [hall] at hbelow
      omega
    · exact hover
  · rw [Finset.card_filter]
    calc ∑ i, min (m i) r ≤ ∑ i, (min (m i) (r - 1) + if 0 < m i then 1 else 0) := Finset.sum_le_sum fun i _ => by split_ifs <;> omega
      _ = ∑ i, min (m i) (r - 1) + ∑ i, if 0 < m i then 1 else 0 := Finset.sum_add_distrib
      _ ≤ _ := Nat.add_le_add_right hbelow _

namespace Receiver

variable {n : ℕ} {Payload : Type} {chain : Chain n Payload} {may : Receiver n Payload → Act Payload → Prop}
variable {s : Receiver n Payload} {rt : List ℤ}

/-- The heights that the query is compared with. -/
abbrev my_vt (s : Receiver n Payload) (rt : List ℤ) : List ℤ :=
  (List.finRange n).map fun i : Fin n => if rt.getD i 0 ≥ 0 then ((s.sources i).delivered_height : ℤ) else -1

/-- With one less, no more than 100 are sent. -/
theorem difference_limit_spec (vt my_vt : List ℤ) (fuel : ℕ) {l r : ℤ} (hlt : l < r) (hwidth : r - l ≤ 2 ^ fuel)
    (hl : difference_sum vt my_vt l ≤ 100) (hr : r = 101 ∨ 100 < difference_sum vt my_vt r) :
    ∃ r', difference_limit vt my_vt fuel l r = r' ∧ l < r' ∧ difference_sum vt my_vt (r' - 1) ≤ 100 ∧
      (r' = 101 ∨ 100 < difference_sum vt my_vt r') := by
  induction fuel generalizing l r with
  | zero =>
    obtain rfl : l = r - 1 := by omega
    exact ⟨r, rfl, hlt, hl, hr⟩
  | succ fuel ih =>
    rw [difference_limit]
    rw [pow_succ] at hwidth
    dsimp only
    split_ifs with hgap hsum
    · exact ih (by omega) (by omega) hl (.inr hsum)
    · obtain ⟨r', heq, hpos, h⟩ := ih (l := (r + l) / 2) (by omega) (by omega) (not_lt.1 hsum) hr
      exact ⟨r', heq, by omega, h⟩
    · obtain rfl : l = r - 1 := by omega
      exact ⟨r, rfl, hlt, hl, hr⟩

theorem difference_sum_eq (hlen : rt.length = n) (x : ℕ) :
    difference_sum rt (s.my_vt rt) x = (∑ i, min (s.missing rt i) x : ℕ) := by
  have hrt : (List.finRange n).map (fun i : Fin n => rt.getD i 0) = rt := by
    refine ext_getElem (by simp [hlen]) fun k h1 h2 => ?_
    simp [h2]
  conv_lhs => rw [← hrt]
  rw [difference_sum, zip_map', map_map, ← Fin.sum_univ_def, Nat.cast_sum, hrt]
  refine Finset.sum_congr rfl fun i _ => ?_
  simp only [Function.comp_apply, missing]
  split_ifs <;> omega

/-- The answer is the proof of a fork, or all that is missing up to 100 blocks; of more, above 100
are sent, but not above 100 and one for each source, and of each source at least one. -/
theorem difference_exact (h : Reached chain may s) (hlen : rt.length = n) :
    (∃ i left right, 0 ≤ rt.getD (i : Fin n) 0 ∧ (s.sources i).fork_proof = some (left, right) ∧
      s.getDifference chain rt = .ok (.differenceFork left right)) ∨
    (∀ i : Fin n, 0 ≤ rt.getD i 0 → (s.sources i).fork_proof = none) ∧ ∃ (t : Fin n → ℕ) (sent : List (Block × Option Payload)),
      s.getDifference chain rt = .ok (.difference ((List.finRange n).map fun i : Fin n => rt.getD i 0 + t i) sent) ∧
      List.Forall₂ (Sends chain s) ((List.finRange n).flatMap fun i : Fin n => (List.range' ((rt.getD i 0).toNat + 1) (t i)).map (Prod.mk i)) sent ∧
      (∀ i, t i ≤ s.missing rt i ∧ (0 < s.missing rt i → 0 < t i)) ∧ (∑ i, s.missing rt i ≤ 100 → ∀ i, t i = s.missing rt i) ∧
      (100 < ∑ i, s.missing rt i → 100 < sent.length ∧ sent.length ≤ 100 + (Finset.univ.filter fun i => 0 < s.missing rt i).card) := by
  rw [getDifference, if_neg (not_not.2 hlen)]
  dsimp only
  split
  · next left right hfind =>
    obtain ⟨i, -, hi⟩ := exists_of_findSome?_eq_some hfind
    split_ifs at hi with hasked
    exact .inl ⟨i, left, right, hasked, hi, rfl⟩
  · next hnone =>
    refine .inr ⟨fun i hasked => ?_, ?_⟩
    · have hi := findSome?_eq_none_iff.1 hnone i (mem_finRange i)
      rwa [if_pos hasked] at hi
    have hzero : difference_sum rt (s.my_vt rt) 0 ≤ 0 := by simpa using (difference_sum_eq hlen 0).le
    obtain ⟨r, hr, hpos, hbelow, hover⟩ := difference_limit_spec rt (s.my_vt rt) 7 (l := 0) (r := 101) (by decide) (by decide)
      (hzero.trans (by decide)) (.inl rfl)
    obtain ⟨r, rfl⟩ := Int.eq_ofNat_of_zero_le hpos.le
    rw [← Nat.cast_pred (by omega), difference_sum_eq hlen] at hbelow
    rw [difference_sum_eq hlen] at hover
    obtain ⟨sent, hsent, hall⟩ := send_difference_sends h.good.inv rt (r := r) (by omega) (List.finRange n)
    obtain ⟨hfew, hmany⟩ := cut_exact (m := s.missing rt) (r := r) (by omega) (by omega) (by omega)
    have hcount : sent.length = ∑ i, min (s.missing rt i) r := by
      rw [← hall.length_eq, length_flatMap, Fin.sum_univ_def]
      simp
    rw [hr, check_pos hpos, ok_bind, hsent, ok_bind]
    refine ⟨fun i => min (s.missing rt i) r, sent, ?_, hall, fun i => ⟨Nat.min_le_left _ _, fun hm => lt_min hm (by omega)⟩, hfew, hcount ▸ hmany⟩
    -- the vector that is sent back
    congr 2
    refine map_congr_left fun i _ => ?_
    simp only [missing]
    split_ifs <;> omega

/-- Two blocks are delivered, and the query comes from a node that has none. -/
theorem difference_exact_plain : ∃ s : Receiver 3 Message, Reached (Chain.numbered 3 5) (fun _ _ => True) s ∧
    ∃ (t : Fin 3 → ℕ) (sent : List (Block × Option Message)),
    s.getDifference (Chain.numbered 3 5) [0, 0, 0] = .ok (.difference ((List.finRange 3).map fun i : Fin 3 => [0, 0, 0].getD i 0 + (t i : ℤ)) sent) ∧
      ∀ i, t i = [0, 1, 1].getD i 0 := by
  obtain ⟨s, hs, hP⟩ := reached_of_run (Chain.numbered 3 5) 0 false plain_run
    (P := fun s => (∀ i, (s.sources i).fork_proof.isNone = true) ∧ ∀ i, s.missing [0, 0, 0] i = [0, 1, 1].getD i 0) (by decide +kernel)
  obtain ⟨hfork, hm⟩ := of_decide_eq_true hP
  rcases difference_exact hs (show [0, 0, 0].length = 3 from rfl) with ⟨i, left, right, -, hi, -⟩ | ⟨-, t, sent, hanswer, -, -, hall, -⟩
  · have hnone := hfork i
    rw [hi] at hnone
    cases hnone
  · refine ⟨s, hs, t, sent, hanswer, fun i => (hall ?_ i).trans (hm i)⟩
    simp only [hm]
    decide

end Receiver

end Ton.Catchain
