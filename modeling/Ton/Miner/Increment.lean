import Ton.Miner.HData
/-!
# Counting through 256 bits

`HData::inc` adds one to the big-endian number in `rdata1` and `rdata2`. Its loop asks only
for the carry, so it leaves the arrays when every byte is `0xff`.
-/

namespace Ton.Miner
open BigEndian Option

theorem ofBytes_zeros (k : Nat) : ofBytes (List.replicate k 0) = 0 := by
  induction k with
  | zero => rfl
  | succ k ih => rw [List.replicate_succ, ofBytes_cons, ih, show (0 : Byte).toNat = 0 by rfl, Nat.zero_mul]

theorem ofBytes_ones (k : Nat) : ofBytes (List.replicate k 0xff) + 1 = 256 ^ k := by
  induction k with
  | zero => rfl
  | succ k ih =>
    rw [List.replicate_succ, ofBytes_cons, List.length_replicate, show (0xff : Byte).toNat = 255 by rfl, Nat.pow_succ]
    omega

/-- To add one is to clear a run of `0xff` at the end and count in the byte before it. -/
theorem ofBytes_succ (a : List Byte) {b : Byte} (hb : b + 1 ≠ 0) (k : Nat) :
    ofBytes (a ++ (b + 1) :: List.replicate k 0) = ofBytes (a ++ b :: List.replicate k 0xff) + 1 := by
  have hnat : (b + 1).toNat = b.toNat + 1 := by
    have h := b.isLt
    have hne : (b + 1).toNat ≠ 0 := fun e => hb (BitVec.eq_of_toNat_eq e)
    rw [BitVec.toNat_add, show (1 : Byte).toNat = 1 by rfl] at hne ⊢
    omega
  have hones := ofBytes_ones k
  rw [ofBytes_append, ofBytes_append, ofBytes_cons, ofBytes_cons, ofBytes_zeros, hnat, List.length_cons, List.length_cons,
    List.length_replicate, List.length_replicate, Nat.add_mul]
  omega

/-- The bytes before a place, the byte there, and a run to the end. -/
theorem toList_run (v : Vector Byte 32) {j : Nat} (hj : j < 32) {c : Byte} (hc : ∀ i (hi : i < 32), j < i → v[i] = c) :
    v.toList = v.toList.take j ++ v[j] :: List.replicate (31 - j) c := by
  refine List.ext_getElem (by simp; omega) fun i h1 h2 => ?_
  rw [Vector.length_toList] at h1
  rcases Nat.lt_trichotomy i j with hij | rfl | hij
  · rw [List.getElem_append_left (by simp; omega), List.getElem_take]
  · rw [List.getElem_append_right (by simp), Vector.getElem_toList]
    simp [Nat.min_eq_left hj.le]
  · have hlen : (v.toList.take j).length = j := by simp; omega
    obtain ⟨k, hk⟩ := Nat.exists_eq_add_of_lt hij
    rw [List.getElem_append_right (by omega), Vector.getElem_toList, hc i h1 hij, List.getElem_cons, dif_neg (by omega), List.getElem_replicate]

namespace HData

variable {d : HData}

theorem incLoop_eq_none (r1 r2 : Vector Byte 32) (n : Nat) (hn : n ≤ 32) :
    incLoop r1 r2 n hn = none ↔ ∀ i (hi : i < 32), i < n → r2[i] = 0xff := by
  induction n generalizing r1 r2 with
  | zero => simp [incLoop]
  | succ n ih =>
    have hff : r2[n] + 1 = 0 ↔ r2[n] = 0xff := by
      generalize r2[n] = b
      revert b
      decide
    unfold incLoop
    dsimp only
    split
    · next h0 =>
      rw [ih]
      constructor
      · intro h i hi hin
        rcases Nat.lt_succ_iff_lt_or_eq.1 hin with hlt | rfl
        · have := h i hi hlt
          rwa [Vector.getElem_set_ne _ _ (by omega)] at this
        · exact hff.1 h0
      · intro h i hi hin
        rw [Vector.getElem_set_ne _ _ (by omega)]
        exact h i hi (by omega)
    · next h0 => exact iff_of_false (some_ne_none _) fun h => h0 (hff.2 (h n hn (by omega)))

/-- The bytes of the second copy as one number. -/
def number (d : HData) : Nat := ofBytes d.rdata2.toList

theorem number_lt (d : HData) : d.number < 2 ^ 256 := by
  have h := ofBytes_lt d.rdata2.toList
  rwa [Vector.length_toList, show (256 : Nat) ^ 32 = 2 ^ 256 by norm_num] at h

theorem number_inc {d' : HData} (h : d.inc = some d') : d'.number = d.number + 1 := by
  simp only [inc, map_eq_some_iff] at h
  obtain ⟨⟨r1, r2⟩, hr, rfl⟩ := h
  obtain ⟨j, hj, hlt, heq, hmid, -⟩ := incLoop_spec _ _ _ _ _ _ hr
  obtain ⟨-, hcount, hne⟩ := heq j hj rfl
  have hff : ∀ b : Byte, b + 1 = 0 → b = 0xff := by decide
  have htake : r2.toList.take j = d.rdata2.toList.take j := by
    refine List.ext_getElem (by simp) fun i h1 h2 => ?_
    rw [List.length_take, Vector.length_toList] at h1
    rw [List.getElem_take, List.getElem_take, Vector.getElem_toList, Vector.getElem_toList]
    exact (hlt i (by omega) (by omega)).2
  unfold number
  dsimp only
  rw [toList_run r2 hj fun i hi hji => (hmid i hi hji hi).2.1, toList_run d.rdata2 hj fun i hi hji => hff _ (hmid i hi hji hi).2.2,
    htake, hcount, ofBytes_succ _ hne]

/-- `inc` returns, both copies hold the next number, and the rest is as it was. -/
def Counts (d : HData) : Prop :=
  ∃ d', d.inc = some d' ∧ d'.rdata1 = d'.rdata2 ∧ d'.number = (d.number + 1) % 2 ^ 256 ∧
    { d' with rdata1 := d.rdata1, rdata2 := d.rdata2 } = d

/-- Only after the last number of all is the next one not written. -/
theorem counts_iff (d : HData) (he : d.rdata1 = d.rdata2) : Counts d ↔ ∃ i : Fin 32, d.rdata2[i] ≠ 0xff := by
  constructor
  · rintro ⟨d', h, -⟩
    by_contra hall
    have hnone : incLoop d.rdata1 d.rdata2 32 (Nat.le_refl _) = none :=
      (incLoop_eq_none ..).2 fun i hi _ => not_not.1 fun hne => hall ⟨⟨i, hi⟩, hne⟩
    rw [inc, hnone] at h
    cases h
  · rintro ⟨i, hi⟩
    obtain ⟨r, hr⟩ := ne_none_iff_exists'.1 fun hnone => hi ((incLoop_eq_none d.rdata1 d.rdata2 32 (Nat.le_refl _)).1 hnone i i.2 i.2)
    have h : d.inc = some { d with rdata1 := r.1, rdata2 := r.2 } := by rw [inc, hr, map_some]
    refine ⟨_, h, inc_rdata_eq h he, ?_, rfl⟩
    rw [← number_inc h, Nat.mod_eq_of_lt (number_lt _)]

/-- Two bytes carry. -/
theorem counts_iff_carry :
    let rdata : Vector Byte 32 := Vector.ofFn fun i => if i < 30 then 7 else 0xff
    let d : HData := { op := #v[0, 0, 0, 0], rdata1 := rdata, rdata2 := rdata }
    Counts d ∧ d.inc.map (fun d => d.rdata1.toList.drop 28) = some [7, 8, 0, 0] := by
  intro rdata d
  exact ⟨(counts_iff d rfl).2 ⟨0, by decide⟩, by decide⟩

/-- From the last number the loop goes on before the arrays. -/
theorem not_counts_last : ¬Counts { op := #v[0, 0, 0, 0], rdata1 := Vector.replicate 32 0xff, rdata2 := Vector.replicate 32 0xff } := by
  rintro ⟨d', h, -⟩
  have hnone : incLoop (Vector.replicate 32 0xff) (Vector.replicate 32 0xff) 32 (Nat.le_refl _) = none :=
    (incLoop_eq_none ..).2 fun i hi _ => Vector.getElem_replicate hi
  rw [inc, hnone] at h
  cases h

end HData

end Ton.Miner
