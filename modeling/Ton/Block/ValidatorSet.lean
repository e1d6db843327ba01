import Ton.Lib.Draws
import Ton.Shard.ShardConfig
/-!
# Validator sets and groups

`Config::unpack_validator_set` and `Config::do_compute_validator_set` of `mc-config.cpp`. A
dictionary is its entries in the order of their keys; of a record, what the generated code
`block-auto` makes of its cell is given. The numbers of `ValidatorSetPRNG` are a stream. `none`
is a `CHECK` that fails, or an entry that is not there.
-/

namespace Ton.Block
open Draws Shard Text List Option Nat
open BitVec (lt_def ofNat toNat_ofNat)

/-- A value of the dictionary: `ValidatorDescr`, the key of which may be of an unsupported format. -/
inductive DescrCell
  | invalid
  | unsupported_key
  | validator (pubkey : Bits256) (weight : BitVec 64)
  | validator_addr (pubkey : Bits256) (weight : BitVec 64) (adnl_addr : Bits256)

/-- `Record_validators`. -/
structure SetRecord where
  utime_since : UnixTime
  utime_until : UnixTime
  total : BitVec 16
  main : BitVec 16
  list : List (ℕ × DescrCell)

inductive SetCell
  | absent
  | invalid
  | validators (record : SetRecord)
  | validators_ext (record : SetRecord) (total_weight : BitVec 64)

structure ValidatorDescr where
  pubkey : Bits256
  weight : BitVec 64
  cum_weight : BitVec 64
  adnl_addr : Bits256

structure ValidatorSet where
  utime_since : UnixTime
  utime_until : UnixTime
  total : ℕ
  main : ℕ
  total_weight : BitVec 64
  list : List ValidatorDescr

namespace ValidatorSet

/-- The end of a turn of the loop over the indices. -/
def add_validator (i : ℕ) (pubkey : Bits256) (weight : BitVec 64) (adnl_addr : Bits256) (list : List ValidatorDescr) (total_weight : BitVec 64) :
    Except Bytes (List ValidatorDescr × BitVec 64) :=
  if weight = 0 then .error (text "validator #" ++ print_nat i ++ text " has zero weight")
  else if weight > ~~~total_weight then .error (text "total weight of all validators in validator set exceeds 2^64")
  else .ok (list ++ [⟨pubkey, weight, total_weight, adnl_addr⟩], total_weight + weight)

def unpack_validator (entries : List (ℕ × DescrCell)) (i : ℕ) (list : List ValidatorDescr) (total_weight : BitVec 64) :
    Except Bytes (List ValidatorDescr × BitVec 64) :=
  match entries.lookup i with
  | none => .error (text "indices in a validator set dictionary must be integers 0..total-1")
  | some .invalid => .error (text "validator #" ++ print_nat i ++
      text " has an invalid ValidatorDescr record in the validator set dictionary")
  | some .unsupported_key => .error (text "validator #" ++ print_nat i ++
      text " has no public key or its public key is in unsupported format")
  | some (.validator pubkey weight) => add_validator i pubkey weight (fun _ => 0) list total_weight
  | some (.validator_addr pubkey weight adnl_addr) => add_validator i pubkey weight adnl_addr list total_weight

/-- The loop, with so many turns left. -/
def unpack_validators (entries : List (ℕ × DescrCell)) : ℕ → ℕ → List ValidatorDescr → BitVec 64 →
    Except Bytes (List ValidatorDescr × BitVec 64)
  | 0, _, list, total_weight => .ok (list, total_weight)
  | n + 1, i, list, total_weight => do
    let (list, total_weight) ← unpack_validator entries i list total_weight
    unpack_validators entries n (i + 1) list total_weight

/-- What follows once the record is there; zero stands for no declared weight. -/
def unpack_record (rec : SetRecord) (declared : BitVec 64) : Except Bytes ValidatorSet := do
  if rec.list.getLast?.map (·.1 + 1) ≠ some rec.total.toNat then .error (text
    "maximal index in a validator set dictionary must be one less than the total number of validators")
  else
    let (list, total_weight) ← unpack_validators rec.list rec.total.toNat 0 [] 0
    if declared ≠ 0 ∧ declared ≠ total_weight then .error (text "validator set declares incorrect total weight")
    else .ok ⟨rec.utime_since, rec.utime_until, rec.total.toNat, if rec.main.toNat > 0 then rec.main.toNat else rec.total.toNat, total_weight, list⟩

def unpack_validator_set : SetCell → Except Bytes ValidatorSet
  | .absent => .error (text "validator set is absent")
  | .invalid => .error (text "validator set is invalid")
  | .validators rec => unpack_record rec 0
  | .validators_ext rec total_weight =>
    if total_weight ≠ 0 then unpack_record rec total_weight else .error (text "validator set cannot have zero total weight")

/-- `upper_bound` finds the first entry that begins after the position; the entry before it has the position. -/
def at_weight (vset : ValidatorSet) (weight_pos : BitVec 64) : Option ℕ :=
  if weight_pos < vset.total_weight then
    match vset.list.findIdx fun descr => weight_pos < descr.cum_weight with
    | 0 => none
    | it + 1 => some it
  else none

end ValidatorSet

/-! ## Groups -/

structure CatchainValidatorsConfig where
  shard_val_num : BitVec 32
  shuffle_mc_val : Bool

/-- `ton::ValidatorDescr`. -/
structure ValidatorNode where
  key : Bits256
  weight : BitVec 64
  addr : Bits256

/-- The high half of the product. -/
def next_ranged (range y : BitVec 64) : BitVec 64 := ofNat 64 (range.toNat * y.toNat / 2 ^ 64)

abbrev Hole := BitVec 64 × BitVec 64

/-- The order of `std::pair`. -/
def hole_lt (x y : Hole) : Bool := x.1 < y.1 || x.1 == y.1 && x.2 < y.2

/-- The loop over the holes. -/
def skip_holes (p : BitVec 64) : List Hole → BitVec 64
  | [] => p
  | hole :: holes => if p < hole.1 then p else skip_holes (p + hole.2) holes

def insert_hole (holes : List Hole) (new_hole : Hole) : Option (List Hole) :=
  let before := holes.takeWhile fun hole => !hole_lt new_hole hole
  if before.getLast?.all (hole_lt · new_hole) then some (before ++ new_hole :: holes.drop before.length) else none

/-- The loop for a shardchain, with so many turns left; what is returned is where the picked entries are. -/
def shard_picks (vset : ValidatorSet) (gen : ℕ → BitVec 64) : ℕ → ℕ → BitVec 64 → List Hole → Option (List ℕ)
  | 0, _, _, _ => some []
  | n + 1, i, total_wt, holes =>
    if total_wt = 0 then none
    else do
      let k ← vset.at_weight (skip_holes (next_ranged total_wt (gen i)) holes)
      let entry ← vset.list[k]?
      if total_wt < entry.weight then none
      else
        let holes ← insert_hole holes (entry.cum_weight, entry.weight)
        let rest ← shard_picks vset gen n (i + 1) (total_wt - entry.weight) holes
        some (k :: rest)

/-- The loop that shuffles, with so many turns left. -/
def shuffle_idx (gen : ℕ → BitVec 64) : ℕ → ℕ → List ℕ → Option (List ℕ)
  | 0, _, idx => some idx
  | n + 1, i, idx =>
    let j := (next_ranged (ofNat 64 (i + 1)) (gen i)).toNat
    if j ≤ i then shuffle_idx gen n (i + 1) ((idx.set i (idx.getD j 0)).set j i) else none

def mc_node (vset : ValidatorSet) (k : ℕ) : Option ValidatorNode := vset.list[k]?.map fun v => ⟨v.pubkey, v.weight, v.adnl_addr⟩

/-- In a shardchain all weights are 1. -/
def shard_node (vset : ValidatorSet) (k : ℕ) : Option ValidatorNode := vset.list[k]?.map fun v => ⟨v.pubkey, 1, v.adnl_addr⟩

def group_size (ccv_conf : CatchainValidatorsConfig) (shard : ShardIdFull) (vset : ValidatorSet) : ℕ :=
  min (if shard.is_masterchain then vset.main else ccv_conf.shard_val_num.toNat) vset.total

def do_compute_validator_set (ccv_conf : CatchainValidatorsConfig) (shard : ShardIdFull) (vset : ValidatorSet) (gen : ℕ → BitVec 64) :
    Option (List ValidatorNode) :=
  let count := group_size ccv_conf shard vset
  if vset.total ≠ vset.list.length then none
  else if count = 0 then some []
  else if shard.is_masterchain then
    if ccv_conf.shuffle_mc_val then (shuffle_idx gen count 0 (List.replicate count 0)).bind fun idx => idx.mapM (mc_node vset)
    else (List.range count).mapM (mc_node vset)
  else (shard_picks vset gen count 0 vset.total_weight []).bind fun picks => picks.mapM (shard_node vset)

/-! ## Accepted sets -/

/-- The weight of an entry. -/
def weight_of (list : List ValidatorDescr) (k : ℕ) : ℕ := (list[k]?.map (·.weight.toNat)).getD 0

/-- Where an entry begins when the entries are laid end to end. -/
def start_of (list : List ValidatorDescr) (k : ℕ) : ℕ := ((list.take k).map (·.weight.toNat)).sum

/-- Every entry has a weight and begins where it says, and everything fits in 64 bits. -/
structure Weighted (list : List ValidatorDescr) (total_weight : BitVec 64) : Prop where
  ne_zero : ∀ (k : ℕ) (v : ValidatorDescr), list[k]? = some v → v.weight ≠ 0
  cum : ∀ (k : ℕ) (v : ValidatorDescr), list[k]? = some v → v.cum_weight.toNat = start_of list k
  total : total_weight.toNat = start_of list list.length

theorem start_of_succ (list : List ValidatorDescr) (k : ℕ) : start_of list (k + 1) = start_of list k + weight_of list k := by
  unfold start_of weight_of
  rw [take_add_one, map_append, List.sum_append]
  cases list[k]? <;> simp

variable {k : ℕ}

theorem weight_of_some {list : List ValidatorDescr} {v : ValidatorDescr} (h : list[k]? = some v) : weight_of list k = v.weight.toNat := by
  rw [weight_of, h]
  rfl

theorem Weighted.add {list : List ValidatorDescr} {total_weight : BitVec 64} (h : Weighted list total_weight) {v : ValidatorDescr}
    (hne : v.weight ≠ 0) (hcum : v.cum_weight = total_weight) (hfits : ¬v.weight > ~~~total_weight) :
    Weighted (list ++ [v]) (total_weight + v.weight) := by
  have hstart : ∀ k ≤ list.length, start_of (list ++ [v]) k = start_of list k := fun k hk => by
    rw [start_of, take_append_of_le_length hk]
    rfl
  have hcases : ∀ k u, (list ++ [v])[k]? = some u → list[k]? = some u ∧ k < list.length ∨ k = list.length ∧ u = v := by
    intro k u hu
    rcases Nat.lt_trichotomy k list.length with hk | rfl | hk
    · rw [getElem?_append_left hk] at hu
      exact .inl ⟨hu, hk⟩
    · rw [getElem?_concat_length] at hu
      exact .inr ⟨rfl, (Option.some.inj hu).symm⟩
    · rw [getElem?_eq_none (by simp; omega)] at hu
      cases hu
  refine ⟨fun k u hu => ?_, fun k u hu => ?_, ?_⟩
  · rcases hcases k u hu with ⟨hu', -⟩ | ⟨-, rfl⟩
    · exact h.ne_zero k u hu'
    · exact hne
  · rcases hcases k u hu with ⟨hu', hk⟩ | ⟨rfl, rfl⟩
    · rw [hstart k hk.le]
      exact h.cum k u hu'
    · rw [hstart _ le_rfl, hcum]
      exact h.total
  · have hlt : total_weight.toNat + v.weight.toNat < 2 ^ 64 := by
      rw [gt_iff_lt, lt_def, BitVec.toNat_not] at hfits
      omega
    rw [BitVec.toNat_add, mod_eq_of_lt hlt, length_append, length_singleton, start_of_succ, hstart _ le_rfl, h.total,
      weight_of_some getElem?_concat_length]

namespace ValidatorSet

variable {r : List ValidatorDescr × BitVec 64} {list : List ValidatorDescr} {entries : List (ℕ × DescrCell)} {total_weight : BitVec 64}

theorem add_validator_weighted {i : ℕ} {pubkey adnl_addr : Bits256} {weight total_weight : BitVec 64} (h : Weighted list total_weight)
    (hr : add_validator i pubkey weight adnl_addr list total_weight = .ok r) :
    Weighted r.1 r.2 ∧ r.1.length = list.length + 1 := by
  unfold add_validator at hr
  split at hr
  · cases hr
  · next hne =>
    split at hr
    · cases hr
    · next hfits =>
      cases hr
      exact ⟨h.add hne rfl hfits, by simp⟩

theorem unpack_validator_weighted {i : ℕ} (h : Weighted list total_weight) (hr : unpack_validator entries i list total_weight = .ok r) :
    Weighted r.1 r.2 ∧ r.1.length = list.length + 1 := by
  unfold unpack_validator at hr
  split at hr
  · cases hr
  · cases hr
  · cases hr
  · exact add_validator_weighted h hr
  · exact add_validator_weighted h hr

theorem unpack_validators_weighted {n i : ℕ} (h : Weighted list total_weight) (hr : unpack_validators entries n i list total_weight = .ok r) :
    Weighted r.1 r.2 ∧ r.1.length = list.length + n := by
  induction n generalizing i list total_weight with
  | zero =>
    cases hr
    exact ⟨h, rfl⟩
  | succ n ih =>
    unfold unpack_validators at hr
    obtain ⟨r', h', hr⟩ := Result.bind_ok.1 hr
    obtain ⟨hw, hlen⟩ := unpack_validator_weighted h h'
    obtain ⟨hw', hlen'⟩ := ih hw hr
    exact ⟨hw', by omega⟩

/-- An accepted set has all its entries. -/
structure Accepted (vset : ValidatorSet) : Prop where
  weighted : Weighted vset.list vset.total_weight
  length : vset.list.length = vset.total
  total_lt : vset.total < 2 ^ 16

theorem unpack_accepted {cell : SetCell} {vset : ValidatorSet} (h : unpack_validator_set cell = .ok vset) : vset.Accepted := by
  have hrec : ∀ rec declared, unpack_record rec declared = .ok vset → vset.Accepted := by
    intro rec declared h
    unfold unpack_record at h
    split at h
    · cases h
    · obtain ⟨⟨list, total_weight⟩, hrun, h⟩ := Result.bind_ok.1 h
      have hempty : Weighted [] 0 := ⟨fun k v hk => (by cases hk), fun k v hk => (by cases hk), rfl⟩
      obtain ⟨hw, hlen⟩ := unpack_validators_weighted hempty hrun
      dsimp only at h
      split at h
      · cases h
      · cases h
        exact ⟨hw, by simpa using hlen, rec.total.isLt⟩
  unfold unpack_validator_set at h
  split at h
  · cases h
  · cases h
  · exact hrec _ _ h
  · split at h
    · exact hrec _ _ h
    · cases h

end ValidatorSet

/-! ## Positions and entries -/

section
variable {list : List ValidatorDescr} {total_weight : BitVec 64} (h : Weighted list total_weight)
include h

theorem weight_pos {k : ℕ} (hk : k < list.length) :
    0 < weight_of list k := by
  have hv : list[k]? = some list[k] := getElem?_eq_getElem hk
  rw [weight_of_some hv]
  refine Nat.pos_of_ne_zero fun h0 => h.ne_zero k _ hv ?_
  exact BitVec.eq_of_toNat_eq h0

theorem start_lt {j k : ℕ} (hjk : j < k)
    (hj : j < list.length) : start_of list j < start_of list k := by
  have hmono := start_mono (start_of_succ list) (show j + 1 ≤ k from hjk)
  have hpos := weight_pos h hj
  rw [start_of_succ] at hmono
  omega

end

theorem at_weight_eq {vset : ValidatorSet} (h : vset.Accepted) (hk : k < vset.list.length) {p : BitVec 64}
    (hlow : start_of vset.list k ≤ p.toNat) (hhigh : p.toNat < start_of vset.list (k + 1)) : vset.at_weight p = some k := by
  have hlt : p < vset.total_weight := by
    rw [lt_def, h.weighted.total]
    exact hhigh.trans_le (start_mono (start_of_succ vset.list) hk)
  -- the entries that begin after the position are those after `k`
  have hbefore : ∀ (j : ℕ) (hj : j < vset.list.length), decide (p < vset.list[j].cum_weight) = decide (k < j) := by
    intro j hj
    rw [decide_eq_decide, lt_def, h.weighted.cum j _ (getElem?_eq_getElem hj)]
    constructor
    · intro hp
      by_contra hjk
      have hmono := start_mono (start_of_succ vset.list) (not_lt.1 hjk)
      omega
    · intro hkj
      exact hhigh.trans_le (start_mono (start_of_succ vset.list) hkj)
  have hidx : vset.list.findIdx (fun descr => p < descr.cum_weight) = k + 1 := by
    rcases Nat.lt_or_ge (k + 1) vset.list.length with hk' | hk'
    · rw [findIdx_eq hk']
      refine ⟨(hbefore _ hk').trans (decide_eq_true (lt_succ_self k)), fun j hj => ?_⟩
      exact (hbefore j (hj.trans hk')).trans (decide_eq_false (by omega))
    · rw [show k + 1 = vset.list.length by omega, findIdx_eq_length]
      intro v hv
      obtain ⟨j, hj, rfl⟩ := mem_iff_getElem.1 hv
      exact (hbefore j hj).trans (decide_eq_false (by omega))
  rw [ValidatorSet.at_weight, if_pos hlt, hidx]

theorem skip_holes_toNat (p : BitVec 64) (holes : List Hole) :
    (skip_holes p holes).toNat = skip (2 ^ 64) p.toNat (holes.map fun hole => (hole.1.toNat, hole.2.toNat)) := by
  induction holes generalizing p with
  | nil => rfl
  | cons hole holes ih =>
    rw [skip_holes, map_cons, skip]
    by_cases hp : p < hole.1
    · rw [if_pos hp, if_pos (lt_def.1 hp)]
    · rw [if_neg hp, if_neg (mt lt_def.2 hp), ih, BitVec.toNat_add]

theorem next_ranged_toNat (range y : BitVec 64) : (next_ranged range y).toNat = range.toNat * y.toNat / 2 ^ 64 := by
  rw [next_ranged, toNat_ofNat, mod_eq_of_lt]
  rw [Nat.div_lt_iff_lt_mul (Nat.two_pow_pos 64)]
  exact Nat.mul_lt_mul'' range.isLt y.isLt

theorem next_ranged_lt {range : BitVec 64} (h : range ≠ 0) (y : BitVec 64) : (next_ranged range y).toNat < range.toNat := by
  have hpos : 0 < range.toNat := Nat.pos_of_ne_zero fun h0 => h (BitVec.eq_of_toNat_eq h0)
  rw [next_ranged_toNat, Nat.div_lt_iff_lt_mul (Nat.two_pow_pos 64)]
  exact (Nat.mul_lt_mul_left hpos).2 y.isLt

/-! ## Holes -/

/-- The entries not yet picked, in the order of the list. -/
def remaining (list : List ValidatorDescr) (taken : List ℕ) : List ℕ := (List.range list.length).filter fun k => !decide (k ∈ taken)

def hole_at (list : List ValidatorDescr) (k : ℕ) : Hole :=
  match list[k]? with
  | some v => (v.cum_weight, v.weight)
  | none => (0, 0)

/-- The holes of the picked entries, in the order of the list. -/
def holes_of (list : List ValidatorDescr) (taken : List ℕ) : List Hole :=
  ((List.range list.length).filter fun k => decide (k ∈ taken)).map (hole_at list)

section
variable {list : List ValidatorDescr} {total_weight : BitVec 64} (h : Weighted list total_weight)
include h

theorem hole_at_toNat {k : ℕ} (hk : k < list.length) :
    ((hole_at list k).1.toNat, (hole_at list k).2.toNat) = (start_of list k, weight_of list k) := by
  have hv : list[k]? = some list[k] := getElem?_eq_getElem hk
  rw [hole_at, hv, ← h.cum k _ hv, weight_of_some hv]

theorem holes_of_toNat (taken : List ℕ) :
    (holes_of list taken).map (fun hole => (hole.1.toNat, hole.2.toNat)) =
      ((List.range list.length).filter fun k => decide (k ∈ taken)).map fun k => (start_of list k, weight_of list k) := by
  rw [holes_of, List.map_map]
  refine map_congr_left fun k hk => ?_
  exact hole_at_toNat h (mem_range.1 (mem_of_mem_filter hk))

end

/-- What `at_weight` finds past the holes is what owns the position among the entries that are left. -/
theorem pick_owner {vset : ValidatorSet} (h : vset.Accepted) (taken : List ℕ) {total_wt : BitVec 64} (hne : total_wt ≠ 0)
    (hroom : total_wt.toNat = room (weight_of vset.list) (remaining vset.list taken)) (y : BitVec 64) :
    ∃ k, k < vset.list.length ∧ k ∉ taken ∧ vset.at_weight (skip_holes (next_ranged total_wt y) (holes_of vset.list taken)) = some k ∧
      owner (weight_of vset.list) (remaining vset.list taken) (total_wt.toNat * y.toNat / 2 ^ 64) = some k := by
  have hp := next_ranged_lt hne y
  rw [hroom] at hp
  have hm : start_of vset.list (0 + vset.list.length) ≤ 2 ^ 64 := by
    rw [Nat.zero_add, ← h.weighted.total]
    exact vset.total_weight.isLt.le
  have hrange : List.range' 0 vset.list.length = List.range vset.list.length := (range_eq_range' ..).symm
  obtain ⟨k, hown, -, hk, htaken, hlow, hhigh⟩ := skip_spec (start_of_succ vset.list) (fun k => decide (k ∈ taken)) 0 vset.list.length hm
    (Nat.zero_le _) (show (next_ranged total_wt y).toNat - 0 < _ by rw [hrange]; exact hp)
  rw [hrange, ← holes_of_toNat h.weighted, ← skip_holes_toNat] at hlow hhigh
  rw [hrange, next_ranged_toNat] at hown
  rw [Nat.zero_add] at hk
  exact ⟨k, hk, of_decide_eq_false htaken, at_weight_eq h hk hlow hhigh, hown⟩

theorem room_remaining {list : List ValidatorDescr} {taken : List ℕ} (hk : k < list.length) (hnew : k ∉ taken) :
    room (weight_of list) (remaining list taken) = room (weight_of list) (remaining list (taken ++ [k])) + weight_of list k := by
  have hother : ∀ ks : List ℕ, k ∉ ks → (ks.filter fun j => !decide (j ∈ taken ++ [k])) = ks.filter fun j => !decide (j ∈ taken) := by
    intro ks hks
    refine filter_congr fun j hj => ?_
    have hjk : j ≠ k := fun he => hks (he ▸ hj)
    simp [hjk]
  have hlow : k ∉ List.range k := by simp
  have hhigh : k ∉ List.range' (k + 1) (list.length - k - 1) := by
    rw [mem_range'_1]
    omega
  unfold room remaining
  rw [filter_range_split _ hk, filter_range_split (fun j => !decide (j ∈ taken ++ [k])) hk, hother _ hlow, hother _ hhigh]
  simp [hnew]
  omega

section
variable {list : List ValidatorDescr} {total_weight : BitVec 64} (h : Weighted list total_weight)
include h

theorem hole_lt_iff {j k : ℕ} (hjk : j ≠ k)
    (hj : j < list.length) (hk : k < list.length) : hole_lt (hole_at list j) (hole_at list k) = decide (j < k) := by
  have h1 := congrArg Prod.fst (hole_at_toNat h hj)
  have h2 := congrArg Prod.fst (hole_at_toNat h hk)
  rw [hole_lt]
  rcases Nat.lt_or_gt_of_ne hjk with hlt | hlt
  · have hstart := start_lt h hlt hj
    have hfirst : (hole_at list j).1 < (hole_at list k).1 := by
      rw [lt_def]
      omega
    simp [hfirst, hlt]
  · have hstart := start_lt h hlt hk
    have hfirst : ¬(hole_at list j).1 < (hole_at list k).1 := by
      rw [lt_def]
      omega
    have hne : (hole_at list j).1 ≠ (hole_at list k).1 := fun he => by
      have := congrArg BitVec.toNat he
      omega
    rw [decide_eq_false hfirst, beq_eq_false_iff_ne.2 hne, Bool.false_and, Bool.false_or, decide_eq_false (show ¬j < k by omega)]

theorem insert_hole_eq {taken : List ℕ} {k : ℕ}
    (hk : k < list.length) (hnew : k ∉ taken) : insert_hole (holes_of list taken) (hole_at list k) = some (holes_of list (taken ++ [k])) := by
  have hother : ∀ ks : List ℕ, k ∉ ks → (ks.filter fun j => decide (j ∈ taken ++ [k])) = ks.filter fun j => decide (j ∈ taken) := by
    intro ks hks
    refine filter_congr fun j hj => ?_
    have hjk : j ≠ k := fun he => hks (he ▸ hj)
    simp [hjk]
  have hlow : k ∉ List.range k := by simp
  have hhigh : k ∉ List.range' (k + 1) (list.length - k - 1) := by
    rw [mem_range'_1]
    omega
  have hold : holes_of list taken = ((List.range k).filter fun j => decide (j ∈ taken)).map (hole_at list) ++
      ((List.range' (k + 1) (list.length - k - 1)).filter fun j => decide (j ∈ taken)).map (hole_at list) := by
    rw [holes_of, filter_range_split _ hk, map_append, if_neg (by simpa using hnew), nil_append]
  have hnew' : holes_of list (taken ++ [k]) = ((List.range k).filter fun j => decide (j ∈ taken)).map (hole_at list) ++
      hole_at list k :: ((List.range' (k + 1) (list.length - k - 1)).filter fun j => decide (j ∈ taken)).map (hole_at list) := by
    rw [holes_of, filter_range_split (fun j => decide (j ∈ taken ++ [k])) hk, hother _ hlow, hother _ hhigh, map_append, if_pos (by simp)]
    rfl
  -- the holes before the new one and those after it
  have hbelow : ∀ hole ∈ ((List.range k).filter fun j => decide (j ∈ taken)).map (hole_at list), hole_lt hole (hole_at list k) = true ∧
      hole_lt (hole_at list k) hole = false := by
    intro hole hhole
    obtain ⟨j, hj, rfl⟩ := List.mem_map.1 hhole
    have hjk := mem_range.1 (mem_of_mem_filter hj)
    rw [hole_lt_iff h hjk.ne (hjk.trans hk) hk, hole_lt_iff h hjk.ne' hk (hjk.trans hk)]
    exact ⟨decide_eq_true hjk, decide_eq_false (by omega)⟩
  have habove : ∀ hole ∈ ((List.range' (k + 1) (list.length - k - 1)).filter fun j => decide (j ∈ taken)).map (hole_at list),
      hole_lt (hole_at list k) hole = true := by
    intro hole hhole
    obtain ⟨j, hj, rfl⟩ := List.mem_map.1 hhole
    have hjk := mem_range'_1.1 (mem_of_mem_filter hj)
    rw [hole_lt_iff h (by omega) hk (by omega)]
    exact decide_eq_true (by omega)
  rw [hold, hnew']
  generalize ((List.range k).filter fun j => decide (j ∈ taken)).map (hole_at list) = below at *
  generalize ((List.range' (k + 1) (list.length - k - 1)).filter fun j => decide (j ∈ taken)).map (hole_at list) = above at *
  have htake : (below ++ above).takeWhile (fun hole => !hole_lt (hole_at list k) hole) = below := by
    rw [takeWhile_append_of_pos fun hole hhole => by rw [(hbelow hole hhole).2]; rfl]
    cases above with
    | nil => simp
    | cons hole above => simp [habove hole mem_cons_self]
  have hlast : below.getLast?.all (hole_lt · (hole_at list k)) = true := by
    cases hb : below.getLast? with
    | none => rfl
    | some hole => exact (hbelow hole (mem_of_getLast? hb)).1
  rw [insert_hole, htake, if_pos hlast, drop_left]

end

/-! ## Picks -/

/-- Each pick owns the position that its number gives it, among the entries that are left. -/
def Drawn (list : List ValidatorDescr) (gen : ℕ → BitVec 64) (i : ℕ) (taken picks : List ℕ) : Prop :=
  ∀ m < picks.length, picks[m]? = owner (weight_of list) (remaining list (taken ++ picks.take m))
    (room (weight_of list) (remaining list (taken ++ picks.take m)) * (gen (i + m)).toNat / 2 ^ 64)

theorem room_pos {list : List ValidatorDescr} {total_weight : BitVec 64} (h : Weighted list total_weight) {taken : List ℕ}
    (hlen : taken.length < list.length) : 0 < room (weight_of list) (remaining list taken) := by
  obtain ⟨k, hk, hnew⟩ : ∃ k ∈ List.range list.length, k ∉ taken := by
    by_contra hall
    have hsub : List.range list.length ⊆ taken := fun k hk => by_contra fun hnew => hall ⟨k, hk, hnew⟩
    have hle := (subperm_of_subset nodup_range hsub).length_le
    rw [length_range] at hle
    omega
  rw [mem_range] at hk
  rw [room_remaining hk hnew]
  exact Nat.add_pos_right _ (weight_pos h hk)

theorem shard_picks_spec {vset : ValidatorSet} (h : vset.Accepted) (gen : ℕ → BitVec 64) (n : ℕ) :
    ∀ (i : ℕ) (taken : List ℕ) (total_wt : BitVec 64), total_wt.toNat = room (weight_of vset.list) (remaining vset.list taken) →
      taken.length + n ≤ vset.list.length → ∃ picks, shard_picks vset gen n i total_wt (holes_of vset.list taken) = some picks ∧
        picks.length = n ∧ (∀ k ∈ picks, k < vset.list.length ∧ k ∉ taken) ∧ picks.Nodup ∧ Drawn vset.list gen i taken picks := by
  induction n with
  | zero =>
    intro i taken total_wt _ _
    exact ⟨[], rfl, rfl, fun k hk => absurd hk not_mem_nil, nodup_nil, fun m hm => absurd hm (Nat.not_lt_zero m)⟩
  | succ n ih =>
    intro i taken total_wt hroom hlen
    have hpos := room_pos h.weighted (show taken.length < vset.list.length by omega)
    have hne : total_wt ≠ 0 := by
      rintro rfl
      rw [← hroom] at hpos
      exact absurd hpos (lt_irrefl _)
    obtain ⟨k, hk, hnew, hat, hown⟩ := pick_owner h taken hne hroom (gen i)
    have hv : vset.list[k]? = some vset.list[k] := getElem?_eq_getElem hk
    have hless := room_remaining hk hnew
    rw [weight_of_some hv] at hless
    have henough : ¬total_wt < vset.list[k].weight := by
      rw [lt_def]
      omega
    have hhole : hole_at vset.list k = (vset.list[k].cum_weight, vset.list[k].weight) := by rw [hole_at, hv]
    have hinsert := insert_hole_eq h.weighted hk hnew
    rw [hhole] at hinsert
    have hrest : (total_wt - vset.list[k].weight).toNat = room (weight_of vset.list) (remaining vset.list (taken ++ [k])) := by
      rw [BitVec.toNat_sub_of_le (BitVec.not_lt.1 henough)]
      omega
    -- from here on the entry is taken, and its hole is in its place
    obtain ⟨picks, hrun, hlength, hmem, hnodup, hdrawn⟩ := ih (i + 1) (taken ++ [k]) _ hrest (by simp; omega)
    refine ⟨k :: picks, ?_, by simp [hlength], ?_, ?_, ?_⟩
    · rw [shard_picks, if_neg hne, hat, bind_eq_bind, bind_some, hv, bind_eq_bind, bind_some, if_neg henough,
        hinsert, bind_eq_bind, bind_some, hrun]
      rfl
    · intro j hj
      rcases mem_cons.1 hj with rfl | hj
      · exact ⟨hk, hnew⟩
      · obtain ⟨hj1, hj2⟩ := hmem j hj
        exact ⟨hj1, fun hin => hj2 (mem_append_left _ hin)⟩
    · rw [nodup_cons]
      exact ⟨fun hin => (hmem k hin).2 (mem_append_right _ mem_cons_self), hnodup⟩
    · intro m hm
      cases m with
      | zero =>
        rw [take_zero, append_nil, ← hroom]
        exact hown.symm
      | succ m =>
        have hlater := hdrawn m (lt_of_succ_lt_succ hm)
        rw [append_assoc] at hlater
        rw [show i + (m + 1) = i + 1 + m by omega]
        exact hlater

/-! ## Shuffles -/

theorem set_set_eq (l r : List ℕ) {j : ℕ} (hj : j ≤ l.length) (x : ℕ) :
    ((l ++ 0 :: r).set l.length ((l ++ 0 :: r).getD j 0)).set j x = inside_out l j x ++ r := by
  rcases Nat.lt_or_eq_of_le hj with hj | rfl
  · have hget : (l ++ 0 :: r).getD j 0 = l[j] := by
      rw [getD_eq_getElem?_getD, getElem?_append_left hj, getElem?_eq_getElem hj]
      rfl
    rw [hget, set_append_right _ _ le_rfl, Nat.sub_self, set_cons_zero, set_append_left _ _ hj, inside_out, dif_pos hj]
    simp
  · rw [set_append_right _ _ le_rfl, Nat.sub_self, set_cons_zero, set_append_right _ _ le_rfl, Nat.sub_self, set_cons_zero,
      inside_out, dif_neg (lt_irrefl _)]
    simp

theorem ranged_toNat {i : ℕ} (hi : i + 1 < 2 ^ 64) (y : BitVec 64) :
    (next_ranged (ofNat 64 (i + 1)) y).toNat = (i + 1) * y.toNat / 2 ^ 64 := by
  rw [next_ranged_toNat, toNat_ofNat, mod_eq_of_lt hi]

theorem ranged_le {i : ℕ} (hi : i + 1 < 2 ^ 64) (y : BitVec 64) : (next_ranged (ofNat 64 (i + 1)) y).toNat ≤ i := by
  rw [ranged_toNat hi, ← Nat.lt_succ_iff, Nat.div_lt_iff_lt_mul (Nat.two_pow_pos 64)]
  exact (Nat.mul_lt_mul_left (succ_pos i)).2 y.isLt

theorem exists_ranged {i j : ℕ} (hi : i + 1 < 2 ^ 64) (hj : j ≤ i) : ∃ y : BitVec 64, (next_ranged (ofNat 64 (i + 1)) y).toNat = j := by
  have hdiv := div_add_mod (j * 2 ^ 64 + i) (i + 1)
  have hmod : (j * 2 ^ 64 + i) % (i + 1) < i + 1 := mod_lt _ (succ_pos i)
  have hlt : (j * 2 ^ 64 + i) / (i + 1) < 2 ^ 64 := by
    rw [Nat.div_lt_iff_lt_mul (succ_pos i)]
    have hmul : j * 2 ^ 64 ≤ i * 2 ^ 64 := Nat.mul_le_mul_right _ hj
    omega
  refine ⟨ofNat 64 ((j * 2 ^ 64 + i) / (i + 1)), ?_⟩
  rw [ranged_toNat hi, toNat_ofNat, mod_eq_of_lt hlt, Nat.div_eq_iff (Nat.two_pow_pos 64)]
  omega

theorem shuffle_idx_step (gen : ℕ → BitVec 64) {n : ℕ} {l : List ℕ} (hlen : l.length + 1 < 2 ^ 64) :
    shuffle_idx gen (n + 1) l.length (l ++ List.replicate (n + 1) 0) =
      shuffle_idx gen n (l.length + 1)
        (inside_out l (next_ranged (ofNat 64 (l.length + 1)) (gen l.length)).toNat l.length ++ List.replicate n 0) := by
  have hj := ranged_le hlen (gen l.length)
  rw [shuffle_idx, if_pos hj, replicate_succ, set_set_eq l _ hj]

theorem shuffle_idx_perm (gen : ℕ → BitVec 64) {n : ℕ} {l : List ℕ} (hl : l.Perm (List.range l.length)) (hlen : l.length + n < 2 ^ 64) :
    ∃ idx, shuffle_idx gen n l.length (l ++ List.replicate n 0) = some idx ∧ idx.Perm (List.range (l.length + n)) := by
  induction n generalizing l with
  | zero => exact ⟨l, by rw [shuffle_idx, replicate_zero, append_nil], hl⟩
  | succ n ih =>
    rw [shuffle_idx_step gen (by omega)]
    generalize (next_ranged (ofNat 64 (l.length + 1)) (gen l.length)).toNat = j
    have hlength := length_inside_out l j l.length
    have hperm : (inside_out l j l.length).Perm (List.range (inside_out l j l.length).length) := by
      rw [hlength, List.range_succ]
      exact (inside_out_perm l j l.length).trans ((hl.cons _).trans (perm_append_singleton _ _).symm)
    obtain ⟨idx, hrun, hidx⟩ := ih hperm (by omega)
    rw [hlength] at hrun hidx
    exact ⟨idx, hrun, by rw [show l.length + (n + 1) = l.length + 1 + n by omega]; exact hidx⟩

theorem exists_shuffle {n : ℕ} (hn : n < 2 ^ 64) {t : List ℕ} (ht : t.Perm (List.range n)) :
    ∃ gen : ℕ → BitVec 64, ∀ gen', (∀ i < n, gen' i = gen i) → ∀ m, shuffle_idx gen' (n + m) 0 (List.replicate (n + m) 0) =
      shuffle_idx gen' m n (t ++ List.replicate m 0) := by
  induction n generalizing t with
  | zero =>
    obtain rfl : t = [] := perm_nil.1 ht
    exact ⟨fun _ => 0, fun gen' _ m => by simp⟩
  | succ n ih =>
    rw [List.range_succ] at ht
    obtain ⟨l, j, hl, hj, rfl⟩ := exists_inside_out (ht.trans (perm_append_singleton _ _))
    have hlength : l.length = n := by rw [hl.length_eq, length_range]
    rw [length_range] at hj
    obtain ⟨gen, hgen⟩ := ih (by omega) hl
    obtain ⟨y, hy⟩ := exists_ranged (by omega) hj
    refine ⟨Function.update gen n y, fun gen' hsame m => ?_⟩
    have hbefore : ∀ i < n, gen' i = gen i := fun i hi => by
      rw [hsame i (by omega), Function.update_of_ne (by omega)]
    have hlast : gen' n = y := by rw [hsame n (lt_succ_self n), Function.update_self]
    have hstep := shuffle_idx_step gen' (n := m) (l := l) (by omega)
    rw [hlength, hlast, hy] at hstep
    rw [show n + 1 + m = n + (m + 1) by omega, hgen gen' hbefore (m + 1), hstep]

/-! ## Groups of accepted sets -/

theorem exists_nodes {vset : ValidatorSet} (node : ValidatorSet → ℕ → Option ValidatorNode)
    (hnode : ∀ k < vset.list.length, (node vset k).isSome = true)
    {picks : List ℕ} (h : ∀ k ∈ picks, k < vset.list.length) :
    ∃ nodes, picks.mapM (node vset) = some nodes ∧ List.Forall₂ (fun k v => node vset k = some v) picks nodes := by
  induction picks with
  | nil => exact ⟨[], rfl, .nil⟩
  | cons k picks ih =>
    obtain ⟨v, hv⟩ := isSome_iff_exists.1 (hnode k (h k mem_cons_self))
    obtain ⟨nodes, hrun, hnodes⟩ := ih fun k hk => h k (mem_cons_of_mem _ hk)
    exact ⟨v :: nodes, by simp [hv, hrun], .cons hv hnodes⟩

theorem mc_node_isSome {vset : ValidatorSet} (h : k < vset.list.length) : (mc_node vset k).isSome = true := by
  simp [mc_node, h]

theorem shard_node_isSome {vset : ValidatorSet} (h : k < vset.list.length) : (shard_node vset k).isSome = true := by
  simp [shard_node, h]

section
variable {vset : ValidatorSet} (h : vset.Accepted) {ccv_conf : CatchainValidatorsConfig} {shard : ShardIdFull}
include h

theorem shard_group (hshard : shard.is_masterchain = false) (gen : ℕ → BitVec 64) :
    ∃ picks nodes, do_compute_validator_set ccv_conf shard vset gen = some nodes ∧ List.Forall₂ (fun k v => shard_node vset k = some v) picks nodes ∧
      picks.length = min ccv_conf.shard_val_num.toNat vset.total ∧ (∀ k ∈ picks, k < vset.total) ∧ picks.Nodup ∧ Drawn vset.list gen 0 [] picks := by
  have hsize : group_size ccv_conf shard vset = min ccv_conf.shard_val_num.toNat vset.total := by
    rw [group_size, hshard]
    rfl
  have hle : min ccv_conf.shard_val_num.toNat vset.total ≤ vset.list.length := h.length ▸ Nat.min_le_right _ _
  have hroom : vset.total_weight.toNat = room (weight_of vset.list) (remaining vset.list []) := by
    have hall : ∀ n, room (weight_of vset.list) (List.range n) = start_of vset.list n := by
      intro n
      induction n with
      | zero => rfl
      | succ n ih =>
        rw [room] at ih
        rw [room, List.range_succ, map_append, List.sum_append, ih, start_of_succ]
        simp
    rw [h.weighted.total, ← hall, remaining]
    simp
  have hholes : holes_of vset.list [] = [] := by simp [holes_of]
  obtain ⟨picks, hrun, hlen, hmem, hnodup, hdrawn⟩ := shard_picks_spec h gen (min ccv_conf.shard_val_num.toNat vset.total) 0 [] vset.total_weight hroom
    (by simpa using hle)
  rw [hholes] at hrun
  obtain ⟨nodes, hnodes, hforall⟩ := exists_nodes shard_node (fun k hk => shard_node_isSome hk) (fun k hk => (hmem k hk).1)
  refine ⟨picks, nodes, ?_, hforall, hlen, fun k hk => h.length ▸ (hmem k hk).1, hnodup, hdrawn⟩
  rw [do_compute_validator_set, hsize, if_neg (not_not.2 h.length.symm), hshard]
  split
  · next h0 =>
    rw [h0] at hlen
    obtain rfl := length_eq_zero_iff.1 hlen
    cases hforall
    rfl
  · rw [if_neg Bool.false_ne_true, hrun]
    exact hnodes

section
variable (hshard : shard.is_masterchain = true) (hshuffle : ccv_conf.shuffle_mc_val = true)
include hshard hshuffle

theorem do_compute_mc (gen : ℕ → BitVec 64) :
    do_compute_validator_set ccv_conf shard vset gen = (shuffle_idx gen (min vset.main vset.total) 0
      (List.replicate (min vset.main vset.total) 0)).bind fun idx => idx.mapM (mc_node vset) := by
  have hsize : group_size ccv_conf shard vset = min vset.main vset.total := by
    rw [group_size, hshard]
    rfl
  rw [do_compute_validator_set, hsize, if_neg (not_not.2 h.length.symm), hshard, hshuffle]
  split
  · next h0 =>
    rw [h0]
    rfl
  · rfl

theorem mc_group (gen : ℕ → BitVec 64) :
    ∃ picks nodes, do_compute_validator_set ccv_conf shard vset gen = some nodes ∧ List.Forall₂ (fun k v => mc_node vset k = some v) picks nodes ∧
      picks.Perm (List.range (min vset.main vset.total)) := by
  have hle : min vset.main vset.total ≤ vset.list.length := h.length ▸ Nat.min_le_right _ _
  have hlt := h.total_lt
  obtain ⟨idx, hrun, hperm⟩ := shuffle_idx_perm gen (n := min vset.main vset.total) (l := []) (Perm.refl _) (by rw [length_nil]; omega)
  rw [length_nil, Nat.zero_add] at hperm
  obtain ⟨nodes, hnodes, hforall⟩ := exists_nodes mc_node (fun k hk => mc_node_isSome hk)
    (fun k hk => (mem_range.1 (hperm.mem_iff.1 hk)).trans_le hle)
  refine ⟨idx, nodes, ?_, hforall, hperm⟩
  rw [do_compute_mc h hshard hshuffle]
  exact (congrArg (Option.bind · _) hrun).trans hnodes

/-- Every arrangement of the first entries is the group for some numbers. -/
theorem mc_group_onto {picks : List ℕ}
    (hpicks : picks.Perm (List.range (min vset.main vset.total))) :
    ∃ gen nodes, do_compute_validator_set ccv_conf shard vset gen = some nodes ∧ List.Forall₂ (fun k v => mc_node vset k = some v) picks nodes := by
  have hle : min vset.main vset.total ≤ vset.list.length := h.length ▸ Nat.min_le_right _ _
  have hlt := h.total_lt
  obtain ⟨gen, hgen⟩ := exists_shuffle (n := min vset.main vset.total) (by omega) hpicks
  obtain ⟨nodes, hnodes, hforall⟩ := exists_nodes mc_node (fun k hk => mc_node_isSome hk)
    (fun k hk => (mem_range.1 (hpicks.mem_iff.1 hk)).trans_le hle)
  have hrun := hgen gen (fun _ _ => rfl) 0
  rw [Nat.add_zero, replicate_zero, append_nil, shuffle_idx] at hrun
  refine ⟨gen, nodes, ?_, hforall⟩
  rw [do_compute_mc h hshard hshuffle, hrun]
  exact hnodes

end

end

/-- For an accepted set: the weights add up without overflow; a shardchain gets distinct entries, each the owner of the position that its
number gives it among those left; the masterchain gets its first entries in an order that the numbers choose, and every order is chosen. -/
theorem validator_groups {cell : SetCell} {vset : ValidatorSet} (h : ValidatorSet.unpack_validator_set cell = .ok vset)
    (ccv_conf : CatchainValidatorsConfig) (shard : ShardIdFull) :
    (vset.total_weight.toNat = (vset.list.map (·.weight.toNat)).sum ∧
      ∀ k v, vset.list[k]? = some v → v.cum_weight.toNat = ((vset.list.take k).map (·.weight.toNat)).sum) ∧
    (shard.is_masterchain = false → ∀ gen, ∃ picks nodes, do_compute_validator_set ccv_conf shard vset gen = some nodes ∧
      List.Forall₂ (fun k v => shard_node vset k = some v) picks nodes ∧ picks.length = min ccv_conf.shard_val_num.toNat vset.total ∧
      (∀ k ∈ picks, k < vset.total) ∧ picks.Nodup ∧ Drawn vset.list gen 0 [] picks) ∧
    (shard.is_masterchain = true → ccv_conf.shuffle_mc_val = true →
      (∀ gen, ∃ picks nodes, do_compute_validator_set ccv_conf shard vset gen = some nodes ∧
        List.Forall₂ (fun k v => mc_node vset k = some v) picks nodes ∧ picks.Perm (List.range (min vset.main vset.total))) ∧
      ∀ picks : List ℕ, picks.Perm (List.range (min vset.main vset.total)) → ∃ gen nodes,
        do_compute_validator_set ccv_conf shard vset gen = some nodes ∧ List.Forall₂ (fun k v => mc_node vset k = some v) picks nodes) := by
  have hacc := ValidatorSet.unpack_accepted h
  refine ⟨⟨?_, fun k v hk => hacc.weighted.cum k v hk⟩, fun hshard gen => shard_group hacc hshard gen, fun hshard hshuffle => ⟨?_, ?_⟩⟩
  · rw [hacc.weighted.total, start_of, take_length]
  · exact fun gen => mc_group hacc hshard hshuffle gen
  · exact fun picks hpicks => mc_group_onto hacc hshard hshuffle hpicks

/-- Two validators, the first with three quarters of the weight. -/
theorem validator_groups_two :
    let record : SetRecord := ⟨0, 100, 2, 2, [(0, .validator (fun _ => 1) 3), (1, .validator (fun _ => 2) 1)]⟩
    ∃ vset, ValidatorSet.unpack_validator_set (.validators_ext record 4) = .ok vset ∧ vset.total_weight.toNat = 4 ∧
      ∃ picks nodes, do_compute_validator_set ⟨1, true⟩ ⟨0, shardIdAll⟩ vset (fun _ => 0) = some nodes ∧
        List.Forall₂ (fun k v => shard_node vset k = some v) picks nodes ∧ picks.length = min 1 vset.total := by
  intro record
  have hrun : ∃ vset, ValidatorSet.unpack_validator_set (.validators_ext record 4) = .ok vset ∧ vset.list.map (·.weight.toNat) = [3, 1] :=
    ⟨_, rfl, rfl⟩
  obtain ⟨vset, hvset, hweights⟩ := hrun
  obtain ⟨⟨htotal, -⟩, hshard, -⟩ := validator_groups hvset ⟨1, true⟩ ⟨0, shardIdAll⟩
  obtain ⟨picks, nodes, hnodes, hforall, hlen, -⟩ := hshard rfl fun _ => 0
  exact ⟨vset, hvset, by rw [htotal, hweights]; rfl, picks, nodes, hnodes, hforall, hlen⟩

end Ton.Block
