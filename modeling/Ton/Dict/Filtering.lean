import Ton.Lib.Differences
import Ton.Lib.Sift
import Ton.Dict.Subdict
import Ton.Dict.Total
/-!
# filter keeps the chosen entries

A call of `filter` is a pass over the keys in increasing order (`sift`). It returns
exactly if the new nodes fit into cells, that is, if what is kept has a dictionary
(`dict_filter_filters`). A negative answer is returned before the nodes above that key
are built, so only the finished parts to the left of it have to fit (`Ready`).
-/

namespace Ton.Dict
open CellTraits CellBuilder Result BitMap LabelParser Sift List Function Kind

/-! ## Computations that succeed under a condition -/

/-- The computation succeeds, with a value that has the property, if the condition holds, and fails if not. -/
def OkWhen {ε α : Type} (fits : Prop) (x : Except ε α) (P : α → Prop) : Prop :=
  (fits → ∃ a, x = .ok a ∧ P a) ∧ (¬fits → ∃ e, x = .error e)

namespace OkWhen

variable {ε α β : Type} {fits fits' : Prop} {x : Except ε α} {P Q : α → Prop} {R : β → Prop}

theorem ok {a : α} (h : fits) (ha : P a) : OkWhen fits (.ok a : Except ε α) P := ⟨fun _ => ⟨a, rfl, ha⟩, fun hn => absurd h hn⟩

theorem congr (h : OkWhen fits x P) (hiff : fits ↔ fits') : OkWhen fits' x P := ⟨fun hf => h.1 (hiff.2 hf), fun hf => h.2 (mt hiff.1 hf)⟩

theorem bind {f : α → Except ε β} (h : OkWhen fits x P) (hf : fits → ∀ a, P a → OkWhen fits' (f a) R) :
    OkWhen (fits ∧ fits') (x >>= f) R := by
  by_cases hfits : fits
  · obtain ⟨a, rfl, ha⟩ := h.1 hfits
    exact (hf hfits a ha).congr (by simp [hfits])
  · obtain ⟨e, rfl⟩ := h.2 hfits
    exact ⟨fun hb => absurd hb.1 hfits, fun _ => ⟨e, rfl⟩⟩

theorem bind_ok {f : α → Except ε β} (h : OkWhen fits x P) (hf : ∀ a, P a → ∃ b, f a = .ok b ∧ R b) : OkWhen fits (x >>= f) R := by
  refine (h.bind (fun _ a ha => ?_)).congr (and_iff_left trivial)
  obtain ⟨b, hb, hR⟩ := hf a ha
  rw [hb]
  exact ok trivial hR

theorem ok_iff (h : OkWhen fits x P) : (∃ a, x = .ok a) ↔ fits := by
  refine ⟨fun hx => ?_, fun hf => ?_⟩
  · by_contra hno
    obtain ⟨a, ha⟩ := hx
    obtain ⟨e, he⟩ := h.2 hno
    rw [ha] at he
    cases he
  · obtain ⟨a, ha, -⟩ := h.1 hf
    exact ⟨a, ha⟩

theorem of_ok (h : OkWhen fits x P) {a : α} (hx : x = .ok a) : P a := by
  obtain ⟨b, hb, hP⟩ := h.1 (h.ok_iff.1 ⟨a, hx⟩)
  rw [hx] at hb
  cases hb
  exact hP

end OkWhen

/-! ## Forks of what is left -/

section Join
variable {n m : Nat} {f g : BitMap CellSlice} {bits : List Bool} {c : DataCell}

theorem finish_create_fork_of_node {c1 c2 : DataCell} {k : Nat} (h : Node bits n ⟨[], [c1, c2]⟩ c) :
    Virtual.fixed.finish_create_fork ⟨labelBits bits n, []⟩ c1 c2 k = .ok c := by
  have hcell := h.cell
  rw [append_nil] at hcell
  exact hcell

/-- The children are put together whenever what they hold has a dictionary. -/
theorem join_children_ok {c1 c2 : Option DataCell} (h1 : Root .plain m f c1) (h2 : Root .plain m g c2) (hn : n = bits.length + (m + 1)) :
    OkWhen (Fits .plain n (under bits (split f g))) (join_children .fixed bits n c1 c2) (Root .plain n (under bits (split f g))) := by
  have hroot : ∀ {c}, join_children .fixed bits n c1 c2 = .ok c → Root .plain n (under bits (split f g)) c := fun hc =>
    join_children_root Virtual.fixed_follows h1 h2 hn hc
  have hok : Fits .plain n (under bits (split f g)) → ∃ c, join_children .fixed bits n c1 c2 = .ok c := by
    intro hfits
    have hm : n - bits.length - 1 = m := by omega
    unfold join_children
    -- an edge to a single child takes in the edge below it
    have hmerge : ∀ {f : BitMap CellSlice} {c : DataCell} (b : Bool) (error : String), Root .plain m f (some c) →
        Fits .plain n (under bits (under [b] f)) → ∃ c', (do
          let label3 ← LabelParser.parse c (n - bits.length - 1) Virtual.fixed.label_mode
          some <$> relabel_edge (bits ++ [b] ++ label3.extract_label.1) n label3.extract_label.2.remainder error) = .ok c' := by
      intro f c b error hc hfits
      obtain ⟨q, j, g, p, hj, rfl, hp, hnode⟩ := hc.exists_node
      obtain ⟨lp, hlp, hr⟩ := hnode.parse_ok fun hlt => hp.passes plain_fixed plain_passes (by omega)
      rw [under_under, under_under] at hfits
      obtain ⟨c', hc'⟩ := hfits.exists_node plain_canonical hp (by simp only [length_append, length_singleton]; omega)
      rw [hm, show LabelParser.parse c m Virtual.fixed.label_mode = .ok lp from hlp, ok_bind, hr.extract_label.1, hr.extract_label.2,
        hc'.relabel_edge]
      exact ⟨_, rfl⟩
    cases c1 with
    | none =>
      obtain rfl : f = empty := h1
      cases c2 with
      | none => exact ⟨none, rfl⟩
      | some c2 =>
        rw [split_empty_left] at hfits
        exact hmerge true _ h2 hfits
    | some c1 =>
      cases c2 with
      | none =>
        obtain rfl : g = empty := h2
        rw [split_empty_right] at hfits
        exact hmerge false _ h1 hfits
      | some c2 =>
        subst hn
        obtain ⟨p, c, hp, hnode⟩ := hfits.exists_fork plain_canonical h1 h2
        obtain rfl : p = ⟨[], [c1, c2]⟩ := hp
        dsimp only
        rw [hnode.append_dict_label, ok_bind, finish_create_fork_of_node hnode]
        exact ⟨_, rfl⟩
  refine ⟨fun hfits => ?_, fun hno => ?_⟩
  · obtain ⟨c, hc⟩ := hok hfits
    exact ⟨c, hc, hroot hc⟩
  · cases hj : join_children .fixed bits n c1 c2 with
    | ok c => exact absurd ⟨c, hroot hj⟩ hno
    | error e => exact ⟨e, rfl⟩

end Join

/-! ## Answers -/

def verdict (res : Int) : Answer :=
  if res < 0 then .fail else if res = 0 then .drop else if res < 2 ^ 30 then .keep else if res = 2 ^ 30 then .dropRest else .keepRest

/-- What the callback returns for a key. -/
def code (check_leaf : FilterFunc) (pre : List Bool) (f : BitMap CellSlice) (k : List Bool) : Int :=
  match f k with
  | none => 0
  | some v => check_leaf v (pre ++ k)

/-- The callback returns an `int`. -/
def FilterFunc.IsInt (check_leaf : FilterFunc) : Prop := ∀ v key, check_leaf v key < 2 ^ 31

/-- The values of `skip_rest`. -/
def skip_rest : Rest → Int
  | .ask => -1
  | .keep => 0
  | .drop => 2 ^ 30

/-- The counter of changes: the number of removed keys, or `2 ^ 30` when some were dropped without being asked for, or when a
part of the dictionary has lost so many that the two cannot be told apart. -/
structure Counts (changes : Int) (removed : Nat) (unseen : Prop) : Prop where
  nonneg : 0 ≤ changes
  lt : changes < 2 ^ 31
  zero : changes = 0 ↔ removed = 0
  of_unseen : unseen → changes = 2 ^ 30
  of_seen : ¬unseen → changes = removed ∨ 2 ^ 30 ≤ removed ∧ changes = 2 ^ 30

theorem testBit_30 {c : Int} (h0 : 0 ≤ c) (hlt : c < 2 ^ 31) : c.toNat.testBit 30 = decide (2 ^ 30 ≤ c) := by
  rw [Nat.testBit_eq_decide_div_mod_eq]
  exact decide_eq_decide.2 (by omega)

section Counts
variable {unseen unseen' : Prop}

theorem counts_nothing (h : ¬unseen) : Counts 0 0 unseen :=
  ⟨le_rfl, by decide, by decide, fun hu => absurd hu h, fun _ => .inl rfl⟩

theorem counts_one (h : ¬unseen) : Counts 1 1 unseen :=
  ⟨by decide, by decide, by decide, fun hu => absurd hu h, fun _ => .inl rfl⟩

theorem counts_unseen {removed : Nat} (h : removed ≠ 0) (hu : unseen) : Counts (2 ^ 30) removed unseen :=
  ⟨by decide, by decide, iff_of_false (by decide) h, fun _ => rfl, fun hn => absurd hu hn⟩

theorem Counts.seen {removed : Nat} (h : Counts 0 removed unseen) : ¬unseen := by
  intro hu
  have := h.of_unseen hu
  omega

theorem Counts.add {c1 c2 : Int} {r1 r2 : Nat} (h1 : Counts c1 r1 unseen) (h2 : Counts c2 r2 unseen') :
    Counts (if c1.toNat.testBit 30 || c2.toNat.testBit 30 then 2 ^ 30 else c1 + c2) (r1 + r2) (unseen ∨ unseen') := by
  have hn1 := h1.nonneg
  have hn2 := h2.nonneg
  have hz1 := h1.zero
  have hz2 := h2.zero
  simp only [testBit_30 h1.nonneg h1.lt, testBit_30 h2.nonneg h2.lt, ← Bool.decide_or, decide_eq_true_eq]
  split
  · next hbig =>
    refine ⟨by omega, by omega, by omega, fun _ => rfl, fun hu => .inr ⟨?_, rfl⟩⟩
    rw [not_or] at hu
    have hs1 := h1.of_seen hu.1
    have hs2 := h2.of_seen hu.2
    omega
  · next hsmall =>
    have hseen : ¬unseen := by
      intro hu
      have := h1.of_unseen hu
      omega
    have hseen' : ¬unseen' := by
      intro hu
      have := h2.of_unseen hu
      omega
    have hs1 := h1.of_seen hseen
    have hs2 := h2.of_seen hseen'
    refine ⟨by omega, by omega, by omega, fun hu => absurd hu (not_or.2 ⟨hseen, hseen'⟩), fun _ => .inl ?_⟩
    push_cast
    omega

end Counts

/-! ## The parts to the left of a key -/

/-- The parts of the map that a descent to the key leaves on its left have dictionaries. -/
def Ready (n : Nat) (f : BitMap CellSlice) (key : List Bool) : Prop :=
  ∀ q, q ++ [true] <+: key → Fits .plain (n - (q.length + 1)) (following (q ++ [false]) f)

theorem ready_empty (n : Nat) (key : List Bool) : Ready n empty key := fun _ _ => fits_empty _ _

theorem ready_under_split {n m : Nat} {f g : BitMap CellSlice} {label k : List Bool} {b : Bool} (hn : n = label.length + (m + 1)) :
    Ready n (under label (split f g)) (label ++ b :: k) ↔ (b = true → Fits .plain m f) ∧ Ready m (if b then g else f) k := by
  have hbelow : ∀ q, following (label ++ b :: q ++ [false]) (under label (split f g)) = following (q ++ [false]) (if b then g else f) := by
    intro q
    rw [append_assoc, cons_append, following_under_append, following_split]
  have hlen : ∀ q : List Bool, n - ((label ++ b :: q).length + 1) = m - (q.length + 1) := by
    intro q
    rw [length_append, length_cons]
    omega
  constructor
  · intro h
    refine ⟨?_, fun q hq => ?_⟩
    · rintro rfl
      have hhere := h label (by simp)
      rw [following_under_append, following_split, show n - (label.length + 1) = m by omega] at hhere
      exact hhere
    · have hthere := h (label ++ b :: q) (by simpa using hq)
      rwa [hbelow, hlen] at hthere
  · rintro ⟨hleft, hright⟩ q hq
    by_cases hout : label <+: q
    · obtain ⟨r, rfl⟩ := hout
      rw [append_assoc, prefix_append_right_inj] at hq
      cases r with
      | nil =>
        obtain ⟨rfl, -⟩ := cons_prefix_cons.1 hq
        rw [append_nil, following_under_append, following_split, show n - (label.length + 1) = m by omega]
        exact hleft rfl
      | cons x r =>
        obtain ⟨rfl, hrest⟩ := cons_prefix_cons.1 hq
        rw [hbelow, hlen]
        exact hright r hrest
    · -- the descent turns inside the label, where nothing is on its left
      obtain ⟨r, rfl⟩ : q ++ [true] <+: label := by
        rcases prefix_or_prefix_of_prefix hq (prefix_append label (b :: k)) with hin | hin
        · exact hin
        · rw [prefix_concat_iff.1 hin |>.resolve_right hout]
      rw [following_under_off]
      · exact fits_empty _ _
      · simp
      · simp

/-! ## The pass -/

/-- What is returned when `kept` of the keys `ks` are kept. -/
structure Kept (n : Nat) (f : BitMap CellSlice) (ks kept unseen : List (List Bool)) (rest : Rest) (res : Filtered) : Prop where
  rest : res.skip_rest = skip_rest rest
  counts : Counts res.changes (ks.length - kept.length) (unseen ≠ [])
  root : res.changes ≠ 0 → Root .plain n (only f kept) res.cell

/-- What a call does with the keys `ks` of a map. -/
def Filters (check_leaf : FilterFunc) (pre : List Bool) (n : Nat) (f : BitMap CellSlice) (ks : List (List Bool)) (rest : Rest)
    (r : Except Exc Filtered) : Prop :=
  match sift (fun k => verdict (code check_leaf pre f k)) rest ks with
  | .stopped kept k => OkWhen (Ready n (only f kept) k) r fun res => res.changes = code check_leaf pre f k
  | .done kept unseen rest => OkWhen (Fits .plain n (only f kept)) r (Kept n f ks kept unseen rest)

theorem verdict_fail {res : Int} (h : verdict res = .fail) : res < 0 := by
  unfold verdict at h
  split_ifs at h
  assumption

section Pass
variable {check_leaf : FilterFunc} {pre label : List Bool} {n m : Nat} {f g : BitMap CellSlice} {ks ls : List (List Bool)} {rest : Rest}
  {c c1 c2 : DataCell}

theorem code_under_split (b : Bool) (k : List Bool) : code check_leaf pre (under label (split f g)) (label ++ b :: k) =
    code check_leaf (pre ++ label ++ [b]) (if b then g else f) k := by
  rw [code, under_append, split_cons]
  cases b <;> simp [code]

theorem sift_under_split (r : Rest) : sift (fun k => verdict (code check_leaf pre (under label (split f g)) k)) r
      (ks.map (label ++ false :: ·) ++ ls.map (label ++ true :: ·)) =
    ((sift (fun k => verdict (code check_leaf (pre ++ label ++ [false]) f k)) r ks).map (label ++ false :: ·)).andThen fun r' =>
      (sift (fun k => verdict (code check_leaf (pre ++ label ++ [true]) g k)) r' ls).map (label ++ true :: ·) := by
  simp only [sift_append, sift_map, code_under_split, Bool.false_eq_true, if_false, if_true]

theorem asked_under_split : asked (fun k => verdict (code check_leaf pre (under label (split f g)) k)) .ask
      (ks.map (label ++ false :: ·) ++ ls.map (label ++ true :: ·)) =
    (asked (fun k => verdict (code check_leaf (pre ++ label ++ [false]) f k)) .ask ks).map (label ++ false :: ·) ++
      match sift (fun k => verdict (code check_leaf (pre ++ label ++ [false]) f k)) .ask ks with
      | .stopped _ _ => []
      | .done _ _ r => (asked (fun k => verdict (code check_leaf (pre ++ label ++ [true]) g k)) r ls).map (label ++ true :: ·) := by
  simp only [asked_append, asked_map, sift_map, code_under_split, Bool.false_eq_true, if_false, if_true]
  cases sift (fun k => verdict (code check_leaf (pre ++ label ++ [false]) f k)) .ask ks <;> rfl

theorem leaf_filters (hcheck : check_leaf.IsInt) (v : CellSlice) {cell : DataCell}
    (hd : Root .plain label.length (under label (single v)) (some cell)) :
    Filters check_leaf pre label.length (under label (single v)) [label] .ask
      (let res := check_leaf v (pre ++ label)
       let res' := if res ≥ 2 ^ 30 then res % 2 ^ 30 else res
       let skip := if res ≥ 2 ^ 30 then if res' ≠ 0 then 0 else 2 ^ 30 else -1
       .ok ⟨none, if res' < 0 then res' else if res' = 0 then 1 else 0, skip⟩) := by
  have hcode : code check_leaf pre (under label (single v)) label = check_leaf v (pre ++ label) := by
    rw [code, under_single, update_self]
  have hkeys : Keys (under label (single v)) [label] := by
    rw [under_single]
    exact keys_of_key
  have hint := hcheck v (pre ++ label)
  unfold Filters
  rw [sift, sift_nil]
  simp only [hcode]
  generalize check_leaf v (pre ++ label) = res at *
  obtain hneg | hzero | ⟨hpos, hlt⟩ | hall | hall : res < 0 ∨ res = 0 ∨ 0 < res ∧ res < 2 ^ 30 ∨ res = 2 ^ 30 ∨ 2 ^ 30 < res := by omega
  · have hv : verdict res = .fail := by rw [verdict, if_pos hneg]
    rw [hv, if_neg (show ¬res ≥ 2 ^ 30 by omega), if_pos hneg]
    dsimp only
    rw [only_nil, hcode]
    exact .ok (ready_empty _ _) rfl
  · have hv : verdict res = .drop := by rw [verdict, if_neg (by omega), if_pos hzero]
    rw [hv, hzero]
    exact .ok (fits_empty _ _) ⟨rfl, counts_one (by simp), fun _ => rfl⟩
  · have hv : verdict res = .keep := by rw [verdict, if_neg (by omega), if_neg (by omega), if_pos hlt]
    rw [hv, if_neg (show ¬res ≥ 2 ^ 30 by omega), if_neg (show ¬res < 0 by omega), if_neg (show ¬res = 0 by omega),
      if_neg (show ¬res ≥ 2 ^ 30 by omega)]
    dsimp only [Outcome.after, append_nil, singleton_append]
    rw [hkeys.only_self]
    exact .ok ⟨_, hd⟩ ⟨rfl, counts_nothing (by simp), fun h => absurd rfl h⟩
  · have hv : verdict res = .dropRest := by rw [hall]; rfl
    rw [hv, hall]
    exact .ok (fits_empty _ _) ⟨rfl, counts_one (by simp), fun _ => rfl⟩
  · have hv : verdict res = .keepRest := by
      rw [verdict, if_neg (by omega), if_neg (by omega), if_neg (by omega), if_neg (by omega)]
    have hmod : res % 2 ^ 30 = res - 2 ^ 30 := by omega
    rw [hv, if_pos (show res ≥ 2 ^ 30 by omega), hmod, if_neg (show ¬res - 2 ^ 30 < 0 by omega), if_neg (show ¬res - 2 ^ 30 = 0 by omega),
      if_pos (show res ≥ 2 ^ 30 by omega), if_pos (show res - 2 ^ 30 ≠ 0 by omega)]
    dsimp only
    rw [hkeys.only_self]
    exact .ok ⟨_, hd⟩ ⟨rfl, counts_nothing (by simp), fun h => absurd rfl h⟩

theorem Kept.child {kept unseen : List (List Bool)} {rest : Rest} {res : Filtered} (h : Kept n f ks kept unseen rest res) (hks : Keys f ks)
    (hsub : kept.Sublist ks) (hd : Root .plain n f (some c1)) : Root .plain n (only f kept) (if res.changes ≠ 0 then res.cell else some c1) := by
  split
  · next hne => exact h.root hne
  · next hzero =>
    have hlen := h.counts.zero.1 (not_not.1 hzero)
    have hle := hsub.length_le
    rw [hsub.eq_of_length (by omega), hks.only_self]
    exact hd

theorem fork_filters {x : Except Exc Filtered} {y : Int → Except Exc Filtered} (hn : n = label.length + (m + 1))
    (hx : Filters check_leaf (pre ++ label ++ [false]) m f ks .ask x)
    (hy : ∀ rest, Filters check_leaf (pre ++ label ++ [true]) m g ls rest (y (skip_rest rest)))
    (hks : Keys f ks) (hls : Keys g ls) (h1 : Root .plain m f (some c1)) (h2 : Root .plain m g (some c2))
    (hd : Root .plain n (under label (split f g)) (some c)) :
    Filters check_leaf pre n (under label (split f g)) (ks.map (label ++ false :: ·) ++ ls.map (label ++ true :: ·)) .ask (do
      let left_res ← x
      if left_res.changes < 0 then .ok left_res
      else do
        let right_res ← y left_res.skip_rest
        if right_res.changes < 0 ∨ (left_res.changes = 0 ∧ right_res.changes = 0) then .ok right_res
        else do
          let left := if left_res.changes ≠ 0 then left_res.cell else some c1
          let right := if right_res.changes ≠ 0 then right_res.cell else some c2
          let changes := if left_res.changes.toNat.testBit 30 || right_res.changes.toNat.testBit 30 then 2 ^ 30
            else left_res.changes + right_res.changes
          let c ← join_children .fixed label n left right
          .ok ⟨c, changes, right_res.skip_rest⟩) := by
  unfold Filters at hx hy
  have hsift : sift (fun k => verdict (code check_leaf pre (under label (split f g)) k)) .ask
      (ks.map (label ++ false :: ·) ++ ls.map (label ++ true :: ·)) = _ := sift_under_split .ask
  cases hleft : sift (fun k => verdict (code check_leaf (pre ++ label ++ [false]) f k)) .ask ks with
  | stopped kept k =>
    rw [hleft] at hx hsift
    have hstop := sift_stopped _ hleft
    have hready : Ready n (only (under label (split f g)) (kept.map (label ++ false :: ·))) (label ++ false :: k) ↔ Ready m (only f kept) k := by
      have honly := only_under_split label f g kept []
      rw [map_nil, append_nil] at honly
      rw [honly, ready_under_split hn]
      simp
    rw [Filters, hsift, Outcome.map_stopped, Outcome.andThen_stopped]
    refine (OkWhen.bind_ok hx fun res hres => ?_).congr hready.symm
    rw [hres, if_pos (verdict_fail hstop)]
    refine ⟨res, rfl, ?_⟩
    rw [hres, code_under_split]
    rfl
  | done kept unseen r =>
    rw [hleft, Outcome.map_done, Outcome.andThen_done] at hsift
    rw [hleft] at hx
    have hsub := sift_sublist _ hleft
    have hy := hy r
    cases hright : sift (fun k => verdict (code check_leaf (pre ++ label ++ [true]) g k)) r ls with
    | stopped kept' k =>
      rw [hright] at hy hsift
      have hstop := sift_stopped _ hright
      have hready : Ready n (only (under label (split f g)) (kept.map (label ++ false :: ·) ++ kept'.map (label ++ true :: ·))) (label ++ true :: k) ↔
          Fits .plain m (only f kept) ∧ Ready m (only g kept') k := by
        rw [only_under_split, ready_under_split hn]
        simp
      rw [Filters, hsift, Outcome.map_stopped, Outcome.after_stopped]
      refine OkWhen.congr (OkWhen.bind hx fun _ res hres => ?_) hready.symm
      rw [if_neg (by have := hres.counts.nonneg; omega), hres.rest]
      refine OkWhen.bind_ok hy fun res' hres' => ?_
      rw [hres', if_pos (.inl (verdict_fail hstop))]
      refine ⟨res', rfl, ?_⟩
      rw [hres', code_under_split]
      rfl
    | done kept' unseen' r' =>
      rw [hright] at hy hsift
      have hsub' := sift_sublist _ hright
      have hparts : Fits .plain n (under label (split (only f kept) (only g kept'))) →
          Fits .plain m (only f kept) ∧ Fits .plain m (only g kept') := by
        intro hfits
        have hside : ∀ b : Bool, Fits .plain m (if b then only g kept' else only f kept) := by
          intro b
          have hpart := hfits.following (q := label ++ [b]) plain_fixed (by rw [length_append, length_singleton]; omega)
          rw [following_under_append, following_split, show n - (label ++ [b]).length = m by simp; omega] at hpart
          exact hpart
        exact ⟨hside false, hside true⟩
      rw [Filters, hsift, Outcome.map_done, Outcome.after_done]
      dsimp only
      rw [only_under_split]
      have hwhole : Fits .plain n (under label (split (only f kept) (only g kept'))) ↔
          Fits .plain m (only f kept) ∧ Fits .plain m (only g kept') ∧ Fits .plain n (under label (split (only f kept) (only g kept'))) :=
        ⟨fun h => ⟨(hparts h).1, (hparts h).2, h⟩, fun h => h.2.2⟩
      refine (OkWhen.bind hx fun _ res hres => ?_).congr hwhole.symm
      rw [if_neg (by have := hres.counts.nonneg; omega), hres.rest]
      refine OkWhen.bind hy fun _ res' hres' => ?_
      have hlen := hsub.length_le
      have hlen' := hsub'.length_le
      have hremoved : (ks.map (label ++ false :: ·) ++ ls.map (label ++ true :: ·)).length -
          (kept.map (label ++ false :: ·) ++ kept'.map (label ++ true :: ·)).length =
          ks.length - kept.length + (ls.length - kept'.length) := by
        simp only [length_append, length_map]
        omega
      have hunseen : (unseen.map (label ++ false :: ·) ++ unseen'.map (label ++ true :: ·) ≠ []) = (unseen ≠ [] ∨ unseen' ≠ []) := by
        simp [imp_iff_not_or]
      by_cases hzero : res.changes = 0 ∧ res'.changes = 0
      · -- nothing is removed
        have hc := hres.counts
        have hc' := hres'.counts
        rw [hzero.1] at hc
        rw [hzero.2] at hc'
        have hks' := hc.zero.1 rfl
        have hls' := hc'.zero.1 rfl
        rw [if_pos (.inr hzero), hsub.eq_of_length (by omega), hsub'.eq_of_length (by omega), hks.only_self, hls.only_self]
        refine .ok ⟨_, hd⟩ ⟨hres'.rest, ?_, fun hne => absurd hzero.2 hne⟩
        rw [hunseen, hzero.2, Nat.sub_self]
        exact counts_nothing (not_or.2 ⟨hc.seen, hc'.seen⟩)
      · have hnonneg := hres'.counts.nonneg
        rw [if_neg (by omega)]
        have hjoin := join_children_ok (hres.child hks hsub h1) (hres'.child hls hsub' h2) hn
        refine OkWhen.bind_ok hjoin fun c hc => ⟨_, rfl, hres'.rest, ?_, fun _ => ?_⟩
        · rw [hremoved, hunseen]
          exact hres.counts.add hres'.counts
        · rw [only_under_split]
          exact hc

theorem Root.exists_keys {K : Kind} {o : Option DataCell} (hd : Root K n f o) : ∃ ks, Keys f ks := by
  have trie : ∀ t : Trie CellSlice, ∃ ks, Keys t.lookup ks := by
    intro t
    induction t with
    | leaf label v => exact ⟨[label], keys_of_key⟩
    | fork label l r ihl ihr =>
      obtain ⟨ks, hks⟩ := ihl
      obtain ⟨ls, hls⟩ := ihr
      exact ⟨_, hks.under_split hls label⟩
  cases o with
  | none =>
    obtain rfl : f = empty := hd
    exact ⟨[], keys_empty⟩
  | some c =>
    obtain ⟨t, -, rfl⟩ := hd
    exact trie t

theorem dict_filter_filters (hcheck : check_leaf.IsInt) (n : Nat) {f : BitMap CellSlice} {dict : Option DataCell} {pre : List Bool} {rest : Rest}
    {ks : List (List Bool)} (hd : Root .plain n f dict) (hks : Keys f ks) :
    Filters check_leaf pre n f ks rest (dict_filter .fixed check_leaf dict pre n (skip_rest rest)) := by
  induction n using Nat.strong_induction_on generalizing f dict pre rest ks with
  | _ n ih =>
  rw [dict_filter.eq_def]
  cases dict with
  | none =>
    obtain rfl : f = empty := hd
    obtain rfl := hks.unique keys_empty
    rw [Filters, sift_nil]
    exact .ok (fits_empty _ _) ⟨rfl, counts_nothing (by simp), fun h => absurd rfl h⟩
  | some cell =>
    cases rest with
    | keep =>
      rw [Filters, sift_keep]
      dsimp only
      rw [hks.only_self, if_pos (by decide)]
      exact .ok ⟨_, hd⟩ ⟨rfl, by rw [Nat.sub_self]; exact counts_nothing (by simp), fun h => absurd rfl h⟩
    | drop =>
      have hne : ks ≠ [] := by
        rintro rfl
        exact hd.ne_empty (hks.only_self.symm.trans (only_nil f))
      rw [Filters, sift_drop]
      dsimp only
      rw [only_nil, if_pos (by decide)]
      exact .ok (fits_empty _ _) ⟨rfl, counts_unseen (by simpa using hne) hne, fun _ => rfl⟩
    | ask =>
      obtain ⟨label, m, g, p, hn, rfl, hp, hnode⟩ := hd.exists_node
      obtain ⟨lp, hlp, hr⟩ := hnode.parse_ok fun hlt => hp.passes plain_fixed plain_passes (by omega)
      dsimp only
      rw [if_neg (by decide), show LabelParser.parse cell n Virtual.fixed.label_mode = .ok lp from hlp, ok_bind]
      simp only [hr.extract_label, hr.extract_l_bits]
      cases hp with
      | leaf hv =>
        obtain ⟨rfl, rfl⟩ := hv
        rw [Nat.add_zero] at hn
        subst hn
        have hkeys : Keys (under label (single p)) [label] := by
          rw [under_single]
          exact keys_of_key
        obtain rfl := hks.unique hkeys
        rw [dif_neg (by omega), dif_pos rfl]
        exact leaf_filters hcheck p hd
      | @fork m f₀ f₁ c1 c2 p h1 h2 hp =>
        obtain rfl : p = ⟨[], [c1, c2]⟩ := hp
        obtain ⟨ks₀, hks₀⟩ := h1.exists_keys
        obtain ⟨ks₁, hks₁⟩ := h2.exists_keys
        obtain rfl := hks.unique (hks₀.under_split hks₁ label)
        rw [dif_neg (by omega), dif_neg (by omega), show n - label.length - 1 = m by omega]
        exact fork_filters hn (ih m (by omega) h1 hks₀) (fun rest => ih m (by omega) h2 hks₁) hks₀ hks₁ h1 h2 hd

theorem dict_filter_congr {check_leaf' : FilterFunc} (hcheck : check_leaf.IsInt) (n : Nat) {f : BitMap CellSlice} {dict : Option DataCell}
    {pre : List Bool} {rest : Rest} {ks : List (List Bool)} (hd : Root .plain n f dict) (hks : Keys f ks)
    (hsame : ∀ k ∈ asked (fun k => verdict (code check_leaf pre f k)) rest ks, code check_leaf' pre f k = code check_leaf pre f k) :
    dict_filter .fixed check_leaf' dict pre n (skip_rest rest) = dict_filter .fixed check_leaf dict pre n (skip_rest rest) := by
  induction n using Nat.strong_induction_on generalizing f dict pre rest ks with
  | _ n ih =>
  rw [dict_filter.eq_def, dict_filter.eq_def _ check_leaf]
  cases dict with
  | none => rfl
  | some cell =>
    cases rest with
    | keep => rfl
    | drop => rfl
    | ask =>
      obtain ⟨label, m, g, p, hn, rfl, hp, hnode⟩ := hd.exists_node
      obtain ⟨lp, hlp, hr⟩ := hnode.parse_ok fun hlt => hp.passes plain_fixed plain_passes (by omega)
      dsimp only
      rw [if_neg (by decide), if_neg (by decide), show LabelParser.parse cell n Virtual.fixed.label_mode = .ok lp from hlp, ok_bind, ok_bind]
      simp only [hr.extract_label, hr.extract_l_bits]
      cases hp with
      | leaf hv =>
        obtain ⟨rfl, rfl⟩ := hv
        rw [Nat.add_zero] at hn
        subst hn
        have hkeys : Keys (under label (single p)) [label] := by
          rw [under_single]
          exact keys_of_key
        obtain rfl := hks.unique hkeys
        have hleaf := hsame label (by rw [asked]; split <;> simp)
        rw [code, code, under_single, update_self] at hleaf
        dsimp only at hleaf
        rw [dif_neg (by omega), dif_pos rfl, dif_neg (by omega), dif_pos rfl, hleaf]
      | @fork m f₀ f₁ c1 c2 p h1 h2 hp =>
        obtain rfl : p = ⟨[], [c1, c2]⟩ := hp
        obtain ⟨ks₀, hks₀⟩ := h1.exists_keys
        obtain ⟨ks₁, hks₁⟩ := h2.exists_keys
        obtain rfl := hks.unique (hks₀.under_split hks₁ label)
        rw [dif_neg (by omega), dif_neg (by omega), dif_neg (by omega), dif_neg (by omega), show n - label.length - 1 = m by omega]
        have e1 : CellSlice.prefetch_ref ⟨[], [c1, c2]⟩ 0 = some c1 := rfl
        have e2 : CellSlice.prefetch_ref ⟨[], [c1, c2]⟩ 1 = some c2 := rfl
        rw [asked_under_split] at hsame
        have hleft : dict_filter .fixed check_leaf' (some c1) (pre ++ label ++ [false]) m (skip_rest .ask) =
            dict_filter .fixed check_leaf (some c1) (pre ++ label ++ [false]) m (skip_rest .ask) := ih m (by omega) h1 hks₀ fun k hk => by
          have hk' := hsame (label ++ false :: k) (mem_append_left _ (mem_map_of_mem hk))
          rwa [code_under_split, code_under_split] at hk'
        have hfilters : Filters check_leaf (pre ++ label ++ [false]) m f₀ ks₀ .ask _ := dict_filter_filters hcheck m h1 hks₀
        rw [e1, e2, hleft]
        cases hx : dict_filter .fixed check_leaf (some c1) (pre ++ label ++ [false]) m (skip_rest .ask) with
        | error e => rfl
        | ok left_res =>
          rw [ok_bind, ok_bind]
          by_cases hneg : left_res.changes < 0
          · rw [if_pos hneg, if_pos hneg]
          · rw [if_neg hneg, if_neg hneg]
            rw [hx, Filters] at hfilters
            cases hs : sift (fun k => verdict (code check_leaf (pre ++ label ++ [false]) f₀ k)) .ask ks₀ with
            | stopped kept k =>
              rw [hs] at hfilters
              have hstop := sift_stopped _ hs
              exact absurd (hfilters.of_ok rfl ▸ verdict_fail hstop) hneg
            | done kept unseen r =>
              rw [hs] at hfilters hsame
              have hright : dict_filter .fixed check_leaf' (some c2) (pre ++ label ++ [true]) m (skip_rest r) =
                  dict_filter .fixed check_leaf (some c2) (pre ++ label ++ [true]) m (skip_rest r) := ih m (by omega) h2 hks₁ fun k hk => by
                have hk' := hsame (label ++ true :: k) (mem_append_right _ (mem_map_of_mem hk))
                rwa [code_under_split, code_under_split] at hk'
              rw [(hfilters.of_ok rfl).rest, hright]

end Pass

/-! ## Dictionaries -/

section Holds
variable {d d' : Dictionary} {f g : BitMap CellSlice} {check_leaf : FilterFunc} {ks : List (List Bool)}

theorem Dictionary.Holds.map_unique (hf : d.Holds f) (hg : d.Holds g) : f = g := by
  funext k
  by_cases hk : k.length = d.key_bits
  · exact Except.ok.inj ((hf.lookup hk).symm.trans (hg.lookup hk))
  · rw [hf.map_length hk, hg.map_length hk]

/-- What `filter` returns when `kept` of the keys `ks` are kept. -/
structure FilterReturns (d : Dictionary) (f : BitMap CellSlice) (ks kept : List (List Bool)) (unseen : Prop) (r : Dictionary × Int) : Prop where
  bits : r.1.key_bits = d.key_bits
  holds : r.1.Holds (only f kept)
  counts : Counts r.2 (ks.length - kept.length) unseen
  unchanged : r.2 = 0 ↔ r.1 = d

theorem Dictionary.filter_eq (hd : d.Holds f) : d.filter check_leaf = (do
    let res ← dict_filter .fixed check_leaf d.root_cell [] d.key_bits (skip_rest .ask)
    .ok (if res.changes > 0 then { d with root_cell := res.cell } else d, res.changes)) := by
  rw [Dictionary.filter, hd.force_validate, ok_bind]
  rfl

theorem Kept.returns {kept unseen : List (List Bool)} {rest : Rest} {res : Filtered} (hd : d.Holds f) (hks : Keys f ks)
    (hsub : kept.Sublist ks) (h : Kept d.key_bits f ks kept unseen rest res) :
    FilterReturns d f ks kept (unseen ≠ []) (if res.changes > 0 then { d with root_cell := res.cell } else d, res.changes) := by
  have hnonneg := h.counts.nonneg
  have hle := hsub.length_le
  by_cases hzero : res.changes = 0
  · have hlen := h.counts.zero.1 hzero
    rw [if_neg (by omega)]
    refine ⟨rfl, ?_, h.counts, iff_of_true hzero rfl⟩
    rw [hsub.eq_of_length (by omega), hks.only_self]
    exact hd
  · rw [if_pos (by omega)]
    have hholds : Dictionary.Holds { d with root_cell := res.cell } (only f kept) := ⟨h.root hzero, hd.bits⟩
    refine ⟨rfl, hholds, h.counts, iff_of_false hzero fun he => hzero (h.counts.zero.2 ?_)⟩
    -- with the same root, every key is still there
    have hsame := hd.map_unique (show d.Holds (only f kept) from he ▸ hholds)
    have hnodup : ks.Nodup := hks.ordered.imp BitOrder.Ahead.ne
    have hall : ks.Subperm kept := hnodup.subperm fun k hk => by
      rw [hks.mem, hsame, only] at hk
      by_contra hno
      rw [if_neg hno] at hk
      exact hk rfl
    have := hall.length_le
    omega

theorem Dictionary.Holds.filter_outcome (hd : d.Holds f) (hks : Keys f ks) (hcheck : check_leaf.IsInt) :
    match sift (fun k => verdict (code check_leaf [] f k)) .ask ks with
      | .stopped kept k => OkWhen (Ready d.key_bits (only f kept) k) (d.filter check_leaf) fun r => r = (d, code check_leaf [] f k)
      | .done kept unseen _ => OkWhen (Fits .plain d.key_bits (only f kept)) (d.filter check_leaf) (FilterReturns d f ks kept (unseen ≠ [])) := by
  have hfilters : Filters check_leaf [] d.key_bits f ks .ask _ := dict_filter_filters hcheck d.key_bits hd.root hks
  rw [Dictionary.filter_eq hd]
  unfold Filters at hfilters
  cases hs : sift (fun k => verdict (code check_leaf [] f k)) .ask ks with
  | stopped kept k =>
    rw [hs] at hfilters
    have hstop := sift_stopped _ hs
    have hneg : code check_leaf [] f k < 0 := verdict_fail hstop
    refine OkWhen.bind_ok hfilters fun res hres => ?_
    rw [hres, if_neg (by omega)]
    exact ⟨_, rfl, rfl⟩
  | done kept unseen rest =>
    rw [hs] at hfilters
    exact OkWhen.bind_ok hfilters fun res hres => ⟨_, rfl, hres.returns hd hks (sift_sublist _ hs)⟩

/-- `filter` keeps the keys that a pass in increasing order keeps. It returns if what is kept has a dictionary, or, when the pass is
stopped by a negative answer, if the parts to the left of that key have one; only the answers that the pass asks for matter. -/
theorem filter_exact (hd : d.Holds f) (hks : Keys f ks) (hcheck : check_leaf.IsInt) :
    (match sift (fun k => verdict (code check_leaf [] f k)) .ask ks with
      | .stopped kept k => OkWhen (Ready d.key_bits (only f kept) k) (d.filter check_leaf) fun r => r = (d, code check_leaf [] f k)
      | .done kept unseen _ => OkWhen (Fits .plain d.key_bits (only f kept)) (d.filter check_leaf) (FilterReturns d f ks kept (unseen ≠ []))) ∧
    ∀ check_leaf' : FilterFunc, (∀ k ∈ asked (fun k => verdict (code check_leaf [] f k)) .ask ks,
      code check_leaf' [] f k = code check_leaf [] f k) → d.filter check_leaf' = d.filter check_leaf := by
  refine ⟨hd.filter_outcome hks hcheck, fun check_leaf' hsame => ?_⟩
  rw [Dictionary.filter_eq hd, Dictionary.filter_eq hd, dict_filter_congr hcheck _ hd.root hks hsame]

end Holds

/-- Of three keys the first one is kept, the second one and all that follow are dropped. -/
theorem filter_exact_three_keys :
    let ops : List Op := [.set [false, true] ⟨[], []⟩ .Set, .set [true, false] ⟨[true], []⟩ .Set, .set [true, true] ⟨[false], []⟩ .Set]
    let f := (Op.specAll empty ops).1
    let check_leaf : FilterFunc := fun _ key => if key = [true, false] then 2 ^ 30 else 1
    ∃ d rs, Op.execAll ⟨none, 2⟩ ops = .ok (d, rs) ∧ ∃ r, d.filter check_leaf = .ok r ∧
      FilterReturns d f [[false, true], [true, false], [true, true]] [[false, true]] ([[true, true]] ≠ []) r := by
  intro ops f check_leaf
  obtain ⟨⟨⟨d, rs⟩, r⟩, h⟩ := exists_ok_of_isSome (x := do
    let p ← Op.execAll ⟨none, 2⟩ ops
    let r ← p.1.filter check_leaf
    .ok (p, r)) (by decide +kernel)
  obtain ⟨p, hp, h⟩ := bind_ok.1 h
  obtain ⟨r, hr, h⟩ := bind_ok.1 h
  cases h
  have hd := execAll_holds (d := ⟨none, 2⟩) (f := empty) ⟨rfl, by decide⟩ (by decide) hp
  have hks : Keys f [[false, true], [true, false], [true, true]] := by
    have hf : f = update (update (update empty [false, true] (some ⟨[], []⟩)) [true, false]
        (some ⟨[true], []⟩)) [true, true] (some ⟨[false], []⟩) := rfl
    refine ⟨fun k => ?_, by decide⟩
    rw [hf]
    simp only [mem_cons, not_mem_nil, or_false, update_apply]
    split_ifs with h1 h2 h3
    · simp [h1, empty]
    · simp [h2, empty]
    · simp [h3, empty]
    · simp [h1, h2, h3, empty]
  have hcheck : check_leaf.IsInt := by
    intro v key
    dsimp only [check_leaf]
    split <;> decide
  have hs : sift (fun k => verdict (code check_leaf [] f k)) .ask [[false, true], [true, false], [true, true]] =
      .done [[false, true]] [[true, true]] .drop := by decide +kernel
  have hexact := (filter_exact hd.1 hks hcheck).1
  rw [hs] at hexact
  exact ⟨d, rs, hp, r, hr, hexact.of_ok hr⟩

/-! ## What cannot be filtered -/

/-- A dictionary with all keys of `n` bits; its two halves are the same cell. -/
theorem exists_full {n : Nat} (hn : n ≤ max_small_key) : ∃ d f ks, Dictionary.Holds d f ∧ Keys f ks ∧ d.key_bits = n ∧ ks.length = 2 ^ n := by
  let enc : Unit → CellSlice := fun _ => ⟨[], []⟩
  have hsmall : Small enc := fun _ => ⟨rfl, Nat.zero_le _⟩
  have hfull : ∃ g c, Held Node enc n g c ∧ ∃ ks, Keys g ks ∧ ks.length = 2 ^ n := by
    induction n with
    | zero =>
      obtain ⟨c, -, hc⟩ := finalize_load node_edgeForm hsmall [] (.leaf ()) rfl (Nat.zero_le _)
      rw [under_nil] at hc
      exact ⟨_, c, hc, [[]], keys_of_key, rfl⟩
    | succ n ih =>
      obtain ⟨g, c, hg, ks, hks, hlen⟩ := ih (by omega)
      obtain ⟨c', -, hc'⟩ := finalize_load node_edgeForm hsmall [] (.fork hg hg) (by simp) hn
      refine ⟨_, c', hc', _, hks.under_split hks [], ?_⟩
      rw [length_append, length_map, length_map, hlen, Nat.pow_succ]
      omega
  obtain ⟨g, c, hg, ks, hks, hlen⟩ := hfull
  refine ⟨⟨some c, n⟩, fun k => (g k).map enc, ks, ⟨hg.root, ?_⟩, ⟨fun k => ?_, hks.ordered⟩, rfl, hlen⟩
  · exact hn.trans (by decide)
  · rw [hks.mem]
    cases g k with
    | none => simp [empty]
    | some v => simp [empty]

/-- With the key 0 dropped, the edge to the key 1 takes in its bit and does not fit any more. And when every key is dropped of a
dictionary with `2 ^ 31` of them, only `2 ^ 30` are counted. -/
theorem filter_overflow :
    (let ops : List Op := [.set [false] ⟨[], []⟩ .Set, .set [true] ⟨List.replicate 1021 true, []⟩ .Set]
     ∃ d rs e, Op.execAll ⟨none, 1⟩ ops = .ok (d, rs) ∧ d.filter (fun _ key => if key = [true] then 1 else 0) = .error e) ∧
    ∃ d f ks, Dictionary.Holds d f ∧ Keys f ks ∧ ks.length = 2 ^ 31 ∧ ∃ r, d.filter (fun _ _ => 0) = .ok r ∧ r.2 = 2 ^ 30 ∧ r.1.Holds empty := by
  constructor
  · intro ops
    obtain ⟨⟨⟨d, rs⟩, e⟩, h⟩ := exists_ok_of_isSome (x := do
      let p ← Op.execAll ⟨none, 1⟩ ops
      match p.1.filter (fun _ key => if key = [true] then 1 else 0) with
      | .ok _ => .error .check
      | .error e => .ok (p, e)) (by decide +kernel)
    obtain ⟨p, hp, h⟩ := bind_ok.1 h
    split at h
    · cases h
    · next he =>
      cases h
      exact ⟨d, rs, e, hp, he⟩
  · obtain ⟨d, f, ks, hd, hks, hbits, hlen⟩ := exists_full (n := 31) (by decide)
    have hdrop : (fun k => verdict (code (fun _ _ => 0) [] f k)) = fun _ => Answer.drop := by
      funext k
      unfold code
      split <;> rfl
    have hint : FilterFunc.IsInt fun _ _ => 0 := fun _ _ => show (0 : Int) < 2 ^ 31 by decide
    have hpass := hd.filter_outcome hks hint
    rw [hdrop, sift_drops] at hpass
    obtain ⟨r, hr, hret⟩ := hpass.1 (by rw [only_nil]; exact fits_empty _ _)
    refine ⟨d, f, ks, hd, hks, hlen, r, hr, ?_, ?_⟩
    · have hlt := hret.counts.lt
      have hseen := hret.counts.of_seen (by simp)
      rw [hlen] at hseen
      simp only [length_nil] at hseen
      omega
    · have hholds := hret.holds
      rwa [only_nil] at hholds

end Ton.Dict
