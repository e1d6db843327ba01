import Ton.FunC.StackTransform
/-!
# Stack transforms are maps

What a well-formed transform maps an index to, after each operation and in a composition. Two of them
that map alike have the same pairs.
-/

namespace Ton.FunC
open Sparse List Option

/-- The pairs of a transform with this offset. -/
structure Pairs (d : Int) (A : List (Int × Int)) : Prop where
  n_le : A.length ≤ max_n
  sorted : Sorted A
  ge : ∀ p ∈ A, d ≤ p.1
  ne : ∀ p ∈ A, p.1 ≠ p.2
  short : ∀ p ∈ A, is_short p.1 = true ∧ is_short p.2 = true

theorem is_short_iff {y : Int} : is_short y = true ↔ -0x8000 ≤ y ∧ y < 0x8000 := by
  rw [is_short, Bool.and_eq_true, decide_eq_true_iff, decide_eq_true_iff]

/-- A key that is not there stays as it is. -/
def value (A : List (Int × Int)) (x : Int) : Int := (get? A x).getD x

variable {A B : List (Int × Int)} {d x y z : Int}

theorem value_of_mem (hs : Sorted A) (h : (x, y) ∈ A) : value A x = y := by
  rw [value, (get?_eq_some hs).2 h]; rfl

theorem value_of_not_mem (hs : Sorted A) (h : ∀ y, (x, y) ∉ A) : value A x = x := by
  rw [value, (get?_eq_none hs).2 h]; rfl

theorem mem_or_not (A : List (Int × Int)) (x : Int) : (∃ y, (x, y) ∈ A) ∨ ∀ y, (x, y) ∉ A := by
  by_cases h : ∃ y, (x, y) ∈ A
  · exact .inl h
  · exact .inr (not_exists.1 h)

theorem value_congr (hs : Sorted A) (hs' : Sorted B) (h : ∀ y, (x, y) ∈ A ↔ (x, y) ∈ B) : value A x = value B x := by
  rcases mem_or_not A x with ⟨y, hy⟩ | hno
  · rw [value_of_mem hs hy, value_of_mem hs' ((h y).1 hy)]
  · rw [value_of_not_mem hs hno, value_of_not_mem hs' fun y hy => hno y ((h y).2 hy)]

theorem mem_of_value (hs : Sorted A) (h : value A x = y) (hne : x ≠ y) : (x, y) ∈ A := by
  rcases mem_or_not A x with ⟨v, hv⟩ | hno
  · rwa [← h, value_of_mem hs hv]
  · exact absurd ((value_of_not_mem hs hno).symm.trans h) hne

namespace Pairs

theorem nil (d : Int) : Pairs d [] :=
  ⟨Nat.zero_le _, .nil, fun _ h => (nomatch h), fun _ h => (nomatch h), fun _ h => (nomatch h)⟩

theorem sublist (h : Pairs d A) (hsub : B.Sublist A) : Pairs d B :=
  ⟨hsub.length_le.trans h.n_le, h.sorted.sublist hsub, fun p hp => h.ge p (hsub.subset hp), fun p hp => h.ne p (hsub.subset hp),
    fun p hp => h.short p (hsub.subset hp)⟩

theorem mono (h : Pairs d A) {d' : Int} (hd : ∀ p ∈ A, d' ≤ p.1) : Pairs d' A := ⟨h.n_le, h.sorted, hd, h.ne, h.short⟩

theorem between {before after : List (Int × Int)} (h : Pairs d (before ++ after)) (hn : (before ++ after).length < max_n)
    (hlt : ∀ p ∈ before, p.1 < x) (hgt : ∀ p ∈ after, x < p.1) (hd : d ≤ x) (hne : x ≠ y) (hx : is_short x = true)
    (hy : is_short y = true) : Pairs d (before ++ (x, y) :: after) := by
  have hmem {p : Int × Int} (hp : p ∈ before ++ (x, y) :: after) : p = (x, y) ∨ p ∈ before ++ after := by
    rw [mem_append, mem_cons] at hp
    rw [mem_append]
    tauto
  refine ⟨by simp at hn ⊢; omega, ?_, fun p hp => ?_, fun p hp => ?_, fun p hp => ?_⟩
  · exact .between (h.sorted.sublist (sublist_append_left _ _)) (h.sorted.sublist (sublist_append_right _ _)) hlt hgt y
  · rcases hmem hp with rfl | hp
    · exact hd
    · exact h.ge p hp
  · rcases hmem hp with rfl | hp
    · exact hne
    · exact h.ne p hp
  · rcases hmem hp with rfl | hp
    · exact ⟨hx, hy⟩
    · exact h.short p hp

theorem snoc (h : Pairs d A) (hn : A.length ≠ max_n) (hlt : ∀ p ∈ A, p.1 < x) (hd : d ≤ x) (hne : x ≠ y) (hx : is_short x = true)
    (hy : is_short y = true) : Pairs d (A ++ [(x, y)]) := by
  have h' : Pairs d (A ++ []) := by rwa [append_nil]
  exact h'.between (by rw [append_nil]; exact lt_of_le_of_ne h.n_le hn) hlt (fun p hp => nomatch hp) hd hne hx hy

end Pairs

theorem value_between {before after : List (Int × Int)} (hs : Sorted (before ++ (x, y) :: after)) (z : Int) :
    value (before ++ (x, y) :: after) z = if z = x then y else value (before ++ after) z := by
  split
  · next h => exact value_of_mem hs (by rw [h]; simp)
  · next h =>
    refine value_congr hs (hs.sublist (Sublist.append_left (sublist_cons_self _ _) _)) fun v => ?_
    simp [h]

namespace StackTransform

variable {t t' r : StackTransform}

/-- Valid transforms only are values; the pairs are of shorts. -/
def WellFormed (t : StackTransform) : Prop := Pairs t.d t.A

variable {i : Int}

theorem get_eq (t : StackTransform) (hi : c_start < i) : t.get i = value t.A (i + t.d) := if_neg (not_le.2 hi)

theorem wellFormed_id (rest : List (Int × Int)) : (id rest).WellFormed := Pairs.nil 0

theorem get_id (rest : List (Int × Int)) (hi : 0 ≤ i) : (id rest).get i = i := by
  rw [get_eq _ (by simp only [c_start]; omega)]
  exact (value_of_not_mem .nil fun _ h => nomatch h).trans (Int.add_zero i)

/-! ## `set` and `shift` -/

theorem set_right (h : t.WellFormed) {relaxed : Bool} (hx : 0 ≤ x) (hset : t.set x y relaxed = some t') :
    t'.WellFormed ∧ t'.d = t.d ∧ t'.c = t.c ∧ (∀ p ∈ t'.A, p ∈ t.A ∨ p.1 = x + t.d) ∧
      ∀ z, value t'.A z = if z = x + t.d then y else value t.A z := by
  unfold set at hset
  rw [if_neg (by omega)] at hset
  obtain ⟨u, hu, hd, hc, hA⟩ : ∃ u, (if relaxed then t else t.touch x) = u ∧ u.d = t.d ∧ u.c = t.c ∧ u.A = t.A := by
    refine ⟨_, rfl, ?_, ?_, ?_⟩ <;> cases relaxed <;> rfl
  simp only [hu, hd, hA] at hset
  obtain ⟨X, hX⟩ : ∃ X, X = x + t.d := ⟨_, rfl⟩
  have hdX : t.d ≤ X := by omega
  rw [← hX] at hset ⊢
  have hsplit : below t.A X ++ from_key t.A X = t.A := below_append t.A X
  have hP : Pairs t.d (below t.A X ++ from_key t.A X) := by rw [hsplit]; exact h
  have hlt : ∀ p ∈ below t.A X, p.1 < X := fun p hp => lt_of_mem_below hp
  split at hset
  · next hfound =>
    -- the pair is there, and is changed or taken out
    obtain ⟨⟨k, v⟩, after, hf, hk, -⟩ := (get?_eq t.A X).resolve_right (not_not.2 hfound)
    simp only at hk
    subst hk
    rw [hf] at hP hsplit
    simp only [hf, tail_cons] at hset
    have hsA : Sorted (below t.A k ++ (k, v) :: after) := hP.sorted
    have hgt : ∀ p ∈ after, k < p.1 := (pairwise_cons.1 (pairwise_append.1 hsA).2.1).1
    have hsub : (below t.A k ++ after).Sublist (below t.A k ++ (k, v) :: after) :=
      Sublist.append_left (sublist_cons_self _ _) _
    have hP' := hP.sublist hsub
    have hlen : (below t.A k ++ after).length < max_n := by
      have := hP.n_le
      simp at this ⊢
      omega
    have hval : ∀ z, z ≠ k → value (below t.A k ++ after) z = value t.A z := by
      intro z hz
      conv_rhs => rw [← hsplit, value_between hsA, if_neg hz]
    split at hset
    · next hne =>
      split at hset
      · next hy =>
        cases hset
        have hxs : is_short k = true := (hP.short (k, v) (by simp)).1
        have hnew := hP'.between hlen hlt hgt hdX hne hxs hy
        refine ⟨hnew, rfl, hc, fun p hp => ?_, fun z => ?_⟩
        · rw [← hsplit]
          simp only [mem_append, mem_cons] at hp ⊢
          rcases hp with hp | rfl | hp
          · exact .inl (.inl hp)
          · exact .inr rfl
          · exact .inl (.inr (.inr hp))
        · rw [value_between hnew.sorted]
          split
          · rfl
          · next hz => exact hval z hz
      · cases hset
    · next heq =>
      obtain rfl := not_not.1 heq
      cases hset
      refine ⟨hP', rfl, hc, fun p hp => .inl ?_, fun z => ?_⟩
      · rw [← hsplit]
        exact hsub.subset hp
      · split
        · next hz =>
          subst hz
          refine value_of_not_mem hP'.sorted fun v hv => ?_
          rcases mem_append.1 hv with hv | hv
          · exact absurd (hlt _ hv) (lt_irrefl _)
          · exact absurd (hgt _ hv) (lt_irrefl _)
        · next hz => exact hval z hz
  · next hno =>
    have hgt : ∀ p ∈ from_key t.A X, X < p.1 := fun p hp => lt_of_mem_from h.sorted hno hp
    split at hset
    · next hne =>
      split at hset
      · cases hset
      · next hok =>
        simp only [Bool.or_eq_true, Bool.not_eq_true', decide_eq_true_eq, not_or, Bool.not_eq_false] at hok
        cases hset
        have hn : (below t.A X ++ from_key t.A X).length < max_n := by
          rw [hsplit]
          exact lt_of_le_of_ne h.n_le hok.2
        have hnew := hP.between hn hlt hgt hdX hne hok.1.1 hok.1.2
        refine ⟨hnew, rfl, hc, fun p hp => ?_, fun z => ?_⟩
        · simp only [touch, mem_append, mem_cons] at hp
          rcases hp with hp | rfl | hp
          · exact .inl (by rw [← hsplit]; exact mem_append_left _ hp)
          · exact .inr rfl
          · exact .inl (by rw [← hsplit]; exact mem_append_right _ hp)
        · simp only [touch]
          rw [value_between hnew.sorted, hsplit]
    · next heq =>
      obtain rfl := not_not.1 heq
      cases hset
      refine ⟨by rw [WellFormed, hd, hA]; exact h, hd, hc, fun p hp => .inl (by rwa [← hA]), fun z => ?_⟩
      rw [hA]
      split
      · next hz =>
        subst hz
        refine value_of_not_mem h.sorted fun v hv => ?_
        rw [← hsplit] at hv
        rcases mem_append.1 hv with hv | hv
        · exact absurd (hlt _ hv) (lt_irrefl _)
        · exact absurd (hgt _ hv) (lt_irrefl _)
      · rfl

theorem shift_right (h : t.WellFormed) (offs : Int) :
    (t.shift offs).WellFormed ∧ (t.shift offs).d = t.d + offs ∧ (t.shift offs).c = t.c ∧ (t.shift offs).A ⊆ t.A ∧
      ∀ z, t.d + offs ≤ z → value (t.shift offs).A z = value t.A z := by
  unfold shift
  by_cases hoffs : offs ≤ 0
  · rw [if_pos hoffs]
    exact ⟨h.mono fun p hp => by have := h.ge p hp; show t.d + offs ≤ p.1; omega, rfl, rfl, fun _ hp => hp, fun _ _ => rfl⟩
  · rw [if_neg hoffs]
    have hsub : (from_key t.A (t.d + offs)).Sublist t.A := dropWhile_sublist _
    refine ⟨(h.sublist hsub).mono fun p hp => le_of_mem_from h.sorted hp, rfl, rfl, hsub.subset, fun z hz => ?_⟩
    refine value_congr (h.sorted.sublist hsub) h.sorted fun v => ⟨fun hv => hsub.subset hv, fun hv => ?_⟩
    rw [← below_append t.A (t.d + offs)] at hv
    rcases mem_append.1 hv with hv | hv
    · exact absurd (lt_of_mem_below hv) (by simp only; omega)
    · exact hv

/-! ## Stack operations -/

def xchg_index (i j k : Int) : Int := if k = i then j else if k = j then i else k

def push_index (i k : Int) : Int := if k = 0 then i else k - 1

def pop_index (i k : Int) : Int := if k + 1 = i then 0 else k + 1

theorem touch_wellFormed (h : t.WellFormed) (i : Int) : (t.touch i).WellFormed := h

theorem start_lt (hi : 0 ≤ i) : c_start < i := by simp only [c_start]; omega

theorem apply_xchg_right (h : t.WellFormed) {i j : Int} {relaxed : Bool} (hr : t.apply_xchg i j relaxed = some r) :
    r.WellFormed ∧ r.d = t.d ∧ (∀ p ∈ r.A, p ∈ t.A ∨ p.1 = i + t.d ∨ p.1 = j + t.d) ∧
      ∀ k, 0 ≤ k → r.get k = t.get (xchg_index i j k) := by
  unfold apply_xchg at hr
  split at hr
  · cases hr
  next hneg =>
  rw [not_or, not_lt, not_lt] at hneg
  obtain ⟨hi, hj⟩ := hneg
  split at hr
  · next hij =>
    subst hij
    have hidx : ∀ k, xchg_index i i k = k := fun k => by unfold xchg_index; split <;> simp_all
    cases relaxed <;> cases hr
    · exact ⟨h, rfl, fun p hp => .inl hp, fun k _ => by rw [hidx]; rfl⟩
    · exact ⟨h, rfl, fun p hp => .inl hp, fun k _ => by rw [hidx]; rfl⟩
  · next hij =>
    obtain ⟨u, hu, hr⟩ := bind_eq_some_iff.1 hr
    obtain ⟨hwu, hdu, hcu, hmu, hvu⟩ := set_right (touch_wellFormed (touch_wellFormed h i) j) hi hu
    obtain ⟨hwr, hdr, hcr, hmr, hvr⟩ := set_right hwu hj hr
    change u.d = t.d at hdu
    change ∀ p ∈ u.A, p ∈ t.A ∨ p.1 = i + t.d at hmu
    change ∀ z, value u.A z = if z = i + t.d then t.get j else value t.A z at hvu
    rw [hdu] at hdr hmr hvr
    refine ⟨hwr, hdr, fun p hp => ?_, fun k hk => ?_⟩
    · rcases hmr p hp with hp | hp
      · exact (hmu p hp).imp_right .inl
      · exact .inr (.inr hp)
    · have hk' := start_lt hk
      rw [get_eq r hk', hdr, hvr, hvu, xchg_index]
      by_cases hkj : k = j
      · rw [if_pos (by omega), if_neg (by omega), if_pos hkj]
      · rw [if_neg (by omega), if_neg hkj]
        by_cases hki : k = i
        · rw [if_pos (by omega), if_pos hki]
        · rw [if_neg (by omega), if_neg hki, get_eq t hk']

theorem apply_push_right (h : t.WellFormed) (hr : t.apply_push i = some r) :
    r.WellFormed ∧ r.d = t.d - 1 ∧ (∀ p ∈ r.A, p ∈ t.A ∨ p.1 = t.d - 1) ∧ ∀ k, 0 ≤ k → r.get k = t.get (push_index i k) := by
  unfold apply_push at hr
  split at hr
  · cases hr
  obtain ⟨hws, hds, -, hsub, hvs⟩ := shift_right (touch_wellFormed h i) (-1)
  obtain ⟨hwr, hdr, -, hmr, hvr⟩ := set_right hws le_rfl hr
  change _ = t.d + -1 at hds
  rw [hds] at hdr hmr hvr
  refine ⟨hwr, hdr, fun p hp => ?_, fun k hk => ?_⟩
  · rcases hmr p hp with hp | hp
    · exact .inl (hsub hp)
    · exact .inr (by omega)
  · rw [get_eq r (start_lt hk), hdr, hvr, push_index]
    by_cases hk0 : k = 0
    · rw [if_pos (by omega), if_pos hk0]
    · rw [if_neg (by omega), if_neg hk0, hvs _ (by change t.d + -1 ≤ _; omega), get_eq t (start_lt (by omega))]
      congr 1
      omega

theorem apply_pop_right (h : t.WellFormed) (hr : t.apply_pop i = some r) :
    r.WellFormed ∧ r.d = t.d + 1 ∧ (∀ p ∈ r.A, p ∈ t.A ∨ p.1 = i + t.d) ∧
      ∀ k, 0 ≤ k → r.get k = t.get (pop_index i k) := by
  unfold apply_pop at hr
  split at hr
  · cases hr
  next hneg =>
  split at hr
  · next hi =>
    subst hi
    cases hr
    obtain ⟨hws, hds, -, hsub, hvs⟩ := shift_right (touch_wellFormed h 0) 1
    change _ = t.d + 1 at hds
    refine ⟨hws, hds, fun p hp => .inl (hsub hp), fun k hk => ?_⟩
    rw [get_eq _ (start_lt hk), hds, hvs _ (by change t.d + 1 ≤ _; omega), pop_index, if_neg (by omega),
      get_eq t (start_lt (by omega))]
    congr 1
    omega
  · obtain ⟨u, hu, rfl⟩ := map_eq_some_iff.1 hr
    obtain ⟨hwu, hdu, -, hmu, hvu⟩ := set_right h (by omega) hu
    obtain ⟨hws, hds, -, hsub, hvs⟩ := shift_right hwu 1
    rw [hdu] at hds hvs
    refine ⟨hws, hds, fun p hp => hmu p (hsub hp), fun k hk => ?_⟩
    rw [get_eq _ (start_lt hk), hds, hvs _ (by omega), hvu, pop_index]
    by_cases hki : k + 1 = i
    · rw [if_pos (by omega), if_pos hki]
    · rw [if_neg (by omega), if_neg hki, get_eq t (start_lt (by omega))]
      congr 1
      omega

/-! ## Equality -/

/-- Transforms that map alike have the same offset and the same pairs. -/
theorem almost_equal_iff {u : StackTransform} (ht : t.WellFormed) (hu : u.WellFormed) :
    t.almost_equal u = true ↔ ∀ i, 0 ≤ i → t.get i = u.get i := by
  have heq : t.almost_equal u = true ↔ t.d = u.d ∧ t.A = u.A := by
    simp only [almost_equal, equal, Bool.true_or, Bool.and_true, Bool.and_eq_true, decide_eq_true_eq]
    exact ⟨fun h => ⟨h.1.2, h.2⟩, fun h => ⟨⟨by rw [h.2], h.1⟩, h.2⟩⟩
  rw [heq]
  constructor
  · rintro ⟨hd, hA⟩ i hi
    rw [get_eq t (start_lt hi), get_eq u (start_lt hi), hd, hA]
  · intro h
    -- an index that no pair is for
    have hfar {w : StackTransform} (hw : w.WellFormed) {i : Int} (hi : 0 ≤ i) (hle : 0x8000 ≤ i + w.d) : w.get i = i + w.d := by
      rw [get_eq w (start_lt hi), value_of_not_mem hw.sorted]
      intro v hv
      have := (is_short_iff.1 (hw.short _ hv).1).2
      simp only at this
      omega
    have hd : t.d = u.d := by
      have hi := h (max 0 (max (0x8000 - t.d) (0x8000 - u.d))) (by omega)
      rw [hfar ht (by omega) (by omega), hfar hu (by omega) (by omega)] at hi
      omega
    have hval : ∀ x, t.d ≤ x → value t.A x = value u.A x := by
      intro x hx
      have hi := h (x - t.d) (by omega)
      rwa [get_eq t (start_lt (by omega)), get_eq u (start_lt (by omega)), ← hd, Int.sub_add_cancel] at hi
    refine ⟨hd, ht.sorted.ext hu.sorted fun p => ⟨fun hp => ?_, fun hp => ?_⟩⟩
    · exact mem_of_value hu.sorted (by rw [← hval _ (ht.ge p hp)]; exact value_of_mem ht.sorted hp) (ht.ne p hp)
    · exact mem_of_value ht.sorted (by rw [hval _ (by rw [hd]; exact hu.ge p hp)]; exact value_of_mem hu.sorted hp) (hu.ne p hp)

/-! ## Composition -/

/-- What the merge stores: a pair of `l2`, moved, or one of `l1` that no such pair hides. -/
def Merged (a : StackTransform) (l1 l2 : List (Int × Int)) (p : Int × Int) : Prop :=
  (∃ q ∈ l2, p = (q.1 + a.d, a.get q.2)) ∨ p ∈ l1 ∧ ∀ q ∈ l2, q.1 + a.d ≠ p.1

variable {a b : StackTransform} {l1 l2 out R : List (Int × Int)}

theorem merged_left {p e : Int × Int} (hlt : ∀ q ∈ l2, p.1 < q.1 + a.d) :
    Merged a (p :: l1) l2 e ↔ e = p ∨ Merged a l1 l2 e := by
  simp only [Merged, mem_cons]
  constructor
  · rintro (hq | ⟨rfl | hl, hne⟩)
    · exact .inr (.inl hq)
    · exact .inl rfl
    · exact .inr (.inr ⟨hl, hne⟩)
  · rintro (rfl | hq | ⟨hl, hne⟩)
    · exact .inr ⟨.inl rfl, fun q hq => (hlt q hq).ne'⟩
    · exact .inl hq
    · exact .inr ⟨.inr hl, hne⟩

theorem merged_right {q e : Int × Int} {l1' : List (Int × Int)} (hl : ∀ p, p ∈ l1' ↔ p ∈ l1 ∧ q.1 + a.d ≠ p.1) :
    Merged a l1 (q :: l2) e ↔ e = (q.1 + a.d, a.get q.2) ∨ Merged a l1' l2 e := by
  simp only [Merged, mem_cons, hl]
  constructor
  · rintro (⟨q', rfl | hq, rfl⟩ | ⟨hl, hne⟩)
    · exact .inl rfl
    · exact .inr (.inl ⟨q', hq, rfl⟩)
    · exact .inr (.inr ⟨⟨hl, hne q (.inl rfl)⟩, fun q' hq => hne q' (.inr hq)⟩)
  · rintro (rfl | ⟨q', hq, rfl⟩ | ⟨⟨hl, hne⟩, hall⟩)
    · exact .inl ⟨q, .inl rfl, rfl⟩
    · exact .inl ⟨q', .inr hq, rfl⟩
    · refine .inr ⟨hl, fun q' hq => ?_⟩
      rcases hq with rfl | hq
      · exact hne
      · exact hall q' hq

theorem try_store_right (h : Pairs d out) (hlt : ∀ p ∈ out, p.1 < x) {out' : List (Int × Int)} (hst : try_store d out x y = some out') :
    Pairs d out' ∧ ∀ p, p ∈ out' ↔ p ∈ out ∨ p = (x, y) ∧ x ≠ y ∧ d ≤ x := by
  unfold try_store at hst
  split at hst
  · next hskip =>
    cases hst
    refine ⟨h, fun p => ⟨.inl, ?_⟩⟩
    rintro (hp | ⟨-, hne, hd⟩)
    · exact hp
    · rcases hskip with rfl | hlt
      · exact absurd rfl hne
      · omega
  · next hkeep =>
    rw [not_or, not_lt] at hkeep
    split at hst
    · cases hst
    · next hok =>
      simp only [Bool.or_eq_true, Bool.not_eq_true', decide_eq_true_eq, not_or, Bool.not_eq_false] at hok
      cases hst
      refine ⟨h.snoc hok.1.1 hlt hkeep.2 hkeep.1 hok.1.2 hok.2, fun p => ?_⟩
      rw [mem_append, mem_singleton]
      exact or_congr_right ⟨fun hp => ⟨hp, hkeep⟩, fun hp => hp.1⟩

theorem store_then {R : List (Int × Int)} {next : List (Int × Int) → Option (List (Int × Int))} {M : Int × Int → Prop} {Fits : Prop}
    (h : Pairs d out) (hlt : ∀ p ∈ out, p.1 < x) (hR : (try_store d out x y).bind next = some R)
    (ih : ∀ out', Pairs d out' → (∀ p ∈ out', p ∈ out ∨ p.1 = x) → next out' = some R →
      Pairs d R ∧ (Fits → ∀ p, p ∈ R ↔ p ∈ out' ∨ M p ∧ p.1 ≠ p.2 ∧ d ≤ p.1)) :
    Pairs d R ∧ (Fits → ∀ p, p ∈ R ↔ p ∈ out ∨ (p = (x, y) ∨ M p) ∧ p.1 ≠ p.2 ∧ d ≤ p.1) := by
  obtain ⟨out', hst, hnext⟩ := bind_eq_some_iff.1 hR
  obtain ⟨hP, hmem⟩ := try_store_right h hlt hst
  obtain ⟨hPR, hall⟩ := ih out' hP (fun p hp => ((hmem p).1 hp).imp_right fun hp => by rw [hp.1]) hnext
  refine ⟨hPR, fun hfits p => ?_⟩
  rw [hall hfits p, hmem p]
  constructor
  · rintro ((hp | ⟨rfl, hne, hd⟩) | ⟨hM, hne⟩)
    · exact .inl hp
    · exact .inr ⟨.inl rfl, hne, hd⟩
    · exact .inr ⟨.inr hM, hne⟩
  · rintro (hp | ⟨rfl | hM, hne⟩)
    · exact .inl (.inl hp)
    · exact .inl (.inr ⟨rfl, hne⟩)
    · exact .inr ⟨hM, hne⟩

theorem compose_loop_right (fuel : Nat) (hfuel : l1.length + l2.length < fuel) (h1 : Sorted l1) (h2 : Sorted l2)
    (hs : ∀ p ∈ l1, is_short p.1 = true) (ho : Pairs d out) (ho1 : ∀ p ∈ out, ∀ q ∈ l1, p.1 < q.1)
    (ho2 : ∀ p ∈ out, ∀ q ∈ l2, p.1 < q.1 + a.d) (h : compose_loop a d fuel l1 l2 out = some R) :
    Pairs d R ∧ ((∀ q ∈ l2, q.1 + a.d < inf_x) → ∀ p, p ∈ R ↔ p ∈ out ∨ Merged a l1 l2 p ∧ p.1 ≠ p.2 ∧ d ≤ p.1) := by
  induction fuel generalizing l1 l2 out with
  | zero => cases h
  | succ fuel ih =>
    have hinf : ∀ p ∈ l1, p.1 < inf_x := fun p hp => by
      have := (is_short_iff.1 (hs p hp)).2
      simp only [inf_x]
      omega
    unfold compose_loop at h
    dsimp only at h
    split at h
    · next hlt =>
      -- the pair of `a` comes first
      cases l1 with
      | nil => cases h
      | cons p l1 =>
        obtain ⟨hp, h1⟩ := pairwise_cons.1 h1
        have hx1 : try_load (p :: l1) 0 = p.1 := Int.add_zero _
        rw [hx1] at hlt h
        have hbelow : ∀ q ∈ l2, p.1 < q.1 + a.d := by
          intro q hq
          cases l2 with
          | nil => cases hq
          | cons q' l2 =>
            have hlt' : p.1 < q'.1 + a.d := hlt
            rcases mem_cons.1 hq with rfl | hq
            · exact hlt'
            · have := (pairwise_cons.1 h2).1 q hq
              omega
        refine (store_then ho (fun e he => ho1 e he p mem_cons_self) h fun out' ho' hkeys hnext =>
          ih (by simp at hfuel ⊢; omega) h1 h2 (fun q hq => hs q (mem_cons_of_mem _ hq)) ho' (fun e he q hq => ?_)
            (fun e he q hq => ?_) hnext).imp_right fun hall hfits e => ?_
        · rcases hkeys e he with he | he
          · exact ho1 e he q (mem_cons_of_mem _ hq)
          · rw [he]; exact hp q hq
        · rcases hkeys e he with he | he
          · exact ho2 e he q hq
          · rw [he]; exact hbelow q hq
        · rw [hall hfits e, merged_left hbelow]
    · next hge =>
      split at h
      · next hfin =>
        -- the pair of `b`, which hides that of `a` for the same index
        cases l2 with
        | nil => cases h
        | cons q l2 =>
          obtain ⟨hq, h2⟩ := pairwise_cons.1 h2
          have hx2 : try_load (q :: l2) a.d = q.1 + a.d := rfl
          rw [hx2] at hge hfin h
          obtain ⟨l1', hl1', hmem, hsub⟩ : ∃ l1', (if try_load l1 0 = q.1 + a.d then l1.tail else l1) = l1' ∧
              (∀ p, p ∈ l1' ↔ p ∈ l1 ∧ q.1 + a.d ≠ p.1) ∧ l1'.Sublist l1 := by
            refine ⟨_, rfl, ?_⟩
            cases l1 with
            | nil =>
              rw [if_neg (fun heq => absurd hfin (by rw [← heq]; exact lt_irrefl _))]
              exact ⟨fun p => ⟨fun hp => (nomatch hp), fun hp => hp.1⟩, .refl _⟩
            | cons p l1 =>
              have hx1 : try_load (p :: l1) 0 = p.1 := Int.add_zero _
              have hgt := (pairwise_cons.1 h1).1
              rw [hx1] at hge ⊢
              split
              · next heq =>
                refine ⟨fun e => ⟨fun he => ⟨mem_cons_of_mem _ he, ?_⟩, fun ⟨he, hne⟩ => ?_⟩, sublist_cons_self _ _⟩
                · rw [← heq]; exact (hgt e he).ne
                · rcases mem_cons.1 he with rfl | he
                  · exact absurd heq.symm hne
                  · exact he
              · next hne =>
                refine ⟨fun e => ⟨fun he => ⟨he, ?_⟩, fun he => he.1⟩, .refl _⟩
                rcases mem_cons.1 he with rfl | he
                · exact Ne.symm hne
                · have := hgt e he
                  omega
          rw [hl1'] at h
          have hup : ∀ p ∈ l1', q.1 + a.d < p.1 := by
            intro p hp
            obtain ⟨hp, hne⟩ := (hmem p).1 hp
            cases l1 with
            | nil => cases hp
            | cons p0 l1 =>
              have hx1 : try_load (p0 :: l1) 0 = p0.1 := Int.add_zero _
              rw [hx1] at hge
              rcases mem_cons.1 hp with rfl | hp
              · omega
              · have := (pairwise_cons.1 h1).1 p hp
                omega
          have hlen := hsub.length_le
          refine (store_then ho (fun e he => ho2 e he q mem_cons_self) h fun out' ho' hkeys hnext =>
            ih (by simp at hfuel; omega) (h1.sublist hsub) h2 (fun p hp => hs p (hsub.subset hp)) ho' (fun e he p hp => ?_)
              (fun e he q' hq' => ?_) hnext).imp_right fun hall hfits e => ?_
          · rcases hkeys e he with he | he
            · exact ho1 e he p (hsub.subset hp)
            · rw [he]; exact hup p hp
          · rcases hkeys e he with he | he
            · exact ho2 e he q' (mem_cons_of_mem _ hq')
            · have := hq q' hq'
              rw [he]; omega
          · rw [hall (fun q' hq' => hfits q' (mem_cons_of_mem _ hq')) e, merged_right hmem]
      · next hinf2 =>
        cases h
        refine ⟨ho, fun hfits p => ⟨.inl, fun hp => hp.elim (fun hout => hout) fun hp => ?_⟩⟩
        cases l2 with
        | cons q l2 => exact absurd (hfits q mem_cons_self) hinf2
        | nil =>
          cases l1 with
          | nil =>
            rcases hp.1 with ⟨q, hq, -⟩ | ⟨hq, -⟩ <;> cases hq
          | cons p0 l1 =>
            have hx1 : try_load (p0 :: l1) 0 = p0.1 := Int.add_zero _
            rw [hx1] at hge
            exact absurd (hinf p0 mem_cons_self) hge

section
variable (ha : a.WellFormed) (hb : b.WellFormed) {c : StackTransform} (h : compose a b c = some r)
include ha hb h

theorem compose_right :
    r.WellFormed ∧ r.d = a.d + b.d ∧ r.c = a.c + b.c ∧
      ((∀ q ∈ b.A, q.1 + a.d < inf_x) → ∀ p, p ∈ r.A ↔ Merged a a.A b.A p ∧ p.1 ≠ p.2 ∧ a.d + b.d ≤ p.1) := by
  obtain ⟨R, hR, rfl⟩ := map_eq_some_iff.1 h
  obtain ⟨hP, hall⟩ := compose_loop_right _ (Nat.lt_succ_self _) ha.sorted hb.sorted (fun p hp => (ha.short p hp).1)
    (.nil _) (fun _ h => nomatch h) (fun _ h => nomatch h) hR
  refine ⟨hP, rfl, rfl, fun hfits p => ?_⟩
  rw [hall hfits p]
  simp

/-- `(a * b)(i) = a(b(i))`, where the sums stay above the constants and below the end mark. -/
theorem compose_get (hd : c_start < b.d)
    (hfits : ∀ q ∈ b.A, q.1 + a.d < inf_x) {i : Int} (hi : 0 ≤ i) : r.get i = a.get (b.get i) := by
  obtain ⟨hr, hrd, -, hmem⟩ := compose_right ha hb h
  have hmem := hmem hfits
  rw [get_eq r (start_lt hi), get_eq b (start_lt hi), hrd]
  obtain ⟨X, hX⟩ : ∃ X, X = i + (a.d + b.d) := ⟨_, rfl⟩
  rw [← hX]
  have hXd : a.d + b.d ≤ X := by omega
  rcases mem_or_not b.A (i + b.d) with ⟨y, hy⟩ | hno
  · rw [value_of_mem hb.sorted hy]
    have hkey : i + b.d + a.d = X := by omega
    by_cases heq : X = a.get y
    · rw [← heq]
      refine value_of_not_mem hr.sorted fun v hv => ?_
      obtain ⟨hM, hne, -⟩ := (hmem _).1 hv
      rcases hM with ⟨⟨k, w⟩, hq, hpair⟩ | ⟨-, hall⟩
      · obtain ⟨hk, rfl⟩ := Prod.mk.inj hpair
        simp only at hk
        obtain rfl : k = i + b.d := by omega
        rw [hb.sorted.key_inj hq hy] at hne
        exact hne heq
      · exact hall _ hy hkey
    · refine value_of_mem hr.sorted ((hmem _).2 ⟨.inl ⟨_, hy, ?_⟩, heq, hXd⟩)
      rw [hkey]
  · rw [value_of_not_mem hb.sorted hno, get_eq a (by omega)]
    have hkey : i + b.d + a.d = X := by omega
    have hfree : ∀ q ∈ b.A, q.1 + a.d ≠ X := by
      rintro ⟨k, w⟩ hq heq
      simp only at heq
      obtain rfl : k = i + b.d := by omega
      exact hno w hq
    rw [hkey]
    refine value_congr hr.sorted ha.sorted fun v => ?_
    rw [hmem]
    constructor
    · rintro ⟨⟨q, hq, hpair⟩ | ⟨hin, -⟩, -, -⟩
      · exact absurd (Prod.mk.inj hpair).1.symm (hfree q hq)
      · exact hin
    · exact fun hin => ⟨.inr ⟨hin, hfree⟩, ha.ne _ hin, hXd⟩

end

end StackTransform

end Ton.FunC
