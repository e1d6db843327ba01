import Ton.Dict.Trail
/-!
# Moving an iterator

What `next`, `rewind` and `lookup` find from wherever an iterator stands.
-/

namespace Ton.Dict
open List hiding after next

open Result BitMap BitOrder DictIterator

section Moves
variable {label_mode : Check} {root : DataCell} {n : Nat} {order : Int} {f : BitMap CellSlice} {d e : Bool} {it : DictIterator}
  {path : List Fork} {pre pos : List Bool} {c : DataCell} {g : BitMap CellSlice} {o : Option (List Bool × CellSlice)}

theorem Over.valid (hit : Over label_mode root n order it) : it.is_valid = true := by
  simp [is_valid, hit.bits_eq, hit.pos, hit.le_max]

/-! ## next -/

theorem past_full {k : List Bool} (hl : pos.length = k.length) : Past d e pos k ↔ Ahead d e pos k := by
  rw [Past, hl, take_length]

theorem AtLeaf.exists_trail {key : List Bool} {val : CellSlice} (h : AtLeaf label_mode root n f path key val) :
    ∃ pre c g, Trail label_mode root n f path pre c g ∧ pre <+: key ∧ key.length = n ∧ f key = some val ∧
      ∀ k v, f k = some v → if pre <+: k then k = key else (Past d e pre k ↔ Ahead d e key k) := by
  obtain ⟨pre, label, c, p, htrail, hp, hr, hm, rfl⟩ := h.leads
  have hle := htrail.length_le
  have hlen : (pre ++ label).length = n := by
    rw [length_append]
    omega
  have hval := under_append label [] (single val)
  rw [append_nil, single_nil, ← htrail.lookup] at hval
  refine ⟨pre, c, _, htrail, prefix_append _ _, hlen, hval, fun k v hk => ?_⟩
  have hk' := htrail.key_length hk
  split_ifs with hpk
  · obtain ⟨r, rfl, hr⟩ := exists_of_under htrail.lookup hk hpk
    rw [(single_some hr).1, append_nil]
  · rw [← past_full (hlen.trans hk'.symm), past_leave hk' hlen.le hpk]

theorem next_spec {key : List Bool} {val : CellSlice} (hs : Stands label_mode root n (modeOf d e) f it (some (key, val))) (back : Bool) :
    Reaches label_mode root n (modeOf d e) f (d ^^ back) (e ^^ back) (Ahead (d ^^ back) (e ^^ back) key) (it.next back) := by
  cases hs with
  | key hit hat hleaf =>
    obtain ⟨pre, c, g, htrail, hpre, -, -, hothers⟩ := hat.exists_trail (d := d ^^ back) (e := e ^^ back)
    have hguard : (!it.is_valid || it.root_.isNone || it.eof) = false := by simp [hit.valid, hit.root_eq, eof, hleaf]
    rw [next, if_neg (by rw [hguard]; exact Bool.false_ne_true), hit.order_eq, turn_modeOf]
    refine (backtrack_spec hit htrail hpre).congr fun k v hk => ?_
    have hk' := hothers k v hk
    split_ifs at hk' with hpk
    · subst hk'
      obtain ⟨r, hr⟩ := hpk
      rw [← hr]
      exact iff_of_false (not_past_append _ _ _ _) (ahead_irrefl _ _ _)
    · exact hk'

/-! ## rewind -/

theorem Trail.drop {inner : List Fork} (h : Trail label_mode root n f (inner ++ path) pre c g) :
    ∃ pre' c' g', Trail label_mode root n f path pre' c' g' ∧ pre' <+: pre := by
  induction inner generalizing pre c g with
  | nil => exact ⟨pre, c, g, h, prefix_refl pre⟩
  | cons pe inner ih =>
    cases h with
    | @cons _ pre label bits c c1 c2 refs g₀ g₁ m p b h hp hr hm h1 h2 =>
      obtain ⟨pre', c', g', h', hpre'⟩ := ih h
      exact ⟨pre', c', g', h', hpre'.trans ((prefix_append _ _).trans (prefix_append _ _))⟩

theorem takes_nil (d e : Bool) (f : BitMap CellSlice) : Takes d e f (fun _ => True) [] :=
  ⟨fun _ _ _ => trivial, fun _ _ _ _ => .inl nil_prefix⟩

theorem eq_of_prefix {a b key : List Bool} (ha : a <+: key) (hb : b <+: key) (hl : a.length = b.length) : a = b := by
  rcases prefix_or_prefix_of_prefix ha hb with h | h
  · exact h.eq_of_length hl
  · exact (h.eq_of_length hl.symm).symm

theorem LabelParser.Reads.unique {p : LabelParser} {label label' : List Bool} {payload payload' : CellSlice} (h : p.Reads label payload)
    (h' : p.Reads label' payload') : label = label' ∧ payload = payload' :=
  ⟨h.extract_label.1.symm.trans h'.extract_label.1, h.extract_label.2.symm.trans h'.extract_label.2⟩

theorem Trail.unique {path' : List Fork} {pre' key : List Bool} {c' : DataCell} {g' : BitMap CellSlice} (h : Trail label_mode root n f path pre c g)
    (h' : Trail label_mode root n f path' pre' c' g') (hpre : pre <+: key) (hpre' : pre' <+: key) (hl : path.length = path'.length) :
    path = path' ∧ pre = pre' ∧ c = c' := by
  induction h generalizing path' pre' c' g' with
  | nil h =>
    obtain rfl : path' = [] := length_eq_zero_iff.1 hl.symm
    cases h'
    exact ⟨rfl, rfl, rfl⟩
  | @cons path pre label bits c c1 c2 refs g₀ g₁ m p b h hp hr hm h1 h2 ih =>
    cases h' with
    | nil h' => cases hl
    | @cons path' pre' label' bits' c' c1' c2' refs' g₀' g₁' m' p' b' h' hp' hr' hm' h1' h2' =>
      obtain ⟨rfl, rfl, rfl⟩ := ih h' ((prefix_append _ _).trans ((prefix_append _ _).trans hpre))
        ((prefix_append _ _).trans ((prefix_append _ _).trans hpre')) (by simpa using hl)
      obtain rfl : p = p' := Except.ok.inj (hp.symm.trans hp')
      obtain ⟨rfl, hpayload⟩ := hr.unique hr'
      cases hpayload
      have hb := eq_of_prefix hpre hpre' (by simp)
      obtain rfl : b = b' := by simpa using append_cancel_left hb
      exact ⟨rfl, rfl, rfl⟩

theorem modeOf_label (d e : Bool) (p q : List Bool) :
    (if p.length + q.length ≠ 0 then modeOf (after p d e) e / 2 else modeOf (after p d e) e) = modeOf (after (p ++ q) d e) e := by
  by_cases hpq : p ++ q = []
  · obtain ⟨rfl, rfl⟩ := append_eq_nil_iff.1 hpq
    rfl
  · have hlen : p.length + q.length ≠ 0 := by
      rw [← length_append]
      exact fun h => hpq (length_eq_zero_iff.1 h)
    rw [if_pos hlen, modeOf_half, after, if_neg hpq]

/-- The loop of `rewind`: the entries that are kept go in the direction of the search. -/
theorem rewind_loop_spec (rest : List Fork) {kept : List Fork} {key preF : List Bool} {cF : DataCell} {gF : BitMap CellSlice}
    (h : Trail label_mode root n f kept pre c g) (htakes : Takes d e f (fun _ => True) pre) (hkey : key.length = n) (hpre : pre <+: key)
    (hF : Trail label_mode root n f (rest.reverse ++ kept) preF cF gF) (hpreF : preF <+: key) :
    (∃ mode, rewind_loop n key (modeOf (after pre d e) e) kept rest = .ok (none, mode) ∧ Takes d e f (fun _ => True) preF) ∨
    ∃ key' pe path' x pre' c' g', rewind_loop n key (modeOf (after pre d e) e) kept rest = .ok (some (key', pe :: path'), modeOf x e) ∧
      key'.length = n ∧ pre' <+: key' ∧ Trail label_mode root n f (pe :: path') pre' c' g' ∧ Takes d e f (fun _ => True) pre' := by
  induction rest generalizing kept pre c g with
  | nil =>
    obtain ⟨-, rfl, -⟩ := h.unique hF hpre hpreF rfl
    exact .inl ⟨_, rfl, htakes⟩
  | cons pe rest ih =>
    rw [reverse_cons, append_assoc, singleton_append] at hF
    obtain ⟨pre₁, c₁, g₁', hcons, hpre₁⟩ := hF.drop
    have hpre₁ := hpre₁.trans hpreF
    cases hcons with
    | @cons _ pre₀ label bits c₀ c1 c2 refs g₀ g₁ m p b h' hp hr hm h1 h2 =>
      obtain ⟨-, rfl, rfl⟩ := h.unique h' hpre ((prefix_append _ _).trans ((prefix_append _ _).trans hpre₁)) rfl
      have hl : (pre ++ label).length < n := by
        rw [length_append]
        omega
      have hbranch := htakes.branch (fun k v hk => h'.key_length hk) hl h'.lookup
      rw [rewind_loop]
      dsimp only
      rw [if_neg (not_not.2 (by rwa [length_append] at hl)), modeOf_label, modeOf_bit, modeOf_half]
      by_cases hb : b = after (pre ++ label) d e
      · rw [if_neg (not_not.2 hb)]
        rw [← hb] at hbranch
        have hafter : after (pre ++ label ++ [b]) d e = e := if_neg (by simp)
        have hrec := ih (.cons b h' hp hr hm h1 h2) hbranch hpre₁ hF
        rw [hafter] at hrec
        exact hrec
      · rw [if_pos hb]
        obtain hb' : after (pre ++ label) d e = !b := Bool.eq_not.2 fun h => hb h.symm
        rw [hb'] at hbranch
        obtain ⟨hput, hpfx⟩ := put_prefix (q := [!b]) hkey ((prefix_append _ _).trans hpre₁) (by simpa using hl)
        have htrail := Trail.cons (!b) h' hp hr hm h1 h2
        rw [Bool.not_not] at htrail
        rw [← length_append] at htrail ⊢
        exact .inr ⟨_, _, _, _, _, _, _, rfl, hput, hpfx, htrail, hbranch⟩

/-- `rewind` goes to the first key, or to the last one if `to_end`. -/
theorem rewind_spec (hs : Stands label_mode root n (modeOf d e) f it o) (hroot : Readable label_mode n f root) (to_end : Bool) :
    Reaches label_mode root n (modeOf d e) f (d ^^ to_end) (e ^^ to_end) (fun _ => True) (it.rewind to_end) ∧
      ∃ it', it.rewind to_end = .ok (it', true) := by
  have hnil := takes_nil (d ^^ to_end) (e ^^ to_end) f
  cases hs with
  | eof hit hpath hleaf =>
    have hstart : Trail label_mode root n f it.path_ [] root f := by
      rw [hpath]
      exact .nil hroot
    have hrewind : it.rewind to_end = it.dive (modeOf (d ^^ to_end) (e ^^ to_end)) := by
      rw [rewind, hit.valid, hit.root_eq, hpath, hit.order_eq, turn_modeOf, eof, hleaf]
      rfl
    rw [hrewind]
    refine dive_spec hit hstart nil_prefix hnil ?_
    rw [hpath]
    rfl
  | @key val hit hat hleaf =>
    obtain ⟨pre, label, c, p, htrail, hp, hr, hm, hkey⟩ := hat.leads
    have hpre : pre <+: it.key_buffer := by
      rw [hkey]
      exact prefix_append _ _
    have hrewind : it.rewind to_end = (rewind_loop n it.key_buffer (modeOf (d ^^ to_end) (e ^^ to_end)) [] it.path_.reverse).bind fun r =>
        r.1.elim (.ok (it, true)) fun kp => dive { it with key_buffer := kp.1, path_ := kp.2, leaf_ := none } r.2 := by
      rw [rewind, hit.valid, hit.root_eq, hit.order_eq, hit.bits_eq, turn_modeOf, eof, hleaf]
      rcases rewind_loop n it.key_buffer (modeOf (d ^^ to_end) (e ^^ to_end)) [] it.path_.reverse with _ | ⟨_ | r, mode⟩ <;> rfl
    rw [hrewind]
    have hpath : Trail label_mode root n f (it.path_.reverse.reverse ++ []) pre c (under label (single val)) := by
      rwa [reverse_reverse, append_nil]
    rcases rewind_loop_spec it.path_.reverse (.nil hroot) hnil hit.buffer nil_prefix hpath hpre with
      ⟨mode, hloop, htakes⟩ | ⟨key', pe, path', x, pre', c', g', hloop, hlen, hpfx, htrail', htakes⟩
    · rw [after_nil] at hloop
      rw [hloop]
      have hfirst := htakes.leaf (fun k v hk => htrail.key_length hk) (by have := htrail.length_le; rw [length_append]; omega) htrail.lookup
      rw [← hkey] at hfirst
      exact ⟨⟨it, _, rfl, .key hit hat hleaf, hfirst⟩, it, rfl⟩
    · rw [after_nil] at hloop
      rw [hloop]
      exact dive_spec (hit.write hlen (pe :: path') none) htrail' hpfx htakes (by
        rw [isEmpty_cons, if_neg Bool.false_ne_true, modeOf_half]
        cases htrail'
        rw [after, if_neg (by simp)])

end Moves

end Ton.Dict
