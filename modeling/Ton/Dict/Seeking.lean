import Ton.Dict.Iteration
/-!
# Looking up a prefix

`lookup` keeps what it can of the path (`reuse_loop_spec`), goes down along the prefix
(`lookup_from_spec`), and ends at the first key at or behind the prefix wherever the
iterator stood before.
-/

namespace Ton.Dict
open List hiding after lookup next
open Result BitMap BitOrder DictIterator Bool

/-- The keys that are at or behind the prefix, or behind all that start with it if `strict_after`. -/
def Beyond (d e : Bool) (pos : List Bool) (strict_after : Bool) (k : List Bool) : Prop := Past d e pos k ∨ strict_after = false ∧ pos <+: k

section Seek
variable {label_mode : Check} {root : DataCell} {n : Nat} {order : Int} {f : BitMap CellSlice} {d e strict_after : Bool} {it : DictIterator}
  {path : List Fork} {pre pos : List Bool} {c : DataCell} {g : BitMap CellSlice}

theorem past_part {p q k : List Bool} {x y : Bool} (hxy : x ≠ y) : Past d e (p ++ x :: q) (p ++ y :: k) ↔ x = after p d e := by
  rw [past_append_left, Past, length_cons, take_succ_cons, ahead_cons_of_ne hxy]

theorem beyond_leave {q k : List Bool} (hk : k.length = n) (hn : (pre ++ q).length ≤ n) (hp : ¬ pre <+: k) :
    Beyond d e (pre ++ q) strict_after k ↔ Past d e pre k := by
  rw [Beyond, past_leave hk hn hp, or_iff_left]
  rintro ⟨-, hpfx⟩
  exact hp ((prefix_append _ _).trans hpfx)

/-! ## At a node -/

/-- What `lookup` does at a node with the label, `m` bits into the key. -/
def lookup_action (pos : List Bool) (strict_after : Bool) (mode : Int) (m : Nat) (label : List Bool) : Nat :=
  if same_upto label (pos.drop m) = pos.length - m then if strict_after then 2 else 1
  else if same_upto label (pos.drop m) < label.length then
    if pos.getD (m + same_upto label (pos.drop m)) false ≠ bit_at mode (m + same_upto label (pos.drop m)) then 2 else 1
  else 0

theorem lookup_action_spec (pre label : List Bool) {q : List Bool} (hq : q ≠ []) (d e strict_after : Bool) :
    (lookup_action (pre ++ q) strict_after (modeOf d e) pre.length label = 2 ∧ ∀ r, ¬ Beyond d e (pre ++ q) strict_after (pre ++ label ++ r)) ∨
    (lookup_action (pre ++ q) strict_after (modeOf d e) pre.length label = 1 ∧ ∀ r, Beyond d e (pre ++ q) strict_after (pre ++ label ++ r)) ∨
    lookup_action (pre ++ q) strict_after (modeOf d e) pre.length label = 0 ∧ ∃ x q', q = label ++ x :: q' := by
  have hright := same_upto_le_right label q
  have hleft := same_upto_le_left label q
  rw [lookup_action, drop_left, length_append, Nat.add_sub_cancel_left]
  by_cases hall : same_upto label q = q.length
  · -- the prefix ends in the label
    rw [if_pos hall]
    obtain ⟨s, rfl⟩ := same_upto_eq_length.1 ((same_upto_comm q label).trans hall)
    cases strict_after with
    | false => exact .inr (.inl ⟨rfl, fun r => .inr ⟨rfl, s ++ r, by simp⟩⟩)
    | true =>
      refine .inl ⟨rfl, fun r hr => ?_⟩
      rw [Beyond, or_iff_left (by simp), ← append_assoc, append_assoc] at hr
      exact not_past_append _ _ _ _ hr
  · rw [if_neg hall]
    by_cases hlt : same_upto label q < label.length
    · -- the label leaves the prefix
      rw [if_pos hlt]
      obtain ⟨p, x, r, k, hlen, rfl, rfl⟩ := same_upto_split hlt (by omega)
      have hbit : (pre ++ (p ++ (!x) :: k)).getD (pre ++ p).length false = !x := by
        rw [← append_assoc]
        simp
      have hbeyond : ∀ s, Beyond d e (pre ++ (p ++ (!x) :: k)) strict_after (pre ++ (p ++ x :: r) ++ s) ↔ (!x) = after (pre ++ p) d e := by
        intro s
        have hleave : ¬ (pre ++ (p ++ (!x) :: k)) <+: pre ++ (p ++ x :: r) ++ s := by
          rw [append_assoc, prefix_append_right_inj, append_assoc, prefix_append_right_inj, cons_append,
            cons_prefix_cons]
          rintro ⟨hx, -⟩
          exact not_ne_self x hx
        rw [Beyond, or_iff_left (fun h => hleave h.2), ← past_part (not_ne_self x) (q := k) (k := r ++ s)]
        simp only [append_assoc, cons_append]
      rw [← hlen, ← length_append, hbit, bit_at_modeOf]
      by_cases hdir : (!x) = after (pre ++ p) d e
      · rw [if_neg (not_not.2 hdir)]
        exact .inr (.inl ⟨rfl, fun s => (hbeyond s).2 hdir⟩)
      · rw [if_pos hdir]
        exact .inl ⟨rfl, fun s hs => hdir ((hbeyond s).1 hs)⟩
    · rw [if_neg hlt]
      obtain ⟨q', rfl⟩ := same_upto_eq_length.1 (show same_upto label q = label.length by omega)
      cases q' with
      | nil => exact absurd (by rw [append_nil, same_upto_eq_length]) hall
      | cons x q' => exact .inr (.inr ⟨rfl, x, q', rfl⟩)

theorem lookup_loop_node {m : Nat} {mode : Int} {label key : List Bool} {payload : CellSlice} {p : LabelParser} (hlt : m < pos.length)
    (hp : LabelParser.parse c n label_mode = .ok p) (hr : p.Reads label payload) (hl : label.length ≤ n) :
    lookup_loop label_mode pos strict_after mode (some c) m n key path =
      if lookup_action pos strict_after mode m label = 2 then .ok (put key m label, path, none, 2)
      else if n - label.length = 0 then .ok (put key m label, path, some payload, lookup_action pos strict_after mode m label)
      else
        let bit := if lookup_action pos strict_after mode m label ≠ 0 then bit_at mode (m + label.length) else pos.getD (m + label.length) false
        let key := put (put key m label) (m + label.length) [bit]
        let path := ⟨payload.prefetch_ref bit.toNat, payload.prefetch_ref (!bit).toNat, m + label.length, bit⟩ :: path
        if lookup_action pos strict_after mode m label ≠ 0 then .ok (key, path, none, lookup_action pos strict_after mode m label)
        else lookup_loop label_mode pos strict_after mode (payload.prefetch_ref bit.toNat) (m + label.length + 1) (n - label.length - 1) key path := by
  have hle := same_upto_le_left label (pos.drop m)
  rw [lookup_loop.eq_def, if_pos hlt]
  simp only [hp, ok_bind, hr.extract_label, hr.extract_l_bits, hr.common_prefix_len]
  rw [dif_neg (by omega)]
  rfl

/-! ## From a node on -/

theorem Trail.lookup_from (h : Trail label_mode root n f it.path_ pre c g) (hit : Over label_mode root n order it) (mode : Int) :
    it.lookup_from pos strict_after mode = (lookup_loop label_mode pos strict_after mode (some c) pre.length (n - pre.length) it.key_buffer
      it.path_).bind (it.lookup_end strict_after mode) := by
  rw [DictIterator.lookup_from, h.node it hit.root_eq rfl, hit.mode_eq, hit.bits_eq]
  rfl

theorem lookup_end_write (it : DictIterator) (key : List Bool) (path : List Fork) (mode : Int) :
    lookup_end { it with key_buffer := key, path_ := path, leaf_ := it.leaf_ } strict_after mode = it.lookup_end strict_after mode := by
  funext r
  rcases r with ⟨key, path, _ | val, action⟩ <;> rfl

theorem lookup_from_spec (hit : Over label_mode root n order it) (h : Trail label_mode root n f it.path_ pre c g) (hpre : pre <+: it.key_buffer)
    (hpos : pre <+: pos) (hn : pos.length ≤ n) :
    Reaches label_mode root n order f d e (Beyond d e pos strict_after) (it.lookup_from pos strict_after (modeOf d e)) := by
  have hlen : ∀ k v, f k = some v → k.length = n := fun k v hk => h.key_length hk
  have hle := h.length_le
  induction hm : n - pre.length using Nat.strong_induction_on generalizing it pre c g with
  | _ m₀ ih =>
  obtain ⟨q, rfl⟩ := hpos
  rw [h.lookup_from hit]
  by_cases hq : q = []
  · -- the path leads along the whole prefix
    subst hq
    rw [append_nil, lookup_loop.eq_def, if_neg (lt_irrefl _)]
    cases strict_after with
    | true =>
      refine (backtrack_spec hit h hpre).congr fun k v hk => ?_
      rw [Beyond, or_iff_left (by simp)]
    | false =>
      refine (dive_spec hit h hpre ⟨fun k v _ => ?_, fun k v _ hw => ?_⟩ (h.mode d e)).1
      · exact .inr ⟨rfl, prefix_append _ _⟩
      · exact hw.symm.imp (fun hp => hp.2) id
  · obtain ⟨label, m, g', payload, p, hsplit, rfl, hp, hr, hunder⟩ := h.readable.exists_node
    have hlt : pre.length < (pre ++ q).length := by
      rw [length_append]
      exact Nat.lt_add_of_pos_right (length_pos_iff.2 hq)
    obtain ⟨hput, hpfx⟩ := put_prefix hit.buffer hpre (q := label) (by omega)
    rw [lookup_loop_node hlt hp hr (by omega)]
    rcases lookup_action_spec pre label hq d e strict_after with ⟨haction, hbelow⟩ | ⟨haction, hbelow⟩ | ⟨haction, x, q', rfl⟩
    · -- no key below is wanted
      rw [haction, if_pos rfl]
      refine (backtrack_spec (hit.write hput it.path_ it.leaf_) h ((prefix_append _ _).trans hpfx)).congr fun k v hk => ?_
      by_cases hpk : pre <+: k
      · obtain ⟨r, rfl, -⟩ := exists_of_under h.lookup hk hpk
        refine iff_of_false ?_ (hbelow r)
        rw [append_assoc]
        exact not_past_append _ _ _ _
      · rw [beyond_leave (hlen k v hk) hn hpk]
    · -- all keys below are wanted
      rw [haction, if_neg (by decide)]
      have htakes : Takes d e f (Beyond d e (pre ++ q) strict_after) pre := by
        refine ⟨fun k v hk => ?_, fun k v hk hw => ?_⟩
        · rw [h.lookup] at hk
          obtain ⟨r, rfl, -⟩ := under_some hk
          rw [← append_assoc]
          exact hbelow r
        · by_cases hpk : pre <+: k
          · exact .inl hpk
          · exact .inr ((beyond_leave (hlen k v hk) hn hpk).1 hw)
      cases hunder with
      | leaf =>
        rw [if_pos (by omega)]
        have hfull : (pre ++ label).length = n := by
          rw [length_append]
          omega
        have hkey : put it.key_buffer pre.length label = pre ++ label := (hpfx.eq_of_length (hfull.trans hput.symm)).symm
        rw [hkey]
        exact ⟨_, some (pre ++ label, payload), rfl, .key (hit.write hfull _ _) ⟨⟨pre, label, c, p, h, hp, hr, by omega, rfl⟩⟩ rfl,
          htakes.leaf hlen hfull h.lookup⟩
      | fork h1 h2 =>
        rw [if_neg (by omega)]
        dsimp only
        have hl : (pre ++ label).length < n := by
          rw [length_append]
          omega
        have hnext := htakes.branch hlen hl h.lookup
        rw [if_pos one_ne_zero, if_pos one_ne_zero, ← length_append, bit_at_modeOf]
        generalize after (pre ++ label) d e = b at hnext ⊢
        obtain ⟨hput', hpfx', htrail⟩ := h.push hp hr (by omega) h1 h2 hput hpfx b
        exact (dive_spec (hit.write hput' _ it.leaf_) htrail hpfx' hnext (htrail.mode d e)).1
    · -- the prefix goes on behind the label
      rw [haction, if_neg (by decide)]
      cases hunder with
      | leaf =>
        simp only [length_append, length_cons] at hn
        omega
      | fork h1 h2 =>
        rw [if_neg (by omega)]
        dsimp only
        have hbit : (pre ++ (label ++ x :: q')).getD (pre ++ label).length false = x := by
          rw [← append_assoc]
          simp
        rw [if_neg (not_not.2 rfl), if_neg (not_not.2 rfl), ← length_append, hbit]
        obtain ⟨hput', hpfx', htrail⟩ := h.push hp hr (by omega) h1 h2 hput hpfx x
        have hlast : (pre ++ label ++ [x]).length = (pre ++ label).length + 1 := by
          rw [length_append, length_singleton]
        have hrec := ih (n - (pre ++ label ++ [x]).length) (by simp only [length_append, length_singleton]; omega)
          (hit.write hput' _ it.leaf_) htrail hpfx' ⟨q', by simp⟩ htrail.length_le rfl
        rw [htrail.lookup_from (hit.write hput' _ it.leaf_), hlast, lookup_end_write, prefetch_ref_side] at hrec
        rw [prefetch_ref_side, show n - pre.length - label.length - 1 = n - ((pre ++ label).length + 1) by rw [length_append]; omega]
        exact hrec

/-- The path leads one bit further than the prefix: to the end of the search that is not wanted if `strict_after`, else to the other. -/
theorem lookup_from_fill (hit : Over label_mode root n order it)
    (h : Trail label_mode root n f it.path_ (pos ++ [after pos d e ^^ strict_after]) c g)
    (hpre : pos ++ [after pos d e ^^ strict_after] <+: it.key_buffer) :
    Reaches label_mode root n order f d e (Beyond d e pos strict_after) (it.lookup_from pos strict_after (modeOf d e)) := by
  have hle := h.length_le
  rw [h.lookup_from hit, lookup_loop.eq_def, if_neg (by simp)]
  -- what a key is that starts with the prefix
  have hbit : ∀ {k v}, f k = some v → pos <+: k → ∃ y r, k = pos ++ y :: r := by
    rintro k v hk ⟨r, rfl⟩
    have hlen := h.key_length hk
    cases r with
    | nil =>
      simp only [length_append, length_nil, length_singleton] at hlen hle
      omega
    | cons y r => exact ⟨y, r, rfl⟩
  cases strict_after with
  | true =>
    refine (backtrack_spec hit h hpre).congr fun k v hk => ?_
    rw [Beyond, or_iff_left (by simp)]
    by_cases hpk : pos <+: k
    · obtain ⟨y, r, rfl⟩ := hbit hk hpk
      rw [past_bit, Bool.xor_true]
      exact iff_of_false (fun h => not_ne_self _ h.2) (not_past_append _ _ _ _)
    · exact past_leave (h.key_length hk) hle hpk
  | false =>
    rw [Bool.xor_false] at h hpre hle
    refine (dive_spec hit h hpre ⟨fun k v _ => ?_, fun k v hk hw => ?_⟩ (h.mode d e)).1
    · exact .inr ⟨rfl, by simp⟩
    · by_cases hpk : pos <+: k
      · obtain ⟨y, r, rfl⟩ := hbit hk hpk
        by_cases hy : y = after pos d e
        · subst hy
          exact .inl ⟨r, by simp⟩
        · right
          rw [past_bit]
          exact ⟨hy, rfl⟩
      · right
        rw [past_leave (h.key_length hk) hle hpk]
        exact hw.resolve_right fun hw => hpk hw.2

/-! ## The path that is kept -/

theorem after_xor (p : List Bool) (d e x : Bool) : after p (d ^^ x) (e ^^ x) = (after p d e ^^ x) := by
  cases p <;> rfl

/-- What is kept of the path leads along the prefix, or one bit further in the direction `fill`. -/
theorem reuse_loop_spec (rest : List Fork) {kept : List Fork} {key preF : List Bool} {cF : DataCell} {gF : BitMap CellSlice} (fill : Bool)
    (h : Trail label_mode root n f kept pre c g) (hkey : key.length = n) (hpos : pre <+: pos) (hn : pos.length ≤ n)
    (hF : Trail label_mode root n f (rest.reverse ++ kept) preF cF gF) (hpreF : preF <+: key) (hpre : pre <+: key) :
    ∃ key' path' pre' c' g', reuse_loop (same_upto (key.take pos.length) pos) pos.length (modeOf (d ^^ fill) (e ^^ fill)) key kept rest =
        (key', path') ∧
      key'.length = n ∧ pre' <+: key' ∧ Trail label_mode root n f path' pre' c' g' ∧ (pre' <+: pos ∨ pre' = pos ++ [after pos d e ^^ fill]) := by
  have htake : ∀ {p : List Bool}, p <+: key → p.length ≤ pos.length → (p <+: pos ↔ p.length ≤ same_upto (key.take pos.length) pos) :=
    fun hp hl => prefix_iff_le_same_upto (prefix_take_iff.2 ⟨hp, hl⟩)
  have hle := same_upto_le_right (key.take pos.length) pos
  induction rest generalizing kept pre c g with
  | nil => exact ⟨key, kept, pre, c, g, rfl, hkey, hpre, h, .inl hpos⟩
  | cons pe rest ih =>
    rw [reverse_cons, append_assoc, singleton_append] at hF
    obtain ⟨pre₁, c₁, g₁', hcons, hpre₁⟩ := hF.drop
    have hpre₁ := hpre₁.trans hpreF
    cases hcons with
    | @cons _ pre₀ label bits c₀ c1 c2 refs g₀ g₁ m p b h' hp hr hm h1 h2 =>
      obtain ⟨-, rfl, rfl⟩ := h.unique h' hpre ((prefix_append _ _).trans ((prefix_append _ _).trans hpre₁)) rfl
      rw [← length_append] at hF
      have hlabel : pre ++ label <+: key := (prefix_append _ _).trans hpre₁
      have hl : (pre ++ label ++ [b]).length ≤ n := by
        simp only [length_append, length_singleton]
        omega
      rw [reuse_loop]
      dsimp only
      rw [← length_append]
      by_cases hbp : (pre ++ label).length ≤ same_upto (key.take pos.length) pos
      · have hpos' : pre ++ label <+: pos := (htake hlabel (hbp.trans hle)).2 hbp
        rw [if_pos hbp]
        by_cases heq : (pre ++ label).length = same_upto (key.take pos.length) pos
        · rw [if_pos heq]
          obtain ⟨q, rfl⟩ := hpos'
          obtain ⟨hput, hpfx⟩ := put_prefix (q := [!b]) hkey hlabel (by simpa only [length_append, length_singleton] using hl)
          have hother := Trail.cons (!b) h' hp hr hm h1 h2
          rw [Bool.not_not, ← length_append] at hother
          cases q with
          | nil =>
            -- the fork is at the end of the prefix
            rw [append_nil] at heq ⊢
            rw [← heq, if_congr (or_iff_right (lt_irrefl _)) rfl rfl, bit_at_modeOf]
            by_cases hb : b = after (pre ++ label) (d ^^ fill) (e ^^ fill)
            · rw [if_neg (not_not.2 hb)]
              exact ⟨key, kept, pre, c, g, rfl, hkey, hpre, h, .inl (prefix_append _ _)⟩
            · rw [if_pos hb]
              refine ⟨_, _, _, _, _, rfl, hput, hpfx, hother, .inr ?_⟩
              rw [eq_not.2 hb, Bool.not_not, after_xor]
          | cons y q =>
            -- the key leaves the prefix at the fork
            rw [if_pos (.inl (by rw [← heq]; simp))]
            have hy : y = !b := by
              refine eq_not.2 fun hyb => ?_
              subst hyb
              have hlast := (htake hpre₁ (by simp)).1 ⟨q, by simp⟩
              have hlen : (pre ++ label ++ [y]).length = (pre ++ label).length + 1 := by rw [length_append, length_singleton]
              omega
            subst hy
            exact ⟨_, _, _, _, _, rfl, hput, hpfx, hother, .inl ⟨q, by simp⟩⟩
        · rw [if_neg heq]
          have hlast : (pre ++ label ++ [b]).length ≤ same_upto (key.take pos.length) pos := by
            rw [length_append, length_singleton]
            omega
          have htrail := Trail.cons b h' hp hr hm h1 h2
          rw [← length_append] at htrail
          exact ih htrail ((htake hpre₁ (hlast.trans hle)).2 hlast) hF hpre₁
      · rw [if_neg hbp]
        exact ⟨key, kept, pre, c, g, rfl, hkey, hpre, h, .inl hpos⟩

/-- `lookup` goes to the first key at or behind the prefix from wherever the iterator stands. -/
theorem lookup_spec {o : Option (List Bool × CellSlice)} (hs : Stands label_mode root n (modeOf d e) f it o) (hroot : Readable label_mode n f root)
    (hn : pos.length ≤ n) (strict_after back : Bool) :
    Reaches label_mode root n (modeOf d e) f (d ^^ back) (e ^^ back) (Beyond (d ^^ back) (e ^^ back) pos strict_after)
      (it.lookup pos strict_after back) := by
  cases hs with
  | eof hit hpath hleaf =>
    have hstart : Trail label_mode root n f it.path_ [] root f := by
      rw [hpath]
      exact .nil hroot
    have hguard : (!it.is_valid || it.root_.isNone || pos.length > it.key_bits_) = false := by
      simpa [hit.valid, hit.root_eq, hit.bits_eq] using hn
    rw [lookup, if_neg (by rw [hguard]; exact Bool.false_ne_true), if_pos (by simp [eof, hleaf]), hit.order_eq, turn_modeOf]
    exact lookup_from_spec hit hstart nil_prefix nil_prefix hn
  | @key val hit hat hleaf =>
    obtain ⟨pre, c, g, htrail, hpre, hlen, hval, -⟩ := hat.exists_trail (d := d ^^ back) (e := e ^^ back)
    have hguard : (!it.is_valid || it.root_.isNone || pos.length > it.key_bits_) = false := by
      simpa [hit.valid, hit.root_eq, hit.bits_eq] using hn
    rw [lookup, if_neg (by rw [hguard]; exact Bool.false_ne_true), if_neg (by simp [eof, hleaf]), hit.bits_eq]
    dsimp only
    by_cases hthere : same_upto (it.key_buffer.take pos.length) pos = pos.length ∧ same_upto (it.key_buffer.take pos.length) pos ≥ n
    · rw [if_pos hthere]
      obtain hfull : pos.length = n := by omega
      have hpos : pos = it.key_buffer := by
        have hpfx := same_upto_eq_length.1 ((same_upto_comm pos (it.key_buffer.take pos.length)).trans hthere.1)
        rw [take_of_length_le (by omega)] at hpfx
        exact hpfx.eq_of_length (hfull.trans hlen.symm)
      subst hpos
      cases strict_after with
      | true =>
        refine (next_spec (.key hit hat hleaf) back).congr fun k v hk => ?_
        rw [Beyond, or_iff_left (by simp), past_full (hlen.trans (htrail.key_length hk).symm)]
      | false =>
        refine ⟨it, _, rfl, .key hit hat hleaf, .found hval (.inr ⟨rfl, prefix_refl _⟩) fun k v hk hw => ?_⟩
        have hk' := hlen.trans (htrail.key_length hk).symm
        rw [Beyond, past_full hk'] at hw
        exact hw.symm.imp (fun hp => (hp.2.eq_of_length hk').symm) id
    · rw [if_neg hthere, hit.order_eq, turn_modeOf, turn_modeOf, Bool.xor_comm strict_after back, ← xor_assoc, ← xor_assoc]
      have hpath : Trail label_mode root n f (it.path_.reverse.reverse ++ []) pre c g := by
        rwa [reverse_reverse, append_nil]
      obtain ⟨key', path', pre', c', g', hreuse, hkey', hpre', htrail', hlast⟩ := reuse_loop_spec (d := d ^^ back) (e := e ^^ back) it.path_.reverse
        strict_after (.nil hroot) hit.buffer nil_prefix hn hpath hpre nil_prefix
      rw [hreuse]
      rcases hlast with hpos | rfl
      · exact lookup_from_spec ⟨hit.root_eq, hit.mode_eq, rfl, rfl, hkey', hit.pos, hit.le_max⟩ htrail' hpre' hpos hn
      · exact lookup_from_fill ⟨hit.root_eq, hit.mode_eq, rfl, rfl, hkey', hit.pos, hit.le_max⟩ htrail' hpre'

end Seek

end Ton.Dict
