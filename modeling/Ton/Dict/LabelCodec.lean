import Ton.Dict.Label
/-!
# The codec of labels

A label has up to three encodings, `hml_short`, `hml_long` and `hml_same`, and these
are all that the parser takes for it (`parses_iff_hml`). The writers produce the
shortest of them, and of the shortest the least (`Hml.least`), whenever it fits.
-/

namespace Ton.Dict
open BigEndian CellTraits CellBuilder Result List LabelParser

/-! ## Stores that fit -/

theorem store_bits_fits {cb : CellBuilder} {bs : List Bool} (h : cb.bits.length + bs.length ≤ max_bits) :
    cb.store_bits bs = .ok { cb with bits := cb.bits ++ bs } := by
  have hc : cb.can_extend_by bs.length 0 = true := by
    simp only [can_extend_by, Nat.zero_le, decide_true, Bool.and_true, decide_eq_true_eq]
    omega
  rw [store_bits, store_bits_bool, if_pos hc]

theorem store_long_fits {cb : CellBuilder} {val : Int} {k : Nat} (h : cb.bits.length + k ≤ max_bits) :
    cb.store_long val k = .ok { cb with bits := cb.bits ++ toBits k (val % 2 ^ k).toNat } :=
  store_bits_fits (by rwa [toBits_length])

section Codec
variable {label code : List Bool} {max_len : Nat} {cb : CellBuilder}

theorem append_dict_label_same_of_fits {same : Bool} {len : Nat} (hl : len ≤ max_len) (hmax : max_len ≤ 1023)
    (hfits : cb.bits.length + (labelBits (List.replicate len same) max_len).length ≤ max_bits) :
    append_dict_label_same cb same len max_len = .ok { cb with bits := cb.bits ++ labelBits (List.replicate len same) max_len } := by
  have hex : ∃ cb', append_dict_label_same cb same len max_len = .ok cb' := by
    unfold append_dict_label_same
    rw [labelBits_replicate] at hfits
    dsimp only
    rw [if_neg (by omega)]
    split_ifs at hfits ⊢ with hsame hlong
    · simp only [length_append, length_cons, length_nil, toBits_length] at hfits
      rw [store_long_fits (by omega), ok_bind, store_long_fits (by simp only [length_append, toBits_length]; omega)]
      exact ⟨_, rfl⟩
    · simp only [length_append, length_cons, length_nil, toBits_length, length_replicate] at hfits
      rw [store_long_fits (by omega), ok_bind, store_long_fits (by simp only [length_append, toBits_length]; omega), ok_bind,
        store_long_fits (by simp only [length_append, toBits_length]; omega)]
      exact ⟨_, rfl⟩
    · simp only [length_append, length_cons, length_nil, length_replicate] at hfits
      rw [store_long_fits (by omega), ok_bind, store_long_fits (by simp only [length_append, toBits_length]; omega), ok_bind,
        store_long_fits (by simp only [length_append, toBits_length]; omega)]
      exact ⟨_, rfl⟩
  obtain ⟨cb', hcb⟩ := hex
  obtain ⟨-, -, rfl⟩ := append_dict_label_same_ok hcb
  exact hcb

theorem append_dict_label_of_fits (hl : label.length ≤ max_len) (hmax : max_len ≤ 1023)
    (hfits : cb.bits.length + (labelBits label max_len).length ≤ max_bits) :
    append_dict_label cb label max_len = .ok { cb with bits := cb.bits ++ labelBits label max_len } := by
  have hex : ∃ cb', append_dict_label cb label max_len = .ok cb' := by
    unfold append_dict_label
    dsimp only
    rw [if_neg (by omega)]
    split_ifs with hconst hlong
    · have heq := bits_memscan_eq_length.1 hconst.2
      rw [heq] at hfits
      exact ⟨_, append_dict_label_same_of_fits hl hmax hfits⟩
    all_goals
      have hns : ¬(label.length > 1 ∧ len_bits max_len < 2 * label.length - 1 ∧ label = List.replicate label.length (label.headD false)) := by
        rintro ⟨hlen, -, heq⟩
        exact hconst ⟨by omega, bits_memscan_eq_length.2 heq⟩
      unfold labelBits at hfits
      dsimp only at hfits
      rw [if_neg hns] at hfits
    · rw [if_pos hlong] at hfits
      simp only [length_append, length_cons, length_nil, toBits_length] at hfits
      rw [store_long_fits (by omega), ok_bind, store_long_fits (by simp only [length_append, toBits_length]; omega), ok_bind,
        if_neg (by simp only [remaining_bits, length_append, toBits_length]; omega),
        store_bits_fits (by simp only [length_append, toBits_length]; omega)]
      exact ⟨_, rfl⟩
    · rw [if_neg hlong] at hfits
      simp only [length_append, length_cons, length_nil, length_replicate] at hfits
      rw [store_long_fits (by omega), ok_bind, store_long_fits (by simp only [length_append, toBits_length]; omega), ok_bind,
        if_neg (by simp only [remaining_bits, length_append, toBits_length]; omega),
        store_bits_fits (by simp only [length_append, toBits_length]; omega)]
      exact ⟨_, rfl⟩
  obtain ⟨cb', hcb⟩ := hex
  obtain ⟨-, -, rfl⟩ := append_dict_label_ok hcb
  exact hcb

/-! ## The three forms -/

/-- The encodings of a label of at most `max_len` bits. -/
inductive Hml (label : List Bool) (max_len : Nat) : List Bool → Prop where
  | short : Hml label max_len (false :: List.replicate label.length true ++ [false] ++ label)
  | long : Hml label max_len ([true, false] ++ toBits (len_bits max_len) label.length ++ label)
  | same (b : Bool) (h : label = List.replicate label.length b) : Hml label max_len ([true, true, b] ++ toBits (len_bits max_len) label.length)

/-- The parser reads `code` as the label and leaves nothing. -/
def Parses (label : List Bool) (max_len : Nat) (code : List Bool) : Prop :=
  ∃ p, parse_label ⟨code, []⟩ max_len = some p ∧ p.extract_label.1 = label ∧ p.extract_label.2.remainder = ⟨[], []⟩

theorem Hml.parses (h : Hml label max_len code) (hl : label.length ≤ max_len) (hmax : max_len ≤ 1023) : Parses label max_len code := by
  have hbits : Reads ⟨⟨label ++ [], []⟩, 0, label.length, label.length⟩ label ⟨[], []⟩ := ⟨rfl, .inl ⟨rfl, rfl, rfl⟩⟩
  cases h with
  | short =>
    have hp := parse_label_short label max_len ⟨[], []⟩ hl
    exact ⟨_, by simpa using hp, by simpa using hbits.extract_label⟩
  | long =>
    have hp := parse_label_long label max_len ⟨[], []⟩ hl hmax
    exact ⟨_, by simpa using hp, by simpa using hbits.extract_label⟩
  | same b h =>
    have hp := parse_label_same label max_len ⟨[], []⟩ b hl hmax
    have hb : same_bit ⟨⟨[], []⟩, 6 + b.toNat, label.length, 0⟩ = b := by cases b <;> simp [same_bit]
    have hr : Reads ⟨⟨[], []⟩, 6 + b.toNat, label.length, 0⟩ label ⟨[], []⟩ := ⟨rfl, .inr ⟨by simp, by rw [hb]; exact h, rfl, rfl⟩⟩
    exact ⟨_, by simpa using hp, hr.extract_label⟩

theorem eq_of_extract {l : List Bool} {n : Nat} (hn : n ≤ l.length) (hlabel : (extract_label ⟨⟨l, []⟩, 0, n, n⟩).1 = label)
    (hrest : (extract_label ⟨⟨l, []⟩, 0, n, n⟩).2.remainder = ⟨[], []⟩) : l = label ∧ n = label.length := by
  have hhave : CellSlice.have_bits ⟨l, []⟩ n = true := decide_eq_true hn
  simp only [extract_label, if_pos] at hlabel hrest
  rw [CellSlice.advance, if_pos hhave] at hrest
  have hdrop : l.drop n = [] := congrArg CellSlice.bits hrest
  have hlen : n = l.length := le_antisymm hn (drop_eq_nil_iff.1 hdrop)
  rw [hlen, take_length] at hlabel
  exact ⟨hlabel, by rw [hlen, hlabel]⟩

theorem ones_split (l : List Bool) (h : (l.takeWhile (· == true)).length < l.length) :
    ∃ t, l = List.replicate (l.takeWhile (· == true)).length true ++ false :: t := by
  induction l with
  | nil => exact absurd h (Nat.lt_irrefl 0)
  | cons b l ih =>
    cases b with
    | false => exact ⟨l, rfl⟩
    | true =>
      obtain ⟨t, ht⟩ := ih (by simpa using h)
      refine ⟨t, ?_⟩
      simp only [takeWhile_cons, beq_self_eq_true, if_true, length_cons, replicate_succ, cons_append]
      exact congrArg _ ht

theorem fetch_ulong_split {l : List Bool} {k n : Nat} {cs : CellSlice} (hk : k ≤ 64) (h : CellSlice.fetch_ulong ⟨l, []⟩ k = (some n, cs)) :
    ∃ t, l = toBits k n ++ t ∧ cs = ⟨t, []⟩ := by
  have hle : k ≤ l.length := by
    by_contra hlt
    have hhave : CellSlice.have_bits ⟨l, []⟩ k = false := decide_eq_false hlt
    rw [CellSlice.fetch_ulong, hhave] at h
    cases h
  have hfetch := fetch_ulong_append (l.take k) (l.drop k) [] k (length_take_of_le hle) hk
  rw [take_append_drop, h] at hfetch
  obtain ⟨hn, hcs⟩ := Prod.mk.inj hfetch
  refine ⟨l.drop k, ?_, hcs⟩
  have hbits := toBits_ofBits (l.take k)
  rw [length_take_of_le hle, ← Option.some.inj hn] at hbits
  rw [hbits, take_append_drop]

variable {rest : List Bool}

theorem Parses.hml_short (h : Parses label max_len (false :: rest)) : Hml label max_len (false :: rest) := by
  obtain ⟨p, hp, hlabel, hrest⟩ := h
  unfold parse_label at hp
  cases rest with
  | nil => cases hp
  | cons b rest =>
    cases b with
    | false =>
      have htype : CellSlice.prefetch_ulong ⟨false :: false :: rest, []⟩ 2 = some 0 := prefetch_ulong_append [false, false] rest [] 2 rfl (by omega)
      simp only [htype] at hp
      cases hp
      rw [show CellSlice.advance ⟨false :: false :: rest, []⟩ 2 = _ from advance_append [false, false] rest [] 2 rfl] at hlabel hrest
      obtain ⟨rfl, hlen⟩ := eq_of_extract (Nat.zero_le _) hlabel hrest
      have hnil : rest = [] := length_eq_zero_iff.1 hlen.symm
      rw [hnil]
      exact .short
    | true =>
      have htype : CellSlice.prefetch_ulong ⟨false :: true :: rest, []⟩ 2 = some 1 := prefetch_ulong_append [false, true] rest [] 2 rfl (by omega)
      have hadvance : CellSlice.advance ⟨false :: true :: rest, []⟩ 1 = ⟨true :: rest, []⟩ := advance_append [false] (true :: rest) [] 1 rfl
      simp only [htype, hadvance] at hp
      split_ifs at hp with hbad
      cases hp
      rw [Bool.or_eq_true, not_or] at hbad
      have hhave : 2 * CellSlice.count_leading ⟨true :: rest, []⟩ true + 1 ≤ (true :: rest).length := by
        simpa [CellSlice.have_bits, CellSlice.size] using hbad.2
      obtain ⟨t, ht⟩ := ones_split (true :: rest) (by rw [CellSlice.count_leading] at hhave; dsimp only at hhave ⊢; omega)
      change true :: rest = List.replicate (CellSlice.count_leading ⟨true :: rest, []⟩ true) true ++ false :: t at ht
      generalize CellSlice.count_leading ⟨true :: rest, []⟩ true = n at hlabel hrest hhave ht
      rw [ht, append_cons] at hlabel hrest
      rw [show CellSlice.advance ⟨List.replicate n true ++ [false] ++ t, []⟩ (n + 1) = _ from
        advance_append (List.replicate n true ++ [false]) t [] (n + 1) (by simp)] at hlabel hrest
      have hn : n ≤ t.length := by
        rw [ht] at hhave
        simp at hhave
        omega
      obtain ⟨rfl, rfl⟩ := eq_of_extract hn hlabel hrest
      rw [ht, append_cons]
      exact .short

theorem Parses.hml_long (hmax : max_len ≤ 1023) (h : Parses label max_len (true :: false :: rest)) :
    Hml label max_len (true :: false :: rest) := by
  obtain ⟨p, hp, hlabel, hrest⟩ := h
  have hk := len_bits_le_of_le hmax
  unfold parse_label at hp
  have htype : CellSlice.prefetch_ulong ⟨true :: false :: rest, []⟩ 2 = some 2 := prefetch_ulong_append [true, false] rest [] 2 rfl (by omega)
  have hadvance : CellSlice.advance ⟨true :: false :: rest, []⟩ 2 = ⟨rest, []⟩ := advance_append [true, false] rest [] 2 rfl
  simp only [htype, hadvance] at hp
  split at hp
  · next n cs hfetch =>
    obtain ⟨t, rfl, rfl⟩ := fetch_ulong_split (by omega) hfetch
    split_ifs at hp with hbad
    cases hp
    rw [Bool.or_eq_true, not_or] at hbad
    have hn : n ≤ t.length := of_decide_eq_true (by simpa using hbad.2 : CellSlice.have_bits ⟨t, []⟩ n = true)
    obtain ⟨rfl, rfl⟩ := eq_of_extract hn hlabel hrest
    exact .long
  · cases hp

theorem Parses.hml_same (hmax : max_len ≤ 1023) (h : Parses label max_len (true :: true :: rest)) :
    Hml label max_len (true :: true :: rest) := by
  obtain ⟨p, hp, hlabel, hrest⟩ := h
  have hk := len_bits_le_of_le hmax
  unfold parse_label at hp
  have htype : CellSlice.prefetch_ulong ⟨true :: true :: rest, []⟩ 2 = some 3 := prefetch_ulong_append [true, true] rest [] 2 rfl (by omega)
  simp only [htype] at hp
  split_ifs at hp with hhave
  cases rest with
  | nil =>
    simp [CellSlice.have_bits, CellSlice.size] at hhave
    omega
  | cons b rest =>
    have hsame : ofBits [true, true, b] = 6 + b.toNat := by cases b <;> rfl
    have hfirst : CellSlice.fetch_ulong ⟨true :: true :: b :: rest, []⟩ 3 = (some (6 + b.toNat), ⟨rest, []⟩) := by
      rw [← hsame]
      exact fetch_ulong_append [true, true, b] rest [] 3 rfl (by omega)
    simp only [hfirst] at hp
    split at hp
    · next n cs hfetch =>
      obtain ⟨t, rfl, rfl⟩ := fetch_ulong_split (by omega) hfetch
      split_ifs at hp with hbad
      cases hp
      rw [extract_label, if_neg (by simp)] at hlabel hrest
      dsimp only at hlabel hrest
      have ht : t = [] := congrArg CellSlice.bits hrest
      have hb : same_bit ⟨⟨t, []⟩, 6 + b.toNat, n, 0⟩ = b := by cases b <;> simp [same_bit]
      rw [hb] at hlabel
      have hlen : n = label.length := by rw [← hlabel, length_replicate]
      rw [ht, hlen, append_nil]
      exact .same b (by rw [← hlen]; exact hlabel.symm)
    · cases hp

/-- What the parser reads as a label and nothing else are the encodings of the label. -/
theorem parses_iff_hml (hl : label.length ≤ max_len) (hmax : max_len ≤ 1023) : Parses label max_len code ↔ Hml label max_len code := by
  refine ⟨fun h => ?_, fun h => h.parses hl hmax⟩
  cases code with
  | nil =>
    obtain ⟨p, hp, -, -⟩ := h
    cases hp
  | cons a code =>
    cases a with
    | false => exact h.hml_short
    | true =>
      cases code with
      | nil =>
        obtain ⟨p, hp, -, -⟩ := h
        cases hp
      | cons b code =>
        cases b with
        | false => exact h.hml_long hmax
        | true => exact h.hml_same hmax

/-! ## The least form -/

theorem hml_labelBits (label : List Bool) (max_len : Nat) : Hml label max_len (labelBits label max_len) := by
  unfold labelBits
  dsimp only
  split_ifs with hsame hlong
  · exact .same _ hsame.2.2
  · exact .long
  · exact .short

theorem headD_of_constant {b : Bool} (hb : label = List.replicate label.length b) (hpos : 0 < label.length) : label.headD false = b := by
  cases label with
  | nil => cases hpos
  | cons x l => exact (List.cons.inj hb).1

/-- The form that is written is the shortest one, and of the shortest the least. -/
theorem Hml.least (h : Hml label max_len code) (hl : label.length ≤ max_len) :
    (labelBits label max_len).length < code.length ∨ ((labelBits label max_len).length = code.length ∧ labelBits label max_len ≤ code) := by
  have hpos : 0 < label.length → 0 < len_bits max_len := by
    intro hlen
    rw [len_bits, if_neg (by omega)]
    exact Nat.succ_pos _
  unfold labelBits
  dsimp only
  split_ifs with hsame hlong
  · obtain ⟨hlen, hk, hconst⟩ := hsame
    cases h with
    | short => exact .inl (by simp; omega)
    | long => exact .inl (by simp; omega)
    | same b hb =>
      -- a label of two bits or more is constant in one way
      rw [headD_of_constant hb (by omega)]
      exact .inr ⟨rfl, le_refl _⟩
  · have hshort : ∀ b, label = List.replicate label.length b → label.length ≤ 1 := by
      intro b hb
      by_contra hlen
      refine hsame ⟨by omega, by omega, ?_⟩
      rwa [headD_of_constant hb (by omega)]
    cases h with
    | short => exact .inl (by simp; omega)
    | long => exact .inr ⟨rfl, le_refl _⟩
    | same b hb =>
      have hone := hshort b hb
      have hk := hpos (by omega)
      omega
  · have hmany : ∀ b, label = List.replicate label.length b → 1 < label.length → 2 * label.length - 1 ≤ len_bits max_len := by
      intro b hb hlen
      by_contra hk
      refine hsame ⟨hlen, by omega, ?_⟩
      rwa [headD_of_constant hb (by omega)]
    have hfirst : ∀ l r : List Bool, false :: l ≤ true :: r := by
      intro l r
      exact le_of_lt (List.Lex.rel (by decide))
    cases h with
    | short => exact .inr ⟨rfl, le_refl _⟩
    | long =>
      rcases Nat.lt_or_ge label.length (len_bits max_len) with hlt | hge
      · exact .inl (by simp; omega)
      · exact .inr ⟨by simp; omega, hfirst _ _⟩
    | same b hb =>
      have hle : 2 * label.length + 2 ≤ 3 + len_bits max_len := by
        rcases Nat.lt_or_ge 1 label.length with hlen | hlen
        · have hk := hmany b hb hlen
          omega
        · rcases Nat.eq_zero_or_pos label.length with hzero | hone
          · omega
          · have hk := hpos hone
            omega
      rcases Nat.lt_or_ge (2 * label.length + 2) (3 + len_bits max_len) with hlt | hge
      · exact .inl (by simp; omega)
      · exact .inr ⟨by simp; omega, hfirst _ _⟩

/-- A label that fits is written in the least of its shortest forms, a constant one by either writer, and it is read back before any
payload. -/
theorem label_codec (hmax : max_len ≤ 1023) (hl : label.length ≤ max_len)
    (hfits : cb.bits.length + (labelBits label max_len).length ≤ max_bits) :
    append_dict_label cb label max_len = .ok { cb with bits := cb.bits ++ labelBits label max_len } ∧
    (∀ b, label = List.replicate label.length b →
      append_dict_label_same cb b label.length max_len = append_dict_label cb label max_len) ∧
    (∀ payload : CellSlice, ∃ p, parse_label ⟨labelBits label max_len ++ payload.bits, payload.refs⟩ max_len = some p ∧
      p.extract_label.1 = label ∧ p.extract_label.2.remainder = payload ∧
      ∀ mode : Check, (label.length < max_len → mode.Passes payload) → p.validate max_len mode = .ok ()) ∧
    (∀ code, Parses label max_len code ↔ Hml label max_len code) ∧
    Hml label max_len (labelBits label max_len) ∧
    ∀ code, Hml label max_len code → (labelBits label max_len).length < code.length ∨
      ((labelBits label max_len).length = code.length ∧ labelBits label max_len ≤ code) := by
  have happend := append_dict_label_of_fits hl hmax hfits
  refine ⟨happend, fun b hb => ?_, fun payload => ?_, fun code => parses_iff_hml hl hmax, hml_labelBits label max_len, fun code h => h.least hl⟩
  · rw [happend]
    rw [hb] at hfits
    have hsame := append_dict_label_same_of_fits hl hmax hfits
    rwa [← hb] at hsame
  · obtain ⟨p, hp, hr⟩ := parse_labelBits label max_len payload hl hmax
    exact ⟨p, hp, hr.extract_label.1, hr.extract_label.2, fun mode hmode => hr.validate_all hl hmode⟩

theorem label_codec_five_ones : append_dict_label {} (List.replicate 5 true) 8 = .ok ⟨[true, true, true, false, true, false, true], []⟩ ∧
    append_dict_label_same {} true 5 8 = append_dict_label {} (List.replicate 5 true) 8 := by
  have hfits : ({} : CellBuilder).bits.length + (labelBits (List.replicate 5 true) 8).length ≤ max_bits := by decide
  obtain ⟨happend, hsame, -⟩ := label_codec (by decide : 8 ≤ 1023) (by decide : (List.replicate 5 true).length ≤ 8) hfits
  exact ⟨happend, hsame true rfl⟩

end Codec

end Ton.Dict
