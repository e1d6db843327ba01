import Ton.Text.BlockIdExt
/-!
# Parsed block identifiers

The strings that `parse_block_id_ext` takes are texts of identifiers, but for the
characters next to the digits that `parse_hex_hash` takes; what is printed is taken.
-/

namespace Ton.Text
open Shard List Option Nat

/-- The text of an identifier up to its hashes. -/
def IdHead (head : Bytes) (id : BlockId) : Prop :=
  ∃ w1 w2 w3 neg1 neg2 neg3 n1 n2 n3, Numeral 10 w1 neg1 n1 ∧ Numeral 16 w2 neg2 n2 ∧ Numeral 10 w3 neg3 n3 ∧
    head = ch '(' :: (w1 ++ ch ',' :: (w2 ++ ch ',' :: (w3 ++ [ch ')', ch ':']))) ∧
    id = ⟨to_int neg1 n1, to_ulong neg2 n2, (to_ulong neg3 n3).setWidth 32⟩

section
variable {s t head rest str after h1 h2 : Bytes} {id : BlockId} {b r : BlockIdExt}

theorem scan_literal_spec {c : UInt8} (h : scan_literal c s = some t) : s = c :: t := by
  match s with
  | [] => cases h
  | d :: s =>
    obtain ⟨hc, hs⟩ := ite_none_right_eq_some.1 h
    rw [hc, some_inj.1 hs]

theorem scan_literal_cons (c : UInt8) (s : Bytes) : scan_literal c (c :: s) = some s := if_pos rfl

theorem scan_id_spec (h : scan_id s = some (id, rest)) : ∃ head, s = head ++ rest ∧ IdHead head id := by
  obtain ⟨s0, h0, h⟩ := bind_eq_some_iff.1 h
  obtain ⟨⟨neg1, n1, s1⟩, g1, h⟩ := bind_eq_some_iff.1 h
  obtain ⟨s1', h1, h⟩ := bind_eq_some_iff.1 h
  obtain ⟨⟨neg2, n2, s2⟩, g2, h⟩ := bind_eq_some_iff.1 h
  obtain ⟨s2', h2, h⟩ := bind_eq_some_iff.1 h
  obtain ⟨⟨neg3, n3, s3⟩, g3, h⟩ := bind_eq_some_iff.1 h
  obtain ⟨s3', h3, h⟩ := bind_eq_some_iff.1 h
  obtain ⟨s4, h4, h⟩ := bind_eq_some_iff.1 h
  cases h
  obtain ⟨w1, e1, k1⟩ := scan_number_spec g1
  obtain ⟨w2, e2, k2⟩ := scan_number_spec g2
  obtain ⟨w3, e3, k3⟩ := scan_number_spec g3
  refine ⟨_, ?_, w1, w2, w3, neg1, neg2, neg3, n1, n2, n3, k1, k2, k3, rfl, rfl⟩
  rw [scan_literal_spec h0, e1, scan_literal_spec h1, e2, scan_literal_spec h2, e3, scan_literal_spec h3, scan_literal_spec h4]
  simp

theorem IdHead.scan (h : IdHead head id) (rest : Bytes) : scan_id (head ++ rest) = some (id, rest) := by
  obtain ⟨w1, w2, w3, neg1, neg2, neg3, n1, n2, n3, k1, k2, k3, rfl, rfl⟩ := h
  simp only [cons_append, append_assoc, nil_append]
  have g1 := fun t => scan_number_append (t := t) (by decide) k1 (.inl rfl)
  have g2 := fun t => scan_number_append (t := t) (by decide) k2 (.inl rfl)
  have g3 := fun t => scan_number_append (t := t) (by decide) k3 (.inr rfl)
  simp only [scan_id, bind_eq_bind, bind_some, scan_literal_cons, g1, g2, g3]

theorem Numeral.ne_zero {base n : Nat} {w : Bytes} {neg : Bool} (hb : base ≤ 16) (h : Numeral base w neg n) : ∀ c ∈ w, c ≠ 0 := by
  obtain ⟨sp, sg, pre, ds, rfl, hsp, hsg, ⟨xs, hxs, -⟩, hpre⟩ := h
  intro c hc
  simp only [mem_append] at hc
  rcases hc with ((hc | hc) | hc) | hc
  · rintro rfl
    exact absurd (hsp 0 hc) (by decide)
  · cases hsg with
    | plain => cases hc
    | plus => rw [mem_singleton.1 hc]; decide
    | minus => rw [mem_singleton.1 hc]; decide
  · rcases hpre with ⟨rfl, -⟩ | ⟨-, rfl | rfl⟩
    · cases hc
    all_goals
      simp only [mem_cons, not_mem_nil, or_false] at hc
      rcases hc with rfl | rfl <;> decide
  · have hmem := List.mem_map_of_mem (f := digit_value base) hc
    rw [hxs] at hmem
    obtain ⟨x, -, hx⟩ := List.mem_map.1 hmem
    exact (digit_value_facts hb (by rw [← hx]; rfl)).2.2.2.2.2

theorem IdHead.facts (h : IdHead head id) : head.head? = some (ch '(') ∧ ch ')' ∈ head ∧ ∀ c ∈ head, c ≠ 0 := by
  obtain ⟨w1, w2, w3, neg1, neg2, neg3, n1, n2, n3, k1, k2, k3, rfl, -⟩ := h
  refine ⟨rfl, by simp, ?_⟩
  intro c hc
  simp only [mem_cons, mem_append, not_mem_nil, or_false] at hc
  rcases hc with rfl | hc | rfl | hc | rfl | hc | rfl | rfl
  · decide
  · exact k1.ne_zero (by decide) c hc
  · decide
  · exact k2.ne_zero (by decide) c hc
  · decide
  · exact k3.ne_zero (by decide) c hc
  · decide
  · decide

/-- What is parsed: the text of an identifier and two strings that are taken for hashes. -/
def Taken (str : Bytes) (r : BlockIdExt) : Prop :=
  ∃ head h1 h2, IdHead head r.id ∧ str = head ++ (h1 ++ ch ':' :: h2) ∧ parse_hex_hash h1 = some r.root_hash ∧
    parse_hex_hash h2 = some r.file_hash ∧ str.length ≤ 255 ∧ r.is_valid_ext

theorem parse_hex_hash_length {b : Bits256} (h : parse_hex_hash s = some b) : s.length = 64 := by
  unfold parse_hex_hash at h
  split at h
  · cases h
  · next hlen => exact not_not.1 hlen

theorem Taken.parse (h : Taken str r) (after : Bytes) (b : BlockIdExt) : parse_block_id_ext str after b = (true, r) := by
  obtain ⟨head, h1, h2, hhead, rfl, e1, e2, hlen, hvalid, hshard⟩ := h
  have l1 := parse_hex_hash_length e1
  have l2 := parse_hex_hash_length e2
  obtain ⟨f1, f2, f3⟩ := hhead.facts
  have hne : head ≠ [] := by
    rintro rfl
    cases f1
  have hstart : (head ++ (h1 ++ ch ':' :: h2)).head? = some (ch '(') := by rw [head?_append_of_ne_nil _ hne, f1]
  have hcstr : (head ++ (h1 ++ ch ':' :: h2) ++ after).takeWhile (· ≠ 0) = head ++ (h1 ++ ch ':' :: h2 ++ after).takeWhile (· ≠ 0) := by
    rw [append_assoc, takeWhile_append_of_pos fun c hc => by simpa using f3 c hc]
  unfold parse_block_id_ext
  dsimp only
  rw [if_neg (by simp [hne]; simpa using hlen), if_neg (not_not.2 hstart), if_neg (by simp [f2]), hcstr, hhead.scan]
  dsimp only
  rw [length_append, Nat.add_sub_cancel, if_neg (by simp), if_neg (by rintro (h | h) <;> contradiction), drop_left]
  rw [if_neg]
  · rw [take_left' l1, e1, show (h1 ++ ch ':' :: h2).drop 65 = h2 by
      rw [drop_append, l1, drop_of_length_le (by omega)]; rfl, e2]
  · rw [getD_append_right _ _ _ _ (by omega), l1]
    simp [l1, l2]

theorem parse_block_id_ext_cases (str after : Bytes) (b : BlockIdExt) :
    (parse_block_id_ext str after b).1 = false ∧ ¬(parse_block_id_ext str after b).2.is_valid ∨
      ∃ r, parse_block_id_ext str after b = (true, r) ∧ Taken str r := by
  have hinvalid : ¬b.invalidate.is_valid := fun h => h rfl
  unfold parse_block_id_ext
  dsimp only
  split_ifs with c1 c2 c3
  · exact .inl ⟨rfl, hinvalid⟩
  · exact .inl ⟨rfl, hinvalid⟩
  · split
    · exact .inl ⟨rfl, hinvalid⟩
    next id rest hscan =>
    obtain ⟨head, hsplit, hhead⟩ := scan_id_spec hscan
    rw [hsplit, length_append, Nat.add_sub_cancel]
    split_ifs with c4 c5 c6
    · exact .inl ⟨rfl, hinvalid⟩
    · exact .inl ⟨rfl, hinvalid⟩
    · exact .inl ⟨rfl, hinvalid⟩
    · split
      · next root_hash file_hash e1 e2 =>
        refine .inr ⟨_, rfl, head, _, _, hhead, ?_, e1, e2, ?_, ?_⟩
        · -- the scanned part lies within the string
          have hall := takeWhile_append_dropWhile (p := fun c : UInt8 => decide (c ≠ 0)) (l := str ++ after)
          rw [hsplit, append_assoc] at hall
          have hpre : str.take head.length = head := by
            have := congrArg (List.take head.length) hall
            rw [take_left, take_append_of_le_length (not_le.1 c4).le] at this
            exact this.symm
          have hcut := take_append_drop head.length str
          rw [hpre] at hcut
          rw [not_or, not_not, not_not] at c6
          generalize str.drop head.length = tl at *
          rw [← hcut]
          congr 1
          conv_lhs => rw [← take_append_drop 64 tl]
          congr 1
          rw [drop_eq_getElem_cons (by omega), ← getD_eq_getElem _ 0, c6.2]
        · rw [not_or, not_lt] at c1
          exact c1.2
        · rw [not_or] at c5
          exact ⟨c5.2, c5.1⟩
      · exact .inl ⟨rfl, hinvalid⟩
  · exact .inl ⟨rfl, hinvalid⟩

/-! ## Where the text is exact -/

/-- `str` is the text of `r`. -/
def IdText (str : Bytes) (r : BlockIdExt) : Prop :=
  ∃ head h1 h2, IdHead head r.id ∧ str = head ++ (h1 ++ ch ':' :: h2) ∧ HashText h1 r.root_hash ∧ HashText h2 r.file_hash

/-- Only texts are parsed, and a failure leaves the identifier invalid. -/
def BlockIdExact (str after : Bytes) (b : BlockIdExt) : Prop :=
  if (parse_block_id_ext str after b).1 then IdText str (parse_block_id_ext str after b).2 else ¬(parse_block_id_ext str after b).2.is_valid

/-- The text of an identifier with a hash that has a neighbour of the digits for one. -/
def BadId (str : Bytes) : Prop :=
  ∃ head h1 h2 id, IdHead head id ∧ str = head ++ (h1 ++ ch ':' :: h2) ∧ str.length ≤ 255 ∧ id.shard ≠ 0 ∧ id.workchain ≠ workchainInvalid ∧
    h1.length = 64 ∧ h2.length = 64 ∧ (∀ c ∈ h1 ++ h2, (hash_digit c).isSome) ∧ ∃ c ∈ h1 ++ h2, Neighbour c

theorem hash_taken (hlen : s.length = 64) (hall : ∀ c ∈ s, (hash_digit c).isSome) : ∃ x, parse_hex_hash s = some x := by
  obtain ⟨xs, hxs⟩ := isSome_iff_exists.1 (hash_digits_isSome.2 hall)
  rw [parse_hex_hash, if_neg (not_not.2 hlen), hxs]
  exact ⟨_, rfl⟩

theorem hash_clean {x : Bits256} (h : parse_hex_hash s = some x) (hn : ∀ c ∈ s, ¬Neighbour c) : HashText s x :=
  ((hash_exact_iff s).2 fun hbad => by
    obtain ⟨c, hc, h'⟩ := hbad.2.2
    exact hn c hc h') x |>.1 h

theorem digits_of_parse {x : Bits256} (h : parse_hex_hash s = some x) : ∀ c ∈ s, (hash_digit c).isSome := by
  rw [← hash_digits_isSome]
  rw [parse_hex_hash, if_neg (not_not.2 (parse_hex_hash_length h))] at h
  obtain ⟨xs, hxs, -⟩ := map_eq_some_iff.1 h
  rw [hxs]
  rfl

theorem HashText.no_neighbour {x : Bits256} (h : HashText s x) : ∀ c ∈ s, ¬Neighbour c := by
  intro c hc hn
  exact BadHash.not_text ⟨h.1, digits_of_parse h.parse, c, hc, hn⟩ h

theorem block_id_exact_iff (str after : Bytes) (b : BlockIdExt) : BlockIdExact str after b ↔ ¬BadId str := by
  unfold BlockIdExact
  rcases parse_block_id_ext_cases str after b with ⟨h1, h2⟩ | ⟨r, hr, ht⟩
  · rw [h1]
    refine iff_of_true h2 ?_
    rintro ⟨head, h1', h2', id, hhead, hstr, hlen, hshard, hwc, l1, l2, htaken, -⟩
    rw [forall_mem_append] at htaken
    obtain ⟨x1, e1⟩ := hash_taken l1 htaken.1
    obtain ⟨x2, e2⟩ := hash_taken l2 htaken.2
    have hp := Taken.parse (r := ⟨id, x1, x2⟩) ⟨head, h1', h2', hhead, hstr, e1, e2, hlen, hwc, hshard⟩ after b
    rw [hp] at h1
    cases h1
  · rw [hr]
    obtain ⟨head, h1, h2, hhead, hstr, e1, e2, hlen, hvalid⟩ := ht
    have l1 := parse_hex_hash_length e1
    have l2 := parse_hex_hash_length e2
    -- the last characters of the string are the hashes
    have hends : ∀ {head' h1' h2' : Bytes}, str = head' ++ (h1' ++ ch ':' :: h2') → h1'.length = 64 → h2'.length = 64 → h1' = h1 ∧ h2' = h2 := by
      intro head' h1' h2' hstr' l1' l2'
      have heq := hstr.symm.trans hstr'
      have htl := (append_inj' heq (by simp [l1, l2, l1', l2'])).2
      obtain ⟨g1, g2⟩ := append_inj htl (l1.trans l1'.symm)
      exact ⟨g1.symm, (cons.inj g2).2.symm⟩
    constructor
    · rintro ⟨head', h1', h2', -, hstr', t1, t2⟩ ⟨head'', h1'', h2'', id, -, hstr'', -, -, -, l1'', l2'', -, c, hc, hn⟩
      obtain ⟨rfl, rfl⟩ := hends hstr' t1.1 t2.1
      obtain ⟨rfl, rfl⟩ := hends hstr'' l1'' l2''
      rcases mem_append.1 hc with hc | hc
      · exact t1.no_neighbour c hc hn
      · exact t2.no_neighbour c hc hn
    · intro hgood
      have hn : ∀ c ∈ h1 ++ h2, ¬Neighbour c := by
        intro c hc hn
        refine hgood ⟨head, h1, h2, r.id, hhead, hstr, hlen, hvalid.2, hvalid.1, l1, l2, ?_, c, hc, hn⟩
        rw [forall_mem_append]
        exact ⟨digits_of_parse e1, digits_of_parse e2⟩
      rw [forall_mem_append] at hn
      exact ⟨head, h1, h2, hhead, hstr, hash_clean e1 hn.1, hash_clean e2 hn.2⟩

end

/-! ## Printing -/

theorem digits_print_nat (n : Nat) : Digits 10 (print_nat n) n ∧ print_nat n ≠ [] := by
  have hdigit : ∀ d < 10, digit_value 10 (UInt8.ofNat ('0'.toNat + d)) = some d := by decide
  unfold print_nat
  split
  · next h =>
    subst h
    exact ⟨⟨[0], by decide, rfl⟩, by simp⟩
  · next h =>
    refine ⟨⟨(Nat.digits 10 n).reverse, ?_, ?_⟩, by simpa [digits_eq_nil_iff_eq_zero] using h⟩
    · rw [List.map_map, map_inj_left]
      intro d hd
      exact hdigit d (digits_lt_base (by decide) (mem_reverse.1 hd))
    · rw [foldl_reverse]
      conv_lhs => rw [← ofDigits_digits 10 n, ofDigits_eq_foldr]
      congr 1
      funext d n
      simp only [cast_id]
      ring

theorem length_print_nat {n k : Nat} (hk : 0 < k) (hn : n < 10 ^ k) : (print_nat n).length ≤ k := by
  unfold print_nat
  split
  · exact hk
  · rw [length_map, length_reverse]
    exact (digits_length_le_iff (by decide) n).2 hn

theorem foldl_places (k v : Nat) :
    (List.ofFn fun i : Fin k => v / 16 ^ (k - 1 - i.val) % 16).foldl (fun n d => n * 16 + d) 0 = v % 16 ^ k := by
  induction k generalizing v with
  | zero => simp [mod_one]
  | succ k ih =>
    have hinit : (List.ofFn fun i : Fin k => v / 16 ^ (k + 1 - 1 - (i.castSucc).val) % 16) =
        List.ofFn fun i : Fin k => v / 16 / 16 ^ (k - 1 - i.val) % 16 := by
      congr 1
      funext i
      rw [Nat.div_div_eq_div_mul, ← Nat.pow_succ', Fin.val_castSucc]
      congr 3
      omega
    rw [ofFn_succ', concat_eq_append, hinit, foldl_append, ih, foldl_cons, foldl_nil, Fin.val_last,
      show k + 1 - 1 - k = 0 by omega, Nat.pow_zero, Nat.div_one, Nat.pow_succ', mod_mul]
    ring

theorem digits_print_shard (x : ShardId) : Digits 16 (print_shard x) x.toNat := by
  have hdigit : ∀ d < 16, digit_value 16 (hex_digit false d) = some d := by decide
  refine ⟨List.ofFn fun i : Fin 16 => x.toNat / 16 ^ (15 - i.val) % 16, ?_, ?_⟩
  · rw [print_shard, map_ofFn, map_ofFn]
    congr 1
    funext i
    exact hdigit _ (mod_lt _ (by decide))
  · rw [foldl_places 16, mod_eq_of_lt]
    exact x.isLt

theorem hash_text_print (h : Bits256) : HashText (print_hash h) h := by
  have hdigit : ∀ d < 16, digit_value 16 (hex_digit true d) = some d := by decide
  have hlen : (print_hash h).length = 64 := by rw [print_hash, length_ofFn]
  refine ⟨hlen, fun i => ⟨(h i).toNat / 16, (h i).toNat % 16, ?_, ?_, by omega⟩⟩
  · have hi := (h i).toNat_lt
    rw [getD_eq_getElem _ _ (by omega)]
    simp only [print_hash, List.getElem_ofFn, mul_mod_right, if_true, Nat.mul_div_cancel_left _ (show 0 < 2 by decide)]
    exact hdigit _ (Nat.div_lt_of_lt_mul hi)
  · rw [getD_eq_getElem _ _ (by omega)]
    simp only [print_hash, List.getElem_ofFn, show (2 * i.val + 1) % 2 = 1 by omega, show (2 * i.val + 1) / 2 = i by omega,
      one_ne_zero, if_false]
    exact hdigit _ (by omega)

theorem numeral_print_nat (n : Nat) : Numeral 10 (print_nat n) false n :=
  ⟨[], [], [], print_nat n, rfl, by simp, .plain, (digits_print_nat n).1, .inl ⟨rfl, (digits_print_nat n).2⟩⟩

theorem numeral_print_int (x : BitVec 32) : ∃ neg n, Numeral 10 (print_int x) neg n ∧ to_int neg n = x := by
  have h1 := BitVec.le_toInt x
  have h2 := BitVec.toInt_lt (x := x)
  unfold print_int
  split
  · next hneg =>
    refine ⟨true, x.toInt.natAbs, ⟨[], [ch '-'], [], print_nat x.toInt.natAbs, rfl, by simp, .minus, (digits_print_nat _).1,
      .inl ⟨rfl, (digits_print_nat _).2⟩⟩, ?_⟩
    rw [to_int, if_pos rfl, show max (-(x.toInt.natAbs : Int)) (-2 ^ 63) = x.toInt by omega, BitVec.ofInt_toInt]
  · next hneg =>
    refine ⟨false, x.toInt.natAbs, numeral_print_nat _, ?_⟩
    rw [to_int, if_neg (by simp), show min (x.toInt.natAbs : Int) (2 ^ 63 - 1) = x.toInt by omega, BitVec.ofInt_toInt]

theorem to_ulong_toNat (x : BitVec 64) : to_ulong false x.toNat = x := by
  have := x.isLt
  rw [to_ulong, if_neg (by omega), if_neg (by simp), BitVec.ofNat_toNat, BitVec.setWidth_eq]

theorem to_ulong_setWidth (x : BitVec 32) : (to_ulong false x.toNat).setWidth 32 = x := by
  have := x.isLt
  rw [to_ulong, if_neg (by omega), if_neg (by simp)]
  apply BitVec.eq_of_toNat_eq
  simp only [BitVec.toNat_setWidth, BitVec.toNat_ofNat]
  omega

theorem id_head_print (id : BlockId) : IdHead (id.to_str ++ [ch ':']) id := by
  obtain ⟨neg, n, hn, hid⟩ := numeral_print_int id.workchain
  refine ⟨_, print_shard id.shard, _, neg, false, false, n, id.shard.toNat, id.seqno.toNat, hn, ?_, numeral_print_nat _, ?_, ?_⟩
  · refine ⟨[], [], [], print_shard id.shard, rfl, by simp, .plain, digits_print_shard _, .inl ⟨rfl, ?_⟩⟩
    simp [print_shard]
  · simp [BlockId.to_str]
  · rw [hid, to_ulong_toNat, to_ulong_setWidth]

theorem length_to_str (b : BlockIdExt) : b.to_str.length ≤ 255 := by
  have h1 := BitVec.le_toInt b.id.workchain
  have h2 := BitVec.toInt_lt (x := b.id.workchain)
  have hwc : (print_int b.id.workchain).length ≤ 11 := by
    have := length_print_nat (n := b.id.workchain.toInt.natAbs) (k := 10) (by decide) (by omega)
    unfold print_int
    split
    · rw [length_cons]
      omega
    · omega
  have hseq := length_print_nat (n := b.id.seqno.toNat) (k := 10) (by decide) (by have := b.id.seqno.isLt; omega)
  have hr := (hash_text_print b.root_hash).1
  have hf := (hash_text_print b.file_hash).1
  simp only [BlockIdExt.to_str, BlockId.to_str, print_shard, length_append, length_cons, length_nil, length_ofFn, hr, hf]
  omega

theorem print_exact_iff (b : BlockIdExt) (after : Bytes) (b0 : BlockIdExt) :
    parse_block_id_ext b.to_str after b0 = (true, b) ↔ b.is_valid_ext := by
  constructor
  · intro h
    rcases parse_block_id_ext_cases b.to_str after b0 with h' | ⟨r, hr, ht⟩
    · rw [h] at h'
      exact absurd h'.1 (by simp)
    · rw [h] at hr
      cases hr
      exact ht.choose_spec.choose_spec.choose_spec.2.2.2.2.2
  · intro hv
    refine Taken.parse ⟨_, _, _, id_head_print b.id, ?_, (hash_text_print _).parse, (hash_text_print _).parse, length_to_str b, hv⟩ _ _
    simp [BlockIdExt.to_str]

end Ton.Text
