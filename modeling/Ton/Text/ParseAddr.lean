import Ton.Text.StdAddress
/-!
# Parsed addresses

`StdAddress::parse_addr` takes what `rdeserialize` takes, and a workchain and 64 digits.
It also takes letters that are no digits, and digits without a workchain; a workchain of
more than ten characters it does not take.
-/

namespace Ton.Text
open Shard List Option Nat

def is_digit (c : UInt8) : Bool := '0'.toNat ≤ c.toNat ∧ c.toNat ≤ '9'.toNat

/-- The end of `to_integer`: the number that the digits and the sign make, at 32 bits. -/
def signed_value (is_negative : Bool) (integer_value : BitVec 32) : BitVec 32 :=
  if integer_value.toNat > 2 ^ 31 - 1 then
    let integer_value := ~~~integer_value + 1
    if integer_value.toNat > 2 ^ 31 - 1 then BitVec.intMin 32
    else if !is_negative then -integer_value else integer_value
  else if is_negative then -integer_value else integer_value

def digits_value (digits : Bytes) : BitVec 32 :=
  (digits.takeWhile is_digit).foldl (fun v c => v * 10 + BitVec.ofNat 32 (c.toNat - '0'.toNat)) 0

def to_integer : Bytes → BitVec 32
  | c :: s => if c = ch '-' then signed_value true (digits_value s) else signed_value false (digits_value (c :: s))
  | [] => signed_value false (digits_value [])

/-- What is not printed as it was written is refused. -/
def to_integer_safe (str : Bytes) : Option (BitVec 32) := if print_int (to_integer str) ≠ str then none else some (to_integer str)

/-- `none` is -1; a character over 127 is refused, whether a `char` has a sign or not. -/
def parse_hex_digit (c : UInt8) : Option Nat :=
  if '0'.toNat ≤ c.toNat ∧ c.toNat ≤ '9'.toNat then some (c.toNat - '0'.toNat)
  else
    let c := c.toNat ||| 0x20
    if 'a'.toNat ≤ c ∧ c ≤ 'z'.toNat then some (c - 'a'.toNat + 10) else none

/-- The half of a byte that the `i`-th digit writes. -/
def set_nibble (addr : Bits256) (i x : Nat) : Bits256 :=
  let (x, m) := if i % 2 = 0 then (x * 2 ^ 4, 15 * 2 ^ 4) else (x, 15)
  fun j => if j.val = i / 2 then UInt8.ofNat ((addr j).toNat &&& (255 - m) ||| x) else addr j

/-- The loop over the digits, from the `i`-th on. -/
def hex_loop : Nat → Bytes → Bits256 → Bool × Bits256
  | i, c :: s, addr =>
    match parse_hex_digit c with
    | none => (false, addr)
    | some x => hex_loop (i + 1) s (set_nibble addr i x)
  | _, [], addr => (true, addr)

def find (s : Bytes) (c : UInt8) : Option Nat := if s.idxOf c < s.length then some (s.idxOf c) else none

/-- The digits from `pos` on. -/
def parse_digits (acc_string : Bytes) (pos : Nat) (a : StdAddress) : Bool × StdAddress :=
  if acc_string.length ≠ pos + 64 then (false, a.invalidate)
  else
    match hex_loop 0 (acc_string.drop pos) a.addr with
    | (false, addr) => (false, { a with addr }.invalidate)
    | (true, addr) => (true, { a with addr })

/-- What follows when `rdeserialize` fails. -/
def parse_raw (acc_string : Bytes) (a : StdAddress) : Bool × StdAddress :=
  match find acc_string (ch ':') with
  | some pos =>
    if pos > 10 then (false, a.invalidate)
    else
      match to_integer_safe (acc_string.take pos) with
      | none => (false, a.invalidate)
      | some wc =>
        if wc = workchainInvalid then (false, a.invalidate) else parse_digits acc_string (pos + 1) { a with workchain := wc }
  | none => parse_digits acc_string 0 a

def parse_addr (junk : Fin 36 → UInt8) (acc_string : Bytes) (a : StdAddress) : Bool × StdAddress :=
  match rdeserialize junk acc_string a with
  | (true, a) => (true, a)
  | (false, a) => parse_raw acc_string { a with testnet := false, bounceable := true }

/-- An address that was not set; nothing writes its bytes. -/
def unset (held : Bits256) : StdAddress := ⟨workchainInvalid, true, false, held⟩

def parse (junk : Fin 36 → UInt8) (held : Bits256) (acc_string : Bytes) : Option StdAddress :=
  match parse_addr junk acc_string (unset held) with
  | (true, a) => some a
  | (false, _) => none

/-! ## Workchains -/

section
variable {n k : Nat} {c : UInt8} {ds s h : Bytes}

theorem digit_value_ten (c : UInt8) : digit_value 10 c = if is_digit c then some (c.toNat - '0'.toNat) else none := by
  have h9 : '9'.toNat - '0'.toNat = 9 := rfl
  unfold digit_value is_digit
  dsimp only
  by_cases hc : '0'.toNat ≤ c.toNat ∧ c.toNat ≤ '9'.toNat
  · rw [if_pos hc, if_pos (by omega), if_pos (decide_eq_true hc)]
  · rw [if_neg hc, if_neg, if_neg (by rwa [decide_eq_true_eq])]
    split_ifs <;> omega

theorem digits_foldl {xs : List Nat} (hx : ds.map (digit_value 10) = xs.map some) (m : Nat) : (∀ c ∈ ds, is_digit c = true) ∧
    ds.foldl (fun v c => v * 10 + BitVec.ofNat 32 (c.toNat - '0'.toNat)) (BitVec.ofNat 32 m) =
      BitVec.ofNat 32 (xs.foldl (fun n d => n * 10 + d) m) := by
  induction ds generalizing xs m with
  | nil =>
    obtain rfl : xs = [] := by simpa using hx.symm
    exact ⟨by simp, rfl⟩
  | cons c ds ih =>
    obtain ⟨x, xs, rfl⟩ := exists_cons_of_ne_nil (show xs ≠ [] by rintro rfl; simp at hx)
    rw [map_cons, map_cons, List.cons.injEq, digit_value_ten] at hx
    obtain ⟨hc, hval⟩ := ite_none_right_eq_some.1 hx.1
    cases hval
    obtain ⟨h1, h2⟩ := ih hx.2 (m * 10 + (c.toNat - '0'.toNat))
    refine ⟨forall_mem_cons.2 ⟨hc, h1⟩, ?_⟩
    rw [foldl_cons, foldl_cons, ← h2, BitVec.ofNat_add, BitVec.ofNat_mul]
    rfl

theorem Digits.digits_value (h : Digits 10 ds n) : (∀ c ∈ ds, is_digit c = true) ∧ digits_value ds = BitVec.ofNat 32 n := by
  obtain ⟨xs, hxs, rfl⟩ := h
  obtain ⟨h1, h2⟩ := digits_foldl hxs 0
  refine ⟨h1, ?_⟩
  rw [Text.digits_value, takeWhile_eq_self_iff.2 h1]
  exact h2

theorem signed_value_true {v : BitVec 32} (hneg : v.toInt < 0) : signed_value true (BitVec.ofNat 32 v.toInt.natAbs) = v := by
  have h1 := BitVec.le_toInt v
  by_cases hmin : v.toInt.natAbs = 2 ^ 31
  · rw [hmin]
    apply BitVec.eq_of_toInt_eq
    rw [show v.toInt = -2 ^ 31 by omega]
    decide
  · rw [signed_value, if_neg (by rw [BitVec.toNat_ofNat]; omega), if_pos rfl]
    apply BitVec.eq_of_toInt_eq
    have hv := BitVec.ofInt_toInt (x := v)
    rw [show v.toInt = -(v.toInt.natAbs : Int) by omega, BitVec.ofInt_neg, BitVec.ofInt_natCast] at hv
    rw [hv]

theorem signed_value_false {v : BitVec 32} (hpos : ¬v.toInt < 0) : signed_value false (BitVec.ofNat 32 v.toInt.natAbs) = v := by
  have h2 := BitVec.toInt_lt (x := v)
  have hv := BitVec.ofInt_toInt (x := v)
  rw [show v.toInt = (v.toInt.natAbs : Int) by omega, BitVec.ofInt_natCast] at hv
  rw [signed_value, if_neg (by rw [BitVec.toNat_ofNat]; omega), if_neg (by simp), hv]

theorem to_integer_print_int (v : BitVec 32) : to_integer (print_int v) = v := by
  obtain ⟨hds, hne⟩ := digits_print_nat v.toInt.natAbs
  obtain ⟨h1, h2⟩ := hds.digits_value
  unfold print_int
  split
  · next hneg => rw [to_integer, if_pos rfl, h2, signed_value_true hneg]
  · next hpos =>
    obtain ⟨c, s, hc⟩ := exists_cons_of_ne_nil hne
    have hdigit : is_digit c = true := h1 c (by rw [hc]; simp)
    have hminus : c ≠ ch '-' := by
      rintro rfl
      exact absurd hdigit (by decide)
    rw [hc, to_integer, if_neg hminus, ← hc, h2, signed_value_false hpos]

theorem print_int_inj {v w : BitVec 32} (h : print_int v = print_int w) : v = w := by
  rw [← to_integer_print_int v, h, to_integer_print_int]

theorem to_integer_safe_some {wc : BitVec 32} : to_integer_safe s = some wc ↔ s = print_int wc := by
  unfold to_integer_safe
  constructor
  · intro h
    split at h
    · cases h
    · next heq =>
      cases h
      exact (not_not.1 heq).symm
  · rintro rfl
    rw [to_integer_print_int, if_neg (by simp)]

theorem colon_not_mem_print_int (v : BitVec 32) : ch ':' ∉ print_int v := by
  obtain ⟨h1, -⟩ := (digits_print_nat v.toInt.natAbs).1.digits_value
  have hcolon : ch ':' ∉ print_nat v.toInt.natAbs := fun h => absurd (h1 _ h) (by decide)
  unfold print_int
  split
  · rw [mem_cons, not_or]
    exact ⟨by decide, hcolon⟩
  · exact hcolon

theorem lt_length_print_nat (hn : 10 ^ k ≤ n) : k < (print_nat n).length := by
  have hpos : n ≠ 0 := (Nat.lt_of_lt_of_le (Nat.pow_pos (by decide)) hn).ne'
  rw [print_nat, if_neg hpos, length_map, length_reverse, ← not_le, digits_length_le_iff (by decide)]
  exact hn.not_gt

theorem length_print_invalid : 10 < (print_int workchainInvalid).length := by
  have hneg : workchainInvalid.toInt < 0 := by decide
  have hlen := @lt_length_print_nat workchainInvalid.toInt.natAbs 9 (by decide)
  rw [print_int, if_pos hneg, length_cons]
  omega

/-! ## Digits -/

/-- The characters that are taken for digits. -/
def Alnum (c : UInt8) : Prop :=
  '0'.toNat ≤ c.toNat ∧ c.toNat ≤ '9'.toNat ∨ 'a'.toNat ≤ c.toNat ∧ c.toNat ≤ 'z'.toNat ∨ 'A'.toNat ≤ c.toNat ∧ c.toNat ≤ 'Z'.toNat

instance (c : UInt8) : Decidable (Alnum c) := by
  unfold Alnum
  infer_instance

theorem parse_hex_digit_facts (c : UInt8) : ((parse_hex_digit c).isSome ↔ Alnum c) ∧
    ((digit_value 16 c).isSome → parse_hex_digit c = digit_value 16 c) := by
  have hall : ∀ n : Fin 256, ((parse_hex_digit (UInt8.ofNat n)).isSome ↔ Alnum (UInt8.ofNat n)) ∧
      ((digit_value 16 (UInt8.ofNat n)).isSome → parse_hex_digit (UInt8.ofNat n) = digit_value 16 (UInt8.ofNat n)) := by decide +kernel
  simpa using hall ⟨c.toNat, c.toNat_lt⟩

theorem hex_loop_nil (i : Nat) (addr : Bits256) : hex_loop i [] addr = (true, addr) := rfl

theorem hex_loop_cons (i : Nat) (c : UInt8) (s : Bytes) (addr : Bits256) : hex_loop i (c :: s) addr =
    match parse_hex_digit c with
    | none => (false, addr)
    | some x => hex_loop (i + 1) s (set_nibble addr i x) := rfl

theorem hex_loop_taken (i : Nat) (s : Bytes) (addr : Bits256) : (hex_loop i s addr).1 = true ↔ ∀ c ∈ s, Alnum c := by
  induction s generalizing i addr with
  | nil => simp [hex_loop_nil]
  | cons c s ih =>
    rw [forall_mem_cons, ← (parse_hex_digit_facts c).1, hex_loop_cons]
    cases hc : parse_hex_digit c with
    | none => simp
    | some x => simp [ih]

theorem set_nibbles (addr : Bits256) (k : Nat) {x y : Nat} (hx : x < 16) (hy : y < 16) (j : Fin 32) :
    set_nibble (set_nibble addr (2 * k) x) (2 * k + 1) y j = if j.val = k then UInt8.ofNat (x * 16 + y) else addr j := by
  have hhigh : ∀ n x : Fin 16, (UInt8.ofNat (n ||| x * 16)).toNat &&& 240 = x.val * 16 := by decide
  have hall : ∀ n x y : Fin 16, (UInt8.ofNat (n ||| x * 16)).toNat &&& 240 ||| y = x.val * 16 + y := by
    intro n x y
    rw [hhigh, show x.val * 16 = x.val <<< 4 by rw [shiftLeft_eq], shiftLeft_add_eq_or_of_lt y.isLt]
  have hbyte := and_two_pow_sub_one_eq_mod (addr j).toNat 4
  have hboth := hall ⟨(addr j).toNat % 2 ^ 4, mod_lt _ (by decide)⟩ ⟨x, hx⟩ ⟨y, hy⟩
  unfold set_nibble
  simp only [mul_mod_right, if_true, show (2 * k + 1) % 2 = 1 by omega, one_ne_zero, if_false,
    show (2 * k + 1) / 2 = k by omega, show 2 * k / 2 = k by omega]
  by_cases hj : j.val = k
  · rw [if_pos hj, if_pos hj, if_pos hj, show 255 - 15 * 2 ^ 4 = 2 ^ 4 - 1 by decide, hbyte]
    exact congrArg _ hboth
  · rw [if_neg hj, if_neg hj, if_neg hj]

theorem hex_loop_pairs (hk : k + n = 32) (hlen : h.length = 2 * n) (hd : ∀ c ∈ h, (digit_value 16 c).isSome) (addr : Bits256) :
    ∃ addr', hex_loop (2 * k) h addr = (true, addr') ∧ ∀ j : Fin 32, (j.val < k → addr' j = addr j) ∧
      (k ≤ j.val → ∃ hi lo, digit_value 16 (h.getD (2 * (j - k)) 0) = some hi ∧
        digit_value 16 (h.getD (2 * (j - k) + 1) 0) = some lo ∧ (addr' j).toNat = hi * 16 + lo) := by
  induction n generalizing k h addr with
  | zero =>
    obtain rfl := eq_nil_of_length_eq_zero hlen
    exact ⟨addr, rfl, fun j => ⟨fun _ => rfl, fun hj => absurd j.isLt (by omega)⟩⟩
  | succ n ih =>
    match h, hlen with
    | c :: d :: t, hlen =>
      simp only [length_cons] at hlen
      simp only [forall_mem_cons] at hd
      obtain ⟨x, hx⟩ := isSome_iff_exists.1 hd.1
      obtain ⟨y, hy⟩ := isSome_iff_exists.1 hd.2.1
      have hxlt := digit_value_lt hx
      have hylt := digit_value_lt hy
      obtain ⟨addr', h1, h2⟩ := ih (k := k + 1) (by omega) (by omega) hd.2.2 (set_nibble (set_nibble addr (2 * k) x) (2 * k + 1) y)
      refine ⟨addr', ?_, fun j => ⟨fun hj => ?_, fun hj => ?_⟩⟩
      · rw [hex_loop_cons, (parse_hex_digit_facts c).2 hd.1, hx]
        dsimp only
        rw [hex_loop_cons, (parse_hex_digit_facts d).2 hd.2.1, hy]
        exact h1
      · rw [(h2 j).1 (by omega), set_nibbles addr k hxlt hylt, if_neg (by omega)]
      · rcases Nat.eq_or_lt_of_le hj with rfl | hlt
        · -- the byte that these two digits write
          refine ⟨x, y, by rwa [Nat.sub_self], by rwa [Nat.sub_self], ?_⟩
          rw [(h2 j).1 (by omega), set_nibbles addr _ hxlt hylt, if_pos rfl, UInt8.toNat_ofNat']
          omega
        · have hrest := (h2 j).2 hlt
          rwa [show 2 * (j.val - k) = 2 * (j.val - (k + 1)) + 2 by omega]

theorem hex_loop_text (hlen : h.length = 64) (hd : ∀ c ∈ h, (digit_value 16 c).isSome) (held : Bits256) :
    ∃ addr, hex_loop 0 h held = (true, addr) ∧ HashText h addr := by
  obtain ⟨addr, h1, h2⟩ := hex_loop_pairs (k := 0) (n := 32) rfl hlen hd held
  exact ⟨addr, h1, hlen, fun i => (h2 i).2 (Nat.zero_le _)⟩

theorem HashText.digits {b : Bits256} (ht : HashText h b) : ∀ c ∈ h, (digit_value 16 c).isSome := by
  obtain ⟨hlen, hb⟩ := ht
  intro c hc
  obtain ⟨j, hj, rfl⟩ := mem_iff_getElem.1 hc
  obtain ⟨hi, lo, h1, h2, -⟩ := hb ⟨j / 2, by omega⟩
  rw [← getD_eq_getElem _ 0 hj]
  rcases mod_two_eq_zero_or_one j with hm | hm
  · rw [show 2 * (j / 2) = j by omega] at h1
    rw [h1]
    rfl
  · rw [show 2 * (j / 2) + 1 = j by omega] at h2
    rw [h2]
    rfl

end

/-! ## What is parsed -/

/-- A workchain as it is printed, a colon and 64 digits. -/
def RawText (s : Bytes) (wc : WorkchainId) (addr : Bits256) : Prop := ∃ h, s = print_int wc ++ ch ':' :: h ∧ HashText h addr

/-- The texts of addresses are parsed, to what they are the texts of, and nothing else is. -/
def AddressExact (s : Bytes) : Prop :=
  ∀ junk held, (∀ a b, rdeserialize junk s b = (true, a) → s.map url_char = rserialize a true) ∧
    ((∃ a, parse junk held s = some a) ↔ (∃ a, AddressText s a) ∨ ∃ wc addr, RawText s wc addr) ∧
    ∀ a, parse junk held s = some a → a.is_valid ∧ (AddressText s a ∨ RawText s a.workchain a.addr)

/-- The digits of an address and no workchain. -/
def NoWorkchain (s : Bytes) : Prop := s.length = 64 ∧ ∀ c ∈ s, Alnum c

/-- A workchain of eleven characters. -/
def LongWorkchain (s : Bytes) : Prop :=
  ∃ wc h, s = print_int wc ++ ch ':' :: h ∧ 10 < (print_int wc).length ∧ h.length = 64 ∧ ∀ c ∈ h, (digit_value 16 c).isSome

/-- Letters and digits in the place of the digits, and not only digits. -/
def OffDigits (s : Bytes) : Prop :=
  ∃ wc h, s = print_int wc ++ ch ':' :: h ∧ (print_int wc).length ≤ 10 ∧ h.length = 64 ∧ (∀ c ∈ h, Alnum c) ∧
    ∃ c ∈ h, digit_value 16 c = none

section
variable {pos : Nat} {s h : Bytes} {wc : WorkchainId} {a b r : StdAddress} {addr held : Bits256} {junk : Fin 36 → UInt8}

theorem find_colon {w : Bytes} (hw : ch ':' ∉ w) : find (w ++ ch ':' :: h) (ch ':') = some w.length := by
  rw [find, idxOf_append_of_notMem hw, idxOf_cons_self, Nat.add_zero, if_pos (by simp)]

theorem find_none (hs : ch ':' ∉ s) : find s (ch ':') = none := if_neg (by rw [idxOf_lt_length_iff]; exact hs)

theorem parse_digits_iff : parse_digits s pos a = (true, r) ↔ s.length = pos + 64 ∧
    ∃ addr, hex_loop 0 (s.drop pos) a.addr = (true, addr) ∧ r = { a with addr } := by
  unfold parse_digits
  by_cases hlen : s.length = pos + 64
  · rw [if_neg (not_not.2 hlen)]
    cases hl : hex_loop 0 (s.drop pos) a.addr with
    | mk taken addr =>
      cases taken with
      | false => simp
      | true => simp [hlen, eq_comm]
  · rw [if_pos hlen]
    exact iff_of_false (by simp) fun h => hlen h.1

theorem parse_raw_colon : parse_raw (print_int wc ++ ch ':' :: h) a =
    if 10 < (print_int wc).length then (false, a.invalidate)
    else parse_digits (print_int wc ++ ch ':' :: h) ((print_int wc).length + 1) { a with workchain := wc } := by
  unfold parse_raw
  rw [find_colon (colon_not_mem_print_int wc)]
  dsimp only
  by_cases hlong : 10 < (print_int wc).length
  · rw [if_pos hlong, if_pos hlong]
  · have hvalid : wc ≠ workchainInvalid := by
      rintro rfl
      exact hlong length_print_invalid
    rw [if_neg hlong, if_neg hlong, take_left, to_integer_safe_some.2 rfl]
    exact if_neg hvalid

theorem parse_raw_plain (hs : ch ':' ∉ s) : parse_raw s a = parse_digits s 0 a := by
  rw [parse_raw, find_none hs]

theorem parse_raw_cases (h : parse_raw s a = (true, r)) : ch ':' ∉ s ∨ ∃ wc h, s = print_int wc ++ ch ':' :: h := by
  by_cases hs : ch ':' ∈ s
  · right
    obtain ⟨w, t, rfl, hw⟩ := eq_append_cons_of_mem hs
    unfold parse_raw at h
    rw [find_colon hw] at h
    dsimp only at h
    rw [take_left] at h
    cases hsafe : to_integer_safe w with
    | none =>
      rw [hsafe] at h
      split at h <;> cases h
    | some wc => exact ⟨wc, t, by rw [to_integer_safe_some.1 hsafe]⟩
  · exact .inl hs

theorem rdeserialize_false {x : StdAddress} (h : rdeserialize junk s (unset held) = (false, x)) : x = unset held := by
  unfold rdeserialize unpack_std_smc_addr unpack_bytes at h
  split at h
  · split at h
    · exact (Prod.mk.inj h).2.symm
    · dsimp only at h
      split at h
      · exact (Prod.mk.inj h).2.symm
      · split at h
        · exact (Prod.mk.inj h).2.symm
        · cases h
  · exact (Prod.mk.inj h).2.symm

theorem parse_iff : parse junk held s = some a ↔ rdeserialize junk s (unset held) = (true, a) ∨
    (∀ r, rdeserialize junk s (unset held) ≠ (true, r)) ∧ parse_raw s (unset held) = (true, a) := by
  unfold parse parse_addr
  cases hd : rdeserialize junk s (unset held) with
  | mk taken x =>
    cases taken with
    | true => simp
    | false =>
      obtain rfl := rdeserialize_false hd
      dsimp only
      rw [show { unset held with testnet := false, bounceable := true } = unset held from rfl]
      cases hr : parse_raw s (unset held) with
      | mk taken r =>
        cases taken with
        | false => simp
        | true => simp

theorem length_ne_of_raw (hlen : h.length = 64) : (print_int wc ++ ch ':' :: h).length ≠ 48 := by
  rw [length_append, length_cons]
  omega

theorem rdeserialize_ne_of_length (hlen : s.length ≠ 48) (r : StdAddress) : rdeserialize junk s b ≠ (true, r) := fun h =>
  hlen (rdeserialize_iff.1 h).1

/-- A workchain and 64 characters are parsed if the workchain is short and the characters are taken for digits. -/
theorem parse_raw_iff (hlen : h.length = 64) : parse junk held (print_int wc ++ ch ':' :: h) = some a ↔
    (print_int wc).length ≤ 10 ∧ ∃ addr, hex_loop 0 h held = (true, addr) ∧ a = ⟨wc, true, false, addr⟩ := by
  have hne := @rdeserialize_ne_of_length _ (unset held) junk (@length_ne_of_raw _ wc hlen)
  have hdrop : (print_int wc ++ ch ':' :: h).drop ((print_int wc).length + 1) = h := by
    rw [← drop_drop, drop_left]
    rfl
  rw [parse_iff, or_iff_right (hne a), and_iff_right hne, parse_raw_colon]
  by_cases hlong : 10 < (print_int wc).length
  · rw [if_pos hlong]
    exact iff_of_false (by simp) fun h => absurd h.1 (by omega)
  · rw [if_neg hlong, parse_digits_iff, hdrop, and_iff_right (not_lt.1 hlong), and_iff_right]
    · rfl
    · rw [length_append, length_cons, hlen]

theorem raw_text_unique {v wc : WorkchainId} {t : Bytes} (heq : print_int v ++ ch ':' :: t = print_int wc ++ ch ':' :: h) :
    v = wc ∧ t = h := by
  have hfind : (print_int v).length = (print_int wc).length := by
    have hf := congrArg (find · (ch ':')) heq
    rw [find_colon (colon_not_mem_print_int v), find_colon (colon_not_mem_print_int wc)] at hf
    exact some_inj.1 hf
  obtain ⟨h1, h2⟩ := append_inj heq hfind
  exact ⟨print_int_inj h1, (List.cons.inj h2).2⟩

theorem AddressText.length (h : AddressText s a) : s.length = 48 := (address_text_iff.1 h).1

theorem RawText.length (h : RawText s wc addr) : s.length ≠ 48 := by
  obtain ⟨t, rfl, ht⟩ := h
  exact length_ne_of_raw ht.1

theorem not_raw_text_of_off {c : UInt8} (hc : c ∈ h) (hd : digit_value 16 c = none) {v : WorkchainId} :
    ¬RawText (print_int wc ++ ch ':' :: h) v addr := by
  rintro ⟨t, heq, ht⟩
  obtain ⟨-, rfl⟩ := raw_text_unique heq
  have hsome := ht.digits c hc
  rw [hd] at hsome
  exact absurd hsome (by simp)

theorem Misread.not_exact (h : Misread s) : ¬AddressExact s := by
  intro he
  have hpad := h.2.1
  obtain ⟨junk, r, hr⟩ := (misread_iff (b := unset fun _ => 0) hpad).1 h
  have hshort := (rdeserialize_iff.1 hr).2.2.1
  have htext : AddressText s r := ⟨hshort, (he junk fun _ => 0).1 r _ hr⟩
  exact htext.not_mem_pad hpad

theorem NoWorkchain.not_exact (h : NoWorkchain s) : ¬AddressExact s := by
  intro he
  obtain ⟨hlen, hall⟩ := h
  have hcolon : ch ':' ∉ s := fun h => absurd (hall _ h) (by decide)
  obtain ⟨junk, held⟩ : (Fin 36 → UInt8) × Bits256 := (fun _ => 0, fun _ => 0)
  have hraw : ∃ addr, hex_loop 0 s held = (true, addr) := ⟨_, Prod.ext ((hex_loop_taken 0 s held).2 hall) rfl⟩
  obtain ⟨addr, haddr⟩ := hraw
  have hparse : parse junk held s = some (unset addr) := by
    refine parse_iff.2 (.inr ⟨rdeserialize_ne_of_length (by omega), ?_⟩)
    rw [parse_raw_plain hcolon, parse_digits_iff]
    exact ⟨hlen, addr, haddr, rfl⟩
  exact ((he junk held).2.2 _ hparse).1 rfl

theorem LongWorkchain.not_exact (h : LongWorkchain s) : ¬AddressExact s := by
  intro he
  obtain ⟨wc, t, rfl, hlong, hlen, hd⟩ := h
  obtain ⟨junk, held⟩ : (Fin 36 → UInt8) × Bits256 := (fun _ => 0, fun _ => 0)
  obtain ⟨addr, -, ht⟩ := hex_loop_text hlen hd held
  obtain ⟨a, ha⟩ := (he junk held).2.1.2 (.inr ⟨wc, addr, t, rfl, ht⟩)
  have hle := ((parse_raw_iff hlen).1 ha).1
  omega

theorem OffDigits.not_exact (h : OffDigits s) : ¬AddressExact s := by
  intro he
  obtain ⟨wc, t, rfl, hle, hlen, hall, c, hc, hd⟩ := h
  obtain ⟨junk, held⟩ : (Fin 36 → UInt8) × Bits256 := (fun _ => 0, fun _ => 0)
  have hparse := (@parse_raw_iff _ wc _ held junk hlen).2
    ⟨hle, _, Prod.ext ((hex_loop_taken 0 t held).2 hall) rfl, rfl⟩
  rcases ((he junk held).2.2 _ hparse).2 with h | h
  · exact length_ne_of_raw hlen h.length
  · exact not_raw_text_of_off hc hd h

theorem address_exact_iff (s : Bytes) : AddressExact s ↔ ¬(Misread s ∨ NoWorkchain s ∨ LongWorkchain s ∨ OffDigits s) := by
  constructor
  · rintro he (h | h | h | h)
    · exact h.not_exact he
    · exact h.not_exact he
    · exact h.not_exact he
    · exact h.not_exact he
  · intro hbad
    simp only [not_or] at hbad
    obtain ⟨hmis, hno, hlong, hoff⟩ := hbad
    intro junk held
    have htext : ∀ a b, rdeserialize junk s b = (true, a) → AddressText s a := by
      intro a b h
      by_cases hpad : ch '=' ∈ s
      · exact absurd ((misread_iff (b := b) hpad).2 ⟨junk, a, h⟩) hmis
      · exact (rdeserialize_text hpad).1 h
    -- what is parsed is a text of what it is parsed to
    have hsound : ∀ a, parse junk held s = some a → a.is_valid ∧ (AddressText s a ∨ RawText s a.workchain a.addr) := by
      intro a h
      rcases parse_iff.1 h with h | ⟨hne, h⟩
      · have ht := htext a _ h
        refine ⟨fun hinv => ?_, .inl ht⟩
        have hshort := ht.1.1
        rw [hinv] at hshort
        exact absurd hshort (by decide)
      · rcases parse_raw_cases h with hcolon | ⟨wc, t, rfl⟩
        · rw [parse_raw_plain hcolon, parse_digits_iff] at h
          obtain ⟨hlen, addr, hl, -⟩ := h
          rw [drop_zero] at hl
          exact absurd ⟨by omega, (hex_loop_taken 0 s _).1 (by rw [hl])⟩ hno
        · have hraw := h
          rw [parse_raw_colon] at hraw
          split at hraw
          · cases hraw
          have hlen : t.length = 64 := by
            have := (parse_digits_iff.1 hraw).1
            rw [length_append, length_cons] at this
            omega
          obtain ⟨hle, addr, hl, rfl⟩ := (@parse_raw_iff _ wc a held junk hlen).1 (parse_iff.2 (.inr ⟨hne, h⟩))
          have hall : ∀ c ∈ t, Alnum c := (hex_loop_taken 0 t held).1 (by rw [hl])
          have hd : ∀ c ∈ t, (digit_value 16 c).isSome := by
            intro c hc
            by_contra hnone
            exact hoff ⟨wc, t, rfl, hle, hlen, hall, c, hc, not_isSome_iff_eq_none.1 hnone⟩
          obtain ⟨addr', hl', ht⟩ := hex_loop_text hlen hd held
          obtain rfl : addr' = addr := (Prod.mk.inj (hl'.symm.trans hl)).2
          refine ⟨?_, .inr ⟨t, rfl, ht⟩⟩
          rintro rfl
          exact absurd length_print_invalid (by omega)
    refine ⟨fun a b h => (htext a b h).2, ⟨fun ⟨a, h⟩ => ?_, ?_⟩, hsound⟩
    · rcases (hsound a h).2 with h | h
      · exact .inl ⟨a, h⟩
      · exact .inr ⟨_, _, h⟩
    · rintro (⟨a, h⟩ | ⟨wc, addr, t, rfl, ht⟩)
      · exact ⟨a, parse_iff.2 (.inl ((rdeserialize_text h.not_mem_pad).2 h))⟩
      · have hle : (print_int wc).length ≤ 10 := by
          by_contra hgt
          exact hlong ⟨wc, t, rfl, by omega, ht.1, ht.digits⟩
        obtain ⟨addr', hl, -⟩ := hex_loop_text ht.1 ht.digits held
        exact ⟨_, (parse_raw_iff ht.1).2 ⟨hle, addr', hl, rfl⟩⟩

end

/-- An address survives its text; a text is parsed as what it says unless it has paddings that are read as letters, no
workchain or one of eleven characters, or letters that are no digits. -/
theorem addresses_exact_iff (a : StdAddress) (s : Bytes) :
    (a.Short → ∀ url junk b, rdeserialize junk (rserialize a url) b = (true, a)) ∧
      (AddressExact s ↔ ¬(Misread s ∨ NoWorkchain s ∨ LongWorkchain s ∨ OffDigits s)) :=
  ⟨rdeserialize_rserialize, address_exact_iff s⟩

/-- Sixty-four times the letter `z`, which is no digit, in the workchain 0. -/
theorem letters_are_an_address :
    parse (fun _ => 0) (fun _ => 0) ([ch '0', ch ':'] ++ List.replicate 64 (ch 'z')) = some ⟨0, true, false, fun _ => 0x33⟩ ∧
      ¬AddressExact ([ch '0', ch ':'] ++ List.replicate 64 (ch 'z')) := by
  have htext : [ch '0', ch ':'] ++ List.replicate 64 (ch 'z') = print_int 0 ++ ch ':' :: List.replicate 64 (ch 'z') := rfl
  have hall : ∀ c ∈ List.replicate 64 (ch 'z'), Alnum c := fun c hc => by
    rw [eq_of_mem_replicate hc]
    decide
  constructor
  · rw [htext, parse_raw_iff length_replicate]
    exact ⟨by decide, fun _ => 0x33, by decide +kernel, rfl⟩
  · rw [htext]
    refine OffDigits.not_exact ⟨0, _, rfl, by decide, length_replicate, hall, ch 'z', by simp, by decide⟩

end Ton.Text
