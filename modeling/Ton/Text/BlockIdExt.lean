import Mathlib.Data.Nat.Digits.Lemmas
import Ton.Shard.ShardId
import Ton.Text.Base64
/-!
# Block identifiers as text

`parse_hex_hash` and `parse_block_id_ext` of `block.cpp`, and `BlockIdExt::to_str` of
`ton-types.h`. `sscanf` is that of the C library: a number may follow white space and a
sign, one in base 16 also `0x`, and one too large becomes the largest.
-/

namespace Ton.Text
open Shard List Option
open UInt8 (ofNat)

abbrev Bits256 := Fin 32 → UInt8

/-- The value of a character; one over 127 is refused, whether a `char` has a sign or not. -/
def hash_digit (c : UInt8) : Option Nat :=
  let x : Int := c.toNat - '0'.toNat
  if x < 0 then none
  else if x > 10 then
    let x : Int := (c.toNat ||| 0x20 : Nat) - ('a'.toNat - 10)
    if x < 10 ∨ x > 16 then none else some x.toNat
  else some x.toNat

def hash_digits : Bytes → Option (List Nat)
  | [] => some []
  | c :: s => do
    let x ← hash_digit c
    let xs ← hash_digits s
    some (x :: xs)

/-- Each byte is made of two digits, `(y << 4) | x`. -/
def parse_hex_hash (str : Bytes) : Option Bits256 :=
  if str.length ≠ 64 then none
  else (hash_digits str).map fun xs i => ofNat (xs.getD (2 * i) 0 * 2 ^ 4 ||| xs.getD (2 * i + 1) 0)

/-! ## `sscanf` -/

def isspace (c : UInt8) : Bool := c = ch ' ' ∨ 9 ≤ c.toNat ∧ c.toNat ≤ 13

/-- The value of a digit up to base 16. -/
def digit_value (base : Nat) (c : UInt8) : Option Nat :=
  let d :=
    if '0'.toNat ≤ c.toNat ∧ c.toNat ≤ '9'.toNat then c.toNat - '0'.toNat
    else if 'a'.toNat ≤ c.toNat ∧ c.toNat ≤ 'f'.toNat then c.toNat - 'a'.toNat + 10
    else if 'A'.toNat ≤ c.toNat ∧ c.toNat ≤ 'F'.toNat then c.toNat - 'A'.toNat + 10
    else 16
  if d < base then some d else none

def scan_digits (base : Nat) : Nat → Bytes → Nat × Bytes
  | n, c :: s =>
    match digit_value base c with
    | some d => scan_digits base (n * base + d) s
    | none => (n, c :: s)
  | n, [] => (n, [])

def scan_sign : Bytes → Bool × Bytes
  | c :: s => if c = ch '-' then (true, s) else if c = ch '+' then (false, s) else (false, c :: s)
  | [] => (false, [])

/-- The digits of a number. -/
def scan_magnitude (base : Nat) (s : Bytes) : Option (Nat × Bytes) :=
  match s with
  | c :: x :: s' =>
    if base = 16 ∧ c = ch '0' ∧ (x = ch 'x' ∨ x = ch 'X') then some (scan_digits base 0 s')
    else if (digit_value base c).isSome then some (scan_digits base 0 s) else none
  | [c] => if (digit_value base c).isSome then some (scan_digits base 0 s) else none
  | [] => none

/-- A number: whether it has a minus, what follows the sign and what is left. -/
def scan_number (base : Nat) (s : Bytes) : Option (Bool × Nat × Bytes) :=
  let (neg, s) := scan_sign (s.dropWhile isspace)
  (scan_magnitude base s).map fun r => (neg, r)

def scan_literal (c : UInt8) : Bytes → Option Bytes
  | d :: s => if d = c then some s else none
  | [] => none

/-- `%d`. -/
def to_int (neg : Bool) (n : Nat) : BitVec 32 :=
  BitVec.ofInt 32 (if neg then max (-(n : Int)) (-2 ^ 63) else min (n : Int) (2 ^ 63 - 1))

/-- `%llx`, and `%u` before it is cut to 32 bits. -/
def to_ulong (neg : Bool) (n : Nat) : BitVec 64 :=
  if n ≥ 2 ^ 64 then BitVec.allOnes 64 else if neg then -BitVec.ofNat 64 n else BitVec.ofNat 64 n

structure BlockId where
  workchain : WorkchainId
  shard : ShardId
  seqno : BitVec 32
  deriving DecidableEq

/-- `"(%d,%llx,%u):%n"`: the numbers and what is left, where everything matches. -/
def scan_id (s : Bytes) : Option (BlockId × Bytes) := do
  let s ← scan_literal (ch '(') s
  let (neg1, n1, s) ← scan_number 10 s
  let s ← scan_literal (ch ',') s
  let (neg2, n2, s) ← scan_number 16 s
  let s ← scan_literal (ch ',') s
  let (neg3, n3, s) ← scan_number 10 s
  let s ← scan_literal (ch ')') s
  let s ← scan_literal (ch ':') s
  some (⟨to_int neg1 n1, to_ulong neg2 n2, (to_ulong neg3 n3).setWidth 32⟩, s)

structure BlockIdExt where
  id : BlockId
  root_hash : Bits256
  file_hash : Bits256
  deriving DecidableEq

namespace BlockIdExt

def is_valid (b : BlockIdExt) : Prop := b.id.workchain ≠ workchainInvalid

def is_valid_ext (b : BlockIdExt) : Prop := b.is_valid ∧ b.id.shard ≠ 0

def invalidate (b : BlockIdExt) : BlockIdExt := { b with id.workchain := workchainInvalid }

end BlockIdExt

/-- `parse_block_id_ext` of the characters of `str`, which those of `after` follow in memory: `sscanf` stops
at the first zero only. -/
def parse_block_id_ext (str after : Bytes) (blkid : BlockIdExt) : Bool × BlockIdExt :=
  let blkid := blkid.invalidate
  if str = [] ∨ str.length > 255 then (false, blkid)
  else if str.head? ≠ some (ch '(') then (false, blkid)
  else if ch ')' ∉ str then (false, blkid)
  else
    let cstr := (str ++ after).takeWhile (· ≠ 0)
    match scan_id cstr with
    | none => (false, blkid)
    | some (id, rest) =>
      let pos := cstr.length - rest.length
      if pos ≥ str.length then (false, blkid)
      else if id.shard = 0 ∨ id.workchain = workchainInvalid then (false, blkid)
      else
        let str := str.drop pos
        if str.length ≠ 64 * 2 + 1 ∨ str.getD 64 0 ≠ ch ':' then (false, blkid)
        else
          match parse_hex_hash (str.take 64), parse_hex_hash (str.drop 65) with
          | some root_hash, some file_hash => (true, ⟨id, root_hash, file_hash⟩)
          | _, _ => (false, { blkid with id }.invalidate)

/-! ## The printed form -/

/-- `%u`. -/
def print_nat (n : Nat) : Bytes := if n = 0 then [ch '0'] else (Nat.digits 10 n).reverse.map fun d => ofNat ('0'.toNat + d)

/-- `%d`. -/
def print_int (x : BitVec 32) : Bytes := if x.toInt < 0 then ch '-' :: print_nat x.toInt.natAbs else print_nat x.toInt.natAbs

def hex_digit (upcase : Bool) (d : Nat) : UInt8 :=
  ofNat (if d < 10 then '0'.toNat + d else (if upcase then 'A' else 'a').toNat + (d - 10))

/-- `%016llx`. -/
def print_shard (x : ShardId) : Bytes := List.ofFn fun i : Fin 16 => hex_digit false (x.toNat / 16 ^ (15 - i.val) % 16)

/-- `to_hex`. -/
def print_hash (h : Bits256) : Bytes := List.ofFn fun j : Fin 64 =>
  hex_digit true (if j.val % 2 = 0 then (h ⟨j / 2, by omega⟩).toNat / 16 else (h ⟨j / 2, by omega⟩).toNat % 16)

def BlockId.to_str (id : BlockId) : Bytes :=
  [ch '('] ++ print_int id.workchain ++ [ch ','] ++ print_shard id.shard ++ [ch ','] ++ print_nat id.seqno.toNat ++ [ch ')']

def BlockIdExt.to_str (b : BlockIdExt) : Bytes :=
  b.id.to_str ++ [ch ':'] ++ print_hash b.root_hash ++ [ch ':'] ++ print_hash b.file_hash

/-! ## Hashes -/

/-- `h` are the digits of `b`. -/
def HashText (h : Bytes) (b : Bits256) : Prop :=
  h.length = 64 ∧ ∀ i : Fin 32, ∃ hi lo, digit_value 16 (h.getD (2 * i) 0) = some hi ∧ digit_value 16 (h.getD (2 * i + 1) 0) = some lo ∧
    (b i).toNat = hi * 16 + lo

/-- The characters next to the digits that are taken for digits. -/
def Neighbour (c : UInt8) : Prop := c = ch ':' ∨ c = ch 'g' ∨ c = ch 'G'

instance (c : UInt8) : Decidable (Neighbour c) := by
  unfold Neighbour
  infer_instance

/-- A hash of 64 characters that are taken for digits, one of which is not. -/
def BadHash (h : Bytes) : Prop := h.length = 64 ∧ (∀ c ∈ h, (hash_digit c).isSome) ∧ ∃ c ∈ h, Neighbour c

section
variable {c : UInt8} {d : Nat} {h : Bytes} {b : Bits256}

theorem hash_digit_eq : hash_digit c = digit_value 16 c ∧ ¬Neighbour c ∨ (hash_digit c).isSome ∧ digit_value 16 c = none ∧ Neighbour c := by
  have hall : ∀ n : Fin 256, hash_digit (ofNat n) = digit_value 16 (ofNat n) ∧ ¬Neighbour (ofNat n) ∨
      (hash_digit (ofNat n)).isSome ∧ digit_value 16 (ofNat n) = none ∧ Neighbour (ofNat n) := by decide +kernel
  simpa using hall ⟨c.toNat, c.toNat_lt⟩

theorem digit_value_lt {base : Nat} (hd : digit_value base c = some d) : d < base := by
  unfold digit_value at hd
  dsimp only at hd
  generalize (if '0'.toNat ≤ c.toNat ∧ c.toNat ≤ '9'.toNat then c.toNat - '0'.toNat
    else if 'a'.toNat ≤ c.toNat ∧ c.toNat ≤ 'f'.toNat then c.toNat - 'a'.toNat + 10
    else if 'A'.toNat ≤ c.toNat ∧ c.toNat ≤ 'F'.toNat then c.toNat - 'A'.toNat + 10 else 16) = e at hd
  split at hd
  · cases hd
    assumption
  · cases hd

theorem hash_digit_some (hd : digit_value 16 c = some d) : hash_digit c = some d := by
  rcases hash_digit_eq (c := c) with h | h
  · rw [h.1, hd]
  · rw [hd] at h
    exact absurd h.2.1 (by simp)

theorem hash_digits_isSome : (hash_digits h).isSome ↔ ∀ c ∈ h, (hash_digit c).isSome := by
  induction h with
  | nil => simp [hash_digits]
  | cons c h ih =>
    rw [forall_mem_cons, ← ih, hash_digits]
    cases hash_digit c with
    | none => simp
    | some x => cases hash_digits h <;> simp

theorem hash_digits_getD {xs : List Nat} (hx : hash_digits h = some xs) : xs.length = h.length ∧
    ∀ j < h.length, hash_digit (h.getD j 0) = some (xs.getD j 0) := by
  induction h generalizing xs with
  | nil =>
    cases hx
    simp
  | cons c h ih =>
    obtain ⟨x, hc, hx⟩ := bind_eq_some_iff.1 hx
    obtain ⟨ys, hys, hx⟩ := bind_eq_some_iff.1 hx
    cases hx
    obtain ⟨h1, h2⟩ := ih hys
    refine ⟨by simp [h1], fun j hj => ?_⟩
    cases j with
    | zero => simpa using hc
    | succ j => simpa using h2 j (by simpa using hj)

theorem HashText.parse (hh : HashText h b) : parse_hex_hash h = some b := by
  obtain ⟨hlen, hb⟩ := hh
  have htaken : ∀ j < 64, ∃ d, digit_value 16 (h.getD j 0) = some d := by
    intro j hj
    obtain ⟨hi, lo, h1, h2, -⟩ := hb ⟨j / 2, by omega⟩
    rcases Nat.mod_two_eq_zero_or_one j with hm | hm
    · exact ⟨hi, by rwa [show 2 * (j / 2) = j by omega] at h1⟩
    · exact ⟨lo, by rwa [show 2 * (j / 2) + 1 = j by omega] at h2⟩
  have hall : (hash_digits h).isSome := by
    rw [hash_digits_isSome]
    intro c hc
    obtain ⟨j, hj, rfl⟩ := mem_iff_getElem.1 hc
    obtain ⟨d, hd⟩ := htaken j (by omega)
    rw [getD_eq_getElem _ _ hj] at hd
    rw [hash_digit_some hd]
    rfl
  obtain ⟨xs, hxs⟩ := isSome_iff_exists.1 hall
  obtain ⟨-, hget⟩ := hash_digits_getD hxs
  rw [parse_hex_hash, if_neg (not_not.2 hlen), hxs, map_some, some_inj]
  funext i
  obtain ⟨hi, lo, h1, h2, hbi⟩ := hb i
  have g1 := hget (2 * i) (by omega)
  have g2 := hget (2 * i + 1) (by omega)
  rw [hash_digit_some h1, some_inj] at g1
  rw [hash_digit_some h2, some_inj] at g2
  apply UInt8.toNat_inj.1
  have hlo := digit_value_lt h2
  have hhi := digit_value_lt h1
  rw [← g1, ← g2, Nat.mul_comm, ← Nat.two_pow_add_eq_or_of_lt hlo, UInt8.toNat_ofNat', hbi]
  omega

/-- A hash is parsed as what it denotes, unless a neighbour of the digits stands in it. -/
theorem parse_hex_hash_cases : HashText h b ∧ parse_hex_hash h = some b ∨ BadHash h ∧ (∃ b', parse_hex_hash h = some b') ∧ ¬HashText h b ∨
    ¬BadHash h ∧ parse_hex_hash h ≠ some b ∧ ¬HashText h b := by
  by_cases ht : HashText h b
  · exact .inl ⟨ht, ht.parse⟩
  right
  by_cases hbad : BadHash h
  · refine .inl ⟨hbad, ?_, ht⟩
    obtain ⟨xs, hxs⟩ := isSome_iff_exists.1 (hash_digits_isSome.2 hbad.2.1)
    rw [parse_hex_hash, if_neg (not_not.2 hbad.1), hxs]
    exact ⟨_, rfl⟩
  · refine .inr ⟨hbad, fun hp => ht ?_, ht⟩
    unfold parse_hex_hash at hp
    split at hp
    · cases hp
    next hlen =>
    have hlen := not_not.1 hlen
    obtain ⟨xs, hxs, rfl⟩ := map_eq_some_iff.1 hp
    have htaken : ∀ c ∈ h, (hash_digit c).isSome := hash_digits_isSome.1 (by rw [hxs]; rfl)
    have hclean : ∀ c ∈ h, hash_digit c = digit_value 16 c := by
      intro c hc
      rcases hash_digit_eq (c := c) with h' | h'
      · exact h'.1
      · exact absurd ⟨hlen, htaken, c, hc, h'.2.2⟩ hbad
    obtain ⟨-, hget⟩ := hash_digits_getD hxs
    have hdigit : ∀ j < 64, digit_value 16 (h.getD j 0) = some (xs.getD j 0) := by
      intro j hj
      rw [← hclean _ (by rw [getD_eq_getElem _ _ (by omega)]; exact getElem_mem _)]
      exact hget j (by omega)
    refine ⟨hlen, fun i => ⟨_, _, hdigit _ (by omega), hdigit _ (by omega), ?_⟩⟩
    have h1 := digit_value_lt (hdigit (2 * i) (by omega))
    have h2 := digit_value_lt (hdigit (2 * i + 1) (by omega))
    dsimp only
    rw [Nat.mul_comm _ (2 ^ 4), ← Nat.two_pow_add_eq_or_of_lt h2, UInt8.toNat_ofNat']
    omega

theorem BadHash.not_text (hbad : BadHash h) : ¬HashText h b := by
  rintro ⟨-, hb⟩
  obtain ⟨hlen, -, c, hc, hn⟩ := hbad
  obtain ⟨j, hj, rfl⟩ := mem_iff_getElem.1 hc
  obtain ⟨hi, lo, h1, h2, -⟩ := hb ⟨j / 2, by omega⟩
  have hsome : (digit_value 16 h[j]).isSome := by
    rcases Nat.mod_two_eq_zero_or_one j with hm | hm
    · rw [show 2 * (j / 2) = j by omega, getD_eq_getElem _ _ hj] at h1
      rw [h1]
      rfl
    · rw [show 2 * (j / 2) + 1 = j by omega, getD_eq_getElem _ _ hj] at h2
      rw [h2]
      rfl
  rcases hash_digit_eq (c := h[j]) with h' | h'
  · exact h'.2 hn
  · rw [h'.2.1] at hsome
    exact absurd hsome (by simp)

end

/-- The hashes are taken that consist of 64 digits. -/
def HashExact (h : Bytes) : Prop := ∀ b, parse_hex_hash h = some b ↔ HashText h b

theorem hash_exact_iff (h : Bytes) : HashExact h ↔ ¬BadHash h := by
  constructor
  · intro he hbad
    have hp := hash_digits_isSome.2 hbad.2.1
    obtain ⟨xs, hxs⟩ := isSome_iff_exists.1 hp
    have hsome : ∃ b, parse_hex_hash h = some b := by
      rw [parse_hex_hash, if_neg (not_not.2 hbad.1), hxs]
      exact ⟨_, rfl⟩
    obtain ⟨b, hb⟩ := hsome
    exact hbad.not_text ((he b).1 hb)
  · intro hbad b
    rcases parse_hex_hash_cases (h := h) (b := b) with h' | h' | h'
    · exact iff_of_true h'.2 h'.1
    · exact absurd h'.1 hbad
    · exact iff_of_false h'.2.1 h'.2.2

/-! ## Numbers -/

/-- The digits of a number, their values and the number. -/
def Digits (base : Nat) (ds : Bytes) (n : Nat) : Prop :=
  ∃ xs : List Nat, ds.map (digit_value base) = xs.map some ∧ n = xs.foldl (fun n d => n * base + d) 0

inductive Sign : Bytes → Bool → Prop where
  | plain : Sign [] false
  | plus : Sign [ch '+'] false
  | minus : Sign [ch '-'] true

/-- The text of a number: white space, a sign, `0x` in base 16, and digits. -/
def Numeral (base : Nat) (w : Bytes) (neg : Bool) (n : Nat) : Prop :=
  ∃ sp sg pre ds, w = sp ++ sg ++ pre ++ ds ∧ (∀ c ∈ sp, isspace c = true) ∧ Sign sg neg ∧ Digits base ds n ∧
    (pre = [] ∧ ds ≠ [] ∨ base = 16 ∧ (pre = [ch '0', ch 'x'] ∨ pre = [ch '0', ch 'X']))

/-- A character that ends a number. -/
def Stops (c : UInt8) : Prop := c = ch ',' ∨ c = ch ')'

section
variable {base n : Nat} {c : UInt8} {s t ds rest : Bytes} {neg : Bool}

theorem digit_value_mono (hb : base ≤ 16) {d : Nat} (hd : digit_value base c = some d) : digit_value 16 c = some d := by
  obtain ⟨hlt, h⟩ := ite_none_right_eq_some.1 hd
  exact (if_pos (hlt.trans_le hb)).trans h

theorem digit_value_facts (hb : base ≤ 16) (hc : (digit_value base c).isSome) :
    isspace c = false ∧ c ≠ ch '-' ∧ c ≠ ch '+' ∧ c ≠ ch 'x' ∧ c ≠ ch 'X' ∧ c ≠ 0 := by
  have hall : ∀ n : Fin 256, (digit_value 16 (ofNat n)).isSome → isspace (ofNat n) = false ∧ ofNat n ≠ ch '-' ∧
      ofNat n ≠ ch '+' ∧ ofNat n ≠ ch 'x' ∧ ofNat n ≠ ch 'X' ∧ ofNat n ≠ 0 := by decide +kernel
  have h := hall ⟨c.toNat, c.toNat_lt⟩
  simp only [UInt8.ofNat_toNat] at h
  obtain ⟨d, hd⟩ := isSome_iff_exists.1 hc
  exact h (by rw [digit_value_mono hb hd]; rfl)

theorem digit_value_stops (hb : base ≤ 16) (hc : Stops c) : digit_value base c = none := by
  have h16 : digit_value 16 c = none := by rcases hc with rfl | rfl <;> decide
  cases hd : digit_value base c with
  | none => rfl
  | some d =>
    rw [digit_value_mono hb hd] at h16
    cases h16

theorem scan_digits_append (hds : Digits base ds n) (hc : digit_value base c = none) (m : Nat) :
    ∃ xs : List Nat, ds.map (digit_value base) = xs.map some ∧ n = xs.foldl (fun n d => n * base + d) 0 ∧
      scan_digits base m (ds ++ c :: t) = (xs.foldl (fun n d => n * base + d) m, c :: t) := by
  obtain ⟨xs, hxs, hn⟩ := hds
  refine ⟨xs, hxs, hn, ?_⟩
  clear hn
  induction ds generalizing xs m with
  | nil =>
    obtain rfl : xs = [] := by simpa using hxs.symm
    rw [nil_append, scan_digits, hc]
    rfl
  | cons d ds ih =>
    obtain ⟨x, xs, rfl⟩ := exists_cons_of_ne_nil (show xs ≠ [] by rintro rfl; simp at hxs)
    rw [map_cons, map_cons, List.cons.injEq] at hxs
    rw [cons_append, scan_digits, hxs.1]
    exact ih _ _ hxs.2

theorem scan_digits_spec (m : Nat) (s : Bytes) : ∃ (ds : Bytes) (xs : List Nat), s = ds ++ (scan_digits base m s).2 ∧
    ds.map (digit_value base) = xs.map some ∧ (scan_digits base m s).1 = xs.foldl (fun n d => n * base + d) m ∧
    (∀ c s', s = c :: s' → (digit_value base c).isSome → ds ≠ []) := by
  induction s generalizing m with
  | nil => exact ⟨[], [], rfl, rfl, rfl, fun _ _ h => by cases h⟩
  | cons c s ih =>
    rw [scan_digits]
    cases hc : digit_value base c with
    | some d =>
      obtain ⟨ds, xs, h1, h2, h3, -⟩ := ih (m * base + d)
      refine ⟨c :: ds, d :: xs, ?_, by simp [hc, h2], h3, fun _ _ _ _ => by simp⟩
      dsimp only
      rw [cons_append, ← h1]
    | none =>
      refine ⟨[], [], rfl, rfl, rfl, fun c' s' h hs => ?_⟩
      cases h
      rw [hc] at hs
      exact absurd hs (by simp)

theorem scan_sign_spec (s : Bytes) : ∃ sg, s = sg ++ (scan_sign s).2 ∧ Sign sg (scan_sign s).1 := by
  match s with
  | [] => exact ⟨[], rfl, .plain⟩
  | c :: s =>
    rw [scan_sign]
    split_ifs with h1 h2
    · exact ⟨[ch '-'], by rw [h1]; rfl, .minus⟩
    · exact ⟨[ch '+'], by rw [h2]; rfl, .plus⟩
    · exact ⟨[], rfl, .plain⟩

theorem scan_magnitude_spec (h : scan_magnitude base s = some (n, rest)) : ∃ pre ds, s = pre ++ ds ++ rest ∧ Digits base ds n ∧
    (pre = [] ∧ ds ≠ [] ∨ base = 16 ∧ (pre = [ch '0', ch 'x'] ∨ pre = [ch '0', ch 'X'])) := by
  have hdigits : ∀ {c : UInt8} {s : Bytes}, (if (digit_value base c).isSome then some (scan_digits base 0 (c :: s)) else none) = some (n, rest) →
      ∃ pre ds, c :: s = pre ++ ds ++ rest ∧ Digits base ds n ∧
        (pre = [] ∧ ds ≠ [] ∨ base = 16 ∧ (pre = [ch '0', ch 'x'] ∨ pre = [ch '0', ch 'X'])) := by
    intro c s h
    split at h
    · next hc =>
      obtain ⟨ds, xs, h1, h2, h3, h4⟩ := @scan_digits_spec base 0 (c :: s)
      rw [some_inj] at h
      rw [h] at h1 h3
      exact ⟨[], ds, h1, ⟨xs, h2, h3⟩, .inl ⟨rfl, h4 c s rfl hc⟩⟩
    · cases h
  match s with
  | [] => cases h
  | [c] => exact hdigits h
  | c :: x :: s =>
    rw [scan_magnitude] at h
    split at h
    · next hx =>
      obtain ⟨hbase, rfl, hx⟩ := hx
      obtain ⟨ds, xs, h1, h2, h3, -⟩ := @scan_digits_spec base 0 s
      rw [some_inj] at h
      rw [h] at h1 h3
      refine ⟨[ch '0', x], ds, by rw [h1]; rfl, ⟨xs, h2, h3⟩, .inr ⟨hbase, ?_⟩⟩
      rcases hx with rfl | rfl
      · exact .inl rfl
      · exact .inr rfl
    · exact hdigits h

theorem scan_number_spec (h : scan_number base s = some (neg, n, rest)) : ∃ w, s = w ++ rest ∧ Numeral base w neg n := by
  obtain ⟨sg, h1, h2⟩ := scan_sign_spec (s.dropWhile isspace)
  unfold scan_number at h
  dsimp only at h
  obtain ⟨⟨n', rest'⟩, hm, heq⟩ := map_eq_some_iff.1 h
  cases heq
  obtain ⟨pre, ds, h3, h4, h5⟩ := scan_magnitude_spec hm
  refine ⟨s.takeWhile isspace ++ sg ++ pre ++ ds, ?_, s.takeWhile isspace, sg, pre, ds, rfl, fun c hc => mem_takeWhile_imp hc, h2, h4, h5⟩
  conv_lhs => rw [← takeWhile_append_dropWhile (p := isspace) (l := s), h1, h3]
  simp only [append_assoc]

theorem scan_magnitude_append {pre : Bytes} (hb : base ≤ 16) (hds : Digits base ds n) (hc : Stops c)
    (hpre : pre = [] ∧ ds ≠ [] ∨ base = 16 ∧ (pre = [ch '0', ch 'x'] ∨ pre = [ch '0', ch 'X'])) :
    scan_magnitude base (pre ++ ds ++ c :: t) = some (n, c :: t) := by
  obtain ⟨xs, hxs, hn, hscan⟩ := scan_digits_append (t := t) hds (digit_value_stops hb hc) 0
  rw [← hn] at hscan
  rcases hpre with ⟨rfl, hne⟩ | ⟨rfl, rfl | rfl⟩
  · -- neither a digit nor what stops the number is an `x`
    have hdigit : ∀ d ∈ ds, (digit_value base d).isSome := by
      intro d hd
      have hmem := List.mem_map_of_mem (f := digit_value base) hd
      rw [hxs] at hmem
      obtain ⟨x, -, hx⟩ := List.mem_map.1 hmem
      rw [← hx]
      rfl
    have hnotx : ∀ d, (digit_value base d).isSome ∨ Stops d → d ≠ ch 'x' ∧ d ≠ ch 'X' := by
      rintro d (hd | rfl | rfl)
      · exact ⟨(digit_value_facts hb hd).2.2.2.1, (digit_value_facts hb hd).2.2.2.2.1⟩
      · decide
      · decide
    obtain ⟨d, ds, rfl⟩ := exists_cons_of_ne_nil hne
    obtain ⟨e, s', hs'⟩ : ∃ e s', ds ++ c :: t = e :: s' ∧ ((digit_value base e).isSome ∨ Stops e) := by
      cases ds with
      | nil => exact ⟨c, t, rfl, .inr hc⟩
      | cons e ds => exact ⟨e, ds ++ c :: t, rfl, .inl (hdigit e (by simp))⟩
    rw [cons_append, hs'.1] at hscan
    rw [nil_append, cons_append, hs'.1, scan_magnitude, if_neg, if_pos (hdigit d (by simp)), hscan]
    rintro ⟨-, -, h | h⟩
    · exact (hnotx e hs'.2).1 h
    · exact (hnotx e hs'.2).2 h
  · simp only [cons_append, nil_append]
    rw [scan_magnitude, if_pos ⟨rfl, rfl, .inl rfl⟩, hscan]
  · simp only [cons_append, nil_append]
    rw [scan_magnitude, if_pos ⟨rfl, rfl, .inr rfl⟩, hscan]

theorem scan_number_append {w : Bytes} (hb : base ≤ 16) (hw : Numeral base w neg n) (hc : Stops c) :
    scan_number base (w ++ c :: t) = some (neg, n, c :: t) := by
  obtain ⟨sp, sg, pre, ds, rfl, hsp, hsg, hds, hpre⟩ := hw
  have hmag := scan_magnitude_append (t := t) hb hds hc hpre
  -- the number itself starts with a digit
  obtain ⟨d, s', hs', hd⟩ : ∃ d s', pre ++ ds ++ c :: t = d :: s' ∧ isspace d = false ∧ d ≠ ch '-' ∧ d ≠ ch '+' := by
    rcases hpre with ⟨rfl, hne⟩ | ⟨-, rfl | rfl⟩
    · obtain ⟨d, ds, rfl⟩ := exists_cons_of_ne_nil hne
      obtain ⟨xs, hxs, -⟩ := hds
      have hdig : (digit_value base d).isSome := by
        cases xs with
        | nil => simp at hxs
        | cons x xs => rw [(List.cons.inj hxs).1]; rfl
      obtain ⟨h1, h2, h3, -⟩ := digit_value_facts hb hdig
      exact ⟨d, ds ++ c :: t, rfl, h1, h2, h3⟩
    · exact ⟨ch '0', _, rfl, by decide, by decide, by decide⟩
    · exact ⟨ch '0', _, rfl, by decide, by decide, by decide⟩
  have hdrop : (sp ++ sg ++ pre ++ ds ++ c :: t).dropWhile isspace = sg ++ (d :: s') := by
    rw [← hs']
    simp only [append_assoc]
    rw [dropWhile_append_of_pos hsp]
    simp only [append_assoc] at hs'
    rw [hs']
    cases hsg with
    | plain => rw [nil_append, dropWhile_cons_of_neg (by simp [hd.1])]
    | plus => rw [cons_append, dropWhile_cons_of_neg (by decide)]
    | minus => rw [cons_append, dropWhile_cons_of_neg (by decide)]
  have hsign : scan_sign (sg ++ (d :: s')) = (neg, d :: s') := by
    cases hsg with
    | plain => rw [nil_append, scan_sign, if_neg hd.2.1, if_neg hd.2.2]
    | plus => rfl
    | minus => rfl
  unfold scan_number
  rw [hdrop, hsign]
  dsimp only
  rw [← hs', hmag]
  rfl

end

end Ton.Text
