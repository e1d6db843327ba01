import Mathlib.Data.List.GetD
import Mathlib.Data.List.TakeWhile
import Mathlib.Data.UInt
import Mathlib.Tactic.Ring
/-!
# Base64

`util.cpp`: the coding of bytes in both alphabets. `x << k` and `x | y` of the words
of one group are products and sums here, and `x >> k & m` a quotient and a remainder.
-/

namespace Ton.Text
open List Option

abbrev Bytes := List UInt8

def ch (c : Char) : UInt8 := UInt8.ofNat c.toNat

/-- The characters that both alphabets have. -/
def base64_common : Bytes :=
  ['A', 'B', 'C', 'D', 'E', 'F', 'G', 'H', 'I', 'J', 'K', 'L', 'M', 'N', 'O', 'P', 'Q', 'R', 'S', 'T', 'U', 'V', 'W', 'X', 'Y', 'Z',
    'a', 'b', 'c', 'd', 'e', 'f', 'g', 'h', 'i', 'j', 'k', 'l', 'm', 'n', 'o', 'p', 'q', 'r', 's', 't', 'u', 'v', 'w', 'x', 'y', 'z',
    '0', '1', '2', '3', '4', '5', '6', '7', '8', '9'].map ch

def base64_table : Bytes := base64_common ++ ['+', '/'].map ch

def base64_url_table : Bytes := base64_common ++ ['-', '_'].map ch

/-- The entries that the source writes; the rest of the 256 are zero. -/
def base64_dec_table : List Nat :=
  [0,    0,    0,    0,    0,    0,    0,    0,    0,    0,    0,    0,    0,    0,    0,    0,    0,    0,    0,
    0,    0,    0,    0,    0,    0,    0,    0,    0,    0,    0,    0,    0,    0,    0,    0,    0,    0,    0,
    0,    0,    0,    0,    0,    0x7e, 0,    0xbe, 0,    0x7f, 0xf4, 0xf5, 0xf6, 0xf7, 0xf8, 0xf9, 0xfa, 0xfb, 0xfc,
    0xfd, 0,    0,    0,    1,    0,    0,    0,    0xc0, 0xc1, 0xc2, 0xc3, 0xc4, 0xc5, 0xc6, 0xc7, 0xc8, 0xc9, 0xca,
    0xcb, 0xcc, 0xcd, 0xce, 0xcf, 0xd0, 0xd1, 0xd2, 0xd3, 0xd4, 0xd5, 0xd6, 0xd7, 0xd8, 0xd9, 0,    0,    0,    0,
    0xbf, 0,    0xda, 0xdb, 0xdc, 0xdd, 0xde, 0xdf, 0xe0, 0xe1, 0xe2, 0xe3, 0xe4, 0xe5, 0xe6, 0xe7, 0xe8, 0xe9, 0xea,
    0xeb, 0xec, 0xed, 0xee, 0xef, 0xf0, 0xf1, 0xf2, 0xf3, 0,    0,    0,    0,    0]

def dec (c : UInt8) : Nat := base64_dec_table.getD c.toNat 0

def compute_base64_encoded_size (bindata_size : Nat) : Nat := (bindata_size + 2) / 3 * 4

/-- `table[(x >> k) & 0x3f]`. -/
def sextet (table : Bytes) (x k : Nat) : UInt8 := table.getD (x / 2 ^ k % 64) 0

/-- The word of three bytes. -/
def triple (a b c : UInt8) : Nat := a.toNat * 2 ^ 16 + b.toNat * 2 ^ 8 + c.toNat

def quad (table : Bytes) (x : Nat) : Bytes := [sextet table x 18, sextet table x 12, sextet table x 6, sextet table x 0]

/-- The loop of `buff_base64_encode` from the byte `i`, which `rest` starts with: what is written, the `i` it ends
with and the bytes from there. It reads past the end of the input where it is `none`. -/
def encode_loop (table : Bytes) (bound : Nat) : Nat → Bytes → Option (Bytes × Nat × Bytes)
  | i, a :: b :: c :: rest =>
    if i < bound then (encode_loop table bound (i + 3) rest).map fun r => (quad table (triple a b c) ++ r.1, r.2)
    else some ([], i, a :: b :: c :: rest)
  | i, rest => if i < bound then none else some ([], i, rest)

/-- The `switch` after the loop. -/
def encode_tail (table : Bytes) (left : Nat) (rest : Bytes) : Bytes :=
  match left, rest with
  | 1, a :: _ => (quad table (triple a 0 0)).take 2 ++ [ch '=', ch '=']
  | 2, a :: b :: _ => (quad table (triple a b 0)).take 3 ++ [ch '=']
  | _, _ => []

/-- `buff_base64_encode` into a buffer of that size: what it writes, `some []` where it returns 0. It touches bytes
that are not its own, or fails its `CHECK`, where it is `none`. -/
def buff_base64_encode (buffer_size : Nat) (raw : Bytes) (base64_url : Bool) : Option Bytes :=
  let orig_size := raw.length
  let res_size := compute_base64_encoded_size orig_size
  if res_size > buffer_size then some []
  else
    let table := if base64_url then base64_url_table else base64_table
    -- `orig_size - 2` is unsigned
    match encode_loop table ((orig_size + 2 ^ 64 - 2) % 2 ^ 64) 0 raw with
    | none => none
    | some (out, i, rest) =>
      let out := out ++ encode_tail table (orig_size - i) rest
      if out.length = res_size then some out else none

def str_base64_encode (raw : Bytes) (base64_url : Bool) : Option Bytes :=
  let res_size := compute_base64_encoded_size raw.length
  if res_size ≠ 0 then buff_base64_encode res_size raw base64_url else some []

/-- Which entries of the table are letters: `0xc0` takes both alphabets. -/
def dec_mode (allow_base64_url : Bool) : Nat := if allow_base64_url then 0xc0 else 0x40

def is_valid_base64 (encoded : Bytes) (allow_base64_url : Bool) : Bool :=
  if encoded.length % 4 ≠ 0 then false
  else
    let rest := encoded.dropWhile fun c => dec c &&& dec_mode allow_base64_url ≠ 0
    if rest.length > 2 then false else (rest.dropWhile (· == ch '=')).isEmpty

/-- How many of the last two characters are `=`. -/
def padding (encoded : Bytes) : Nat :=
  if encoded.getD (encoded.length - 1) 0 = ch '=' then (if encoded.getD (encoded.length - 2) 0 = ch '=' then 2 else 1) else 0

def decoded_base64_size (encoded : Bytes) : Int :=
  if encoded.length % 4 ≠ 0 then -1
  else if encoded.length > 2 ^ 31 - 1 then -1
  else if encoded.length = 0 then 0
  else encoded.length / 4 * 3 - padding encoded

/-- One character of a group; those in the place of a padding are not checked. -/
def decode_char (mode : Nat) (checked : Bool) (x : Nat) (c : UInt8) : Option Nat :=
  let z := dec c
  if z &&& mode = 0 ∧ z ≠ 1 ∧ checked then none else some (x * 64 + z % 64)

def decode_group (mode : Nat) (checked : Nat → Bool) (a b c d : UInt8) : Option Nat := do
  let x ← decode_char mode (checked 0) 0 a
  let x ← decode_char mode (checked 1) x b
  let x ← decode_char mode (checked 2) x c
  decode_char mode (checked 3) x d

/-- The bytes of a word. -/
def word_bytes (x : Nat) : Bytes := [UInt8.ofNat (x / 2 ^ 16), UInt8.ofNat (x / 2 ^ 8), UInt8.ofNat x]

def decode_loop (mode q : Nat) : Bytes → Option Bytes
  | a :: b :: c :: d :: rest =>
    if rest ≠ [] then do
      let x ← decode_group mode (fun _ => true) a b c d
      let out ← decode_loop mode q rest
      some (word_bytes x ++ out)
    else (decode_group mode (fun j => j + q < 4) a b c d).map fun x => (word_bytes x).take (3 - q)
  | _ => some []

/-- `buff_base64_decode` into a buffer of that size: what it writes, `none` where it returns 0. -/
def buff_base64_decode (buffer_size : Nat) (encoded : Bytes) (allow_base64_url : Bool) : Option Bytes :=
  if encoded.length % 4 ≠ 0 ∨ encoded.length = 0 then none
  else
    let n := encoded.length / 4
    let q := padding encoded
    if buffer_size + q < n * 3 then none else decode_loop (dec_mode allow_base64_url) q encoded

def str_base64_decode (encoded : Bytes) (allow_base64_url : Bool) : Bytes :=
  let s := decoded_base64_size encoded
  if s ≤ 0 then [] else (buff_base64_decode s.toNat encoded allow_base64_url).getD []

/-! ## What is encoded is decoded -/

/-- A character that the mode takes, or a padding. -/
def Legal (mode : Nat) (c : UInt8) : Prop := dec c &&& mode ≠ 0 ∨ dec c = 1

instance (mode : Nat) (c : UInt8) : Decidable (Legal mode c) := by
  unfold Legal
  infer_instance

theorem dec_cases (c : UInt8) : dec c = 0 ∨ (dec c, c.toNat) ∈ base64_dec_table.zipIdx := by
  rw [mk_mem_zipIdx_iff_getElem?, dec, getD_eq_getElem?_getD]
  cases base64_dec_table[c.toNat]? with
  | none => exact .inl rfl
  | some d => exact .inr rfl

set_option maxRecDepth 4000 in
theorem dec_eq_one {c : UInt8} : dec c = 1 ↔ c = ch '=' := by
  have hall : ∀ p ∈ base64_dec_table.zipIdx, p.1 = 1 → p.2 = (ch '=').toNat := by decide
  constructor
  · intro h
    rcases dec_cases c with h0 | hmem
    · rw [h] at h0
      cases h0
    · exact UInt8.toNat_inj.1 (hall _ hmem h)
  · rintro rfl
    decide

theorem dec_pad : dec (ch '=') = 1 := dec_eq_one.2 rfl

theorem pad_not_letter (allow : Bool) : dec (ch '=') &&& dec_mode allow = 0 := by cases allow <;> decide

theorem dec_table (url : Bool) {v : Nat} (hv : v < 64) :
    dec ((if url then base64_url_table else base64_table).getD v 0) &&& dec_mode true ≠ 0 ∧
      dec ((if url then base64_url_table else base64_table).getD v 0) % 64 = v := by
  have h : ∀ (url : Bool) (v : Fin 64), dec ((if url then base64_url_table else base64_table).getD v 0) &&& dec_mode true ≠ 0 ∧
      dec ((if url then base64_url_table else base64_table).getD v 0) % 64 = v := by decide +kernel
  exact h url ⟨v, hv⟩

theorem dec_sextet (url : Bool) (x k : Nat) :
    dec (sextet (if url then base64_url_table else base64_table) x k) &&& dec_mode true ≠ 0 ∧
      dec (sextet (if url then base64_url_table else base64_table) x k) % 64 = x / 2 ^ k % 64 :=
  dec_table url (Nat.mod_lt _ (by decide))

theorem sextet_ne_pad (url : Bool) (x k : Nat) : sextet (if url then base64_url_table else base64_table) x k ≠ ch '=' := by
  intro h
  have hl := (dec_sextet url x k).1
  rw [h, pad_not_letter] at hl
  exact hl rfl

section
variable {mode x : Nat} {c : UInt8} {checked : Bool}

theorem decode_char_some (h : checked = true → Legal mode c) : decode_char mode checked x c = some (x * 64 + dec c % 64) := by
  apply if_neg
  rintro ⟨h1, h2, h3⟩
  rcases h h3 with h | h
  · exact h h1
  · exact h2 h

theorem decode_char_isSome : (decode_char mode checked x c).isSome ↔ (checked = true → Legal mode c) := by
  constructor
  · intro h hc
    by_contra hl
    rw [Legal, not_or, not_not] at hl
    rw [decode_char, if_pos ⟨hl.1, hl.2, hc⟩] at h
    exact absurd h (by simp)
  · intro h
    rw [decode_char_some h]
    rfl

end

theorem decode_group_isSome {mode : Nat} {checked : Nat → Bool} {a b c d : UInt8} : (decode_group mode checked a b c d).isSome ↔
    (checked 0 = true → Legal mode a) ∧ (checked 1 = true → Legal mode b) ∧ (checked 2 = true → Legal mode c) ∧
      (checked 3 = true → Legal mode d) := by
  have hnone : ∀ {k : Bool} {x : Nat} {e : UInt8}, ¬(k = true → Legal mode e) → decode_char mode k x e = none := by
    intro k x e h
    rwa [← decode_char_isSome (x := x), not_isSome_iff_eq_none] at h
  unfold decode_group
  by_cases ha : checked 0 = true → Legal mode a
  · rw [decode_char_some ha, bind_eq_bind, bind_some]
    by_cases hb : checked 1 = true → Legal mode b
    · rw [decode_char_some hb, bind_some]
      by_cases hc : checked 2 = true → Legal mode c
      · rw [decode_char_some hc, bind_some, decode_char_isSome]
        exact ⟨fun h => ⟨ha, hb, hc, h⟩, fun h => h.2.2.2⟩
      · rw [hnone hc]
        exact iff_of_false (by simp) fun h => hc h.2.2.1
    · rw [hnone hb]
      exact iff_of_false (by simp) fun h => hb h.2.1
  · rw [hnone ha]
    exact iff_of_false (by simp) fun h => ha h.1

/-- The word of four characters. -/
def group_word (a b c d : UInt8) : Nat := ((dec a % 64 * 64 + dec b % 64) * 64 + dec c % 64) * 64 + dec d % 64

theorem decode_group_some {mode : Nat} {checked : Nat → Bool} {a b c d : UInt8} (ha : checked 0 = true → Legal mode a)
    (hb : checked 1 = true → Legal mode b) (hc : checked 2 = true → Legal mode c) (hd : checked 3 = true → Legal mode d) :
    decode_group mode checked a b c d = some (group_word a b c d) := by
  unfold decode_group
  rw [decode_char_some ha, bind_eq_bind, bind_some, decode_char_some hb, bind_some,
    decode_char_some hc, bind_some, decode_char_some hd, group_word, zero_mul, zero_add]

/-! ## The groups of the encoded bytes -/

def encode_all (table : Bytes) : Bytes → Bytes
  | a :: b :: c :: rest => quad table (triple a b c) ++ encode_all table rest
  | [a, b] => encode_tail table 2 [a, b]
  | [a] => encode_tail table 1 [a]
  | [] => []

@[simp] theorem encode_all_nil (table : Bytes) : encode_all table [] = [] := rfl

theorem encode_all_cons (table : Bytes) (a b c : UInt8) (rest : Bytes) :
    encode_all table (a :: b :: c :: rest) = quad table (triple a b c) ++ encode_all table rest := rfl

theorem length_encode_all (table s : Bytes) : (encode_all table s).length = compute_base64_encoded_size s.length := by
  induction s using encode_all.induct with
  | case1 a b c rest ih =>
    rw [encode_all_cons, length_append, ih]
    simp only [quad, compute_base64_encoded_size, length_cons, length_nil]
    omega
  | case2 a b => simp [encode_all, encode_tail, quad, compute_base64_encoded_size]
  | case3 a => simp [encode_all, encode_tail, quad, compute_base64_encoded_size]
  | case4 => simp [compute_base64_encoded_size]

theorem encode_loop_spec (table : Bytes) {n i : Nat} {rest : Bytes} (hn : 2 ≤ n) (hi : i + rest.length = n) :
    ∃ out j left, encode_loop table (n - 2) i rest = some (out, j, left) ∧
      out ++ encode_tail table (n - j) left = encode_all table rest := by
  induction rest using encode_all.induct generalizing i with
  | case1 a b c rest ih =>
    simp only [length_cons] at hi
    obtain ⟨out, j, left, h1, h2⟩ := ih (i := i + 3) (by omega)
    refine ⟨quad table (triple a b c) ++ out, j, left, ?_, ?_⟩
    · rw [encode_loop, if_pos (by omega), h1]
      rfl
    · rw [append_assoc, h2, encode_all_cons]
  | case2 a b =>
    simp only [length_cons, length_nil] at hi
    refine ⟨[], i, [a, b], ?_, ?_⟩
    · rw [encode_loop, if_neg (by omega)]
      simp
    · rw [show n - i = 2 by omega, encode_all]
      rfl
  | case3 a =>
    simp only [length_cons, length_nil] at hi
    refine ⟨[], i, [a], ?_, ?_⟩
    · rw [encode_loop, if_neg (by omega)]
      simp
    · rw [show n - i = 1 by omega, encode_all]
      rfl
  | case4 =>
    simp only [length_nil] at hi
    refine ⟨[], i, [], ?_, ?_⟩
    · rw [encode_loop, if_neg (by omega)]
      simp
    · rw [show n - i = 0 by omega]
      rfl

section
variable {n : Nat} {s : Bytes} {url : Bool}

theorem buff_base64_encode_eq (h2 : 2 ≤ s.length) (h64 : s.length < 2 ^ 64) (hn : compute_base64_encoded_size s.length ≤ n) :
    buff_base64_encode n s url = some (encode_all (if url then base64_url_table else base64_table) s) := by
  obtain ⟨out, j, left, h1, h3⟩ := encode_loop_spec (if url then base64_url_table else base64_table) h2 (zero_add s.length)
  unfold buff_base64_encode
  dsimp only
  rw [if_neg hn.not_gt, show (s.length + 2 ^ 64 - 2) % 2 ^ 64 = s.length - 2 by omega, h1]
  dsimp only
  rw [h3, if_pos (length_encode_all _ s)]

/-- The bound of the loop wraps around, and it goes past the end of the input. -/
theorem buff_base64_encode_none (h2 : s.length < 2) (hn : compute_base64_encoded_size s.length ≤ n) : buff_base64_encode n s url = none := by
  unfold buff_base64_encode
  dsimp only
  rw [if_neg hn.not_gt]
  match s, h2 with
  | [], _ => simp [encode_loop]
  | [a], _ => simp [encode_loop]

end

theorem padding_append (u : Bytes) {v : Bytes} (hv : 2 ≤ v.length) : padding (u ++ v) = padding v := by
  unfold padding
  rw [length_append, getD_append_right _ _ _ _ (by omega), getD_append_right _ _ _ _ (by omega),
    show u.length + v.length - 1 - u.length = v.length - 1 by omega, show u.length + v.length - 2 - u.length = v.length - 2 by omega]

theorem padding_quad (url : Bool) (x : Nat) : padding (quad (if url then base64_url_table else base64_table) x) = 0 :=
  if_neg (sextet_ne_pad url x 0)

theorem padding_encode_all (url : Bool) {s : Bytes} (hs : s ≠ []) :
    padding (encode_all (if url then base64_url_table else base64_table) s) = (3 - s.length % 3) % 3 := by
  induction s using encode_all.induct with
  | case1 a b c rest ih =>
    rw [encode_all_cons]
    by_cases hr : rest = []
    · subst hr
      rw [encode_all, append_nil, padding_quad]
      simp
    · have hlen := length_encode_all (if url then base64_url_table else base64_table) rest
      have hpos := length_pos_of_ne_nil hr
      unfold compute_base64_encoded_size at hlen
      rw [padding_append _ (by omega), ih hr]
      simp only [length_cons]
      omega
  | case2 a b =>
    have hne := sextet_ne_pad url (triple a b 0) 6
    simp [encode_all, encode_tail, padding, quad, hne]
  | case3 a => simp [encode_all, encode_tail, padding, quad]
  | case4 => exact absurd rfl hs

theorem word_bytes_triple (a b c : UInt8) : word_bytes (triple a b c) = [a, b, c] := by
  have ha := a.toNat_lt
  have hb := b.toNat_lt
  have hc := c.toNat_lt
  have hof : ∀ {n : Nat} {u : UInt8}, n % 256 = u.toNat → UInt8.ofNat n = u := by
    intro n u h
    apply UInt8.toNat_inj.1
    rw [UInt8.toNat_ofNat']
    exact h
  unfold word_bytes triple
  rw [hof (u := a) (by omega), hof (u := b) (by omega), hof (u := c) (by omega)]

section
variable {mode q : Nat} {a b c d : UInt8} {rest t : Bytes}

theorem group_word_sextets (url : Bool) (x : Nat) (hx : x < 2 ^ 24) :
    group_word (sextet (if url then base64_url_table else base64_table) x 18) (sextet (if url then base64_url_table else base64_table) x 12)
      (sextet (if url then base64_url_table else base64_table) x 6) (sextet (if url then base64_url_table else base64_table) x 0) = x := by
  unfold group_word
  rw [(dec_sextet url x 18).2, (dec_sextet url x 12).2, (dec_sextet url x 6).2, (dec_sextet url x 0).2]
  omega

theorem decode_loop_cons (hr : rest ≠ []) : decode_loop mode q (a :: b :: c :: d :: rest) =
    (decode_group mode (fun _ => true) a b c d).bind fun x => (decode_loop mode q rest).map (word_bytes x ++ ·) := by
  rw [decode_loop, if_pos hr]
  cases decode_group mode (fun _ => true) a b c d with
  | none => rfl
  | some x =>
    cases hrest : decode_loop mode q rest with
    | none => simp
    | some out => simp

theorem decode_loop_last : decode_loop mode q [a, b, c, d] =
    (decode_group mode (fun j => j + q < 4) a b c d).map fun x => (word_bytes x).take (3 - q) := by
  rw [decode_loop, if_neg (by simp)]

theorem triple_lt (a b c : UInt8) : triple a b c < 2 ^ 24 := by
  have ha := a.toNat_lt
  have hb := b.toNat_lt
  have hc := c.toNat_lt
  unfold triple
  omega

theorem decode_encode_all (url : Bool) {s : Bytes} (hs : s ≠ []) (hq : q = (3 - s.length % 3) % 3) :
    decode_loop (dec_mode true) q (encode_all (if url then base64_url_table else base64_table) s) = some s := by
  have hlegal : ∀ x k, Legal (dec_mode true) (sextet (if url then base64_url_table else base64_table) x k) := fun x k =>
    .inl (dec_sextet url x k).1
  have hgroup : ∀ (checked : Nat → Bool) (a b c : UInt8), decode_group (dec_mode true) checked
      (sextet (if url then base64_url_table else base64_table) (triple a b c) 18)
      (sextet (if url then base64_url_table else base64_table) (triple a b c) 12)
      (sextet (if url then base64_url_table else base64_table) (triple a b c) 6)
      (sextet (if url then base64_url_table else base64_table) (triple a b c) 0) = some (triple a b c) := by
    intro checked a b c
    rw [decode_group_some (fun _ => hlegal _ _) (fun _ => hlegal _ _) (fun _ => hlegal _ _) (fun _ => hlegal _ _),
      group_word_sextets url _ (triple_lt a b c)]
  induction s using encode_all.induct with
  | case1 a b c rest ih =>
    rw [encode_all_cons, quad, cons_append, cons_append, cons_append, cons_append, nil_append]
    by_cases hr : rest = []
    · subst hr
      rw [encode_all, decode_loop_last, hgroup, hq, map_some, word_bytes_triple]
      simp
    · have hne : encode_all (if url then base64_url_table else base64_table) rest ≠ [] := by
        rw [← length_pos_iff, length_encode_all]
        have := length_pos_of_ne_nil hr
        unfold compute_base64_encoded_size
        omega
      rw [decode_loop_cons hne, hgroup, ih hr (by simp only [length_cons] at hq; omega), bind_some, map_some,
        word_bytes_triple]
      rfl
  | case2 a b =>
    -- the last character is a padding
    simp only [length_cons, length_nil] at hq
    have hpad : Legal (dec_mode true) (ch '=') := .inr dec_pad
    have hb := word_bytes_triple a b 0
    have hx := triple_lt a b 0
    have hword : group_word (sextet (if url then base64_url_table else base64_table) (triple a b 0) 18)
        (sextet (if url then base64_url_table else base64_table) (triple a b 0) 12)
        (sextet (if url then base64_url_table else base64_table) (triple a b 0) 6) (ch '=') = triple a b 1 := by
      unfold group_word
      rw [(dec_sextet url _ 18).2, (dec_sextet url _ 12).2, (dec_sextet url _ 6).2, dec_pad]
      have h0 : (0 : UInt8).toNat = 0 := rfl
      have h1 : (1 : UInt8).toNat = 1 := rfl
      unfold triple at *
      omega
    rw [encode_all, encode_tail, quad, take_succ_cons, take_succ_cons, take_succ_cons, take_zero]
    simp only [cons_append, nil_append]
    rw [decode_loop_last, decode_group_some (fun _ => hlegal _ _) (fun _ => hlegal _ _) (fun _ => hlegal _ _) (fun _ => hpad), hword, hq,
      map_some, word_bytes_triple]
    rfl
  | case3 a =>
    simp only [length_cons, length_nil] at hq
    have hpad : Legal (dec_mode true) (ch '=') := .inr dec_pad
    have hx := triple_lt a 0 0
    have hword : group_word (sextet (if url then base64_url_table else base64_table) (triple a 0 0) 18)
        (sextet (if url then base64_url_table else base64_table) (triple a 0 0) 12) (ch '=') (ch '=') = triple a 0 65 := by
      unfold group_word
      rw [(dec_sextet url _ 18).2, (dec_sextet url _ 12).2, dec_pad]
      have h0 : (0 : UInt8).toNat = 0 := rfl
      have h1 : (65 : UInt8).toNat = 65 := rfl
      unfold triple at *
      omega
    rw [encode_all, encode_tail, quad, take_succ_cons, take_succ_cons, take_zero]
    simp only [cons_append, nil_append]
    rw [decode_loop_last, decode_group_some (fun _ => hlegal _ _) (fun _ => hlegal _ _) (fun _ => hpad) (fun _ => hpad), hword, hq,
      map_some, word_bytes_triple]
    rfl
  | case4 => exact absurd rfl hs

/-! ## What is decoded -/

theorem padding_le (t : Bytes) : padding t ≤ 2 := by
  unfold padding
  split_ifs <;> omega

theorem padding_last : (padding [a, b, c, d] ≥ 1 → d = ch '=') ∧ (padding [a, b, c, d] ≥ 2 → c = ch '=') := by
  unfold padding
  simp only [length_cons, length_nil, Nat.reduceAdd, Nat.reduceSub, getD_cons_succ, getD_cons_zero]
  split_ifs with h1 h2
  · exact ⟨fun _ => h1, fun _ => h2⟩
  · exact ⟨fun _ => h1, fun h => absurd h (by decide)⟩
  · exact ⟨fun h => absurd h (by decide), fun h => absurd h (by decide)⟩

theorem groups_induction {P : Bytes → Prop} (hnil : P []) (hlast : ∀ a b c d, P [a, b, c, d])
    (hcons : ∀ a b c d rest, rest ≠ [] → rest.length % 4 = 0 → P rest → P (a :: b :: c :: d :: rest)) :
    ∀ t : Bytes, t.length % 4 = 0 → P t
  | [], _ => hnil
  | a :: b :: c :: d :: rest, h => by
    have hlen : rest.length % 4 = 0 := by
      simp only [length_cons] at h
      omega
    by_cases hr : rest = []
    · subst hr
      exact hlast a b c d
    · exact hcons a b c d rest hr hlen (groups_induction hnil hlast hcons rest hlen)
  | [_], h => absurd h (by simp)
  | [_, _], h => absurd h (by simp)
  | [_, _, _], h => absurd h (by simp)

theorem decode_loop_spec (ht : t.length % 4 = 0) : t ≠ [] → ((decode_loop mode (padding t) t).isSome ↔ ∀ c ∈ t, Legal mode c) ∧
    ∀ out, decode_loop mode (padding t) t = some out → out.length + padding t = t.length / 4 * 3 := by
  refine groups_induction (P := fun t => t ≠ [] → ((decode_loop mode (padding t) t).isSome ↔ ∀ c ∈ t, Legal mode c) ∧
    ∀ out, decode_loop mode (padding t) t = some out → out.length + padding t = t.length / 4 * 3) (fun h => absurd rfl h) ?_ ?_ t ht
  · intro a b c d _
    obtain ⟨h1, h2⟩ := padding_last (a := a) (b := b) (c := c) (d := d)
    have hq := padding_le [a, b, c, d]
    have hpad : Legal mode (ch '=') := .inr dec_pad
    rw [decode_loop_last]
    constructor
    · rw [isSome_map, decode_group_isSome]
      simp only [decide_eq_true_eq, forall_mem_cons, not_mem_nil, false_imp_iff, implies_true, and_true]
      constructor
      · rintro ⟨ha, hb, hc, hd⟩
        refine ⟨ha (by omega), hb (by omega), ?_, ?_⟩
        · by_cases hlt : 2 + padding [a, b, c, d] < 4
          · exact hc hlt
          · rw [h2 (by omega)]
            exact hpad
        · by_cases hlt : 3 + padding [a, b, c, d] < 4
          · exact hd hlt
          · rw [h1 (by omega)]
            exact hpad
      · exact fun ⟨ha, hb, hc, hd⟩ => ⟨fun _ => ha, fun _ => hb, fun _ => hc, fun _ => hd⟩
    · intro out h
      obtain ⟨x, -, rfl⟩ := map_eq_some_iff.1 h
      simp only [word_bytes, length_take, length_cons, length_nil]
      omega
  · intro a b c d rest hr hlen ih _
    obtain ⟨h1, h2⟩ := ih hr
    have hpos := length_pos_of_ne_nil hr
    have hq : padding (a :: b :: c :: d :: rest) = padding rest := padding_append [a, b, c, d] (by omega)
    rw [hq, decode_loop_cons hr]
    constructor
    · have hgroup := @decode_group_isSome mode (fun _ => true) a b c d
      simp only [true_imp_iff] at hgroup
      simp only [forall_mem_cons, ← h1]
      cases hg : decode_group mode (fun _ => true) a b c d with
      | none =>
        rw [hg] at hgroup
        refine iff_of_false (by simp) fun h => ?_
        exact absurd (hgroup.2 ⟨h.1, h.2.1, h.2.2.1, h.2.2.2.1⟩) (by simp)
      | some x =>
        rw [hg] at hgroup
        obtain ⟨ha, hb, hc, hd⟩ := hgroup.1 rfl
        rw [bind_some, isSome_map]
        exact ⟨fun h => ⟨ha, hb, hc, hd, h⟩, fun h => h.2.2.2.2⟩
    · intro out h
      obtain ⟨x, -, h⟩ := bind_eq_some_iff.1 h
      obtain ⟨out', h', rfl⟩ := map_eq_some_iff.1 h
      have := h2 out' h'
      simp only [word_bytes, length_append, length_cons, length_nil]
      omega

end

/-- At most two paddings, and those at the end. -/
def Padded (t : Bytes) : Prop := ∃ u k, t = u ++ List.replicate k (ch '=') ∧ k ≤ 2 ∧ ch '=' ∉ u

theorem is_valid_base64_iff {t : Bytes} {allow : Bool} : is_valid_base64 t allow = true ↔
    t.length % 4 = 0 ∧ (∀ c ∈ t, Legal (dec_mode allow) c) ∧ Padded t := by
  unfold is_valid_base64
  by_cases hlen : t.length % 4 = 0
  swap
  · rw [if_pos hlen]
    exact iff_of_false (by simp) fun h => hlen h.1
  rw [if_neg (not_not.2 hlen)]
  dsimp only
  constructor
  · intro h
    split at h
    · cases h
    · next hle =>
      have hsplit := takeWhile_append_dropWhile (p := fun c => decide (dec c &&& dec_mode allow ≠ 0)) (l := t)
      have hletter : ∀ c ∈ t.takeWhile fun c => decide (dec c &&& dec_mode allow ≠ 0), dec c &&& dec_mode allow ≠ 0 := by
        intro c hc
        simpa using mem_takeWhile_imp hc
      have hpads : ∀ c ∈ t.dropWhile fun c => decide (dec c &&& dec_mode allow ≠ 0), c = ch '=' := by
        intro c hc
        have := dropWhile_eq_nil_iff.1 (List.isEmpty_iff.1 h) c hc
        simpa using this
      have hrep := eq_replicate_of_mem hpads
      refine ⟨hlen, ?_, _, _, (hsplit.symm.trans (congrArg _ hrep)), not_lt.1 hle, fun hm => hletter _ hm (pad_not_letter allow)⟩
      intro c hc
      rw [← hsplit, mem_append] at hc
      rcases hc with hc | hc
      · exact .inl (hletter c hc)
      · rw [hpads c hc]
        exact .inr dec_pad
  · rintro ⟨-, hl, u, k, rfl, hk, hu⟩
    have hletter : ∀ c ∈ u, decide (dec c &&& dec_mode allow ≠ 0) = true := by
      intro c hc
      rcases hl c (mem_append_left _ hc) with h | h
      · exact decide_eq_true h
      · exact absurd (dec_eq_one.1 h ▸ hc) hu
    have hdrop : (List.replicate k (ch '=')).dropWhile (fun c => decide (dec c &&& dec_mode allow ≠ 0)) = List.replicate k (ch '=') := by
      cases k with
      | zero => rfl
      | succ k => simp [replicate_succ, pad_not_letter]
    rw [dropWhile_append_of_pos hletter, hdrop, length_replicate, if_neg hk.not_gt]
    simp

/-! ## Where the coding is exact -/

/-- What is encoded is decoded again. -/
def EncodeExact (s : Bytes) (url : Bool) : Prop := (str_base64_encode s url).map (str_base64_decode · true) = some s

/-- The valid strings are decoded, into as many bytes as was announced. -/
def DecodeExact (n : Nat) (t : Bytes) (allow : Bool) : Prop :=
  ((∃ out, buff_base64_decode n t allow = some out ∧ out.length ≠ 0) ↔ t ≠ [] ∧ is_valid_base64 t allow = true) ∧
    ∀ out, buff_base64_decode n t allow = some out → (out.length : Int) = decoded_base64_size t

section
variable {n : Nat} {s t : Bytes} {url allow : Bool}

theorem decoded_base64_size_eq (hne : t ≠ []) (h4 : t.length % 4 = 0) (hsmall : t.length < 2 ^ 31) :
    decoded_base64_size t = t.length / 4 * 3 - padding t := by
  have hpos := length_pos_of_ne_nil hne
  unfold decoded_base64_size
  rw [if_neg (not_not.2 h4), if_neg (show ¬t.length > 2 ^ 31 - 1 by omega), if_neg hpos.ne']

theorem decoded_base64_size_large (h4 : t.length % 4 = 0) (hlarge : 2 ^ 31 ≤ t.length) : decoded_base64_size t = -1 := by
  unfold decoded_base64_size
  rw [if_neg (not_not.2 h4), if_pos (show t.length > 2 ^ 31 - 1 by omega)]

theorem buff_base64_decode_eq (hne : t ≠ []) (h4 : t.length % 4 = 0) (hn : t.length / 4 * 3 ≤ n + padding t) :
    buff_base64_decode n t allow = decode_loop (dec_mode allow) (padding t) t := by
  have hpos := length_pos_of_ne_nil hne
  unfold buff_base64_decode
  rw [if_neg (show ¬(t.length % 4 ≠ 0 ∨ t.length = 0) by omega)]
  dsimp only
  rw [if_neg (by omega)]

theorem length_buff_base64_encode (hn : compute_base64_encoded_size s.length ≤ n) (h : buff_base64_encode n s url = some t) :
    t.length = compute_base64_encoded_size s.length := by
  unfold buff_base64_encode at h
  dsimp only at h
  rw [if_neg hn.not_gt] at h
  generalize (if url then base64_url_table else base64_table) = table at h
  split at h
  · cases h
  · split at h
    · next hlen =>
      cases h
      exact hlen
    · cases h

theorem str_base64_encode_eq (hs : s ≠ []) : str_base64_encode s url = buff_base64_encode (compute_base64_encoded_size s.length) s url := by
  have hpos := length_pos_of_ne_nil hs
  unfold str_base64_encode
  dsimp only
  rw [if_pos]
  unfold compute_base64_encoded_size
  omega

theorem encode_exact_iff : EncodeExact s url ↔ s.length ≠ 1 ∧ s.length < 3 * 2 ^ 29 - 2 := by
  unfold EncodeExact
  by_cases hnil : s = []
  · subst hnil
    exact iff_of_true rfl (by decide)
  have hpos := length_pos_of_ne_nil hnil
  rw [str_base64_encode_eq hnil]
  by_cases h1 : s.length = 1
  · rw [buff_base64_encode_none (by omega) le_rfl]
    exact iff_of_false (by simp) fun h => h.1 h1
  by_cases hlarge : s.length < 3 * 2 ^ 29 - 2
  · refine iff_of_true ?_ ⟨h1, hlarge⟩
    rw [buff_base64_encode_eq (by omega) (by omega) le_rfl, map_some, some_inj]
    have hlen := length_encode_all (if url then base64_url_table else base64_table) s
    have hpad := padding_encode_all url hnil
    have hdec := decode_encode_all url hnil rfl
    rw [← hpad] at hdec
    generalize encode_all (if url then base64_url_table else base64_table) s = t at *
    unfold compute_base64_encoded_size at hlen
    have hne : t ≠ [] := ne_nil_of_length_pos (by omega)
    have hsize := decoded_base64_size_eq hne (by omega) (by omega)
    have hle := padding_le t
    unfold str_base64_decode
    dsimp only
    rw [if_neg (by omega), buff_base64_decode_eq hne (by omega) (by omega), hdec]
    rfl
  · refine iff_of_false ?_ fun h => hlarge h.2
    -- the decoder takes no more than 2 ^ 31 - 1 characters
    cases ht : buff_base64_encode (compute_base64_encoded_size s.length) s url with
    | none => simp
    | some t =>
      have hlen := length_buff_base64_encode le_rfl ht
      unfold compute_base64_encoded_size at hlen
      have hsize := decoded_base64_size_large (t := t) (by omega) (by omega)
      rw [map_some, some_inj, str_base64_decode, hsize, if_pos (by decide)]
      exact fun h => hnil h.symm

theorem decode_exact_iff (hn : t.length / 4 * 3 ≤ n) : DecodeExact n t allow ↔
    ¬(t ≠ [] ∧ t.length % 4 = 0 ∧ (∀ c ∈ t, Legal (dec_mode allow) c) ∧ (¬Padded t ∨ 2 ^ 31 ≤ t.length)) := by
  unfold DecodeExact
  by_cases hsized : t ≠ [] ∧ t.length % 4 = 0
  swap
  · have hnone : buff_base64_decode n t allow = none := by
      apply if_pos
      rw [not_and_or, not_not] at hsized
      rcases hsized with rfl | h
      · exact .inr rfl
      · exact .inl h
    rw [hnone, is_valid_base64_iff]
    simp only [reduceCtorEq, false_and, exists_false, false_iff, false_imp_iff, implies_true, and_true]
    exact iff_of_true (fun h => hsized ⟨h.1, h.2.1⟩) fun h => hsized ⟨h.1, h.2.1⟩
  obtain ⟨hne, h4⟩ := hsized
  have hpos := length_pos_of_ne_nil hne
  have hle := padding_le t
  obtain ⟨hsome, hlen⟩ := @decode_loop_spec (dec_mode allow) _ h4 hne
  rw [buff_base64_decode_eq hne h4 (by omega), is_valid_base64_iff]
  cases hd : decode_loop (dec_mode allow) (padding t) t with
  | none =>
    rw [hd] at hsome
    have hl : ¬∀ c ∈ t, Legal (dec_mode allow) c := fun h => absurd (hsome.2 h) (by simp)
    simp [hl]
  | some out =>
    have hl : ∀ c ∈ t, Legal (dec_mode allow) c := hsome.1 (by rw [hd]; rfl)
    have hout := hlen out hd
    have hex : (∃ out', some out = some out' ∧ out'.length ≠ 0) ↔ True := iff_of_true ⟨out, rfl, by omega⟩ trivial
    rw [hex]
    by_cases hp : Padded t
    · have hvalid : (True ↔ t ≠ [] ∧ t.length % 4 = 0 ∧ (∀ c ∈ t, Legal (dec_mode allow) c) ∧ Padded t) := by
        exact iff_of_true trivial ⟨hne, h4, hl, hp⟩
      by_cases hsmall : t.length < 2 ^ 31
      · refine iff_of_true ⟨hvalid, fun o ho => ?_⟩ fun h => ?_
        · cases ho
          rw [decoded_base64_size_eq hne h4 hsmall]
          omega
        · rcases h.2.2.2 with h | h
          · exact h hp
          · omega
      · refine iff_of_false (fun h => ?_) fun h => h ⟨hne, h4, hl, .inr (not_lt.1 hsmall)⟩
        have := h.2 out rfl
        rw [decoded_base64_size_large h4 (not_lt.1 hsmall)] at this
        omega
    · refine iff_of_false (fun h => ?_) fun h => h ⟨hne, h4, hl, .inl hp⟩
      exact hp (h.1.1 trivial).2.2.2

end

/-- The encoder reads past inputs of fewer than two bytes, and the decoder takes paddings in the middle. -/
theorem base64_exact_iff (url : Bool) :
    (∀ s, EncodeExact s url ↔ s.length ≠ 1 ∧ s.length < 3 * 2 ^ 29 - 2) ∧
      (∀ s n, s.length < 2 ^ 64 → compute_base64_encoded_size s.length ≤ n → (buff_base64_encode n s url ≠ none ↔ 2 ≤ s.length)) ∧
      ∀ t n, t.length / 4 * 3 ≤ n → (DecodeExact n t url ↔
        ¬(t ≠ [] ∧ t.length % 4 = 0 ∧ (∀ c ∈ t, Legal (dec_mode url) c) ∧ (¬Padded t ∨ 2 ^ 31 ≤ t.length))) := by
  refine ⟨fun _ => encode_exact_iff, fun s n h64 hn => ?_, fun _ _ => decode_exact_iff⟩
  by_cases h2 : 2 ≤ s.length
  · rw [buff_base64_encode_eq h2 h64 hn]
    exact iff_of_true (by simp) h2
  · rw [buff_base64_encode_none (by omega) hn]
    exact iff_of_false (fun h => h rfl) h2

/-- A string of one byte, and a padding before three letters. -/
theorem base64_not_exact : str_base64_encode [0] false = none ∧ buff_base64_decode 3 (['=', 'A', 'A', 'A'].map ch) true = some [4, 0, 0] ∧
    is_valid_base64 (['=', 'A', 'A', 'A'].map ch) true = false := by
  decide +kernel

end Ton.Text
