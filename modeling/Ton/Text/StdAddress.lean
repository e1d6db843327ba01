import Ton.Text.ParseBlockId
/-!
# Addresses as text

`StdAddress` of `block.cpp`: an address is 36 bytes, two of them a checksum, and 48
characters of base64.
-/

namespace Ton.Text
open Shard List Option Nat
open UInt8 (ofNat)

def crc16_table : List Nat :=
  [0x0000, 0x1021, 0x2042, 0x3063, 0x4084, 0x50a5, 0x60c6, 0x70e7, 0x8108, 0x9129, 0xa14a, 0xb16b, 0xc18c, 0xd1ad, 0xe1ce, 0xf1ef,
    0x1231, 0x0210, 0x3273, 0x2252, 0x52b5, 0x4294, 0x72f7, 0x62d6, 0x9339, 0x8318, 0xb37b, 0xa35a, 0xd3bd, 0xc39c, 0xf3ff, 0xe3de,
    0x2462, 0x3443, 0x0420, 0x1401, 0x64e6, 0x74c7, 0x44a4, 0x5485, 0xa56a, 0xb54b, 0x8528, 0x9509, 0xe5ee, 0xf5cf, 0xc5ac, 0xd58d,
    0x3653, 0x2672, 0x1611, 0x0630, 0x76d7, 0x66f6, 0x5695, 0x46b4, 0xb75b, 0xa77a, 0x9719, 0x8738, 0xf7df, 0xe7fe, 0xd79d, 0xc7bc,
    0x48c4, 0x58e5, 0x6886, 0x78a7, 0x0840, 0x1861, 0x2802, 0x3823, 0xc9cc, 0xd9ed, 0xe98e, 0xf9af, 0x8948, 0x9969, 0xa90a, 0xb92b,
    0x5af5, 0x4ad4, 0x7ab7, 0x6a96, 0x1a71, 0x0a50, 0x3a33, 0x2a12, 0xdbfd, 0xcbdc, 0xfbbf, 0xeb9e, 0x9b79, 0x8b58, 0xbb3b, 0xab1a,
    0x6ca6, 0x7c87, 0x4ce4, 0x5cc5, 0x2c22, 0x3c03, 0x0c60, 0x1c41, 0xedae, 0xfd8f, 0xcdec, 0xddcd, 0xad2a, 0xbd0b, 0x8d68, 0x9d49,
    0x7e97, 0x6eb6, 0x5ed5, 0x4ef4, 0x3e13, 0x2e32, 0x1e51, 0x0e70, 0xff9f, 0xefbe, 0xdfdd, 0xcffc, 0xbf1b, 0xaf3a, 0x9f59, 0x8f78,
    0x9188, 0x81a9, 0xb1ca, 0xa1eb, 0xd10c, 0xc12d, 0xf14e, 0xe16f, 0x1080, 0x00a1, 0x30c2, 0x20e3, 0x5004, 0x4025, 0x7046, 0x6067,
    0x83b9, 0x9398, 0xa3fb, 0xb3da, 0xc33d, 0xd31c, 0xe37f, 0xf35e, 0x02b1, 0x1290, 0x22f3, 0x32d2, 0x4235, 0x5214, 0x6277, 0x7256,
    0xb5ea, 0xa5cb, 0x95a8, 0x8589, 0xf56e, 0xe54f, 0xd52c, 0xc50d, 0x34e2, 0x24c3, 0x14a0, 0x0481, 0x7466, 0x6447, 0x5424, 0x4405,
    0xa7db, 0xb7fa, 0x8799, 0x97b8, 0xe75f, 0xf77e, 0xc71d, 0xd73c, 0x26d3, 0x36f2, 0x0691, 0x16b0, 0x6657, 0x7676, 0x4615, 0x5634,
    0xd94c, 0xc96d, 0xf90e, 0xe92f, 0x99c8, 0x89e9, 0xb98a, 0xa9ab, 0x5844, 0x4865, 0x7806, 0x6827, 0x18c0, 0x08e1, 0x3882, 0x28a3,
    0xcb7d, 0xdb5c, 0xeb3f, 0xfb1e, 0x8bf9, 0x9bd8, 0xabbb, 0xbb9a, 0x4a75, 0x5a54, 0x6a37, 0x7a16, 0x0af1, 0x1ad0, 0x2ab3, 0x3a92,
    0xfd2e, 0xed0f, 0xdd6c, 0xcd4d, 0xbdaa, 0xad8b, 0x9de8, 0x8dc9, 0x7c26, 0x6c07, 0x5c64, 0x4c45, 0x3ca2, 0x2c83, 0x1ce0, 0x0cc1,
    0xef1f, 0xff3e, 0xcf5d, 0xdf7c, 0xaf9b, 0xbfba, 0x8fd9, 0x9ff8, 0x6e17, 0x7e36, 0x4e55, 0x5e74, 0x2e93, 0x3eb2, 0x0ed1, 0x1ef0]

/-- The checksum; `crc` has 32 bits. -/
def crc16 (data : Bytes) : Nat :=
  data.foldl (fun crc c => crc16_table.getD ((c.toNat ^^^ crc / 2 ^ 8) &&& 0xff) 0 ^^^ crc * 2 ^ 8 % 2 ^ 32) 0 % 2 ^ 16

structure StdAddress where
  workchain : WorkchainId
  bounceable : Bool
  testnet : Bool
  addr : Bits256

namespace StdAddress

def is_valid (a : StdAddress) : Prop := a.workchain ≠ workchainInvalid

def invalidate (a : StdAddress) : StdAddress := { a with workchain := workchainInvalid }

/-- The workchains that a byte can hold. -/
def Short (a : StdAddress) : Prop := -128 ≤ a.workchain.toInt ∧ a.workchain.toInt < 128

end StdAddress

def address_flags (bounceable testnet : Bool) : UInt8 := ofNat (0x51 - bounceable.toNat * 0x40 + testnet.toNat * 0x80)

/-- The bytes that the checksum is of. -/
def address_body (a : StdAddress) : Bytes :=
  address_flags a.bounceable a.testnet :: ofNat a.workchain.toNat :: List.ofFn a.addr

/-- `buffer` of `pack_std_smc_addr_to`. -/
def address_bytes (a : StdAddress) : Bytes :=
  let crc := crc16 (address_body a)
  address_body a ++ [ofNat (crc / 2 ^ 8), ofNat (crc &&& 0xff)]

/-- The 48 characters, `none` where it returns false; its `CHECK` would be `none` as well. -/
def pack_std_smc_addr_to (base64_url : Bool) (a : StdAddress) : Option Bytes :=
  if a.workchain.toInt < -128 ∨ a.workchain.toInt ≥ 128 then none
  else (buff_base64_encode 48 (address_bytes a) base64_url).filter (·.length = 48)

def rserialize (a : StdAddress) (base64_url : Bool) : Bytes := (pack_std_smc_addr_to base64_url a).getD []

/-- What `unpack_std_smc_addr` does with the bytes. -/
def unpack_bytes (buffer : Bytes) (a : StdAddress) : Bool × StdAddress :=
  let crc := crc16 (buffer.take 34)
  if buffer.getD 34 0 ≠ ofNat (crc / 2 ^ 8) ∨ buffer.getD 35 0 ≠ ofNat (crc &&& 0xff) then (false, a)
  else if buffer.getD 0 0 &&& 0x3f ≠ 0x11 then (false, a)
  else
    (true, {
      testnet := buffer.getD 0 0 &&& 0x80 ≠ 0
      bounceable := buffer.getD 0 0 &&& 0x40 = 0
      workchain := (buffer.getD 1 0).toBitVec.signExtend 32
      addr := fun i => buffer.getD (2 + i) 0 })

/-- Whether it succeeds, and the address it leaves. `junk` is what the buffer holds before, for the decoder may write
less than 36 bytes. -/
def unpack_std_smc_addr (junk : Fin 36 → UInt8) (packed : Bytes) (a : StdAddress) : Bool × StdAddress :=
  match buff_base64_decode 36 packed true with
  | none => (false, a.invalidate)
  | some out => unpack_bytes (out ++ (List.ofFn junk).drop out.length) a.invalidate

def rdeserialize (junk : Fin 36 → UInt8) (from_ : Bytes) (a : StdAddress) : Bool × StdAddress :=
  if from_.length = 48 then unpack_std_smc_addr junk from_ a else (false, a)

/-! ## The bytes that characters spell -/

/-- `-` for `+` and `_` for `/`. -/
def url_char (c : UInt8) : UInt8 := if c = ch '+' then ch '-' else if c = ch '/' then ch '_' else c

/-- The bytes of all groups, with the value that the table has for `=`. -/
def spell : Bytes → Bytes
  | a :: b :: c :: d :: rest => word_bytes (group_word a b c d) ++ spell rest
  | _ => []

/-- The letters of both alphabets. -/
def Letter (c : UInt8) : Prop := dec c &&& dec_mode true ≠ 0

instance (c : UInt8) : Decidable (Letter c) := by
  unfold Letter
  infer_instance

section
variable {mode : Nat} {c : UInt8} {s t : Bytes}

theorem legal_iff : Legal (dec_mode true) c ↔ Letter c ∨ c = ch '=' := by
  rw [Legal, dec_eq_one]
  rfl

theorem not_letter_pad : ¬Letter (ch '=') := not_not.2 (pad_not_letter true)

theorem url_char_letter (hl : Letter c) : base64_url_table.getD (dec c % 64) 0 = url_char c := by
  have hall : ∀ p ∈ base64_dec_table.zipIdx, p.1 &&& dec_mode true ≠ 0 →
      base64_url_table.getD (p.1 % 64) 0 = url_char (ofNat p.2) := by decide +kernel
  rcases dec_cases c with h0 | hmem
  · rw [Letter, h0] at hl
    exact absurd (zero_and _) hl
  · have h := hall _ hmem hl
    rwa [UInt8.ofNat_toNat] at h

theorem url_char_facts (c : UInt8) : (Letter (url_char c) ↔ Letter c) ∧ dec (url_char c) % 64 = dec c % 64 ∧
    (Letter c → base64_url_table.getD (dec c % 64) 0 = url_char c) := by
  refine ⟨?_, ?_, url_char_letter⟩
  · by_cases hplus : c = ch '+'
    · subst hplus
      decide
    by_cases hslash : c = ch '/'
    · subst hslash
      decide
    rw [url_char, if_neg hplus, if_neg hslash]
  · by_cases hplus : c = ch '+'
    · subst hplus
      decide
    by_cases hslash : c = ch '/'
    · subst hslash
      decide
    rw [url_char, if_neg hplus, if_neg hslash]

theorem spell_group (a b c d : UInt8) (rest : Bytes) : spell (a :: b :: c :: d :: rest) = word_bytes (group_word a b c d) ++ spell rest := rfl

theorem fours_induction {P : Bytes → Prop} (group : ∀ a b c d rest, P rest → P (a :: b :: c :: d :: rest)) (short : ∀ s, s.length < 4 → P s) :
    ∀ s, P s
  | a :: b :: c :: d :: rest => group a b c d rest (fours_induction group short rest)
  | [] => short [] (by simp)
  | [a] => short [a] (by simp)
  | [a, b] => short [a, b] (by simp)
  | [a, b, c] => short [a, b, c] (by simp)

theorem spell_short (h : s.length < 4) : spell s = [] := by
  rcases s with _ | ⟨a, _ | ⟨b, _ | ⟨c, _ | ⟨d, rest⟩⟩⟩⟩
  · rfl
  · rfl
  · rfl
  · rfl
  · simp only [length_cons] at h
    omega

theorem length_spell (h4 : s.length % 4 = 0) : (spell s).length = s.length / 4 * 3 := by
  induction s using fours_induction with
  | group a b c d rest ih =>
    simp only [length_cons] at h4
    rw [spell_group, length_append, ih (by omega)]
    simp only [word_bytes, length_cons, length_nil]
    omega
  | short s hlt =>
    rw [spell_short hlt, length_nil]
    omega

theorem spell_url (s : Bytes) : spell (s.map url_char) = spell s := by
  induction s using fours_induction with
  | group a b c d rest ih =>
    simp only [map_cons]
    rw [spell_group, spell_group, ih, group_word, group_word, (url_char_facts a).2.1, (url_char_facts b).2.1, (url_char_facts c).2.1,
      (url_char_facts d).2.1]
  | short s hlt =>
    rw [spell_short hlt, spell_short (by rwa [length_map])]

/-- The decoder writes what is spelled, but for as many bytes as there are paddings at the end. -/
theorem decode_loop_spell (hne : s ≠ []) (h4 : s.length % 4 = 0) (hl : ∀ c ∈ s, Legal mode c) :
    decode_loop mode (padding s) s = some ((spell s).take (s.length / 4 * 3 - padding s)) := by
  refine groups_induction (P := fun s => s ≠ [] → (∀ c ∈ s, Legal mode c) →
    decode_loop mode (padding s) s = some ((spell s).take (s.length / 4 * 3 - padding s))) (fun h => absurd rfl h) ?_ ?_ s h4 hne hl
  · intro a b c d _ hl
    simp only [forall_mem_cons] at hl
    rw [decode_loop_last, decode_group_some (fun _ => hl.1) (fun _ => hl.2.1) (fun _ => hl.2.2.1) (fun _ => hl.2.2.2.1)]
    simp [spell_group, spell_short]
  · intro a b c d rest hr hlen ih _ hl
    simp only [forall_mem_cons] at hl
    have hpos := length_pos_of_ne_nil hr
    have hle := padding_le rest
    have hq : padding (a :: b :: c :: d :: rest) = padding rest := padding_append [a, b, c, d] (by omega)
    have hsize : (a :: b :: c :: d :: rest).length / 4 * 3 - padding rest = 3 + (rest.length / 4 * 3 - padding rest) := by
      simp only [length_cons]
      omega
    rw [hq, decode_loop_cons hr, decode_group_some (fun _ => hl.1) (fun _ => hl.2.1) (fun _ => hl.2.2.1) (fun _ => hl.2.2.2.1),
      bind_some, ih hr hl.2.2.2.2, map_some, hsize, spell_group, take_append,
      take_of_length_le (show (word_bytes (group_word a b c d)).length ≤ _ by simp [word_bytes])]
    simp [word_bytes]

theorem group_word_lt (a b c d : UInt8) : group_word a b c d < 2 ^ 24 := by
  have ha := mod_lt (dec a) (show 0 < 64 by decide)
  have hb := mod_lt (dec b) (show 0 < 64 by decide)
  have hc := mod_lt (dec c) (show 0 < 64 by decide)
  have hd := mod_lt (dec d) (show 0 < 64 by decide)
  unfold group_word
  omega

theorem encode_spell (h4 : s.length % 4 = 0) (hl : ∀ c ∈ s, Letter c) : encode_all base64_url_table (spell s) = s.map url_char := by
  induction s using fours_induction with
  | group a b c d rest ih =>
    simp only [length_cons] at h4
    simp only [forall_mem_cons] at hl
    have hx := group_word_lt a b c d
    have htriple : triple (ofNat (group_word a b c d / 2 ^ 16)) (ofNat (group_word a b c d / 2 ^ 8))
        (ofNat (group_word a b c d)) = group_word a b c d := by
      simp only [triple, UInt8.toNat_ofNat']
      omega
    have hsextets : quad base64_url_table (group_word a b c d) = [a, b, c, d].map url_char := by
      have hall : ∀ {e : UInt8} {k : Nat}, Letter e → group_word a b c d / 2 ^ k % 64 = dec e % 64 →
          sextet base64_url_table (group_word a b c d) k = url_char e := by
        intro e k he h
        rw [sextet, h]
        exact (url_char_facts e).2.2 he
      rw [quad, hall hl.1 (by unfold group_word; omega), hall hl.2.1 (by unfold group_word; omega),
        hall hl.2.2.1 (by unfold group_word; omega), hall hl.2.2.2.1 (by unfold group_word; omega)]
      rfl
    rw [spell_group, word_bytes]
    simp only [cons_append, nil_append]
    rw [encode_all_cons, htriple, hsextets, ih (by omega) hl.2.2.2.2]
    rfl
  | short s hlt =>
    obtain rfl : s = [] := eq_nil_of_length_eq_zero (by omega)
    rfl

theorem encode_groups (url : Bool) (h3 : s.length % 3 = 0) :
    spell (encode_all (if url then base64_url_table else base64_table) s) = s ∧
      ∀ c ∈ encode_all (if url then base64_url_table else base64_table) s, Letter c := by
  induction s using encode_all.induct with
  | case1 a b c rest ih =>
    simp only [length_cons] at h3
    obtain ⟨h1, h2⟩ := ih (by omega)
    rw [encode_all_cons, quad]
    simp only [cons_append, nil_append, forall_mem_cons]
    refine ⟨?_, (dec_sextet url _ _).1, (dec_sextet url _ _).1, (dec_sextet url _ _).1, (dec_sextet url _ _).1, h2⟩
    rw [spell_group, group_word_sextets url _ (triple_lt a b c), word_bytes_triple, h1]
    rfl
  | case2 a b => simp at h3
  | case3 a => simp at h3
  | case4 => exact ⟨rfl, by simp⟩

end

/-! ## Addresses and their bytes -/

theorem address_flags_facts (b t : Bool) : address_flags b t &&& 0x3f = 0x11 ∧ decide (address_flags b t &&& 0x80 ≠ 0) = t ∧
    decide (address_flags b t &&& 0x40 = 0) = b := by
  cases b <;> cases t <;> decide

theorem address_flags_byte {x : UInt8} (h : x &&& 0x3f = 0x11) : address_flags (x &&& 0x40 = 0) (x &&& 0x80 ≠ 0) = x := by
  have hlow : x.toNat % 2 ^ 6 = 0x11 := by
    rw [← and_two_pow_sub_one_eq_mod]
    exact congrArg UInt8.toNat h
  have hlt := x.toNat_lt
  have hx : x = 0x11 ∨ x = 0x51 ∨ x = 0x91 ∨ x = 0xd1 := by
    simp only [← UInt8.toNat_inj, UInt8.reduceToNat]
    omega
  rcases hx with rfl | rfl | rfl | rfl
  · decide
  · decide
  · decide
  · decide

theorem workchain_byte (x : UInt8) : (-128 ≤ (x.toBitVec.signExtend 32).toInt ∧ (x.toBitVec.signExtend 32).toInt < 128) ∧
    ofNat (x.toBitVec.signExtend 32).toNat = x := by
  have hext : (x.toBitVec.signExtend 32).toInt = x.toBitVec.toInt := BitVec.toInt_signExtend_of_le (by decide)
  have hlt := x.toBitVec.isLt
  have hlt' := (x.toBitVec.signExtend 32).isLt
  have h1 := BitVec.toInt_eq_toNat_cond x.toBitVec
  have h2 := BitVec.toInt_eq_toNat_cond (x.toBitVec.signExtend 32)
  constructor
  · omega
  · rw [← UInt8.toNat_inj, UInt8.toNat_ofNat', ← UInt8.toNat_toBitVec]
    omega

section
variable {a r b : StdAddress} {s buffer : Bytes} {junk : Fin 36 → UInt8} {url : Bool}

theorem StdAddress.Short.byte (h : a.Short) : (ofNat a.workchain.toNat).toBitVec.signExtend 32 = a.workchain := by
  obtain ⟨h1, h2⟩ := h
  have hbyte : (ofNat a.workchain.toNat).toBitVec = a.workchain.setWidth 8 := by
    apply BitVec.eq_of_toNat_eq
    simp
  apply BitVec.eq_of_toInt_eq
  rw [hbyte, BitVec.toInt_signExtend_of_le (by decide), BitVec.toInt_setWidth]
  have hn := BitVec.toInt_eq_toNat_bmod a.workchain
  simp only [Int.bmod_def] at hn ⊢
  omega

theorem length_address_body (a : StdAddress) : (address_body a).length = 34 := by simp [address_body]

theorem length_address_bytes (a : StdAddress) : (address_bytes a).length = 36 := by simp [address_bytes, length_address_body]

theorem unpack_address_bytes (hs : r.Short) (a : StdAddress) : unpack_bytes (address_bytes r) a = (true, r) := by
  obtain ⟨f1, f2, f3⟩ := address_flags_facts r.bounceable r.testnet
  have hlen := length_address_body r
  have htake : (address_bytes r).take 34 = address_body r := take_left' hlen
  have h34 : ∀ i, (address_bytes r).getD (34 + i) 0 =
      [ofNat (crc16 (address_body r) / 2 ^ 8), ofNat (crc16 (address_body r) &&& 0xff)].getD i 0 := by
    intro i
    rw [address_bytes, getD_append_right _ _ _ _ (by omega), hlen, Nat.add_sub_cancel_left]
  have hbody : ∀ i < 34, (address_bytes r).getD i 0 = (address_body r).getD i 0 := fun i hi =>
    getD_append _ _ _ _ (by omega)
  have haddr : ∀ i : Fin 32, (address_bytes r).getD (2 + i) 0 = r.addr i := by
    intro i
    rw [hbody _ (by omega), address_body, Nat.add_comm, getD_cons_succ, getD_cons_succ,
      getD_eq_getElem _ _ (by rw [length_ofFn]; exact i.isLt), List.getElem_ofFn]
  unfold unpack_bytes
  dsimp only
  rw [htake, h34 0, h34 1, if_neg (by simp), hbody 0 (by decide), hbody 1 (by decide)]
  simp only [haddr]
  simp only [address_body, getD_cons_zero, getD_cons_succ]
  rw [if_neg (not_not.2 f1), f2, f3, hs.byte]

theorem unpack_bytes_some (hlen : buffer.length = 36) (h : unpack_bytes buffer a = (true, r)) : r.Short ∧ buffer = address_bytes r := by
  obtain ⟨b0, b1, mid, hi, lo, rfl, hmid⟩ : ∃ b0 b1 mid hi lo, buffer = b0 :: b1 :: (mid ++ [hi, lo]) ∧ mid.length = 32 := by
    match buffer, hlen with
    | b0 :: b1 :: rest, hlen =>
      simp only [length_cons] at hlen
      obtain ⟨hi, lo, htail⟩ := length_eq_two.1 (show (rest.drop 32).length = 2 by rw [length_drop]; omega)
      refine ⟨b0, b1, rest.take 32, hi, lo, ?_, by rw [length_take]; omega⟩
      rw [← htail, take_append_drop]
  have htake : (b0 :: b1 :: (mid ++ [hi, lo])).take 34 = b0 :: b1 :: mid := by
    rw [take_succ_cons, take_succ_cons, take_left' hmid]
  have h34 : (b0 :: b1 :: (mid ++ [hi, lo])).getD 34 0 = hi := by
    rw [getD_cons_succ, getD_cons_succ, getD_append_right _ _ _ _ (by omega), hmid]
    rfl
  have h35 : (b0 :: b1 :: (mid ++ [hi, lo])).getD 35 0 = lo := by
    rw [getD_cons_succ, getD_cons_succ, getD_append_right _ _ _ _ (by omega), hmid]
    rfl
  unfold unpack_bytes at h
  dsimp only at h
  rw [htake, h34, h35] at h
  split at h
  · cases h
  next hcrc =>
  rw [not_or, not_not, not_not] at hcrc
  split at h
  · cases h
  next htag =>
  rw [not_not] at htag
  obtain rfl := (Prod.mk.inj h).2
  obtain ⟨hshort, hbyte⟩ := workchain_byte b1
  refine ⟨hshort, ?_⟩
  have haddr : (List.ofFn fun i : Fin 32 => (b0 :: b1 :: (mid ++ [hi, lo])).getD (2 + i) 0) = mid := by
    apply ext_getElem
    · simp [hmid]
    · intro i h1 h2
      rw [List.getElem_ofFn, Nat.add_comm, getD_cons_succ, getD_cons_succ, getD_append _ _ _ _ h2,
        getD_eq_getElem _ _ h2]
  unfold address_bytes address_body
  dsimp only
  rw [getD_cons_zero] at htag
  rw [haddr, getD_cons_zero, getD_cons_succ, getD_cons_zero, address_flags_byte htag, hbyte, ← hcrc.1, ← hcrc.2]
  rfl

/-- `rdeserialize` takes 48 characters of the table, if the bytes they spell, and what the buffer holds in place of
those that they do not, are the bytes of an address. -/
theorem rdeserialize_iff : rdeserialize junk s b = (true, r) ↔ s.length = 48 ∧ (∀ c ∈ s, Legal (dec_mode true) c) ∧ r.Short ∧
    (spell s).take (36 - padding s) ++ (List.ofFn junk).drop (36 - padding s) = address_bytes r := by
  unfold rdeserialize
  by_cases hlen : s.length = 48
  swap
  · rw [if_neg hlen]
    exact iff_of_false (by simp) fun h => hlen h.1
  have hne : s ≠ [] := ne_nil_of_length_pos (by omega)
  have hle := padding_le s
  rw [if_pos hlen, unpack_std_smc_addr, buff_base64_decode_eq hne (by omega) (by omega)]
  by_cases hl : ∀ c ∈ s, Legal (dec_mode true) c
  swap
  · have hnone : decode_loop (dec_mode true) (padding s) s = none := by
      rw [← not_isSome_iff_eq_none, (decode_loop_spec (by omega) hne).1]
      exact hl
    rw [hnone]
    exact iff_of_false (by simp) fun h => hl h.2.1
  have hspell := length_spell (s := s) (by omega)
  have hout : ((spell s).take (36 - padding s)).length = 36 - padding s := by
    rw [length_take]
    omega
  rw [decode_loop_spell hne (by omega) hl, hlen]
  dsimp only
  rw [show 48 / 4 * 3 = 36 by decide, hout]
  constructor
  · intro h
    obtain ⟨h1, h2⟩ := unpack_bytes_some (by rw [length_append, hout, length_drop, length_ofFn]; omega) h
    exact ⟨rfl, hl, h1, h2⟩
  · rintro ⟨-, -, h1, h2⟩
    rw [h2]
    exact unpack_address_bytes h1 _

theorem rserialize_eq (hs : a.Short) : rserialize a url = encode_all (if url then base64_url_table else base64_table) (address_bytes a) := by
  have hlen := length_address_bytes a
  have hall := length_encode_all (if url then base64_url_table else base64_table) (address_bytes a)
  rw [hlen] at hall
  rw [rserialize, pack_std_smc_addr_to, if_neg (by unfold StdAddress.Short at hs; omega),
    buff_base64_encode_eq (by omega) (by omega) (by rw [hlen]; decide), filter_some, if_pos (by simp [hall, compute_base64_encoded_size])]
  rfl

theorem length_rserialize (hs : a.Short) : (rserialize a url).length = 48 := by
  rw [rserialize_eq hs, length_encode_all, length_address_bytes]
  rfl

/-- The texts of an address, in letters of both alphabets. -/
def AddressText (s : Bytes) (a : StdAddress) : Prop := a.Short ∧ s.map url_char = rserialize a true

theorem address_text_iff : AddressText s a ↔ s.length = 48 ∧ (∀ c ∈ s, Letter c) ∧ a.Short ∧ spell s = address_bytes a := by
  have h3 : (address_bytes a).length % 3 = 0 := by rw [length_address_bytes]
  obtain ⟨g1, g2⟩ := encode_groups true h3
  constructor
  · rintro ⟨hs, h⟩
    have hlen := @length_rserialize a true hs
    rw [← h, length_map] at hlen
    rw [rserialize_eq hs] at h
    rw [← h] at g1 g2
    refine ⟨hlen, fun c hc => (url_char_facts c).1.1 (g2 _ (List.mem_map_of_mem hc)), hs, ?_⟩
    rw [← g1, spell_url]
  · rintro ⟨hlen, hl, hs, h⟩
    refine ⟨hs, ?_⟩
    rw [rserialize_eq hs, ← h, ← encode_spell (by omega) hl]
    rfl

theorem not_mem_pad_of_letters (hl : ∀ c ∈ s, Letter c) : ch '=' ∉ s := fun h => not_letter_pad (hl _ h)

theorem padding_of_not_mem (h : ch '=' ∉ s) (hne : s ≠ []) : padding s = 0 := by
  have hpos := length_pos_of_ne_nil hne
  apply if_neg
  intro hlast
  rw [getD_eq_getElem _ _ (by omega)] at hlast
  exact h (by rw [← hlast]; exact getElem_mem _)

/-- Without a padding, the texts of addresses are taken and no others, whatever the buffer held. -/
theorem rdeserialize_text (hpad : ch '=' ∉ s) : rdeserialize junk s b = (true, r) ↔ AddressText s r := by
  rw [rdeserialize_iff, address_text_iff]
  apply and_congr_right
  intro hlen
  have hne : s ≠ [] := ne_nil_of_length_pos (by omega)
  have hspell := length_spell (s := s) (by omega)
  have hdrop : (List.ofFn junk).drop 36 = [] := drop_of_length_le (by simp)
  rw [padding_of_not_mem hpad hne, Nat.sub_zero, take_of_length_le (by omega), hdrop, append_nil]
  apply and_congr_left'
  exact forall₂_congr fun c hc => legal_iff.trans (or_iff_left fun h => hpad (by rwa [← h]))

theorem AddressText.not_mem_pad (h : AddressText s a) : ch '=' ∉ s := not_mem_pad_of_letters (address_text_iff.1 h).2.1

theorem rdeserialize_rserialize (hs : a.Short) (url : Bool) (junk : Fin 36 → UInt8) (b : StdAddress) :
    rdeserialize junk (rserialize a url) b = (true, a) := by
  have hlen := length_address_bytes a
  obtain ⟨h1, h2⟩ := encode_groups url (show (address_bytes a).length % 3 = 0 by rw [hlen])
  rw [← rserialize_eq hs] at h1 h2
  rw [rdeserialize_text (not_mem_pad_of_letters h2), address_text_iff]
  exact ⟨length_rserialize hs, h2, hs, h1⟩

/-- A text with paddings that is read as an address: `=` counts as `B`, and the bytes in the place of the paddings at
the end are not read. -/
def Misread (s : Bytes) : Prop :=
  s.length = 48 ∧ ch '=' ∈ s ∧ (∀ c ∈ s, Letter c ∨ c = ch '=') ∧
    ∃ a : StdAddress, a.Short ∧ (spell s).take (36 - padding s) = (address_bytes a).take (36 - padding s)

/-- The texts with paddings that some buffer makes `rdeserialize` take. -/
theorem misread_iff (hpad : ch '=' ∈ s) : Misread s ↔ ∃ junk r, rdeserialize junk s b = (true, r) := by
  have hle := padding_le s
  constructor
  · rintro ⟨hlen, -, hl, a, hs, ha⟩
    refine ⟨fun i => (address_bytes a).getD i 0, a, rdeserialize_iff.2 ⟨hlen, fun c hc => legal_iff.2 (hl c hc), hs, ?_⟩⟩
    have hjunk : (List.ofFn fun i : Fin 36 => (address_bytes a).getD i 0) = address_bytes a := by
      apply ext_getElem
      · simp [length_address_bytes]
      · intro i h1 h2
        rw [List.getElem_ofFn, getD_eq_getElem _ _ h2]
    rw [hjunk, ha, take_append_drop]
  · rintro ⟨junk, r, h⟩
    obtain ⟨hlen, hl, hs, h⟩ := rdeserialize_iff.1 h
    have hspell := length_spell (s := s) (by omega)
    refine ⟨hlen, hpad, fun c hc => legal_iff.1 (hl c hc), r, hs, ?_⟩
    rw [← h, take_left' (by rw [length_take]; omega)]

end

end Ton.Text
