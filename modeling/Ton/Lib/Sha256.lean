import Ton.Lib.BigEndian
/-!
# SHA-256 as FIPS 180-4 defines it

Functions of section 4.1.2, constants of 4.2.2 and 5.3.3, padding of 5.1.1 and
the computation of 6.2.2, on messages of whole bytes. `hashWords_of_three_blocks`
is the form a precomputed first block and two more give.
-/

namespace Sha256
open BigEndian BitVec

abbrev Word := BitVec 32

def Ch (x y z : Word) : Word := (x &&& y) ^^^ (~~~x &&& z)
def Maj (x y z : Word) : Word := (x &&& y) ^^^ (x &&& z) ^^^ (y &&& z)
def bigSigma0 (x : Word) : Word := x.rotateRight 2 ^^^ x.rotateRight 13 ^^^ x.rotateRight 22
def bigSigma1 (x : Word) : Word := x.rotateRight 6 ^^^ x.rotateRight 11 ^^^ x.rotateRight 25
def sigma0 (x : Word) : Word := x.rotateRight 7 ^^^ x.rotateRight 18 ^^^ (x >>> 3)
def sigma1 (x : Word) : Word := x.rotateRight 17 ^^^ x.rotateRight 19 ^^^ (x >>> 10)

/-- The first 32 bits of the fractional parts of the cube roots of the first 64 primes. -/
def K : List Word := [
  0x428a2f98, 0x71374491, 0xb5c0fbcf, 0xe9b5dba5, 0x3956c25b, 0x59f111f1, 0x923f82a4, 0xab1c5ed5,
  0xd807aa98, 0x12835b01, 0x243185be, 0x550c7dc3, 0x72be5d74, 0x80deb1fe, 0x9bdc06a7, 0xc19bf174,
  0xe49b69c1, 0xefbe4786, 0x0fc19dc6, 0x240ca1cc, 0x2de92c6f, 0x4a7484aa, 0x5cb0a9dc, 0x76f988da,
  0x983e5152, 0xa831c66d, 0xb00327c8, 0xbf597fc7, 0xc6e00bf3, 0xd5a79147, 0x06ca6351, 0x14292967,
  0x27b70a85, 0x2e1b2138, 0x4d2c6dfc, 0x53380d13, 0x650a7354, 0x766a0abb, 0x81c2c92e, 0x92722c85,
  0xa2bfe8a1, 0xa81a664b, 0xc24b8b70, 0xc76c51a3, 0xd192e819, 0xd6990624, 0xf40e3585, 0x106aa070,
  0x19a4c116, 0x1e376c08, 0x2748774c, 0x34b0bcb5, 0x391c0cb3, 0x4ed8aa4a, 0x5b9cca4f, 0x682e6ff3,
  0x748f82ee, 0x78a5636f, 0x84c87814, 0x8cc70208, 0x90befffa, 0xa4506ceb, 0xbef9a3f7, 0xc67178f2]

/-- The first 32 bits of the fractional parts of the square roots of the first 8 primes. -/
def H0 : Vector Word 8 :=
  #v[0x6a09e667, 0xbb67ae85, 0x3c6ef372, 0xa54ff53a, 0x510e527f, 0x9b05688c, 0x1f83d9ab, 0x5be0cd19]

/-- The words `W 0 .. W (15 + k)` of the message schedule. -/
def schedule (M : List Word) : Nat → List Word
  | 0 => M
  | k + 1 =>
    let W := schedule M k
    let t := 16 + k
    W ++ [sigma1 (W.getD (t - 2) 0) + W.getD (t - 7) 0 + sigma0 (W.getD (t - 15) 0) + W.getD (t - 16) 0]

/-- The eight working variables. -/
structure Vars where
  (a b c d e f g h : Word)

/-- Step 3 of 6.2.2, for the constant `k` and the schedule word `w`. -/
def Vars.round (v : Vars) (k w : Word) : Vars :=
  let T1 := v.h + bigSigma1 v.e + Ch v.e v.f v.g + k + w
  let T2 := bigSigma0 v.a + Maj v.a v.b v.c
  ⟨T1 + T2, v.a, v.b, v.c, v.d + T1, v.e, v.f, v.g⟩

/-- Step 2 of 6.2.2. -/
def Vars.ofHash (H : Vector Word 8) : Vars := ⟨H[0]!, H[1]!, H[2]!, H[3]!, H[4]!, H[5]!, H[6]!, H[7]!⟩

/-- Step 4 of 6.2.2. -/
def Vars.addTo (H : Vector Word 8) (v : Vars) : Vector Word 8 :=
  #v[v.a + H[0]!, v.b + H[1]!, v.c + H[2]!, v.d + H[3]!, v.e + H[4]!, v.f + H[5]!, v.g + H[6]!, v.h + H[7]!]

/-- The next hash value from `H` and the message block `M`. -/
def compress (H : Vector Word 8) (M : List Word) : Vector Word 8 :=
  Vars.addTo H ((List.range 64).foldl (fun v t => v.round (K.getD t 0) ((schedule M 48).getD t 0)) (Vars.ofHash H))

/-- The padded message: a one bit, zeros, and the length in bits as 64 bits. -/
def pad (m : List Byte) : List Byte :=
  m ++ [0x80] ++ List.replicate ((119 - m.length % 64) % 64) 0 ++ toBytes 8 (8 * m.length)

/-- The word of four bytes, most significant first. -/
def word (a b c d : Byte) : Word := a ++ b ++ c ++ d

/-- The big-endian word at byte `i`. -/
def wordAt (p : List Byte) (i : Nat) : Word :=
  word (byteAt p i) (byteAt p (i + 1)) (byteAt p (i + 2)) (byteAt p (i + 3))

/-- The sixteen words of the `i`th 512-bit block. -/
def block (p : List Byte) (i : Nat) : List Word := (List.range 16).map fun t => wordAt p (64 * i + 4 * t)

/-- A word as four bytes. -/
def wordBytes (w : Word) : List Byte :=
  [w.extractLsb' 24 8, w.extractLsb' 16 8, w.extractLsb' 8 8, w.extractLsb' 0 8]

/-- A hash value as 32 bytes. -/
def digest (H : Vector Word 8) : List Byte := H.toList.flatMap wordBytes

/-- The final hash value of a message. -/
def hashWords (m : List Byte) : Vector Word 8 :=
  (List.range ((pad m).length / 64)).foldl (fun H i => compress H (block (pad m) i)) H0

/-- The message digest. -/
def sha256 (m : List Byte) : List Byte := digest (hashWords m)

/-! ## Lengths -/

theorem pad_length (m : List Byte) : (pad m).length = m.length + 9 + (119 - m.length % 64) % 64 := by
  simp [pad]; omega

@[simp] theorem digest_length (H : Vector Word 8) : (digest H).length = 32 := by
  have h : ∀ l : List Word, (l.flatMap wordBytes).length = 4 * l.length := by
    intro l
    induction l with
    | nil => rfl
    | cons w l ih => simp only [List.flatMap_cons, List.length_append, ih]; simp [wordBytes]; omega
  rw [digest, h]; simp

@[simp] theorem sha256_length (m : List Byte) : (sha256 m).length = 32 := digest_length _

/-! ## Words and their bytes -/

theorem getLsbD_word (a b c d : Byte) (i : Nat) :
    (word a b c d).getLsbD i =
      if i < 8 then d.getLsbD i else if i < 16 then c.getLsbD (i - 8)
      else if i < 24 then b.getLsbD (i - 16) else a.getLsbD (i - 24) := by
  have h : (word a b c d).getLsbD i = (a ++ b ++ c ++ d : BitVec (8 + 8 + 8 + 8)).getLsbD i := rfl
  rw [h, getLsbD_append, getLsbD_append, getLsbD_append]
  grind

theorem getElem_word (a b c d : Byte) (i : Nat) (hi : i < 32) :
    (word a b c d)[i] =
      if i < 8 then d.getLsbD i else if i < 16 then c.getLsbD (i - 8)
      else if i < 24 then b.getLsbD (i - 16) else a.getLsbD (i - 24) := by
  rw [← getLsbD_eq_getElem, getLsbD_word]

theorem ofBytes_wordBytes (w : Word) : ofBytes (wordBytes w) = w.toNat := by
  have := w.isLt
  simp only [wordBytes, ofBytes, List.foldl_cons, List.foldl_nil, extractLsb'_toNat, Nat.shiftRight_eq_div_pow]
  omega

/-- A message of 119 to 127 bytes takes the two blocks of its own bytes and a
third that holds only its length. -/
theorem hashWords_of_three_blocks (m : List Byte) (h : 120 ≤ m.length) (h' : m.length < 128) :
    hashWords m = compress (compress (compress H0 (block (pad m) 0)) (block (pad m) 1)) (block (pad m) 2) := by
  have hl : (pad m).length / 64 = 3 := by rw [pad_length]; omega
  rw [hashWords, hl]
  rfl

end Sha256
