import Ton.Miner.HData
import Mathlib
/-!
# The GPU search

`cruncher.h`: the host packs the message into words (`bitcredit_prepare_msg`),
each GPU thread hashes one nonce (`bitcredit_gpu_hash`). `cuda_credits.cu` has
the same functions once more, the host part as `bitcredit_setBlockTarget`.
Words are read from memory as a little-endian host reads them.
-/

namespace Ton.Miner

open BigEndian Sha256

abbrev vec8u := Vector U32 8
/-- Sixteen words. -/
abbrev vec16u := List U32

def MAX_GPU_THREADS : Nat := 16

def ROTRIGHT (a : U32) (b : Nat) : U32 := (a >>> b) ||| (a <<< (32 - b))
def CH (x y z : U32) : U32 := (x &&& y) ^^^ (~~~x &&& z)
def MAJ (x y z : U32) : U32 := (x &&& y) ^^^ (x &&& z) ^^^ (y &&& z)
def EP0 (x : U32) : U32 := ROTRIGHT x 2 ^^^ ROTRIGHT x 13 ^^^ ROTRIGHT x 22
def EP1 (x : U32) : U32 := ROTRIGHT x 6 ^^^ ROTRIGHT x 11 ^^^ ROTRIGHT x 25
def SIG0 (x : U32) : U32 := ROTRIGHT x 7 ^^^ ROTRIGHT x 18 ^^^ (x >>> 3)
def SIG1 (x : U32) : U32 := ROTRIGHT x 17 ^^^ ROTRIGHT x 19 ^^^ (x >>> 10)

def ksha : List U32 := [
  0x428A2F98, 0x71374491, 0xB5C0FBCF, 0xE9B5DBA5, 0x3956C25B, 0x59F111F1, 0x923F82A4, 0xAB1C5ED5,
  0xD807AA98, 0x12835B01, 0x243185BE, 0x550C7DC3, 0x72BE5D74, 0x80DEB1FE, 0x9BDC06A7, 0xC19BF174,
  0xE49B69C1, 0xEFBE4786, 0x0FC19DC6, 0x240CA1CC, 0x2DE92C6F, 0x4A7484AA, 0x5CB0A9DC, 0x76F988DA,
  0x983E5152, 0xA831C66D, 0xB00327C8, 0xBF597FC7, 0xC6E00BF3, 0xD5A79147, 0x06CA6351, 0x14292967,
  0x27B70A85, 0x2E1B2138, 0x4D2C6DFC, 0x53380D13, 0x650A7354, 0x766A0ABB, 0x81C2C92E, 0x92722C85,
  0xA2BFE8A1, 0xA81A664B, 0xC24B8B70, 0xC76C51A3, 0xD192E819, 0xD6990624, 0xF40E3585, 0x106AA070,
  0x19A4C116, 0x1E376C08, 0x2748774C, 0x34B0BCB5, 0x391C0CB3, 0x4ED8AA4A, 0x5B9CCA4F, 0x682E6FF3,
  0x748F82EE, 0x78A5636F, 0x84C87814, 0x8CC70208, 0x90BEFFFA, 0xA4506CEB, 0xBEF9A3F7, 0xC67178F2]

/-- The array `m`, filled up to index `15 + k`. -/
def fill (data : vec16u) : Nat → List U32
  | 0 => data
  | k + 1 =>
    let m := fill data k
    let i := 16 + k
    m ++ [SIG1 (m.getD (i - 2) 0) + m.getD (i - 7) 0 + SIG0 (m.getD (i - 15) 0) + m.getD (i - 16) 0]

/-- Turn `i` of the transform's loop over `a .. h`. -/
def transform_round (m : List U32) (v : Vars) (i : Nat) : Vars :=
  let t1 := v.h + EP1 v.e + CH v.e v.f v.g + ksha.getD i 0 + m.getD i 0
  let t2 := EP0 v.a + MAJ v.a v.b v.c
  { h := v.g, g := v.f, f := v.e, e := v.d + t1, d := v.c, c := v.b, b := v.a, a := t1 + t2 }

/-- The transform's last lines. -/
def transform_end (state : vec8u) (v : Vars) : vec8u :=
  #v[state[0] + v.a, state[1] + v.b, state[2] + v.c, state[3] + v.d,
    state[4] + v.e, state[5] + v.f, state[6] + v.g, state[7] + v.h]

def sha256_transform (data : vec16u) (state : vec8u) : vec8u :=
  let m := fill data 48
  transform_end state ((List.range 64).foldl (transform_round m)
    ⟨state[0], state[1], state[2], state[3], state[4], state[5], state[6], state[7]⟩)

def h256 : vec8u :=
  #v[0x6A09E667, 0xBB67AE85, 0x3C6EF372, 0xA54FF53A, 0x510E527F, 0x9B05688C, 0x1F83D9AB, 0x5BE0CD19]

/-- The word in memory that holds the bytes `p0 p1 p2 p3`. -/
def le32 (p0 p1 p2 p3 : Byte) : U32 := word p3 p2 p1 p0

/-- `*(const uint32_t *)(p + offs)`. -/
def load32 (p : List Byte) (offs : Nat) : U32 :=
  le32 (byteAt p offs) (byteAt p (offs + 1)) (byteAt p (offs + 2)) (byteAt p (offs + 3))

/-- The word that `bitcredit_be32enc` (`be32enc` in the CUDA copy) leaves at `pp`. -/
def bitcredit_be32enc (x : U32) : U32 :=
  le32 (((x >>> 24) &&& 0xff).setWidth 8) (((x >>> 16) &&& 0xff).setWidth 8) (((x >>> 8) &&& 0xff).setWidth 8)
    ((x &&& 0xff).setWidth 8)

structure ThreadData where
  state : vec8u
  /-- Nine words. -/
  rdata : List U32

structure MsgData where
  /-- Three words. -/
  pseed : List U32
  /-- The entries the host fills; the rest of the array stays uninitialised. -/
  thrdata : List ThreadData
  target : vec8u

/-- `be32enc` of the word at `p + offs`. -/
def be (p : List Byte) (offs : Nat) : U32 := bitcredit_be32enc (load32 p offs)

/-- `p[i]` as a word. -/
def at8 (p : List Byte) (i : Nat) : U32 := (byteAt p i).setWidth 32

/-- `shadata`: the first block of a thread's message. -/
def prepare_shadata (expired : U32) (data thr_rdata : List Byte) : vec16u := [
  be data 0,
  (be data 4 &&& (0xFFFFFF00 : U32)) ||| (expired >>> 24),
  (expired <<< 8) ||| at8 data 11,
  be data 12, be data 16, be data 20, be data 24, be data 28, be data 32, be data 36,
  (be data 40 &&& (0xFFFFFF00 : U32)) ||| at8 thr_rdata 0,
  be thr_rdata 1, be thr_rdata 5, be thr_rdata 9, be thr_rdata 13, be thr_rdata 17]

/-- One turn of the host's loop over `gpu_thread`. -/
def prepare_thread (expired : U32) (data thr_rdata : List Byte) : ThreadData where
  state := sha256_transform (prepare_shadata expired data thr_rdata) h256
  rdata := [
    be thr_rdata 21, be thr_rdata 25,
    (be thr_rdata 28 <<< 8) ||| at8 data 75,
    (be data 88 &&& (0xFFFFFF00 : U32)) ||| at8 thr_rdata 0,
    be thr_rdata 1, be thr_rdata 5, be thr_rdata 9, be thr_rdata 13, be thr_rdata 17]

/-- The message the host packs. -/
def packed_msg (gpu_threads : Nat) (expired : U32) (data target rdata : List Byte) : MsgData where
  pseed := (List.range 3).map fun i => be data (76 + 4 * i)
  target := Vector.ofFn fun i => be target (4 * i)
  thrdata := (List.range gpu_threads).map fun gpu_thread => prepare_thread expired data (rdata.drop (gpu_thread * 32))

/-- `none` when the loop over `gpu_thread` leaves the array `thrdata`. -/
def bitcredit_prepare_msg (gpu_threads : Nat) (expired : U32) (data target rdata : List Byte) : Option MsgData :=
  if gpu_threads ≤ MAX_GPU_THREADS then some (packed_msg gpu_threads expired data target rdata) else none

/-- The CUDA copy: the message it moves to `c_msg`. -/
def bitcredit_setBlockTarget (gpu_threads : Nat) (expired : U32) (data target rdata : List Byte) : Option MsgData :=
  if gpu_threads ≤ MAX_GPU_THREADS then some (packed_msg gpu_threads expired data target rdata) else none

/-- The second block of a thread's message, as the kernel assembles it. -/
def gpu_data (msg : MsgData) (thrdata : ThreadData) (nonce : U64) : vec16u :=
  let r (i : Nat) := thrdata.rdata.getD i 0
  let rdata6 := r 0
  let rdata7 := r 1
  let rdata8 := r 2
  let rdata : U64 := ((rdata6.setWidth 64 <<< 56) ||| (rdata7.setWidth 64 <<< 24) ||| (rdata8.setWidth 64 >>> 8)) + nonce
  let rdata6 := (rdata >>> 56).setWidth 32 ||| (rdata6 &&& (0xFFFFFF00 : U32))
  let rdata7 := (rdata >>> 24).setWidth 32
  let rdata10 := (rdata <<< 8).setWidth 32 ||| (0x80 : U32)
  let rdata8 := (rdata <<< 8).setWidth 32 ||| (rdata8 &&& (0xFF : U32))
  [rdata6, rdata7, rdata8, msg.pseed.getD 0 0, msg.pseed.getD 1 0, msg.pseed.getD 2 0, r 3, r 4, r 5, r 6, r 7, r 8,
    rdata6, rdata7, rdata10, 0]

/-- The third block: padding and the length in bits. -/
def gpu_tail : vec16u := [0, 0, 0, 0, 0, 0, 0, 0, 0, 0, 0, 0, 0, 0, 0, 0x3d8]

/-- The final state of the kernel's hash for one nonce. -/
def gpu_state (msg : MsgData) (thrdata : ThreadData) (nonce : U64) : vec8u :=
  sha256_transform gpu_tail (sha256_transform (gpu_data msg thrdata nonce) thrdata.state)

/-- The kernel's comparison, word by word: whether the first pair of words that
differ has the smaller one in `state`. -/
def gpu_less : List U32 → List U32 → Bool
  | s :: state, t :: target => if s > t then false else if s < t then true else gpu_less state target
  | _, _ => false

structure DevHashResult where
  nonce : U64
  vcpu : U32
  found : U32
  deriving DecidableEq

/-- Whether the thread `(idx, vcpu)` reports a hit. `none` where `vcpu` has no
entry filled by the host. -/
def gpu_hit (msg : MsgData) (start_nonce idx : U64) (vcpu : U32) : Option Bool :=
  (msg.thrdata[vcpu.toNat]?).map fun thrdata => gpu_less (gpu_state msg thrdata (start_nonce + idx)).toList msg.target.toList

/-- One thread of the kernel, run alone. -/
def bitcredit_gpu_hash (msg : MsgData) (start_nonce idx : U64) (vcpu : U32) (result : DevHashResult) : DevHashResult :=
  if gpu_hit msg start_nonce idx vcpu = some true then
    let old := result.found
    let result := { result with found := old + 1 }
    if old = 0 then { result with nonce := start_nonce + idx, vcpu := vcpu } else result
  else result

/-! ## The transform is the compression function -/

theorem ROTRIGHT_eq (a : U32) (b : Nat) (h : b < 32) : ROTRIGHT a b = a.rotateRight b := by
  rw [BitVec.rotateRight_def, Nat.mod_eq_of_lt h]; rfl

theorem EP0_eq (x : U32) : EP0 x = bigSigma0 x := by
  rw [EP0, ROTRIGHT_eq x 2 (by decide), ROTRIGHT_eq x 13 (by decide), ROTRIGHT_eq x 22 (by decide), bigSigma0]

theorem EP1_eq (x : U32) : EP1 x = bigSigma1 x := by
  rw [EP1, ROTRIGHT_eq x 6 (by decide), ROTRIGHT_eq x 11 (by decide), ROTRIGHT_eq x 25 (by decide), bigSigma1]

theorem SIG0_eq (x : U32) : SIG0 x = sigma0 x := by
  rw [SIG0, ROTRIGHT_eq x 7 (by decide), ROTRIGHT_eq x 18 (by decide), sigma0]

theorem SIG1_eq (x : U32) : SIG1 x = sigma1 x := by
  rw [SIG1, ROTRIGHT_eq x 17 (by decide), ROTRIGHT_eq x 19 (by decide), sigma1]

theorem fill_eq (data : vec16u) (k : Nat) : fill data k = schedule data k := by
  induction k with
  | zero => rfl
  | succ k ih => simp only [fill, schedule, ih, SIG0_eq, SIG1_eq]

theorem transform_round_eq (m : List U32) (v : Vars) (t : Nat) :
    transform_round m v t = v.round (K.getD t 0) (m.getD t 0) := by
  have hk : ksha = K := rfl
  simp only [transform_round, Vars.round, EP0_eq, EP1_eq, hk]
  rfl

theorem foldl_transform_round (m : List U32) (l : List Nat) (v : Vars) :
    l.foldl (transform_round m) v = l.foldl (fun (v : Vars) t => v.round (K.getD t 0) (m.getD t 0)) v := by
  induction l generalizing v with
  | nil => rfl
  | cons t l ih => rw [List.foldl_cons, List.foldl_cons, transform_round_eq, ih]

theorem transform_end_eq (state : vec8u) (v : Vars) : transform_end state v = Vars.addTo state v := by
  simp only [transform_end, Vars.addTo, BitVec.add_comm]
  simp

theorem sha256_transform_eq (data : vec16u) (state : vec8u) :
    sha256_transform data state = compress state data := by
  rw [compress, ← transform_end_eq, ← fill_eq, ← foldl_transform_round]
  rfl

/-! ## Words and their bytes -/

/-- On a little-endian host, `be32enc` of a loaded word is its bytes in order. -/
theorem be_eq (p : List Byte) (i : Nat) : be p i = wordAt p i := by
  simp only [be, bitcredit_be32enc, load32, le32, wordAt]
  congr 1 <;> ext j hj <;> interval_cases j <;> simp [getElem_word]

theorem mask_word (a b c d x : Byte) : (word a b c d &&& (0xFFFFFF00 : U32)) ||| x.setWidth 32 = word a b c x := by
  ext i hi
  interval_cases i <;> simp [getElem_word]

theorem shift_word (w : U32) (x : Byte) :
    (w <<< 8) ||| x.setWidth 32 = word (w.extractLsb' 16 8) (w.extractLsb' 8 8) (w.extractLsb' 0 8) x := by
  ext i hi
  interval_cases i <;> simp [getElem_word]

theorem shiftRight_24 (w : U32) : w >>> 24 = (w.extractLsb' 24 8).setWidth 32 := by
  ext i hi
  interval_cases i <;> simp

theorem extract_word (a b c d : Byte) :
    (word a b c d).extractLsb' 16 8 = b ∧ (word a b c d).extractLsb' 8 8 = c ∧ (word a b c d).extractLsb' 0 8 = d := by
  refine ⟨?_, ?_, ?_⟩ <;> ext i hi <;> interval_cases i <;> simp [getElem_word]

/-- The kernel's 64-bit counter is the last eight bytes of `rdata`. -/
theorem gpu_counter (p q r a b c d e f g h x : Byte) :
    (((word p q r a).setWidth 64 <<< 56) ||| ((word b c d e).setWidth 64 <<< 24) |||
        ((word f g h x).setWidth 64 >>> 8) : U64) =
      a.setWidth 64 <<< (8 * 7) ||| b.setWidth 64 <<< (8 * 6) ||| c.setWidth 64 <<< (8 * 5) |||
        d.setWidth 64 <<< (8 * 4) ||| e.setWidth 64 <<< (8 * 3) ||| f.setWidth 64 <<< (8 * 2) |||
        g.setWidth 64 <<< (8 * 1) ||| h.setWidth 64 := by
  ext i hi
  interval_cases i <;> simp [getElem_word]

/-- The counter's high byte goes to the last byte of a word, the next four make
one of their own, and the last three start the next. -/
theorem split_high (s : U64) (a b c d : Byte) :
    (s >>> 56).setWidth 32 ||| (word a b c d &&& (0xFFFFFF00 : U32)) = word a b c ((s >>> 56).setWidth 8) := by
  ext i hi
  interval_cases i <;> simp [getElem_word]

theorem split_mid (s : U64) : (s >>> 24).setWidth 32 =
    word ((s >>> 48).setWidth 8) ((s >>> 40).setWidth 8) ((s >>> 32).setWidth 8) ((s >>> 24).setWidth 8) := by
  ext i hi
  interval_cases i <;> simp [getElem_word]

theorem split_low (s : U64) (x : Byte) : (s <<< 8).setWidth 32 ||| x.setWidth 32 =
    word ((s >>> 16).setWidth 8) ((s >>> 8).setWidth 8) (s.setWidth 8) x := by
  ext i hi
  interval_cases i <;> simp [getElem_word]

theorem mask_low (a b c d : Byte) : word a b c d &&& 0xFF = d.setWidth 32 := by
  ext i hi
  interval_cases i <;> simp [getElem_word]

end Ton.Miner
