import Ton.Lib.Sha256
/-!
# The mined message

`HData` and `HDataEnv` of `Miner.h`: packed structs of byte arrays, so
`as_slice` is their fields in order. `inc` counts in both copies of `rdata`;
`incLoop_spec` says which bytes it touches.
-/

namespace Ton.Miner
open Vector (getElem_set replicate)

open BigEndian Sha256

abbrev U32 := BitVec 32
abbrev U64 := BitVec 64

/-- OpenSSL's SHA-256: a context absorbs byte strings one after the other, and
the digest is that of their concatenation. -/
structure Sha256Api where
  Ctx : Type
  init : Ctx
  update : Ctx → List Byte → Ctx
  final : Ctx → List Byte
  final_eq : ∀ chunks : List (List Byte), final (chunks.foldl update init) = sha256 chunks.flatten

theorem Sha256Api.final_one (S : Sha256Api) (m : List Byte) : S.final (S.update S.init m) = sha256 m := by
  simpa using S.final_eq [m]

theorem Sha256Api.final_two (S : Sha256Api) (a b : List Byte) :
    S.final (S.update (S.update S.init a) b) = sha256 (a ++ b) := by
  simpa using S.final_eq [a, b]

/-- A context that keeps what it has absorbed. -/
def Sha256Api.absorbing : Sha256Api where
  Ctx := List Byte
  init := []
  update c m := c ++ m
  final := sha256
  final_eq chunks := by
    have h : ∀ acc : List Byte, chunks.foldl (fun c m => c ++ m) acc = acc ++ chunks.flatten := by
      induction chunks with
      | nil => simp
      | cons m chunks ih => intro acc; rw [List.foldl_cons, ih]; simp
    rw [h]; rfl

/-- The fields of `block::StdAddress` that the miner reads. -/
structure StdAddress where
  workchain : Int
  bounceable : Bool
  addr : Vector Byte 32

structure HData where
  op : Vector Byte 4
  /-- A `signed char`. -/
  flags : Byte := BitVec.ofInt 8 (-4)
  expire : Vector Byte 4 := replicate 4 0
  myaddr : Vector Byte 32 := replicate 32 0
  rdata1 : Vector Byte 32 := replicate 32 0
  pseed : Vector Byte 16 := replicate 16 0
  rdata2 : Vector Byte 32 := replicate 32 0

namespace HData

/-- `inc` from index `i - 1` down. `none` when the carry leaves the arrays: the
loop has no lower bound and would go on at index `-1`. -/
def incLoop (rdata1 rdata2 : Vector Byte 32) : (i : Nat) → i ≤ 32 → Option (Vector Byte 32 × Vector Byte 32)
  | 0, _ => none
  | i + 1, h =>
    let b := rdata2[i] + 1
    let rdata2 := rdata2.set i b
    let rdata1 := rdata1.set i b
    if b = 0 then incLoop rdata1 rdata2 i (by omega) else some (rdata1, rdata2)

def inc (d : HData) : Option HData :=
  (incLoop d.rdata1 d.rdata2 32 (Nat.le_refl _)).map fun r => { d with rdata1 := r.1, rdata2 := r.2 }

def set_expire (d : HData) (x : U32) : HData :=
  { d with expire := #v[x.extractLsb' 24 8, x.extractLsb' 16 8, x.extractLsb' 8 8, x.extractLsb' 0 8] }

def as_slice (d : HData) : List Byte :=
  d.op.toList ++ [d.flags] ++ d.expire.toList ++ d.myaddr.toList ++ d.rdata1.toList ++ d.pseed.toList ++ d.rdata2.toList

end HData

structure HDataEnv where
  d1 : Byte := 0
  d2 : Byte := 242
  body : HData

namespace HDataEnv

def as_slice (H : HDataEnv) : List Byte := [H.d1, H.d2] ++ H.body.as_slice

/-- `random` is what `secure_bytes` writes to `rdata1`; the GPU builds leave it zero. -/
def init (my_address : StdAddress) (seed : Vector Byte 16) (random : Vector Byte 32) : HDataEnv where
  body := {
    op := #v[0x4d, 0x69, 0x6e, 0x65]
    flags := BitVec.ofInt 8 (my_address.workchain * 4 + my_address.bounceable.toNat)
    myaddr := my_address.addr
    rdata1 := random
    pseed := seed
    rdata2 := random }

end HDataEnv

/-! ## Layout -/

@[simp] theorem HData.as_slice_length (d : HData) : d.as_slice.length = 121 := by simp [HData.as_slice]

@[simp] theorem HDataEnv.as_slice_length (H : HDataEnv) : H.as_slice.length = 123 := by simp [HDataEnv.as_slice]

/-- The message with `expire` and both `rdata` fields overwritten. -/
def HDataEnv.withRdata (H : HDataEnv) (expire : Vector Byte 4) (rdata : Vector Byte 32) : HDataEnv :=
  { H with body := { H.body with expire := expire, rdata1 := rdata, rdata2 := rdata } }

/-- Each byte of a message with its `expire` and `rdata` fields overwritten. -/
theorem HDataEnv.byteAt_withRdata (H : HDataEnv) (expire : Vector Byte 4) (rdata : Vector Byte 32) (j : Nat) :
    byteAt (H.withRdata expire rdata).as_slice j =
      if 7 ≤ j ∧ j < 11 then byteAt expire.toList (j - 7)
      else if 43 ≤ j ∧ j < 75 then byteAt rdata.toList (j - 43)
      else if 91 ≤ j ∧ j < 123 then byteAt rdata.toList (j - 91)
      else byteAt H.as_slice j := by
  simp only [withRdata, as_slice, HData.as_slice, byteAt_append, List.length_append, List.length_cons, List.length_nil,
    Vector.length_toList]
  by_cases h : j < 123
  · grind
  · have e : byteAt rdata.toList (j - 91) = 0 := byteAt_of_length_le (by simp; omega)
    have e' : byteAt H.body.rdata2.toList (j - 91) = 0 := byteAt_of_length_le (by simp; omega)
    grind

/-! ## Counting -/

/-- `inc` stops at the last byte that is not `0xff`: it adds one there, clears
the bytes after it and keeps those before. -/
theorem HData.incLoop_spec (r1 r2 r1' r2' : Vector Byte 32) (n : Nat) (hn : n ≤ 32)
    (h : incLoop r1 r2 n hn = some (r1', r2')) :
    ∃ j, j < n ∧ (∀ i (hi : i < 32), i < j → r1'[i] = r1[i] ∧ r2'[i] = r2[i]) ∧
      (∀ i (hi : i < 32), i = j → r1'[i] = r2[i] + 1 ∧ r2'[i] = r2[i] + 1 ∧ r2[i] + 1 ≠ 0) ∧
      (∀ i (hi : i < 32), j < i → i < n → r1'[i] = 0 ∧ r2'[i] = 0 ∧ r2[i] + 1 = 0) ∧
      (∀ i (hi : i < 32), n ≤ i → r1'[i] = r1[i] ∧ r2'[i] = r2[i]) := by
  induction n generalizing r1 r2 with
  | zero => simp [incLoop] at h
  | succ n ih =>
    simp only [incLoop] at h
    split at h
    · next hb =>
      obtain ⟨j, hj, hlt, heq, hmid, hge⟩ := ih _ _ _ h
      refine ⟨j, by omega, ?_, ?_, ?_, ?_⟩
      all_goals intro i hi
      · intro hij
        have := hlt i hi hij
        simpa [getElem_set, show ¬ n = i by omega] using this
      · intro hij
        have := heq i hi hij
        simpa [getElem_set, show ¬ n = i by omega] using this
      · intro hij hin
        rcases Nat.lt_or_eq_of_le (Nat.lt_succ_iff.1 hin) with hlt' | rfl
        · have := hmid i hi hij hlt'
          simpa [getElem_set, show ¬ n = i by omega] using this
        · have := hge i hi (Nat.le_refl _)
          simp only [Vector.getElem_set_self] at this
          exact ⟨this.1.trans hb, this.2.trans hb, hb⟩
      · intro hni
        have := hge i hi (by omega)
        simpa [getElem_set, show ¬ n = i by omega] using this
    · next hb =>
      simp only [Option.some.injEq, Prod.mk.injEq] at h
      obtain ⟨rfl, rfl⟩ := h
      refine ⟨n, by omega, ?_, ?_, ?_, ?_⟩
      all_goals intro i hi
      · intro hin
        simp [show ¬ n = i by omega]
      · rintro rfl
        simpa using hb
      · intro h1 h2
        omega
      · intro hni
        simp [show ¬ n = i by omega]

theorem HData.inc_rdata_eq {d d' : HData} (h : d.inc = some d') (he : d.rdata1 = d.rdata2) :
    d'.rdata1 = d'.rdata2 := by
  simp only [HData.inc, Option.map_eq_some_iff] at h
  obtain ⟨⟨r1, r2⟩, hr, rfl⟩ := h
  obtain ⟨j, hj, hlt, heq, hmid, -⟩ := incLoop_spec _ _ _ _ _ _ hr
  ext1 i hi
  rcases Nat.lt_trichotomy i j with hij | hij | hij
  · exact (hlt i hi hij).1.trans ((by rw [he]) : d.rdata1[i] = d.rdata2[i]) |>.trans (hlt i hi hij).2.symm
  · exact (heq i hi hij).1.trans (heq i hi hij).2.1.symm
  · exact (hmid i hi hij hi).1.trans (hmid i hi hij hi).2.1.symm

/-- While byte 28 of `rdata1` stays, so does every byte before it. -/
theorem HData.inc_guard {d d' : HData} (h : d.inc = some d') (he : d.rdata1 = d.rdata2)
    (hg : d'.rdata1[28] = d.rdata1[28]) (i : Nat) (hi : i ≤ 28) : d'.rdata1[i] = d.rdata1[i] := by
  simp only [HData.inc, Option.map_eq_some_iff] at h
  obtain ⟨⟨r1, r2⟩, hr, rfl⟩ := h
  obtain ⟨j, hj, hlt, heq, hmid, -⟩ := incLoop_spec _ _ _ _ _ _ hr
  simp only at hg ⊢
  rw [he] at hg
  have hne : ∀ b : Byte, b + 1 ≠ b := by decide
  rcases Nat.lt_trichotomy 28 j with hj' | rfl | hj'
  · exact (hlt i (by omega) (by omega)).1
  · rw [(heq 28 (by omega) rfl).1] at hg
    exact absurd hg (hne _)
  · obtain ⟨h0, -, h1⟩ := hmid 28 (by omega) hj' (by omega)
    rw [h0] at hg
    rw [← hg] at h1
    exact absurd h1 (by decide)

theorem HData.inc_other {d d' : HData} (h : d.inc = some d') :
    d'.op = d.op ∧ d'.flags = d.flags ∧ d'.expire = d.expire ∧ d'.myaddr = d.myaddr ∧ d'.pseed = d.pseed := by
  simp only [HData.inc, Option.map_eq_some_iff] at h
  obtain ⟨r, -, rfl⟩ := h
  exact ⟨rfl, rfl, rfl, rfl, rfl⟩

end Ton.Miner
