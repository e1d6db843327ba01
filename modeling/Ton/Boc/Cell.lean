import Mathlib.Tactic.IntervalCases
import Ton.Cells.Levels
import Ton.Cells.Slice
/-!
# Cells as bytes

`DataCell::serialize` and `CellSerializationInfo`: two descriptor bytes, optionally
the hashes and depths, the data, and after that the references, which the bag of
cells writes. A cell is read back from its bytes and the cells it refers to.
-/

namespace Ton
open BigEndian CellTraits Result List

namespace DataCell

def get_serialized_size (c : DataCell) (with_hashes : Bool) : Nat :=
  (c.get_bits + 23) / 8 + if with_hashes then c.get_level_mask.get_hashes_count * (hash_bytes + depth_bytes) else 0

/-- The levels with a hash of their own. -/
def significantLevels (c : DataCell) : List Nat := (List.range (c.get_level + 1)).filter c.get_level_mask.is_significant

/-- Nothing is written when the buffer is too small. -/
def serialize (c : DataCell) (buff_size : Nat) (with_hashes : Bool) : List Byte :=
  if c.get_serialized_size with_hashes > buff_size then []
  else
    [d1 c.get_refs_cnt c.is_special c.get_level_mask ||| (if with_hashes then 16 else 0), d2 c.get_bits] ++
      (if with_hashes then
        c.significantLevels.flatMap c.get_hash ++ c.significantLevels.flatMap (fun i => toBytes depth_bytes (c.get_depth i))
      else []) ++ c.get_data

end DataCell

/-- `read_int`. -/
def read_int (ptr : List Byte) (bytes : Nat) : Nat := ofBytes (ptr.take bytes)

/-- `Slice::substr`. -/
def substr (data : List Byte) (offset size : Nat) : List Byte := (data.drop offset).take size

/-- `count_trailing_zeroes_non_zero32` of a byte. -/
def count_trailing_zeroes (b : Byte) : Nat := ((byteBits b).reverse.takeWhile (· == false)).length

structure CellSerializationInfo where
  special : Bool
  level_mask : LevelMask
  with_hashes : Bool
  hashes_offset : Nat
  depth_offset : Nat
  data_offset : Nat
  data_len : Nat
  data_with_bits : Bool
  refs_offset : Nat
  refs_cnt : Nat
  end_offset : Nat

namespace CellSerializationInfo

/-- `init` from the two descriptor bytes. -/
def init_bytes (d1 d2 : Byte) (ref_byte_size : Nat) : Except String CellSerializationInfo :=
  let refs_cnt := d1.toNat % 8
  let level_mask : LevelMask := ⟨d1.toNat / 32⟩
  let special : Bool := d1.toNat / 8 % 2 = 1
  let with_hashes : Bool := d1.toNat / 16 % 2 = 1
  if refs_cnt > 4 then
    if refs_cnt ≠ 7 ∨ !with_hashes then .error "Invalid first byte" else .error "TODO: absent cells"
  else
    let hashes_offset := 2
    let n := level_mask.get_hashes_count
    let depth_offset := hashes_offset + if with_hashes then n * hash_bytes else 0
    let data_offset := depth_offset + if with_hashes then n * depth_bytes else 0
    let data_len := d2.toNat / 2 + d2.toNat % 2
    let refs_offset := data_offset + data_len
    .ok { special, level_mask, with_hashes, hashes_offset, depth_offset, data_offset, data_len
          data_with_bits := d2.toNat % 2 ≠ 0, refs_offset, refs_cnt, end_offset := refs_offset + refs_cnt * ref_byte_size }

def init (data : List Byte) (ref_byte_size : Nat) : Except String CellSerializationInfo :=
  if data.length < 2 then .error s!"Not enough bytes [got:{data.length}][expected:at least 2]"
  else do
    let info ← init_bytes (byteAt data 0) (byteAt data 1) ref_byte_size
    if data.length < info.end_offset then .error s!"Not enough bytes [got:{data.length}][expected:{info.end_offset}]"
    else .ok info

def get_bits (info : CellSerializationInfo) (cell : List Byte) : Except String Nat :=
  if info.data_with_bits then
    let last := byteAt cell (info.data_offset + info.data_len - 1)
    if last.toNat % 128 = 0 then .error "overlong encoding"
    else .ok ((info.data_len - 1) * 8 + 7 - count_trailing_zeroes last)
  else .ok (info.data_len * 8)

/-- The stored hashes and depths are those of the cell. -/
def check_hashes (info : CellSerializationInfo) (cell_slice : List Byte) (res : DataCell) : Except String Unit :=
  let hash_n := info.level_mask.get_hashes_count
  let hash_at i := substr cell_slice (info.hashes_offset + hash_bytes * i) hash_bytes
  let depth_at i := ofBytes (substr cell_slice (info.depth_offset + depth_bytes * i) depth_bytes)
  if res.get_hash max_level ≠ hash_at (hash_n - 1) then .error "representation hash mismatch"
  else if res.get_depth max_level ≠ depth_at (hash_n - 1) then .error "depth mismatch"
  else
    let levels := (List.range info.level_mask.get_level).filter info.level_mask.is_significant
    levels.zipIdx.forM fun (level_i, hash_i) =>
      if hash_at hash_i ≠ res.get_hash level_i then .error "lower hash mismatch"
      else if res.get_depth level_i ≠ depth_at hash_i then .error "lower depth mismatch"
      else .ok ()

def create_data_cell (info : CellSerializationInfo) (cell_slice : List Byte) (refs : List DataCell) : Except String DataCell := do
  let bits ← info.get_bits cell_slice
  let res ← DataCell.create ((bytesToBits (cell_slice.drop info.data_offset)).take bits) refs info.special
  if res.is_special ≠ info.special then .error "is_special mismatch"
  else if res.get_level_mask ≠ info.level_mask then .error "level mask mismatch"
  else if info.with_hashes then do
    info.check_hashes cell_slice res
    .ok res
  else .ok res

end CellSerializationInfo

/-! ## Reading a cell back -/

namespace DataCell

theorem bytesToBits_dataBytes (bits : List Bool) : bytesToBits (dataBytes bits) =
    if bits.length % 8 = 0 then bits else bits ++ true :: List.replicate (7 - bits.length % 8) false := by
  unfold dataBytes
  split
  · next h => exact bytesToBits_bitsToBytes bits h
  · exact bytesToBits_bitsToBytes _ (by simp; omega)

theorem dataBytes_length (bits : List Bool) : (dataBytes bits).length = (bits.length + 7) / 8 := by
  have := congrArg List.length (bytesToBits_dataBytes bits)
  rw [bytesToBits_length] at this
  split at this
  · omega
  · simp only [length_append, length_cons, length_replicate] at this
    omega

theorem last_byte {bits : List Bool} (h : bits.length % 8 ≠ 0) :
    ∃ a : List Bool, a.length = bits.length % 8 ∧
      byteBits (byteAt (dataBytes bits) (bits.length / 8)) = a ++ true :: List.replicate (7 - bits.length % 8) false := by
  refine ⟨bits.drop (8 * (bits.length / 8)), by rw [length_drop]; omega, ?_⟩
  rw [byteBits_byteAt (by rw [dataBytes_length]; omega), bytesToBits_dataBytes, if_neg h,
    drop_append_of_le_length (by omega), take_of_length_le]
  simp only [length_append, length_drop, length_cons, length_replicate]
  omega

section
variable {b : Byte} {a : List Bool} {k : Nat} (h : byteBits b = a ++ true :: List.replicate k false)
include h

theorem count_trailing_zeroes_last : count_trailing_zeroes b = k := by
  rw [count_trailing_zeroes, h]
  simp

theorem last_ne_overlong (hk : k < 7) : b.toNat % 128 ≠ 0 := by
  rw [← ofBits_byteBits, h, ofBits_append, ofBits_cons, ofBits_replicate]
  simp only [Bool.toNat_true, length_replicate, length_cons, Bool.false_eq_true, if_false]
  interval_cases k <;> omega

end

theorem d1_toNat {refs : Nat} (special : Bool) {m : LevelMask} (hr : refs ≤ 4) (hm : m.mask < 8) :
    (d1 refs special m).toNat = refs + 8 * special.toNat + 32 * m.mask := by
  rw [d1, BitVec.toNat_ofNat]
  exact Nat.mod_eq_of_lt (by have := special.toNat_le; omega)

theorem d2_toNat {bits : Nat} (h : bits ≤ max_bits) : (d2 bits).toNat = bits / 8 * 2 + if bits % 8 ≠ 0 then 1 else 0 := by
  rw [d2, BitVec.toNat_ofNat]
  exact Nat.mod_eq_of_lt (by rw [max_bits] at h; split <;> omega)

variable {c : DataCell}

theorem Made.le_max (h : c.Made) : c.get_bits ≤ max_bits ∧ c.get_refs_cnt ≤ max_refs := by
  obtain ⟨type, m, hashes, depths, -, -, hbits, hrefs, -, -⟩ := create_ok h.create_self
  exact ⟨hbits, hrefs⟩

/-! ## Hashes in bytes -/

/-- The hashes and depths that are written. -/
def stored_hashes (c : DataCell) (with_hashes : Bool) : List Byte :=
  if with_hashes then
    c.significantLevels.flatMap c.get_hash ++ c.significantLevels.flatMap fun i => toBytes depth_bytes (c.get_depth i)
  else []

theorem pruned_hashes {m : LevelMask} (hm : m.mask < 8) (h : 1 ≤ m.get_level) :
    (m.apply (m.get_level - 1)).get_hashes_count = m.get_hash_i := by
  obtain ⟨m⟩ := m
  have key : ∀ m < 8, 1 ≤ (LevelMask.mk m).get_level →
      ((LevelMask.mk m).apply ((LevelMask.mk m).get_level - 1)).get_hashes_count = (LevelMask.mk m).get_hash_i := by decide
  exact key m hm h

theorem Made.get_hash_length (h : c.Made) (level : Nat) : (c.get_hash level).length = hash_bytes := by
  obtain ⟨hlen, hall⟩ := h.hashes_length
  have hle := hash_i_le h.mask_lt level
  have hget : ∀ i < c.hashes.length, (c.hashes.getD i []).length = hash_bytes := by
    intro i hi
    rw [getD_eq_getElem?_getD, getElem?_eq_getElem hi, Option.getD_some]
    exact hall _ (getElem_mem hi)
  unfold get_hash
  dsimp only
  by_cases hp : c.special_type = .PrunnedBranch
  · rw [if_pos hp]
    rw [if_pos hp] at hlen
    by_cases hi : (c.get_level_mask.apply level).get_hash_i ≠ c.get_level_mask.get_hash_i
    · obtain ⟨hcheck, -⟩ := h.loop
      rw [hp] at hcheck
      obtain ⟨-, -, -, hlevel, -, hsize⟩ := check_type_pruned hcheck
      rw [pruned_hashes h.mask_lt hlevel] at hsize
      rw [if_pos hi, length_take, length_drop, get_data, dataBytes_length, hsize]
      simp only [hash_bytes, depth_bytes]
      omega
    · rw [if_neg hi]
      exact hget 0 (by omega)
  · rw [if_neg hp]
    rw [if_neg hp] at hlen
    exact hget _ (by rw [hlen, LevelMask.get_hashes_count]; omega)

theorem Made.get_depth_lt (h : c.Made) (level : Nat) : c.get_depth level < 256 ^ depth_bytes := by
  obtain ⟨-, hloop⟩ := h.loop
  obtain ⟨hdepths, hle⟩ := hashLoop_depths hloop
  have hmax : max_depth < 256 ^ depth_bytes := by decide
  have hget : ∀ i, c.depths.getD i 0 < 256 ^ depth_bytes := by
    intro i
    rw [getD_eq_getElem?_getD, hdepths, nil_append, getElem?_map]
    cases hi : (hashLevels c.special_type c.get_level_mask)[i]? with
    | none => exact Nat.pow_pos (by decide)
    | some l => exact lt_of_le_of_lt (hle l (mem_of_getElem? hi)) hmax
  unfold get_depth
  dsimp only
  split
  · split
    · refine lt_of_lt_of_le (ofBytes_lt _) (Nat.pow_le_pow_right (by decide) ?_)
      rw [length_take]
      exact Nat.min_le_left _ _
    · exact hget 0
  · exact hget _

section
variable {α : Type} (f : α → List Byte) {n : Nat} {l : List α} (h : ∀ a ∈ l, (f a).length = n)
include h

theorem flatMap_const_length :
    (l.flatMap f).length = l.length * n := by
  induction l with
  | nil => simp
  | cons a l ih =>
    rw [flatMap_cons, length_append, h a (by simp), ih fun a ha => h a (by simp [ha]), length_cons, Nat.succ_mul,
      Nat.add_comm]

theorem substr_flatMap_const {i : Nat} {a : α}
    (hi : l[i]? = some a) (rest : List Byte) : substr (l.flatMap f ++ rest) (n * i) n = f a := by
  induction l generalizing i with
  | nil => simp at hi
  | cons b l ih =>
    have hb := h b (by simp)
    cases i with
    | zero =>
      cases hi
      rw [flatMap_cons, append_assoc, substr, Nat.mul_zero, drop_zero, take_left' hb]
    | succ i =>
      have := ih (fun a ha => h a (by simp [ha])) hi
      rw [substr] at this ⊢
      rw [flatMap_cons, append_assoc, Nat.mul_succ, Nat.add_comm, ← drop_drop, drop_left' hb, this]

end

theorem Made.significantLevels_length (h : c.Made) : c.significantLevels.length = c.get_level_mask.get_hashes_count :=
  LevelMask.levels_length h.mask_lt

theorem Made.stored_hashes_length (h : c.Made) (wh : Bool) :
    (c.stored_hashes wh).length = if wh then c.get_level_mask.get_hashes_count * (hash_bytes + depth_bytes) else 0 := by
  rw [stored_hashes]
  split
  · rw [length_append, flatMap_const_length _ fun a _ => h.get_hash_length a,
      flatMap_const_length _ fun a _ => toBytes_length depth_bytes (c.get_depth a), h.significantLevels_length, Nat.mul_add]
  · rfl

theorem Made.get_serialized_size_eq (h : c.Made) (wh : Bool) :
    c.get_serialized_size wh = 2 + (c.stored_hashes wh).length + c.get_data.length := by
  rw [get_serialized_size, h.stored_hashes_length, get_data, dataBytes_length, get_bits]
  omega

theorem Made.fits (h : c.Made) : c.get_serialized_size false ≤ 256 := by
  have hbits := h.le_max.1
  rw [max_bits] at hbits
  rw [get_serialized_size]
  simp only [Bool.false_eq_true, if_false]
  omega

theorem serialize_eq {wh : Bool} (hfit : c.get_serialized_size wh ≤ 256) : c.serialize 256 wh =
    (d1 c.get_refs_cnt c.is_special c.get_level_mask ||| if wh then 16 else 0) :: d2 c.get_bits ::
      (c.stored_hashes wh ++ c.get_data) := by
  rw [serialize, if_neg (by omega)]
  rfl

theorem Made.d1_flag (h : c.Made) (wh : Bool) :
    (d1 c.get_refs_cnt c.is_special c.get_level_mask ||| if wh then 16 else 0).toNat =
      c.get_refs_cnt + 8 * c.is_special.toNat + 16 * wh.toNat + 32 * c.get_level_mask.mask := by
  have hd1 := d1_toNat c.is_special (h.le_max.2 : c.get_refs_cnt ≤ 4) h.mask_lt
  have hsp := c.is_special.toNat_le
  have hcnt := h.le_max.2
  rw [max_refs] at hcnt
  have key : ∀ b : Byte, b.toNat / 16 % 2 = 0 → (b ||| 16).toNat = b.toNat + 16 := by decide
  cases wh with
  | false =>
    simp only [Bool.false_eq_true, if_false, Bool.toNat_false]
    rw [show (0 : Byte) = 0#8 from rfl, BitVec.or_zero]
    omega
  | true =>
    simp only [if_true, Bool.toNat_true]
    rw [key _ (by omega)]
    omega

end DataCell

/-- What the descriptor bytes of a cell say. -/
def CellSerializationInfo.ofCell (c : DataCell) (wh : Bool) (ref_byte_size : Nat) : CellSerializationInfo where
  special := c.is_special
  level_mask := c.get_level_mask
  with_hashes := wh
  hashes_offset := 2
  depth_offset := 2 + if wh then c.get_level_mask.get_hashes_count * hash_bytes else 0
  data_offset := 2 + (c.stored_hashes wh).length
  data_len := c.get_data.length
  data_with_bits := c.get_bits % 8 ≠ 0
  refs_offset := 2 + (c.stored_hashes wh).length + c.get_data.length
  refs_cnt := c.get_refs_cnt
  end_offset := c.get_serialized_size wh + c.get_refs_cnt * ref_byte_size

section RoundTrip
variable {c : DataCell} {wh : Bool} {rs : Nat}

open CellSerializationInfo DataCell

theorem init_serialize (h : c.Made) (hfit : c.get_serialized_size wh ≤ 256) (refs rest : List Byte)
    (hrefs : refs.length = c.get_refs_cnt * rs) : init (c.serialize 256 wh ++ refs ++ rest) rs = .ok (.ofCell c wh rs) := by
  obtain ⟨hbits, hcnt⟩ := h.le_max
  have hd1 := h.d1_flag wh
  have hd2 := d2_toNat hbits
  have hmask := h.mask_lt
  have hsp := c.is_special.toNat_le
  have hwh := wh.toNat_le
  have hlen : (d2 c.get_bits).toNat / 2 + (d2 c.get_bits).toNat % 2 = c.get_data.length := by
    rw [hd2, get_data, dataBytes_length, DataCell.get_bits]
    split <;> omega
  rw [max_refs] at hcnt
  have hsize := h.get_serialized_size_eq wh
  have hinfo : init_bytes (d1 c.get_refs_cnt c.is_special c.get_level_mask ||| if wh then 16 else 0) (d2 c.get_bits) rs =
      .ok (.ofCell c wh rs) := by
    generalize (d1 c.get_refs_cnt c.is_special c.get_level_mask ||| if wh then 16 else 0) = b at hd1
    have e1 : b.toNat % 8 = c.get_refs_cnt := by omega
    have e2 : b.toNat / 32 = c.get_level_mask.mask := by omega
    have e3 : decide (b.toNat / 8 % 2 = 1) = c.is_special := by
      rw [hd1]
      cases c.is_special
      · simp only [Bool.toNat_false, decide_eq_false_iff_not]
        omega
      · simp only [Bool.toNat_true, decide_eq_true_eq]
        omega
    have e4 : decide (b.toNat / 16 % 2 = 1) = wh := by
      rw [hd1]
      cases wh
      · simp only [Bool.toNat_false, decide_eq_false_iff_not]
        omega
      · simp only [Bool.toNat_true, decide_eq_true_eq]
        omega
    have e5 : decide ((d2 c.get_bits).toNat % 2 ≠ 0) = decide (c.get_bits % 8 ≠ 0) := by
      rw [decide_eq_decide, hd2]
      split <;> omega
    have e6 : 2 + (if wh then c.get_level_mask.get_hashes_count * hash_bytes else 0) +
        (if wh then c.get_level_mask.get_hashes_count * depth_bytes else 0) = 2 + (c.stored_hashes wh).length := by
      rw [h.stored_hashes_length]
      cases wh
      · rfl
      · simp only [if_true]
        rw [Nat.mul_add, Nat.add_assoc]
    unfold init_bytes
    simp only [e1, e2, e3, e4, hlen, e5, e6]
    rw [if_neg (by omega), ofCell, hsize]
  rw [serialize_eq hfit]
  unfold init
  rw [if_neg (by simp)]
  simp only [cons_append, byteAt_cons_zero, byteAt_cons_succ, hinfo, ok_bind]
  rw [if_neg]
  simp only [ofCell, hsize, length_cons, length_append, hrefs]
  omega

theorem get_bits_serialize (hfit : c.get_serialized_size wh ≤ 256) (rest : List Byte) :
    (ofCell c wh rs).get_bits (c.serialize 256 wh ++ rest) = .ok c.get_bits := by
  rw [serialize_eq hfit]
  unfold CellSerializationInfo.get_bits
  have hlen : c.get_data.length = (c.get_bits + 7) / 8 := dataBytes_length c.data
  by_cases h8 : c.get_bits % 8 = 0
  · simp only [ofCell, h8, ne_eq, not_true, decide_false, Bool.false_eq_true, if_false, hlen]
    exact congrArg Except.ok (by omega)
  · obtain ⟨a, ha, hbits⟩ := last_byte (show c.data.length % 8 ≠ 0 from h8)
    have hat : byteAt ((d1 c.get_refs_cnt c.is_special c.get_level_mask ||| if wh then 16 else 0) :: d2 c.get_bits ::
        (c.stored_hashes wh ++ c.get_data) ++ rest) (2 + (c.stored_hashes wh).length + c.get_data.length - 1) =
        byteAt (dataBytes c.data) (c.data.length / 8) := by
      have e : 2 + (c.stored_hashes wh).length + c.get_data.length - 1 = (c.stored_hashes wh).length + c.get_bits / 8 + 1 + 1 := by
        omega
      rw [e, cons_append, cons_append, byteAt_cons_succ, byteAt_cons_succ, append_assoc, byteAt_append,
        if_neg (by omega), Nat.add_sub_cancel_left, byteAt_append, if_pos]
      · rfl
      · rw [hlen]
        omega
    simp only [ofCell, h8, ne_eq, not_false_eq_true, decide_true, if_true, hat]
    rw [DataCell.get_bits] at h8
    rw [if_neg (last_ne_overlong hbits (by omega)), count_trailing_zeroes_last hbits, hlen, DataCell.get_bits]
    exact congrArg Except.ok (by omega)

/-- What is read at the place of the hash and of the depth number `i`. -/
theorem hash_serialize (h : c.Made) (hfit : c.get_serialized_size true ≤ 256) (rest : List Byte) {i level : Nat}
    (hi : c.significantLevels[i]? = some level) :
    substr (c.serialize 256 true ++ rest) (2 + hash_bytes * i) hash_bytes = c.get_hash level ∧
    ofBytes (substr (c.serialize 256 true ++ rest) (2 + c.get_level_mask.get_hashes_count * hash_bytes + depth_bytes * i) depth_bytes) =
      c.get_depth level := by
  have hashes := fun a (_ : a ∈ c.significantLevels) => h.get_hash_length a
  have depths := fun a (_ : a ∈ c.significantLevels) => toBytes_length depth_bytes (c.get_depth a)
  have hlen := flatMap_const_length c.get_hash hashes
  rw [h.significantLevels_length] at hlen
  have hskip : ∀ k n, substr (c.serialize 256 true ++ rest) (2 + k) n =
      substr (c.significantLevels.flatMap c.get_hash ++ ((c.significantLevels.flatMap fun i => toBytes depth_bytes (c.get_depth i)) ++
        (c.get_data ++ rest))) k n := by
    intro k n
    rw [serialize_eq hfit, substr, ← drop_drop, stored_hashes, if_pos rfl]
    simp only [cons_append, drop_succ_cons, drop_zero, append_assoc, substr, if_true]
  constructor
  · rw [hskip, substr_flatMap_const _ hashes hi]
  · rw [Nat.add_assoc, hskip, substr, ← drop_drop, drop_left' hlen]
    have := substr_flatMap_const _ depths hi (c.get_data ++ rest)
    rw [substr] at this
    rw [this, ofBytes_toBytes, Nat.mod_eq_of_lt (h.get_depth_lt level)]

theorem get_hash_top (h : c.Made) (level : Nat) : c.get_hash (c.get_level_mask.top level) = c.get_hash level ∧
    c.get_depth (c.get_level_mask.top level) = c.get_depth level := by
  have htop := LevelMask.top_hash_i h.mask_lt level
  constructor
  · rw [DataCell.get_hash, DataCell.get_hash, htop]
  · rw [DataCell.get_depth, DataCell.get_depth, htop]

theorem forM_ok {ε α : Type} {f : α → Except ε Unit} {l : List α} (h : ∀ a ∈ l, f a = .ok ()) : l.forM f = .ok () := by
  induction l with
  | nil => rfl
  | cons a l ih =>
    rw [forM_eq_forM, forM_cons, h a (by simp), ok_bind]
    exact ih fun a ha => h a (by simp [ha])

theorem check_hashes_serialize (h : c.Made) (hfit : c.get_serialized_size true ≤ 256) (rest : List Byte) :
    (ofCell c true rs).check_hashes (c.serialize 256 true ++ rest) c = .ok () := by
  have hlast : c.significantLevels[c.get_level_mask.get_hashes_count - 1]? = some (c.get_level_mask.top max_level) := by
    have := LevelMask.getElem?_levels h.mask_lt max_level
    rwa [LevelMask.apply_of_le h.mask_lt (show 3 ≤ max_level from le_refl 3)] at this
  obtain ⟨hh, hd⟩ := hash_serialize h hfit rest hlast
  obtain ⟨ht, htd⟩ := get_hash_top h max_level
  rw [ht] at hh
  rw [htd] at hd
  unfold check_hashes
  dsimp only [ofCell]
  simp only [if_true]
  rw [if_neg (by rw [hh]; exact fun hne => hne rfl), if_neg (by rw [hd]; exact fun hne => hne rfl)]
  apply forM_ok
  rintro ⟨level, i⟩ hmem
  have hget : c.significantLevels[i]? = some level := by
    have hi : (List.filter c.get_level_mask.is_significant (List.range c.get_level))[i]? = some level :=
      mem_zipIdx_iff_getElem?.1 hmem
    have hlt := (List.getElem?_eq_some_iff.1 hi).1
    rw [DataCell.significantLevels, range_succ, filter_append, getElem?_append_left hlt]
    exact hi
  obtain ⟨hh, hd⟩ := hash_serialize h hfit rest hget
  simp only
  rw [if_neg (by rw [hh]; exact fun hne => hne rfl), if_neg (by rw [hd]; exact fun hne => hne rfl)]

/-- A cell is read back from its bytes and the cells it refers to. -/
theorem create_data_cell_serialize (h : c.Made) (hfit : c.get_serialized_size wh ≤ 256) (rest : List Byte) :
    (ofCell c wh rs).create_data_cell (c.serialize 256 wh ++ rest) c.refs = .ok c := by
  have hdata : (bytesToBits ((c.serialize 256 wh ++ rest).drop (ofCell c wh rs).data_offset)).take c.get_bits = c.data := by
    rw [serialize_eq hfit]
    simp only [ofCell, cons_append, append_assoc]
    rw [Nat.add_comm, drop_succ_cons, drop_succ_cons, drop_left, bytesToBits_append, get_data, bytesToBits_dataBytes,
      DataCell.get_bits]
    split
    · rw [take_left]
    · rw [append_assoc, take_left]
  unfold create_data_cell
  rw [get_bits_serialize hfit, ok_bind, hdata]
  have hcreate : DataCell.create c.data c.refs (ofCell c wh rs).special = .ok c := h.create_self
  rw [hcreate, ok_bind, if_neg (by simp [ofCell]), if_neg (by simp [ofCell])]
  cases wh with
  | false => rfl
  | true =>
    rw [if_pos (show (ofCell c true rs).with_hashes = true from rfl), check_hashes_serialize h hfit]
    rfl

end RoundTrip

end Ton
