import Mathlib.Tactic.IntervalCases
import Ton.Boc.Written
/-!
# The header of a bag

What `parse_serialized_header` makes of the first bytes that `serialize_to` writes. The
counts are stored in `ref_byte_size` bytes, which are chosen for the number of cells: a
number of roots that does not fit is cut off.
-/

namespace Ton.Boc
open BigEndian CellTraits Result BagOfCells DataCell List Nat

/-- The bytes up to the roots. -/
def headerBytes (info : Info) : List Byte :=
  toBytes 4 info.magic ++
  toBytes 1 (128 * info.has_index.toNat + 64 * info.has_crc32c.toNat + 32 * info.has_cache_bits.toNat + info.ref_byte_size) ++
  toBytes 1 info.offset_byte_size ++
  toBytes info.ref_byte_size info.cell_count ++
  toBytes info.ref_byte_size info.root_count ++
  toBytes info.ref_byte_size 0 ++
  toBytes info.offset_byte_size info.data_size

/-- What the header of a bag without absent cells can hold. -/
structure HeaderFits (info : Info) : Prop where
  magic : info.magic = boc_generic
  ref_byte_size : 1 ≤ info.ref_byte_size ∧ info.ref_byte_size ≤ 4
  offset_byte_size : 1 ≤ info.offset_byte_size ∧ info.offset_byte_size ≤ 8
  cell_count : 0 < info.cell_count ∧ info.cell_count < 256 ^ info.ref_byte_size ∧ info.cell_count < 2 ^ 31
  root_count : info.root_count < 2 ^ 31
  data_size : info.data_size < 256 ^ info.offset_byte_size ∧ info.data_size ≤ info.cell_count * 2 ^ 10 ∧ info.data_size ≤ 2 ^ 40
  cache : info.has_cache_bits = true → info.has_index = true

/-- What is read back from the header of a bag with `root_count` roots. -/
def readInfo (info : Info) (root_count : Nat) : Info :=
  let rs := info.ref_byte_size
  let os := info.offset_byte_size
  let roots_offset := 6 + 3 * rs + os
  let index_offset := roots_offset + root_count * rs
  let data_offset := index_offset + if info.has_index then info.cell_count * os else 0
  { info with
    root_count, absent_count := 0, has_roots := true, roots_offset, index_offset, data_offset
    total_size := data_offset + info.data_size + if info.has_crc32c then 4 else 0 }

section Parse
variable {info : Info}

theorem headerBytes_length (info : Info) :
    (headerBytes info).length = 6 + 3 * info.ref_byte_size + info.offset_byte_size := by
  simp only [headerBytes, length_append, toBytes_length]
  omega

theorem read_int_mod (w n : Nat) (rest : List Byte) : read_int (toBytes w n ++ rest) w = n % 256 ^ w := by
  rw [read_int, take_left' (toBytes_length w n), ofBytes_toBytes]

theorem flags_byte (a b c : Bool) {rs : Nat} (h : rs ≤ 4) :
    (BitVec.ofNat 8 (128 * a.toNat + 64 * b.toNat + 32 * c.toNat + rs)).toNat =
      128 * a.toNat + 64 * b.toNat + 32 * c.toNat + rs := by
  have ha := a.toNat_le
  have hb := b.toNat_le
  have hc := c.toNat_le
  rw [BitVec.toNat_ofNat]
  exact mod_eq_of_lt (by omega)

theorem flags_bits (a b c : Bool) {rs : Nat} (h : rs ≤ 4) :
    decide ((128 * a.toNat + 64 * b.toNat + 32 * c.toNat + rs) / 128 % 2 = 1) = a ∧
    decide ((128 * a.toNat + 64 * b.toNat + 32 * c.toNat + rs) / 64 % 2 = 1) = b ∧
    decide ((128 * a.toNat + 64 * b.toNat + 32 * c.toNat + rs) / 32 % 2 = 1) = c ∧
    (128 * a.toNat + 64 * b.toNat + 32 * c.toNat + rs) % 8 = rs := by
  interval_cases rs <;> revert a b c <;> decide

theorem parse_header (h : HeaderFits info) (rest : List Byte) : parse_serialized_header (headerBytes info ++ rest) =
    if info.root_count % 256 ^ info.ref_byte_size = 0 ∨
        info.data_size < info.cell_count * (2 + info.ref_byte_size) - info.ref_byte_size then .error 0
    else .ok (readInfo info (info.root_count % 256 ^ info.ref_byte_size)) := by
  obtain ⟨hmagic, ⟨hrs1, hrs4⟩, ⟨hos1, hos8⟩, ⟨hc0, hcfits, hcint⟩, hroots, ⟨hdfits, hmax, hmax40⟩, hcache⟩ := h
  have hlen : 6 + 3 * info.ref_byte_size + info.offset_byte_size ≤ min (headerBytes info ++ rest).length 0xffff := by
    rw [length_append, headerBytes_length]
    omega
  obtain ⟨hf1, hf2, hf3, hf4⟩ := flags_bits info.has_index info.has_crc32c info.has_cache_bits hrs4
  have hbyte := flags_byte info.has_index info.has_crc32c info.has_cache_bits hrs4
  have hslice : headerBytes info ++ rest = toBytes 4 info.magic ++ (BitVec.ofNat 8 (128 * info.has_index.toNat +
      64 * info.has_crc32c.toNat + 32 * info.has_cache_bits.toNat + info.ref_byte_size) ::
      BitVec.ofNat 8 info.offset_byte_size :: (toBytes info.ref_byte_size info.cell_count ++
      (toBytes info.ref_byte_size info.root_count ++ (toBytes info.ref_byte_size 0 ++
      (toBytes info.offset_byte_size info.data_size ++ rest))))) := by
    simp only [headerBytes, append_assoc]
    rfl
  have hread : read_int (headerBytes info ++ rest) 4 = boc_generic := by
    rw [hslice, read_int_mod, hmagic]
    rfl
  have h4 : byteAt (headerBytes info ++ rest) 4 = BitVec.ofNat 8 (128 * info.has_index.toNat +
      64 * info.has_crc32c.toNat + 32 * info.has_cache_bits.toNat + info.ref_byte_size) := by
    rw [hslice, byteAt_append, toBytes_length, if_neg (by omega)]
    rfl
  have h5 : (byteAt (headerBytes info ++ rest) 5).toNat = info.offset_byte_size := by
    rw [hslice, byteAt_append, toBytes_length, if_neg (by omega)]
    exact mod_eq_of_lt (by omega)
  have hptr : (headerBytes info ++ rest).drop 6 = toBytes info.ref_byte_size info.cell_count ++
      (toBytes info.ref_byte_size info.root_count ++ (toBytes info.ref_byte_size 0 ++
      (toBytes info.offset_byte_size info.data_size ++ rest))) := by
    rw [hslice, show 6 = 4 + 2 from rfl, ← drop_drop, drop_left' (toBytes_length 4 _)]
    rfl
  generalize headerBytes info ++ rest = slice at hlen hread h4 h5 hptr
  have hcells : read_int (slice.drop 6) info.ref_byte_size = info.cell_count := by
    rw [hptr, read_int_toBytes hcfits]
  have hd1 : (slice.drop 6).drop info.ref_byte_size = toBytes info.ref_byte_size info.root_count ++
      (toBytes info.ref_byte_size 0 ++ (toBytes info.offset_byte_size info.data_size ++ rest)) := by
    rw [hptr, drop_left' (toBytes_length _ _)]
  have hd2 : (slice.drop 6).drop (2 * info.ref_byte_size) = toBytes info.ref_byte_size 0 ++
      (toBytes info.offset_byte_size info.data_size ++ rest) := by
    rw [Nat.two_mul, ← drop_drop, hd1, drop_left' (toBytes_length _ _)]
  have hd3 : (slice.drop 6).drop (3 * info.ref_byte_size) = toBytes info.offset_byte_size info.data_size ++ rest := by
    rw [show 3 * info.ref_byte_size = 2 * info.ref_byte_size + info.ref_byte_size by omega, ← drop_drop, hd2,
      drop_left' (toBytes_length _ _)]
  have hr : read_int ((slice.drop 6).drop info.ref_byte_size) info.ref_byte_size =
      info.root_count % 256 ^ info.ref_byte_size := by
    rw [hd1, read_int_mod]
  have ha : read_int ((slice.drop 6).drop (2 * info.ref_byte_size)) info.ref_byte_size = 0 := by
    rw [hd2, read_int_mod, zero_mod]
  have hdata : read_int ((slice.drop 6).drop (3 * info.ref_byte_size)) info.offset_byte_size = info.data_size := by
    rw [hd3, read_int_toBytes hdfits]
  have hrle : info.root_count % 256 ^ info.ref_byte_size ≤ info.root_count := mod_le _ _
  unfold parse_serialized_header
  simp only [hread, h4, hbyte, h5, if_true, hf1, hf2, hf3, hf4, hcells, hr, ha, hdata]
  have hbits : ¬(info.has_cache_bits && !info.has_index) = true := by
    intro hb
    simp only [Bool.and_eq_true, Bool.not_eq_true'] at hb
    rw [hcache hb.1] at hb
    cases hb.2
  rw [if_neg (by omega), if_neg (by simp), if_neg (by omega), if_neg hbits, if_neg (by omega), if_neg (by omega),
    if_neg (by omega), if_neg (by omega), if_neg (by omega), if_neg (by omega)]
  by_cases hzero : info.root_count % 256 ^ info.ref_byte_size = 0
  · rw [if_pos (.inl hzero), if_pos (.inl hzero)]
  · rw [if_neg (by omega), if_neg (by simp), if_neg (by omega), if_neg (by omega), if_neg (by omega), if_neg (by omega),
      if_neg (by omega)]
    by_cases hsmall : info.data_size < info.cell_count * (2 + info.ref_byte_size) - info.ref_byte_size
    · rw [if_pos hsmall, if_pos (.inr hsmall)]
    · rw [if_neg hsmall, if_neg (not_or.2 ⟨hzero, hsmall⟩)]
      simp only [readInfo, hmagic, decide_true]

end Parse

/-! ## The sizes that are chosen -/

theorem lt_count_bytes (n bytes : Nat) : n < 256 ^ count_bytes n bytes := by
  fun_induction count_bytes n bytes with
  | case1 bytes h ih => exact ih
  | case2 bytes h => omega

theorem le_count_bytes (n bytes : Nat) : bytes ≤ count_bytes n bytes := by
  fun_induction count_bytes n bytes with
  | case1 bytes h ih => omega
  | case2 bytes h => exact le_refl bytes

theorem count_bytes_le {n bytes k : Nat} (hk : bytes ≤ k) (h : n < 256 ^ k) : count_bytes n bytes ≤ k := by
  fun_induction count_bytes n bytes with
  | case1 bytes hn ih =>
    apply ih
    by_contra hlt
    obtain rfl : bytes = k := by omega
    omega
  | case2 bytes hn => exact hk

theorem count_bytes_pos {n : Nat} (h : 0 < n) : 1 ≤ count_bytes n 0 := by
  rw [count_bytes, dif_pos (show n ≥ 256 ^ 0 from h)]
  exact le_count_bytes n 1

/-- A mode that stores no hashes, and cache bits only in an index. -/
structure Mode.Plain (mode : Mode) : Prop where
  top : mode.WithTopHash = false
  int : mode.WithIntHashes = false
  cache : mode.WithCacheBits = true → mode.WithIndex = true

section Estimate
variable {cells : List DataCell} {b : BagOfCells} {mode : Mode}

theorem hashes_count_le {m : LevelMask} (hm : m.mask < 8) : m.get_hashes_count ≤ 4 := by
  obtain ⟨m⟩ := m
  revert m
  decide

theorem get_serialized_size_le {c : DataCell} (h : c.Made) (wh : Bool) : 2 ≤ c.get_serialized_size wh ∧ c.get_serialized_size wh ≤ 266 := by
  have hbits := h.le_max.1
  have hcount := hashes_count_le h.mask_lt
  rw [max_bits] at hbits
  rw [DataCell.get_serialized_size]
  simp only [hash_bytes, depth_bytes]
  split <;> omega

theorem sum_bounds {α : Type} {l : List α} {f : α → Nat} {lo hi : Nat} (h : ∀ a ∈ l, lo ≤ f a ∧ f a ≤ hi) :
    lo * l.length ≤ (l.map f).sum ∧ (l.map f).sum ≤ hi * l.length := by
  induction l with
  | nil => simp
  | cons a l ih =>
    obtain ⟨h1, h2⟩ := ih fun a ha => h a (by simp [ha])
    obtain ⟨h3, h4⟩ := h a (by simp)
    simp only [map_cons, sum_cons, length_cons, mul_succ]
    omega

/-- The hashes that the sizes count. -/
def countedHashes (mode : Mode) (b : BagOfCells) : Nat :=
  (if mode.WithTopHash then b.top_hashes else 0) + if mode.WithIntHashes then b.int_hashes else 0

/-- The bytes of the cells and their references. -/
def packedSize (mode : Mode) (b : BagOfCells) : Nat :=
  b.data_bytes + b.int_refs * count_bytes b.cell_count 0 + countedHashes mode b * (hash_bytes + depth_bytes)

/-- Only special cells carry hashes, since no cell is marked as a root. -/
theorem sum_stored_size (mode : Mode) (rs : Nat) {l : List CellInfo}
    (h : ∀ ci ∈ l, ci.hcnt = ci.dc_ref.get_level_mask.get_hashes_count ∧ ci.is_root_cell = false) :
    (l.map (stored_size mode rs)).sum = ((dcs l).map (get_serialized_size · false)).sum + ((dcs l).map get_refs_cnt).sum * rs +
      (if mode.WithIntHashes then special_hashes l else 0) * (hash_bytes + depth_bytes) := by
  induction l with
  | nil => simp [dcs, special_hashes]
  | cons ci l ih =>
    obtain ⟨hcnt, hroot⟩ := h ci (by simp)
    have ih := ih fun ci hci => h ci (by simp [hci])
    have hsize : ci.dc_ref.get_serialized_size (with_hash mode ci) = ci.dc_ref.get_serialized_size false +
        (if mode.WithIntHashes ∧ ci.wt = 0 then ci.hcnt else 0) * (hash_bytes + depth_bytes) := by
      rw [hcnt, DataCell.get_serialized_size, DataCell.get_serialized_size, with_hash, hroot]
      cases mode.WithIntHashes <;> by_cases hw : ci.wt = 0 <;> simp [hw]
    have hspecial : special_hashes (ci :: l) = (if ci.wt = 0 then ci.hcnt else 0) + special_hashes l := by
      rw [special_hashes, special_hashes, filter_cons]
      by_cases hw : ci.wt = 0 <;> simp [hw]
    simp only [dcs, map_cons, sum_cons] at ih ⊢
    rw [ih, stored_size, hsize, hspecial, Nat.add_mul]
    cases mode.WithIntHashes with
    | false =>
      simp only [Bool.false_eq_true, false_and, if_false]
      omega
    | true =>
      simp only [true_and, if_true, Nat.add_mul]
      omega

theorem Packed.sum_stored_size (h : Packed cells b) (mode : Mode) (rs : Nat) : (b.cell_list.map (stored_size mode rs)).sum =
    b.data_bytes + b.int_refs * rs + countedHashes mode b * (hash_bytes + depth_bytes) := by
  rw [Boc.sum_stored_size mode rs h.hcnt, ← h.data_bytes, ← h.int_refs, countedHashes, h.top_hashes, h.int_hashes, ite_self,
    Nat.zero_add]

/-- What `estimate_serialized_size` finds for a bag. -/
structure Estimated (b : BagOfCells) (mode : Mode) (info : Info) : Prop where
  fits : HeaderFits info
  cell_count : info.cell_count = b.cell_count
  root_count : info.root_count = b.root_count
  ref_byte_size : info.ref_byte_size = count_bytes b.cell_count 0
  data_size : info.data_size = packedSize mode b
  has_index : info.has_index = mode.WithIndex
  has_cache_bits : info.has_cache_bits = mode.WithCacheBits
  has_crc32c : info.has_crc32c = mode.WithCRC32C
  max_offset : (if info.has_cache_bits then packedSize mode b * 2 else packedSize mode b) < 256 ^ info.offset_byte_size
  total_size : info.total_size = (readInfo info info.root_count).total_size

theorem Packed.estimate (h : Packed cells b) (hmade : ∀ c ∈ subcellsList cells, c.Made)
    (hmode : mode.WithCacheBits = true → mode.WithIndex = true) (hcells : cells ≠ []) (hcount : b.cell_count < 2 ^ 31)
    (hroots : cells.length < 2 ^ 31) :
    ∃ info, b.estimate mode = some info ∧ Estimated b mode info := by
  have hlen : (dcs b.cell_list).length = b.cell_count := length_map _
  obtain ⟨c, hc⟩ := exists_mem_of_ne_nil cells hcells
  have hpos : 0 < b.cell_count := by
    rw [← hlen]
    exact length_pos_of_mem ((h.mem c).2 (mem_subcellsList.2 ⟨c, hc, mem_subcells_self c⟩))
  have hmade' : ∀ c ∈ dcs b.cell_list, c.Made := fun c hc => hmade c ((h.mem c).1 hc)
  have hbytes := (sum_bounds fun c hc => get_serialized_size_le (hmade' c hc) false).1
  rw [← h.data_bytes, hlen] at hbytes
  have hrs : 1 ≤ count_bytes b.cell_count 0 ∧ count_bytes b.cell_count 0 ≤ 4 :=
    ⟨count_bytes_pos hpos, count_bytes_le (Nat.zero_le _) (by omega)⟩
  have hsize : b.data_bytes ≤ packedSize mode b ∧ packedSize mode b ≤ 282 * b.cell_count := by
    refine ⟨by unfold packedSize; omega, ?_⟩
    rw [packedSize, ← h.sum_stored_size]
    refine (@sum_bounds _ _ _ 0 _ fun ci hci => ⟨Nat.zero_le _, ?_⟩).2
    have hc := hmade' _ (mem_dcs hci)
    have h1 := (get_serialized_size_le hc (with_hash mode ci)).2
    have h2 := Nat.mul_le_mul hc.le_max.2 hrs.2
    rw [stored_size]
    rw [max_refs] at h2
    omega
  have hmax : (if mode.WithCacheBits then packedSize mode b * 2 else packedSize mode b) < 256 ^ 6 ∧
      0 < (if mode.WithCacheBits then packedSize mode b * 2 else packedSize mode b) ∧
      packedSize mode b ≤ (if mode.WithCacheBits then packedSize mode b * 2 else packedSize mode b) := by
    split <;> omega
  have hroots' : b.root_count = cells.length := h.roots.length_eq.symm
  have hos := count_bytes_le (Nat.zero_le 6) hmax.1
  have hos1 := count_bytes_pos hmax.2.1
  have hfits := lt_count_bytes (if mode.WithCacheBits then packedSize mode b * 2 else packedSize mode b) 0
  have hsizes : b.compute_sizes mode = (packedSize mode b, count_bytes b.cell_count 0,
      count_bytes (if mode.WithCacheBits then packedSize mode b * 2 else packedSize mode b) 0) := by
    unfold compute_sizes
    rw [if_neg (by rw [hroots']; have := length_pos_of_mem hc; omega)]
    rw [packedSize, countedHashes] at hos ⊢
    dsimp only
    rw [if_neg (by omega)]
  have hcache : ¬(mode.WithCacheBits && !mode.WithIndex) = true := by
    intro hb
    simp only [Bool.and_eq_true, Bool.not_eq_true'] at hb
    rw [hmode hb.1] at hb
    cases hb.2
  unfold BagOfCells.estimate
  rw [if_neg hcache, hsizes]
  simp only
  rw [if_neg (by omega)]
  refine ⟨_, rfl, ⟨rfl, hrs, ⟨hos1, le_trans hos (by decide)⟩, ⟨hpos, lt_count_bytes _ _, hcount⟩, ?_, ⟨?_, ?_, ?_⟩, hmode⟩,
    rfl, rfl, rfl, rfl, rfl, rfl, rfl, hfits, rfl⟩
  · rw [hroots']
    exact hroots
  · exact lt_of_le_of_lt hmax.2.2 hfits
  · simp only
    omega
  · simp only
    omega

end Estimate

end Ton.Boc
