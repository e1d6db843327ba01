import Mathlib.Data.List.Pairwise
import Ton.Boc.RoundTrip
/-!
# Bags of cells survive the round trip

`std_boc_deserialize` and `std_boc_deserialize_multi` on what `std_boc_serialize` and
`std_boc_serialize_multi` write. With one root the cell comes back as it was. The
header was made for one root: with several it may not hold their number, or be
rejected for having too few bytes of cells (`HeaderHolds`).
-/

namespace Ton.Boc
open BigEndian CellTraits Result BagOfCells DataCell List

/-- The cells below some cells, each once. -/
def distinct (cells : List DataCell) : List DataCell := (subcellsList cells).pwFilter fun a b => hash a ≠ hash b

/-- The counters of a bag are `int`s. -/
structure IntSized (cells : List DataCell) : Prop where
  cell_count : (distinct cells).length < 2 ^ 31
  int_refs : ((distinct cells).map get_refs_cnt).sum < 2 ^ 31

/-- The number of roots fits into the bytes that hold the number of cells, and the cells have as many
bytes as if all but one of them were referred to. -/
def HeaderHolds (roots : List DataCell) : Prop :=
  let cells := distinct roots
  let rs := count_bytes cells.length 0
  roots.length < 256 ^ rs ∧
    cells.length * (2 + rs) ≤ (cells.map (get_serialized_size · false)).sum + ((cells.map get_refs_cnt).sum + 1) * rs

instance (roots : List DataCell) : Decidable (HeaderHolds roots) := inferInstanceAs (Decidable (_ ∧ _))

section Distinct
variable {cells : List DataCell} {b : BagOfCells}

theorem mem_distinct (hinj : HashInj (subcellsList cells)) {c : DataCell} : c ∈ distinct cells ↔ c ∈ subcellsList cells := by
  refine ⟨fun h => pwFilter_subset _ h, ?_⟩
  intro hc
  by_contra hnot
  have hne : ∀ d ∈ distinct cells, hash c ≠ hash d := by
    intro d hd he
    exact hnot (hinj c hc d (pwFilter_subset _ hd) he ▸ hd)
  have htrans : ∀ {x y z : DataCell}, hash x ≠ hash z → hash x ≠ hash y ∨ hash y ≠ hash z := by
    intro x y z hxz
    by_contra h
    push Not at h
    exact hxz (h.1.trans h.2)
  exact (forall_mem_pwFilter (R := fun a b => hash a ≠ hash b) htrans c _).1 hne c hc rfl

theorem distinct_nodup (cells : List DataCell) : (distinct cells).Nodup := by
  refine Pairwise.imp ?_ (pairwise_pwFilter (R := fun a b => hash a ≠ hash b) _)
  intro c d hne he
  exact hne (congrArg hash he)

theorem Packed.perm_distinct (h : Packed cells b) (hinj : HashInj (subcellsList cells)) : (dcs b.cell_list).Perm (distinct cells) := by
  rw [perm_ext_iff_of_nodup (h.nodup.of_map _) (distinct_nodup cells)]
  intro c
  rw [h.mem, mem_distinct hinj]

theorem Packed.cell_count_eq (h : Packed cells b) (hinj : HashInj (subcellsList cells)) : b.cell_count = (distinct cells).length := by
  rw [← (h.perm_distinct hinj).length_eq, dcs, length_map, BagOfCells.cell_count]

/-- The header holds the bag. -/
def Holds (mode : Mode) (b : BagOfCells) : Prop :=
  b.root_count < 256 ^ count_bytes b.cell_count 0 ∧
    b.cell_count * (2 + count_bytes b.cell_count 0) - count_bytes b.cell_count 0 ≤ packedSize mode b

theorem Packed.headerHolds_iff (h : Packed cells b) (hinj : HashInj (subcellsList cells)) : HeaderHolds cells ↔
    b.root_count < 256 ^ count_bytes b.cell_count 0 ∧
      b.cell_count * (2 + count_bytes b.cell_count 0) - count_bytes b.cell_count 0 ≤
        b.data_bytes + b.int_refs * count_bytes b.cell_count 0 := by
  have hp := h.perm_distinct hinj
  rw [HeaderHolds, ← h.cell_count_eq hinj, ← (hp.map _).sum_nat, ← (hp.map _).sum_nat, ← h.int_refs, ← h.data_bytes,
    show b.root_count = cells.length from h.roots.length_eq.symm, Nat.add_mul, Nat.one_mul]
  refine and_congr_right fun _ => ?_
  omega

theorem Mode.Plain.holds_iff {mode : Mode} (hmode : mode.Plain) (h : Packed cells b) (hinj : HashInj (subcellsList cells)) :
    HeaderHolds cells ↔ Holds mode b := by
  rw [h.headerHolds_iff hinj, Holds, packedSize, countedHashes, hmode.top, hmode.int]
  simp

theorem Mode.Plain.linked {mode : Mode} (hmode : mode.Plain) (h : Packed cells b) (hmade : ∀ c ∈ subcellsList cells, c.Made) :
    Linked mode b.cell_list := by
  refine h.linked hmade fun ci hci => ?_
  rw [Fits, with_hash, hmode.top, hmode.int]
  simpa using (hmade _ ((h.mem _).1 (mem_dcs hci))).fits

end Distinct

section Multi
variable {roots : List DataCell} {mode : Mode}

theorem roots_add_roots (roots : List DataCell) (b : BagOfCells) :
    (b.add_roots roots).roots.map RootInfo.cell = b.roots.map RootInfo.cell ++ roots := by
  induction roots generalizing b with
  | nil => simp [add_roots]
  | cons root roots ih =>
    have := ih (b.add_root root)
    rw [add_roots, foldl_cons]
    rw [add_roots] at this
    rw [this]
    simp [add_root]

/-- A bag is packed from all roots, and found to have the sizes above. -/
theorem import_roots_packed (hne : roots ≠ []) (hmade : ∀ c ∈ roots, c.Made) (hinj : HashInj (subcellsList roots)) :
    ∃ b, (BagOfCells.add_roots {} roots).import_cells = .ok b ∧ Packed roots b :=
  import_cells_spec hinj (fun c hc => (hmade c hc).height_le) hne (by simpa using roots_add_roots roots {})

theorem check_roots_some (hlevel : ∀ c ∈ roots, c.get_level = 0) : check_roots (roots.map some) = .ok roots := by
  induction roots with
  | nil => rfl
  | cons c roots ih =>
    rw [map_cons, check_roots, if_neg (by simpa using hlevel c (by simp)), ih fun c hc => hlevel c (by simp [hc]), ok_bind]

variable {max_roots : Nat} {out : List DataCell}

theorem check_roots_length {roots : List (Option DataCell)} (h : check_roots roots = .ok out) :
    out.length = roots.length := by
  induction roots generalizing out with
  | nil =>
    cases h
    rfl
  | cons r roots ih =>
    cases r with
    | none => cases h
    | some r =>
      rw [check_roots] at h
      split at h
      · cases h
      · obtain ⟨rest, hrest, h⟩ := bind_ok.1 h
        cases h
        rw [length_cons, ih hrest, length_cons]

/-- What the round trip of a bag does, according to whether its header holds it. -/
theorem Packed.round_trip (crc32c : List Byte → BitVec 32) {b : BagOfCells} (hp : Packed roots b) (hne : roots ≠ [])
    (hmade : ∀ c ∈ roots, c.Made) (hl : Linked mode b.cell_list) (hcount : b.cell_count < 2 ^ 31)
    (hcache : mode.WithCacheBits = true → mode.WithIndex = true) (hmax : roots.length ≤ max_roots)
    (hmax_int : max_roots < 2 ^ 31) :
    ∃ bytes, b.serialize_to_slice crc32c mode = .ok bytes ∧ bytes.length = b.estimate_serialized_size mode ∧ bytes ≠ [] ∧
      (Holds mode b → ∃ size, deserialize crc32c bytes max_roots = .ok (size, roots.map some)) ∧
      (¬Holds mode b → ∀ size out, deserialize crc32c bytes max_roots = .ok (size, out) → out.length ≠ roots.length) := by
  have hmade' : ∀ c ∈ subcellsList roots, c.Made := fun c hc => Made.subcellsList hmade hc
  obtain ⟨info, hest, he⟩ := hp.estimate hmade' hcache hne hcount (lt_of_le_of_lt hmax hmax_int)
  obtain ⟨hser, hlen⟩ := he.serialize crc32c hest hp hl
  have hroots : b.root_count = roots.length := hp.roots.length_eq.symm
  have hpos := length_pos_of_ne_nil hne
  refine ⟨_, hser, hlen, ?_, ?_, ?_⟩
  · rw [← length_pos_iff, length_append, bufferBytes, length_append, headerBytes_length]
    omega
  · rintro ⟨hfit, hsize⟩
    rw [← he.ref_byte_size] at hfit hsize
    exact ⟨_, he.deserialize crc32c hp hl hfit (by omega) hsize (by omega)⟩
  · intro hnot size out hout
    rcases deserialize_length crc32c hout with rfl | ⟨info', hparse, hlen'⟩
    · simpa using hpos.ne
    · rw [bufferBytes, append_assoc, parse_header he.fits] at hparse
      split at hparse
      · cases hparse
      · next hok =>
        cases hparse
        rw [not_or, he.root_count, he.data_size, he.cell_count, Nat.not_lt] at hok
        rw [Holds, ← he.ref_byte_size] at hnot
        have hfit : ¬b.root_count < 256 ^ info.ref_byte_size := fun hfit => hnot ⟨hfit, hok.2⟩
        have hlt : b.root_count % 256 ^ info.ref_byte_size < 256 ^ info.ref_byte_size := Nat.mod_lt _ (by positivity)
        have hcut : out.length = b.root_count % 256 ^ info.ref_byte_size := by
          rw [hlen', ← he.root_count]
          rfl
        omega

/-- What the round trip of several roots does, according to whether the header holds the bag. -/
theorem multi_round_trip (crc32c : List Byte → BitVec 32) (hne : roots ≠ []) (hmade : ∀ c ∈ roots, c.Made)
    (hinj : HashInj (subcellsList roots)) (hint : IntSized roots) (hmode : mode.Plain) (hmax : roots.length ≤ max_roots)
    (hmax_int : max_roots < 2 ^ 31) :
    ∃ b bytes, (BagOfCells.add_roots {} roots).import_cells = .ok b ∧ Packed roots b ∧ b.serialize_to_slice crc32c mode = .ok bytes ∧
      bytes.length = b.estimate_serialized_size mode ∧ bytes ≠ [] ∧
      (HeaderHolds roots → ∃ size, deserialize crc32c bytes max_roots = .ok (size, roots.map some)) ∧
      (¬HeaderHolds roots → ∀ size out, deserialize crc32c bytes max_roots = .ok (size, out) → out.length ≠ roots.length) := by
  obtain ⟨b, himport, hp⟩ := import_roots_packed hne hmade hinj
  have hmade' : ∀ c ∈ subcellsList roots, c.Made := fun c hc => Made.subcellsList hmade hc
  have hcount : b.cell_count < 2 ^ 31 := by rw [hp.cell_count_eq hinj]; exact hint.cell_count
  obtain ⟨bytes, h⟩ := hp.round_trip crc32c hne hmade (hmode.linked hp hmade') hcount hmode.cache hmax hmax_int
  rw [← hmode.holds_iff hp hinj] at h
  exact ⟨b, bytes, himport, hp, h⟩

theorem headerHolds_of_round_trip {crc32c : List Byte → BitVec 32} (hne : roots ≠ []) (hmade : ∀ c ∈ roots, c.Made)
    (hinj : HashInj (subcellsList roots)) (hint : IntSized roots) (hmode : mode.Plain) (hmax : roots.length ≤ max_roots)
    (hmax_int : max_roots < 2 ^ 31) {bytes : List Byte}
    (hser : std_boc_serialize_multi crc32c roots mode = .ok bytes)
    (hdes : std_boc_deserialize_multi crc32c bytes max_roots = .ok out) (hhash : out.map hash = roots.map hash) :
    HeaderHolds roots := by
  obtain ⟨b, bytes', himport, hp, hser', -, hne', -, hfail⟩ := multi_round_trip crc32c hne hmade hinj hint hmode hmax hmax_int
  rw [std_boc_serialize_multi, if_neg hne, himport, ok_bind, hser'] at hser
  cases hser
  by_contra hnot
  rw [std_boc_deserialize_multi, if_neg hne'] at hdes
  obtain ⟨⟨size, roots'⟩, hroots', hdes⟩ := bind_ok.1 hdes
  refine hfail hnot size roots' hroots' ?_
  rw [← check_roots_length hdes, ← length_map hash, hhash, length_map]

theorem serialize_multi_cache_bits (crc32c : List Byte → BitVec 32) (hne : roots ≠ []) (hcache : mode.WithCacheBits = true)
    (hindex : mode.WithIndex = false) : ∃ e, std_boc_serialize_multi crc32c roots mode = .error e := by
  have hzero : ∀ b : BagOfCells, b.estimate_serialized_size mode = 0 := by
    intro b
    rw [estimate_serialized_size, BagOfCells.estimate, hcache, hindex]
    rfl
  rw [std_boc_serialize_multi, if_neg hne]
  cases (BagOfCells.add_roots {} roots).import_cells with
  | error e => exact ⟨e, rfl⟩
  | ok b =>
    rw [ok_bind, serialize_to_slice, hzero]
    exact ⟨_, rfl⟩

end Multi

/-! ## One root -/

section Single
variable {root : DataCell}

theorem distinct_length_le (hinj : HashInj (subcellsList [root])) :
    (distinct [root]).length ≤ ((distinct [root]).map get_refs_cnt).sum + 1 := by
  have hsub : distinct [root] ⊆ root :: children (distinct [root]) := by
    intro c hc
    rcases mem_subcellsList_cases ((mem_distinct hinj).1 hc) with h | ⟨e, he, h⟩
    · rw [mem_singleton.1 h]
      exact mem_cons_self
    · exact mem_cons_of_mem _ (mem_flatMap.2 ⟨e, (mem_distinct hinj).2 he, h⟩)
  have hle := (subperm_of_subset (distinct_nodup _) hsub).length_le
  rw [length_cons, children, length_flatMap] at hle
  exact hle

theorem headerHolds_single (hmade : root.Made) (hinj : HashInj (subcellsList [root])) : HeaderHolds [root] := by
  have hroots : ∀ c ∈ [root], c.Made := by simpa using hmade
  have hmade' : ∀ c ∈ distinct [root], c.Made := fun c hc => Made.subcellsList hroots ((mem_distinct hinj).1 hc)
  have hroot : root ∈ distinct [root] := (mem_distinct hinj).2 (mem_subcellsList.2 ⟨root, by simp, mem_subcells_self root⟩)
  have hrs := count_bytes_pos (length_pos_of_mem hroot)
  have hbytes := (sum_bounds fun c hc => get_serialized_size_le (hmade' c hc) false).1
  have hrefs := Nat.mul_le_mul_right (count_bytes (distinct [root]).length 0) (distinct_length_le hinj)
  constructor
  · calc [root].length < 256 ^ 1 := by simp
      _ ≤ 256 ^ count_bytes (distinct [root]).length 0 := Nat.pow_le_pow_right (by decide) hrs
  · rw [Nat.mul_add]
    omega

end Single

/-- A cell of level zero, written into a bag in any mode without hashes, is read back. The bytes are as
many as estimated, the bag has each hash below the root once, and all references go forward. -/
theorem boc_round_trip (crc32c : List Byte → BitVec 32) (root : DataCell) (hmade : root.Made) (hlevel : root.get_level = 0)
    (hinj : HashInj (subcellsList [root])) (hint : IntSized [root]) (mode : Mode) (hmode : mode.Plain) (can_be_empty : Bool) :
    ∃ b bytes, (BagOfCells.add_root {} root).import_cells = .ok b ∧ std_boc_serialize crc32c (some root) mode = .ok bytes ∧
      std_boc_deserialize crc32c bytes can_be_empty = .ok (some root) ∧
      bytes.length = b.estimate_serialized_size mode ∧
      (∀ h, ((dcs b.cell_list).map hash).count h = if h ∈ (subcells root).map hash then 1 else 0) ∧
      ∀ (i : Nat) (ci : CellInfo), b.cell_list[i]? = some ci → ∀ r ∈ ci.ref_idx, b.cell_count - 1 - i < b.cell_count - 1 - r := by
  obtain ⟨b, bytes, himport, hp, hser, hlen, hne, hok, -⟩ := multi_round_trip crc32c (show [root] ≠ [] by simp)
    (by simpa using hmade) hinj hint hmode (show [root].length ≤ 1 from le_refl 1) (by decide)
  obtain ⟨size, hdes⟩ := hok (headerHolds_single hmade hinj)
  refine ⟨b, bytes, himport, ?_, ?_, hlen, ?_, ?_⟩
  · have himport' : (BagOfCells.add_root {} root).import_cells = .ok b := himport
    rw [std_boc_serialize, himport', ok_bind, hser]
  · rw [std_boc_deserialize, if_neg (fun h => hne h.1), hdes, ok_bind]
    simp only [map_cons, map_nil]
    rw [if_neg (by simpa using hlevel)]
  · intro h
    have hmem : h ∈ (dcs b.cell_list).map hash ↔ h ∈ (subcells root).map hash := by
      simp only [mem_map, hp.mem, subcellsList, append_nil]
    split
    · next hin => exact count_eq_one_of_mem hp.nodup (hmem.2 hin)
    · next hnot => exact count_eq_zero.2 fun hin => hnot (hmem.1 hin)
  · intro i ci hi r hr
    obtain ⟨c, -, hlt, -⟩ := exists_of_forall₂ (hp.refs i ci hi).flip hr
    have := (List.getElem?_eq_some_iff.1 hi).1
    rw [BagOfCells.cell_count]
    omega

/-- CRC-32C bit by bit. -/
def castagnoli (data : List Byte) : BitVec 32 :=
  ~~~ data.foldl (fun crc b => (List.range 8).foldl
    (fun crc _ => if crc.getLsbD 0 then (crc >>> 1) ^^^ 0x82f63b78 else crc >>> 1) (crc ^^^ b.setWidth 32)) 0xffffffff

/-- A cell that refers to another twice, with index, cache bits and CRC. -/
theorem boc_round_trip_shared_leaf :
    let leaf := created [true] [] false
    let root := created [false] [leaf, leaf] false
    let mode : Mode := { WithIndex := true, WithCRC32C := true, WithCacheBits := true }
    ∃ bytes, std_boc_serialize castagnoli (some root) mode = .ok bytes ∧
      std_boc_deserialize castagnoli bytes false = .ok (some root) := by
  intro leaf root mode
  have hleaf : DataCell.create [true] [] false = .ok leaf := create_created (by decide +kernel)
  have hroot : DataCell.create [false] [leaf, leaf] false = .ok root := create_created (by decide +kernel)
  have hsub : subcellsList [root] = [root, leaf, leaf] := by
    obtain ⟨-, -, e⟩ := create_fields hroot
    obtain ⟨-, -, e'⟩ := create_fields hleaf
    simp [subcellsList, subcells_eq, e, e']
  have hmade : root.Made := .create (by
    intro r hr
    rw [show r = leaf by simpa using hr]
    exact .create (by simp) hleaf) hroot
  have hinj : HashInj (subcellsList [root]) := by
    have hne : hash root ≠ hash leaf := by decide +kernel
    rw [hsub]
    intro a ha b hb he
    simp only [mem_cons, not_mem_nil, or_false, or_self] at ha hb
    rcases ha with rfl | rfl <;> rcases hb with rfl | rfl
    · rfl
    · exact absurd he hne
    · exact absurd he.symm hne
    · rfl
  obtain ⟨-, bytes, -, hser, hdes, -⟩ := boc_round_trip castagnoli root hmade (by decide +kernel) hinj
    ⟨by decide +kernel, by decide +kernel⟩ mode ⟨rfl, rfl, fun _ => rfl⟩ false
  exact ⟨bytes, hser, hdes⟩

/-! ## Several roots -/

/-- Roots written into one bag come back in order exactly when cache bits come with an index and the
header holds the bag. -/
theorem boc_multi_round_trip_iff (crc32c : List Byte → BitVec 32) (roots : List DataCell) (hne : roots ≠ [])
    (hmade : ∀ c ∈ roots, c.Made) (hlevel : ∀ c ∈ roots, c.get_level = 0) (hinj : HashInj (subcellsList roots))
    (hint : IntSized roots) (mode : Mode) (htop : mode.WithTopHash = false) (hinth : mode.WithIntHashes = false) (max_roots : Nat)
    (hmax : roots.length ≤ max_roots) (hmax_int : max_roots < 2 ^ 31) :
    (∃ bytes out, std_boc_serialize_multi crc32c roots mode = .ok bytes ∧
      std_boc_deserialize_multi crc32c bytes max_roots = .ok out ∧ out.map hash = roots.map hash) ↔
    (mode.WithCacheBits = true → mode.WithIndex = true) ∧ HeaderHolds roots := by
  constructor
  · rintro ⟨bytes, out, hser, hdes, hhash⟩
    have hcache : mode.WithCacheBits = true → mode.WithIndex = true := by
      intro hc
      by_contra hi
      obtain ⟨e, he⟩ := serialize_multi_cache_bits crc32c hne hc (by simpa using hi)
      rw [he] at hser
      cases hser
    exact ⟨hcache, headerHolds_of_round_trip hne hmade hinj hint ⟨htop, hinth, hcache⟩ hmax hmax_int hser hdes hhash⟩
  · rintro ⟨hcache, hholds⟩
    obtain ⟨b, bytes, himport, hp, hser, -, hne', hok, -⟩ := multi_round_trip crc32c hne hmade hinj hint ⟨htop, hinth, hcache⟩
      hmax hmax_int
    obtain ⟨size, hdes⟩ := hok hholds
    refine ⟨bytes, roots, ?_, ?_, rfl⟩
    · rw [std_boc_serialize_multi, if_neg hne, himport, ok_bind, hser]
    · rw [std_boc_deserialize_multi, if_neg hne', hdes, ok_bind]
      exact check_roots_some hlevel

/-- Two roots that are one cell. -/
theorem boc_multi_round_trip_iff_two_copies :
    let cell := created [true] [] false
    ∃ bytes out, std_boc_serialize_multi castagnoli [cell, cell] { WithCRC32C := true } = .ok bytes ∧
      std_boc_deserialize_multi castagnoli bytes 2 = .ok out ∧ out.map hash = [cell, cell].map hash := by
  intro cell
  have hcell : DataCell.create [true] [] false = .ok cell := create_created (by decide +kernel)
  have hmade : cell.Made := .create (by simp) hcell
  have hsub : subcellsList [cell, cell] = [cell, cell] := by
    obtain ⟨-, -, e⟩ := create_fields hcell
    simp [subcellsList, subcells_eq, e]
  have hinj : HashInj (subcellsList [cell, cell]) := by
    rw [hsub]
    intro a ha b hb _
    simp only [mem_cons, not_mem_nil, or_false, or_self] at ha hb
    rw [ha, hb]
  have hlevel : cell.get_level = 0 := by decide +kernel
  refine (boc_multi_round_trip_iff castagnoli [cell, cell] (by simp) (by simpa using hmade) (by simpa using hlevel) hinj
    ⟨by decide +kernel, by decide +kernel⟩ _ rfl rfl 2 (le_refl 2) (by decide)).2 ⟨fun h => (by cases h), by decide +kernel⟩

/-- The number of 256 copies of one cell is stored in one byte, as zero. -/
theorem boc_multi_256_copies_rejected :
    let roots := List.replicate 256 (created [] [] false)
    ¬∃ bytes out, std_boc_serialize_multi castagnoli roots {} = .ok bytes ∧
      std_boc_deserialize_multi castagnoli bytes 256 = .ok out ∧ out.map hash = roots.map hash := by
  rintro roots ⟨bytes, out, hser, hdes, hhash⟩
  have hcell : DataCell.create [] [] false = .ok (created [] [] false) := create_created (by decide +kernel)
  have hmem : ∀ c ∈ roots, c = created [] [] false := fun c hc => eq_of_mem_replicate hc
  have hmade : ∀ c ∈ roots, c.Made := fun c hc => hmem c hc ▸ .create (by simp) hcell
  have hinj : HashInj (subcellsList roots) := by
    have hsub : ∀ c ∈ subcellsList roots, c = created [] [] false := by
      intro c hc
      obtain ⟨r, hr, hc⟩ := mem_subcellsList.1 hc
      obtain ⟨-, -, e⟩ := create_fields hcell
      rw [hmem r hr, subcells_eq, e] at hc
      simpa [subcellsList] using hc
    intro a ha b hb _
    rw [hsub a ha, hsub b hb]
  have hmode : Mode.Plain {} := ⟨rfl, rfl, fun h => (by cases h)⟩
  have hholds := headerHolds_of_round_trip (by decide) hmade hinj ⟨by decide +kernel, by decide +kernel⟩ hmode
    (le_of_eq (length_replicate ..)) (by decide) hser hdes hhash
  exact absurd hholds (by decide +kernel)

end Ton.Boc
