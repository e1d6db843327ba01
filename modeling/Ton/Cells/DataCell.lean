import Ton.Lib.Result
import Ton.Lib.Sha256
import Ton.Cells.LevelMask
/-!
# Data cells

`DataCell.cpp`. A cell stores its level mask and, for each significant level,
a hash and a depth, computed once by `create` from those of its references. A
pruned branch keeps only its own hash and reads the others from its data.

References are data cells here, so virtualization is zero throughout.
-/

namespace Ton

open BigEndian Sha256 Result

abbrev Hash := List Byte

inductive SpecialType where
  | Ordinary
  | PrunnedBranch
  | Library
  | MerkleProof
  | MerkleUpdate
  | Unknown (code : Nat)
  deriving DecidableEq

def SpecialType.ofCode : Nat → SpecialType
  | 0 => .Ordinary
  | 1 => .PrunnedBranch
  | 2 => .Library
  | 3 => .MerkleProof
  | 4 => .MerkleUpdate
  | n => .Unknown n

namespace CellTraits
def max_refs : Nat := 4
def max_bits : Nat := 1023
def hash_bytes : Nat := 32
def hash_bits : Nat := 256
def depth_bytes : Nat := 2
def max_level : Nat := 3
def max_depth : Nat := 1024
end CellTraits

open CellTraits

inductive DataCell where
  | mk (special : Bool) (data : List Bool) (refs : List DataCell) (level_mask : LevelMask) (hashes : List Hash)
      (depths : List Nat)

namespace DataCell

def is_special : DataCell → Bool
  | mk s _ _ _ _ _ => s

def data : DataCell → List Bool
  | mk _ d _ _ _ _ => d

def refs : DataCell → List DataCell
  | mk _ _ r _ _ _ => r

def get_level_mask : DataCell → LevelMask
  | mk _ _ _ m _ _ => m

/-- The stored hashes. -/
def hashes : DataCell → List Hash
  | mk _ _ _ _ h _ => h

/-- The stored depths. -/
def depths : DataCell → List Nat
  | mk _ _ _ _ _ d => d

def get_bits (c : DataCell) : Nat := c.data.length

def get_refs_cnt (c : DataCell) : Nat := c.refs.length

def get_level (c : DataCell) : Nat := c.get_level_mask.get_level

/-- The data in whole bytes: a partial last byte is completed by a one and zeros. -/
def dataBytes (bits : List Bool) : List Byte :=
  if bits.length % 8 = 0 then bitsToBytes bits
  else bitsToBytes (bits ++ true :: List.replicate (7 - bits.length % 8) false)

def get_data (c : DataCell) : List Byte := dataBytes c.data

/-- The type named by the first byte of a special cell. -/
def special_type (c : DataCell) : SpecialType :=
  if c.is_special then .ofCode (ofBits (c.data.take 8)) else .Ordinary

/-- `do_get_hash`. -/
def get_hash (c : DataCell) (level : Nat) : Hash :=
  let hash_i := (c.get_level_mask.apply level).get_hash_i
  if c.special_type = .PrunnedBranch then
    let this_hash_i := c.get_level_mask.get_hash_i
    if hash_i ≠ this_hash_i then (c.get_data.drop (2 + hash_bytes * hash_i)).take hash_bytes
    else c.hashes.getD 0 []
  else c.hashes.getD hash_i []

/-- `do_get_depth`. -/
def get_depth (c : DataCell) (level : Nat) : Nat :=
  let hash_i := (c.get_level_mask.apply level).get_hash_i
  if c.special_type = .PrunnedBranch then
    let this_hash_i := c.get_level_mask.get_hash_i
    if hash_i ≠ this_hash_i then
      ofBytes ((c.get_data.drop (2 + hash_bytes * this_hash_i + hash_i * depth_bytes)).take depth_bytes)
    else c.depths.getD 0 0
  else c.depths.getD hash_i 0

/-- `Info::d1`. -/
def d1 (refs_count : Nat) (is_special : Bool) (level_mask : LevelMask) : Byte :=
  BitVec.ofNat 8 (refs_count + 8 * is_special.toNat + 32 * level_mask.mask)

/-- `Info::d2`. -/
def d2 (bits : Nat) : Byte := BitVec.ofNat 8 (bits / 8 * 2 + if bits % 8 ≠ 0 then 1 else 0)

/-- The level mask a new cell of the given type gets, after the checks that
`create` makes for that type. -/
def check_type (type : SpecialType) (data : List Bool) (refs : List DataCell) : Except String LevelMask :=
  match type with
  | .Ordinary => .ok (refs.foldl (fun m r => m.apply_or r.get_level_mask) ⟨0⟩)
  | .PrunnedBranch =>
    if refs.length ≠ 0 then .error "PrunnedBranch special cell has a cell reference"
    else if data.length < 16 then .error "Not enough data for a PrunnedBranch special cell"
    else
      let level_mask : LevelMask := ⟨ofBits ((data.drop 8).take 8)⟩
      let level := level_mask.get_level
      if level > max_level ∨ level = 0 then .error "Prunned Branch has an invalid level"
      else if data.length ≠ (2 + (level_mask.apply (level - 1)).get_hashes_count * (hash_bytes + depth_bytes)) * 8 then
        .error "Not enouch data for a PrunnedBranch special cell"
      else .ok level_mask
  | .Library =>
    if data.length ≠ 8 + hash_bytes * 8 then .error "Not enouch data for a Library special cell" else .ok ⟨0⟩
  | .MerkleProof =>
    if data.length ≠ 8 + (hash_bytes + depth_bytes) * 8 then .error "Not enouch data for a MerkleProof special cell"
    else match refs with
      | [r] =>
        if (data.drop 8).take hash_bits ≠ bytesToBits (r.get_hash 0) then
          .error "Hash mismatch in a MerkleProof special cell"
        else if ofBits ((data.drop (8 + hash_bits)).take (depth_bytes * 8)) ≠ r.get_depth 0 then
          .error "Depth mismatch in a MerkleProof special cell"
        else .ok r.get_level_mask.shift_right
      | _ => .error "Wrong references count for a MerkleProof special cell"
  | .MerkleUpdate =>
    if data.length ≠ 8 + (hash_bytes + depth_bytes) * 8 * 2 then .error "Not enouch data for a MerkleUpdate special cell"
    else match refs with
      | [r0, r1] =>
        if (data.drop 8).take hash_bits ≠ bytesToBits (r0.get_hash 0) then
          .error "First hash mismatch in a MerkleProof special cell"
        else if (data.drop (8 + hash_bits)).take hash_bits ≠ bytesToBits (r1.get_hash 0) then
          .error "Second hash mismatch in a MerkleProof special cell"
        else if ofBits ((data.drop (8 + 2 * hash_bits)).take (depth_bytes * 8)) ≠ r0.get_depth 0 then
          .error "First depth mismatch in a MerkleProof special cell"
        else if ofBits ((data.drop (8 + 2 * hash_bits + depth_bytes * 8)).take (depth_bytes * 8)) ≠ r1.get_depth 0 then
          .error "Second depth mismatch in a MerkleProof special cell"
        else .ok (r0.get_level_mask.apply_or r1.get_level_mask).shift_right
      | _ => .error "Wrong references count for a MerkleUpdate special cell"
  | .Unknown _ => .error "Unknown special cell type"

/-- The level at which a cell of the given type looks at its references. -/
def childLevel (type : SpecialType) (level_i : Nat) : Nat :=
  if type = .MerkleProof ∨ type = .MerkleUpdate then level_i + 1 else level_i

/-- The bytes hashed at `level_i`, where `content` is the data or the hash one
significant level below. -/
def hashInput (special : Bool) (bits : Nat) (refs : List DataCell) (level_mask : LevelMask) (content : List Byte)
    (child_level level_i : Nat) : List Byte :=
  [d1 refs.length special (level_mask.apply level_i), d2 bits] ++ content ++
    refs.flatMap (fun r => toBytes depth_bytes (r.get_depth child_level)) ++ refs.flatMap (fun r => r.get_hash child_level)

/-- The depth at `level_i`, before the check against `max_depth`. -/
def maxDepth (refs : List DataCell) (child_level : Nat) : Nat := refs.foldl (fun d r => max d (r.get_depth child_level)) 0

/-- The loop of `create` over the significant levels `ls`: the hashes and depths
computed so far are extended by those of each level. -/
def hashLoop (special : Bool) (type : SpecialType) (data : List Bool) (refs : List DataCell) (level_mask : LevelMask) :
    List Nat → List Hash → List Nat → Except String (List Hash × List Nat)
  | [], hashes, depths => .ok (hashes, depths)
  | level_i :: ls, hashes, depths =>
    let child_level := childLevel type level_i
    let content := hashes.getLastD (dataBytes data)
    let depth := maxDepth refs child_level
    if refs.length ≠ 0 ∧ depth ≥ max_depth then .error "Depth is too big"
    else
      let hash := sha256 (hashInput special data.length refs level_mask content child_level level_i)
      hashLoop special type data refs level_mask ls (hashes ++ [hash]) (depths ++ [if refs.length ≠ 0 then depth + 1 else depth])

/-- The levels of the hashes a cell stores: all significant ones, or only the
last for a pruned branch. -/
def hashLevels (type : SpecialType) (level_mask : LevelMask) : List Nat :=
  let levels := (List.range (level_mask.get_level + 1)).filter level_mask.is_significant
  let hash_count := if type = .PrunnedBranch then 1 else level_mask.get_hashes_count
  levels.drop (level_mask.get_hashes_count - hash_count)

/-- The type of a new cell. -/
def new_type (data : List Bool) (special : Bool) : Except String SpecialType :=
  if !special then .ok .Ordinary
  else if data.length < 8 then .error "Not enough data for a special cell"
  else if ofBits (data.take 8) = 0 then .error "Special cell has Ordinary type"
  else .ok (SpecialType.ofCode (ofBits (data.take 8)))

def create (data : List Bool) (refs : List DataCell) (special : Bool) : Except String DataCell := do
  let type ← new_type data special
  let level_mask ← check_type type data refs
  if data.length > max_bits then .error "Too many bits"
  else if refs.length > max_refs then .error "Too many cell references"
  else
    let (hashes, depths) ← hashLoop special type data refs level_mask (hashLevels type level_mask) [] []
    .ok (mk special data refs level_mask hashes depths)

@[simp] theorem new_type_ordinary (data : List Bool) : new_type data false = .ok .Ordinary := rfl

section
variable {data : List Bool} {refs : List DataCell} {special : Bool} {c : DataCell} (h : create data refs special = .ok c)
include h

theorem create_ok : ∃ type m hashes depths, new_type data special = .ok type ∧
      check_type type data refs = .ok m ∧ data.length ≤ max_bits ∧ refs.length ≤ max_refs ∧
      hashLoop special type data refs m (hashLevels type m) [] [] = .ok (hashes, depths) ∧
      c = mk special data refs m hashes depths := by
  obtain ⟨type, htype, h⟩ := bind_ok.1 h
  obtain ⟨m, hm, h⟩ := bind_ok.1 h
  split at h
  · cases h
  · next hbits =>
    split at h
    · cases h
    · next hrefs =>
      obtain ⟨⟨hashes, depths⟩, hloop, h⟩ := bind_ok.1 h
      cases h
      exact ⟨type, m, hashes, depths, htype, hm, Nat.le_of_not_lt hbits, Nat.le_of_not_lt hrefs, hloop, rfl⟩

theorem create_fields : c.is_special = special ∧ c.data = data ∧ c.refs = refs := by
  obtain ⟨type, m, hashes, depths, -, -, -, -, -, rfl⟩ := create_ok h
  exact ⟨rfl, rfl, rfl⟩

end

/-! ## What `create` checks -/

section CheckType
variable {data : List Bool} {refs : List DataCell} {m : LevelMask}

theorem check_type_pruned (h : check_type .PrunnedBranch data refs = .ok m) : refs = [] ∧ 16 ≤ data.length ∧
    m = ⟨ofBits ((data.drop 8).take 8)⟩ ∧ 1 ≤ m.get_level ∧ m.get_level ≤ max_level ∧
    data.length = (2 + (m.apply (m.get_level - 1)).get_hashes_count * (hash_bytes + depth_bytes)) * 8 := by
  unfold check_type at h
  dsimp only at h
  split at h
  · cases h
  · next hrefs =>
    split at h
    · cases h
    · next hdata =>
      split at h
      · cases h
      · next hlevel =>
        split at h
        · cases h
        · next hlen =>
          cases h
          exact ⟨List.eq_nil_of_length_eq_zero (not_not.1 hrefs), by omega, rfl, by omega, by omega, not_not.1 hlen⟩

theorem check_type_library (h : check_type .Library data refs = .ok m) : m = ⟨0⟩ ∧ data.length = 8 + hash_bytes * 8 := by
  unfold check_type at h
  dsimp only at h
  split at h
  · cases h
  · next hlen =>
    cases h
    exact ⟨rfl, not_not.1 hlen⟩

theorem check_type_merkle_proof (h : check_type .MerkleProof data refs = .ok m) : ∃ r, refs = [r] ∧
    data.length = 8 + (hash_bytes + depth_bytes) * 8 ∧ (data.drop 8).take hash_bits = bytesToBits (r.get_hash 0) ∧
    ofBits ((data.drop (8 + hash_bits)).take (depth_bytes * 8)) = r.get_depth 0 ∧ m = r.get_level_mask.shift_right := by
  unfold check_type at h
  dsimp only at h
  split at h
  · cases h
  · next hlen =>
    match refs, h with
    | [r], h =>
      dsimp only at h
      split at h
      · cases h
      · next hhash =>
        split at h
        · cases h
        · next hdepth =>
          cases h
          exact ⟨r, rfl, not_not.1 hlen, not_not.1 hhash, not_not.1 hdepth, rfl⟩

theorem check_type_merkle_update (h : check_type .MerkleUpdate data refs = .ok m) : ∃ r0 r1, refs = [r0, r1] ∧
    data.length = 8 + (hash_bytes + depth_bytes) * 8 * 2 ∧ (data.drop 8).take hash_bits = bytesToBits (r0.get_hash 0) ∧
    (data.drop (8 + hash_bits)).take hash_bits = bytesToBits (r1.get_hash 0) ∧
    ofBits ((data.drop (8 + 2 * hash_bits)).take (depth_bytes * 8)) = r0.get_depth 0 ∧
    ofBits ((data.drop (8 + 2 * hash_bits + depth_bytes * 8)).take (depth_bytes * 8)) = r1.get_depth 0 ∧
    m = (r0.get_level_mask.apply_or r1.get_level_mask).shift_right := by
  unfold check_type at h
  dsimp only at h
  split at h
  · cases h
  · next hlen =>
    match refs, h with
    | [r0, r1], h =>
      dsimp only at h
      split at h
      · cases h
      · next hhash0 =>
        split at h
        · cases h
        · next hhash1 =>
          split at h
          · cases h
          · next hdepth0 =>
            split at h
            · cases h
            · next hdepth1 =>
              cases h
              exact ⟨r0, r1, rfl, not_not.1 hlen, not_not.1 hhash0, not_not.1 hhash1, not_not.1 hdepth0,
                not_not.1 hdepth1, rfl⟩

end CheckType

/-- The cells that `create` can build. -/
inductive Made : DataCell → Prop
  | create {data : List Bool} {refs : List DataCell} {special : Bool} {c : DataCell} :
      (∀ r ∈ refs, Made r) → DataCell.create data refs special = .ok c → Made c

theorem Made.refs {c : DataCell} (h : c.Made) : ∀ r ∈ c.refs, r.Made := by
  cases h with
  | create hrefs hc =>
    obtain ⟨-, -, e⟩ := create_fields hc
    rwa [e]

theorem Made.create_self {c : DataCell} (h : c.Made) : DataCell.create c.data c.refs c.is_special = .ok c := by
  cases h with
  | create hrefs hc =>
    obtain ⟨e1, e2, e3⟩ := create_fields hc
    rwa [e1, e2, e3]

/-- The cell that `create` makes, for arguments that it accepts. -/
def created (data : List Bool) (refs : List DataCell) (special : Bool) : DataCell :=
  (create data refs special).toOption.getD (mk false [] [] ⟨0⟩ [] [])

theorem create_created {data : List Bool} {refs : List DataCell} {special : Bool}
    (h : (create data refs special).toOption.isSome = true) : create data refs special = .ok (created data refs special) := by
  obtain ⟨c, hc⟩ := exists_ok_of_isSome h
  rw [created, hc]
  rfl

theorem or_mask_lt {refs : List DataCell} (h : ∀ r ∈ refs, r.get_level_mask.mask < 8) {m : LevelMask} (hm : m.mask < 8) :
    (refs.foldl (fun m r => m.apply_or r.get_level_mask) m).mask < 8 := by
  induction refs generalizing m with
  | nil => exact hm
  | cons r refs ih =>
    exact ih (fun r hr => h r (by simp [hr])) (Nat.or_lt_two_pow (n := 3) hm (h r (by simp)))

theorem Made.mask_lt {c : DataCell} (h : c.Made) : c.get_level_mask.mask < 8 := by
  induction h with
  | @create data refs special c hrefs hc ih =>
    obtain ⟨type, m, hashes, depths, -, hm, -, -, -, rfl⟩ := create_ok hc
    show m.mask < 8
    cases type with
    | Ordinary =>
      cases hm
      exact or_mask_lt ih (by decide)
    | PrunnedBranch =>
      obtain ⟨-, -, -, -, hlevel, -⟩ := check_type_pruned hm
      by_contra hge
      have h0 : m.mask ≠ 0 := by omega
      have hlog := (Nat.le_log2 h0).2 (show 2 ^ 3 ≤ m.mask by omega)
      rw [LevelMask.get_level, if_neg h0, max_level] at hlevel
      omega
    | Library =>
      obtain ⟨rfl, -⟩ := check_type_library hm
      decide
    | MerkleProof =>
      obtain ⟨r, rfl, -, -, -, rfl⟩ := check_type_merkle_proof hm
      have := ih r (by simp)
      simp only [LevelMask.shift_right, Nat.shiftRight_eq_div_pow]
      omega
    | MerkleUpdate =>
      obtain ⟨r0, r1, rfl, -, -, -, -, -, rfl⟩ := check_type_merkle_update hm
      have := Nat.or_lt_two_pow (n := 3) (ih r0 (by simp)) (ih r1 (by simp))
      simp only [LevelMask.shift_right, LevelMask.apply_or, Nat.shiftRight_eq_div_pow]
      omega
    | Unknown n => cases hm

end DataCell

end Ton
