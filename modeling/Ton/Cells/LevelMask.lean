import Mathlib
/-!
# Level masks

`LevelMask.h`: bit `i` of the mask says that the cell has a hash of its own at
level `i + 1`. Masks of cells are below `2 ^ 3`.
-/

namespace Ton

structure LevelMask where
  mask : Nat
  deriving DecidableEq

namespace LevelMask

/-- The number of bits up to the highest one set, `32 - clz32`. -/
def get_level (m : LevelMask) : Nat := if m.mask = 0 then 0 else m.mask.log2 + 1

/-- `count_bits32`. -/
def get_hash_i (m : LevelMask) : Nat := (List.range 32).countP fun i => m.mask.testBit i

def get_hashes_count (m : LevelMask) : Nat := m.get_hash_i + 1

def apply (m : LevelMask) (level : Nat) : LevelMask := ⟨m.mask &&& (2 ^ level - 1)⟩

def apply_or (m other : LevelMask) : LevelMask := ⟨m.mask ||| other.mask⟩

def shift_right (m : LevelMask) : LevelMask := ⟨m.mask >>> 1⟩

def is_significant (m : LevelMask) (level : Nat) : Bool := level == 0 || (m.mask >>> (level - 1)) % 2 != 0

end LevelMask

end Ton
