import Ton.BigInt.Product
import Ton.BigInt.Shift
import Ton.Cells.Slice
/-!
# Storage fees

`StoragePrices::compute_storage_fees` of `transaction.cpp`: what an account owes for the
time since it was charged last. The sums are kept in words that are not normalised, and
neither is the result.
-/

namespace Ton.Fees

open BigInt

abbrev UnixTime := Nat

structure StoragePrices where
  valid_since : UnixTime
  bit_price : Nat
  cell_price : Nat
  mc_bit_price : Nat
  mc_cell_price : Nat
deriving Inhabited

structure CellStorageStat where
  cells : Nat
  bits : Nat

def add_partial_storage_payment (payment : AnyIntView) (delta : UnixTime) (prices : StoragePrices) (storage : CellStorageStat)
    (is_mc : Bool) : Except Exc AnyIntView :=
  let c := bigInt 257 [word storage.cells]
  let b := bigInt 257 [word storage.bits]
  let c := c.mul_short (word (if is_mc then prices.mc_cell_price else prices.cell_price))
  let b := b.mul_short (word (if is_mc then prices.mc_bit_price else prices.bit_price))
  let b := (b.add_any c).mul_short delta
  if b.sgn ≥ 0 then .ok (payment.add_any b) else .error .check

namespace StoragePrices

/-- `while (i && pricing[i - 1].valid_since > last_paid) --i`. -/
def last_valid (pricing : List StoragePrices) (last_paid : UnixTime) : Nat → Nat
  | 0 => 0
  | i + 1 => if (pricing.getD i default).valid_since > last_paid then last_valid pricing last_paid i else i + 1

/-- The loop over the prices from the one in force on. -/
def charge (now : UnixTime) (storage_stat : CellStorageStat) (is_masterchain : Bool) :
    UnixTime → AnyIntView → List StoragePrices → Except Exc AnyIntView
  | _, total, [] => .ok total
  | upto, total, p :: rest =>
    if upto < now then do
      let valid_until := match rest with
        | [] => now
        | q :: _ => min now q.valid_since
      let total ← if upto < valid_until then
          if upto ≥ p.valid_since then add_partial_storage_payment total (valid_until - upto) p storage_stat is_masterchain
          else .error .check
        else .ok total
      charge now storage_stat is_masterchain valid_until total rest
    else .ok total

def compute_storage_fees (now : UnixTime) (pricing : List StoragePrices) (storage_stat : CellStorageStat) (last_paid : UnixTime)
    (is_special is_masterchain : Bool) : Except Exc (Option AnyIntView) :=
  match pricing with
  | [] => .ok none
  | p :: _ =>
    if now ≤ last_paid ∨ last_paid = 0 ∨ is_special = true ∨ now ≤ p.valid_since then .ok none
    else do
      let i := last_valid pricing last_paid pricing.length - 1
      let total ← charge now storage_stat is_masterchain (max last_paid p.valid_since) (bigInt 257 [0]) (pricing.drop i)
      .ok (some (total.rshift_any 16 1))

end StoragePrices

end Ton.Fees
