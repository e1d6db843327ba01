import Ton.Cells.Slice
/-!
# The proof-of-work giver

`pow-testgiver-code.fc`, over the slices of the virtual machine. Integers are
`Int`; the range of a 257-bit integer is checked where a result can leave it.
-/

namespace Ton.Giver

open BigEndian

/-- A condition that has to hold for the code to go on. -/
def ensure (e : Exc) (c : Prop) [Decidable c] : Except Exc Unit := if c then .ok () else .error e

/-! ## Instructions -/

/-- `LDU`. -/
def load_uint (cs : CellSlice) (n : Nat) : Except Exc (Nat × CellSlice) :=
  if cs.size < n then .error (.vm .cell_und "") else .ok (ofBits (cs.bits.take n), { cs with bits := cs.bits.drop n })

/-- `LDI`. -/
def load_int (cs : CellSlice) (n : Nat) : Except Exc (Int × CellSlice) := do
  let (x, cs) ← load_uint cs n
  .ok (if x < 2 ^ (n - 1) then (x : Int) else x - 2 ^ n, cs)

/-- `LDREF`. -/
def load_ref (cs : CellSlice) : Except Exc (DataCell × CellSlice) :=
  match cs.refs with
  | [] => .error (.vm .cell_und "")
  | r :: refs => .ok (r, { cs with refs := refs })

/-- `LDGRAMS`. -/
def load_grams (cs : CellSlice) : Except Exc (Nat × CellSlice) := do
  let (len, cs) ← load_uint cs 4
  load_uint cs (len * 8)

/-- `ENDS`. -/
def end_parse (cs : CellSlice) : Except Exc Unit :=
  ensure (.vm .cell_und "extra data remaining in deserialized cell") (cs.bits = [] ∧ cs.refs.length = 0)

def throw_unless (no : Nat) (c : Prop) [Decidable c] : Except Exc Unit := ensure (.user no) c

/-- `UFITSX`. -/
def ufits (x : Int) (bits : Nat) : Except Exc Unit := ensure (.vm .int_ov "") (0 ≤ x ∧ x < 2 ^ bits)

/-- `MULDIVR`: the nearest integer to `x * y / z`, halves up. -/
def muldivr (x y z : Int) : Except Exc Int :=
  if z = 0 then .error (.vm .int_ov "")
  else
    let q := (2 * x * y + z) / (2 * z)
    if -2 ^ 256 ≤ q ∧ q < 2 ^ 256 then .ok q else .error (.vm .int_ov "")

/-- `STU`. -/
def store_uint (cb : CellBuilder) (x : Int) (n : Nat) : Except Exc CellBuilder := do
  ensure (.vm .range_chk "") (0 ≤ x ∧ x < 2 ^ n)
  match cb.store_bits_bool (toBits n x.toNat) with
  | some cb => .ok cb
  | none => .error (.vm .cell_ov "")

/-- `STI`. -/
def store_int (cb : CellBuilder) (x : Int) (n : Nat) : Except Exc CellBuilder := do
  ensure (.vm .range_chk "") (-2 ^ (n - 1) ≤ x ∧ x < 2 ^ (n - 1))
  match cb.store_bits_bool (toBits n (x % 2 ^ n).toNat) with
  | some cb => .ok cb
  | none => .error (.vm .cell_ov "")

/-- `STGRAMS`: the length in bytes, then the bytes. -/
def store_grams (cb : CellBuilder) (x : Nat) : Except Exc CellBuilder := do
  let len := if x = 0 then 0 else x.log2 / 8 + 1
  let cb ← store_uint cb len 4
  store_uint cb x (len * 8)

/-- `STREF`. -/
def store_ref (cb : CellBuilder) (r : DataCell) : Except Exc CellBuilder :=
  match cb.store_ref_bool r with
  | some cb => .ok cb
  | none => .error (.vm .cell_ov "")

/-- `ENDC`. -/
def end_cell (cb : CellBuilder) : Except Exc DataCell := cb.finalize false

/-- `HASHSU`: the representation hash of the cell with the content of the slice. -/
def slice_hash (cs : CellSlice) : Except Exc Nat := do
  let c ← CellBuilder.finalize ⟨cs.bits, cs.refs⟩ false
  .ok (ofBytes (c.get_hash CellTraits.max_level))

/-! ## The contract -/

/-- What the contract reads of its surroundings: `now()`, and the next `random()`. -/
structure Env where
  now : Nat
  random : Nat

/-- The committed data and the message sent. -/
structure Effects where
  data : DataCell
  message : DataCell
  mode : Nat

/-- The fields of a `Mine` message. -/
structure MineMsg where
  op : Nat
  flags : Int
  expire : Nat
  whom : Nat
  rdata1 : Nat
  rseed : Nat
  rdata2 : Nat

/-- The fields of the persistent data before `last_success`, and what follows them. -/
structure Stored where
  stored_seqno_sw : Nat
  public_key : Nat
  seed : Nat
  pow_complexity : Nat
  ds : CellSlice

def load_stored (data : DataCell) : Except Exc Stored := do
  let ds ← load_cell_slice data
  let (stored_seqno_sw, ds) ← load_uint ds 64
  let (public_key, ds) ← load_uint ds 256
  let (seed, ds) ← load_uint ds 128
  let (pow_complexity, ds) ← load_uint ds 256
  .ok ⟨stored_seqno_sw, public_key, seed, pow_complexity, ds⟩

def load_mine (cs : CellSlice) : Except Exc (MineMsg × CellSlice) := do
  let (op, cs) ← load_uint cs 32
  let (flags, cs) ← load_int cs 8
  let (expire, cs) ← load_uint cs 32
  let (whom, cs) ← load_uint cs 256
  let (rdata1, cs) ← load_uint cs 256
  let (rseed, cs) ← load_uint cs 128
  let (rdata2, cs) ← load_uint cs 256
  .ok (⟨op, flags, expire, whom, rdata1, rseed, rdata2⟩, cs)

/-- The complexity for the next seed. -/
def next_complexity (pow_complexity delta target_delta min_cpl max_cpl : Int) : Except Exc Int :=
  if delta > 0 then do
    let factor ← muldivr delta (2 ^ 128) target_delta
    let factor := min (max factor (7 * 2 ^ 125)) (9 * 2 ^ 125)
    let pow_complexity ← muldivr pow_complexity factor (2 ^ 128)
    .ok (min (max pow_complexity (2 ^ min_cpl.toNat)) (2 ^ max_cpl.toNat))
  else .ok pow_complexity

/-- The outbound message. `flags & 1` is `flags % 2` and `flags >> 2` is `flags / 4`. -/
def pay_message (flags : Int) (whom amount : Nat) : Except Exc DataCell := do
  let cb ← store_uint {} (((flags % 2).toNat <<< 6 ||| 0x84 : Nat) : Int) 9
  let cb ← store_int cb (flags / 4) 8
  let cb ← store_uint cb whom 256
  let cb ← store_grams cb amount
  let cb ← store_uint cb 0 (1 + 4 + 4 + 64 + 32 + 1 + 1)
  end_cell cb

/-- `check_proof_of_work` from `accept_message` on. -/
def pay_out (env : Env) (st : Stored) (m : MineMsg) : Except Exc Effects := do
  let (last_success, ds) ← load_uint st.ds 32
  let (xdata, ds) ← load_ref ds
  end_parse ds
  let ds ← load_cell_slice xdata
  let (amount, ds) ← load_grams ds
  let (target_delta, ds) ← load_uint ds 32
  let (min_cpl, ds) ← load_uint ds 8
  let (max_cpl, ds) ← load_uint ds 8
  end_parse ds
  let pow_complexity ← next_complexity st.pow_complexity ((env.now : Int) - last_success) target_delta min_cpl max_cpl
  let cb ← store_uint {} st.stored_seqno_sw 64
  let cb ← store_uint cb st.public_key 256
  let cb ← store_uint cb (env.random / 2 ^ 128 : Nat) 128
  let cb ← store_uint cb pow_complexity 256
  let cb ← store_uint cb env.now 32
  let cb ← store_ref cb xdata
  let data ← end_cell cb
  let message ← pay_message m.flags m.whom amount
  .ok ⟨data, message, 3⟩

def check_proof_of_work (env : Env) (data : DataCell) (cs : CellSlice) : Except Exc Effects := do
  let hash ← slice_hash cs
  let st ← load_stored data
  throw_unless 24 (hash < st.pow_complexity)
  let (m, cs) ← load_mine cs
  end_parse cs
  ufits ((m.expire : Int) - env.now) 10
  throw_unless 25 (m.rseed = st.seed ∧ m.rdata1 = m.rdata2)
  pay_out env st m

end Ton.Giver
