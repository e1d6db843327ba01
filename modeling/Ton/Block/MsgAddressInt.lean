import Ton.Cells.Slice
import Ton.Shard.ShardId
/-!
# Internal addresses

`MsgAddressInt` of `block-parse.cpp`: standard and variable addresses, each with up to 31
bits of an anycast prefix that replace the first bits of the address. Four functions read
them, one writes them.
-/

namespace Ton.Block
open BitVec hiding append_assoc not_or
open Bool hiding decide_eq_true not_or
open BigEndian Shard List Option CellSlice

/-- 256 bits. -/
abbrev StdSmcAddress := { l : List Bool // l.length = 256 }

/-- `fetch_bits`, where there are so many. -/
def fetch_bits (cs : CellSlice) (bits : Nat) : Option (List Bool × CellSlice) :=
  if cs.have_bits bits then some (cs.bits.take bits, { cs with bits := cs.bits.drop bits }) else none

/-- `advance`, and false where there are too few bits. -/
def advance_bool (cs : CellSlice) (bits : Nat) : Option CellSlice := (fetch_bits cs bits).map (·.2)

/-- For 64 bits at most. -/
def fetch_uint_to (cs : CellSlice) (bits : Nat) : Option (Nat × CellSlice) := (fetch_bits cs bits).map fun (l, cs) => (ofBits l, cs)

/-- For 32 bits at most: the last one is copied to the left. -/
def fetch_int_to (cs : CellSlice) (bits : Nat) : Option (WorkchainId × CellSlice) :=
  (fetch_bits cs bits).map fun (l, cs) => ((BitVec.ofNat bits (ofBits l)).signExtend 32, cs)

def fetch_bits_to (cs : CellSlice) : Option (StdSmcAddress × CellSlice) :=
  match fetch_bits cs 256 with
  | some (l, cs) => if h : l.length = 256 then some (⟨l, h⟩, cs) else none
  | none => none

namespace Anycast

/-- The depth is not checked. -/
def get_size (cs : CellSlice) : Option Nat := (cs.prefetch_ulong 5).map (5 + ·)

/-- `skip_ext(get_size(cs))`. -/
def skip (cs : CellSlice) : Option CellSlice := (get_size cs).bind (advance_bool cs)

def skip_get_depth (cs : CellSlice) : Option (Nat × CellSlice) := do
  let (depth, cs) ← fetch_uint_to cs 5
  if depth ≤ 30 then (advance_bool cs depth).map (depth, ·) else none

end Anycast

namespace Maybe_Anycast

def skip (cs : CellSlice) : Option CellSlice :=
  match cs.prefetch_ulong 1 with
  | none => none
  | some 0 => advance_bool cs 1
  | some _ => (advance_bool cs 1).bind Anycast.skip

def skip_get_depth (cs : CellSlice) : Option (Nat × CellSlice) := do
  let (have_anycast, cs) ← fetch_uint_to cs 1
  if have_anycast = 0 then some (0, cs) else Anycast.skip_get_depth cs

end Maybe_Anycast

namespace MsgAddressInt

/-- The workchains whose addresses are standard ones. -/
def small (workchain : WorkchainId) : Prop := -128 ≤ workchain.toInt ∧ workchain.toInt < 128

instance (workchain : WorkchainId) : Decidable (small workchain) := by
  unfold small
  infer_instance

def validate_skip (cs : CellSlice) : Option CellSlice :=
  if !cs.have_bits 3 then none
  else match cs.prefetch_ulong 2 with
  | some 2 => do
    let cs ← advance_bool cs 2
    let cs ← Maybe_Anycast.skip cs
    advance_bool cs (8 + 256)
  | some 3 => do
    let cs ← advance_bool cs 2
    let cs ← Maybe_Anycast.skip cs
    if !cs.have_bits (9 + 32) then none
    else
      let (addr_len, cs) ← fetch_uint_to cs 9
      let (workchain_id, cs) ← fetch_int_to cs 32
      let cs ← advance_bool cs addr_len
      if (¬small workchain_id ∨ addr_len ≠ 256) ∧ workchain_id ≠ 0 ∧ workchain_id ≠ -1 then some cs else none
  | _ => none

def skip_get_depth (cs : CellSlice) : Option (Nat × CellSlice) :=
  if !cs.have_bits 3 then none
  else match cs.prefetch_ulong 2 with
  | some 2 => do
    let cs ← advance_bool cs 2
    let (depth, cs) ← Maybe_Anycast.skip_get_depth cs
    let cs ← advance_bool cs (8 + 256)
    some (depth, cs)
  | some 3 => do
    let cs ← advance_bool cs 2
    let (depth, cs) ← Maybe_Anycast.skip_get_depth cs
    if !cs.have_bits (9 + 32) then none
    else
      let (addr_len, cs) ← fetch_uint_to cs 9
      let cs ← advance_bool cs (32 + addr_len)
      some (depth, cs)
  | _ => none

/-- The first `t` bits of the prefix are replaced by those of `rewrite`. -/
def rewritten (pfx rewrite : Nat) (t : Nat) : AccountIdPrefix :=
  (BitVec.ofNat 64 pfx &&& (BitVec.allOnes 64 >>> t)) ||| (BitVec.ofNat 64 rewrite <<< (64 - t))

def get_prefix_of (cs : CellSlice) (t : Nat) : Option AccountIdPrefixFull :=
  match t / 32 with
  | 4 => do
    let cs ← advance_bool cs 3
    let (workchain, cs) ← fetch_int_to cs 8
    let (pfx, _) ← fetch_uint_to cs 64
    some ⟨workchain, BitVec.ofNat 64 pfx⟩
  | 5 => do
    let t := t % 32
    let cs ← advance_bool cs 8
    let (rewrite, cs) ← fetch_uint_to cs t
    let (workchain, cs) ← fetch_int_to cs 8
    let (pfx, _) ← fetch_uint_to cs 64
    some ⟨workchain, rewritten pfx rewrite t⟩
  | 6 => do
    let cs ← advance_bool cs 3
    let (len, cs) ← fetch_uint_to cs 9
    if len ≥ 64 then
      let (workchain, cs) ← fetch_int_to cs 32
      let (pfx, _) ← fetch_uint_to cs 64
      some ⟨workchain, BitVec.ofNat 64 pfx⟩
    else none
  | 7 => do
    let t := t % 32
    let cs ← advance_bool cs 8
    let (rewrite, cs) ← fetch_uint_to cs t
    let (len, cs) ← fetch_uint_to cs 9
    if len ≥ 64 then
      let (workchain, cs) ← fetch_int_to cs 32
      let (pfx, _) ← fetch_uint_to cs 64
      some ⟨workchain, rewritten pfx rewrite t⟩
    else none
  | _ => none

/-- `{}` where it fails. -/
def get_prefix (cs : CellSlice) : AccountIdPrefixFull :=
  if !cs.have_bits (3 + 8 + 64) then ⟨workchainInvalid, 0⟩
  else match cs.prefetch_ulong 8 with
  | some t => (get_prefix_of cs t).getD ⟨workchainInvalid, 0⟩
  | none => ⟨workchainInvalid, 0⟩

/-- `addr.bits().store_uint(rewrite, t)`. -/
def store_uint (addr : StdSmcAddress) (rewrite t : Nat) : StdSmcAddress :=
  if h : t ≤ 256 then ⟨toBits t rewrite ++ addr.1.drop t, by rw [length_append, toBits_length, length_drop, addr.2]; omega⟩
  else addr

def extract_of (cs : CellSlice) (do_rewrite : Bool) (t : Nat) : Option (WorkchainId × StdSmcAddress × CellSlice) :=
  match t / 32 with
  | 4 => do
    let cs ← advance_bool cs 3
    let (workchain, cs) ← fetch_int_to cs 8
    let (addr, cs) ← fetch_bits_to cs
    some (workchain, addr, cs)
  | 5 => do
    let t := t % 32
    let cs ← advance_bool cs 8
    let (rewrite, cs) ← fetch_uint_to cs t
    let (workchain, cs) ← fetch_int_to cs 8
    let (addr, cs) ← fetch_bits_to cs
    some (workchain, if do_rewrite then store_uint addr rewrite t else addr, cs)
  | 6 => do
    let cs ← advance_bool cs 3
    let (len, cs) ← fetch_uint_to cs 9
    if len = 256 then
      let (workchain, cs) ← fetch_int_to cs 32
      let (addr, cs) ← fetch_bits_to cs
      some (workchain, addr, cs)
    else none
  | 7 => do
    let t := t % 32
    let cs ← advance_bool cs 8
    let (rewrite, cs) ← fetch_uint_to cs t
    let (len, cs) ← fetch_uint_to cs 9
    if len = 256 then
      let (workchain, cs) ← fetch_int_to cs 32
      let (addr, cs) ← fetch_bits_to cs
      some (workchain, if do_rewrite then store_uint addr rewrite t else addr, cs)
    else none
  | _ => none

/-- The address, and the slice after it. -/
def extract_std_address (cs : CellSlice) (do_rewrite : Bool) : Option (WorkchainId × StdSmcAddress × CellSlice) :=
  if !cs.have_bits (3 + 8 + 64) then none
  else (cs.prefetch_ulong 8).bind (extract_of cs do_rewrite)

/-- `store_long_bool` writes the low bits. -/
def store_std_address (cb : CellBuilder) (workchain : WorkchainId) (addr : StdSmcAddress) : Option CellBuilder :=
  if small workchain then do
    let cb ← cb.store_bits_bool (toBits 3 4)
    let cb ← cb.store_bits_bool (toBits 8 (workchain.setWidth 8).toNat)
    cb.store_bits_bool addr.1
  else do
    let cb ← cb.store_bits_bool (toBits 12 0xd00)
    let cb ← cb.store_bits_bool (toBits 32 workchain.toNat)
    cb.store_bits_bool addr.1

/-! ## Reading what stands first -/

section
variable {cs cs' : CellSlice} {l r : List Bool} {refs : List DataCell} {n : Nat}

theorem fetch_bits_some (h : fetch_bits cs n = some (l, cs')) : l.length = n ∧ cs = ⟨l ++ cs'.bits, cs'.refs⟩ := by
  unfold fetch_bits at h
  split at h
  · next hhave =>
    cases h
    rw [have_bits, CellSlice.size, decide_eq_true_eq] at hhave
    exact ⟨length_take_of_le hhave, by rw [take_append_drop]⟩
  · cases h

theorem fetch_bits_append (r : List Bool) (refs : List DataCell) (h : l.length = n) :
    fetch_bits ⟨l ++ r, refs⟩ n = some (l, ⟨r, refs⟩) := by
  subst h
  simp [fetch_bits, have_bits, CellSlice.size]

theorem advance_append (r : List Bool) (refs : List DataCell) (h : l.length = n) : advance_bool ⟨l ++ r, refs⟩ n = some ⟨r, refs⟩ := by
  rw [advance_bool, fetch_bits_append r refs h]
  rfl

theorem advance_some (h : advance_bool cs n = some cs') : ∃ l, l.length = n ∧ cs = ⟨l ++ cs'.bits, cs'.refs⟩ := by
  obtain ⟨⟨l, _⟩, hf, rfl⟩ := map_eq_some_iff.1 h
  exact ⟨l, fetch_bits_some hf⟩

theorem fetch_uint_append (r : List Bool) (refs : List DataCell) (h : l.length = n) :
    fetch_uint_to ⟨l ++ r, refs⟩ n = some (ofBits l, ⟨r, refs⟩) := by
  rw [fetch_uint_to, fetch_bits_append r refs h]
  rfl

theorem fetch_uint_some {x : Nat} (h : fetch_uint_to cs n = some (x, cs')) :
    ∃ l, l.length = n ∧ x = ofBits l ∧ cs = ⟨l ++ cs'.bits, cs'.refs⟩ := by
  obtain ⟨⟨l, _⟩, hf, heq⟩ := map_eq_some_iff.1 h
  obtain ⟨rfl, rfl⟩ := Prod.mk.inj heq
  obtain ⟨hl, hcs⟩ := fetch_bits_some hf
  exact ⟨l, hl, rfl, hcs⟩

/-- The workchain of these bits. -/
def signed (l : List Bool) : WorkchainId := (BitVec.ofNat l.length (ofBits l)).signExtend 32

theorem fetch_int_append (r : List Bool) (refs : List DataCell) (h : l.length = n) :
    fetch_int_to ⟨l ++ r, refs⟩ n = some (signed l, ⟨r, refs⟩) := by
  subst h
  rw [fetch_int_to, fetch_bits_append r refs rfl]
  rfl

theorem fetch_int_some {x : WorkchainId} (h : fetch_int_to cs n = some (x, cs')) :
    ∃ l, l.length = n ∧ x = signed l ∧ cs = ⟨l ++ cs'.bits, cs'.refs⟩ := by
  obtain ⟨⟨l, _⟩, hf, heq⟩ := map_eq_some_iff.1 h
  obtain ⟨rfl, rfl⟩ := Prod.mk.inj heq
  obtain ⟨rfl, hcs⟩ := fetch_bits_some hf
  exact ⟨l, rfl, rfl, hcs⟩

theorem fetch_bits_to_append (a : StdSmcAddress) (r : List Bool) (refs : List DataCell) :
    fetch_bits_to ⟨a.1 ++ r, refs⟩ = some (a, ⟨r, refs⟩) := by
  rw [fetch_bits_to, fetch_bits_append r refs a.2]
  exact dif_pos a.2

theorem prefetch_append (r : List Bool) (refs : List DataCell) (h : l.length = n) (hn : n ≤ 64) :
    prefetch_ulong ⟨l ++ r, refs⟩ n = some (ofBits l) := by
  subst h
  simp [prefetch_ulong, have_bits, CellSlice.size, Nat.not_lt.2 hn]

theorem prefetch_some {x : Nat} (h : cs.prefetch_ulong n = some x) : ∃ l r, l.length = n ∧ x = ofBits l ∧ cs.bits = l ++ r := by
  unfold prefetch_ulong at h
  split at h
  · cases h
  · next hhave =>
    cases h
    rw [or_eq_true, not_or, not_eq_true', not_eq_false, have_bits, CellSlice.size, decide_eq_true_eq] at hhave
    exact ⟨_, cs.bits.drop n, length_take_of_le hhave.1, rfl, (take_append_drop ..).symm⟩

end

/-! ## The bits of an address -/

/-- The anycast prefix, or that there is none. -/
def any_bits : Option (List Bool) → List Bool
  | none => [false]
  | some rewrite => true :: (toBits 5 rewrite.length ++ rewrite)

section
variable {cs cs' : CellSlice} {any : Option (List Bool)} {r : List Bool} {refs : List DataCell}

theorem any_skip (hany : ∀ x ∈ any, x.length < 32) : Maybe_Anycast.skip ⟨any_bits any ++ r, refs⟩ = some ⟨r, refs⟩ := by
  cases any with
  | none => exact advance_append (l := [false]) r refs rfl
  | some x =>
    have hlen : x.length < 2 ^ 5 := hany x rfl
    have htag : prefetch_ulong ⟨[true] ++ (toBits 5 x.length ++ x ++ r), refs⟩ 1 = some 1 :=
        prefetch_append _ _ (show [true].length = 1 from rfl) (by omega)
    show Maybe_Anycast.skip ⟨[true] ++ (toBits 5 x.length ++ x ++ r), refs⟩ = _
    rw [Maybe_Anycast.skip, htag]
    show (advance_bool ⟨[true] ++ _, refs⟩ 1).bind Anycast.skip = _
    rw [advance_append _ _ (show [true].length = 1 from rfl), bind_some, Anycast.skip, Anycast.get_size, append_assoc,
      prefetch_append _ _ (toBits_length 5 _) (by omega), ofBits_toBits, Nat.mod_eq_of_lt hlen, map_some, bind_some,
      ← append_assoc]
    exact advance_append _ _ (by rw [length_append, toBits_length])

theorem any_skip_get_depth (hany : ∀ x ∈ any, x.length < 32) : Maybe_Anycast.skip_get_depth ⟨any_bits any ++ r, refs⟩ =
    if (any.getD []).length ≤ 30 then some ((any.getD []).length, ⟨r, refs⟩) else none := by
  cases any with
  | none =>
    show Maybe_Anycast.skip_get_depth ⟨[false] ++ r, refs⟩ = _
    rw [Maybe_Anycast.skip_get_depth, fetch_uint_append _ _ (show [false].length = 1 from rfl)]
    rfl
  | some x =>
    have hlen : x.length < 2 ^ 5 := hany x rfl
    show Maybe_Anycast.skip_get_depth ⟨[true] ++ (toBits 5 x.length ++ x ++ r), refs⟩ = _
    rw [Maybe_Anycast.skip_get_depth, fetch_uint_append _ _ (show [true].length = 1 from rfl)]
    show Anycast.skip_get_depth ⟨toBits 5 x.length ++ x ++ r, refs⟩ = _
    rw [Anycast.skip_get_depth, append_assoc, fetch_uint_append _ _ (toBits_length 5 _), ofBits_toBits, Nat.mod_eq_of_lt hlen]
    show (if x.length ≤ 30 then _ else _) = _
    rw [advance_append _ _ rfl]
    rfl

theorem any_of_skip (h : Maybe_Anycast.skip cs = some cs') :
    ∃ any, (∀ x ∈ any, x.length < 32) ∧ cs = ⟨any_bits any ++ cs'.bits, cs'.refs⟩ := by
  unfold Maybe_Anycast.skip at h
  split at h
  · cases h
  · next htag =>
    obtain ⟨l, hl, rfl⟩ := advance_some h
    obtain ⟨b, rfl⟩ := length_eq_one_iff.1 hl
    rw [prefetch_append _ _ hl (by omega)] at htag
    cases b with
    | true => cases htag
    | false => exact ⟨none, by simp, rfl⟩
  · next hne htag =>
    obtain ⟨cs₁, h1, h2⟩ := bind_eq_some_iff.1 h
    obtain ⟨l, hl, rfl⟩ := advance_some h1
    obtain ⟨b, rfl⟩ := length_eq_one_iff.1 hl
    unfold Anycast.skip Anycast.get_size at h2
    obtain ⟨size, hsize, h3⟩ := bind_eq_some_iff.1 h2
    obtain ⟨depth, hdepth, rfl⟩ := map_eq_some_iff.1 hsize
    obtain ⟨d, t, hd, rfl, hbits⟩ := prefetch_some hdepth
    obtain ⟨m, hm, rfl⟩ := advance_some h3
    cases b with
    | false =>
      rw [prefetch_append _ _ hl (by omega)] at htag
      exact absurd (Option.some.inj htag).symm hne
    | true =>
      have hlt : ofBits d < 32 := by
        have := ofBits_lt d
        rwa [hd] at this
      obtain ⟨x, rfl⟩ : ∃ x, m = d ++ x := by
        refine ⟨m.drop 5, ?_⟩
        have := congrArg (List.take 5) hbits
        rw [take_append_of_le_length (by omega), take_left' hd] at this
        rw [← this, take_append_drop]
      rw [length_append, hd, Nat.add_left_cancel_iff] at hm
      refine ⟨some x, fun y hy => by cases hy; omega, ?_⟩
      rw [any_bits, hm, ← hd, toBits_ofBits]
      rfl

end

/-! ## What the readers see -/

theorem prefetch_tag (b₁ b₂ b₃ : Bool) {r : List Bool} (refs : List DataCell) (hr : 5 ≤ r.length) :
    prefetch_ulong ⟨b₁ :: b₂ :: b₃ :: r, refs⟩ 8 = some (ofBits [b₁, b₂, b₃] * 32 + ofBits (r.take 5)) ∧ ofBits (r.take 5) < 32 := by
  have hlen : (r.take 5).length = 5 := length_take_of_le hr
  have hlt := ofBits_lt (r.take 5)
  rw [hlen] at hlt
  have hsplit : b₁ :: b₂ :: b₃ :: r = ([b₁, b₂, b₃] ++ r.take 5) ++ r.drop 5 := by simp
  refine ⟨?_, hlt⟩
  rw [hsplit, prefetch_append _ _ (by rw [length_append, hlen]; rfl) (by omega), ofBits_append, hlen]
  rfl

theorem have_bits_of_le {cs : CellSlice} {n : Nat} (h : n ≤ cs.bits.length) : cs.have_bits n = true := decide_eq_true h

/-- The first 64 bits. -/
def first64 (a : StdSmcAddress) : AccountIdPrefix := BitVec.ofNat 64 (ofBits (a.1.take 64))

/-- The address with the bits of the prefix. -/
def rewrite_of (any : Option (List Bool)) (a : StdSmcAddress) : StdSmcAddress :=
  match any with
  | none => a
  | some x => store_uint a (ofBits x) x.length

section
variable {any : Option (List Bool)} {x w : List Bool} {a : StdSmcAddress} {r : List Bool} {refs : List DataCell} {t len : Nat}

theorem rewritten_eq (a : StdSmcAddress) (hx : x.length < 32) :
    rewritten (ofBits (a.1.take 64)) (ofBits x) x.length = first64 (store_uint a (ofBits x) x.length) := by
  have ha := a.2
  have hsplit : a.1.take 64 = a.1.take x.length ++ (a.1.drop x.length).take (64 - x.length) := by
    rw [← take_add]
    congr 1
    omega
  have hlow : ((a.1.drop x.length).take (64 - x.length)).length = 64 - x.length := by
    rw [length_take, length_drop]
    omega
  have hlt := ofBits_lt ((a.1.drop x.length).take (64 - x.length))
  have hxlt := ofBits_lt x
  rw [hlow] at hlt
  have hval : (store_uint a (ofBits x) x.length).1.take 64 = x ++ (a.1.drop x.length).take (64 - x.length) := by
    rw [store_uint, dif_pos (by omega)]
    dsimp only
    rw [toBits_ofBits, take_append, take_of_length_le (by omega)]
  have hpow : 2 ^ x.length * 2 ^ (64 - x.length) = 2 ^ 64 := by
    rw [← Nat.pow_add]
    congr 1
    omega
  rw [first64, hval, hsplit, ofBits_append, ofBits_append, hlow]
  apply eq_of_toNat_eq
  generalize ofBits ((a.1.drop x.length).take (64 - x.length)) = low at *
  generalize ofBits (a.1.take x.length) = high at *
  have hmask : (BitVec.allOnes 64 >>> x.length).toNat = 2 ^ (64 - x.length) - 1 := by
    rw [toNat_ushiftRight, toNat_allOnes, Nat.shiftRight_eq_div_pow]
    have := Nat.two_pow_pos (64 - x.length)
    have hp := Nat.two_pow_pos x.length
    rw [Nat.div_eq_iff hp]
    constructor
    · rw [Nat.sub_mul, Nat.mul_comm, hpow]
      omega
    · rw [Nat.sub_mul, Nat.mul_comm, hpow]
      have : 2 ^ x.length ≤ 2 ^ 64 := Nat.pow_le_pow_right (by omega) (by omega)
      omega
  have hsum : ofBits x * 2 ^ (64 - x.length) + low < 2 ^ 64 := by
    have := Nat.mul_le_mul_right (2 ^ (64 - x.length)) (Nat.succ_le_of_lt hxlt)
    rw [hpow, Nat.succ_mul] at this
    omega
  have hshift : (BitVec.ofNat 64 (ofBits x) <<< (64 - x.length)).toNat = ofBits x * 2 ^ (64 - x.length) := by
    have h1 : ofBits x < 2 ^ 64 := hxlt.trans_le (Nat.pow_le_pow_right (by omega) (by omega))
    rw [toNat_shiftLeft, toNat_ofNat, Nat.mod_eq_of_lt h1, Nat.shiftLeft_eq, Nat.mod_eq_of_lt (by omega)]
  rw [rewritten, toNat_or, toNat_and, hmask, hshift, toNat_ofNat, Nat.and_two_pow_sub_one_eq_mod,
    Nat.mod_mod_of_dvd _ (Nat.pow_dvd_pow 2 (by omega)), Nat.mul_comm high, Nat.mul_add_mod, Nat.mod_eq_of_lt hlt, toNat_ofNat,
    Nat.mod_eq_of_lt hsum, Nat.or_comm, ← Nat.shiftLeft_eq, Nat.shiftLeft_add_eq_or_of_lt hlt]

theorem addr_split (a : StdSmcAddress) (r : List Bool) : a.1 ++ r = a.1.take 64 ++ (a.1.drop 64 ++ r) := by
  rw [← append_assoc, take_append_drop]

theorem length_first64 (a : StdSmcAddress) : (a.1.take 64).length = 64 := by
  rw [length_take, a.2]
  rfl

/-- The last bit of the tag, and the depth. -/
def head_bits (variable_length : Bool) (any : Option (List Bool)) : List Bool :=
  match any with
  | none => [true, variable_length, false]
  | some x => [true, variable_length, true] ++ toBits 5 x.length

/-- The tag that is read for a kind of address. -/
def Tagged (variable_length : Bool) (any : Option (List Bool)) (t : Nat) : Prop :=
  t / 32 = 4 + 2 * variable_length.toNat + any.isSome.toNat ∧ ∀ x ∈ any, t % 32 = x.length

theorem length_depth (b : Bool) (x : List Bool) : ([true, b, true] ++ toBits 5 x.length).length = 8 := by
  rw [length_append, toBits_length]
  rfl

theorem bits_256 : ofBits (toBits 9 256) = 256 := by
  rw [ofBits_toBits]
  rfl

theorem extract_of_std (ht : Tagged false any t) (hw : w.length = 8) :
    extract_of ⟨head_bits false any ++ (any.getD [] ++ (w ++ (a.1 ++ r))), refs⟩ true t = some (signed w, rewrite_of any a, ⟨r, refs⟩) := by
  cases any with
  | none =>
    have h4 : t / 32 = 4 := ht.1
    simp only [extract_of, h4, head_bits, getD_none, nil_append, advance_append _ _ (show [true, false, false].length = 3 from rfl),
      fetch_int_append _ _ hw, fetch_bits_to_append, bind_eq_bind, bind_some, rewrite_of]
  | some x =>
    have h5 : t / 32 = 5 := ht.1
    simp only [extract_of, h5, ht.2 x rfl, head_bits, getD_some, advance_append _ _ (length_depth false x),
      fetch_uint_append _ _ (show x.length = x.length from rfl), fetch_int_append _ _ hw, fetch_bits_to_append, bind_eq_bind,
      bind_some, rewrite_of, if_true]

theorem extract_of_var (ht : Tagged true any t) (hw : w.length = 32) :
    extract_of ⟨head_bits true any ++ (any.getD [] ++ (toBits 9 256 ++ (w ++ (a.1 ++ r)))), refs⟩ true t =
      some (signed w, rewrite_of any a, ⟨r, refs⟩) := by
  cases any with
  | none =>
    have h6 : t / 32 = 6 := ht.1
    simp only [extract_of, h6, head_bits, getD_none, nil_append, advance_append _ _ (show [true, true, false].length = 3 from rfl),
      fetch_uint_append _ _ (toBits_length 9 256), bits_256, fetch_int_append _ _ hw, fetch_bits_to_append, bind_eq_bind,
      bind_some, rewrite_of, if_true]
  | some x =>
    have h7 : t / 32 = 7 := ht.1
    simp only [extract_of, h7, ht.2 x rfl, head_bits, getD_some, advance_append _ _ (length_depth true x),
      fetch_uint_append _ _ (show x.length = x.length from rfl), fetch_uint_append _ _ (toBits_length 9 256), bits_256, fetch_int_append _ _ hw,
      fetch_bits_to_append, bind_eq_bind, bind_some, rewrite_of, if_true]

theorem get_prefix_of_std (hany : ∀ x ∈ any, x.length < 32) (ht : Tagged false any t) (hw : w.length = 8) :
    get_prefix_of ⟨head_bits false any ++ (any.getD [] ++ (w ++ (a.1 ++ r))), refs⟩ t = some ⟨signed w, first64 (rewrite_of any a)⟩ := by
  rw [addr_split]
  cases any with
  | none =>
    have h4 : t / 32 = 4 := ht.1
    simp only [get_prefix_of, h4, head_bits, getD_none, nil_append, advance_append _ _ (show [true, false, false].length = 3 from rfl),
      fetch_int_append _ _ hw, fetch_uint_append _ _ (length_first64 a), bind_eq_bind, bind_some, rewrite_of, first64]
  | some x =>
    have h5 : t / 32 = 5 := ht.1
    simp only [get_prefix_of, h5, ht.2 x rfl, head_bits, getD_some, advance_append _ _ (length_depth false x),
      fetch_uint_append _ _ (show x.length = x.length from rfl), fetch_int_append _ _ hw, fetch_uint_append _ _ (length_first64 a),
      bind_eq_bind, bind_some, rewrite_of, rewritten_eq a (hany x rfl)]

theorem get_prefix_of_var (hany : ∀ x ∈ any, x.length < 32) (ht : Tagged true any t) (hw : w.length = 32) :
    get_prefix_of ⟨head_bits true any ++ (any.getD [] ++ (toBits 9 256 ++ (w ++ (a.1 ++ r)))), refs⟩ t =
      some ⟨signed w, first64 (rewrite_of any a)⟩ := by
  have hlong : 256 ≥ 64 := by omega
  rw [addr_split]
  cases any with
  | none =>
    have h6 : t / 32 = 6 := ht.1
    simp only [get_prefix_of, h6, head_bits, getD_none, nil_append, advance_append _ _ (show [true, true, false].length = 3 from rfl),
      fetch_uint_append _ _ (toBits_length 9 256), bits_256, hlong, if_true, fetch_int_append _ _ hw, fetch_uint_append _ _ (length_first64 a),
      bind_eq_bind, bind_some, rewrite_of, first64]
  | some x =>
    have h7 : t / 32 = 7 := ht.1
    simp only [get_prefix_of, h7, ht.2 x rfl, head_bits, getD_some, advance_append _ _ (length_depth true x),
      fetch_uint_append _ _ (show x.length = x.length from rfl), fetch_uint_append _ _ (toBits_length 9 256), bits_256, hlong, if_true,
      fetch_int_append _ _ hw, fetch_uint_append _ _ (length_first64 a), bind_eq_bind, bind_some, rewrite_of,
      rewritten_eq a (hany x rfl)]

variable {s : List Bool}

theorem tagged_head (b : Bool) (refs : List DataCell) (hany : ∀ x ∈ any, x.length < 32) (hs : 5 ≤ s.length) :
    ∃ t, prefetch_ulong ⟨head_bits b any ++ (any.getD [] ++ s), refs⟩ 8 = some t ∧ Tagged b any t := by
  cases any with
  | none =>
    obtain ⟨htag, hlt⟩ := prefetch_tag true b false (r := s) refs hs
    refine ⟨_, htag, ?_, by simp⟩
    rw [show ofBits [true, b, false] = 4 + 2 * b.toNat by cases b <;> rfl]
    simp only [isSome_none, toNat_false]
    omega
  | some x =>
    have hx : x.length < 2 ^ 5 := hany x rfl
    have htag : prefetch_ulong ⟨[true, b, true] ++ toBits 5 x.length ++ (x ++ s), refs⟩ 8 = _ :=
      prefetch_append _ _ (length_depth b x) (by omega)
    rw [ofBits_append, toBits_length, ofBits_toBits, Nat.mod_eq_of_lt hx] at htag
    refine ⟨_, htag, ?_, fun y hy => ?_⟩
    · rw [show ofBits [true, b, true] = 5 + 2 * b.toNat by cases b <;> rfl]
      simp only [isSome_some, toNat_true]
      omega
    · cases hy
      omega

theorem extract_of_ne (ht : Tagged true any t) (hlen : len < 2 ^ 9) (hne : len ≠ 256) :
    extract_of ⟨head_bits true any ++ (any.getD [] ++ (toBits 9 len ++ s)), refs⟩ true t = none := by
  have h9 : ofBits (toBits 9 len) = len := by rw [ofBits_toBits, Nat.mod_eq_of_lt hlen]
  cases any with
  | none =>
    have h6 : t / 32 = 6 := ht.1
    simp only [extract_of, h6, head_bits, getD_none, nil_append, advance_append _ _ (show [true, true, false].length = 3 from rfl),
      fetch_uint_append _ _ (toBits_length 9 len), h9, hne, if_false, bind_eq_bind, bind_some]
  | some x =>
    have h7 : t / 32 = 7 := ht.1
    simp only [extract_of, h7, ht.2 x rfl, head_bits, getD_some, advance_append _ _ (length_depth true x),
      fetch_uint_append _ _ (show x.length = x.length from rfl), fetch_uint_append _ _ (toBits_length 9 len), h9, hne, if_false,
      bind_eq_bind, bind_some]

theorem head_any (b : Bool) (any : Option (List Bool)) (s : List Bool) :
    [true, b] ++ (any_bits any ++ s) = head_bits b any ++ (any.getD [] ++ s) := by
  cases any <;> simp [any_bits, head_bits]

theorem length_any_bits (any : Option (List Bool)) : 1 ≤ (any_bits any).length := by cases any <;> simp [any_bits]

theorem read_std (hany : ∀ x ∈ any, x.length < 32) (hw : w.length = 8) :
    extract_std_address ⟨[true, false] ++ (any_bits any ++ (w ++ (a.1 ++ r))), refs⟩ true = some (signed w, rewrite_of any a, ⟨r, refs⟩) ∧
    get_prefix ⟨[true, false] ++ (any_bits any ++ (w ++ (a.1 ++ r))), refs⟩ = ⟨signed w, first64 (rewrite_of any a)⟩ := by
  have hroom : have_bits ⟨[true, false] ++ (any_bits any ++ (w ++ (a.1 ++ r))), refs⟩ (3 + 8 + 64) = true := by
    apply have_bits_of_le
    have := length_any_bits any
    simp only [length_append, hw, a.2]
    omega
  obtain ⟨t, htag, ht⟩ := tagged_head false refs hany (s := w ++ (a.1 ++ r)) (by rw [length_append]; omega)
  rw [head_any] at hroom ⊢
  rw [extract_std_address, get_prefix, hroom, htag, bind_some]
  simp only [Bool.not_true, false_eq_true, if_false]
  rw [extract_of_std ht hw, get_prefix_of_std hany ht hw]
  exact ⟨rfl, rfl⟩

theorem read_var (hany : ∀ x ∈ any, x.length < 32) (hw : w.length = 32) :
    extract_std_address ⟨[true, true] ++ (any_bits any ++ (toBits 9 256 ++ (w ++ (a.1 ++ r)))), refs⟩ true =
      some (signed w, rewrite_of any a, ⟨r, refs⟩) ∧
    get_prefix ⟨[true, true] ++ (any_bits any ++ (toBits 9 256 ++ (w ++ (a.1 ++ r)))), refs⟩ = ⟨signed w, first64 (rewrite_of any a)⟩ := by
  have hroom : have_bits ⟨[true, true] ++ (any_bits any ++ (toBits 9 256 ++ (w ++ (a.1 ++ r)))), refs⟩ (3 + 8 + 64) = true := by
    apply have_bits_of_le
    have := length_any_bits any
    simp only [length_append, toBits_length, hw, a.2]
    omega
  obtain ⟨t, htag, ht⟩ := tagged_head true refs hany (s := toBits 9 256 ++ (w ++ (a.1 ++ r)))
    (by rw [length_append, toBits_length]; omega)
  rw [head_any] at hroom ⊢
  rw [extract_std_address, get_prefix, hroom, htag, bind_some]
  simp only [Bool.not_true, false_eq_true, if_false]
  rw [extract_of_var ht hw, get_prefix_of_var hany ht hw]
  exact ⟨rfl, rfl⟩

theorem extract_var_ne (hany : ∀ x ∈ any, x.length < 32) (hlen : len < 2 ^ 9) (hne : len ≠ 256) :
    extract_std_address ⟨[true, true] ++ (any_bits any ++ (toBits 9 len ++ s)), refs⟩ true = none := by
  rw [extract_std_address]
  split
  · rfl
  · obtain ⟨t, htag, ht⟩ := tagged_head true refs hany (s := toBits 9 len ++ s) (by rw [length_append, toBits_length]; omega)
    rw [head_any, htag, bind_some, extract_of_ne ht hlen hne]

theorem tag_two (b : Bool) : prefetch_ulong ⟨[true, b] ++ s, refs⟩ 2 = some (2 + b.toNat) := by
  rw [prefetch_append _ _ (show [true, b].length = 2 from rfl) (by omega)]
  cases b <;> rfl

theorem have_three (b : Bool) (any : Option (List Bool)) :
    have_bits ⟨[true, b] ++ (any_bits any ++ s), refs⟩ 3 = true := by
  apply have_bits_of_le
  have := length_any_bits any
  simp only [length_append, length_cons, length_nil]
  omega

theorem depth_std (hany : ∀ x ∈ any, x.length < 32) (hw : w.length = 8) :
    skip_get_depth ⟨[true, false] ++ (any_bits any ++ (w ++ (a.1 ++ r))), refs⟩ =
      if (any.getD []).length ≤ 30 then some ((any.getD []).length, ⟨r, refs⟩) else none := by
  have hlen : (w ++ a.1).length = 8 + 256 := by rw [length_append, hw, a.2]
  rw [skip_get_depth, have_three, tag_two]
  simp only [Bool.not_true, false_eq_true, if_false, toNat_false, advance_append _ _ (show [true, false].length = 2 from rfl),
    any_skip_get_depth hany, bind_eq_bind, bind_some]
  split
  · rw [bind_some, ← append_assoc, advance_append _ _ hlen]
    rfl
  · rfl

theorem depth_var (hany : ∀ x ∈ any, x.length < 32) (hw : w.length = 32) :
    skip_get_depth ⟨[true, true] ++ (any_bits any ++ (toBits 9 256 ++ (w ++ (a.1 ++ r)))), refs⟩ =
      if (any.getD []).length ≤ 30 then some ((any.getD []).length, ⟨r, refs⟩) else none := by
  have hlen : (w ++ a.1).length = 32 + 256 := by rw [length_append, hw, a.2]
  have hroom : have_bits ⟨toBits 9 256 ++ (w ++ (a.1 ++ r)), refs⟩ (9 + 32) = true := by
    apply have_bits_of_le
    simp only [length_append, toBits_length, hw]
    omega
  rw [skip_get_depth, have_three, tag_two]
  simp only [Bool.not_true, false_eq_true, if_false, toNat_true, advance_append _ _ (show [true, true].length = 2 from rfl),
    any_skip_get_depth hany, bind_eq_bind, bind_some]
  split
  · rw [bind_some, hroom, fetch_uint_append _ _ (toBits_length 9 256), bits_256]
    simp only [Bool.not_true, false_eq_true, if_false, bind_some]
    rw [← append_assoc, advance_append _ _ hlen]
    rfl
  · rfl

end

theorem of_validate_skip {cs cs' : CellSlice} (h : validate_skip cs = some cs') : ∃ any : Option (List Bool), (∀ x ∈ any, x.length < 32) ∧
    ((∃ w a, w.length = 8 ∧ a.length = 256 ∧ cs = ⟨[true, false] ++ (any_bits any ++ (w ++ (a ++ cs'.bits))), cs'.refs⟩) ∨
      ∃ len w a, len < 2 ^ 9 ∧ w.length = 32 ∧ a.length = len ∧
        cs = ⟨[true, true] ++ (any_bits any ++ (toBits 9 len ++ (w ++ (a ++ cs'.bits)))), cs'.refs⟩) := by
  unfold validate_skip at h
  split at h
  · cases h
  split at h
  · next htag =>
    obtain ⟨cs₁, h1, h⟩ := bind_eq_some_iff.1 h
    obtain ⟨cs₂, h2, h3⟩ := bind_eq_some_iff.1 h
    obtain ⟨l, hl, rfl⟩ := advance_some h1
    obtain ⟨any, hany, rfl⟩ := any_of_skip h2
    obtain ⟨m, hm, rfl⟩ := advance_some h3
    rw [prefetch_append _ _ hl (by omega)] at htag
    obtain rfl : l = [true, false] := by
      have := toBits_ofBits l
      rw [Option.some.inj htag, hl] at this
      exact this.symm
    refine ⟨any, hany, .inl ⟨m.take 8, m.drop 8, by rw [length_take]; omega, by rw [length_drop]; omega, ?_⟩⟩
    simp only [← append_assoc, take_append_drop]
  · next htag =>
    obtain ⟨cs₁, h1, h⟩ := bind_eq_some_iff.1 h
    obtain ⟨cs₂, h2, h⟩ := bind_eq_some_iff.1 h
    split at h
    · cases h
    obtain ⟨⟨len, cs₃⟩, h3, h⟩ := bind_eq_some_iff.1 h
    obtain ⟨⟨wc, cs₄⟩, h4, h⟩ := bind_eq_some_iff.1 h
    obtain ⟨cs₅, h5, h⟩ := bind_eq_some_iff.1 h
    split at h
    swap
    · cases h
    cases h
    obtain ⟨l, hl, rfl⟩ := advance_some h1
    obtain ⟨any, hany, rfl⟩ := any_of_skip h2
    obtain ⟨n, hn, hlen, rfl⟩ := fetch_uint_some h3
    obtain ⟨w, hw, -, rfl⟩ := fetch_int_some h4
    obtain ⟨a, ha, rfl⟩ := advance_some h5
    rw [prefetch_append _ _ hl (by omega)] at htag
    obtain rfl : l = [true, true] := by
      have := toBits_ofBits l
      rw [Option.some.inj htag, hl] at this
      exact this.symm
    have hlt := ofBits_lt n
    rw [hn, ← hlen] at hlt
    refine ⟨any, hany, .inr ⟨len, w, a, hlt, hw, ha, ?_⟩⟩
    rw [hlen, ← hn, toBits_ofBits]
  · cases h

/-- The depth of the anycast prefix that an address starts with. -/
def anycast_depth (cs : CellSlice) : Option Nat := if cs.bits.getD 2 false then some (ofBits ((cs.bits.drop 3).take 5)) else none

theorem anycast_depth_eq (b : Bool) {any : Option (List Bool)} (hany : ∀ x ∈ any, x.length < 32) (s : List Bool) (refs : List DataCell) :
    anycast_depth ⟨[true, b] ++ (any_bits any ++ s), refs⟩ = any.map List.length := by
  cases any with
  | none => rfl
  | some x =>
    have hx : x.length < 2 ^ 5 := hany x rfl
    show some (ofBits ((toBits 5 x.length ++ x ++ s).take 5)) = some x.length
    rw [append_assoc, take_left' (toBits_length 5 _), ofBits_toBits, Nat.mod_eq_of_lt hx]

theorem short_iff {any : Option (List Bool)} (hany : ∀ x ∈ any, x.length < 32) : (any.getD []).length ≤ 30 ↔ any.map List.length ≠ some 31 := by
  cases any with
  | none => simp
  | some x =>
    have hx : x.length < 32 := hany x rfl
    simp only [getD_some, map_some, ne_eq, Option.some.injEq]
    omega

/-- The readers agree but for a prefix of 31 bits, where `skip_get_depth` fails. -/
theorem readers_agree {cs cs₁ cs₂ : CellSlice} {workchain : WorkchainId} {addr : StdSmcAddress} (hv : validate_skip cs = some cs₁)
    (hx : extract_std_address cs true = some (workchain, addr, cs₂)) :
    get_prefix cs = ⟨workchain, first64 addr⟩ ∧ cs₂ = cs₁ ∧ ((∃ depth, skip_get_depth cs = some (depth, cs₁)) ↔ anycast_depth cs ≠ some 31) := by
  obtain ⟨any, hany, ⟨w, a, hw, ha, rfl⟩ | ⟨len, w, a, hlen, hw, ha, rfl⟩⟩ := of_validate_skip hv
  · obtain ⟨hread, hpfx⟩ := @read_std any w ⟨a, ha⟩ cs₁.bits cs₁.refs hany hw
    rw [hread] at hx
    cases hx
    rw [hpfx, depth_std (a := ⟨a, ha⟩) hany hw, anycast_depth_eq _ hany, ← short_iff hany]
    refine ⟨rfl, rfl, ?_⟩
    split <;> simp_all
  · by_cases h256 : len = 256
    · subst h256
      obtain ⟨hread, hpfx⟩ := @read_var any w ⟨a, ha⟩ cs₁.bits cs₁.refs hany hw
      rw [hread] at hx
      cases hx
      rw [hpfx, depth_var (a := ⟨a, ha⟩) hany hw, anycast_depth_eq _ hany, ← short_iff hany]
      refine ⟨rfl, rfl, ?_⟩
      split <;> simp_all
    · rw [extract_var_ne hany hlen h256] at hx
      cases hx

/-! ## What is stored -/

theorem none_short : ∀ x ∈ (none : Option (List Bool)), x.length < 32 := by simp

theorem validate_std {any : Option (List Bool)} (hany : ∀ x ∈ any, x.length < 32) {w : List Bool} (hw : w.length = 8) (a : StdSmcAddress)
    (cs : CellSlice) : validate_skip ⟨[true, false] ++ (any_bits any ++ (w ++ (a.1 ++ cs.bits))), cs.refs⟩ = some cs := by
  have hlen : (w ++ a.1).length = 8 + 256 := by rw [length_append, hw, a.2]
  rw [validate_skip, have_three, tag_two]
  simp only [Bool.not_true, false_eq_true, if_false, toNat_false, advance_append _ _ (show [true, false].length = 2 from rfl),
    any_skip hany, bind_eq_bind, bind_some]
  rw [← append_assoc, advance_append _ _ hlen]

theorem validate_var {w : List Bool} (hw : w.length = 32) (hsmall : ¬small (signed w)) (a : StdSmcAddress) (cs : CellSlice) :
    validate_skip ⟨[true, true] ++ (any_bits none ++ (toBits 9 256 ++ (w ++ (a.1 ++ cs.bits)))), cs.refs⟩ = some cs := by
  have hroom : have_bits ⟨toBits 9 256 ++ (w ++ (a.1 ++ cs.bits)), cs.refs⟩ (9 + 32) = true := by
    apply have_bits_of_le
    simp only [length_append, toBits_length, hw]
    omega
  have h0 : signed w ≠ 0 := fun h => hsmall (by rw [h]; decide)
  have h1 : signed w ≠ -1 := fun h => hsmall (by rw [h]; decide)
  rw [validate_skip, have_three, tag_two]
  simp only [Bool.not_true, false_eq_true, if_false, toNat_true, advance_append _ _ (show [true, true].length = 2 from rfl),
    any_skip none_short, bind_eq_bind, bind_some, hroom, fetch_uint_append _ _ (toBits_length 9 256), bits_256,
    fetch_int_append _ _ hw, advance_append _ _ a.2]
  exact if_pos ⟨.inl hsmall, h0, h1⟩

theorem signed_toBits (w : Nat) (x : BitVec w) : signed (toBits w x.toNat) = x.signExtend 32 := by
  have h : ∀ n, n = w → (BitVec.ofNat n (ofBits (toBits w x.toNat))).signExtend 32 = x.signExtend 32 := by
    rintro n rfl
    rw [ofBits_toBits, Nat.mod_eq_of_lt x.isLt, BitVec.ofNat_toNat, setWidth_eq]
  exact h _ (toBits_length _ _)

theorem signExtend_small {workchain : WorkchainId} (h : small workchain) : (workchain.setWidth 8).signExtend 32 = workchain := by
  obtain ⟨h1, h2⟩ := h
  apply eq_of_toInt_eq
  rw [toInt_signExtend_of_le (by omega), toInt_setWidth, ← Int.bmod_bmod_of_dvd (show 2 ^ 8 ∣ 2 ^ 32 by decide),
    ← toInt_eq_toNat_bmod]
  exact Int.bmod_eq_of_le (by omega) (by omega)

/-- The bits of a stored address. -/
def stored (workchain : WorkchainId) (addr : StdSmcAddress) : List Bool :=
  if small workchain then [true, false] ++ (any_bits none ++ (toBits 8 (workchain.setWidth 8).toNat ++ addr.1))
  else [true, true] ++ (any_bits none ++ (toBits 9 256 ++ (toBits 32 workchain.toNat ++ addr.1)))

theorem store_std_address_eq (workchain : WorkchainId) (addr : StdSmcAddress) {cb : CellBuilder} (hroom : 300 ≤ cb.remaining_bits) :
    store_std_address cb workchain addr = some { cb with bits := cb.bits ++ stored workchain addr } := by
  have ha := addr.2
  have hfits : ∀ {cb : CellBuilder} {bs : List Bool}, bs.length ≤ cb.remaining_bits →
      cb.store_bits_bool bs = some { cb with bits := cb.bits ++ bs } := by
    intro cb bs h
    rw [CellBuilder.store_bits_bool, if_pos]
    simpa [CellBuilder.can_extend_by, CellBuilder.remaining_bits] using h
  simp only [CellBuilder.remaining_bits] at hroom hfits
  unfold store_std_address stored
  split
  · rw [hfits (by rw [toBits_length]; omega)]
    simp only [bind_eq_bind, bind_some]
    rw [hfits (by simp only [length_append, toBits_length]; omega)]
    simp only [bind_some]
    rw [hfits (by simp only [length_append, toBits_length]; omega)]
    simp only [append_assoc]
    rfl
  · rw [hfits (by rw [toBits_length]; omega)]
    simp only [bind_eq_bind, bind_some]
    rw [hfits (by simp only [length_append, toBits_length]; omega)]
    simp only [bind_some]
    rw [hfits (by simp only [length_append, toBits_length]; omega)]
    simp only [append_assoc]
    rfl

theorem stored_read (workchain : WorkchainId) (addr : StdSmcAddress) (cs : CellSlice) :
    validate_skip ⟨stored workchain addr ++ cs.bits, cs.refs⟩ = some cs ∧
      extract_std_address ⟨stored workchain addr ++ cs.bits, cs.refs⟩ true = some (workchain, addr, cs) := by
  unfold stored
  split
  · next hsmall =>
    have hw := toBits_length 8 (workchain.setWidth 8).toNat
    have hread := (@read_std none _ addr cs.bits cs.refs none_short hw).1
    rw [signed_toBits, signExtend_small hsmall] at hread
    simp only [append_assoc]
    exact ⟨validate_std none_short hw addr cs, hread⟩
  · next hsmall =>
    have hw := toBits_length 32 workchain.toNat
    have hsigned : signed (toBits 32 workchain.toNat) = workchain := by rw [signed_toBits, signExtend_eq]
    have hread := (@read_var none _ addr cs.bits cs.refs none_short hw).1
    rw [hsigned] at hread
    simp only [append_assoc]
    exact ⟨validate_var hw (by rwa [hsigned]) addr cs, hread⟩

end MsgAddressInt

open MsgAddressInt

/-- Where the anycast prefix is not of 31 bits, all readers agree; what is stored is read back. -/
theorem address_readers_agree (cs : CellSlice) (workchain : WorkchainId) (addr : StdSmcAddress) :
    (∀ cs₁ cs₂, validate_skip cs = some cs₁ → anycast_depth cs ≠ some 0 → extract_std_address cs true = some (workchain, addr, cs₂) →
      (( get_prefix cs = ⟨workchain, first64 addr⟩ ∧ cs₂ = cs₁ ∧ ∃ depth, skip_get_depth cs = some (depth, cs₁)) ↔
        anycast_depth cs ≠ some 31)) ∧
    (∀ cb : CellBuilder, 300 ≤ cb.remaining_bits →
      ∃ s, store_std_address cb workchain addr = some { cb with bits := cb.bits ++ s } ∧
        validate_skip ⟨s ++ cs.bits, cs.refs⟩ = some cs ∧ extract_std_address ⟨s ++ cs.bits, cs.refs⟩ true = some (workchain, addr, cs)) := by
  refine ⟨fun cs₁ cs₂ hv _ hx => ?_, fun cb hroom => ?_⟩
  · obtain ⟨hpfx, heq, hiff⟩ := readers_agree hv hx
    rw [← hiff]
    exact ⟨fun h => h.2.2, fun h => ⟨hpfx, heq, h⟩⟩
  · exact ⟨_, store_std_address_eq workchain addr hroom, stored_read workchain addr cs⟩

/-- The zero address with an anycast prefix of 31 zeroes. -/
def deep_address : CellSlice :=
  ⟨[true, false] ++ (any_bits (some (List.replicate 31 false)) ++ (List.replicate 8 false ++ (List.replicate 256 false ++ []))), []⟩

theorem deep_address_differs : anycast_depth deep_address ≠ some 0 ∧ ∃ workchain addr, validate_skip deep_address = some ⟨[], []⟩ ∧
    extract_std_address deep_address true = some (workchain, addr, ⟨[], []⟩) ∧ skip_get_depth deep_address = none := by
  have hany : ∀ x ∈ some (List.replicate 31 false), x.length < 32 := by simp
  have hw : (List.replicate 8 false).length = 8 := length_replicate
  refine ⟨by decide, _, _, validate_std hany hw ⟨List.replicate 256 false, length_replicate⟩ ⟨[], []⟩,
    (read_std (a := ⟨List.replicate 256 false, length_replicate⟩) hany hw).1, ?_⟩
  rw [deep_address, depth_std (a := ⟨List.replicate 256 false, length_replicate⟩) hany hw]
  simp

/-- The address one of the basechain, stored and read back. -/
theorem one_address_read : ∃ s, store_std_address {} 0 ⟨List.replicate 256 true, length_replicate⟩ = some ⟨s, []⟩ ∧
    validate_skip ⟨s, []⟩ = some ⟨[], []⟩ := by
  obtain ⟨s, hs, hv, -⟩ := (address_readers_agree ⟨[], []⟩ 0 ⟨List.replicate 256 true, length_replicate⟩).2 {} (by decide)
  rw [append_nil] at hv
  exact ⟨s, hs, hv⟩

end Ton.Block
