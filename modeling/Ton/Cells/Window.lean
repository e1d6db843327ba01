import Ton.Cells.Preload
/-!
# What a slice reads

A slice stands for a window on its cell. `Window.apply` is what an operation
answers there, without a cache. The cache is invisible as long as it is in step
with the window (`Good`), which every operation keeps but `fetch_octet`: that one
drops eight bits from the cache and leaves the window where it was.
-/

namespace Ton.Preload
open BigEndian MsbFirst List BitVec

inductive Op where
  | advance (bits : Nat)
  | advance_refs (refs : Nat)
  | advance_ext (bits refs : Nat)
  | fetch_octet
  | prefetch_octet
  | fetch_ulong (bits : Nat)
  | prefetch_ulong (bits : Nat)
  | fetch_long (bits : Nat)
  | prefetch_long (bits : Nat)
  | prefetch_ulong_top (bits : Nat)
  | fetch_bits (bits : Nat)
  | prefetch_bits (bits : Nat)
  | only_first (bits refs : Nat)
  | skip_first (bits refs : Nat)
  | only_last (bits refs : Nat)
  | skip_last (bits refs : Nat)

inductive Answer where
  | flag (ok : Bool)
  | octet (v : Int)
  | ulong (v : Nat)
  | long (v : Int)
  /-- How many bits, and their value. -/
  | top (bits v : Nat)
  | bits (bs : Option (List Bool))
  deriving DecidableEq

/-- Of the word that `prefetch_ulong_top` returns, the bits below the top ones say nothing. -/
def Answer.ofTop (r : Nat × BitVec 64) : Answer := .top r.1 (r.2 >>> (64 - r.1)).toNat

def CellSlice.exec (cs : CellSlice) : Op → Option (Answer × CellSlice)
  | .advance bits => (cs.advance bits).map (Prod.map .flag id)
  | .advance_refs refs => (cs.advance_refs refs).map (Prod.map .flag id)
  | .advance_ext bits refs => (cs.advance_ext bits refs).map (Prod.map .flag id)
  | .fetch_octet => cs.fetch_octet.map (Prod.map .octet id)
  | .prefetch_octet => cs.prefetch_octet.map (Prod.map .octet id)
  | .fetch_ulong bits => (cs.fetch_ulong bits).map (Prod.map (.ulong ·.toNat) id)
  | .prefetch_ulong bits => (cs.prefetch_ulong bits).map (Prod.map (.ulong ·.toNat) id)
  | .fetch_long bits => (cs.fetch_long bits).map (Prod.map (.long ·.toInt) id)
  | .prefetch_long bits => (cs.prefetch_long bits).map (Prod.map (.long ·.toInt) id)
  | .prefetch_ulong_top bits => (cs.prefetch_ulong_top bits).map (Prod.map .ofTop id)
  | .fetch_bits bits => (cs.fetch_bits bits).map (Prod.map .bits id)
  | .prefetch_bits bits => (cs.prefetch_bits bits).map (Prod.map .bits id)
  | .only_first bits refs => (cs.only_first bits refs).map (Prod.map .flag id)
  | .skip_first bits refs => (cs.skip_first bits refs).map (Prod.map .flag id)
  | .only_last bits refs => (cs.only_last bits refs).map (Prod.map .flag id)
  | .skip_last bits refs => (cs.skip_last bits refs).map (Prod.map .flag id)

/-! ## The window -/

structure Window where
  bits_st : Nat
  refs_st : Nat
  bits_en : Nat
  refs_en : Nat
  deriving DecidableEq

namespace Window

variable (c : DataCell) (w : Window)

def size : Nat := w.bits_en - w.bits_st

def size_refs : Nat := w.refs_en - w.refs_st

/-- The bits left to read. -/
def bits : List Bool := (c.data.drop w.bits_st).take w.size

def skip (bits refs : Nat) : Window := { w with bits_st := w.bits_st + bits, refs_st := w.refs_st + refs }

/-- A read of `n` bits that moves on by `step`: `hit` of the bits when there are that many, else `miss` and no move. -/
def take (n : Nat) (step : Nat) (hit : List Bool → Answer) (miss : Answer) : Answer × Window :=
  if n ≤ w.size then (hit ((w.bits c).take n), w.skip step 0) else (miss, w)

/-- The same for a word, which has at most 64 bits. -/
def word (n : Nat) (step : Nat) (hit : List Bool → Answer) (miss : Answer) : Answer × Window :=
  if n ≤ 64 then w.take c n step hit miss else (miss, w)

/-- A move to another window when there are `bits` and `refs`. -/
def move (bits refs : Nat) (next : Window) : Answer × Window :=
  if bits ≤ w.size ∧ refs ≤ w.size_refs then (.flag true, next) else (.flag false, w)

/-- What an operation answers and which window it leaves; more than 64 bits at the top of one word are not asked for. -/
def apply : Op → Option (Answer × Window)
  | .advance n => some (w.move n 0 (w.skip n 0))
  | .advance_refs r => some (w.move 0 r (w.skip 0 r))
  | .advance_ext n r => some (w.move n r (w.skip n r))
  | .fetch_octet => some (w.take c 8 8 (.octet <| ofBits ·) (.octet (-1)))
  | .prefetch_octet => some (w.take c 8 0 (.octet <| ofBits ·) (.octet (-1)))
  | .fetch_ulong n => some (w.word c n n (.ulong <| ofBits ·) (.ulong (2 ^ 64 - 1)))
  | .prefetch_ulong n => some (w.word c n 0 (.ulong <| ofBits ·) (.ulong (2 ^ 64 - 1)))
  | .fetch_long n => some (w.word c n n (.long <| signed ·) (.long (-2 ^ 63)))
  | .prefetch_long n => some (w.word c n 0 (.long <| signed ·) (.long (-2 ^ 63)))
  | .prefetch_ulong_top n =>
    if min n w.size ≤ 64 then some (.top (min n w.size) (ofBits ((w.bits c).take (min n w.size))), w) else none
  | .fetch_bits n => some (w.take c n n (.bits <| some ·) (.bits none))
  | .prefetch_bits n => some (w.take c n 0 (.bits <| some ·) (.bits none))
  | .only_first n r => some (w.move n r ⟨w.bits_st, w.refs_st, w.bits_st + n, w.refs_st + r⟩)
  | .skip_first n r => some (w.move n r (w.skip n r))
  | .only_last n r => some (w.move n r ⟨w.bits_en - n, w.refs_en - r, w.bits_en, w.refs_en⟩)
  | .skip_last n r => some (w.move n r ⟨w.bits_st, w.refs_st, w.bits_en - n, w.refs_en - r⟩)

/-- The answers of a run, each with the window it leaves, up to the first operation without one. -/
def run (w : Window) : List Op → List (Option (Answer × Window))
  | [] => []
  | op :: ops => (w.apply c op).elim [none] fun r => some r :: run r.2 ops

/-- No octet is fetched in the run: there are never eight bits left for one. -/
def NoOctet (w : Window) : List Op → Prop
  | [] => True
  | op :: ops => (op = .fetch_octet → w.size < 8) ∧ ∀ r ∈ w.apply c op, NoOctet r.2 ops

end Window

namespace CellSlice

def window (cs : CellSlice) : Window := ⟨cs.bits_st, cs.refs_st, cs.bits_en, cs.refs_en⟩

@[simp] theorem window_size (cs : CellSlice) : cs.window.size = cs.size := rfl

@[simp] theorem window_size_refs (cs : CellSlice) : cs.window.size_refs = cs.size_refs := rfl

/-- The run of the code. -/
def run (cs : CellSlice) : List Op → List (Option (Answer × Window))
  | [] => []
  | op :: ops => (cs.exec op).elim [none] fun r => some (r.1, r.2.window) :: run r.2 ops

/-! ## In step with the window -/

/-- A window within the cell. -/
structure Within (c : DataCell) (cs : CellSlice) : Prop where
  cell_eq : cs.cell = c
  bits_le : cs.bits_st ≤ cs.bits_en
  bits_en_le : cs.bits_en ≤ c.get_bits
  refs_le : cs.refs_st ≤ cs.refs_en
  refs_en_le : cs.refs_en ≤ c.get_refs_cnt

/-- The cache is in step with the window. Past the bits read ahead, `z` may already show bits of the data: they are read
again into the same place. -/
structure Good (c : DataCell) (cs : CellSlice) : Prop extends Within c cs where
  zd_le : cs.zd ≤ 64
  read : ∀ i < cs.zd, i < cs.size → cs.z.getMsbD i = bitAt c.get_data (cs.bits_st + i)
  ahead : cs.zd < cs.size → ∀ i, cs.zd ≤ i → cs.z.getMsbD i = true → bitAt c.get_data (cs.bits_st + i) = true
  next : cs.zd < cs.size → ∃ p, cs.ptr = some p ∧ 8 * p = cs.bits_st + cs.zd
  loaded : 0 < cs.size → cs.ptr.isSome

variable {c : DataCell} {cs : CellSlice} {n r : Nat}

theorem bitAt_data {k : Nat} (h : k < c.get_bits) : bitAt c.get_data k = c.data.getD k false := by
  rw [bitAt, DataCell.get_data, DataCell.bytesToBits_dataBytes]
  split
  · rfl
  · exact getD_append _ _ _ _ h

theorem Within.byte (h : Within c cs) {p : Nat} (hp : 8 * p < cs.bits_en) : ∃ b, cs.data[p]? = some b := by
  refine ⟨_, List.getElem?_eq_getElem (?_ : p < cs.data.length)⟩
  have := h.bits_en_le
  rw [data, h.cell_eq, DataCell.get_data, DataCell.dataBytes_length]
  unfold DataCell.get_bits at this
  omega

theorem Within.top_eq (h : Within c cs) {z : BitVec 64} (hn : n ≤ cs.size)
    (hz : ∀ i < n, z.getMsbD i = bitAt c.get_data (cs.bits_st + i)) : top z n = (cs.window.bits c).take n := by
  have hlen : cs.bits_st + n ≤ c.data.length := by
    have hen : cs.bits_en ≤ c.data.length := h.bits_en_le
    have := h.bits_le
    unfold size at hn
    omega
  have hn' : n ≤ cs.window.size := hn
  rw [Window.bits, take_take, min_eq_left hn']
  refine ext_getElem (by simp [window]; omega) fun i h1 h2 => ?_
  have hi : i < n := by simpa using h1
  have hd : cs.bits_st + i < c.data.length := by omega
  simp [top, hz i hi, bitAt_data (show cs.bits_st + i < c.get_bits from hd), window, List.getElem?_eq_getElem hd]

theorem init_preload_spec (h : Within c cs) : ∃ cs', cs.init_preload = some cs' ∧ Good c cs' ∧ cs'.window = cs.window := by
  unfold init_preload
  split
  · next hge =>
    have hs : cs.size = 0 := by unfold size; omega
    refine ⟨_, rfl, ⟨⟨h.cell_eq, h.bits_le, h.bits_en_le, h.refs_le, h.refs_en_le⟩, Nat.zero_le _, fun i hi => by simp at hi,
      fun hlt => ?_, fun hlt => ?_, fun hlt => ?_⟩, rfl⟩
    all_goals exact absurd (hs ▸ hlt : _ < 0) (Nat.not_lt_zero _)
  · next hlt =>
    obtain ⟨b, hb⟩ := h.byte (p := cs.bits_st / 8) (by omega)
    have hz (i : Nat) : (b.setWidth 64 <<< (64 - (8 - cs.bits_st % 8))).getMsbD i = b.getMsbD (i + cs.bits_st % 8) := by
      rw [getMsbD_shiftLeft, getMsbD_setWidth, decide_eq_true (by omega), Bool.true_and]
      congr 1
      omega
    have hbit {i : Nat} (hi : i + cs.bits_st % 8 < 8) : b.getMsbD (i + cs.bits_st % 8) = bitAt c.get_data (cs.bits_st + i) := by
      rw [data, h.cell_eq] at hb
      rw [getMsbD_byte hb hi]
      congr 1
      omega
    simp only [Nat.add_sub_cancel, hb, Option.bind_eq_bind, Option.bind_some, Option.pure_def]
    refine ⟨_, rfl, ⟨⟨h.cell_eq, h.bits_le, h.bits_en_le, h.refs_le, h.refs_en_le⟩, ?_, fun i hi _ => ?_,
      fun hlt i hi hzi => ?_, fun hlt => ⟨_, rfl, ?_⟩, fun _ => rfl⟩, rfl⟩
    · dsimp only
      omega
    · dsimp only at hi ⊢
      rw [hz, hbit (by omega)]
    · dsimp only [size] at hlt hi hzi
      rw [hz, getMsbD_of_ge _ _ (by omega)] at hzi
      exact absurd hzi Bool.false_ne_true
    · dsimp only [size] at hlt ⊢
      omega

theorem Good.shift (h : Good c cs) (hz : n ≤ cs.zd) (hn : n ≤ cs.size) :
    Good c { cs with bits_st := cs.bits_st + n, z := cs.z <<< n, zd := cs.zd - n } := by
  have hle := h.bits_le
  unfold size at hn
  refine ⟨⟨h.cell_eq, ?_, h.bits_en_le, h.refs_le, h.refs_en_le⟩, ?_, fun i hi hs => ?_, fun hlt i hi hzi => ?_, fun hlt => ?_,
    fun hs => ?_⟩
  · dsimp only
    omega
  · have := h.zd_le
    dsimp only
    omega
  · dsimp only [size] at hi hs ⊢
    rw [getMsbD_shiftLeft, h.read (i + n) (by omega) (by unfold size; omega)]
    congr 1
    omega
  · dsimp only [size] at hlt hi hzi ⊢
    rw [getMsbD_shiftLeft] at hzi
    rw [← h.ahead (by unfold size; omega) (i + n) (by omega) hzi]
    congr 1
    omega
  · dsimp only [size] at hlt ⊢
    obtain ⟨p, hp, he⟩ := h.next (by unfold size; omega)
    exact ⟨p, hp, by omega⟩
  · dsimp only [size] at hs ⊢
    exact h.loaded (by unfold size; omega)

theorem Good.with_refs (h : Good c cs) (hr : r ≤ cs.refs_en) : Good c { cs with refs_st := r } :=
  ⟨⟨h.cell_eq, h.bits_le, h.bits_en_le, hr, h.refs_en_le⟩, h.zd_le, h.read, h.ahead, h.next, h.loaded⟩

theorem Good.with_end (h : Good c cs) (hl : cs.bits_st ≤ n) (hn : n ≤ cs.bits_en) (hrl : cs.refs_st ≤ r) (hr : r ≤ cs.refs_en) :
    Good c { cs with bits_en := n, refs_en := r } := by
  have hs {k : Nat} (hk : k < n - cs.bits_st) : k < cs.size := by unfold size; omega
  exact ⟨⟨h.cell_eq, hl, hn.trans h.bits_en_le, hrl, hr.trans h.refs_en_le⟩, h.zd_le, fun i hi hi' => h.read i hi (hs hi'),
    fun hlt => h.ahead (hs hlt), fun hlt => h.next (hs hlt), fun hlt => h.loaded (hs hlt)⟩

/-! ## Reading ahead -/

/-- Data read into `z` at the end of the bits read ahead: `m` more bits of `z` are right, and none past them is wrong. -/
theorem Good.fill (h : Good c cs) (hlt : cs.zd < cs.size) {x : BitVec 64} {m : Nat}
    (hx : ∀ i, x.getMsbD i = (decide (cs.zd ≤ i ∧ i < cs.zd + m) && bitAt c.get_data (cs.bits_st + i))) :
    (∀ i < cs.zd + m, i < cs.size → (cs.z ||| x).getMsbD i = bitAt c.get_data (cs.bits_st + i)) ∧
      ∀ i, cs.zd ≤ i → (cs.z ||| x).getMsbD i = true → bitAt c.get_data (cs.bits_st + i) = true := by
  constructor
  · intro i hi hs
    rw [getMsbD_or, hx]
    by_cases hz : i < cs.zd
    · rw [h.read i hz hs, decide_eq_false (by omega), Bool.false_and, Bool.or_false]
    · rw [decide_eq_true (by omega), Bool.true_and]
      have ha := h.ahead hlt i (by omega)
      cases hzi : cs.z.getMsbD i with
      | false => rfl
      | true => exact (ha hzi).symm
  · intro i hi hor
    rw [getMsbD_or, hx, Bool.or_eq_true, Bool.and_eq_true] at hor
    rcases hor with hz | ⟨-, hb⟩
    · exact h.ahead hlt i hi hz
    · exact hb

/-- What a preload is for: the first `n` bits of `z` are right, and they count as read ahead if a word of 56 bits holds them. -/
structure Prepared (c : DataCell) (n : Nat) (cs : CellSlice) : Prop extends Good c cs where
  shown : ∀ i < n, cs.z.getMsbD i = bitAt c.get_data (cs.bits_st + i)
  counted : n ≤ 56 → n ≤ cs.zd

theorem Good.prepared (h : Good c cs) (hz : n ≤ cs.zd) (hn : n ≤ cs.size) : Prepared c n cs :=
  ⟨h, fun i hi => h.read i (by omega) (by omega), fun _ => hz⟩

theorem placed {p : List Byte} {s k m : Nat} {x : BitVec m} (hk : k + m ≤ 64) (hx : ∀ j < m, x.getMsbD j = bitAt p (s + k + j))
    (i : Nat) : (x.setWidth 64 <<< (64 - m - k)).getMsbD i = (decide (k ≤ i ∧ i < k + m) && bitAt p (s + i)) := by
  rw [getMsbD_place x hk]
  by_cases hi : k ≤ i ∧ i < k + m
  · rw [decide_eq_true hi.1, decide_eq_true hi, hx (i - k) (by omega), show s + k + (i - k) = s + i by omega]
  · rw [decide_eq_false hi, Bool.false_and]
    by_cases hki : k ≤ i
    · rw [getMsbD_of_ge _ _ (by omega), Bool.and_false]
    · rw [decide_eq_false hki, Bool.false_and]

/-- A byte of data of which only the first bits fit below position `k`. -/
theorem placed_end {p : List Byte} {s k : Nat} {b : Byte} (hk : 56 < k) (hk' : k ≤ 64)
    (hx : ∀ j < 8, b.getMsbD j = bitAt p (s + k + j)) (i : Nat) :
    ((b >>> (k - 56)).setWidth 64).getMsbD i = (decide (k ≤ i ∧ i < k + (64 - k)) && bitAt p (s + i)) := by
  rw [getMsbD_cut b (by omega), show 64 - 8 + (k - 56) = k by omega, show k + (64 - k) = 64 by omega]
  by_cases hi : k ≤ i ∧ i < 64
  · rw [hx (i - k) (by omega), show s + k + (i - k) = s + i by omega]
  · rw [decide_eq_false hi, Bool.false_and, Bool.false_and]

theorem Good.filled (h : Good c cs) (hlt : cs.zd < cs.size) {x : BitVec 64} {m p d : Nat}
    (hx : ∀ i, x.getMsbD i = (decide (cs.zd ≤ i ∧ i < cs.zd + m) && bitAt c.get_data (cs.bits_st + i)))
    (hge : cs.zd ≤ d) (hle : d ≤ cs.zd + m) (h64 : d ≤ 64) (hp : d < cs.size → 8 * p = cs.bits_st + d) :
    Good c { cs with z := cs.z ||| x, ptr := some p, zd := d } := by
  obtain ⟨hread, hahead⟩ := h.fill hlt hx
  exact ⟨⟨h.cell_eq, h.bits_le, h.bits_en_le, h.refs_le, h.refs_en_le⟩, h64, fun i hi hs => hread i (by dsimp only at hi; omega) hs,
    fun _ i hi => hahead i (hge.trans hi), fun hs => ⟨p, rfl, hp hs⟩, fun _ => rfl⟩

theorem Good.next_byte (h : Good c cs) (hlt : cs.zd < cs.size) : ∃ p b, cs.ptr = some p ∧ cs.data[p]? = some b ∧
    8 * p = cs.bits_st + cs.zd ∧ ∀ j < 8, b.getMsbD j = bitAt c.get_data (cs.bits_st + cs.zd + j) := by
  obtain ⟨p, hp, he⟩ := h.next hlt
  obtain ⟨b, hb⟩ := h.byte (p := p) (by unfold size at hlt; omega)
  refine ⟨p, b, hp, hb, he, fun j hj => ?_⟩
  rw [data, h.cell_eq] at hb
  rw [getMsbD_byte hb hj, he]

theorem bswap32_as {a b c d : Byte} : bswap32 (d ++ c ++ b ++ a) = a ++ b ++ c ++ d := by
  have ha : (d ++ c ++ b ++ a).extractLsb' 0 8 = a := by
    rw [extractLsb'_append_eq_of_add_le (by omega), extractLsb'_eq_self]
  have hb : (d ++ c ++ b ++ a).extractLsb' 8 8 = b := by
    rw [extractLsb'_append_eq_of_le (by omega), extractLsb'_append_eq_of_add_le (by omega),
      extractLsb'_eq_self]
  have hc : (d ++ c ++ b ++ a).extractLsb' 16 8 = c := by
    rw [extractLsb'_append_eq_of_le (by omega), extractLsb'_append_eq_of_le (by omega),
      extractLsb'_append_eq_of_add_le (by omega), extractLsb'_eq_self]
  have hd : (d ++ c ++ b ++ a).extractLsb' 24 8 = d := by
    rw [extractLsb'_append_eq_of_le (by omega), extractLsb'_append_eq_of_le (by omega),
      extractLsb'_append_eq_of_le (by omega), extractLsb'_eq_self]
  rw [bswap32, ha, hb, hc, hd]

theorem Good.next_word (h : Good c cs) (hlt : cs.zd + 24 < cs.size) : ∃ p w, cs.ptr = some p ∧ as_unsigned cs.data p = some w ∧
    8 * p = cs.bits_st + cs.zd ∧ ∀ j < 32, (bswap32 w).getMsbD j = bitAt c.get_data (cs.bits_st + cs.zd + j) := by
  obtain ⟨p, hp, he⟩ := h.next (by omega)
  have hen : 8 * p + 24 < cs.bits_en := by unfold size at hlt; omega
  obtain ⟨b0, h0⟩ := h.byte (p := p) (by omega)
  obtain ⟨b1, h1⟩ := h.byte (p := p + 1) (by omega)
  obtain ⟨b2, h2⟩ := h.byte (p := p + 2) (by omega)
  obtain ⟨b3, h3⟩ := h.byte (p := p + 3) (by omega)
  refine ⟨p, b3 ++ b2 ++ b1 ++ b0, hp, by simp [as_unsigned, h0, h1, h2, h3], he, fun j hj => ?_⟩
  rw [data, h.cell_eq] at h0 h1 h2 h3
  rw [bswap32_as, getMsbD_bytes h0 h1 h2 h3 hj, he]

theorem preload_loop_spec {remain : Int} (h : Good c cs) (hn : n ≤ cs.size) (h64 : n ≤ 64) (hr : remain = cs.size - cs.zd) :
    ∃ cs', cs.preload_loop n remain = some cs' ∧ Prepared c n cs' ∧ cs'.window = cs.window := by
  -- each round reads a byte, until `n` bits are there, the window ends or `z` is full
  induction hk : remain.toNat using Nat.strong_induction_on generalizing cs remain with
  | _ k ih =>
    rw [preload_loop]
    split
    · next hgo =>
      have hlt : cs.zd < cs.size := by omega
      obtain ⟨p, b, hp, hb, he, hbits⟩ := h.next_byte hlt
      simp only [hp, hb, Option.bind_eq_bind, Option.bind_some, Option.pure_def]
      by_cases h56 : cs.zd > 56
      · have hx := placed_end h56 h.zd_le hbits
        have hgood := h.filled hlt hx le_rfl (by omega) h.zd_le fun _ => he
        simp only [h56, if_true]
        refine ⟨_, rfl, ⟨hgood, fun i hi => ?_, fun hle => by omega⟩, rfl⟩
        exact (h.fill hlt hx).1 i (by omega) (by omega)
      · have hx := placed (k := cs.zd) (by omega) hbits
        rw [show 64 - 8 - cs.zd = 56 - cs.zd by omega] at hx
        simp only [h56, if_false]
        by_cases h8 : remain ≤ 8
        · simp only [h8, if_true]
          exact ⟨_, rfl, (h.filled hlt hx (by omega) (by omega) (by omega) fun hs => by omega).prepared
            (by dsimp only; omega) hn, rfl⟩
        · simp only [h8, if_false]
          have hgood := h.filled (p := p + 1) (d := cs.zd + 8) hlt hx (by omega) (by omega) (by omega) fun _ => by omega
          exact ih _ (by omega) hgood hn (by dsimp only [size]; unfold size at hr; omega) rfl
    · next hstop => exact ⟨cs, rfl, h.prepared (by omega) hn, rfl⟩

theorem preload_at_least_spec (h : Good c cs) (hp : 0 < n) (hn : n ≤ cs.size) (h64 : n ≤ 64) :
    ∃ cs', cs.preload_at_least n = some cs' ∧ Prepared c n cs' ∧ cs'.window = cs.window := by
  unfold preload_at_least
  rw [if_pos ⟨h64, decide_eq_true hn, h.loaded (by omega)⟩]
  have hle := h.bits_le
  have hrem : (cs.bits_en : Int) - cs.bits_st - cs.zd = cs.size - cs.zd := by unfold size; omega
  split
  · next hzd => exact ⟨cs, rfl, h.prepared hzd hn, rfl⟩
  simp only [hrem]
  split
  · next h32 =>
    obtain ⟨p, w, hp, hw, he, hbits⟩ := h.next_word (by omega)
    have hx := placed (k := cs.zd) (by omega) hbits
    rw [show 64 - 32 - cs.zd = 32 - cs.zd by omega] at hx
    simp only [hp, hw, Option.bind_eq_bind, Option.bind_some, Option.pure_def]
    by_cases hend : (cs.size : Int) - cs.zd ≤ 32
    · simp only [hend, if_true]
      exact ⟨_, rfl, (h.filled (by omega) hx (by omega) (by omega) (by omega) fun hs => by omega).prepared
        (by dsimp only; omega) hn, rfl⟩
    · simp only [hend, if_false]
      have hgood := h.filled (p := p + 4) (d := cs.zd + 32) (by omega) hx (by omega) (by omega) (by omega) fun _ => by omega
      exact preload_loop_spec hgood hn h64 (by dsimp only [size]; omega)
  · exact preload_loop_spec h hn h64 rfl

theorem advance_spec (h : Good c cs) (n : Nat) : ∃ cs', cs.advance n = some (decide (n ≤ cs.size), cs') ∧ Good c cs' ∧
    cs'.window = if n ≤ cs.size then cs.window.skip n 0 else cs.window := by
  unfold advance have_bits
  by_cases hn : n ≤ cs.size
  · simp only [hn, decide_true, if_true]
    split
    · have hle := h.bits_le
      have hin : Within c { cs with bits_st := cs.bits_st + n } :=
        ⟨h.cell_eq, by unfold size at hn; dsimp only; omega, h.bits_en_le, h.refs_le, h.refs_en_le⟩
      obtain ⟨cs', hcs, hgood, hw⟩ := init_preload_spec hin
      exact ⟨cs', by rw [hcs]; rfl, hgood, hw⟩
    · next hz => exact ⟨_, rfl, h.shift (by omega) hn, rfl⟩
  · simp only [hn, decide_false, if_false]
    exact ⟨cs, rfl, h, rfl⟩

/-! ## The operations -/

/-- An operation and the window agree: neither has an answer, or both have the same, and the slice stays in step. -/
def Agree (c : DataCell) (r : Option (Answer × CellSlice)) (e : Option (Answer × Window)) : Prop :=
  (r = none ∧ e = none) ∨ ∃ a cs, r = some (a, cs) ∧ e = some (a, cs.window) ∧ Good c cs

variable {bits refs : Nat}

theorem Good.move_flag (h : Good c cs) {next : Window} {r : Option (Bool × CellSlice)}
    (hno : ¬(bits ≤ cs.size ∧ refs ≤ cs.size_refs) → r = some (false, cs))
    (hyes : bits ≤ cs.size → refs ≤ cs.size_refs → ∃ cs', r = some (true, cs') ∧ Good c cs' ∧ cs'.window = next) :
    Agree c (r.map (Prod.map .flag id)) (some (cs.window.move bits refs next)) := by
  by_cases hb : bits ≤ cs.size ∧ refs ≤ cs.size_refs
  · obtain ⟨cs', hr, hgood, hw⟩ := hyes hb.1 hb.2
    refine .inr ⟨.flag true, cs', by rw [hr]; rfl, ?_, hgood⟩
    rw [Window.move, window_size, window_size_refs, if_pos hb, hw]
  · refine .inr ⟨.flag false, cs, by rw [hno hb]; rfl, ?_, h⟩
    rw [Window.move, window_size, window_size_refs, if_neg hb]

theorem Good.skip (h : Good c cs) (hb : bits ≤ cs.size) (hr : refs ≤ cs.size_refs) :
    ∃ cs', { cs with refs_st := cs.refs_st + refs }.advance bits = some (true, cs') ∧ Good c cs' ∧
      cs'.window = cs.window.skip bits refs := by
  have hle := h.refs_le
  have hr' : cs.refs_st + refs ≤ cs.refs_en := by unfold size_refs at hr; omega
  obtain ⟨cs', hcs, hgood, hw⟩ := advance_spec (h.with_refs hr') bits
  have hb' : bits ≤ ({ cs with refs_st := cs.refs_st + refs } : CellSlice).size := hb
  rw [decide_eq_true hb'] at hcs
  rw [if_pos hb'] at hw
  exact ⟨cs', hcs, hgood, hw⟩

theorem exec_advance (h : Good c cs) (n : Nat) : Agree c (cs.exec (.advance n)) (cs.window.apply c (.advance n)) := by
  refine h.move_flag (fun hno => ?_) fun hn _ => h.skip hn (Nat.zero_le _)
  unfold advance have_bits
  rw [if_neg]
  simpa using hno

theorem exec_advance_ext (h : Good c cs) (n r : Nat) :
    Agree c (cs.exec (.advance_ext n r)) (cs.window.apply c (.advance_ext n r)) := by
  refine h.move_flag (fun hno => ?_) fun hn hr => ?_
  · unfold advance_ext have_bits have_refs
    rw [if_neg]
    simpa using hno
  · unfold advance_ext have_bits have_refs
    rw [if_pos (by simp [hn, hr])]
    exact h.skip hn hr

theorem not_have_both (h : ¬(bits ≤ cs.size ∧ refs ≤ cs.size_refs)) : (!cs.have_both bits refs) = true := by
  rw [Bool.not_eq_true', have_both, ← Bool.decide_and]
  exact decide_eq_false h

theorem have_both_of (hb : bits ≤ cs.size) (hr : refs ≤ cs.size_refs) : ¬(!cs.have_both bits refs) = true := by
  simp [have_both, hb, hr]

section
variable (h : Good c cs) (n r : Nat)
include h

theorem exec_skip_first :
    Agree c (cs.exec (.skip_first n r)) (cs.window.apply c (.skip_first n r)) := by
  refine h.move_flag (fun hno => if_pos (not_have_both hno)) fun hn hr => ?_
  unfold skip_first
  rw [if_neg (have_both_of hn hr)]
  exact h.skip hn hr

theorem exec_only_first :
    Agree c (cs.exec (.only_first n r)) (cs.window.apply c (.only_first n r)) := by
  refine h.move_flag (fun hno => if_pos (not_have_both hno)) fun hn hr => ⟨_, if_neg (have_both_of hn hr), ?_, rfl⟩
  have hle := h.bits_le
  have hrl := h.refs_le
  unfold size at hn
  unfold size_refs at hr
  exact h.with_end (by omega) (by omega) (by omega) (by omega)

theorem exec_skip_last :
    Agree c (cs.exec (.skip_last n r)) (cs.window.apply c (.skip_last n r)) := by
  refine h.move_flag (fun hno => if_pos (not_have_both hno)) fun hn hr => ⟨_, if_neg (have_both_of hn hr), ?_, rfl⟩
  have hle := h.bits_le
  have hrl := h.refs_le
  unfold size at hn
  unfold size_refs at hr
  exact h.with_end (by omega) (by omega) (by omega) (by omega)

theorem exec_only_last :
    Agree c (cs.exec (.only_last n r)) (cs.window.apply c (.only_last n r)) := by
  refine h.move_flag (fun hno => if_pos (not_have_both hno)) fun hn hr => ?_
  have hle := h.bits_le
  have hrefs : cs.refs_en - r ≤ cs.refs_en := by omega
  obtain ⟨cs', hcs, hgood, hw⟩ := advance_spec (h.with_refs hrefs) (cs.size - n)
  have hs : cs.size - n ≤ ({ cs with refs_st := cs.refs_en - r } : CellSlice).size := Nat.sub_le _ _
  rw [decide_eq_true hs] at hcs
  rw [if_pos hs] at hw
  refine ⟨cs', by rw [only_last, if_neg (have_both_of hn hr), hcs], hgood, hw.trans ?_⟩
  unfold size at hn
  simp only [window, Window.skip, size, Window.mk.injEq, and_true, Nat.add_zero]
  omega

end

theorem exec_advance_refs (h : Good c cs) (r : Nat) :
    Agree c (cs.exec (.advance_refs r)) (cs.window.apply c (.advance_refs r)) := by
  refine h.move_flag (fun hno => ?_) fun _ hr => ?_
  · unfold advance_refs have_refs
    rw [if_neg]
    simpa using hno
  · refine ⟨_, if_pos (decide_eq_true hr), h.with_refs ?_, rfl⟩
    have hrl := h.refs_le
    unfold size_refs at hr
    omega

/-- A read that leaves the slice in step: with enough bits it answers with the bits it moves over. -/
theorem Good.take_read (h : Good c cs) {α : Type} {f : α → Answer} {step : Nat} {hit : List Bool → Answer} {miss : Answer}
    {r : Option (α × CellSlice)}
    (hno : ¬n ≤ cs.size → ∃ a, r = some (a, cs) ∧ f a = miss)
    (hyes : n ≤ cs.size → ∃ a cs', r = some (a, cs') ∧ f a = hit ((cs.window.bits c).take n) ∧ Good c cs' ∧
      cs'.window = cs.window.skip step 0) :
    Agree c (r.map (Prod.map f id)) (some (cs.window.take c n step hit miss)) := by
  by_cases hn : n ≤ cs.size
  · obtain ⟨a, cs', hr, ha, hgood, hw⟩ := hyes hn
    refine .inr ⟨f a, cs', by rw [hr]; rfl, ?_, hgood⟩
    rw [Window.take, window_size, if_pos hn, ha, hw]
  · obtain ⟨a, hr, ha⟩ := hno hn
    refine .inr ⟨f a, cs, by rw [hr]; rfl, ?_, h⟩
    rw [Window.take, window_size, if_neg hn, ha]

theorem not_have_bits (h : ¬n ≤ cs.size) : (!cs.have_bits n) = true := by simpa [have_bits] using h

theorem have_bits_of (h : n ≤ cs.size) : ¬(!cs.have_bits n) = true := by simp [have_bits, h]

theorem bit_slice_eq (h : Within c cs) (hn : n ≤ cs.size) : cs.bit_slice n = (cs.window.bits c).take n := by
  have hen := h.bits_en_le
  have hle := h.bits_le
  have hn' : n ≤ cs.window.size := hn
  unfold size at hn
  unfold DataCell.get_bits at hen
  rw [bit_slice, Window.bits, take_take, min_eq_left hn', data, h.cell_eq, DataCell.get_data, DataCell.bytesToBits_dataBytes]
  split
  · rfl
  · rw [drop_append_of_le_length (by omega), take_append_of_le_length (by rw [length_drop]; omega)]
    rfl

theorem exec_fetch_bits (h : Good c cs) (n : Nat) :
    Agree c (cs.exec (.fetch_bits n)) (cs.window.apply c (.fetch_bits n)) := by
  refine h.take_read (fun hn => ⟨none, if_pos (not_have_bits hn), rfl⟩) fun hn => ?_
  obtain ⟨cs', hcs, hgood, hw⟩ := advance_spec h n
  rw [if_pos hn] at hw
  refine ⟨_, cs', by rw [fetch_bits, if_neg (have_bits_of hn), hcs]; rfl, ?_, hgood, hw⟩
  rw [bit_slice_eq h.toWithin hn]

theorem exec_prefetch_bits (h : Good c cs) (n : Nat) :
    Agree c (cs.exec (.prefetch_bits n)) (cs.window.apply c (.prefetch_bits n)) := by
  refine h.take_read (fun hn => ⟨none, if_pos (not_have_bits hn), rfl⟩) fun hn => ?_
  refine ⟨_, cs, if_neg (have_bits_of hn), ?_, h, rfl⟩
  rw [bit_slice_eq h.toWithin hn]

theorem Prepared.top_eq (h : Prepared c n cs) (hn : n ≤ cs.size) : top cs.z n = (cs.window.bits c).take n :=
  h.toWithin.top_eq hn h.shown

theorem size_eq_of_window {s t : CellSlice} (h : s.window = t.window) : s.size = t.size := congrArg Window.size h

/-- How a word is read as a number: `f` of the word that holds a bit string at its low end. -/
structure Reading (f : BitVec 64 → Answer) (eof : BitVec 64) (shr : BitVec 64 → Nat → BitVec 64) (hit : List Bool → Answer)
    (miss : Answer) : Prop where
  eof : f eof = miss
  zero : f 0 = hit []
  shr : ∀ (z : BitVec 64) (n : Nat), 0 < n → n ≤ 64 → f (shr z (64 - n)) = hit (top z n)

theorem reading_ulong : Reading (.ulong ·.toNat) fetch_ulong_eof (· >>> ·) (.ulong <| ofBits ·) (.ulong (2 ^ 64 - 1)) where
  eof := rfl
  zero := rfl
  shr z _ _ h := congrArg Answer.ulong (toNat_top z h)

theorem reading_long : Reading (.long ·.toInt) fetch_long_eof .sshiftRight (.long <| signed ·) (.long (-2 ^ 63)) where
  eof := rfl
  zero := rfl
  shr z _ hp h := congrArg Answer.long (toInt_top z hp h)

section Words

variable {f : BitVec 64 → Answer} {eof : BitVec 64} {shr : BitVec 64 → Nat → BitVec 64} {hit : List Bool → Answer} {miss : Answer}

theorem not_word (h : ¬n ≤ cs.size) : (!cs.have_bits n || decide (n > 64)) = true := by rw [not_have_bits h, Bool.true_or]

theorem word_of (h : n ≤ cs.size) (h64 : n ≤ 64) : ¬(!cs.have_bits n || decide (n > 64)) = true := by
  simp [have_bits, h, h64]

theorem fetch_word_agree (h : Good c cs) (hr : Reading f eof shr hit miss) (n : Nat) :
    Agree c ((cs.fetch_word eof shr n).map (Prod.map f id)) (some (cs.window.word c n n hit miss)) := by
  unfold Window.word
  by_cases h64 : n ≤ 64
  swap
  · refine .inr ⟨f eof, cs, ?_, by rw [if_neg h64, hr.eof], h⟩
    rw [fetch_word, if_pos (by simp [Nat.lt_of_not_le h64])]
    rfl
  rw [if_pos h64]
  refine h.take_read (fun hn => ⟨eof, if_pos (not_word hn), hr.eof⟩) fun hn => ?_
  rw [fetch_word, if_neg (word_of hn h64)]
  by_cases hn0 : n = 0
  · subst hn0
    exact ⟨0, cs, if_pos rfl, by rw [hr.zero, take_zero], h, rfl⟩
  rw [if_neg hn0]
  obtain ⟨cs', hcs, hprep, hw⟩ := preload_at_least_spec h (Nat.pos_of_ne_zero hn0) hn h64
  have hn' : n ≤ cs'.size := hn.trans_eq (size_eq_of_window hw).symm
  have hval : f (shr cs'.z (64 - n)) = hit ((cs.window.bits c).take n) := by
    rw [hr.shr _ _ (Nat.pos_of_ne_zero hn0) h64, hprep.top_eq hn', hw]
  simp only [hcs, Option.bind_eq_bind, Option.bind_some, Option.pure_def]
  by_cases h56 : n ≤ 56
  · -- a short word is dropped from the cache by hand
    have hz : cs'.zd ≥ n := hprep.counted h56
    rw [if_pos h56, if_pos hz]
    exact ⟨_, _, rfl, hval, hprep.toGood.shift hz hn', by rw [← hw]; rfl⟩
  · obtain ⟨cs'', hadv, hgood, hw'⟩ := advance_spec hprep.toGood n
    rw [if_pos hn'] at hw'
    rw [if_neg h56, hadv]
    exact ⟨_, cs'', rfl, hval, hgood, by rw [hw', hw]⟩

theorem prefetch_word_agree (h : Good c cs) (hr : Reading f eof shr hit miss) (n : Nat) :
    Agree c ((cs.prefetch_word eof shr n).map (Prod.map f id)) (some (cs.window.word c n 0 hit miss)) := by
  unfold Window.word
  by_cases h64 : n ≤ 64
  swap
  · refine .inr ⟨f eof, cs, ?_, by rw [if_neg h64, hr.eof], h⟩
    rw [prefetch_word, if_pos (by simp [Nat.lt_of_not_le h64])]
    rfl
  rw [if_pos h64]
  refine h.take_read (fun hn => ⟨eof, if_pos (not_word hn), hr.eof⟩) fun hn => ?_
  rw [prefetch_word, if_neg (word_of hn h64)]
  by_cases hn0 : n = 0
  · subst hn0
    exact ⟨0, cs, if_pos rfl, by rw [hr.zero, take_zero], h, rfl⟩
  rw [if_neg hn0]
  obtain ⟨cs', hcs, hprep, hw⟩ := preload_at_least_spec h (Nat.pos_of_ne_zero hn0) hn h64
  have hn' : n ≤ cs'.size := hn.trans_eq (size_eq_of_window hw).symm
  refine ⟨_, cs', by rw [hcs]; rfl, ?_, hprep.toGood, hw⟩
  rw [hr.shr _ _ (Nat.pos_of_ne_zero hn0) h64, hprep.top_eq hn', hw]

end Words

theorem octet_eq {z : BitVec 64} : ((z >>> 56).toNat : Int) = ofBits (top z 8) :=
  congrArg Nat.cast (toNat_top z (n := 8) (by omega))

theorem exec_prefetch_octet (h : Good c cs) : Agree c (cs.exec .prefetch_octet) (cs.window.apply c .prefetch_octet) := by
  refine h.take_read (fun hn => ⟨-1, if_pos (not_have_bits hn), rfl⟩) fun hn => ?_
  obtain ⟨cs', hcs, hprep, hw⟩ := preload_at_least_spec h (by omega) hn (by omega)
  refine ⟨_, cs', by rw [prefetch_octet, if_neg (have_bits_of hn), hcs]; rfl, ?_, hprep.toGood, hw⟩
  rw [octet_eq, hprep.top_eq (hn.trans_eq (size_eq_of_window hw).symm), hw]

/-- An octet that is fetched is the right one, but the window stays. -/
theorem fetch_octet_stays (h : Good c cs) (hn : 8 ≤ cs.size) :
    ∃ cs', cs.exec .fetch_octet = some (.octet (ofBits ((cs.window.bits c).take 8)), cs') ∧ cs'.window = cs.window := by
  obtain ⟨cs', hcs, hprep, hw⟩ := preload_at_least_spec h (by omega) hn (by omega)
  refine ⟨{ cs' with z := cs'.z <<< 8, zd := cs'.zd - 8 }, ?_, hw⟩
  rw [← hw, ← hprep.top_eq (hn.trans_eq (size_eq_of_window hw).symm), ← octet_eq, exec, fetch_octet, if_neg (have_bits_of hn), hcs]
  rfl

theorem exec_fetch_octet (h : Good c cs) (hn : cs.size < 8) :
    Agree c (cs.exec .fetch_octet) (cs.window.apply c .fetch_octet) :=
  h.take_read (fun hn => ⟨-1, if_pos (not_have_bits hn), rfl⟩) fun hn' => absurd hn' (Nat.not_le.mpr hn)

theorem exec_prefetch_ulong_top (h : Good c cs) (n : Nat) :
    Agree c (cs.exec (.prefetch_ulong_top n)) (cs.window.apply c (.prefetch_ulong_top n)) := by
  have hmin : (if n > cs.size then cs.size else n) = min n cs.size := by split <;> omega
  have hm : min n cs.size ≤ cs.size := min_le_right _ _
  rw [exec, Window.apply, prefetch_ulong_top, hmin, window_size]
  generalize min n cs.size = m at hm
  by_cases hm0 : m = 0
  · subst hm0
    exact .inr ⟨_, cs, rfl, rfl, h⟩
  simp only [hm0, if_false]
  by_cases h64 : m ≤ 64
  · obtain ⟨cs', hcs, hprep, hw⟩ := preload_at_least_spec h (Nat.pos_of_ne_zero hm0) hm h64
    refine .inr ⟨.ofTop (m, cs'.z), cs', by rw [hcs]; rfl, ?_, hprep.toGood⟩
    rw [if_pos h64, ← hw, ← hprep.top_eq (hm.trans_eq (size_eq_of_window hw).symm), ← toNat_top _ h64]
    rfl
  · refine .inl ⟨?_, if_neg h64⟩
    rw [preload_at_least, if_neg fun hc => h64 hc.1]
    rfl

/-- An operation that does not fetch an octet is in step with the window. -/
theorem exec_agree (h : Good c cs) (op : Op) (hop : op = .fetch_octet → cs.size < 8) : Agree c (cs.exec op) (cs.window.apply c op) := by
  cases op with
  | advance n => exact exec_advance h n
  | advance_refs r => exact exec_advance_refs h r
  | advance_ext n r => exact exec_advance_ext h n r
  | fetch_octet => exact exec_fetch_octet h (hop rfl)
  | prefetch_octet => exact exec_prefetch_octet h
  | fetch_ulong n => exact fetch_word_agree h reading_ulong n
  | prefetch_ulong n => exact prefetch_word_agree h reading_ulong n
  | fetch_long n => exact fetch_word_agree h reading_long n
  | prefetch_long n => exact prefetch_word_agree h reading_long n
  | prefetch_ulong_top n => exact exec_prefetch_ulong_top h n
  | fetch_bits n => exact exec_fetch_bits h n
  | prefetch_bits n => exact exec_prefetch_bits h n
  | only_first n r => exact exec_only_first h n r
  | skip_first n r => exact exec_skip_first h n r
  | only_last n r => exact exec_only_last h n r
  | skip_last n r => exact exec_skip_last h n r

/-! ## Runs -/

/-- The slices of a cell: the whole cell, a part of a slice, and what operations leave, as long as no octet is fetched. -/
inductive Of (c : DataCell) : CellSlice → Prop
  | load {z cs} : load c z = some cs → Of c cs
  | sub {cs bits_en refs_en bits_st refs_st z cs'} : Of c cs → cs.sub bits_en refs_en bits_st refs_st z = some cs' → Of c cs'
  | exec {cs op a cs'} : Of c cs → (op = .fetch_octet → cs.size < 8) → cs.exec op = some (a, cs') → Of c cs'

theorem Within.good_of_empty (h : Within c cs) (hs : cs.bits_en ≤ cs.bits_st) (hz : cs.zd = 0) : Good c cs := by
  have h0 : cs.size = 0 := by unfold size; omega
  exact ⟨h, by omega, fun i hi => by omega, fun hlt => by omega, fun hlt => by omega, fun hlt => by omega⟩

theorem Of.good (h : Of c cs) : Good c cs := by
  induction h with
  | @load z cs h =>
    have hin : Within c ⟨c, 0, 0, c.get_bits, c.get_refs_cnt, none, z, 0⟩ := ⟨rfl, Nat.zero_le _, le_rfl, Nat.zero_le _, le_rfl⟩
    unfold CellSlice.load at h
    dsimp only at h
    split at h
    · obtain ⟨cs', hcs, hgood, -⟩ := init_preload_spec hin
      cases hcs.symm.trans h
      exact hgood
    · next h0 =>
      cases h
      exact hin.good_of_empty (by dsimp only at h0 ⊢; omega) rfl
  | @sub cs bits_en refs_en bits_st refs_st z cs' _ h ih =>
    unfold CellSlice.sub at h
    split at h
    · next hc =>
      obtain ⟨hb, hr, hbe, hre⟩ := hc
      have hin : Within c ⟨cs.cell, cs.bits_st + bits_st, cs.refs_st + refs_st, cs.bits_st + bits_en, cs.refs_st + refs_en, none,
          z, 0⟩ := by
        have h1 := ih.bits_en_le
        have h2 := ih.refs_en_le
        have h3 := ih.bits_le
        have h4 := ih.refs_le
        unfold size at hbe
        unfold size_refs at hre
        exact ⟨ih.cell_eq, by dsimp only; omega, by dsimp only; omega, by dsimp only; omega, by dsimp only; omega⟩
      dsimp only at h
      split at h
      · obtain ⟨cs'', hcs, hgood, -⟩ := init_preload_spec hin
        cases hcs.symm.trans h
        exact hgood
      · cases h
        exact hin.good_of_empty (by dsimp only; omega) rfl
    · cases h
  | exec _ hop h ih =>
    rcases exec_agree ih _ hop with ⟨hnone, -⟩ | ⟨a, cs'', hsome, -, hgood⟩
    · cases hnone.symm.trans h
    · cases hsome.symm.trans h
      exact hgood

/-- A run reads the bit string of the window exactly as long as it fetches no octet. -/
theorem reads_window_iff (h : Of c cs) (ops : List Op) : cs.run ops = cs.window.run c ops ↔ cs.window.NoOctet c ops := by
  have hgood := h.good
  clear h
  induction ops generalizing cs with
  | nil => exact iff_of_true rfl trivial
  | cons op ops ih =>
    by_cases hop : op = .fetch_octet → cs.size < 8
    · rw [CellSlice.run, Window.run, Window.NoOctet, window_size, and_iff_right hop]
      rcases exec_agree hgood op hop with ⟨hr, he⟩ | ⟨a, cs', hr, he, hgood'⟩
      · simp [hr, he]
      · simp [hr, he, ih hgood']
    · -- an octet is there: the code leaves the window in place
      obtain ⟨rfl, hn⟩ := Classical.not_imp.mp hop
      obtain ⟨cs', hr, hw⟩ := fetch_octet_stays hgood (Nat.le_of_not_lt hn)
      refine iff_of_false (fun heq => ?_) fun hno => hop hno.1
      rw [CellSlice.run, hr, Window.run, Window.apply, Window.take, window_size, if_pos (Nat.le_of_not_lt hn)] at heq
      have hwin := congrArg (fun l => l.head?.map (Option.map (·.2.bits_st))) heq
      simp [hw, Window.skip] at hwin

open DataCell (created create_created)

/-- A cell of one byte. -/
def octetCell : DataCell := created (toBits 8 255) [] false

/-- Fetched twice from a cell of one byte, an octet is read the second time from behind the data. -/
theorem octet_read_twice : DataCell.create (toBits 8 255) [] false = .ok octetCell ∧ ∃ cs, Of octetCell cs ∧
    cs.run [.fetch_octet, .fetch_octet] = [some (.octet 255, ⟨0, 0, 8, 0⟩), none] ∧
    cs.window.run octetCell [.fetch_octet, .fetch_octet] =
      [some (.octet 255, ⟨8, 0, 8, 0⟩), some (.octet (-1), ⟨8, 0, 8, 0⟩)] := by
  obtain ⟨cs, hcs⟩ := Option.isSome_iff_exists.mp (by decide +kernel : (load octetCell 0).isSome = true)
  have hrun : (load octetCell 0).map (·.run [.fetch_octet, .fetch_octet]) = some [some (.octet 255, ⟨0, 0, 8, 0⟩), none] := by
    decide +kernel
  have hwin : (load octetCell 0).map (·.window) = some ⟨0, 0, 8, 0⟩ := by decide +kernel
  rw [hcs] at hrun hwin
  refine ⟨create_created (by decide +kernel), cs, .load hcs, Option.some.inj hrun, ?_⟩
  rw [show cs.window = ⟨0, 0, 8, 0⟩ from Option.some.inj hwin]
  decide +kernel

/-- Words are read from the same cell as from its bits. -/
theorem reads_window_octet : ∃ cs : CellSlice, cs.run [.fetch_ulong 3, .prefetch_long 5, .fetch_long 6] =
    cs.window.run octetCell [.fetch_ulong 3, .prefetch_long 5, .fetch_long 6] := by
  obtain ⟨cs, hcs⟩ := Option.isSome_iff_exists.mp (by decide +kernel : (load octetCell 0).isSome = true)
  refine ⟨cs, (reads_window_iff (.load hcs) _).mpr ?_⟩
  simp [Window.NoOctet]

end CellSlice

end Ton.Preload
