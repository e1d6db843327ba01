import Ton.BigInt.Compare
import Ton.Td.Uint128
/-!
# The size of a number and its bytes

`bit_size_any` looks at the highest words until the sign of what is left decides.
`export_bytes_lsb_any` writes the bytes from the lowest one on as the words come in;
past the end of the buffer they have to be those of the sign.
-/

namespace Ton.BigInt
open SignedDigits List Option Int
open BitVec (ofInt)

namespace AnyIntView

/-! ## The number of bits -/

/-- `64 - count_leading_zeroes64(q)`. -/
def bit_length (q : Int) : Nat := 64 - Td.count_leading_zeroes64 (ofInt 64 q)

/-- The highest word, together with the next one if it is `small`. -/
def top_words (small : Bool) : Int → List Int → Int × List Int
  | q, d :: ds => if small then (word (word (q * Base) + d), ds) else (q, d :: ds)
  | q, [] => (q, [])

/-- The words below, added to `q` until its sign is certain. -/
def size_scan (above below : Nat) : Int → List Int → Nat
  | q, [] => if q ≥ 0 then above else below
  | q, d :: ds =>
    if q ≥ MaxDenorm / 2 then above
    else if q ≤ -MaxDenorm / 2 then below
    else size_scan above below (word (word (q * Base) + d)) ds

def bit_size_positive (sgnd : Bool) (q : Int) (ds : List Int) : Nat :=
  if ds = [] then bit_length q + sgnd.toNat
  else
    let s := bit_length (word (q - MaxDenorm / 4))
    let size := s + (ds.length * word_shift + sgnd.toNat)
    size_scan (size + 1) size (word (q - 2 ^ s)) ds

def bit_size_negative (q : Int) (ds : List Int) : Nat :=
  if ds = [] then bit_length (-q - 1) + 1
  else
    let s := bit_length (word (-q - MaxDenorm / 4))
    let size := s + (ds.length * word_shift + 1)
    size_scan size (size + 1) (word (q + 2 ^ s)) ds

/-- `0x7fffffff` where the number has no size. -/
def bit_size_any (x : AnyIntView) (sgnd : Bool) : Nat :=
  match x.digits.reverse with
  | [] => 0x7fffffff
  | top :: ds =>
    if x.sgn = 0 then 0
    else if x.sgn ≥ 0 then
      let (q, ds) := top_words (top < MaxDenorm / 2) top ds
      bit_size_positive sgnd q ds
    else if sgnd then
      let (q, ds) := top_words (top > -MaxDenorm / 2) top ds
      bit_size_negative q ds
    else 0x7fffffff

/-! ## The bytes -/

/-- The next byte, written or compared with that of the sign. -/
def put_byte (buff_size : Nat) (s b : BitVec 8) (out : List (BitVec 8)) : Option (List (BitVec 8)) :=
  if out.length < buff_size then some (out ++ [b]) else if b ≠ s then none else some out

/-- Some of the low bytes of `v`, which are shifted out of it. -/
def put_bytes (buff_size : Nat) (s : BitVec 8) : Nat → Int → List (BitVec 8) → Option (Int × List (BitVec 8))
  | 0, v, out => some (v, out)
  | m + 1, v, out => (put_byte buff_size s (ofInt 8 v) out).bind (put_bytes buff_size s m (v / 2 ^ 8))

/-- The loop over the words, with `k` bits in `v`; a word of 52 bits and 8 more fit in one of 64. -/
def put_words (buff_size : Nat) (s : BitVec 8) : Nat → Int → List (BitVec 8) → List Int → Option (Int × List (BitVec 8))
  | _, v, out, [] => some (v, out)
  | k, v, out, d :: ds =>
    (put_bytes buff_size s ((k + word_shift) / 8) (word (v + word (d * 2 ^ k))) out).bind fun r =>
      put_words buff_size s ((k + word_shift) % 8) r.1 r.2 ds

/-- The bytes written, `none` for `false`. -/
def export_bytes_lsb_any (x : AnyIntView) (buff_size : Nat) (sgnd : Bool) : Option (List (BitVec 8)) :=
  if !x.is_valid then none
  else if buff_size = 0 then (if x.sgn_un_any = 0 then some [] else none)
  else
    let s : BitVec 8 := if x.sgn_un_any < 0 then 0xff else 0
    if s ≠ 0 ∧ !sgnd then none
    else do
      let (v, out) ← put_words buff_size s 0 0 [] x.digits
      -- what is left of the buffer takes the next bytes of `v`, all of which it has room for
      let (v, out) ← put_bytes buff_size s (buff_size - out.length) v out
      if v ≠ -((s &&& 1).toNat : Int) then none
      else if !sgnd then some out
      else if (out.getLastD 0 ^^^ s) &&& 0x80 ≠ 0 then none
      else some out

end AnyIntView

/-- The number that bytes spell, the lowest one first. -/
def lsb (bs : List (BitVec 8)) : Int := value 256 (bs.map fun b => (b.toNat : Int))

@[simp] theorem lsb_nil : lsb [] = 0 := rfl

theorem lsb_append (bs cs : List (BitVec 8)) : lsb (bs ++ cs) = lsb bs + 256 ^ bs.length * lsb cs := by
  rw [lsb, map_append, value_append, length_map]
  rfl

theorem lsb_singleton (b : BitVec 8) : lsb [b] = b.toNat := by rw [lsb, map_singleton, value_singleton]

theorem lsb_bounds (bs : List (BitVec 8)) : 0 ≤ lsb bs ∧ lsb bs < 256 ^ bs.length := by
  induction bs with
  | nil => simp
  | cons b bs ih =>
    have h : lsb (b :: bs) = b.toNat + 256 * lsb bs := rfl
    have hb := b.isLt
    rw [h, length_cons, pow_succ]
    omega

namespace AnyIntView

/-! ## What they compute -/

theorem bit_length_spec {q : Int} (h0 : 0 < q) (h1 : q < 2 ^ 63) : ∃ n, bit_length q = n + 1 ∧ (2 : Int) ^ n ≤ q ∧ q < 2 ^ (n + 1) := by
  obtain ⟨a, rfl⟩ := eq_ofNat_of_zero_le h0.le
  have ha : (ofInt 64 (a : Int)).toNat = a := by
    rw [BitVec.ofInt_natCast, BitVec.toNat_ofNat]
    omega
  have hne : a ≠ 0 := by omega
  have hlog : a.log2 < 63 := (Nat.log2_lt hne).2 (by omega)
  refine ⟨a.log2, ?_, ?_, ?_⟩
  · rw [bit_length, Td.count_leading_zeroes64, if_neg, ha]
    · omega
    · intro h
      rw [h] at ha
      exact hne ha.symm
  · exact_mod_cast Nat.log2_self_le hne
  · exact_mod_cast Nat.lt_log2_self (n := a)

section Size
variable {above below : Nat} {q v : Int} {ws : List Int} {x : AnyIntView} {sgnd : Bool}

theorem size_scan_nil : size_scan above below q [] = if q ≥ 0 then above else below := rfl

theorem size_scan_cons (d : Int) (ds : List Int) : size_scan above below q (d :: ds) =
    if q ≥ MaxDenorm / 2 then above else if q ≤ -MaxDenorm / 2 then below else size_scan above below (word (word (q * Base) + d)) ds := rfl

theorem size_scan_spec (hws : Balanced Half ws) :
    size_scan above below q ws.reverse = if 0 ≤ q * Base ^ ws.length + value Base ws then above else below := by
  induction ws using List.reverseRecOn generalizing q with
  | nil => simp [size_scan_nil]
  | append_singleton ws d ih =>
    obtain ⟨h1, h2⟩ := Balanced.abs_value_lt base_eq half_pos hws
    obtain ⟨hws, hd⟩ := balanced_append.1 hws
    replace hd := (balanced_cons.1 hd).1
    have hpos := pow_pos base_pos (ws ++ [d]).length
    rw [reverse_append, reverse_singleton, singleton_append, size_scan_cons]
    by_cases hge : q ≥ MaxDenorm / 2
    · have hq : 1 ≤ q := le_trans (by decide) hge
      rw [if_pos hge, if_pos (by nlinarith)]
    by_cases hle : q ≤ -MaxDenorm / 2
    · have hq : q ≤ -1 := le_trans hle (by decide)
      rw [if_neg hge, if_pos hle, if_neg (by nlinarith)]
    · have hsmall : -2 ^ 10 < q ∧ q < 2 ^ 10 := by
        simp only [MaxDenorm] at hge hle
        omega
      have hword : word (word (q * Base) + d) = q * Base + d := by
        simp only [Base, Half] at hd ⊢
        rw [word_eq (x := q * 2 ^ 52) (by omega) (by omega), word_eq (by omega) (by omega)]
      rw [if_neg hge, if_neg hle, hword, ih hws, value_append, value_singleton, length_append, length_singleton, pow_succ]
      congr 1
      rw [show q * (Base ^ ws.length * Base) + (value Base ws + Base ^ ws.length * d) = (q * Base + d) * Base ^ ws.length + value Base ws by ring]

theorem bit_size_positive_spec (hws : Balanced Half ws) (h0 : 0 < q) (h1 : q < 2 ^ 63) (hlong : ws ≠ [] → MaxDenorm / 2 ≤ q) :
    ∃ n, bit_size_positive sgnd q ws.reverse = n + 1 + sgnd.toNat ∧ (2 : Int) ^ n ≤ q * Base ^ ws.length + value Base ws ∧
      q * Base ^ ws.length + value Base ws < 2 ^ (n + 1) := by
  by_cases hne : ws = []
  · obtain ⟨n, hn, hlow, hhigh⟩ := bit_length_spec h0 h1
    subst hne
    refine ⟨n, ?_, by simpa using hlow, by simpa using hhigh⟩
    rw [bit_size_positive, reverse_nil, if_pos rfl, hn]
  · replace hlong := hlong hne
    simp only [MaxDenorm] at hlong
    obtain ⟨n, hn, hlow, hhigh⟩ := bit_length_spec (q := q - MaxDenorm / 4) (by simp only [MaxDenorm]; omega) (by simp only [MaxDenorm]; omega)
    simp only [MaxDenorm] at hlow hhigh
    obtain ⟨hv1, hv2⟩ := Balanced.abs_value_lt base_eq half_pos hws
    have hpos := pow_pos base_pos ws.length
    have hbase : Base ^ ws.length = 2 ^ (ws.length * word_shift) := by rw [mul_comm, pow_mul]; rfl
    have hn62 : n ≤ 62 := by
      by_contra hlt
      have := pow_le_pow_right₀ (show (1 : Int) ≤ 2 by norm_num) (show 63 ≤ n by omega)
      omega
    have hs : (2 : Int) ^ (n + 1) ≤ 2 ^ 63 := pow_le_pow_right₀ (by norm_num) (by omega)
    have htwice : (2 : Int) ^ (n + 1) = 2 * 2 ^ n := by ring
    have hsum : (q - 2 ^ (n + 1)) * Base ^ ws.length + value Base ws =
        q * Base ^ ws.length + value Base ws - 2 ^ (n + 1 + ws.length * word_shift) := by
      rw [pow_add _ (n + 1), ← hbase]
      ring
    rw [bit_size_positive, if_neg (by simpa using hne)]
    simp only
    rw [word_eq (by simp only [MaxDenorm]; omega) (by simp only [MaxDenorm]; omega), hn, word_eq (by omega) (by omega), size_scan_spec hws, hsum,
      length_reverse]
    split
    · next hge =>
      refine ⟨n + 1 + ws.length * word_shift, by omega, by omega, ?_⟩
      rw [show n + 1 + ws.length * word_shift + 1 = (n + 2) + ws.length * word_shift by omega, pow_add, ← hbase,
        show (2 : Int) ^ (n + 2) = 4 * 2 ^ n by ring]
      have hq := mul_le_mul_of_nonneg_right (show q + 1 ≤ 4 * 2 ^ n by omega) hpos.le
      linarith
    · next hlt =>
      refine ⟨n + ws.length * word_shift, by omega, ?_, ?_⟩
      · have hq := mul_le_mul_of_nonneg_right (show (2 : Int) ^ n ≤ q - 1 by omega) hpos.le
        rw [pow_add, ← hbase]
        linarith
      · rw [show n + ws.length * word_shift + 1 = n + 1 + ws.length * word_shift by omega]
        omega

theorem Is.bit_size (hx : x.Is v) (sgnd : Bool) (hv : 0 < v) : ∃ n, x.bit_size_any sgnd = n + 1 + sgnd.toNat ∧ 2 ^ n ≤ v ∧ v < 2 ^ (n + 1) := by
  obtain ⟨es, hd, -⟩ := top_word_eq hx.normal.ne_nil
  have hbal := hx.normal.balanced
  rw [hd, balanced_append, balanced_cons] at hbal
  obtain ⟨hes, ⟨-, htop⟩, -⟩ := hbal
  have hsgn : x.sgn = 1 := by rw [hx.sgn_eq, sign_eq_one_of_pos hv]
  have hpos : 0 < x.top_word := by
    have h := hx.sgn_eq
    rwa [sgn, if_pos hx.is_valid, sign_eq_one_of_pos hv, sign_eq_one_iff_pos] at h
  have hvalue : v = x.top_word * Base ^ es.length + value Base es := by
    rw [← hx.toInt, AnyIntView.toInt, hd, value_append, value_singleton]
    ring
  rw [bit_size_any, hd, reverse_append, reverse_singleton, singleton_append]
  simp only [hsgn, one_ne_zero, if_false, ge_iff_le, zero_le_one, if_true]
  simp only [Half] at htop hes
  rcases eq_nil_or_concat es with rfl | ⟨ws, d, rfl⟩
  · rw [hvalue, reverse_nil, top_words]
    exact bit_size_positive_spec hes hpos (by omega) fun h => absurd rfl h
  rw [concat_eq_append] at *
  by_cases hsmall : x.top_word < MaxDenorm / 2
  · -- two words in one
    obtain ⟨hws, hd⟩ := balanced_append.1 hes
    replace hd := (balanced_cons.1 hd).1
    have hword : word (word (x.top_word * Base) + d) = x.top_word * Base + d := by
      simp only [Base, MaxDenorm] at hsmall ⊢
      rw [word_eq (x := x.top_word * 2 ^ 52) (by omega) (by omega), word_eq (by omega) (by omega)]
    have hsplit : v = (x.top_word * Base + d) * Base ^ ws.length + value Base ws := by
      rw [hvalue, value_append, value_singleton, length_append, length_singleton, pow_succ]
      ring
    rw [reverse_append, reverse_singleton, singleton_append, hsplit]
    simp only [top_words, hsmall, decide_true, if_true, hword]
    simp only [Base, MaxDenorm] at hsmall ⊢
    refine bit_size_positive_spec hws (by omega) (by omega) fun _ => ?_
    simp only [MaxDenorm]
    omega
  · have hstop : top_words (x.top_word < MaxDenorm / 2) x.top_word (ws ++ [d]).reverse = (x.top_word, (ws ++ [d]).reverse) := by
      rw [reverse_append, reverse_singleton, singleton_append, top_words, if_neg (by simpa using hsmall)]
    rw [hvalue]
    simp only [hstop]
    exact bit_size_positive_spec hes hpos (by omega) fun _ => by omega

end Size

section Bytes
variable {n m k p : Nat} {total rest v : Int} {out : List (BitVec 8)} {ds : List Int} {x : AnyIntView}

/-- `p` bytes of `total` are written, as far as there is room; `v` and `rest` are what follows. -/
def Written (n : Nat) (total rest : Int) (p : Nat) (v : Int) (out : List (BitVec 8)) : Prop :=
  out.length = min n p ∧ total = lsb out + 256 ^ p * (v + rest)

theorem Written.too_large (h : Written n total (256 * rest) p v out) (htotal : 0 ≤ total) (hp : n ≤ p) (hv : ofInt 8 v ≠ 0) :
    256 ^ n ≤ total := by
  obtain ⟨hlen, rfl⟩ := h
  obtain ⟨h1, h2⟩ := lsb_bounds out
  have hle : (256 : Int) ^ n ≤ 256 ^ p := pow_le_pow_right₀ (by norm_num) hp
  rw [hlen, Nat.min_eq_left hp] at h2
  have hne : v + 256 * rest ≠ 0 := by
    intro h0
    apply hv
    apply BitVec.eq_of_toInt_eq
    rw [BitVec.toInt_ofInt, bmod_def]
    simp
    omega
  rcases lt_or_gt_of_ne hne with h | h
  · nlinarith
  · nlinarith

theorem put_bytes_zero (s : BitVec 8) : put_bytes n s 0 v out = some (v, out) := rfl

theorem put_bytes_succ (s : BitVec 8) : put_bytes n s (m + 1) v out =
    (put_byte n s (ofInt 8 v) out).bind (put_bytes n s m (v / 2 ^ 8)) := rfl

theorem put_bytes_spec (htotal : 0 ≤ total) (h : Written n total (256 ^ m * rest) p v out) :
    match put_bytes n 0 m v out with
    | some (w, out) => w = v / 256 ^ m ∧ Written n total rest (p + m) w out
    | none => 256 ^ n ≤ total := by
  induction m generalizing p v out with
  | zero =>
    rw [put_bytes_zero]
    exact ⟨by simp, by simpa using h⟩
  | succ m ih =>
    have hbyte : ((ofInt 8 v).toNat : Int) = v % 256 := by
      rw [BitVec.toNat_ofInt]
      omega
    have hshift : v = v % 256 + 256 * (v / 256) := by omega
    have hnext : ∀ out', out'.length = min n (p + 1) → lsb out' = lsb out + 256 ^ p * (v % 256) →
        Written n total (256 ^ m * rest) (p + 1) (v / 2 ^ 8) out' := by
      intro out' hlen hlsb
      refine ⟨hlen, ?_⟩
      rw [h.2, hlsb, pow_succ, pow_succ, show (2 : Int) ^ 8 = 256 by norm_num]
      linear_combination 256 ^ p * hshift
    have hstep : ∀ out', Written n total (256 ^ m * rest) (p + 1) (v / 2 ^ 8) out' →
        match put_bytes n 0 m (v / 2 ^ 8) out' with
        | some (w, out) => w = v / 256 ^ (m + 1) ∧ Written n total rest (p + (m + 1)) w out
        | none => 256 ^ n ≤ total := by
      intro out' hw
      have := ih hw
      rwa [show (2 : Int) ^ 8 = 256 by norm_num, ediv_ediv_of_nonneg (by norm_num), ← pow_succ', Nat.add_right_comm, Nat.add_assoc] at this
    have hlen := h.1
    rw [put_bytes_succ, put_byte]
    by_cases hroom : out.length < n
    · rw [if_pos hroom, bind_some]
      have hp : out.length = p := by omega
      refine hstep _ (hnext _ ?_ ?_)
      · rw [length_append, length_singleton]
        omega
      · rw [lsb_append, lsb_singleton, hbyte, hp]
    · have hp : n ≤ p := by omega
      rw [if_neg hroom]
      by_cases h0 : ofInt 8 v = 0
      · rw [if_neg (not_not.2 h0), bind_some]
        have hv : v % 256 = 0 := by rw [← hbyte, h0]; rfl
        refine hstep _ (hnext _ (by omega) ?_)
        rw [hv, mul_zero, add_zero]
      · rw [if_pos h0, bind_none]
        rw [pow_succ', mul_assoc] at h
        exact h.too_large htotal hp h0

theorem put_words_nil (s : BitVec 8) : put_words n s k v out [] = some (v, out) := rfl

theorem put_words_cons (s : BitVec 8) (d : Int) (ds : List Int) : put_words n s k v out (d :: ds) =
    (put_bytes n s ((k + word_shift) / 8) (word (v + word (d * 2 ^ k))) out).bind fun r =>
      put_words n s ((k + word_shift) % 8) r.1 r.2 ds := rfl

/-- A number of not much more than `k` bits is shifted by whole bytes. -/
theorem shifted_bounds {w : Int} (hw : -2 ^ (8 * m + k) ≤ w ∧ w ≤ 2 ^ (8 * m + k)) : -2 ^ k ≤ w / 256 ^ m ∧ w / 256 ^ m ≤ 2 ^ k := by
  have hpos : (0 : Int) < 256 ^ m := by positivity
  have hpow : (2 : Int) ^ (8 * m + k) = 2 ^ k * 256 ^ m := by
    rw [pow_add, pow_mul, show (2 : Int) ^ 8 = 256 by norm_num, mul_comm]
  rw [hpow] at hw
  exact ⟨Int.le_ediv_of_mul_le hpos (by linarith), Int.ediv_le_of_le_mul hpos hw.2⟩

theorem put_words_spec (htotal : 0 ≤ total) (hds : Balanced Half ds) (hk : k < 8) (hv : -2 ^ k ≤ v ∧ v ≤ 2 ^ k)
    (h : Written n total (2 ^ k * value Base ds) p v out) :
    match put_words n 0 k v out ds with
    | some (w, out) => ∃ p, Written n total 0 p w out
    | none => 256 ^ n ≤ total := by
  induction ds generalizing k p v out with
  | nil =>
    rw [put_words_nil]
    exact ⟨p, by simpa using h⟩
  | cons d ds ih =>
    obtain ⟨hd, hds⟩ := balanced_cons.1 hds
    have hk7 : (2 : Int) ^ k ≤ 2 ^ 7 := pow_le_pow_right₀ (by norm_num) (by omega)
    have hpos : (0 : Int) < 2 ^ k := by positivity
    have hsum : -2 ^ (k + word_shift) ≤ v + d * 2 ^ k ∧ v + d * 2 ^ k ≤ 2 ^ (k + word_shift) := by
      rw [pow_add, word_shift]
      simp only [Half] at hd
      constructor <;> nlinarith
    have hword : word (v + word (d * 2 ^ k)) = v + d * 2 ^ k := by
      have hprod : -2 ^ 58 ≤ d * 2 ^ k ∧ d * 2 ^ k ≤ 2 ^ 58 := by
        simp only [Half] at hd
        constructor <;> nlinarith
      rw [word_eq (x := d * 2 ^ k) (by omega) (by omega), word_eq (by omega) (by omega)]
    have hbytes : k + word_shift = 8 * ((k + word_shift) / 8) + (k + word_shift) % 8 := by omega
    have hrest : (2 : Int) ^ k * Base = 256 ^ ((k + word_shift) / 8) * 2 ^ ((k + word_shift) % 8) := by
      rw [show (256 : Int) = 2 ^ 8 by norm_num, ← pow_mul, ← pow_add, ← hbytes, pow_add]
      rfl
    have hw : Written n total (256 ^ ((k + word_shift) / 8) * (2 ^ ((k + word_shift) % 8) * value Base ds)) p (v + d * 2 ^ k) out := by
      refine ⟨h.1, ?_⟩
      rw [h.2, value_cons, ← mul_assoc, ← hrest]
      ring
    have hput := put_bytes_spec htotal hw
    rw [put_words_cons, hword]
    cases hb : put_bytes n 0 ((k + word_shift) / 8) (v + d * 2 ^ k) out with
    | none =>
      rw [hb] at hput
      exact hput
    | some r =>
      obtain ⟨w, out'⟩ := r
      rw [hb] at hput
      obtain ⟨rfl, hr⟩ := hput
      rw [hbytes] at hsum
      exact ih hds (Nat.mod_lt _ (by norm_num)) (shifted_bounds hsum) hr

/-- All of a number that fits is written, and a number that does not fit is refused. -/
theorem Is.export_bytes_lsb (hx : x.Is v) (hn : 0 < n) :
    match x.export_bytes_lsb_any n false with
    | some out => out.length = n ∧ lsb out = v
    | none => v < 0 ∨ 256 ^ n ≤ v := by
  have hbal := hx.normal.balanced
  have hsgn : x.sgn_un_any = v.sign := by
    rw [← hx.toInt]
    exact sgn_un_spec hx.normal.ne_nil ((balanced_bounded hbal).mono (by decide))
  have hvalid : (!x.is_valid) = false := by rw [hx.is_valid]; rfl
  rw [export_bytes_lsb_any, hvalid, if_neg Bool.false_ne_true, if_neg (by omega), hsgn]
  by_cases hneg : v < 0
  · simp [hneg, sign_eq_neg_one_of_neg hneg]
  · have hv : 0 ≤ v := by omega
    have hsign : ¬v.sign < 0 := by rw [sign_neg_iff]; exact hneg
    have hstart : Written n v (2 ^ 0 * value Base x.digits) 0 0 [] := by
      refine ⟨by simp, ?_⟩
      have := hx.toInt
      simpa [AnyIntView.toInt] using this.symm
    have hwords := put_words_spec hv hbal (by norm_num) (by norm_num) hstart
    simp only [if_neg hsign, ne_eq, not_true_eq_false, false_and, if_false]
    cases hput : put_words n 0 0 0 [] x.digits with
    | none =>
      rw [hput] at hwords
      exact .inr hwords
    | some r =>
      rw [hput] at hwords
      obtain ⟨p, hp⟩ := hwords
      have hlast : Written n v (256 ^ (n - r.2.length) * 0) p r.1 r.2 := by simpa using hp
      have hfill := put_bytes_spec hv hlast
      simp only [bind_eq_bind, bind_some]
      cases hb : put_bytes n 0 (n - r.2.length) r.1 r.2 with
      | none =>
        rw [hb] at hfill
        exact .inr hfill
      | some w =>
        rw [hb] at hfill
        obtain ⟨-, hlen, htotal⟩ := hfill
        have hfull : n ≤ p + (n - r.2.length) := by have := hp.1; omega
        rw [Nat.min_eq_left hfull] at hlen
        obtain ⟨h1, h2⟩ := lsb_bounds w.2
        rw [hlen] at h2
        by_cases h0 : w.1 = 0
        · simp [h0, hlen, htotal]
        · have hle : (256 : Int) ^ n ≤ 256 ^ (p + (n - r.2.length)) := pow_le_pow_right₀ (by norm_num) hfull
          simp [h0]
          right
          rcases lt_or_gt_of_ne h0 with hw | hw
          · nlinarith
          · nlinarith

end Bytes

end AnyIntView

end Ton.BigInt
