import Mathlib
/-!
# Numbers as signed digits

A list of integers stands for a number in base `b`, the lowest digit first. With
`b = 2 * h` and digits from `-h` to `h - 1` every number has one form of each
length it fits, and `Normal` is the shortest one. The last digit then has the
sign of the number, and longer forms stand for larger numbers.
-/

namespace SignedDigits
open List Int

/-- The number the digits stand for. -/
def value (b : Int) : List Int → Int
  | [] => 0
  | d :: ds => d + b * value b ds

/-- The highest digit that is not zero, or zero. -/
def lead : List Int → Int
  | [] => 0
  | d :: ds => if lead ds ≠ 0 then lead ds else d

/-- The number with `n` digits one. -/
def ones (b : Int) : Nat → Int
  | 0 => 0
  | n + 1 => 1 + b * ones b n

section Value
variable (b : Int)

@[simp] theorem value_nil : value b [] = 0 := rfl

@[simp] theorem value_cons (d : Int) (ds : List Int) : value b (d :: ds) = d + b * value b ds := rfl

theorem value_singleton (d : Int) : value b [d] = d := by simp

theorem value_append (xs ys : List Int) : value b (xs ++ ys) = value b xs + b ^ xs.length * value b ys := by
  induction xs with
  | nil => simp
  | cons x xs ih =>
    rw [cons_append, value_cons, ih, value_cons, length_cons, pow_succ]
    ring

@[simp] theorem value_replicate_zero (n : Nat) : value b (List.replicate n 0) = 0 := by
  induction n with
  | zero => rfl
  | succ n ih => simp [replicate_succ, ih]

theorem value_zeros_append (n : Nat) (ds : List Int) : value b (List.replicate n 0 ++ ds) = b ^ n * value b ds := by
  simp [value_append]

theorem value_append_zeros (ds : List Int) (n : Nat) : value b (ds ++ List.replicate n 0) = value b ds := by
  simp [value_append]

theorem value_map_mul (c : Int) (ds : List Int) : value b (ds.map (· * c)) = value b ds * c := by
  induction ds with
  | nil => simp
  | cons d ds ih =>
    rw [map_cons, value_cons, ih, value_cons]
    ring

theorem value_map_neg (ds : List Int) : value b (ds.map (- ·)) = -value b ds := by
  induction ds with
  | nil => simp
  | cons d ds ih =>
    rw [map_cons, value_cons, ih, value_cons]
    ring

theorem value_take_drop (n : Nat) (ds : List Int) : value b ds = value b (ds.take n) + b ^ n * value b (ds.drop n) := by
  induction n generalizing ds with
  | zero => simp
  | succ n ih =>
    cases ds with
    | nil => simp
    | cons d ds =>
      rw [take_succ_cons, drop_succ_cons, value_cons, value_cons, ih ds, pow_succ]
      ring

theorem value_take_getD (ds : List Int) (k : Nat) :
    value b ds = value b (ds.take k) + b ^ k * (ds.getD k 0 + b * value b (ds.drop (k + 1))) := by
  induction k generalizing ds with
  | zero => cases ds <;> simp
  | succ k ih =>
    cases ds with
    | nil => simp
    | cons d ds =>
      rw [take_succ_cons, getD_cons_succ, drop_succ_cons, value_cons, value_cons, ih ds, pow_succ]
      ring

theorem value_modify {ds : List Int} {i : Nat} (hi : i < ds.length) (c : Int) {f : Int → Int} (hf : ∀ d ∈ ds, f d = d + c) :
    value b (ds.modify i f) = value b ds + b ^ i * c := by
  induction ds generalizing i with
  | nil => simp at hi
  | cons d ds ih =>
    cases i with
    | zero =>
      rw [modify_zero_cons, value_cons, value_cons, hf d (by simp)]
      ring
    | succ i =>
      rw [modify_succ_cons, value_cons, value_cons, ih (by simpa using hi) fun e he => hf e (by simp [he]), pow_succ]
      ring

@[simp] theorem ones_zero : ones b 0 = 0 := rfl

theorem ones_succ (n : Nat) : ones b (n + 1) = 1 + b * ones b n := rfl

theorem ones_mul (n : Nat) : (b - 1) * ones b n = b ^ n - 1 := by
  induction n with
  | zero => simp
  | succ n ih =>
    have h : (b - 1) * (1 + b * ones b n) = (b - 1) + b * ((b - 1) * ones b n) := by ring
    rw [ones_succ, h, ih, pow_succ]
    ring

theorem ones_add (m n : Nat) : ones b (m + n) = ones b m + b ^ m * ones b n := by
  induction m with
  | zero => simp
  | succ m ih =>
    rw [Nat.add_right_comm, ones_succ, ih, ones_succ, pow_succ]
    ring

end Value

section Bounds
variable {b : Int}

theorem ones_nonneg (hb : 0 ≤ b) (n : Nat) : 0 ≤ ones b n := by
  induction n with
  | zero => exact le_rfl
  | succ n ih =>
    rw [ones_succ]
    positivity

theorem ones_le_pow (hb : 2 ≤ b) (n : Nat) : ones b n ≤ b ^ n - 1 := by
  have h := ones_mul b n
  nlinarith [ones_nonneg (by omega : 0 ≤ b) n]

theorem value_le (hb : 0 ≤ b) {M : Int} {ds : List Int} (h : ∀ d ∈ ds, d ≤ M) : value b ds ≤ M * ones b ds.length := by
  induction ds with
  | nil => simp
  | cons d ds ih =>
    have hd := h d (mem_cons_self ..)
    have ih := ih fun e he => h e (mem_cons_of_mem _ he)
    rw [value_cons, length_cons, ones_succ]
    nlinarith [mul_le_mul_of_nonneg_left ih hb]

theorem le_value (hb : 0 ≤ b) {M : Int} {ds : List Int} (h : ∀ d ∈ ds, M ≤ d) : M * ones b ds.length ≤ value b ds := by
  have hneg : ∀ d ∈ ds.map (- ·), d ≤ -M := by
    intro d hd
    obtain ⟨e, he, rfl⟩ := mem_map.1 hd
    exact neg_le_neg (h e he)
  have hle := value_le hb hneg
  rw [value_map_neg, length_map] at hle
  linarith

end Bounds

/-! ## Digits from `-h` to `h - 1` -/

/-- The numbers that `n` such digits stand for. -/
def InRange (b h : Int) (n : Nat) (v : Int) : Prop := -(h * ones b n) ≤ v ∧ v ≤ (h - 1) * ones b n

instance (b h : Int) (n : Nat) (v : Int) : Decidable (InRange b h n v) := inferInstanceAs (Decidable (_ ∧ _))

def Balanced (h : Int) (ds : List Int) : Prop := ∀ d ∈ ds, -h ≤ d ∧ d < h

instance (h : Int) (ds : List Int) : Decidable (Balanced h ds) := inferInstanceAs (Decidable (∀ d ∈ ds, -h ≤ d ∧ d < h))

/-- The shortest form, with at least one digit. -/
def Normal (h : Int) : List Int → Prop
  | [] => False
  | d :: ds => (-h ≤ d ∧ d < h) ∧ (ds = [] ∨ Normal h ds ∧ ds ≠ [0])

section Balanced
variable {b h : Int} {d : Int} {ds es : List Int}

theorem balanced_nil (h : Int) : Balanced h [] := fun _ hd => absurd hd not_mem_nil

@[simp] theorem balanced_cons : Balanced h (d :: ds) ↔ (-h ≤ d ∧ d < h) ∧ Balanced h ds := forall_mem_cons

@[simp] theorem balanced_append : Balanced h (ds ++ es) ↔ Balanced h ds ∧ Balanced h es := forall_mem_append

theorem Balanced.inRange (hb : 0 ≤ b) (hd : Balanced h ds) : InRange b h ds.length (value b ds) := by
  have hle := value_le hb (M := h - 1) fun d hm => by have := hd d hm; omega
  have hge := le_value hb (M := -h) fun d hm => (hd d hm).1
  exact ⟨by linarith, hle⟩

theorem Normal.balanced (hn : Normal h ds) : Balanced h ds := by
  induction ds with
  | nil => exact hn.elim
  | cons d ds ih =>
    obtain ⟨hd, rfl | ⟨hn, -⟩⟩ := hn
    · exact balanced_cons.2 ⟨hd, balanced_nil h⟩
    · exact balanced_cons.2 ⟨hd, ih hn⟩

theorem Normal.ne_nil (hn : Normal h ds) : ds ≠ [] := by
  rintro rfl
  exact hn

theorem Normal.length_pos (hn : Normal h ds) : 0 < ds.length := length_pos_of_ne_nil hn.ne_nil

theorem normal_singleton : Normal h [d] ↔ -h ≤ d ∧ d < h := by simp [Normal]

theorem normal_cons (hne : ds ≠ []) : Normal h (d :: ds) ↔ (-h ≤ d ∧ d < h) ∧ Normal h ds ∧ ds ≠ [0] := by
  simp [Normal, hne]

theorem normal_append_singleton {t : Int} (hne : ds ≠ []) :
    Normal h (ds ++ [t]) ↔ Balanced h ds ∧ (-h ≤ t ∧ t < h) ∧ t ≠ 0 := by
  induction ds with
  | nil => exact absurd rfl hne
  | cons d ds ih =>
    rw [cons_append, normal_cons (by simp)]
    by_cases hds : ds = []
    · subst hds
      simp [normal_singleton, balanced_nil]
    · rw [ih hds, balanced_cons]
      have : ds ++ [t] ≠ [0] := by
        intro e
        exact hds (append_eq_singleton_iff.1 e |>.elim (·.1) fun h => absurd h.2 (by simp))
      tauto

theorem Normal.exists_append {ds : List Int} (hn : Normal h ds) (hlen : 1 < ds.length) :
    ∃ es t, ds = es ++ [t] ∧ es ≠ [] ∧ Balanced h es ∧ (-h ≤ t ∧ t < h) ∧ t ≠ 0 := by
  have hsplit := dropLast_append_getLast hn.ne_nil
  have hne : ds.dropLast ≠ [] := by
    intro e
    have := congrArg List.length e
    rw [length_dropLast, length_nil] at this
    omega
  rw [← hsplit, normal_append_singleton hne] at hn
  exact ⟨_, _, hsplit.symm, hne, hn⟩

theorem Normal.zeros_append (hh : 0 < h) (hn : Normal h ds) (h0 : ds ≠ [0]) (n : Nat) : Normal h (List.replicate n 0 ++ ds) := by
  induction n with
  | zero => simpa using hn
  | succ n ih =>
    rw [replicate_succ, cons_append, normal_cons (by simp [hn.ne_nil])]
    refine ⟨⟨by omega, hh⟩, ih, fun e => ?_⟩
    rcases append_eq_singleton_iff.1 e with ⟨-, e⟩ | ⟨-, e⟩
    · exact h0 e
    · exact hn.ne_nil e

theorem Normal.drop {ds : List Int} (hn : Normal h ds) {k : Nat} (hk : k < ds.length) :
    Normal h (ds.drop k) ∧ (0 < k → ds.drop k ≠ [0]) := by
  induction k generalizing ds with
  | zero => exact ⟨by simpa using hn, fun h0 => absurd h0 (by omega)⟩
  | succ k ih =>
    cases ds with
    | nil => exact hn.elim
    | cons d ds =>
      rw [length_cons, Nat.succ_lt_succ_iff] at hk
      have hne : ds ≠ [] := by
        rintro rfl
        simp at hk
      obtain ⟨-, hds, h0⟩ := (normal_cons hne).1 hn
      obtain ⟨h1, h2⟩ := ih hds hk
      refine ⟨h1, fun _ => ?_⟩
      rcases Nat.eq_zero_or_pos k with rfl | hpos
      · exact h0
      · exact h2 hpos

end Balanced

section Unique
variable {b h : Int} (hb : b = 2 * h) (hh : 0 < h)
include hb hh

theorem head_eq {d v : Int} (hd : -h ≤ d ∧ d < h) : (d + b * v + h) % b - h = d ∧ (d + b * v + h) / b = v := by
  have hmod : (d + b * v + h) % b = d + h := by
    rw [show d + b * v + h = d + h + b * v by ring, add_mul_emod_self_left]
    exact emod_eq_of_lt (by omega) (by omega)
  refine ⟨by omega, ?_⟩
  rw [show d + b * v + h = d + h + b * v by ring, add_mul_ediv_left _ _ (by omega), ediv_eq_zero_of_lt (by omega) (by omega)]
  ring

theorem cons_inj {d e v w : Int} (hd : -h ≤ d ∧ d < h) (he : -h ≤ e ∧ e < h) (heq : d + b * v = e + b * w) : d = e ∧ v = w := by
  obtain ⟨h1, h2⟩ := head_eq hb hh (v := v) hd
  obtain ⟨h3, h4⟩ := head_eq hb hh (v := w) he
  rw [heq] at h1 h2
  exact ⟨h1.symm.trans h3, h2.symm.trans h4⟩

theorem inRange_succ {n : Nat} {d v : Int} (hd : -h ≤ d ∧ d < h) : InRange b h (n + 1) (d + b * v) ↔ InRange b h n v := by
  have hpos : 0 < b := by omega
  unfold InRange
  rw [ones_succ]
  constructor
  · rintro ⟨h1, h2⟩
    constructor
    · by_contra hlt
      have := mul_le_mul_of_nonneg_left (show v ≤ -(h * ones b n) - 1 by omega) hpos.le
      nlinarith
    · by_contra hlt
      have := mul_le_mul_of_nonneg_left (show (h - 1) * ones b n + 1 ≤ v by omega) hpos.le
      nlinarith
  · rintro ⟨h1, h2⟩
    have h3 := mul_le_mul_of_nonneg_left h1 hpos.le
    have h4 := mul_le_mul_of_nonneg_left h2 hpos.le
    constructor <;> nlinarith

/-- A number fits when what is left above some of its digits does. -/
theorem inRange_append {n : Nat} {ds : List Int} {c : Int} (hd : Balanced h ds) :
    InRange b h (ds.length + n) (value b ds + b ^ ds.length * c) ↔ InRange b h n c := by
  induction ds with
  | nil => simp
  | cons d ds ih =>
    rw [balanced_cons] at hd
    have e : value b (d :: ds) + b ^ (d :: ds).length * c = d + b * (value b ds + b ^ ds.length * c) := by
      rw [value_cons, length_cons, pow_succ]
      ring
    rw [e, length_cons, Nat.add_right_comm, inRange_succ hb hh hd.1, ih hd.2]

omit hb hh in
theorem inRange_of_mul (hh : 1 ≤ h) (h0 : 0 ≤ b) {n : Nat} {v c : Int} (hc : 1 ≤ c) (hr : InRange b h n (v * c)) : InRange b h n v := by
  have hones := ones_nonneg h0 n
  obtain ⟨h1, h2⟩ := hr
  constructor
  · rcases le_or_gt 0 v with hv | hv
    · nlinarith
    · nlinarith
  · rcases le_or_gt 0 v with hv | hv
    · nlinarith
    · nlinarith

theorem inRange_mono {m n : Nat} (hmn : m ≤ n) {v : Int} (hv : InRange b h m v) : InRange b h n v := by
  obtain ⟨k, rfl⟩ := Nat.exists_eq_add_of_le hmn
  have h0 := ones_nonneg (b := b) (by omega) k
  have h1 := pow_nonneg (show 0 ≤ b by omega) m
  have h2 : ones b m ≤ ones b (m + k) := by
    rw [ones_add]
    nlinarith [mul_nonneg h1 h0]
  obtain ⟨hl, hu⟩ := hv
  exact ⟨by nlinarith, by nlinarith⟩

theorem Balanced.unique {ds es : List Int} (hd : Balanced h ds) (he : Balanced h es) (hlen : ds.length = es.length)
    (hv : value b ds = value b es) : ds = es := by
  induction ds generalizing es with
  | nil => exact (length_eq_zero_iff.1 hlen.symm).symm
  | cons d ds ih =>
    cases es with
    | nil => simp at hlen
    | cons e es =>
      rw [balanced_cons] at hd he
      obtain ⟨rfl, hrest⟩ := cons_inj hb hh hd.1 he.1 hv
      rw [ih hd.2 he.2 (by simpa using hlen) hrest]

theorem half_ones_lt (n : Nat) : h * ones b n < b ^ n := by
  have h1 := ones_mul b n
  have h2 := ones_le_pow (b := b) (by omega) n
  subst hb
  nlinarith

end Unique

/-! ## The shortest form -/

/-- `ds` without the zeros at its end. -/
def trim : List Int → List Int
  | [] => []
  | d :: ds => match trim ds with
    | [] => if d = 0 then [] else [d]
    | t => d :: t

/-- `while (size() > 1 && !digits[size() - 1]) dec_size();` -/
def strip : List Int → List Int
  | [] => []
  | d :: ds => d :: trim ds

section Strip
variable {b h : Int} {ds : List Int}

@[simp] theorem trim_nil : trim [] = [] := rfl

theorem trim_cons (d : Int) (ds : List Int) : trim (d :: ds) = if trim ds = [] ∧ d = 0 then [] else d :: trim ds := by
  change (match trim ds with | [] => if d = 0 then [] else [d] | t => d :: t) = _
  cases htrim : trim ds with
  | nil => by_cases hd : d = 0 <;> simp [hd]
  | cons t ts => simp

@[simp] theorem value_trim (b : Int) (ds : List Int) : value b (trim ds) = value b ds := by
  induction ds with
  | nil => rfl
  | cons d ds ih =>
    rw [trim_cons]
    split
    · next hd =>
      rw [hd.1, value_nil] at ih
      simp [← ih, hd.2]
    · rw [value_cons, ih, value_cons]

@[simp] theorem strip_nil : strip [] = [] := rfl

@[simp] theorem strip_cons (d : Int) (ds : List Int) : strip (d :: ds) = d :: trim ds := rfl

@[simp] theorem value_strip (b : Int) (ds : List Int) : value b (strip ds) = value b ds := by
  cases ds with
  | nil => rfl
  | cons d ds => simp

theorem length_trim_le (ds : List Int) : (trim ds).length ≤ ds.length := by
  induction ds with
  | nil => simp
  | cons d ds ih =>
    rw [trim_cons]
    split <;> simp [ih]

theorem length_strip_le (ds : List Int) : (strip ds).length ≤ ds.length := by
  cases ds with
  | nil => simp
  | cons d ds => simpa using length_trim_le ds

theorem trim_ne_zero (ds : List Int) : trim ds ≠ [0] := by
  cases ds with
  | nil => simp
  | cons d ds =>
    rw [trim_cons]
    split
    · simp
    · next hd =>
      simp only [List.cons.injEq, ne_eq]
      tauto

theorem Balanced.trim (hd : Balanced h ds) : SignedDigits.trim ds = [] ∨ Normal h (SignedDigits.trim ds) := by
  induction ds with
  | nil => exact .inl rfl
  | cons d ds ih =>
    rw [balanced_cons] at hd
    rw [trim_cons]
    split
    · exact .inl rfl
    · refine .inr ⟨hd.1, ?_⟩
      exact (ih hd.2).imp id fun hn => ⟨hn, trim_ne_zero ds⟩

theorem Balanced.strip (hd : Balanced h ds) (hne : ds ≠ []) : Normal h (SignedDigits.strip ds) := by
  cases ds with
  | nil => exact absurd rfl hne
  | cons d ds =>
    rw [balanced_cons] at hd
    exact ⟨hd.1, hd.2.trim.imp id fun hn => ⟨hn, trim_ne_zero ds⟩⟩

end Strip

@[simp] theorem lead_nil : lead [] = 0 := rfl

theorem lead_cons (d : Int) (ds : List Int) : lead (d :: ds) = if lead ds ≠ 0 then lead ds else d := rfl

/-- The highest digit that is not zero stands last once the zeros are gone. -/
theorem lead_eq_zero_iff (ds : List Int) : lead ds = 0 ↔ trim ds = [] := by
  induction ds with
  | nil => simp
  | cons d ds ih =>
    rw [lead_cons, trim_cons]
    by_cases h0 : lead ds = 0
    · have ht := ih.1 h0
      by_cases hd : d = 0 <;> simp [h0, ht, hd]
    · have ht : trim ds ≠ [] := fun h => h0 (ih.2 h)
      simp [h0, ht]

theorem value_of_lead_eq_zero (b : Int) {ds : List Int} (h : lead ds = 0) : value b ds = 0 := by
  rw [← value_trim, (lead_eq_zero_iff ds).1 h, value_nil]

theorem mem_of_mem_trim {ds : List Int} {d : Int} (h : d ∈ trim ds) : d ∈ ds := by
  induction ds with
  | nil => simp at h
  | cons e ds ih =>
    rw [trim_cons] at h
    split at h
    · simp at h
    · rcases mem_cons.1 h with rfl | h
      · simp
      · exact mem_cons_of_mem _ (ih h)

theorem lead_append_singleton (ds : List Int) (t : Int) : lead (ds ++ [t]) = if t ≠ 0 then t else lead ds := by
  induction ds with
  | nil =>
    by_cases ht : t = 0 <;> simp [lead_cons, ht]
  | cons d ds ih =>
    rw [cons_append, lead_cons, ih, lead_cons]
    by_cases ht : t = 0 <;> simp [ht]

theorem trim_append_singleton (ds : List Int) (t : Int) : trim (ds ++ [t]) = if t ≠ 0 then ds ++ [t] else trim ds := by
  induction ds with
  | nil =>
    by_cases ht : t = 0 <;> simp [trim_cons, ht]
  | cons d ds ih =>
    rw [cons_append, trim_cons, ih, trim_cons]
    by_cases ht : t = 0 <;> simp [ht]

theorem getLastD_trim (ds : List Int) : (trim ds).getLastD 0 = lead ds := by
  induction ds using List.reverseRecOn with
  | nil => rfl
  | append_singleton ds t ih =>
    rw [trim_append_singleton, lead_append_singleton]
    split
    · simp
    · exact ih

section Order
variable {b h : Int} (hb : b = 2 * h) (hh : 0 < h)
include hb hh

variable {ds : List Int}

theorem value_append_bounds (t : Int) (hd : Balanced h ds) :
    t * b ^ ds.length - h * ones b ds.length ≤ value b (ds ++ [t]) ∧
      value b (ds ++ [t]) ≤ t * b ^ ds.length + (h - 1) * ones b ds.length := by
  obtain ⟨h1, h2⟩ := hd.inRange (b := b) (by omega)
  rw [value_append, value_singleton, mul_comm t]
  exact ⟨by linarith, by linarith⟩

theorem value_append_pos_iff {t : Int} (hd : Balanced h ds) (ht : t ≠ 0) : 0 < value b (ds ++ [t]) ↔ 0 < t := by
  obtain ⟨h1, h2⟩ := value_append_bounds hb hh t hd
  have h3 := half_ones_lt hb hh ds.length
  have h4 := ones_nonneg (b := b) (by omega) ds.length
  constructor
  · intro hv
    by_contra hle
    have : t ≤ -1 := by omega
    nlinarith
  · intro hpos
    have : 1 ≤ t := hpos
    nlinarith

theorem not_inRange_append {t : Int} (hd : Balanced h ds) (ht : t ≠ 0) {n : Nat} (hn : n ≤ ds.length) :
    ¬InRange b h n (value b (ds ++ [t])) := by
  intro hr
  obtain ⟨h5, h6⟩ := inRange_mono hb hh hn hr
  obtain ⟨h1, h2⟩ := value_append_bounds hb hh t hd
  have h3 := ones_mul b ds.length
  have h4 := ones_nonneg (b := b) (by omega) ds.length
  have hpow : b ^ ds.length = 2 * h * ones b ds.length - ones b ds.length + 1 := by
    subst hb
    linarith
  rcases lt_or_gt_of_ne ht with hneg | hpos
  · have : t ≤ -1 := by omega
    have := mul_le_mul_of_nonneg_right this (pow_nonneg (show 0 ≤ b by omega) ds.length)
    nlinarith
  · have : 1 ≤ t := hpos
    have := mul_le_mul_of_nonneg_right this (pow_nonneg (show 0 ≤ b by omega) ds.length)
    nlinarith

theorem Normal.length_le_of_inRange (hn : Normal h ds) {n : Nat} (hpos : 0 < n) (hr : InRange b h n (value b ds)) :
    ds.length ≤ n := by
  by_contra hlt
  obtain ⟨es, t, rfl, -, hbal, -, ht⟩ := hn.exists_append (by omega)
  rw [length_append, length_singleton] at hlt
  exact not_inRange_append hb hh hbal ht (by omega) hr

theorem Normal.unique {ds es : List Int} (hd : Normal h ds) (he : Normal h es) (hv : value b ds = value b es) : ds = es := by
  have h1 := hd.length_le_of_inRange hb hh he.length_pos (hv ▸ he.balanced.inRange (by omega))
  have h2 := he.length_le_of_inRange hb hh hd.length_pos (hv ▸ hd.balanced.inRange (by omega))
  exact hd.balanced.unique hb hh he.balanced (le_antisymm h1 h2) hv

theorem Normal.sign_getLast (hn : Normal h ds) : (value b ds).sign = (ds.getLast hn.ne_nil).sign := by
  by_cases hlen : 1 < ds.length
  · obtain ⟨es, t, rfl, -, hbal, -, ht⟩ := hn.exists_append hlen
    have hpos := value_append_pos_iff hb hh hbal ht
    have hzero : value b (es ++ [t]) ≠ 0 := by
      intro e
      have h0 : InRange b h 0 (value b (es ++ [t])) := by simp [InRange, e]
      exact not_inRange_append hb hh hbal ht (Nat.zero_le _) h0
    rw [getLast_append_singleton]
    rcases lt_or_gt_of_ne ht with ht | ht
    · rw [sign_eq_neg_one_of_neg ht, sign_eq_neg_one_of_neg]
      have : ¬0 < value b (es ++ [t]) := fun hc => by have := hpos.1 hc; omega
      omega
    · rw [sign_eq_one_of_pos ht, sign_eq_one_of_pos (hpos.2 ht)]
  · obtain ⟨d, rfl⟩ : ∃ d, ds = [d] := length_eq_one_iff.1 (by have := hn.length_pos; omega)
    simp

theorem Balanced.abs_value_lt (hd : Balanced h ds) :
    -b ^ ds.length < value b ds ∧ value b ds < b ^ ds.length := by
  obtain ⟨h1, h2⟩ := hd.inRange (b := b) (by omega)
  have h3 := half_ones_lt hb hh ds.length
  have h4 := ones_nonneg (b := b) (by omega) ds.length
  exact ⟨by linarith, by nlinarith⟩

theorem Balanced.abs_value_take_lt (hd : Balanced h ds) (k : Nat) :
    -b ^ k < value b (ds.take k) ∧ value b (ds.take k) < b ^ k := by
  obtain ⟨h1, h2⟩ := Balanced.abs_value_lt hb hh (show Balanced h (ds.take k) from fun d hm => hd d (mem_of_mem_take hm))
  have h3 : b ^ (ds.take k).length ≤ b ^ k := pow_le_pow_right₀ (by omega) (length_take_le k ds)
  exact ⟨by omega, by omega⟩

/-- The sign of the digits is that of the highest one that is not zero. -/
theorem Balanced.sign_lead (hd : Balanced h ds) : (lead ds).sign = (value b ds).sign := by
  induction ds with
  | nil => rfl
  | cons d ds ih =>
    rw [balanced_cons] at hd
    have ih := ih hd.2
    rw [lead_cons, value_cons]
    by_cases h0 : lead ds = 0
    · rw [h0, Int.sign_zero, eq_comm, sign_eq_zero_iff_zero] at ih
      rw [if_neg (not_not.2 h0), ih]
      simp
    · rw [if_pos h0, ih]
      have hne : value b ds ≠ 0 := by
        intro e
        rw [e, Int.sign_zero, sign_eq_zero_iff_zero] at ih
        exact h0 ih
      rcases lt_or_gt_of_ne hne with hv | hv
      · rw [sign_eq_neg_one_of_neg hv, sign_eq_neg_one_of_neg]
        nlinarith [mul_le_mul_of_nonneg_left (show value b ds ≤ -1 by omega) (show 0 ≤ b by omega)]
      · rw [sign_eq_one_of_pos hv, sign_eq_one_of_pos]
        nlinarith [mul_le_mul_of_nonneg_left (show 1 ≤ value b ds from hv) (show 0 ≤ b by omega)]

end Order

/-- A number below a power only decides when what stands above it is at the bound. -/
theorem add_mul_lt_iff {p l c m : Int} (h1 : -p < l) (h2 : l < p) : l + p * c < p * m ↔ c < m ∨ c = m ∧ l < 0 := by
  rcases lt_trichotomy c m with hc | rfl | hc
  · simp only [hc, true_or, iff_true]
    nlinarith
  · simp
  · simp only [not_lt.2 hc.le, hc.ne', false_and, or_self, iff_false]
    nlinarith

theorem le_add_mul_iff {p l c m : Int} (h1 : -p < l) (h2 : l < p) : p * m ≤ l + p * c ↔ m < c ∨ c = m ∧ 0 ≤ l := by
  rw [← not_lt, add_mul_lt_iff h1 h2]
  omega

theorem add_mul_neg_iff {p l c : Int} (h1 : -p < l) (h2 : l < p) : l + p * c < 0 ↔ c < 0 ∨ c = 0 ∧ l < 0 := by
  simpa using add_mul_lt_iff (m := 0) h1 h2

theorem add_mul_pos_iff {p l c : Int} (h1 : -p < l) (h2 : l < p) : 0 < l + p * c ↔ 0 < c ∨ c = 0 ∧ 0 < l := by
  have h := add_mul_neg_iff (p := p) (l := -l) (c := -c) (by omega) (by omega)
  rw [show -l + p * -c = -(l + p * c) by ring, neg_lt_zero, neg_lt_zero, neg_eq_zero, neg_lt_zero] at h
  exact h

/-! ## The digits of a number -/

/-- The shortest form of a number that fits some digits. -/
def digits (b h : Int) : Nat → Int → List Int
  | 0, _ => []
  | n + 1, v => if -h ≤ v ∧ v < h then [v] else ((v + h) % b - h) :: digits b h n ((v + h) / b)

section
variable {b h : Int} (hb : b = 2 * h) (hh : 0 < h)
include hb hh

theorem split_digit (v : Int) : (-h ≤ (v + h) % b - h ∧ (v + h) % b - h < h) ∧ (v + h) % b - h + b * ((v + h) / b) = v := by
  have h1 := emod_nonneg (v + h) (show b ≠ 0 by omega)
  have h2 := emod_lt_of_pos (v + h) (show 0 < b by omega)
  have h3 := emod_add_mul_ediv (v + h) b
  exact ⟨⟨by omega, by omega⟩, by linarith⟩

theorem digits_spec {n : Nat} (hn : 0 < n) {v : Int} (hr : InRange b h n v) :
    Normal h (digits b h n v) ∧ value b (digits b h n v) = v ∧ (digits b h n v).length ≤ n := by
  induction n generalizing v with
  | zero => exact absurd hn (lt_irrefl 0)
  | succ n ih =>
    rw [digits]
    split
    · next hv => exact ⟨normal_singleton.2 hv, by simp, by simp⟩
    · next hv =>
      obtain ⟨h1, h2⟩ := split_digit hb hh v
      rw [← h2, inRange_succ hb hh h1] at hr
      have hpos : 0 < n := by
        rcases Nat.eq_zero_or_pos n with rfl | hpos
        · simp only [InRange, ones, mul_zero, neg_zero] at hr
          rw [show (v + h) / b = 0 by omega] at h2
          omega
        · exact hpos
      obtain ⟨g1, g2, g3⟩ := ih hpos hr
      refine ⟨(normal_cons g1.ne_nil).2 ⟨h1, g1, ?_⟩, by rw [value_cons, g2, h2], by simpa using g3⟩
      intro e
      rw [e, value_singleton] at g2
      rw [← g2] at h2
      omega

end

end SignedDigits
