import Ton.Fees.Storage
import Ton.BigInt.Fits
import Ton.Block.CurrencyCollection
import Ton.Lib.Runs
/-!
# The storage and the credit phase

What a transaction does to the storage debt of its account: `prepare_storage_phase`
charges for storage, `prepare_credit_phase` takes from the value of the message what is
due from before, and `commit` makes `last_paid` and `due_payment` those of the account.
The other phases leave both alone.
-/

namespace Ton.Fees

open BigInt Block

/-- `block::CurrencyCollection`, with the words of its grams. -/
structure CurrencyCollection where
  grams : Option AnyIntView := none
  extra : Option DataCell := none

namespace CurrencyCollection

def is_valid (c : CurrencyCollection) : Bool := c.grams.isSome

/-- `operator+=` with another collection. -/
def add (a b : CurrencyCollection) : Except Exc CurrencyCollection :=
  match a.grams, b.grams with
  | none, _ => .ok a
  | some _, none => .ok {}
  | some x, some y =>
    let z := RefInt256.add x y
    if z.is_valid then do
      let (ok, extra) ← add_extra_currency a.extra b.extra
      .ok (if ok then ⟨some z, extra⟩ else {})
    else .ok {}

/-- `operator+=` with grams. -/
def add_grams (c : CurrencyCollection) (other_grams : AnyIntView) : CurrencyCollection :=
  { c with grams := c.grams.map fun x => RefInt256.add x other_grams }

/-- `operator-=` with grams. -/
def sub_grams (c : CurrencyCollection) (other_grams : AnyIntView) : CurrencyCollection :=
  match c.grams with
  | none => c
  | some x =>
    let z := RefInt256.sub x other_grams
    if z.sgn ≥ 0 then { c with grams := some z } else {}

/-- `grams` where the code relies on it. -/
def words (c : CurrencyCollection) : AnyIntView := c.grams.getD nan

end CurrencyCollection

def zero_refint : AnyIntView := bigInt 257 [0]

inductive Status where
  | acc_nonexist | acc_uninit | acc_frozen | acc_active | acc_deleted
deriving DecidableEq

structure Account where
  is_special : Bool
  is_masterchain : Bool
  status : Status
  last_paid : UnixTime
  storage_stat : CellStorageStat
  balance : CurrencyCollection
  due_payment : AnyIntView

def Account.compute_storage_fees (account : Account) (now : UnixTime) (pricing : List StoragePrices) : Except Exc (Option AnyIntView) :=
  StoragePrices.compute_storage_fees now pricing account.storage_stat account.last_paid account.is_special account.is_masterchain

structure StoragePhaseConfig where
  pricing : List StoragePrices
  freeze_due_limit : AnyIntView
  delete_due_limit : AnyIntView

structure StoragePhase where
  fees_collected : AnyIntView
  fees_due : AnyIntView
  last_paid_updated : UnixTime
  frozen : Bool := false
  deleted : Bool := false
  is_special : Bool

structure CreditPhase where
  due_fees_collected : AnyIntView
  credit : CurrencyCollection

structure Transaction where
  account : Account
  now : UnixTime
  acc_status : Status
  balance : CurrencyCollection
  msg_balance_remaining : CurrencyCollection
  total_fees : CurrencyCollection
  due_payment : AnyIntView
  last_paid : UnixTime
  was_frozen : Bool := false
  storage_phase : Option StoragePhase := none
  credit_phase : Option CreditPhase := none

/-- How a phase fails: `none` is a phase that returns false. -/
abbrev Failure := Option Exc

/-- An exception goes on. -/
def throws {α : Type} (x : Except Exc α) : Except Failure α := x.mapError some

namespace Transaction

/-- The constructor, and the value of the message that `unpack_input_msg` reads. -/
def create (account : Account) (now : UnixTime) (msg_balance : CurrencyCollection) (total_fees : CurrencyCollection) : Transaction where
  account := account
  now := now
  acc_status := if account.status = .acc_nonexist then .acc_uninit else account.status
  balance := account.balance
  msg_balance_remaining := msg_balance
  total_fees := total_fees
  due_payment := account.due_payment
  last_paid := account.last_paid

/-- What becomes of an account that cannot pay. -/
def settle_unpaid (t : Transaction) (cfg : StoragePhaseConfig) (res : StoragePhase) : Except Exc (Transaction × StoragePhase) :=
  if res.is_special then .ok (t, res)
  else
    let total_due := RefInt256.add res.fees_due t.due_payment
    match t.acc_status with
    | .acc_uninit | .acc_frozen =>
      if total_due.cmp_any cfg.delete_due_limit > 0 then do
        let t := { t with acc_status := .acc_deleted }
        let res := { res with deleted := true }
        match t.balance.extra with
        | none => .ok (t, res)
        | some extra =>
          let total_fees ← t.total_fees.add ⟨some zero_refint, some extra⟩
          .ok ({ t with total_fees := total_fees, balance := { t.balance with extra := none } }, res)
      else .ok (t, res)
    | .acc_active =>
      if total_due.cmp_any cfg.freeze_due_limit > 0 then
        .ok ({ t with was_frozen := true, acc_status := .acc_frozen }, { res with frozen := true })
      else .ok (t, res)
    | _ => .ok (t, res)

/-- The four outcomes of the storage phase. -/
def collect_storage (t : Transaction) (cfg : StoragePhaseConfig) (force_collect : Bool) (to_pay : Option AnyIntView) :
    Except Exc (Transaction × StoragePhase) :=
  let last_paid := if t.account.is_special then 0 else t.now
  let t := { t with last_paid := last_paid }
  let nothing : StoragePhase := ⟨zero_refint, zero_refint, last_paid, false, false, t.account.is_special⟩
  match to_pay with
  | none => .ok (t, nothing)
  | some to_pay =>
    if to_pay.sgn = 0 then .ok (t, nothing)
    else if to_pay.cmp_any t.balance.words ≤ 0 then
      .ok ({ t with balance := t.balance.sub_grams to_pay }, { nothing with fees_collected := to_pay })
    else if t.acc_status = .acc_frozen ∧ ¬force_collect ∧ (RefInt256.add to_pay t.due_payment).cmp_any cfg.delete_due_limit < 0 then
      -- do not collect fee
      .ok (t, { nothing with last_paid_updated := if t.account.is_special then 0 else t.account.last_paid })
    else
      let res := { nothing with fees_collected := t.balance.words, fees_due := RefInt256.sub to_pay t.balance.words }
      settle_unpaid { t with balance := { t.balance with grams := some zero_refint } } cfg res

def prepare_storage_phase (t : Transaction) (cfg : StoragePhaseConfig) (force_collect adjust_msg_value : Bool) :
    Except Failure Transaction :=
  if t.now < t.account.last_paid then .error none
  else do
    let to_pay ← throws (t.account.compute_storage_fees t.now cfg.pricing)
    if to_pay.any (·.sgn < 0) then .error none
    else
      let (t, res) ← throws (t.collect_storage cfg force_collect to_pay)
      let msg :=
        if adjust_msg_value ∧ t.msg_balance_remaining.words.cmp_any t.balance.words > 0 then
          { t.msg_balance_remaining with grams := t.balance.grams }
        else t.msg_balance_remaining
      .ok { t with msg_balance_remaining := msg, total_fees := t.total_fees.add_grams res.fees_collected, storage_phase := some res }

def prepare_credit_phase (t : Transaction) : Except Failure Transaction :=
  -- `std::min`
  let collected := if t.due_payment.cmp_any t.msg_balance_remaining.words < 0 then t.due_payment else t.msg_balance_remaining.words
  let due_payment := RefInt256.sub t.due_payment collected
  let credit := t.msg_balance_remaining.sub_grams collected
  if !credit.is_valid then .error none
  else do
    let balance ← throws (t.balance.add credit)
    if !balance.is_valid then .error none
    else .ok { t with
      due_payment := due_payment
      msg_balance_remaining := credit
      balance := balance
      total_fees := t.total_fees.add_grams collected
      credit_phase := some ⟨collected, credit⟩ }

/-- `commit`, with the storage that `compute_state` finds. -/
def commit (t : Transaction) (new_storage_stat : CellStorageStat) : Account :=
  { t.account with
    status := if t.acc_status = .acc_deleted then .acc_nonexist else t.acc_status
    last_paid := t.last_paid
    storage_stat := new_storage_stat
    balance := t.balance
    due_payment := t.due_payment }

end Transaction

/-! ## Transactions on an account -/

/-- The fee that the account owes at a time, zero where there is none. -/
def fee (account : Account) (now : UnixTime) (pricing : List StoragePrices) : Int :=
  match account.compute_storage_fees now pricing with
  | .ok (some x) => x.toInt
  | _ => 0

/-- What a transaction depends on. The phases after these change the rest of the account in any way. -/
structure Step where
  now : UnixTime
  cfg : StoragePhaseConfig
  force_collect : Bool
  adjust_msg_value : Bool
  bounce_enabled : Bool
  /-- Whether there is a credit phase: not for external messages and not for ticks. -/
  credits : Bool
  msg_balance : CurrencyCollection
  in_fwd_fee : CurrencyCollection
  acc_status : Status
  balance : CurrencyCollection
  new_storage_stat : CellStorageStat

/-- What was charged for storage, and what of it was collected. -/
structure Books where
  accrued : Int := 0
  fees_collected : Int := 0
  due_fees_collected : Int := 0

namespace Step

/-- The transaction that comes to the storage phase: with `bounce_enabled` the credit phase is after it.
The import fee of an external message is taken before; the account comes with any balance, also with what that leaves. -/
def before_storage (s : Step) (account : Account) : Except Failure Transaction :=
  let t := Transaction.create account s.now s.msg_balance s.in_fwd_fee
  if s.credits && !s.bounce_enabled then t.prepare_credit_phase else .ok t

def storage (s : Step) (t : Transaction) : Except Failure Transaction :=
  t.prepare_storage_phase s.cfg s.force_collect (!s.bounce_enabled && s.adjust_msg_value)

def after_storage (s : Step) (t : Transaction) : Except Failure Transaction :=
  if s.credits && s.bounce_enabled then t.prepare_credit_phase else .ok t

/-- A transaction from its storage phase to `commit`. -/
def apply (s : Step) : Account × Books → Except Failure (Account × Books)
  | (account, books) => do
    let t ← s.before_storage account
    let t ← s.storage t
    let t ← s.after_storage t
    let t := { t with acc_status := s.acc_status, balance := s.balance }
    .ok (t.commit s.new_storage_stat,
      ⟨books.accrued + fee account s.now s.cfg.pricing,
        books.fees_collected + (t.storage_phase.elim 0 fun p => p.fees_collected.toInt),
        books.due_fees_collected + (t.credit_phase.elim 0 fun p => p.due_fees_collected.toInt)⟩)

end Step

/-! ## What a phase does to the debt -/

/-- An amount of grams, in normalised words. -/
structure Amount (x : AnyIntView) (v : Int) : Prop where
  is : x.Is v
  max_size : x.max_size = 5
  nonneg : 0 ≤ v
  lt : v < 2 ^ 255

/-- The fee is paid in full: there is none, or it is at most the balance as `prepare_storage_phase` compares them. -/
def Paid (t : Transaction) (cfg : StoragePhaseConfig) : Prop :=
  match t.account.compute_storage_fees t.now cfg.pricing with
  | .ok (some x) => x.sgn = 0 ∧ x.toInt = 0 ∨ x.sgn ≠ 0 ∧ x.cmp_any t.balance.words ≤ 0
  | _ => True

theorem throws_ok {α : Type} {x : Except Exc α} {a : α} : throws x = .ok a ↔ x = .ok a := by
  cases x with
  | error e => simp [throws, Except.mapError]
  | ok b => simp [throws, Except.mapError]

theorem toInt_zero_refint : zero_refint.toInt = 0 := by
  simp [zero_refint, bigInt, AnyIntView.toInt, SignedDigits.value]

section
variable {t t' : Transaction} {cfg : StoragePhaseConfig} {force_collect adjust_msg_value : Bool}

/-- What the storage phase leaves alone. -/
structure Kept (t t' : Transaction) : Prop where
  account : t'.account = t.account
  now : t'.now = t.now
  due_payment : t'.due_payment = t.due_payment
  msg_balance_remaining : t'.msg_balance_remaining = t.msg_balance_remaining
  credit_phase : t'.credit_phase = t.credit_phase

theorem settle_unpaid_keeps {res res' : StoragePhase} (h : t.settle_unpaid cfg res = .ok (t', res')) :
    Kept t t' ∧ t'.last_paid = t.last_paid ∧ res'.fees_collected = res.fees_collected := by
  have hself : Kept t t ∧ t.last_paid = t.last_paid ∧ res.fees_collected = res.fees_collected := ⟨⟨rfl, rfl, rfl, rfl, rfl⟩, rfl, rfl⟩
  unfold Transaction.settle_unpaid at h
  dsimp only at h
  split at h
  · cases h
    exact hself
  · split at h
    -- uninit and frozen accounts are deleted, active ones frozen
    case h_1 | h_2 =>
      split at h
      · split at h
        · cases h
          exact ⟨⟨rfl, rfl, rfl, rfl, rfl⟩, rfl, rfl⟩
        · obtain ⟨total_fees, -, h⟩ := Result.bind_ok.1 h
          cases h
          exact ⟨⟨rfl, rfl, rfl, rfl, rfl⟩, rfl, rfl⟩
      · cases h
        exact hself
    · split at h <;> cases h <;> exact ⟨⟨rfl, rfl, rfl, rfl, rfl⟩, rfl, rfl⟩
    · cases h
      exact hself

/-- Nothing in the storage phase changes the debt, and `last_paid` is moved in every case. -/
theorem collect_storage_keeps {to_pay : Option AnyIntView} {res : StoragePhase}
    (h : t.collect_storage cfg force_collect to_pay = .ok (t', res)) :
    Kept t t' ∧ t'.last_paid = if t.account.is_special then 0 else t.now := by
  unfold Transaction.collect_storage at h
  dsimp only at h
  split at h
  · cases h
    exact ⟨⟨rfl, rfl, rfl, rfl, rfl⟩, rfl⟩
  · split at h
    · cases h
      exact ⟨⟨rfl, rfl, rfl, rfl, rfl⟩, rfl⟩
    · split at h
      · cases h
        exact ⟨⟨rfl, rfl, rfl, rfl, rfl⟩, rfl⟩
      · split at h
        · cases h
          exact ⟨⟨rfl, rfl, rfl, rfl, rfl⟩, rfl⟩
        · obtain ⟨⟨h1, h2, h3, h4, h5⟩, h6, -⟩ := settle_unpaid_keeps h
          exact ⟨⟨h1, h2, h3, h4, h5⟩, h6⟩

theorem storage_phase_spec (h : t.prepare_storage_phase cfg force_collect adjust_msg_value = .ok t') :
    t'.account = t.account ∧ t'.now = t.now ∧ t'.due_payment = t.due_payment ∧ t'.credit_phase = t.credit_phase ∧
      t'.last_paid = (if t.account.is_special then 0 else t.now) ∧
      (adjust_msg_value = false → t'.msg_balance_remaining = t.msg_balance_remaining) ∧
      ∃ res, t'.storage_phase = some res ∧ (Paid t cfg → res.fees_collected.toInt = fee t.account t.now cfg.pricing) := by
  unfold Transaction.prepare_storage_phase at h
  rw [Result.ite_error_ok] at h
  obtain ⟨-, h⟩ := h
  obtain ⟨to_pay, hpay, h⟩ := Result.bind_ok.1 h
  rw [Result.ite_error_ok] at h
  obtain ⟨-, h⟩ := h
  obtain ⟨⟨u, res⟩, hu, h⟩ := Result.bind_ok.1 h
  rw [throws_ok] at hpay hu
  obtain ⟨⟨h1, h2, h3, h4, h5⟩, h6⟩ := collect_storage_keeps hu
  cases h
  refine ⟨h1, h2, h3, h5, h6, fun hadj => ?_, res, rfl, fun hp => ?_⟩
  · dsimp only
    rw [if_neg (by simp [hadj])]
    exact h4
  · unfold Paid at hp
    unfold fee
    rw [hpay] at hp ⊢
    unfold Transaction.collect_storage at hu
    dsimp only at hu
    cases to_pay with
    | none =>
      cases hu
      exact toInt_zero_refint
    | some x =>
      dsimp only at hp hu ⊢
      rcases hp with ⟨hs, h0⟩ | ⟨hs, hc⟩
      · rw [if_pos hs] at hu
        cases hu
        rw [toInt_zero_refint, h0]
      · rw [if_neg hs, if_pos hc] at hu
        cases hu
        rfl

/-- The credit phase takes from the debt what it adds to the fees. -/
theorem credit_phase_spec {d m : Int} (hd : Amount t.due_payment d) (hm : Amount t.msg_balance_remaining.words m)
    (h : t.prepare_credit_phase = .ok t') :
    t'.account = t.account ∧ t'.now = t.now ∧ t'.last_paid = t.last_paid ∧ t'.storage_phase = t.storage_phase ∧
      ∃ res, t'.credit_phase = some res ∧ Amount res.due_fees_collected (min d m) ∧ Amount t'.due_payment (d - min d m) ∧
        ∀ f, Amount t.total_fees.words f → f + min d m < 2 ^ 255 → Amount t'.total_fees.words (f + min d m) := by
  have hcoll : Amount (if t.due_payment.cmp_any t.msg_balance_remaining.words < 0 then t.due_payment
      else t.msg_balance_remaining.words) (min d m) := by
    rw [hd.is.cmp_eq hm.is]
    split
    · next hlt =>
      have := Int.sign_neg_iff.1 hlt
      rw [min_eq_left (by omega)]
      exact hd
    · next hge =>
      have := mt Int.sign_neg_iff.2 hge
      rw [min_eq_right (by omega)]
      exact hm
  unfold Transaction.prepare_credit_phase at h
  dsimp only at h
  generalize (if t.due_payment.cmp_any t.msg_balance_remaining.words < 0 then t.due_payment
      else t.msg_balance_remaining.words) = collected at hcoll h
  rw [Result.ite_error_ok] at h
  obtain ⟨-, h⟩ := h
  obtain ⟨balance, -, h⟩ := Result.bind_ok.1 h
  rw [Result.ite_error_ok] at h
  obtain ⟨-, h⟩ := h
  cases h
  have h0 := hd.nonneg
  have h1 := hd.lt
  have h2 := hm.nonneg
  have hroom : collected.size ≤ 5 := hcoll.max_size ▸ hcoll.is.room
  refine ⟨rfl, rfl, rfl, rfl, _, rfl, hcoll, ⟨?_, ?_, by omega, by omega⟩, fun f hf hlt => ?_⟩
  · exact (RefInt256.sub_computes hd.is hd.max_size hcoll.is hroom).1 ⟨by omega, by omega⟩
  · simpa [RefInt256.sub, AnyIntView.sub_any] using hd.max_size
  · have hf0 := hf.nonneg
    unfold CurrencyCollection.words CurrencyCollection.add_grams at *
    dsimp only at *
    cases hg : t.total_fees.grams with
    | none =>
      rw [hg] at hf
      exact absurd rfl hf.is.normal.ne_nil
    | some x =>
      rw [hg] at hf
      refine ⟨(RefInt256.add_computes hf.is hf.max_size hcoll.is hroom).1 ⟨?_, ?_⟩, ?_, by omega, by omega⟩
      · omega
      · omega
      · simpa [RefInt256.add, AnyIntView.add_any] using hf.max_size

end

/-! ## Runs -/

/-- The transactions that pay for storage in full, with a message whose value is an amount. -/
def Step.Pays (s : Step) (account : Account) : Prop :=
  (∃ m, Amount s.msg_balance.words m) ∧ ∀ t, s.before_storage account = .ok t → Paid t s.cfg

/-- What was charged is collected or is due. -/
def Balanced (d₀ : Int) (st : Account × Books) : Prop :=
  st.1.is_special = false ∧ ∃ d, Amount st.1.due_payment d ∧ st.2.accrued + d₀ = st.2.fees_collected + st.2.due_fees_collected + d

section
variable {s : Step} {st st' : Account × Books}

theorem before_storage_spec {account : Account} {t : Transaction} {d m : Int} (hd : Amount account.due_payment d)
    (hm : Amount s.msg_balance.words m) (h : s.before_storage account = .ok t) :
    t.account = account ∧ t.now = s.now ∧ t.storage_phase = none ∧ (s.bounce_enabled = true → t.msg_balance_remaining = s.msg_balance) ∧
      (s.credits && s.bounce_enabled → t.credit_phase = none) ∧
      ∃ c, Amount t.due_payment (d - c) ∧ (t.credit_phase.elim 0 fun p => p.due_fees_collected.toInt) = c := by
  unfold Step.before_storage at h
  dsimp only at h
  split at h
  · next hb =>
    obtain ⟨h1, h2, h3, h4, res, h5, h6, h7, -⟩ := credit_phase_spec hd hm h
    rw [Bool.and_eq_true, Bool.not_eq_true'] at hb
    refine ⟨h1, h2, h4, fun hb' => ?_, fun hb' => ?_, _, h7, ?_⟩
    · rw [hb.2] at hb'
      cases hb'
    · rw [hb.2] at hb'
      simp at hb'
    · rw [h5]
      exact h6.is.toInt
  · cases h
    refine ⟨rfl, rfl, rfl, fun _ => rfl, fun _ => rfl, 0, ?_, rfl⟩
    rw [sub_zero]
    exact hd

/-- A transaction moves `last_paid` to its time, and keeps the books balanced when it pays. -/
theorem apply_spec {d₀ : Int} (hI : Balanced d₀ st) (hpays : s.Pays st.1) (h : s.apply st = .ok st') :
    Balanced d₀ st' ∧ st'.1.last_paid = s.now := by
  obtain ⟨account, books⟩ := st
  obtain ⟨hspecial, d, hd, hbooks⟩ := hI
  obtain ⟨⟨m, hm⟩, hpaid⟩ := hpays
  dsimp only at hspecial hd hbooks hpaid
  unfold Step.apply at h
  obtain ⟨t₁, hbefore, h⟩ := Result.bind_ok.1 h
  obtain ⟨t₂, hstorage, h⟩ := Result.bind_ok.1 h
  obtain ⟨t₃, hafter, h⟩ := Result.bind_ok.1 h
  cases h
  obtain ⟨a1, a2, a3, a4, a5, c₁, a6, a7⟩ := before_storage_spec hd hm hbefore
  obtain ⟨b1, b2, b3, b4, b5, b6, res, b7, b8⟩ := storage_phase_spec hstorage
  have hfee := b8 (hpaid t₁ hbefore)
  rw [a1, a2] at hfee
  rw [a1, a2, hspecial, if_neg (by decide)] at b5
  rw [← b3] at a6
  unfold Step.after_storage at hafter
  split at hafter
  · next hb =>
    have hbounce := (Bool.and_eq_true _ _ ▸ hb).2
    have hm' : Amount t₂.msg_balance_remaining.words m := by
      rw [b6 (by simp [hbounce]), a4 hbounce]
      exact hm
    obtain ⟨e1, e2, e3, e4, res', e5, e6, e7, -⟩ := credit_phase_spec a6 hm' hafter
    rw [a5 hb] at a7
    refine ⟨⟨?_, _, e7, ?_⟩, ?_⟩
    · simpa [Transaction.commit, e1, b1, a1] using hspecial
    · dsimp only
      rw [e4, b7, e5]
      simp only [Option.elim] at a7 ⊢
      rw [hfee, show res'.due_fees_collected.toInt = _ from e6.is.toInt]
      omega
    · simp [Transaction.commit, e3, b5]
  · cases hafter
    refine ⟨⟨?_, _, a6, ?_⟩, b5⟩
    · simpa [Transaction.commit, b1, a1] using hspecial
    · dsimp only
      rw [b7, b4, a7]
      simp only [Option.elim]
      rw [hfee]
      omega

end

open Transaction Result in
/-- Where every fee is paid in full, what was charged up to `last_paid` is collected or is due. -/
theorem storage_debt_kept (t t' : Transaction) (account : Account) :
    (∀ cfg force_collect adjust_msg_value,
      t.prepare_storage_phase cfg force_collect adjust_msg_value = .ok t' → t.account.is_special = false → Paid t cfg →
        t'.last_paid = t.now ∧ ∃ res, t'.storage_phase = some res ∧ t'.due_payment = t.due_payment ∧
          t.due_payment.toInt + fee t.account t.now cfg.pricing = res.fees_collected.toInt + t'.due_payment.toInt) ∧
    (∀ d m f, Amount t.due_payment d → Amount t.msg_balance_remaining.words m → Amount t.total_fees.words f →
      f + m < 2 ^ 255 → t.prepare_credit_phase = .ok t' →
        ∃ c, Amount t'.due_payment (d - c) ∧ Amount t'.total_fees.words (f + c)) ∧
    ∀ d₀, account.is_special = false → Amount account.due_payment d₀ →
      ∀ st, Reach (fun st s => Step.apply s st) (fun st s => Step.Pays s st.1) (· = (account, {})) st →
        Balanced d₀ st ∧ ∀ s st', Step.Pays s st.1 → s.apply st = .ok st' → st'.1.last_paid = s.now := by
  refine ⟨fun cfg force adjust h hspecial hp => ?_, fun d m f hd hm hf hlt h => ?_, fun d₀ hspecial hd st h => ?_⟩
  · obtain ⟨-, -, hdue, -, hlast, -, res, hres, hfee⟩ := storage_phase_spec h
    rw [hspecial, if_neg (by decide)] at hlast
    refine ⟨hlast, res, hres, hdue, ?_⟩
    rw [hdue, hfee hp, add_comm]
  · have hmin := min_le_right d m
    obtain ⟨-, -, -, -, res, -, -, hdue, hfees⟩ := credit_phase_spec hd hm h
    exact ⟨_, hdue, hfees f hf (by omega)⟩
  · have hI : Balanced d₀ st := by
      refine h.inv (I := Balanced d₀) ?_ fun st s st' hI hpays hs => (apply_spec hI hpays hs).1
      rintro _ rfl
      exact ⟨hspecial, d₀, hd, by simp⟩
    exact ⟨hI, fun s st' hpays hs => (apply_spec hI hpays hs).2⟩

/-- An account with no balance that is charged nine nanograms. -/
def poor : Account where
  is_special := false
  is_masterchain := false
  status := .acc_active
  last_paid := 1
  storage_stat := ⟨1, 1⟩
  balance := ⟨some zero_refint, none⟩
  due_payment := zero_refint

def tick : Step where
  now := 10
  cfg := ⟨[⟨1, 2 ^ 16, 0, 0, 0⟩], bigInt 257 [100], bigInt 257 [1000]⟩
  force_collect := true
  adjust_msg_value := false
  bounce_enabled := true
  credits := false
  msg_balance := ⟨some zero_refint, none⟩
  in_fwd_fee := ⟨some zero_refint, none⟩
  acc_status := .acc_active
  balance := ⟨some zero_refint, none⟩
  new_storage_stat := ⟨1, 1⟩

/-- With a balance of a hundred the same transaction collects the nine, and the books balance. -/
theorem storage_debt_kept_paid : ∃ st : Account × Books,
    tick.apply ({ poor with balance := ⟨some (bigInt 257 [100]), none⟩ }, {}) = .ok st ∧ st.2.accrued = 9 ∧ st.2.fees_collected = 9 ∧
      Balanced 0 st := by
  obtain ⟨st, hst, hP⟩ := Result.exists_of_satisfies (P := fun st : Account × Books => decide (st.2.accrued = 9 ∧ st.2.fees_collected = 9))
    (x := tick.apply ({ poor with balance := ⟨some (bigInt 257 [100]), none⟩ }, {})) (by decide +kernel)
  obtain ⟨haccrued, hcollected⟩ := of_decide_eq_true hP
  have hzero : Amount zero_refint 0 := ⟨⟨⟨by decide, .inl rfl⟩, toInt_zero_refint, by decide⟩, rfl, le_rfl, by decide⟩
  have hpays : tick.Pays { poor with balance := ⟨some (bigInt 257 [100]), none⟩ } := by
    refine ⟨⟨0, hzero⟩, fun t ht => ?_⟩
    obtain rfl := Except.ok.inj ht
    exact .inr (by decide +kernel)
  have hdebt := storage_debt_kept (.create poor 10 tick.msg_balance tick.in_fwd_fee) (.create poor 10 tick.msg_balance tick.in_fwd_fee)
    { poor with balance := ⟨some (bigInt 257 [100]), none⟩ }
  exact ⟨st, hst, haccrued, hcollected, (hdebt.2.2 0 rfl hzero st (.step (.start rfl) hpays hst)).1⟩

/-- The fee of 9 of an account without a balance is booked nowhere. -/
theorem storage_debt_lost : Result.satisfies (fun st : Account × Books => decide (st.2.accrued = 9 ∧ st.2.fees_collected = 0 ∧
    st.2.due_fees_collected = 0 ∧ poor.due_payment.toInt = 0 ∧ st.1.due_payment.toInt = 0 ∧ st.1.last_paid = 10))
    (tick.apply (poor, {})) = true := by
  decide +kernel

end Ton.Fees
