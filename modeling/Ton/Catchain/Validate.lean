import Ton.Catchain.Types
/-!
# Validating messages

`pre_validate_block` and `validate_block_sync`, for a block and for what a block
says of another one. What a receiver knows already is not checked again.
-/

namespace Ton.Catchain
open Chain

/-- Why a message is refused. -/
inductive Invalid where
  | bad_height
  | bad_src
  | bad_prev_src
  | bad_first_src
  | bad_first_block
  | too_many_deps
  | bad_prev_height
  | same_source
  | empty_payload
  | bad_signature
  deriving DecidableEq, Repr

abbrev Status := Except Invalid Unit

/-- `TRY_STATUS` -/
def andThen (status : Exc Status) (next : Exc Status) : Exc Status := do
  match ← status with
  | .error e => .ok (.error e)
  | .ok () => next

theorem andThen_ok {status next : Exc Status} : andThen status next = .ok (.ok ()) ↔ status = .ok (.ok ()) ∧ next = .ok (.ok ()) := by
  rcases status with e | e | u
  · simp [andThen]
  · simp [andThen]
  · simp [andThen]

/-- `get_source(source_id)->` -/
def source_of {n : ℕ} : Option (Fin n) → Exc (Fin n)
  | none => .error .null_source
  | some i => .ok i

variable {n : ℕ} {Payload : Type}

namespace Receiver

/-- A hash used as a pointer. -/
def deref (s : Receiver n Payload) (hash : Hash) : Exc (ReceivedBlock n Payload) :=
  match s.blocks hash with
  | none => .error .null_pointer
  | some b => .ok b

def get_block (s : Receiver n Payload) (hash : Hash) : Option (ReceivedBlock n Payload) := s.blocks hash

variable (chain : Chain n Payload)

def pre_validate_block_dep (dep : Dep) : Status :=
  if dep.height < 0 then .error .bad_height
  else if dep.height > 0 then
    if (get_source n dep.src).isNone then .error .bad_src else .ok ()
  else if dep.src ≠ n then .error .bad_first_src
  else if dep.data_hash ≠ chain.incarnation ∨ dep.signature ≠ [] then .error .bad_first_block
  else .ok ()

def validate_block_dep (s : Receiver n Payload) (dep : Dep) : Exc Status :=
  match pre_validate_block_dep chain dep with
  | .error e => .ok (.error e)
  | .ok () =>
    if dep.height > 0 then do
      let id ← chain.block_id_dep dep
      if (s.get_block (chain.id_hash id)).isSome then .ok (.ok ())
      else do
        let i ← source_of (get_source n dep.src)
        .ok (if chain.check_signature i id dep.signature then .ok () else .error .bad_signature)
    else .ok (.ok ())

def validate_deps (s : Receiver n Payload) : List Dep → Exc Status
  | [] => .ok (.ok ())
  | dep :: deps => andThen (s.validate_block_dep chain dep) (validate_deps s deps)

/-- The checks of `pre_validate_block` on the fields of the block itself. -/
def pre_validate_fields (block : Block) : Status :=
  if block.height ≤ 0 then .error .bad_height
  else if (get_source n block.src).isNone then .error .bad_src
  else if block.data.prev.src < 0 then .error .bad_prev_src
  else if block.data.deps.length > chain.max_deps then .error .too_many_deps
  else if block.data.prev.src ≠ (if block.height > 1 then block.src else n) then .error .bad_prev_src
  else if block.data.prev.height + 1 ≠ block.height then .error .bad_prev_height
  else if ¬ (block.src :: block.data.deps.map (·.src)).Nodup then .error .same_source
  else .ok ()

def pre_validate_block (s : Receiver n Payload) (block : Block) (payload : Payload) : Exc Status := do
  check .bad_incarnation (block.incarnation = chain.incarnation)
  andThen (.ok (pre_validate_fields chain block)) <|
    andThen (s.validate_block_dep chain block.data.prev) <|
      andThen (s.validate_deps chain block.data.deps)
        (.ok (if chain.size payload = 0 then .error .empty_payload else .ok ()))

/-- The part after `pre_validate_block`, which refuses every height but a positive one. -/
def validate_signature (block : Block) (payload : Payload) : Exc Status := do
  let id ← chain.block_id block payload
  let i ← source_of (get_source n block.src)
  .ok (if chain.check_signature i id block.signature then .ok () else .error .bad_signature)

def validate_block (s : Receiver n Payload) (block : Block) (payload : Payload) : Exc Status :=
  andThen (s.pre_validate_block chain block payload) <|
    if block.height > 0 then validate_signature chain block payload else .ok (.ok ())

/-! ## What is accepted -/

variable {chain} {s : Receiver n Payload} {dep : Dep} {block : Block} {payload : Payload} {i : Fin n}

/-- What a dependency that was accepted says: the root block, or a block of a source. -/
inductive DepOk (chain : Chain n Payload) (s : Receiver n Payload) (dep : Dep) : Prop
  | root (hheight : dep.height = 0) (hsrc : dep.src = n) (hhash : dep.data_hash = chain.incarnation) (hsig : dep.signature = [])
  | block (i : Fin n) (hheight : 0 < dep.height) (hsrc : dep.src = (i : ℕ))
      (hknown : (s.blocks (chain.id_hash (chain.idOf i dep.height.toNat dep.data_hash))).isSome ∨
        chain.check_signature i (chain.idOf i dep.height.toNat dep.data_hash) dep.signature = true)

theorem get_source_eq_some {src : ℤ} : get_source n src = some i ↔ src = (i : ℕ) := by
  unfold get_source
  split_ifs with h
  · rw [Option.some.injEq, Fin.ext_iff]
    dsimp only
    omega
  · refine iff_of_false (by simp) ?_
    rintro rfl
    exact h ⟨by omega, by simp⟩

theorem get_source_isNone {src : ℤ} : (get_source n src).isNone = true ↔ ∀ i : Fin n, src ≠ (i : ℕ) := by
  rw [Option.isNone_iff_eq_none, Option.eq_none_iff_forall_ne_some]
  exact forall_congr' fun i => not_congr get_source_eq_some

theorem exists_source {src : ℤ} (h : ¬ (get_source n src).isNone = true) : ∃ i : Fin n, src = (i : ℕ) := by
  rw [get_source_isNone] at h
  push Not at h
  exact h

theorem block_id_dep_eq (h : dep.src = (i : ℕ)) (hheight : 0 < dep.height) :
    chain.block_id_dep dep = .ok (chain.idOf i dep.height.toNat dep.data_hash) := by
  rw [block_id_dep, get_source_hash, get_source_eq_some.2 h, idOf, Int.toNat_of_nonneg hheight.le]
  rfl

theorem block_hash_dep_eq (h : dep.src = (i : ℕ)) (hheight : 0 < dep.height) :
    chain.block_hash_dep dep = .ok (chain.id_hash (chain.idOf i dep.height.toNat dep.data_hash)) := by
  rw [block_hash_dep, block_id_dep_eq h hheight, Result.ok_bind]

theorem pre_validate_block_dep_ok : pre_validate_block_dep chain dep = .ok () ↔
    (0 < dep.height ∧ ∃ i : Fin n, dep.src = (i : ℕ)) ∨
      (dep.height = 0 ∧ dep.src = n ∧ dep.data_hash = chain.incarnation ∧ dep.signature = []) := by
  unfold pre_validate_block_dep
  split_ifs with h1 h2 h3 h4 h5
  · exact iff_of_false (by simp) (by omega)
  · refine iff_of_false (by simp) ?_
    rintro (⟨-, i, hi⟩ | ⟨h, -⟩)
    · exact get_source_isNone.1 h3 i hi
    · omega
  · exact iff_of_true rfl (.inl ⟨h2, exists_source h3⟩)
  · refine iff_of_false (by simp) ?_
    rintro (⟨h, -⟩ | ⟨-, h, -⟩)
    · exact h2 h
    · exact h4 h
  · refine iff_of_false (by simp) ?_
    rintro (⟨h, -⟩ | ⟨-, -, hhash, hsig⟩)
    · exact h2 h
    · exact h5.elim (absurd hhash) (absurd hsig)
  · obtain ⟨hhash, hsig⟩ := not_or.1 h5
    exact iff_of_true rfl (.inr ⟨by omega, not_not.1 h4, not_not.1 hhash, not_not.1 hsig⟩)

/-- Validating what a block says of another one never ends the process. -/
theorem validate_block_dep_total (chain : Chain n Payload) (s : Receiver n Payload) (dep : Dep) :
    ∃ status, s.validate_block_dep chain dep = .ok status ∧ (status = .ok () ↔ DepOk chain s dep) := by
  unfold validate_block_dep
  cases hpre : pre_validate_block_dep chain dep with
  | error e =>
    refine ⟨_, rfl, iff_of_false (by simp) fun hdep => ?_⟩
    have hok : pre_validate_block_dep chain dep = .ok () := by
      rw [pre_validate_block_dep_ok]
      rcases hdep with ⟨hheight, hsrc, hhash, hsig⟩ | ⟨i, hheight, hsrc, -⟩
      · exact .inr ⟨hheight, hsrc, hhash, hsig⟩
      · exact .inl ⟨hheight, i, hsrc⟩
    cases hpre.symm.trans hok
  | ok u =>
    dsimp only
    rcases pre_validate_block_dep_ok.1 hpre with ⟨hheight, i, hi⟩ | ⟨hheight, hsrc, hhash, hsig⟩
    · rw [if_pos hheight, block_id_dep_eq hi hheight, Result.ok_bind, get_source_eq_some.2 hi]
      by_cases hk : (s.get_block (chain.id_hash (chain.idOf i dep.height.toNat dep.data_hash))).isSome
      · rw [if_pos hk]
        exact ⟨_, rfl, iff_of_true rfl (.block i hheight hi (.inl hk))⟩
      · rw [if_neg hk]
        refine ⟨_, rfl, ?_⟩
        constructor
        · intro hs
          refine .block i hheight hi (.inr ?_)
          by_contra hsig
          rw [if_neg hsig] at hs
          cases hs
        · rintro (⟨hzero⟩ | ⟨j, -, hj, hknown⟩)
          · omega
          · obtain rfl : i = j := Fin.ext (by omega)
            rw [if_pos (hknown.resolve_left hk)]
    · rw [if_neg (by omega)]
      exact ⟨_, rfl, iff_of_true rfl (.root hheight hsrc hhash hsig)⟩

theorem validate_block_dep_ok : s.validate_block_dep chain dep = .ok (.ok ()) ↔ DepOk chain s dep := by
  obtain ⟨status, h, hiff⟩ := validate_block_dep_total chain s dep
  rw [h, Except.ok.injEq, hiff]

theorem andThen_total {status next : Exc Status} (h : ∃ a, status = .ok a) (h' : ∃ a, next = .ok a) : ∃ a, andThen status next = .ok a := by
  obtain ⟨a, rfl⟩ := h
  rcases a with e | u
  · exact ⟨_, rfl⟩
  · exact h'

theorem validate_deps_total (chain : Chain n Payload) (s : Receiver n Payload) (deps : List Dep) :
    (∃ status, s.validate_deps chain deps = .ok status) ∧ (s.validate_deps chain deps = .ok (.ok ()) ↔ ∀ dep ∈ deps, DepOk chain s dep) := by
  induction deps with
  | nil => exact ⟨⟨_, rfl⟩, iff_of_true rfl (by simp)⟩
  | cons dep deps ih =>
    obtain ⟨status, h, -⟩ := validate_block_dep_total chain s dep
    refine ⟨andThen_total ⟨_, h⟩ ih.1, ?_⟩
    rw [validate_deps, andThen_ok, validate_block_dep_ok, ih.2, List.forall_mem_cons]

/-- What a block that was accepted looks like. -/
structure BlockOk (chain : Chain n Payload) (s : Receiver n Payload) (block : Block) (payload : Payload) (i : Fin n) : Prop where
  incarnation : block.incarnation = chain.incarnation
  height : 0 < block.height
  src : block.src = (i : ℕ)
  max_deps : block.data.deps.length ≤ chain.max_deps
  prev_src : block.data.prev.src = if block.height > 1 then block.src else n
  prev_height : block.data.prev.height + 1 = block.height
  nodup : (block.src :: block.data.deps.map (·.src)).Nodup
  prev : DepOk chain s block.data.prev
  deps : ∀ dep ∈ block.data.deps, DepOk chain s dep
  size : 0 < chain.size payload
  signed : chain.check_signature i (chain.idOf i block.height.toNat (chain.payload_hash payload)) block.signature = true

section
variable (hinc : block.incarnation = chain.incarnation) (h : block.src = (i : ℕ)) (hheight : 0 < block.height)
include hinc h hheight

theorem block_id_eq :
    chain.block_id block payload = .ok (chain.idOf i block.height.toNat (chain.payload_hash payload)) := by
  rw [block_id, get_source_hash, get_source_eq_some.2 h, idOf, Int.toNat_of_nonneg hheight.le, hinc]
  rfl

theorem block_hash_eq :
    chain.block_hash block payload = .ok (chain.id_hash (chain.idOf i block.height.toNat (chain.payload_hash payload))) := by
  rw [block_hash, block_id_eq hinc h hheight, Result.ok_bind]

end

theorem pre_validate_fields_ok : pre_validate_fields chain block = .ok () ↔ 0 < block.height ∧ (∃ i : Fin n, block.src = (i : ℕ)) ∧
    block.data.deps.length ≤ chain.max_deps ∧ block.data.prev.src = (if block.height > 1 then block.src else n) ∧
    block.data.prev.height + 1 = block.height ∧ (block.src :: block.data.deps.map (·.src)).Nodup := by
  unfold pre_validate_fields
  by_cases h1 : block.height ≤ 0
  · rw [if_pos h1]
    exact iff_of_false (by simp) fun h => absurd h.1 (by omega)
  rw [if_neg h1]
  by_cases h2 : (get_source n block.src).isNone
  · rw [if_pos h2]
    refine iff_of_false (by simp) ?_
    rintro ⟨-, ⟨i, hi⟩, -⟩
    exact get_source_isNone.1 h2 i hi
  rw [if_neg h2]
  obtain ⟨i, hi⟩ := exists_source h2
  by_cases h3 : block.data.prev.src < 0
  · rw [if_pos h3]
    refine iff_of_false (by simp) ?_
    rintro ⟨-, -, -, h, -⟩
    split at h <;> omega
  rw [if_neg h3]
  by_cases h4 : block.data.deps.length > chain.max_deps
  · rw [if_pos h4]
    exact iff_of_false (by simp) fun h => absurd h.2.2.1 (by omega)
  rw [if_neg h4]
  by_cases h5 : block.data.prev.src ≠ (if block.height > 1 then block.src else n)
  · rw [if_pos h5]
    exact iff_of_false (by simp) fun h => h5 h.2.2.2.1
  rw [if_neg h5]
  by_cases h6 : block.data.prev.height + 1 ≠ block.height
  · rw [if_pos h6]
    exact iff_of_false (by simp) fun h => h6 h.2.2.2.2.1
  rw [if_neg h6]
  by_cases h7 : (block.src :: block.data.deps.map (·.src)).Nodup
  · rw [if_neg (not_not.2 h7)]
    exact iff_of_true rfl ⟨by omega, ⟨i, hi⟩, by omega, not_not.1 h5, not_not.1 h6, h7⟩
  · rw [if_pos h7]
    exact iff_of_false (by simp) fun h => h7 h.2.2.2.2.2

section
variable (s : Receiver n Payload) (hinc : block.incarnation = chain.incarnation) (payload : Payload)
include hinc

theorem pre_validate_block_total :
    (∃ status, s.pre_validate_block chain block payload = .ok status) ∧ (s.pre_validate_block chain block payload = .ok (.ok ()) ↔
      pre_validate_fields chain block = .ok () ∧ DepOk chain s block.data.prev ∧ (∀ dep ∈ block.data.deps, DepOk chain s dep) ∧
        0 < chain.size payload) := by
  obtain ⟨⟨status, hdeps⟩, hdeps_ok⟩ := validate_deps_total chain s block.data.deps
  obtain ⟨pstatus, hprev, -⟩ := validate_block_dep_total chain s block.data.prev
  have hsize : (.ok (if chain.size payload = 0 then .error .empty_payload else .ok ()) : Exc Status) = .ok (.ok ()) ↔
      0 < chain.size payload := by
    split_ifs with h
    · exact iff_of_false (by simp) (by omega)
    · exact iff_of_true rfl (by omega)
  unfold pre_validate_block
  rw [check_pos hinc, Result.ok_bind]
  refine ⟨andThen_total ⟨_, rfl⟩ (andThen_total ⟨_, hprev⟩ (andThen_total ⟨_, hdeps⟩ ⟨_, rfl⟩)), ?_⟩
  rw [andThen_ok, andThen_ok, andThen_ok, validate_block_dep_ok, hdeps_ok, hsize, Except.ok.injEq]

/-- With the right incarnation, validating a block never ends the process. -/
theorem validate_block_total :
    (∃ status, s.validate_block chain block payload = .ok status) ∧
      (s.validate_block chain block payload = .ok (.ok ()) ↔ ∃ i, BlockOk chain s block payload i) := by
  obtain ⟨⟨status, hpre⟩, hpre_ok⟩ := pre_validate_block_total s hinc payload
  rw [validate_block, andThen_ok, hpre_ok]
  by_cases hfields : pre_validate_fields chain block = .ok ()
  · obtain ⟨hheight, ⟨i, hi⟩, hmax, hps, hph, hnd⟩ := pre_validate_fields_ok.1 hfields
    have hsig : validate_signature chain block payload = .ok (if chain.check_signature i
        (chain.idOf i block.height.toNat (chain.payload_hash payload)) block.signature then .ok () else .error .bad_signature) := by
      rw [validate_signature, block_id_eq hinc hi hheight, get_source_eq_some.2 hi]
      rfl
    rw [if_pos hheight, hsig]
    refine ⟨andThen_total ⟨_, hpre⟩ ⟨_, rfl⟩, ?_⟩
    constructor
    · rintro ⟨⟨-, hp, hd, hsize⟩, hsigned⟩
      refine ⟨i, hinc, hheight, hi, hmax, hps, hph, hnd, hp, hd, hsize, ?_⟩
      by_contra hno
      rw [if_neg hno] at hsigned
      cases hsigned
    · rintro ⟨j, hj⟩
      obtain rfl : i = j := Fin.ext (by have := hj.src; omega)
      exact ⟨⟨hfields, hj.prev, hj.deps, hj.size⟩, by rw [if_pos hj.signed]⟩
  · constructor
    · rcases status with e | u
      · rw [hpre]
        exact ⟨_, rfl⟩
      · exact absurd (hpre_ok.1 hpre).1 hfields
    · refine iff_of_false (fun h => hfields h.1.1) ?_
      rintro ⟨i, hi⟩
      exact hfields (pre_validate_fields_ok.2 ⟨hi.height, ⟨i, hi.src⟩, hi.max_deps, hi.prev_src, hi.prev_height, hi.nodup⟩)

end

end Receiver

end Ton.Catchain
