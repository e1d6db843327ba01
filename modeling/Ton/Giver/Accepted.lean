import Ton.Miner.Run
import Ton.Miner.Search
import Ton.Giver.Contract
/-!
# What a miner returns, the giver accepts

The body a miner returns is that of a message `Mined` for the options, whose
hash is below the complexity. `slice_hash_bytes`: that hash is the contract's
`slice_hash` of the body. `load_mine_body`: the contract reads the fields of the
struct in their order and widths. `pay_message_bits`: the message sent starts
with the bounce bit, the workchain and the address.
-/

namespace Ton.Giver
open BigEndian Sha256 Miner CellTraits Result DataCell Sha256Api

/-! ## Reading a body -/

/-- The representation hash of a cell of whole bytes and no references. -/
theorem slice_hash_bytes (l : List Byte) (hl : 8 * l.length ≤ max_bits) :
    slice_hash ⟨bytesToBits l, []⟩ = .ok (ofBytes (sha256 ([0, BitVec.ofNat 8 (l.length * 2)] ++ l))) := by
  have hlevels : hashLevels .Ordinary ⟨0⟩ = [0] := by decide
  have hbytes : dataBytes (bytesToBits l) = l := by
    simp [dataBytes, bitsToBytes_bytesToBits]
  have hinput : hashInput false (8 * l.length) [] ⟨0⟩ l 0 0 = [0, BitVec.ofNat 8 (l.length * 2)] ++ l := by
    simp [hashInput, d1, d2, LevelMask.apply]
  have hcreate : create (bytesToBits l) [] false = .ok (.mk false (bytesToBits l) [] ⟨0⟩
      [sha256 ([0, BitVec.ofNat 8 (l.length * 2)] ++ l)] [0]) := by
    have hm : ¬(bytesToBits l).length > max_bits := by rw [bytesToBits_length]; omega
    simp only [create, new_type_ordinary, check_type, List.foldl_nil, ok_bind, if_neg hm, hlevels,
      hashLoop, childLevel, List.getLastD_nil, hbytes]
    simp [maxDepth, hinput]
  simp [slice_hash, CellBuilder.finalize, hcreate, get_hash, special_type, is_special,
    get_level_mask, DataCell.hashes, LevelMask.apply, LevelMask.get_hash_i]

theorem load_uint_append (a b : List Bool) (refs : List DataCell) (n : Nat) (hn : a.length = n) :
    load_uint ⟨a ++ b, refs⟩ n = .ok (ofBits a, ⟨b, refs⟩) := by
  subst hn
  simp [load_uint, CellSlice.size]

theorem load_uint_vector {k : Nat} (v : Vector Byte k) (l : List Byte) (refs : List DataCell) (n : Nat) (hn : 8 * k = n) :
    load_uint ⟨bytesToBits (v.toList ++ l), refs⟩ n = .ok (ofBytes v.toList, ⟨bytesToBits l, refs⟩) := by
  rw [bytesToBits_append, load_uint_append _ _ _ _ (by simpa using hn), ofBits_bytesToBits]

theorem load_int_byte (b : Byte) (l : List Byte) (refs : List DataCell) :
    load_int ⟨bytesToBits ([b] ++ l), refs⟩ 8 = .ok (b.toInt, ⟨bytesToBits l, refs⟩) := by
  have hb := b.isLt
  rw [load_int, bytesToBits_append, load_uint_append _ _ _ _ (by simp), ofBits_bytesToBits, ok_bind, ofBytes_cons,
    BitVec.toInt]
  simp only [List.length_nil, Nat.pow_zero, Nat.mul_one, ofBytes_nil, Nat.add_zero]
  congr 2
  split <;> split <;> omega

/-- What the contract reads from a body. -/
def mine_msg (d : HData) : MineMsg :=
  ⟨ofBytes d.op.toList, d.flags.toInt, ofBytes d.expire.toList, ofBytes d.myaddr.toList, ofBytes d.rdata1.toList,
    ofBytes d.pseed.toList, ofBytes d.rdata2.toList⟩

theorem load_mine_body (d : HData) : load_mine ⟨bytesToBits d.as_slice, []⟩ = .ok (mine_msg d, ⟨[], []⟩) := by
  have hlast := load_uint_vector d.rdata2 [] [] 256 rfl
  rw [List.append_nil] at hlast
  unfold load_mine
  rw [HData.as_slice]
  simp only [List.append_assoc]
  rw [load_uint_vector d.op _ _ _ rfl, ok_bind, load_int_byte, ok_bind, load_uint_vector d.expire _ _ _ rfl, ok_bind,
    load_uint_vector d.myaddr _ _ _ rfl, ok_bind, load_uint_vector d.rdata1 _ _ _ rfl, ok_bind,
    load_uint_vector d.pseed _ _ _ rfl, ok_bind, hlast]
  rfl

theorem load_stored_append {a b c d rest : List Bool} (refs : List DataCell) (ha : a.length = 64) (hb : b.length = 256)
    (hc : c.length = 128) (hd : d.length = 256) (m : LevelMask) (hashes : List Hash) (depths : List Nat) :
    load_stored (.mk false (a ++ (b ++ (c ++ (d ++ rest)))) refs m hashes depths) =
      .ok ⟨ofBits a, ofBits b, ofBits c, ofBits d, ⟨rest, refs⟩⟩ := by
  have hload : load_cell_slice (.mk false (a ++ (b ++ (c ++ (d ++ rest)))) refs m hashes depths) =
      .ok ⟨a ++ (b ++ (c ++ (d ++ rest))), refs⟩ := rfl
  simp only [load_stored, hload, ok_bind, load_uint_append _ _ _ _ ha, load_uint_append _ _ _ _ hb,
    load_uint_append _ _ _ _ hc, load_uint_append _ _ _ _ hd]

/-! ## Paying -/

variable {options : Options} {cb cb' : CellBuilder} {H : HDataEnv}

theorem store_uint_bits {x : Int} {n : Nat} (h : store_uint cb x n = .ok cb') :
    cb' = { cb with bits := cb.bits ++ toBits n x.toNat } := by
  obtain ⟨-, -, h⟩ := bind_ok.1 h
  split at h
  · next hs =>
    cases h
    exact CellBuilder.store_bits_bool_some hs
  · cases h

theorem store_int_bits {x : Int} {n : Nat} (h : store_int cb x n = .ok cb') :
    cb' = { cb with bits := cb.bits ++ toBits n (x % 2 ^ n).toNat } := by
  obtain ⟨-, -, h⟩ := bind_ok.1 h
  split at h
  · next hs =>
    cases h
    exact CellBuilder.store_bits_bool_some hs
  · cases h

theorem store_grams_bits {x : Nat} (h : store_grams cb x = .ok cb') :
    ∃ bs, cb' = { cb with bits := cb.bits ++ bs } := by
  obtain ⟨cb₁, h₁, h⟩ := bind_ok.1 h
  rw [store_uint_bits h, store_uint_bits h₁]
  exact ⟨_, by rw [List.append_assoc]⟩

theorem end_cell_data {cb : CellBuilder} {c : DataCell} (h : end_cell cb = .ok c) : c.data = cb.bits :=
  (create_fields (CellBuilder.finalize_create h)).2.1

/-- The message: `int_msg_info`, with IHR disabled, the bounce bit, no source and
the standard address of the destination. -/
theorem pay_message_bits {flags : Int} {whom amount : Nat} {c : DataCell} (h : pay_message flags whom amount = .ok c) :
    ∃ rest, c.data = [false, true, flags % 2 = 1, false, false, false, true, false, false] ++
      toBits 8 (flags / 4 % 256).toNat ++ toBits 256 whom ++ rest := by
  obtain ⟨cb₁, h₁, h⟩ := bind_ok.1 h
  obtain ⟨cb₂, h₂, h⟩ := bind_ok.1 h
  obtain ⟨cb₃, h₃, h⟩ := bind_ok.1 h
  obtain ⟨cb₄, h₄, h⟩ := bind_ok.1 h
  obtain ⟨cb₅, h₅, h⟩ := bind_ok.1 h
  obtain ⟨grams, h₄⟩ := store_grams_bits h₄
  have hhead : toBits 9 ((((flags % 2).toNat <<< 6 ||| 0x84 : Nat) : Int)).toNat =
      [false, true, flags % 2 = 1, false, false, false, true, false, false] := by
    rcases Int.emod_two_eq flags with e | e <;> rw [e] <;> rfl
  rw [end_cell_data h, store_uint_bits h₅, h₄, store_uint_bits h₃, store_int_bits h₂, store_uint_bits h₁, hhead]
  exact ⟨_, by simp only [List.nil_append, List.append_assoc]; rfl⟩

theorem pay_out_message {env : Env} {st : Stored} {m : MineMsg} {eff : Effects} (h : pay_out env st m = .ok eff) :
    ∃ amount, pay_message m.flags m.whom amount = .ok eff.message := by
  unfold pay_out at h
  iterate 4 obtain ⟨_, -, h⟩ := bind_ok.1 h
  obtain ⟨⟨amount, _⟩, -, h⟩ := bind_ok.1 h
  iterate 12 obtain ⟨_, -, h⟩ := bind_ok.1 h
  obtain ⟨message, hm, h⟩ := bind_ok.1 h
  cases h
  exact ⟨amount, hm⟩

/-! ## Mined bodies -/

/-- The bodies that the miners return for the options: those of a run that finds
one, and those of `build_mine_result` on the message that `init` made. -/
inductive Returned (S : Sha256Api) (options : Options) : List Byte → Prop
  | run {ticks : Nat → Tick} {random : Vector Byte 32} {body : List Byte} {n : Nat} :
      run S options ticks random = (.found body, n) → Returned S options body
  | gpu {random : Vector Byte 32} {rdata : List Byte} {nonce : U64} {vcpu : Nat} {expired : U32} {body : List Byte} :
      build_mine_result S (HDataEnv.init options.my_address options.seed random) options.complexity.toList rdata nonce
        vcpu expired = some body → Returned S options body

theorem mined_mined_data (h : Mined options H) (rdata : List Byte) (nonce : U64)
    (vcpu : Nat) (expired : U32) : Mined options (mined_data H rdata nonce vcpu expired) :=
  ⟨h.d1, h.d2, h.op, h.flags, h.myaddr, h.pseed, rfl⟩

theorem Returned.mined {S : Sha256Api} {body : List Byte} (h : Returned S options body) :
    ∃ H, Mined options H ∧ body = H.body.as_slice ∧ memcmp (sha256 H.as_slice) options.complexity.toList = .lt := by
  cases h with
  | run h => exact run_found h
  | gpu h =>
    unfold build_mine_result at h
    dsimp only at h
    split at h
    · next hlt =>
      cases h
      rw [S.final_one] at hlt
      exact ⟨_, mined_mined_data (mined_init options _) _ _ _ _, rfl, hlt⟩
    · cases h

theorem Mined.slice_hash (h : Mined options H) :
    slice_hash ⟨bytesToBits H.body.as_slice, []⟩ = .ok (ofBytes (sha256 H.as_slice)) := by
  rw [slice_hash_bytes _ (by simp [max_bits]), HDataEnv.as_slice, h.d1, h.d2, HData.as_slice_length]
  rfl

theorem Mined.flags_eq (h : Mined options H)
    (hw : options.my_address.workchain = -1 ∨ options.my_address.workchain = 0) :
    H.body.flags.toInt = options.my_address.workchain * 4 + options.my_address.bounceable.toNat := by
  rw [h.flags]
  rcases hw with hw | hw <;> rw [hw] <;> cases options.my_address.bounceable <;> rfl

/-- A returned body passes every check of the contract but that of the time, and
what the contract then sends goes to the address of the options. -/
theorem returned_accepted (S : Sha256Api) (options : Options) (body : List Byte) (h : Returned S options body)
    (hw : options.my_address.workchain = -1 ∨ options.my_address.workchain = 0) (env : Env) (data : DataCell)
    (st : Stored) (hst : load_stored data = .ok st) (hseed : st.seed = ofBytes options.seed.toList)
    (hcpl : st.pow_complexity = ofBytes options.complexity.toList) :
    body.length = 121 ∧ ∃ hash m,
      slice_hash ⟨bytesToBits body, []⟩ = .ok hash ∧ throw_unless 24 (hash < st.pow_complexity) = .ok () ∧
      load_mine ⟨bytesToBits body, []⟩ = .ok (m, ⟨[], []⟩) ∧ end_parse ⟨[], []⟩ = .ok () ∧
      throw_unless 25 (m.rseed = st.seed ∧ m.rdata1 = m.rdata2) = .ok () ∧
      check_proof_of_work env data ⟨bytesToBits body, []⟩ =
        (do ufits ((m.expire : Int) - env.now) 10; pay_out env st m) ∧
      m.flags / 4 = options.my_address.workchain ∧ m.flags % 2 = options.my_address.bounceable.toNat ∧
      m.whom = ofBytes options.my_address.addr.toList ∧
      ∀ eff, check_proof_of_work env data ⟨bytesToBits body, []⟩ = .ok eff →
        ∃ rest, eff.message.data =
          [false, true, options.my_address.bounceable, false, false, false, true, false, false] ++
            toBits 8 (options.my_address.workchain % 256).toNat ++ bytesToBits options.my_address.addr.toList ++ rest := by
  obtain ⟨H, hm, rfl, hlt⟩ := h.mined
  have hhash := Mined.slice_hash hm
  have h24 : throw_unless 24 (ofBytes (sha256 H.as_slice) < st.pow_complexity) = .ok () := by
    rw [memcmp_lt_iff _ _ (by simp), ← hcpl] at hlt
    simp [throw_unless, ensure, hlt]
  have h25 : throw_unless 25 ((mine_msg H.body).rseed = st.seed ∧ (mine_msg H.body).rdata1 = (mine_msg H.body).rdata2) =
      .ok () := by
    simp [throw_unless, ensure, mine_msg, hseed, hm.pseed, hm.rdata]
  have hcheck : check_proof_of_work env data ⟨bytesToBits H.body.as_slice, []⟩ =
      (do ufits (((mine_msg H.body).expire : Int) - env.now) 10; pay_out env st (mine_msg H.body)) := by
    unfold check_proof_of_work
    rw [hhash, ok_bind, hst, ok_bind, h24, ok_bind, load_mine_body, ok_bind]
    have hend : end_parse ⟨[], []⟩ = .ok () := rfl
    simp only [hend, h25, ok_bind]
  have hflags : (mine_msg H.body).flags = _ := Mined.flags_eq hm hw
  have hwhom : (mine_msg H.body).whom = ofBytes options.my_address.addr.toList := by rw [mine_msg, hm.myaddr]
  have hdiv : (mine_msg H.body).flags / 4 = options.my_address.workchain := by
    rw [hflags]; cases options.my_address.bounceable <;> simp; all_goals omega
  have hmod : (mine_msg H.body).flags % 2 = options.my_address.bounceable.toNat := by
    rw [hflags]; cases options.my_address.bounceable <;> simp; all_goals omega
  refine ⟨H.body.as_slice_length, _, _, hhash, h24, load_mine_body _, rfl, h25, hcheck, hdiv, hmod, hwhom, ?_⟩
  intro eff heff
  rw [hcheck] at heff
  obtain ⟨-, -, hpay⟩ := bind_ok.1 heff
  obtain ⟨amount, hmsg⟩ := pay_out_message hpay
  obtain ⟨rest, hdata⟩ := pay_message_bits hmsg
  refine ⟨rest, ?_⟩
  have haddr : toBits 256 (mine_msg H.body).whom = bytesToBits options.my_address.addr.toList := by
    rw [hwhom, ← ofBits_bytesToBits]
    simpa using toBits_ofBits (bytesToBits options.my_address.addr.toList)
  have hbounce : decide ((mine_msg H.body).flags % 2 = 1) = options.my_address.bounceable := by
    rw [hmod]; cases options.my_address.bounceable <;> rfl
  rw [hdata, hdiv, haddr, hbounce]

theorem toBits_eq_map (w n : Nat) : toBits w n = (List.range w).map fun i => n.testBit (w - 1 - i) := by
  induction w generalizing n with
  | zero => rfl
  | succ w ih =>
    rw [toBits, ih, List.range_succ, List.map_append]
    congr 1
    · refine List.map_congr_left fun i hi => ?_
      have hi : i < w := List.mem_range.1 hi
      rw [← Nat.testBit_add_one, show w - 1 - i + 1 = w + 1 - 1 - i by omega]
    · simp [Nat.testBit_zero, beq_eq_decide]

/-- A run whose first hash is below the complexity, and a giver that pays for it. -/
theorem returned_accepted_first_hash :
    let options : Options := ⟨⟨-1, true, Vector.replicate 32 7⟩, Vector.replicate 16 5, Vector.replicate 32 0xff, 1⟩
    let H := HDataEnv.init options.my_address options.seed (Vector.replicate 32 0)
    let body := (H.body.set_expire 1000).as_slice
    let xdata := DataCell.mk false (toBits 4 1 ++ toBits 8 100 ++ toBits 32 1 ++ toBits 8 10 ++ toBits 8 250) [] ⟨0⟩ [] []
    let data := DataCell.mk false (toBits 64 0 ++ (toBits 256 0 ++ (bytesToBits options.seed.toList ++
      (bytesToBits options.complexity.toList ++ toBits 32 100)))) [xdata] ⟨0⟩ [] []
    run absorbing options (fun _ => ⟨false, false, 100⟩) (Vector.replicate 32 0) = (.found body, 0) ∧
    ∃ eff rest, check_proof_of_work ⟨100, 0⟩ data ⟨bytesToBits body, []⟩ = .ok eff ∧
      eff.message.data = [false, true, true, false, false, false, true, false, false] ++ toBits 8 (-1 % 256 : Int).toNat ++
        bytesToBits options.my_address.addr.toList ++ rest := by
  intro options H body xdata data
  have hrun : run absorbing options (fun _ => ⟨false, false, 100⟩) (Vector.replicate 32 0) = (.found body, 0) := by
    let s : RunState absorbing := ⟨{ H with body := H.body.set_expire 1000 }, ({ H with body := H.body.set_expire 1000 } : HDataEnv).head,
      H.head_back, 0, 0⟩
    have hcheck : run_check absorbing (fun _ => ⟨false, false, 100⟩) 0 ⟨H, absorbing.init, H.head_back, 0, 0⟩ = .ok s := rfl
    have hhash : run_hash absorbing s = sha256 s.H.as_slice := run_hash_eq rfl
    -- The digest, block by block.
    have hfirst : compress H0 (block (pad s.H.as_slice) 0) =
        #v[0x42a1d76d, 0x97b63601, 0x0a0c82cd, 0x947d17ab, 0x98e332e7, 0xcbd48f40, 0x0d8594ef, 0x88c0e5c6] := by decide +kernel
    have hsecond : compress #v[0x42a1d76d, 0x97b63601, 0x0a0c82cd, 0x947d17ab, 0x98e332e7, 0xcbd48f40, 0x0d8594ef, 0x88c0e5c6]
        (block (pad s.H.as_slice) 1) =
        #v[0xfde31954, 0xc417d45b, 0x0c52c634, 0x0840896a, 0x12449598, 0xbcd0969f, 0x9c01466b, 0xac46f207] := by decide +kernel
    have hlt : memcmp (sha256 s.H.as_slice) options.complexity.toList = .lt := by
      rw [sha256, hashWords_of_three_blocks s.H.as_slice (by simp) (by simp), hfirst, hsecond]
      decide +kernel
    change run_loop absorbing options (fun _ => ⟨false, false, 100⟩) 1 0 ⟨H, absorbing.init, H.head_back, 0, 0⟩ = _
    rw [run_loop, hcheck]
    dsimp only
    rw [hhash, if_pos hlt]
    rfl
  let st : Stored := ⟨ofBits (toBits 64 0), ofBits (toBits 256 0), ofBits (bytesToBits options.seed.toList),
    ofBits (bytesToBits options.complexity.toList), ⟨toBits 32 100, [xdata]⟩⟩
  have hst : load_stored data = .ok st := load_stored_append [xdata] (by simp) (by simp) (by simp) (by simp) _ _ _
  obtain ⟨-, hash, m, -, -, hm, -, -, hcheck, -, -, -, hmsg⟩ := returned_accepted absorbing options body
    (.run hrun) (.inl rfl) ⟨100, 0⟩ data st hst (by simp only [st, ofBits_bytesToBits]) (by simp only [st, ofBits_bytesToBits])
  rw [load_mine_body] at hm
  cases hm
  have hpay : (pay_out ⟨100, 0⟩ st (mine_msg (H.body.set_expire 1000))).toOption.isSome = true := by
    simp only [pay_out, pay_message, store_grams, store_int, store_uint, toBits_eq_map]
    decide +kernel
  have hfits : ufits (((mine_msg (H.body.set_expire 1000)).expire : Int) - (100 : Nat)) 10 = .ok () := by decide +kernel
  obtain ⟨eff, heff⟩ := exists_ok_of_isSome hpay
  rw [hfits, ok_bind, heff] at hcheck
  obtain ⟨rest, hrest⟩ := hmsg eff hcheck
  exact ⟨hrun, eff, rest, hcheck, hrest⟩

end Ton.Giver
