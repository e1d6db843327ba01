import Ton.Lib.Frontier
import Ton.Block.OutputQueue
/-!
# The merged queue is complete and in order

A node of a queue stands for the messages below it, and the heap for those that are still to come.
`split` only takes a node apart. Its time is the least below it, so a message at the front of the
heap comes before all that are not read yet.
-/

namespace Ton.Block
open BigEndian CellTraits CellBuilder Dict BitMap LabelParser Result Frontier List Option Function Multiset

variable {g : GetCreatedLt}

/-! ## The augmentation -/

theorem produces_bits {bs : List Bool} (hlen : bs.length = 64) : (aug_OutMsgQueue g).Produces (·.store_bits_bool bs) := by
  intro cb cb' h
  refine ⟨⟨bs, []⟩, by simp [store_bits_bool, can_extend_by, hlen, max_bits], ?_, fun rest => ?_⟩
  · rw [store_bits_bool_some h, append_nil]
  · rw [aug_OutMsgQueue, contents, CellSlice.append]
    dsimp only
    rw [if_pos (have_bits_append _ _ _ _ hlen), advance_append _ _ _ _ hlen]
    rfl

theorem aug_OutMsgQueue_lawful : (aug_OutMsgQueue g).Lawful where
  leaf v := by
    cases hr : v.prefetch_ref 0 with
    | none =>
      intro cb cb' h
      simp [aug_OutMsgQueue, hr] at h
    | some env =>
      cases hg : g env with
      | none =>
        intro cb cb' h
        simp [aug_OutMsgQueue, hr, hg] at h
      | some lt => simpa [aug_OutMsgQueue, hr, hg] using produces_bits (g := g) (toBits_length 64 lt.toNat)
  fork l r := by
    cases hl : l.prefetch_ulong 64 with
    | none =>
      intro cb cb' h
      simp [aug_OutMsgQueue, hl] at h
    | some x =>
      cases hr : r.prefetch_ulong 64 with
      | none =>
        intro cb cb' h
        simp [aug_OutMsgQueue, hl, hr] at h
      | some y => simpa [aug_OutMsgQueue, hl, hr] using produces_bits (g := g) (toBits_length 64 (min x y))
  empty := produces_bits (toBits_length 64 0)

/-- The time at the start of a slice is read back. -/
theorem fetch_lt {lt : Nat} (hlt : lt < 2 ^ 64) (bs : List Bool) (refs : List DataCell) :
    (⟨toBits 64 lt ++ bs, refs⟩ : CellSlice).fetch_ulong 64 = (some lt, ⟨bs, refs⟩) ∧
      (⟨toBits 64 lt ++ bs, refs⟩ : CellSlice).prefetch_ulong 64 = some lt := by
  have hhave : (⟨toBits 64 lt ++ bs, refs⟩ : CellSlice).have_bits 64 = true := have_bits_append _ _ _ _ (toBits_length 64 lt)
  have htake : ofBits ((toBits 64 lt ++ bs).take 64) = lt := by
    rw [take_left' (toBits_length 64 lt), ofBits_toBits, Nat.mod_eq_of_lt hlt]
  rw [CellSlice.fetch_ulong, CellSlice.prefetch_ulong, hhave, htake, advance_append _ _ _ _ (toBits_length 64 lt)]
  exact ⟨rfl, rfl⟩

variable {t : Trie CellSlice} {source : Int} {c : DataCell} {pre : List Bool} {n : Nat} {x y : Nat} {req_pfx : List Bool}

theorem eval_fork_times (hx : x < 2 ^ 64) (hy : y < 2 ^ 64) :
    (aug_OutMsgQueue g).eval_fork {} ⟨toBits 64 x, []⟩ ⟨toBits 64 y, []⟩ = some ⟨toBits 64 (min x y), []⟩ := by
  have hxt := (fetch_lt hx [] []).2
  have hyt := (fetch_lt hy [] []).2
  rw [append_nil] at hxt hyt
  simp [aug_OutMsgQueue, hxt, hyt, store_bits_bool, can_extend_by, max_bits]

/-! ## The messages below a node -/

/-- The time that a message has in its envelope. -/
def created_lt (g : GetCreatedLt) (v : CellSlice) : Option Nat := ((v.prefetch_ref 0).bind g).map (·.toNat)

/-- The message under a key. -/
def message (g : GetCreatedLt) (source : Int) (key : List Bool) (v : CellSlice) : MsgKeyValue :=
  ⟨some v, (created_lt g v).getD 0, source, key⟩

def messages (g : GetCreatedLt) (source : Int) : List Bool → Trie CellSlice → Multiset MsgKeyValue
  | pre, .leaf label v => {message g source (pre ++ label) v}
  | pre, .fork label l r => messages g source (pre ++ label ++ [false]) l + messages g source (pre ++ label ++ [true]) r

theorem mem_messages {kv : MsgKeyValue} (pre : List Bool) :
    kv ∈ messages g source pre t ↔ ∃ k v, t.lookup k = some v ∧ kv = message g source (pre ++ k) v := by
  induction t generalizing pre with
  | leaf label v =>
    rw [messages, Multiset.mem_singleton, Trie.lookup_leaf]
    constructor
    · rintro rfl
      exact ⟨label, v, update_self .., rfl⟩
    · rintro ⟨k, w, hk, rfl⟩
      by_cases hkl : k = label
      · subst hkl
        rw [update_self] at hk
        cases hk
        rfl
      · rw [update_of_ne hkl] at hk
        cases hk
  | fork label l r ihl ihr =>
    rw [messages, mem_add, ihl, ihr, Trie.lookup_fork]
    constructor
    · rintro (⟨k, v, hk, rfl⟩ | ⟨k, v, hk, rfl⟩)
      · exact ⟨label ++ false :: k, v, by rw [under_split_append]; exact hk, by simp⟩
      · exact ⟨label ++ true :: k, v, by rw [under_split_append]; exact hk, by simp⟩
    · rintro ⟨k, v, hk, rfl⟩
      obtain ⟨k₁, rfl, hk₁⟩ := under_some hk
      obtain ⟨b, k₂, rfl, hb⟩ := split_some hk₁
      cases b with
      | false => exact .inl ⟨k₂, v, hb, by simp⟩
      | true => exact .inr ⟨k₂, v, hb, by simp⟩

theorem messages_key {kv : MsgKeyValue} (h : kv ∈ messages g source pre t) :
    pre <+: kv.key ∧ kv.source = source := by
  obtain ⟨k, v, -, rfl⟩ := (mem_messages pre).1 h
  exact ⟨prefix_append _ _, rfl⟩

/-- What stands behind one bit does not stand behind the other. -/
theorem not_both {pre key : List Bool} {b : Bool} (h : pre ++ [b] <+: key) : ¬pre ++ [!b] <+: key := by
  intro h'
  have := prefix_of_prefix_length_le h h' (by simp)
  have heq := this.eq_of_length (by simp)
  simp at heq

theorem messages_nodup (source : Int) (t : Trie CellSlice) : ∀ pre, (messages g source pre t).Nodup := by
  induction t with
  | leaf label v => exact fun pre => Multiset.nodup_singleton _
  | fork label l r ihl ihr =>
    refine fun pre => nodup_add.2 ⟨ihl _, ihr _, Multiset.disjoint_left.2 fun {kv} h h' => ?_⟩
    exact not_both (messages_key h).1 (messages_key h').1

/-- The least time of some messages. -/
def Least (E : Multiset MsgKeyValue) (lt : Nat) : Prop := (∀ kv ∈ E, lt ≤ kv.lt) ∧ ∃ kv ∈ E, kv.lt = lt

theorem Least.add {E F : Multiset MsgKeyValue} (h : Least E x) (h' : Least F y) : Least (E + F) (min x y) := by
  obtain ⟨kx, hkx, hx⟩ := h.2
  obtain ⟨ky, hky, hy⟩ := h'.2
  refine ⟨fun kv hkv => ?_, ?_⟩
  · rcases mem_add.1 hkv with hkv | hkv
    · exact (Nat.min_le_left x y).trans (h.1 kv hkv)
    · exact (Nat.min_le_right x y).trans (h'.1 kv hkv)
  · rcases Nat.le_total x y with hxy | hxy
    · exact ⟨kx, mem_add.2 (.inl hkx), by rw [hx, Nat.min_eq_left hxy]⟩
    · exact ⟨ky, mem_add.2 (.inr hky), by rw [hy, Nat.min_eq_right hxy]⟩

theorem Least.unique {E : Multiset MsgKeyValue} (h : Least E x) (h' : Least E y) : x = y := by
  obtain ⟨kx, hkx, hx⟩ := h.2
  obtain ⟨ky, hky, hy⟩ := h'.2
  exact le_antisymm (hy ▸ h.1 ky hky) (hx ▸ h'.1 kx hkx)

abbrev QueueNode (g : GetCreatedLt) : Nat → Trie CellSlice → DataCell → Prop := Rep (.augmented (aug_OutMsgQueue g))

/-- The extra of a node is the least time below it. -/
theorem fold_least (h : QueueNode g n t c) (source : Int) :
    ∃ lt, (aug_OutMsgQueue g).fold t = some ⟨toBits 64 lt, []⟩ ∧ lt < 2 ^ 64 ∧ ∀ pre, Least (messages g source pre t) lt := by
  induction h with
  | @leaf label m v p c hv hn =>
    obtain ⟨-, e, he, -⟩ := hv
    cases hr : v.prefetch_ref 0 with
    | none => simp [aug_OutMsgQueue, hr] at he
    | some env =>
      cases hg : g env with
      | none => simp [aug_OutMsgQueue, hr, hg] at he
      | some lt =>
        refine ⟨lt.toNat, ?_, lt.isLt, fun pre => ?_⟩
        · simp [AugmentationData.fold, aug_OutMsgQueue, hr, hg, store_bits_bool, can_extend_by, max_bits, contents]
        · have hlt : (message g source (pre ++ label) v).lt = lt.toNat := by simp [message, created_lt, hr, hg]
          refine ⟨fun kv hkv => ?_, _, Multiset.mem_singleton_self _, hlt⟩
          rw [Multiset.mem_singleton.1 hkv, hlt]
  | @fork label m l r c1 c2 c p hl hr hp hn ihl ihr =>
    obtain ⟨x, hx, hxlt, hleastx⟩ := ihl
    obtain ⟨y, hy, hylt, hleasty⟩ := ihr
    refine ⟨min x y, ?_, lt_of_le_of_lt (Nat.min_le_left x y) hxlt, fun pre => (hleastx _).add (hleasty _)⟩
    simp only [AugmentationData.fold, hx, hy, bind_eq_bind, bind_some, eval_fork_times hxlt hylt, map_some, contents]

theorem message_is_fork {key : List Bool} {v : CellSlice} (hkey : key.length = max_key_len) : (message g source key v).is_fork = false :=
  decide_eq_false (not_lt.2 hkey.ge)

/-- A node and the messages below it. -/
inductive Stands (g : GetCreatedLt) : MsgKeyValue → Multiset MsgKeyValue → Prop
  | message {source : Int} {key : List Bool} {v : CellSlice} (hkey : key.length = max_key_len) :
    Stands g (message g source key v) {message g source key v}
  | fork {m : Nat} {l r : Trie CellSlice} {c1 c2 : DataCell} {source : Int} {key : List Bool} {lt : Nat}
    (hl : QueueNode g m l c1) (hr : QueueNode g m r c2) (hkey : key.length + 1 + m = max_key_len)
    (hleast : Least (messages g source (key ++ [false]) l + messages g source (key ++ [true]) r) lt) :
    Stands g ⟨some ⟨[], [c1, c2]⟩, lt, source, key⟩ (messages g source (key ++ [false]) l + messages g source (key ++ [true]) r)

variable {kv : MsgKeyValue} {E : Multiset MsgKeyValue}

theorem Stands.least (h : Stands g kv E) : Least E kv.lt := by
  cases h with
  | message hkey => exact ⟨fun kv hkv => (Multiset.mem_singleton.1 hkv ▸ le_rfl), _, Multiset.mem_singleton_self _, rfl⟩
  | fork hl hr hkey hleast => exact hleast

theorem Stands.key (h : Stands g kv E) {x : MsgKeyValue} (hx : x ∈ E) : kv.key <+: x.key ∧ x.source = kv.source := by
  cases h with
  | message hkey => exact Multiset.mem_singleton.1 hx ▸ ⟨prefix_rfl, rfl⟩
  | fork hl hr hkey hleast =>
    rcases mem_add.1 hx with hx | hx
    · exact ⟨(prefix_append _ _).trans (messages_key hx).1, (messages_key hx).2⟩
    · exact ⟨(prefix_append _ _).trans (messages_key hx).1, (messages_key hx).2⟩

/-- What `LabelParser` reads of a node. -/
theorem parse_node (h : QueueNode g n t c) (source : Int) :
    ∃ lp p lt, LabelParser.parse c n .chk_size = .ok lp ∧ lp.Reads t.label ⟨toBits 64 lt ++ p.bits, p.refs⟩ ∧ lt < 2 ^ 64 ∧
      ∀ pre, pre.length + n = max_key_len → Least (messages g source pre t) lt ∧
          Stands g ⟨some p, lt, source, pre ++ t.label⟩ (messages g source pre t) := by
  obtain ⟨lt, hfold, hlt, hleast⟩ := fold_least h source
  cases h with
  | @leaf label m v p c hv hn =>
    obtain ⟨lp, hlp, hread⟩ := hn.parse_ok (show label.length < label.length + m → Check.chk_size.Passes p from fun h => absurd hv.1 (by omega))
    obtain ⟨rfl, e, he, rfl⟩ := hv
    have hcontents : e.contents = ⟨toBits 64 lt, []⟩ := by
      have hfold' : (aug_OutMsgQueue g).fold (.leaf label v) = some e.contents := by rw [AugmentationData.fold, he, map_some]
      exact Option.some.inj (hfold'.symm.trans hfold)
    rw [hcontents] at hread
    refine ⟨lp, v, lt, hlp, hread, hlt, fun pre hpre => ⟨hleast pre, ?_⟩⟩
    have hm : (⟨some v, lt, source, pre ++ label⟩ : MsgKeyValue) = message g source (pre ++ label) v := by
      obtain ⟨x, hx, hxlt⟩ := (hleast pre).2
      rw [Multiset.mem_singleton.1 hx] at hxlt
      rw [← hxlt, message]
    rw [Trie.label, hm, messages]
    exact .message (by rw [length_append]; omega)
  | @fork label m l r c1 c2 c p hl hr hp hn =>
    obtain ⟨lp, hlp, hread⟩ := hn.parse_ok fun _ => Kind.augmented_passes hp
    obtain ⟨e1, e2, e, he1, he2, he, rfl⟩ := hp
    have hcontents : e.contents = ⟨toBits 64 lt, []⟩ := by
      obtain ⟨e1', hf1, hg1⟩ := get_node_extra_fold aug_OutMsgQueue_lawful hl
      obtain ⟨e2', hf2, hg2⟩ := get_node_extra_fold aug_OutMsgQueue_lawful hr
      rw [Nat.add_sub_cancel] at he1 he2
      obtain rfl : e1 = e1' := Option.some.inj (Except.ok.inj (he1.symm.trans hg1))
      obtain rfl : e2 = e2' := Option.some.inj (Except.ok.inj (he2.symm.trans hg2))
      have hfold' : (aug_OutMsgQueue g).fold (.fork label l r) = some e.contents := by
        simp [AugmentationData.fold, hf1, hf2, he]
      exact Option.some.inj (hfold'.symm.trans hfold)
    obtain ⟨hbits, hrefs⟩ : e.bits = toBits 64 lt ∧ e.refs = [] := ⟨congrArg CellSlice.bits hcontents, congrArg CellSlice.refs hcontents⟩
    rw [hbits, hrefs] at hread
    refine ⟨lp, ⟨[], [c1, c2]⟩, lt, hlp, by rw [append_nil]; exact hread, hlt, fun pre hpre => ⟨hleast pre, ?_⟩⟩
    exact .fork hl hr (by rw [Trie.label, length_append]; omega) (hleast pre)

/-! ## Taking a node apart -/

theorem Stands.children (h : Stands g kv E) (hfork : kv.is_fork = true) : ∃ c1 c2, kv.msg = some ⟨[], [c1, c2]⟩ := by
  cases h with
  | message hkey => exact absurd hfork (message_is_fork hkey ▸ Bool.false_ne_true)
  | fork => exact ⟨_, _, rfl⟩

theorem unpack_node_stands (h : QueueNode g n t c) (kv : MsgKeyValue) (hpre : pre.length + n = max_key_len) (hn : pre.length < max_key_len) :
    ∃ kv', kv.unpack_node pre (some c) = .ok (true, kv') ∧ Stands g kv' (messages g kv.source pre t) := by
  obtain ⟨lp, p, lt, hlp, hread, hlt, hstands⟩ := parse_node h kv.source
  refine ⟨_, ?_, (hstands pre hpre).2⟩
  obtain ⟨hlabel, hrest⟩ := hread.extract_label
  rw [MsgKeyValue.unpack_node, if_neg (Nat.not_le.2 hn), show max_key_len - pre.length = n by omega, hlp, ok_bind]
  dsimp only
  rw [hlabel, hrest, (fetch_lt hlt p.bits p.refs).1]
  refine if_neg fun hbad => hbad.2 ?_
  obtain ⟨c1, c2, hmsg⟩ := (hstands pre hpre).2.children hbad.1
  cases hmsg
  exact ⟨rfl, rfl⟩

theorem get_node_lt_least (h : QueueNode g n t c) (source : Int) (hpre : pre.length + n = max_key_len) :
    ∃ lt, MsgKeyValue.get_node_lt (some c) pre.length = .ok lt ∧ Least (messages g source pre t) lt := by
  obtain ⟨lp, p, lt, hlp, hread, hlt, hstands⟩ := parse_node h source
  refine ⟨lt, ?_, (hstands pre hpre).1⟩
  rw [MsgKeyValue.get_node_lt, if_neg (by omega), show max_key_len - pre.length = n by omega, hlp, ok_bind, hread.skip_label,
    (fetch_lt hlt p.bits p.refs).2]
  rfl

/-- No two messages of one queue have keys that differ in the last bit only. The nodes below such a
bit have no bits left, and `unpack_node` refuses them. -/
def Apart (E : Multiset MsgKeyValue) : Prop := ∀ x ∈ E, ∀ y ∈ E, x.source = y.source → x.key.dropLast = y.key.dropLast → x.key = y.key

theorem Apart.mono {F : Multiset MsgKeyValue} (h : Apart E) (hle : F ≤ E) : Apart F :=
  fun x hx y hy => h x (mem_of_le hle hx) y (mem_of_le hle hy)

/-- Below a fork some bits are left. -/
theorem Apart.children {m : Nat} {l r : Trie CellSlice} {c1 c2 : DataCell} {key : List Bool}
    (h : Apart (messages g source (key ++ [false]) l + messages g source (key ++ [true]) r)) (hl : QueueNode g m l c1)
    (hr : QueueNode g m r c2) : m ≠ 0 := by
  rintro rfl
  have hleaf : ∀ {t : Trie CellSlice} {c : DataCell} {m : Nat}, QueueNode g m t c → m = 0 → ∃ v, t = .leaf [] v := by
    intro t c m ht hm
    cases ht with
    | leaf hv hn => exact ⟨_, by rw [length_eq_zero_iff.1 (Nat.eq_zero_of_add_eq_zero_right hm)]⟩
    | fork => omega
  obtain ⟨v, rfl⟩ := hleaf hl rfl
  obtain ⟨w, rfl⟩ := hleaf hr rfl
  have hkeys := h _ (mem_add.2 (.inl (Multiset.mem_singleton_self _))) _ (mem_add.2 (.inr (Multiset.mem_singleton_self _))) rfl
    (by simp [message])
  simp [message] at hkeys

theorem split_stands (h : Stands g kv E) (hfork : kv.is_fork = true) (hE : Apart E) : ∃ first second F G, kv.split = .ok (true, first, second) ∧
    Stands g first F ∧ Stands g second G ∧ E = F + G := by
  cases h with
  | message hkey => exact absurd hfork (message_is_fork hkey ▸ Bool.false_ne_true)
  | @fork m l r c1 c2 source key lt hl hr hkey hleast =>
    have hm := hE.children hl hr
    have hlen : ∀ b : Bool, (key ++ [b]).length + m = max_key_len := fun b => by rw [length_append]; exact hkey
    have hlt : ∀ b : Bool, (key ++ [b]).length < max_key_len := fun b => by have := hlen b; omega
    obtain ⟨left_lt, hleft, hleastl⟩ := get_node_lt_least hl source (hlen false)
    have hside : ∀ (kv : MsgKeyValue) (b : Bool), kv.source = source →
        ∃ kv', kv.unpack_node (key ++ [b]) (some (if b then c2 else c1)) = .ok (true, kv') ∧
        Stands g kv' (messages g source (key ++ [b]) (if b then r else l)) := by
      rintro kv b rfl
      cases b with
      | false => exact unpack_node_stands hl kv (hlen false) (hlt false)
      | true => exact unpack_node_stands hr kv (hlen true) (hlt true)
    have href : ∀ b : Bool, (⟨[], [c1, c2]⟩ : CellSlice).prefetch_ref b.toNat = some (if b then c2 else c1) := fun b => by cases b <;> rfl
    obtain ⟨second, hsecond, hstands2⟩ := hside { source } (left_lt == lt) rfl
    obtain ⟨first, hfirst, hstands1⟩ := hside ⟨some ⟨[], [c1, c2]⟩, lt, source, key⟩ (!(left_lt == lt)) rfl
    have hsum : ∀ b : Bool, messages g source (key ++ [false]) l + messages g source (key ++ [true]) r =
        messages g source (key ++ [!b]) (if !b then r else l) + messages g source (key ++ [b]) (if b then r else l) := by
      intro b
      cases b with
      | false => exact add_comm _ _
      | true => rfl
    -- the least time is that of one of the children, and of the left one only if `left_lt` is it
    have htime : first.lt = lt := by
      obtain ⟨right_lt, -, hleastr⟩ := get_node_lt_least hr source (hlen true)
      have hmin := hleast.unique (hleastl.add hleastr)
      by_cases hsw : left_lt = lt
      · rw [beq_iff_eq.2 hsw] at hstands1
        exact hstands1.least.unique (hsw ▸ hleastl)
      · rw [beq_eq_false_iff_ne.2 hsw] at hstands1
        rw [hstands1.least.unique hleastr]
        omega
    refine ⟨first, second, _, _, ?_, hstands1, hstands2, hsum _⟩
    have hle : lt ≤ second.lt := by
      obtain ⟨x, hx, hxlt⟩ := hstands2.least.2
      rw [← hxlt]
      exact hleast.1 x (hsum (left_lt == lt) ▸ mem_add.2 (.inr hx))
    have hlen' : (key ++ [false]).length = key.length + 1 := length_append
    rw [hlen'] at hleft
    unfold MsgKeyValue.split
    simp only [hfork, Bool.not_true, Bool.false_eq_true, if_false, MsgKeyValue.key_len]
    rw [show (⟨[], [c1, c2]⟩ : CellSlice).prefetch_ref 0 = some c1 from rfl, hleft, ok_bind]
    simp only [href, hsecond, hfirst, ok_bind, Bool.not_true, Bool.false_eq_true, if_false, htime, beq_self_eq_true, Bool.true_and,
      decide_eq_true hle]

/-- The child on one side, and what of the messages is not below it. -/
theorem replace_with_child_stands (hreq : req_pfx.length < max_key_len) (h : Stands g kv E) (hlen : kv.key_len < req_pfx.length)
    (hstart : kv.key <+: req_pfx) : ∃ child F, kv.replace_with_child (req_pfx.getD kv.key_len false) = .ok (true, child) ∧ Stands g child F ∧
      kv.key_len < child.key_len ∧ E.filter (req_pfx <+: ·.key) = F.filter (req_pfx <+: ·.key) := by
  have hfork : kv.is_fork = true := decide_eq_true (hlen.trans hreq)
  obtain ⟨b, hb⟩ : ∃ b, req_pfx.getD kv.key_len false = b := ⟨_, rfl⟩
  have hpfx : kv.key ++ [b] <+: req_pfx := by
    obtain ⟨rest, rfl⟩ := hstart
    cases rest with
    | nil => simp [MsgKeyValue.key_len] at hlen
    | cons c rest =>
      obtain rfl : c = b := by simpa [MsgKeyValue.key_len, List.getD] using hb
      exact ⟨rest, by simp⟩
  rw [hb]
  cases h with
  | message hkey => exact absurd hfork (message_is_fork hkey ▸ Bool.false_ne_true)
  | @fork m l r c1 c2 source key lt hl hr hkey hleast =>
    have hlast : (key ++ [b]).length + m = max_key_len := by rw [length_append]; exact hkey
    have hlt : (key ++ [b]).length < max_key_len := lt_of_le_of_lt hpfx.length_le hreq
    have hother : ∀ t, (messages g source (key ++ [!b]) t).filter (req_pfx <+: ·.key) = 0 := fun t =>
      filter_eq_nil.2 fun x hx hx' => not_both (hpfx.trans hx') (messages_key hx).1
    have hreplace : ∀ kv' : MsgKeyValue, (⟨some ⟨[], [c1, c2]⟩, lt, source, key⟩ : MsgKeyValue).unpack_node (key ++ [b]) (some (if b then c2 else c1)) =
        .ok (true, kv') → (⟨some ⟨[], [c1, c2]⟩, lt, source, key⟩ : MsgKeyValue).replace_with_child b = .ok (true, kv') ∧ key.length < kv'.key_len := by
      intro kv' hkv'
      refine ⟨?_, lt_of_lt_of_le (by simp) (MsgKeyValue.unpack_node_key hkv').1.length_le⟩
      simp only [MsgKeyValue.replace_with_child, hfork]
      rw [if_neg (by simp [CellSlice.size, CellSlice.size_refs]), ← hkv']
      cases b <;> rfl
    cases b with
    | false =>
      obtain ⟨child, hchild, hstands⟩ := unpack_node_stands hl ⟨some ⟨[], [c1, c2]⟩, lt, source, key⟩ hlast hlt
      obtain ⟨hreplaced, hgrows⟩ := hreplace child hchild
      exact ⟨child, _, hreplaced, hstands, hgrows, by rw [filter_add, show true = !false from rfl, hother r, add_zero]⟩
    | true =>
      obtain ⟨child, hchild, hstands⟩ := unpack_node_stands hr ⟨some ⟨[], [c1, c2]⟩, lt, source, key⟩ hlast hlt
      obtain ⟨hreplaced, hgrows⟩ := hreplace child hchild
      exact ⟨child, _, hreplaced, hstands, hgrows, by rw [filter_add, show false = !true from rfl, hother l, zero_add]⟩

/-- The messages whose keys have the bits of `req_pfx`. -/
theorem replace_by_prefix_stands (hreq : req_pfx.length < max_key_len) (h : Stands g kv E) :
    ∃ found kv', kv.replace_by_prefix req_pfx = .ok (found, kv') ∧
      if found then Stands g kv' (E.filter (req_pfx <+: ·.key)) else E.filter (req_pfx <+: ·.key) = 0 := by
  induction hk : max_key_len - kv.key_len using Nat.strong_induction_on generalizing kv E with
  | _ k ih =>
    rw [MsgKeyValue.replace_by_prefix.eq_def]
    by_cases hmatch : req_pfx.take kv.key_len = kv.key.take req_pfx.length
    · rw [if_neg (not_not.2 hmatch)]
      by_cases hdone : kv.key_len ≥ req_pfx.length
      · rw [if_pos hdone]
        refine ⟨true, kv, rfl, ?_⟩
        rw [take_of_length_le hdone] at hmatch
        have hpfx : req_pfx <+: kv.key := prefix_iff_eq_take.2 hmatch
        rw [if_pos rfl, Multiset.filter_eq_self.2 fun x hx => hpfx.trans (h.key hx).1]
        exact h
      · rw [if_neg hdone]
        have hlen := Nat.lt_of_not_le hdone
        rw [take_of_length_le (show kv.key.length ≤ req_pfx.length from hlen.le)] at hmatch
        obtain ⟨child, F, hchild, hstands, hgrows, hfilter⟩ := replace_with_child_stands hreq h hlen (prefix_iff_eq_take.2 hmatch.symm)
        obtain ⟨found, kv', hrun, hres⟩ := ih _ (by omega) hstands rfl
        rw [← hfilter] at hres
        refine ⟨found, kv', ?_, hres⟩
        split
        · next e he => rw [hchild] at he; cases he
        · next c hc => rw [hchild] at hc; cases hc
        · next c hc =>
          rw [hchild] at hc
          cases hc
          exact hrun
    · rw [if_pos hmatch]
      refine ⟨false, kv, rfl, ?_⟩
      rw [if_neg Bool.false_ne_true, filter_eq_nil]
      intro x hx hpfx
      refine hmatch ?_
      rcases prefix_or_prefix_of_prefix hpfx (h.key hx).1 with hle | hle
      · rw [take_of_length_le (show req_pfx.length ≤ kv.key_len from hle.length_le)]
        exact prefix_iff_eq_take.1 hle
      · rw [take_of_length_le (l := kv.key) hle.length_le]
        exact (prefix_iff_eq_take.1 hle).symm

/-! ## Reading on -/

namespace OutputQueueMerger

variable {A : Algorithms} {heap : List MsgKeyValue}

/-- The front of the heap has the least time of all messages below the heap. -/
theorem least_top {top : MsgKeyValue} {rest : List MsgKeyValue} (h : Holds (Stands g) (top :: rest) E) (hA : IsHeap (top :: rest)) :
    Least E top.lt := by
  refine ⟨fun x hx => ?_, ?_⟩
  · obtain ⟨kv, hkv, F, hF, hxF⟩ := h.mem hx
    exact (hA.least hkv).trans (hF.least.1 x hxF)
  · obtain _ | ⟨htop, -⟩ := h
    obtain ⟨x, hx, hxlt⟩ := htop.least.2
    exact ⟨x, mem_add.2 (.inl hx), hxlt⟩

/-- Everything with the least time is taken, and what is left is later. -/
theorem load_loop_spec {lt : Nat} (added : List MsgKeyValue) (h : Holds (Stands g) heap E) (hA : IsHeap heap) (hE : Apart E)
    (hlt : heap ≠ [] → Least E lt) : ∃ heap' batch F, load_loop A lt heap added = .ok (true, heap', added ++ batch) ∧ E = batch + F ∧
      Holds (Stands g) heap' F ∧ IsHeap heap' ∧ (∀ kv ∈ batch, kv.lt = lt) ∧ (∀ kv ∈ F, lt < kv.lt) ∧ (heap ≠ [] → batch ≠ []) := by
  induction hw : weight heap using Nat.strong_induction_on generalizing heap E added with
  | _ w ih =>
    rw [load_loop.eq_def]
    cases heap with
    | nil =>
      cases h
      exact ⟨[], [], 0, by rw [append_nil], rfl, .nil, hA, by simp, by simp, fun h => absurd rfl h⟩
    | cons top rest =>
      have hleast := hlt (cons_ne_nil top rest)
      obtain rfl := hleast.unique (least_top h hA)
      dsimp only
      by_cases hfork : top.is_fork = true
      · rw [if_pos hfork]
        obtain _ | @⟨_, _, S, T, htop, hrest⟩ := h
        obtain ⟨first, second, F, G, hsplit, hF, hG, rfl⟩ := split_stands htop hfork (hE.mono (Multiset.le_add_right _ _))
        have hheap : Holds (Stands g) (A.push_heap (first :: rest ++ [second])) (F + G + T) := by
          rw [add_comm F G, add_assoc]
          exact ((Holds.cons hF hrest).snoc hG).perm (A.push_perm _).symm
        obtain ⟨heap', batch, F', hrun, hsum, hheap', hA', hbatch, hlater, hne⟩ := ih _ (hw ▸ weight_split A hsplit rest) added hheap
          (A.push _ _ (hA.replace (MsgKeyValue.split_key hsplit).2.2.2)) hE (fun _ => hleast) rfl
        refine ⟨heap', batch, F', ?_, hsum, hheap', hA', hbatch, hlater, fun _ => hne fun hnil => ?_⟩
        · split
          · next e he => rw [hsplit] at he; cases he
          · next he => rw [hsplit] at he; cases he
          · next he =>
            rw [hsplit] at he
            cases he
            exact hrun
        · have hlen := (A.push_perm (first :: rest ++ [second])).length_eq
          rw [hnil] at hlen
          simp at hlen
      · rw [if_neg hfork, if_neg (not_not.2 rfl)]
        obtain _ | @⟨_, _, S, T, htop, hrest⟩ := h
        have hS : S = {top} := by
          cases htop with
          | message hkey => rfl
          | @fork m l r c1 c2 source key lt hl hr hkey hleast' => exact absurd (decide_eq_true (show key.length < max_key_len by omega)) hfork
        subst hS
        have hheap := hrest.perm (A.pop_perm top rest).symm
        have hA' : IsHeap (A.pop_heap (top :: rest)) := A.pop top rest hA
        have hweight := weight_pop A top rest
        split
        · next hpop =>
          rw [hpop] at hheap
          cases hheap
          exact ⟨[], [top], 0, rfl, rfl, .nil, hpop ▸ hA', by simp, by simp, fun _ => cons_ne_nil _ _⟩
        · next next others hpop =>
          rw [hpop] at hheap hA' hweight
          by_cases hnext : next.lt ≤ top.lt
          · rw [if_pos hnext]
            have hsame : next.lt = top.lt := by
              obtain ⟨x, hx, hxlt⟩ := (least_top hheap hA').2
              exact le_antisymm hnext (hxlt ▸ hleast.1 x (mem_add.2 (.inr hx)))
            obtain ⟨heap', batch, F', hrun, hsum, hheap', hA', hbatch, hlater, -⟩ := ih _ (hw ▸ hweight) (added ++ [top]) hheap hA'
              (hE.mono (Multiset.le_add_left _ _)) (fun _ => hsame ▸ least_top hheap hA') rfl
            refine ⟨heap', top :: batch, F', ?_, ?_, hheap', hA', ?_, hlater, fun _ => cons_ne_nil _ _⟩
            · rw [hrun, append_assoc, singleton_append]
            · rw [hsum, ← add_assoc]
              rfl
            · intro kv hkv
              rcases List.mem_cons.1 hkv with rfl | hkv
              · rfl
              · exact hbatch kv hkv
          · rw [if_neg hnext]
            refine ⟨next :: others, [top], T, rfl, rfl, hheap, hA', by simp, fun kv hkv => ?_, fun _ => cons_ne_nil _ _⟩
            exact lt_of_lt_of_le (Nat.lt_of_not_le hnext) ((least_top hheap hA').1 kv hkv)

variable {m : OutputQueueMerger} {f : Nat → BitMap CellSlice} {pfx : List Bool} {neighbors : List McShardDescr} {l : List MsgKeyValue}

theorem load_spec (h : Holds (Stands g) m.heap E) (hA : IsHeap m.heap) (hE : Apart E) (hfailed : m.failed = false)
    (hne : m.heap ≠ []) : ∃ (heap' batch : List MsgKeyValue) (F : Multiset MsgKeyValue),
        m.load A = .ok (true, { m with heap := heap', msg_list := m.msg_list ++ batch }) ∧ E = batch + F ∧ Holds (Stands g) heap' F ∧
      IsHeap heap' ∧ batch ≠ [] ∧ batch.Pairwise (fun kv kv' => kv'.less kv = false) ∧ ∀ kv ∈ batch, ∀ kv' ∈ F, kv.lt < kv'.lt := by
  obtain ⟨msg_list, heap, pos, eof, failed⟩ := m
  dsimp only at h hA hfailed hne ⊢
  subst hfailed
  cases heap with
  | nil => exact absurd rfl hne
  | cons top rest =>
    obtain ⟨heap', batch, F, hrun, hsum, hheap', hA', hbatch, hlater, hbne⟩ := load_loop_spec (A := A) [] h hA hE fun _ => least_top h hA
    have hperm := A.sort_perm batch
    refine ⟨heap', A.sort batch, F, ?_, ?_, hheap', hA', fun hnil => hbne hne ?_, A.sorted batch, fun kv hkv kv' hkv' => ?_⟩
    · unfold load
      simp only [hrun, ok_bind, nil_append, Bool.false_eq_true, if_false, Bool.not_true]
    · rw [hsum, coe_eq_coe.2 hperm]
    · rw [hnil] at hperm
      exact hperm.nil_eq.symm
    · rw [hbatch kv (hperm.mem_iff.1 hkv)]
      exact hlater kv' hkv'

/-! ## The messages one after the other -/

theorem next_of_more (heof : m.eof = false) (hmore : m.pos + 1 < m.msg_list.length) :
    m.next A = .ok (true, { m with pos := m.pos + 1 }) := by
  rw [next, heof, if_neg Bool.false_ne_true]
  exact if_pos hmore

theorem next_of_load {m m' : OutputQueueMerger} {ok : Bool} (heof : m.eof = false) (hmore : ¬m.pos + 1 < m.msg_list.length)
    (hload : load A { m with pos := m.pos + 1 } = .ok (ok, m')) : m.next A = .ok (ok, { m' with eof := !ok }) := by
  rw [next, if_neg (heof ▸ Bool.false_ne_true)]
  dsimp only
  rw [if_neg hmore, hload, ok_bind]

/-- The state after `k` calls of `next`. -/
def nexts (A : Algorithms) : Nat → OutputQueueMerger → Except Exc OutputQueueMerger
  | 0, m => .ok m
  | k + 1, m => do
    let (_, m) ← m.next A
    nexts A k m

/-- From this state on the messages of the list are returned, each by `cur` after one more `next`, and then nothing. -/
def Returns (A : Algorithms) (m : OutputQueueMerger) (l : List MsgKeyValue) : Prop :=
  ∀ k, ∃ m', nexts A k m = .ok m' ∧ m'.failed = false ∧ m'.cur = l[k]?

theorem returns_nil (heof : m.eof = true) (hfailed : m.failed = false) : Returns A m [] := by
  intro k
  induction k with
  | zero => exact ⟨m, rfl, hfailed, by rw [cur, if_pos heof, getElem?_nil]⟩
  | succ k ih =>
    rw [nexts, next, if_pos heof]
    exact ih

theorem Returns.cons {m m' : OutputQueueMerger} {ok : Bool} (h : Returns A m' l) (hnext : m.next A = .ok (ok, m'))
    (hcur : m.cur = some kv) (hfailed : m.failed = false) : Returns A m (kv :: l) := by
  intro k
  cases k with
  | zero => exact ⟨m, rfl, hfailed, hcur⟩
  | succ k =>
    rw [nexts, hnext]
    exact h k

/-- What is still to come: the rest of the list, and what is below the heap. -/
structure Coming (g : GetCreatedLt) (A : Algorithms) (m : OutputQueueMerger) (l : List MsgKeyValue) (E : Multiset MsgKeyValue) : Prop where
  heap : Holds (Stands g) m.heap E
  is_heap : IsHeap m.heap
  apart : Apart E
  rest : m.msg_list.drop m.pos = l
  ne : l ≠ []
  sorted : l.Pairwise fun kv kv' => kv'.less kv = false
  before : ∀ kv ∈ l, ∀ kv' ∈ E, kv.lt < kv'.lt
  not_eof : m.eof = false
  not_failed : m.failed = false

theorem less_of_lt {kv kv' : MsgKeyValue} (h : kv.lt < kv'.lt) : kv'.less kv = false := by
  rw [MsgKeyValue.less, decide_eq_false (by omega), beq_eq_false_iff_ne.2 (by omega)]
  rfl

theorem Coming.returns (h : Coming g A m l E) :
    ∃ l', Returns A m l' ∧ (l' : Multiset MsgKeyValue) = l + E ∧ l'.Pairwise fun kv kv' => kv'.less kv = false := by
  induction hk : E.card + l.length generalizing m l E with
  | zero => exact absurd (length_eq_zero_iff.1 (Nat.eq_zero_of_add_eq_zero_left hk)) h.ne
  | succ k ih =>
    obtain ⟨kv, l, rfl⟩ := exists_cons_of_ne_nil h.ne
    have hget : m.msg_list[m.pos]? = some kv := by rw [← head?_drop, h.rest, head?_cons]
    have hcur : m.cur = some kv := by rw [cur, h.not_eof, if_neg Bool.false_ne_true, hget]
    have hpos : m.pos < m.msg_list.length := (List.getElem?_eq_some_iff.1 hget).1
    have hdrop : m.msg_list.drop (m.pos + 1) = l := by rw [← drop_drop, h.rest, drop_one, tail_cons]
    have hcons : ∀ l' : List MsgKeyValue, (l' : Multiset MsgKeyValue) = l + E → l'.Pairwise (fun kv kv' => kv'.less kv = false) →
        (kv :: l').Pairwise fun kv kv' => kv'.less kv = false := by
      refine fun l' hl' hp => pairwise_cons.2 ⟨fun x hx => ?_, hp⟩
      rcases mem_add.1 (hl' ▸ mem_coe.2 hx) with hx | hx
      · exact (pairwise_cons.1 h.sorted).1 x hx
      · exact less_of_lt (h.before kv List.mem_cons_self x hx)
    have hsum : ∀ l' : List MsgKeyValue, (l' : Multiset MsgKeyValue) = l + E →
        ((kv :: l' : List MsgKeyValue) : Multiset MsgKeyValue) = (kv :: l : List MsgKeyValue) + E := fun l' hl' => by
      rw [← cons_coe, hl', ← cons_coe, cons_add]
    by_cases hmore : m.pos + 1 < m.msg_list.length
    · obtain ⟨l', hret, hl', hp⟩ := ih (m := { m with pos := m.pos + 1 }) (l := l) (E := E)
        ⟨h.heap, h.is_heap, h.apart, hdrop, fun hnil => by simp [hnil] at hdrop; omega, (pairwise_cons.1 h.sorted).2,
          fun x hx => h.before x (List.mem_cons_of_mem kv hx), h.not_eof, h.not_failed⟩ (by rw [length_cons] at hk; omega)
      exact ⟨kv :: l', hret.cons (next_of_more h.not_eof hmore) hcur h.not_failed, hsum l' hl', hcons l' hl' hp⟩
    · obtain rfl : l = [] := by rw [← hdrop, drop_of_length_le (by omega)]
      by_cases hheap : m.heap = []
      · have hload : load A { m with pos := m.pos + 1 } = .ok (false, { m with pos := m.pos + 1 }) := by
          rw [load]
          simp only [hheap]
        have hE : E = 0 := by
          have hnil := hheap ▸ h.heap
          cases hnil
          rfl
        have hret : Returns A { m with pos := m.pos + 1, eof := !false } [] := returns_nil rfl h.not_failed
        exact ⟨[kv], hret.cons (next_of_load h.not_eof hmore hload) hcur h.not_failed, hsum [] (by rw [hE]; rfl), pairwise_singleton ..⟩
      · obtain ⟨heap', batch, F, hload, hE, hheap', hA', hne, hsorted, hlater⟩ := load_spec (m := { m with pos := m.pos + 1 }) h.heap h.is_heap
          h.apart h.not_failed hheap
        have hrest : (m.msg_list ++ batch).drop (m.pos + 1) = batch := drop_left' (by omega)
        obtain ⟨l', hret, hl', hp⟩ := ih (m := { m with pos := m.pos + 1, heap := heap', msg_list := m.msg_list ++ batch, eof := !true })
          ⟨hheap', hA', h.apart.mono (hE ▸ Multiset.le_add_left _ _), hrest, hne, hsorted, hlater, rfl, h.not_failed⟩
          (by rw [hE, card_add, coe_card, length_singleton] at hk; omega)
        replace hl' : (l' : Multiset MsgKeyValue) = ([] : List MsgKeyValue) + E := by rw [hl', hE]; exact (zero_add _).symm
        exact ⟨kv :: l', hret.cons (next_of_load h.not_eof hmore hload) hcur h.not_failed, hsum l' hl', hcons l' hl' hp⟩

/-! ## The queues of all neighbours -/

theorem add_root_spec {f : BitMap CellSlice} (hpfx : pfx.length < max_key_len) (src : Int) {outmsg_root : Option DataCell}
    (h : Root (.augmented (aug_OutMsgQueue g)) max_key_len f outmsg_root) (hheap : Holds (Stands g) heap E) :
    ∃ heap' F, add_root pfx src outmsg_root heap = .ok heap' ∧ Holds (Stands g) heap' (F + E) ∧ F.Nodup ∧
      ∀ kv, kv ∈ F ↔ ∃ v, f kv.key = some v ∧ pfx <+: kv.key ∧ kv = message g src kv.key v := by
  cases outmsg_root with
  | none =>
    obtain rfl : f = empty := h
    exact ⟨heap, 0, rfl, by rwa [zero_add], nodup_zero, fun kv => by simp [empty]⟩
  | some c =>
    obtain ⟨t, ht, rfl⟩ := h
    obtain ⟨kv₀, hunpack, hstands⟩ := unpack_node_stands ht { source := src } (show ([] : List Bool).length + _ = _ from Nat.zero_add _) (by decide)
    obtain ⟨found, kv', hfind, hres⟩ := replace_by_prefix_stands hpfx hstands
    refine ⟨if found then heap ++ [kv'] else heap, (messages g src [] t).filter (pfx <+: ·.key), ?_, ?_, (messages_nodup src t []).filter _,
      fun kv => ?_⟩
    · rw [add_root, hunpack, ok_bind]
      dsimp only
      rw [hfind, ok_bind]
    · cases found with
      | true => exact hheap.snoc hres
      | false => exact hres.symm ▸ (zero_add E).symm ▸ hheap
    · rw [Multiset.mem_filter, mem_messages]
      constructor
      · rintro ⟨⟨k, v, hk, rfl⟩, hstart⟩
        exact ⟨v, hk, hstart, rfl⟩
      · rintro ⟨v, hk, hstart, heq⟩
        exact ⟨⟨kv.key, v, hk, heq⟩, hstart⟩

/-- A message of one of the queues, with a key that starts with `pfx`. -/
def Message (g : GetCreatedLt) (f : Nat → BitMap CellSlice) (pfx : List Bool) (neighbors : List McShardDescr) (i : Nat)
    (kv : MsgKeyValue) : Prop :=
  ∃ j neighbor v, neighbors[j]? = some neighbor ∧ neighbor.is_disabled = false ∧ f (i + j) kv.key = some v ∧ pfx <+: kv.key ∧
    kv = message g (i + j : Nat) kv.key v

theorem message_cons {neighbor : McShardDescr} {i : Nat} :
    Message g f pfx (neighbor :: neighbors) i kv ↔
      (neighbor.is_disabled = false ∧ ∃ v, f i kv.key = some v ∧ pfx <+: kv.key ∧ kv = message g i kv.key v) ∨
          Message g f pfx neighbors (i + 1) kv := by
  constructor
  · rintro ⟨j, nb, v, hj, hnb, hv⟩
    cases j with
    | zero =>
      obtain rfl : neighbor = nb := Option.some.inj hj
      exact .inl ⟨hnb, v, hv⟩
    | succ j => exact .inr ⟨j, nb, v, hj, hnb, by rwa [Nat.add_right_comm]⟩
  · rintro (⟨hnb, v, hv⟩ | ⟨j, nb, v, hj, hnb, hv⟩)
    · exact ⟨0, neighbor, v, rfl, hnb, hv⟩
    · exact ⟨j + 1, nb, v, hj, hnb, by rwa [Nat.add_right_comm] at hv⟩

theorem add_roots_spec (hpfx : pfx.length < max_key_len) (neighbors : List McShardDescr) (i : Nat)
    (h : ∀ (j : Nat) (neighbor : McShardDescr), neighbors[j]? = some neighbor → neighbor.is_disabled = false →
      Root (.augmented (aug_OutMsgQueue g)) max_key_len (f (i + j)) neighbor.outmsg_root) (hheap : Holds (Stands g) heap E) :
    ∃ heap' F, add_roots pfx i neighbors heap = .ok heap' ∧ Holds (Stands g) heap' (F + E) ∧ F.Nodup ∧
      ∀ kv, kv ∈ F ↔ Message g f pfx neighbors i kv := by
  induction neighbors generalizing i heap E with
  | nil =>
    refine ⟨heap, 0, rfl, by rwa [zero_add], nodup_zero, fun kv => ⟨fun hkv => absurd hkv (notMem_zero kv), ?_⟩⟩
    rintro ⟨j, nb, v, hj, -⟩
    cases hj
  | cons neighbor neighbors ih =>
    have hadded : ∃ heap' F, (if neighbor.is_disabled then .ok heap else add_root pfx i neighbor.outmsg_root heap) = Except.ok heap' ∧
        Holds (Stands g) heap' (F + E) ∧ F.Nodup ∧
        ∀ kv, kv ∈ F ↔ neighbor.is_disabled = false ∧ ∃ v, f i kv.key = some v ∧ pfx <+: kv.key ∧ kv = message g i kv.key v := by
      cases hdis : neighbor.is_disabled with
      | true => exact ⟨heap, 0, rfl, by rwa [zero_add], nodup_zero, fun kv => by simp⟩
      | false =>
        obtain ⟨heap', F, hadd, hheap', hnodup, hmem⟩ := add_root_spec hpfx i (h 0 neighbor rfl hdis) hheap
        exact ⟨heap', F, hadd, hheap', hnodup, fun kv => (hmem kv).trans (by simp)⟩
    obtain ⟨heap₁, F, hadd, hheap₁, hnodup, hmem⟩ := hadded
    obtain ⟨heap', G, hrun, hheap', hnodup', hmem'⟩ := ih (i + 1) (fun j nb hj hnb => Nat.add_right_comm i j 1 ▸ h (j + 1) nb hj hnb) hheap₁
    refine ⟨heap', F + G, ?_, ?_, nodup_add.2 ⟨hnodup, hnodup', Multiset.disjoint_left.2 fun {kv} hF hG => ?_⟩, fun kv => ?_⟩
    · rw [add_roots, hadd, ok_bind, hrun]
    · rwa [add_comm F G, add_assoc]
    · -- the sources differ
      obtain ⟨-, v, -, -, heq⟩ := (hmem kv).1 hF
      obtain ⟨j, nb, w, -, -, -, -, heq'⟩ := (hmem' kv).1 hG
      have hsource := (congrArg MsgKeyValue.source heq).symm.trans (congrArg MsgKeyValue.source heq')
      simp only [message] at hsource
      omega
    · rw [mem_add, hmem, hmem', message_cons]

theorem common_pfx_length (queue_for : Shard.ShardIdFull) : (common_pfx queue_for).length < max_key_len := by
  rw [common_pfx, length_append, toBits_length, length_take, toBits_length, max_key_len]
  omega

theorem apart_of_roots
    (hroots : ∀ (i : Nat) (neighbor : McShardDescr), neighbors[i]? = some neighbor → neighbor.is_disabled = false →
      Root (.augmented (aug_OutMsgQueue g)) max_key_len (f i) neighbor.outmsg_root)
    (hlast : ∀ i k v w, f i (k ++ [false]) = some v → f i (k ++ [true]) = some w → False)
    (hmem : ∀ kv ∈ E, Message g f pfx neighbors 0 kv) : Apart E := by
  intro x hx y hy hsource hkey
  obtain ⟨j, nb, v, hj, hnb, hv, -, heqx⟩ := hmem x hx
  obtain ⟨j', nb', w, -, -, hw, -, heqy⟩ := hmem y hy
  obtain rfl : j = j' := by
    have h1 := congrArg MsgKeyValue.source heqx
    have h2 := congrArg MsgKeyValue.source heqy
    simp only [message] at h1 h2
    omega
  have hlen : ∀ {k u}, f (0 + j) k = some u → k ≠ [] := fun hk hnil => by
    have := Root.key_length Kind.augmented_fixed Kind.augmented_passes ((Nat.zero_add j).symm ▸ hroots j nb hj hnb) hk
    rw [hnil] at this
    cases this
  obtain ⟨k, b, hxk⟩ : ∃ k b, x.key = k ++ [b] := ⟨_, _, (dropLast_append_getLast (hlen hv)).symm⟩
  obtain ⟨k', b', hyk⟩ : ∃ k b, y.key = k ++ [b] := ⟨_, _, (dropLast_append_getLast (hlen hw)).symm⟩
  rw [hxk, hyk, dropLast_concat, dropLast_concat] at hkey
  subst hkey
  rw [hxk] at hv ⊢
  rw [hyk] at hw ⊢
  cases b with
  | false =>
    cases b' with
    | false => rfl
    | true => exact (hlast _ _ _ _ hv hw).elim
  | true =>
    cases b' with
    | false => exact (hlast _ _ _ _ hw hv).elim
    | true => rfl

/-- Every message of the queues that is for the shard is returned once, in the order of the times
and then of the hashes, and the merge ends without a failure. -/
theorem merges_in_order (A : Algorithms) (queue_for : Shard.ShardIdFull) (neighbors : List McShardDescr) (f : Nat → BitMap CellSlice)
    (hroots : ∀ (i : Nat) (neighbor : McShardDescr), neighbors[i]? = some neighbor → neighbor.is_disabled = false →
      Root (.augmented (aug_OutMsgQueue g)) max_key_len (f i) neighbor.outmsg_root)
    (hlast : ∀ i k v w, f i (k ++ [false]) = some v → f i (k ++ [true]) = some w → False) :
    ∃ m l, init A queue_for neighbors = .ok m ∧ Returns A m l ∧ l.Nodup ∧ l.Pairwise (fun kv kv' => kv'.less kv = false) ∧
      ∀ kv, kv ∈ l ↔ Message g f (common_pfx queue_for) neighbors 0 kv := by
  obtain ⟨heap, E, hrun, hheap, hnodup, hmem⟩ := add_roots_spec (common_pfx_length queue_for) neighbors 0
    (fun j nb hj hnb => (Nat.zero_add j).symm ▸ hroots j nb hj hnb) (show Holds (Stands g) [] 0 from .nil)
  rw [add_zero] at hheap
  have hE := apart_of_roots hroots hlast fun kv => (hmem kv).1
  have hheap' := hheap.perm (A.make_perm heap).symm
  cases heap with
  | nil =>
    refine ⟨{ heap := A.make_heap [], eof := true }, [], ?_, returns_nil rfl rfl, nodup_nil, .nil, fun kv => ?_⟩
    · rw [init, hrun]
      rfl
    · rw [← hmem]
      cases hheap
      simp
  | cons top rest =>
    have hne : A.make_heap (top :: rest) ≠ [] := fun hnil => by
      have hperm := A.make_perm (top :: rest)
      rw [hnil] at hperm
      cases hperm.nil_eq
    obtain ⟨heap', batch, F, hload, hsum, hheap', hA', hbne, hsorted, hlater⟩ := load_spec (A := A) (m := { heap := A.make_heap (top :: rest) })
      hheap' (A.make _) hE rfl hne
    obtain ⟨l, hret, hl, hp⟩ := Coming.returns (m := { heap := heap', msg_list := batch }) (l := batch)
      ⟨hheap', hA', hE.mono (hsum ▸ Multiset.le_add_left _ _), rfl, hbne, hsorted, hlater, rfl, rfl⟩
    rw [← hsum] at hl
    refine ⟨{ heap := heap', msg_list := batch }, l, ?_, hret, ?_, hp, fun kv => ?_⟩
    · rw [init, hrun, ok_bind]
      simp only [isEmpty_cons, Bool.false_eq_true, if_false, hload]
      rfl
    · rw [← coe_nodup, hl]
      exact hnodup
    · rw [← mem_coe, hl]
      exact hmem kv

/-! ## A queue with one message -/

theorem isHeap_mergeSort (l : List MsgKeyValue) : IsHeap (l.mergeSort fun a b => a.lt ≤ b.lt) := by
  intro i a b hi ha hb
  obtain ⟨hlen, rfl⟩ := List.getElem?_eq_some_iff.1 hb
  obtain ⟨hparent, rfl⟩ := List.getElem?_eq_some_iff.1 ha
  have hp : (l.mergeSort fun a b => decide (a.lt ≤ b.lt)).Pairwise fun a b => decide (a.lt ≤ b.lt) = true :=
    pairwise_mergeSort (by simp; omega) (by simp; omega) l
  exact of_decide_eq_true (pairwise_iff_getElem.1 hp _ _ hparent hlen (by omega))

/-- Sorted lists are heaps. -/
def by_sorting : Algorithms where
  make_heap l := l.mergeSort fun a b => a.lt ≤ b.lt
  push_heap l := l.mergeSort fun a b => a.lt ≤ b.lt
  pop_heap l := l.tail.mergeSort fun a b => a.lt ≤ b.lt
  make_perm l := mergeSort_perm l _
  push_perm l := mergeSort_perm l _
  pop_perm _ rest := mergeSort_perm rest _
  make := isHeap_mergeSort
  push _ _ _ := isHeap_mergeSort _
  pop _ _ _ := isHeap_mergeSort _
  sort l := l.mergeSort fun a b => !b.less a
  sort_perm l := mergeSort_perm l _
  sorted l := by
    refine (pairwise_mergeSort ?_ ?_ l).imp fun h => by simpa using h
    · intro a b c hab hbc
      simp only [MsgKeyValue.less, Bool.not_eq_true', Bool.or_eq_false_iff, decide_eq_false_iff_not, Bool.and_eq_false_iff, beq_eq_false_iff_ne] at *
      omega
    · intro a b
      simp only [MsgKeyValue.less, Bool.or_eq_true, Bool.not_eq_true', Bool.or_eq_false_iff, decide_eq_false_iff_not, Bool.and_eq_false_iff,
        beq_eq_false_iff_ne]
      omega

/-- Two neighbours have two messages each, of different times, and a third one is disabled. -/
theorem merges_in_order_two_queues : ∃ (g : GetCreatedLt) (queue : Option DataCell) (v w : CellSlice) (m : OutputQueueMerger) (l : List MsgKeyValue),
    init by_sorting ⟨0, Shard.rootShardId⟩ [⟨false, queue⟩, ⟨true, queue⟩, ⟨false, queue⟩] = .ok m ∧ Returns by_sorting m l ∧
      l.Pairwise (fun kv kv' => kv'.less kv = false) ∧ ∀ i ∈ ([0, 2] : List ℕ), message g i (List.replicate max_key_len false) v ∈ l ∧
        message g i (List.replicate 32 false ++ true :: List.replicate 319 false) w ∈ l := by
  obtain ⟨key, hkey⟩ : ∃ key, List.replicate max_key_len false = key := ⟨_, rfl⟩
  obtain ⟨key', hkey'⟩ : ∃ key, List.replicate 32 false ++ true :: List.replicate 319 false = key := ⟨_, rfl⟩
  -- the time is the number of bits of the envelope
  obtain ⟨g, hg⟩ : ∃ g : GetCreatedLt, (fun env => some (BitVec.ofNat 64 env.data.length)) = g := ⟨_, rfl⟩
  have hrun : satisfies (fun r => r.1 && r.2.2.2) (do
      let env ← CellBuilder.finalize {} false
      let env' ← CellBuilder.finalize ⟨[true], []⟩ false
      let p ← AugmentedDictionary.set ⟨aug_OutMsgQueue fun env => some (BitVec.ofNat 64 env.data.length), none, max_key_len⟩
        (List.replicate max_key_len false) ⟨[], [env']⟩ .Set
      let q ← p.1.set (List.replicate 32 false ++ true :: List.replicate 319 false) ⟨[], [env]⟩ .Set
      .ok (p.2, (env, env'), q)) = true := by
    decide +kernel
  rw [hg, hkey, hkey'] at hrun
  obtain ⟨⟨w₁, ⟨env, env'⟩, d, w⟩, hd, hw⟩ := exists_of_satisfies hrun
  obtain ⟨_, -, hd⟩ := bind_ok.1 hd
  obtain ⟨_, -, hd⟩ := bind_ok.1 hd
  obtain ⟨⟨d₁, _⟩, hset₁, hd⟩ := bind_ok.1 hd
  obtain ⟨_, hset, hd⟩ := bind_ok.1 hd
  cases hd
  obtain ⟨rfl, rfl⟩ := Bool.and_eq_true_iff.1 hw
  have hempty : AugmentedDictionary.Holds ⟨aug_OutMsgQueue g, none, max_key_len⟩ BitMap.empty :=
    ⟨rfl, show max_key_len ≤ max_key_bits by decide⟩
  have hlen : key.length = max_key_len := by rw [← hkey, length_replicate]
  have hlen' : key'.length = max_key_len := by
    rw [← hkey', length_append, length_cons, length_replicate, length_replicate]
    rfl
  obtain ⟨hholds₁, haug₁, hbits₁⟩ := hempty.set aug_OutMsgQueue_lawful hlen hset₁
  obtain ⟨hholds, haug, hbits⟩ := hholds₁.set (haug₁ ▸ aug_OutMsgQueue_lawful) (hlen'.trans hbits₁.symm) hset
  have hne : key' ≠ key := by
    rw [← hkey, ← hkey']
    decide
  have hlast : ∀ {k v}, update (update BitMap.empty key (some (⟨[], [env']⟩ : CellSlice))) key' (some ⟨[], [env]⟩) k = some v →
      k.getLast? = some false := by
    intro k v hk
    simp only [update_apply] at hk
    split_ifs at hk with h2 h1
    · rw [h2, ← hkey']
      rfl
    · rw [h1, ← hkey]
      rfl
    · cases hk
  obtain ⟨m, l, hinit, hret, -, hsorted, hmem⟩ := merges_in_order (g := g) by_sorting ⟨0, Shard.rootShardId⟩
    [⟨false, d.root_cell⟩, ⟨true, d.root_cell⟩, ⟨false, d.root_cell⟩]
    (fun _ => update (update BitMap.empty key (some ⟨[], [env']⟩)) key' (some ⟨[], [env]⟩))
    (fun i nb hnb hdis => by
      obtain ⟨hroot, -⟩ := hholds
      rw [haug, haug₁, hbits, hbits₁] at hroot
      rcases i with _ | _ | _ | i
      · cases hnb
        exact hroot
      · cases hnb
        cases hdis
      · cases hnb
        exact hroot
      · cases hnb)
    (fun i k v w h1 h2 => by
      have heq := hlast h2
      simp at heq)
  have hpfx : common_pfx ⟨0, Shard.rootShardId⟩ = List.replicate 32 false := by decide +kernel
  have hsub : common_pfx ⟨0, Shard.rootShardId⟩ <+: key := by
    rw [← hkey, hpfx]
    exact ⟨List.replicate 320 false, replicate_append_replicate ..⟩
  have hsub' : common_pfx ⟨0, Shard.rootShardId⟩ <+: key' := by
    rw [← hkey', hpfx]
    exact prefix_append _ _
  refine ⟨g, d.root_cell, ⟨[], [env']⟩, ⟨[], [env]⟩, m, l, hinit, hret, hsorted, fun i hi => ?_⟩
  have hnb : ∃ nb, [⟨false, d.root_cell⟩, ⟨true, d.root_cell⟩, ⟨false, d.root_cell⟩][i]? = some nb ∧ McShardDescr.is_disabled nb = false := by
    rcases mem_cons.1 hi with rfl | hi
    · exact ⟨_, rfl, rfl⟩
    · rw [List.mem_singleton.1 hi]
      exact ⟨_, rfl, rfl⟩
  obtain ⟨nb, hnb, hdis⟩ := hnb
  rw [hkey, hkey']
  exact ⟨(hmem _).2 ⟨i, nb, ⟨[], [env']⟩, hnb, hdis, (update_of_ne hne.symm ..).trans (update_self ..), hsub, by rw [Nat.zero_add]; rfl⟩,
    (hmem _).2 ⟨i, nb, ⟨[], [env]⟩, hnb, hdis, update_self .., hsub', by rw [Nat.zero_add]; rfl⟩⟩

end OutputQueueMerger

end Ton.Block
