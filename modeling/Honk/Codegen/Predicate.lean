import Honk.Codegen.Fragment

namespace Honk.Codegen

open Honk.Lib Honk.Lib.Bpf Honk.Routing AsmM
open Function (update update_of_ne update_self)
open List hiding Vector

variable {fds : RoutingMapFds} {z : Assembler} {prog : List Insn} {host : MapHost fds} {input : RoutingInput}
  {on : Bool} {mask : BitVec 32} {held : FactKind → Bool} {out : ℕ → BitVec 32} {regs : ℕ → Value Block}
  {mem : Mem Block} {a b : Assembler} {u : Unit} {Q : State Block → Prop} {onTrue onFalse : Label}

theorem factBit_eq (kind : FactKind) (id : ℕ) : host.factBit input kind id = ((host.fact input kind).getD .zero).bit id := by
  rw [MapHost.factBit]
  cases host.fact input kind with
  | some routing => rfl
  | none =>
    rw [Option.any_none, Option.getD_none, DomainRouting.bit, DomainRouting.zero, getD_eq_getElem?_getD,
      Vector.toList_replicate, getElem?_replicate]
    split <;> simp

def nameAt (input : RoutingInput) (bytes : List Byte) (offset : ℕ) : Bool :=
  decide (offset + bytes.length ≤ input.pnameLen.toNat) && decide ((input.pname.toList.drop offset).take bytes.length = bytes)

variable {bytes : List Byte}

theorem take_drop_eq_iff {text : List Byte} (h : offset + bytes.length ≤ text.length) :
    (text.drop offset).take bytes.length = bytes ↔ ∀ e ∈ bytes.zipIdx, text.getD (offset + e.2) 0 = e.1 := by
  have hl : ((text.drop offset).take bytes.length).length = bytes.length := by
    rw [length_take, length_drop]
    omega
  constructor
  · intro heq e he
    obtain ⟨hi, hb⟩ := mem_zipIdx' he
    rw [hb, getD_eq_getElem?_getD, getElem?_eq_getElem (by omega), Option.getD_some]
    have := getElem_of_eq heq (i := e.2) (by omega)
    rwa [getElem_take, getElem_drop] at this
  intro ha
  apply ext_getElem hl
  intro i h1 h2
  have := ha (bytes[i], i) (mem_zipIdx_iff_getElem?.mpr (getElem?_eq_getElem h2))
  rw [getD_eq_getElem?_getD, getElem?_eq_getElem (by dsimp only; omega), Option.getD_some] at this
  rw [getElem_take, getElem_drop, this]

theorem exists_nameAt_iff (input : RoutingInput) (hl : bytes.length ≤ 48) :
    (∃ offset < 48 - bytes.length + 1, nameAt input bytes offset = true) ↔ bytes <:+: input.pname.toList.take input.pnameLen.toNat := by
  have hp : input.pname.toList.length = 48 := Vector.length_toList
  simp only [nameAt, Bool.and_eq_true, decide_eq_true_eq]
  constructor
  · rintro ⟨offset, hlt, hf, he⟩
    refine ⟨input.pname.toList.take offset, (input.pname.toList.take input.pnameLen.toNat).drop (offset + bytes.length), ?_⟩
    have hs : ∀ l : List Byte, l.take offset ++ (l.drop offset).take bytes.length ++ l.drop (offset + bytes.length) = l := by
      intro l
      rw [← take_add, take_append_drop]
    have h1 : (input.pname.toList.take input.pnameLen.toNat).take offset = input.pname.toList.take offset := by
      rw [take_take, Nat.min_eq_left (by omega)]
    have h2 : ((input.pname.toList.take input.pnameLen.toNat).drop offset).take bytes.length = bytes := by
      rw [drop_take, take_take, Nat.min_eq_left (by omega), he]
    have := hs (input.pname.toList.take input.pnameLen.toNat)
    rwa [h1, h2] at this
  rintro ⟨s, t, hst⟩
  have ht := congrArg List.length hst
  simp only [length_append, length_take, hp] at ht
  refine ⟨s.length, by omega, by omega, ?_⟩
  have h2 : ((input.pname.toList.take input.pnameLen.toNat).drop s.length).take bytes.length = bytes := by
    rw [← hst, append_assoc, drop_left, take_left]
  rwa [drop_take, take_take, Nat.min_eq_left (by omega)] at h2

theorem Inv.pname_byte (hi : Holds z host input on mask held out regs mem) (i : ℕ) (h : i < 48) :
    mem .input (inputPname + i) = input.pname.toList.getD i 0 := by
  rw [← hi.read_pname, readMem, getD_eq_getElem?_getD, getElem?_map, getElem?_range h]
  rfl

theorem pname_any_eq : (host.view input).pname.any (fun pname => decide (bytes <:+: pname)) =
      (input.pnameLen != 0 && decide (bytes <:+: input.pname.toList.take input.pnameLen.toNat)) := by
  change Option.any _ (if input.pnameLen = 0 then none else some _) = _
  by_cases h0 : input.pnameLen = 0
  · rw [if_pos h0, h0]
    rfl
  · rw [if_neg h0, Option.any_some, bne_iff_ne.mpr h0, Bool.true_and]

theorem pname_any_eq_cons (h : bytes ≠ []) : (host.view input).pname.any (fun pname => decide (bytes <:+: pname)) =
      decide (bytes <:+: input.pname.toList.take input.pnameLen.toNat) := by
  rw [pname_any_eq]
  by_cases h0 : input.pnameLen = 0
  · rw [h0]
    simp [h]
  · rw [bne_iff_ne.mpr h0, Bool.true_and]

def PredicateOk (held : FactKind → Bool) : KernelPredicate → Prop
  | .domain id => id < 256 ∧ held .domain = true
  | .destinationIp id | .sourceIp id | .mac id => id < 256
  | .processName names => ∀ name ∈ names, name.length ≤ 48
  | _ => True

section

variable (hz : Linked z prog)
include hz

theorem leads_portRange {range : PortRange} {port : BitVec 32} (h : Emit z (do
      let next ← label
      let inside ← label
      jump bpfJge 0 (range.start.zeroExtend 32) inside
      ja next
      AsmM.bind inside
      jump bpfJgt 0 (range.end.zeroExtend 32) next
      ja onTrue
      AsmM.bind next) a u b)
    (h0 : regs 0 = .scalar (port.setWidth 64))
    (kin : range.containsNat port.toNat = true → ∀ t, z.addr onTrue = some t → Runs host prog Q t regs mem)
    (kout : range.containsNat port.toNat = false → Runs host prog Q b.pc regs mem) :
    Runs host prog Q a.pc regs mem := by
  simp only [emit_bind_iff] at h
  obtain ⟨next, _, h1, inside, _, h2, _, _, h3, _, _, h4, _, _, h5, _, _, h6, _, _, h7, h8⟩ := h
  have hw : ∀ v : BitVec 16, (v.zeroExtend 32).toNat = v.toNat := by
    intro v
    rw [BitVec.zeroExtend, BitVec.toNat_setWidth, Nat.mod_eq_of_lt (by omega)]
  have hs : ∀ v : BitVec 16, (v.zeroExtend 32).toNat < 2 ^ 31 := by
    intro v
    rw [hw]
    omega
  apply leads_label h1
  apply leads_label h2
  apply leads_jump hz h3 .ge rfl (by rw [h0]; exact congrArg some (eval_ge_small port (hs range.start)))
  · intro hg t ht
    apply leads_at_label hz h5 ht
    apply leads_jump hz h6 .gt rfl (by rw [h0]; exact congrArg some (eval_gt_small port (hs range.end)))
    · intro hgt t ht
      apply leads_at_label hz h8 ht
      apply kout
      rw [hw] at hgt
      simp only [PortRange.containsNat, Bool.and_eq_false_iff, decide_eq_false_iff_not]
      right
      simpa using hgt
    intro hl
    apply leads_ja hz h7
    apply kin
    rw [hw] at hg hl
    simp only [PortRange.containsNat, Bool.and_eq_true, decide_eq_true_eq]
    exact ⟨by simpa using hg, by simpa using hl⟩
  intro hlt
  apply leads_ja hz h4
  intro t ht
  apply leads_at_label hz h8 ht
  apply kout
  rw [hw] at hlt
  simp only [PortRange.containsNat, Bool.and_eq_false_iff, decide_eq_false_iff_not]
  left
  simpa using hlt

/-- A chain of tests goes to `onTrue` at the first that holds, and to `onFalse` past the last. -/
theorem leads_any {test : α → AsmM Unit} (p : α → Bool) (K : (ℕ → Value Block) → Prop)
    (h : Emit z (do forEach test items; ja onFalse) a u b) (hk : K regs)
    (cont : ∀ t, z.addr (if items.any p then onTrue else onFalse) = some t → ∀ regs', K regs' → Runs host prog Q t regs' mem)
    (step : ∀ item ∈ items, ∀ a u b regs, Emit z (test item) a u b → K regs →
      (p item = true → ∀ t, z.addr onTrue = some t → ∀ regs', K regs' → Runs host prog Q t regs' mem) →
      (p item = false → ∀ regs', K regs' → Runs host prog Q b.pc regs' mem) → Runs host prog Q a.pc regs mem) :
    Runs host prog Q a.pc regs mem := by
  obtain ⟨_, _, h1, h2⟩ := emit_bind_iff.mp h
  apply leads_forEach _ (fun done regs' mem' => mem' = mem ∧ K regs' ∧ ∀ item ∈ done, p item = false) items _ h1
  · exact ⟨rfl, hk, by simp⟩
  · rintro regs' _ ⟨rfl, hk', hn⟩
    apply leads_ja hz h2
    intro t ht
    apply cont t _ _ hk'
    rwa [if_neg (by simpa using hn)]
  rintro done item rest hs a u b regs' _ h ⟨rfl, hk', hn⟩ k
  have hm : item ∈ items := by
    rw [← hs]
    simp
  apply step item hm _ _ _ _ h hk'
  · intro hp t ht
    apply cont t
    rwa [if_pos (any_eq_true.mpr ⟨item, hm, hp⟩)]
  intro hp regs'' hk''
  apply k
  refine ⟨rfl, hk'', fun x hx => ?_⟩
  rcases mem_append.mp hx with hx | hx
  · exact hn x hx
  · rwa [mem_singleton.mp hx]

variable (hi : Holds z host input on mask held out regs mem)
include hi

theorem leads_emitFactBit {kind : FactKind} {id : ℕ}
    (h : Emit z (emitFactBit kind id onTrue onFalse) a u b)
    (hk : held kind = true) (hid : id < 256)
    (cont : ∀ t, z.addr (if host.factBit input kind id then onTrue else onFalse) = some t → ∀ regs',
      Holds z host input on mask held out regs' mem → Runs host prog Q t regs' mem) :
    Runs host prog Q a.pc regs mem := by
  simp only [emitFactBit, emit_bind_iff] at h
  obtain ⟨_, _, h1, _, _, h2, _, _, h3, h4⟩ := h
  have hb := area_bounds kind
  have hw : word mem .stack (0 + (kind.area + ((id / 32 * 4 : ℕ) : ℤ))) =
      ((host.fact input kind).getD .zero).bitmap.toList.getD (id / 32) 0 := by
    rw [zero_add, Nat.mul_comm, hi.area_word kind hk (id / 32) (by omega)]
  apply leads_ldxW hz h1 hi.r10 (valid_stack _ _ (by omega))
  rw [hw]
  apply leads_andImm hz h2 (update_self ..)
  rw [setWidth_and_signExtend]
  apply leads_branch hz h3 h4 rfl (by rw [update_self]; exact congrArg some (eval_ne_zero _))
  intro t ht
  apply cont t _ _ ((hi.scratch 2 _ (by omega)).scratch 2 _ (by omega))
  rwa [and_one_shiftLeft _ (Nat.mod_lt _ (by omega)), ← DomainRouting.bit, ← factBit_eq] at ht

theorem leads_emitFactBitLazy {kind : FactKind} {id : ℕ} (h : Emit z (emitFactBitLazy kind id onTrue onFalse fds) a u b)
    (hd : kind ≠ .domain) (hid : id < 256)
    (cont : ∀ t, z.addr (if host.factBit input kind id then onTrue else onFalse) = some t → ∀ mask' held' regs' mem',
      Holds z host input on mask' held' out regs' mem' → held' .domain = held .domain →
      Runs host prog Q t regs' mem') :
    Runs host prog Q a.pc regs mem := by
  simp only [emitFactBitLazy, emit_bind_iff] at h
  obtain ⟨resolved, _, h1, _, _, h2, _, _, h3, _, _, h4, _, c, h5, h6⟩ := h
  have hs : kind.index - 1 < 3 := by cases kind <;> decide
  have kresolved : ∀ mask' held' regs' mem', Holds z host input on mask' held' out regs' mem' → held' kind = true →
      held' .domain = held .domain → Runs host prog Q c.pc regs' mem' := by
    intro mask' held' regs' mem' hi' hk' hdom
    apply leads_emitFactBit hz hi' h6 hk' hid
    exact fun t ht regs'' hi'' => cont t ht mask' held' regs'' mem' hi'' hdom
  have hr8 : regs ready = .scalar (mask.setWidth 64) := hi.r8
  apply leads_label h1
  apply leads_jump hz h2 .set rfl (by rw [hr8]; exact congrArg some (eval_set_shiftLeft mask (by omega)))
  · intro hb t ht
    exact leads_at_label hz h5 ht (kresolved mask held regs mem hi (hi.marked kind hd hb) rfl)
  intro hb
  apply leads_emitFactLookup hz (hi.forget kind hb) h3 (update_self ..)
  intro regs' mem' hi'
  apply leads_orImm hz h4 hi'.r8
  apply leads_bind hz h5
  rw [setWidth_or_small (by revert hs; generalize kind.index - 1 = i; intro h; interval_cases i <;> decide)]
  rw [finalIfPresent, if_neg (fun hc => hd hc.1)] at hi'
  apply kresolved _ _ _ _ (hi'.mark_ready kind hd (update_self ..)) (update_self ..)
  rw [update_of_ne (Ne.symm hd), update_of_ne (Ne.symm hd)]

theorem leads_emitMaskScalar (h : Emit z (emitMaskScalar offset bits onTrue onFalse) a u b)
    (ho : 0 ≤ offset) (ho' : offset + 4 ≤ 128)
    (hf : word mem .input (0 + offset) = field)
    (cont : ∀ t, z.addr (if field &&& bits != 0 then onTrue else onFalse) = some t → ∀ regs',
      Holds z host input on mask held out regs' mem → Runs host prog Q t regs' mem) :
    Runs host prog Q a.pc regs mem := by
  simp only [emitMaskScalar, emit_bind_iff] at h
  obtain ⟨_, _, h1, _, _, h2, _, _, h3, h4⟩ := h
  apply leads_ldxW hz h1 hi.r6 (valid_input _ _ (by omega))
  rw [hf]
  apply leads_andImm hz h2 (update_self ..)
  rw [setWidth_and_signExtend]
  have hi0 := (hi.scratch 0 (.scalar (field.setWidth 64)) (by omega)).scratch 0 (.scalar ((field &&& bits).setWidth 64)) (by omega)
  apply leads_branch hz h3 h4 rfl (by rw [update_self]; exact congrArg some (eval_ne_zero _))
  exact fun t ht => cont t ht _ hi0

theorem leads_emitPortRanges {ranges : List PortRange} {offset : ℤ} {port : BitVec 32}
    (h : Emit z (emitPortRanges ranges offset onTrue onFalse) a u b)
    (ho : 0 ≤ offset) (ho' : offset + 4 ≤ 128)
    (hpo : word mem .input (0 + offset) = port)
    (cont : ∀ t, z.addr (if ranges.any (fun range => range.containsNat port.toNat) then onTrue else onFalse) = some t →
      ∀ regs', Holds z host input on mask held out regs' mem → Runs host prog Q t regs' mem) :
    Runs host prog Q a.pc regs mem := by
  obtain ⟨_, _, h1, h2⟩ := emit_bind_iff.mp h
  apply leads_ldxW hz h1 hi.r6 (valid_input _ _ (by omega))
  rw [hpo]
  have hi0 := hi.scratch 0 (.scalar (port.setWidth 64)) (by omega)
  apply leads_any hz _ (· = update regs 0 (.scalar (port.setWidth 64))) h2 rfl
  · rintro t ht _ rfl
    exact cont t ht _ hi0
  rintro range - a u b _ h rfl kin kout
  exact leads_portRange hz h (update_self ..) (fun hp t ht => kin hp t ht _ rfl) fun hp => kout hp _ rfl

theorem leads_emitDscp (h1 : Emit z (ldxW 0 6 inputDscp) a v c) (h2 : Emit z (do
      forEach (fun value : Byte => jump bpfJeq 0 (value.zeroExtend 32) onTrue) values
      ja onFalse) c u b)
    (cont : ∀ t, z.addr (if values.any (fun value => value.zeroExtend 32 == input.dscp) then onTrue else onFalse) = some t →
      ∀ regs', Holds z host input on mask held out regs' mem → Runs host prog Q t regs' mem) :
    Runs host prog Q a.pc regs mem := by
  have hd : word mem .input (0 + inputDscp) = input.dscp := hi.scalar 4 (by omega)
  apply leads_ldxW hz h1 hi.r6 (valid_input _ _ (by decide))
  rw [hd]
  have hi0 := hi.scratch 0 (.scalar (input.dscp.setWidth 64)) (by omega)
  apply leads_any hz _ (· = update regs 0 (.scalar (input.dscp.setWidth 64))) h2 rfl
  · rintro t ht _ rfl
    exact cont t ht _ hi0
  rintro value - a u b _ h rfl kin kout
  have hs : (value.zeroExtend 32).toNat < 2 ^ 31 := by
    rw [BitVec.zeroExtend, BitVec.toNat_setWidth, Nat.mod_eq_of_lt (by omega)]
    omega
  rw [BEq.comm] at kin kout
  apply leads_jump hz h .eq rfl (by rw [update_self]; exact congrArg some (eval_eq_small input.dscp _ hs))
  · exact fun hp t ht => kin hp t ht _ rfl
  · exact fun hp => kout hp _ rfl

theorem leads_emitNameAt
    (h : Emit z (emitNameAt bytes onTrue offset) a u b)
    (h4 : regs 4 = .scalar (input.pnameLen.setWidth 64)) (hf : offset + bytes.length ≤ 48)
    (kt : nameAt input bytes offset = true → ∀ t, z.addr onTrue = some t → ∀ regs', (∀ r, r ≠ 5 → regs' r = regs r) →
      Runs host prog Q t regs' mem)
    (kf : nameAt input bytes offset = false → ∀ regs', (∀ r, r ≠ 5 → regs' r = regs r) → Runs host prog Q b.pc regs' mem) :
    Runs host prog Q a.pc regs mem := by
  simp only [emitNameAt, emit_bind_iff] at h
  obtain ⟨next, _, h1, enough, _, h2, _, _, h3, _, _, h4', _, _, h5, _, _, h6, _, _, h7, h8⟩ := h
  have hp : input.pname.toList.length = 48 := Vector.length_toList
  have hn : (BitVec.ofNat 32 (offset + bytes.length)).toNat = offset + bytes.length := by
    rw [BitVec.toNat_ofNat, Nat.mod_eq_of_lt (by omega)]
  apply leads_label h1
  apply leads_label h2
  apply leads_jump hz h3 .ge rfl (by rw [h4]; exact congrArg some (eval_ge_small input.pnameLen (by rw [hn]; omega)))
  · intro hg t ht
    rw [hn, decide_eq_true_eq] at hg
    apply leads_at_label hz h5 ht
    apply leads_forEach _ (fun done regs' mem' => (∀ r, r ≠ 5 → regs' r = regs r) ∧ mem' = mem ∧
      ∀ e ∈ done, input.pname.toList.getD (offset + e.2) 0 = e.1) bytes.zipIdx _ h6
    · exact ⟨fun _ _ => rfl, rfl, by simp⟩
    · rintro regs' _ ⟨hr, rfl, ha⟩
      apply leads_ja hz h7
      intro t ht
      apply kt _ t ht regs' hr
      rw [nameAt, Bool.and_eq_true, decide_eq_true_eq, decide_eq_true_eq]
      exact ⟨hg, (take_drop_eq_iff (by omega)).mpr ha⟩
    rintro done e rest hs a u b regs' mem' h ⟨hr, rfl, ha⟩ k
    have hm : e ∈ bytes.zipIdx := by
      rw [← hs]
      simp
    have he := (mem_zipIdx' hm).1
    obtain ⟨_, _, hl, hj⟩ := emit_bind_iff.mp h
    have hb : mem' .input (0 + (inputPname + (offset : ℤ) + (e.2 : ℤ))) = input.pname.toList.getD (offset + e.2) 0 := by
      rw [← hi.pname_byte (offset + e.2) (by omega)]
      congr 1
      push_cast
      ring
    apply leads_ldxB hz hl ((hr 6 (by decide)).trans hi.r6)
      (valid_input _ _ (by simp only [inputPname]; omega))
    rw [hb]
    have hr' : ∀ v : Value Block, ∀ r, r ≠ 5 → update regs' 5 v r = regs r := fun v r h5 => by rw [update_of_ne h5, hr r h5]
    apply leads_jump hz hj .ne rfl (by rw [update_self]; exact congrArg some (eval_ne_byte e.1))
    · intro hne t ht
      apply leads_at_label hz h8 ht
      apply kf _ _ (hr' _)
      rw [nameAt, Bool.and_eq_false_iff, decide_eq_false_iff_not, decide_eq_false_iff_not]
      right
      rw [take_drop_eq_iff (by omega)]
      intro ha
      rw [ha e hm] at hne
      simp at hne
    intro heq
    apply k
    refine ⟨hr' _, rfl, fun e' he' => ?_⟩
    rcases mem_append.mp he' with he' | he'
    · exact ha e' he'
    · rw [mem_singleton.mp he']
      simpa using heq
  intro hlt
  rw [hn, decide_eq_false_iff_not] at hlt
  apply leads_ja hz h4'
  intro t ht
  apply leads_at_label hz h8 ht
  apply kf _ regs fun _ _ => rfl
  rw [nameAt, Bool.and_eq_false_iff, decide_eq_false_iff_not]
  exact Or.inl hlt

theorem leads_emitProcessName
    (h : Emit z (emitProcessName onTrue bytes) a u b) (hl : bytes.length ≤ 48)
    (kt : (host.view input).pname.any (fun pname => decide (bytes <:+: pname)) = true → ∀ t, z.addr onTrue = some t →
      ∀ regs', Holds z host input on mask held out regs' mem → Runs host prog Q t regs' mem)
    (kf : (host.view input).pname.any (fun pname => decide (bytes <:+: pname)) = false →
      ∀ regs', Holds z host input on mask held out regs' mem → Runs host prog Q b.pc regs' mem) :
    Runs host prog Q a.pc regs mem := by
  simp only [emitProcessName, emit_bind_iff] at h
  obtain ⟨nextName, _, h1, _, _, h2, h⟩ := h
  have hpl : word mem .input (0 + inputPnameLen) = input.pnameLen := hi.scalar 6 (by omega)
  apply leads_label h1
  apply leads_ldxW hz h2 hi.r6 (valid_input _ _ (by decide))
  rw [hpl]
  have hi4 := hi.scratch 4 (.scalar (input.pnameLen.setWidth 64)) (by omega)
  by_cases he : bytes = []
  · subst he
    rw [pname_any_eq, decide_eq_true nil_infix, Bool.and_true] at kt kf
    apply leads_jump hz h .ne rfl (by rw [update_self]; exact congrArg some (eval_ne_zero _))
    · exact fun ht t ha => kt ht t ha _ hi4
    · exact fun hf => kf hf _ hi4
  rw [if_neg (by simpa using he)] at h
  simp only [emit_bind_iff] at h
  obtain ⟨long, _, h3, _, _, h4, _, _, h5, _, _, h6, _, _, h7, h8⟩ := h
  have hna : (BitVec.ofNat 32 bytes.length).toNat = bytes.length := by rw [BitVec.toNat_ofNat, Nat.mod_eq_of_lt (by omega)]
  rw [pname_any_eq_cons he] at kt kf
  apply leads_label h3
  apply leads_jump hz h4 .ge rfl (by rw [update_self]; exact congrArg some (eval_ge_small input.pnameLen (by rw [hna]; omega)))
  · intro hg t ht
    apply leads_at_label hz h6 ht
    apply leads_forEach_range _ (fun i regs' mem' => mem' = mem ∧
      (∀ r, r ≠ 5 → regs' r = update regs 4 (.scalar (input.pnameLen.setWidth 64)) r) ∧
      ∀ offset < i, nameAt input bytes offset = false) _ _ h7
    · exact ⟨rfl, fun _ _ => rfl, by simp⟩
    · rintro regs' mem' ⟨rfl, hr, hn⟩
      apply leads_bind hz h8
      apply kf _ _ (hi4.of_regs regs' fun r h6 => hr r (by omega))
      rw [decide_eq_false_iff_not, ← exists_nameAt_iff input hl]
      rintro ⟨offset, hlt, hat⟩
      rw [hn offset hlt] at hat
      cases hat
    rintro i hlt a u b regs' mem' h ⟨rfl, hr, hn⟩ k
    have hfi : i + bytes.length ≤ 48 := by
      simp only [routingProcessMaxLen] at hlt
      omega
    apply leads_emitNameAt hz (hi4.of_regs regs' fun r h6 => hr r (by omega)) h ((hr 4 (by decide)).trans (update_self ..)) hfi
    · intro hat t ht regs'' hr'
      apply kt _ t ht _ (hi4.of_regs regs'' fun r h6 => (hr' r (by omega)).trans (hr r (by omega)))
      exact decide_eq_true ((exists_nameAt_iff input hl).mp ⟨i, hlt, hat⟩)
    intro hat regs'' hr'
    apply k
    refine ⟨rfl, fun r h5 => (hr' r h5).trans (hr r h5), fun offset ho => ?_⟩
    rcases Nat.lt_succ_iff_lt_or_eq.mp ho with ho | rfl
    · exact hn offset ho
    · exact hat
  intro hlt
  rw [hna, decide_eq_false_iff_not] at hlt
  apply leads_ja hz h5
  intro t ht
  apply leads_at_label hz h8 ht
  apply kf _ _ hi4
  rw [decide_eq_false_iff_not, ← exists_nameAt_iff input hl]
  rintro ⟨offset, -, hat⟩
  rw [nameAt, Bool.and_eq_true, decide_eq_true_eq] at hat
  omega

theorem leads_emitProcessNames
    (h : Emit z (emitProcessNames names onTrue onFalse) a u b)
    (hl : ∀ name ∈ names, name.length ≤ 48)
    (cont : ∀ t, z.addr (if (host.view input).pname.any (fun pname => names.any fun name => decide (name <:+: pname))
      then onTrue else onFalse) = some t → ∀ regs', Holds z host input on mask held out regs' mem →
      Runs host prog Q t regs' mem) :
    Runs host prog Q a.pc regs mem := by
  have hsw : (host.view input).pname.any (fun pname => names.any fun name => decide (name <:+: pname)) =
      names.any fun name => (host.view input).pname.any fun pname => decide (name <:+: pname) := by
    cases (host.view input).pname with
    | none => simp
    | some pname => rfl
  rw [hsw] at cont
  apply leads_any hz _ (Holds z host input on mask held out · mem) h hi cont
  exact fun name hm a u b regs h hi => leads_emitProcessName hz hi h (hl name hm)

theorem leads_emitPredicate {predicate : KernelPredicate}
    (h : Emit z (emitPredicate predicate onTrue onFalse fds) a u b)
    (ho : PredicateOk held predicate)
    (cont : ∀ t, z.addr (if predicate.eval (host.view input) then onTrue else onFalse) = some t →
      ∀ mask' held' regs' mem', Holds z host input on mask' held' out regs' mem' → held' .domain = held .domain →
      Runs host prog Q t regs' mem') :
    Runs host prog Q a.pc regs mem := by
  have keep : ∀ t, z.addr (if predicate.eval (host.view input) then onTrue else onFalse) = some t → ∀ regs',
      Holds z host input on mask held out regs' mem → Runs host prog Q t regs' mem :=
    fun t ht regs' hi' => cont t ht mask held regs' mem hi' rfl
  cases predicate with
  | domain id => exact leads_emitFactBit hz hi h ho.2 ho.1 keep
  | destinationIp id | sourceIp id | mac id => exact leads_emitFactBitLazy hz hi h (by decide) ho cont
  | destinationPort ranges => exact leads_emitPortRanges hz hi h (by decide) (by decide) (hi.scalar 1 (by omega)) keep
  | sourcePort ranges => exact leads_emitPortRanges hz hi h (by decide) (by decide) (hi.scalar 0 (by omega)) keep
  | protocol mask => exact leads_emitMaskScalar hz hi h (by decide) (by decide) (hi.scalar 2 (by omega)) keep
  | ipVersion mask => exact leads_emitMaskScalar hz hi h (by decide) (by decide) (hi.scalar 3 (by omega)) keep
  | dscp values =>
    obtain ⟨_, _, h1, h2⟩ := emit_bind_iff.mp h
    exact leads_emitDscp hz hi h1 h2 keep
  | processName names => exact leads_emitProcessNames hz hi h ho keep

end

end Honk.Codegen
