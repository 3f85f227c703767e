import Honk.Codegen.Program

namespace Honk.Codegen

open Honk.Lib Honk.Lib.Bpf Honk.Routing
open List hiding Vector

variable {condition : KernelCondition}

section

variable (view : KernelView)

theorem holds_of_isEmpty (h : condition.predicate.isEmpty = true) : condition.holds view = condition.not := by
  have hf : condition.predicate.eval view = false := by
    cases hp : condition.predicate with
    | domain id | destinationIp id | sourceIp id | mac id => rw [hp] at h; cases h
    | destinationPort ranges | sourcePort ranges | dscp values =>
      rw [hp] at h
      rw [KernelPredicate.eval, List.isEmpty_iff.mp h, any_nil]
    | protocol mask | ipVersion mask =>
      rw [hp] at h
      rw [KernelPredicate.eval, eq_of_beq h]
      simp
    | processName names =>
      rw [hp] at h
      rw [KernelPredicate.eval, List.isEmpty_iff.mp h]
      cases view.pname <;> rfl
  rw [KernelCondition.holds, hf, Bool.false_bne]

variable (rule : KernelRule)

theorem matches_of_foldedFalse (h : rule.foldedFalse = true) : rule.matches view = false := by
  rw [KernelRule.foldedFalse, Bool.or_eq_true] at h
  rw [KernelRule.matches, Bool.and_eq_false_iff]
  rcases h with h | h
  · left
    rw [h]
    rfl
  right
  obtain ⟨condition, hm, hc⟩ := any_eq_true.mp h
  rw [Bool.and_eq_true] at hc
  rw [all_eq_false]
  refine ⟨condition, hm, ?_⟩
  rw [holds_of_isEmpty view hc.2]
  simpa using hc.1

theorem mem_runtimeConditions_iff (condition : KernelCondition) : (∃ entry ∈ rule.runtimeConditions, entry.2 = condition) ↔
      condition ∈ rule.conditions ∧ condition.predicate.isEmpty = false := by
  simp only [KernelRule.runtimeConditions, mem_append, mem_filter, mem_map]
  constructor
  · rintro ⟨_, ⟨⟨⟨e, he, rfl⟩, hl⟩, -⟩ | ⟨⟨⟨e, he, rfl⟩, hl⟩, -⟩, rfl⟩ <;>
    · refine ⟨?_, by simpa using hl⟩
      rw [Prod.snd_swap, (mem_zipIdx' he).2]
      exact getElem_mem _
  rintro ⟨hm, hl⟩
  obtain ⟨i, hi, rfl⟩ := mem_iff_getElem.mp hm
  have he : (rule.conditions[i], i) ∈ rule.conditions.zipIdx := mem_zipIdx_iff_getElem?.mpr (getElem?_eq_getElem hi)
  refine ⟨(i, rule.conditions[i]), ?_, rfl⟩
  cases hp : rule.conditions[i].predicate.isPort with
  | true => exact Or.inl ⟨⟨⟨_, he, rfl⟩, by simp [hl]⟩, rfl⟩
  | false => exact Or.inr ⟨⟨⟨_, he, rfl⟩, by simp [hl]⟩, rfl⟩

theorem passes_eq : passes view rule = rule.runtimeConditions.all fun entry => entry.2.holds view := by
  rw [passes, runtimePart, Bool.eq_iff_iff, all_eq_true, all_eq_true]
  constructor
  · intro h entry he
    obtain ⟨i, hi, hg⟩ := mem_iff_getElem.mp (mem_map_of_mem (f := Prod.snd) he)
    have := h (entry.2, i) (mem_zipIdx_iff_getElem?.mpr (by rw [getElem?_eq_getElem hi, hg]))
    exact this
  intro h entry he
  obtain ⟨e, hm, heq⟩ : ∃ e ∈ rule.runtimeConditions, e.2 = entry.1 := by
    have hin : entry.1 ∈ rule.runtimeConditions.map Prod.snd := by
      rw [(mem_zipIdx' he).2]
      exact getElem_mem _
    exact mem_map.mp hin
  rw [← heq]
  exact h e hm

theorem matches_of_not_foldedFalse (h : rule.foldedFalse = false) : rule.matches view = passes view rule := by
  rw [KernelRule.foldedFalse, Bool.or_eq_false_iff] at h
  rw [KernelRule.matches, h.1, Bool.not_false, Bool.true_and, passes_eq, Bool.eq_iff_iff, all_eq_true, all_eq_true]
  constructor
  · intro ha entry he
    exact ha entry.2 ((mem_runtimeConditions_iff rule entry.2).mp ⟨entry, he, rfl⟩).1
  intro ha condition hm
  cases hem : condition.predicate.isEmpty with
  | true =>
    have := any_eq_false.mp h.2 condition hm
    rw [holds_of_isEmpty view hem]
    simpa [hem] using this
  | false =>
    obtain ⟨entry, he, rfl⟩ := (mem_runtimeConditions_iff rule condition).mpr ⟨hm, hem⟩
    exact ha entry he

theorem evaluate_winner (slot : ℕ) (domainPrefix : Bool) (rules : List KernelRule) :
    (evaluate view slot domainPrefix rules).winner = rules.find? fun rule => rule.matches view := by
  induction rules generalizing slot domainPrefix with
  | nil => rfl
  | cons rule rules ih =>
    rw [evaluate, find?_cons]
    cases hf : rule.foldedFalse with
    | true => rw [if_pos rfl, ih, matches_of_foldedFalse view rule hf]
    | false =>
      rw [if_neg Bool.false_ne_true, matches_of_not_foldedFalse view rule hf]
      cases passes view rule with
      | true => rfl
      | false =>
        rw [if_neg Bool.false_ne_true]
        exact ih _ _

end

structure RoutingDecision where
  outbound : BitVec 32
  mark : BitVec 32
  must : BitVec 32
  domainFinal : BitVec 32
  ruleId : BitVec 32
  directMarkIndex : BitVec 32

def decisionOf (out : Words) : RoutingDecision := ⟨out 0, out 1, out 2, out 3, out 4, out 5⟩

variable {out : Words}

section

variable (action : KernelAction)

def KernelAction.decision (ruleId domainFinal : BitVec 32) : RoutingDecision where
  outbound := action.outbound.zeroExtend 32
  mark := action.mark
  must := if action.must then 1 else 0
  domainFinal := domainFinal
  ruleId := ruleId
  directMarkIndex := action.directMarkIndex.elim (-1) fun index => index.zeroExtend 32

variable (plan : RoutingPushPlan)

def planDecision (winner : Option KernelRule) (domainFinal : BitVec 32) : RoutingDecision :=
  match winner with
  | some rule => KernelAction.decision rule.action rule.id domainFinal
  | none => KernelAction.decision plan.fallback 0xffffffff domainFinal

variable (on : Bool) {j : ℕ}

theorem traceOr_of_ne (h : j ≠ k) : traceOr on k bits out j = out j := by
  rw [traceOr]
  split
  · rw [Function.update_of_ne h]
  · rfl

theorem foldl_recordOutcome_decision (log : List (ℕ × Bool)) (out : Words) (h : j < 6) : log.foldl (recordOutcome on) out j = out j := by
  induction log generalizing out with
  | nil => rfl
  | cons entry log ih =>
    rw [foldl_cons, ih, recordOutcome]
    split <;> exact traceOr_of_ne _ (by omega)

theorem initTrace_decision (h : j < 6) : initTrace on out j = out j := by
  rw [initTrace]
  split
  · rw [clearOutcomes, if_neg (by omega), Function.update_of_ne (by omega)]
  · rfl

def initialFinality (domain : Option DomainRouting) : BitVec 32 :=
  if !plan.hasDomainRules || !domainReroute plan || domain.isSome then 1 else 0

theorem prologueWords_decision (out : Words) : decisionOf (prologueWords plan on domain out) =
      ⟨plan.fallback.outbound.zeroExtend 32, 0, 0, initialFinality plan domain, -1, -1⟩ := by
  have hin : ∀ j < 6, initTrace on (resetDecision plan out) j = resetDecision plan out j := fun j hj => initTrace_decision on hj
  have hr : resetDecision plan out 3 = if !plan.hasDomainRules || !domainReroute plan then 1 else 0 := rfl
  have h0 := hin 0 (by omega)
  have h1 := hin 1 (by omega)
  have h2 := hin 2 (by omega)
  have h3 := hin 3 (by omega)
  have h4 := hin 4 (by omega)
  have h5 := hin 5 (by omega)
  rw [prologueWords, initialFinality]
  cases hd : plan.hasDomainRules with
  | false =>
    rw [if_neg Bool.false_ne_true, decisionOf, h0, h1, h2, h3, h4, h5, hr, hd]
    rfl
  | true =>
    rw [if_pos rfl, finalIfPresent]
    cases domain with
    | none =>
      rw [if_neg (by simp), decisionOf, h0, h1, h2, h3, h4, h5, hr, hd, Option.isSome_none, Bool.or_false]
      rfl
    | some routing =>
      simp only [and_self, Option.isSome_some, ↓reduceIte, decisionOf, Function.update_apply, OfNat.zero_ne_ofNat,
        OfNat.one_ne_ofNat, Nat.reduceEqDiff, h0, h1, h2, h4, h5, Bool.or_true]
      rfl

@[simp] theorem setWhen_apply (condition : Bool) (k : ℕ) (v : BitVec 32) (out : Words) (j : ℕ) :
    setWhen condition k v out j = if j = k ∧ condition = true then v else out j := by
  rw [setWhen]
  cases condition with
  | true => simp [Function.update_apply]
  | false => simp

def finality (refineDirectFinality : Bool) (flags fallback : BitVec 32) : BitVec 32 :=
  if refines action refineDirectFinality && (flags &&& routingInputAllowDirectFinality != 0) then 1 else fallback

theorem applyAction_rule (id flags : BitVec 32) (refineDirectFinality : Bool) (out : Words) :
    decisionOf (applyAction action (some id) refineDirectFinality flags out) =
      KernelAction.decision action id (finality action refineDirectFinality flags (out 3)) := by
  simp [decisionOf, applyAction, KernelAction.decision, finality]

theorem applyAction_fallback {flags fin : BitVec 32} {refineDirectFinality : Bool}
    (h : decisionOf out = ⟨action.outbound.zeroExtend 32, 0, 0, fin, -1, -1⟩) :
    decisionOf (applyAction action none refineDirectFinality flags out) =
      KernelAction.decision action (-1) (finality action refineDirectFinality flags fin) := by
  simp only [decisionOf, RoutingDecision.mk.injEq] at h
  obtain ⟨h0, h1, h2, h3, h4, h5⟩ := h
  simp only [decisionOf, applyAction, KernelAction.decision, finality, setWhen_apply, h0, h1, h2, h3, h4, h5, RoutingDecision.mk.injEq]
  refine ⟨by simp, ?_, ?_, by simp, by simp, ?_⟩
  · simp
    exact Eq.symm
  · cases action.must <;> simp
  · cases action.directMarkIndex <;> simp

end

variable {evaluation : Evaluation}

theorem finish_decision {plan : RoutingPushPlan} (h : decisionOf out = ⟨plan.fallback.outbound.zeroExtend 32, 0, 0, fin, -1, -1⟩) :
    decisionOf (evaluation.finish plan on flags out) = planDecision plan evaluation.winner
      (finality (evaluation.action plan) (domainReroute plan && !evaluation.domainPrefix) flags fin) := by
  have hl : decisionOf (evaluation.log.foldl (recordOutcome on) out) = decisionOf out := by
    simp only [decisionOf, foldl_recordOutcome_decision on evaluation.log out (show 0 < 6 by omega),
      foldl_recordOutcome_decision on evaluation.log out (show 1 < 6 by omega),
      foldl_recordOutcome_decision on evaluation.log out (show 2 < 6 by omega),
      foldl_recordOutcome_decision on evaluation.log out (show 3 < 6 by omega),
      foldl_recordOutcome_decision on evaluation.log out (show 4 < 6 by omega),
      foldl_recordOutcome_decision on evaluation.log out (show 5 < 6 by omega)]
  have ht : ∀ words : Words, decisionOf (traceOr on 6 routeTraceComplete words) = decisionOf words := by
    intro words
    simp only [decisionOf]
    rw [traceOr_of_ne _ (by omega), traceOr_of_ne _ (by omega), traceOr_of_ne _ (by omega),
      traceOr_of_ne _ (by omega), traceOr_of_ne _ (by omega), traceOr_of_ne _ (by omega)]
  rw [Evaluation.finish, ht, Evaluation.action]
  cases evaluation.winner with
  | none => exact applyAction_fallback _ (hl.trans h)
  | some rule =>
    have h3 : evaluation.log.foldl (recordOutcome on) out 3 = fin := congrArg RoutingDecision.domainFinal (hl.trans h)
    rw [Option.map_some, applyAction_rule, h3]
    rfl

def sampleFds : RoutingMapFds := ⟨3, 4, 5, 6, 7, 8⟩

def emptyHost : MapHost sampleFds where
  keySize fd := if fd = 8 then 16 else 20
  find _ _ := none
  keySize_destinationV4 := rfl
  keySize_destinationV6 := rfl
  keySize_sourceV4 := rfl
  keySize_sourceV6 := rfl
  keySize_mac := rfl
  keySize_domain := rfl

def finalityPlan : RoutingPushPlan where
  rules := [⟨0, "dport(443) -> direct", [⟨false, .destinationPort [⟨443, 443⟩]⟩], ⟨outboundDirect, false, 0, none⟩⟩,
    ⟨1, "domain(ads) -> block", [⟨false, .domain 0⟩], ⟨outboundBlock, false, 0, none⟩⟩]
  facts := {}
  fallback := ⟨2, false, 7, none⟩
  features := routingFeatureDomain ||| routingFeatureDomainReroute
  fingerprint := Vector.replicate 32 0
  hasDomainRules := true
  domainPredicateCount := 1
  traceEnabled := false

def tcpInput (port : BitVec 32) : RoutingInput where
  srcIp := Vector.replicate 16 0
  dstIp := Vector.replicate 16 0
  mac := Vector.replicate 16 0
  pname := Vector.replicate 48 0
  srcPort := 40000
  dstPort := port
  l4proto := 1
  ipVersion := 1
  dscp := 0
  isWan := 0
  pnameLen := 0
  flags := routingInputAllowDirectFinality

theorem exists_ok_of_isOk {ε α : Type} {x : Except ε α} (h : x.isOk = true) : ∃ a, x = .ok a := by
  cases x with
  | ok a => exact ⟨a, rfl⟩
  | error e => cases h

theorem emit_finalityPlan : ∃ bytecode, emitRoutingProgram finalityPlan sampleFds = .ok bytecode :=
  exists_ok_of_isOk (by decide +kernel)

section

variable {plan : RoutingPushPlan} {fds : RoutingMapFds} {bytecode : RoutingBytecode}

def Executes (bytecode : RoutingBytecode) (host : MapHost fds) (input : RoutingInput) (output stack : ℤ → Byte)
    (mem : Mem Block) : Prop :=
  ∃ fuel, run host.env bytecode.insns fuel (host.initialState input output stack) = some (.scalar 0, mem)

theorem Executes.unique (h : Executes bytecode host input output stack mem) (h' : Executes bytecode host input output stack mem') :
    mem = mem' := by
  obtain ⟨fuel, hr⟩ := h
  obtain ⟨fuel', hr'⟩ := h'
  exact congrArg Prod.snd (run_deterministic hr hr')

theorem exists_executes (h : emitRoutingProgram plan fds = .ok bytecode) (host : MapHost fds) (input : RoutingInput)
    (output stack : ℤ → Byte) : ∃ mem, Executes bytecode host input output stack mem ∧ ∀ k, Tracked k → outWords mem k =
        finalWords plan host input (tracing plan (outWords (host.initialMem input output stack)))
          (outWords (host.initialMem input output stack)) k := by
  obtain ⟨fuel, _, mem, hr, rfl, hw⟩ := run_emitRoutingProgram h host input output stack
  exact ⟨mem, ⟨fuel, hr⟩, hw⟩

def runDecision (plan : RoutingPushPlan) (host : MapHost fds) (input : RoutingInput) : RoutingDecision :=
  planDecision plan (plan.firstMatch (host.view input))
    (finality ((evaluate (host.view input) 0 false plan.rules).action plan)
      (domainReroute plan && !(evaluate (host.view input) 0 false plan.rules).domainPrefix) input.flags
      (initialFinality plan (host.fact input .domain)))

theorem finalWords_decision (plan : RoutingPushPlan) (host : MapHost fds) (input : RoutingInput) (on : Bool)
    (out : Words) : decisionOf (finalWords plan host input on out) = runDecision plan host input := by
  rw [finalWords, finish_decision (prologueWords_decision plan on out), evaluate_winner]
  rfl

theorem exists_executes_decision (h : emitRoutingProgram plan fds = .ok bytecode) (host : MapHost fds)
    (input : RoutingInput) (output stack : ℤ → Byte) :
    ∃ mem, Executes bytecode host input output stack mem ∧ decisionOf (outWords mem) = runDecision plan host input := by
  obtain ⟨mem, hr, hw⟩ := exists_executes h host input output stack
  refine ⟨mem, hr, ?_⟩
  rw [← finalWords_decision plan host input (tracing plan (outWords (host.initialMem input output stack)))
    (outWords (host.initialMem input output stack))]
  simp only [decisionOf]
  rw [hw 0 (.inl (by omega)), hw 1 (.inl (by omega)), hw 2 (.inl (by omega)), hw 3 (.inl (by omega)),
    hw 4 (.inl (by omega)), hw 5 (.inl (by omega))]

/-- The generated program decides as the plan does: the first matching rule, or the fallback. -/
theorem emitRoutingProgram_decides (h : emitRoutingProgram plan fds = .ok bytecode) (host : MapHost fds)
    (input : RoutingInput) (output stack : ℤ → Byte) : ∃ mem domainFinal, Executes bytecode host input output stack mem ∧
      decisionOf (outWords mem) = planDecision plan (plan.firstMatch (host.view input)) domainFinal := by
  obtain ⟨mem, hr, hd⟩ := exists_executes_decision h host input output stack
  exact ⟨mem, _, hr, hd⟩

theorem emitRoutingProgram_decides_finalityPlan : ∃ bytecode, emitRoutingProgram finalityPlan sampleFds = .ok bytecode ∧
      (∃ mem domainFinal, Executes bytecode emptyHost (tcpInput 443) (fun _ => 0) (fun _ => 0) mem ∧
        decisionOf (outWords mem) = ⟨outboundDirect.zeroExtend 32, 0, 0, domainFinal, 0, 0xffffffff⟩) ∧
      ∃ mem domainFinal, Executes bytecode emptyHost (tcpInput 80) (fun _ => 0) (fun _ => 0) mem ∧
        decisionOf (outWords mem) = ⟨2, 7, 0, domainFinal, 0xffffffff, 0xffffffff⟩ := by
  obtain ⟨bytecode, h⟩ := emit_finalityPlan
  exact ⟨bytecode, h, emitRoutingProgram_decides h emptyHost (tcpInput 443) (fun _ => 0) fun _ => 0,
    emitRoutingProgram_decides h emptyHost (tcpInput 80) (fun _ => 0) fun _ => 0⟩

end

section

variable {plan : RoutingPushPlan} {fds : RoutingMapFds} {bytecode : RoutingBytecode} (view : KernelView)

theorem evaluate_domainPrefix_of_true (slot : ℕ) (rules : List KernelRule) : (evaluate view slot true rules).domainPrefix = true := by
  induction rules generalizing slot with
  | nil => rfl
  | cons rule rules ih =>
    rw [evaluate]
    split
    · exact ih _
    split
    · rfl
    · exact ih _

variable (domain : ℕ → Bool)

theorem holds_of_not_isDomain (h : isDomain condition = false) : condition.holds { view with domain } = condition.holds view := by
  rw [isDomain] at h
  rw [KernelCondition.holds, KernelCondition.holds]
  cases hp : condition.predicate with
  | domain id =>
    rw [hp] at h
    cases h
  | _ => rfl

theorem conditionLog_of_not_isDomain (slot : ℕ) (h : ∀ entry ∈ conditions, isDomain entry.1 = false) :
    conditionLog { view with domain } slot conditions = conditionLog view slot conditions := by
  induction conditions with
  | nil => rfl
  | cons entry conditions ih =>
    rw [conditionLog, conditionLog, holds_of_not_isDomain view domain (h entry mem_cons_self), ih fun e he => h e (mem_cons_of_mem _ he)]

theorem not_isDomain_of_not_readsDomain (h : readsDomain rule = false) : ∀ entry ∈ runtimePart rule, isDomain entry.1 = false := by
  intro entry he
  have hm : entry.1 ∈ rule.runtimeConditions.map Prod.snd := by
    rw [(mem_zipIdx' he).2]
    exact getElem_mem _
  obtain ⟨e, hin, heq⟩ := mem_map.mp hm
  have := any_eq_false.mp h e hin
  rw [← heq]
  simpa using this

theorem evaluate_of_no_domain (slot : ℕ) (domainPrefix : Bool) (rules : List KernelRule)
    (h : (evaluate view slot domainPrefix rules).domainPrefix = false) :
    evaluate { view with domain } slot domainPrefix rules = evaluate view slot domainPrefix rules := by
  induction rules generalizing slot domainPrefix with
  | nil => rfl
  | cons rule rules ih =>
    rw [evaluate] at h
    rw [evaluate, evaluate]
    by_cases hf : rule.foldedFalse = true
    · rw [if_pos hf] at h ⊢
      rw [if_pos hf]
      exact ih _ _ h
    rw [if_neg hf] at h ⊢
    rw [if_neg hf]
    have hre : readsDomain rule = false := by
      by_contra hr
      have hr : readsDomain rule = true := by simpa using hr
      rw [hr, Bool.or_true] at h
      split at h
      · cases h
      · rw [evaluate_domainPrefix_of_true] at h
        cases h
    have hn := not_isDomain_of_not_readsDomain hre
    have hpa : passes { view with domain } rule = passes view rule := by
      rw [passes, passes, Bool.eq_iff_iff, all_eq_true, all_eq_true]
      constructor
      · intro ha entry he
        rw [← holds_of_not_isDomain view domain (hn entry he)]
        exact ha entry he
      intro ha entry he
      rw [holds_of_not_isDomain view domain (hn entry he)]
      exact ha entry he
    rw [hpa, conditionLog_of_not_isDomain view domain slot hn]
    by_cases hp : passes view rule = true
    · rw [if_pos hp, if_pos hp]
    · rw [if_neg hp] at h
      rw [if_neg hp, if_neg hp, ih _ _ h]

def MapHost.install (host : MapHost fds) (key : List Byte) (routing : DomainRouting) : MapHost fds :=
  { host with find := fun fd k => if fd = fds.domain ∧ k = key then some routing else host.find fd k }

variable {host : MapHost fds} {input : RoutingInput} {key : List Byte}

theorem MapHost.view_install : (host.install key routing).view input =
      { host.view input with domain := (host.install key routing).factBit input .domain } := by
  have ho : ∀ fd, host.keySize fd = 20 → (host.install key routing).find fd = host.find fd := by
    intro fd hs
    funext k
    have hn : fd ≠ fds.domain := by
      rintro rfl
      rw [host.keySize_domain] at hs
      omega
    exact if_neg fun hc => hn hc.1
  have ha : ∀ v4 v6 ip, host.keySize v4 = 20 → host.keySize v6 = 20 →
      (host.install key routing).address input v4 v6 ip = host.address input v4 v6 ip := by
    intro v4 v6 ip h4 h6
    rw [MapHost.address, MapHost.address, ho v4 h4, ho v6 h6]
  have hd : (host.install key routing).fact input .destination = host.fact input .destination :=
    ha _ _ _ host.keySize_destinationV4 host.keySize_destinationV6
  have hsr : (host.install key routing).fact input .source = host.fact input .source :=
    ha _ _ _ host.keySize_sourceV4 host.keySize_sourceV6
  have hm : (host.install key routing).fact input .mac = host.fact input .mac := by
    rw [MapHost.fact, MapHost.fact, ho _ host.keySize_mac]
  simp only [MapHost.view, KernelView.mk.injEq, true_and, and_true]
  refine ⟨?_, ?_, ?_⟩ <;>
  · funext id
    simp only [MapHost.factBit, hd, hsr, hm]

theorem hasDomainRules_of_domainReroute (h : emitRoutingProgram plan fds = .ok bytecode)
    (hr : domainReroute plan = true) : plan.hasDomainRules = true := by
  simp only [emitRoutingProgram, validatePlan, bind_eq_ok] at h
  obtain ⟨_, ⟨_, -, _, -, _, -, _, hf, -⟩, -⟩ := h
  have := ensure_eq_ok hf
  rwa [hr, Bool.not_true, Bool.false_or] at this

section

variable (plan : RoutingPushPlan)

theorem firstMatch_eq_winner (view : KernelView) :
    plan.firstMatch view = (evaluate view 0 false plan.rules).winner := (evaluate_winner view 0 false plan.rules).symm

theorem planDecision_eq : planDecision plan evaluation.winner domainFinal =
      KernelAction.decision (evaluation.action plan) (evaluation.winner.elim 0xffffffff KernelRule.id) domainFinal := by
  rw [Evaluation.action]
  cases evaluation.winner <;> rfl

theorem finality_of_no_entry (hd : plan.hasDomainRules = true) (hre : domainReroute plan = true)
    (hn : host.fact input .domain = none) (hf : (runDecision plan host input).domainFinal = 1) :
    let evaluation := evaluate (host.view input) 0 false plan.rules
    evaluation.domainPrefix = false ∧ (evaluation.action plan).outbound = outboundDirect ∧
      (evaluation.action plan).must = false ∧ input.flags &&& routingInputAllowDirectFinality ≠ 0 := by
  intro evaluation
  rw [runDecision, firstMatch_eq_winner, planDecision_eq, hn, initialFinality, hd, hre] at hf
  change finality _ _ _ _ = 1 at hf
  rw [finality] at hf
  split at hf
  · rename_i hr
    rw [Bool.and_eq_true, refines, Bool.and_eq_true, Bool.and_eq_true, Bool.true_and, Bool.not_eq_true',
      Bool.not_eq_true', beq_iff_eq, bne_iff_ne] at hr
    exact ⟨hr.1.1.1, hr.1.1.2, hr.1.2, hr.2⟩
  · cases hf

theorem runDecision_install (routing : DomainRouting) (hu : (evaluate (host.view input) 0 false plan.rules).domainPrefix = false)
    (hr : refines ((evaluate (host.view input) 0 false plan.rules).action plan) (domainReroute plan) = true)
    (hf : input.flags &&& routingInputAllowDirectFinality ≠ 0) :
    runDecision plan (host.install key routing) input = runDecision plan host input := by
  have he : evaluate ((host.install key routing).view input) 0 false plan.rules =
      evaluate (host.view input) 0 false plan.rules := by
    rw [MapHost.view_install, evaluate_of_no_domain _ _ _ _ _ hu]
  rw [runDecision, runDecision, firstMatch_eq_winner, firstMatch_eq_winner, he, finality, finality, hu,
    Bool.not_false, Bool.and_true, hr, bne_iff_ne.mpr hf]
  rfl

end

/-- A final decision taken without a domain entry stands whatever bitmap is installed later. -/
theorem directFinality_sound (h : emitRoutingProgram plan fds = .ok bytecode) (hreroute : domainReroute plan = true)
    (host : MapHost fds) (input : RoutingInput) (hnone : host.find fds.domain input.dstIp.toList = none) (output stack : ℤ → Byte) :
    ∃ mem, Executes bytecode host input output stack mem ∧ ((decisionOf (outWords mem)).domainFinal = 1 →
        ((decisionOf (outWords mem)).outbound = outboundDirect.zeroExtend 32 ∧ (decisionOf (outWords mem)).must = 0 ∧
          input.flags &&& routingInputAllowDirectFinality ≠ 0) ∧
        ∀ routing output' stack', ∃ mem', Executes bytecode (host.install input.dstIp.toList routing) input output' stack' mem' ∧
          decisionOf (outWords mem') = decisionOf (outWords mem)) := by
  obtain ⟨mem, hr, hd⟩ := exists_executes_decision h host input output stack
  refine ⟨mem, hr, fun hf => ?_⟩
  rw [hd] at hf ⊢
  obtain ⟨hu, hdi, hm, hfl⟩ := finality_of_no_entry plan (hasDomainRules_of_domainReroute h hreroute) hreroute hnone hf
  refine ⟨⟨?_, ?_, hfl⟩, fun routing output' stack' => ?_⟩
  · rw [runDecision, firstMatch_eq_winner, planDecision_eq, ← hdi]
    rfl
  · rw [runDecision, firstMatch_eq_winner, planDecision_eq, KernelAction.decision, hm]
    rfl
  obtain ⟨mem', hr', hd'⟩ := exists_executes_decision h (host.install input.dstIp.toList routing) input output' stack'
  refine ⟨mem', hr', hd'.trans ?_⟩
  apply runDecision_install plan routing hu _ hfl
  rw [refines, hreroute, hdi, hm]
  rfl

theorem directFinality_sound_finalityPlan : ∃ bytecode mem, emitRoutingProgram finalityPlan sampleFds = .ok bytecode ∧
      Executes bytecode emptyHost (tcpInput 443) (fun _ => 0) (fun _ => 0) mem ∧ (decisionOf (outWords mem)).domainFinal = 1 ∧
      ∀ routing output' stack', ∃ mem',
        Executes bytecode (emptyHost.install (tcpInput 443).dstIp.toList routing) (tcpInput 443) output' stack' mem' ∧
        decisionOf (outWords mem') = decisionOf (outWords mem) := by
  obtain ⟨bytecode, h⟩ := emit_finalityPlan
  obtain ⟨mem, hr, hs⟩ := directFinality_sound h rfl emptyHost (tcpInput 443) rfl (fun _ => 0) fun _ => 0
  obtain ⟨mem', hr', hd⟩ := exists_executes_decision h emptyHost (tcpInput 443) (fun _ => 0) fun _ => 0
  cases hr.unique hr'
  have hf : (decisionOf (outWords mem)).domainFinal = 1 := by
    rw [hd]
    rfl
  exact ⟨bytecode, mem, h, hr, hf, (hs hf).2⟩

end

end Honk.Codegen
