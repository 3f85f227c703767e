import Honk.Routing.Compile
import Honk.Codegen.Assembler

namespace Honk.Codegen

open Honk.Lib Honk.Lib.Bpf Honk.Routing AsmM AsmM

def factBytes : ℤ := 32
def stackKey : ℤ := -(4 * factBytes) - 32
def stackDomainKey : ℤ := stackKey - 16

def inputSrcIp : ℤ := 0
def inputDstIp : ℤ := 16
def inputMac : ℤ := 32
def inputPname : ℤ := 48
def inputSrcPort : ℤ := 96
def inputDstPort : ℤ := 100
def inputProto : ℤ := 104
def inputVersion : ℤ := 108
def inputDscp : ℤ := 112
def inputPnameLen : ℤ := 120
def inputFlags : ℤ := 124

def decisionOutbound : ℤ := 0
def decisionMark : ℤ := 4
def decisionMust : ℤ := 8
def decisionDomainFinal : ℤ := 12
def decisionRuleId : ℤ := 16
def decisionDirectMarkIndex : ℤ := 20
def traceFlags : ℤ := 24
def traceFactState : ℤ := 44
def traceInput : ℤ := 48
def traceDomain : ℤ := 176
def traceOutcomes : ℤ := 208

def routeTraceWords : ℕ := routeTraceValues / 16
def routeTraceEnabled : BitVec 32 := 1
def routeTraceComplete : BitVec 32 := 2
def routeTraceOverflow : BitVec 32 := 4
def routeTraceVersion : BitVec 32 := 0x1000000
def routeTraceMatched : BitVec 32 := 1
def routeTraceNotMatched : BitVec 32 := 2
def routeFactPresentShift : ℕ := 16
def routingInputMacPresent : BitVec 32 := 1
def routingInputAllowDirectFinality : BitVec 32 := 2
def mapLookupElem : BitVec 32 := 1
def pseudoMapFd : ℕ := 1
def efault : BitVec 32 := 14

def ready : ℕ := 8

inductive FactKind where
  | domain
  | destination
  | source
  | mac
  deriving DecidableEq

def FactKind.index : FactKind → ℕ
  | .domain => 0
  | .destination => 1
  | .source => 2
  | .mac => 3

variable (kind : FactKind)

def FactKind.area : ℤ := -(kind.index + 1 : ℤ) * factBytes

structure RoutingMapFds where
  destinationV4 : BitVec 32
  destinationV6 : BitVec 32
  sourceV4 : BitVec 32
  sourceV6 : BitVec 32
  mac : BitVec 32
  domain : BitVec 32

def emitTraceOr (offset : ℤ) (bits : BitVec 32) : AsmM Unit := whenTraced do
  let disabled ← label
  jump bpfJeq 9 0 disabled
  ldxW 1 7 offset
  orImm 1 bits
  stxW 7 1 offset
  bind disabled

def emitTraceOutcome (slot : ℕ) (result : BitVec 32) : AsmM Unit :=
  if routeTraceValues ≤ slot then emitTraceOr traceFlags routeTraceOverflow
  else emitTraceOr (traceOutcomes + (slot / 16 * 4 : ℕ)) (result <<< (slot % 16 * 2))

def emitTraceInit : AsmM Unit := whenTraced do
  let disabled ← label
  ldxW 9 7 traceFlags
  andImm 9 routeTraceEnabled
  jump bpfJeq 9 0 disabled
  stImm 7 traceFlags (routeTraceVersion ||| routeTraceEnabled)
  stImm 7 traceFactState 0
  forEach (fun word : ℕ => stImm 7 (traceOutcomes + (word * 4 : ℕ)) 0) (List.range routeTraceWords)
  forEach (fun word : ℕ => stImm 7 (traceDomain + (word * 4 : ℕ)) 0) (List.range 8)
  forEach (fun word : ℕ => do
    ldxW 1 6 (word * 4 : ℕ)
    stxW 7 1 (traceInput + (word * 4 : ℕ))) (List.range 32)
  bind disabled

def emitTraceDomain : AsmM Unit := whenTraced do
  let disabled ← label
  jump bpfJeq 9 0 disabled
  forEach (fun word : ℕ => do
    ldxDw 1 10 (FactKind.domain.area + (word * 8 : ℕ))
    stxDw 7 1 (traceDomain + (word * 8 : ℕ))) (List.range 4)
  bind disabled

def loadMapFd (fd : BitVec 32) : AsmM Unit := do
  emit (bpfLd ||| bpfDw ||| bpfImm) 1 pseudoMapFd 0 fd
  emit 0 0 0 0 0

def writeKeyFromInput (inputOffset : ℤ) (prefixLen : ℕ) : AsmM Unit := do
  stImm 10 stackKey (BitVec.ofNat 32 prefixLen)
  let words := if prefixLen = 32 then 1 else 4
  forEach (fun index : ℕ => do
    ldxW 3 6 (inputOffset + (index * 4 : ℕ))
    stxW 10 3 (stackKey + 4 + (index * 4 : ℕ))) (List.range words)
  forEach (fun index : ℕ => stImm 10 (stackKey + 4 + (index * 4 : ℕ)) 0) (List.range' words (4 - words))

def writeDomainKeyFromInput : AsmM Unit := do
  ldxDw 3 6 inputDstIp
  stxDw 10 3 stackDomainKey
  ldxDw 3 6 (inputDstIp + 8)
  stxDw 10 3 (stackDomainKey + 8)

def emitAddressKey (inputOffset : ℤ) (v4Fd v6Fd : BitVec 32) (absent lookup : Label) : AsmM Unit := do
  let v6 ← label
  ldxW 0 6 inputVersion
  jump bpfJne 0 1 v6
  writeKeyFromInput (inputOffset + 12) 32
  loadMapFd v4Fd
  ja lookup
  bind v6
  jump bpfJne 0 2 absent
  writeKeyFromInput inputOffset 128
  loadMapFd v6Fd

def emitFactKey (fds : RoutingMapFds) (absent lookup : Label) : AsmM Unit :=
  match kind with
  | .domain => do
    writeDomainKeyFromInput
    loadMapFd fds.domain
  | .mac => do
    ldxW 0 6 inputFlags
    andImm 0 routingInputMacPresent
    jump bpfJeq 0 0 absent
    writeKeyFromInput inputMac 128
    loadMapFd fds.mac
  | .destination => emitAddressKey inputDstIp fds.destinationV4 fds.destinationV6 absent lookup
  | .source => emitAddressKey inputSrcIp fds.sourceV4 fds.sourceV6 absent lookup

def FactKind.key : FactKind → ℤ
  | .domain => stackDomainKey
  | _ => stackKey

def emitFactLookup (fds : RoutingMapFds) : AsmM Unit := do
  let absent ← label
  let lookup ← label
  let done ← label
  emitFactKey kind fds absent lookup
  bind lookup
  movReg 2 10
  addImm 2 (BitVec.ofInt 32 kind.key)
  call mapLookupElem
  jump bpfJeq 0 0 absent
  when (kind = .domain) (stImm 7 decisionDomainFinal 1)
  forEach (fun word : ℕ => do
    ldxDw 1 0 (word * 8 : ℕ)
    stxDw 10 1 (kind.area + (word * 8 : ℕ))) (List.range 4)
  emitTraceOr traceFactState (((1 : BitVec 32) <<< kind.index) <<< routeFactPresentShift)
  ja done
  bind absent
  movImm 1 0
  forEach (fun word : ℕ => stxDw 10 1 (kind.area + (word * 8 : ℕ))) (List.range 4)
  bind done
  emitTraceOr traceFactState ((1 : BitVec 32) <<< kind.index)
  when (kind = .domain) emitTraceDomain

def emitFactBit (id : ℕ) (onTrue onFalse : Label) : AsmM Unit := do
  ldxW 2 10 (kind.area + (id / 32 * 4 : ℕ))
  andImm 2 ((1 : BitVec 32) <<< (id % 32))
  jump bpfJne 2 0 onTrue
  ja onFalse

def emitFactBitLazy (id : ℕ) (onTrue onFalse : Label) (fds : RoutingMapFds) : AsmM Unit := do
  let resolved ← label
  let bit := (1 : BitVec 32) <<< (kind.index - 1)
  jump bpfJset ready bit resolved
  emitFactLookup kind fds
  orImm ready bit
  bind resolved
  emitFactBit kind id onTrue onFalse

def emitMaskScalar (offset : ℤ) (mask : BitVec 32) (onTrue onFalse : Label) : AsmM Unit := do
  ldxW 0 6 offset
  andImm 0 mask
  jump bpfJne 0 0 onTrue
  ja onFalse

def emitPortRanges (ranges : List PortRange) (offset : ℤ) (onTrue onFalse : Label) : AsmM Unit := do
  ldxW 0 6 offset
  forEach (fun range : PortRange => do
    let next ← label
    let inside ← label
    jump bpfJge 0 (range.start.zeroExtend 32) inside
    ja next
    bind inside
    jump bpfJgt 0 (range.end.zeroExtend 32) next
    ja onTrue
    bind next) ranges
  ja onFalse

def emitNameAt (bytes : List Byte) (onTrue : Label) (offset : ℕ) : AsmM Unit := do
  let next ← label
  let enough ← label
  jump bpfJge 4 (BitVec.ofNat 32 (offset + bytes.length)) enough
  ja next
  bind enough
  forEach (fun entry : Byte × ℕ => do
    ldxB 5 6 (inputPname + offset + entry.2)
    jump bpfJne 5 (entry.1.zeroExtend 32) next) bytes.zipIdx
  ja onTrue
  bind next

def emitProcessName (onTrue : Label) (bytes : List Byte) : AsmM Unit := do
  let nextName ← label
  ldxW 4 6 inputPnameLen
  if bytes.isEmpty then jump bpfJne 4 0 onTrue
  else
    let long ← label
    jump bpfJge 4 (BitVec.ofNat 32 bytes.length) long
    ja nextName
    bind long
    forEach (emitNameAt bytes onTrue) (List.range (routingProcessMaxLen - bytes.length + 1))
    bind nextName

def emitProcessNames (names : List (List Byte)) (onTrue onFalse : Label) : AsmM Unit := do
  forEach (emitProcessName onTrue) names
  ja onFalse

def emitPredicate (predicate : KernelPredicate) (onTrue onFalse : Label) (fds : RoutingMapFds) : AsmM Unit :=
  match predicate with
  | .domain id => emitFactBit .domain id onTrue onFalse
  | .destinationIp id => emitFactBitLazy .destination id onTrue onFalse fds
  | .sourceIp id => emitFactBitLazy .source id onTrue onFalse fds
  | .mac id => emitFactBitLazy .mac id onTrue onFalse fds
  | .destinationPort ranges => emitPortRanges ranges inputDstPort onTrue onFalse
  | .sourcePort ranges => emitPortRanges ranges inputSrcPort onTrue onFalse
  | .protocol mask => emitMaskScalar inputProto (mask.zeroExtend 32) onTrue onFalse
  | .ipVersion mask => emitMaskScalar inputVersion (mask.zeroExtend 32) onTrue onFalse
  | .dscp values => do
    ldxW 0 6 inputDscp
    forEach (fun value : Byte => jump bpfJeq 0 (value.zeroExtend 32) onTrue) values
    ja onFalse
  | .processName names => emitProcessNames names onTrue onFalse

variable (condition : KernelCondition)

def emitCondition (pass fail : Label) (fds : RoutingMapFds) : AsmM Unit :=
  let onTrue := if condition.not then fail else pass
  let onFalse := if condition.not then pass else fail
  emitPredicate condition.predicate onTrue onFalse fds

def isDomain : Bool :=
  match condition.predicate with
  | .domain _ => true
  | _ => false

def emitDirectFinality : AsmM Unit := do
  let notFinal ← label
  ldxW 0 6 inputFlags
  andImm 0 routingInputAllowDirectFinality
  jump bpfJeq 0 0 notFinal
  stImm 7 decisionDomainFinal 1
  bind notFinal

def emitAction (action : KernelAction) (ruleId : Option (BitVec 32)) (refineDirectFinality : Bool) : AsmM Unit := do
  when (refineDirectFinality && action.outbound == outboundDirect && !action.must) emitDirectFinality
  when ruleId.isSome (stImm 7 decisionOutbound (action.outbound.zeroExtend 32))
  when (ruleId.isSome || action.mark != 0) (stImm 7 decisionMark action.mark)
  when (ruleId.isSome || action.must) (stImm 7 decisionMust (if action.must then 1 else 0))
  ruleId.elim (pure ()) (stImm 7 decisionRuleId)
  when (ruleId.isSome || action.directMarkIndex.isSome)
    (stImm 7 decisionDirectMarkIndex (action.directMarkIndex.elim (-1) fun index => index.zeroExtend 32))

variable (plan : RoutingPushPlan) (fds : RoutingMapFds)

/-- One condition of a rule; with tracing the miss is recorded on the way to `fail`. -/
def emitChecked (slot : ℕ) (condition : KernelCondition) (pass fail : Label) : AsmM Unit :=
  if plan.traceEnabled then do
    let missed ← label
    emitCondition condition pass missed fds
    bind missed
    emitTraceOutcome slot routeTraceNotMatched
    ja fail
  else emitCondition condition pass fail fds

def emitConditions (ruleSlot : ℕ) (fail : Label) : List (KernelCondition × ℕ) → AsmM Unit :=
  forEach fun entry => do
    let pass ← label
    emitChecked plan fds (ruleSlot + 1 + entry.2) entry.1 pass fail
    bind pass
    emitTraceOutcome (ruleSlot + 1 + entry.2) routeTraceMatched

def domainReroute : Bool := plan.features &&& routingFeatureDomainReroute != 0

/-- One rule; with nothing left to test at run time its label `fail` is never bound. -/
def emitRule (rule : KernelRule) (ruleSlot : ℕ)
    (domainPrefix : Bool) : AsmM Unit := do
  source (rule.id.toNat + 1) rule.source
  let fail ← label
  emitConditions plan fds ruleSlot fail (rule.runtimeConditions.map Prod.snd).zipIdx
  emitTraceOutcome ruleSlot routeTraceMatched
  emitAction rule.action (some rule.id) (domainReroute plan && !domainPrefix)
  emitTraceOr traceFlags routeTraceComplete
  movImm 0 0
  exit
  when (!rule.runtimeConditions.isEmpty) do
    bind fail
    emitTraceOutcome ruleSlot routeTraceNotMatched

def emitFallback (traceSlot : ℕ) (domainPrefix : Bool) : AsmM Unit := do
  source 0 "fallback"
  emitTraceOutcome traceSlot routeTraceMatched
  emitAction plan.fallback none (domainReroute plan && !domainPrefix)
  emitTraceOr traceFlags routeTraceComplete
  movImm 0 0
  exit

def readsDomain (rule : KernelRule) : Bool := rule.runtimeConditions.any fun entry => isDomain entry.2

/-- The rule list, then the fallback; a rule without runtime conditions ends the program.
`domainPrefix` says whether a domain predicate was emitted so far. -/
def emitRules (plan : RoutingPushPlan) (fds : RoutingMapFds) (traceSlot : ℕ) (domainPrefix : Bool) : List KernelRule → AsmM Unit
  | [] => emitFallback plan traceSlot domainPrefix
  | rule :: rules =>
    if rule.foldedFalse then emitRules plan fds (traceSlot + 1 + rule.conditions.length) domainPrefix rules
    else do
      emitRule plan fds rule traceSlot (domainPrefix || readsDomain rule)
      if rule.runtimeConditions.isEmpty then pure ()
      else emitRules plan fds (traceSlot + 1 + rule.conditions.length) (domainPrefix || readsDomain rule) rules

def emitNonnull (register : ℕ) : AsmM Unit := do
  let nonnull ← label
  jump bpfJne register 0 nonnull
  movImm 0 (-efault)
  exit
  bind nonnull

def emitPrologue : AsmM Unit := do
  source 0 "routing function prologue"
  forEach emitNonnull [1, 2]
  movReg 6 1
  movReg 7 2
  stImm 7 decisionDirectMarkIndex (-1)
  stImm 7 decisionOutbound (plan.fallback.outbound.zeroExtend 32)
  stImm 7 decisionMark 0
  stImm 7 decisionMust 0
  stImm 7 decisionDomainFinal
    (if !plan.hasDomainRules || !domainReroute plan then 1 else 0)
  stImm 7 decisionRuleId (-1)
  ldxW ready 7 decisionMark
  forEach (fun kind : FactKind => forEach (fun word : ℕ => do
    ldxW 1 7 decisionMark
    stxDw 10 1 (kind.area + (word * 8 : ℕ))) (List.range 4)) [.destination, .source, .mac]
  emitTraceInit
  when plan.hasDomainRules (emitFactLookup .domain fds)

def emitProgram : AsmM Unit := do
  emitPrologue plan fds
  emitRules plan fds 0 false plan.rules

def ensure (condition : Bool) (message : String) : Except String Unit := if condition then .ok () else .error message

def validatePredicate : KernelPredicate → Except String Unit
  | .domain id => ensure (id < plan.domainPredicateCount) ("invalid domain predicate id " ++ toString id)
  | .destinationIp id | .sourceIp id | .mac id => ensure (id < routingFactCapacity) ("invalid fact predicate id " ++ toString id)
  | .destinationPort ranges | .sourcePort ranges =>
    ensure (ranges.all fun range => range.start ≤ range.end) "invalid emitted port range"
  | .protocol mask | .ipVersion mask => ensure (mask &&& ~~~3 == 0) ("invalid emitted scalar mask " ++ hexMask mask)
  | .processName names =>
    ensure (names.all fun name => name.length ≤ routingProcessMaxLen)
      ("emitted process matcher exceeds " ++ toString routingProcessMaxLen ++ " bytes")
  | .dscp _ => .ok ()

def validateRule (rule : KernelRule) : Except String Unit := do
  ensure (rule.id.toNat < 2 ^ 22 - 1)
    ("rule id " ++ toString rule.id.toNat ++ " exceeds BPF source-line capacity")
  rule.conditions.forM fun condition => validatePredicate plan condition.predicate

def isProcessName : Bool :=
  match condition.predicate with
  | .processName _ => true
  | _ => false

def prefixesAtMost (bound : ℕ) (entries : FactMap) : Bool := entries.all fun entry => entry.1.prefixLen.toNat ≤ bound

def validatePlan : Except String Unit := do
  ensure (plan.domainPredicateCount ≤ routingFactCapacity) "domain predicate capacity exceeded"
  ensure (plan.hasDomainRules == (plan.domainPredicateCount != 0)) "inconsistent domain predicate metadata"
  ensure ((plan.features &&& routingFeatureDomain != 0) == plan.hasDomainRules)
    "inconsistent domain feature metadata"
  ensure (!domainReroute plan || plan.hasDomainRules)
    "domain reroute feature requires domain predicates"
  ensure ((plan.features &&& routingFeatureProcess != 0) ==
      plan.rules.any fun rule => rule.conditions.any isProcessName)
    "inconsistent process feature metadata"
  plan.rules.forM (validateRule plan)
  ensure (prefixesAtMost 32 plan.facts.destinationV4) "invalid destination IPv4 prefix"
  ensure (prefixesAtMost 32 plan.facts.sourceV4) "invalid source IPv4 prefix"
  ensure (prefixesAtMost 128 plan.facts.destinationV6) "invalid destination IPv6 prefix"
  ensure (prefixesAtMost 128 plan.facts.sourceV6) "invalid source IPv6 prefix"
  ensure (plan.facts.mac.all fun entry => entry.1.prefixLen.toNat == 128) "invalid MAC prefix"

def validateFds : Except String Unit :=
  [("destination_v4", fds.destinationV4), ("destination_v6", fds.destinationV6), ("source_v4", fds.sourceV4),
    ("source_v6", fds.sourceV6), ("mac", fds.mac), ("domain", fds.domain)].forM fun entry =>
    ensure (0 ≤ entry.2.toInt) ("invalid " ++ entry.1 ++ " routing map fd " ++ toString entry.2.toInt)

def emitRoutingProgram : Except String RoutingBytecode := do
  validatePlan plan
  validateFds fds
  let (_, asm) ← (emitProgram plan fds).1 { traceLayout := traceLayout plan }
  asm.finish

end Honk.Codegen
