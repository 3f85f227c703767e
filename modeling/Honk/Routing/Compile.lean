import Honk.Routing.Plan

namespace Honk.Routing

open Honk.Lib

inductive DialMode where
  | ip
  | domain
  | domainPlus
  | domainPlusPlus
  deriving DecidableEq

def DialMode.toByte : DialMode → Byte
  | .ip => 0
  | .domain => 1
  | .domainPlus => 2
  | .domainPlusPlus => 3

abbrev OutboundIds := List (String × Byte)

def outboundDirect : Byte := 0
def outboundBlock : Byte := 1
def outboundControlPlaneRouting : Byte := 0xFD

def routingFeatureDomain : BitVec 32 := 1
def routingFeatureDomainReroute : BitVec 32 := 2
def routingFeatureProcess : BitVec 32 := 4

def routingProcessMaxLen : ℕ := 48

def isGenericPortRule (conditions : List KernelCondition) : Bool :=
  (conditions.any fun condition => !condition.not && match condition.predicate with | .destinationPort _ => true | _ => false) &&
  conditions.all fun condition =>
    match condition.predicate with
    | .domain _ | .processName _ | .mac _ | .dscp _ => false
    | _ => true

def KernelAction.fromRoute (action : RouteAction) (outboundIds : OutboundIds) (dialMode : DialMode)
    (conditions : List KernelCondition) : Except String KernelAction :=
  match outboundIds.lookup action.outbound with
  | none => .error ("unknown outbound '" ++ action.outbound ++ "'")
  | some outbound =>
    let punt := !action.must && dialMode == .domainPlusPlus && isGenericPortRule conditions &&
      !(outbound == outboundDirect || outbound == outboundBlock)
    .ok {
      outbound := if punt then outboundControlPlaneRouting else outbound
      must := action.must
      mark := action.mark.elim 0 Subtype.val
      directMarkIndex := action.directMarkIndex }

structure FactAllocator (K : Type) where
  ids : List (K × ℕ) := []

def FactAllocator.alloc {K : Type} [DecidableEq K] (allocator : FactAllocator K) (key : K) (kind : String) :
    Except String ((ℕ × Bool) × FactAllocator K) :=
  match allocator.ids.lookup key with
  | some id => .ok ((id, false), allocator)
  | none =>
    let id := allocator.ids.length
    if id < routingFactCapacity then .ok ((id, true), ⟨allocator.ids ++ [(key, id)]⟩)
    else .error (kind ++ " fact capacity exceeded (" ++ toString routingFactCapacity ++ ")")

def validateRanges (ranges : List PortRange) (source : String) : Except String Unit :=
  match ranges with
  | [] => .ok ()
  | range :: rest =>
    if range.start ≤ range.end then validateRanges rest source
    else .error ("invalid port range " ++ toString range.start.toNat ++ "-" ++ toString range.end.toNat ++
      " in rule '" ++ source ++ "'")

def hexMask (mask : Byte) : String := "0x" ++ String.ofList (Nat.toDigits 16 mask.toNat)

def addIpFacts (v4 v6 : FactMap) (nets : List IpNet) (id : ℕ) : FactMap × FactMap :=
  nets.foldl (fun facts net =>
    match net with
    | .v4 net => (facts.1 ++ [(canonicalLpmKey (v4Bytes net.network) net.prefixLen, bitmapBit id)], facts.2)
    | .v6 net => (facts.1, facts.2 ++ [(canonicalLpmKey net.network net.prefixLen, bitmapBit id)])) (v4, v6)

def addMacFact (facts : FactMap) (mac : Mac) (id : ℕ) : FactMap := facts ++ [(canonicalLpmKey (macBytes mac) 128, bitmapBit id)]

variable (facts : RoutingFactMaps)

def RoutingFactMaps.addDestination (nets : List IpNet) (id : ℕ) : RoutingFactMaps :=
  let added := addIpFacts facts.destinationV4 facts.destinationV6 nets id
  { facts with destinationV4 := added.1, destinationV6 := added.2 }

def RoutingFactMaps.addSource (nets : List IpNet) (id : ℕ) : RoutingFactMaps :=
  let added := addIpFacts facts.sourceV4 facts.sourceV6 nets id
  { facts with sourceV4 := added.1, sourceV6 := added.2 }

def RoutingFactMaps.addMacs (macs : List Mac) (id : ℕ) : RoutingFactMaps :=
  { facts with mac := macs.foldl (fun entries mac => addMacFact entries mac id) facts.mac }

def RoutingFactMaps.inherit : RoutingFactMaps where
  destinationV4 := inheritPrefixBits facts.destinationV4
  destinationV6 := inheritPrefixBits facts.destinationV6
  sourceV4 := inheritPrefixBits facts.sourceV4
  sourceV6 := inheritPrefixBits facts.sourceV6
  mac := inheritPrefixBits facts.mac

structure CompileState where
  facts : RoutingFactMaps := {}
  destFact : FactAllocator MatcherPtr := {}
  sourceFact : FactAllocator MatcherPtr := {}
  macFact : FactAllocator (List Mac) := {}
  hasProcess : Bool := false

variable (router : Router)

def lowerPredicate (route : CompiledRoute) (st : CompileState) : CompiledPredicate → Except String (KernelPredicate × CompileState)
  | .domain id =>
    if id < router.domainMatchers.length then .ok (.domain id, st)
    else .error ("unknown domain predicate id " ++ toString id)
  | .destinationIp matcher => do
    let ((id, new), destFact) ← st.destFact.alloc matcher "destination IP"
    let facts := if new then st.facts.addDestination (router.matchers matcher).nets id else st.facts
    .ok (.destinationIp id, { st with facts, destFact })
  | .sourceIp matcher => do
    let ((id, new), sourceFact) ← st.sourceFact.alloc matcher "source IP"
    let facts := if new then st.facts.addSource (router.matchers matcher).nets id else st.facts
    .ok (.sourceIp id, { st with facts, sourceFact })
  | .mac macs => do
    let ((id, new), macFact) ← st.macFact.alloc macs "MAC"
    let facts := if new then st.facts.addMacs macs id else st.facts
    .ok (.mac id, { st with facts, macFact })
  | .destinationPort ranges => do
    validateRanges ranges route.name
    .ok (.destinationPort ranges, st)
  | .sourcePort ranges => do
    validateRanges ranges route.name
    .ok (.sourcePort ranges, st)
  | .protocol mask =>
    if mask &&& ~~~3 = 0 then .ok (.protocol mask, st)
    else .error ("invalid protocol mask " ++ hexMask mask)
  | .ipVersion mask =>
    if mask &&& ~~~3 = 0 then .ok (.ipVersion mask, st)
    else .error ("invalid IP version mask " ++ hexMask mask)
  | .dscp values => .ok (.dscp values, st)
  | .processName names =>
    if names.all fun name => decide ((asBytes name).length ≤ routingProcessMaxLen) then
      .ok (.processName (names.map asBytes), { st with hasProcess := true })
    else .error ("process matcher exceeds " ++ toString routingProcessMaxLen ++ " bytes in rule '" ++ route.name ++ "'")

def lowerConditions (router : Router) (route : CompiledRoute) (st : CompileState) :
    List CompiledCondition → Except String (List KernelCondition × CompileState)
  | [] => .ok ([], st)
  | condition :: conditions => do
    let (predicate, st) ← lowerPredicate router route st condition.predicate
    let (lowered, st) ← lowerConditions router route st conditions
    .ok (⟨condition.not, predicate⟩ :: lowered, st)

def isControl (c : Char) : Bool := c.toNat < 32 || (127 ≤ c.toNat && c.toNat < 160)

def ruleSource (route : CompiledRoute) : String :=
  let source := if route.rulePayload.isEmpty then route.name
    else route.name ++ " " ++ route.ruleType ++ " " ++ route.rulePayload
  String.ofList (source.toList.map fun c => if isControl c then ' ' else c)

def lowerRoute (outboundIds : OutboundIds) (dialMode : DialMode) (st : CompileState)
    (route : CompiledRoute) : Except String (KernelRule × CompileState) := do
  let (conditions, st) ← lowerConditions router route st route.conditions
  let action ← (KernelAction.fromRoute route.action outboundIds dialMode conditions).mapError fun _ =>
    "unknown outbound '" ++ route.action.outbound ++ "' in rule '" ++ route.name ++ "'"
  .ok ({ id := route.id, source := ruleSource route, conditions, action }, st)

def lowerRoutes (router : Router) (outboundIds : OutboundIds) (dialMode : DialMode) (st : CompileState) :
    List CompiledRoute → Except String (List KernelRule × CompileState)
  | [] => .ok ([], st)
  | route :: routes => do
    let (rule, st) ← lowerRoute router outboundIds dialMode st route
    let (rules, st) ← lowerRoutes router outboundIds dialMode st routes
    .ok (rule :: rules, st)

def planFeatures (hasDomain hasProcess : Bool) (dialMode : DialMode) : BitVec 32 :=
  let features := if hasDomain then
      routingFeatureDomain ||| (match dialMode with
        | .domain | .domainPlusPlus => routingFeatureDomainReroute
        | _ => 0)
    else 0
  if hasProcess then features ||| routingFeatureProcess else features

def planDigestInput (outboundIds : OutboundIds) (dialMode : DialMode) (fallback : KernelAction) : List Byte :=
  asBytes "honk.routing.plan.v2" ++ [0] ++ router.policyFingerprint.toList ++ [dialMode.toByte] ++ [fallback.outbound] ++
    (outboundIds.insertionSort fun a b => a.1 ≤ b.1).flatMap fun binding => asBytes binding.1 ++ [0, binding.2]

/-- `sha256` stands for the hash crate. -/
def RoutingPushPlan.compile (sha256 : List Byte → Vector Byte 32) (router : Router) (outboundIds : OutboundIds)
    (dialMode : DialMode) : Except String RoutingPushPlan := do
  let fallback ← (KernelAction.fromRoute router.fallback outboundIds dialMode []).mapError fun _ =>
    "unknown fallback outbound '" ++ router.fallback.outbound ++ "'"
  let domainPredicateCount := router.domainMatchers.length
  if domainPredicateCount > routingFactCapacity then
    .error ("domain predicate capacity exceeded (" ++ toString domainPredicateCount ++ " > " ++ toString routingFactCapacity ++ ")")
  let (rules, st) ← lowerRoutes router outboundIds dialMode {} router.routes
  .ok {
    rules
    facts := st.facts.inherit
    fallback
    features := planFeatures (domainPredicateCount != 0) st.hasProcess dialMode
    fingerprint := sha256 (planDigestInput router outboundIds dialMode fallback)
    hasDomainRules := domainPredicateCount != 0
    domainPredicateCount
    traceEnabled := false }

end Honk.Routing
