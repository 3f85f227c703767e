import Honk.Routing.Router

namespace Honk.Routing

open Honk.Lib

inductive KernelPredicate where
  | domain (id : ℕ)
  | destinationIp (id : ℕ)
  | sourceIp (id : ℕ)
  | mac (id : ℕ)
  | destinationPort (ranges : List PortRange)
  | sourcePort (ranges : List PortRange)
  | protocol (mask : Byte)
  | ipVersion (mask : Byte)
  | dscp (values : List Byte)
  | processName (names : List (List Byte))

structure KernelCondition where
  not : Bool
  predicate : KernelPredicate

structure KernelAction where
  outbound : Byte
  must : Bool
  mark : BitVec 32
  directMarkIndex : Option Byte

structure KernelRule where
  id : BitVec 32
  source : String
  conditions : List KernelCondition
  action : KernelAction

structure RoutingFactMaps where
  destinationV4 : FactMap := []
  destinationV6 : FactMap := []
  sourceV4 : FactMap := []
  sourceV6 : FactMap := []
  mac : FactMap := []

structure RoutingPushPlan where
  rules : List KernelRule
  facts : RoutingFactMaps
  fallback : KernelAction
  features : BitVec 32
  fingerprint : Vector Byte 32
  hasDomainRules : Bool
  domainPredicateCount : ℕ
  traceEnabled : Bool

namespace KernelPredicate

def isEmpty : KernelPredicate → Bool
  | .destinationPort ranges | .sourcePort ranges => ranges.isEmpty
  | .protocol mask | .ipVersion mask => mask == 0
  | .dscp values => values.isEmpty
  | .processName names => names.isEmpty
  | .domain _ | .destinationIp _ | .sourceIp _ | .mac _ => false

def isPort : KernelPredicate → Bool
  | .destinationPort _ | .sourcePort _ => true
  | _ => false

end KernelPredicate

namespace KernelRule

def foldedFalse (rule : KernelRule) : Bool :=
  rule.conditions.isEmpty || rule.conditions.any fun condition => !condition.not && condition.predicate.isEmpty

def runtimeConditions (rule : KernelRule) : List (ℕ × KernelCondition) :=
  let live := (rule.conditions.zipIdx.map Prod.swap).filter fun entry => !entry.2.predicate.isEmpty
  live.filter (fun entry => entry.2.predicate.isPort) ++ live.filter (fun entry => !entry.2.predicate.isPort)

end KernelRule

structure KernelView where
  domain : ℕ → Bool
  destination : ℕ → Bool
  source : ℕ → Bool
  mac : ℕ → Bool
  dstPort : ℕ
  srcPort : ℕ
  l4proto : BitVec 32
  ipVersion : BitVec 32
  dscp : BitVec 32
  pname : Option (List Byte)

def PortRange.containsNat (range : PortRange) (port : ℕ) : Bool :=
  decide (range.start.toNat ≤ port) && decide (port ≤ range.end.toNat)

def KernelPredicate.eval (view : KernelView) : KernelPredicate → Bool
  | .domain id => view.domain id
  | .destinationIp id => view.destination id
  | .sourceIp id => view.source id
  | .mac id => view.mac id
  | .destinationPort ranges => ranges.any fun range => range.containsNat view.dstPort
  | .sourcePort ranges => ranges.any fun range => range.containsNat view.srcPort
  | .protocol mask => view.l4proto &&& mask.zeroExtend 32 != 0
  | .ipVersion mask => view.ipVersion &&& mask.zeroExtend 32 != 0
  | .dscp values => values.any fun value => value.zeroExtend 32 == view.dscp
  | .processName names => view.pname.any fun pname => names.any fun name => decide (name <:+: pname)

def KernelCondition.holds (view : KernelView) (condition : KernelCondition) : Bool := condition.predicate.eval view != condition.not

def KernelRule.matches (view : KernelView) (rule : KernelRule) : Bool :=
  !rule.conditions.isEmpty && rule.conditions.all fun condition => condition.holds view

def RoutingPushPlan.firstMatch (plan : RoutingPushPlan) (view : KernelView) : Option KernelRule :=
  plan.rules.find? fun rule => rule.matches view

def v4Bytes (octets : Vector Byte 4) : Vector Byte 16 := octets ++ (Vector.replicate 12 0 : Vector Byte 12)

def macBytes (mac : Mac) : Vector Byte 16 := (Vector.replicate 10 0 : Vector Byte 10) ++ mac

def ipBit (v4 v6 : FactMap) (ip : IpAddr) (id : ℕ) : Bool :=
  match ip with
  | .v4 octets => factBit v4 (canonicalLpmKey (v4Bytes octets) 32) id
  | .v6 octets => factBit v6 (canonicalLpmKey octets 128) id

def RoutingPushPlan.view (plan : RoutingPushPlan) (conn : ConnectionInfo) (dscp : Byte) (bitmap : DomainRouting) : KernelView where
  domain id := bitmap.bit id
  destination id := ipBit plan.facts.destinationV4 plan.facts.destinationV6 conn.dstIp id
  source id := ipBit plan.facts.sourceV4 plan.facts.sourceV6 conn.srcIp id
  mac id := (conn.mac.bind fun mac => normalizeMacBytes mac.text).any fun mac =>
    factBit plan.facts.mac (canonicalLpmKey (macBytes mac) 128) id
  dstPort := conn.dstPort.toNat
  srcPort := conn.srcPort.toNat
  l4proto := (protocolValue conn.protocol).zeroExtend 32
  ipVersion := match conn.dstIp with | .v4 _ => 1 | .v6 _ => 2
  dscp := dscp.zeroExtend 32
  pname := conn.processName.map asBytes

end Honk.Routing
