import Honk.Routing.Trie
import Honk.Routing.FactMap

namespace Honk.Routing

open Honk.Lib

abbrev Mac := Vector Byte 6

/-- Identity of a shared matcher (`Arc::as_ptr`). -/
abbrev MatcherPtr := ℕ

structure PortRange where
  start : BitVec 16
  «end» : BitVec 16

def PortRange.contains (range : PortRange) (port : BitVec 16) : Bool := port ≥ range.start && port ≤ range.end

inductive CompiledPredicate where
  | domain (id : ℕ)
  | destinationIp (matcher : MatcherPtr)
  | sourceIp (matcher : MatcherPtr)
  | destinationPort (ranges : List PortRange)
  | sourcePort (ranges : List PortRange)
  | protocol (mask : Byte)
  | ipVersion (mask : Byte)
  | dscp (values : List Byte)
  | processName (names : List String)
  | mac (macs : List Mac)

structure CompiledCondition where
  not : Bool
  predicate : CompiledPredicate

structure IpMatcher where
  nets : List IpNet
  trie : BinaryLpmTrie
  trie_eq : trie = BinaryLpmTrie.fromNets nets

def IpMatcher.new (nets : List IpNet) : IpMatcher := ⟨nets, _, rfl⟩

def IpMatcher.matches (matcher : IpMatcher) (ip : IpAddr) : Bool := matcher.trie.matches ip

abbrev DirectMark := { mark : BitVec 32 // mark ≠ 0 }

structure RouteAction where
  outbound : String
  must : Bool
  mark : Option DirectMark
  directMarkIndex : Option Byte

structure CompiledRoute where
  id : BitVec 32
  name : String
  ruleType : String
  rulePayload : String
  conditions : List CompiledCondition
  action : RouteAction

structure MacText where
  text : String
  ascii : text.toList.all (fun c => c.toNat < 128)

structure ConnectionInfo where
  domain : Option String
  dstIp : IpAddr
  dstPort : BitVec 16
  srcIp : IpAddr
  srcPort : BitVec 16
  protocol : String
  processName : Option String
  mac : Option MacText
  dscp : Option Byte

structure PredicateInput where
  domain : Option String
  dstIp : Option IpAddr
  dstPort : Option (BitVec 16)
  srcIp : Option IpAddr
  srcPort : Option (BitVec 16)
  protocol : String
  processName : Option String
  mac : Option MacText
  dscp : Option Byte

/-- The matchers stand behind their pointers, so two rules with one pointer share one matcher. -/
structure Router where
  matchers : MatcherPtr → IpMatcher
  routes : List CompiledRoute
  fallback : RouteAction
  domainMatchers : List (String → Bool)
  policyFingerprint : Vector Byte 32

structure RouteMatch where
  ruleId : BitVec 32
  action : RouteAction
  ruleName : String
  ruleType : String
  rulePayload : String

def asBytes (s : String) : List Byte := s.toUTF8.data.toList.map UInt8.toBitVec

/-- `str::contains` searches the bytes. -/
def strContains (name pattern : String) : Bool := decide (asBytes pattern <:+: asBytes name)

def eqIgnoreAsciiCase (a b : String) : Bool := a.toList.map Char.toLower == b.toList.map Char.toLower

def protocolValue (protocol : String) : Byte :=
  if eqIgnoreAsciiCase protocol "tcp" then 1 else if eqIgnoreAsciiCase protocol "udp" then 2 else 0

def hexDigit? (c : Char) : Option ℕ :=
  if '0' ≤ c ∧ c ≤ '9' then some (c.toNat - 48)
  else if 'a' ≤ c ∧ c ≤ 'f' then some (c.toNat - 87)
  else if 'A' ≤ c ∧ c ≤ 'F' then some (c.toNat - 55)
  else none

def hexDigits? (chars : List Char) : Option ℕ :=
  chars.foldlM (fun value c => (hexDigit? c).bind fun digit =>
    if value * 16 + digit < 256 then some (value * 16 + digit) else none) 0

/-- `u8::from_str_radix(_, 16)`, which takes a leading plus sign. -/
def fromStrRadix16 (chars : List Char) : Option Byte :=
  match chars with
  | [] => none
  | ['+'] => none
  | '+' :: rest => (hexDigits? rest).map (BitVec.ofNat 8)
  | src => (hexDigits? src).map (BitVec.ofNat 8)

def hexByte (b : Byte) : List Char := [Nat.digitChar (b.toNat / 16), Nat.digitChar (b.toNat % 16)]

def normalizeMac (s : String) : Option (List Char) :=
  let stripped := s.toList.filter (fun c => c != ':' && c != '-' && c != '.')
  if stripped.length ≠ 12 then none
  else
    ([0, 2, 4, 6, 8, 10].mapM fun i => fromStrRadix16 ((stripped.drop i).take 2)).map fun bytes =>
      [':'].intercalate (bytes.map hexByte)

def normalizeMacBytes (s : String) : Option Mac :=
  (normalizeMac s).bind fun canonical =>
    (canonical.splitOn ':').zipIdx.foldlM (fun bytes part =>
      (fromStrRadix16 part.1).map fun value => bytes.setIfInBounds part.2 value) (Vector.replicate 6 0)

def CompiledRoute.toMatch (route : CompiledRoute) : RouteMatch where
  ruleId := route.id
  action := route.action
  ruleName := route.name
  ruleType := route.ruleType
  rulePayload := route.rulePayload

def ConnectionInfo.input (conn : ConnectionInfo) : PredicateInput where
  domain := conn.domain
  dstIp := some conn.dstIp
  dstPort := some conn.dstPort
  srcIp := some conn.srcIp
  srcPort := some conn.srcPort
  protocol := conn.protocol
  processName := conn.processName
  mac := conn.mac
  dscp := conn.dscp

namespace Router

variable (router : Router)

def evaluatePredicate (predicate : CompiledPredicate) (input : PredicateInput)
    (domainBitmap : Option DomainRouting) : Option Bool :=
  match predicate with
  | .domain id =>
    match domainBitmap with
    | some bitmap => some (decide (id < routingFactCapacity) && bitmap.bit id)
    | none => input.domain.map fun domain => (router.domainMatchers[id]?).any fun matcher => matcher domain
  | .destinationIp matcher => input.dstIp.map fun ip => (router.matchers matcher).matches ip
  | .sourceIp matcher => input.srcIp.map fun ip => (router.matchers matcher).matches ip
  | .destinationPort ranges => input.dstPort.map fun port => ranges.any fun range => range.contains port
  | .sourcePort ranges => input.srcPort.map fun port => ranges.any fun range => range.contains port
  | .protocol mask => some (protocolValue input.protocol &&& mask != 0)
  | .ipVersion mask => input.dstIp.map fun ip => mask &&& (match ip with | .v4 _ => 1 | .v6 _ => 2) != 0
  | .dscp values => input.dscp.map fun dscp => values.any fun value => value == dscp
  | .processName patterns => input.processName.map fun name => patterns.any fun pattern => strContains name pattern
  | .mac macs => input.mac.map fun mac => (normalizeMacBytes mac.text).any fun mac => macs.any fun value => value == mac

def conditionMatched (condition : CompiledCondition) (conn : ConnectionInfo) (domainBitmap : Option DomainRouting) : Bool :=
  let matched := (router.evaluatePredicate condition.predicate conn.input domainBitmap).getD false
  if condition.not then !matched else matched

def matchesRoute (route : CompiledRoute) (conn : ConnectionInfo) (domainBitmap : Option DomainRouting) : Bool :=
  !route.conditions.isEmpty && route.conditions.all fun condition => router.conditionMatched condition conn domainBitmap

def routeFullWithDomainBitmap (conn : ConnectionInfo) (domainBitmap : Option DomainRouting) : Option RouteMatch :=
  router.routes.findSome? fun route => if router.matchesRoute route conn domainBitmap then some route.toMatch else none

end Router

end Honk.Routing
