import Honk.Lib.Encoding
import Honk.Routing.Build

namespace Honk.Routing

open Honk.Lib Honk.Lib.Sorted
open List hiding Vector

abbrev Text := { text : String // (asBytes text).length < 2 ^ 64 }

/-- A compiled predicate as the encoder reads it: a matcher is the networks it was built from. -/
inductive PolicyPredicate where
  | domain (id : BitVec 32)
  | destinationIp (nets : Sized IpNet)
  | sourceIp (nets : Sized IpNet)
  | destinationPort (ranges : Sized PortRange)
  | sourcePort (ranges : Sized PortRange)
  | protocol (mask : Byte)
  | ipVersion (mask : Byte)
  | dscp (values : Sized Byte)
  | processName (patterns : Sized Text)
  | mac (macs : Sized Mac)

structure PolicyCondition where
  not : Bool
  predicate : PolicyPredicate

structure PolicyAction where
  outbound : Text
  must : Bool
  mark : Option DirectMark
  directMarkIndex : Option Byte

variable (action : PolicyAction)

def PolicyAction.routeAction : RouteAction := ⟨action.outbound.1, action.must, action.mark, action.directMarkIndex⟩

structure PolicyRoute where
  id : BitVec 32
  name : Text
  ruleType : Text
  rulePayload : Text
  priority : BitVec 32
  conditions : Sized PolicyCondition
  action : PolicyAction

def markIndex (directMarks : List (BitVec 32)) (action : RouteAction) : Option Byte :=
  if action.isTerminalDirectMark then
    (action.mark.bind fun mark => binarySearch directMarks mark.1).map (BitVec.ofNat 8)
  else none

def policyActions (routes : List PolicyRoute) (fallback : PolicyAction) : List RouteAction :=
  routes.map (fun route => route.action.routeAction) ++ [fallback.routeAction]

structure Policy where
  routes : Sized PolicyRoute
  domainKeys : Sized (Sized (Byte × Text))
  fallback : PolicyAction
  geoFingerprint : Vector Byte 32
  indexed : ∀ action ∈ policyActions routes.1 fallback,
    action.directMarkIndex = markIndex (directMarkTable (policyActions routes.1 fallback)) action

def encodeBool (value : Bool) : List Byte := [if value then 1 else 0]

def encodeU16 (value : BitVec 16) : List Byte := leBytes 2 value.toNat

def encodeU32 (value : BitVec 32) : List Byte := leBytes 4 value.toNat

def encodeString (text : Text) : List Byte := leBytes 8 (asBytes text.1).length ++ asBytes text.1

def encodeAction : List Byte := encodeString action.outbound ++ encodeBool action.must ++ encodeU32 (action.mark.elim 0 Subtype.val)

def encodePortRange (range : PortRange) : List Byte := encodeU16 range.start ++ encodeU16 range.end

def encodeIpNet : IpNet → List Byte
  | .v4 net => 4 :: net.addr.toList ++ [BitVec.ofNat 8 net.prefixLen]
  | .v6 net => 6 :: net.addr.toList ++ [BitVec.ofNat 8 net.prefixLen]

def encodePredicate : PolicyPredicate → List Byte
  | .domain id => 0 :: encodeU32 id
  | .destinationIp nets => 1 :: counted encodeIpNet nets
  | .sourceIp nets => 2 :: counted encodeIpNet nets
  | .destinationPort ranges => 3 :: counted encodePortRange ranges
  | .sourcePort ranges => 4 :: counted encodePortRange ranges
  | .protocol mask => [5, mask]
  | .ipVersion mask => [6, mask]
  | .dscp values => 7 :: counted (fun value => [value]) values
  | .processName patterns => 8 :: counted encodeString patterns
  | .mac macs => 9 :: counted (fun mac => mac.toList) macs

def encodeCondition (condition : PolicyCondition) : List Byte := encodeBool condition.not ++ encodePredicate condition.predicate

def encodeRoute (route : PolicyRoute) : List Byte :=
  encodeU32 route.id ++ encodeString route.name ++ encodeString route.ruleType ++
    encodeString route.rulePayload ++ encodeU32 route.priority ++
    counted encodeCondition route.conditions ++ encodeAction route.action

def encodeDomainKey (key : Sized (Byte × Text)) : List Byte := counted (fun entry => entry.1 :: encodeString entry.2) key

def Policy.encoding (policy : Policy) : List Byte :=
  asBytes "honk.routing-policy.v2\x00" ++ encodeAction policy.fallback ++
    policy.geoFingerprint.toList ++ counted encodeRoute policy.routes ++
    counted encodeDomainKey policy.domainKeys

theorem asBytes_injective : Function.Injective asBytes := by
  intro a b h
  have hd := map_injective_iff.mpr (fun x y hx => UInt8.toBitVec_inj.mp hx) h
  have ha : a.toUTF8 = b.toUTF8 := by
    apply ByteArray.ext
    exact Array.toList_inj.mp hd
  exact String.toByteArray_inj.mp ha

theorem encodeU16_delimited : SelfDelimiting encodeU16 id :=
  (SelfDelimiting.leBytes fun value : BitVec 16 => value.isLt).weaken
    fun _ _ => BitVec.eq_of_toNat_eq

theorem encodeU32_delimited : SelfDelimiting encodeU32 id :=
  (SelfDelimiting.leBytes fun value : BitVec 32 => value.isLt).weaken
    fun _ _ => BitVec.eq_of_toNat_eq

theorem encodeBool_delimited : SelfDelimiting encodeBool id := .of_length (fun _ => rfl) (by decide)

theorem encodeByte_delimited : SelfDelimiting (fun value : Byte => [value]) id :=
  .of_length (fun _ => rfl) fun _ _ => singleton_inj.mp

theorem encodeString_delimited : SelfDelimiting encodeString id := by
  have hb := encodeByte_delimited.counted.comp fun text : Text => ⟨asBytes text.1, text.2⟩
  have hc : (fun text : Text => counted (fun value : Byte => [value]) ⟨asBytes text.1, text.2⟩) = encodeString := by
    funext text
    rw [counted, encodeString, flatMap_singleton']
  rw [hc] at hb
  refine hb.weaken fun a b h => Subtype.ext (asBytes_injective ?_)
  simpa using h

def PolicyAction.unindexed : PolicyAction := { action with directMarkIndex := none }

theorem encodeAction_delimited : SelfDelimiting encodeAction PolicyAction.unindexed := by
  have hc := ((encodeString_delimited.comp PolicyAction.outbound).append (encodeBool_delimited.comp PolicyAction.must)).append
      (encodeU32_delimited.comp fun action : PolicyAction => action.mark.elim 0 Subtype.val)
  refine hc.weaken fun a b h => ?_
  obtain ⟨outbound, must, mark, index⟩ := a
  obtain ⟨outbound', must', mark', index'⟩ := b
  obtain ⟨⟨rfl, rfl⟩, hm⟩ : (outbound = outbound' ∧ must = must') ∧ mark.elim 0 Subtype.val = mark'.elim 0 Subtype.val := by simpa using h
  have hs : mark = mark' := by
    cases mark with
    | none =>
      cases mark' with
      | none => rfl
      | some mark' => exact absurd hm.symm mark'.2
    | some mark =>
      cases mark' with
      | none => exact absurd hm mark.2
      | some mark' => exact congrArg some (Subtype.ext hm)
  subst hs
  rfl

theorem encodePortRange_delimited : SelfDelimiting encodePortRange id := by
  refine ((encodeU16_delimited.comp PortRange.start).append (encodeU16_delimited.comp PortRange.end)).weaken fun a b h => ?_
  obtain ⟨start, stop⟩ := a
  obtain ⟨start', stop'⟩ := b
  obtain ⟨rfl, rfl⟩ : start = start' ∧ stop = stop' := by simpa using h
  rfl

theorem encodeOctets_delimited (n : ℕ) : SelfDelimiting (fun octets : Vector Byte n => octets.toList) id :=
  .of_length (fun octets => octets.length_toList) fun _ _ => Vector.toList_inj.mp

theorem encodeNet_delimited (hn : 8 * n < 256) :
    SelfDelimiting (fun net : Net n => net.addr.toList ++ [BitVec.ofNat 8 net.prefixLen]) id := by
  refine ((encodeOctets_delimited n).comp Net.addr |>.append
    (encodeByte_delimited.comp fun net : Net n => BitVec.ofNat 8 net.prefixLen)).weaken fun a b h => ?_
  obtain ⟨addr, prefixLen, hle⟩ := a
  obtain ⟨addr', prefixLen', hle'⟩ := b
  obtain ⟨rfl, hb⟩ : addr = addr' ∧ BitVec.ofNat 8 prefixLen = BitVec.ofNat 8 prefixLen' := by simpa using h
  have hl : prefixLen = prefixLen' := by
    have hm := congrArg BitVec.toNat hb
    rwa [BitVec.toNat_ofNat, BitVec.toNat_ofNat, Nat.mod_eq_of_lt (by omega), Nat.mod_eq_of_lt (by omega)] at hm
  subst hl
  rfl

theorem encodeIpNet_delimited : SelfDelimiting encodeIpNet id := by
  intro a b s t h
  cases a with
  | v4 net =>
    cases b with
    | v4 net' =>
      obtain ⟨hn, hs⟩ := encodeNet_delimited (by decide) net net' s t (List.cons.inj h).2
      exact ⟨congrArg IpNet.v4 hn, hs⟩
    | v6 net' => exact absurd (List.cons.inj h).1 (by decide)
  | v6 net =>
    cases b with
    | v4 net' => exact absurd (List.cons.inj h).1 (by decide)
    | v6 net' =>
      obtain ⟨hn, hs⟩ := encodeNet_delimited (by decide) net net' s t (List.cons.inj h).2
      exact ⟨congrArg IpNet.v6 hn, hs⟩

theorem counted_delimited (h : SelfDelimiting encode id) : SelfDelimiting (counted encode) id :=
  h.counted.weaken fun _ _ hv => Subtype.ext (by simpa using hv)

theorem encodePredicate_delimited : SelfDelimiting encodePredicate id := by
  intro a b s t h
  -- Different constructors have different tags.
  cases a <;> cases b <;> first
    | exact absurd (List.cons.inj h).1 (by decide)
    | skip
  case domain.domain => exact encodeU32_delimited.tagged PolicyPredicate.domain h
  case destinationIp.destinationIp => exact (counted_delimited encodeIpNet_delimited).tagged PolicyPredicate.destinationIp h
  case sourceIp.sourceIp => exact (counted_delimited encodeIpNet_delimited).tagged PolicyPredicate.sourceIp h
  case destinationPort.destinationPort =>
    exact (counted_delimited encodePortRange_delimited).tagged PolicyPredicate.destinationPort h
  case sourcePort.sourcePort => exact (counted_delimited encodePortRange_delimited).tagged PolicyPredicate.sourcePort h
  case protocol.protocol => exact encodeByte_delimited.tagged PolicyPredicate.protocol h
  case ipVersion.ipVersion => exact encodeByte_delimited.tagged PolicyPredicate.ipVersion h
  case dscp.dscp => exact (counted_delimited encodeByte_delimited).tagged PolicyPredicate.dscp h
  case processName.processName => exact (counted_delimited encodeString_delimited).tagged PolicyPredicate.processName h
  case mac.mac => exact (counted_delimited (encodeOctets_delimited 6)).tagged PolicyPredicate.mac h

theorem encodeCondition_delimited : SelfDelimiting encodeCondition id := by
  refine ((encodeBool_delimited.comp PolicyCondition.not).append
    (encodePredicate_delimited.comp PolicyCondition.predicate)).weaken fun a b h => ?_
  obtain ⟨negated, predicate⟩ := a
  obtain ⟨negated', predicate'⟩ := b
  obtain ⟨rfl, rfl⟩ : negated = negated' ∧ predicate = predicate' := by simpa using h
  rfl

def PolicyRoute.unindexed (route : PolicyRoute) : PolicyRoute := { route with action := route.action.unindexed }

theorem encodeRoute_delimited : SelfDelimiting encodeRoute PolicyRoute.unindexed := by
  refine ((((((encodeU32_delimited.comp PolicyRoute.id).append (encodeString_delimited.comp PolicyRoute.name)).append
    (encodeString_delimited.comp PolicyRoute.ruleType)).append
    (encodeString_delimited.comp PolicyRoute.rulePayload)).append
    (encodeU32_delimited.comp PolicyRoute.priority)).append
    ((counted_delimited encodeCondition_delimited).comp PolicyRoute.conditions)).append
    (encodeAction_delimited.comp PolicyRoute.action) |>.weaken fun a b h => ?_
  obtain ⟨id, name, ruleType, rulePayload, priority, conditions, action⟩ := a
  obtain ⟨id', name', ruleType', rulePayload', priority', conditions', action'⟩ := b
  obtain ⟨⟨⟨⟨⟨⟨rfl, rfl⟩, rfl⟩, rfl⟩, rfl⟩, rfl⟩, ha⟩ :
      (((((id = id' ∧ name = name') ∧ ruleType = ruleType') ∧ rulePayload = rulePayload') ∧
        priority = priority') ∧ conditions = conditions') ∧
        action.unindexed = action'.unindexed := by simpa using h
  rw [PolicyRoute.unindexed, PolicyRoute.unindexed, ha]

theorem encodeDomainKey_delimited : SelfDelimiting encodeDomainKey id := by
  refine counted_delimited (((encodeByte_delimited.comp Prod.fst).append
    (encodeString_delimited.comp Prod.snd)).weaken fun a b h => ?_)
  exact h

theorem encoding_delimited : SelfDelimiting (fun policy : Policy => encodeAction policy.fallback ++
        policy.geoFingerprint.toList ++ counted encodeRoute policy.routes ++ counted encodeDomainKey policy.domainKeys)
      fun policy => (((policy.fallback.unindexed, policy.geoFingerprint), policy.routes.1.map PolicyRoute.unindexed), policy.domainKeys) :=
  (((encodeAction_delimited.comp Policy.fallback).append
    ((encodeOctets_delimited 32).comp Policy.geoFingerprint)).append
    (encodeRoute_delimited.counted.comp Policy.routes)).append
    ((counted_delimited encodeDomainKey_delimited).comp Policy.domainKeys)

def RouteAction.unindexed (action : RouteAction) : RouteAction := { action with directMarkIndex := none }

theorem directMarkTable_unindexed (actions : List RouteAction) :
    directMarkTable (actions.map RouteAction.unindexed) = directMarkTable actions := by
  rw [directMarkTable, directMarkTable, filter_map, filterMap_map]
  rfl

theorem policyActions_unindexed (policy : Policy) : (policyActions policy.routes.1 policy.fallback).map RouteAction.unindexed =
      policyActions (policy.routes.1.map PolicyRoute.unindexed) policy.fallback.unindexed := by
  simp only [policyActions, map_append, map_map, map_cons, map_nil]
  rfl

theorem PolicyAction.eq_of_unindexed {a b : PolicyAction} {marks : List (BitVec 32)} (h : a.unindexed = b.unindexed)
    (ha : a.directMarkIndex = markIndex marks a.routeAction) (hb : b.directMarkIndex = markIndex marks b.routeAction) : a = b := by
  obtain ⟨outbound, must, mark, index⟩ := a
  obtain ⟨outbound', must', mark', index'⟩ := b
  obtain ⟨rfl, rfl, rfl⟩ : outbound = outbound' ∧ must = must' ∧ mark = mark' := by simpa [PolicyAction.unindexed] using h
  have hin : index = index' := ha.trans hb.symm
  rw [hin]

theorem routes_eq_of_unindexed {routes routes' : List PolicyRoute} {marks : List (BitVec 32)}
    (h : routes.map PolicyRoute.unindexed = routes'.map PolicyRoute.unindexed)
    (hin : ∀ route ∈ routes, route.action.directMarkIndex = markIndex marks route.action.routeAction)
    (hin' : ∀ route ∈ routes', route.action.directMarkIndex = markIndex marks route.action.routeAction) : routes = routes' := by
  induction routes generalizing routes' with
  | nil => exact (map_eq_nil_iff.mp h.symm).symm
  | cons route routes ih =>
    cases routes' with
    | nil => cases h
    | cons route' routes' =>
      obtain ⟨hro, hroutes⟩ := List.cons.inj h
      have ha : route.action = route'.action := PolicyAction.eq_of_unindexed (congrArg PolicyRoute.action hro)
          (hin route mem_cons_self) (hin' route' mem_cons_self)
      have hs : route = route' := by
        obtain ⟨id, name, ruleType, rulePayload, priority, conditions, action⟩ := route
        obtain ⟨id', name', ruleType', rulePayload', priority', conditions', action'⟩ := route'
        simp only [PolicyRoute.unindexed, PolicyRoute.mk.injEq] at hro ha ⊢
        exact ⟨hro.1, hro.2.1, hro.2.2.1, hro.2.2.2.1, hro.2.2.2.2.1, hro.2.2.2.2.2.1, ha⟩
      rw [hs, ih hroutes (fun r hr => hin r (mem_cons_of_mem _ hr)) fun r hr => hin' r (mem_cons_of_mem _ hr)]

/-- Policies that hash the same bytes are the same policy. -/
theorem Policy.eq_of_encoding_eq (policy policy' : Policy) (h : policy.encoding = policy'.encoding) :
    policy.routes = policy'.routes ∧ policy.domainKeys = policy'.domainKeys ∧
      policy.fallback = policy'.fallback ∧ policy.geoFingerprint = policy'.geoFingerprint := by
  have hc : ∀ policy : Policy, policy.encoding = asBytes "honk.routing-policy.v2\x00" ++
      (encodeAction policy.fallback ++ policy.geoFingerprint.toList ++
        counted encodeRoute policy.routes ++ counted encodeDomainKey policy.domainKeys) := by
    intro policy
    simp only [Policy.encoding, append_assoc]
  rw [hc, hc] at h
  have hb := append_cancel_left h
  obtain ⟨hv, -⟩ := encoding_delimited policy policy' [] [] (congrArg (· ++ []) hb)
  obtain ⟨⟨⟨hf, hg⟩, hro⟩, hk⟩ : ((policy.fallback.unindexed = policy'.fallback.unindexed ∧
        policy.geoFingerprint = policy'.geoFingerprint) ∧
        policy.routes.1.map PolicyRoute.unindexed = policy'.routes.1.map PolicyRoute.unindexed) ∧
        policy.domainKeys = policy'.domainKeys := by simpa only [Prod.mk.injEq] using hv
  -- What was written fixes the table of marks, and with it the indexes that were not.
  have ht : directMarkTable (policyActions policy.routes.1 policy.fallback) =
      directMarkTable (policyActions policy'.routes.1 policy'.fallback) := by
    rw [← directMarkTable_unindexed, policyActions_unindexed, hro, hf, ← policyActions_unindexed, directMarkTable_unindexed]
  have hin := policy.indexed
  have hin' := policy'.indexed
  rw [ht] at hin
  have mem_route (policy : Policy) {route : PolicyRoute} (hr : route ∈ policy.routes.1) :
      route.action.routeAction ∈ policyActions policy.routes.1 policy.fallback :=
    mem_append_left _ (mem_map_of_mem hr)
  have mem_fallback (policy : Policy) : policy.fallback.routeAction ∈ policyActions policy.routes.1 policy.fallback :=
    mem_append_right _ (mem_singleton_self _)
  refine ⟨Subtype.ext ?_, hk, ?_, hg⟩
  · exact routes_eq_of_unindexed hro (fun route hr => hin _ (mem_route policy hr)) fun route hr => hin' _ (mem_route policy' hr)
  · exact PolicyAction.eq_of_unindexed hf (hin _ (mem_fallback policy)) (hin' _ (mem_fallback policy'))

def markedPolicy (mark : DirectMark) (index : Byte)
    (h : ∀ action ∈ ([⟨"direct", true, some mark, some index⟩, ⟨"proxy", false, none, none⟩] : List RouteAction),
      action.directMarkIndex = markIndex (directMarkTable
        [⟨"direct", true, some mark, some index⟩, ⟨"proxy", false, none, none⟩]) action) : Policy where
  routes := ⟨[⟨0, ⟨"rule", by decide +kernel⟩, ⟨"ProcessName", by decide +kernel⟩, ⟨"curl", by decide +kernel⟩, 0,
    ⟨[⟨false, .processName ⟨[⟨"curl", by decide +kernel⟩], by decide⟩⟩], by decide⟩,
    ⟨⟨"direct", by decide +kernel⟩, true, some mark, some index⟩⟩], by simp⟩
  domainKeys := ⟨[], by decide⟩
  fallback := ⟨⟨"proxy", by decide +kernel⟩, false, none, none⟩
  geoFingerprint := Vector.replicate 32 0
  indexed := h

theorem Policy.eq_of_encoding_eq_marked : (markedPolicy ⟨7, by decide⟩ 0 (by decide +kernel)).encoding =
        (markedPolicy ⟨3 + 4, by decide⟩ 0 (by decide +kernel)).encoding ∧
      (markedPolicy ⟨7, by decide⟩ 0 (by decide +kernel)).routes =
        (markedPolicy ⟨3 + 4, by decide⟩ 0 (by decide +kernel)).routes := by
  have h : (markedPolicy ⟨7, by decide⟩ 0 (by decide +kernel)).encoding =
      (markedPolicy ⟨3 + 4, by decide⟩ 0 (by decide +kernel)).encoding := by decide +kernel
  exact ⟨h, (Policy.eq_of_encoding_eq _ _ h).1⟩

end Honk.Routing
