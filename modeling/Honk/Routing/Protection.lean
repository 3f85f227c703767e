import Honk.Routing.Router

namespace Honk.Routing

open Honk.Lib
open List hiding Vector

def nonDnsPortsMatch (ranges : List PortRange) : Option Bool :=
  let covers (first last : BitVec 16) : Bool := ranges.any fun range => range.contains first && range.contains last
  if covers 1 52 && covers 54 0xffff then some true
  else if ranges.all fun range => decide (range.end < range.start) || range.end == 0 || (range.start == 53 && range.end == 53) then some false
  else none

namespace Router

def routeAction (router : Router) (conn : ConnectionInfo) : RouteAction :=
  match router.routeFullWithDomainBitmap conn none with
  | some hit => hit.action
  | none => router.fallback

variable (router : Router) (address : IpAddr) (protocol : String)

def knownMatch : CompiledPredicate → Option Bool
  | .destinationIp matcher => some ((router.matchers matcher).matches address)
  | .destinationPort ranges => nonDnsPortsMatch ranges
  | .protocol mask => some (protocolValue protocol &&& mask != 0)
  | .ipVersion mask => some (mask &&& (match address with | .v4 _ => 1 | .v6 _ => 2) != 0)
  | .domain _ | .sourceIp _ | .sourcePort _ | .dscp _ | .processName _ | .mac _ => none

def checkConditions : Bool → List CompiledCondition → Option Bool
  | certain, [] => some certain
  | certain, condition :: rest =>
    match (router.knownMatch address protocol condition.predicate).map fun matched => matched != condition.not with
    | some false => none
    | some true => checkConditions certain rest
    | none => checkConditions false rest

def protects : List CompiledRoute → Bool
  | [] => router.fallback.must && router.fallback.outbound == "direct"
  | route :: routes =>
    if route.conditions.isEmpty then protects routes
    else
      match router.checkConditions address protocol true route.conditions with
      | none => protects routes
      | some certain =>
        if route.action.outbound != "direct" || !route.action.must then false
        else if certain then true
        else protects routes

def confirmsLanSelfProtection (router : Router) (address : IpAddr) : Bool :=
  ["tcp", "udp"].all fun protocol => router.protects address protocol router.routes

end Router

variable {matched : Bool} {address : IpAddr} {protocol : String}

theorem nonDnsPortsMatch_sound {ranges : List PortRange} (h : nonDnsPortsMatch ranges = some matched) {port : BitVec 16}
    (hpos : port ≠ 0) (hd : port ≠ 53) : (ranges.any fun range => range.contains port) = matched := by
  unfold nonDnsPortsMatch at h
  dsimp only at h
  split at h
  · rename_i hc
    cases h
    simp only [Bool.and_eq_true, any_eq_true, PortRange.contains, ge_iff_le, decide_eq_true_eq] at hc ⊢
    obtain ⟨⟨low, hlo, hf, hl⟩, high, hh, hf', hl'⟩ := hc
    obtain hpo | hpo : port ≤ 52 ∨ 54 ≤ port := by bv_omega
    · exact ⟨low, hlo, by bv_omega, by bv_omega⟩
    · exact ⟨high, hh, by bv_omega, by bv_omega⟩
  split at h
  · rename_i hn
    cases h
    rw [any_eq_false]
    intro range hm hco
    have he := all_eq_true.mp hn range hm
    simp only [PortRange.contains, ge_iff_le, Bool.and_eq_true, decide_eq_true_eq, Bool.or_eq_true, beq_iff_eq] at hco he
    bv_omega
  · cases h

variable {router : Router} {conn : ConnectionInfo}

structure Covered (conn : ConnectionInfo) (address : IpAddr) (protocol : String) : Prop where
  dstIp : conn.dstIp = address
  protocol : protocolValue conn.protocol = protocolValue protocol
  dstPort : conn.dstPort ≠ 0 ∧ conn.dstPort ≠ 53

section

variable (hc : Covered conn address protocol)
include hc

theorem knownMatch_sound (h : router.knownMatch address protocol predicate = some matched) :
    router.evaluatePredicate predicate conn.input none = some matched := by
  obtain ⟨rfl, hpr, hpo, hd⟩ := hc
  cases predicate with
  | destinationIp matcher => exact h
  | destinationPort ranges => exact congrArg some (nonDnsPortsMatch_sound h hpo hd)
  | protocol mask =>
    rw [Router.knownMatch, ← hpr] at h
    exact h
  | ipVersion mask => exact h
  | domain _ | sourceIp _ | sourcePort _ | dscp _ | processName _ | mac _ => cases h

theorem conditionMatched_of_known
    (h : (router.knownMatch address protocol condition.predicate).map (fun matched => matched != condition.not) = some holds) :
    router.conditionMatched condition conn none = holds := by
  obtain ⟨matched, hm, rfl⟩ := Option.map_eq_some_iff.mp h
  rw [Router.conditionMatched, knownMatch_sound hc hm]
  cases condition.not <;> cases matched <;> rfl

theorem checkConditions_sound (conditions : List CompiledCondition) (certain : Bool) :
    (router.checkConditions address protocol certain conditions = none → ∃ condition ∈ conditions, router.conditionMatched condition conn none = false) ∧
    (router.checkConditions address protocol certain conditions = some true →
      certain = true ∧ ∀ condition ∈ conditions, router.conditionMatched condition conn none = true) := by
  induction conditions generalizing certain with
  | nil => exact ⟨nofun, fun h => ⟨Option.some.inj h, nofun⟩⟩
  | cons condition conditions ih =>
    rw [Router.checkConditions]
    have ht : ∀ certain', (router.checkConditions address protocol certain' conditions = none →
        ∃ other ∈ condition :: conditions, router.conditionMatched other conn none = false) := by
      intro certain' h
      obtain ⟨other, hm, hf⟩ := (ih certain').1 h
      exact ⟨other, mem_cons_of_mem _ hm, hf⟩
    split
    · rename_i hk
      exact ⟨fun _ => ⟨condition, mem_cons_self, conditionMatched_of_known hc hk⟩, nofun⟩
    · rename_i hk
      refine ⟨ht certain, fun h => ⟨((ih certain).2 h).1, fun other ho => ?_⟩⟩
      obtain rfl | ho := mem_cons.mp ho
      · exact conditionMatched_of_known hc hk
      · exact ((ih certain).2 h).2 other ho
    · exact ⟨ht false, fun h => absurd ((ih false).2 h).1 Bool.false_ne_true⟩

end

def firstAction (router : Router) (conn : ConnectionInfo) (routes : List CompiledRoute) : RouteAction :=
  match routes.findSome? fun route => if router.matchesRoute route conn none then some route.toMatch else none with
  | some hit => hit.action
  | none => router.fallback

variable {routes : List CompiledRoute}

theorem firstAction_cons (route : CompiledRoute) :
    firstAction router conn (route :: routes) = if router.matchesRoute route conn none then route.action else firstAction router conn routes := by
  unfold firstAction
  rw [findSome?_cons]
  cases router.matchesRoute route conn none with
  | true => rfl
  | false => rfl

theorem protects_sound (hco : Covered conn address protocol) (h : router.protects address protocol routes = true) :
    (firstAction router conn routes).outbound = "direct" ∧ (firstAction router conn routes).must = true := by
  induction routes with
  | nil =>
    rw [Router.protects, Bool.and_eq_true, beq_iff_eq] at h
    exact ⟨h.2, h.1⟩
  | cons route routes ih =>
    rw [Router.protects] at h
    rw [firstAction_cons]
    split at h
    · rename_i he
      rw [Router.matchesRoute, he]
      exact ih h
    rename_i hn
    split at h
    · rename_i hr
      obtain ⟨condition, hme, hf⟩ := (checkConditions_sound hco _ _).1 hr
      have hm : router.matchesRoute route conn none = false := by
        rw [Router.matchesRoute, Bool.and_eq_false_iff]
        exact .inr (all_eq_false.mpr ⟨condition, hme, by rw [hf]; exact Bool.false_ne_true⟩)
      rw [hm]
      exact ih h
    rename_i certain hc
    split at h
    · cases h
    rename_i ha
    have hd : route.action.outbound = "direct" ∧ route.action.must = true := by simpa [not_or] using ha
    split at h
    · rename_i hs
      rw [hs] at hc
      have hal := ((checkConditions_sound hco _ _).2 hc).2
      have hma : router.matchesRoute route conn none = true := by
        rw [Router.matchesRoute, Bool.and_eq_true]
        exact ⟨by simpa using hn, all_eq_true.mpr hal⟩
      rw [hma]
      exact hd
    -- the rule may or may not match; either way the action is direct
    split
    · exact hd
    · exact ih h

/-- A confirmed address: whatever reaches it over TCP or UDP on a port other than 53 goes out directly, and for good. -/
theorem lanSelfProtection_sound (router : Router) (address : IpAddr) (h : router.confirmsLanSelfProtection address = true) (conn : ConnectionInfo)
    (hdst : conn.dstIp = address) (hprotocol : protocolValue conn.protocol ≠ 0) (hport : conn.dstPort ≠ 0 ∧ conn.dstPort ≠ 53) :
    (router.routeAction conn).outbound = "direct" ∧ (router.routeAction conn).must = true := by
  rw [Router.confirmsLanSelfProtection, all_eq_true] at h
  obtain hv | hv : protocolValue conn.protocol = protocolValue "tcp" ∨ protocolValue conn.protocol = protocolValue "udp" := by
    unfold protocolValue at hprotocol ⊢
    split
    · exact .inl (by decide)
    split
    · exact .inr (by decide)
    · simp_all
  · exact protects_sound ⟨hdst, hv, hport⟩ (h "tcp" (by simp))
  · exact protects_sound ⟨hdst, hv, hport⟩ (h "udp" (by simp))

def localRouter : Router where
  matchers _ := .new [.v4 ⟨#v[192, 168, 50, 0], 24, by decide⟩]
  routes := [⟨0, "local", "", "", [⟨false, .destinationIp 0⟩, ⟨true, .destinationPort [⟨53, 53⟩]⟩], ⟨"direct", true, none, none⟩⟩]
  fallback := ⟨"block", false, none, none⟩
  domainMatchers := []
  policyFingerprint := Vector.replicate 32 0

def localConnection : ConnectionInfo where
  domain := some "router.lan"
  dstIp := .v4 #v[192, 168, 50, 1]
  dstPort := 22
  srcIp := .v4 #v[192, 168, 50, 7]
  srcPort := 40000
  protocol := "tcp"
  processName := none
  mac := none
  dscp := some 0

theorem lanSelfProtection_sound_localRouter : localRouter.confirmsLanSelfProtection (.v4 #v[192, 168, 50, 1]) = true ∧
    localRouter.confirmsLanSelfProtection (.v4 #v[192, 168, 51, 1]) = false ∧ (localRouter.routeAction localConnection).outbound = "direct" :=
  have h : localRouter.confirmsLanSelfProtection (.v4 #v[192, 168, 50, 1]) = true := by decide +kernel
  ⟨h, by decide +kernel, (lanSelfProtection_sound localRouter _ h localConnection rfl (by decide) (by decide)).1⟩

end Honk.Routing
