import Honk.Lib.Result
import Honk.Routing.CompileFacts

namespace Honk.Routing

open Honk.Lib KernelPredicate RoutingFactMaps ConnectionInfo
open List hiding Vector

structure CompileState.Sound (router : Router) (st : CompileState) : Prop where
  dest : st.destFact.Ok
  source : st.sourceFact.Ok
  mac : st.macFact.Ok
  destFacts : IpFacts router st.destFact.ids st.facts.destinationV4 st.facts.destinationV6
  sourceFacts : IpFacts router st.sourceFact.ids st.facts.sourceV4 st.facts.sourceV6
  macFacts : Assigned st.macFact.ids macKeys st.facts.mac

structure CompileState.Le (st st' : CompileState) : Prop where
  dest : st.destFact.ids ⊆ st'.destFact.ids
  source : st.sourceFact.ids ⊆ st'.sourceFact.ids
  mac : st.macFact.ids ⊆ st'.macFact.ids

theorem CompileState.Le.refl (st : CompileState) : st.Le st := ⟨List.Subset.refl _, List.Subset.refl _, List.Subset.refl _⟩

variable {st st' : CompileState} {router : Router} {p : CompiledPredicate} {q : KernelPredicate} {route : CompiledRoute}
  {conditions : List CompiledCondition} {lowered : List KernelCondition} {outboundIds : OutboundIds}
  {dialMode : DialMode} {routes : List CompiledRoute} {rules : List KernelRule}

theorem CompileState.Le.trans (h : st.Le st') (h' : st'.Le st'') : st.Le st'' :=
  ⟨List.Subset.trans h.dest h'.dest, List.Subset.trans h.source h'.source, List.Subset.trans h.mac h'.mac⟩

theorem CompileState.sound_empty (router : Router) : CompileState.Sound router {} := by
  have ho {K : Type} : FactAllocator.Ok ({} : FactAllocator K) := ⟨by simp, by simp, by simp⟩
  have hn {K : Type} (keysOf : K → LpmKey → Prop) : Assigned [] keysOf [] := by simp [Assigned]
  exact ⟨ho, ho, ho, ⟨hn _, hn _⟩, ⟨hn _, hn _⟩, hn _⟩

inductive Lowers (router : Router) (st : CompileState) : CompiledPredicate → KernelPredicate → Prop
  | domain (id : ℕ) (h : id < router.domainMatchers.length) : Lowers router st (.domain id) (.domain id)
  | destinationIp (m : MatcherPtr) (id : ℕ) (h : (m, id) ∈ st.destFact.ids) :
      Lowers router st (.destinationIp m) (.destinationIp id)
  | sourceIp (m : MatcherPtr) (id : ℕ) (h : (m, id) ∈ st.sourceFact.ids) : Lowers router st (.sourceIp m) (.sourceIp id)
  | mac (macs : List Mac) (id : ℕ) (h : (macs, id) ∈ st.macFact.ids) : Lowers router st (.mac macs) (.mac id)
  | destinationPort (ranges : List PortRange) : Lowers router st (.destinationPort ranges) (.destinationPort ranges)
  | sourcePort (ranges : List PortRange) : Lowers router st (.sourcePort ranges) (.sourcePort ranges)
  | protocol (mask : Byte) : Lowers router st (.protocol mask) (.protocol mask)
  | ipVersion (mask : Byte) : Lowers router st (.ipVersion mask) (.ipVersion mask)
  | dscp (values : List Byte) : Lowers router st (.dscp values) (.dscp values)
  | processName (names : List String) : Lowers router st (.processName names) (.processName (names.map asBytes))

theorem Lowers.mono (h : Lowers router st p q) (hl : st.Le st') : Lowers router st' p q := by
  cases h with
  | domain id h => exact .domain id h
  | destinationIp m id h => exact .destinationIp m id (hl.dest h)
  | sourceIp m id h => exact .sourceIp m id (hl.source h)
  | mac macs id h => exact .mac macs id (hl.mac h)
  | destinationPort ranges => exact .destinationPort ranges
  | sourcePort ranges => exact .sourcePort ranges
  | protocol mask => exact .protocol mask
  | ipVersion mask => exact .ipVersion mask
  | dscp values => exact .dscp values
  | processName names => exact .processName names

theorem lowerPredicate_sound (h : lowerPredicate router route st p = .ok (q, st')) (hs : st.Sound router) :
    st'.Sound router ∧ st.Le st' ∧ Lowers router st' p q := by
  cases p with
  | domain id =>
    rw [lowerPredicate] at h
    split at h
    · rename_i hid
      cases h
      exact ⟨hs, .refl st, .domain id hid⟩
    · cases h
  | destinationIp m =>
    simp only [lowerPredicate, bind_eq_ok] at h
    obtain ⟨⟨⟨id, new⟩, destFact⟩, ha, h⟩ := h
    obtain ⟨ho, hm, ⟨rfl, rfl⟩ | ⟨rfl, hids⟩⟩ := FactAllocator.alloc_eq_ok ha hs.dest
    · cases h
      exact ⟨hs, .refl st, .destinationIp m id hm⟩
    cases h
    refine ⟨⟨ho, hs.source, hs.mac, ?_, hs.sourceFacts, hs.macFacts⟩, ⟨?_, fun _ h => h, fun _ h => h⟩, .destinationIp m id hm⟩
    · simpa [hids, addDestination] using hs.destFacts.add m id
    · simp [hids]
  | sourceIp m =>
    simp only [lowerPredicate, bind_eq_ok] at h
    obtain ⟨⟨⟨id, new⟩, sourceFact⟩, ha, h⟩ := h
    obtain ⟨ho, hm, ⟨rfl, rfl⟩ | ⟨rfl, hids⟩⟩ := FactAllocator.alloc_eq_ok ha hs.source
    · cases h
      exact ⟨hs, .refl st, .sourceIp m id hm⟩
    cases h
    refine ⟨⟨hs.dest, ho, hs.mac, hs.destFacts, ?_, hs.macFacts⟩, ⟨fun _ h => h, ?_, fun _ h => h⟩, .sourceIp m id hm⟩
    · simpa [hids, addSource] using hs.sourceFacts.add m id
    · simp [hids]
  | mac macs =>
    simp only [lowerPredicate, bind_eq_ok] at h
    obtain ⟨⟨⟨id, new⟩, macFact⟩, ha, h⟩ := h
    obtain ⟨ho, hm, ⟨rfl, rfl⟩ | ⟨rfl, hids⟩⟩ := FactAllocator.alloc_eq_ok ha hs.mac
    · cases h
      exact ⟨hs, .refl st, .mac macs id hm⟩
    cases h
    refine ⟨⟨hs.dest, hs.source, ho, hs.destFacts, hs.sourceFacts, ?_⟩, ⟨fun _ h => h, fun _ h => h, ?_⟩, .mac macs id hm⟩
    · simp only [hids, ↓reduceIte, addMacs]
      apply hs.macFacts.add
      intro e
      rw [mem_addMacs]
      refine or_congr_right ⟨?_, ?_⟩
      · rintro ⟨mac, hma, he⟩
        exact ⟨_, ⟨mac, hma, rfl⟩, he⟩
      · rintro ⟨-, ⟨mac, hma, rfl⟩, he⟩
        exact ⟨mac, hma, he⟩
    · simp [hids]
  | destinationPort ranges | sourcePort ranges =>
    simp only [lowerPredicate, bind_eq_ok] at h
    obtain ⟨-, -, h⟩ := h
    cases h
    exact ⟨hs, .refl st, by constructor⟩
  | protocol mask =>
    rw [lowerPredicate] at h
    split at h <;> cases h
    exact ⟨hs, .refl st, .protocol mask⟩
  | ipVersion mask =>
    rw [lowerPredicate] at h
    split at h <;> cases h
    exact ⟨hs, .refl st, .ipVersion mask⟩
  | dscp values =>
    cases h
    exact ⟨hs, .refl st, .dscp values⟩
  | processName names =>
    rw [lowerPredicate] at h
    split at h <;> cases h
    exact ⟨⟨hs.dest, hs.source, hs.mac, hs.destFacts, hs.sourceFacts, hs.macFacts⟩,
      ⟨fun _ h => h, fun _ h => h, fun _ h => h⟩, .processName names⟩

structure ConditionLowered (router : Router) (st : CompileState) (condition : CompiledCondition)
    (kernel : KernelCondition) : Prop where
  not : kernel.not = condition.not
  predicate : Lowers router st condition.predicate kernel.predicate

theorem lowerConditions_sound (h : lowerConditions router route st conditions = .ok (lowered, st')) (hs : st.Sound router) :
    st'.Sound router ∧ st.Le st' ∧ List.Forall₂ (ConditionLowered router st') conditions lowered := by
  induction conditions generalizing st lowered with
  | nil =>
    cases h
    exact ⟨hs, .refl _, .nil⟩
  | cons condition conditions ih =>
    simp only [lowerConditions, bind_eq_ok] at h
    obtain ⟨⟨q, st₁⟩, hq, ⟨rest, st₂⟩, hr, h⟩ := h
    cases h
    obtain ⟨hs₁, hl₁, hl⟩ := lowerPredicate_sound hq hs
    obtain ⟨hs₂, hl₂, ha⟩ := ih hr hs₁
    exact ⟨hs₂, hl₁.trans hl₂, .cons ⟨rfl, hl.mono hl₂⟩ ha⟩

structure RouteLowered (router : Router) (outboundIds : OutboundIds) (dialMode : DialMode) (st : CompileState)
    (route : CompiledRoute) (rule : KernelRule) : Prop where
  id : rule.id = route.id
  conditions : List.Forall₂ (ConditionLowered router st) route.conditions rule.conditions
  action : KernelAction.fromRoute route.action outboundIds dialMode rule.conditions = .ok rule.action

theorem lowerRoutes_sound (h : lowerRoutes router outboundIds dialMode st routes = .ok (rules, st')) (hs : st.Sound router) :
    st'.Sound router ∧ st.Le st' ∧ List.Forall₂ (RouteLowered router outboundIds dialMode st') routes rules := by
  induction routes generalizing st rules with
  | nil =>
    cases h
    exact ⟨hs, .refl _, .nil⟩
  | cons route routes ih =>
    simp only [lowerRoutes, lowerRoute, bind_eq_ok, mapError_eq_ok] at h
    obtain ⟨⟨rule, st₁⟩, ⟨⟨conditions, st₀⟩, hco, action, ha, hr⟩, ⟨rest, st₂⟩, hre, h⟩ := h
    cases hr
    cases h
    obtain ⟨hs₁, hl₁, hl⟩ := lowerConditions_sound hco hs
    obtain ⟨hs₂, hl₂, hal⟩ := ih hre hs₁
    refine ⟨hs₂, hl₁.trans hl₂, .cons ⟨rfl, ?_, ha⟩ hal⟩
    exact hl.imp fun c k hc => ⟨hc.not, hc.predicate.mono hl₂⟩

variable {a : Byte} {b : Byte}

theorem and_ne_zero_zeroExtend : (a &&& b != 0) = (a.zeroExtend 32 &&& b.zeroExtend 32 != 0) := by
  have h : a.zeroExtend 32 &&& b.zeroExtend 32 = (a &&& b).zeroExtend 32 := by simp [BitVec.setWidth_and]
  have hz : (a &&& b).zeroExtend 32 = 0 ↔ a &&& b = 0 := by
    constructor
    · intro hz
      have := congrArg (BitVec.setWidth 8) hz
      simpa using this
    intro hz
    rw [hz]
    rfl
  rw [h, Bool.eq_iff_iff, bne_iff_ne, bne_iff_ne, Ne, Ne, hz]

theorem zeroExtend_beq : (a.zeroExtend 32 == b.zeroExtend 32) = (a == b) := by
  rw [Bool.eq_iff_iff, beq_iff_eq, beq_iff_eq]
  constructor
  · intro h
    have := congrArg (BitVec.setWidth 8) h
    simpa using this
  · rintro rfl
    rfl

variable {conn : ConnectionInfo} {dscp : Byte} {plan : RoutingPushPlan}

theorem Lowers.eval (h : Lowers router st p q) (hs : st.Sound router) (hc : router.domainMatchers.length ≤ routingFactCapacity)
    (hf : plan.facts = st.facts.inherit) (hd : conn.dscp = some dscp) (bitmap : DomainRouting) :
    (router.evaluatePredicate p conn.input (some bitmap)).getD false = q.eval (plan.view conn dscp bitmap) := by
  rw [RoutingPushPlan.view]
  cases h with
  | domain id h =>
    have hid : id < routingFactCapacity := h.trans_le hc
    simp [Router.evaluatePredicate, eval, hid]
  | destinationIp m id h =>
    simp only [Router.evaluatePredicate, eval, input, hf, inherit, hs.destFacts.ipBit_inherit hs.dest h, Option.map_some, Option.getD_some]
  | sourceIp m id h =>
    simp only [Router.evaluatePredicate, eval, input, hf, inherit, hs.sourceFacts.ipBit_inherit hs.source h, Option.map_some, Option.getD_some]
  | mac macs id h =>
    simp only [Router.evaluatePredicate, eval, input, hf, inherit, macBit_inherit hs.macFacts hs.mac h]
    cases conn.mac with
    | none => rfl
    | some mac => rfl
  | destinationPort ranges => rfl
  | sourcePort ranges => rfl
  | protocol mask => exact and_ne_zero_zeroExtend
  | ipVersion mask =>
    simp only [Router.evaluatePredicate, eval, input,
      Option.map_some, Option.getD_some, and_ne_zero_zeroExtend, BitVec.and_comm]
    cases conn.dstIp with
    | v4 octets => rfl
    | v6 octets => rfl
  | dscp values =>
    simp only [Router.evaluatePredicate, eval, input, hd, Option.map_some, Option.getD_some, zeroExtend_beq]
  | processName names =>
    simp only [Router.evaluatePredicate, eval, input]
    cases conn.processName with
    | none => rfl
    | some name => simp [strContains, any_map, Function.comp_def]

theorem RouteLowered.matches_eq (h : RouteLowered router outboundIds dialMode st route rule)
    (hs : st.Sound router) (hca : router.domainMatchers.length ≤ routingFactCapacity)
    (hf : plan.facts = st.facts.inherit) (hd : conn.dscp = some dscp) (bitmap : DomainRouting) :
    router.matchesRoute route conn (some bitmap) = rule.matches (plan.view conn dscp bitmap) := by
  have hco : List.Forall₂ (fun c k => router.conditionMatched c conn (some bitmap) =
      KernelCondition.holds (plan.view conn dscp bitmap) k) route.conditions rule.conditions := by
    refine h.conditions.imp fun c k hc => ?_
    rw [Router.conditionMatched, KernelCondition.holds, hc.not, hc.predicate.eval hs hca hf hd bitmap]
    cases c.not <;> simp
  rw [Router.matchesRoute, KernelRule.matches]
  generalize route.conditions = conditions at hco
  generalize rule.conditions = kernel at hco
  congr 1
  · cases hco <;> rfl
  induction hco with
  | nil => rfl
  | cons hc _ ih => rw [all_cons, all_cons, hc, ih]

def genericPortRule (conditions : List CompiledCondition) : Bool :=
  (conditions.any fun condition => !condition.not && match condition.predicate with | .destinationPort _ => true | _ => false) &&
  conditions.all fun condition =>
    match condition.predicate with
    | .domain _ | .processName _ | .mac _ | .dscp _ => false
    | _ => true

theorem isGenericPortRule_eq (h : List.Forall₂ (ConditionLowered router st) conditions kernel) :
    isGenericPortRule kernel = genericPortRule conditions := by
  rw [isGenericPortRule, genericPortRule]
  congr 1
  · induction h with
    | nil => rfl
    | @cons c k _ _ hc _ ih =>
      rw [any_cons, any_cons, ih, hc.not]
      obtain ⟨not, p⟩ := c
      obtain ⟨not', q⟩ := k
      cases hc.predicate <;> rfl
  induction h with
  | nil => rfl
  | @cons c k _ _ hc _ ih =>
    rw [all_cons, all_cons, ih]
    obtain ⟨not, p⟩ := c
    obtain ⟨not', q⟩ := k
    cases hc.predicate <;> rfl

/-- A kernel action stands for a route's action: only non-must generic port rules under domain++
whose outbound is neither direct nor block are handed to the control plane. -/
structure ActionAgrees (outboundIds : OutboundIds) (dialMode : DialMode) (conditions : List CompiledCondition)
    (action : RouteAction) (kernel : KernelAction) : Prop where
  must : kernel.must = action.must
  mark : kernel.mark = action.mark.elim 0 Subtype.val
  directMarkIndex : kernel.directMarkIndex = action.directMarkIndex
  outbound : ∃ id, outboundIds.lookup action.outbound = some id ∧ kernel.outbound =
      if action.must = false ∧ dialMode = .domainPlusPlus ∧ genericPortRule conditions ∧ id ≠ outboundDirect ∧ id ≠ outboundBlock
      then outboundControlPlaneRouting else id

theorem fromRoute_agrees (h : List.Forall₂ (ConditionLowered router st) conditions lowered)
    (ha : KernelAction.fromRoute action outboundIds dialMode lowered = .ok kernel) :
    ActionAgrees outboundIds dialMode conditions action kernel := by
  rw [KernelAction.fromRoute] at ha
  split at ha
  · cases ha
  rename_i id hid
  cases ha
  refine ⟨rfl, rfl, rfl, id, hid, ?_⟩
  simp only [isGenericPortRule_eq h, Bool.and_eq_true, Bool.not_eq_true', Bool.or_eq_false_iff, beq_iff_eq,
    beq_eq_false_iff_ne, ne_eq, and_assoc]

theorem findSome?_forall₂ (h : List.Forall₂ R routes rules)
    (hm : ∀ route rule, R route rule → router.matchesRoute route conn (some bitmap) = rule.matches view) :
    match routes.findSome? (fun route => if router.matchesRoute route conn (some bitmap) then some route.toMatch else none) with
    | some hit => ∃ (i : ℕ) (route : CompiledRoute) (rule : KernelRule), routes[i]? = some route ∧ rules[i]? = some rule ∧ R route rule ∧
        hit = route.toMatch ∧ rules.find? (fun rule => rule.matches view) = some rule
    | none => rules.find? (fun rule => rule.matches view) = none := by
  induction h with
  | nil => rfl
  | @cons route rule routes rules hr _ ih =>
    rw [findSome?_cons, find?_cons]
    rw [← hm route rule hr]
    cases hma : router.matchesRoute route conn (some bitmap) with
    | true => exact ⟨0, route, rule, rfl, rfl, hr, rfl, rfl⟩
    | false =>
      simp only [Bool.false_eq_true, ↓reduceIte]
      split
      · rename_i hit he
        rw [he] at ih
        obtain ⟨i, route', rule', hro, hru, hr', hh, hf⟩ := ih
        exact ⟨i + 1, route', rule', by simpa using hro, by simpa using hru, hr', hh, hf⟩
      rename_i he
      rw [he] at ih
      exact ih

/-- The rule the plan selects for a connection is the router's, with an action that stands for the
route's; where the router falls back, so does the plan. -/
def RoutingPushPlan.AgreesWith (plan : RoutingPushPlan) (router : Router) (outboundIds : OutboundIds)
    (dialMode : DialMode) (conn : ConnectionInfo) (dscp : Byte) (bitmap : DomainRouting) : Prop :=
  match router.routeFullWithDomainBitmap conn (some bitmap) with
  | some hit => ∃ (i : ℕ) (route : CompiledRoute) (rule : KernelRule), router.routes[i]? = some route ∧
      plan.rules[i]? = some rule ∧ hit = route.toMatch ∧
      plan.firstMatch (plan.view conn dscp bitmap) = some rule ∧
      rule.id = hit.ruleId ∧ ActionAgrees outboundIds dialMode route.conditions hit.action rule.action
  | none => plan.firstMatch (plan.view conn dscp bitmap) = none ∧ ActionAgrees outboundIds dialMode [] router.fallback plan.fallback

theorem compile_refines_router (sha256 : List Byte → Vector Byte 32) (router : Router) (outboundIds : OutboundIds)
    (dialMode : DialMode) (plan : RoutingPushPlan)
    (h : RoutingPushPlan.compile sha256 router outboundIds dialMode = .ok plan) (conn : ConnectionInfo)
    (dscp : Byte) (hd : conn.dscp = some dscp) (bitmap : DomainRouting) :
    plan.AgreesWith router outboundIds dialMode conn dscp bitmap := by
  simp only [RoutingPushPlan.compile, bind_eq_ok, mapError_eq_ok] at h
  obtain ⟨fallback, hf, h⟩ := h
  split at h
  · simp only [bind_eq_ok, reduceCtorEq, false_and, exists_false] at h
  rename_i hc
  obtain ⟨⟨rules, st⟩, hru, hpl⟩ := bind_eq_ok.mp h
  obtain ⟨hs, -, ha⟩ := lowerRoutes_sound hru (CompileState.sound_empty router)
  have hfields : plan.facts = st.facts.inherit ∧ plan.rules = rules ∧ plan.fallback = fallback := by
    cases hpl
    exact ⟨rfl, rfl, rfl⟩
  obtain ⟨hfa, rfl, rfl⟩ := hfields
  have hfi := findSome?_forall₂ ha fun route rule hr => hr.matches_eq hs (not_lt.mp hc) hfa hd bitmap
  rw [RoutingPushPlan.AgreesWith, Router.routeFullWithDomainBitmap]
  split
  · rename_i hit he
    rw [he] at hfi
    obtain ⟨i, route, rule, hro, hrule, hr, rfl, hfirst⟩ := hfi
    exact ⟨i, route, rule, hro, hrule, rfl, hfirst, hr.id, fromRoute_agrees hr.conditions hr.action⟩
  rename_i he
  rw [he] at hfi
  have hn : List.Forall₂ (ConditionLowered router st) [] [] := .nil
  exact ⟨hfi, fromRoute_agrees hn hf⟩

def nestedRouter : Router where
  matchers m := .new (if m = 0 then [.v4 ⟨#v[10, 1, 0, 0], 16, by decide⟩] else [.v4 ⟨#v[10, 0, 0, 9], 8, by decide⟩])
  routes :=
    [⟨0, "inner", "", "", [⟨false, .destinationIp 0⟩, ⟨true, .destinationPort [⟨80, 80⟩]⟩], ⟨"block", false, none, none⟩⟩,
     ⟨1, "outer", "", "", [⟨false, .destinationIp 1⟩], ⟨"proxy", false, none, none⟩⟩]
  fallback := ⟨"direct", false, none, none⟩
  domainMatchers := []
  policyFingerprint := Vector.replicate 32 0

def nestedConnection : ConnectionInfo where
  domain := none
  dstIp := .v4 #v[10, 1, 2, 3]
  dstPort := 80
  srcIp := .v4 #v[192, 168, 0, 2]
  srcPort := 40000
  protocol := "tcp"
  processName := none
  mac := none
  dscp := some 0

theorem compile_refines_nestedRouter : ∃ plan, RoutingPushPlan.compile (fun _ => Vector.replicate 32 0) nestedRouter
        [("direct", 0), ("block", 1), ("proxy", 2)] .domain = .ok plan ∧
      (nestedRouter.routeFullWithDomainBitmap nestedConnection (some .zero)).map RouteMatch.ruleId = some 1 ∧
      plan.AgreesWith nestedRouter [("direct", 0), ("block", 1), ("proxy", 2)] .domain nestedConnection 0 .zero := by
  obtain ⟨plan, h⟩ : ∃ plan, RoutingPushPlan.compile (fun _ => Vector.replicate 32 0) nestedRouter
      [("direct", 0), ("block", 1), ("proxy", 2)] .domain = .ok plan := ⟨_, rfl⟩
  exact ⟨plan, h, by decide, compile_refines_router _ _ _ _ plan h nestedConnection 0 rfl .zero⟩

end Honk.Routing
