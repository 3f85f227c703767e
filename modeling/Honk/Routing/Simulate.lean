import Honk.Lib.Deadline
import Honk.Routing.Build
import Honk.Routing.Protection

namespace Honk.Routing

open Honk.Lib Option Router
open List hiding Vector

inductive MatchResult where
  | matched
  | notMatched
  | indeterminate
  | skipped
  deriving DecidableEq

structure EvaluatedRule where
  result : MatchResult
  conditions : List MatchResult
  deriving DecidableEq

structure Evaluation where
  outbound : Option String
  rules : List EvaluatedRule
  deriving DecidableEq

inductive TraceError where
  | steps
  | deadline
  deriving DecidableEq

structure PolicyRouter extends Router where
  engine : Engine
  domains : List DomainMatcher
  domainMatchers_eq : domainMatchers = domains.map (DomainMatcher.matches engine)

def decided {m : Type → Type} [Monad m] {α : Type} (value : Option α) (test : α → m Bool) : m (Option Bool) :=
  match value with
  | none => pure none
  | some value => do return some (← test value)

def PolicyRouter.evaluatePredicateBounded {m : Type → Type} [Monad m] (router : PolicyRouter) (live : m Bool) (predicate : CompiledPredicate)
    (input : PredicateInput) : m (Option Bool) :=
  match predicate with
  | .domain id => decided input.domain fun domain =>
    match router.domains[id]? with
    | none => pure false
    | some matcher => matcher.matchesBounded router.engine live domain
  | .destinationIp matcher => decided input.dstIp fun ip => pure ((router.matchers matcher).matches ip)
  | .sourceIp matcher => decided input.srcIp fun ip => pure ((router.matchers matcher).matches ip)
  | .destinationPort ranges => decided input.dstPort fun port => boundedAny live (fun range : PortRange => pure (range.contains port)) ranges
  | .sourcePort ranges => decided input.srcPort fun port => boundedAny live (fun range : PortRange => pure (range.contains port)) ranges
  | .protocol mask => pure (some (protocolValue input.protocol &&& mask != 0))
  | .ipVersion mask => decided input.dstIp fun ip => pure (mask &&& (match ip with | .v4 _ => 1 | .v6 _ => 2) != 0)
  | .dscp values => decided input.dscp fun dscp => boundedAny live (fun value => pure (value == dscp)) values
  | .processName patterns => decided input.processName fun name => boundedAny live (fun pattern => pure (strContains name pattern)) patterns
  | .mac macs => decided input.mac fun mac =>
    match normalizeMacBytes mac.text with
    | none => pure false
    | some mac => boundedAny live (fun value => pure (value == mac)) macs

def MatchResult.ends : MatchResult → Bool
  | .notMatched | .skipped => true
  | .matched | .indeterminate => false

def conditionResult (condition : CompiledCondition) : Option Bool → MatchResult
  | some value => if value != condition.not then .matched else .notMatched
  | none => .indeterminate

def MatchResult.after (result next : MatchResult) : MatchResult :=
  match next with
  | .notMatched => .notMatched
  | .indeterminate => .indeterminate
  | .matched | .skipped => result

structure Progress where
  stopped : Bool := false
  candidate : Option String := none
  disagreement : Bool := false

section

variable (progress : Progress)

def Progress.addCandidate (next : String) : Progress :=
  match progress.candidate with
  | some previous => { progress with disagreement := progress.disagreement || previous != next }
  | none => { progress with candidate := some next }

def Progress.startResult (route : CompiledRoute) : MatchResult :=
  if progress.stopped then .skipped else if route.conditions.isEmpty then .notMatched else .matched

def Progress.afterRule (route : CompiledRoute) (result : MatchResult) : Progress :=
  let progress := if result = .matched ∨ result = .indeterminate then progress.addCandidate route.action.outbound else progress
  { progress with stopped := progress.stopped || decide (result = .matched) }

def Progress.evaluation (fallback : RouteAction) (rules : List EvaluatedRule) : Evaluation :=
  let final := if progress.stopped then progress else progress.addCandidate fallback.outbound
  { outbound := if final.disagreement then none else final.candidate
    rules := rules ++ [⟨if progress.stopped then .skipped else .matched, []⟩] }

end

namespace PolicyRouter

section

variable (router : PolicyRouter) (input : PredicateInput) (clock : Clock) (deadline : ℕ)

def checkDeadline : Attempt TraceError Unit := clock.check deadline .deadline

def chargeSteps : ℕ → List CompiledRoute → Attempt TraceError Unit
  | _, [] => pure ()
  | remaining, route :: routes => do
    checkDeadline clock deadline
    if remaining < 1 + route.conditions.length then .fail .steps
    else chargeSteps (remaining - 1 - route.conditions.length) routes

def simulateConditions : MatchResult → List CompiledCondition → Attempt TraceError (MatchResult × List MatchResult)
  | result, [] => pure (result, [])
  | result, condition :: conditions => do
    checkDeadline clock deadline
    let next ← .lift (if result.ends then pure .skipped
      else do return conditionResult condition (← router.evaluatePredicateBounded (clock.live deadline) condition.predicate input))
    checkDeadline clock deadline
    let (final, rest) ← simulateConditions (result.after next) conditions
    return (final, next :: rest)

def simulateRoutes : Progress → List CompiledRoute → Attempt TraceError (Progress × List EvaluatedRule)
  | progress, [] => pure (progress, [])
  | progress, route :: routes => do
    checkDeadline clock deadline
    let (result, conditions) ← simulateConditions router input clock deadline (progress.startResult route) route.conditions
    let (final, rest) ← simulateRoutes (progress.afterRule route result) routes
    return (final, ⟨result, conditions⟩ :: rest)

def simulate (maxSteps : ℕ) : Attempt TraceError Evaluation :=
  if maxSteps = 0 then .fail .steps
  else do
    chargeSteps clock deadline (maxSteps - 1) router.routes
    let (progress, rules) ← simulateRoutes router input clock deadline {} router.routes
    checkDeadline clock deadline
    return progress.evaluation router.fallback rules

end

end PolicyRouter

section

variable {clock : Clock} {deadline : ℕ}

theorem close_orElse (hf : Close clock deadline first x) (hs : Close clock deadline second y) :
    Close clock deadline (orElse first second) (x || y) := by
  have ha := close_bind hf fun b => close_ite b (close_pure true) hs
  cases x with
  | true => exact ha
  | false => exact ha

theorem close_boundedAny {α : Type} {f : α → Timed Bool} {g : α → Bool} (hf : ∀ x, Close clock deadline (f x) (g x)) (xs : List α) :
    Close clock deadline (boundedAny (clock.live deadline) f xs) (xs.any g) := by
  induction xs with
  | nil => exact close_pure false
  | cons x xs ih =>
    have hr : ∀ b : Bool, Close clock deadline (if b then orElse (f x) (boundedAny (clock.live deadline) f xs) else pure false)
        (if b then g x || xs.any g else false) := fun b => close_ite b (close_orElse (hf x) ih) (close_pure false)
    have ha := close_bind close_live hr
    exact ha

theorem GeositeMatcher.close_matchesBounded (engine : Engine) (matcher : GeositeMatcher) (domain : String) :
    Close clock deadline (matcher.matchesBounded engine (clock.live deadline) domain lower)
      (Id.run (matcher.matchesBounded engine (pure true) domain lower)) := by
  unfold GeositeMatcher.matchesBounded
  split
  · exact close_pure true
  split
  · exact close_pure true
  split
  · exact close_pure true
  · rw [run_boundedAny]
    exact close_boundedAny (fun _ => close_pure _) _

theorem DomainMatcher.close_matchesBounded (engine : Engine) (matcher : DomainMatcher) (domain : String) :
    Close clock deadline (matcher.matchesBounded engine (clock.live deadline) domain) (matcher.matches engine domain) := by
  unfold DomainMatcher.matches DomainMatcher.matchesBounded
  rw [run_orElse, run_orElse, run_orElse, run_boundedAny, run_boundedAny, run_boundedAny]
  refine close_orElse (close_boundedAny (fun _ => close_pure _) _) (close_orElse (close_boundedAny (fun _ => close_pure _) _)
    (close_orElse (close_boundedAny (fun _ => close_pure _) _) ?_))
  split
  · exact close_pure false
  · rw [run_boundedAny]
    exact close_boundedAny (fun geosite => geosite.close_matchesBounded engine domain) _

theorem close_decided (value : Option α) (h : ∀ x, Close clock deadline (test x) (g x)) :
    Close clock deadline (decided value test) (value.map g) := by
  cases value with
  | none => exact close_pure none
  | some x => exact close_bind (h x) fun b => close_pure (some b)

theorem PolicyRouter.close_evaluatePredicate (router : PolicyRouter) (predicate : CompiledPredicate) (input : PredicateInput) :
    Close clock deadline (router.evaluatePredicateBounded (clock.live deadline) predicate input) (router.evaluatePredicate predicate input none) := by
  cases predicate with
  | domain id =>
    refine close_decided input.domain fun domain => ?_
    rw [router.domainMatchers_eq, getElem?_map]
    cases router.domains[id]? with
    | none => exact close_pure false
    | some matcher => exact matcher.close_matchesBounded router.engine domain
  | destinationIp matcher | ipVersion mask => exact close_decided input.dstIp fun _ => close_pure _
  | sourceIp matcher => exact close_decided input.srcIp fun _ => close_pure _
  | destinationPort ranges => exact close_decided input.dstPort fun _ => close_boundedAny (fun _ => close_pure _) ranges
  | sourcePort ranges => exact close_decided input.srcPort fun _ => close_boundedAny (fun _ => close_pure _) ranges
  | protocol mask => exact close_pure _
  | dscp values => exact close_decided input.dscp fun _ => close_boundedAny (fun _ => close_pure _) values
  | processName patterns => exact close_decided input.processName fun _ => close_boundedAny (fun _ => close_pure _) patterns
  | mac macs =>
    refine close_decided input.mac fun mac => ?_
    cases normalizeMacBytes mac.text with
    | none => exact close_pure false
    | some bytes => exact close_boundedAny (fun _ => close_pure _) macs

end

section

variable (router : Router) (input : PredicateInput)

def labelConditions : MatchResult → List CompiledCondition → MatchResult × List MatchResult
  | result, [] => (result, [])
  | result, condition :: conditions =>
    let next := if result.ends then .skipped else conditionResult condition (router.evaluatePredicate condition.predicate input none)
    let (final, rest) := labelConditions (result.after next) conditions
    (final, next :: rest)

def labelRoutes : Progress → List CompiledRoute → Progress × List EvaluatedRule
  | progress, [] => (progress, [])
  | progress, route :: routes =>
    let (result, conditions) := labelConditions router input (progress.startResult route) route.conditions
    let (final, rest) := labelRoutes (progress.afterRule route result) routes
    (final, ⟨result, conditions⟩ :: rest)

def label : Evaluation :=
  let (progress, rules) := labelRoutes router input {} router.routes
  progress.evaluation router.fallback rules

end

section

variable (router : PolicyRouter) (input : PredicateInput) (clock : Clock) (deadline : ℕ)

theorem yields_chargeSteps (remaining : ℕ) (routes : List CompiledRoute) : Yields (PolicyRouter.chargeSteps clock deadline remaining routes) () := by
  induction routes generalizing remaining with
  | nil => exact yields_pure ()
  | cons route routes ih =>
    refine yields_bind (yields_check _) ?_
    split
    · exact yields_fail _ _
    · exact ih _

theorem yields_simulateConditions (result : MatchResult) (conditions : List CompiledCondition) :
    Yields (router.simulateConditions input clock deadline result conditions) (labelConditions router.toRouter input result conditions) := by
  induction conditions generalizing result with
  | nil => exact yields_pure _
  | cons condition conditions ih =>
    refine yields_bind (yields_check _) (yields_timed (close_ite result.ends (close_pure _)
      (close_bind (router.close_evaluatePredicate condition.predicate input) fun value => close_pure (conditionResult condition value))) ?_)
    exact yields_bind (ih _) (yields_pure _)

theorem yields_simulateRoutes (progress : Progress) (routes : List CompiledRoute) :
    Yields (router.simulateRoutes input clock deadline progress routes) (labelRoutes router.toRouter input progress routes) := by
  induction routes generalizing progress with
  | nil => exact yields_pure _
  | cons route routes ih =>
    refine yields_bind (yields_check _) (yields_bind (yields_simulateConditions router input clock deadline _ _) ?_)
    exact yields_bind (ih _) (yields_pure _)

theorem yields_simulate (maxSteps : ℕ) : Yields (router.simulate input clock deadline maxSteps) (label router.toRouter input) := by
  unfold PolicyRouter.simulate
  split
  · exact yields_fail _ _
  · refine yields_bind (yields_chargeSteps clock deadline _ _) (yields_bind (yields_simulateRoutes router input clock deadline _ _) ?_)
    exact yields_bind (yields_check _) (yields_pure _)

end

section

variable (router : Router) (conn : ConnectionInfo)

def observedConditions : List CompiledCondition → List MatchResult
  | [] => []
  | condition :: conditions =>
    if router.conditionMatched condition conn none then .matched :: observedConditions conditions
    else .notMatched :: conditions.map fun _ => .skipped

def skippedRules (routes : List CompiledRoute) : List EvaluatedRule :=
  routes.map (fun route => ⟨.skipped, route.conditions.map fun _ => .skipped⟩) ++ [⟨.skipped, []⟩]

/-- What production reports of the rules and, last, of the fallback: it stops at the first rule that matches. -/
def observedRoutes : List CompiledRoute → List EvaluatedRule
  | [] => [⟨.matched, []⟩]
  | route :: routes =>
    if router.matchesRoute route conn none then ⟨.matched, observedConditions router conn route.conditions⟩ :: skippedRules routes
    else ⟨.notMatched, observedConditions router conn route.conditions⟩ :: observedRoutes routes

end

/-- The connection has what the input says; what the input leaves open may be anything, or absent. -/
structure Completes (input : PredicateInput) (conn : ConnectionInfo) : Prop where
  domain : ∀ domain, input.domain = some domain → conn.domain = some domain
  dstIp : ∀ ip, input.dstIp = some ip → conn.dstIp = ip
  dstPort : ∀ port, input.dstPort = some port → conn.dstPort = port
  srcIp : ∀ ip, input.srcIp = some ip → conn.srcIp = ip
  srcPort : ∀ port, input.srcPort = some port → conn.srcPort = port
  protocol : conn.protocol = input.protocol
  processName : ∀ name, input.processName = some name → conn.processName = some name
  mac : ∀ mac, input.mac = some mac → conn.mac = some mac
  dscp : ∀ dscp, input.dscp = some dscp → conn.dscp = some dscp

/-- What a label says about the status in a completion: skipped is skipped, and a decided status holds wherever evaluation comes to it. -/
def MatchResult.Describes : MatchResult → MatchResult → Prop
  | .indeterminate, _ => True
  | .skipped, status => status = .skipped
  | label, status => status = label ∨ status = .skipped

def EvaluatedRule.Describes (label status : EvaluatedRule) : Prop :=
  label.result.Describes status.result ∧ List.Forall₂ MatchResult.Describes label.conditions status.conditions

theorem describes_skipped (label : MatchResult) : label.Describes .skipped := by
  cases label with
  | matched | notMatched => exact .inr rfl
  | indeterminate => trivial
  | skipped => rfl

theorem forall₂_skipped (labels : List MatchResult) {α : Type} {xs : List α} (h : labels.length = xs.length) :
    List.Forall₂ MatchResult.Describes labels (xs.map fun _ => .skipped) := by
  induction labels generalizing xs with
  | nil =>
    obtain rfl := length_eq_zero_iff.mp h.symm
    exact .nil
  | cons label labels ih =>
    cases xs with
    | nil => cases h
    | cons x xs => exact .cons (describes_skipped label) (ih (Nat.succ.inj h))

section

variable {router : Router} {input : PredicateInput} {conn : ConnectionInfo}

theorem map_completes {a b : Option α} {f : α → β} (hc : ∀ x, a = some x → b = some x) (h : a.map f = some value) :
    b.map f = some value := by
  obtain ⟨x, hx, rfl⟩ := map_eq_some_iff.mp h
  rw [hc x hx, map_some]

theorem evaluatePredicate_completes (hc : Completes input conn)
    (h : router.evaluatePredicate predicate input none = some value) : router.evaluatePredicate predicate conn.input none = some value := by
  cases predicate with
  | domain id => exact map_completes hc.domain h
  | destinationIp matcher | ipVersion mask => exact map_completes (fun ip hip => congrArg some (hc.dstIp ip hip)) h
  | sourceIp matcher => exact map_completes (fun ip hip => congrArg some (hc.srcIp ip hip)) h
  | destinationPort ranges => exact map_completes (fun port hpo => congrArg some (hc.dstPort port hpo)) h
  | sourcePort ranges => exact map_completes (fun port hpo => congrArg some (hc.srcPort port hpo)) h
  | protocol mask =>
    rw [evaluatePredicate, ← hc.protocol] at h
    exact h
  | dscp values => exact map_completes hc.dscp h
  | processName patterns => exact map_completes hc.processName h
  | mac macs => exact map_completes hc.mac h

theorem conditionResult_completes (router : Router) (hc : Completes input conn) (condition : CompiledCondition) :
    (conditionResult condition (router.evaluatePredicate condition.predicate input none) = .matched → router.conditionMatched condition conn none = true) ∧
    (conditionResult condition (router.evaluatePredicate condition.predicate input none) = .notMatched →
      router.conditionMatched condition conn none = false) ∧
    conditionResult condition (router.evaluatePredicate condition.predicate input none) ≠ .skipped := by
  cases hv : router.evaluatePredicate condition.predicate input none with
  | none => exact ⟨nofun, nofun, nofun⟩
  | some value =>
    rw [conditionMatched, evaluatePredicate_completes hc hv]
    cases value <;> cases hn : condition.not <;> simp [conditionResult, hn]

theorem length_labelConditions (result : MatchResult) (conditions : List CompiledCondition) :
    (labelConditions router input result conditions).2.length = conditions.length := by
  induction conditions generalizing result with
  | nil => rfl
  | cons condition conditions ih => exact congrArg Nat.succ (ih _)

variable {result : MatchResult} {progress : Progress}

theorem labelConditions_ended (h : result.ends = true) (conditions : List CompiledCondition) :
    labelConditions router input result conditions = (result, conditions.map fun _ => .skipped) := by
  induction conditions with
  | nil => rfl
  | cons condition conditions ih =>
    rw [labelConditions, h, if_pos rfl]
    dsimp only [MatchResult.after]
    rw [ih]
    rfl

structure RuleSound (router : Router) (conn : ConnectionInfo) (start : MatchResult) (conditions : List CompiledCondition)
    (labelled : MatchResult × List MatchResult) : Prop where
  matched : labelled.1 = .matched → start = .matched ∧ ∀ condition ∈ conditions, router.conditionMatched condition conn none = true
  notMatched : labelled.1 = .notMatched → ∃ condition ∈ conditions, router.conditionMatched condition conn none = false
  reached : labelled.1 ≠ .skipped
  describes : List.Forall₂ MatchResult.Describes labelled.2 (observedConditions router conn conditions)

theorem labelConditions_sound (router : Router) (hc : Completes input conn) (conditions : List CompiledCondition)
    (h : result.ends = false) : RuleSound router conn result conditions (labelConditions router input result conditions) := by
  induction conditions generalizing result with
  | nil =>
    refine ⟨fun hr => ⟨hr, nofun⟩, fun hr => ?_, fun hr => ?_, .nil⟩
    · rw [show result = .notMatched from hr] at h
      cases h
    · rw [show result = .skipped from hr] at h
      cases h
  | cons condition conditions ih =>
    obtain ⟨hh, hfails, hre⟩ := conditionResult_completes router hc condition
    rw [labelConditions, h, if_neg Bool.false_ne_true]
    dsimp only
    cases hne : conditionResult condition (router.evaluatePredicate condition.predicate input none) with
    | skipped => exact absurd hne hre
    | matched =>
      have ht := hh hne
      obtain ⟨hm, hn, hre', hd⟩ := ih h
      refine ⟨fun hf => ⟨(hm hf).1, ?_⟩, fun hf => ?_, hre', ?_⟩
      · exact forall_mem_cons.mpr ⟨ht, (hm hf).2⟩
      · obtain ⟨other, hme, ho⟩ := hn hf
        exact ⟨other, mem_cons_of_mem _ hme, ho⟩
      · rw [observedConditions, ht, if_pos rfl]
        exact .cons (.inl rfl) hd
    | notMatched =>
      have hfa := hfails hne
      dsimp only [MatchResult.after]
      rw [labelConditions_ended rfl]
      refine ⟨nofun, fun _ => ⟨condition, mem_cons_self, hfa⟩, nofun, ?_⟩
      rw [observedConditions, hfa, if_neg Bool.false_ne_true]
      exact .cons (.inl rfl) (forall₂_skipped _ (by simp))
    | indeterminate =>
      dsimp only [MatchResult.after]
      obtain ⟨hm, hn, hre', hd⟩ := ih (show MatchResult.indeterminate.ends = false from rfl)
      refine ⟨fun hf => (nomatch (hm hf).1), fun hf => ?_, hre', ?_⟩
      · obtain ⟨other, hme, ho⟩ := hn hf
        exact ⟨other, mem_cons_of_mem _ hme, ho⟩
      -- production may go on past a condition that the labels leave open, or stop at it
      rw [observedConditions]
      split
      · exact .cons trivial hd
      · exact .cons trivial (forall₂_skipped _ (length_labelConditions _ _))

theorem addCandidate_spec {next : String} (h : (progress.addCandidate next).disagreement = false) :
    progress.disagreement = false ∧ (progress.addCandidate next).candidate = some next ∧ ∀ previous, progress.candidate = some previous → previous = next := by
  unfold Progress.addCandidate at h ⊢
  split at h
  · rename_i previous hpr
    obtain ⟨hold, hs⟩ := Bool.or_eq_false_iff.mp h
    obtain rfl : previous = next := by simpa using hs
    refine ⟨hold, ?_, fun other ho => ?_⟩
    · exact hpr
    · exact Option.some.inj (ho.symm.trans hpr)
  · rename_i hn
    exact ⟨h, rfl, fun previous hpr => nomatch hn.symm.trans hpr⟩

theorem addCandidate_stopped (progress : Progress) {next : String} : (progress.addCandidate next).stopped = progress.stopped := by
  unfold Progress.addCandidate
  split <;> rfl

variable {routes : List CompiledRoute}

theorem labelRoutes_stopped (h : progress.stopped = true) : labelRoutes router input progress routes =
      (progress, routes.map fun route => ⟨.skipped, route.conditions.map fun _ => .skipped⟩) := by
  induction routes with
  | nil => rfl
  | cons route routes ih =>
    have hs : progress.startResult route = .skipped := by rw [Progress.startResult, h, if_pos rfl]
    have ha : progress.afterRule route .skipped = progress := by
      obtain ⟨stopped, candidate, disagreement⟩ := progress
      simp [Progress.afterRule]
    rw [labelRoutes, hs, labelConditions_ended rfl]
    dsimp only
    rw [ha, ih]
    rfl

theorem afterRule_stopped : (progress.afterRule route result).stopped = (progress.stopped || decide (result = .matched)) := by
  unfold Progress.afterRule
  dsimp only
  split
  · rw [addCandidate_stopped]
  · rfl

theorem labelRule_cases (router : Router) (hc : Completes input conn) (h : progress.stopped = false) (route : CompiledRoute) :
    ((labelConditions router input (progress.startResult route) route.conditions).1 = .matched ∧ router.matchesRoute route conn none = true ∨
      (labelConditions router input (progress.startResult route) route.conditions).1 = .notMatched ∧ router.matchesRoute route conn none = false ∨
      (labelConditions router input (progress.startResult route) route.conditions).1 = .indeterminate) ∧
    List.Forall₂ MatchResult.Describes (labelConditions router input (progress.startResult route) route.conditions).2
      (observedConditions router conn route.conditions) := by
  unfold Progress.startResult
  rw [h, if_neg Bool.false_ne_true]
  split
  · rename_i he
    rw [List.isEmpty_iff.mp he]
    exact ⟨.inr (.inl ⟨rfl, by rw [matchesRoute, he]; rfl⟩), .nil⟩
  rename_i hn
  obtain ⟨hm, hno, hre, hd⟩ := labelConditions_sound router hc route.conditions (show MatchResult.matched.ends = false from rfl)
  refine ⟨?_, hd⟩
  cases hr : (labelConditions router input .matched route.conditions).1 with
  | matched =>
    refine .inl ⟨rfl, ?_⟩
    rw [matchesRoute, Bool.and_eq_true]
    exact ⟨by simpa using hn, all_eq_true.mpr (hm hr).2⟩
  | notMatched =>
    refine .inr (.inl ⟨rfl, ?_⟩)
    obtain ⟨condition, hme, hf⟩ := hno hr
    rw [matchesRoute, Bool.and_eq_false_iff]
    exact .inr (all_eq_false.mpr ⟨condition, hme, by rw [hf]; exact Bool.false_ne_true⟩)
  | indeterminate => exact .inr (.inr rfl)
  | skipped => exact absurd hr hre

theorem labelRoutes_skipped (progress : Progress) (routes : List CompiledRoute) (last : MatchResult) :
    List.Forall₂ EvaluatedRule.Describes ((labelRoutes router input progress routes).2 ++ [⟨last, []⟩]) (skippedRules routes) := by
  induction routes generalizing progress with
  | nil => exact .cons ⟨describes_skipped last, .nil⟩ .nil
  | cons route routes ih => exact .cons ⟨describes_skipped _, forall₂_skipped _ (length_labelConditions _ _)⟩ (ih _)

theorem labelRoutes_describes (hco : Completes input conn) (routes : List CompiledRoute) (h : progress.stopped = false) :
    List.Forall₂ EvaluatedRule.Describes ((labelRoutes router input progress routes).2 ++
      [⟨if (labelRoutes router input progress routes).1.stopped then .skipped else .matched, []⟩]) (observedRoutes router conn routes) := by
  induction routes generalizing progress with
  | nil =>
    rw [labelRoutes, h]
    exact .cons ⟨.inl rfl, .nil⟩ .nil
  | cons route routes ih =>
    obtain ⟨hr, hc⟩ := labelRule_cases router hco h route
    rw [labelRoutes, observedRoutes]
    generalize labelConditions router input (progress.startResult route) route.conditions = labelled at hr hc ⊢
    obtain ⟨result, labels⟩ := labelled
    have hn : result ≠ .matched → (progress.afterRule route result).stopped = false := by
      intro hne
      rw [afterRule_stopped, h, decide_eq_false hne]
      rfl
    obtain ⟨rfl, hm⟩ | ⟨rfl, hmi⟩ | rfl := hr
    · rw [hm, if_pos rfl]
      exact .cons ⟨.inl rfl, hc⟩ (labelRoutes_skipped _ _ _)
    · rw [hmi, if_neg Bool.false_ne_true]
      exact .cons ⟨.inl rfl, hc⟩ (ih (hn nofun))
    cases router.matchesRoute route conn none with
    | true =>
      rw [if_pos rfl]
      exact .cons ⟨trivial, hc⟩ (labelRoutes_skipped _ _ _)
    | false =>
      rw [if_neg Bool.false_ne_true]
      exact .cons ⟨trivial, hc⟩ (ih (hn nofun))

def Progress.close (progress : Progress) (fallback : RouteAction) : Progress :=
  if progress.stopped then progress else progress.addCandidate fallback.outbound

theorem labelRoutes_outbound (hco : Completes input conn) (h : progress.stopped = false)
    (ha : ((labelRoutes router input progress routes).1.close router.fallback).disagreement = false) :
    progress.disagreement = false ∧ ∃ name, ((labelRoutes router input progress routes).1.close router.fallback).candidate = some name ∧
      (∀ previous, progress.candidate = some previous → previous = name) ∧ (firstAction router conn routes).outbound = name := by
  induction routes generalizing progress with
  | nil =>
    rw [labelRoutes, Progress.close, h, if_neg Bool.false_ne_true] at ha ⊢
    obtain ⟨hold, hc, hpr⟩ := addCandidate_spec ha
    exact ⟨hold, _, hc, hpr, rfl⟩
  | cons route routes ih =>
    obtain ⟨hr, -⟩ := labelRule_cases router hco h route
    rw [labelRoutes] at ha ⊢
    rw [firstAction_cons]
    generalize labelConditions router input (progress.startResult route) route.conditions = labelled at hr ha ⊢
    obtain ⟨result, labels⟩ := labelled
    dsimp only at ha hr ⊢
    obtain ⟨rfl, hm⟩ | ⟨rfl, hmi⟩ | rfl := hr
    · have haf : progress.afterRule route .matched = { progress.addCandidate route.action.outbound with stopped := true } := by
        simp [Progress.afterRule]
      rw [haf, labelRoutes_stopped rfl] at ha ⊢
      obtain ⟨hold, hc, hpr⟩ := addCandidate_spec (show (progress.addCandidate route.action.outbound).disagreement = false from ha)
      rw [hm, if_pos rfl]
      exact ⟨hold, _, hc, hpr, rfl⟩
    · have haf : progress.afterRule route .notMatched = progress := by
        obtain ⟨stopped, candidate, disagreement⟩ := progress
        simp [Progress.afterRule]
      rw [haf] at ha ⊢
      rw [hmi, if_neg Bool.false_ne_true]
      exact ih h ha
    have haf : progress.afterRule route .indeterminate = progress.addCandidate route.action.outbound := by
      simp [Progress.afterRule]
    rw [haf] at ha ⊢
    obtain ⟨hn, name, hc, hpr, hf⟩ := ih ((addCandidate_stopped progress).trans h) ha
    obtain ⟨hold, hne, hpr'⟩ := addCandidate_spec hn
    obtain rfl := hpr _ hne
    refine ⟨hold, _, hc, hpr', ?_⟩
    split
    · rfl
    · exact hf

/-- A definite outbound is the outbound of every completion, and what a label says holds in every completion. -/
theorem simulate_sound (router : PolicyRouter) (input : PredicateInput) (clock : Clock) (deadline maxSteps start finish : ℕ) (evaluation : Evaluation)
    (h : router.simulate input clock deadline maxSteps start = .ok (evaluation, finish)) (conn : ConnectionInfo) (hconn : Completes input conn) :
    (∀ name, evaluation.outbound = some name → (router.routeAction conn).outbound = name) ∧
      List.Forall₂ EvaluatedRule.Describes evaluation.rules (observedRoutes router.toRouter conn router.routes) := by
  obtain rfl := yields_simulate router input clock deadline maxSteps start evaluation finish h
  refine ⟨fun name hn => ?_, labelRoutes_describes hconn router.routes rfl⟩
  change (if ((labelRoutes router.toRouter input {} router.routes).1.close router.fallback).disagreement then none
    else ((labelRoutes router.toRouter input {} router.routes).1.close router.fallback).candidate) = some name at hn
  split at hn
  · cases hn
  rename_i ha
  obtain ⟨-, name', hc, -, hf⟩ := labelRoutes_outbound hconn rfl (by simpa using ha)
  rw [← Option.some.inj (hc.symm.trans hn)]
  exact hf

def directRouter : PolicyRouter where
  matchers _ := .new []
  routes := [⟨0, "lan", "", "", [⟨false, .domain 0⟩], ⟨"direct", false, none, none⟩⟩,
    ⟨1, "tcp", "", "", [⟨false, .protocol 1⟩], ⟨"direct", false, none, none⟩⟩]
  fallback := ⟨"block", false, none, none⟩
  domainMatchers := [DomainMatcher.matches plainEngine ⟨[], [".lan"], [], []⟩]
  policyFingerprint := Vector.replicate 32 0
  engine := plainEngine
  domains := [⟨[], [".lan"], [], []⟩]
  domainMatchers_eq := rfl

def openInput : PredicateInput where
  domain := none
  dstIp := some localConnection.dstIp
  dstPort := some 22
  srcIp := none
  srcPort := none
  protocol := "tcp"
  processName := none
  mac := none
  dscp := none

def stillClock : Clock := ⟨fun _ => 0, fun _ _ _ => le_rfl⟩

theorem completes_openInput : Completes openInput localConnection :=
  ⟨nofun, fun _ h => Option.some.inj h, fun _ h => Option.some.inj h, nofun, nofun, rfl, nofun, nofun, nofun⟩

theorem matched_rule_skipped : ∃ evaluation finish, directRouter.simulate openInput stillClock 1 10 0 = .ok (evaluation, finish) ∧
    evaluation.outbound = some "direct" ∧ evaluation.rules.map EvaluatedRule.result = [.indeterminate, .matched, .skipped] ∧
    Completes openInput localConnection ∧
    (observedRoutes directRouter.toRouter localConnection directRouter.routes).map EvaluatedRule.result = [.matched, .skipped, .skipped] := by
  refine ⟨⟨some "direct", [⟨.indeterminate, [.indeterminate]⟩, ⟨.matched, [.matched]⟩, ⟨.skipped, []⟩]⟩, 9, ?_, rfl, rfl, completes_openInput, ?_⟩
  · decide +kernel
  · decide +kernel

theorem simulate_sound_directRouter : ∃ evaluation finish, directRouter.simulate openInput stillClock 1 10 0 = .ok (evaluation, finish) ∧
    (directRouter.routeAction localConnection).outbound = "direct" := by
  obtain ⟨evaluation, finish, h, ho⟩ : ∃ evaluation finish, directRouter.simulate openInput stillClock 1 10 0 = .ok (evaluation, finish) ∧
      evaluation.outbound = some "direct" := ⟨_, _, rfl, rfl⟩
  exact ⟨evaluation, finish, h, (simulate_sound directRouter openInput stillClock 1 10 0 finish evaluation h localConnection completes_openInput).1
    "direct" ho⟩

end

end Honk.Routing
