import Honk.Codegen.Codegen

namespace Honk.Codegen

open Honk.Lib Honk.Routing
open Function (update)

abbrev Words := ℕ → BitVec 32

def traceOr (on : Bool) (k : ℕ) (bits : BitVec 32) (out : Words) : Words := if on then update out k (out k ||| bits) else out

def outcomeBits (matched : Bool) : BitVec 32 := if matched then routeTraceMatched else routeTraceNotMatched

def recordOutcome (on : Bool) (out : Words) (entry : ℕ × Bool) : Words :=
  if routeTraceValues ≤ entry.1 then traceOr on 6 routeTraceOverflow out
  else traceOr on (52 + entry.1 / 16) (outcomeBits entry.2 <<< (entry.1 % 16 * 2)) out

/-- What evaluating a rule list does: the slots it decides, in order, the rule that wins, and whether a
domain predicate was passed on the way. -/
structure Evaluation where
  log : List (ℕ × Bool)
  winner : Option KernelRule
  domainPrefix : Bool

def conditionLog (view : KernelView) (ruleSlot : ℕ) : List (KernelCondition × ℕ) → List (ℕ × Bool)
  | [] => []
  | (condition, rank) :: conditions =>
    (ruleSlot + 1 + rank, condition.holds view) ::
      if condition.holds view then conditionLog view ruleSlot conditions else []

def runtimePart (rule : KernelRule) : List (KernelCondition × ℕ) := (rule.runtimeConditions.map Prod.snd).zipIdx

def passes (view : KernelView) (rule : KernelRule) : Bool := (runtimePart rule).all fun entry => entry.1.holds view

def evaluate (view : KernelView) (slot : ℕ) (domainPrefix : Bool) : List KernelRule → Evaluation
  | [] => ⟨[(slot, true)], none, domainPrefix⟩
  | rule :: rules =>
    if rule.foldedFalse then evaluate view (slot + 1 + rule.conditions.length) domainPrefix rules
    else if passes view rule then
      ⟨conditionLog view slot (runtimePart rule) ++ [(slot, true)], some rule, domainPrefix || readsDomain rule⟩
    else
      let rest := evaluate view (slot + 1 + rule.conditions.length) (domainPrefix || readsDomain rule) rules
      ⟨conditionLog view slot (runtimePart rule) ++ (slot, false) :: rest.log, rest.winner, rest.domainPrefix⟩

def setWhen (condition : Bool) (k : ℕ) (v : BitVec 32) (out : Words) : Words := if condition then update out k v else out

def refines (action : KernelAction) (refineDirectFinality : Bool) : Bool :=
  refineDirectFinality && action.outbound == outboundDirect && !action.must

def applyAction (action : KernelAction) (ruleId : Option (BitVec 32)) (refineDirectFinality : Bool)
    (flags : BitVec 32) (out : Words) : Words :=
  setWhen (ruleId.isSome || action.directMarkIndex.isSome) 5
    (action.directMarkIndex.elim (-1) fun index => index.zeroExtend 32) <|
  setWhen ruleId.isSome 4 (ruleId.getD 0) <|
  setWhen (ruleId.isSome || action.must) 2 (if action.must then 1 else 0) <|
  setWhen (ruleId.isSome || action.mark != 0) 1 action.mark <|
  setWhen ruleId.isSome 0 (action.outbound.zeroExtend 32) <|
  setWhen (refines action refineDirectFinality && (flags &&& routingInputAllowDirectFinality != 0)) 3 1 out

def Evaluation.action (evaluation : Evaluation) (plan : RoutingPushPlan) : KernelAction :=
  evaluation.winner.elim plan.fallback KernelRule.action

def Evaluation.finish (evaluation : Evaluation) (plan : RoutingPushPlan) (on : Bool) (flags : BitVec 32) (out : Words) : Words :=
  traceOr on 6 routeTraceComplete <|
  applyAction (evaluation.action plan) (evaluation.winner.map KernelRule.id)
    (domainReroute plan && !evaluation.domainPrefix) flags <|
  evaluation.log.foldl (recordOutcome on) out

def finalIfPresent (kind : FactKind) (fact : Option DomainRouting) (out : Words) : Words :=
  if kind = .domain ∧ fact.isSome = true then update out 3 1 else out

def clearOutcomes (n : ℕ) (out : Words) : Words := fun k => if 52 ≤ k ∧ k < 52 + n then 0 else out k

def initTrace (on : Bool) (out : Words) : Words :=
  if on then clearOutcomes routeTraceWords (update out 6 (routeTraceVersion ||| routeTraceEnabled)) else out

def resetDecision (plan : RoutingPushPlan) (out : Words) : Words :=
  (update · 4 (-1)) <|
  (update · 3 (if !plan.hasDomainRules || !domainReroute plan then 1 else 0)) <|
  (update · 2 0) <|
  (update · 1 0) <|
  (update · 0 (plan.fallback.outbound.zeroExtend 32)) <|
  update out 5 (-1)

def prologueWords (plan : RoutingPushPlan) (on : Bool) (domain : Option DomainRouting) (out : Words) : Words :=
  if plan.hasDomainRules then finalIfPresent .domain domain (initTrace on (resetDecision plan out))
  else initTrace on (resetDecision plan out)

end Honk.Codegen
