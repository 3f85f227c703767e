import Honk.Routing.Plan

namespace Honk.Codegen

open Honk.Lib Honk.Routing

def routeTraceValues : ℕ := 256

inductive KernelTraceDisposition where
  | runtime
  | foldedTrue
  | foldedFalse
  | unreachable
  deriving DecidableEq

structure KernelTraceSlot where
  ruleId : Option (BitVec 32)
  conditionOrdinal : Option ℕ
  evaluationRank : Option ℕ
  disposition : KernelTraceDisposition

structure KernelTraceLayout where
  slots : List KernelTraceSlot := []
  totalValues : ℕ := 0

def KernelTraceLayout.push (layout : KernelTraceLayout) (slot : KernelTraceSlot) : KernelTraceLayout where
  slots := if layout.slots.length < routeTraceValues then layout.slots ++ [slot] else layout.slots
  totalValues := layout.totalValues + 1

variable (unreachable : Bool) (rule : KernelRule)

def ruleDisposition : KernelTraceDisposition :=
  if unreachable then .unreachable else if rule.foldedFalse then .foldedFalse else .runtime

def runtimeRank (disposition : KernelTraceDisposition) (rank : ℕ) : Option ℕ := if disposition = .runtime then some rank else none

def emptyConditions : List (ℕ × KernelCondition) :=
  (rule.conditions.zipIdx.map Prod.swap).filter fun entry => entry.2.predicate.isEmpty

def ruleSlots : List KernelTraceSlot :=
  let disposition := ruleDisposition unreachable rule
  { ruleId := some rule.id, conditionOrdinal := none,
    evaluationRank := runtimeRank disposition rule.runtimeConditions.length, disposition } ::
  (rule.runtimeConditions.zipIdx.map fun entry =>
    { ruleId := some rule.id, conditionOrdinal := some entry.1.1,
      evaluationRank := runtimeRank disposition entry.2,
      disposition := if disposition = .runtime then .runtime else .unreachable }) ++
  (emptyConditions rule).map fun entry =>
    { ruleId := some rule.id, conditionOrdinal := some entry.1, evaluationRank := none,
      disposition := if unreachable then .unreachable else if entry.2.not then .foldedTrue else .foldedFalse }

def endsUnconditionally : Bool := !rule.foldedFalse && rule.runtimeConditions.length == 0

def layoutRule (state : KernelTraceLayout × Bool) (rule : KernelRule) : KernelTraceLayout × Bool :=
  ((ruleSlots state.2 rule).foldl KernelTraceLayout.push state.1, state.2 || endsUnconditionally rule)

def fallbackSlot : KernelTraceSlot where
  ruleId := none
  conditionOrdinal := none
  evaluationRank := if unreachable then none else some 0
  disposition := if unreachable then .unreachable else .runtime

def traceLayout (plan : RoutingPushPlan) : Option KernelTraceLayout :=
  if plan.traceEnabled then
    let (layout, unreachable) := plan.rules.foldl layoutRule ({}, false)
    some (layout.push (fallbackSlot unreachable))
  else none

end Honk.Codegen
