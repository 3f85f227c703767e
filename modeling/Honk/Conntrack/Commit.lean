import Honk.Conntrack.Fence

namespace Honk.Conntrack

open Honk.Lib Honk.Routing Honk.Nfqueue Program
open Honk.Packet (ipprotoTcp ipprotoUdp)

def transitionMark : UdpDecisionTransition → Option (BitVec 32)
  | .armDirect mark | .activateDirect mark | .activateProxy _ mark => some mark
  | .block => none

variable (transition : UdpDecisionTransition)

def validateUdpDecisionTransition : Except BackendError Unit :=
  match transitionMark transition with
  | none => .ok ()
  | some mark => if skbMarkHasReservedBits mark then .error (.reservedMark mark) else .ok ()

def buildRoutingMeta (outbound : Byte) (mark : BitVec 32) (must dscp : Byte) : BitVec 64 :=
  outbound.setWidth 64 ||| (mark.setWidth 64 <<< 8) ||| (must.setWidth 64 <<< 40) ||| (dscp.setWidth 64 <<< 48) |||
    (1 <<< 56)

def dscpMask : BitVec 64 := 0xff#64 <<< 48

def finalUdpMeta (previous : BitVec 64) (outbound : Byte) (mark : BitVec 32) (offload : Bool) : BitVec 64 :=
  let preserved := previous &&& (dscpMask ||| routingMetaFlagPublished)
  let flags := if offload then routingMetaFlagOffload else 0
  preserved ||| outbound.setWidth 64 ||| (mark.setWidth 64 <<< 8) ||| flags

def applyUdpDecisionTransition (state : ConnState) (transition : UdpDecisionTransition) :
    Except UdpDecisionCommitResult ConnState :=
  let expected : UdpDecisionState :=
    match transition with
    | .activateDirect _ => .directArmed
    | .armDirect _ | .activateProxy _ _ | .block => .pending
  if state.state ≠ expected.code then .error .stateMismatch
  else
    let raw := state.routingMeta
    match transition with
    | .armDirect mark => .ok { state with
        state := UdpDecisionState.directArmed.code, routingMeta := finalUdpMeta raw outboundDirect mark false }
    | .activateDirect mark =>
      let armedMark : BitVec 32 := (raw >>> 8).setWidth 32
      if raw.setWidth 8 ≠ outboundDirect ∨ armedMark ≠ mark ∨ raw &&& routingMetaFlagOffload ≠ 0 then .error .stateMismatch
      else .ok { state with
        state := UdpDecisionState.none.code, routingMeta := finalUdpMeta raw outboundDirect mark true }
    | .activateProxy outbound mark => .ok { state with
        state := UdpDecisionState.proxy.code, routingMeta := finalUdpMeta raw outbound mark false }
    | .block => .ok { state with
        state := UdpDecisionState.block.code, routingMeta := finalUdpMeta raw outboundBlock 0 false }

inductive RedirectEffect where
  | remove
  | rewrite (entry : RedirectEntry)

structure UdpCommitPlan where
  state : ConnState
  removeHandoff : Bool
  redirect : Option RedirectEffect

def isInitial : UdpDecisionTransition → Bool
  | .activateDirect _ => false
  | _ => true

def redirectEffect (track : RedirectEntry) : RedirectEffect :=
  match transition with
  | .activateProxy outbound _ => .rewrite { track with outbound := outbound }
  | _ => .remove

def planUdpCommit (state : ConnState) (token : BitVec 32) (transition : UdpDecisionTransition)
    (handoff : Option RoutingHandoffEntry) (track : Option RedirectEntry) : Except UdpDecisionCommitResult UdpCommitPlan :=
  match applyUdpDecisionTransition state transition with
  | .error result => .error result
  | .ok next =>
    let initial := isInitial transition
    if !auxiliariesMatch next.incarnation token handoff track then .error .tokenMismatch
    else if initial && (handoff.isNone || track.isNone) then .error .missing
    else if !initial && (handoff.isSome || track.isSome) then .error .stateMismatch
    else .ok ⟨next, handoff.isSome, track.map (redirectEffect transition)⟩

def onFlows {T : Type} (m : FlowProgram T) : BackendProgram T :=
  zoom Backend.flows (fun backend flows => { backend with flows := flows }) m

def lift {T : Type} : Except BackendError T → BackendProgram T
  | .ok value => pure value
  | .error error => throw error

variable (commit : UdpDecisionCommit)

def recorded (captured : Option (BitVec 64)) (before : Maps)
    (result : Except BackendError UdpDecisionCommitResult) (after : Flows) : Flows :=
  match result with
  | .ok reply => { after with reports := ⟨commit, captured, reply, before, after.toMaps⟩ :: after.reports }
  | .error _ => after

def reported (captured : Option (BitVec 64))
    (m : FlowProgram UdpDecisionCommitResult) : FlowProgram UdpDecisionCommitResult := .ofExec fun flows =>
  ((m.exec flows).1, recorded commit captured flows.toMaps (m.exec flows).1 (m.exec flows).2)

def hashRemoveIf (wanted : Bool) (slot : Slot) : FlowProgram Unit :=
  if wanted then do
    let _ ← hashRemovePresent slot
    pure ()
  else pure ()

def rewriteRedirect (key : RedirectTuple) : Option RedirectEffect → FlowProgram Unit
  | some (.rewrite track) => flowInsert (.redirect key track)
  | some .remove => hashRemoveIf true (.redirect key)
  | none => pure ()

def applyPlan (key : TuplesKey) (plan : UdpCommitPlan) : FlowProgram UdpDecisionCommitResult := do
  hashRemoveIf plan.removeHandoff (.handoff key)
  rewriteRedirect (RedirectTuple.fromTuples key) plan.redirect
  flowInsert (.conn key plan.state)
  return .applied

def planned (state : ConnState) : FlowProgram (Except UdpDecisionCommitResult UdpCommitPlan) := do
  ensure (state.incarnation ≠ 0) .commitHasNoLifetime
  let handoff ← lookupHandoff commit.key
  let track ← lookupRedirect (RedirectTuple.fromTuples commit.key)
  return planUdpCommit state commit.token commit.transition handoff track

def commitUdpChecked (incarnation : BitVec 64) : FlowProgram UdpDecisionCommitResult := do
  let current ← lookupConn commit.key
  match current with
  | none => return .missing
  | some state =>
    if state.decisionToken ≠ commit.token ∨ state.incarnation ≠ incarnation then return .tokenMismatch
    else do
      let plan ← planned commit state
      match plan with
      | .error result => return result
      | .ok plan => applyPlan commit.key plan

def flowUpdate (entry : Entry) : FlowProgram Bool := .ofExec fun flows =>
  if flows.answer = .failed then (.error .syscall, flows.answered)
  else if (flows.get entry.slot).isNone then (.ok false, flows.answered)
  else (.ok true, flows.answered.put entry)

def activateChecked : FlowProgram UdpDecisionCommitResult := do
  let current ← lookupConn commit.key
  match current with
  | none => return .missing
  | some state =>
    if state.decisionToken ≠ commit.token then return .tokenMismatch
    else do
      let plan ← planned commit state
      match plan with
      | .error result => return result
      | .ok plan => do
        let present ← flowUpdate (.conn commit.key plan.state)
        return if present then .applied else .missing

def activateUdpDirect : BackendProgram UdpDecisionCommitResult := do
  ensureResolved
  lift (validateUdpDecisionTransition commit.transition)
  if commit.token = 0 then onFlows (reported commit none (pure .tokenMismatch))
  else onFlows (reported commit none (activateChecked commit))

def commitUdpFenced : BackendProgram UdpDecisionCommitResult := do
  ensureResolved
  lift (validateUdpDecisionTransition commit.transition)
  if commit.token = 0 then onFlows (reported commit none (pure .tokenMismatch))
  else do
    let current ← onFlows (lookupConn commit.key)
    match current with
    | none => onFlows (reported commit none (pure .missing))
    | some captured =>
      withRetirementFences [(commit.key, commit.token)]
        (reported commit (some captured.incarnation) (commitUdpChecked commit captured.incarnation))

def commitUdpDecision : BackendProgram UdpDecisionCommitResult :=
  match commit.transition with
  | .activateDirect _ => activateUdpDirect commit
  | _ => commitUdpFenced commit

structure Visit where
  applies : ℕ
  tolerant : Bool
  stops : Bool

def applyTimes (tolerant : Bool) (apply : FlowProgram UdpDecisionCommitResult) : ℕ → FlowProgram Unit
  | 0 => pure ()
  | n + 1 => do
    let result ← apply.attempt
    match result with
    | .ok _ => applyTimes tolerant apply n
    | .error error => if tolerant then applyTimes tolerant apply n else throw error

def visitCommit (visit : Visit) (commit : UdpDecisionCommit) (captured : Option (BitVec 64)) : FlowProgram Unit := do
  applyTimes visit.tolerant
    (if commit.token = 0 then reported commit none (pure .tokenMismatch)
      else match captured with
        | none => reported commit none (pure .missing)
        | some incarnation => reported commit captured (commitUdpChecked commit incarnation))
    visit.applies
  ensure (visit.stops = false) .visitor

def captureIncarnation : BackendProgram (Option (BitVec 64)) := do
  lift (validateUdpDecisionTransition commit.transition)
  ensure (isInitial commit.transition = true) .activationInBatch
  ensure (commit.key.padding = Vector.replicate 3 0 ∧ commit.key.l4proto = ipprotoUdp) .noncanonicalCommit
  if commit.token = 0 then return none
  else do
    let current ← onFlows (lookupConn commit.key)
    return current.map fun state => state.incarnation

def commitUdpDecisions (requests : List UdpDecisionCommit) (visits : ℕ → Visit) : BackendProgram Unit := do
  ensure (requests.length ≤ retireBatchCapacity) .batchExceedsCapacity
  ensureResolved
  let captured ← requests.mapM captureIncarnation
  let work := requests.zip captured
  let keys := (work.filter fun entry => entry.2.isSome).map fun entry => (entry.1.key, entry.1.token)
  let operation : FlowProgram Unit := work.zipIdx.forM fun entry => visitCommit (visits entry.2) entry.1.1 entry.1.2
  if keys.isEmpty then onFlows operation else withRetirementFences keys operation

def fencedToken (request : RetireRequest) : Except BackendError (BitVec 32) :=
  if request.key.padding ≠ Vector.replicate 3 0 ∨
      request.key.l4proto ≠ ipprotoTcp ∧ request.key.l4proto ≠ ipprotoUdp then .error .noncanonicalTuple
  else match request.kind with
    | .tcp incarnation => if request.key.l4proto = ipprotoTcp ∧ incarnation ≠ 0 then .ok 0 else .error .invalidTcpOwner
    | .udp token incarnation _ =>
      if request.key.l4proto = ipprotoUdp ∧ incarnation ≠ some 0 ∧ (token ≠ 0 ∨ incarnation.isSome) then .ok token
      else .error .invalidUdpOwner
    | .expiredConn expected _ => .ok expected.decisionToken
    | .expiredRedirect expected _ => .ok expected.decisionToken
    | .expiredHandoff expected _ => .ok expected.result.decisionToken
    | .expiryHint incarnation _ => if incarnation ≠ 0 then .ok 0 else .error .invalidExpiryIncarnation

def retireNext (request : RetireRequest) : FlowProgram Unit := do
  let outcome ← retireOne request
  modify fun flows => { flows with outcomes := flows.outcomes ++ [outcome] }

def Backend.startBatch (backend : Backend) : Backend :=
  { backend with flows := { backend.flows with counts := {}, outcomes := [] } }

def retireFlows (requests : List RetireRequest) : BackendProgram RetireCounts := do
  modify Backend.startBatch
  ensure (requests.length ≤ retireBatchCapacity) .inputOutputMismatch
  ensureResolved
  if requests.isEmpty then return {}
  else do
    let tokens ← requests.mapM fun request => lift (fencedToken request)
    withRetirementFences ((requests.map RetireRequest.key).zip tokens) (requests.forM retireNext)
    let backend ← get
    return backend.flows.counts

structure TcpSocketBinding where
  tuples : TuplesKey
  handoff : RoutingHandoffEntry
  kind : BitVec 32
  synIsn : BitVec 32

def tcpBindingChild : BitVec 32 := 2

def flowIncarnationMax : BitVec 64 := (1 <<< 56) - 1

-- The identity of the accepted socket is what its storage holds; a pin is left by a call that may fail.
variable (binding : Option TcpSocketBinding)

def adoptChecked (tuples : TuplesKey) : FlowProgram (BitVec 64 × RoutingHandoffEntry) := do
  match binding with
  | none => throw .childProofPending
  | some binding => do
    let conn ← lookupConn tuples
    match conn with
    | none => throw .adoptionWithoutConn
    | some current => do
      ensure (binding.kind = tcpBindingChild ∧
        RedirectTuple.fromTuples binding.tuples = RedirectTuple.fromTuples tuples ∧ binding.handoff.incarnation ≠ 0 ∧
        binding.handoff.incarnation = current.incarnation) .adoptionUnproven
      let handoff ← lookupHandoff tuples
      match handoff with
      | none => throw .adoptionWithoutHandoff
      | some handoff => do
        let redirect ← lookupRedirect (RedirectTuple.fromTuples tuples)
        match redirect with
        | none => throw .adoptionWithoutRedirect
        | some redirect => do
          ensure (handoff.incarnation = current.incarnation ∧ redirect.incarnation = current.incarnation)
            .adoptionSuperseded
          ensure (current.incarnation ≠ 0 ∧ current.incarnation ≤ flowIncarnationMax) .invalidLifetime
          let _ ← flowLookup fun _ => some ()
          return (current.incarnation, binding.handoff)

def adoptTcp (tuples : TuplesKey) : BackendProgram (BitVec 64 × RoutingHandoffEntry) := do
  ensureResolved
  onFlows (adoptChecked binding tuples)

end Honk.Conntrack
