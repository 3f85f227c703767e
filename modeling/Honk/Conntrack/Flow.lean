import Honk.Lib.Program
import Honk.Nfqueue.Cell

namespace Honk.Conntrack

open Honk.Lib Honk.Nfqueue
open Function (update)

def tcpStateActive : Byte := 0
def tcpStateClosing : Byte := 1

structure TuplesKey where
  srcIp : Vector Byte 16 := Vector.replicate 16 0
  dstIp : Vector Byte 16 := Vector.replicate 16 0
  srcPort : BitVec 16 := 0
  dstPort : BitVec 16 := 0
  l4proto : Byte := 0
  padding : Vector Byte 3 := Vector.replicate 3 0
  deriving DecidableEq

structure RedirectTuple where
  srcIp : Vector Byte 16
  dstIp : Vector Byte 16
  srcPort : BitVec 16
  dstPort : BitVec 16
  l4proto : Byte
  deriving DecidableEq

def RedirectTuple.fromTuples (tuples : TuplesKey) : RedirectTuple :=
  ⟨tuples.srcIp, tuples.dstIp, tuples.srcPort, tuples.dstPort, tuples.l4proto⟩

structure RoutingResult where
  mark : BitVec 32 := 0
  must : Byte := 0
  mac : Vector Byte 6 := Vector.replicate 6 0
  outbound : Byte := 0
  pname : Vector Byte 16 := Vector.replicate 16 0
  pid : BitVec 32 := 0
  dscp : Byte := 0
  decisionToken : BitVec 32 := 0

structure RoutingHandoffEntry where
  lastSeenNs : BitVec 64 := 0
  result : RoutingResult := {}
  routingGeneration : BitVec 64 := 0
  traceId : BitVec 32 := 0
  incarnation : BitVec 64 := 0

structure RedirectEntry where
  lastSeenNs : BitVec 64 := 0
  dmac : Vector Byte 6 := Vector.replicate 6 0
  smac : Vector Byte 6 := Vector.replicate 6 0
  fromWan : Byte := 0
  outbound : Byte := 0
  ifindex : BitVec 32 := 0
  decisionToken : BitVec 32 := 0
  incarnation : BitVec 64 := 0

inductive Slot where
  | handoff (key : TuplesKey)
  | redirect (key : RedirectTuple)
  | conn (key : TuplesKey)
  deriving DecidableEq

inductive Entry where
  | handoff (key : TuplesKey) (entry : RoutingHandoffEntry)
  | redirect (key : RedirectTuple) (entry : RedirectEntry)
  | conn (key : TuplesKey) (state : ConnState)

namespace Entry

def slot : Entry → Slot
  | .handoff key _ => .handoff key
  | .redirect key _ => .redirect key
  | .conn key _ => .conn key

def incarnation : Entry → BitVec 64
  | .handoff _ entry => entry.incarnation
  | .redirect _ entry => entry.incarnation
  | .conn _ state => state.incarnation

def token : Entry → BitVec 32
  | .handoff _ entry => entry.result.decisionToken
  | .redirect _ entry => entry.decisionToken
  | .conn _ state => state.decisionToken

end Entry

def TuplesKey.slots (key : TuplesKey) : List Slot := [.handoff key, .redirect (RedirectTuple.fromTuples key), .conn key]

inductive BackendError where
  | syscall
  | ownershipUnresolved
  | batchExceedsCapacity
  | noncanonicalTuple
  | ownerExhausted
  | fenceChangedBeforeMutation (owner : BitVec 64)
  | fenceDisappearedOrChanged (owner : BitVec 64)
  | fenceDisappearedDuringRelease (owner : BitVec 64)
  | additional (previous error : BackendError)
  | inputOutputMismatch
  | invalidTcpOwner
  | invalidUdpOwner
  | invalidExpiryIncarnation
  | connHasNoLifetime
  | commitHasNoLifetime
  | reservedMark (mark : BitVec 32)
  | activationInBatch
  | noncanonicalCommit
  | visitor
  | childProofPending
  | adoptionWithoutConn
  | adoptionUnproven
  | adoptionWithoutHandoff
  | adoptionWithoutRedirect
  | adoptionSuperseded
  | invalidLifetime
  deriving DecidableEq

/-- How a system call on a map ends: `gone` is a removal that finds its entry removed by someone else. -/
inductive Answer where
  | done
  | failed
  | gone
  deriving DecidableEq

inductive Removal where
  | deleted (entry : Entry)
  | vanished (entry : Entry)

structure RetireCounts where
  conn : ℕ := 0
  redirect : ℕ := 0
  handoff : ℕ := 0

namespace RetireCounts

def since (now before : RetireCounts) : RetireCounts :=
  ⟨now.conn - before.conn, now.redirect - before.redirect, now.handoff - before.handoff⟩

def count (counts : RetireCounts) (removed : ℕ) : Slot → RetireCounts
  | .handoff _ => { counts with handoff := counts.handoff + removed }
  | .redirect _ => { counts with redirect := counts.redirect + removed }
  | .conn _ => { counts with conn := counts.conn + removed }

end RetireCounts

inductive RetireOutcome where
  | notRun
  | connRetired
  | done (result : UdpDecisionCommitResult)

structure Maps where
  conn : TuplesKey → Option ConnState := fun _ => none
  handoff : TuplesKey → Option RoutingHandoffEntry := fun _ => none
  redirect : RedirectTuple → Option RedirectEntry := fun _ => none

structure UdpDecisionCommit where
  key : TuplesKey
  token : BitVec 32
  transition : UdpDecisionTransition

structure CommitReport where
  commit : UdpDecisionCommit
  captured : Option (BitVec 64)
  result : UdpDecisionCommitResult
  before : Maps
  after : Maps

/-- The maps of the flows as the backend works on them, with the outcomes and the running total of a batch,
the answers of the kernel still to come, and what was removed and reported, newest first. -/
structure Flows extends Maps where
  counts : RetireCounts := {}
  outcomes : List RetireOutcome := []
  answers : List Answer := []
  removals : List Removal := []
  reports : List CommitReport := []

namespace Flows

section

variable (flows : Flows)

def get : Slot → Option Entry
  | .handoff key => (flows.handoff key).map (.handoff key)
  | .redirect key => (flows.redirect key).map (.redirect key)
  | .conn key => (flows.conn key).map (.conn key)

def erase : Slot → Flows
  | .handoff key => { flows with handoff := update flows.handoff key none }
  | .redirect key => { flows with redirect := update flows.redirect key none }
  | .conn key => { flows with conn := update flows.conn key none }

def put : Entry → Flows
  | .handoff key entry => { flows with handoff := update flows.handoff key (some entry) }
  | .redirect key entry => { flows with redirect := update flows.redirect key (some entry) }
  | .conn key state => { flows with conn := update flows.conn key (some state) }

def answer : Answer := flows.answers.headD .done

def answered : Flows := { flows with answers := flows.answers.tail }

def logged (log : List Removal) : Flows := { flows with removals := log ++ flows.removals }

def counted (removed : ℕ) (slot : Slot) : Flows := { flows with counts := flows.counts.count removed slot }

end

variable (flows : Flows) {slot : Slot}

@[simp] theorem get_answered : flows.answered.get slot = flows.get slot := by
  cases slot <;> rfl

@[simp] theorem get_logged : (flows.logged log).get slot = flows.get slot := by
  cases slot <;> rfl

@[simp] theorem get_counted (removed : ℕ) (counted slot : Slot) : (flows.counted removed counted).get slot = flows.get slot := by
  cases slot <;> rfl

theorem get_erase : (flows.erase erased).get slot = if slot = erased then none else flows.get slot := by
  cases erased with
  | handoff key =>
    cases slot with
    | handoff other => by_cases h : other = key <;> simp [get, erase, h]
    | redirect other => rfl
    | conn other => rfl
  | redirect key =>
    cases slot with
    | redirect other => by_cases h : other = key <;> simp [get, erase, h]
    | handoff other => rfl
    | conn other => rfl
  | conn key =>
    cases slot with
    | conn other => by_cases h : other = key <;> simp [get, erase, h]
    | handoff other => rfl
    | redirect other => rfl

theorem slot_of_get {flows : Flows} {slot : Slot} {entry : Entry} (h : flows.get slot = some entry) : entry.slot = slot := by
  cases slot <;> (obtain ⟨value, -, rfl⟩ := Option.map_eq_some_iff.mp h; rfl)

end Flows

abbrev FlowProgram := Program Flows BackendError

def flowLookup {V : Type} (read : Flows → Option V) : FlowProgram (Option V) := .ofExec fun flows =>
  (if flows.answer = .failed then .error .syscall else .ok (read flows), flows.answered)

def hashRemovePresent (slot : Slot) : FlowProgram Bool := .ofExec fun flows =>
  let present := (flows.get slot).toList
  match flows.answer with
  | .failed => (.error .syscall, flows.answered)
  | .gone => (.ok false, (flows.answered.erase slot).logged (present.map .vanished))
  | .done => (.ok (flows.get slot).isSome, (flows.answered.erase slot).logged (present.map .deleted))

def flowInsert (entry : Entry) : FlowProgram Unit := .ofExec fun flows =>
  if flows.answer = .failed then (.error .syscall, flows.answered) else (.ok (), flows.answered.put entry)

def lookupConn (key : TuplesKey) : FlowProgram (Option ConnState) := flowLookup fun flows => flows.conn key

def lookupHandoff (key : TuplesKey) : FlowProgram (Option RoutingHandoffEntry) := flowLookup fun flows => flows.handoff key

def lookupRedirect (key : RedirectTuple) : FlowProgram (Option RedirectEntry) := flowLookup fun flows => flows.redirect key

end Honk.Conntrack
