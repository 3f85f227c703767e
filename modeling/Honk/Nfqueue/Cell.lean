import Honk.Conntrack.State
import Honk.Routing.Compile

namespace Honk.Nfqueue

open Honk.Lib Honk.Routing Honk.Conntrack

structure SocketAddr where
  ip : IpAddr
  port : BitVec 16
  deriving DecidableEq

structure FlowKey where
  client : SocketAddr
  destination : SocketAddr
  deriving DecidableEq

structure UdpFlowOwner where
  token : BitVec 32
  incarnation : Option (BitVec 64)
  deriving DecidableEq

structure PendingUdpIdentity where
  key : FlowKey
  owner : UdpFlowOwner
  endpointGeneration : ℕ
  deriving DecidableEq

def terminalGrace : ℕ := 500
def hardHoldTimeout : ℕ := 3000
def maxHeldVerdictsPerFlow : ℕ := 64
def maxScheduledCleanups : ℕ := 4096

structure HeldVerdict where
  guard : ℕ
  receivedAt : ℕ

inductive Verdict where
  | accept (mark : BitVec 32)
  | drop
  deriving DecidableEq

inductive CellState where
  | pending (startedAt : ℕ) (armed cancelling : Bool) (verdicts : List HeldVerdict)
  | activeDirect (expiresAt : ℕ) (finalMark : BitVec 32)
  | proxy (expiresAt : ℕ)
  | block (expiresAt : ℕ)
  | dead (expiresAt : ℕ)

namespace CellState

def terminalExpiry : CellState → Option ℕ
  | .pending .. => none
  | .activeDirect expiresAt _ | .proxy expiresAt | .block expiresAt | .dead expiresAt => some expiresAt

def verdicts : CellState → List HeldVerdict
  | .pending _ _ _ verdicts => verdicts
  | _ => []

def isArmed : CellState → Bool
  | .pending _ armed _ _ => armed
  | _ => false

end CellState

structure FlowCell where
  identity : PendingUdpIdentity
  state : CellState

def FlowCell.token (cell : FlowCell) : BitVec 32 := cell.identity.owner.token

def terminalCellIsStale (cell : FlowCell) (decisionToken : BitVec 32) (now : ℕ) : Bool :=
  cell.state.terminalExpiry.any fun expiry => decide (expiry ≤ now) || cell.token != decisionToken

inductive CleanupRequest where
  | flow (identity : PendingUdpIdentity)
  | token (key : FlowKey) (decisionToken : BitVec 32)
  deriving DecidableEq

inductive RetainedState where
  | pending
  | activeDirect (finalMark : BitVec 32)
  | proxy
  | block
  | directArmed
  | reject

def retainedState (state : ConnState) : RetainedState :=
  if state.state = UdpDecisionState.pending.code then .pending
  else if state.state = UdpDecisionState.directArmed.code then .directArmed
  else if state.state = UdpDecisionState.proxy.code then .proxy
  else if state.state = UdpDecisionState.block.code then .block
  else if state.state = UdpDecisionState.none.code then
    let raw := state.routingMeta
    let directRuleMark := (raw >>> 8).setWidth 32
    if raw.setWidth 8 = outboundDirect ∧ raw &&& (routingMetaFlagPublished ||| routingMetaFlagOffload) =
          routingMetaFlagPublished ||| routingMetaFlagOffload ∧
        skbMarkHasReservedBits directRuleMark = false then
      .activeDirect (directRuleMark ||| classifiedMark)
    else .reject
  else .reject

inductive UdpDecisionTransition where
  | armDirect (mark : BitVec 32)
  | activateDirect (mark : BitVec 32)
  | activateProxy (outbound : Byte) (mark : BitVec 32)
  | block

inductive UdpDecisionCommitResult where
  | applied
  | missing
  | superseded
  | tokenMismatch
  | stateMismatch
  deriving DecidableEq

inductive EndpointReservation where
  | initializing (generation : ℕ)
  | enqueued
  | identityMismatch
  | capacityRejected
  | queueFull
  | queueClosed

def overdue (now startedAt : ℕ) : Bool := decide (hardHoldTimeout ≤ now - startedAt)

inductive Completion where
  | notRun
  | expired
  | refused
  | armed
  | terminal (verdicts : List HeldVerdict)

def applyPendingCommit (now deadline : ℕ) (transition : UdpDecisionTransition)
    (result : Option UdpDecisionCommitResult) (state : CellState) : CellState × Completion :=
  if deadline ≤ now then (state, .expired)
  else match state with
    | .pending startedAt armed cancelling verdicts =>
      if armed then (state, .refused)
      else if cancelling then (state, .refused)
      else match result with
        | none => (state, .notRun)
        | some .applied =>
          match transition with
          | .armDirect _ => (.pending startedAt true cancelling verdicts, .armed)
          | .activateProxy _ _ => (.proxy (now + terminalGrace), .terminal verdicts)
          | .block => (.block (now + terminalGrace), .terminal verdicts)
          -- an activation is never queued as a commit
          | .activateDirect _ => (state, .notRun)
        | some _ => (state, .refused)
    | _ => (state, .refused)

inductive Ingested where
  | queued
  | decided (sends : List (HeldVerdict × Verdict)) (cleanup : Bool)

def dropAll (verdicts : List HeldVerdict) : List (HeldVerdict × Verdict) := verdicts.map fun held => (held, .drop)

/-- The locked part of `ingest_existing`, for a packet with the cell's token. -/
def ingestExisting (now : ℕ) (slowPermit : Bool) (reservation : EndpointReservation) (held : HeldVerdict)
    (state : CellState) : CellState × Ingested :=
  match state with
  | .pending startedAt armed cancelling verdicts =>
    if maxHeldVerdictsPerFlow ≤ verdicts.length then (state, .decided [(held, .drop)] false)
    else if armed then (.pending startedAt armed cancelling (verdicts ++ [held]), .queued)
    else if cancelling then (state, .decided [(held, .drop)] false)
    else if overdue now startedAt then
      (.pending startedAt armed true [], .decided (dropAll (verdicts ++ [held])) true)
    else if !slowPermit then (state, .decided [(held, .drop)] false)
    else match reservation with
      | .enqueued => (.pending startedAt armed cancelling (verdicts ++ [held]), .queued)
      | .identityMismatch => (.pending startedAt armed true verdicts, .decided [(held, .drop)] true)
      | _ => (state, .decided [(held, .drop)] false)
  | .activeDirect _ finalMark => (state, .decided [(held, .accept finalMark)] false)
  | .proxy _ | .block _ | .dead _ => (state, .decided [(held, .drop)] false)

end Honk.Nfqueue
