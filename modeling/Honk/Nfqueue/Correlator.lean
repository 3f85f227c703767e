import Honk.Lib.Interleaving
import Honk.Nfqueue.Cell

namespace Honk.Nfqueue

open Honk.Lib Honk.Routing Honk.Conntrack

structure QueuedPacket where
  tuple : FlowKey
  mark : BitVec 32
  receivedAt : ℕ

inductive Phase where
  | proxy
  | block
  | dead
  deriving DecidableEq

/-- What can be observed of a run: packets and their verdicts, where a packet was handled, what the
backend reported, and the states cells entered. -/
inductive Event where
  | arrived (guard : ℕ) (token : Option (BitVec 32))
  | queued (cell guard : ℕ)
  | handled (cell guard : ℕ)
  | armed (cell : ℕ) (token : BitVec 32)
  | inspected (cell : ℕ) (token : BitVec 32)
  | taken (cell : ℕ) (guards : List ℕ)
  | activated (cell : ℕ) (mark : BitVec 32)
  | settled (cell : ℕ) (phase : Phase)
  | verdict (guard : ℕ) (verdict : Verdict)
  deriving DecidableEq

structure Correlator where
  cells : ℕ → Option FlowCell := fun _ => none
  nextCell : ℕ := 0
  map : FlowKey → Option ℕ := fun _ => none
  cleanups : List CleanupRequest := []
  arrivals : ℕ := 0
  log : List Event := []

inductive IngestStage where
  | lookup
  | backend
  | entry
  | existing (cell : ℕ)
  | rejecting
  | marking (cell : ℕ)

inductive WorkStage where
  | commit (transition : UdpDecisionTransition)
  | request (transition : UdpDecisionTransition) (deadline : ℕ)
  | expireCommit
  | expireUnarmed
  | failArmed
  | waitArmed
  | cancelCheck (wait : Bool)
  | cancelBackend (wait : Bool)
  | cancelRecheck (wait : Bool)
  | cancelCommit
  | removeExpired (key : FlowKey) (now : ℕ)
  | removeNow (key : FlowKey)

inductive FinishStage where
  | applied
  | check
  | take
  | accepting (batch : List HeldVerdict)
  | deadline
  | activate

/-- Where one task stands between two locked sections. `sends` are verdicts it owes outside any lock. -/
inductive Task where
  | idle
  | ingest (packet : QueuedPacket) (token : BitVec 32) (held : HeldVerdict) (stage : IngestStage)
  | sends (batch : List (HeldVerdict × Verdict))
  | work (cell : ℕ) (stage : WorkStage)
  | rematch (identity : PendingUdpIdentity)
  | finish (cell : ℕ) (mark : BitVec 32) (stage : FinishStage)

inductive Operation where
  | receive (packet : QueuedPacket)
  | reject (packet : QueuedPacket)
  | receiveDns (packet : QueuedPacket)
  | commit (identity lease : PendingUdpIdentity) (transition : UdpDecisionTransition)
  | cancel (identity : PendingUdpIdentity) (wait : Bool)
  | drain (request : CleanupRequest)
  | forget (request : CleanupRequest)
  | sweep (key : FlowKey)
  | clear (key : FlowKey)

/-- What a section is told from outside. `ready` stands for whatever it waits for: the admission
gate, an uncontended map entry, a lock before its deadline, a batch or a verdict that went through. -/
structure Answer where
  operation : Option Operation := none
  now : ℕ := 0
  ready : Bool := true
  slowPermit : Bool := true
  flowSlot : Bool := true
  /-- The inspected entry; the outer `none` is a failed lookup. -/
  conn : Option (Option ConnState) := some none
  ownerKnown : Bool := true
  reservation : EndpointReservation := .enqueued
  enqueued : Option ℕ := none
  result : Option UdpDecisionCommitResult := none

inductive Input where
  | go (answer : Answer)
  | abandon

namespace Correlator

variable (s : Correlator)

def matchingCell (identity : PendingUdpIdentity) : Option ℕ :=
  (s.map identity.key).bind fun c => (s.cells c).bind fun cell => if cell.identity = identity then some c else none

def scheduleCleanup (request : CleanupRequest) : Correlator :=
  if request ∈ s.cleanups ∨ maxScheduledCleanups ≤ s.cleanups.length then s
  else { s with cleanups := request :: s.cleanups }

def put (c : ℕ) (cell : FlowCell) (state : CellState) (events : List Event) : Correlator :=
  { s with cells := Function.update s.cells c (some { cell with state }), log := events ++ s.log }

def insert (key : FlowKey) (cell : FlowCell) (events : List Event) : Correlator :=
  { s with
    cells := Function.update s.cells s.nextCell (some cell)
    nextCell := s.nextCell + 1
    map := Function.update s.map key (some s.nextCell)
    log := events ++ s.log }

def remove (key : FlowKey) : Correlator := { s with map := Function.update s.map key none }

def arrive (token : Option (BitVec 32)) : Correlator :=
  { s with arrivals := s.arrivals + 1, log := .arrived s.arrivals token :: s.log }

def send (held : HeldVerdict) (verdict : Verdict) : Correlator := { s with log := .verdict held.guard verdict :: s.log }

end Correlator

open Correlator

variable (s : Correlator)

section

variable (key : FlowKey)

def rejectToken (token : BitVec 32) (held : HeldVerdict) : Correlator × Task :=
  (s.scheduleCleanup (.token key token), .sends [(held, .drop)])

def insertDeadVacant (owner : UdpFlowOwner) (now : ℕ) (held : HeldVerdict) : Correlator :=
  s.insert key ⟨⟨key, owner, 0⟩, .dead (now + terminalGrace)⟩
    [.handled s.nextCell held.guard, .settled s.nextCell .dead]

/-- `ingest_vacant` for an entry that was inspected with success. -/
def ingestRetained (owner : UdpFlowOwner) (held : HeldVerdict) (answer : Answer) (retained : RetainedState) : Correlator × Task :=
  match retained with
  | .pending =>
    match (if answer.slowPermit then answer.reservation else .capacityRejected) with
    | .initializing generation =>
      (s.insert key ⟨⟨key, owner, generation⟩, .pending held.receivedAt false false [held]⟩
        [.queued s.nextCell held.guard], .idle)
    | _ => rejectToken (insertDeadVacant s key owner answer.now held) key owner.token held
  | .activeDirect finalMark =>
    (s.insert key ⟨⟨key, owner, 0⟩, .activeDirect (answer.now + terminalGrace) finalMark⟩
      [.handled s.nextCell held.guard, .inspected s.nextCell owner.token], .sends [(held, .accept finalMark)])
  | .proxy =>
    match answer.enqueued with
    | some generation =>
      (s.insert key ⟨⟨key, owner, generation⟩, .proxy (answer.now + terminalGrace)⟩
        [.handled s.nextCell held.guard, .settled s.nextCell .proxy], .sends [(held, .drop)])
    | none => (s, .sends [(held, .drop)])
  | .block =>
    (s.insert key ⟨⟨key, owner, 0⟩, .block (answer.now + terminalGrace)⟩
      [.handled s.nextCell held.guard, .settled s.nextCell .block], .sends [(held, .drop)])
  | .directArmed | .reject => (s, .sends [(held, .drop)])

def ingestVacant (token : BitVec 32) (held : HeldVerdict) (answer : Answer) : Correlator × Task :=
  if !answer.flowSlot then rejectToken s key token held
  else match answer.conn with
    | none => rejectToken s key token held
    | some none => (s, .sends [(held, .drop)])
    | some (some state) =>
      if state.decisionToken ≠ token then (s, .sends [(held, .drop)])
      else if !answer.ownerKnown then rejectToken s key token held
      else ingestRetained s key ⟨token, some state.incarnation⟩ held answer (retainedState state)

end

section

variable (packet : QueuedPacket)

section

variable (token : BitVec 32) (held : HeldVerdict)

def rejectKey (answer : Answer) : Correlator × Task :=
  match (if answer.ready then s.map packet.tuple else none) with
  | some c =>
    match s.cells c with
    | some cell => if cell.token = token then (s, .ingest packet token held (.marking c)) else rejectToken s packet.tuple token held
    | none => rejectToken s packet.tuple token held
  | none => rejectToken s packet.tuple token held

def markCancelling (c : ℕ) (cell : FlowCell) (answer : Answer) : Correlator × Task :=
  if !answer.ready then rejectToken s packet.tuple token held
  else match cell.state with
    | .pending startedAt armed _ verdicts =>
      if armed then (s, .sends [(held, .drop)])
      else ((s.put c cell (.pending startedAt armed true verdicts) []).scheduleCleanup (.flow cell.identity),
        .sends [(held, .drop)])
    | _ => (s.scheduleCleanup (.flow cell.identity), .sends [(held, .drop)])

def ingestCell (c : ℕ) (cell : FlowCell) (answer : Answer) : Correlator × Task :=
  if cell.token ≠ token then rejectToken s packet.tuple token held
  else match ingestExisting answer.now answer.slowPermit answer.reservation held cell.state with
    | (state, .queued) => (s.put c cell state [.queued c held.guard], .idle)
    | (state, .decided sends cleanup) =>
      let s' := s.put c cell state [.handled c held.guard]
      (if cleanup then s'.scheduleCleanup (.flow cell.identity) else s', .sends sends)

def stepIngest (answer : Answer) : IngestStage → Option (Correlator × Task)
  | .lookup =>
    match (if answer.ready then s.map packet.tuple else none) with
    | some c =>
      (s.cells c).map fun cell =>
        if terminalCellIsStale cell token answer.now then (s, .ingest packet token held .backend)
        else (s, .ingest packet token held (.existing c))
    | none => some (s, .ingest packet token held .backend)
  | .backend => some (s, .ingest packet token held (if answer.ready then .entry else .rejecting))
  | .entry =>
    if !answer.ready then some (rejectToken s packet.tuple token held)
    else match s.map packet.tuple with
      | some c =>
        (s.cells c).map fun cell =>
          if terminalCellIsStale cell token answer.now then (s.remove packet.tuple, .ingest packet token held .entry)
          else (s, .ingest packet token held (.existing c))
      | none => some (ingestVacant s packet.tuple token held answer)
  | .existing c => (s.cells c).map fun cell => ingestCell s packet token held c cell answer
  | .rejecting => some (rejectKey s packet token held answer)
  | .marking c => (s.cells c).map fun cell => markCancelling s packet token held c cell answer

end

def receive (stage : Option IngestStage) : Correlator × Task :=
  let token := extractNfqueueToken packet.mark
  let held : HeldVerdict := ⟨s.arrivals, packet.receivedAt⟩
  match stage, token, decide (packet.tuple.destination.port = 53) with
  | some stage, some token, false => (s.arrive (some token), .ingest packet token held stage)
  | _, _, _ => (s.arrive token, .sends [(held, .drop)])

end

def killCell (c : ℕ) (cell : FlowCell) (now : ℕ) : Correlator × Task :=
  (s.put c cell (.dead (now + terminalGrace)) [.settled c .dead], .sends (dropAll cell.state.verdicts))

def commitCell (c : ℕ) (cell : FlowCell) (transition : UdpDecisionTransition) (deadline : ℕ)
    (answer : Answer) : Correlator × Task :=
  match applyPendingCommit answer.now deadline transition answer.result cell.state, transition with
  | (_, .expired), _ => (s, .work c .expireCommit)
  | (state, .armed), .armDirect mark => (s.put c cell state [.armed c cell.token], .finish c mark .applied)
  | (state, .terminal verdicts), .activateProxy _ _ => (s.put c cell state [.settled c .proxy], .sends (dropAll verdicts))
  | (state, .terminal verdicts), .block => (s.put c cell state [.settled c .block], .sends (dropAll verdicts))
  | _, _ => (s, .idle)

def stepWork (c : ℕ) (cell : FlowCell) (answer : Answer) : WorkStage → Correlator × Task
  | .commit transition =>
    match cell.state with
    | .pending startedAt _ _ _ => (s, .work c (.request transition (startedAt + hardHoldTimeout)))
    | _ => (s, .idle)
  | .request transition deadline =>
    if answer.ready then commitCell s c cell transition deadline answer else (s, .work c .expireCommit)
  | .expireCommit => (s, .work c (if cell.state.isArmed then .failArmed else .expireUnarmed))
  | .expireUnarmed =>
    match cell.state with
    | .pending _ false _ _ =>
      let (s', task) := killCell s c cell answer.now
      (s'.scheduleCleanup (.token cell.identity.key cell.token), task)
    | _ => (s, .idle)
  | .failArmed =>
    match cell.state with
    | .pending _ true _ _ => killCell s c cell answer.now
    | _ => (s, .idle)
  | .waitArmed => (s, if cell.state.isArmed then .work c (if answer.ready then .waitArmed else .failArmed) else .idle)
  | .cancelCheck wait =>
    match cell.state with
    | .pending _ true _ _ => (s, if wait then .rematch cell.identity else .idle)
    | .pending _ false _ _ => (s, .work c (.cancelBackend wait))
    | _ => (s, .idle)
  | .cancelBackend wait =>
    match cell.state with
    | .pending _ _ _ _ => (s, .work c (if answer.ready then .cancelRecheck wait else .expireCommit))
    | _ => (s, .idle)
  | .cancelRecheck wait =>
    (s, if cell.state.isArmed then (if wait then .rematch cell.identity else .idle) else .work c .cancelCommit)
  | .cancelCommit =>
    match cell.state with
    | .pending startedAt false _ _ =>
      if overdue answer.now startedAt then (s, .work c .expireUnarmed)
      else if answer.ready then killCell s c cell answer.now
      else (s, .idle)
    | _ => (s, .idle)
  | .removeExpired key now =>
    if s.map key = some c ∧ (cell.state.terminalExpiry.any fun expiry => decide (expiry ≤ now)) = true then
      (s.remove key, .idle)
    else (s, .idle)
  | .removeNow key => (if s.map key = some c then s.remove key else s, .idle)

/-- `finish_armed_direct`: accept what the armed cell holds, in order, and activate once it holds nothing. -/
def stepFinish (c : ℕ) (cell : FlowCell) (mark : BitVec 32) (answer : Answer) : FinishStage → Correlator × Task
  | .applied => (s, if answer.ready then .finish c mark .check else .work c .failArmed)
  | .check =>
    match cell.state with
    | .pending startedAt _ _ _ => (s, if overdue answer.now startedAt then .work c .failArmed else .finish c mark .take)
    | _ => (s, .finish c mark .take)
  | .take =>
    match cell.state with
    | .pending startedAt true cancelling verdicts =>
      (s.put c cell (.pending startedAt true cancelling []) [.taken c (verdicts.map HeldVerdict.guard)],
        .finish c mark (.accepting verdicts))
    | _ => (s, .idle)
  | .accepting [] => (s, .finish c mark .deadline)
  | .accepting (held :: rest) =>
    (s.send held (.accept (mark ||| classifiedMark)),
      if answer.ready then .finish c mark (.accepting rest) else .sends (dropAll rest))
  | .deadline => (s, if cell.state.isArmed then (if answer.ready then .finish c mark .activate else .work c .failArmed) else .idle)
  | .activate =>
    match cell.state with
    | .pending startedAt true _ verdicts =>
      if overdue answer.now startedAt then (s, .work c .failArmed)
      else if verdicts ≠ [] then (s, .finish c mark .check)
      else if answer.result = some .applied then
        (s.put c cell (.activeDirect (answer.now + terminalGrace) (mark ||| classifiedMark))
          [.activated c (mark ||| classifiedMark)], .idle)
      else (s, .idle)
    | _ => (s, .idle)

def startWork (identity : PendingUdpIdentity) (stage : WorkStage) : Correlator × Task :=
  match s.matchingCell identity with
  | some c => (s, .work c stage)
  | none => (s, .idle)

def hasReservedMark : UdpDecisionTransition → Bool
  | .armDirect mark => skbMarkHasReservedBits mark
  | _ => false

def start (answer : Answer) : Operation → Correlator × Task
  | .receive packet => receive s packet (some (if answer.ready then .lookup else .rejecting))
  | .reject packet => receive s packet (some .rejecting)
  | .receiveDns packet => receive s packet none
  | .commit identity lease transition =>
    if hasReservedMark transition || lease != identity then (s, .idle) else startWork s identity (.commit transition)
  | .cancel identity wait => startWork s identity (.cancelCheck wait)
  | .drain request =>
    match request with
    | .flow identity => if request ∈ s.cleanups then startWork s identity (.cancelCheck false) else (s, .idle)
    | .token _ _ => (s, .idle)
  | .forget request => ({ s with cleanups := s.cleanups.erase request }, .idle)
  | .sweep key =>
    match s.map key with
    | some c => (s, .work c (.removeExpired key answer.now))
    | none => (s, .idle)
  | .clear key =>
    match s.map key with
    | some c => (s, .work c (.removeNow key))
    | none => (s, .idle)

def Task.held : Task → List HeldVerdict
  | .ingest _ _ held _ => [held]
  | .sends batch => batch.map Prod.fst
  | .finish _ _ (.accepting batch) => batch
  | _ => []

def Task.cell : Task → Option ℕ
  | .ingest _ _ _ (.existing c) | .ingest _ _ _ (.marking c) | .work c _ | .finish c _ _ => some c
  | _ => none

/-- One section of one task. A task that is given up, or unwinds, drops the guards it holds. -/
def step (task : Task) : Input → Option (Correlator × Task)
  | .abandon => some (s, .sends (dropAll task.held))
  | .go answer =>
    match task with
    | .idle => answer.operation.map (start s answer)
    | .ingest packet token held stage => stepIngest s packet token held answer stage
    | .sends [] => some (s, .idle)
    | .sends ((held, verdict) :: rest) =>
      some (s.send held verdict, .sends (if answer.ready then rest else dropAll (rest.map Prod.fst)))
    | .work c stage => (s.cells c).map fun cell => stepWork s c cell answer stage
    | .rematch identity => some (startWork s identity .waitArmed)
    | .finish c mark stage => (s.cells c).map fun cell => stepFinish s c cell mark answer stage

def reclaim (tasks : ℕ → Task) (s' : Correlator) : Prop :=
  ∃ c cell, s.cells c = some cell ∧ (∀ key, s.map key ≠ some c) ∧ (∀ i, (tasks i).cell ≠ some c) ∧ s' = { s with
      cells := Function.update s.cells c none
      log := (cell.state.verdicts.map fun held => Event.verdict held.guard .drop).reverse ++ s.log }

def pendingUdpVerdicts : System Correlator Task Input where
  init := {}
  idle := .idle
  step := step
  reclaim := reclaim

end Honk.Nfqueue
