import Honk.Conntrack.Udp

namespace Honk.Conntrack.Tcp

open Honk.Lib Honk.Nfqueue

def updateIntervalNs : ℕ := 1000000000

def tcpSynOriginalIntercept : BitVec 16 := 1

inductive TcpSyn where
  | nonSyn
  | fresh
  | cached
  deriving DecidableEq

structure TcpPublisher where
  incarnation : BitVec 64 := 0
  expectedIncarnation : BitVec 64 := 0
  syn : TcpSyn := .nonSyn
  claimed : Bool := false

structure TcpSynState where
  incarnation : BitVec 64
  tcpSynIsn : BitVec 32
  tcpSynFlags : BitVec 16
  state : Byte
  published : Bool

structure AuxiliaryIdentity where
  incarnation : BitVec 64
  lastSeenNs : BitVec 64
  decisionToken : BitVec 32

inductive Publication where
  | valid
  | stale
  | missing

def auxiliaryExpired (elapsedNs : ℕ) (handoff pinned : Bool) : Bool :=
  if handoff then decide (routingHandoffTimeoutNs < elapsedNs)
  else decide (redirectTrackTimeoutNs < elapsedNs) && !pinned

def pendingSynPublication (retiring : Bool) (handoff redirect : Option AuxiliaryIdentity) (incarnation now : BitVec 64)
    (pinned : Bool) : Publication :=
  match handoff, redirect with
  | some handoff, some redirect =>
    if retiring ∨ incarnation = 0 ∨ handoff.incarnation ≠ incarnation ∨ redirect.incarnation ≠ incarnation ∨
        handoff.decisionToken ≠ 0 ∨ redirect.decisionToken ≠ 0 ∨ now < handoff.lastSeenNs ∨ now < redirect.lastSeenNs then
      .missing
    else if auxiliaryExpired (now.toNat - handoff.lastSeenNs.toNat) true pinned ||
        auxiliaryExpired (now.toNat - redirect.lastSeenNs.toNat) false pinned then
      .stale
    else .valid
  | _, _ => .missing

inductive SynOwner where
  | absent
  | fresh
  | refuse
  | child (incarnation : BitVec 64)

structure Reads where
  expected : BitVec 64
  state : Option TcpSynState
  owner : SynOwner
  pinned : Bool
  retiring : Bool
  handoff : Option AuxiliaryIdentity
  redirect : Option AuxiliaryIdentity
  now : BitVec 64

inductive Decision where
  | refuse
  | fresh
  | cached (incarnation : BitVec 64)

def acquire (reads : Reads) (isn : BitVec 32) : Decision :=
  match reads.state with
  | none => .fresh
  | some state =>
    if state.incarnation ≠ reads.expected then .refuse
    else if state.published = false ∨ state.tcpSynFlags &&& tcpSynOriginalIntercept = 0 then .fresh
    else match reads.owner with
      | .refuse => .refuse
      | .fresh => .fresh
      | .absent =>
        if state.tcpSynIsn ≠ isn ∨ state.state ≠ tcpStateActive ∨ reads.pinned then .fresh
        else match pendingSynPublication reads.retiring reads.handoff reads.redirect state.incarnation reads.now reads.pinned with
          | .missing => .refuse
          | .stale => .fresh
          | .valid => .cached state.incarnation
      | .child owner => if state.incarnation ≠ owner ∨ state.tcpSynIsn ≠ isn then .refuse else .cached owner

structure ConntrackArgs where
  routing : Option (Byte × BitVec 32 × Byte) := none
  mac : Option (Vector Byte 6) := none
  pname : Option (Vector Byte 16) := none
  dscp : Byte := 0
  pid : BitVec 32 := 0
  traceId : BitVec 32 := 0
  incarnation : BitVec 64 := 0
  tcpSynIsn : BitVec 32 := 0

variable (state : ConnState)

def updateTcpLocked (args : ConntrackArgs) (now : BitVec 64) (finRst : Bool) : ConnState :=
  let seen := if updateIntervalNs < now.toNat - state.lastSeenNs.toNat then { state with lastSeenNs := now } else state
  let closing := if finRst then { seen with state := tcpStateClosing } else seen
  match args.routing with
  | none => closing
  | some (outbound, mark, must) => { closing with
      mac := args.mac.getD closing.mac
      pname := args.pname.getD closing.pname
      pid := args.pid
      traceId := args.traceId
      routingMeta := buildRoutingMeta outbound mark must args.dscp }

def synOwnerHolds (args : ConntrackArgs) (syn : TcpSyn) : Bool :=
  syn == .nonSyn || (state.incarnation == args.incarnation && state.tcpSynIsn == args.tcpSynIsn &&
    state.tcpSynFlags &&& tcpSynOriginalIntercept != 0)

def connStateExpired (now : BitVec 64) : Bool :=
  state.state == tcpStateClosing && decide (tcpConnStateClosingTimeoutNs < now.toNat - state.lastSeenNs.toNat)

variable (args : ConntrackArgs)

def freshState (now : BitVec 64) (replaces : Bool) : ConnState :=
  let state : ConnState :=
    { incarnation := args.incarnation, tcpSynIsn := args.tcpSynIsn, state := tcpStateActive, lastSeenNs := now,
      pid := args.pid,
      traceId := if args.routing.isSome then args.traceId else if replaces then BitVec.allOnes 32 else 0 }
  if args.routing.isSome then updateTcpLocked state args now false else state

def interceptOwned (current : ConnState) (isn : BitVec 32) (incarnation : BitVec 64) : Bool :=
  current.incarnation == incarnation && current.tcpSynIsn == isn && current.tcpSynFlags == 0 &&
    current.routingMeta &&& routingMetaFlagPublished != 0

inductive Aux where
  | handoff
  | redirect
  deriving DecidableEq

/-- The retirement of the tuple: its fence stands from `fenced` on, and the grace barrier waits for the
invocations that ran when it began. -/
inductive Retirement where
  | idle
  | fenced
  | waiting (readers : Finset ℕ)
  | operating

/-- The maps of one tuple. An element has an id of its own, which a pointer to it is; of an auxiliary entry the
identity is kept. -/
structure Kernel where
  publishing : Option (BitVec 64) := none
  conn : Option (ℕ × ConnState) := none
  aux : Aux → Option (ℕ × AuxiliaryIdentity) := fun _ => none
  elements : ℕ := 0
  sequence : BitVec 64 := 0
  retirement : Retirement := .idle
  running : Finset ℕ := ∅
  tickets : ℕ := 0
  allocated : List (BitVec 64 × ℕ) := []

inductive Write where
  | replace (entry : AuxiliaryIdentity)
  | touch (now : BitVec 64)

inductive Phase where
  | out
  | idle
  | leaving
  | claiming (isn : BitVec 32)
  | classifying (isn : BitVec 32)
  | marking (incarnation : BitVec 64)
  | seeing (args : ConntrackArgs) (now : BitVec 64) (finRst : Bool)
  | observing (args : ConntrackArgs) (now : BitVec 64) (finRst : Bool) (pointer : ℕ)
  | renewing (args : ConntrackArgs) (now : BitVec 64) (finRst : Bool) (pointer : ℕ) (incarnation : BitVec 64)
  | publishing (args : ConntrackArgs) (now : BitVec 64) (pointer : Option ℕ)
  | replacing (args : ConntrackArgs) (now : BitVec 64) (pointer : ℕ)
  | inserting (args : ConntrackArgs) (now : BitVec 64)
  | routing (snapshot : ConnState)
  | routed (snapshot : ConnState)
  | routingAt (snapshot : ConnState) (pointer : ℕ)
  | storing (aux : Aux) (entry : AuxiliaryIdentity)
  | proving (aux : Aux) (entry : AuxiliaryIdentity)
  | sampling (aux : Aux) (write : Write)
  | sampled (aux : Aux) (write : Write) (snapshot : AuxiliaryIdentity)
  | rewriting (aux : Aux) (write : Write) (snapshot : AuxiliaryIdentity) (pointer : ℕ)
  | adding (aux : Aux) (entry : AuxiliaryIdentity)
  | committing (isn : BitVec 32)
  | provingHandoff (isn : BitVec 32)
  | provingRedirect (isn : BitVec 32)
  | proven (isn : BitVec 32)
  | intercepting (isn : BitVec 32) (pointer : ℕ)
  | dropping
  | removing

/-- An invocation: its ticket, whether it has found the tuple without a fence, and its publisher. -/
structure Handler where
  phase : Phase := .out
  ticket : ℕ := 0
  passed : Bool := false
  publisher : TcpPublisher := {}

inductive Input where
  | enter
  | acquire (isn : BitVec 32)
  | mark (args : ConntrackArgs) (isn : BitVec 32) (newConnection : Bool) (now : BitVec 64) (finRst : Bool)
  | publishRouting (snapshot : ConnState)
  | publishAux (aux : Aux) (entry : AuxiliaryIdentity) (replace : Bool)
  | refreshAux (aux : Aux) (now : BitVec 64)
  | commitIntercept (isn : BitVec 32)
  | drop
  | exit
  | go (reads : Reads) (pinned admitted : Bool)
  | fence
  | barrier
  | grace
  | deleteConn
  | deleteAux (aux : Aux)
  | release

def Handler.goto (l : Handler) (phase : Phase) : Handler := { l with phase := phase }

def Handler.pass (l : Handler) (s : Kernel) (phase : Phase) : Handler :=
  match s.retirement with
  | .idle => { l with phase := phase, passed := true }
  | _ => l.goto .idle

def isFresh (publisher : TcpPublisher) : Bool := publisher.syn == .fresh

def claimValue (publisher : TcpPublisher) : BitVec 64 := if isFresh publisher then publisher.incarnation else 0

-- A wire SYN needs a publisher and other packets have none; a cached SYN never carries a route.
variable (s : Kernel) (l : Handler)

def markTcpSeen (args : ConntrackArgs) (isn : BitVec 32) (newConnection : Bool) (now : BitVec 64) (finRst : Bool) : Handler :=
  if newConnection = (l.publisher.syn == .nonSyn) then l
  else if l.publisher.syn = .nonSyn then l.pass s (.seeing { args with incarnation := 0, tcpSynIsn := 0 } now finRst)
  else if l.publisher.syn = .cached ∧ args.routing.isSome then l
  else l.pass s (.seeing { args with incarnation := l.publisher.incarnation, tcpSynIsn := isn } now finRst)

def start : Input → Option (Kernel × Handler)
  | .acquire isn => some (s, if l.publisher.claimed then l else l.pass s (.claiming isn))
  | .mark args isn newConnection now finRst => some (s, markTcpSeen s l args isn newConnection now finRst)
  | .publishRouting snapshot => some (s, l.pass s (.routing { snapshot with incarnation := l.publisher.incarnation }))
  -- A fresh publisher replaces what it finds with an entry of its own; others add where nothing is.
  | .publishAux aux entry replace =>
    some (s, if replace then l.pass s (.storing aux { entry with incarnation := l.publisher.incarnation, decisionToken := 0 })
      else l.pass s (.adding aux { entry with decisionToken := 0 }))
  | .refreshAux aux now => some (s, l.pass s (.sampling aux (.touch now)))
  | .commitIntercept isn => some (s, l.pass s (.committing isn))
  | .drop => some (s, if l.publisher.claimed then l.goto .dropping else l.goto .leaving)
  | _ => none

def claim (isn : BitVec 32) (admitted : Bool) : Kernel × Handler :=
  if s.publishing.isSome ∨ admitted = false then (s, l.goto .idle)
  else ({ s with publishing := some 0 }, { l with phase := .classifying isn, publisher := { l.publisher with claimed := true } })

def classify (isn : BitVec 32) (reads : Reads) : Kernel × Handler :=
  let publisher := { l.publisher with expectedIncarnation := reads.expected }
  match acquire reads isn with
  | .refuse => (s, { l with phase := .idle, publisher := publisher })
  | .cached incarnation =>
    (s, { l with phase := .idle, publisher := { publisher with incarnation := incarnation, syn := .cached } })
  | .fresh => match allocateFlowIncarnation s.sequence with
    | none => (s, { l with phase := .idle, publisher := publisher })
    | some incarnation =>
      ({ s with sequence := incarnation, allocated := (incarnation, l.ticket) :: s.allocated },
        { l with phase := .marking incarnation, publisher := publisher })

def selectFresh (incarnation : BitVec 64) : Kernel × Handler :=
  match s.publishing with
  | none => (s, l.goto .idle)
  | some _ => ({ s with publishing := some incarnation },
      { l with phase := .idle, publisher := { l.publisher with incarnation := incarnation, syn := .fresh } })

def point (args : ConntrackArgs) (now : BitVec 64) (finRst : Bool) : Handler :=
  if isFresh l.publisher then l.goto (.publishing args now (s.conn.map Prod.fst))
  else match s.conn with
    | some (pointer, _) => l.goto (.observing args now finRst pointer)
    | none => l.goto .idle

def locked (pointer : ℕ) (f : ConnState → Option ConnState) : Kernel :=
  match s.conn with
  | some (p, state) =>
    match f state with
    | some next => if p = pointer then { s with conn := some (p, next) } else s
    | none => s
  | none => s

def observeTcp (now : BitVec 64) (finRst : Bool) (syn : TcpSyn) (state : ConnState) : Option ConnState :=
  if synOwnerHolds state args syn && !connStateExpired state now then some (updateTcpLocked state args now finRst) else none

def observed (args : ConntrackArgs) (now : BitVec 64) (finRst : Bool) (pointer : ℕ) (pinned : Bool) : Handler :=
  match s.conn with
  | some (_, state) =>
    if synOwnerHolds state args l.publisher.syn && connStateExpired state now && pinned then
      l.goto (.renewing args now finRst pointer state.incarnation)
    else l.goto .idle
  | none => l.goto .idle

def renewTcp (now : BitVec 64) (finRst : Bool) (syn : TcpSyn) (incarnation : BitVec 64) (state : ConnState) : Option ConnState :=
  if state.incarnation == incarnation && synOwnerHolds state args syn then some (updateTcpLocked state args now finRst)
  else none

def publishFreshTcp (args : ConntrackArgs) (now : BitVec 64) (pointer : Option ℕ) : Handler :=
  if args.incarnation = 0 ∨ s.publishing ≠ some args.incarnation then l.goto .idle
  else match pointer with
    | some pointer => l.goto (.replacing args now pointer)
    | none => if l.publisher.expectedIncarnation ≠ 0 then l.goto .idle else l.goto (.inserting args now)

def replaceTcp (now expected : BitVec 64) (state : ConnState) : Option ConnState :=
  if state.incarnation = expected then some (freshState args now true) else none

def insertTcp (args : ConntrackArgs) (now : BitVec 64) (admitted : Bool) : Kernel :=
  if s.conn.isSome ∨ admitted = false then s
  else { s with conn := some (s.elements, freshState args now false), elements := s.elements + 1 }

def publishTcpRouting (snapshot state : ConnState) : Option ConnState :=
  if state.incarnation = snapshot.incarnation then
    some { state with routingMeta := snapshot.routingMeta, traceId := snapshot.traceId, mac := snapshot.mac }
  else none

def writeAux (write : Write) (snapshot current : AuxiliaryIdentity) : AuxiliaryIdentity :=
  if current.incarnation ≠ snapshot.incarnation ∨ current.decisionToken ≠ snapshot.decisionToken then current
  else match write with
    | .replace entry => entry
    | .touch now => if updateIntervalNs ≤ now.toNat - current.lastSeenNs.toNat then { current with lastSeenNs := now } else current

def lockedAux (aux : Aux) (pointer : ℕ) (f : AuxiliaryIdentity → AuxiliaryIdentity) : Kernel :=
  match s.aux aux with
  | some (p, current) => if p = pointer then { s with aux := Function.update s.aux aux (some (p, f current)) } else s
  | none => s

def sampleAux (aux : Aux) (write : Write) : Handler :=
  match s.aux aux with
  | some (_, snapshot) => l.goto (.sampled aux write snapshot)
  | none => match write with
    | .replace entry => l.goto (.adding aux entry)
    | .touch _ => l.goto .idle

def addAux (aux : Aux) (entry : AuxiliaryIdentity) (admitted : Bool) : Kernel :=
  if (s.aux aux).isSome ∨ admitted = false then s
  else { s with aux := Function.update s.aux aux (some (s.elements, entry)), elements := s.elements + 1 }

def proveAux (aux : Aux) (next : Phase) : Handler :=
  match s.aux aux with
  | some (_, entry) => if entry.incarnation ≠ l.publisher.incarnation ∨ entry.decisionToken ≠ 0 then l.goto .idle else l.goto next
  | none => l.goto .idle

def commitTcpIntercept (isn : BitVec 32) (incarnation : BitVec 64) (state : ConnState) : Option ConnState :=
  if interceptOwned state isn incarnation then some { state with tcpSynFlags := tcpSynOriginalIntercept } else none

def publishes (incarnation : BitVec 64) : Bool := incarnation != 0 && s.publishing == some incarnation

def ifPointer (pointer : Option ℕ) (next : ℕ → Phase) : Handler :=
  match pointer with
  | some pointer => l.goto (next pointer)
  | none => l.goto .idle

def go (reads : Reads) (pinned admitted : Bool) : Option (Kernel × Handler) :=
  match l.phase with
  | .claiming isn => some (claim s l isn admitted)
  | .classifying isn => some (classify s l isn reads)
  | .marking incarnation => some (selectFresh s l incarnation)
  | .seeing args now finRst => some (s, point s l args now finRst)
  | .observing args now finRst pointer =>
    some (locked s pointer (observeTcp args now finRst l.publisher.syn), observed s l args now finRst pointer pinned)
  | .renewing args now finRst pointer incarnation =>
    some (locked s pointer (renewTcp args now finRst l.publisher.syn incarnation), l.goto .idle)
  | .publishing args now pointer => some (s, publishFreshTcp s l args now pointer)
  | .replacing args now pointer => some (locked s pointer (replaceTcp args now l.publisher.expectedIncarnation), l.goto .idle)
  | .inserting args now => some (insertTcp s args now admitted, l.goto .idle)
  | .routing snapshot => some (s, if publishes s snapshot.incarnation then l.goto (.routed snapshot) else l.goto .idle)
  | .routed snapshot => some (s, ifPointer l (s.conn.map Prod.fst) (.routingAt snapshot))
  | .routingAt snapshot pointer => some (locked s pointer (publishTcpRouting snapshot), l.goto .idle)
  | .storing aux entry => some (s, if publishes s entry.incarnation then l.goto (.proving aux entry) else l.goto .idle)
  | .proving aux entry =>
    some (s, if s.conn.map (fun conn => conn.2.incarnation) = some entry.incarnation then
      l.goto (.sampling aux (.replace entry)) else l.goto .idle)
  | .sampling aux write => some (s, sampleAux s l aux write)
  | .sampled aux write snapshot => some (s, ifPointer l ((s.aux aux).map Prod.fst) (.rewriting aux write snapshot))
  | .rewriting aux write snapshot pointer => some (lockedAux s aux pointer (writeAux write snapshot), l.goto .idle)
  | .adding aux entry => some (addAux s aux entry admitted, l.goto .idle)
  | .committing isn => some (s, if publishes s l.publisher.incarnation then l.goto (.provingHandoff isn) else l.goto .idle)
  | .provingHandoff isn => some (s, proveAux s l .handoff (.provingRedirect isn))
  | .provingRedirect isn => some (s, proveAux s l .redirect (.proven isn))
  | .proven isn => some (s, ifPointer l (s.conn.map Prod.fst) (.intercepting isn))
  | .intercepting isn pointer => some (locked s pointer (commitTcpIntercept isn l.publisher.incarnation), l.goto .idle)
  | .dropping => some (s, if s.publishing = some (claimValue l.publisher) then l.goto .removing else l.goto .leaving)
  | .removing => some ({ s with publishing := none }, { l with phase := .leaving, publisher := {} })
  | .out | .idle | .leaving => none

def retire : Input → Option Kernel
  | .fence => match s.retirement with
    | .idle => some { s with retirement := .fenced }
    | _ => none
  | .barrier => match s.retirement with
    | .fenced => some { s with retirement := .waiting s.running }
    | _ => none
  | .grace => match s.retirement with
    | .waiting readers => if Disjoint readers s.running then some { s with retirement := .operating } else none
    | _ => none
  | .deleteConn => match s.retirement with
    | .operating => some { s with conn := none }
    | _ => none
  | .deleteAux aux => match s.retirement with
    | .operating => some { s with aux := Function.update s.aux aux none }
    | _ => none
  | .release => match s.retirement with
    | .idle => none
    | _ => some { s with retirement := .idle }
  | _ => none

def step (x : Input) : Option (Kernel × Handler) :=
  match x with
  | .go reads pinned admitted => go s l reads pinned admitted
  | .enter => match l.phase with
    | .out => some ({ s with running := insert s.tickets s.running, tickets := s.tickets + 1 },
        { phase := .idle, ticket := s.tickets })
    | _ => none
  | .exit => match l.phase with
    | .leaving => some ({ s with running := s.running.erase l.ticket }, {})
    | _ => none
  | x => match l.phase with
    | .out => (retire s x).map fun s' => (s', l)
    | .idle => start s l x
    | _ => none

def lifetimes : System Kernel Handler Input where
  init := {}
  idle := {}
  step := step
  reclaim _ _ _ := False

end Honk.Conntrack.Tcp
