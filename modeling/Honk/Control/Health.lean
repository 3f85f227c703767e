import Honk.Control.Alive
import Honk.Lib.Interleaving

namespace Honk.Control

open Honk.Group Honk.Lib

structure Report where
  node : NodeId
  domain : ProbeDomain
  ipver : IpVersion
  alive : Bool
  captured : Option (Option ℕ)
  deriving DecidableEq

def Report.key (report : Report) : HealthUpdateKey := (report.node, report.domain, report.ipver)

def Report.isCurrent (report : Report) (alive : AliveDialerSet) : Bool :=
  match report.captured with
  | none => true
  | some captured => alive.registeredArc report.node = captured

variable (alive : AliveDialerSet)

def shouldNotify (report : Report) : Bool := report.isCurrent alive && alive.health report.key == report.alive

inductive Handler
  | idle
  | flipped (report : Report)
  | checked (report : Report)
  | resolved (report : Report) (outbound : Option ℕ)
  | notifying (report : Report) (outbound : ℕ)
  deriving DecidableEq

structure Publishing where
  key : HealthUpdateKey
  index : ℕ
  computed : Option Bool

/-- Where the reload stands. It holds the configuration, backend and outbound-map locks from
`locked` to `published`. -/
inductive ReloadPhase
  | none
  | locked (config : Config)
  | snapshotted (config : Config) (snapshot : List (Slot × Bool))
  | opened (config : Config) (snapshot : List (Slot × Bool))
  | published (config : Config)
  | installed
  | syncing (registering : List Node) (removing : List NodeId)

def ReloadPhase.holdsLocks : ReloadPhase → Bool
  | .none => false
  | .locked _ => true
  | .snapshotted _ _ => true
  | .opened _ _ => true
  | .published _ => true
  | .installed => false
  | .syncing _ _ => false

structure HealthPlane where
  alive : AliveDialerSet
  config : Config
  outboundIdMap : NodeId → Option ℕ
  kernel : Connectivity
  pending : Finset HealthUpdateKey
  /-- Taken from the pending set by the worker and not yet published. -/
  updates : Finset HealthUpdateKey
  publishing : Option Publishing
  reload : ReloadPhase
  /-- Reloads committed. -/
  generation : ℕ

variable (s : HealthPlane)

def HealthPlane.manager : GroupManager := .ofConfig s.config

inductive ReportEvent
  | probe (node : NodeId) (captured : Option ℕ) (domain : ProbeDomain) (ipver : IpVersion)
      (success grace : Bool)
  | trafficFailure (node : NodeId) (domain : ProbeDomain) (ipver : IpVersion) (grace : Bool)
  | trafficSuccess (node : NodeId) (domain : ProbeDomain) (ipver : IpVersion)
  | markDead (node : NodeId) (domain : ProbeDomain) (ipver : IpVersion) (grace : Bool)
  | recordLatency (node : NodeId) (domain : ProbeDomain) (ipver : IpVersion)
  | check
  | resolve
  | recheck
  | callback

inductive PublisherEvent
  | take
  | start (key : HealthUpdateKey)
  | recompute
  | write

inductive ReloadEvent
  | start (config : Config)
  | reject
  | snapshot
  | openSlots
  | publish
  | install
  | startSync
  | register (node : Node)
  | remove (id : NodeId)
  | finish

inductive HealthEvent
  | report (event : ReportEvent)
  | publisher (event : PublisherEvent)
  | reload (event : ReloadEvent)

def begun (result : AliveDialerSet × Bool) (report : Report) : HealthPlane × Handler :=
  ({ s with alive := result.1 }, if result.2 then .flipped report else .idle)

def reportStep : Handler → ReportEvent → Option (HealthPlane × Handler)
  | .idle, .probe node captured domain ipver success grace =>
    some (begun s (s.alive.applyProbeResultState node captured domain ipver success grace)
      ⟨node, domain, ipver, success, some captured⟩)
  | .idle, .trafficFailure node domain ipver grace =>
    some (begun s (s.alive.reportUnavailableTrafficState node domain ipver grace)
      ⟨node, domain, ipver, false, none⟩)
  | .idle, .trafficSuccess node domain ipver =>
    some (begun s (s.alive.reportAvailableTrafficState node domain ipver)
      ⟨node, domain, ipver, true, none⟩)
  | .idle, .markDead node domain ipver grace =>
    some (begun s (s.alive.markUnavailableState node domain ipver false grace)
      ⟨node, domain, ipver, false, none⟩)
  | .idle, .recordLatency node domain ipver =>
    some (begun s (s.alive.recordProbeLatencyState node domain ipver false)
      ⟨node, domain, ipver, true, none⟩)
  | .flipped report, .check => some (s, if shouldNotify s.alive report then .checked report else .idle)
  | .checked report, .resolve =>
    -- The resolver reads the outbound map, which a reload replaces under its write lock.
    if s.reload.holdsLocks then none
    else some (s, .resolved report (s.outboundIdMap report.node))
  | .resolved report (some outbound), .recheck =>
    some (s, if shouldNotify s.alive report then .notifying report outbound else .idle)
  | .resolved _ none, .recheck => some (s, .idle)
  | .notifying report _, .callback => some ({ s with pending := insert report.key s.pending }, .idle)
  | _, _ => none

def publisherStep : PublisherEvent → Option HealthPlane
  | .take =>
    if s.updates = ∅ ∧ s.publishing = none then
      some { s with pending := ∅, updates := s.pending }
    else none
  | .start key =>
    if key ∈ s.updates ∧ s.publishing = none ∧ s.reload.holdsLocks = false then
      some { s with updates := s.updates.erase key, publishing := some ⟨key, 0, none⟩ }
    else none
  | .recompute =>
    match s.publishing with
    | some ⟨key, index, none⟩ =>
      match s.config.groups[index]? with
      | some group =>
        if s.manager.groupReachesNode group.name key.1 then
          let bit := groupDatapathAlive group s.manager s.alive.isAliveFor key.2.1 key.2.2
          some { s with publishing := some ⟨key, index, some bit⟩ }
        else some { s with publishing := some ⟨key, index + 1, none⟩ }
      | none => some { s with publishing := none }
    | _ => none
  | .write =>
    match s.publishing with
    | some ⟨key, index, some bit⟩ =>
      some { s with
        kernel := Function.update s.kernel (userBase + index, key.2) bit
        publishing := some ⟨key, index + 1, none⟩ }
    | _ => none

/-- The nodes `sync_health_check_nodes` registers: those that are new, or whose name or address
changed. -/
def nodesToRegister (config : Config) : List Node :=
  (healthCheckTargets config).filter fun node =>
    !(alive.registration node.id).any fun current => current.name = node.name && current.address = node.address

def nodesToRemove (config : Config) : List NodeId :=
  (alive.registered.map RegisteredNode.id).filter fun id => id ∉ (healthCheckTargets config).map Node.id

def reloadStep : ReloadEvent → Option HealthPlane
  | .start config =>
    match s.reload with
    | .none => if s.publishing = none then some { s with reload := .locked config } else none
    | _ => none
  | .reject =>
    match s.reload with
    | .locked _ => some { s with reload := .none }
    | _ => none
  | .snapshot =>
    match s.reload with
    | .locked config =>
      let snapshot := groupConnectivitySnapshot config (.ofConfig config) s.alive.isAliveFor
      some { s with reload := .snapshotted config snapshot }
    | _ => none
  | .openSlots =>
    match s.reload with
    | .snapshotted config snapshot =>
      let groupCount := max s.config.groups.length config.groups.length
      some { s with
        kernel := (openGroupConnectivity (fun _ => true) groupCount s.kernel).2
        reload := .opened config snapshot }
    | _ => none
  | .publish =>
    match s.reload with
    | .opened config snapshot =>
      some { s with
        kernel := (publishGroupConnectivity (fun _ => true) snapshot s.kernel).2
        reload := .published config }
    | _ => none
  | .install =>
    match s.reload with
    | .published config =>
      some { s with
        config := config
        outboundIdMap := buildOutboundIdMap config
        reload := .installed
        generation := s.generation + 1 }
    | _ => none
  | .startSync =>
    match s.reload with
    | .installed =>
      some { s with
        reload := .syncing (nodesToRegister s.alive s.config) (nodesToRemove s.alive s.config) }
    | _ => none
  | .register node =>
    match s.reload with
    | .syncing registering removing =>
      if node ∈ registering then
        some { s with
          alive := s.alive.registerNode node.id node.name node.address
          reload := .syncing (registering.erase node) removing }
      else none
    | _ => none
  | .remove id =>
    match s.reload with
    | .syncing [] removing =>
      if id ∈ removing then
        some { s with alive := s.alive.removeNode id, reload := .syncing [] (removing.erase id) }
      else none
    | _ => none
  | .finish =>
    match s.reload with
    | .syncing [] [] => some { s with reload := .none }
    | _ => none

def healthStep (l : Handler) : HealthEvent → Option (HealthPlane × Handler)
  | .report event => reportStep s l event
  | .publisher event => (publisherStep s event).map fun s' => (s', l)
  | .reload event => (reloadStep s event).map fun s' => (s', l)

variable (config : Config)

def bootstrapPlane : HealthPlane where
  alive := (healthCheckTargets config).foldl
    (fun alive node => alive.registerNode node.id node.name node.address) .empty
  config := config
  outboundIdMap := buildOutboundIdMap config
  kernel := fun _ => true
  pending := ∅
  updates := ∅
  publishing := none
  reload := .none
  generation := 0

def healthSystem : System HealthPlane Handler HealthEvent where
  init := bootstrapPlane config
  idle := .idle
  step := healthStep
  reclaim := fun _ _ _ => False

/-- No report, publication or reload is in progress and no health update waits. -/
def Quiescent (ls : ℕ → Handler) : Prop :=
  (∀ i, ls i = .idle) ∧ s.reload = .none ∧ s.pending = ∅ ∧ s.updates = ∅ ∧ s.publishing = none

def Converged : Prop :=
  ∀ index group, s.config.groups[index]? = some group → ∀ domain ipver, s.kernel (userBase + index, domain, ipver) =
      groupDatapathAlive group s.manager s.alive.isAliveFor domain ipver

def Handler.awaiting : Handler → Option Report
  | .flipped report => some report
  | .checked report => some report
  | .resolved report _ => some report
  | _ => none

/-- No node is registered again while a probe that flipped it has yet to pass its last check. -/
def NotOvertaken (_ : HealthPlane) (ls : ℕ → Handler) : HealthEvent → Prop
  | .reload (.register node) => ∀ i report, (ls i).awaiting = some report → report.node = node.id → report.captured = none
  | _ => True

/-- The bits the kernel starts with are right: with every node alive, every group is. -/
def StartsOpen : Prop :=
  ∀ group ∈ config.groups, ∀ domain ipver, groupDatapathAlive group (.ofConfig config) (fun _ _ _ => true) domain ipver = true

end Honk.Control
