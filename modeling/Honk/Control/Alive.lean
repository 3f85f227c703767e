import Honk.Control.Connectivity

namespace Honk.Control

open Honk.Group List

def probeFailureThreshold : ProbeDomain → ℕ
  | .tcp => 3
  | .dnsUdp => 3
  | .dataUdp => 3

def trafficFailureThreshold : ProbeDomain → ℕ
  | .tcp => 10
  | .dnsUdp => 3
  | .dataUdp => 50

def maxProbeBackoffFailures : ℕ := 10

def recoverySuccessesNeeded : ℕ := 2

structure PerProtocolState where
  alive : Bool
  consecutiveFailures : ℕ
  consecutiveSuccesses : ℕ
  trafficFailures : ℕ
  stopped : Bool

namespace PerProtocolState

def new : PerProtocolState := ⟨true, 0, 0, 0, false⟩

def resetOnSuccess (_ : PerProtocolState) : PerProtocolState := ⟨true, 0, 0, 0, false⟩

variable (e : PerProtocolState)

def isCleanAlive : Bool := e.alive && e.consecutiveFailures = 0 && e.consecutiveSuccesses = 0 && e.trafficFailures = 0 && !e.stopped

def markUnavailable (domain : ProbeDomain) (isTraffic : Bool) : PerProtocolState :=
  if isTraffic then
    { e with
      consecutiveSuccesses := 0
      trafficFailures := e.trafficFailures + 1
      alive := if trafficFailureThreshold domain ≤ e.trafficFailures + 1 then false else e.alive }
  else
    { e with
      consecutiveSuccesses := 0
      consecutiveFailures := e.consecutiveFailures + 1
      stopped := if maxProbeBackoffFailures ≤ e.consecutiveFailures + 1 then true else e.stopped
      alive := if probeFailureThreshold domain ≤ e.consecutiveFailures + 1 then false else e.alive }

def recordProbeLatency (immediate : Bool) : PerProtocolState :=
  if e.alive || immediate then e.resetOnSuccess
  else if recoverySuccessesNeeded ≤ e.consecutiveSuccesses + 1 then
    ⟨true, 0, 0, 0, false⟩
  else
    ⟨false, 0, e.consecutiveSuccesses + 1, 0, e.stopped⟩

theorem markUnavailable_alive {e : PerProtocolState} {domain : ProbeDomain} {isTraffic : Bool}
    (h : (e.markUnavailable domain isTraffic).alive = true) : e.alive = true := by
  cases isTraffic <;> simp only [markUnavailable, Bool.false_eq_true, ↓reduceIte] at h <;> split_ifs at h <;> exact h

theorem recordProbeLatency_alive {e : PerProtocolState} {immediate : Bool} (h : e.alive = true) :
    (e.recordProbeLatency immediate).alive = true := by
  simp [recordProbeLatency, h, resetOnSuccess]

end PerProtocolState

/-- An entry of the registered nodes. Two registrations are the same one when they are the same
allocation, which `arc` numbers. -/
structure RegisteredNode where
  id : NodeId
  name : String
  address : String
  arc : ℕ

abbrev HealthUpdateKey := NodeId × ProbeDomain × IpVersion

def isBuiltin (id : NodeId) : Prop := id = directNodeId ∨ id = blockNodeId

instance (id : NodeId) : Decidable (isBuiltin id) := inferInstanceAs (Decidable (_ ∨ _))

structure AliveDialerSet where
  states : NodeId → Option (ProbeDomain → IpVersion → PerProtocolState)
  registered : List RegisteredNode
  /-- Registrations allocated so far. -/
  arcs : ℕ

namespace AliveDialerSet

def empty : AliveDialerSet := ⟨fun _ => none, [], 0⟩

section

variable (a : AliveDialerSet) (id : NodeId) (domain : ProbeDomain) (ipver : IpVersion)

def readState : PerProtocolState :=
  match a.states id with
  | some states => states domain ipver
  | none => .new

def isAliveFor : Health := fun id domain ipver =>
  match a.states id with
  | some states => (states domain ipver).alive
  | none => true

def withState (e : PerProtocolState) : AliveDialerSet :=
  { a with states := Function.update a.states id (some fun domain' ipver' =>
      if domain' = domain ∧ ipver' = ipver then e else a.readState id domain' ipver') }

def registration : Option RegisteredNode := a.registered.find? fun node => node.id = id

def registeredArc : Option ℕ := (a.registration id).map RegisteredNode.arc

/-- A new allocation replaces the registration; the verdicts stay. -/
def registerNode (name address : String) : AliveDialerSet where
  states := Function.update a.states id (some fun domain ipver => a.readState id domain ipver)
  registered := ⟨id, name, address, a.arcs⟩ :: a.registered.filter fun node => node.id ≠ id
  arcs := a.arcs + 1

def removeNode : AliveDialerSet where
  states := Function.update a.states id none
  registered := a.registered.filter fun node => node.id ≠ id
  arcs := a.arcs

/-- Only a registered node has a grace period; `grace` is the clock's answer. -/
def isInGracePeriod (grace : Bool) : Bool := (a.registration id).isSome && grace

def markUnavailableState (isTraffic grace : Bool) : AliveDialerSet × Bool :=
  if isBuiltin id then (a, false)
  else if a.isInGracePeriod id grace then (a, false)
  else
    let e := a.readState id domain ipver
    let e' := e.markUnavailable domain isTraffic
    (a.withState id domain ipver e', e.alive && !e'.alive)

def recordProbeLatencyState (immediate : Bool) : AliveDialerSet × Bool :=
  let e := a.readState id domain ipver
  let e' := e.recordProbeLatency immediate
  (a.withState id domain ipver e', !e.alive && e'.alive)

def reportAvailableTrafficState : AliveDialerSet × Bool :=
  if (a.states id).any fun states => (states domain ipver).isCleanAlive then (a, false)
  else
    let e := a.readState id domain ipver
    (a.withState id domain ipver e.resetOnSuccess, !e.alive)

def reportUnavailableTrafficState (grace : Bool) : AliveDialerSet × Bool :=
  if id = blockNodeId then (a, false) else a.markUnavailableState id domain ipver true grace

/-- The part of `apply_probe_result` under the registration lock. -/
def applyProbeResultState (captured : Option ℕ)
    (domain : ProbeDomain) (ipver : IpVersion) (success grace : Bool) : AliveDialerSet × Bool :=
  if a.registeredArc id = captured then
    if success then a.recordProbeLatencyState id domain ipver (domain ≠ .tcp)
    else a.markUnavailableState id domain ipver false grace
  else (a, false)

def health (key : HealthUpdateKey) : Bool := a.isAliveFor key.1 key.2.1 key.2.2

end

variable {a : AliveDialerSet} (id : NodeId)

variable (domain : ProbeDomain) (ipver : IpVersion)

theorem isAliveFor_eq : a.isAliveFor id domain ipver = (a.readState id domain ipver).alive := by
  rw [isAliveFor, readState]
  cases a.states id <;> rfl

variable {key : HealthUpdateKey}

theorem health_withState (e : PerProtocolState) : (a.withState id domain ipver e).health key =
      if key = (id, domain, ipver) then e.alive else a.health key := by
  obtain ⟨id', domain', ipver'⟩ := key
  rw [health, health, isAliveFor_eq, isAliveFor_eq]
  by_cases hid : id' = id
  · subst hid
    by_cases hs : domain' = domain ∧ ipver' = ipver
    · simp [withState, readState, hs]
    have hn : (id', domain', ipver') ≠ (id', domain, ipver) := by simpa using hs
    rw [if_neg hn]
    simp [withState, readState, hs]
  have hn : (id', domain', ipver') ≠ (id, domain, ipver) := by simp [hid]
  rw [if_neg hn]
  simp [withState, readState, hid]

variable {address : String} {name : String}

theorem health_registerNode : (a.registerNode id name address).health key = a.health key := by
  rw [health, health, isAliveFor_eq, isAliveFor_eq]
  by_cases hid : key.1 = id
  · simp [registerNode, readState, hid]
  · simp [registerNode, readState, hid]

theorem health_removeNode : (a.removeNode id).health key = if key.1 = id then true else a.health key := by
  by_cases hid : key.1 = id
  · simp [health, removeNode, isAliveFor, hid]
  · simp [health, removeNode, isAliveFor, hid]

theorem registeredArc_registerNode_of_ne {id id' : NodeId}
    (h : id' ≠ id) : (a.registerNode id name address).registeredArc id' = a.registeredArc id' := by
  rw [registeredArc, registeredArc, registration, registration, registerNode, find?_cons_of_neg (by simpa using h.symm), find?_filter]
  congr 1
  refine find?_congr fun node _ => ?_
  by_cases hid : node.id = id'
  · simp [hid, h]
  · simp [hid]

theorem registeredArc_removeNode_of_ne {id id' : NodeId} (h : id' ≠ id) : (a.removeNode id).registeredArc id' = a.registeredArc id' := by
  rw [registeredArc, registeredArc, registration, registration, removeNode, find?_filter]
  congr 1
  refine find?_congr fun node _ => ?_
  by_cases hid : node.id = id'
  · simp [hid, h]
  · simp [hid]

structure Flip (a : AliveDialerSet) (key : HealthUpdateKey) (alive : Bool) (result : AliveDialerSet × Bool) : Prop where
  registered : result.1.registered = a.registered
  others : ∀ key', key' ≠ key → result.1.health key' = a.health key'
  unchanged : result.2 = false → result.1.health key = a.health key
  flipped : result.2 = true → a.health key = !alive ∧ result.1.health key = alive
  mortal : result.2 = true → alive = false → ¬ isBuiltin key.1

theorem Flip.none {key : HealthUpdateKey} {alive : Bool} : Flip a key alive (a, false) :=
  ⟨rfl, fun _ _ => rfl, fun _ => rfl, nofun, nofun⟩

theorem Flip.withState (alive : Bool) (e' : PerProtocolState)
    (hk : (a.readState id domain ipver).alive = alive → e'.alive = alive) (hm : alive = false → ¬ isBuiltin id) :
    Flip a (id, domain, ipver) alive (a.withState id domain ipver e',
      (a.readState id domain ipver).alive == !alive && e'.alive == alive) := by
  have hs : (a.withState id domain ipver e').health (id, domain, ipver) = e'.alive := by rw [health_withState, if_pos rfl]
  have hb : a.health (id, domain, ipver) = (a.readState id domain ipver).alive := isAliveFor_eq _ _ _
  refine ⟨rfl, fun key' hn => by rw [health_withState, if_neg hn], ?_, ?_, fun _ => hm⟩
  · intro h
    rw [hs, hb]
    revert hk h
    cases (a.readState id domain ipver).alive <;> cases e'.alive <;> cases alive <;> simp
  intro h
  rw [hs, hb]
  simpa using h

variable {grace : Bool}

theorem markUnavailableState_flip : Flip a (id, domain, ipver) false (a.markUnavailableState id domain ipver isTraffic grace) := by
  rw [markUnavailableState]
  split_ifs with hb hg
  · exact .none
  · exact .none
  have h := Flip.withState (a := a) id domain ipver false ((a.readState id domain ipver).markUnavailable domain isTraffic)
    (fun hd => Bool.eq_false_iff.mpr fun h => absurd (PerProtocolState.markUnavailable_alive h) (Bool.eq_false_iff.mp hd))
    (fun _ => hb)
  simpa using h

theorem reportUnavailableTrafficState_flip : Flip a (id, domain, ipver) false (a.reportUnavailableTrafficState id domain ipver grace) := by
  rw [reportUnavailableTrafficState]
  split_ifs
  · exact .none
  · exact markUnavailableState_flip ..

theorem recordProbeLatencyState_flip (immediate : Bool) :
    Flip a (id, domain, ipver) true (a.recordProbeLatencyState id domain ipver immediate) := by
  have h := Flip.withState (a := a) id domain ipver true ((a.readState id domain ipver).recordProbeLatency immediate)
    PerProtocolState.recordProbeLatency_alive nofun
  simpa [recordProbeLatencyState] using h

theorem reportAvailableTrafficState_flip : Flip a (id, domain, ipver) true (a.reportAvailableTrafficState id domain ipver) := by
  rw [reportAvailableTrafficState]
  split_ifs with hc
  · exact .none
  have h := Flip.withState (a := a) id domain ipver true (a.readState id domain ipver).resetOnSuccess (fun _ => rfl) nofun
  simpa [PerProtocolState.resetOnSuccess] using h

theorem applyProbeResultState_flip (domain : ProbeDomain) (ipver : IpVersion) : Flip a (id, domain, ipver) success
      (a.applyProbeResultState id captured domain ipver success grace) := by
  rw [applyProbeResultState]
  split_ifs with hsa hs
  · rw [hs]
    exact recordProbeLatencyState_flip ..
  · rw [Bool.eq_false_iff.mpr hs]
    exact markUnavailableState_flip ..
  · exact .none

theorem registeredArc_of_applied {id : NodeId} {captured : Option ℕ} {domain : ProbeDomain}
    {ipver : IpVersion} {success grace : Bool} (h : (a.applyProbeResultState id captured domain ipver success grace).2 = true) :
    a.registeredArc id = captured := by
  rw [applyProbeResultState] at h
  by_contra hn
  rw [if_neg hn] at h
  cases h

end AliveDialerSet

end Honk.Control
