import Honk.Control.Connectivity

namespace Honk.Control

open Honk.Group

structure DatapathFlags where
  nfqueueEnabled : Bool := false
  nfqueueReady : Bool := false
  initialized : Bool := false
  quiescenceFailed : Bool := false
  /-- The mode is a transient identity that an activation resets. -/
  native : Bool := false

namespace DatapathFlags

variable (flags : DatapathFlags)

def initializeFlags (enabled ready written : Bool) : Bool × DatapathFlags :=
  if flags.initialized || !written then (false, flags)
  else
    (true, { flags with
      nfqueueEnabled := enabled
      nfqueueReady := enabled && ready
      initialized := true
      quiescenceFailed := false })

def fenceNfqueue (written quiesced : Bool) : Bool × DatapathFlags :=
  if !flags.initialized || !written then (false, flags)
  else (quiesced, { flags with nfqueueReady := false, quiescenceFailed := !quiesced })

def reopenNfqueue (written : Bool) : Bool × DatapathFlags :=
  if !flags.initialized || flags.quiescenceFailed || !written then (false, flags)
  else (true, { flags with nfqueueReady := flags.nfqueueEnabled })

def resetForActivation (written : Bool) : Bool := !flags.native || (flags.initialized && written)

end DatapathFlags

section

variable (Router Settings Plan Registry Dns Projection : Type)

structure Components where
  router : Router
  config : Settings
  groupManager : GroupManager
  outboundIdMap : NodeId → Option ℕ
  routingPlan : Plan
  runtimeRegistry : Registry
  dnsRuntime : Dns
  projectionSnapshot : Projection

structure Plane where
  current : Components Router Settings Plan Registry Dns Projection
  /-- The DNS runtime provider's generation. Saturation of the `u64` is out of reach. -/
  dnsGeneration : ℕ
  diagnosticsGeneration : ℕ
  /-- The plan under the kernel's policy root. -/
  kernelPlan : Plan
  connectivity : Connectivity
  flags : Option DatapathFlags
  healthy : Bool
  /-- The drain tracker refuses new connections. -/
  rejecting : Bool
  /-- Pending UDP verdicts may be admitted. -/
  udpAdmission : Bool

structure ReloadSetting where
  topology : Settings → Config
  semanticallyEq : Plan → Plan → Bool

structure Candidate where
  config : Settings
  router : Router
  routingPlan : Plan
  runtimeRegistry : Registry
  dnsRuntime : Dns
  projectionSnapshot : Projection

end

structure ReloadSteps where
  bucketsUnique : Bool
  subscriptionIdsValid : Bool
  workersAllowed : Bool
  assembledValid : Bool
  configUnchanged : Bool
  hostsFingerprinted : Bool
  artifactsMatch : Bool
  /-- The update replaces the configuration's sources, so the mode is reset. -/
  replacesSources : Bool
  retainedSourcesAccepted : Bool
  retainedModeWritten : Bool
  declaringSourcesReplaced : Bool
  restartRequired : Bool
  hostsLoaded : Bool
  reuseRoutingState : Bool
  routerBuilt : Bool
  registryBuilt : Bool
  dnsRouterBuilt : Bool
  hostsParsed : Bool
  forwarderBuilt : Bool
  planCompiled : Bool
  /-- The old or the new configuration enables NFQUEUE. -/
  nfqueueConfigured : Bool
  scopedFlagsWritten : Bool
  fenceWritten : Bool
  fenceQuiesced : Bool
  initializersDrained : Bool
  retirementsDrained : Bool
  sourcesAccepted : Bool
  projectionChanged : Bool
  opened : ℕ → Bool
  routingPublished : Bool
  restored : ℕ → Bool
  modeWritten : Bool
  published : ℕ → Bool
  reopenWritten : Bool

inductive ReloadOutcome
  /-- The candidate is not a valid configuration. -/
  | invalid
  | rejected
  | noop (generation : ℕ)
  | committed (generation : ℕ)
  | committedDegraded (generation : ℕ)
  deriving DecidableEq

section

variable {Router Settings Plan Registry Dns Projection : Type} (setting : ReloadSetting Settings Plan) (health : Health)
  (candidate : Candidate Router Settings Plan Registry Dns Projection) (steps : ReloadSteps)

namespace Plane

variable (plane : Plane Router Settings Plan Registry Dns Projection) (flags : DatapathFlags)

def withFlags := { plane with flags := plane.flags.map fun _ => flags }

/-- READY as the datapath sees it; without a writer it was never set. -/
def nfqueueReady : Bool :=
  (plane.flags.map fun flags => flags.nfqueueEnabled && flags.nfqueueReady).getD false

def fenced := { plane.withFlags flags with rejecting := true, udpAdmission := false }

def stopReloadRejectionIfHealthy := { plane with rejecting := !plane.healthy }

def degrade := { plane with healthy := false, rejecting := true }

def restoreDatapathFlagsAfterRejectedReload (written : Bool) :=
  if !plane.healthy then { plane with rejecting := true }
  else
    let (reopened, flags) := flags.reopenNfqueue written
    let plane := plane.withFlags flags
    if !reopened then { plane.degrade with udpAdmission := false }
    else { plane with rejecting := false, udpAdmission := true }

end Plane

variable (plane : Plane Router Settings Plan Registry Dns Projection)

def candidateComponents : Components Router Settings Plan Registry Dns Projection where
  router := if steps.reuseRoutingState then plane.current.router else candidate.router
  config := candidate.config
  groupManager := GroupManager.ofConfig (setting.topology candidate.config)
  outboundIdMap := buildOutboundIdMap (setting.topology candidate.config)
  routingPlan := if steps.reuseRoutingState then plane.current.routingPlan
    else candidate.routingPlan
  runtimeRegistry := candidate.runtimeRegistry
  dnsRuntime := candidate.dnsRuntime
  projectionSnapshot := candidate.projectionSnapshot

def oldConnectivity : List (Slot × Bool) :=
  groupConnectivitySnapshot (setting.topology plane.current.config) plane.current.groupManager
    health

def newConnectivity : List (Slot × Bool) :=
  groupConnectivitySnapshot (setting.topology candidate.config)
    (GroupManager.ofConfig (setting.topology candidate.config)) health

def admission : Option (ReloadOutcome × Plane Router Settings Plan Registry Dns Projection) :=
  if !steps.bucketsUnique then some (.rejected, plane)
  else if !steps.subscriptionIdsValid then some (.rejected, plane)
  else if !steps.workersAllowed then some (.rejected, plane)
  else if !steps.assembledValid then some (.invalid, plane)
  else if steps.configUnchanged && plane.healthy && !steps.hostsFingerprinted then
    some (.rejected, plane.stopReloadRejectionIfHealthy)
  else if steps.configUnchanged && plane.healthy && steps.artifactsMatch then
    if !steps.retainedSourcesAccepted then some (.rejected, plane)
    else if steps.replacesSources && !(plane.flags.map fun flags =>
          flags.resetForActivation steps.retainedModeWritten).getD true then
      some (.rejected, plane)
    else
      some (.noop plane.diagnosticsGeneration, if steps.declaringSourcesReplaced then
          { plane with current := { plane.current with config := candidate.config } }
        else plane)
  else if steps.restartRequired then some (.rejected, plane)
  else if !steps.hostsLoaded then some (.rejected, plane.stopReloadRejectionIfHealthy)
  else if !steps.reuseRoutingState && !steps.routerBuilt then
    some (.rejected, plane.stopReloadRejectionIfHealthy)
  else if !steps.registryBuilt then some (.rejected, plane.stopReloadRejectionIfHealthy)
  else if !steps.dnsRouterBuilt then some (.rejected, plane.stopReloadRejectionIfHealthy)
  else if !steps.hostsParsed then some (.rejected, plane.stopReloadRejectionIfHealthy)
  else if !steps.forwarderBuilt then some (.rejected, plane.stopReloadRejectionIfHealthy)
  else if !steps.reuseRoutingState && !steps.planCompiled then
    some (.rejected, plane.stopReloadRejectionIfHealthy)
  else none

def reloadFlags : Option DatapathFlags :=
  match plane.flags with
  | some flags => some flags
  | none =>
    if steps.nfqueueConfigured then none
    else
      let (initialized, flags) := ({} : DatapathFlags).initializeFlags false false steps.scopedFlagsWritten
      if initialized then some flags else none

def routingPublicationNeeded : Bool :=
  !plane.healthy || !setting.semanticallyEq plane.current.routingPlan
      (candidateComponents setting candidate steps plane).routingPlan ||
    steps.projectionChanged

section

variable (flags : DatapathFlags)

/-- The section under every lock. `none` when it gives up, otherwise whether the mode reset
failed. -/
def publication :=
  if !steps.sourcesAccepted then (none, plane)
  else
    let needed := routingPublicationNeeded setting candidate steps plane
    let components := candidateComponents setting candidate steps plane
    let groupCount := max (setting.topology plane.current.config).groups.length
      (setting.topology candidate.config).groups.length
    let (opened, bits) := openGroupConnectivity steps.opened groupCount plane.connectivity
    if !opened then
      -- The outcome of the restoring writes is only logged.
      let (_, bits) := publishGroupConnectivity steps.restored (oldConnectivity setting health plane) bits
      (none, { plane with connectivity := bits })
    else if needed && !steps.routingPublished then
      let (restored, bits) := publishGroupConnectivity steps.restored (oldConnectivity setting health plane) bits
      let plane := { plane with connectivity := bits }
      (none, if restored then plane else plane.degrade)
    else
      let resetFailed := steps.replacesSources && !flags.resetForActivation steps.modeWritten
      let (_, bits) := publishGroupConnectivity steps.published
        (newConnectivity setting health candidate) bits
      (some resetFailed, { plane with
          current := { components with
            routingPlan := if needed then components.routingPlan else plane.current.routingPlan }
          dnsGeneration := plane.dnsGeneration + 1
          diagnosticsGeneration := plane.dnsGeneration + 1
          kernelPlan := if needed then components.routingPlan else plane.kernelPlan
          connectivity := bits })

def finish (resetFailed : Bool) (plane : Plane Router Settings Plan Registry Dns Projection) :
    ReloadOutcome × Plane Router Settings Plan Registry Dns Projection :=
  if resetFailed then (.committedDegraded plane.dnsGeneration, plane.degrade)
  else
    let (reopened, flags) := flags.reopenNfqueue steps.reopenWritten
    let plane := plane.withFlags flags
    if !reopened then
      (.committedDegraded plane.dnsGeneration, { plane.degrade with udpAdmission := false })
    else
      (.committed plane.dnsGeneration, { plane with healthy := true, rejecting := false, udpAdmission := true })

def fencedReload : ReloadOutcome × Plane Router Settings Plan Registry Dns Projection :=
  let (fenced, flags) := flags.fenceNfqueue steps.fenceWritten steps.fenceQuiesced
  if !fenced then
    (.rejected, { plane.withFlags flags with
      udpAdmission := false }.restoreDatapathFlagsAfterRejectedReload flags steps.reopenWritten)
  else
    let plane := plane.fenced flags
    if !steps.initializersDrained || !steps.retirementsDrained then
      (.rejected, plane.restoreDatapathFlagsAfterRejectedReload flags steps.reopenWritten)
    else
      match publication setting health candidate steps plane flags with
      | (none, plane) => (.rejected, plane.restoreDatapathFlagsAfterRejectedReload flags steps.reopenWritten)
      | (some resetFailed, plane) => finish steps flags resetFailed plane

end

def applyResolvedRuntimeConfigLocked :=
  match admission candidate steps plane with
  | some result => result
  | none =>
    match reloadFlags steps plane with
    | none => (.rejected, plane)
    | some flags => fencedReload setting health candidate steps plane flags

def OldBits (bits : Connectivity) : Prop :=
  bits = plane.connectivity ∨ ∀ write ∈ oldConnectivity setting health plane, bits write.1 = write.2

variable (generation : ℕ) (after : Plane Router Settings Plan Registry Dns Projection)

structure Retained : Prop where
  current : after.current = plane.current
  dnsGeneration : after.dnsGeneration = plane.dnsGeneration
  diagnosticsGeneration : after.diagnosticsGeneration = plane.diagnosticsGeneration
  kernelPlan : after.kernelPlan = plane.kernelPlan

def Closed : Prop := after.healthy = false ∧ after.rejecting = true

def Open : Prop := after.healthy = true ∧ after.rejecting = false

structure Replaced : Prop where
  components : ∃ plan, after.current = { candidateComponents setting candidate steps plane with routingPlan := plan } ∧
    (plan = (candidateComponents setting candidate steps plane).routingPlan ∨ setting.semanticallyEq plan
        (candidateComponents setting candidate steps plane).routingPlan = true)
  next : generation = plane.diagnosticsGeneration + 1
  dnsGeneration : after.dnsGeneration = generation
  diagnosticsGeneration : after.diagnosticsGeneration = generation

/-- What each reported outcome promises. -/
def AllOrNothing (result : ReloadOutcome × Plane Router Settings Plan Registry Dns Projection) : Prop :=
  match result.1 with
  | .rejected =>
    Retained plane result.2 ∧ (Closed result.2 ∨ (Open result.2 ∧ result.2.nfqueueReady = plane.nfqueueReady ∧
          OldBits setting health plane result.2.connectivity))
  | .committed generation => Replaced setting candidate steps plane generation result.2 ∧ Open result.2
  | .committedDegraded generation => Replaced setting candidate steps plane generation result.2 ∧ Closed result.2
  | .invalid => True
  | .noop _ => True

/-- The flags writer had fenced NFQUEUE although it is enabled, as it does while every decision
token generation is live. -/
def FencedBefore : Prop := ∃ flags, plane.flags = some flags ∧ flags.nfqueueEnabled = true ∧ flags.nfqueueReady = false

def reopenedBits : Bool × Connectivity :=
  let (opened, bits) := openGroupConnectivity steps.opened
    (max (setting.topology plane.current.config).groups.length
      (setting.topology candidate.config).groups.length) plane.connectivity
  (opened, (publishGroupConnectivity steps.restored (oldConnectivity setting health plane) bits).2)

/-- The publication is reached, the opening fails and the restoring writes leave bits that are
neither untouched nor the old generation's. -/
structure OpeningTorn : Prop where
  fenced : ∃ flags, reloadFlags steps plane = some flags ∧ (flags.fenceNfqueue steps.fenceWritten steps.fenceQuiesced).1 = true
  drained : steps.initializersDrained = true ∧ steps.retirementsDrained = true
  sourcesAccepted : steps.sourcesAccepted = true
  opened : (reopenedBits setting health candidate steps plane).1 = false
  torn : ¬ OldBits setting health plane (reopenedBits setting health candidate steps plane).2

/-- The reload is rejected after its early exits, with the datapath still counted as healthy. -/
structure RejectedHealthy : Prop where
  passed : admission candidate steps plane = none
  rejected : (applyResolvedRuntimeConfigLocked setting health candidate steps plane).1 = .rejected
  healthy : (applyResolvedRuntimeConfigLocked setting health candidate steps plane).2.healthy = true

/-- Between reloads a healthy plane admits connections and an unhealthy one refuses them. -/
structure Settled : Prop where
  admission : plane.rejecting = !plane.healthy
  generation : plane.dnsGeneration = plane.diagnosticsGeneration

section

variable {flags : DatapathFlags} {written : Bool}

theorem reopenNfqueue_true (h : flags.reopenNfqueue written = (true, flags')) :
    flags' = { flags with nfqueueReady := flags.nfqueueEnabled } := by
  unfold DatapathFlags.reopenNfqueue at h
  split_ifs at h
  · simp at h
  · exact (Prod.mk.inj h).2.symm

theorem restore_cases (flags : DatapathFlags) (written : Bool) :
    Retained plane (plane.restoreDatapathFlagsAfterRejectedReload flags written) ∧
    (plane.restoreDatapathFlagsAfterRejectedReload flags written).connectivity = plane.connectivity ∧
    (Closed (plane.restoreDatapathFlagsAfterRejectedReload flags written) ∨
      (Open (plane.restoreDatapathFlagsAfterRejectedReload flags written) ∧ plane.healthy = true ∧
        (plane.restoreDatapathFlagsAfterRejectedReload flags written).flags =
          plane.flags.map fun _ => { flags with nfqueueReady := flags.nfqueueEnabled })) := by
  rw [Plane.restoreDatapathFlagsAfterRejectedReload]
  by_cases hh : plane.healthy = true
  · rw [if_neg (by simp [hh])]
    generalize hr : flags.reopenNfqueue written = result
    obtain ⟨reopened, after⟩ := result
    cases reopened with
    | false => exact ⟨⟨rfl, rfl, rfl, rfl⟩, rfl, .inl ⟨rfl, rfl⟩⟩
    | true =>
      rw [reopenNfqueue_true hr]
      exact ⟨⟨rfl, rfl, rfl, rfl⟩, rfl, .inr ⟨⟨hh, rfl⟩, hh, rfl⟩⟩
  · rw [if_pos (by simpa using hh)]
    exact ⟨⟨rfl, rfl, rfl, rfl⟩, rfl, .inl ⟨by simpa using hh, rfl⟩⟩

end

inductive GivesUp : Prop
  | refused (hsources : steps.sourcesAccepted = false) (h : after = plane)
  | unopened (hsources : steps.sourcesAccepted = true)
      (hopened : (reopenedBits setting health candidate steps plane).1 = false)
      (h : after = { plane with
        connectivity := (reopenedBits setting health candidate steps plane).2 })
  | restored (bits : Connectivity)
      (hbits : ∀ write ∈ oldConnectivity setting health plane, bits write.1 = write.2)
      (hopened : (reopenedBits setting health candidate steps plane).1 = true)
      (h : after = { plane with connectivity := bits })
  | degraded (bits : Connectivity) (h : after = { plane with connectivity := bits }.degrade)

section

variable {setting health candidate steps plane after} {flags : DatapathFlags}

theorem publication_none (h : publication setting health candidate steps plane flags = (none, after)) :
    GivesUp setting health candidate steps plane after := by
  unfold publication at h
  by_cases hs : steps.sourcesAccepted = true
  swap
  · rw [if_pos (by simpa using hs)] at h
    exact .refused (by simpa using hs) (Prod.mk.inj h).2.symm
  rw [if_neg (by simp [hs])] at h
  simp only at h
  generalize ho : openGroupConnectivity steps.opened _ plane.connectivity = opening at h
  obtain ⟨opened, bits⟩ := opening
  have hb : reopenedBits setting health candidate steps plane = (opened,
      (publishGroupConnectivity steps.restored (oldConnectivity setting health plane) bits).2) := by
    rw [reopenedBits, ho]
  cases opened with
  | false =>
    refine .unopened hs (by rw [hb]) ?_
    rw [hb]
    exact (Prod.mk.inj h).2.symm
  | true =>
    simp only [Bool.not_true, Bool.false_eq_true, if_false] at h
    by_cases hf : (routingPublicationNeeded setting candidate steps plane && !steps.routingPublished) = true
    swap
    · rw [if_neg hf] at h
      exact absurd (Prod.mk.inj h).1 (by simp)
    rw [if_pos hf] at h
    by_cases hr : (publishGroupConnectivity steps.restored (oldConnectivity setting health plane) bits).1 = true
    · rw [if_pos hr] at h
      refine .restored _ (fun write hw => ?_) (by rw [hb]) (Prod.mk.inj h).2.symm
      exact publishGroupConnectivity_true snapshot_nodup hr hw
    · rw [if_neg hr] at h
      exact .degraded _ (Prod.mk.inj h).2.symm

theorem publication_some (hse : plane.dnsGeneration = plane.diagnosticsGeneration)
    (h : publication setting health candidate steps plane flags = (some resetFailed, after)) :
    Replaced setting candidate steps plane after.dnsGeneration after ∧ after.flags = plane.flags := by
  have hno (other) : (none, other) ≠ (some resetFailed, after) := nofun
  unfold publication at h
  by_cases hs : (!steps.sourcesAccepted) = true
  · rw [if_pos hs] at h
    exact absurd h (hno _)
  rw [if_neg hs] at h
  simp only at h
  generalize openGroupConnectivity steps.opened _ plane.connectivity = opening at h
  obtain ⟨opened, bits⟩ := opening
  by_cases ho : (!opened) = true
  · rw [if_pos ho] at h
    exact absurd h (hno _)
  rw [if_neg ho] at h
  by_cases hf : (routingPublicationNeeded setting candidate steps plane && !steps.routingPublished) = true
  · rw [if_pos hf] at h
    exact absurd h (hno _)
  rw [if_neg hf] at h
  obtain ⟨-, rfl⟩ := Prod.mk.inj h
  refine ⟨⟨⟨_, rfl, ?_⟩, by rw [← hse], rfl, rfl⟩, rfl⟩
  by_cases hn : routingPublicationNeeded setting candidate steps plane = true
  · exact .inl (if_pos hn)
  rw [if_neg hn]
  have hsa : ¬ (setting.semanticallyEq plane.current.routingPlan
      (candidateComponents setting candidate steps plane).routingPlan = false) := by
    intro hd
    simp [routingPublicationNeeded, hd] at hn
  exact .inr (by simpa using hsa)

end

structure Unfenced : Prop where
  retained : Retained plane after
  admission : Closed after ∨ Open after
  ready : Open after → after.nfqueueReady = (plane.flags.map DatapathFlags.nfqueueEnabled).getD false
  bits : Open after → (OpeningTorn setting health candidate steps plane ↔ ¬ OldBits setting health plane after.connectivity)

section

variable {setting health candidate steps plane after} {flags : DatapathFlags}

theorem allOrNothing_rejected (hre : Retained plane after) (hh : after.healthy = plane.healthy)
    (hr : after.rejecting = !plane.healthy) (hf : after.flags = plane.flags) (hb : after.connectivity = plane.connectivity) :
    AllOrNothing setting health candidate steps plane (.rejected, after) := by
  refine ⟨hre, ?_⟩
  cases hv : plane.healthy with
  | false => exact .inl ⟨hh.trans hv, by rw [hr, hv]; rfl⟩
  | true =>
    refine .inr ⟨⟨hh.trans hv, by rw [hr, hv]; rfl⟩, ?_, .inl hb⟩
    rw [Plane.nfqueueReady, hf, Plane.nfqueueReady]

theorem forall_of_exit {α : Type} {p : α → Prop} {c : Prop} [Decidable c] {a : α}
    {rest : Option α} (ha : p a) (hr : ∀ r, rest = some r → p r) :
    ∀ r, (if c then some a else rest) = some r → p r := by
  intro r h
  split_ifs at h
  · exact Option.some.inj h ▸ ha
  · exact hr r h

theorem admission_allOrNothing (hse : Settled plane) (h : admission candidate steps plane = some result) :
    AllOrNothing setting health candidate steps plane result := by
  have hk : AllOrNothing setting health candidate steps plane (.rejected, plane) :=
    allOrNothing_rejected ⟨rfl, rfl, rfl, rfl⟩ rfl hse.admission rfl rfl
  have hs : AllOrNothing setting health candidate steps plane (.rejected, plane.stopReloadRejectionIfHealthy) :=
    allOrNothing_rejected ⟨rfl, rfl, rfl, rfl⟩ rfl rfl rfl rfl
  have hin : AllOrNothing setting health candidate steps plane (.invalid, plane) := trivial
  have hn (after) : AllOrNothing setting health candidate steps plane (.noop plane.diagnosticsGeneration, after) := trivial
  suffices ha : ∀ r, admission candidate steps plane = some r → AllOrNothing setting health candidate steps plane r from ha result h
  unfold admission
  refine forall_of_exit hk (forall_of_exit hk (forall_of_exit hk (forall_of_exit hin (forall_of_exit hs ?_))))
  intro result h
  by_cases hu : (steps.configUnchanged && plane.healthy && steps.artifactsMatch) = true
  · rw [if_pos hu] at h
    exact forall_of_exit hk (forall_of_exit hk fun r hr => Option.some.inj hr ▸ hn _) _ h
  rw [if_neg hu] at h
  exact forall_of_exit hk (forall_of_exit hs (forall_of_exit hs (forall_of_exit hs (forall_of_exit hs (forall_of_exit hs
      (forall_of_exit hs (forall_of_exit hs (by simp)))))))) _ h

variable {resetFailed : Bool} {before : Plane Router Settings Plan Registry Dns Projection}

theorem finish_allOrNothing (h : Replaced setting candidate steps plane before.dnsGeneration before) :
    AllOrNothing setting health candidate steps plane (finish steps flags resetFailed before) := by
  unfold finish
  cases resetFailed with
  | true => exact ⟨{ h with }, rfl, rfl⟩
  | false =>
    simp only [Bool.false_eq_true, if_false]
    generalize flags.reopenNfqueue steps.reopenWritten = result
    obtain ⟨reopened, after⟩ := result
    cases reopened with
    | false | true => exact ⟨{ h with }, rfl, rfl⟩

theorem finish_ne_rejected : (finish steps flags resetFailed before).1 ≠ .rejected := by
  unfold finish
  simp only
  split_ifs <;> simp

theorem fenceNfqueue_enabled : (flags.fenceNfqueue written quiesced).2.nfqueueEnabled = flags.nfqueueEnabled := by
  unfold DatapathFlags.fenceNfqueue
  split_ifs <;> rfl

theorem unfenced_restore (hf : reloadFlags steps plane = some flags) (hr : Retained plane mid)
    (hm : mid.flags = plane.flags.map fun _ => (flags.fenceNfqueue steps.fenceWritten steps.fenceQuiesced).2)
    (hb : mid.healthy = true → (OpeningTorn setting health candidate steps plane ↔
      ¬ OldBits setting health plane mid.connectivity)) : Unfenced setting health candidate steps plane
      (mid.restoreDatapathFlagsAfterRejectedReload
        (flags.fenceNfqueue steps.fenceWritten steps.fenceQuiesced).2 steps.reopenWritten) := by
  obtain ⟨hk, hco, he⟩ := restore_cases mid (flags.fenceNfqueue steps.fenceWritten steps.fenceQuiesced).2 steps.reopenWritten
  generalize mid.restoreDatapathFlagsAfterRejectedReload _ _ = after at hk hco he
  have hcl : Closed after → ¬ Open after := fun hc ho => absurd (hc.1.symm.trans ho.1) (by simp)
  refine ⟨⟨hk.current.trans hr.current, hk.dnsGeneration.trans hr.dnsGeneration, hk.diagnosticsGeneration.trans hr.diagnosticsGeneration,
      hk.kernelPlan.trans hr.kernelPlan⟩,
    he.imp id And.left, fun hop => ?_, fun hop => ?_⟩
  · obtain ⟨-, -, hre⟩ := he.resolve_left fun hc => hcl hc hop
    rw [Plane.nfqueueReady, hre, hm]
    cases hpl : plane.flags with
    | none => rfl
    | some own =>
      obtain rfl : own = flags := by
        rw [reloadFlags, hpl] at hf
        exact Option.some.inj hf
      simp [fenceNfqueue_enabled]
  obtain ⟨-, hh, -⟩ := he.resolve_left fun hc => hcl hc hop
  rw [hco]
  exact hb hh

theorem fencedReload_rejected (hf : reloadFlags steps plane = some flags)
    (h : (fencedReload setting health candidate steps plane flags).1 = .rejected) : Unfenced setting health candidate steps plane
      (fencedReload setting health candidate steps plane flags).2 := by
  have hsa : ∀ bits, bits = plane.connectivity → ¬ OpeningTorn setting health candidate steps plane →
      (OpeningTorn setting health candidate steps plane ↔ ¬ OldBits setting health plane bits) :=
    fun bits hb hn => iff_of_false hn fun hold => hold (.inl hb)
  unfold fencedReload at h ⊢
  simp only at h ⊢
  by_cases hfe : (flags.fenceNfqueue steps.fenceWritten steps.fenceQuiesced).1 = true
  swap
  · rw [if_pos (by simpa using hfe)]
    refine unfenced_restore hf ⟨rfl, rfl, rfl, rfl⟩ rfl fun _ => hsa _ rfl ?_
    rintro ⟨⟨own, how, hfence⟩, -⟩
    obtain rfl := Option.some.inj (how.symm.trans hf)
    exact hfe hfence
  rw [if_neg (by simp [hfe])] at h ⊢
  by_cases hd : (!steps.initializersDrained || !steps.retirementsDrained) = true
  · rw [if_pos hd]
    refine unfenced_restore hf ⟨rfl, rfl, rfl, rfl⟩ rfl fun _ => hsa _ rfl ?_
    intro ht
    simp [ht.drained.1, ht.drained.2] at hd
  rw [if_neg hd] at h ⊢
  generalize hpu : publication setting health candidate steps (plane.fenced _) _ = result at h ⊢
  obtain ⟨committed, mid⟩ := result
  cases committed with
  | some resetFailed => exact absurd h finish_ne_rejected
  | none =>
    change Unfenced setting health candidate steps plane (mid.restoreDatapathFlagsAfterRejectedReload _ _)
    cases publication_none hpu with
    | refused hs hm =>
      subst hm
      refine unfenced_restore hf ⟨rfl, rfl, rfl, rfl⟩ rfl fun _ => hsa _ rfl ?_
      exact fun ht => absurd (hs.symm.trans ht.sourcesAccepted) (by simp)
    | unopened hs ho hm =>
      subst hm
      refine unfenced_restore hf ⟨rfl, rfl, rfl, rfl⟩ rfl fun _ => ⟨fun ht => ht.torn, ?_⟩
      exact fun hold => ⟨⟨flags, hf, hfe⟩, by simpa using hd, hs, ho, hold⟩
    | restored bits hb ho hm =>
      subst hm
      refine unfenced_restore hf ⟨rfl, rfl, rfl, rfl⟩ rfl fun _ => iff_of_false ?_ fun hold => hold (.inr hb)
      exact fun ht => absurd (ht.opened.symm.trans ho) (by simp)
    | degraded bits hm =>
      subst hm
      refine unfenced_restore hf ?_ ?_ fun hh => ?_
      · exact ⟨rfl, rfl, rfl, rfl⟩
      · rfl
      · exact absurd hh (by simp [Plane.degrade])

theorem fencedReload_accepted (hs : Settled plane) (h : (fencedReload setting health candidate steps plane flags).1 ≠ .rejected) :
    AllOrNothing setting health candidate steps plane (fencedReload setting health candidate steps plane flags) := by
  unfold fencedReload at h ⊢
  simp only at h ⊢
  by_cases hf : (!(flags.fenceNfqueue steps.fenceWritten steps.fenceQuiesced).1) = true
  · rw [if_pos hf] at h
    exact absurd rfl h
  rw [if_neg hf] at h ⊢
  by_cases hd : (!steps.initializersDrained || !steps.retirementsDrained) = true
  · rw [if_pos hd] at h
    exact absurd rfl h
  rw [if_neg hd] at h ⊢
  generalize hpu : publication setting health candidate steps (plane.fenced _) _ = result at h ⊢
  obtain ⟨committed, mid⟩ := result
  cases committed with
  | none => exact absurd rfl h
  | some resetFailed =>
    have hg := hs.generation
    obtain ⟨hr, -⟩ := publication_some (show (plane.fenced _).dnsGeneration = (plane.fenced _).diagnosticsGeneration from hg) hpu
    exact finish_allOrNothing { hr with }

theorem ready_of_not_fencedBefore (h : ¬ FencedBefore plane) :
    (plane.flags.map DatapathFlags.nfqueueEnabled).getD false = plane.nfqueueReady := by
  rw [Plane.nfqueueReady]
  cases hf : plane.flags with
  | none => rfl
  | some flags =>
    have hr : ¬ (flags.nfqueueEnabled = true ∧ flags.nfqueueReady = false) := fun hb => h ⟨flags, hf, hb⟩
    cases he : flags.nfqueueEnabled <;> cases hv : flags.nfqueueReady <;> simp_all

end

end

def soloConfig : Config where
  groups := [{ name := "proxy", policy := .selector, nodes := [3], groups := [] }]
  nodes := [⟨3, "leaf", "192.0.2.1:443", .proxy, true⟩]
  ids_nodup := by decide

def udpDead : Health := fun _ domain ipver => !(domain = .dataUdp && ipver = .v4)

def soloSetting : ReloadSetting Config ℕ := ⟨id, fun a b => a = b⟩

def soloPlane (flags : DatapathFlags) : Plane Unit Config ℕ Unit Unit Unit where
  current := ⟨(), soloConfig, GroupManager.ofConfig soloConfig, buildOutboundIdMap soloConfig, 7, (), (), ()⟩
  dnsGeneration := 1
  diagnosticsGeneration := 1
  kernelPlan := 7
  connectivity := fun slot => udpDead 3 slot.2.1 slot.2.2
  flags := some flags
  healthy := true
  rejecting := false
  udpAdmission := true

def soloCandidate : Candidate Unit Config ℕ Unit Unit Unit := ⟨soloConfig, (), 8, (), (), ()⟩

def smoothSteps : ReloadSteps where
  bucketsUnique := true
  subscriptionIdsValid := true
  workersAllowed := true
  assembledValid := true
  configUnchanged := false
  hostsFingerprinted := true
  artifactsMatch := false
  replacesSources := true
  retainedSourcesAccepted := true
  retainedModeWritten := true
  declaringSourcesReplaced := false
  restartRequired := false
  hostsLoaded := true
  reuseRoutingState := false
  routerBuilt := true
  registryBuilt := true
  dnsRouterBuilt := true
  hostsParsed := true
  forwarderBuilt := true
  planCompiled := true
  nfqueueConfigured := true
  scopedFlagsWritten := true
  fenceWritten := true
  fenceQuiesced := true
  initializersDrained := true
  retirementsDrained := true
  sourcesAccepted := true
  projectionChanged := false
  opened := fun _ => true
  routingPublished := true
  restored := fun _ => true
  modeWritten := true
  published := fun _ => true
  reopenWritten := true

def readyFlags : DatapathFlags := { nfqueueEnabled := true, nfqueueReady := true, initialized := true }

theorem soloPlane_settled : Settled (soloPlane flags) := ⟨rfl, rfl⟩

def tornSteps : ReloadSteps := { smoothSteps with opened := fun i => i < 5, restored := fun _ => false }

def refusedSteps : ReloadSteps := { smoothSteps with routingPublished := false }

end Honk.Control
