import Honk.Conntrack.History

namespace Honk.Conntrack

open Honk.Lib Honk.Nfqueue Program Keeps Backend RedirectTuple
open List hiding Vector
open Program (Keeps keeps_pure keeps_throw keeps_ensure keeps_forM keeps_mapM keeps_get keeps_modify)

structure Stable (P : Flows → Prop) : Prop where
  lookup : ∀ {V : Type} (read : Flows → Option V), Keeps P (flowLookup read)
  refusal : ∀ (commit : UdpDecisionCommit) {reply : UdpDecisionCommitResult}, reply ≠ .applied →
    Keeps P (reported commit none (pure reply))
  fenced : ∀ (commit : UdpDecisionCommit) (incarnation : BitVec 64), isInitial commit.transition = true →
    commit.token ≠ 0 → Keeps P (reported commit (some incarnation) (commitUdpChecked commit incarnation))
  activated : ∀ commit : UdpDecisionCommit, isInitial commit.transition = false → commit.token ≠ 0 →
    Keeps P (reported commit none (activateChecked commit))
  retired : ∀ request, Keeps P (retireNext request)
  started : ∀ flows, P flows → P { flows with counts := {}, outcomes := [] }
  answering : ∀ (flows : Flows) (answers : List Answer), P flows → P { flows with answers := answers }

theorem stable_sound : Stable Sound where
  lookup := lookup_keeps
  refusal := reported_refusal_keeps
  fenced commit incarnation hin hn :=
    reported_keeps (fun flows => commitUdpChecked_effect commit incarnation flows hin) hn (by simp)
  activated commit ha hn :=
    reported_keeps (fun flows => activateChecked_effect commit flows ha) hn (by simp [ha])
  retired := retireNext_keeps
  started _ h := h.congr rfl rfl rfl
  answering _ _ h := h.congr rfl rfl rfl

theorem stable_true : Stable fun _ => True where
  lookup _ _ _ := trivial
  refusal _ _ _ _ _ := trivial
  fenced _ _ _ _ _ _ := trivial
  activated _ _ _ _ _ := trivial
  retired _ _ _ := trivial
  started _ _ := trivial
  answering _ _ _ := trivial

variable {P : Flows → Prop}

theorem applyTimes_keeps (h : Keeps P apply) : Keeps P (applyTimes tolerant apply n) := by
  induction n with
  | zero => exact keeps_pure _
  | succ n ih =>
    refine bind h.attempt fun result => ?_
    cases result with
    | ok reply => exact ih
    | error e =>
      cases tolerant with
      | true => exact ih
      | false => exact keeps_throw e

theorem visitCommit_keeps (hs : Stable P) (hin : isInitial commit.transition = true) : Keeps P (visitCommit visit commit captured) := by
  refine bind (applyTimes_keeps ?_) fun _ => keeps_ensure
  split
  · exact hs.refusal commit (by simp)
  cases captured with
  | none => exact hs.refusal commit (by simp)
  | some incarnation => exact hs.fenced commit incarnation hin ‹_›

theorem adoptChecked_keeps (hs : Stable P) (binding : Option TcpSocketBinding) (tuples : TuplesKey) :
    Keeps P (adoptChecked binding tuples) := by
  cases binding with
  | none => exact keeps_throw _
  | some binding =>
    refine bind (hs.lookup _) fun conn => ?_
    cases conn with
    | none => exact keeps_throw _
    | some current =>
      refine bind keeps_ensure fun _ => bind (hs.lookup _) fun handoff => ?_
      cases handoff with
      | none => exact keeps_throw _
      | some handoff =>
        refine bind (hs.lookup _) fun redirect => ?_
        cases redirect with
        | none => exact keeps_throw _
        | some redirect =>
          exact bind keeps_ensure fun _ => bind keeps_ensure fun _ => bind (hs.lookup _) fun _ => keeps_pure _

variable {backend : Backend} {value : Except BackendError T}

structure Healthy (P : Flows → Prop) (backend : Backend) : Prop where
  flows : P backend.flows
  closed : backend.retirementFailed = true ∨ Clear backend
  owners : ∀ key fence, .inserted key fence ∈ backend.events → fence.owner.toNat ≤ backend.retirementOwner.toNat

theorem healthy_empty (h : P {}) : Healthy P {} := ⟨h, .inr ⟨rfl, rfl, fun _ => rfl⟩, by simp⟩

theorem Healthy.flows_of (h : Healthy P backend) {flows : Flows} (hf : P flows) : Healthy P { backend with flows := flows } :=
  ⟨hf, h.closed.imp_right fun hc => ⟨hc.failed, hc.active, hc.fences⟩, h.owners⟩

theorem Healthy.answering (hs : Stable P) (h : Healthy P backend) (answers : List Answer) (refusals : List Bool) :
    Healthy P (backend.answering answers refusals) :=
  ⟨hs.answering _ _ h.flows, h.closed.imp_right fun hc => ⟨hc.failed, hc.active, hc.fences⟩, h.owners⟩

theorem onFlows_keeps (h : Keeps P m) : Keeps (Healthy P) (onFlows m) := by
  intro backend hh
  exact ensures_zoom (Ensures.mono (h backend.flows hh.flows) fun _ _ hf => hh.flows_of hf)

theorem ensureResolved_keeps : Keeps (Healthy P) ensureResolved := bind keeps_get fun _ => keeps_ensure

theorem lift_keeps : Keeps (Healthy P) (lift value) := by
  cases value with
  | ok value => exact keeps_pure value
  | error e => exact keeps_throw e

theorem withRetirementFences_keeps {keys : List (TuplesKey × BitVec 32)}
    (h : Keeps P operation) : Keeps (Healthy P) (withRetirementFences keys operation) := by
  intro backend hh
  refine Ensures.mono (withRetirementFences_protocol keys operation hh.closed) ?_
  rintro result after ⟨new, hpr⟩
  refine ⟨?_, hpr.closed, fun key fence hm => ?_⟩
  · rcases hpr.flows with ⟨-, hf⟩ | hf
    · rw [hf]
      exact hh.flows
    · rw [hf]
      exact h backend.flows hh.flows
  rw [hpr.events] at hm
  rcases mem_append.mp hm with hm | hm
  · rw [(hpr.inserted key fence hm).1]
  · exact (hh.owners key fence hm).trans hpr.owner

theorem graceBarrier_keeps : Keeps (Healthy P) graceBarrier := by
  refine bind ensureResolved_keeps fun _ backend hh => ?_
  refine ensures_call ?_ ?_
  · exact ⟨hh.flows, hh.closed.imp_right fun h => ⟨h.failed, h.active, h.fences⟩, hh.owners⟩
  · exact ⟨hh.flows, hh.closed.imp_right fun h => ⟨h.failed, h.active, h.fences⟩, by simpa using hh.owners⟩

section

variable (hs : Stable P)
include hs

theorem commitUdpDecision_keeps (commit : UdpDecisionCommit) : Keeps (Healthy P) (commitUdpDecision commit) := by
  have hf : isInitial commit.transition = true → Keeps (Healthy P) (commitUdpFenced commit) := by
    intro hin
    refine bind ensureResolved_keeps fun _ => bind lift_keeps fun _ => ?_
    split
    · exact onFlows_keeps (hs.refusal commit (by simp))
    refine bind (onFlows_keeps (hs.lookup _)) fun current => ?_
    cases current with
    | none => exact onFlows_keeps (hs.refusal commit (by simp))
    | some captured =>
      exact withRetirementFences_keeps (hs.fenced commit captured.incarnation hin ‹_›)
  unfold commitUdpDecision
  split
  · rename_i mark ht
    have ha : isInitial commit.transition = false := by
      rw [ht]
      rfl
    refine bind ensureResolved_keeps fun _ => bind lift_keeps fun _ => ?_
    split
    · exact onFlows_keeps (hs.refusal commit (by simp))
    · exact onFlows_keeps (hs.activated commit ha ‹_›)
  rename_i hn
  refine hf ?_
  cases ht : commit.transition with
  | activateDirect mark => exact absurd ht (hn mark)
  | _ => rfl

theorem captureIncarnation_ensures (commit : UdpDecisionCommit) (h : Healthy P backend) :
    (captureIncarnation commit).Ensures backend (Returns
      (fun _ after => Healthy P after ∧ isInitial commit.transition = true) fun _ after => Healthy P after) := by
  refine Ensures.bind (Q := fun _ after => Healthy P after) (R := fun _ after => Healthy P after) ?_ ?_ fun _ _ h => h
  · refine Ensures.mono (lift_keeps backend h) ?_
    rintro (e | ⟨⟩) after ha
    · exact ha
    · exact ha
  intro _ s₁ h₁
  refine Ensures.bind (Q := fun _ after => Healthy P after ∧ isInitial commit.transition = true)
    (R := fun _ after => Healthy P after) (ensures_ensure (fun hp => ⟨h₁, hp⟩) fun _ => h₁) ?_ fun _ _ h => h
  rintro _ s₂ ⟨h₂, hin⟩
  have hr : Keeps (Healthy P) (do
      ensure (commit.key.padding = Vector.replicate 3 0 ∧ commit.key.l4proto = Packet.ipprotoUdp) .noncanonicalCommit
      if commit.token = 0 then return none
      else do
        let current ← onFlows (lookupConn commit.key)
        return current.map fun state => state.incarnation : BackendProgram (Option (BitVec 64))) := by
    refine bind keeps_ensure fun _ => ?_
    split
    · exact keeps_pure _
    · exact bind (onFlows_keeps (hs.lookup _)) fun _ => keeps_pure _
  refine Ensures.mono (hr s₂ h₂) ?_
  rintro (e | captured) after ha
  · exact ha
  · exact ⟨ha, hin⟩

theorem capture_ensures (requests : List UdpDecisionCommit) (backend : Backend) (h : Healthy P backend) :
    (requests.mapM captureIncarnation).Ensures backend (Returns
      (fun _ after => Healthy P after ∧ ∀ request ∈ requests, isInitial request.transition = true)
      fun _ after => Healthy P after) := by
  induction requests generalizing backend with
  | nil => exact ensures_pure ⟨h, by simp⟩
  | cons request rest ih =>
    rw [mapM_cons]
    refine Ensures.bind (captureIncarnation_ensures hs request h) ?_ fun _ _ h => h
    rintro _ s₁ ⟨h₁, hin⟩
    refine Ensures.bind (ih s₁ h₁) ?_ fun _ _ h => h
    rintro _ s₂ ⟨h₂, hr⟩
    exact ensures_pure ⟨h₂, by simpa using ⟨hin, hr⟩⟩

theorem commitUdpDecisions_keeps (requests : List UdpDecisionCommit) (visits : ℕ → Visit) :
    Keeps (Healthy P) (commitUdpDecisions requests visits) := by
  refine bind keeps_ensure fun _ => bind ensureResolved_keeps fun _ backend hh => ?_
  refine Ensures.bind (capture_ensures hs requests backend hh) ?_ fun _ _ h => h
  rintro captured after ⟨ha, hin⟩
  have ho : Keeps P ((requests.zip captured).zipIdx.forM fun entry => visitCommit (visits entry.2) entry.1.1 entry.1.2) := by
    refine keeps_forM fun entry he => visitCommit_keeps hs (hin _ ?_)
    have hm := mem_of_getElem? (mem_zipIdx_iff_getElem?.mp he)
    exact (of_mem_zip hm).1
  dsimp only
  split
  · exact onFlows_keeps ho after ha
  · exact withRetirementFences_keeps ho after ha

theorem retireFlows_keeps (requests : List RetireRequest) : Keeps (Healthy P) (retireFlows requests) := by
  refine bind (keeps_modify fun backend h => h.flows_of (hs.started _ h.flows)) fun _ =>
    bind keeps_ensure fun _ => bind ensureResolved_keeps fun _ => ?_
  split
  · exact keeps_pure _
  refine bind (keeps_mapM fun request _ => lift_keeps) fun tokens => bind ?_ fun _ => bind keeps_get fun _ => keeps_pure _
  exact withRetirementFences_keeps (keeps_forM fun request _ => hs.retired request)

end

theorem Call.run_keeps (call : Call) (hs : Stable P) : Keeps (Healthy P) call.run := by
  cases call with
  | barrier => exact graceBarrier_keeps
  | commit request => exact bind (commitUdpDecision_keeps hs request) fun _ => keeps_pure _
  | batch requests visits => exact commitUdpDecisions_keeps hs requests visits
  | retire requests => exact bind (retireFlows_keeps hs requests) fun _ => keeps_pure _
  | adopt binding tuples =>
    exact bind (bind ensureResolved_keeps fun _ => onFlows_keeps (adoptChecked_keeps hs binding tuples)) fun _ => keeps_pure _

theorem Healthy.call (hs : Stable P) (h : Healthy P backend) (call : Call) (answers : List Answer)
    (refusals : List Bool) : Healthy P (backend.act (.call call answers refusals)) :=
  call.run_keeps hs _ (h.answering hs answers refusals)

theorem Backend.Reachable.healthy (h : backend.Reachable) : Healthy Sound backend := by
  obtain ⟨actions, rfl⟩ := h
  refine List.foldlRecOn actions act (healthy_empty sound_empty) fun _ hh action _ => ?_
  cases action with
  | stage staging => exact hh.flows_of (stageUdpDecision_sound staging hh.flows)
  | call call answers refusals => exact hh.call stable_sound call answers refusals

structure Refused {T : Type} (before : Backend) (result : Except BackendError T) (after : Backend) : Prop where
  error : ∃ e, result = .error e
  failed : after.retirementFailed = true
  maps : after.flows.toMaps = before.flows.toMaps
  fences : after.fences = before.fences
  active : after.retireActive = before.retireActive
  events : after.events = before.events

variable {T : Type} {start : Backend}

theorem Refused.self (h : backend.retirementFailed = true) (e : BackendError) :
    Refused backend (.error e : Except BackendError T) backend := ⟨⟨e, rfl⟩, h, rfl, rfl, rfl, rfl⟩

theorem ensureResolved_refused (h : ∀ e, Refused start (.error e : Except BackendError T) backend) {rest : Unit → BackendProgram T} : (ensureResolved >>= rest).Ensures backend (Refused start) := by
  refine Ensures.bind (ensureResolved_ensures backend) ?_ ?_
  · rintro _ _ ⟨-, hr⟩
    rw [(h .ownershipUnresolved).failed] at hr
    cases hr
  · rintro e _ ⟨-, rfl, -⟩
    exact h e

theorem ensure_refused {p : Prop} [Decidable p] {e : BackendError} {rest : Unit → BackendProgram T}
    (h : ∀ e, Refused start (.error e : Except BackendError T) backend)
    (hr : (rest ()).Ensures backend (Refused start)) : (ensure p e >>= rest).Ensures backend (Refused start) := by
  refine Ensures.bind (Q := fun _ after => backend = after) (R := fun _ after => backend = after)
    (ensures_ensure (fun _ => rfl) fun _ => rfl) ?_ ?_
  · rintro _ _ rfl
    exact hr
  · rintro e _ rfl
    exact h e

theorem ignore_refused (h : m.Ensures backend (Refused backend)) : (ignore m).Ensures backend (Refused backend) := by
  refine Ensures.bind (Q := fun _ _ => False) (R := fun e after => Refused backend (.error e : Except BackendError Unit) after)
    (Ensures.mono h ?_) (fun _ _ => False.elim) fun _ _ h => h
  rintro (e | value) after hr
  · exact ⟨⟨e, rfl⟩, hr.2, hr.3, hr.4, hr.5, hr.6⟩
  · obtain ⟨e, he⟩ := hr.error
    cases he

theorem Call.run_refused (call : Call) (h : backend.retirementFailed = true) : call.run.Ensures backend (Refused backend) := by
  cases call with
  | barrier => exact ensureResolved_refused (Refused.self h)
  | commit request =>
    refine ignore_refused ?_
    unfold commitUdpDecision
    split
    · exact ensureResolved_refused (Refused.self h)
    · exact ensureResolved_refused (Refused.self h)
  | batch requests visits => exact ensure_refused (Refused.self h) (ensureResolved_refused (Refused.self h))
  | retire requests =>
    have hs : ∀ e, Refused backend (.error e : Except BackendError RetireCounts) backend.startBatch := fun e =>
      ⟨⟨e, rfl⟩, h, rfl, rfl, rfl, rfl⟩
    refine ignore_refused (Ensures.bind (Q := fun _ after => after = backend.startBatch) (R := fun _ _ => False)
      (ensures_modify rfl) ?_ fun _ _ => False.elim)
    rintro _ _ rfl
    exact ensure_refused hs (ensureResolved_refused hs)
  | adopt binding tuples => exact ignore_refused (ensureResolved_refused (Refused.self h))

structure Moment where
  flows : Flows
  action : Action

def Backend.meet (backend : Backend) (moment : Moment) : Backend := { backend with flows := moment.flows }.act moment.action

def Backend.Served (backend : Backend) : Prop := ∃ moments : List Moment, backend = moments.foldl meet {}

theorem Backend.Served.healthy (h : backend.Served) : Healthy (fun _ => True) backend := by
  obtain ⟨moments, rfl⟩ := h
  refine List.foldlRecOn moments meet (healthy_empty trivial) fun current hh moment _ => ?_
  obtain ⟨flows, action⟩ := moment
  have hf : Healthy (fun _ => True) { current with flows := flows } := hh.flows_of trivial
  cases action with
  | stage staging => exact hf.flows_of trivial
  | call call answers refusals => exact hf.call stable_true call answers refusals

theorem failed_of_moments (moments : List Moment) (h : backend.retirementFailed = true) :
    (moments.foldl meet backend).retirementFailed = true := by
  induction moments generalizing backend with
  | nil => exact h
  | cons moment moments ih =>
    refine ih ?_
    obtain ⟨flows, action⟩ := moment
    cases action with
    | stage staging => exact h
    | call call answers refusals =>
      have ha : ({ backend with flows := flows }.answering answers refusals).retirementFailed = true := h
      exact (call.run_refused ha).failed

def Backend.Closed (backend : Backend) : Prop :=
  ∀ (moments : List Moment) (flows : Flows) (call : Call) (answers : List Answer) (refusals : List Bool),
    call.run.Ensures ({ moments.foldl meet backend with flows := flows }.answering answers refusals)
      (Refused ({ moments.foldl meet backend with flows := flows }.answering answers refusals))

theorem closed_of_failed (h : backend.retirementFailed = true) : backend.Closed :=
  fun moments _ call _ _ => call.run_refused (failed_of_moments moments h)

/-- What a call of the protocol guarantees after any history: the fences that stand when the operation starts,
the order of barrier and insertions, a fresh owner, and either a clean return or a backend that is closed. -/
theorem withRetirementFences_safe {backend : Backend} (h : backend.Served) (flows : Flows)
    (refusals : List Bool) (keys : List (TuplesKey × BitVec 32)) (operation : FlowProgram T) :
    (withRetirementFences keys operation).Ensures { backend with flows := flows, refusals := refusals }
      fun result after => ∃ new, after.events = new ++ backend.events ∧
        (∀ later fences earlier, new = later ++ .operation fences :: earlier →
          (∀ entry ∈ keys, ∃ token, fences entry.1 = some ⟨after.retirementOwner, token⟩) ∧
            ∃ insertions, earlier = .barrier :: insertions) ∧
        (∀ key fence, .inserted key fence ∈ new → fence.owner = after.retirementOwner) ∧
        (∀ key fence, .inserted key fence ∈ backend.events → ∀ key' fence', .inserted key' fence' ∈ new →
          fence.owner ≠ fence'.owner) ∧
        ((∀ key, after.fences key = none) ∧ after.retireActive = 0 ∨ after.retirementFailed = true ∧ after.Closed) ∧
        ∀ value, result = .ok value → (operation.exec flows).1 = .ok value ∧ ∀ key, after.fences key = none := by
  have hh := h.healthy
  have hcl : ({ backend with flows := flows, refusals := refusals } : Backend).retirementFailed = true ∨
      Clear { backend with flows := flows, refusals := refusals } :=
    hh.closed.imp_right fun hc => ⟨hc.failed, hc.active, hc.fences⟩
  refine Ensures.mono (withRetirementFences_protocol keys operation hcl) ?_
  rintro result after ⟨new, hpr⟩
  refine ⟨new, hpr.events, fun later fences earlier hn => ?_, fun key fence hm => (hpr.inserted key fence hm).1,
    fun key fence hold key' fence' hn he => ?_, ?_, fun value hv => ?_⟩
  · obtain ⟨hhe, -, hb⟩ := hpr.ran later fences earlier hn
    exact ⟨hhe, hb⟩
  · have hl := hh.owners key fence hold
    have hlt : backend.retirementOwner.toNat < fence'.owner.toNat := (hpr.inserted key' fence' hn).2
    rw [he] at hl
    exact absurd hl (Nat.not_le.mpr hlt)
  · rcases hpr.closed with hf | hc
    · exact .inr ⟨hf, closed_of_failed hf⟩
    · exact .inl ⟨hc.fences, hc.active⟩
  · obtain ⟨ho, hc⟩ := hpr.ok value hv
    exact ⟨ho, hc.fences⟩

theorem withRetirementFences_safe_duplicate : ∃ backend : Backend, backend.Served ∧ backend.retirementOwner = 1 ∧
    (∀ key, ((withRetirementFences [({}, 7), ({}, 9)] (pure 5 : FlowProgram ℕ)).exec
      { backend with flows := {}, refusals := [] }).2.fences key = none) ∧
    ((withRetirementFences [({}, 7), ({}, 9)] (pure 5 : FlowProgram ℕ)).exec
      { backend with flows := {}, refusals := [] }).1 = .ok 5 := by
  let moment : Moment := ⟨{}, .call (.retire [⟨{ l4proto := Packet.ipprotoUdp }, .udp 7 none true⟩]) [] [false, false, true]⟩
  have hs : (({} : Backend).meet moment).Served := ⟨[moment], rfl⟩
  have ho : ((withRetirementFences [({}, 7), ({}, 9)] (pure 5 : FlowProgram ℕ)).exec
      { ({} : Backend).meet moment with flows := {}, refusals := [] }).1 = .ok 5 := by decide +kernel
  refine ⟨_, hs, by decide +kernel, ?_, ho⟩
  obtain ⟨new, -, -, -, -, -, hr⟩ := withRetirementFences_safe hs {} [] [({}, 7), ({}, 9)] (pure 5 : FlowProgram ℕ)
  exact (hr 5 ho).2

variable {commit : UdpDecisionCommit} {captured : Option (BitVec 64)} {flows after : Flows}
  {reply : UdpDecisionCommitResult} {m : FlowProgram UdpDecisionCommitResult}

theorem CommitEffect.reports (h : CommitEffect commit captured flows result after) : after.reports = flows.reports := by
  cases h with
  | unchanged hs _ =>
    obtain ⟨answers, rfl⟩ := hs
    rfl
  | torn _ _ _ ht | applied _ _ _ _ _ ht => exact ht.reports

def Tells (commit : UdpDecisionCommit) (before : Flows) (reply : UdpDecisionCommitResult) (after : Flows) : Prop :=
  ∃ captured, after.reports = ⟨commit, captured, reply, before.toMaps, after.toMaps⟩ :: before.reports ∧
    ∀ i, captured = some i → ∃ state, before.conn commit.key = some state ∧ state.incarnation = i

theorem Tells.of_sameMaps (h : Tells commit s reply after) (hs : SameMaps before s) : Tells commit before reply after := by
  obtain ⟨answers, rfl⟩ := hs
  exact h

theorem reported_tells (h : m.Ensures flows (CommitEffect commit captured flows))
    (hc : ∀ i, captured = some i → ∃ state, flows.conn commit.key = some state ∧ state.incarnation = i) :
    (reported commit captured m).Ensures flows (Returns (Tells commit flows) fun _ _ => True) := by
  have hr := CommitEffect.reports h
  unfold Ensures reported
  rw [exec_ofExec]
  generalize m.exec flows = outcome at hr ⊢
  obtain ⟨result, after⟩ := outcome
  cases result with
  | ok reply => exact ⟨captured, congrArg (_ :: ·) hr, hc⟩
  | error e => trivial

theorem refusal_tells (commit : UdpDecisionCommit) (h : reply ≠ .applied) : (reported commit none (pure reply)).Ensures flows
      (Returns (Tells commit flows) fun _ _ => True) :=
  reported_tells (.unchanged ⟨flows.answers, rfl⟩ (by simpa using h)) (by simp)

theorem onFlows_tells (h : m.Ensures backend.flows (Returns (Tells commit backend.flows) fun _ _ => True)) :
    (onFlows m).Ensures backend (Returns (fun reply after => Tells commit backend.flows reply after.flows) fun _ _ => True) := by
  refine ensures_zoom (Ensures.mono h ?_)
  rintro (e | reply) flows ht
  · trivial
  · exact ht

theorem lift_ensures (backend : Backend) : (lift value).Ensures backend (Returns (fun _ after => backend = after) fun _ _ => True) := by
  cases value with
  | ok value => rfl
  | error e => trivial

theorem lookupConn_ensures (key : TuplesKey) (backend : Backend) : (onFlows (lookupConn key)).Ensures backend
    (Returns (fun current after => current = backend.flows.conn key ∧
      ∃ flows, SameMaps backend.flows flows ∧ { backend with flows := flows } = after) fun _ _ => True) := by
  refine ensures_zoom (Ensures.mono (lookup_ensures _ backend.flows) ?_)
  rintro (e | current) flows h
  · trivial
  · exact ⟨h.1, flows, h.2, rfl⟩

theorem commitUdpFenced_tells (hin : isInitial commit.transition = true) (h : backend.retirementFailed = true ∨ Clear backend) :
    (commitUdpFenced commit).Ensures backend
      (Returns (fun reply after => Tells commit backend.flows reply after.flows) fun _ _ => True) := by
  refine Ensures.bind (ensureResolved_ensures backend) ?_ fun _ _ _ => trivial
  rintro _ _ ⟨rfl, -⟩
  refine Ensures.bind (lift_ensures backend) ?_ fun _ _ _ => trivial
  rintro _ _ rfl
  split
  · exact onFlows_tells (refusal_tells commit (by simp))
  refine Ensures.bind (lookupConn_ensures commit.key backend) ?_ fun _ _ _ => trivial
  rintro _ _ ⟨rfl, flows, hsa, rfl⟩
  split
  · refine Ensures.mono (onFlows_tells (refusal_tells commit (by simp))) ?_
    rintro (e | reply) after ht
    · trivial
    · exact Tells.of_sameMaps ht hsa
  rename_i state hs
  have hcl : ({ backend with flows := flows } : Backend).retirementFailed = true ∨ Clear { backend with flows := flows } :=
    h.imp_right fun hc => ⟨hc.failed, hc.active, hc.fences⟩
  refine Ensures.mono (withRetirementFences_protocol _ _ hcl) ?_
  rintro (e | reply) after ⟨new, hpr⟩
  · trivial
  have hco : flows.conn commit.key = some state := by
    obtain ⟨answers, rfl⟩ := hsa
    exact hs
  have ht := reported_tells (commitUdpChecked_effect commit state.incarnation flows hin) (by
    rintro i ⟨⟩
    exact ⟨state, hco, rfl⟩)
  have hf : after.flows = ((reported commit (some state.incarnation) (commitUdpChecked commit state.incarnation)).exec flows).2 :=
    hpr.flows.resolve_left (by simp)
  unfold Ensures at ht
  rw [(hpr.ok reply rfl).1, ← hf] at ht
  exact Tells.of_sameMaps ht hsa

theorem commitUdpDecision_tells (commit : UdpDecisionCommit)
    (h : backend.retirementFailed = true ∨ Clear backend) : (commitUdpDecision commit).Ensures backend
      (Returns (fun reply after => Tells commit backend.flows reply after.flows) fun _ _ => True) := by
  unfold commitUdpDecision
  split
  · rename_i mark ht
    refine Ensures.bind (ensureResolved_ensures backend) ?_ fun _ _ _ => trivial
    rintro _ _ ⟨rfl, -⟩
    refine Ensures.bind (lift_ensures backend) ?_ fun _ _ _ => trivial
    rintro _ _ rfl
    split
    · exact onFlows_tells (refusal_tells commit (by simp))
    · exact onFlows_tells (reported_tells (activateChecked_effect commit _ (by rw [ht]; rfl)) (by simp))
  rename_i hn
  refine commitUdpFenced_tells ?_ h
  cases ht : commit.transition with
  | activateDirect mark => exact absurd ht (hn mark)
  | _ => rfl

/-- Over every history: reports keep their word, each reply of a commit is such a report, an activation comes
after an arming with its mark, and what a commit decided shows in the auxiliary entries. -/
theorem udp_commits_sound (h : backend.Reachable) : (∀ report ∈ backend.flows.reports, ReportSpec report) ∧
      (∀ commit answers refusals, (commitUdpDecision commit).Ensures (backend.answering answers refusals)
        (Returns (fun reply after => Tells commit backend.flows reply after.flows) fun _ _ => True)) ∧
      (∀ later report earlier, backend.flows.reports = later ++ report :: earlier → ∀ key token mark,
        Activates report key token mark → ∃ arming ∈ earlier, Arms arming key token mark) ∧
      ∀ key state, backend.flows.conn key = some state →
        (state.routingMeta &&& routingMetaFlagOffload ≠ 0 → state.state = UdpDecisionState.none.code ∧
          ∃ report ∈ backend.flows.reports, Activates report key state.decisionToken (markOf state.routingMeta)) ∧
        (state.state ∈ bareStates → backend.flows.handoff key = none ∧ backend.flows.redirect (fromTuples key) = none) ∧
        (state.state = UdpDecisionState.proxy.code → (∃ track, backend.flows.redirect (fromTuples key) = some track ∧
            track.outbound = outboundOf state.routingMeta ∧ track.incarnation = state.incarnation) ∨
          backend.flows.redirect (fromTuples key) = none ∧ ∃ track, Gone (.redirect (fromTuples key) track) backend.flows.removals ∧
              track.outbound = outboundOf state.routingMeta ∧ track.incarnation = state.incarnation) := by
  have hh := h.healthy
  refine ⟨fun report hm => ?_, fun commit answers refusals => ?_, fun later report earlier hs => ?_, fun key state hst => ?_⟩
  · obtain ⟨later, earlier, hs⟩ := append_of_mem hm
    exact (hh.flows.reports.split hs).1
  · have ha := hh.answering stable_sound answers refusals
    exact commitUdpDecision_tells commit ha.closed
  · exact (hh.flows.reports.split hs).2
  · obtain ⟨-, hb, hpr, -, ho⟩ := hh.flows.conn key state hst
    exact ⟨ho, hb, hpr⟩

def sampleKey : TuplesKey := { srcPort := 4000, dstPort := 53, l4proto := Packet.ipprotoUdp }

def sampleStaging : Staging where
  key := sampleKey
  padding := rfl
  incarnation := 5
  token := some 7
  nowNs := 0
  smac := Vector.replicate 6 1
  dmac := Vector.replicate 6 2
  ifindex := 3
  outbound := 2
  mark := 0
  dscp := 0
  routingGeneration := 1
  traceId := 0
  refusesRedirect := false
  refusesHandoff := false
  refusesPublish := false

def sampleActions : List Action :=
  [.stage sampleStaging, .call (.commit ⟨sampleKey, 7, .activateProxy 4 0⟩) [] [],
    .call (.retire [⟨sampleKey, .expiredRedirect { sampleStaging.redirect 7 with outbound := 4 } 1⟩]) [] []]

theorem proxy_without_redirect_and_torn_commit :
    (∃ backend : Backend, backend.Reachable ∧ ∃ key state, backend.flows.conn key = some state ∧
      state.state = UdpDecisionState.proxy.code ∧ backend.flows.redirect (fromTuples key) = none) ∧
    ∃ backend : Backend, backend.Reachable ∧ ∃ commit answers,
      (((commitUdpDecision commit).exec (backend.answering answers [])).1 = .error .syscall) ∧
        (backend.flows.handoff commit.key).isSome = true ∧
        ((commitUdpDecision commit).exec (backend.answering answers [])).2.flows.handoff commit.key = none := by
  refine ⟨⟨_, ⟨sampleActions, rfl⟩, sampleKey, ?_⟩, _, ⟨[.stage sampleStaging], rfl⟩, ⟨sampleKey, 7, .block⟩,
    [.done, .done, .done, .done, .done, .failed], by decide +kernel, by decide +kernel, by decide +kernel⟩
  have hso : ((sampleActions.foldl act {}).flows.conn sampleKey).any
      (fun state => state.state == UdpDecisionState.proxy.code) = true := by decide +kernel
  obtain ⟨state, hs, hpr⟩ := (Option.any_eq_true _ _).mp hso
  exact ⟨state, hs, by simpa using hpr, by decide +kernel⟩

theorem udp_commits_sound_sampleActions : ∃ state, (sampleActions.foldl act {}).flows.conn sampleKey = some state ∧
      (sampleActions.foldl act {}).flows.redirect (fromTuples sampleKey) = none ∧
      ∃ track, Gone (.redirect (fromTuples sampleKey) track)
        (sampleActions.foldl act {}).flows.removals ∧ track.outbound = outboundOf state.routingMeta := by
  have hso : ((sampleActions.foldl act {}).flows.conn sampleKey).any
      (fun state => state.state == UdpDecisionState.proxy.code) = true := by decide +kernel
  have hn : (sampleActions.foldl act {}).flows.redirect (fromTuples sampleKey) = none := by decide +kernel
  obtain ⟨state, hs, hpr⟩ := (Option.any_eq_true _ _).mp hso
  refine ⟨state, hs, hn, ?_⟩
  obtain ⟨-, -, -, hf⟩ := udp_commits_sound ⟨sampleActions, rfl⟩
  rcases (hf sampleKey state hs).2.2 (by simpa using hpr) with ⟨track, ht, -⟩ | ⟨-, track, hg, ho, -⟩
  · rw [hn] at ht
    cases ht
  · exact ⟨track, hg, ho⟩

end Honk.Conntrack
