import Honk.Conntrack.Decision
import Honk.Lib.Interleaving

namespace Honk.Conntrack

open Honk.Lib Honk.Routing Honk.Nfqueue Function BitVec RedirectTuple
open List hiding Vector

def outboundControlPlaneRouting : Byte := 0xfd

structure Staging where
  key : TuplesKey
  padding : key.padding = Vector.replicate 3 0
  incarnation : BitVec 64
  token : Option (BitVec 32)
  nowNs : BitVec 64
  smac : Vector Byte 6
  dmac : Vector Byte 6
  ifindex : BitVec 32
  outbound : Byte
  mark : BitVec 32
  dscp : Byte
  routingGeneration : BitVec 64
  traceId : BitVec 32
  refusesRedirect : Bool
  refusesHandoff : Bool
  refusesPublish : Bool

namespace Staging

variable (staging : Staging)

def preparing : ConnState :=
  { state := UdpDecisionState.preparing.code, incarnation := staging.incarnation, lastSeenNs := staging.nowNs,
    mac := staging.smac }

variable (token : BitVec 32)

def aborted : ConnState :=
  { staging.preparing with state := UdpDecisionState.aborted.code, decisionToken := token }

def pending : ConnState :=
  { state := UdpDecisionState.pending.code, decisionToken := token, incarnation := staging.incarnation,
    lastSeenNs := staging.nowNs, routingMeta := buildRoutingMeta staging.outbound staging.mark 0 staging.dscp,
    mac := staging.smac, traceId := staging.traceId }

def redirect : RedirectEntry :=
  { lastSeenNs := staging.nowNs, dmac := staging.dmac, smac := staging.smac, outbound := outboundControlPlaneRouting,
    ifindex := staging.ifindex, decisionToken := token, incarnation := staging.incarnation }

def handoff : RoutingHandoffEntry :=
  { lastSeenNs := staging.nowNs
    result :=
      { mark := staging.mark, mac := staging.smac, outbound := staging.outbound, dscp := staging.dscp, decisionToken := token }
    routingGeneration := staging.routingGeneration, traceId := staging.traceId, incarnation := staging.incarnation }

end Staging

-- The claim is an insertion that another entry refuses; both auxiliaries come before the pending state, and
-- what was inserted stays behind an abort.
def stageUdpDecision (staging : Staging) (flows : Flows) : Flows :=
  let key := staging.key
  let trackKey := fromTuples key
  if (flows.conn key).isSome then flows
  else
    match staging.token with
    | none => flows.put (.conn key (staging.aborted 0))
    | some token =>
      if (flows.redirect trackKey).isSome || staging.refusesRedirect then
        flows.put (.conn key (staging.aborted token))
      else
        let tracked := flows.put (.redirect trackKey (staging.redirect token))
        if (flows.handoff key).isSome || staging.refusesHandoff then tracked.put (.conn key (staging.aborted token))
        else
          let handed := tracked.put (.handoff key (staging.handoff token))
          if staging.refusesPublish then handed.put (.conn key (staging.aborted token))
          else handed.put (.conn key (staging.pending token))

inductive Call where
  | barrier
  | commit (request : UdpDecisionCommit)
  | batch (requests : List UdpDecisionCommit) (visits : ℕ → Visit)
  | retire (requests : List RetireRequest)
  | adopt (binding : Option TcpSocketBinding) (tuples : TuplesKey)

def ignore {T : Type} (m : BackendProgram T) : BackendProgram Unit := do
  let _ ← m
  pure ()

def Call.run : Call → BackendProgram Unit
  | .barrier => graceBarrier
  | .commit request => ignore (commitUdpDecision request)
  | .batch requests visits => commitUdpDecisions requests visits
  | .retire requests => ignore (retireFlows requests)
  | .adopt binding tuples => ignore (adoptTcp binding tuples)

variable (backend : Backend)

def Backend.answering (answers : List Answer) (refusals : List Bool) : Backend :=
  { backend with flows := { backend.flows with answers := answers }, refusals := refusals }

inductive Action where
  | stage (staging : Staging)
  | call (call : Call) (answers : List Answer) (refusals : List Bool)

def Backend.act : Action → Backend
  | .stage staging => { backend with flows := stageUdpDecision staging backend.flows }
  | .call call answers refusals => (call.run.exec (backend.answering answers refusals)).2

def Backend.Reachable : Prop := ∃ actions : List Action, backend = actions.foldl Backend.act {}

structure ReportSpec (report : CommitReport) : Prop where
  refused : report.result ≠ .applied → report.after = report.before
  applied : report.result = .applied → report.commit.token ≠ 0 ∧ ∃ state next,
    report.before.conn report.commit.key = some state ∧ state.decisionToken = report.commit.token ∧
      (∀ i, report.captured = some i → state.incarnation = i) ∧
      (isInitial report.commit.transition = true → report.captured ≠ none) ∧
      Decided report.commit.transition state next ∧
      report.after.conn = Function.update report.before.conn report.commit.key (some next) ∧
      (∀ other ≠ report.commit.key, report.after.handoff other = report.before.handoff other) ∧
      ∀ other ≠ fromTuples report.commit.key, report.after.redirect other = report.before.redirect other

variable (report : CommitReport)

def Arms (key : TuplesKey) (token mark : BitVec 32) : Prop :=
  report.commit = ⟨key, token, .armDirect mark⟩ ∧ report.result = .applied

def Activates (key : TuplesKey) (token mark : BitVec 32) : Prop :=
  report.commit = ⟨key, token, .activateDirect mark⟩ ∧ report.result = .applied

def Reported (earlier : List CommitReport) : Prop :=
  ReportSpec report ∧ ∀ key token mark, Activates report key token mark → ∃ arming ∈ earlier, Arms arming key token mark

def Gone (entry : Entry) (removals : List Removal) : Prop := .deleted entry ∈ removals ∨ .vanished entry ∈ removals

def bareStates : List Byte := [UdpDecisionState.directArmed, .none, .block].map UdpDecisionState.code

structure SoundAt (flows : Flows) (reports : List CommitReport) (key : TuplesKey) (state : ConnState) : Prop where
  padding : key.padding = Vector.replicate 3 0
  bare : state.state ∈ bareStates → flows.handoff key = none ∧ flows.redirect (fromTuples key) = none
  proxy : state.state = UdpDecisionState.proxy.code → (∃ track, flows.redirect (fromTuples key) = some track ∧
      track.outbound = outboundOf state.routingMeta ∧ track.incarnation = state.incarnation) ∨
    flows.redirect (fromTuples key) = none ∧
      ∃ track, Gone (.redirect (fromTuples key) track) flows.removals ∧
        track.outbound = outboundOf state.routingMeta ∧ track.incarnation = state.incarnation
  armed : state.state = UdpDecisionState.directArmed.code →
    ∃ report ∈ reports, Arms report key state.decisionToken (markOf state.routingMeta)
  offloaded : state.routingMeta &&& routingMetaFlagOffload ≠ 0 → state.state = UdpDecisionState.none.code ∧
    ∃ report ∈ reports, Activates report key state.decisionToken (markOf state.routingMeta)

structure Sound (flows : Flows) : Prop where
  reports : Always Reported flows.reports
  conn : ∀ key state, flows.conn key = some state → SoundAt flows flows.reports key state

theorem sound_empty : Sound {} := ⟨trivial, by rintro key state ⟨⟩⟩

theorem Gone.mono (h : Gone entry removals) (log : List Removal) : Gone entry (log ++ removals) :=
  h.imp (mem_append_right log) (mem_append_right log)

theorem Accounts.sound {flows after : Flows} {log : List Removal} (h : Accounts flows after log) (hso : Sound flows) : Sound after := by
  have hc : ∀ {key state}, after.conn key = some state → flows.conn key = some state := by
    intro key state hs
    have hge : after.get (.conn key) = some (.conn key state) := by simp [Flows.get, hs]
    rcases h.only (.conn key) with he | hn
    · simpa [Flows.get] using he.symm.trans hge
    · rw [hn] at hge
      cases hge
  have hh : ∀ {key}, flows.handoff key = none → after.handoff key = none := by
    intro key hn
    rcases h.only (.handoff key) with he | hg
    · simpa [Flows.get, hn] using he
    · simpa [Flows.get] using hg
  have hr : ∀ {key}, flows.redirect key = none → after.redirect key = none := by
    intro key hn
    rcases h.only (.redirect key) with he | hg
    · simpa [Flows.get, hn] using he
    · simpa [Flows.get] using hg
  refine ⟨h.reports ▸ hso.reports, fun key state hs => ?_⟩
  rw [h.reports]
  have ha := hso.conn key state (hc hs)
  refine ⟨ha.padding, fun hb => ?_, fun hpr => ?_, ha.armed, ha.offloaded⟩
  · exact ⟨hh (ha.bare hb).1, hr (ha.bare hb).2⟩
  rcases ha.proxy hpr with ⟨track, ht, ho, hin⟩ | ⟨hn, track, hg, ho, hin⟩
  · have hge : flows.get (.redirect (fromTuples key)) = some (.redirect (fromTuples key) track) := by simp [Flows.get, ht]
    rcases h.only (.redirect (fromTuples key)) with he | hg
    · exact .inl ⟨track, by simpa [Flows.get, ht] using he, ho, hin⟩
    refine .inr ⟨by simpa [Flows.get] using hg, track, ?_, ho, hin⟩
    rcases h.held _ _ hge with hsa | hl
    · rw [hg] at hsa
      cases hsa
    · rw [h.removals]
      exact hl.imp (mem_append_left _) (mem_append_left _)
  · exact .inr ⟨hr hn, track, h.removals ▸ hg.mono log, ho, hin⟩

theorem Touched.other {key other : TuplesKey} {flows after : Flows} (h : Touched key flows after) (hn : other ≠ key)
    (hk : key.padding = Vector.replicate 3 0) (ho : other.padding = Vector.replicate 3 0) :
    after.handoff other = flows.handoff other ∧ after.redirect (fromTuples other) = flows.redirect (fromTuples other) :=
  ⟨h.handoff other hn, h.redirect _ fun he => hn (fromTuples_injective ho hk he)⟩

theorem SoundAt.touched {key other : TuplesKey} {flows after : Flows} {state : ConnState} {reports : List CommitReport}
    (h : SoundAt flows flows.reports other state) (ht : Touched key flows after) (hne : other ≠ key)
    (hk : key.padding = Vector.replicate 3 0) (hr : ∀ report ∈ flows.reports, report ∈ reports) :
    SoundAt after reports other state := by
  obtain ⟨hh, hre⟩ := ht.other hne hk h.padding
  obtain ⟨log, hl⟩ := ht.removals
  refine ⟨h.padding, fun hb => ?_, fun hpr => ?_, fun ha => ?_, fun ho => ?_⟩
  · rw [hh, hre]
    exact h.bare hb
  · rw [hre]
    refine (h.proxy hpr).imp_right fun ⟨hn, track, hg, hid⟩ => ⟨hn, track, ?_, hid⟩
    rw [hl]
    exact hg.mono log
  · obtain ⟨report, hm, har⟩ := h.armed ha
    exact ⟨report, hr report hm, har⟩
  · obtain ⟨hs, report, hm, hac⟩ := h.offloaded ho
    exact ⟨hs, report, hr report hm, hac⟩

theorem pending_ne_bare : UdpDecisionState.pending.code ∉ bareStates := by decide

theorem proxy_ne_bare : UdpDecisionState.proxy.code ∉ bareStates := by decide

theorem sound_torn {flows after : Flows} {key : TuplesKey} {state : ConnState} (hs : Sound flows)
    (hst : flows.conn key = some state) (hpe : state.state = UdpDecisionState.pending.code)
    (hco : after.conn = flows.conn) (ht : Touched key flows after) : Sound after := by
  have hk := (hs.conn key state hst).padding
  refine ⟨ht.reports ▸ hs.reports, fun other current hc => ?_⟩
  rw [hco] at hc
  have ha := hs.conn other current hc
  rw [ht.reports]
  by_cases hn : other = key
  · subst hn
    obtain rfl : state = current := Option.some.inj (hst.symm.trans hc)
    refine ⟨hk, fun hb => ?_, fun hpr => ?_, ha.armed, ha.offloaded⟩
    · rw [hpe] at hb
      exact absurd hb pending_ne_bare
    · rw [hpe] at hpr
      cases hpr
  · exact ha.touched ht hn hk fun _ h => h

theorem sound_refused {flows after : Flows} (hs : Sound flows) (hsa : SameMaps flows after)
    {report : CommitReport} (hr : report.result ≠ .applied) (hm : report.after = report.before) :
    Sound { after with reports := report :: after.reports } := by
  obtain ⟨answers, rfl⟩ := hsa
  refine ⟨⟨⟨⟨fun _ => hm, fun hap => absurd hap hr⟩, fun _ _ _ ha => ?_⟩, hs.reports⟩, fun key state hst => ?_⟩
  · exact absurd ha.2 hr
  obtain ⟨hpa, hb, hpr, har, ho⟩ := hs.conn key state hst
  refine ⟨hpa, hb, hpr, fun h => ?_, fun h => ?_⟩
  · obtain ⟨arming, hme, harms⟩ := har h
    exact ⟨arming, mem_cons_of_mem _ hme, harms⟩
  · obtain ⟨hn, activation, hme, ha⟩ := ho h
    exact ⟨hn, activation, mem_cons_of_mem _ hme, ha⟩

theorem not_initial (h : isInitial transition = false) : ∃ mark, transition = .activateDirect mark := by
  cases transition with
  | activateDirect mark => exact ⟨mark, rfl⟩
  | _ => cases h

theorem moves_to_proxy (h : (moves transition).2.code = UdpDecisionState.proxy.code) :
    ∃ outbound mark, transition = .activateProxy outbound mark := by
  cases transition with
  | activateProxy outbound mark => exact ⟨outbound, mark, rfl⟩
  | _ => cases code_injective h

theorem moves_to_armed (h : (moves transition).2.code = UdpDecisionState.directArmed.code) : ∃ mark, transition = .armDirect mark := by
  cases transition with
  | armDirect mark => exact ⟨mark, rfl⟩
  | _ => cases code_injective h

variable {commit : UdpDecisionCommit} {captured : Option (BitVec 64)} {flows after : Flows} {state next : ConnState}

theorem reported_applied (hso : Sound flows) (hs : flows.conn commit.key = some state)
    (ht : state.decisionToken = commit.token) (hn : commit.token ≠ 0) (hc : ∀ i, captured = some i → state.incarnation = i)
    (hf : isInitial commit.transition = true → captured ≠ none) (hd : Decided commit.transition state next)
    (hco : after.conn = Function.update flows.conn commit.key (some next)) (hto : Touched commit.key flows after) :
    Reported ⟨commit, captured, .applied, flows.toMaps, after.toMaps⟩ flows.reports := by
  refine ⟨⟨fun hne => absurd rfl hne, fun _ => ⟨hn, state, next, hs, ht, hc, hf, hd, hco, hto.handoff, hto.redirect⟩⟩, ?_⟩
  rintro key token mark ⟨he, -⟩
  obtain rfl : commit = ⟨key, token, .activateDirect mark⟩ := he
  have ha := (hso.conn key state hs).armed hd.source
  rwa [ht, hd.armed mark rfl] at ha

theorem soundAt_applied (hk : commit.key.padding = Vector.replicate 3 0) (ht : state.decisionToken = commit.token)
    (hd : Decided commit.transition state next) (hh : after.handoff commit.key = none)
    (hpr : ∀ outbound mark, commit.transition = .activateProxy outbound mark →
      ∃ track, after.redirect (fromTuples commit.key) = some track ∧ track.outbound = outbound ∧
        track.incarnation = next.incarnation) (hr : (∀ outbound mark, commit.transition ≠ .activateProxy outbound mark) →
      after.redirect (fromTuples commit.key) = none) :
    SoundAt after (⟨commit, captured, .applied, before, after.toMaps⟩ :: reports) commit.key next := by
  obtain ⟨key, token, transition⟩ := commit
  have ht' : next.decisionToken = token := hd.identity.2.trans ht
  have hta := hd.target
  refine ⟨hk, fun hb => ⟨hh, hr ?_⟩, fun hp => .inl ?_, fun ha => ?_, fun ho => ?_⟩
  · rintro outbound mark rfl
    rw [hta] at hb
    exact proxy_ne_bare hb
  · obtain ⟨outbound, mark, rfl⟩ := moves_to_proxy (hta.symm.trans hp)
    obtain ⟨track, htr, hou, hin⟩ := hpr outbound mark rfl
    exact ⟨track, htr, hou.trans hd.outbound.symm, hin⟩
  · obtain ⟨mark, rfl⟩ := moves_to_armed (hta.symm.trans ha)
    refine ⟨_, mem_cons_self .., ?_, rfl⟩
    rw [ht', hd.mark]
    rfl
  obtain ⟨mark, rfl⟩ := not_initial (hd.offload.mp ho)
  refine ⟨hta, _, mem_cons_self .., ?_, rfl⟩
  rw [ht', hd.mark]
  rfl

theorem CommitEffect.sound {result : Except BackendError UdpDecisionCommitResult} (h : CommitEffect commit captured flows result after)
    (hs : Sound flows) (hn : result = .ok .applied → commit.token ≠ 0) (hf : isInitial commit.transition = true → captured ≠ none) :
    Sound (recorded commit captured flows.toMaps result after) := by
  cases h with
  | unchanged hsa hr =>
    cases result with
    | error e => exact hsa.accounts.sound hs
    | ok reply =>
      refine sound_refused hs hsa (fun he => hr (congrArg Except.ok he)) ?_
      obtain ⟨answers, rfl⟩ := hsa
      rfl
  | torn hst hpe hco ht => exact sound_torn hs hst hpe hco ht
  | @applied state next _ hst hto hca hd hco ht hh hpr hre =>
    have hk := (hs.conn _ _ hst).padding
    refine ⟨⟨?_, ht.reports ▸ hs.reports⟩, fun other current hc => ?_⟩
    · rw [ht.reports]
      exact reported_applied hs hst hto (hn rfl) hca hf hd hco ht
    have hc' : Function.update flows.conn commit.key (some next) other = some current := hco ▸ hc
    by_cases hne : other = commit.key
    · subst hne
      rw [update_self] at hc'
      cases hc'
      have ha : SoundAt after (⟨commit, captured, .applied, flows.toMaps, after.toMaps⟩ :: after.reports) commit.key next :=
        soundAt_applied hk hto hd hh hpr hre
      exact ⟨ha.padding, ha.bare, ha.proxy, ha.armed, ha.offloaded⟩
    rw [update_of_ne hne] at hc'
    have ha : SoundAt after (⟨commit, captured, .applied, flows.toMaps, after.toMaps⟩ :: after.reports) other current :=
      (hs.conn other current hc').touched ht hne hk fun report hm => mem_cons_of_mem _ (ht.reports ▸ hm)
    exact ⟨ha.padding, ha.bare, ha.proxy, ha.armed, ha.offloaded⟩

section

open Program (Keeps keeps_pure keeps_throw keeps_ensure keeps_forM keeps_mapM keeps_get keeps_modify)

theorem Sound.congr (h : Sound flows) (hm : after.toMaps = flows.toMaps)
    (hremovals : after.removals = flows.removals) (hr : after.reports = flows.reports) : Sound after := by
  have hc : after.conn = flows.conn := congrArg Maps.conn hm
  have hh : after.handoff = flows.handoff := congrArg Maps.handoff hm
  have hre := congrArg Maps.redirect hm
  refine ⟨hr ▸ h.reports, fun key state hs => ?_⟩
  obtain ⟨hpa, hb, hpr, ha, ho⟩ := h.conn key state (hc ▸ hs)
  rw [← hh, ← hre] at hb
  rw [← hre, ← hremovals] at hpr
  rw [hr]
  exact ⟨hpa, hb, hpr, ha, ho⟩

theorem reported_keeps {m : FlowProgram UdpDecisionCommitResult} (h : ∀ flows, m.Ensures flows (CommitEffect commit captured flows))
    (hn : commit.token ≠ 0) (hf : isInitial commit.transition = true → captured ≠ none) :
    Keeps Sound (reported commit captured m) :=
  fun flows hs => CommitEffect.sound (h flows) hs (fun _ => hn) hf

theorem reported_refusal_keeps (commit : UdpDecisionCommit) {reply : UdpDecisionCommitResult} (h : reply ≠ .applied) :
    Keeps Sound (reported commit none (pure reply)) :=
  fun flows hs => sound_refused hs ⟨flows.answers, rfl⟩ h rfl

theorem lookup_keeps {V : Type} (read : Flows → Option V) : Keeps Sound (flowLookup read) := by
  intro flows hs
  refine Program.Ensures.mono (lookup_ensures read flows) ?_
  rintro (e | value) after h
  · exact h.accounts.sound hs
  · exact h.2.accounts.sound hs

theorem retireNext_keeps (request : RetireRequest) : Keeps Sound (retireNext request) := by
  refine Keeps.bind (fun flows hs => ?_) fun outcome => keeps_modify fun flows hs => hs.congr rfl rfl rfl
  refine Program.Ensures.mono (retireOne_exact request flows) ?_
  rintro result after ⟨log, he⟩
  exact he.accounts.sound hs

theorem buildRoutingMeta_offload : buildRoutingMeta outbound mark must dscp &&& routingMetaFlagOffload = 0 := by
  refine eq_of_getLsbD_eq fun i _ => ?_
  rw [getLsbD_and, getLsbD_offloadFlag]
  by_cases hi : i = 57
  · subst hi
    simp [buildRoutingMeta]
  · simp [hi]

theorem sound_staged {key : TuplesKey} (hs : Sound flows) (hk : key.padding = Vector.replicate 3 0) (ht : Touched key flows after)
    (hco : after.conn = Function.update flows.conn key (some state))
    (hst : state.state = UdpDecisionState.pending.code ∨ state.state = UdpDecisionState.aborted.code)
    (hm : state.routingMeta &&& routingMetaFlagOffload = 0) : Sound after := by
  refine ⟨ht.reports ▸ hs.reports, fun other current hc => ?_⟩
  rw [hco] at hc
  rw [ht.reports]
  by_cases hn : other = key
  · subst hn
    rw [update_self] at hc
    cases hc
    have hpl : state.state ∉ bareStates ∧ state.state ≠ UdpDecisionState.proxy.code ∧ state.state ≠ UdpDecisionState.directArmed.code := by
      rcases hst with h | h
      · rw [h]
        decide
      · rw [h]
        decide
    exact ⟨hk, fun h => absurd h hpl.1, fun h => absurd h hpl.2.1, fun h => absurd h hpl.2.2, fun h => absurd hm h⟩
  · rw [update_of_ne hn] at hc
    exact (hs.conn other current hc).touched ht hn hk fun _ h => h

theorem touched_put (h : Touched key flows s) (he : entry.slot ∈ key.slots) : Touched key flows (s.put entry) := by
  refine h.trans ?_
  cases entry with
  | handoff at' value =>
    obtain rfl : at' = key := by simpa [Entry.slot, TuplesKey.slots] using he
    exact ⟨fun other hn => update_of_ne hn .., fun _ _ => rfl, ⟨[], rfl⟩, rfl⟩
  | redirect at' value =>
    obtain rfl : at' = fromTuples key := by simpa [Entry.slot, TuplesKey.slots] using he
    exact ⟨fun _ _ => rfl, fun other hn => update_of_ne hn .., ⟨[], rfl⟩, rfl⟩
  | conn at' value => exact ⟨fun _ _ => rfl, fun _ _ => rfl, ⟨[], rfl⟩, rfl⟩

theorem stageUdpDecision_sound (staging : Staging) (hs : Sound flows) : Sound (stageUdpDecision staging flows) := by
  have hse : Touched staging.key flows flows := .of_sameMaps ⟨flows.answers, rfl⟩
  have ha : ∀ (s : Flows) (token : BitVec 32), Touched staging.key flows s → s.conn = flows.conn →
      Sound (s.put (.conn staging.key (staging.aborted token))) := by
    intro s token hto hc
    exact sound_staged hs staging.padding (touched_put hto (by simp [Entry.slot, TuplesKey.slots]))
      (by rw [← hc]; rfl) (.inr rfl) (zero_and ..)
  unfold stageUdpDecision
  dsimp only
  split
  · exact hs
  cases staging.token with
  | none => exact ha flows 0 hse rfl
  | some token =>
    have ht : Touched staging.key flows (flows.put (.redirect (fromTuples staging.key) (staging.redirect token))) :=
      touched_put hse (by simp [Entry.slot, TuplesKey.slots])
    have hh : Touched staging.key flows ((flows.put (.redirect (fromTuples staging.key) (staging.redirect token))).put
          (.handoff staging.key (staging.handoff token))) :=
      touched_put ht (by simp [Entry.slot, TuplesKey.slots])
    dsimp only
    split
    · exact ha flows token hse rfl
    split
    · exact ha _ token ht rfl
    split
    · exact ha _ token hh rfl
    · exact sound_staged hs staging.padding (touched_put hh (by simp [Entry.slot, TuplesKey.slots])) rfl
        (.inl rfl) (buildRoutingMeta_offload ..)

end

end Honk.Conntrack
