import Honk.Conntrack.Flow
import Honk.Packet.Transport

namespace Honk.Conntrack

open Honk.Lib Honk.Routing Honk.Nfqueue List Program RedirectTuple
open Honk.Packet (ipprotoTcp ipprotoUdp)

def tcpConnStateEstablishedTimeoutNs : ℕ := 120000000000
def tcpConnStateClosingTimeoutNs : ℕ := 10000000000
def udpConnStateTimeoutNs : ℕ := 120000000000
def routingHandoffTimeoutNs : ℕ := 30000000000
def redirectTrackTimeoutNs : ℕ := 120000000000

inductive RetireKind where
  | tcp (incarnation : BitVec 64)
  | udp (token : BitVec 32) (incarnation : Option (BitVec 64)) (pendingOnly : Bool)
  | expiredConn (expected : ConnState) (expiredBeforeNs : BitVec 64)
  | expiredRedirect (expected : RedirectEntry) (expiredBeforeNs : BitVec 64)
  | expiredHandoff (expected : RoutingHandoffEntry) (expiredBeforeNs : BitVec 64)
  | expiryHint (incarnation nowNs : BitVec 64)

structure RetireRequest where
  key : TuplesKey
  kind : RetireKind

structure OwnerReads where
  conn : Bool
  handoff : Bool
  redirect : Bool

def RetireKind.ownerReads : RetireKind → OwnerReads
  | .expiredRedirect .. => ⟨false, false, true⟩
  | .expiredHandoff .. => ⟨false, true, false⟩
  | .tcp .. | .udp .. | .expiredConn .. | .expiryHint .. => ⟨true, true, true⟩

def RetireKind.isUdp : RetireKind → Bool
  | .udp .. => true
  | _ => false

def connMatches (a b : ConnState) (cutoff : BitVec 64) : Bool :=
  a.lastSeenNs ≤ cutoff && a.lastSeenNs == b.lastSeenNs && a.incarnation == b.incarnation && a.state == b.state &&
    a.decisionToken == b.decisionToken && a.isWanIngressDirection == b.isWanIngressDirection &&
    a.routingMeta == b.routingMeta && a.mac == b.mac && a.pname == b.pname && a.pid == b.pid && a.traceId == b.traceId

def redirectMatches (a b : RedirectEntry) (cutoff : BitVec 64) : Bool :=
  a.lastSeenNs ≤ cutoff && a.lastSeenNs == b.lastSeenNs && a.incarnation == b.incarnation &&
    a.decisionToken == b.decisionToken && a.dmac == b.dmac && a.smac == b.smac && a.fromWan == b.fromWan &&
    a.outbound == b.outbound && a.ifindex == b.ifindex

def handoffMatches (a b : RoutingHandoffEntry) (cutoff : BitVec 64) : Bool :=
  let x := a.result
  let y := b.result
  a.lastSeenNs ≤ cutoff && a.lastSeenNs == b.lastSeenNs && a.incarnation == b.incarnation &&
    a.routingGeneration == b.routingGeneration && a.traceId == b.traceId && x.mark == y.mark && x.must == y.must &&
    x.mac == y.mac && x.outbound == y.outbound && x.pname == y.pname && x.pid == y.pid && x.dscp == y.dscp &&
    x.decisionToken == y.decisionToken

def connStateTimeoutNs (proto : Byte) (state : ConnState) : ℕ :=
  if proto = ipprotoUdp then
    if state.state = UdpDecisionState.aborted.code then 0 else udpConnStateTimeoutNs
  else if state.state = tcpStateClosing then tcpConnStateClosingTimeoutNs
  else tcpConnStateEstablishedTimeoutNs

def connExpired (proto : Byte) (state : ConnState) (nowNs : BitVec 64) : Bool :=
  let timeout := connStateTimeoutNs proto state
  timeout == 0 || decide (timeout < nowNs.toNat - state.lastSeenNs.toNat)

def udpStateIsUserspaceOwned (state : Byte) : Bool :=
  state == UdpDecisionState.preparing.code || state == UdpDecisionState.pending.code ||
    state == UdpDecisionState.aborted.code || state == UdpDecisionState.proxy.code

def udpStateIsStaged (state : Byte) : Bool :=
  state == UdpDecisionState.preparing.code || state == UdpDecisionState.pending.code || state == UdpDecisionState.aborted.code

def udpStateIsLegacyUserspaceOwned (state : ConnState) : Bool :=
  if state.decisionToken != 0 || state.state != UdpDecisionState.none.code then false
  else
    let raw := state.routingMeta
    if raw &&& routingMetaFlagPublished == 0 || raw &&& routingMetaFlagOffload != 0 then false
    else
      let outbound : Byte := raw.setWidth 8
      let must := (raw >>> 40) &&& 1 != 0
      outbound != outboundBlock && (outbound != outboundDirect || !must || raw &&& routingMetaFlagWanUserspace != 0)

def validateConnRetirement (state : ConnState) (proto : Byte) : RetireKind → Except UdpDecisionCommitResult Unit
  | .tcp incarnation => if state.incarnation ≠ incarnation then .error .superseded else .ok ()
  | .udp token incarnation pendingOnly =>
    if state.decisionToken ≠ token ∨ incarnation.any (· != state.incarnation) then
      .error (if pendingOnly then .tokenMismatch else .superseded)
    else if pendingOnly then
      if !udpStateIsStaged state.state then .error .stateMismatch else .ok ()
    else if token ≠ 0 then
      if !udpStateIsUserspaceOwned state.state then .error .stateMismatch else .ok ()
    else if !udpStateIsLegacyUserspaceOwned state &&
        !(state.state == UdpDecisionState.aborted.code && incarnation == some state.incarnation) then
      .error .superseded
    else .ok ()
  | .expiredConn expected expiredBeforeNs =>
    let cutoff := if proto = ipprotoUdp ∧ state.state = UdpDecisionState.aborted.code then BitVec.allOnes 64 else expiredBeforeNs
    if !connMatches state expected cutoff then .error .superseded else .ok ()
  | .expiryHint incarnation nowNs =>
    if state.incarnation ≠ incarnation then .error .superseded
    else if !connExpired proto state nowNs then .error .stateMismatch
    else .ok ()
  -- An auxiliary retirement has no conn owner: the planner never asks.
  | .expiredRedirect .. | .expiredHandoff .. => .error .stateMismatch

def auxiliariesMatch (incarnation : BitVec 64) (token : BitVec 32) (handoff : Option RoutingHandoffEntry)
    (track : Option RedirectEntry) : Bool :=
  handoff.all (fun entry => entry.incarnation == incarnation && entry.result.decisionToken == token) &&
    track.all fun entry => entry.incarnation == incarnation && entry.decisionToken == token

structure Owners where
  conn : Option ConnState
  handoff : Option RoutingHandoffEntry
  redirect : Option RedirectEntry

structure RetirePlan where
  handoff : Bool := false
  redirect : Bool := false
  conn : Bool := false
  -- The outcome when the deciding removal finds its entry gone.
  unchanged : UdpDecisionCommitResult

def RetirePlan.outcome (plan : RetirePlan) (removed : RetireCounts) : RetireOutcome :=
  if plan.conn && removed.conn != 0 then .connRetired
  else if !plan.conn && removed.handoff + removed.redirect != 0 then .done .applied
  else .done plan.unchanged

def expiryHintAuxiliaryPlan (incarnation nowNs : BitVec 64) (owners : Owners) : Except UdpDecisionCommitResult RetirePlan :=
  let unchanged : UdpDecisionCommitResult :=
    if owners.conn.isNone && owners.handoff.isNone && owners.redirect.isNone then .missing else .stateMismatch
  let handoff := owners.handoff.filter fun entry => entry.incarnation == incarnation
  let track := owners.redirect.filter fun entry => entry.incarnation == incarnation
  let token := ((owners.conn.map fun state => state.decisionToken).or
    (handoff.map fun entry => entry.result.decisionToken)).or (track.map fun entry => entry.decisionToken)
  if token.any fun token => !auxiliariesMatch incarnation token handoff track then .error .tokenMismatch
  else .ok
    { handoff := handoff.any fun entry => routingHandoffTimeoutNs < nowNs.toNat - entry.lastSeenNs.toNat
      redirect := track.any fun entry => redirectTrackTimeoutNs < nowNs.toNat - entry.lastSeenNs.toNat
      unchanged }

section

variable (request : RetireRequest)

def connPlan (owners : Owners) : Except UdpDecisionCommitResult RetirePlan :=
  match owners.conn with
  | none => .error .missing
  | some state =>
    match validateConnRetirement state request.key.l4proto request.kind with
    | .error result => .error result
    | .ok () =>
      if !auxiliariesMatch state.incarnation state.decisionToken owners.handoff owners.redirect then
        .error .tokenMismatch
      else .ok
        { handoff := owners.handoff.isSome, redirect := owners.redirect.isSome, conn := true, unchanged := .missing }

def planRetirement (owners : Owners) : Except UdpDecisionCommitResult RetirePlan :=
  match request.kind with
  | .expiredRedirect expected expiredBeforeNs =>
    match owners.redirect with
    | none => .error .missing
    | some current =>
      if redirectMatches current expected expiredBeforeNs then .ok { redirect := true, unchanged := .applied }
      else .error .superseded
  | .expiredHandoff expected expiredBeforeNs =>
    match owners.handoff with
    | none => .error .missing
    | some current =>
      if handoffMatches current expected expiredBeforeNs then .ok { handoff := true, unchanged := .applied }
      else .error .superseded
  | .expiryHint incarnation nowNs =>
    match connPlan request owners with
    | .error .missing | .error .stateMismatch => expiryHintAuxiliaryPlan incarnation nowNs owners
    | plan => plan
  | .tcp .. | .udp .. | .expiredConn .. => connPlan request owners

def lookupIf {V : Type} (wanted : Bool) (lookup : FlowProgram (Option V)) : FlowProgram (Option V) :=
  if wanted then lookup else pure none

def readOwners : FlowProgram Owners := do
  let conn ← lookupIf request.kind.ownerReads.conn (lookupConn request.key)
  let handoff ← lookupIf request.kind.ownerReads.handoff (lookupHandoff request.key)
  let redirect ← lookupIf request.kind.ownerReads.redirect (lookupRedirect (fromTuples request.key))
  return ⟨conn, handoff, redirect⟩

def removeIf (wanted : Bool) (slot : Slot) : FlowProgram Unit :=
  if wanted then do
    let removed ← hashRemovePresent slot
    modify fun flows => flows.counted removed.toNat slot
  else pure ()

def executePlan (key : TuplesKey) (plan : RetirePlan) : FlowProgram RetireOutcome := do
  let before ← get
  removeIf plan.handoff (.handoff key)
  removeIf plan.redirect (.redirect (fromTuples key))
  removeIf plan.conn (.conn key)
  let after ← get
  return plan.outcome (after.counts.since before.counts)

def retireOne : FlowProgram RetireOutcome := do
  let owners ← readOwners request
  match planRetirement request owners with
  | .error result => return .done result
  | .ok plan =>
    ensure (plan.conn ∧ request.kind.isUdp → owners.conn.any fun state => state.incarnation != 0)
      .connHasNoLifetime
    executePlan request.key plan

end

section

def RetireKind.Names (incarnation : BitVec 64) (token : BitVec 32) : RetireKind → Prop
  | .tcp named => incarnation = named
  | .udp namedToken named _ => token = namedToken ∧ ∀ i, named = some i → incarnation = i
  | .expiredConn expected _ => incarnation = expected.incarnation ∧ token = expected.decisionToken
  | .expiredRedirect expected _ => incarnation = expected.incarnation ∧ token = expected.decisionToken
  | .expiredHandoff expected _ => incarnation = expected.incarnation ∧ token = expected.result.decisionToken
  | .expiryHint named _ => incarnation = named

def RetireKind.Entitled (proto : Byte) (state : ConnState) : RetireKind → Prop
  | .tcp _ => True
  | .udp _ _ true => state.state ∈ [UdpDecisionState.preparing, .pending, .aborted].map UdpDecisionState.code
  | .udp token incarnation false =>
    if token ≠ 0 then
      state.state ∈ [UdpDecisionState.preparing, .pending, .aborted, .proxy].map UdpDecisionState.code
    else udpStateIsLegacyUserspaceOwned state = true ∨
      state.state = UdpDecisionState.aborted.code ∧ incarnation = some state.incarnation
  | .expiredConn expected expiredBeforeNs =>
    state = { expected with tcpSynFlags := state.tcpSynFlags, tcpSynIsn := state.tcpSynIsn } ∧
      (state.lastSeenNs ≤ expiredBeforeNs ∨ proto = ipprotoUdp ∧ state.state = UdpDecisionState.aborted.code)
  | .expiryHint _ nowNs => connExpired proto state nowNs = true
  | .expiredRedirect .. | .expiredHandoff .. => False

structure Authorizes (request : RetireRequest) (owners : Owners) (plan : RetirePlan) (incarnation : BitVec 64)
    (token : BitVec 32) : Prop where
  names : request.kind.Names incarnation token
  handoff : plan.handoff = true →
    ∃ entry, owners.handoff = some entry ∧ entry.incarnation = incarnation ∧ entry.result.decisionToken = token
  redirect : plan.redirect = true →
    ∃ entry, owners.redirect = some entry ∧ entry.incarnation = incarnation ∧ entry.decisionToken = token
  conn : plan.conn = true → ∃ state, owners.conn = some state ∧ state.incarnation = incarnation ∧ state.decisionToken = token ∧
      request.kind.Entitled request.key.l4proto state
  together : plan.conn = true → plan.handoff = owners.handoff.isSome ∧ plan.redirect = owners.redirect.isSome
  reads : plan.conn = true → request.kind.ownerReads.handoff = true ∧ request.kind.ownerReads.redirect = true

variable {incarnation : BitVec 64} {token : BitVec 32} {request : RetireRequest} {owners : Owners} {plan : RetirePlan}

theorem auxiliariesMatch_handoff (h : auxiliariesMatch incarnation token (some entry) track = true) :
    entry.incarnation = incarnation ∧ entry.result.decisionToken = token := by
  simpa using (Bool.and_eq_true_iff.mp h).1

theorem auxiliariesMatch_redirect (h : auxiliariesMatch incarnation token handoff (some entry) = true) :
    entry.incarnation = incarnation ∧ entry.decisionToken = token := by
  simpa using (Bool.and_eq_true_iff.mp h).2

theorem connMatches_iff : connMatches a b cutoff = true ↔
      a.lastSeenNs ≤ cutoff ∧ a = { b with tcpSynFlags := a.tcpSynFlags, tcpSynIsn := a.tcpSynIsn } := by
  cases a
  cases b
  simp [connMatches]
  grind

theorem udpStateIsStaged_iff : udpStateIsStaged state = true ↔
    state ∈ [UdpDecisionState.preparing, .pending, .aborted].map UdpDecisionState.code := by
  simp [udpStateIsStaged, or_assoc]

theorem udpStateIsUserspaceOwned_iff : udpStateIsUserspaceOwned state = true ↔
    state ∈ [UdpDecisionState.preparing, .pending, .aborted, .proxy].map UdpDecisionState.code := by
  simp [udpStateIsUserspaceOwned, or_assoc]

theorem validateConnRetirement_ok (h : validateConnRetirement state proto kind = .ok ()) :
    kind.Names state.incarnation state.decisionToken ∧ kind.Entitled proto state := by
  have hudp : ∀ {token incarnation pendingOnly}, ¬(state.decisionToken ≠ token ∨ incarnation.any (· != state.incarnation)) →
      (RetireKind.udp token incarnation pendingOnly).Names state.incarnation state.decisionToken := by
    intro token incarnation pendingOnly hid
    obtain ⟨ht, hso⟩ := not_or.mp hid
    refine ⟨not_not.mp ht, ?_⟩
    rintro i rfl
    rw [Option.any_some, bne_iff_ne, not_not] at hso
    exact hso.symm
  revert h
  fun_cases validateConnRetirement state proto kind with
  | case2 incarnation hi => exact fun _ => ⟨not_not.mp hi, trivial⟩
  | case5 token incarnation hid hs => exact fun _ => ⟨hudp hid, udpStateIsStaged_iff.mp (by simpa using hs)⟩
  | case7 token incarnation pendingOnly hid hp ht ho =>
    obtain rfl := Bool.eq_false_of_not_eq_true hp
    refine fun _ => ⟨hudp hid, ?_⟩
    rw [RetireKind.Entitled, if_pos ht]
    exact udpStateIsUserspaceOwned_iff.mp (by simpa using ho)
  | case9 token incarnation pendingOnly hid hp ht ho =>
    obtain rfl := Bool.eq_false_of_not_eq_true hp
    refine fun _ => ⟨hudp hid, ?_⟩
    rw [RetireKind.Entitled, if_neg ht]
    by_cases hl : udpStateIsLegacyUserspaceOwned state = true
    · exact .inl hl
    · simpa [hl] using ho
  | case11 expected expiredBeforeNs cutoff hm =>
    obtain ⟨hc, heq⟩ := connMatches_iff.mp (by simpa using hm)
    refine fun _ => ⟨⟨by rw [heq], by rw [heq]⟩, heq, ?_⟩
    dsimp only [cutoff] at hc
    split at hc
    · exact .inr ‹_›
    · exact .inl hc
  | case14 incarnation nowNs hi he => exact fun _ => ⟨not_not.mp hi, by simpa [RetireKind.Entitled] using he⟩
  | _ => exact nofun

theorem connPlan_authorizes (h : connPlan request owners = .ok plan) :
    ∃ incarnation token, Authorizes request owners plan incarnation token := by
  obtain ⟨conn, handoff, redirect⟩ := owners
  cases conn with
  | none => cases h
  | some state =>
    simp only [connPlan] at h
    split at h
    · cases h
    rename_i hv
    split at h
    · cases h
    rename_i ha
    rw [Bool.not_eq_true', Bool.not_eq_false] at ha
    cases h
    obtain ⟨hn, he⟩ := validateConnRetirement_ok hv
    refine ⟨state.incarnation, state.decisionToken, hn, fun hs => ?_, fun hs => ?_,
      fun _ => ⟨state, rfl, rfl, rfl, he⟩, fun _ => ⟨rfl, rfl⟩, fun _ => ?_⟩
    · obtain ⟨entry, rfl⟩ := Option.isSome_iff_exists.mp hs
      exact ⟨entry, rfl, auxiliariesMatch_handoff ha⟩
    · obtain ⟨entry, rfl⟩ := Option.isSome_iff_exists.mp hs
      exact ⟨entry, rfl, auxiliariesMatch_redirect ha⟩
    generalize request.kind = kind at he
    cases kind with
    | expiredRedirect | expiredHandoff => exact he.elim
    | _ => exact ⟨rfl, rfl⟩

-- The two entries of the hint's incarnation share a token even when no conn entry gives one: the first
-- of them that is there does.
theorem expiryHintAuxiliaryPlan_authorizes (hk : request.kind = .expiryHint incarnation nowNs)
    (h : expiryHintAuxiliaryPlan incarnation nowNs owners = .ok plan) :
    ∃ token, Authorizes request owners plan incarnation token := by
  simp only [expiryHintAuxiliaryPlan] at h
  generalize ht : ((owners.conn.map fun state => state.decisionToken).or _).or _ = token at h
  split at h
  · cases h
  rename_i hm
  cases h
  have hn : ∀ token, request.kind.Names incarnation token := by
    intro token
    rw [hk]
    rfl
  cases token with
  | none =>
    simp only [Option.or_eq_none_iff, Option.map_eq_none_iff] at ht
    refine ⟨0, hn 0, fun hp => ?_, fun hp => ?_, (by cases ·), (by cases ·), (by cases ·)⟩
    · simp [ht.1.2] at hp
    · simp [ht.2] at hp
  | some token =>
    rw [Option.any_some, Bool.not_eq_true', Bool.not_eq_false] at hm
    refine ⟨token, hn token, fun hp => ?_, fun hp => ?_, (by cases ·), (by cases ·), (by cases ·)⟩
    · obtain ⟨entry, he, -⟩ := (Option.any_eq_true _ _).mp hp
      rw [he] at hm
      exact ⟨entry, (Option.filter_eq_some_iff.mp he).1, auxiliariesMatch_handoff hm⟩
    obtain ⟨entry, he, -⟩ := (Option.any_eq_true _ _).mp hp
    rw [he] at hm
    exact ⟨entry, (Option.filter_eq_some_iff.mp he).1, auxiliariesMatch_redirect hm⟩

theorem planRetirement_authorizes (h : planRetirement request owners = .ok plan) :
    ∃ incarnation token, Authorizes request owners plan incarnation token := by
  obtain ⟨key, kind⟩ := request
  cases kind with
  | expiredRedirect expected expiredBeforeNs =>
    simp only [planRetirement] at h
    split at h
    · cases h
    rename_i current hc
    split_ifs at h with hm
    cases h
    simp only [redirectMatches, Bool.and_eq_true, beq_iff_eq] at hm
    exact ⟨expected.incarnation, expected.decisionToken, ⟨rfl, rfl⟩, nofun, fun _ => ⟨current, hc, by tauto⟩, nofun, nofun, nofun⟩
  | expiredHandoff expected expiredBeforeNs =>
    simp only [planRetirement] at h
    split at h
    · cases h
    rename_i current hc
    split_ifs at h with hm
    cases h
    simp only [handoffMatches, Bool.and_eq_true, beq_iff_eq] at hm
    exact ⟨expected.incarnation, expected.result.decisionToken, ⟨rfl, rfl⟩, fun _ => ⟨current, hc, by tauto⟩, nofun, nofun, nofun, nofun⟩
  | expiryHint incarnation nowNs =>
    simp only [planRetirement] at h
    split at h
    · exact ⟨incarnation, expiryHintAuxiliaryPlan_authorizes rfl h⟩
    · exact ⟨incarnation, expiryHintAuxiliaryPlan_authorizes rfl h⟩
    · exact connPlan_authorizes h
  | tcp incarnation | udp token incarnation pendingOnly | expiredConn expected expiredBeforeNs => exact connPlan_authorizes h

end

variable {log : List Removal} {removed : ℕ}

section

def Settles (present : Option Entry) (removed : ℕ) (log : List Removal) : Prop :=
  log = present.toList.map .deleted ∧ removed = present.toList.length ∨ log = present.toList.map .vanished ∧ removed = 0

theorem Settles.absent : Settles none 0 [] := .inl ⟨rfl, rfl⟩

variable {present : Option Entry}

section

variable (h : Settles present removed log)
include h

theorem Settles.deleted (hm : .deleted entry ∈ log) : present = some entry ∧ removed = 1 := by
  rcases h with ⟨rfl, rfl⟩ | ⟨rfl, rfl⟩
  · cases present with
    | none => simp at hm
    | some e => simpa [eq_comm] using hm
  · simp at hm

theorem Settles.mem (hp : present = some entry) : .deleted entry ∈ log ∨ .vanished entry ∈ log := by
  subst hp
  rcases h with ⟨rfl, -⟩ | ⟨rfl, -⟩
  · simp
  · simp

theorem Settles.of_ne_zero (hr : removed ≠ 0) : ∃ entry, .deleted entry ∈ log := by
  rcases h with ⟨rfl, rfl⟩ | ⟨rfl, rfl⟩
  · cases present with
    | none => exact absurd rfl hr
    | some e => exact ⟨e, by simp⟩
  · exact absurd rfl hr

end

variable {flows before after : Flows} {request : RetireRequest} {result : Except BackendError RetireOutcome}

theorem ensures_flowLookup {V : Type} {read : Flows → Option V} {Φ : Except BackendError (Option V) → Flows → Prop}
    (he : Φ (.error .syscall) flows.answered) (ho : Φ (.ok (read flows)) flows.answered) : (flowLookup read).Ensures flows Φ := by
  unfold flowLookup Ensures
  rw [exec_ofExec]
  dsimp only
  split
  · exact he
  · exact ho

def SameMaps (before after : Flows) : Prop := ∃ answers, after = { before with answers := answers }

theorem SameMaps.answered (h : SameMaps before after) : SameMaps before after.answered := by
  obtain ⟨answers, rfl⟩ := h
  exact ⟨answers.tail, rfl⟩

def Flows.owners (flows : Flows) (request : RetireRequest) : Owners :=
  let reads := request.kind.ownerReads
  ⟨if reads.conn then flows.conn request.key else none, if reads.handoff then flows.handoff request.key else none,
    if reads.redirect then flows.redirect (fromTuples request.key) else none⟩

theorem ensures_lookupIf {V : Type} {wanted : Bool} {read : Flows → Option V} (hs : SameMaps before flows)
    (hr : ∀ flows, SameMaps before flows → read flows = read before) :
    (lookupIf wanted (flowLookup read)).Ensures flows
      (Returns (fun v after => v = (if wanted then read before else none) ∧ SameMaps before after)
        fun _ after => SameMaps before after) := by
  cases wanted with
  | true => exact ensures_flowLookup hs.answered ⟨hr flows hs, hs.answered⟩
  | false => exact ensures_pure ⟨rfl, hs⟩

theorem readOwners_ensures (request : RetireRequest) (flows : Flows) : (readOwners request).Ensures flows
      (Returns (fun owners after => owners = flows.owners request ∧ SameMaps flows after) fun _ after => SameMaps flows after) := by
  have hs : SameMaps flows flows := ⟨flows.answers, rfl⟩
  refine Ensures.bind (ensures_lookupIf hs ?_) (fun conn s₁ h₁ => ?_) fun _ _ h => h
  · rintro _ ⟨answers, rfl⟩
    rfl
  refine Ensures.bind (ensures_lookupIf h₁.2 ?_) (fun handoff s₂ h₂ => ?_) fun _ _ h => h
  · rintro _ ⟨answers, rfl⟩
    rfl
  refine Ensures.bind (ensures_lookupIf h₂.2 ?_) (fun redirect s₃ h₃ => ?_) fun _ _ h => h
  · rintro _ ⟨answers, rfl⟩
    rfl
  exact ensures_pure ⟨by rw [h₁.1, h₂.1, h₃.1]; rfl, h₃.2⟩

structure Accounts (before after : Flows) (log : List Removal) : Prop where
  removals : after.removals = log ++ before.removals
  held : ∀ slot entry, before.get slot = some entry → after.get slot = some entry ∨ .deleted entry ∈ log ∨ .vanished entry ∈ log
  only : ∀ slot, after.get slot = before.get slot ∨ after.get slot = none
  reports : after.reports = before.reports

theorem SameMaps.accounts (h : SameMaps before after) : Accounts before after [] := by
  obtain ⟨answers, rfl⟩ := h
  refine ⟨rfl, fun slot entry he => .inl ?_, fun slot => .inl ?_, rfl⟩
  · cases slot <;> exact he
  · cases slot <;> rfl

theorem Accounts.trans (h : Accounts before s log) (hne : Accounts s after new) : Accounts before after (new ++ log) := by
  refine ⟨by rw [hne.removals, h.removals, append_assoc], fun slot entry he => ?_, fun slot => ?_,
    hne.reports.trans h.reports⟩
  · simp only [mem_append]
    rcases h.held slot entry he with hs | hs | hs
    · exact (hne.held slot entry hs).imp_right (Or.imp .inl .inl)
    · exact .inr (.inl (.inr hs))
    · exact .inr (.inr (.inr hs))
  rcases hne.only slot with hsa | hn
  · rw [hsa]
    exact h.only slot
  · exact .inr hn

structure Removed (wanted : Bool) (slot : Slot) (flows after : Flows) (removed : ℕ) (log : List Removal) : Prop where
  settles : Settles (if wanted then flows.get slot else none) removed log
  accounts : Accounts flows after log
  frame : ∀ other, other ≠ slot → after.get other = flows.get other
  counts : after.counts = flows.counts.count removed slot

theorem accounts_erase (h : Settles (flows.get slot) removed log) : Accounts flows ((flows.answered.erase slot).logged log) log := by
  refine ⟨by cases slot <;> rfl, fun other entry he => ?_, fun other => ?_, by cases slot <;> rfl⟩
  · rw [Flows.get_logged, Flows.get_erase]
    split
    · exact .inr (h.mem (by rw [← ‹other = slot›]; exact he))
    · exact .inl (by rwa [Flows.get_answered])
  rw [Flows.get_logged, Flows.get_erase, Flows.get_answered]
  split
  · exact .inr rfl
  · exact .inl rfl

theorem hashRemovePresent_ensures (slot : Slot) (flows : Flows) : (hashRemovePresent slot).Ensures flows
      (Returns (fun removed after => ∃ log, Settles (flows.get slot) (Bool.toNat removed) log ∧
        after = (flows.answered.erase slot).logged log) fun _ after => SameMaps flows after) := by
  unfold hashRemovePresent Ensures
  rw [exec_ofExec]
  dsimp only
  split
  · exact ⟨_, rfl⟩
  · exact ⟨_, .inr ⟨rfl, rfl⟩, rfl⟩
  · refine ⟨_, .inl ⟨rfl, ?_⟩, rfl⟩
    cases flows.get slot <;> rfl

theorem removeIf_ensures : (removeIf wanted slot).Ensures flows
      (Returns (fun _ after => ∃ removed log, Removed wanted slot flows after removed log)
        fun _ after => SameMaps flows after) := by
  cases wanted with
  | false =>
    refine ensures_pure ⟨0, [], Settles.absent, SameMaps.accounts ⟨flows.answers, rfl⟩, fun _ _ => rfl, ?_⟩
    cases slot <;> rfl
  | true =>
    refine Ensures.bind (hashRemovePresent_ensures slot flows) ?_ fun _ _ h => h
    rintro removed _ ⟨log, hs, rfl⟩
    refine ensures_modify ⟨_, log, hs, ?_, fun other ho => ?_, ?_⟩
    · have h := accounts_erase hs
      exact ⟨h.removals, fun other entry he => by simpa using h.held other entry he,
        fun other => by simpa using h.only other, h.reports⟩
    · rw [Flows.get_counted, Flows.get_logged, Flows.get_erase, if_neg ho, Flows.get_answered]
    · cases slot <;> rfl

structure Executed (key : TuplesKey) (plan : RetirePlan) (flows : Flows) (result : Except BackendError RetireOutcome)
    (after : Flows) (handoffs redirects conns : List Removal) : Prop where
  accounts : Accounts flows after (conns ++ (redirects ++ handoffs))
  handoff : handoffs = [] ∨ ∃ removed, Settles (if plan.handoff then flows.get (.handoff key) else none) removed handoffs
  redirect : redirects = [] ∨ ∃ removed,
    Settles (if plan.redirect then flows.get (.redirect (fromTuples key)) else none) removed redirects
  conn : conns = [] ∧ (∃ e, result = .error e) ∨ ∃ removed : RetireCounts,
    Settles (if plan.handoff then flows.get (.handoff key) else none) removed.handoff handoffs ∧
      Settles (if plan.redirect then flows.get (.redirect (fromTuples key)) else none) removed.redirect
        redirects ∧
      Settles (if plan.conn then flows.get (.conn key) else none) removed.conn conns ∧
      result = .ok (plan.outcome removed)

theorem executePlan_ensures : (executePlan key plan).Ensures flows fun result after =>
      ∃ handoffs redirects conns, Executed key plan flows result after handoffs redirects conns := by
  refine Ensures.bind (Q := fun before after => flows = before ∧ flows = after) (R := fun _ _ => False)
    (ensures_get ⟨rfl, rfl⟩) ?_ (fun _ _ => False.elim)
  rintro _ _ ⟨rfl, rfl⟩
  refine Ensures.bind removeIf_ensures ?_ fun e s h => ⟨[], [], [], h.accounts, .inl rfl, .inl rfl, .inl ⟨rfl, e, rfl⟩⟩
  rintro _ s₁ ⟨c₁, n₁, h₁⟩
  refine Ensures.bind removeIf_ensures ?_ fun e s h =>
    ⟨n₁, [], [], h₁.accounts.trans h.accounts, .inr ⟨c₁, h₁.settles⟩, .inl rfl, .inl ⟨rfl, e, rfl⟩⟩
  rintro _ s₂ ⟨c₂, n₂, h₂⟩
  have hs₂ := h₂.settles
  rw [h₁.frame _ (by simp)] at hs₂
  refine Ensures.bind removeIf_ensures ?_ fun e s h =>
    ⟨n₁, n₂, [], (h₁.accounts.trans h₂.accounts).trans h.accounts, .inr ⟨c₁, h₁.settles⟩, .inr ⟨c₂, hs₂⟩, .inl ⟨rfl, e, rfl⟩⟩
  rintro _ s₃ ⟨c₃, n₃, h₃⟩
  have hs₃ := h₃.settles
  rw [h₂.frame _ (by simp), h₁.frame _ (by simp)] at hs₃
  refine Ensures.bind (Q := fun after s => s₃ = after ∧ s₃ = s) (R := fun _ _ => False)
    (ensures_get ⟨rfl, rfl⟩) ?_ (fun _ _ => False.elim)
  rintro _ _ ⟨rfl, rfl⟩
  refine ensures_pure ⟨n₁, n₂, n₃, (h₁.accounts.trans h₂.accounts).trans h₃.accounts, .inr ⟨c₁, h₁.settles⟩,
    .inr ⟨c₂, hs₂⟩, .inr ⟨⟨c₃, c₂, c₁⟩, h₁.settles, hs₂, hs₃, ?_⟩⟩
  rw [h₃.counts, h₂.counts, h₁.counts]
  simp [RetireCounts.since, RetireCounts.count]

structure RetiresExactly (request : RetireRequest) (flows : Flows) (result : Except BackendError RetireOutcome)
    (after : Flows) (log : List Removal) : Prop where
  accounts : Accounts flows after log
  held : ∀ entry, .deleted entry ∈ log → flows.get entry.slot = some entry ∧ entry.slot ∈ request.key.slots
  identity : ∃ incarnation token, request.kind.Names incarnation token ∧
    ∀ entry, .deleted entry ∈ log → entry.incarnation = incarnation ∧ entry.token = token
  refused : ∀ refusal, planRetirement request (flows.owners request) = .error refusal →
    log = [] ∧ SameMaps flows after ∧ ∀ outcome, result = .ok outcome → outcome = .done refusal
  together : ∀ state, .deleted (.conn request.key state) ∈ log → request.kind.Entitled request.key.l4proto state ∧
    ∀ slot ∈ request.key.slots, ∀ entry, flows.get slot = some entry → .deleted entry ∈ log ∨ .vanished entry ∈ log
  outcome : result = .ok .connRetired ↔ ∃ state, .deleted (.conn request.key state) ∈ log

theorem RetireKind.exists_names (kind : RetireKind) : ∃ incarnation token, kind.Names incarnation token := by
  cases kind with
  | udp token incarnation pendingOnly =>
    refine ⟨incarnation.getD 0, token, rfl, ?_⟩
    rintro i rfl
    rfl
  | tcp incarnation | expiryHint incarnation nowNs => exact ⟨incarnation, 0, rfl⟩
  | expiredConn expected expiredBeforeNs | expiredRedirect expected expiredBeforeNs | expiredHandoff expected expiredBeforeNs =>
    exact ⟨_, _, rfl, rfl⟩

theorem SameMaps.retiresExactly (h : SameMaps flows after) (hr : result ≠ .ok .connRetired)
    (hre : ∀ refusal, planRetirement request (flows.owners request) = .error refusal →
      ∀ outcome, result = .ok outcome → outcome = .done refusal) : RetiresExactly request flows result after [] := by
  obtain ⟨incarnation, token, hn⟩ := request.kind.exists_names
  exact ⟨h.accounts, by simp, ⟨incarnation, token, hn, by simp⟩,
    fun refusal hrefusal => ⟨rfl, h, hre refusal hrefusal⟩, by simp, by simpa using hr⟩

theorem RetiresExactly.of_answers (h : RetiresExactly request { flows with answers := answers } result after log) :
    RetiresExactly request flows result after log := by
  have hg : ∀ slot, Flows.get { flows with answers := answers } slot = flows.get slot := by
    intro slot
    cases slot <;> rfl
  obtain ⟨⟨hl, ha, hon, hr⟩, hh, hid, hre, ht, ho⟩ := h
  simp only [hg] at ha hon hh ht
  refine ⟨⟨hl, ha, hon, hr⟩, hh, hid, fun refusal hrefusal => ?_, ht, ho⟩
  obtain ⟨hn, ⟨rest, haf⟩, hresult⟩ := hre refusal hrefusal
  exact ⟨hn, ⟨rest, haf⟩, hresult⟩

theorem Settles.deleted_wanted (h : Settles (if wanted then present else none) removed log) (hm : .deleted entry ∈ log) :
    wanted = true ∧ present = some entry :=
  Option.ite_none_right_eq_some.mp (h.deleted hm).1

section

variable {request : RetireRequest} {flows after : Flows} {plan : RetirePlan} {incarnation : BitVec 64}
  {token : BitVec 32} {result : Except BackendError RetireOutcome} {handoffs redirects conns : List Removal}

section

variable (h : Executed request.key plan flows result after handoffs redirects conns)
include h

theorem Executed.deleted (ha : Authorizes request (flows.owners request) plan incarnation token)
    (hm : .deleted entry ∈ conns ++ (redirects ++ handoffs)) :
    flows.get entry.slot = some entry ∧ entry.slot ∈ request.key.slots ∧ entry.incarnation = incarnation ∧ entry.token = token := by
  simp only [mem_append] at hm
  rcases hm with hm | hm | hm
  · rcases h.conn with ⟨rfl, -⟩ | ⟨removed, -, -, hse, -⟩
    · simp at hm
    obtain ⟨hw, hg⟩ := hse.deleted_wanted hm
    obtain ⟨state, hs, hin, ht, -⟩ := ha.conn hw
    have he : entry = .conn request.key state := by simpa [Flows.get, (Option.ite_none_right_eq_some.mp hs).2, eq_comm] using hg
    subst he
    exact ⟨hg, by simp [Entry.slot, TuplesKey.slots], hin, ht⟩
  · rcases h.redirect with rfl | ⟨removed, hse⟩
    · simp at hm
    obtain ⟨hw, hg⟩ := hse.deleted_wanted hm
    obtain ⟨track, htr, hin, ht⟩ := ha.redirect hw
    have he : entry = .redirect (fromTuples request.key) track := by
      simpa [Flows.get, (Option.ite_none_right_eq_some.mp htr).2, eq_comm] using hg
    subst he
    exact ⟨hg, by simp [Entry.slot, TuplesKey.slots], hin, ht⟩
  rcases h.handoff with rfl | ⟨removed, hse⟩
  · simp at hm
  obtain ⟨hw, hg⟩ := hse.deleted_wanted hm
  obtain ⟨handoff, hh, hin, ht⟩ := ha.handoff hw
  have he : entry = .handoff request.key handoff := by simpa [Flows.get, (Option.ite_none_right_eq_some.mp hh).2, eq_comm] using hg
  subst he
  exact ⟨hg, by simp [Entry.slot, TuplesKey.slots], hin, ht⟩

-- A conn entry sits in the part of the log that only a plan which ran to its end leaves.
theorem Executed.deleted_conn (hm : .deleted (.conn request.key state) ∈ conns ++ (redirects ++ handoffs)) :
    .deleted (.conn request.key state) ∈ conns := by
  simp only [mem_append] at hm
  rcases hm with hm | hm | hm
  · exact hm
  · rcases h.redirect with rfl | ⟨removed, hs⟩
    · simp at hm
    · cases Flows.slot_of_get (hs.deleted_wanted hm).2
  rcases h.handoff with rfl | ⟨removed, hs⟩
  · simp at hm
  · cases Flows.slot_of_get (hs.deleted_wanted hm).2

theorem Executed.together (ha : Authorizes request (flows.owners request) plan incarnation token)
    (hm : .deleted (.conn request.key state) ∈ conns) :
    request.kind.Entitled request.key.l4proto state ∧ ∀ slot ∈ request.key.slots, ∀ entry, flows.get slot = some entry →
        .deleted entry ∈ conns ++ (redirects ++ handoffs) ∨ .vanished entry ∈ conns ++ (redirects ++ handoffs) := by
  rcases h.conn with ⟨rfl, -⟩ | ⟨removed, hs₁, hs₂, hs₃, -⟩
  · simp at hm
  obtain ⟨hw, hg⟩ := hs₃.deleted_wanted hm
  obtain ⟨current, hc, -, -, hen⟩ := ha.conn hw
  have heq : current = state := by simpa [Flows.get, (Option.ite_none_right_eq_some.mp hc).2] using hg
  subst heq
  refine ⟨hen, fun slot hsl entry he => ?_⟩
  obtain ⟨hh, hr⟩ := ha.together hw
  obtain ⟨hre, hreadr⟩ := ha.reads hw
  simp only [mem_append]
  simp only [TuplesKey.slots, mem_cons, not_mem_nil, or_false] at hsl
  rcases hsl with rfl | rfl | rfl
  · have hs : plan.handoff = true := by
      obtain ⟨value, hv, -⟩ := Option.map_eq_some_iff.mp he
      simp [hh, Flows.owners, hre, hv]
    rw [hs, if_pos rfl] at hs₁
    exact (hs₁.mem he).imp (fun h => .inr (.inr h)) fun h => .inr (.inr h)
  · have hs : plan.redirect = true := by
      obtain ⟨value, hv, -⟩ := Option.map_eq_some_iff.mp he
      simp [hr, Flows.owners, hreadr, hv]
    rw [hs, if_pos rfl] at hs₂
    exact (hs₂.mem he).imp (fun h => .inr (.inl h)) fun h => .inr (.inl h)
  · rw [hw, if_pos rfl] at hs₃
    exact (hs₃.mem he).imp .inl .inl

theorem Executed.outcome : result = .ok .connRetired ↔ ∃ state, .deleted (.conn request.key state) ∈ conns := by
  rcases h.conn with ⟨rfl, e, rfl⟩ | ⟨removed, -, -, hs, rfl⟩
  · simp
  constructor
  · intro hr
    have hc : plan.conn = true ∧ removed.conn ≠ 0 := by
      by_contra hn
      simp only [RetirePlan.outcome, Except.ok.injEq] at hr
      split at hr
      · simp_all
      · split at hr <;> cases hr
    obtain ⟨entry, he⟩ := hs.of_ne_zero hc.2
    obtain ⟨state, -, rfl⟩ := Option.map_eq_some_iff.mp (hs.deleted_wanted he).2
    exact ⟨state, he⟩
  rintro ⟨state, hm⟩
  have ho := (hs.deleted hm).2
  have hw := (hs.deleted_wanted hm).1
  simp [RetirePlan.outcome, ho, hw]

theorem Executed.retiresExactly (hpl : planRetirement request (flows.owners request) = .ok plan) :
    RetiresExactly request flows result after (conns ++ (redirects ++ handoffs)) := by
  obtain ⟨incarnation, token, ha⟩ := planRetirement_authorizes hpl
  refine ⟨h.accounts, fun entry hm => ?_, ⟨incarnation, token, ha.names, fun entry hm => ?_⟩, fun refusal hr => ?_,
    fun state hm => h.together ha (h.deleted_conn hm), ?_⟩
  · exact ⟨(h.deleted ha hm).1, (h.deleted ha hm).2.1⟩
  · exact (h.deleted ha hm).2.2
  · rw [hpl] at hr
    cases hr
  · rw [h.outcome]
    exact ⟨fun ⟨state, hm⟩ => ⟨state, mem_append_left _ hm⟩, fun ⟨state, hm⟩ => ⟨state, h.deleted_conn hm⟩⟩

end

end

/-- Whatever the maps hold and however the calls of the kernel end, a retirement deletes entries of its tuple
under one identity, the one its request gives, and its conn entry only last. -/
theorem retireOne_exact (request : RetireRequest) (flows : Flows) :
    (retireOne request).Ensures flows fun result after => ∃ log, RetiresExactly request flows result after log := by
  refine Ensures.bind (readOwners_ensures request flows) ?_ fun e s h => ⟨[], h.retiresExactly (by simp) (by simp)⟩
  rintro owners s ⟨rfl, hs⟩
  split
  · rename_i refusal hr
    refine ensures_pure ⟨[], hs.retiresExactly (by simp) ?_⟩
    simp [hr]
  rename_i plan hpl
  refine Ensures.bind (Q := fun _ after => s = after) (R := fun _ after => s = after)
    (ensures_ensure (fun _ => rfl) fun _ => rfl) ?_ ?_
  · rintro _ _ rfl
    obtain ⟨answers, rfl⟩ := hs
    refine Ensures.mono executePlan_ensures ?_
    rintro result after ⟨handoffs, redirects, conns, h⟩
    exact ⟨_, (h.retiresExactly hpl).of_answers⟩
  · rintro e _ rfl
    exact ⟨[], hs.retiresExactly (by simp) (by simp)⟩

end

end Honk.Conntrack
