import Honk.Conntrack.Tcp

namespace Honk.Conntrack.Tcp

open Honk.Lib Option

section

variable (s : Kernel)

def Ungraced (ticket : ℕ) : Prop :=
  match s.retirement with
  | .waiting readers => ticket ∈ readers
  | .operating => False
  | _ => True

def Points (pointer : ℕ) : Prop := ∃ state, s.conn = some (pointer, state)

def Proved (incarnation : BitVec 64) (aux : Aux) : Prop :=
  ∃ pointer entry, s.aux aux = some (pointer, entry) ∧ entry.incarnation = incarnation

variable (publisher : TcpPublisher)

structure Owner : Prop where
  claimed : publisher.claimed = true
  fresh : publisher.syn = .fresh

structure ArgsFit (args : ConntrackArgs) : Prop where
  incarnation : publisher.syn = .fresh → args.incarnation = publisher.incarnation
  routing : publisher.syn = .cached → args.routing = none

def WriteFit : Write → Prop
  | .replace _ => Owner publisher
  | .touch _ => True

def PhaseFit (ticket : ℕ) : Phase → Prop
  | .out | .idle | .adding _ _ | .committing _ => True
  | .leaving => publisher.claimed = false
  | .dropping | .removing => publisher.claimed = true
  | .claiming _ => publisher.claimed = false
  | .classifying _ => publisher.claimed = true ∧ publisher.syn = .nonSyn
  | .marking i => publisher.claimed = true ∧ publisher.syn = .nonSyn ∧ i ≠ 0 ∧ (i, ticket) ∈ s.allocated
  | .seeing args _ _ => ArgsFit publisher args
  | .observing args _ _ pointer | .renewing args _ _ pointer _ => ArgsFit publisher args ∧ publisher.syn ≠ .fresh ∧ Points s pointer
  | .publishing args _ pointer => Owner publisher ∧ ArgsFit publisher args ∧ ∀ p, pointer = some p → Points s p
  | .replacing args _ pointer => Owner publisher ∧ ArgsFit publisher args ∧ Points s pointer
  | .inserting args _ => Owner publisher ∧ ArgsFit publisher args
  | .routing snapshot => snapshot.incarnation = publisher.incarnation
  | .routed _ => Owner publisher
  | .routingAt _ pointer => Owner publisher ∧ Points s pointer
  | .storing _ entry => entry.incarnation = publisher.incarnation
  | .proving _ _ => Owner publisher
  | .sampling _ write | .sampled _ write _ | .rewriting _ write _ _ => WriteFit publisher write
  | .provingHandoff _ => Owner publisher
  | .provingRedirect _ => Owner publisher ∧ Proved s publisher.incarnation .handoff
  | .proven _ => Owner publisher ∧ Proved s publisher.incarnation .handoff ∧ Proved s publisher.incarnation .redirect
  | .intercepting _ pointer =>
    Owner publisher ∧ Proved s publisher.incarnation .handoff ∧ Proved s publisher.incarnation .redirect ∧ Points s pointer

def Phase.guarded : Phase → Bool
  | .out | .idle | .leaving | .dropping | .removing => false
  | _ => true

structure Fit (l : Handler) : Prop where
  out : l.phase = .out → l.publisher = {} ∧ l.passed = false
  running : l.phase ≠ .out → l.ticket ∈ s.running
  guarded : l.phase.guarded = true → l.passed = true
  passed : l.passed = true → Ungraced s l.ticket
  unclaimed : l.publisher.claimed = false → l.publisher.syn = .nonSyn ∧ l.publisher.incarnation = 0
  claimed : l.publisher.claimed = true → s.publishing = some (claimValue l.publisher)
  fresh : l.publisher.syn = .fresh → l.publisher.incarnation ≠ 0 ∧ (l.publisher.incarnation, l.ticket) ∈ s.allocated
  allocated : l.phase ≠ .out → l.phase ≠ .leaving → ∀ i, (i, l.ticket) ∈ s.allocated →
    l.publisher.syn = .fresh ∧ l.publisher.incarnation = i ∨ l.phase = .marking i
  phase : PhaseFit s l.publisher l.ticket l.phase

structure Sound : Prop where
  unique : (s.allocated.map Prod.fst).Nodup
  allocated : ∀ entry ∈ s.allocated, entry.1.toNat ≤ s.sequence.toNat ∧ entry.2 < s.tickets
  running : ∀ ticket ∈ s.running, ticket < s.tickets

end

structure Apart (l m : Handler) : Prop where
  claimed : ¬ (l.publisher.claimed = true ∧ m.publisher.claimed = true)
  ticket : l.phase ≠ .out → m.phase ≠ .out → l.ticket ≠ m.ticket

variable {s : Kernel} {l : Handler}

theorem Owner.of_fresh (hfit : Fit s l) (h : l.publisher.syn = .fresh) : Owner l.publisher := by
  refine ⟨?_, h⟩
  by_contra hc
  rw [(hfit.unclaimed (Bool.eq_false_of_not_eq_true hc)).1] at h
  cases h

theorem Owner.of_publishes (hfit : Fit s l) (h : publishes s l.publisher.incarnation = true) : Owner l.publisher := by
  simp only [publishes, Bool.and_eq_true, bne_iff_ne, ne_eq, beq_iff_eq] at h
  obtain ⟨hz, hpu⟩ := h
  have hc : l.publisher.claimed = true := by
    by_contra hn
    exact hz (hfit.unclaimed (Bool.eq_false_of_not_eq_true hn)).2
  refine ⟨hc, ?_⟩
  have hv := Option.some.inj (hpu.symm.trans (hfit.claimed hc))
  by_contra hf
  rw [claimValue, isFresh, beq_false_of_ne hf, if_neg Bool.false_ne_true] at hv
  exact hz hv

structure Moves (l : Handler) : Prop where
  out : l.phase ≠ .out
  leaving : l.phase ≠ .leaving
  marking : ∀ i, l.phase ≠ .marking i

theorem Fit.goto (hfit : Fit s l) (hmoves : Moves l) {phase : Phase} (ho : phase ≠ .out)
    (hg : phase.guarded = true → l.passed = true) (hph : PhaseFit s l.publisher l.ticket phase) : Fit s (l.goto phase) where
  out h := absurd h ho
  running _ := hfit.running hmoves.out
  guarded := hg
  passed := hfit.passed
  unclaimed := hfit.unclaimed
  claimed := hfit.claimed
  fresh := hfit.fresh
  allocated _ _ i hi := .inl ((hfit.allocated hmoves.out hmoves.leaving i hi).resolve_right (hmoves.marking i))
  phase := hph

theorem Fit.idle (hfit : Fit s l) (hmoves : Moves l) : Fit s (l.goto .idle) := hfit.goto hmoves nofun nofun trivial

section

def Observed (state next : ConnState) : Prop := next = { state with lastSeenNs := next.lastSeenNs, state := next.state }

structure Lesser (l' l : Handler) : Prop where
  claimed : l'.publisher.claimed = true → l.publisher.claimed = true
  ticket : l'.ticket = l.ticket
  out : l'.phase ≠ .out → l.phase ≠ .out

def Wins (s : Kernel) (l : Handler) (pointer : ℕ) : Prop :=
  (∃ args now, l.phase = .inserting args now) ∧ s.conn = none ∨
  (∃ args now, l.phase = .replacing args now pointer) ∧
    ∃ state, s.conn = some (pointer, state) ∧ state.incarnation = l.publisher.expectedIncarnation

inductive Effect (s : Kernel) (l : Handler) : Kernel → Handler → Prop
  | stay (hfit : Fit s l') (hless : Lesser l' l) : Effect s l s l'
  | enter (hphase : l.phase = .out) : Effect s l { s with running := insert s.tickets s.running, tickets := s.tickets + 1 }
        { phase := .idle, ticket := s.tickets }
  | exit (hphase : l.phase = .leaving) : Effect s l { s with running := s.running.erase l.ticket } {}
  | claim (hphase : l.phase = .claiming isn) (hnone : s.publishing = none) :
      Effect s l { s with publishing := some 0 }
        { l with phase := .classifying isn, publisher := { l.publisher with claimed := true } }
  | allocate (hphase : l.phase = .classifying isn) (hnext : allocateFlowIncarnation s.sequence = some i) :
      Effect s l { s with sequence := i, allocated := (i, l.ticket) :: s.allocated }
        { l with phase := .marking i, publisher := { l.publisher with expectedIncarnation := expected } }
  | select (hphase : l.phase = .marking i) : Effect s l { s with publishing := some i }
        { l with phase := .idle, publisher := { l.publisher with incarnation := i, syn := .fresh } }
  | release (hphase : l.phase = .removing) : Effect s l { s with publishing := none } { l with phase := .leaving, publisher := {} }
  | update {next : ConnState} (hmoves : Moves l) (hconn : s.conn = some (pointer, state))
      (hincarnation : next.incarnation = state.incarnation) (hflags : next.tcpSynFlags = state.tcpSynFlags)
      (hcached : l.publisher.syn = .cached → Observed state next) :
      Effect s l { s with conn := some (pointer, next) } (l.goto .idle)
  | create {next : ConnState} (hmoves : Moves l) (howner : Owner l.publisher) (hwins : Wins s l pointer)
      (hincarnation : next.incarnation = l.publisher.incarnation) (hflags : next.tcpSynFlags = 0) :
      Effect s l { s with conn := some (pointer, next), elements := elements } (l.goto .idle)
  | intercept (hmoves : Moves l) (howner : Owner l.publisher)
      (hconn : s.conn = some (pointer, state)) (hincarnation : state.incarnation = l.publisher.incarnation)
      (hproved : ∀ aux, Proved s l.publisher.incarnation aux) :
      Effect s l { s with conn := some (pointer, { state with tcpSynFlags := tcpSynOriginalIntercept }) } (l.goto .idle)
  | add (hmoves : Moves l) (hnone : s.aux aux = none) :
      Effect s l { s with aux := Function.update s.aux aux (some (pointer, entry)), elements := elements } (l.goto .idle)
  | write {next : AuxiliaryIdentity} (hmoves : Moves l) (haux : s.aux aux = some (pointer, entry))
      (hnext : next.incarnation = entry.incarnation ∨ l.publisher.claimed = true) :
      Effect s l { s with aux := Function.update s.aux aux (some (pointer, next)) } (l.goto .idle)
  | turn (hphase : l.phase = .out)
      (hungraced : ∀ ticket ∈ s.running, Ungraced s ticket → Ungraced { s with retirement := retirement } ticket) :
      Effect s l { s with retirement := retirement } l
  | deleteConn (hphase : l.phase = .out) (hoperating : s.retirement = .operating) : Effect s l { s with conn := none } l
  | deleteAux (hphase : l.phase = .out) (hoperating : s.retirement = .operating) :
      Effect s l { s with aux := Function.update s.aux aux none } l

variable {s' : Kernel} {l' : Handler}

theorem Lesser.goto (hmoves : Moves l) (phase : Phase) : Lesser (l.goto phase) l := ⟨id, rfl, fun _ => hmoves.out⟩

section

variable (hfit : Fit s l) (hmoves : Moves l)
include hfit hmoves

theorem Effect.moved {phase : Phase} (ho : phase ≠ .out)
    (hg : phase.guarded = true → l.passed = true) (hph : PhaseFit s l.publisher l.ticket phase) : Effect s l s (l.goto phase) :=
  .stay (hfit.goto hmoves ho hg hph) (.goto hmoves phase)

theorem Effect.idle : Effect s l s (l.goto .idle) := .moved hfit hmoves nofun nofun trivial

theorem Effect.next (hpa : l.passed = true) [Decidable p] (ho : phase ≠ .out) (hph : p → PhaseFit s l.publisher l.ticket phase) :
    Effect s l s (if p then l.goto phase else l.goto .idle) := by
  split
  · exact .moved hfit hmoves ho (fun _ => hpa) (hph ‹_›)
  · exact .idle hfit hmoves

theorem Effect.ifPointer (hpa : l.passed = true) {pointer : Option ℕ} {next : ℕ → Phase} (ho : ∀ p, next p ≠ .out)
    (hph : ∀ p, pointer = some p → PhaseFit s l.publisher l.ticket (next p)) : Effect s l s (ifPointer l pointer next) := by
  cases pointer with
  | some p => exact .moved hfit hmoves (ho p) (fun _ => hpa) (hph p rfl)
  | none => exact .idle hfit hmoves

end

theorem Fit.at_phase (hfit : Fit s l) {phase : Phase} (hph : l.phase = phase) (hg : phase.guarded = true)
    (hm : ∀ i, phase ≠ .marking i) : Moves l ∧ l.passed = true ∧ PhaseFit s l.publisher l.ticket phase := by
  subst hph
  refine ⟨⟨fun h => ?_, fun h => ?_, hm⟩, hfit.guarded hg, hfit.phase⟩ <;>
  · rw [h] at hg
    cases hg

theorem Effect.pass (hfit : Fit s l) (hid : l.phase = .idle) (ho : phase ≠ .out)
    (hph : PhaseFit s l.publisher l.ticket phase) : Effect s l s (l.pass s phase) := by
  have hmoves : Moves l := by constructor <;> rw [hid] <;> nofun
  unfold Handler.pass
  split
  · rename_i hr
    have hu : Ungraced s l.ticket := by rw [Ungraced, hr]; trivial
    have hf' := hfit.idle hmoves
    refine .stay ⟨fun h => absurd h ho, fun _ => hf'.running nofun, fun _ => rfl, fun _ => hu,
      hfit.unclaimed, hfit.claimed, hfit.fresh, fun _ _ i hi => ?_, hph⟩ ⟨id, rfl, fun _ => hmoves.out⟩
    exact .inl ((hf'.allocated nofun nofun i hi).resolve_right nofun)
  · exact .idle hfit hmoves

theorem points_of_map (h : s.conn.map Prod.fst = some pointer) : Points s pointer := by
  obtain ⟨⟨p, state⟩, hc, rfl⟩ := map_eq_some_iff.mp h
  exact ⟨state, hc⟩

end

section

variable {s' : Kernel} {l' : Handler}

theorem locked_eq (hc : s.conn = some (pointer, state)) :
    locked s pointer f = (f state).elim s fun next => { s with conn := some (pointer, next) } := by
  unfold locked
  rw [hc]
  cases h : f state with
  | none => simp [h]
  | some next => simp [h]

theorem updateTcpLocked_incarnation (state : ConnState) : (updateTcpLocked state args now finRst).incarnation = state.incarnation ∧
      (updateTcpLocked state args now finRst).tcpSynFlags = state.tcpSynFlags := by
  unfold updateTcpLocked
  by_cases hold : updateIntervalNs < now.toNat - state.lastSeenNs.toNat <;> cases args.routing <;> cases finRst <;>
    simp [hold]

variable {args : ConntrackArgs} {x : Input} {isn : BitVec 32} {admitted finRst pinned : Bool} {reads : Reads}
  {now : BitVec 64} {aux : Aux} {write : Write}

theorem updateTcpLocked_observed (state : ConnState) (hr : args.routing = none) (now : BitVec 64) (finRst : Bool) :
    Observed state (updateTcpLocked state args now finRst) := by
  unfold Observed updateTcpLocked
  rw [hr]
  by_cases hold : updateIntervalNs < now.toNat - state.lastSeenNs.toNat <;> cases finRst <;> simp [hold]

theorem freshState_incarnation (args : ConntrackArgs) (now : BitVec 64) (replaces : Bool) :
    (freshState args now replaces).incarnation = args.incarnation ∧ (freshState args now replaces).tcpSynFlags = 0 := by
  unfold freshState
  dsimp only
  split
  · exact updateTcpLocked_incarnation ..
  · exact ⟨rfl, rfl⟩

section

variable (hfit : Fit s l)
include hfit

theorem markTcpSeen_effect (hid : l.phase = .idle) : Effect s l s (markTcpSeen s l args isn newConnection now finRst) := by
  have hs : Effect s l s l := .stay hfit ⟨id, rfl, id⟩
  unfold markTcpSeen
  split
  · exact hs
  split
  · rename_i hn
    exact .pass hfit hid nofun ⟨fun h => (nomatch hn.symm.trans h), fun h => (nomatch hn.symm.trans h)⟩
  split
  · exact hs
  rename_i hc
  refine .pass hfit hid nofun ⟨fun _ => rfl, fun h => ?_⟩
  rw [not_and, not_isSome_iff_eq_none] at hc
  exact hc h

theorem start_effect (hid : l.phase = .idle) (h : start s l x = some (s', l')) : Effect s l s' l' := by
  have hs : Effect s l s l := .stay hfit ⟨id, rfl, id⟩
  have hmoves : Moves l := by constructor <;> rw [hid] <;> nofun
  cases x <;> cases h
  case acquire isn =>
    split
    · exact hs
    · exact .pass hfit hid nofun (Bool.eq_false_of_not_eq_true ‹_›)
  case mark args isn newConnection now finRst => exact markTcpSeen_effect hfit hid ..
  case publishRouting snapshot => exact .pass hfit hid nofun rfl
  case publishAux aux entry replace =>
    split
    · exact .pass hfit hid nofun rfl
    · exact .pass hfit hid nofun trivial
  case refreshAux aux now => exact .pass hfit hid nofun trivial
  case commitIntercept isn => exact .pass hfit hid nofun trivial
  case drop =>
    split
    · exact .moved hfit hmoves nofun nofun ‹_›
    · exact .moved hfit hmoves nofun nofun (Bool.eq_false_of_not_eq_true ‹_›)

theorem claim_effect (hph : l.phase = .claiming isn) (h : claim s l isn admitted = (s', l')) : Effect s l s' l' := by
  unfold claim at h
  split at h
  · cases h
    exact .idle hfit (by constructor <;> rw [hph] <;> nofun)
  rename_i hf
  cases h
  exact .claim hph (not_isSome_iff_eq_none.mp fun hs => hf (.inl hs))

theorem classify_effect (hph : l.phase = .classifying isn) (h : classify s l isn reads = (s', l')) : Effect s l s' l' := by
  obtain ⟨hmoves, -, hno⟩ := hfit.at_phase hph rfl nofun
  have hn : ∀ i, (i, l.ticket) ∉ s.allocated := by
    intro i hi
    rcases hfit.allocated hmoves.out hmoves.leaving i hi with ⟨hf, -⟩ | hm
    · rw [hno.2] at hf
      cases hf
    · exact hmoves.marking i hm
  have hz : ∀ publisher : TcpPublisher, publisher.syn ≠ .fresh → claimValue publisher = 0 := by
    intro publisher hne
    rw [claimValue, isFresh, beq_false_of_ne hne, if_neg Bool.false_ne_true]
  have hc : s.publishing = some 0 := by rw [hfit.claimed hno.1, hz _ (by rw [hno.2]; nofun)]
  -- A publisher that is not fresh holds the tuple under the value that it was claimed with.
  have hs : ∀ publisher : TcpPublisher, publisher.claimed = true → publisher.syn ≠ .fresh →
      Effect s l s { l with phase := .idle, publisher := publisher } := by
    intro publisher hcl hne
    refine .stay ⟨nofun, fun _ => hfit.running hmoves.out, nofun, hfit.passed, fun hnot => ?_, fun _ => ?_,
      fun hf => absurd hf hne, fun _ _ i hi => absurd hi (hn i), trivial⟩ ⟨fun _ => hno.1, rfl, fun _ => hmoves.out⟩
    · exact absurd (hcl.symm.trans hnot) (by decide)
    · rw [hc, hz _ hne]
  unfold classify at h
  split at h
  · cases h
    exact hs _ hno.1 (by rw [hno.2]; nofun)
  · cases h
    exact hs _ hno.1 nofun
  split at h
  · cases h
    exact hs _ hno.1 (by rw [hno.2]; nofun)
  · cases h
    exact .allocate hph ‹_›

theorem selectFresh_effect {i : BitVec 64} (hph : l.phase = .marking i) (h : selectFresh s l i = (s', l')) : Effect s l s' l' := by
  have ho := hfit.phase
  rw [hph] at ho
  unfold selectFresh at h
  rw [hfit.claimed ho.1] at h
  cases h
  exact .select hph

theorem point_effect (hph : l.phase = .seeing args now finRst) : Effect s l s (point s l args now finRst) := by
  obtain ⟨hmoves, hpa, ho⟩ := hfit.at_phase hph rfl nofun
  unfold point
  split
  · rename_i hf
    exact .moved hfit hmoves nofun (fun _ => hpa) ⟨.of_fresh hfit (eq_of_beq hf), ho, fun p hp => points_of_map hp⟩
  rename_i hf
  split
  · rename_i pointer state hc
    exact .moved hfit hmoves nofun (fun _ => hpa) ⟨ho, fun h => hf (beq_iff_eq.mpr h), state, hc⟩
  · exact .idle hfit hmoves

theorem observed_effect (hph : l.phase = .observing args now finRst pointer) :
    Effect s l (locked s pointer (observeTcp args now finRst l.publisher.syn)) (observed s l args now finRst pointer pinned) := by
  obtain ⟨hmoves, hpa, ha, hn, state, hco⟩ := hfit.at_phase hph rfl nofun
  rw [locked_eq hco, observeTcp, observed, hco]
  dsimp only
  cases he : connStateExpired state now with
  | true =>
    simp only [Bool.not_true, Bool.and_false, Bool.and_true]
    exact .next hfit hmoves hpa nofun fun _ => ⟨ha, hn, state, hco⟩
  | false =>
    simp only [Bool.not_false, Bool.and_true, Bool.and_false, Bool.false_and, Bool.false_eq_true, if_false]
    split
    · exact .update hmoves hco (updateTcpLocked_incarnation ..).1 (updateTcpLocked_incarnation ..).2
        fun hc => updateTcpLocked_observed state (ha.routing hc) now finRst
    · exact .idle hfit hmoves

theorem renewTcp_effect (hph : l.phase = .renewing args now finRst pointer incarnation) :
    Effect s l (locked s pointer (renewTcp args now finRst l.publisher.syn incarnation)) (l.goto .idle) := by
  obtain ⟨hmoves, -, ha, hn, state, hco⟩ := hfit.at_phase hph rfl nofun
  rw [locked_eq hco, renewTcp]
  split
  · exact .update hmoves hco (updateTcpLocked_incarnation ..).1 (updateTcpLocked_incarnation ..).2
      fun hc => updateTcpLocked_observed state (ha.routing hc) now finRst
  · exact .idle hfit hmoves

theorem publishFreshTcp_effect (hph : l.phase = .publishing args now pointer) : Effect s l s (publishFreshTcp s l args now pointer) := by
  obtain ⟨hmoves, hpa, ho, ha, hpo⟩ := hfit.at_phase hph rfl nofun
  unfold publishFreshTcp
  split
  · exact .idle hfit hmoves
  cases pointer with
  | some p => exact .moved hfit hmoves nofun (fun _ => hpa) ⟨ho, ha, hpo p rfl⟩
  | none =>
    dsimp only
    split
    · exact .idle hfit hmoves
    · exact .moved hfit hmoves nofun (fun _ => hpa) ⟨ho, ha⟩

theorem replaceTcp_effect (hph : l.phase = .replacing args now pointer) :
    Effect s l (locked s pointer (replaceTcp args now l.publisher.expectedIncarnation)) (l.goto .idle) := by
  obtain ⟨hmoves, -, ho, ha, state, hc⟩ := hfit.at_phase hph rfl nofun
  rw [locked_eq hc, replaceTcp]
  split
  · rename_i he
    have hf := freshState_incarnation args now true
    exact .create hmoves ho (.inr ⟨⟨args, now, hph⟩, state, hc, he⟩) (hf.1.trans (ha.incarnation ho.fresh)) hf.2
  · exact .idle hfit hmoves

theorem insertTcp_effect (hph : l.phase = .inserting args now) : Effect s l (insertTcp s args now admitted) (l.goto .idle) := by
  obtain ⟨hmoves, -, ho, ha⟩ := hfit.at_phase hph rfl nofun
  unfold insertTcp
  split
  · exact .idle hfit hmoves
  rename_i hfr
  have hf := freshState_incarnation args now false
  exact .create hmoves ho (.inl ⟨⟨args, now, hph⟩, not_isSome_iff_eq_none.mp fun hs => hfr (.inl hs)⟩)
    (hf.1.trans (ha.incarnation ho.fresh)) hf.2

theorem publishTcpRouting_effect (hph : l.phase = .routingAt snapshot pointer) :
    Effect s l (locked s pointer (publishTcpRouting snapshot)) (l.goto .idle) := by
  obtain ⟨hmoves, -, ho, state, hco⟩ := hfit.at_phase hph rfl nofun
  rw [locked_eq hco, publishTcpRouting]
  split
  · exact .update hmoves hco rfl rfl fun hc => (nomatch ho.fresh.symm.trans hc)
  · exact .idle hfit hmoves

theorem sampleAux_effect (hph : l.phase = .sampling aux write) : Effect s l s (sampleAux s l aux write) := by
  obtain ⟨hmoves, hpa, ho⟩ := hfit.at_phase hph rfl nofun
  unfold sampleAux
  split
  · exact .moved hfit hmoves nofun (fun _ => hpa) ho
  cases write with
  | replace entry => exact .moved hfit hmoves nofun (fun _ => hpa) trivial
  | touch now => exact .idle hfit hmoves

end

theorem writeAux_incarnation (hfit : WriteFit publisher write) (snapshot current : AuxiliaryIdentity) :
    (writeAux write snapshot current).incarnation = current.incarnation ∨ publisher.claimed = true := by
  unfold writeAux
  split
  · exact .inl rfl
  cases write with
  | replace entry => exact .inr hfit.claimed
  | touch now =>
    dsimp only
    split <;> exact .inl rfl

variable (hfit : Fit s l)
include hfit

theorem lockedAux_effect (hph : l.phase = .rewriting aux write snapshot pointer) :
    Effect s l (lockedAux s aux pointer (writeAux write snapshot)) (l.goto .idle) := by
  obtain ⟨hmoves, -, ho⟩ := hfit.at_phase hph rfl nofun
  unfold lockedAux
  split
  · rename_i p current ha
    split
    · exact .write hmoves ha (writeAux_incarnation ho snapshot current)
    · exact .idle hfit hmoves
  · exact .idle hfit hmoves

theorem addAux_effect (hph : l.phase = .adding aux entry) : Effect s l (addAux s aux entry admitted) (l.goto .idle) := by
  have hmoves : Moves l := by constructor <;> rw [hph] <;> nofun
  unfold addAux
  split
  · exact .idle hfit hmoves
  · rename_i hf
    exact .add hmoves (not_isSome_iff_eq_none.mp fun hs => hf (.inl hs))

theorem proveAux_effect (hmoves : Moves l) (hpa : l.passed = true)
    (ho : next ≠ .out) (hph : Proved s l.publisher.incarnation aux → PhaseFit s l.publisher l.ticket next) :
    Effect s l s (proveAux s l aux next) := by
  unfold proveAux
  split
  · rename_i pointer entry ha
    split
    · exact .idle hfit hmoves
    rename_i hs
    rw [not_or, not_not] at hs
    exact .moved hfit hmoves ho (fun _ => hpa) (hph ⟨pointer, entry, ha, hs.1⟩)
  · exact .idle hfit hmoves

theorem commitTcpIntercept_effect (hph : l.phase = .intercepting isn pointer) :
    Effect s l (locked s pointer (commitTcpIntercept isn l.publisher.incarnation)) (l.goto .idle) := by
  obtain ⟨hmoves, -, ho, hh, hr, state, hc⟩ := hfit.at_phase hph rfl nofun
  rw [locked_eq hc, commitTcpIntercept]
  split
  · rename_i hin
    simp only [interceptOwned, Bool.and_eq_true, beq_iff_eq] at hin
    refine .intercept hmoves ho hc hin.1.1.1 fun aux => ?_
    cases aux with
    | handoff => exact hh
    | redirect => exact hr
  · exact .idle hfit hmoves

theorem go_effect (h : go s l reads pinned admitted = some (s', l')) : Effect s l s' l' := by
  unfold go at h
  generalize hph : l.phase = phase at h
  cases phase <;> try cases h
  case claiming isn => exact claim_effect hfit hph (Option.some.inj h)
  case classifying isn => exact classify_effect hfit hph (Option.some.inj h)
  case marking i => exact selectFresh_effect hfit hph (Option.some.inj h)
  case removing => exact .release hph
  case dropping =>
    have ho := hfit.phase
    rw [hph] at ho
    rw [if_pos (hfit.claimed ho)]
    exact .moved hfit ⟨by simp [hph], by simp [hph], by simp [hph]⟩ nofun nofun ho
  case seeing args now finRst => exact point_effect hfit hph
  case observing args now finRst pointer => exact observed_effect hfit hph
  case renewing args now finRst pointer incarnation => exact renewTcp_effect hfit hph
  case publishing args now pointer => exact publishFreshTcp_effect hfit hph
  case replacing args now pointer => exact replaceTcp_effect hfit hph
  case inserting args now => exact insertTcp_effect hfit hph
  case routingAt snapshot pointer => exact publishTcpRouting_effect hfit hph
  case sampling aux write => exact sampleAux_effect hfit hph
  case rewriting aux write snapshot pointer => exact lockedAux_effect hfit hph
  case adding aux entry => exact addAux_effect hfit hph
  case intercepting isn pointer => exact commitTcpIntercept_effect hfit hph
  all_goals obtain ⟨hmoves, hpa, ho⟩ := hfit.at_phase hph rfl nofun
  case routing snapshot =>
    refine .next hfit hmoves hpa nofun fun hpu => .of_publishes hfit ?_
    exact ho ▸ hpu
  case routed snapshot => exact .ifPointer hfit hmoves hpa nofun fun p hp => ⟨ho, points_of_map hp⟩
  case storing aux entry =>
    refine .next hfit hmoves hpa nofun fun hpu => Owner.of_publishes hfit ?_
    exact ho ▸ hpu
  case proving aux entry => exact .next hfit hmoves hpa nofun fun _ => ho
  case sampled aux write snapshot => exact .ifPointer hfit hmoves hpa nofun fun _ _ => ho
  case committing isn => exact .next hfit hmoves hpa nofun fun hpu => Owner.of_publishes hfit hpu
  case provingHandoff isn => exact proveAux_effect hfit hmoves hpa nofun fun hpr => ⟨ho, hpr⟩
  case provingRedirect isn => exact proveAux_effect hfit hmoves hpa nofun fun hpr => ⟨ho.1, ho.2, hpr⟩
  case proven isn => exact .ifPointer hfit hmoves hpa nofun fun p hp => ⟨ho.1, ho.2.1, ho.2.2, points_of_map hp⟩

-- The barrier waits for every invocation that runs when it begins, so that none which passed is left at its end.
omit hfit in
theorem retire_effect (hph : l.phase = .out) (h : retire s x = some s') : Effect s l s' l := by
  revert h
  fun_cases retire s x with
  | case1 | case13 =>
    rintro ⟨⟩
    exact .turn hph fun _ _ _ => trivial
  | case3 =>
    rintro ⟨⟩
    exact .turn hph fun _ hr _ => hr
  | case5 readers hre hd =>
    rintro ⟨⟩
    refine .turn hph fun ticket hr hu => ?_
    rw [Ungraced, hre] at hu
    exact Finset.disjoint_left.mp hd hu hr
  | case8 =>
    rintro ⟨⟩
    exact .deleteConn hph ‹_›
  | case10 =>
    rintro ⟨⟩
    exact .deleteAux hph ‹_›
  | _ => exact nofun

theorem step_effect (h : step s l x = some (s', l')) : Effect s l s' l' := by
  revert h
  fun_cases step s l x with
  | case1 => exact go_effect hfit
  | case2 hph =>
    rintro ⟨⟩
    exact .enter hph
  | case4 hph =>
    rintro ⟨⟩
    exact .exit hph
  | case6 _ _ _ _ hph =>
    intro h
    obtain ⟨next, hr, he⟩ := map_eq_some_iff.mp h
    cases he
    exact retire_effect hph hr
  | case7 _ _ _ _ hph => exact start_effect hfit hph
  | _ => exact nofun

end

end Honk.Conntrack.Tcp
