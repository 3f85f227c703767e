import Honk.Nfqueue.Correlator

namespace Honk.Nfqueue

open Honk.Lib Honk.Routing Honk.Conntrack Option

def Task.guards (task : Task) : List ℕ := task.held.map HeldVerdict.guard

def Task.Finishes (task : Task) (c : ℕ) : Prop := ∃ mark stage, task = .finish c mark stage

structure Same (s s' : Correlator) : Prop where
  cells : s'.cells = s.cells
  nextCell : s'.nextCell = s.nextCell
  arrivals : s'.arrivals = s.arrivals
  log : s'.log = s.log
  map : ∀ key c, s'.map key = some c → s.map key = some c

theorem Same.refl (s : Correlator) : Same s s := ⟨rfl, rfl, rfl, rfl, fun _ _ h => h⟩

theorem Same.scheduleCleanup (s : Correlator) : Same s (s.scheduleCleanup request) := by
  rw [Correlator.scheduleCleanup]
  split
  · exact .refl s
  · exact ⟨rfl, rfl, rfl, rfl, fun _ _ h => h⟩

theorem Same.remove (s : Correlator) (key : FlowKey) : Same s (s.remove key) := by
  refine ⟨rfl, rfl, rfl, rfl, fun key' c h => ?_⟩
  by_cases hk : key' = key
  · rw [hk, Correlator.remove] at h
    dsimp only at h
    rw [Function.update_self] at h
    cases h
  rw [Correlator.remove] at h
  dsimp only at h
  rwa [Function.update_of_ne hk] at h

inductive Continues : Task → Task → Prop
  | free (h : Task.held l = []) (h' : Task.held l' = []) (hf : ∀ c, ¬ l'.Finishes c) : Continues l l'
  | ingest : Continues (.ingest packet token held stage) (.ingest packet token held stage')
  | finish (h : (Task.finish c mark stage').held = (Task.finish c mark stage).held) :
      Continues (.finish c mark stage) (.finish c mark stage')
  | drop (l : Task) : Continues l (.sends (dropAll l.held))

inductive Marked : CellState → CellState → Prop
  | refl : Marked state state
  | mark : Marked (.pending startedAt false cancelling verdicts) (.pending startedAt false true verdicts)

def Phase.state : Phase → ℕ → CellState
  | .proxy, expiresAt => .proxy expiresAt
  | .block, expiresAt => .block expiresAt
  | .dead, expiresAt => .dead expiresAt

inductive Effect (s : Correlator) : Task → Correlator → Task → Prop
  | internal (hs : Same s s') (hcell : ∀ c, Task.cell l' = some c → Task.cell l = some c ∨ ∃ key, s.map key = some c)
      (hl : Continues l l') : Effect s l s' l'
  | arrive {held : HeldVerdict} (hl : Task.held l = []) (hg : held.guard = s.arrivals)
      (hs : Same (Correlator.arrive s token) s') (hcell : Task.cell l' = none)
      (hl' : l' = .sends [(held, .drop)] ∨ ∃ packet t stage, token = some t ∧ l' = .ingest packet t held stage) :
      Effect s l s' l'
  | mark {cell : FlowCell} (hc : s.cells c = some cell) (hm : Marked cell.state state)
      (hs : Same (s.put c cell state []) s') :
      Effect s (.ingest packet token held (.marking c)) s' (.sends [(held, .drop)])
  | push {cell : FlowCell} {held : HeldVerdict} (hc : s.cells c = some cell)
      (hstate : cell.state = .pending startedAt armed cancelling verdicts)
      (hs : Same (s.put c cell (.pending startedAt armed cancelling (verdicts ++ [held])) [.queued c held.guard]) s') :
      Effect s (.ingest packet cell.token held (.existing c)) s' .idle
  | handle {cell : FlowCell} {held : HeldVerdict} (hc : s.cells c = some cell) (hm : Marked cell.state state)
      (hv : ∀ mark, verdict = .accept mark → ∃ expiresAt, cell.state = .activeDirect expiresAt mark)
      (hs : Same (s.put c cell state [.handled c held.guard]) s') :
      Effect s (.ingest packet cell.token held (.existing c)) s' (.sends [(held, verdict)])
  | flush {cell : FlowCell} {held : HeldVerdict} (hc : s.cells c = some cell)
      (hstate : cell.state = .pending startedAt false cancelling verdicts)
      (hs : Same (s.put c cell (.pending startedAt false true []) [.handled c held.guard]) s') :
      Effect s (.ingest packet cell.token held (.existing c)) s' (.sends (dropAll (verdicts ++ [held])))
  | openPending {held : HeldVerdict} (cell : FlowCell) (hstate : cell.state = .pending startedAt false false [held]) :
      Effect s (.ingest packet cell.token held stage) (s.insert key cell [.queued s.nextCell held.guard]) .idle
  | openDirect {held : HeldVerdict} (cell : FlowCell) (hstate : cell.state = .activeDirect expiresAt mark) :
      Effect s (.ingest packet cell.token held stage)
        (s.insert key cell [.handled s.nextCell held.guard, .inspected s.nextCell cell.token]) (.sends [(held, .accept mark)])
  | openSettled {held : HeldVerdict} (cell : FlowCell) (phase : Phase) (hstate : cell.state = phase.state expiresAt)
      (hs : Same (s.insert key cell [.handled s.nextCell held.guard, .settled s.nextCell phase]) s') :
      Effect s (.ingest packet cell.token held stage) s' (.sends [(held, .drop)])
  | arm {cell : FlowCell} (hc : s.cells c = some cell)
      (hstate : cell.state = .pending startedAt false false verdicts) :
      Effect s (.work c stage) (s.put c cell (.pending startedAt true false verdicts) [.armed c cell.token])
        (.finish c mark .applied)
  | settle {cell : FlowCell} (phase : Phase) (hc : s.cells c = some cell)
      (hstate : cell.state = .pending startedAt armed cancelling verdicts) (hphase : armed = true → phase = .dead)
      (hs : Same (s.put c cell (phase.state expiresAt) [.settled c phase]) s') :
      Effect s (.work c stage) s' (.sends (dropAll verdicts))
  | take {cell : FlowCell} (hc : s.cells c = some cell)
      (hstate : cell.state = .pending startedAt true cancelling verdicts) :
      Effect s (.finish c mark .take)
        (s.put c cell (.pending startedAt true cancelling []) [.taken c (verdicts.map HeldVerdict.guard)])
        (.finish c mark (.accepting verdicts))
  | accept (hl' : l' = .finish c mark (.accepting rest) ∨ l' = .sends (dropAll rest)) :
      Effect s (.finish c mark (.accepting (held :: rest))) (s.send held (.accept (mark ||| classifiedMark))) l'
  | send (hl' : l' = .sends rest ∨ l' = .sends (dropAll (rest.map Prod.fst))) :
      Effect s (.sends ((held, verdict) :: rest)) (s.send held verdict) l'
  | activate {cell : FlowCell} (hc : s.cells c = some cell)
      (hstate : cell.state = .pending startedAt true cancelling []) : Effect s (.finish c mark .activate)
        (s.put c cell (.activeDirect expiresAt (mark ||| classifiedMark)) [.activated c (mark ||| classifiedMark)]) .idle

abbrev Ran (s : Correlator) (l : Task) (next : Correlator × Task) : Prop := Effect s l next.1 next.2

variable {s s' : Correlator} {l : Task}

theorem effect_rejectToken (hl : l.held = [held]) : Ran s l (rejectToken s key token held) := by
  refine .internal (.scheduleCleanup s) nofun ?_
  have := Continues.drop l
  rwa [hl] at this

theorem effect_drop (hs : Same s s') (hl : l.held = [held]) : Effect s l s' (.sends [(held, .drop)]) := by
  refine .internal hs nofun ?_
  have := Continues.drop l
  rwa [hl] at this

theorem effect_free (hs : Same s s') (h : l.held = []) (h' : Task.held l' = []) (hf : ∀ c, ¬ l'.Finishes c)
    (hc : ∀ c, l'.cell = some c → l.cell = some c ∨ ∃ key, s.map key = some c) : Effect s l s' l' := .internal hs hc (.free h h' hf)

theorem effect_idle (hs : Same s s') (h : l.held = []) : Effect s l s' .idle :=
  effect_free hs h rfl (by rintro c ⟨_, _, h⟩; cases h) nofun

theorem effect_work (hs : Same s s') (h : l.held = []) (hc : l.cell = some c ∨ ∃ key, s.map key = some c) : Effect s l s' (.work c stage) :=
  effect_free hs h rfl (by rintro c ⟨_, _, h⟩; cases h) fun c' h => by cases h; exact hc

theorem effect_startWork (h : l.held = []) : Ran s l (startWork s identity stage) := by
  rw [startWork]
  split
  · rename_i c hm
    apply effect_work (.refl s) h
    right
    rw [Correlator.matchingCell] at hm
    obtain ⟨c', hc', hm⟩ := bind_eq_some_iff.mp hm
    obtain ⟨cell, -, hm⟩ := bind_eq_some_iff.mp hm
    split at hm
    · cases hm
      exact ⟨_, hc'⟩
    · cases hm
  · exact effect_idle (.refl s) h

variable (packet : QueuedPacket)

theorem effect_receive (hs : ∀ st, stage = some st → st = .lookup ∨ st = .rejecting) : Ran s .idle (receive s packet stage) := by
  unfold receive
  dsimp only
  split
  · rename_i _ _ st token _ _
    refine .arrive rfl rfl (.refl _) ?_ (.inr ⟨packet, token, st, rfl, rfl⟩)
    rcases hs st rfl with rfl | rfl <;> rfl
  · exact .arrive rfl rfl (.refl _) rfl (.inl rfl)

theorem effect_start (answer : Answer) (operation : Operation) : Ran s .idle (start s answer operation) := by
  cases operation with
  | receive packet =>
    apply effect_receive
    rintro st ⟨⟩
    cases answer.ready <;> simp
  | reject packet =>
    apply effect_receive
    rintro st ⟨⟩
    exact .inr rfl
  | receiveDns packet =>
    apply effect_receive
    rintro st ⟨⟩
  | commit identity lease transition =>
    rw [start]
    split
    · exact effect_idle (.refl s) rfl
    · exact effect_startWork rfl
  | cancel identity wait => exact effect_startWork rfl
  | drain request =>
    cases request with
    | flow identity =>
      rw [start]
      split
      · exact effect_startWork rfl
      · exact effect_idle (.refl s) rfl
    | token key token => exact effect_idle (.refl s) rfl
  | forget request => exact effect_idle ⟨rfl, rfl, rfl, rfl, fun _ _ h => h⟩ rfl
  | sweep key | clear key =>
    rw [start]
    split
    · rename_i c hc
      exact effect_work (.refl s) rfl (.inr ⟨_, hc⟩)
    · exact effect_idle (.refl s) rfl

theorem effect_ingestRetained (key : FlowKey) (owner : UdpFlowOwner) (held : HeldVerdict) (stage : IngestStage) (answer : Answer) :
    Ran s (.ingest packet owner.token held stage) (ingestRetained s key owner held answer retained) := by
  cases retained with
  | pending =>
    unfold ingestRetained
    dsimp only
    split
    · exact .openPending ⟨⟨key, owner, _⟩, _⟩ rfl
    · exact .openSettled ⟨⟨key, owner, 0⟩, _⟩ .dead rfl (.scheduleCleanup _)
  | activeDirect mark => exact .openDirect ⟨⟨key, owner, 0⟩, _⟩ rfl
  | proxy =>
    unfold ingestRetained
    dsimp only
    split
    · exact .openSettled ⟨⟨key, owner, _⟩, _⟩ .proxy rfl (.refl _)
    · exact effect_drop (.refl s) rfl
  | block => exact .openSettled ⟨⟨key, owner, 0⟩, _⟩ .block rfl (.refl _)
  | directArmed | reject => exact effect_drop (.refl s) rfl

theorem effect_ingestVacant (key : FlowKey) (token : BitVec 32) (held : HeldVerdict) (stage : IngestStage) (answer : Answer) :
    Ran s (.ingest packet token held stage) (ingestVacant s key token held answer) := by
  unfold ingestVacant
  split
  · exact effect_rejectToken rfl
  split
  · exact effect_rejectToken rfl
  · exact effect_drop (.refl s) rfl
  split
  · exact effect_drop (.refl s) rfl
  split
  · exact effect_rejectToken rfl
  · exact effect_ingestRetained packet key ⟨token, _⟩ held stage answer

variable (token : BitVec 32) (held : HeldVerdict)

theorem effect_rejectKey (stage : IngestStage) (answer : Answer) :
    Ran s (.ingest packet token held stage) (rejectKey s packet token held answer) := by
  unfold rejectKey
  split
  · rename_i c hm
    split
    · split
      · refine .internal (.refl s) (fun c' h => ?_) .ingest
        cases h
        right
        split at hm
        · exact ⟨_, hm⟩
        · cases hm
      · exact effect_rejectToken rfl
    · exact effect_rejectToken rfl
  · exact effect_rejectToken rfl

variable {c : ℕ} {cell : FlowCell}

theorem effect_markCancelling (answer : Answer) (hc : s.cells c = some cell) :
    Ran s (.ingest packet token held (.marking c)) (markCancelling s packet token held c cell answer) := by
  unfold markCancelling
  split
  · exact effect_rejectToken rfl
  split
  · rename_i startedAt armed cancelling verdicts hs
    cases armed with
    | true => exact effect_drop (.refl s) rfl
    | false =>
      refine .mark hc ?_ (.scheduleCleanup _)
      rw [hs]
      exact .mark
  · exact effect_drop (.scheduleCleanup _) rfl

theorem ingestExisting_cases (now : ℕ) (slowPermit : Bool) (reservation : EndpointReservation) (held : HeldVerdict)
    (state : CellState) : (∃ startedAt armed cancelling verdicts, state = .pending startedAt armed cancelling verdicts ∧
      ingestExisting now slowPermit reservation held state = (.pending startedAt armed cancelling (verdicts ++ [held]), .queued)) ∨
    (∃ state' verdict cleanup, Marked state state' ∧ (∀ mark, verdict = .accept mark → ∃ expiresAt, state = .activeDirect expiresAt mark) ∧
      ingestExisting now slowPermit reservation held state = (state', .decided [(held, verdict)] cleanup)) ∨
    (∃ startedAt cancelling verdicts, state = .pending startedAt false cancelling verdicts ∧
      ingestExisting now slowPermit reservation held state =
        (.pending startedAt false true [], .decided (dropAll (verdicts ++ [held])) true)) := by
  have hd : ∀ mark, Verdict.drop = .accept mark → ∃ expiresAt, state = .activeDirect expiresAt mark := nofun
  cases state with
  | pending startedAt armed cancelling verdicts =>
    unfold ingestExisting
    dsimp only
    split
    · exact .inr (.inl ⟨_, _, _, .refl, hd, rfl⟩)
    split
    · exact .inl ⟨_, _, _, _, rfl, rfl⟩
    rename_i ha
    rw [Bool.not_eq_true] at ha
    subst ha
    split
    · exact .inr (.inl ⟨_, _, _, .refl, hd, rfl⟩)
    split
    · exact .inr (.inr ⟨_, _, _, rfl, rfl⟩)
    split
    · exact .inr (.inl ⟨_, _, _, .refl, hd, rfl⟩)
    split
    · exact .inl ⟨_, _, _, _, rfl, rfl⟩
    · exact .inr (.inl ⟨_, _, _, .mark, hd, rfl⟩)
    · exact .inr (.inl ⟨_, _, _, .refl, hd, rfl⟩)
  | activeDirect expiresAt mark =>
    refine .inr (.inl ⟨_, _, _, .refl, fun mark' h => ?_, rfl⟩)
    cases h
    exact ⟨_, rfl⟩
  | proxy _ | block _ | dead _ => exact .inr (.inl ⟨_, _, _, .refl, hd, rfl⟩)

theorem effect_ingestCell (answer : Answer) (hc : s.cells c = some cell) :
    Ran s (.ingest packet token held (.existing c)) (ingestCell s packet token held c cell answer) := by
  by_cases ht : cell.token = token
  · subst ht
    rw [ingestCell, if_neg (by simp)]
    rcases ingestExisting_cases answer.now answer.slowPermit answer.reservation held cell.state with
      ⟨startedAt, armed, cancelling, verdicts, hs, he⟩ | ⟨state, verdict, cleanup, hm, hv, he⟩ |
      ⟨startedAt, cancelling, verdicts, hs, he⟩
    · rw [he]
      exact .push hc hs (.refl _)
    · rw [he]
      refine .handle hc hm hv ?_
      cases cleanup with
      | true => exact .scheduleCleanup _
      | false => exact .refl _
    · rw [he]
      exact .flush hc hs (.scheduleCleanup _)
  · rw [ingestCell, if_pos ht]
    exact effect_rejectToken rfl

theorem effect_stepIngest {packet : QueuedPacket} {token : BitVec 32} {held : HeldVerdict} (h : stepIngest s packet token held answer stage = some (s', l')) :
    Effect s (.ingest packet token held stage) s' l' := by
  have hm : ∀ (s' : Correlator) (stage' : IngestStage), Same s s' → (Task.ingest packet token held stage').cell = none →
      Effect s (.ingest packet token held stage) s' (.ingest packet token held stage') := by
    intro s' stage' hs hn
    exact .internal hs (fun c hc => by rw [hn] at hc; cases hc) .ingest
  have he : ∀ c key, s.map key = some c → Effect s (.ingest packet token held stage) s (.ingest packet token held (.existing c)) := by
    intro c key hma
    exact .internal (.refl s) (fun c' hc => by cases hc; exact .inr ⟨key, hma⟩) .ingest
  cases stage with
  | lookup =>
    rw [stepIngest] at h
    split at h
    · rename_i c hma
      obtain ⟨cell, -, hce⟩ := map_eq_some_iff.mp h
      split at hma
      · split at hce
        · cases hce
          exact hm _ _ (.refl s) rfl
        · cases hce
          exact he c _ hma
      · cases hma
    · cases h
      exact hm _ _ (.refl s) rfl
  | backend =>
    cases h
    exact hm _ _ (.refl s) (by split <;> rfl)
  | entry =>
    rw [stepIngest] at h
    split at h
    · cases h
      exact effect_rejectToken rfl
    split at h
    · rename_i c hma
      obtain ⟨cell, -, hce⟩ := map_eq_some_iff.mp h
      split at hce
      · cases hce
        exact hm _ _ (.remove s _) rfl
      · cases hce
        exact he c _ hma
    · have := effect_ingestVacant (s := s) packet packet.tuple token held .entry answer
      rwa [Option.some.inj h] at this
  | existing c =>
    obtain ⟨cell, hc, hce⟩ := map_eq_some_iff.mp h
    have := effect_ingestCell packet token held answer hc
    rwa [hce] at this
  | rejecting =>
    have := effect_rejectKey (s := s) packet token held .rejecting answer
    rwa [Option.some.inj h] at this
  | marking c =>
    obtain ⟨cell, hc, hce⟩ := map_eq_some_iff.mp h
    have := effect_markCancelling packet token held answer hc
    rwa [hce] at this

theorem effect_killCell (hc : s.cells c = some cell)
    (hst : cell.state = .pending startedAt armed cancelling verdicts) (hs : Same (killCell s c cell now).1 s') :
    Effect s (.work c stage) s' (killCell s c cell now).2 := by
  have hv : (killCell s c cell now).2 = .sends (dropAll verdicts) := by
    rw [killCell, hst]
    rfl
  rw [hv]
  exact .settle .dead hc hst (fun _ => rfl) hs

theorem effect_commitCell (transition : UdpDecisionTransition) (deadline : ℕ) (answer : Answer) (hc : s.cells c = some cell) :
    Ran s (.work c stage) (commitCell s c cell transition deadline answer) := by
  have hid : Effect s (.work c stage) s .idle := effect_idle (.refl s) rfl
  have he : Effect s (.work c stage) s (.work c .expireCommit) := effect_work (.refl s) rfl (.inl rfl)
  unfold commitCell applyPendingCommit
  by_cases hd : deadline ≤ answer.now
  · simp only [if_pos hd]
    exact he
  simp only [if_neg hd]
  cases hs : cell.state with
  | pending startedAt armed cancelling verdicts =>
    cases armed with
    | true => exact hid
    | false =>
      cases cancelling with
      | true => exact hid
      | false =>
        cases answer.result with
        | none => exact hid
        | some result =>
          cases result with
          | applied =>
            cases transition with
            | armDirect mark => exact .arm hc hs
            | activateDirect mark => exact hid
            | activateProxy outbound mark => exact .settle .proxy hc hs nofun (.refl _)
            | block => exact .settle .block hc hs nofun (.refl _)
          | missing | superseded | tokenMismatch | stateMismatch => exact hid
  | activeDirect _ _ | proxy _ | block _ | dead _ => exact hid

theorem effect_stepWork (answer : Answer) (stage : WorkStage) (hc : s.cells c = some cell) :
    Ran s (.work c stage) (stepWork s c cell answer stage) := by
  have hid : Effect s (.work c stage) s .idle := effect_idle (.refl s) rfl
  have hw : ∀ stage', Effect s (.work c stage) s (.work c stage') := fun stage' => effect_work (.refl s) rfl (.inl rfl)
  have hr : Effect s (.work c stage) s (.rematch cell.identity) :=
    effect_free (.refl s) rfl rfl (by rintro c ⟨_, _, h⟩; cases h) nofun
  have hre : ∀ key, Effect s (.work c stage) (s.remove key) .idle := fun key => effect_idle (.remove s key) rfl
  fun_cases stepWork s c cell answer stage with
  | case3 transition deadline => exact effect_commitCell transition deadline answer hc
  | case6 _ _ _ hs s' task hk =>
    obtain ⟨rfl, rfl⟩ : _ = s' ∧ _ = task := ⟨congrArg Prod.fst hk, congrArg Prod.snd hk⟩
    exact effect_killCell hc hs (.scheduleCleanup _)
  | case8 _ _ _ hs | case18 _ _ _ hs => exact effect_killCell hc hs (.refl _)
  | case1 | case4 | case5 | case12 | case14 | case17 => exact hw _
  | case10 =>
    split
    · exact hw _
    · exact hid
  | case11 wait =>
    cases wait with
    | true => exact hr
    | false => exact hid
  | case16 wait =>
    split
    · cases wait with
      | true => exact hr
      | false => exact hid
    · exact hw _
  | case21 key => exact hre key
  | case23 key =>
    split
    · exact hre key
    · exact hid
  | _ => exact hid

theorem effect_stepFinish (mark : BitVec 32) (answer : Answer) (stage : FinishStage) (hc : s.cells c = some cell) :
    Ran s (.finish c mark stage) (stepFinish s c cell mark answer stage) := by
  have hid : (Task.finish c mark stage).held = [] → Effect s (.finish c mark stage) s .idle := effect_idle (.refl s)
  have hw : ∀ stage', (Task.finish c mark stage).held = [] → Effect s (.finish c mark stage) s (.work c stage') :=
    fun stage' h => effect_work (.refl s) h (.inl rfl)
  have hf : ∀ stage', (Task.finish c mark stage').held = (Task.finish c mark stage).held →
      Effect s (.finish c mark stage) s (.finish c mark stage') := fun stage' h =>
    .internal (.refl s) (fun c' hc' => .inl hc') (.finish h)
  fun_cases stepFinish s c cell mark answer stage with
  | case1 =>
    split
    · exact hf _ rfl
    · exact hw _ rfl
  | case2 =>
    split
    · exact hw _ rfl
    · exact hf _ rfl
  | case4 _ _ _ hs => exact .take hc hs
  | case7 held rest =>
    apply Effect.accept
    split
    · exact .inl rfl
    · exact .inr rfl
  | case8 =>
    split
    · split
      · exact hf _ rfl
      · exact hw _ rfl
    · exact hid rfl
  | case9 => exact hw _ rfl
  | case11 startedAt cancelling verdicts hs _ he =>
    rw [not_not] at he
    rw [he] at hs
    exact .activate hc hs
  | case3 | case6 | case10 => exact hf _ rfl
  | _ => exact hid rfl

theorem effect_of_step (h : step s l input = some (s', l')) : Effect s l s' l' := by
  cases input with
  | abandon =>
    cases h
    exact .internal (.refl s) nofun (.drop l)
  | go answer =>
    cases l with
    | idle =>
      obtain ⟨operation, -, hs⟩ := map_eq_some_iff.mp h
      have := effect_start (s := s) answer operation
      rwa [hs] at this
    | ingest packet token held stage => exact effect_stepIngest h
    | sends batch =>
      cases batch with
      | nil =>
        cases h
        exact effect_idle (.refl s) rfl
      | cons entry rest =>
        cases h
        apply Effect.send
        cases answer.ready with
        | true => exact .inl rfl
        | false => exact .inr rfl
    | work c stage =>
      obtain ⟨cell, hc, hw⟩ := map_eq_some_iff.mp h
      have := effect_stepWork answer stage hc
      rwa [hw] at this
    | rematch identity =>
      have : Ran s (.rematch identity) (startWork s identity .waitArmed) := effect_startWork rfl
      rwa [Option.some.inj h] at this
    | finish c mark stage =>
      obtain ⟨cell, hc, hf⟩ := map_eq_some_iff.mp h
      have := effect_stepFinish mark answer stage hc
      rwa [hf] at this

end Honk.Nfqueue
