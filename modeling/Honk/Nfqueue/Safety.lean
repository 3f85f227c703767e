import Honk.Nfqueue.Invariant

namespace Honk.Nfqueue

open Honk.Lib Honk.Routing Honk.Conntrack List Function HeldVerdict

variable {s s' : Correlator} {l l' m : Task} {c : ℕ} {cell : FlowCell} {e : Event}

theorem Shared.same (h : Shared s) (hs : Same s s') : Shared s' := by
  refine ⟨?_, ?_, ?_, ?_, ?_, ?_, ?_⟩
  · rw [hs.log]
    exact h.safe
  · rw [hs.cells, hs.nextCell]
    exact h.freshCells
  · rw [hs.log, hs.nextCell]
    exact h.cellEvents
  · rw [hs.log, hs.arrivals]
    exact h.arrivedBelow
  · intro key c hm
    rw [hs.cells]
    exact h.mapped key c (hs.map key c hm)
  · rw [hs.cells, hs.log]
    exact h.cells
  · rw [hs.log]
    exact h.direct

theorem Owner.congr (h : Owner s l) (hce : s'.cells = s.cells) (hl : s'.log = s.log) : Owner s' l := by
  refine ⟨h.nodup, fun g hg => ?_, fun c hc => ?_, ?_⟩
  · rw [Live, hce, hl]
    exact h.live g hg
  · rw [hce]
    exact h.cell c hc
  have hpu := h.purpose
  cases l with
  | ingest packet token held stage | sends batch =>
    rw [Purpose, hl]
    exact hpu
  | finish c mark stage =>
    rw [Purpose, Finishing, hce, hl]
    exact hpu
  | idle | work _ _ | rematch _ => trivial

theorem Kept.same (h : Kept s l s' l') (hs : Same s' s'') : Kept s l s'' l' := by
  refine ⟨h.shared.same hs, h.own.congr hs.cells hs.log, fun m hm ha => ?_⟩
  obtain ⟨hm', ha'⟩ := h.others m hm ha
  exact ⟨hm'.congr hs.cells hs.log, ha'⟩

theorem Shared.lt_nextCell (h : Shared s) (hc : s.cells c = some cell) : c < s.nextCell := by
  by_contra hl
  rw [h.freshCells c (Nat.le_of_not_lt hl)] at hc
  cases hc

theorem dropAll_fst : (dropAll batch).map Prod.fst = batch := by
  rw [dropAll, map_map]
  exact map_id _

theorem guards_dropAll (batch : List HeldVerdict) : (Task.sends (dropAll batch)).guards = batch.map guard := by
  rw [Task.guards, Task.held, dropAll_fst]

theorem purpose_dropAll (s : Correlator) (batch : List HeldVerdict) : Purpose s (.sends (dropAll batch)) := by
  intro held mark hm
  obtain ⟨_, _, h⟩ := mem_map.mp hm
  cases h

theorem not_finishes_sends (c : ℕ) : ¬ (Task.sends batch).Finishes c := by
  rintro ⟨_, _, h⟩
  cases h

theorem owner_idle : Owner s .idle := ⟨nodup_nil, nofun, nofun, trivial⟩

theorem apart_idle (m : Task) : Apart .idle m := by
  refine ⟨nofun, ?_⟩
  rintro c ⟨_, _, h⟩
  cases h

theorem kept_continues (h : Shared s) (ho : Owner s l)
    (hce : ∀ c, l'.cell = some c → l.cell = some c ∨ ∃ key, s.map key = some c) (hl : Continues l l') : Kept s l s l' := by
  have hg : l'.guards = l.guards := by
    cases hl with
    | free hfr hfr' _ => rw [Task.guards, Task.guards, hfr, hfr']
    | ingest => rfl
    | finish h => rw [Task.guards, Task.guards, h]
    | drop => exact guards_dropAll _
  have hfi : ∀ c, l'.Finishes c → l.Finishes c := by
    intro c hf
    cases hl with
    | free _ _ hn => exact absurd hf (hn c)
    | ingest =>
      obtain ⟨_, _, hf⟩ := hf
      cases hf
    | finish =>
      obtain ⟨_, _, hf⟩ := hf
      cases hf
      exact ⟨_, _, rfl⟩
    | drop => exact absurd hf (not_finishes_sends c)
  refine ⟨h, ⟨hg ▸ ho.nodup, hg ▸ ho.live, fun c hc => ?_, ?_⟩, fun m hm ha => ⟨hm, ?_, ?_⟩⟩
  · rcases hce c hc with hc | ⟨key, hma⟩
    · exact ho.cell c hc
    · exact h.mapped key c hma
  · have hpu := ho.purpose
    cases hl with
    | free _ hfr hn =>
      cases l' with
      | ingest packet token held stage => cases hfr
      | sends batch =>
        rw [Task.held, map_eq_nil_iff] at hfr
        rw [hfr]
        exact nofun
      | finish c mark stage => exact absurd ⟨mark, stage, rfl⟩ (hn c)
      | idle | work _ _ | rematch _ => trivial
    | ingest => exact hpu
    | finish =>
      rw [Purpose, hg]
      exact hpu
    | drop => exact purpose_dropAll s _
  · rw [hg]
    exact ha.1
  · exact fun c hf => ha.2 c (hfi c hf)

theorem Shared.unborn (h : Shared s) (he : e ∈ s.log) : e.reaches ≠ some s.arrivals ∧ e.sends ≠ some s.arrivals := by
  have hn : ∀ token, .arrived s.arrivals token ∉ s.log := fun token hm => Nat.lt_irrefl _ (h.arrivedBelow _ token hm)
  constructor
  · intro hr
    obtain ⟨token, hm⟩ := exists_arrived h.safe he (.inl hr)
    exact hn token hm
  intro hs
  obtain ⟨token, hm⟩ := exists_arrived h.safe he (.inr hs)
  exact hn token hm

theorem Shared.arrive (h : Shared s) (token : Option (BitVec 32)) : Shared (s.arrive token) := by
  refine ⟨⟨fun t hm => Nat.lt_irrefl _ (h.arrivedBelow _ t hm), h.safe⟩, h.freshCells, ?_, ?_, h.mapped, ?_, ?_⟩
  · intro e he c hc
    rcases mem_cons.mp he with rfl | he
    · cases hc
    · exact h.cellEvents e he c hc
  · intro g t hm
    rcases mem_cons.mp hm with heq | hm
    · cases heq
      exact Nat.lt_succ_self _
    · exact Nat.lt_succ_of_lt (h.arrivedBelow g t hm)
  · exact fun c cell hc => (h.cells c cell hc).cons nofun fun _ _ => nofun
  · intro c hd phase hm
    exact h.direct c (hd.of_cons nofun) phase (mem_of_untouched hm nofun rfl)

theorem kept_arrive (h : Shared s) {held : HeldVerdict} (hg : held.guard = s.arrivals) (hce : l'.cell = none)
    (hl' : l' = .sends [(held, .drop)] ∨ ∃ packet t stage, token = some t ∧ l' = .ingest packet t held stage) :
    Kept s l (s.arrive token) l' := by
  have hgu : l'.guards = [s.arrivals] := by
    rcases hl' with rfl | ⟨packet, t, stage, -, rfl⟩ <;> exact congrArg ([·]) hg
  have hl : Live (s.arrive token) s.arrivals := by
    refine ⟨⟨token, mem_cons_self⟩, fun verdict hme => ?_, fun c cell hc hin => ?_⟩
    · exact (h.unborn (mem_of_ne_of_mem (by simp) hme)).2 rfl
    · exact (h.unborn ((h.cells c cell hc).held _ hin).2.1).1 rfl
  refine ⟨h.arrive token, ⟨hgu ▸ nodup_singleton _, ?_, ?_, ?_⟩, fun m hm ha => ⟨?_, ?_, ?_⟩⟩
  · rw [hgu]
    intro g hme
    rw [mem_singleton.mp hme]
    exact hl
  · rw [hce]
    rintro _ ⟨⟩
  · rcases hl' with rfl | ⟨packet, t, stage, rfl, rfl⟩
    · exact purpose_dropAll _ [held]
    · rw [Purpose, hg]
      refine ⟨fun c hr => ?_, mem_cons_self⟩
      rcases hr.of_cons (by rintro ⟨⟩) with hr | hr <;> exact (h.unborn hr).1 rfl
  · refine hm.cons rfl (fun c hc => hc) (fun g _ => by simp [Event.sends]) (fun g _ => by simp [Event.reaches])
      (fun g hg' => (hm.live g hg').2.2) fun c mark stage _ hf => ?_
    exact hf.cons rfl rfl (by rintro ⟨⟩) (by rintro _ _ _ _ ⟨⟩)
  · rw [hgu]
    intro g hme hin
    rw [mem_singleton.mp hme] at hin
    obtain ⟨t, ht⟩ := (hm.live _ hin).1
    exact Nat.lt_irrefl _ (h.arrivedBelow _ t ht)
  intro c hf
  rcases hl' with rfl | ⟨packet, t, stage, -, rfl⟩ <;>
  · obtain ⟨_, _, hf⟩ := hf
    cases hf

variable {state : CellState}

theorem put_cells_self : (s.put c cell state events).cells c = some { cell with state } := update_self ..

theorem local_of_cell (h : e.cell = some c) : (∀ c', e.touches = some c' → c' = c) ∧ e.sends = none ∧ ∀ g t, e ≠ .arrived g t := by
  cases e <;> cases h <;> simp [Event.touches, Event.sends]

structure Writes (s s' : Correlator) (c : ℕ) (cell : FlowCell) : Prop where
  self : s'.cells c = some cell
  other : ∀ c', c' ≠ c → s'.cells c' = s.cells c'
  below : c < s'.nextCell
  next : s.nextCell ≤ s'.nextCell
  arrivals : s'.arrivals = s.arrivals
  map : ∀ key c', s'.map key = some c' → c' = c ∨ s.map key = some c'

theorem Shared.writes_put (h : Shared s) (hc : s.cells c = some cell) (state : CellState) (events : List Event) :
    Writes s (s.put c cell state events) c { cell with state } :=
  ⟨update_self .., fun _ hn => update_of_ne hn .., h.lt_nextCell hc, le_rfl, rfl, fun _ _ h => .inr h⟩

section

variable {c' : ℕ} {cell' : FlowCell} (hw : Writes s s' c cell)

include hw

theorem Writes.cases (hc' : s'.cells c' = some cell') : c' = c ∧ cell' = cell ∨ c' ≠ c ∧ s.cells c' = some cell' := by
  by_cases hn : c' = c
  · rw [hn, hw.self] at hc'
    exact .inl ⟨hn, (Option.some.inj hc').symm⟩
  · exact .inr ⟨hn, (hw.other c' hn).symm.trans hc'⟩

theorem Writes.isSome (h : (s.cells c').isSome) : (s'.cells c').isSome := by
  by_cases hn : c' = c
  · rw [hn, hw.self]
    rfl
  · rwa [hw.other c' hn]

theorem Writes.mapped (h : Shared s) (hm : s'.map key = some c') : (s'.cells c').isSome := by
  rcases hw.map key c' hm with rfl | hm
  · rw [hw.self]
    rfl
  · exact hw.isSome (h.mapped key c' hm)

theorem Writes.fresh (h : Shared s) (hl : s'.nextCell ≤ c') : s'.cells c' = none := by
  rw [hw.other c' (hw.below.trans_le hl).ne']
  exact h.freshCells c' (hw.next.trans hl)

theorem Shared.write (h : Shared s) (hl : s'.log = e :: s.log) (hs : Safe e s.log) (he : e.cell = some c) (hc : CellOk (e :: s.log) c cell)
    (hdi : Direct (e :: s.log) c → ∀ phase, .settled c phase ∉ e :: s.log) : Shared s' := by
  obtain ⟨hto, hse, ha⟩ := local_of_cell he
  have ho : ∀ c', c' ≠ c → e.touches ≠ some c' := fun c' hn ht => hn (hto c' ht)
  refine ⟨hl ▸ ⟨hs, h.safe⟩, fun _ => hw.fresh h, ?_, ?_, fun key _ => hw.mapped h, ?_, ?_⟩
  all_goals rw [hl]
  · intro e' he' c' ht
    rcases mem_cons.mp he' with rfl | he'
    · rw [hto c' ht]
      exact hw.below
    · exact (h.cellEvents e' he' c' ht).trans_le hw.next
  · intro g t hm
    rw [hw.arrivals]
    rcases mem_cons.mp hm with heq | hm
    · exact absurd heq.symm (ha g t)
    · exact h.arrivedBelow g t hm
  · intro c' cell' hc'
    rcases hw.cases hc' with ⟨rfl, rfl⟩ | ⟨hn, hc'⟩
    · exact hc
    · exact (h.cells c' cell' hc').cons (ho c' hn) fun g _ => by simp [hse]
  · intro c' hd phase hm
    by_cases hn : c' = c
    · rw [hn] at hd hm
      exact hdi hd phase hm
    · exact h.direct c' (hd.of_cons (ho c' hn)) phase (mem_of_untouched hm (ho c' hn) rfl)

theorem Owner.write (hm : Owner s m) (hl : s'.log = e :: s.log) (he : e.cell = some c)
    (hr : ∀ g ∈ m.guards, e.reaches ≠ some g) (hgu : ∀ g ∈ m.guards, g ∉ cell.guards)
    (hfi : ∀ mark stage, m = .finish c mark stage → Finishing s c mark m.guards → Finishing s' c mark m.guards) : Owner s' m := by
  obtain ⟨hto, hse, -⟩ := local_of_cell he
  refine hm.cons hl (fun c' => hw.isSome) (fun g _ => by simp [hse]) hr (fun g hg c' cell' hc' => ?_) fun c' mark stage heq hf => ?_
  · rcases hw.cases hc' with ⟨rfl, rfl⟩ | ⟨-, hc'⟩
    · exact hgu g hg
    · exact (hm.live g hg).2.2 c' cell' hc'
  by_cases hn : c' = c
  · subst hn
    exact hfi mark stage heq hf
  · exact hf.cons (hw.other c' hn) hl (fun ht => hn (hto c' ht)) fun _ _ _ g hs => by simp [hse] at hs

theorem Shared.live_of_emptied (h : Shared s) (hl : s'.log = e :: s.log) (hc : s.cells c = some cell')
    (he : e.cell = some c) (hem : cell.guards = []) (hg : g ∈ cell'.guards) : Live s' g := by
  obtain ⟨hu, hq, ha⟩ := (h.cells c cell' hc).held g hg
  refine ⟨⟨_, hl ▸ mem_cons_of_mem _ ha⟩, hl ▸ hu.cons (by simp [(local_of_cell he).2.1]), fun c₁ cell₁ hc₁ hin => ?_⟩
  rcases hw.cases hc₁ with ⟨rfl, rfl⟩ | ⟨hn, hc₁⟩
  · rw [hem] at hin
    cases hin
  · have hq' := ((h.cells c₁ cell₁ hc₁).held g hin).2.1
    exact hn (Reached.unique h.safe (.inl hq') (.inl hq))

end

theorem Shared.not_finishing_of_unarmed (h : Shared s) (hc : s.cells c = some cell)
    (hs : cell.state = .pending startedAt false cancelling verdicts) : ¬ Finishing s c mark batch := by
  rintro ⟨cell', hc', ha, -⟩
  rw [hc] at hc'
  cases hc'
  have ho := (h.cells c cell hc).state
  rw [hs] at ho
  exact (ho.2.2.2 rfl).1 _ ha

variable {state' : CellState}

theorem Marked.verdicts (h : Marked state state') : state'.verdicts = state.verdicts := by
  cases h <;> rfl

theorem Marked.isArmed (h : Marked state state') : state'.isArmed = state.isArmed := by
  cases h <;> rfl

theorem Marked.stateOk (h : Marked state state') (ho : StateOk log c token state) : StateOk log c token state' := by
  cases h with
  | refl => exact ho
  | mark => exact ⟨ho.1, ho.2.1, ho.2.2.1, fun ha => ⟨(ho.2.2.2 ha).1, nofun⟩⟩

theorem Finishing.mark {mark : BitVec 32} {batch : List ℕ} (hf : Finishing s c mark batch) (hc : s.cells c = some cell)
    (hm : Marked cell.state state) (hce : s'.cells c = some { cell with state }) (hl : s'.log = s.log) :
    Finishing s' c mark batch := by
  obtain ⟨cell', hc', har, hb, hac⟩ := hf
  rw [hc] at hc'
  cases hc'
  refine ⟨_, hce, hl ▸ har, hl ▸ hb, fun ha => ?_⟩
  rw [hm.isArmed] at ha
  rw [hl, FlowCell.guards, hm.verdicts]
  exact hac ha

theorem Owner.mark (h : Shared s) (ho : Owner s m) (hc : s.cells c = some cell)
    (hm : Marked cell.state state) : Owner (s.put c cell state []) m := by
  have hw := h.writes_put hc state []
  refine ⟨ho.nodup, fun g hg => ?_, fun c' hc' => hw.isSome (ho.cell c' hc'), ?_⟩
  · obtain ⟨ha, hu, hin⟩ := ho.live g hg
    refine ⟨ha, hu, fun c' cell' hc' => ?_⟩
    rcases hw.cases hc' with ⟨rfl, rfl⟩ | ⟨-, hc'⟩
    · rw [FlowCell.guards, hm.verdicts]
      exact hin c' cell hc
    · exact hin c' cell' hc'
  have hpu := ho.purpose
  cases m with
  | ingest packet token held stage | sends batch => exact hpu
  | finish c' mark stage =>
    by_cases hn : c' = c
    · subst hn
      exact Finishing.mark hpu hc hm hw.self rfl
    · obtain ⟨cell', hc', hr⟩ := hpu
      exact ⟨cell', (hw.other c' hn).trans hc', hr⟩
  | idle | work _ _ | rematch _ => trivial

theorem Shared.mark (h : Shared s) (hc : s.cells c = some cell) (hm : Marked cell.state state) : Shared (s.put c cell state []) := by
  have hw := h.writes_put hc state []
  refine ⟨h.safe, fun _ => hw.fresh h, h.cellEvents, h.arrivedBelow, fun key _ => hw.mapped h, ?_, h.direct⟩
  intro c' cell' hc'
  rcases hw.cases hc' with ⟨rfl, rfl⟩ | ⟨-, hc'⟩
  · have ho := h.cells c' cell hc
    have hg : FlowCell.guards { cell with state } = cell.guards := by rw [FlowCell.guards, hm.verdicts, FlowCell.guards]
    exact ⟨hg ▸ ho.nodup, hg ▸ ho.held, hm.stateOk ho.state⟩
  · exact h.cells c' cell' hc'

theorem kept_mark (h : Shared s) (ho : Owner s l) (hc : s.cells c = some cell) (hm : Marked cell.state state) :
    Kept s l (s.put c cell state []) l :=
  ⟨h.mark hc hm, ho.mark h hc hm, fun _ hm' ha => ⟨hm'.mark h hc hm, ha⟩⟩

section

variable {packet : QueuedPacket} {held : HeldVerdict} {stage : IngestStage}

variable {token : BitVec 32} {verdict : Verdict} {startedAt : ℕ} {armed cancelling : Bool} {verdicts : List HeldVerdict}

theorem Owner.ingest_guard (ho : Owner s (.ingest packet token held stage)) : Live s held.guard :=
  ho.live held.guard (mem_singleton_self _)

theorem Apart.ingest_guard (ha : Apart (.ingest packet token held stage) m) : held.guard ∉ m.guards :=
  ha.1 held.guard (mem_singleton_self _)

theorem cellOk_handled (h : Shared s) (hc : s.cells c = some cell) (g : ℕ) : CellOk (.handled c g :: s.log) c cell :=
  (h.cells c cell hc).cons nofun fun _ _ => nofun

theorem kept_handled (h : Shared s) (ho : Owner s (.ingest packet cell.token held stage)) (hc : s.cells c = some cell)
    (hv : ∀ mark, verdict = .accept mark → ∃ expiresAt, cell.state = .activeDirect expiresAt mark) :
    Kept s (.ingest packet cell.token held stage) (s.put c cell cell.state [.handled c held.guard]) (.sends [(held, verdict)]) := by
  obtain ⟨hu, har⟩ := ho.purpose
  have hce : (s.put c cell cell.state [.handled c held.guard]).cells = s.cells := by
    change Function.update s.cells c (some cell) = s.cells
    rw [← hc, update_eq_self]
  have hs : Shared (s.put c cell cell.state [.handled c held.guard]) := by
    refine h.write (h.writes_put hc _ _) rfl ⟨hu, ⟨_, har⟩, ho.ingest_guard.2.1⟩ rfl (cellOk_handled h hc _) fun hd phase hme => ?_
    exact h.direct c (hd.of_cons nofun) phase (mem_of_untouched hme nofun rfl)
  refine ⟨hs, ⟨nodup_singleton _, ?_, nofun, ?_⟩, fun m hm ha => ⟨?_, ?_, ?_⟩⟩
  · intro g hg
    rw [mem_singleton.mp hg]
    exact ho.ingest_guard.cons rfl nofun (hce ▸ ho.ingest_guard.2.2)
  · intro held' mark hme
    cases mem_singleton.mp hme
    obtain ⟨expiresAt, hst⟩ := hv mark rfl
    have hok := (h.cells c cell hc).state
    rw [hst] at hok
    exact ⟨c, cell.token, hok.1.cons _, .inr mem_cons_self, mem_cons_of_mem _ har, hok.2.cons _⟩
  · refine hm.write (h.writes_put hc _ _) rfl rfl (fun g hg hr => ?_) (fun g hg => (hm.live g hg).2.2 c cell hc)
      fun mark stage' _ hf => ?_
    · cases hr
      exact ha.ingest_guard hg
    · exact hf.cons (by rw [hce]) rfl nofun nofun
  · exact ha.1
  · exact fun c' hf => absurd hf (not_finishes_sends c')

theorem put_put : (s.put c cell state []).put c { cell with state } state [e] = s.put c cell state [e] := by
  simp only [Correlator.put, update_idem, nil_append]

theorem kept_handle (h : Shared s) (ho : Owner s (.ingest packet cell.token held stage)) (hc : s.cells c = some cell)
    (hm : Marked cell.state state) (hv : ∀ mark, verdict = .accept mark → ∃ expiresAt, cell.state = .activeDirect expiresAt mark) :
    Kept s (.ingest packet cell.token held stage) (s.put c cell state [.handled c held.guard]) (.sends [(held, verdict)]) := by
  have hk := kept_mark h ho hc hm
  have hv' : ∀ mark, verdict = .accept mark → ∃ expiresAt, state = .activeDirect expiresAt mark := by
    intro mark he
    obtain ⟨expiresAt, hs⟩ := hv mark he
    rw [hs] at hm
    cases hm
    exact ⟨expiresAt, rfl⟩
  rw [← put_put]
  have hce : (s.put c cell state []).cells c = some { cell with state } := put_cells_self ..
  have how : Owner (s.put c cell state []) (.ingest packet (FlowCell.token { cell with state }) held stage) := hk.own
  exact hk.trans (kept_handled hk.shared how hce hv')

theorem guards_of_pending (hs : cell.state = .pending startedAt armed cancelling verdicts) : cell.guards = verdicts.map guard := by
  rw [FlowCell.guards, hs]
  rfl

theorem Finishing.push {mark : BitVec 32} {batch : List ℕ} (hf : Finishing s c mark batch) (hc : s.cells c = some cell)
    (hst : cell.state = .pending startedAt armed cancelling verdicts) (hu : Unsent s.log held.guard) :
    Finishing (s.put c cell (.pending startedAt armed cancelling (verdicts ++ [held])) [.queued c held.guard]) c mark batch := by
  obtain ⟨cell', hc', har, hb, hac⟩ := hf
  rw [hc] at hc'
  cases hc'
  refine ⟨_, put_cells_self .., mem_cons_of_mem _ har, fun g hg => (hb g hg).cons (by simp), fun ha => ?_⟩
  rw [hst] at hac
  obtain ⟨done, hq, hv⟩ := hac ha
  have hgu := guards_of_pending hst
  refine ⟨done, ?_, ?_⟩
  · change queuedAt c (.queued c held.guard :: s.log) = done ++ (batch ++ (verdicts ++ [held]).map guard)
    rw [queuedAt_queued, hq, hgu, map_append]
    simp only [append_assoc]
    rfl
  · change verdictsOf (queuedAt c (.queued c held.guard :: s.log)) (.queued c held.guard :: s.log) = _
    rw [queuedAt_queued, verdictsOf_cons fun g hs => (by cases hs), verdictsOf_append hu, hv]

theorem kept_push (h : Shared s) (ho : Owner s (.ingest packet cell.token held stage)) (hc : s.cells c = some cell)
    (hs : cell.state = .pending startedAt armed cancelling verdicts) : Kept s (.ingest packet cell.token held stage)
      (s.put c cell (.pending startedAt armed cancelling (verdicts ++ [held])) [.queued c held.guard]) .idle := by
  obtain ⟨hunreached, har⟩ := ho.purpose
  obtain ⟨-, hun, hin⟩ := ho.ingest_guard
  have hok := h.cells c cell hc
  have hso := hok.state
  rw [hs] at hso
  have hgu := guards_of_pending hs
  have hgu' : FlowCell.guards { cell with state := .pending startedAt armed cancelling (verdicts ++ [held]) } =
      cell.guards ++ [held.guard] := by
    rw [hgu]
    exact map_append
  have hce : CellOk (.queued c held.guard :: s.log) c
      { cell with state := .pending startedAt armed cancelling (verdicts ++ [held]) } := by
    refine ⟨?_, fun g hg => ?_, ?_, ?_, ?_, ?_⟩
    · rw [hgu']
      exact nodup_append.mpr ⟨hok.nodup, nodup_singleton _, fun a ha b hb he => hin c cell hc (mem_singleton.mp hb ▸ he ▸ ha)⟩
    · rw [hgu', mem_append, mem_singleton] at hg
      rcases hg with hg | rfl
      · obtain ⟨hu, hq, ha⟩ := hok.held g hg
        exact ⟨hu.cons nofun, mem_cons_of_mem _ hq, mem_cons_of_mem _ ha⟩
      · exact ⟨hun.cons nofun, mem_cons_self, mem_cons_of_mem _ har⟩
    · exact not_settled_cons hso.1 (by simp)
    · exact not_direct_cons hso.2.1 (by simp) (by simp)
    · exact fun ha => mem_cons_of_mem _ (hso.2.2.1 ha)
    intro ha
    refine ⟨fun t hme => (hso.2.2.2 ha).1 t (mem_of_ne_of_mem (by simp) hme), fun hca => ?_⟩
    · rw [queuedAt_queued, (hso.2.2.2 ha).2 hca, map_append]
      rfl
  refine ⟨?_, owner_idle, fun m hm ha => ⟨?_, apart_idle m⟩⟩
  · refine h.write (h.writes_put hc _ _) rfl ⟨hunreached, ⟨_, har⟩, ho.ingest_guard.2.1⟩ rfl hce fun hd => absurd hd hce.state.2.1
  refine hm.write (h.writes_put hc _ _) rfl rfl (fun g hg hr => ?_) (fun g hg hme => ?_) fun mark stage' _ hf => hf.push hc hs hun
  · cases hr
    exact ha.ingest_guard hg
  rw [hgu', mem_append, mem_singleton] at hme
  rcases hme with hme | rfl
  · exact (hm.live g hg).2.2 c cell hc hme
  · exact ha.ingest_guard hg

theorem kept_flush (h : Shared s) (ho : Owner s (.ingest packet cell.token held stage)) (hc : s.cells c = some cell)
    (hs : cell.state = .pending startedAt false cancelling verdicts) :
    Kept s (.ingest packet cell.token held stage) (s.put c cell (.pending startedAt false true []) [.handled c held.guard])
      (.sends (dropAll (verdicts ++ [held]))) := by
  obtain ⟨hu, har⟩ := ho.purpose
  have hl := ho.ingest_guard
  have hok := cellOk_handled h hc held.guard
  have hso := hok.state
  rw [hs] at hso
  have hgu := guards_of_pending hs
  have hse : (Task.sends (dropAll (verdicts ++ [held]))).guards = cell.guards ++ [held.guard] := by
    rw [guards_dropAll, map_append, hgu]
    rfl
  have hsh : Shared (s.put c cell (.pending startedAt false true []) [.handled c held.guard]) := by
    refine h.write (h.writes_put hc _ _) rfl ⟨hu, ⟨_, har⟩, ho.ingest_guard.2.1⟩ rfl
      ⟨nodup_nil, nofun, hso.1, hso.2.1, hso.2.2.1, fun ha => ⟨(hso.2.2.2 ha).1, ?_⟩⟩
      fun hd => absurd hd hso.2.1
    exact nofun
  refine ⟨hsh, ⟨?_, ?_, nofun, purpose_dropAll _ _⟩, fun m hm ha => ⟨?_, ?_, ?_⟩⟩
  · rw [hse]
    exact nodup_append.mpr ⟨hok.nodup, nodup_singleton _, fun a ha b hb he => hl.2.2 c cell hc (mem_singleton.mp hb ▸ he ▸ ha)⟩
  · rw [hse]
    intro g hg
    rcases mem_append.mp hg with hg | hg
    · exact h.live_of_emptied (h.writes_put hc _ _) rfl hc rfl rfl hg
    rw [mem_singleton.mp hg]
    refine hl.cons rfl nofun fun c' cell' hc' => ?_
    rcases (h.writes_put hc _ _).cases hc' with ⟨-, rfl⟩ | ⟨-, hc'⟩
    · exact not_mem_nil
    · exact hl.2.2 c' cell' hc'
  · refine hm.write (h.writes_put hc _ _) rfl rfl (fun g hg hr => ?_) (fun g _ => not_mem_nil)
      fun mark stage' _ hf => absurd hf (h.not_finishing_of_unarmed hc hs)
    cases hr
    exact ha.ingest_guard hg
  · rw [hse]
    intro g hg hgm
    rcases mem_append.mp hg with hg | hg
    · exact (hm.live g hgm).2.2 c cell hc hg
    · rw [mem_singleton.mp hg] at hgm
      exact ha.ingest_guard hgm
  · exact fun c' hf => absurd hf (not_finishes_sends c')

end

section

variable {packet : QueuedPacket} {held : HeldVerdict} {stage : IngestStage} {key : FlowKey}

theorem Shared.not_touched (h : Shared s) (he : e ∈ s.log) : e.touches ≠ some s.nextCell := fun ht =>
  Nat.lt_irrefl _ (h.cellEvents e he _ ht)

theorem insert_cells_self (s : Correlator) (key : FlowKey) (cell : FlowCell) (events : List Event) :
    (s.insert key cell events).cells s.nextCell = some cell := update_self ..

theorem writes_insert (s : Correlator) (key : FlowKey) (cell : FlowCell) (events : List Event) :
    Writes s (s.insert key cell events) s.nextCell cell := by
  refine ⟨update_self .., fun _ hn => update_of_ne hn .., Nat.lt_succ_self _, Nat.le_succ _, rfl, ?_⟩
  intro key' c' hm
  change Function.update s.map key (some s.nextCell) key' = some c' at hm
  by_cases hk : key' = key
  · rw [hk, update_self] at hm
    exact .inl (Option.some.inj hm).symm
  · rw [update_of_ne hk] at hm
    exact .inr hm

variable (h : Shared s)
include h

theorem Shared.not_finishing_nextCell {mark : BitVec 32} {batch : List ℕ} : ¬ Finishing s s.nextCell mark batch := by
  rintro ⟨cell', hc, -⟩
  exact Nat.lt_irrefl _ (h.lt_nextCell hc)

theorem Shared.settled_nextCell (phase : Phase) : .settled s.nextCell phase ∉ s.log := fun hm => h.not_touched hm rfl

theorem Shared.direct_nextCell : ¬ Direct s.log s.nextCell := by
  rintro (⟨x, hm⟩ | ⟨x, hm⟩) <;> exact h.not_touched hm rfl

theorem kept_openPending (ho : Owner s (.ingest packet cell.token held stage)) (hs : cell.state = .pending startedAt false false [held]) :
    Kept s (.ingest packet cell.token held stage) (s.insert key cell [.queued s.nextCell held.guard]) .idle := by
  obtain ⟨hu, har⟩ := ho.purpose
  have hl := ho.ingest_guard
  have hgu : cell.guards = [held.guard] := by
    rw [FlowCell.guards, hs]
    rfl
  have hst : StateOk (.queued s.nextCell held.guard :: s.log) s.nextCell cell.token cell.state := by
    rw [hs]
    refine ⟨not_settled_cons h.settled_nextCell (by simp), not_direct_cons h.direct_nextCell (by simp) (by simp),
      nofun, fun _ => ⟨fun t hme => h.not_touched (mem_of_ne_of_mem (by simp) hme) rfl, fun _ => ?_⟩⟩
    rw [queuedAt_queued, queuedAt_eq_nil fun e he => h.not_touched he]
    rfl
  have hc : CellOk (.queued s.nextCell held.guard :: s.log) s.nextCell cell := by
    refine ⟨hgu ▸ nodup_singleton _, fun g hg => ?_, hst⟩
    rw [hgu, mem_singleton] at hg
    rw [hg]
    exact ⟨hl.2.1.cons nofun, mem_cons_self, mem_cons_of_mem _ har⟩
  refine ⟨?_, owner_idle, fun m hm ha => ⟨?_, apart_idle m⟩⟩
  · refine h.write (writes_insert ..) rfl ⟨hu, ⟨_, har⟩, hl.2.1⟩ rfl hc fun hd => absurd hd ?_
    exact not_direct_cons h.direct_nextCell (by simp) (by simp)
  refine hm.write (writes_insert ..) rfl rfl (fun g hg hr => ?_) (fun g hg hme => ?_)
    fun _ _ _ hf => absurd hf h.not_finishing_nextCell
  · cases hr
    exact ha.ingest_guard hg
  rw [hgu, mem_singleton] at hme
  rw [hme] at hg
  exact ha.ingest_guard hg

theorem kept_openTerminal (ho : Owner s l) (hem : cell.state.verdicts = [])
    (hsa : Safe e s.log) (he : e.cell = some s.nextCell) (hr : e.reaches = none)
    (hs : StateOk (e :: s.log) s.nextCell cell.token cell.state)
    (hd : Direct (e :: s.log) s.nextCell → ∀ phase, .settled s.nextCell phase ∉ e :: s.log) :
    Kept s l (s.insert key cell [e]) l := by
  have hgu : cell.guards = [] := by
    rw [FlowCell.guards, hem]
    rfl
  have hc : CellOk (e :: s.log) s.nextCell cell := ⟨hgu ▸ nodup_nil, fun g hg => (by rw [hgu] at hg; cases hg), hs⟩
  have how : ∀ m, Owner s m → Owner (s.insert key cell [e]) m := fun m hm =>
    hm.write (writes_insert ..) rfl he (fun g _ => by simp [hr]) (fun g _ => by simp [hgu])
      fun _ _ _ hf => absurd hf h.not_finishing_nextCell
  exact ⟨h.write (writes_insert ..) rfl hsa he hc hd, how l ho, fun m hm ha => ⟨how m hm, ha⟩⟩

omit h in
theorem insert_put (s : Correlator) (key : FlowKey) (cell : FlowCell) (e e' : Event) :
    (s.insert key cell [e]).put s.nextCell cell cell.state [e'] = s.insert key cell [e', e] := by
  simp only [Correlator.put, Correlator.insert, update_idem]
  rfl

variable (ho : Owner s (.ingest packet cell.token held stage))
include ho

theorem kept_openDirect (hs : cell.state = .activeDirect expiresAt mark) : Kept s (.ingest packet cell.token held stage)
      (s.insert key cell [.handled s.nextCell held.guard, .inspected s.nextCell cell.token]) (.sends [(held, .accept mark)]) := by
  have hop : Kept s (.ingest packet cell.token held stage)
      (s.insert key cell [.inspected s.nextCell cell.token]) (.ingest packet cell.token held stage) := by
    have hq := queuedAt_eq_nil fun e he ht => absurd (h.cellEvents e he _ ht) (lt_irrefl _)
    refine kept_openTerminal h ho (by rw [hs]; rfl) hq rfl rfl ?_ fun _ => ?_
    · rw [hs]
      exact ⟨.inr ⟨_, mem_cons_self⟩, s.nextCell, .inr mem_cons_self⟩
    · exact not_settled_cons h.settled_nextCell (by simp)
  rw [← insert_put]
  refine hop.trans (kept_handled hop.shared hop.own (insert_cells_self ..) fun mark' heq => ?_)
  cases heq
  exact ⟨expiresAt, hs⟩

theorem kept_openSettled (hs : cell.state = phase.state expiresAt) : Kept s (.ingest packet cell.token held stage)
      (s.insert key cell [.handled s.nextCell held.guard, .settled s.nextCell phase]) (.sends [(held, .drop)]) := by
  have hop : Kept s (.ingest packet cell.token held stage)
      (s.insert key cell [.settled s.nextCell phase]) (.ingest packet cell.token held stage) := by
    refine kept_openTerminal h ho ?_ trivial rfl rfl ?_ fun hd => absurd hd ?_
    · rw [hs]
      cases phase <;> rfl
    · rw [hs]
      cases phase <;> trivial
    · exact not_direct_cons h.direct_nextCell (by simp) (by simp)
  rw [← insert_put]
  exact hop.trans (kept_handled hop.shared hop.own (insert_cells_self ..) fun mark' he => by cases he)

end

variable {mark : BitVec 32} {startedAt : ℕ} {armed cancelling : Bool} {verdicts : List HeldVerdict}

theorem kept_arm (h : Shared s) (hc : s.cells c = some cell) (hs : cell.state = .pending startedAt false false verdicts) :
    Kept s (.work c stage) (s.put c cell (.pending startedAt true false verdicts) [.armed c cell.token])
      (.finish c mark .applied) := by
  have ho := h.cells c cell hc
  have hso := ho.state
  rw [hs] at hso
  have hgu := guards_of_pending hs
  have hh : ∀ g ∈ verdicts.map guard, Unsent (.armed c cell.token :: s.log) g := fun g hg => (ho.held g (hgu ▸ hg)).1.cons nofun
  have hqu : queuedAt c (.armed c cell.token :: s.log) = verdicts.map guard := (hso.2.2.2 rfl).2 rfl
  have hce : CellOk (.armed c cell.token :: s.log) c { cell with state := .pending startedAt true false verdicts } := by
    have hsa : FlowCell.guards { cell with state := .pending startedAt true false verdicts } = cell.guards := hgu.symm
    refine ⟨hsa ▸ ho.nodup, fun g hg => ?_, not_settled_cons hso.1 (by simp),
      not_direct_cons hso.2.1 (by simp) (by simp), fun _ => mem_cons_self, nofun⟩
    obtain ⟨-, hq, ha⟩ := ho.held g (hsa ▸ hg)
    exact ⟨hh g hg, mem_cons_of_mem _ hq, mem_cons_of_mem _ ha⟩
  refine ⟨?_, ⟨nodup_nil, nofun, fun c' hc' => ?_, ?_⟩, fun m hm ha => ⟨?_, ?_, ?_⟩⟩
  · exact h.write (h.writes_put hc _ _) rfl trivial rfl hce fun hd => absurd hd hce.state.2.1
  · cases hc'
    rw [put_cells_self]
    rfl
  · refine ⟨_, put_cells_self .., mem_cons_self, nofun, fun _ => ⟨[], hqu, ?_⟩⟩
    refine verdictsOf_eq_nil fun g hg => hh g ?_
    change g ∈ queuedAt c (.armed c cell.token :: s.log) at hg
    rwa [hqu] at hg
  · refine hm.write (h.writes_put hc _ _) rfl rfl nofun (fun g hg hme => ?_)
      fun mark' stage' _ hf => absurd hf (h.not_finishing_of_unarmed hc hs)
    exact (hm.live g hg).2.2 c cell hc (hgu ▸ hme)
  · exact nofun
  rintro c' ⟨mark', stage', he⟩ ⟨mark'', stage'', he'⟩
  cases he
  have hf := hm.purpose
  rw [he'] at hf
  exact h.not_finishing_of_unarmed hc hs hf

theorem kept_settle (h : Shared s) (hc : s.cells c = some cell)
    (hs : cell.state = .pending startedAt armed cancelling verdicts) (hph : armed = true → phase = .dead) :
    Kept s (.work c stage) (s.put c cell (phase.state expiresAt) [.settled c phase]) (.sends (dropAll verdicts)) := by
  have ho := h.cells c cell hc
  have hso := ho.state
  rw [hs] at hso
  have hgu := guards_of_pending hs
  have he : (phase.state expiresAt).verdicts = [] := by cases phase <;> rfl
  have hn : FlowCell.guards { cell with state := phase.state expiresAt } = [] := by
    rw [FlowCell.guards, he]
    rfl
  have hse := (guards_dropAll verdicts).trans hgu.symm
  have hce : CellOk (.settled c phase :: s.log) c { cell with state := phase.state expiresAt } := by
    refine ⟨hn ▸ nodup_nil, fun g hg => ?_, by cases phase <;> trivial⟩
    rw [hn] at hg
    cases hg
  refine ⟨?_, ⟨hse ▸ ho.nodup, ?_, nofun, purpose_dropAll _ _⟩, fun m hm ha => ⟨?_, ?_, ?_⟩⟩
  · refine h.write (h.writes_put hc _ _) rfl trivial rfl hce fun hd => absurd hd ?_
    exact not_direct_cons hso.2.1 (by simp) (by simp)
  · rw [hse]
    exact fun g hg => h.live_of_emptied (h.writes_put hc _ _) rfl hc rfl hn hg
  · refine hm.write (h.writes_put hc _ _) rfl rfl nofun (by simp [hn]) fun mark' stage' _ hf => ?_
    have hde : phase = .dead := by
      cases armed with
      | true => exact hph rfl
      | false => exact absurd hf (h.not_finishing_of_unarmed hc hs)
    obtain ⟨cell', hc', har, hb, -⟩ := hf
    rw [hc] at hc'
    cases hc'
    refine ⟨_, put_cells_self .., mem_cons_of_mem _ har, fun g hg => ?_, fun ha' => ?_⟩
    · obtain ⟨hq, harr, ⟨batch, ht, hin⟩, hbe⟩ := hb g hg
      refine ⟨mem_cons_of_mem _ hq, mem_cons_of_mem _ harr, ⟨batch, mem_cons_of_mem _ ht, hin⟩, ?_, hbe⟩
      rintro phase' heq
      cases heq
      exact ⟨hde, batch, ht, hin⟩
    · rw [hde] at ha'
      cases ha'
  · rw [hse]
    exact fun g hg hgm => (hm.live g hgm).2.2 c cell hc hg
  · exact fun c' hf => absurd hf (not_finishes_sends c')

theorem kept_take (h : Shared s) (ho : Owner s (.finish c mark .take)) (hc : s.cells c = some cell)
    (hs : cell.state = .pending startedAt true cancelling verdicts) : Kept s (.finish c mark .take)
      (s.put c cell (.pending startedAt true cancelling []) [.taken c (verdicts.map guard)])
      (.finish c mark (.accepting verdicts)) := by
  have hok := h.cells c cell hc
  have hso := hok.state
  rw [hs] at hso
  have hgu := guards_of_pending hs
  have ht : (Task.finish c mark (.accepting verdicts)).guards = cell.guards := hgu.symm
  have hn : ∀ phase, .settled c phase ∉ .taken c (verdicts.map guard) :: s.log := not_settled_cons hso.1 (by simp)
  have hce : CellOk (.taken c (verdicts.map guard) :: s.log) c { cell with state := .pending startedAt true cancelling [] } :=
    ⟨nodup_nil, nofun, hn, not_direct_cons hso.2.1 (by simp) (by simp), fun ha => mem_cons_of_mem _ (hso.2.2.1 ha), nofun⟩
  obtain ⟨cell', hc', har, -, hac⟩ := ho.purpose
  rw [hc] at hc'
  cases hc'
  refine ⟨?_, ⟨ht ▸ hok.nodup, ?_, fun c' hc' => ?_, ?_⟩, fun m hm ha => ⟨?_, ?_, ?_⟩⟩
  · exact h.write (h.writes_put hc _ _) rfl trivial rfl hce fun hd => absurd hd hce.state.2.1
  · rw [ht]
    exact fun g hg => h.live_of_emptied (h.writes_put hc _ _) rfl hc rfl rfl hg
  · cases hc'
    rw [put_cells_self]
    rfl
  · refine ⟨_, put_cells_self .., mem_cons_of_mem _ har, fun g hg => ?_, fun _ => ?_⟩
    · rw [ht] at hg
      obtain ⟨-, hq, harr⟩ := hok.held g hg
      exact ⟨mem_cons_of_mem _ hq, mem_cons_of_mem _ harr, ⟨_, mem_cons_self, hgu ▸ hg⟩, takenBefore_of_not_settled hn⟩
    · rw [hs] at hac
      have := (hac rfl).cons (e := .taken c (verdicts.map guard)) nofun nofun
      have hni : FlowCell.guards { cell with state := .pending startedAt true cancelling [] } = [] := rfl
      rw [ht, hni, append_nil]
      exact this
  · refine hm.write (h.writes_put hc _ _) rfl rfl nofun (fun g _ => not_mem_nil) fun mark' stage' he hf => ?_
    exact absurd ⟨mark', stage', he⟩ (ha.2 c ⟨mark, .take, rfl⟩)
  · rw [ht]
    exact fun g hg hgm => (hm.live g hgm).2.2 c cell hc hg
  rintro c' ⟨_, _, he⟩
  cases he
  exact ha.2 c ⟨mark, .take, rfl⟩

theorem kept_activate (h : Shared s) (ho : Owner s (.finish c mark .activate)) (hc : s.cells c = some cell)
    (hs : cell.state = .pending startedAt true cancelling []) : Kept s (.finish c mark .activate)
      (s.put c cell (.activeDirect expiresAt (mark ||| classifiedMark)) [.activated c (mark ||| classifiedMark)]) .idle := by
  have hso := (h.cells c cell hc).state
  rw [hs] at hso
  obtain ⟨cell', hc', har, -, hac⟩ := ho.purpose
  rw [hc] at hc'
  cases hc'
  rw [hs, guards_of_pending hs] at hac
  obtain ⟨done, hq, hv⟩ := hac rfl
  have hsa : Safe (.activated c (mark ||| classifiedMark)) s.log := by
    change verdictsOf (queuedAt c s.log) s.log = (queuedAt c s.log).map fun g => (g, .accept (mark ||| classifiedMark))
    rw [hv, hq]
    exact congrArg _ (append_nil done).symm
  have hce : CellOk (.activated c (mark ||| classifiedMark) :: s.log) c
      { cell with state := .activeDirect expiresAt (mark ||| classifiedMark) } :=
    ⟨nodup_nil, nofun, .inl ⟨_, mem_cons_self⟩, c, .inl (mem_cons_of_mem _ har)⟩
  refine ⟨?_, owner_idle, fun m hm ha => ⟨?_, apart_idle m⟩⟩
  · exact h.write (h.writes_put hc _ _) rfl hsa rfl hce fun _ => not_settled_cons hso.1 (by simp)
  refine hm.write (h.writes_put hc _ _) rfl rfl nofun (fun g _ => not_mem_nil) fun mark' stage' he hf => ?_
  exact absurd ⟨mark', stage', he⟩ (ha.2 c ⟨mark, .activate, rfl⟩)

variable {held : HeldVerdict} {verdict : Verdict}

theorem Shared.send (h : Shared s) (hl : Live s held.guard)
    (ha : ∀ mark, verdict = .accept mark → (∃ token, .arrived held.guard (some token) ∈ s.log ∧ Authorized s.log token) ∧
        ∀ c, Reached s.log c held.guard → TakenBefore c held.guard s.log) : Shared (s.send held verdict) := by
  refine ⟨⟨⟨hl.2.1, hl.1, ha⟩, h.safe⟩, h.freshCells, ?_, ?_, h.mapped, ?_, ?_⟩
  · intro e he c hc
    rcases mem_cons.mp he with rfl | he
    · cases hc
    · exact h.cellEvents e he c hc
  · intro g t hm
    rcases mem_cons.mp hm with heq | hm
    · cases heq
    · exact h.arrivedBelow g t hm
  · intro c cell hc
    refine (h.cells c cell hc).cons nofun fun g hg heq => ?_
    cases heq
    exact hl.2.2 c cell hc hg
  · intro c hd phase hm
    exact h.direct c (hd.of_cons nofun) phase (mem_of_untouched hm nofun rfl)

theorem Owner.send_other (hm : Owner s m) (hl : Live s held.guard) (hg : held.guard ∉ m.guards) : Owner (s.send held verdict) m := by
  refine hm.cons rfl (fun c hc => hc) (fun g hg' he => ?_) nofun (fun g hg' => (hm.live g hg').2.2) fun c mark stage he hf => ?_
  · cases he
    exact hg hg'
  refine hf.cons rfl rfl nofun fun cell hc ha g hs => ?_
  cases hs
  refine ha.not_mem hl.2.1 fun hme => ?_
  rcases mem_append.mp hme with hme | hme
  · exact hg hme
  · exact hl.2.2 c cell hc hme

theorem Live.send (hl : Live s g) (hn : held.guard ≠ g) : Live (s.send held verdict) g :=
  hl.cons rfl (fun he => hn (Option.some.inj he)) hl.2.2

theorem kept_send (h : Shared s) (ho : Owner s (.sends ((held, verdict) :: rest)))
    (hl' : l' = .sends rest ∨ l' = .sends (dropAll (rest.map Prod.fst))) :
    Kept s (.sends ((held, verdict) :: rest)) (s.send held verdict) l' := by
  have hgu : (Task.sends ((held, verdict) :: rest)).guards = held.guard :: l'.guards := by
    rcases hl' with rfl | rfl
    · rfl
    · rw [guards_dropAll]
      rfl
  have hl := ho.live
  have hn := ho.nodup
  rw [hgu] at hl hn
  obtain ⟨hh, ht⟩ := nodup_cons.mp hn
  have hs := hl held.guard mem_cons_self
  refine ⟨h.send hs fun mark he => ?_, ⟨ht, fun g hg => ?_, fun c hc => ?_, ?_⟩, fun m hm ha => ⟨?_, ?_, ?_⟩⟩
  · obtain ⟨c, token, hd, hr, har, hau⟩ := ho.purpose held mark (he ▸ mem_cons_self)
    refine ⟨⟨token, har, hau⟩, fun c' hr' => ?_⟩
    rw [Reached.unique h.safe hr' hr]
    exact takenBefore_of_not_settled (h.direct c hd)
  · exact (hl g (mem_cons_of_mem _ hg)).send fun he => hh (he ▸ hg)
  · rcases hl' with rfl | rfl <;> cases hc
  · rcases hl' with rfl | rfl
    · exact fun held' mark hme => (ho.purpose held' mark (mem_cons_of_mem _ hme)).cons _
    · exact purpose_dropAll _ _
  · exact hm.send_other hs fun hg => ha.1 held.guard (hgu ▸ mem_cons_self) hg
  · exact fun g hg => ha.1 g (hgu ▸ mem_cons_of_mem _ hg)
  · rcases hl' with rfl | rfl <;> exact fun c hf => absurd hf (not_finishes_sends c)

theorem kept_accept (h : Shared s) (ho : Owner s (.finish c mark (.accepting (held :: rest))))
    (hl' : l' = .finish c mark (.accepting rest) ∨ l' = .sends (dropAll rest)) :
    Kept s (.finish c mark (.accepting (held :: rest))) (s.send held (.accept (mark ||| classifiedMark))) l' := by
  have hgu : (Task.finish c mark (.accepting (held :: rest))).guards = held.guard :: l'.guards := by
    rcases hl' with rfl | rfl
    · rfl
    · rw [guards_dropAll]
      rfl
  have hl := ho.live
  have hn := ho.nodup
  rw [hgu] at hl hn
  obtain ⟨hh, ht⟩ := nodup_cons.mp hn
  have hs := hl held.guard mem_cons_self
  obtain ⟨cell, hc, har, hb, hac⟩ := ho.purpose
  rw [hgu] at hb hac
  have hfi := hb held.guard mem_cons_self
  refine ⟨h.send hs fun mark' he => ?_, ⟨ht, fun g hg => ?_, fun c' hc' => ?_, ?_⟩, fun m hm ha => ⟨?_, ?_, ?_⟩⟩
  · refine ⟨⟨cell.token, hfi.arrived, c, .inl har⟩, fun c' hr => ?_⟩
    rw [Reached.unique h.safe hr (.inl hfi.queued)]
    exact hfi.before
  · exact (hl g (mem_cons_of_mem _ hg)).send fun he => hh (he ▸ hg)
  · rcases hl' with rfl | rfl
    · exact ho.cell c' hc'
    · cases hc'
  · rcases hl' with rfl | rfl
    · refine ⟨cell, hc, mem_cons_of_mem _ har, fun g hg => ?_, fun ha => ?_⟩
      · exact (hb g (mem_cons_of_mem _ hg)).cons (by simp)
      · obtain ⟨done, hq, hv⟩ := hac ha
        refine ⟨done ++ [held.guard], ?_, ?_⟩
        · change queuedAt c s.log = _
          rw [hq, append_assoc]
          rfl
        change verdictsOf (queuedAt c s.log) (.verdict held.guard (.accept (mark ||| classifiedMark)) :: s.log) = _
        rw [verdictsOf_verdict (mem_queuedAt.mpr hfi.queued), hv, map_append]
        rfl
    · exact purpose_dropAll _ _
  · exact hm.send_other hs fun hg => ha.1 held.guard (hgu ▸ mem_cons_self) hg
  · exact fun g hg => ha.1 g (hgu ▸ mem_cons_of_mem _ hg)
  rcases hl' with rfl | rfl
  · rintro c' ⟨_, _, he⟩
    cases he
    exact ha.2 c ⟨mark, _, rfl⟩
  · exact fun c' hf => absurd hf (not_finishes_sends c')

end Honk.Nfqueue
