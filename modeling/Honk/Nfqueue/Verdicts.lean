import Honk.Nfqueue.Safety

namespace Honk.Nfqueue

open Honk.Lib Honk.Routing Honk.Conntrack Function
open Function (update)
open List hiding Vector

variable {s s' : Correlator} {c : ℕ} {tasks : ℕ → Task}

theorem kept_of_effect (h : Effect s l s' l') (hs : Shared s) (ho : Owner s l) : Kept s l s' l' := by
  cases h with
  | internal hsa hce hl => exact (kept_continues hs ho hce hl).same hsa
  | arrive _ hg hsa hce hl' => exact (kept_arrive hs hg hce hl').same hsa
  | mark hc hm hsa =>
    have hma := kept_mark hs ho hc hm
    exact (hma.trans (kept_continues hma.shared hma.own (fun c' h => by cases h) (.drop _))).same hsa
  | push hc hst hsa => exact (kept_push hs ho hc hst).same hsa
  | handle hc hm hv hsa => exact (kept_handle hs ho hc hm hv).same hsa
  | flush hc hst hsa => exact (kept_flush hs ho hc hst).same hsa
  | openPending _ hst => exact kept_openPending hs ho hst
  | openDirect _ hst => exact kept_openDirect hs ho hst
  | openSettled _ _ hst hsa => exact (kept_openSettled hs ho hst).same hsa
  | arm hc hst => exact kept_arm hs hc hst
  | settle _ hc hst hph hsa => exact (kept_settle hs hc hst hph).same hsa
  | take hc hst => exact kept_take hs ho hc hst
  | accept hl' => exact kept_accept hs ho hl'
  | send hl' => exact kept_send hs ho hl'
  | activate hc hst => exact kept_activate hs ho hc hst

theorem shared_free (h : Shared s) (hm : ∀ key, s.map key ≠ some c) : Shared { s with cells := update s.cells c none } := by
  refine ⟨h.safe, fun c' hle => ?_, h.cellEvents, h.arrivedBelow, fun key c' hk => ?_, fun c' cell' hc' => ?_, h.direct⟩
  · by_cases hn : c' = c
    · rw [hn]
      exact update_self ..
    · exact (update_of_ne hn ..).trans (h.freshCells c' hle)
  · have hn : c' ≠ c := fun he => hm key (he ▸ hk)
    change (update s.cells c none c').isSome
    rw [update_of_ne hn]
    exact h.mapped key c' hk
  by_cases hn : c' = c
  · rw [hn] at hc'
    change update s.cells c none c = _ at hc'
    rw [update_self] at hc'
    cases hc'
  change update s.cells c none c' = _ at hc'
  rw [update_of_ne hn] at hc'
  exact h.cells c' cell' hc'

theorem live_free (hl : (∃ token, .arrived g token ∈ s.log) ∧ Unsent s.log g)
    (hc : ∀ c' cell', c' ≠ c → s.cells c' = some cell' → g ∉ cell'.guards) :
    Live { s with cells := update s.cells c none } g := by
  refine ⟨hl.1, hl.2, fun c' cell' hc' => ?_⟩
  by_cases hn : c' = c
  · rw [hn] at hc'
    change update s.cells c none c = _ at hc'
    rw [update_self] at hc'
    cases hc'
  change update s.cells c none c' = _ at hc'
  rw [update_of_ne hn] at hc'
  exact hc c' cell' hn hc'

theorem owner_free (hm : Owner s m) (hn : m.cell ≠ some c) : Owner { s with cells := update s.cells c none } m := by
  refine ⟨hm.nodup, fun g hg => ?_, fun c' hc' => ?_, ?_⟩
  · obtain ⟨ha, hu, hin⟩ := hm.live g hg
    exact live_free ⟨ha, hu⟩ fun c' cell' _ hc' => hin c' cell' hc'
  · change (update s.cells c none c').isSome
    rw [update_of_ne (by rintro rfl; exact hn hc')]
    exact hm.cell c' hc'
  have hpu := hm.purpose
  cases m with
  | finish c' mark stage =>
    obtain ⟨cell', hc', hr⟩ := hpu
    refine ⟨cell', ?_, hr⟩
    change update s.cells c none c' = _
    rw [update_of_ne (by rintro rfl; exact hn rfl)]
    exact hc'
  | ingest _ _ _ _ | sends _ => exact hpu
  | idle | work _ _ | rematch _ => trivial

theorem kept_dropAll (h : Shared s) (ho : Owner s (.sends (dropAll verdicts)))
    (hm : ∀ i, Owner s (tasks i) ∧ Apart (.sends (dropAll verdicts)) (tasks i)) :
    Shared { s with log := (verdicts.map fun held => Event.verdict held.guard .drop).reverse ++ s.log } ∧
      ∀ i, Owner { s with log := (verdicts.map fun held => Event.verdict held.guard .drop).reverse ++ s.log } (tasks i) := by
  induction verdicts generalizing s with
  | nil => exact ⟨h, fun i => (hm i).1⟩
  | cons held verdicts ih =>
    have hs := kept_send h ho (.inl rfl)
    have := ih hs.shared hs.own fun i => hs.others (tasks i) (hm i).1 (hm i).2
    rw [map_cons, reverse_cons, append_assoc]
    exact this

theorem kept_reclaim (h : Shared s) (hm : ∀ i, Owner s (tasks i)) (hr : reclaim s tasks s') : Shared s' ∧ ∀ i, Owner s' (tasks i) := by
  obtain ⟨c, cell, hc, hma, ht, rfl⟩ := hr
  have ho := h.cells c cell hc
  have hgu : (Task.sends (dropAll cell.state.verdicts)).guards = cell.guards := guards_dropAll _
  refine kept_dropAll (shared_free h hma) ⟨hgu ▸ ho.nodup, fun g hg => ?_, nofun, purpose_dropAll _ _⟩
    fun i => ⟨owner_free (hm i) (ht i), fun g hg hgm => ?_, fun c' hf => absurd hf (not_finishes_sends c')⟩
  · rw [hgu] at hg
    obtain ⟨hu, hq, ha⟩ := ho.held g hg
    refine live_free ⟨⟨_, ha⟩, hu⟩ fun c' cell' hn hc' hin => ?_
    exact hn (Reached.unique h.safe (.inl ((h.cells c' cell' hc').held g hin).2.1) (.inl hq))
  · rw [hgu] at hg
    exact ((hm i).live g hgm).2.2 c cell hc hg

theorem shared_init : Shared {} where
  safe := trivial
  freshCells _ _ := rfl
  cellEvents _ he := by cases he
  arrivedBelow _ _ he := by cases he
  mapped _ _ h := by cases h
  cells _ _ h := by cases h
  direct _ h := by rcases h with ⟨_, h⟩ | ⟨_, h⟩ <;> cases h

theorem pendingUdpVerdicts_invariant : pendingUdpVerdicts.Invariant Shared Owner Apart where
  symm := Apart.symm
  init := shared_init
  idle := owner_idle
  apart := apart_idle _
  step _ _ _ _ _ hs ho h :=
    have hk := kept_of_effect (effect_of_step h) hs ho
    ⟨hk.shared, hk.own⟩
  others _ _ _ _ _ m hs ho hm ha h := (kept_of_effect (effect_of_step h) hs ho).others m hm ha
  reclaim _ _ _ hs hm hr := kept_reclaim hs hm hr

def Sent (log : List Event) (g : ℕ) : Prop := ∃ verdict, .verdict g verdict ∈ log

def Parked (s : Correlator) (g : ℕ) : Prop := ∃ c cell, s.cells c = some cell ∧ g ∈ cell.guards

def Held (s : Correlator) (tasks : ℕ → Task) (g : ℕ) : Prop := Parked s g ∨ ∃ i, g ∈ (tasks i).guards

def Placed (s : Correlator) (l : Task) (g : ℕ) : Prop := Sent s.log g ∨ Parked s g ∨ g ∈ l.guards

variable {l l' : Task} {g : ℕ} {cell : FlowCell} {state : CellState} {events : List Event}

theorem Sent.append (h : Sent s.log g) (events : List Event) : Sent (events ++ s.log) g := by
  obtain ⟨verdict, h⟩ := h
  exact ⟨verdict, mem_append_right events h⟩

theorem parked_put (hg : g ∈ state.verdicts.map HeldVerdict.guard) : Parked (s.put c cell state events) g :=
  ⟨c, _, update_self .., hg⟩

theorem Parked.put (h : Parked s g) (hc : s.cells c = some cell) : Parked (s.put c cell state events) g ∨ g ∈ cell.guards := by
  obtain ⟨c', cell', hc', hg⟩ := h
  by_cases hn : c' = c
  · subst hn
    rw [hc] at hc'
    cases hc'
    exact .inr hg
  · exact .inl ⟨c', cell', (update_of_ne hn ..).trans hc', hg⟩

theorem Parked.insert (h : Parked s g) (hs : Shared s) (key : FlowKey) (cell : FlowCell) (events : List Event) :
    Parked (s.insert key cell events) g := by
  obtain ⟨c, cell', hc, hg⟩ := h
  exact ⟨c, cell', ((writes_insert s key cell events).other c (hs.lt_nextCell hc).ne).trans hc, hg⟩

theorem Placed.same (h : Placed s l g) (hs : Same s s') : Placed s' l g := by
  rcases h with h | ⟨c, cell, hc, hg⟩ | h
  · exact .inl (hs.log ▸ h)
  · exact .inr (.inl ⟨c, cell, hs.cells ▸ hc, hg⟩)
  · exact .inr (.inr h)

theorem Placed.put (h : Placed s l g) (hc : s.cells c = some cell)
    (hce : g ∈ cell.guards → g ∈ state.verdicts.map HeldVerdict.guard ∨ g ∈ l'.guards)
    (hl : g ∈ l.guards → g ∈ state.verdicts.map HeldVerdict.guard ∨ g ∈ l'.guards) : Placed (s.put c cell state events) l' g := by
  have hpl : g ∈ state.verdicts.map HeldVerdict.guard ∨ g ∈ l'.guards → Placed (s.put c cell state events) l' g := by
    rintro (hg | hg)
    · exact .inr (.inl (parked_put hg))
    · exact .inr (.inr hg)
  rcases h with h | h | h
  · exact .inl (h.append events)
  · rcases h.put hc with h | h
    · exact .inr (.inl h)
    · exact hpl (hce h)
  · exact hpl (hl h)

theorem Placed.insert (h : Placed s l g) (hs : Shared s)
    (hl : g ∈ l.guards → g ∈ cell.guards ∨ g ∈ l'.guards) : Placed (s.insert key cell events) l' g := by
  rcases h with h | h | h
  · exact .inl (h.append events)
  · exact .inr (.inl (h.insert hs key cell events))
  rcases hl h with hg | hg
  · exact .inr (.inl ⟨s.nextCell, cell, insert_cells_self .., hg⟩)
  · exact .inr (.inr hg)

theorem Placed.send (h : Placed s l g) (hl : g ∈ l.guards → g = held.guard ∨ g ∈ l'.guards) : Placed (s.send held verdict) l' g := by
  rcases h with h | h | h
  · exact .inl (h.append [.verdict held.guard verdict])
  · exact .inr (.inl h)
  rcases hl h with rfl | hg
  · exact .inl ⟨verdict, mem_cons_self⟩
  · exact .inr (.inr hg)

theorem Continues.guards (h : Continues l l') (hg : g ∈ l.guards) : g ∈ l'.guards := by
  cases h with
  | free hl _ _ =>
    rw [Task.guards, hl] at hg
    cases hg
  | ingest => exact hg
  | finish hh =>
    rw [Task.guards, hh]
    exact hg
  | drop _ =>
    rw [guards_dropAll]
    exact hg

theorem Effect.placed (h : Effect s l s' l') (hs : Shared s) (hp : Placed s l g) : Placed s' l' g := by
  have hn : ∀ {l : Task}, l.held = [] → g ∉ l.guards := by
    intro l hl hg
    rw [Task.guards, hl] at hg
    cases hg
  cases h with
  | internal hsa _ hl => exact (hp.same hsa).imp_right (Or.imp_right hl.guards)
  | arrive hl _ hsa =>
    rcases hp with hp | hp | hp
    · exact Placed.same (.inl (hp.append [_])) hsa
    · exact Placed.same (s := s.arrive _) (.inr (.inl hp)) hsa
    · exact absurd hp (hn hl)
  | mark hc hm hsa | handle hc hm _ hsa => exact (hp.put hc (fun hg => .inl (hm.verdicts ▸ hg)) .inr).same hsa
  | push hc hst hsa =>
    have hgu := guards_of_pending hst
    refine (hp.put hc (fun hg => .inl ?_) fun hg => .inl ?_).same hsa
    · exact map_append ▸ mem_append_left _ (hgu ▸ hg)
    · exact map_append ▸ mem_append_right _ hg
  | flush hc hst hsa =>
    have hgu := guards_of_pending hst
    refine (hp.put hc (fun hg => .inr ?_) fun hg => .inr ?_).same hsa
    · rw [guards_dropAll, map_append]
      exact mem_append_left _ (hgu ▸ hg)
    · rw [guards_dropAll, map_append]
      exact mem_append_right _ hg
  | openPending _ hst => exact hp.insert hs fun hg => .inl (guards_of_pending hst ▸ hg)
  | openDirect => exact hp.insert hs .inr
  | openSettled _ _ _ hsa => exact (hp.insert hs .inr).same hsa
  | arm hc hst =>
    exact hp.put hc (fun hg => .inl (guards_of_pending hst ▸ hg)) fun hg => absurd hg (hn rfl)
  | settle _ hc hst _ hsa =>
    refine (hp.put hc (fun hg => .inr ?_) fun hg => absurd hg (hn rfl)).same hsa
    rw [guards_dropAll, ← guards_of_pending hst]
    exact hg
  | take hc hst =>
    have hgu := guards_of_pending hst
    refine hp.put hc (fun hg => .inr ?_) fun hg => absurd hg (hn rfl)
    rw [hgu] at hg
    exact hg
  | accept hl' | send hl' =>
    refine hp.send fun hg => (mem_cons.mp hg).imp_right fun hg => ?_
    rcases hl' with rfl | rfl
    · exact hg
    · exact guards_dropAll _ ▸ hg
  | activate hc hst =>
    refine hp.put hc (fun hg => absurd hg ?_) fun hg => absurd hg (hn rfl)
    rw [guards_of_pending hst]
    exact not_mem_nil

theorem Effect.arrived (h : Effect s l s' l') (ha : .arrived g token ∈ s'.log) : .arrived g token ∈ s.log ∨ g ∈ l'.guards := by
  have hpu : ∀ {c cell state e}, (∀ token, e ≠ .arrived g token) → .arrived g token ∈ (s.put c cell state [e]).log →
      .arrived g token ∈ s.log := fun hn ha => (mem_cons.mp ha).resolve_left fun he => hn _ he.symm
  have hin : ∀ {key cell e e'}, (∀ token, e ≠ .arrived g token ∧ e' ≠ .arrived g token) →
      .arrived g token ∈ (s.insert key cell [e, e']).log → .arrived g token ∈ s.log := fun hn ha =>
    ((mem_cons.mp ha).resolve_left fun he => (hn _).1 he.symm) |> mem_cons.mp |>.resolve_left fun he => (hn _).2 he.symm
  cases h with
  | internal hs | mark _ _ hs => exact .inl (hs.log ▸ ha)
  | arrive _ hg hs _ hl' =>
    rw [hs.log] at ha
    rcases mem_cons.mp ha with he | ha
    · cases he
      right
      rcases hl' with rfl | ⟨_, _, _, _, rfl⟩ <;> exact mem_singleton.mpr hg.symm
    · exact .inl ha
  | push _ _ hs | handle _ _ _ hs | flush _ _ hs | settle _ _ _ _ hs => exact .inl (hpu (by simp) (hs.log ▸ ha))
  | openPending | accept | send => exact .inl ((mem_cons.mp ha).resolve_left (by simp))
  | openDirect => exact .inl (hin (by simp) ha)
  | openSettled _ _ _ hs => exact .inl (hin (by simp) (hs.log ▸ ha))
  | arm | take | activate => exact .inl (hpu (by simp) ha)

theorem sent_or_held (h : pendingUdpVerdicts.Reachable s ls) (ha : .arrived g token ∈ s.log) : Sent s.log g ∨ Held s ls g := by
  induction h with
  | init => cases ha
  | step s s' ls i input l' h hs ih =>
    have he : Effect s (ls i) s' l' := effect_of_step hs
    have hsh := (pendingUdpVerdicts_invariant.reachable h).1
    have hse : Placed s (ls i) g → Sent s'.log g ∨ Held s' (update ls i l') g := by
      intro hp
      rcases he.placed hsh hp with hp | hp | hp
      · exact .inl hp
      · exact .inr (.inl hp)
      · exact .inr (.inr ⟨i, by rwa [update_self]⟩)
    rcases he.arrived ha with ha | hg
    · rcases ih ha with hsent | hpa | ⟨j, hg⟩
      · exact hse (.inl hsent)
      · exact hse (.inr (.inl hpa))
      · by_cases hj : j = i
        · exact hse (.inr (.inr (hj ▸ hg)))
        · exact .inr (.inr ⟨j, by rwa [update_of_ne hj]⟩)
    · exact .inr (.inr ⟨i, by rwa [update_self]⟩)
  | reclaim s s' ls h hs ih =>
    obtain ⟨c, cell, hc, -, -, rfl⟩ := hs
    have ha' : .arrived g token ∈ s.log := by
      refine (mem_append.mp ha).resolve_left fun hm => ?_
      obtain ⟨_, -, heq⟩ := mem_map.mp (mem_reverse.mp hm)
      cases heq
    rcases ih ha' with hsent | ⟨c', cell', hc', hg⟩ | hg
    · exact .inl (hsent.append _)
    · by_cases hn : c' = c
      · subst hn
        cases hc.symm.trans hc'
        obtain ⟨held, hm, rfl⟩ := mem_map.mp hg
        exact .inl ⟨.drop, mem_append_left _ (mem_reverse.mpr (mem_map.mpr ⟨held, hm, rfl⟩))⟩
      · exact .inr (.inl ⟨c', cell', (update_of_ne hn ..).trans hc', hg⟩)
    · exact .inr (.inr hg)

theorem Held.unsent (h : pendingUdpVerdicts.Reachable s ls) (hg : Held s ls g) : Unsent s.log g := by
  obtain ⟨hs, ho, -⟩ := pendingUdpVerdicts_invariant.reachable h
  rcases hg with ⟨c, cell, hc, hg⟩ | ⟨i, hg⟩
  · exact ((hs.cells c cell hc).held g hg).1
  · exact ((ho i).live g hg).2.1

theorem verdictsOf_of_sent (h : Always Safe log) (hs : Sent log g) : ∃ verdict, verdictsOf [g] log = [(g, verdict)] := by
  induction log with
  | nil =>
    obtain ⟨_, hs⟩ := hs
    cases hs
  | cons e log ih =>
    by_cases he : e.sends = some g
    · cases e with
      | verdict g' verdict =>
        cases he
        refine ⟨verdict, ?_⟩
        rw [verdictsOf_verdict (mem_singleton_self g), verdictsOf_eq_nil, nil_append]
        intro g' hg'
        rw [mem_singleton.mp hg']
        exact h.1.1
      | _ => cases he
    have ht : Sent log g := by
      obtain ⟨verdict, hs⟩ := hs
      refine ⟨verdict, (mem_cons.mp hs).resolve_left ?_⟩
      rintro rfl
      exact he rfl
    obtain ⟨verdict, hv⟩ := ih h.2 ht
    refine ⟨verdict, ?_⟩
    rwa [verdictsOf_cons]
    rintro g' hg' hm
    rw [mem_singleton.mp hm] at hg'
    exact he hg'

theorem Reached.before_verdict (h : Always Safe log) (hr : Reached log c g) (hl : log = later ++ .verdict g verdict :: earlier) : Reached earlier c g := by
  induction later generalizing log with
  | nil =>
    subst hl
    exact hr.imp (fun hr => (mem_cons.mp hr).resolve_left (by simp)) fun hr => (mem_cons.mp hr).resolve_left (by simp)
  | cons e later ih =>
    subst hl
    have hs : Event.verdict g verdict ∈ later ++ .verdict g verdict :: earlier := by simp
    refine ih h.2 (hr.imp (fun hr => ?_) fun hr => ?_) rfl
    · rcases mem_cons.mp hr with rfl | hr
      · exact absurd hs (h.1.2.2 verdict)
      · exact hr
    rcases mem_cons.mp hr with rfl | hr
    · exact absurd hs (h.1.2.2 verdict)
    · exact hr

/-- Over every interleaving: a packet is held without a verdict or has left with exactly one; what is
accepted was authorized for its own token, and no settled cell had it in its queue; a cell becomes
active once all it ever held was accepted in order. -/
theorem correlator_safe {ls : ℕ → Task} (h : pendingUdpVerdicts.Reachable s ls) :
    (∀ g token, .arrived g token ∈ s.log → (Held s ls g ∧ verdictsOf [g] s.log = []) ∨
      (¬ Held s ls g ∧ ∃ verdict, verdictsOf [g] s.log = [(g, verdict)])) ∧
    (∀ later earlier g mark, s.log = later ++ .verdict g (.accept mark) :: earlier →
      (∃ token, .arrived g (some token) ∈ earlier ∧ Authorized earlier token) ∧
      ∀ c, Reached s.log c g → ∀ after before phase, earlier = after ++ .settled c phase :: before →
        phase = .dead ∧ ∃ batch, .taken c batch ∈ before ∧ g ∈ batch) ∧
    (∀ later earlier c mark, s.log = later ++ .activated c mark :: earlier →
      verdictsOf (queuedAt c earlier) earlier = (queuedAt c earlier).map fun g => (g, .accept mark)) ∧
    ∀ later earlier c token, s.log = later ++ .inspected c token :: earlier → queuedAt c earlier = [] := by
  have hsa : Always Safe s.log := (pendingUdpVerdicts_invariant.reachable h).1.safe
  refine ⟨fun g token ha => ?_, fun later earlier g mark hl => ?_, fun later earlier c mark hl => ?_,
    fun later earlier c token hl => ?_⟩
  · by_cases hg : Held s ls g
    · refine .inl ⟨hg, verdictsOf_eq_nil fun g' hg' => ?_⟩
      rw [mem_singleton.mp hg']
      exact hg.unsent h
    · have hse := (sent_or_held h ha).resolve_right hg
      exact .inr ⟨hg, verdictsOf_of_sent hsa hse⟩
  · obtain ⟨-, -, hac⟩ := hsa.split hl
    obtain ⟨hau, hb⟩ := hac mark rfl
    refine ⟨hau, fun c hr after before phase hs => ?_⟩
    exact (hb c (hr.before_verdict hsa hl)).split hs phase rfl
  · exact hsa.split hl
  · exact hsa.split hl

def sampleKey : FlowKey := ⟨⟨.v4 (Vector.replicate 4 1), 4000⟩, ⟨.v4 (Vector.replicate 4 2), 443⟩⟩

def samplePacket : QueuedPacket := ⟨sampleKey, Conntrack.nfqueueSignatureMark ||| 5, 0⟩

def sampleEntry : ConnState := { decisionToken := 5, incarnation := 9 }

def sampleIdentity : PendingUdpIdentity := ⟨sampleKey, ⟨5, some 9⟩, 1⟩

def ingestSchedule (entry : ConnState) : List (ℕ × Input) :=
  [(0, .go { operation := some (.receive samplePacket) }), (0, .go {}), (0, .go {}),
    (0, .go { conn := some (some entry), reservation := .initializing 1 })]

def armSchedule : List (ℕ × Input) :=
  ingestSchedule { sampleEntry with state := UdpDecisionState.pending.code } ++
    [(1, .go { operation := some (.commit sampleIdentity sampleIdentity (.armDirect 0)) }), (1, .go {}),
      (1, .go { result := some .applied }), (1, .go {}), (1, .go {}), (1, .go {})]

def directSchedule : List (ℕ × Input) :=
  armSchedule ++ [(1, .go {}), (1, .go {}), (1, .go {}), (1, .go { result := some .applied })]

def lateSchedule : List (ℕ × Input) :=
  armSchedule ++ [(2, .go { operation := some (.cancel sampleIdentity true) }), (2, .go {}), (2, .go {}),
    (2, .go { ready := false }), (2, .go {}), (1, .go {})]

theorem exists_reachable_of_run (schedule : List (ℕ × Input)) (log : List Event)
    (h : (pendingUdpVerdicts.run schedule (pendingUdpVerdicts.init, fun _ => pendingUdpVerdicts.idle)).map
      (fun config => config.1.log) = some log) : ∃ s ls, pendingUdpVerdicts.Reachable s ls ∧ s.log = log := by
  obtain ⟨⟨s, ls⟩, hr, hl⟩ := Option.map_eq_some_iff.mp h
  exact ⟨s, ls, System.Reachable.run _ .init hr, hl⟩

theorem correlator_safe_directSchedule : ∃ s ls, pendingUdpVerdicts.Reachable s ls ∧
    s.log = [.activated 0 classifiedMark, .verdict 0 (.accept classifiedMark), .taken 0 [0], .armed 0 5, .queued 0 0,
      .arrived 0 (some 5)] ∧ ∃ token, .arrived 0 (some token) ∈ s.log.drop 2 ∧ Authorized (s.log.drop 2) token := by
  obtain ⟨s, ls, hs, hl⟩ := exists_reachable_of_run directSchedule
    [.activated 0 classifiedMark, .verdict 0 (.accept classifiedMark), .taken 0 [0], .armed 0 5, .queued 0 0,
      .arrived 0 (some 5)] (by decide +kernel)
  refine ⟨s, ls, hs, hl, ?_⟩
  rw [hl]
  exact ((correlator_safe hs).2.1 [.activated 0 classifiedMark] _ 0 classifiedMark hl).1

theorem accept_unarmed_and_accept_dead : (∃ s ls, pendingUdpVerdicts.Reachable s ls ∧
      s.log = [.verdict 0 (.accept classifiedMark), .handled 0 0, .inspected 0 5, .arrived 0 (some 5)]) ∧
    ∃ s ls, pendingUdpVerdicts.Reachable s ls ∧
      s.log = [.verdict 0 (.accept classifiedMark), .settled 0 .dead, .taken 0 [0], .armed 0 5, .queued 0 0,
        .arrived 0 (some 5)] := by
  constructor
  · exact exists_reachable_of_run (ingestSchedule { sampleEntry with
      routingMeta := routingMetaFlagPublished ||| routingMetaFlagOffload } ++ [(0, .go {})]) _ (by decide +kernel)
  · exact exists_reachable_of_run lateSchedule _ (by decide +kernel)

end Honk.Nfqueue
