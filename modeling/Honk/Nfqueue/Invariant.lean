import Honk.Nfqueue.Effect

namespace Honk.Nfqueue

open Honk.Lib Honk.Routing Honk.Conntrack List

section

def Event.touches : Event → Option ℕ
  | .queued c _ | .armed c _ | .inspected c _ | .activated c _ | .settled c _ => some c
  | _ => none

def Event.cell : Event → Option ℕ
  | .arrived _ _ | .verdict _ _ => none
  | .queued c _ | .handled c _ | .armed c _ | .inspected c _ | .taken c _ | .activated c _ | .settled c _ => some c

def Event.sends : Event → Option ℕ
  | .verdict g _ => some g
  | _ => none

def Event.reaches : Event → Option ℕ
  | .queued _ g | .handled _ g => some g
  | _ => none

section

variable (log : List Event)

def Reached (c g : ℕ) : Prop := .queued c g ∈ log ∨ .handled c g ∈ log

def Unsent (g : ℕ) : Prop := ∀ verdict, Event.verdict g verdict ∉ log

def Unreached (g : ℕ) : Prop := ∀ c, ¬ Reached log c g

/-- The backend reported a direct arming of the token as applied, or its flow as active. -/
def Authorized (token : BitVec 32) : Prop := ∃ c, .armed c token ∈ log ∨ .inspected c token ∈ log

def Direct (c : ℕ) : Prop := (∃ mark, .activated c mark ∈ log) ∨ ∃ token, .inspected c token ∈ log

end

@[local simp] def queuedAt (c : ℕ) : List Event → List ℕ
  | [] => []
  | .queued c' g :: log => if c' = c then queuedAt c log ++ [g] else queuedAt c log
  | _ :: log => queuedAt c log

@[local simp] def verdictsOf (guards : List ℕ) : List Event → List (ℕ × Verdict)
  | [] => []
  | .verdict g verdict :: log => if g ∈ guards then verdictsOf guards log ++ [(g, verdict)] else verdictsOf guards log
  | _ :: log => verdictsOf guards log

def TakenBefore (c g : ℕ) : List Event → Prop :=
  Always fun e before => ∀ phase, e = .settled c phase → phase = .dead ∧ ∃ batch, .taken c batch ∈ before ∧ g ∈ batch

def Safe : Event → List Event → Prop
  | .arrived g _, log => ∀ token, .arrived g token ∉ log
  | .queued _ g, log | .handled _ g, log => Unreached log g ∧ (∃ token, .arrived g token ∈ log) ∧ Unsent log g
  | .verdict g verdict, log =>
    Unsent log g ∧ (∃ token, .arrived g token ∈ log) ∧ ∀ mark, verdict = .accept mark →
      (∃ token, .arrived g (some token) ∈ log ∧ Authorized log token) ∧ ∀ c, Reached log c g → TakenBefore c g log
  | .activated c mark, log => verdictsOf (queuedAt c log) log = (queuedAt c log).map fun g => (g, .accept mark)
  | .inspected c _, log => queuedAt c log = []
  | _, _ => True

variable {log : List Event} {e : Event} {c g : ℕ} {guards : List ℕ}

theorem Reached.cons (h : Reached log c g) (e : Event) : Reached (e :: log) c g := h.imp (mem_cons_of_mem e) (mem_cons_of_mem e)

theorem Reached.of_cons (h : Reached (e :: log) c g) (he : e.reaches ≠ some g) : Reached log c g := by
  refine h.imp (mem_of_ne_of_mem ?_) (mem_of_ne_of_mem ?_)
  all_goals
    rintro rfl
    exact he rfl

theorem Unsent.cons (h : Unsent log g) (he : e.sends ≠ some g) : Unsent (e :: log) g := by
  refine fun verdict hm => h verdict (mem_of_ne_of_mem ?_ hm)
  rintro rfl
  exact he rfl

theorem Unreached.cons (h : Unreached log g) (he : e.reaches ≠ some g) : Unreached (e :: log) g :=
  fun c hr => h c (hr.of_cons he)

theorem Authorized.cons (h : Authorized log token) (e : Event) : Authorized (e :: log) token := by
  obtain ⟨c, h⟩ := h
  exact ⟨c, h.imp (mem_cons_of_mem e) (mem_cons_of_mem e)⟩

theorem Direct.cons (h : Direct log c) (e : Event) : Direct (e :: log) c := by
  rcases h with ⟨x, h⟩ | ⟨x, h⟩
  · exact .inl ⟨x, mem_cons_of_mem e h⟩
  · exact .inr ⟨x, mem_cons_of_mem e h⟩

theorem queuedAt_cons (he : e.touches ≠ some c) : queuedAt c (e :: log) = queuedAt c log := by
  cases e with
  | queued c' g =>
    rw [queuedAt, if_neg]
    rintro rfl
    exact he rfl
  | _ => rfl

theorem queuedAt_queued (c g : ℕ) : queuedAt c (.queued c g :: log) = queuedAt c log ++ [g] := by rw [queuedAt, if_pos rfl]

theorem mem_queuedAt : g ∈ queuedAt c log ↔ .queued c g ∈ log := by
  induction log with
  | nil => simp [queuedAt]
  | cons e log ih =>
    by_cases he : ∃ g', e = .queued c g'
    · obtain ⟨g', rfl⟩ := he
      rw [queuedAt_queued, mem_append, ih, mem_singleton, mem_cons, Event.queued.injEq, or_comm]
      simp
    rw [mem_cons, ← ih]
    have hn : Event.queued c g ≠ e := fun h => he ⟨g, h.symm⟩
    cases e with
    | queued c' g' =>
      have hc : c' ≠ c := by
        rintro rfl
        exact he ⟨g', rfl⟩
      rw [queuedAt, if_neg hc]
      simp [hn]
    | _ => simp [queuedAt]

theorem queuedAt_eq_nil (h : ∀ e ∈ log, e.touches ≠ some c) : queuedAt c log = [] := by
  rw [eq_nil_iff_forall_not_mem]
  intro g hg
  exact h _ (mem_queuedAt.mp hg) rfl

theorem verdictsOf_cons (he : ∀ g, e.sends = some g → g ∉ guards) : verdictsOf guards (e :: log) = verdictsOf guards log := by
  cases e with
  | verdict g verdict => rw [verdictsOf, if_neg (he g rfl)]
  | _ => rfl

theorem verdictsOf_verdict (hg : g ∈ guards) : verdictsOf guards (.verdict g verdict :: log) = verdictsOf guards log ++ [(g, verdict)] := by
  rw [verdictsOf, if_pos hg]

theorem mem_of_mem_verdictsOf (h : (g, verdict) ∈ verdictsOf guards log) : .verdict g verdict ∈ log := by
  induction log with
  | nil => cases h
  | cons e log ih =>
    cases e with
    | verdict g' verdict' =>
      rw [verdictsOf] at h
      split at h
      · rcases mem_append.mp h with h | h
        · exact mem_cons_of_mem _ (ih h)
        · cases mem_singleton.mp h
          exact mem_cons_self
      · exact mem_cons_of_mem _ (ih h)
    | _ => exact mem_cons_of_mem _ (ih h)

theorem verdictsOf_append (h : Unsent log g) : verdictsOf (guards ++ [g]) log = verdictsOf guards log := by
  induction log with
  | nil => rfl
  | cons e log ih =>
    have hl : Unsent log g := fun verdict hm => h verdict (mem_cons_of_mem _ hm)
    cases e with
    | verdict g' verdict =>
      have hn : g' ≠ g := by
        rintro rfl
        exact h verdict mem_cons_self
      simp only [verdictsOf, ih hl, mem_append, mem_singleton, hn, or_false]
    | _ => exact ih hl

theorem verdictsOf_eq_nil (h : ∀ g ∈ guards, Unsent log g) : verdictsOf guards log = [] := by
  induction log with
  | nil => rfl
  | cons e log ih =>
    have hl : ∀ g ∈ guards, Unsent log g := fun g hg verdict hm => h g hg verdict (mem_cons_of_mem _ hm)
    rw [verdictsOf_cons, ih hl]
    rintro g hs hg
    cases e with
    | verdict g' verdict =>
      cases hs
      exact h g hg verdict mem_cons_self
    | _ => cases hs

theorem TakenBefore.cons (h : TakenBefore c g log) (he : ∀ phase, e ≠ .settled c phase) :
    TakenBefore c g (e :: log) := ⟨fun phase hp => absurd hp (he phase), h⟩

theorem takenBefore_of_not_settled (h : ∀ phase, .settled c phase ∉ log) : TakenBefore c g log := by
  induction log with
  | nil => trivial
  | cons e log ih =>
    refine ⟨?_, ih fun phase hm => h phase (mem_cons_of_mem _ hm)⟩
    rintro phase rfl
    exact absurd mem_cons_self (h phase)

theorem exists_arrived (h : Always Safe log) (he : e ∈ log) (hg : e.reaches = some g ∨ e.sends = some g) :
    ∃ token, .arrived g token ∈ log := by
  induction log with
  | nil => cases he
  | cons e' log ih =>
    rcases mem_cons.mp he with rfl | hm
    · have hs := h.1
      have hl : (∃ token, Event.arrived g token ∈ log) → ∃ token, Event.arrived g token ∈ e :: log := fun ⟨t, ht⟩ =>
        ⟨t, mem_cons_of_mem _ ht⟩
      cases e with
      | queued c g' | handled c g' | verdict g' verdict =>
        rcases hg with hg | hg <;> cases hg
        exact hl hs.2.1
      | _ => rcases hg with hg | hg <;> cases hg
    · obtain ⟨token, ht⟩ := ih h.2 hm
      exact ⟨token, mem_cons_of_mem _ ht⟩

theorem Reached.unique (h : Always Safe log) (hr : Reached log c g) (hr' : Reached log c' g) : c = c' := by
  induction log with
  | nil => rcases hr with hr | hr <;> cases hr
  | cons e log ih =>
    by_cases he : e.reaches = some g
    · have hu : Unreached log g := by
        have hs := h.1
        cases e with
        | queued _ _ | handled _ _ => cases he; exact hs.1
        | _ => cases he
      have hh : ∀ c, Reached (e :: log) c g → .queued c g = e ∨ .handled c g = e := fun c hr =>
        hr.imp (fun hm => (mem_cons.mp hm).resolve_right fun h => hu c (.inl h))
          fun hm => (mem_cons.mp hm).resolve_right fun h => hu c (.inr h)
      rcases hh c hr with h1 | h1 <;> rcases hh c' hr' with h2 | h2 <;> rw [← h2] at h1 <;> cases h1 <;> rfl
    · exact ih h.2 (hr.of_cons he) (hr'.of_cons he)

end

def FlowCell.guards (cell : FlowCell) : List ℕ := cell.state.verdicts.map HeldVerdict.guard

def StateOk (log : List Event) (c : ℕ) (token : BitVec 32) : CellState → Prop
  | .pending _ armed cancelling verdicts =>
    (∀ phase, .settled c phase ∉ log) ∧ ¬ Direct log c ∧ (armed = true → .armed c token ∈ log) ∧
      (armed = false → (∀ t, .armed c t ∉ log) ∧ (cancelling = false → queuedAt c log = verdicts.map HeldVerdict.guard))
  | .activeDirect _ _ => Direct log c ∧ Authorized log token
  | _ => True

structure CellOk (log : List Event) (c : ℕ) (cell : FlowCell) : Prop where
  nodup : cell.guards.Nodup
  held : ∀ g ∈ cell.guards, Unsent log g ∧ .queued c g ∈ log ∧ .arrived g (some cell.token) ∈ log
  state : StateOk log c cell.token cell.state

section

variable (s : Correlator)

structure Shared : Prop where
  safe : Always Safe s.log
  freshCells : ∀ c, s.nextCell ≤ c → s.cells c = none
  cellEvents : ∀ e ∈ s.log, ∀ c, e.touches = some c → c < s.nextCell
  arrivedBelow : ∀ g token, .arrived g token ∈ s.log → g < s.arrivals
  mapped : ∀ key c, s.map key = some c → (s.cells c).isSome
  cells : ∀ c cell, s.cells c = some cell → CellOk s.log c cell
  direct : ∀ c, Direct s.log c → ∀ phase, .settled c phase ∉ s.log

def Live (g : ℕ) : Prop :=
  (∃ token, .arrived g token ∈ s.log) ∧ Unsent s.log g ∧ ∀ c cell, s.cells c = some cell → g ∉ cell.guards

variable (log : List Event)

def Cleared (g : ℕ) : Prop :=
  ∃ c token, Direct log c ∧ Reached log c g ∧ .arrived g (some token) ∈ log ∧ Authorized log token

def Accounted (c : ℕ) (mark : BitVec 32) (rest : List ℕ) : Prop :=
  ∃ done, queuedAt c log = done ++ rest ∧ verdictsOf (queuedAt c log) log = done.map fun g => (g, .accept (mark ||| classifiedMark))

structure Batched (c : ℕ) (token : BitVec 32) (g : ℕ) : Prop where
  queued : .queued c g ∈ log
  arrived : .arrived g (some token) ∈ log
  taken : ∃ batch, .taken c batch ∈ log ∧ g ∈ batch
  before : TakenBefore c g log

def Finishing (c : ℕ) (mark : BitVec 32) (batch : List ℕ) : Prop :=
  ∃ cell, s.cells c = some cell ∧ .armed c cell.token ∈ s.log ∧ (∀ g ∈ batch, Batched s.log c cell.token g) ∧
    (cell.state.isArmed = true → Accounted s.log c mark (batch ++ cell.guards))

def Purpose : Task → Prop
  | .ingest _ token held _ => Unreached s.log held.guard ∧ .arrived held.guard (some token) ∈ s.log
  | .sends batch => ∀ held mark, (held, .accept mark) ∈ batch → Cleared s.log held.guard
  | .finish c mark stage => Finishing s c mark (Task.finish c mark stage).guards
  | _ => True

structure Owner (l : Task) : Prop where
  nodup : l.guards.Nodup
  live : ∀ g ∈ l.guards, Live s g
  cell : ∀ c, l.cell = some c → (s.cells c).isSome
  purpose : Purpose s l

def Apart (l m : Task) : Prop := (∀ g ∈ l.guards, g ∉ m.guards) ∧ ∀ c, l.Finishes c → ¬ m.Finishes c

theorem Apart.symm (l m : Task) (h : Apart l m) : Apart m l := ⟨fun g hm hl => h.1 g hl hm, fun c hm hl => h.2 c hl hm⟩

structure Kept (l : Task) (s' : Correlator) (l' : Task) : Prop where
  shared : Shared s'
  own : Owner s' l'
  others : ∀ m, Owner s m → Apart l m → Owner s' m ∧ Apart l' m

end

theorem Kept.trans (h : Kept s l s' l') (h' : Kept s' l' s'' l'') : Kept s l s'' l'' := by
  refine ⟨h'.shared, h'.own, fun m hm ha => ?_⟩
  obtain ⟨hm', ha'⟩ := h.others m hm ha
  exact h'.others m hm' ha'

variable {log : List Event} {e : Event} {c g : ℕ} {token mark : BitVec 32} {rest : List ℕ} {s s' : Correlator}

theorem mem_of_untouched (h : e' ∈ e :: log) (he : e.touches ≠ some c) (he' : e'.touches = some c) : e' ∈ log := by
  refine mem_of_ne_of_mem ?_ h
  rintro rfl
  exact he he'

theorem Direct.of_cons (h : Direct (e :: log) c) (he : e.touches ≠ some c) : Direct log c := by
  rcases h with ⟨x, h⟩ | ⟨x, h⟩
  · exact .inl ⟨x, mem_of_untouched h he rfl⟩
  · exact .inr ⟨x, mem_of_untouched h he rfl⟩

theorem not_settled_cons (h : ∀ phase, .settled c phase ∉ log) (he : ∀ phase, e ≠ .settled c phase) :
    ∀ phase, .settled c phase ∉ e :: log := fun phase hm => h phase (mem_of_ne_of_mem (he phase).symm hm)

theorem not_direct_cons (h : ¬ Direct log c) (hm : ∀ mark, e ≠ .activated c mark)
    (ht : ∀ token, e ≠ .inspected c token) : ¬ Direct (e :: log) c := by
  rintro (⟨x, hd⟩ | ⟨x, hd⟩)
  · exact h (.inl ⟨x, mem_of_ne_of_mem (hm x).symm hd⟩)
  · exact h (.inr ⟨x, mem_of_ne_of_mem (ht x).symm hd⟩)

theorem StateOk.cons (h : StateOk log c token state) (he : e.touches ≠ some c) : StateOk (e :: log) c token state := by
  cases state with
  | pending startedAt armed cancelling verdicts =>
    obtain ⟨hs, hdi, har, hu⟩ := h
    refine ⟨fun phase hp => hs phase (mem_of_untouched hp he rfl), fun hd => hdi (hd.of_cons he),
      fun ha => mem_cons_of_mem _ (har ha), fun ha => ?_⟩
    obtain ⟨hn, hq⟩ := hu ha
    exact ⟨fun t ht => hn t (mem_of_untouched ht he rfl), fun hc => (queuedAt_cons he).trans (hq hc)⟩
  | activeDirect expiresAt mark => exact ⟨h.1.cons e, h.2.cons e⟩
  | proxy _ | block _ | dead _ => trivial

theorem CellOk.cons (h : CellOk log c cell) (he : e.touches ≠ some c)
    (hs : ∀ g ∈ cell.guards, e.sends ≠ some g) : CellOk (e :: log) c cell := by
  refine ⟨h.nodup, fun g hg => ?_, h.state.cons he⟩
  obtain ⟨hu, hq, ha⟩ := h.held g hg
  exact ⟨hu.cons (hs g hg), mem_cons_of_mem _ hq, mem_cons_of_mem _ ha⟩

theorem Cleared.cons (h : Cleared log g) (e : Event) : Cleared (e :: log) g := by
  obtain ⟨c, token, hd, hr, ha, hau⟩ := h
  exact ⟨c, token, hd.cons e, hr.cons e, mem_cons_of_mem _ ha, hau.cons e⟩

theorem not_settled_of_touches (he : e.touches ≠ some c) (phase : Phase) : e ≠ .settled c phase := by
  rintro rfl
  exact he rfl

theorem Batched.cons (h : Batched log c token g) (he : ∀ phase, e ≠ .settled c phase) : Batched (e :: log) c token g := by
  obtain ⟨batch, ht, hg⟩ := h.taken
  exact ⟨mem_cons_of_mem _ h.queued, mem_cons_of_mem _ h.arrived, ⟨batch, mem_cons_of_mem _ ht, hg⟩, h.before.cons he⟩

theorem Accounted.cons (h : Accounted log c mark rest) (he : e.touches ≠ some c)
    (hs : ∀ g, e.sends = some g → g ∉ queuedAt c log) : Accounted (e :: log) c mark rest := by
  obtain ⟨done, hq, hv⟩ := h
  refine ⟨done, (queuedAt_cons he).trans hq, ?_⟩
  rw [queuedAt_cons he, verdictsOf_cons hs, hv]

theorem Finishing.cons (h : Finishing s c mark batch) (hce : s'.cells c = s.cells c) (hl : s'.log = e :: s.log) (he : e.touches ≠ some c)
    (hs : ∀ cell, s.cells c = some cell → Accounted s.log c mark (batch ++ cell.guards) →
      ∀ g, e.sends = some g → g ∉ queuedAt c s.log) : Finishing s' c mark batch := by
  obtain ⟨cell, hc, har, hb, hac⟩ := h
  refine ⟨cell, hce.trans hc, hl ▸ mem_cons_of_mem _ har, fun g hg => hl ▸ (hb g hg).cons (not_settled_of_touches he), fun ha => ?_⟩
  rw [hl]
  exact (hac ha).cons he (hs cell hc (hac ha))

theorem Accounted.not_mem (h : Accounted log c mark rest) (hu : Unsent log g) (hg : g ∉ rest) : g ∉ queuedAt c log := by
  obtain ⟨done, hq, hv⟩ := h
  intro hm
  rw [hq] at hm
  rcases mem_append.mp hm with hd | hr
  · have : (g, Verdict.accept (mark ||| classifiedMark)) ∈ verdictsOf (queuedAt c log) log := by
      rw [hv]
      exact mem_map_of_mem hd
    exact hu _ (mem_of_mem_verdictsOf this)
  · exact hg hr

theorem Live.cons (h : Live s g) (hl : s'.log = e :: s.log) (hs : e.sends ≠ some g)
    (hc : ∀ c cell, s'.cells c = some cell → g ∉ cell.guards) : Live s' g := by
  obtain ⟨⟨token, ha⟩, hu, -⟩ := h
  exact ⟨⟨token, hl ▸ mem_cons_of_mem _ ha⟩, hl ▸ hu.cons hs, hc⟩

theorem Owner.cons (h : Owner s m) (hl : s'.log = e :: s.log)
    (hso : ∀ c, (s.cells c).isSome → (s'.cells c).isSome) (hs : ∀ g ∈ m.guards, e.sends ≠ some g)
    (hr : ∀ g ∈ m.guards, e.reaches ≠ some g) (hce : ∀ g ∈ m.guards, ∀ c cell, s'.cells c = some cell → g ∉ cell.guards)
    (hf : ∀ c mark stage, m = .finish c mark stage → Finishing s c mark m.guards → Finishing s' c mark m.guards) : Owner s' m := by
  refine ⟨h.nodup, fun g hg => (h.live g hg).cons hl (hs g hg) (hce g hg), fun c hc => hso c (h.cell c hc), ?_⟩
  have hpu := h.purpose
  cases m with
  | ingest packet token held stage =>
    rw [Purpose, hl]
    exact ⟨hpu.1.cons (hr held.guard (mem_singleton_self _)), mem_cons_of_mem _ hpu.2⟩
  | sends batch =>
    intro held mark hm
    rw [hl]
    exact (hpu held mark hm).cons e
  | finish c mark stage => exact hf c mark stage rfl hpu
  | idle | work _ _ | rematch _ => trivial

end Honk.Nfqueue
