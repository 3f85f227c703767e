import Honk.Conntrack.TcpEffect

namespace Honk.Conntrack.Tcp

open Honk.Lib List

variable {pointer elements : ℕ}

variable {s s' : Kernel} {l l' m : Handler}

structure Frame (s s' : Kernel) (m : Handler) : Prop where
  running : m.phase ≠ .out → m.ticket ∈ s.running → m.ticket ∈ s'.running
  ungraced : m.phase ≠ .out → m.passed = true → Ungraced s m.ticket → Ungraced s' m.ticket
  publishing : m.publisher.claimed = true → s'.publishing = s.publishing
  kept : ∀ entry ∈ s.allocated, entry ∈ s'.allocated
  allocated : m.phase ≠ .out → ∀ i, (i, m.ticket) ∈ s'.allocated → (i, m.ticket) ∈ s.allocated
  points : m.phase.guarded = true → ∀ pointer, Points s pointer → Points s' pointer
  proved : m.phase.guarded = true → Owner m.publisher → ∀ aux,
    Proved s m.publisher.incarnation aux → Proved s' m.publisher.incarnation aux

theorem PhaseFit.frame (h : PhaseFit s publisher ticket phase) (hk : ∀ entry ∈ s.allocated, entry ∈ s'.allocated)
    (hpo : phase.guarded = true → ∀ pointer, Points s pointer → Points s' pointer)
    (hpr : phase.guarded = true → Owner publisher → ∀ aux,
      Proved s publisher.incarnation aux → Proved s' publisher.incarnation aux) : PhaseFit s' publisher ticket phase := by
  cases phase with
  | marking i => exact ⟨h.1, h.2.1, h.2.2.1, hk _ h.2.2.2⟩
  | observing args now finRst pointer | renewing args now finRst pointer incarnation | replacing args now pointer =>
    exact ⟨h.1, h.2.1, hpo rfl _ h.2.2⟩
  | publishing args now pointer => exact ⟨h.1, h.2.1, fun p hp => hpo rfl p (h.2.2 p hp)⟩
  | routingAt snapshot pointer => exact ⟨h.1, hpo rfl _ h.2⟩
  | provingRedirect isn => exact ⟨h.1, hpr rfl h.1 _ h.2⟩
  | proven isn => exact ⟨h.1, hpr rfl h.1 _ h.2.1, hpr rfl h.1 _ h.2.2⟩
  | intercepting isn pointer => exact ⟨h.1, hpr rfl h.1 _ h.2.1, hpr rfl h.1 _ h.2.2.1, hpo rfl _ h.2.2.2⟩
  | _ => exact h

theorem Fit.frame (hfi : Fit s m) (hf : Frame s s' m) : Fit s' m where
  out := hfi.out
  running ho := hf.running ho (hfi.running ho)
  guarded := hfi.guarded
  passed hpa := hf.ungraced (fun ho => (nomatch (hfi.out ho).2.symm.trans hpa)) hpa (hfi.passed hpa)
  unclaimed := hfi.unclaimed
  claimed hc := (hf.publishing hc).trans (hfi.claimed hc)
  fresh hfr := ⟨(hfi.fresh hfr).1, hf.kept _ (hfi.fresh hfr).2⟩
  allocated ho hl i hi := hfi.allocated ho hl i (hf.allocated ho i hi)
  phase := hfi.phase.frame hf.kept hf.points hf.proved

theorem Frame.refl (s : Kernel) (m : Handler) : Frame s s m :=
  ⟨fun _ h => h, fun _ _ h => h, fun _ => rfl, fun _ h => h, fun _ _ h => h, fun _ _ h => h, fun _ _ _ h => h⟩

theorem Frame.conn {next : ConnState} (hpo : ∀ p, Points s p → p = pointer) :
    Frame s { s with conn := some (pointer, next), elements := elements } m :=
  { Frame.refl s m with points := fun _ p hp => ⟨next, by rw [hpo p hp]⟩ }

theorem Frame.aux {aux : Aux} {next : AuxiliaryIdentity} (hpr : Owner m.publisher → ∀ i, Proved s i aux → next.incarnation = i) :
    Frame s { s with aux := Function.update s.aux aux (some (pointer, next)), elements := elements } m := by
  refine { Frame.refl s m with proved := fun _ ho other hold => ?_ }
  by_cases heq : other = aux
  · subst heq
    exact ⟨pointer, next, Function.update_self .., hpr ho _ hold⟩
  · obtain ⟨p, entry, he, hid⟩ := hold
    exact ⟨p, entry, (Function.update_of_ne heq ..).trans he, hid⟩

theorem Fit.not_passed (hf : Fit s m) (ho : s.retirement = .operating) : ¬ m.passed = true := by
  intro hpa
  have hu := hf.passed hpa
  rwa [Ungraced, ho] at hu

theorem Sound.effect (h : Sound s) (hf : Fit s l) (hef : Effect s l s' l') : Sound s' := by
  cases hef with
  | enter hph =>
    refine ⟨h.unique, fun entry he => ?_, fun ticket ht => ?_⟩
    · exact ⟨(h.allocated entry he).1, (h.allocated entry he).2.trans (Nat.lt_succ_self _)⟩
    rcases Finset.mem_insert.mp ht with rfl | ht
    · exact Nat.lt_succ_self _
    · exact (h.running ticket ht).trans (Nat.lt_succ_self _)
  | exit hph => exact ⟨h.unique, h.allocated, fun ticket ht => h.running ticket (Finset.mem_of_mem_erase ht)⟩
  | @allocate isn i expected hph hn =>
    have hs := allocateFlowIncarnation_some hn
    refine ⟨nodup_cons.mpr ⟨fun hm => ?_, h.unique⟩, fun entry he => ?_, h.running⟩
    · obtain ⟨⟨j, ticket⟩, he, rfl⟩ := mem_map.mp hm
      have hl : j.toNat ≤ s.sequence.toNat := (h.allocated _ he).1
      exact absurd hl (by rw [hs]; omega)
    rcases mem_cons.mp he with rfl | he
    · exact ⟨le_rfl, h.running _ (hf.running (by rw [hph]; nofun))⟩
    · have hl := h.allocated entry he
      exact ⟨hl.1.trans (by rw [hs]; exact Nat.le_succ _), hl.2⟩
  | _ => exact ⟨h.unique, h.allocated, h.running⟩

theorem Wins.points (h : Wins s l pointer) (hp : Points s p) : p = pointer := by
  obtain ⟨state, hs⟩ := hp
  rcases h with ⟨-, hn⟩ | ⟨-, current, hc, -⟩
  · cases hn.symm.trans hs
  · cases hc.symm.trans hs
    rfl

theorem Fit.effect (hs : Sound s) (hfi : Fit s l) (he : Effect s l s' l') : Fit s' l' := by
  have how := hfi.phase
  have hid := hfi.idle
  cases he with
  | stay hfi' hless => exact hfi'
  | enter hph =>
    refine ⟨(by rintro ⟨⟩), fun _ => Finset.mem_insert_self .., (by rintro ⟨⟩), (by rintro ⟨⟩), fun _ => ⟨rfl, rfl⟩, (by rintro ⟨⟩), (by rintro ⟨⟩), fun _ _ i hi => ?_, trivial⟩
    exact absurd (hs.allocated _ hi).2 (lt_irrefl _)
  | exit hph =>
    exact ⟨fun _ => ⟨rfl, rfl⟩, fun h => absurd rfl h, (by rintro ⟨⟩), (by rintro ⟨⟩), fun _ => ⟨rfl, rfl⟩, (by rintro ⟨⟩), (by rintro ⟨⟩), fun h => absurd rfl h,
      trivial⟩
  | claim hph hnone =>
    rw [hph] at how
    obtain ⟨hno, -⟩ := hfi.unclaimed how
    have ho : l.phase ≠ .out := by rw [hph]; rintro ⟨⟩
    refine ⟨(by rintro ⟨⟩), fun _ => hfi.running ho, fun _ => hfi.guarded (by rw [hph]; rfl), hfi.passed, (by rintro ⟨⟩), fun _ => ?_,
      fun hf => (by cases hno.symm.trans hf), fun _ _ i hi => ?_, ⟨rfl, hno⟩⟩
    · simp [claimValue, isFresh, hno]
    rcases hfi.allocated ho (by rw [hph]; rintro ⟨⟩) i hi with ⟨hf, -⟩ | hma
    · cases hno.symm.trans hf
    · cases hph.symm.trans hma
  | @allocate isn i expected hph hn =>
    rw [hph] at how
    obtain ⟨hc, hno⟩ := how
    have ho : l.phase ≠ .out := by rw [hph]; rintro ⟨⟩
    have hz : i ≠ 0 := by
      rintro rfl
      exact absurd (allocateFlowIncarnation_some hn) (by simp)
    refine ⟨(by rintro ⟨⟩), fun _ => hfi.running ho, fun _ => hfi.guarded (by rw [hph]; rfl), hfi.passed,
      fun h => (by cases hc.symm.trans h), fun _ => hfi.claimed hc, fun hf => (by cases hno.symm.trans hf),
      fun _ _ j hj => ?_, ⟨hc, hno, hz, mem_cons_self ..⟩⟩
    rcases mem_cons.mp hj with heq | hj
    · cases heq
      exact .inr rfl
    rcases hfi.allocated ho (by rw [hph]; rintro ⟨⟩) j hj with ⟨hf, -⟩ | hma
    · cases hno.symm.trans hf
    · cases hph.symm.trans hma
  | @select i hph =>
    rw [hph] at how
    obtain ⟨hc, hno, hz, hme⟩ := how
    have ho : l.phase ≠ .out := by rw [hph]; rintro ⟨⟩
    refine ⟨(by rintro ⟨⟩), fun _ => hfi.running ho, (by rintro ⟨⟩), hfi.passed, fun h => (by cases hc.symm.trans h), fun _ => rfl,
      fun _ => ⟨hz, hme⟩, fun _ _ j hj => ?_, trivial⟩
    rcases hfi.allocated ho (by rw [hph]; rintro ⟨⟩) j hj with ⟨hf, -⟩ | hma
    · cases hno.symm.trans hf
    · cases hph.symm.trans hma
      exact .inl ⟨rfl, rfl⟩
  | release hph =>
    exact ⟨(by rintro ⟨⟩), fun _ => hfi.running (by rw [hph]; rintro ⟨⟩), (by rintro ⟨⟩), hfi.passed, fun _ => ⟨rfl, rfl⟩, (by rintro ⟨⟩), (by rintro ⟨⟩),
      fun _ h => absurd rfl h, rfl⟩
  | update hm hco | create hm | intercept hm => exact (hid hm).frame { Frame.refl s _ with points := by rintro ⟨⟩ }
  | add hm | write hm => exact (hid hm).frame { Frame.refl s _ with proved := by rintro ⟨⟩ }
  | turn hph hu => exact hfi.frame { Frame.refl s l with ungraced := fun ho => absurd hph ho }
  | deleteConn hph => exact hfi.frame { Frame.refl s l with points := fun h => by rw [hph] at h; cases h }
  | deleteAux hph => exact hfi.frame { Frame.refl s l with proved := fun h => by rw [hph] at h; cases h }

theorem Effect.frame (hf : Fit s l) (hf' : Fit s m) (ha : Apart l m) (he : Effect s l s' l') : Frame s s' m := by
  have how := hf.phase
  cases he with
  | stay => exact .refl s m
  | enter hph => exact { Frame.refl s m with running := fun _ h => Finset.mem_insert_of_mem h }
  | exit hph =>
    refine { Frame.refl s m with running := fun hou h => Finset.mem_erase.mpr ⟨?_, h⟩ }
    exact (ha.ticket (by rw [hph]; nofun) hou).symm
  | claim hph hn =>
    refine { Frame.refl s m with publishing := fun hc => ?_ }
    cases hn.symm.trans (hf'.claimed hc)
  | allocate hph =>
    refine { Frame.refl s m with kept := fun _ h => mem_cons_of_mem _ h, allocated := fun hou i hi => ?_ }
    rcases mem_cons.mp hi with heq | hi
    · exact absurd (congrArg Prod.snd heq).symm (ha.ticket (by rw [hph]; nofun) hou)
    · exact hi
  | select hph =>
    rw [hph] at how
    exact { Frame.refl s m with publishing := fun hc => absurd ⟨how.1, hc⟩ ha.claimed }
  | release hph =>
    rw [hph] at how
    exact { Frame.refl s m with publishing := fun hc => absurd ⟨how, hc⟩ ha.claimed }
  | @update pointer state next hm hco | @intercept pointer state hm ho hco =>
    refine .conn fun p hp => ?_
    obtain ⟨current, hcu⟩ := hp
    cases hco.symm.trans hcu
    rfl
  | create hm ho hw => exact .conn fun p hp => hw.points hp
  | add hm hn =>
    refine .aux fun _ i hold => ?_
    obtain ⟨p, entry, hen, -⟩ := hold
    cases hn.symm.trans hen
  | write hm hau hne =>
    refine .aux fun ho i hold => ?_
    obtain ⟨p, current, hcu, rfl⟩ := hold
    cases hau.symm.trans hcu
    exact hne.resolve_right fun hc => ha.claimed ⟨hc, ho.claimed⟩
  | turn hph hu => exact { Frame.refl s m with ungraced := fun hou _ h => hu _ (hf'.running hou) h }
  | deleteConn hph hop =>
    exact { Frame.refl s m with points := fun h => absurd (hf'.guarded h) (hf'.not_passed hop) }
  | deleteAux hph hop =>
    exact { Frame.refl s m with proved := fun h => absurd (hf'.guarded h) (hf'.not_passed hop) }

theorem Apart.lesser (ha : Apart l m) (hle : Lesser l' l) : Apart l' m :=
  ⟨fun ⟨hl, hm⟩ => ha.claimed ⟨hle.claimed hl, hm⟩, fun hl hm => hle.ticket ▸ ha.ticket (hle.out hl) hm⟩

theorem Apart.effect (hs : Sound s) (hf' : Fit s m) (ha : Apart l m) (he : Effect s l s' l') : Apart l' m := by
  cases he with
  | stay _ hl => exact ha.lesser hl
  | enter hph =>
    refine ⟨fun h => (nomatch h.1), fun _ hm heq => ?_⟩
    exact absurd (hs.running _ (hf'.running hm)) (by rw [← heq]; exact lt_irrefl _)
  | exit hph => exact ⟨fun h => (nomatch h.1), fun h => absurd rfl h⟩
  | claim hph hn =>
    refine ⟨fun ⟨_, hm⟩ => ?_, fun _ hm => ha.ticket (by rw [hph]; nofun) hm⟩
    cases hn.symm.trans (hf'.claimed hm)
  | allocate hph | select hph => exact ha.lesser ⟨id, rfl, fun _ => by rw [hph]; nofun⟩
  | release hph => exact ha.lesser ⟨nofun, rfl, fun _ => by rw [hph]; nofun⟩
  | update hmo | create hmo | intercept hmo | add hmo | write hmo => exact ha.lesser (.goto hmo _)
  | turn | deleteConn | deleteAux => exact ha

theorem lifetimes_invariant : lifetimes.Invariant Sound Fit Apart where
  symm _ _ h := ⟨fun ⟨hm, hl⟩ => h.claimed ⟨hl, hm⟩, fun hm hl => (h.ticket hl hm).symm⟩
  init := ⟨nodup_nil, nofun, nofun⟩
  idle := ⟨fun _ => ⟨rfl, rfl⟩, fun h => absurd rfl h, nofun, nofun, fun _ => ⟨rfl, rfl⟩, nofun, nofun, fun h => absurd rfl h, trivial⟩
  apart := ⟨fun h => (nomatch h.1), fun h => absurd rfl h⟩
  step _ _ _ _ _ hso hf hs :=
    have he := step_effect hf hs
    ⟨hso.effect hf he, hf.effect hso he⟩
  others _ _ _ _ _ _ hso hf hf' ha hs :=
    have he := step_effect hf hs
    ⟨hf'.frame (he.frame hf hf' ha), ha.effect hso hf' he⟩
  reclaim _ _ _ _ _ h := h.elim

def AllocatedTo (s : Kernel) (incarnation : BitVec 64) (ticket : ℕ) : Prop :=
  ∀ other, (incarnation, other) ∈ s.allocated ↔ other = ticket

theorem Owner.allocatedTo (hs : Sound s) (hf : Fit s l) (ho : Owner l.publisher) : AllocatedTo s l.publisher.incarnation l.ticket := by
  have hm := (hf.fresh ho.fresh).2
  refine fun other => ⟨fun hot => ?_, fun he => he ▸ hm⟩
  exact congrArg Prod.snd (inj_on_of_nodup_map hs.unique hot hm rfl)

theorem Effect.creates (he : Effect s l s' l') {next : ConnState} (hn : s'.conn = some (pointer, next))
    (hf : ∀ p state, s.conn = some (p, state) → state.incarnation ≠ next.incarnation) :
    Owner l.publisher ∧ Wins s l pointer ∧ next.incarnation = l.publisher.incarnation := by
  cases he with
  | update hm hc hin =>
    cases hn
    exact absurd hin.symm (hf _ _ hc)
  | create hm ho hw hin =>
    cases hn
    exact ⟨ho, hw, hin⟩
  | intercept hm ho hc =>
    cases hn
    exact (hf _ _ hc rfl).elim
  | deleteConn => cases hn
  | _ => exact absurd rfl (hf _ _ hn)

theorem Fit.retransmits (hfi : Fit s l) (hc : l.publisher.syn = .cached) (he : Effect s l s' l') :
    s'.sequence = s.sequence ∧ s'.allocated = s.allocated ∧ (s'.conn = s.conn ∨
      ∃ pointer state next, s.conn = some (pointer, state) ∧ s'.conn = some (pointer, next) ∧ Observed state next) := by
  have how := hfi.phase
  cases he with
  | update hm hco hin hf hob => exact ⟨rfl, rfl, .inr ⟨_, _, _, hco, rfl, hob hc⟩⟩
  | allocate hph =>
    rw [hph] at how
    cases how.2.symm.trans hc
  | create hm ho | intercept hm ho => cases ho.fresh.symm.trans hc
  | deleteConn hph =>
    rw [(hfi.out hph).1] at hc
    cases hc
  | _ => exact ⟨rfl, rfl, .inl rfl⟩

theorem Fit.not_allocated (hfi : Fit s l) (hc : l.publisher.syn = .cached) (i : BitVec 64) : (i, l.ticket) ∉ s.allocated := by
  intro hi
  have ho := hfi.phase
  have hcl : l.publisher.claimed = true := by
    by_contra hn
    cases (hfi.unclaimed (Bool.eq_false_of_not_eq_true hn)).1.symm.trans hc
  have hou : l.phase ≠ .out := by
    intro hph
    rw [(hfi.out hph).1] at hc
    cases hc
  have hl : l.phase ≠ .leaving := by
    intro hph
    rw [hph] at ho
    cases hcl.symm.trans ho
  rcases hfi.allocated hou hl i hi with ⟨hf, -⟩ | hm
  · cases hf.symm.trans hc
  · rw [hm] at ho
    cases ho.2.1.symm.trans hc

theorem Effect.intercepts (he : Effect s l s' l') {next : ConnState} (hn : s'.conn = some (pointer, next)) (hf : next.tcpSynFlags ≠ 0)
    (hu : ∀ state, s.conn = some (pointer, state) → state.incarnation = next.incarnation → state.tcpSynFlags = 0) :
    Owner l.publisher ∧ next.incarnation = l.publisher.incarnation ∧ ∀ aux, Proved s l.publisher.incarnation aux := by
  cases he with
  | update hm hc hin hs =>
    cases hn
    exact absurd (hs.trans (hu _ hc hin.symm)) hf
  | create hm ho hw hin hz =>
    cases hn
    exact absurd hz hf
  | intercept hm ho hc hin hpr =>
    cases hn
    exact ⟨ho, hin, hpr⟩
  | deleteConn => cases hn
  | _ => exact absurd (hu _ hn rfl) hf

/-- Whatever the handlers of a tuple and its retirement do in between: a lifetime is made by the owner whose
insert or compare succeeded, a retransmitted SYN of a cached lifetime observes it and nothing else, and the
intercept is committed by the owner of the lifetime when both auxiliary entries belong to it. -/
theorem tcp_lifetimes_owned {ls : ℕ → Handler} {k : ℕ} {x : Input} {l' : Handler}
    (h : lifetimes.Reachable s ls) (hs : step s (ls k) x = some (s', l')) :
    (∀ pointer next, s'.conn = some (pointer, next) → (∀ p state, s.conn = some (p, state) → state.incarnation ≠ next.incarnation) →
      Owner (ls k).publisher ∧ Wins s (ls k) pointer ∧ next.incarnation = (ls k).publisher.incarnation ∧
        AllocatedTo s next.incarnation (ls k).ticket) ∧
    ((ls k).publisher.syn = .cached → s'.sequence = s.sequence ∧ (∀ i, (i, (ls k).ticket) ∉ s'.allocated) ∧ (s'.conn = s.conn ∨
        ∃ pointer state next, s.conn = some (pointer, state) ∧ s'.conn = some (pointer, next) ∧ Observed state next)) ∧
    ∀ pointer next, s'.conn = some (pointer, next) → next.tcpSynFlags ≠ 0 →
      (∀ state, s.conn = some (pointer, state) → state.incarnation = next.incarnation → state.tcpSynFlags = 0) →
      Owner (ls k).publisher ∧ next.incarnation = (ls k).publisher.incarnation ∧
        AllocatedTo s next.incarnation (ls k).ticket ∧ ∀ aux, Proved s next.incarnation aux := by
  obtain ⟨hso, hfits, -⟩ := lifetimes_invariant.reachable h
  have hfi := hfits k
  have he := step_effect hfi hs
  refine ⟨fun pointer next hn hf => ?_, fun hc => ?_, fun pointer next hn hfl hu => ?_⟩
  · obtain ⟨ho, hw, hin⟩ := he.creates hn hf
    exact ⟨ho, hw, hin, hin ▸ ho.allocatedTo hso hfi⟩
  · obtain ⟨hse, ha, hco⟩ := hfi.retransmits hc he
    exact ⟨hse, ha ▸ hfi.not_allocated hc, hco⟩
  · obtain ⟨ho, hin, hpr⟩ := he.intercepts hn hfl hu
    exact ⟨ho, hin, hin ▸ ho.allocatedTo hso hfi, hin ▸ hpr⟩

def firstSyn : Reads :=
  { expected := 0, state := none, owner := .absent, pinned := false, retiring := false, handoff := none, redirect := none,
    now := 5 }

def interceptSchedule : List (ℕ × Input) :=
  let go : ℕ × Input := (0, .go firstSyn false true)
  let entry : AuxiliaryIdentity := { incarnation := 0, lastSeenNs := 5, decisionToken := 0 }
  [(0, .enter), (0, .acquire 7), go, go, go, (0, .mark {} 7 true 5 false), go, go, go,
    (0, .publishRouting { routingMeta := routingMetaFlagPublished }), go, go, go,
    (0, .publishAux .handoff entry true), go, go, go, go, (0, .publishAux .redirect entry true), go, go, go, go,
    (0, .commitIntercept 7), go, go, go, go]

theorem tcp_lifetimes_owned_intercept : ∃ s ls s' l' pointer next, lifetimes.Reachable s ls ∧
    step s (ls 0) (.go firstSyn false true) = some (s', l') ∧ s'.conn = some (pointer, next) ∧ next.tcpSynFlags = tcpSynOriginalIntercept ∧
    Owner (ls 0).publisher ∧ AllocatedTo s next.incarnation (ls 0).ticket ∧ ∀ aux, Proved s next.incarnation aux := by
  obtain ⟨s, ls, h, hru⟩ := lifetimes.exists_reachable_of_run interceptSchedule
    (fun config => (step config.1 (config.2 0) (.go firstSyn false true)).any fun result =>
      (result.1.conn.any fun conn => conn.2.tcpSynFlags == tcpSynOriginalIntercept) &&
        config.1.conn.all fun conn => conn.2.tcpSynFlags == 0) (by decide +kernel)
  obtain ⟨⟨s', l'⟩, hs, hr⟩ := (Option.any_eq_true _ _).mp hru
  obtain ⟨han, hal⟩ := Bool.and_eq_true_iff.mp hr
  obtain ⟨⟨pointer, next⟩, hn, hf⟩ := (Option.any_eq_true _ _).mp han
  have hse := eq_of_beq hf
  have hu : ∀ state, s.conn = some (pointer, state) → state.tcpSynFlags = 0 := by
    intro state hst
    rw [hst] at hal
    exact eq_of_beq hal
  obtain ⟨ho, -, ha, hpr⟩ := (tcp_lifetimes_owned h hs).2.2 pointer next hn (by rw [hse]; decide) fun state hst _ => hu state hst
  exact ⟨s, ls, s', l', pointer, next, h, hs, hn, hse, ho, ha, hpr⟩

end Honk.Conntrack.Tcp
