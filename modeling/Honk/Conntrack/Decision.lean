import Honk.Conntrack.Commit

namespace Honk.Conntrack

open Honk.Lib Honk.Routing Honk.Nfqueue Program RedirectTuple
open BitVec (eq_of_getLsbD_eq getLsbD_and getLsbD_of_ge getLsbD_or getLsbD_setWidth)
open Function (update update_of_ne update_self)

def outboundOf (raw : BitVec 64) : Byte := raw.setWidth 8
def markOf (raw : BitVec 64) : BitVec 32 := (raw >>> 8).setWidth 32

variable {i : ℕ}

theorem getLsbD_keptMask : (dscpMask ||| routingMetaFlagPublished).getLsbD i = decide (48 ≤ i ∧ i < 57) := by
  by_cases hi : i < 64
  · have ha : ∀ i < 64, (dscpMask ||| routingMetaFlagPublished).getLsbD i = decide (48 ≤ i ∧ i < 57) := by
      decide +kernel
    exact ha i hi
  · rw [getLsbD_of_ge _ _ (by omega)]
    simp; omega

theorem getLsbD_offloadFlag : routingMetaFlagOffload.getLsbD i = decide (i = 57) := by
  by_cases hi : i < 64
  · have ha : ∀ i < 64, routingMetaFlagOffload.getLsbD i = decide (i = 57) := by decide +kernel
    exact ha i hi
  · rw [getLsbD_of_ge _ _ (by omega)]
    simp; omega

variable (previous : BitVec 64) (outbound : Byte)

variable (mark : BitVec 32) (offload : Bool)

theorem getLsbD_finalUdpMeta : (finalUdpMeta previous outbound mark offload).getLsbD i = if i < 8 then outbound.getLsbD i
      else if i < 40 then mark.getLsbD (i - 8)
      else if 48 ≤ i ∧ i < 57 then previous.getLsbD i
      else decide (i = 57) && offload := by
  have hof : (if offload then routingMetaFlagOffload else 0).getLsbD i = (decide (i = 57) && offload) := by
    cases offload <;> simp [getLsbD_offloadFlag]
  have hk : (dscpMask.getLsbD i || routingMetaFlagPublished.getLsbD i) = decide (48 ≤ i ∧ i < 57) := by
    rw [← getLsbD_or, getLsbD_keptMask]
  unfold finalUdpMeta
  simp only [getLsbD_or, getLsbD_and, hk, hof, getLsbD_setWidth, BitVec.getLsbD_shiftLeft]
  by_cases h8 : i < 8
  · have hmi : ¬ (48 ≤ i ∧ i < 57) := by omega
    have h57 : i ≠ 57 := by omega
    have h64 : i < 64 := by omega
    simp only [h8, hmi, h57, h64, decide_true, decide_false, Bool.and_false, Bool.false_and, Bool.false_or, Bool.or_false,
      Bool.true_and, Bool.not_true, if_true]
  have ho : outbound.getLsbD i = false := getLsbD_of_ge _ _ (by omega)
  by_cases h40 : i < 40
  · have hmi : ¬ (48 ≤ i ∧ i < 57) := by omega
    have h57 : i ≠ 57 := by omega
    have h64 : i < 64 := by omega
    have h64' : i - 8 < 64 := by omega
    simp only [h8, h40, hmi, h57, h64, h64', ho, decide_true, decide_false, Bool.and_false, Bool.false_and,
      Bool.false_or, Bool.or_false, Bool.true_and, Bool.not_false, if_true, if_false]
  have hm : mark.getLsbD (i - 8) = false := getLsbD_of_ge _ _ (by omega)
  rw [ho, hm, if_neg h8, if_neg h40]
  by_cases hmi : 48 ≤ i ∧ i < 57
  · have h57 : i ≠ 57 := by omega
    simp [hmi, h57]
  · simp [hmi]

theorem outboundOf_finalUdpMeta : outboundOf (finalUdpMeta previous outbound mark offload) = outbound := by
  refine eq_of_getLsbD_eq fun i hi => ?_
  rw [outboundOf, getLsbD_setWidth, getLsbD_finalUdpMeta, if_pos hi]
  simp [hi]

theorem markOf_finalUdpMeta : markOf (finalUdpMeta previous outbound mark offload) = mark := by
  refine eq_of_getLsbD_eq fun i hi => ?_
  rw [markOf, getLsbD_setWidth, BitVec.getLsbD_ushiftRight, getLsbD_finalUdpMeta, if_neg (by omega),
    if_pos (by omega), Nat.add_sub_cancel_left]
  simp [hi]

theorem finalUdpMeta_keeps : finalUdpMeta previous outbound mark offload &&& (dscpMask ||| routingMetaFlagPublished) =
      previous &&& (dscpMask ||| routingMetaFlagPublished) := by
  refine eq_of_getLsbD_eq fun i hi => ?_
  rw [getLsbD_and, getLsbD_and, getLsbD_finalUdpMeta, getLsbD_keptMask]
  by_cases hm : 48 ≤ i ∧ i < 57
  · rw [if_neg (by omega), if_neg (by omega), if_pos hm]
  · simp [hm]

theorem finalUdpMeta_offload : finalUdpMeta previous outbound mark offload &&& routingMetaFlagOffload ≠ 0 ↔ offload = true := by
  have hb : ∀ i, (finalUdpMeta previous outbound mark offload &&& routingMetaFlagOffload).getLsbD i =
      (decide (i = 57) && offload) := by
    intro i
    rw [getLsbD_and, getLsbD_finalUdpMeta, getLsbD_offloadFlag]
    by_cases hi : i = 57
    · simp [hi]
    · simp [hi]
  constructor
  · intro hn
    by_contra ho
    refine hn (eq_of_getLsbD_eq fun i _ => ?_)
    rw [hb, Bool.eq_false_of_not_eq_true ho]
    simp
  rintro rfl hz
  have h57 := hb 57
  rw [hz] at h57
  simp at h57

section

def requested : UdpDecisionTransition → Byte × BitVec 32
  | .armDirect mark | .activateDirect mark => (outboundDirect, mark)
  | .activateProxy outbound mark => (outbound, mark)
  | .block => (outboundBlock, 0)

def moves : UdpDecisionTransition → UdpDecisionState × UdpDecisionState
  | .armDirect _ => (.pending, .directArmed)
  | .activateDirect _ => (.directArmed, .none)
  | .activateProxy _ _ => (.pending, .proxy)
  | .block => (.pending, .block)

structure Decided (transition : UdpDecisionTransition) (before after : ConnState) : Prop where
  source : before.state = (moves transition).1.code
  target : after.state = (moves transition).2.code
  outbound : outboundOf after.routingMeta = (requested transition).1
  mark : markOf after.routingMeta = (requested transition).2
  kept : after.routingMeta &&& (dscpMask ||| routingMetaFlagPublished) =
    before.routingMeta &&& (dscpMask ||| routingMetaFlagPublished)
  offload : after.routingMeta &&& routingMetaFlagOffload ≠ 0 ↔ isInitial transition = false
  armed : ∀ mark, transition = .activateDirect mark → markOf before.routingMeta = mark
  rest : after = { before with state := after.state, routingMeta := after.routingMeta }

variable {transition : UdpDecisionTransition} {before state : ConnState} {token : BitVec 32}
  {handoff : Option RoutingHandoffEntry} {track : Option RedirectEntry}

theorem decided_finalUdpMeta (hs : before.state = (moves transition).1.code)
    (ha : ∀ mark, transition = .activateDirect mark → markOf before.routingMeta = mark) :
    Decided transition before { before with
      state := (moves transition).2.code
      routingMeta := finalUdpMeta before.routingMeta (requested transition).1 (requested transition).2
        (!isInitial transition) } :=
  ⟨hs, rfl, outboundOf_finalUdpMeta .., markOf_finalUdpMeta .., finalUdpMeta_keeps .., (finalUdpMeta_offload ..).trans (by simp), ha, rfl⟩

theorem applyUdpDecisionTransition_decided
    (h : applyUdpDecisionTransition state transition = .ok next) : Decided transition state next := by
  cases transition with
  | activateDirect mark =>
    simp only [applyUdpDecisionTransition] at h
    split at h
    · cases h
    rename_i hs
    split at h
    · cases h
    rename_i hr
    push Not at hr
    cases h
    refine decided_finalUdpMeta (not_not.mp hs) ?_
    rintro _ ⟨⟩
    exact hr.2.1
  | _ =>
    simp only [applyUdpDecisionTransition] at h
    split at h
    · cases h
    · cases h
      exact decided_finalUdpMeta (not_not.mp ‹_›) (by simp)

theorem Decided.identity (h : Decided transition before after) :
    after.incarnation = before.incarnation ∧ after.decisionToken = before.decisionToken := by
  rw [h.rest]
  exact ⟨rfl, rfl⟩

theorem planUdpCommit_ne_applied : planUdpCommit state token transition handoff track ≠ .error .applied := by
  have ha : ∀ result, applyUdpDecisionTransition state transition = .error result → result = .stateMismatch := by
    intro result hr
    cases transition with
    | activateDirect mark => grind [applyUdpDecisionTransition]
    | _ => grind [applyUdpDecisionTransition]
  fun_cases planUdpCommit state token transition handoff track with
  | case1 result hr =>
    rintro ⟨⟩
    cases ha _ hr
  | _ => exact nofun

theorem moves_of_initial (h : isInitial transition = true) : (moves transition).1 = .pending := by
  cases transition with
  | activateDirect mark => cases h
  | _ => rfl

theorem planUdpCommit_ok (h : planUdpCommit state token transition handoff track = .ok plan) : Decided transition state plan.state ∧
      (isInitial transition = true ∧ (∃ entry, track = some entry ∧ entry.incarnation = state.incarnation ∧
          plan.removeHandoff = true ∧ plan.redirect = some (redirectEffect transition entry)) ∨
        isInitial transition = false ∧ handoff = none ∧ track = none) := by
  revert h
  fun_cases planUdpCommit state token transition handoff track <;> rintro ⟨⟩
  rename_i next hn initial ha hm hpr
  have hd := applyUdpDecisionTransition_decided hn
  rw [Bool.not_eq_true', Bool.not_eq_false] at ha
  refine ⟨hd, ?_⟩
  cases hin : isInitial transition with
  | true =>
    simp only [initial, hin, Bool.true_and, Bool.or_eq_true, not_or, Option.isNone_iff_eq_none] at hm
    obtain ⟨entry, rfl⟩ := Option.ne_none_iff_exists'.mp hm.2
    refine .inl ⟨rfl, entry, rfl, ?_, Option.isSome_iff_ne_none.mpr hm.1, rfl⟩
    rw [(auxiliariesMatch_redirect ha).1, hd.identity.1]
  | false =>
    simp only [initial, hin, Bool.not_false, Bool.true_and, Bool.or_eq_true, not_or, Option.not_isSome_iff_eq_none] at hpr
    exact .inr ⟨rfl, hpr⟩

end

structure Touched (key : TuplesKey) (flows after : Flows) : Prop where
  handoff : ∀ other ≠ key, after.handoff other = flows.handoff other
  redirect : ∀ other ≠ fromTuples key, after.redirect other = flows.redirect other
  removals : ∃ log, after.removals = log ++ flows.removals
  reports : after.reports = flows.reports

theorem Touched.of_sameMaps (h : SameMaps flows after) : Touched key flows after := by
  obtain ⟨answers, rfl⟩ := h
  exact ⟨fun _ _ => rfl, fun _ _ => rfl, ⟨[], rfl⟩, rfl⟩

theorem Touched.trans (h : Touched key flows s) (h' : Touched key s after) : Touched key flows after := by
  obtain ⟨log, hl⟩ := h.removals
  obtain ⟨log', hl'⟩ := h'.removals
  exact ⟨fun other hn => (h'.handoff other hn).trans (h.handoff other hn),
    fun other hn => (h'.redirect other hn).trans (h.redirect other hn),
    ⟨log' ++ log, by rw [hl', hl, List.append_assoc]⟩, h'.reports.trans h.reports⟩

theorem removeHandoff_ensures (key : TuplesKey) (flows : Flows) : (hashRemoveIf true (.handoff key)).Ensures flows
    (Returns (fun _ after => after.conn = flows.conn ∧ after.redirect = flows.redirect ∧
      after.handoff key = none ∧ Touched key flows after) fun _ after => SameMaps flows after) := by
  refine Ensures.bind (hashRemovePresent_ensures _ _) ?_ fun _ _ h => h
  rintro removed _ ⟨log, -, rfl⟩
  exact ensures_pure ⟨rfl, rfl, update_self .., fun other hn => update_of_ne hn .., fun _ _ => rfl, ⟨log, rfl⟩, rfl⟩

theorem flowInsert_ensures (flows : Flows) : (flowInsert entry).Ensures flows
    (Returns (fun _ after => after = flows.answered.put entry) fun _ after => SameMaps flows after) := by
  unfold flowInsert Ensures
  rw [exec_ofExec]
  split
  · exact ⟨_, rfl⟩
  · rfl

def RedirectEffect.left : RedirectEffect → Option RedirectEntry
  | .remove => none
  | .rewrite entry => some entry

theorem rewriteRedirect_ensures (key : TuplesKey) (effect : RedirectEffect) (flows : Flows) :
    (rewriteRedirect (fromTuples key) (some effect)).Ensures flows
      (Returns (fun _ after => after.conn = flows.conn ∧ after.handoff = flows.handoff ∧
        after.redirect (fromTuples key) = effect.left ∧ Touched key flows after) fun _ after => SameMaps flows after) := by
  cases effect with
  | remove =>
    refine Ensures.bind (hashRemovePresent_ensures _ _) ?_ fun _ _ h => h
    rintro removed _ ⟨log, -, rfl⟩
    exact ensures_pure ⟨rfl, rfl, update_self .., fun _ _ => rfl, fun other hn => update_of_ne hn .., ⟨log, rfl⟩, rfl⟩
  | rewrite entry =>
    refine Ensures.mono (flowInsert_ensures _) ?_
    rintro (e | ⟨⟩) after h
    · exact h
    · cases h
      exact ⟨rfl, rfl, update_self .., fun _ _ => rfl, fun other hn => update_of_ne hn .., ⟨[], rfl⟩, rfl⟩

variable {flows : Flows}

theorem applyPlan_ensures (key : TuplesKey) (next : ConnState) {effect : RedirectEffect} :
    (applyPlan key ⟨next, true, some effect⟩).Ensures flows (Returns
      (fun result after => result = .applied ∧ after.conn = update flows.conn key (some next) ∧
        after.handoff key = none ∧ after.redirect (fromTuples key) = effect.left ∧ Touched key flows after)
      fun _ after => after.conn = flows.conn ∧ Touched key flows after) := by
  refine Ensures.bind (removeHandoff_ensures key flows) ?_ ?_
  swap
  · rintro e _ ⟨answers, rfl⟩
    exact ⟨rfl, .of_sameMaps ⟨answers, rfl⟩⟩
  rintro _ s₁ ⟨hc₁, hr₁, hh₁, ht₁⟩
  refine Ensures.bind (rewriteRedirect_ensures key effect s₁) ?_ ?_
  swap
  · rintro e _ ⟨answers, rfl⟩
    exact ⟨hc₁, ht₁.trans (.of_sameMaps ⟨answers, rfl⟩)⟩
  rintro _ s₂ ⟨hc₂, hh₂, hr₂, ht₂⟩
  refine Ensures.bind (flowInsert_ensures s₂) ?_ ?_
  swap
  · rintro e _ ⟨answers, rfl⟩
    exact ⟨hc₂.trans hc₁, (ht₁.trans ht₂).trans (.of_sameMaps ⟨answers, rfl⟩)⟩
  rintro _ _ rfl
  refine ensures_pure ⟨rfl, ?_, ?_, hr₂, (ht₁.trans ht₂).trans ?_⟩
  · change update s₂.conn key (some next) = _
    rw [hc₂, hc₁]
  · change s₂.handoff key = none
    rw [hh₂, hh₁]
  · exact ⟨fun _ _ => rfl, fun _ _ => rfl, ⟨[], rfl⟩, rfl⟩

inductive CommitEffect (commit : UdpDecisionCommit) (captured : Option (BitVec 64)) (flows : Flows) :
    Except BackendError UdpDecisionCommitResult → Flows → Prop
  | unchanged (hsame : SameMaps flows after)
      (hresult : result ≠ .ok .applied) : CommitEffect commit captured flows result after
  | torn (hstate : flows.conn commit.key = some state)
      (hpending : state.state = UdpDecisionState.pending.code) (hconn : after.conn = flows.conn)
      (htouched : Touched commit.key flows after) : CommitEffect commit captured flows (.error e) after
  | applied (hstate : flows.conn commit.key = some state)
      (htoken : state.decisionToken = commit.token) (hcaptured : ∀ i, captured = some i → state.incarnation = i)
      (hdecided : Decided commit.transition state next)
      (hconn : after.conn = update flows.conn commit.key (some next)) (htouched : Touched commit.key flows after)
      (hhandoff : after.handoff commit.key = none)
      (hproxy : ∀ outbound mark, commit.transition = .activateProxy outbound mark →
        ∃ track, after.redirect (fromTuples commit.key) = some track ∧ track.outbound = outbound ∧
          track.incarnation = next.incarnation)
      (hredirect : (∀ outbound mark, commit.transition ≠ .activateProxy outbound mark) →
        after.redirect (fromTuples commit.key) = none) : CommitEffect commit captured flows (.ok .applied) after

theorem lookup_ensures (read : Flows → Option V) (flows : Flows) : (flowLookup read).Ensures flows
    (Returns (fun v after => v = read flows ∧ SameMaps flows after) fun _ after => SameMaps flows after) :=
  ensures_flowLookup ⟨_, rfl⟩ ⟨rfl, _, rfl⟩

theorem SameMaps.trans (h : SameMaps a b) (h' : SameMaps b c) : SameMaps a c := by
  obtain ⟨answers, rfl⟩ := h
  obtain ⟨answers', rfl⟩ := h'
  exact ⟨answers', rfl⟩

variable (commit : UdpDecisionCommit)

theorem planned_ensures (state : ConnState) : (planned commit state).Ensures flows (Returns
      (fun plan after => SameMaps flows after ∧ plan = planUdpCommit state commit.token commit.transition
        (flows.handoff commit.key) (flows.redirect (fromTuples commit.key))) fun _ after => SameMaps flows after) := by
  refine Ensures.bind (Q := fun _ after => flows = after) (R := fun _ after => flows = after)
    (ensures_ensure (fun _ => rfl) fun _ => rfl) ?_ ?_
  swap
  · rintro e _ rfl
    exact ⟨_, rfl⟩
  rintro _ _ rfl
  refine Ensures.bind (lookup_ensures _ flows) ?_ fun _ _ h => h
  rintro _ _ ⟨rfl, answers, rfl⟩
  refine Ensures.bind (lookup_ensures _ _) ?_ fun _ _ h => SameMaps.trans ⟨answers, rfl⟩ h
  rintro _ _ ⟨rfl, answers', rfl⟩
  exact ensures_pure ⟨⟨answers', rfl⟩, rfl⟩

theorem commitUdpChecked_effect (incarnation : BitVec 64) (flows : Flows) (hin : isInitial commit.transition = true) :
    (commitUdpChecked commit incarnation).Ensures flows (CommitEffect commit (some incarnation) flows) := by
  refine Ensures.bind (lookup_ensures _ flows) ?_ fun _ _ h => .unchanged h (by simp)
  rintro _ _ ⟨rfl, answers, rfl⟩
  split
  · exact ensures_pure (.unchanged ⟨answers, rfl⟩ (by simp))
  rename_i state hs
  split
  · exact ensures_pure (.unchanged ⟨answers, rfl⟩ (by simp))
  rename_i hid
  push Not at hid
  refine Ensures.bind (planned_ensures commit state) ?_ fun _ _ h => .unchanged (SameMaps.trans ⟨answers, rfl⟩ h) (by simp)
  rintro _ _ ⟨⟨answers', rfl⟩, rfl⟩
  split
  · rename_i result hpl
    refine ensures_pure (.unchanged ⟨answers', rfl⟩ ?_)
    rintro ⟨⟩
    exact planUdpCommit_ne_applied hpl
  rename_i plan hpl
  obtain ⟨hd, ⟨-, track, htr, hinc, hr, hredirect⟩ | ⟨hn, -⟩⟩ := planUdpCommit_ok hpl
  swap
  · exact absurd (hin.symm.trans hn) (by simp)
  obtain ⟨next, removeHandoff, redirect⟩ := plan
  obtain rfl : removeHandoff = true := hr
  obtain rfl : redirect = some (redirectEffect commit.transition track) := hredirect
  refine Ensures.mono (applyPlan_ensures commit.key next) ?_
  have hre : Touched commit.key flows { flows with answers := answers' } := .of_sameMaps ⟨answers', rfl⟩
  rintro (e | result) after h
  · exact .torn hs (by rw [hd.source, moves_of_initial hin]) h.1 (hre.trans h.2)
  obtain ⟨rfl, hc, hh, hl, hto⟩ := h
  refine .applied hs hid.1 ?_ hd hc (hre.trans hto) hh ?_ ?_
  · rintro _ ⟨⟩
    exact hid.2
  · intro outbound mark ht
    refine ⟨{ track with outbound := outbound }, by rw [hl, ht]; rfl, rfl, ?_⟩
    exact hinc.trans hd.identity.1.symm
  intro hn
  rw [hl]
  cases ht : commit.transition with
  | activateProxy outbound mark => exact absurd ht (hn outbound mark)
  | _ => rfl

theorem activateChecked_effect (flows : Flows) (ha : isInitial commit.transition = false) :
    (activateChecked commit).Ensures flows (CommitEffect commit none flows) := by
  refine Ensures.bind (lookup_ensures _ flows) ?_ fun _ _ h => .unchanged h (by simp)
  rintro _ _ ⟨rfl, answers, rfl⟩
  split
  · exact ensures_pure (.unchanged ⟨answers, rfl⟩ (by simp))
  rename_i state hs
  split
  · exact ensures_pure (.unchanged ⟨answers, rfl⟩ (by simp))
  rename_i ht
  refine Ensures.bind (planned_ensures commit state) ?_ fun _ _ h => .unchanged (SameMaps.trans ⟨answers, rfl⟩ h) (by simp)
  rintro _ _ ⟨⟨answers', rfl⟩, rfl⟩
  split
  · rename_i result hpl
    refine ensures_pure (.unchanged ⟨answers', rfl⟩ ?_)
    rintro ⟨⟩
    exact planUdpCommit_ne_applied hpl
  rename_i plan hpl
  obtain ⟨hd, ⟨hin, -⟩ | ⟨-, hh, hr⟩⟩ := planUdpCommit_ok hpl
  · exact absurd (hin.symm.trans ha) (by simp)
  refine Ensures.bind (Q := fun present after => present = false ∧ SameMaps flows after ∨
      present = true ∧ ∃ answers, after = { flows with answers, conn := update flows.conn commit.key (some plan.state) })
    (R := fun _ after => SameMaps flows after) ?_ ?_ fun _ _ h => .unchanged h (by simp)
  · unfold flowUpdate Ensures
    rw [exec_ofExec]
    dsimp only
    split
    · exact ⟨_, rfl⟩
    split
    · exact .inl ⟨rfl, _, rfl⟩
    · exact .inr ⟨rfl, _, rfl⟩
  rintro _ _ (⟨rfl, hsa⟩ | ⟨rfl, answers'', rfl⟩)
  · exact ensures_pure (.unchanged hsa (by simp))
  refine ensures_pure (.applied hs (not_not.mp ht) (by simp) hd rfl ?_ hh ?_ fun _ => hr)
  · exact ⟨fun _ _ => rfl, fun _ _ => rfl, ⟨[], rfl⟩, rfl⟩
  intro outbound mark htr
  rw [htr] at ha
  cases ha

end Honk.Conntrack
