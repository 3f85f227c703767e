import Honk.Codegen.Emission
import Honk.Codegen.Codegen
import Honk.Codegen.Layout

namespace Honk.Codegen

open Honk.Lib Honk.Lib.Bpf Honk.Routing AsmM List

variable {slot : ℕ}

theorem through_loadMapFd : Through (loadMapFd fd) := by
  intro free used a x c ha hm
  have hpl : (⟨bpfLd ||| bpfDw ||| bpfImm, 1, pseudoMapFd, 0, fd⟩ : Insn).isJump = false ∧
      (⟨bpfLd ||| bpfDw ||| bpfImm, 1, pseudoMapFd, 0, fd⟩ : Insn).isEnd = false ∧
      (⟨bpfLd ||| bpfDw ||| bpfImm, 1, pseudoMapFd, 0, fd⟩ : Insn).width = 2 := ⟨rfl, rfl, rfl⟩
  obtain ⟨_, b, hb, hc⟩ := (andThen_eq_ok (m := emit (bpfLd ||| bpfDw ||| bpfImm) 1 pseudoMapFd 0 fd)).mp hm
  simp only [emit] at hb hc
  split at hb <;> cases hb
  split at hc <;> cases hc
  refine ⟨ha.laid.append ((a.push ⟨bpfLd ||| bpfDw ||| bpfImm, 1, pseudoMapFd, 0, fd⟩).push ⟨0, 0, 0, 0, 0⟩) [⟨0, 0, 0, 0, 0⟩] [] hpl.2.2
    ?_ rfl rfl ?_ (by simp) ?_ ?_, ha.nodup, ha.unbound, ha.jumped⟩
  · exact append_assoc _ _ _
  · simp [Assembler.push]
  · exact fun hj => by cases hpl.1.symm.trans hj
  · exact fun he => by cases hpl.2.1.symm.trans he

theorem through_emitTraceOr {offset : ℤ} {bits : BitVec 32} : Through (emitTraceOr offset bits) := by
  apply through_whenTraced
  intro free used
  apply flows_label
  intro disabled
  refine flows_seq (flows_jump rfl mem_cons_self) fun _ => ?_
  refine flows_through (through_emit (by rfl)) (flows_through (through_emit (by rfl)) ?_)
  refine flows_through (through_emit (by rfl)) ?_
  exact flows_post (flows_bind [] free (.inl rfl)) fun _ _ ha => ha.forget (by grind)

theorem through_emitTraceOutcome : Through (emitTraceOutcome slot result) := by
  unfold emitTraceOutcome
  split
  · exact through_emitTraceOr
  · exact through_emitTraceOr

theorem through_copy {load store : α → AsmM Unit} (hl : ∀ x, Through (load x)) (hs : ∀ x, Through (store x)) {xs : List α} :
    Through (forEach (fun x => do load x; store x) xs) :=
  through_forEach (fun x => through_seq (hl x) (hs x)) xs

theorem through_emitTraceInit : Through emitTraceInit := by
  apply through_whenTraced
  intro free used
  apply flows_label
  intro disabled
  refine flows_through (through_emit (by rfl)) (flows_through (through_emit (by rfl)) ?_)
  refine flows_seq (flows_jump rfl mem_cons_self) fun _ => ?_
  refine flows_through (through_emit (by rfl)) (flows_through (through_emit (by rfl)) ?_)
  refine flows_through (through_forEach (fun _ => through_emit (by rfl)) _) ?_
  refine flows_through (through_forEach (fun _ => through_emit (by rfl)) _) ?_
  refine flows_through (through_copy (fun _ => through_emit (by rfl)) (fun _ => through_emit (by rfl))) ?_
  exact flows_post (flows_bind [] free (.inl rfl)) fun _ _ ha => ha.forget (by grind)

theorem through_emitTraceDomain : Through emitTraceDomain := by
  apply through_whenTraced
  intro free used
  apply flows_label
  intro disabled
  refine flows_seq (flows_jump rfl mem_cons_self) fun _ => ?_
  refine flows_through (through_copy (fun _ => through_emit (by rfl)) (fun _ => through_emit (by rfl))) ?_
  exact flows_post (flows_bind [] free (.inl rfl)) fun _ _ ha => ha.forget (by grind)

variable {inputOffset : ℤ}

theorem through_writeKeyFromInput : Through (writeKeyFromInput inputOffset prefixLen) := by
  refine through_seq (through_emit (by rfl)) (through_seq ?_ (through_forEach (fun _ => through_emit (by rfl)) _))
  exact through_copy (fun _ => through_emit (by rfl)) (fun _ => through_emit (by rfl))

theorem through_writeDomainKeyFromInput : Through writeDomainKeyFromInput :=
  through_seq (through_emit (by rfl)) (through_seq (through_emit (by rfl))
    (through_seq (through_emit (by rfl)) (through_emit (by rfl))))

variable {free used : List Label}

theorem flows_emitAddressKey {absent lookup : Label} (hab : absent ∈ free) (hl : lookup ∈ free) :
    Flows (At free used true) (emitAddressKey inputOffset v4Fd v6Fd absent lookup) fun _ => At free used true := by
  apply flows_label
  intro v6
  refine flows_through (through_emit (by rfl)) ?_
  refine flows_seq (flows_jump rfl mem_cons_self) fun _ => ?_
  refine flows_through through_writeKeyFromInput (flows_through through_loadMapFd ?_)
  refine flows_seq (flows_ja (mem_cons_of_mem _ hl)) fun _ => ?_
  refine flows_seq (flows_bind [] free (.inr (by simp))) fun _ => ?_
  refine flows_seq (flows_jump rfl hab) fun _ => ?_
  refine flows_through through_writeKeyFromInput ?_
  exact flows_post (through_loadMapFd _ _) fun _ _ ha => ha.forget (by grind)

theorem flows_emitFactKey (kind : FactKind) (fds : RoutingMapFds) {absent lookup : Label} (hab : absent ∈ free) (hl : lookup ∈ free) :
    Flows (At free used true) (emitFactKey kind fds absent lookup) fun _ => At free used true := by
  cases kind with
  | domain => exact flows_through through_writeDomainKeyFromInput (through_loadMapFd _ _)
  | mac =>
    refine flows_through (through_emit (by rfl)) (flows_through (through_emit (by rfl)) ?_)
    refine flows_seq (flows_jump rfl hab) fun _ => flows_through through_writeKeyFromInput ?_
    exact flows_post (through_loadMapFd _ _) fun _ _ ha => ha.forget (by grind)
  | destination | source => exact flows_emitAddressKey hab hl

theorem through_emitFactLookup (kind : FactKind) (fds : RoutingMapFds) : Through (emitFactLookup kind fds) := by
  intro free used
  apply flows_label
  intro absent
  apply flows_label
  intro lookup
  apply flows_label
  intro done
  refine flows_seq (flows_emitFactKey kind fds (by simp) (by simp)) fun _ => ?_
  refine flows_seq (flows_bind [done] (absent :: free) (.inl rfl)) fun _ => ?_
  refine flows_through (through_emit (by rfl)) (flows_through (through_emit (by rfl)) ?_)
  refine flows_through (through_emit (by rfl)) ?_
  refine flows_seq (flows_jump rfl (by simp)) fun _ => ?_
  refine flows_through (through_when (through_emit (by rfl))) ?_
  refine flows_through (through_copy (fun _ => through_emit (by rfl)) (fun _ => through_emit (by rfl))) ?_
  refine flows_through through_emitTraceOr ?_
  refine flows_seq (flows_ja (by simp)) fun _ => ?_
  refine flows_seq (flows_bind [done] free (.inr (by simp))) fun _ => ?_
  refine flows_through (through_emit (by rfl)) ?_
  refine flows_through (through_forEach (fun _ => through_emit (by rfl)) _) ?_
  refine flows_seq (flows_bind [] free (.inl rfl)) fun _ => ?_
  refine flows_through through_emitTraceOr ?_
  exact flows_post (through_when through_emitTraceDomain _ _) fun _ _ ha => ha.forget (by grind)

variable {onTrue onFalse : Label} {condition : KernelCondition}

theorem flows_branch (ho : conditional op = true) (ht : onTrue ∈ free) (hf : onFalse ∈ free) :
    Flows (At free used true) (do jump op dst imm onTrue; ja onFalse) fun _ => At free (onTrue :: onFalse :: used) false := by
  refine flows_seq (flows_jump ho ht) fun _ => flows_post (flows_ja hf) fun _ _ ha => ha.forget (by grind)

theorem branches_emitFactBit (kind : FactKind) (id : ℕ) : Branches (emitFactBit kind id onTrue onFalse) onTrue onFalse :=
  fun _ _ ht hf => flows_through (through_emit (by rfl)) (flows_through (through_emit (by rfl))
    (flows_branch rfl ht hf))

theorem branches_emitFactBitLazy (id : ℕ) (fds : RoutingMapFds) : Branches (emitFactBitLazy kind id onTrue onFalse fds) onTrue onFalse := by
  intro free used ht hf
  apply flows_label
  intro resolved
  refine flows_seq (flows_jump rfl mem_cons_self) fun _ => ?_
  refine flows_through (through_emitFactLookup kind fds) (flows_through (through_emit (by rfl)) ?_)
  refine flows_seq (flows_bind [] free (.inl rfl)) fun _ => ?_
  refine flows_post (branches_emitFactBit kind id free _ ht hf) fun _ _ ha => ha.forget (by grind)

variable {offset : ℤ}

theorem branches_emitMaskScalar : Branches (emitMaskScalar offset mask onTrue onFalse) onTrue onFalse :=
  fun _ _ ht hf => flows_through (through_emit (by rfl)) (flows_through (through_emit (by rfl))
    (flows_branch rfl ht hf))

theorem branches_forEach (hf : Through first)
    (h : ∀ free used x, onTrue ∈ free → Flows (At free used true) (f x) fun _ => At free (onTrue :: used) true) (hn : xs ≠ []) :
    Branches (do first; forEach f xs; ja onFalse) onTrue onFalse := by
  intro free used ht hfa
  refine flows_through hf (flows_seq (flows_forEach hn fun x _ used => h free used x ht) fun _ => ?_)
  refine flows_post (flows_ja hfa) fun _ _ ha => ha.forget (by grind)

theorem branches_emitPortRanges {ranges : List PortRange} (hn : ranges ≠ []) :
    Branches (emitPortRanges ranges offset onTrue onFalse) onTrue onFalse := by
  refine branches_forEach (through_emit (by rfl)) (fun free used range ht => ?_) hn
  apply flows_label
  intro next
  apply flows_label
  intro inside
  refine flows_seq (flows_jump rfl (by simp)) fun _ => ?_
  refine flows_seq (flows_ja (by simp)) fun _ => ?_
  refine flows_seq (flows_bind [] (next :: free) (.inr (by simp))) fun _ => ?_
  refine flows_seq (flows_jump rfl (by simp)) fun _ => ?_
  refine flows_seq (flows_ja (by simp [ht])) fun _ => ?_
  refine flows_post (flows_bind [] free (.inr (by simp))) fun _ _ ha => ha.forget (by grind)

theorem flows_emitNameAt (bytes : List Byte) (ht : onTrue ∈ free) (offset : ℕ) :
    Flows (At free used true) (emitNameAt bytes onTrue offset) fun _ => At free (onTrue :: used) true := by
  apply flows_label
  intro next
  apply flows_label
  intro enough
  refine flows_seq (flows_jump rfl (by simp)) fun _ => ?_
  refine flows_seq (flows_ja (by simp)) fun _ => ?_
  refine flows_seq (flows_bind [] (next :: free) (.inr (by simp))) fun _ => ?_
  have hby : ∀ (entry : Byte × ℕ) used, Flows (At (next :: free) (next :: used) true)
      (do ldxB 5 6 (inputPname + offset + entry.2); jump bpfJne 5 (entry.1.zeroExtend 32) next) fun _ => At (next :: free) (next :: used) true :=
    fun entry used => flows_through (through_emit (by rfl))
      (flows_post (flows_jump rfl mem_cons_self) fun _ _ ha => ha.forget (by grind))
  have hb : ∀ entries used, Flows (At (next :: free) (next :: used) true) (forEach (fun entry : Byte × ℕ => do
      ldxB 5 6 (inputPname + offset + entry.2)
      jump bpfJne 5 (entry.1.zeroExtend 32) next) entries) fun _ => At (next :: free) (next :: used) true := by
    intro entries used
    induction entries with
    | nil => exact flows_pure
    | cons entry entries ih => exact flows_seq (hby entry used) fun _ => ih
  refine flows_seq (hb bytes.zipIdx _) fun _ => ?_
  refine flows_seq (flows_ja (by simp [ht])) fun _ => ?_
  refine flows_post (flows_bind [] free (.inr (by simp))) fun _ _ ha => ha.forget (by grind)

theorem flows_emitProcessName (ht : onTrue ∈ free) (bytes : List Byte) :
    Flows (At free used true) (emitProcessName onTrue bytes) fun _ => At free (onTrue :: used) true := by
  apply flows_label
  intro nextName
  refine flows_through (through_emit (by rfl)) ?_
  split
  · exact flows_post (flows_jump rfl (mem_cons_of_mem _ ht)) fun _ _ ha => ha.drop
  apply flows_label
  intro long
  refine flows_seq (flows_jump rfl (by simp)) fun _ => ?_
  refine flows_seq (flows_ja (by simp)) fun _ => ?_
  refine flows_seq (flows_bind [] (nextName :: free) (.inr (by simp))) fun _ => ?_
  -- there is an offset to try: the name fits the longest one
  refine flows_seq (flows_forEach (by simp) fun offset _ used => flows_emitNameAt bytes (mem_cons_of_mem _ ht) offset) fun _ => ?_
  exact flows_post (flows_bind [] free (.inl rfl)) fun _ _ ha => ha.forget (by grind)

theorem branches_emitPredicate (hl : predicate.isEmpty = false) (fds : RoutingMapFds) :
    Branches (emitPredicate predicate onTrue onFalse fds) onTrue onFalse := by
  cases predicate with
  | domain id => exact branches_emitFactBit _ id
  | destinationIp id | sourceIp id | mac id => exact branches_emitFactBitLazy id fds
  | destinationPort ranges | sourcePort ranges => exact branches_emitPortRanges (isEmpty_eq_false_iff.mp hl)
  | protocol mask | ipVersion mask => exact branches_emitMaskScalar
  | dscp values =>
    exact branches_forEach (through_emit (by rfl)) (fun _ _ _ ht => flows_jump rfl ht) (isEmpty_eq_false_iff.mp hl)
  | processName names =>
    intro free used ht hf
    refine flows_seq (flows_forEach (isEmpty_eq_false_iff.mp hl) fun bytes _ used => flows_emitProcessName ht bytes) fun _ => ?_
    exact flows_post (flows_ja hf) fun _ _ ha => ha.forget (by grind)

theorem branches_emitCondition (hl : condition.predicate.isEmpty = false) (pass fail : Label) (fds : RoutingMapFds) :
    Branches (emitCondition condition pass fail fds) pass fail := by
  intro free used hpa hf
  unfold emitCondition
  cases condition.not with
  | false => exact branches_emitPredicate hl fds free used hpa hf
  | true => exact flows_post (branches_emitPredicate hl fds free used hf hpa) fun _ _ ha => ha.forget (by grind)

theorem branches_emitChecked (hl : condition.predicate.isEmpty = false) (plan : RoutingPushPlan)
    (fds : RoutingMapFds) (pass fail : Label) : Branches (emitChecked plan fds slot condition pass fail) pass fail := by
  unfold emitChecked
  split
  · intro free used hpa hf
    apply flows_label
    intro missed
    refine flows_seq (branches_emitCondition hl pass missed fds _ _ (mem_cons_of_mem _ hpa) mem_cons_self) fun _ => ?_
    refine flows_seq (flows_bind [] free (.inr (by simp))) fun _ => ?_
    refine flows_through through_emitTraceOutcome ?_
    exact flows_post (flows_ja hf) fun _ _ ha => ha.forget (by grind)
  · exact branches_emitCondition hl pass fail fds

theorem runtimeConditions_live {rule : KernelRule} {entry : ℕ × KernelCondition} (h : entry ∈ rule.runtimeConditions) :
    entry.2.predicate.isEmpty = false := by
  simp only [KernelRule.runtimeConditions, mem_append, mem_filter] at h
  obtain ⟨⟨-, hl⟩, -⟩ | ⟨⟨-, hl⟩, -⟩ := h <;> simpa using hl

theorem flows_emitConditions (plan : RoutingPushPlan) (fds : RoutingMapFds) (ruleSlot : ℕ) (hf : fail ∈ free)
    (hn : entries ≠ []) (hl : ∀ entry ∈ entries, entry.1.predicate.isEmpty = false) :
    Flows (At free used true) (emitConditions plan fds ruleSlot fail entries) fun _ => At free (fail :: used) true := by
  refine flows_forEach hn fun entry he used => ?_
  apply flows_label
  intro pass
  refine flows_seq (branches_emitChecked (hl entry he) plan fds pass fail _ _ mem_cons_self (mem_cons_of_mem _ hf)) fun _ => ?_
  refine flows_seq (flows_bind [] free (.inr (by simp))) fun _ => ?_
  exact flows_post (through_emitTraceOutcome _ _) fun _ _ ha => ha.forget (by grind)

theorem through_emitDirectFinality : Through emitDirectFinality := by
  intro free used
  apply flows_label
  intro notFinal
  refine flows_through (through_emit (by rfl)) (flows_through (through_emit (by rfl)) ?_)
  refine flows_seq (flows_jump rfl mem_cons_self) fun _ => flows_through (through_emit (by rfl)) ?_
  exact flows_post (flows_bind [] free (.inl rfl)) fun _ _ ha => ha.forget (by grind)

variable {action : KernelAction} {refineDirectFinality : Bool} {ruleId : Option (BitVec 32)}

theorem through_emitAction : Through (emitAction action ruleId refineDirectFinality) := by
  have hid : Through (ruleId.elim (pure ()) (stImm 7 decisionRuleId)) := by
    cases ruleId with
    | none => exact through_pure
    | some id => exact through_emit (by rfl)
  refine through_seq (through_when through_emitDirectFinality) (through_seq (through_when (through_emit (by rfl))) ?_)
  refine through_seq (through_when (through_emit (by rfl))) (through_seq (through_when (through_emit (by rfl))) ?_)
  exact through_seq hid (through_when (through_emit (by rfl)))

theorem flows_finish {k : Unit → AsmM Unit}
    {post : Unit → Assembler → Prop} (hk : ∀ u, Flows (fun a => At free used false a ∧ a.Ended) (k u) post) :
    Flows (At free used true) (do
      emitTraceOutcome slot routeTraceMatched
      emitAction action ruleId refineDirectFinality
      emitTraceOr traceFlags routeTraceComplete
      movImm 0 0
      let u ← exit
      k u) post := by
  refine flows_through through_emitTraceOutcome (flows_through through_emitAction ?_)
  refine flows_through through_emitTraceOr (flows_through (through_emit (by rfl)) ?_)
  exact flows_seq flows_exit hk

def Closed (a : Assembler) : Prop := At [] [] false a ∧ a.Ended

variable (plan : RoutingPushPlan) (fds : RoutingMapFds)

theorem flows_emitRule (rule : KernelRule) :
    Flows (At [] [] true) (emitRule plan fds rule ruleSlot domainPrefix)
      fun _ a => if rule.runtimeConditions.isEmpty then Closed a else At [] [] true a := by
  unfold emitRule
  refine flows_through through_source ?_
  apply flows_label
  intro fail
  cases hr : rule.runtimeConditions with
  | nil =>
    refine flows_through (m := emitConditions plan fds ruleSlot fail []) through_pure (flows_finish fun _ => ?_)
    exact flows_post flows_pure fun _ _ ha => ⟨ha.1.drop, ha.2⟩
  | cons entry entries =>
    have hl : ∀ checked ∈ (rule.runtimeConditions.map Prod.snd).zipIdx, checked.1.predicate.isEmpty = false := by
      intro checked hc
      have hm : checked.1 ∈ rule.runtimeConditions.map Prod.snd := by
        rw [(mem_zipIdx' hc).2]
        exact getElem_mem _
      obtain ⟨found, hf, he⟩ := mem_map.mp hm
      exact he ▸ runtimeConditions_live hf
    rw [hr] at hl
    refine flows_seq (flows_emitConditions plan fds ruleSlot mem_cons_self (by simp) hl) fun _ => flows_finish fun _ => ?_
    refine flows_pre (fun _ ha => ha.1) (flows_seq (flows_bind [] [] (.inr (by simp))) fun _ => ?_)
    exact flows_post (through_emitTraceOutcome _ _) fun _ _ ha => ha.forget nofun

theorem flows_emitRules (rules : List KernelRule) (traceSlot : ℕ) (domainPrefix : Bool) :
    Flows (At [] [] true) (emitRules plan fds traceSlot domainPrefix rules) fun _ => Closed := by
  induction rules generalizing traceSlot domainPrefix with
  | nil =>
    refine flows_through through_source (flows_through through_emitTraceOutcome (flows_through through_emitAction ?_))
    exact flows_through through_emitTraceOr (flows_through (through_emit (by rfl)) flows_exit)
  | cons rule rules ih =>
    rw [emitRules]
    split
    · exact ih _ _
    refine flows_seq (flows_emitRule plan fds rule) fun _ => ?_
    cases he : rule.runtimeConditions.isEmpty with
    | true => exact flows_pure
    | false => exact ih _ _

theorem through_emitNonnull (register : ℕ) : Through (emitNonnull register) := by
  intro free used
  apply flows_label
  intro nonnull
  refine flows_seq (flows_jump rfl mem_cons_self) fun _ => flows_through (through_emit (by rfl)) ?_
  refine flows_seq flows_exit fun _ => flows_pre (fun _ ha => ha.1) ?_
  exact flows_post (flows_bind [] free (.inr mem_cons_self)) fun _ _ ha => ha.forget (by grind)

theorem through_emitPrologue : Through (emitPrologue plan fds) := by
  refine through_seq through_source (through_seq (through_forEach through_emitNonnull _) ?_)
  iterate 9 refine through_seq (through_emit (by rfl)) ?_
  refine through_seq (through_forEach (fun _ => through_copy (fun _ => through_emit (by rfl))
    (fun _ => through_emit (by rfl))) _) ?_
  exact through_seq through_emitTraceInit (through_when (through_emitFactLookup _ _))

theorem at_start (layout : Option KernelTraceLayout) : At [] [] true { traceLayout := layout } := by
  have hs : ∀ i, Boundary [] i → i = 0 := by
    intro i hi
    cases hi with
    | start => rfl
    | next _ _ _ hf => cases hf
  exact ⟨⟨⟨.start, fun i hi => (hs i hi).le⟩, nofun, nofun, nofun, nofun, nofun, nodup_nil⟩, nodup_nil, nofun, nofun⟩

theorem closed_emitProgram {plan : RoutingPushPlan} {fds : RoutingMapFds} {layout : Option KernelTraceLayout} {u : Unit} {z : Assembler}
    (h : (emitProgram plan fds).1 { traceLayout := layout } = .ok (u, z)) : Closed z :=
  flows_through (through_emitPrologue plan fds) (flows_emitRules plan fds plan.rules 0 false) _ _ _ (at_start layout) h

end Honk.Codegen
