import Honk.Codegen.Shape
import Honk.Codegen.Predicate

namespace Honk.Codegen

open Honk.Lib Honk.Lib.Bpf Honk.Routing AsmM List
open Function (update update_of_ne update_self)

variable {fds : RoutingMapFds} {z : Assembler} {prog : List Insn} {host : MapHost fds} {input : RoutingInput}
  {on : Bool} {mask : BitVec 32} {held : FactKind → Bool} {out : Words} {regs : ℕ → Value Block}
  {mem : Mem Block} {a b : Assembler} {u : Unit} {Q : State Block → Prop}

variable {slot : ℕ} {ruleId : Option (BitVec 32)} {plan : RoutingPushPlan} {fail : Label} {rule : KernelRule} {domainPrefix : Bool}

/-- The exit of the program: R0 is zero and the tracked words are `out`. -/
def Halts {fds : RoutingMapFds} (host : MapHost fds) (prog : List Insn) (out : Words) (s : State Block) : Prop :=
  ∃ r0 mem, step host.env prog s = some (.exit r0 mem) ∧ r0 = .scalar 0 ∧ ∀ k, Tracked k → word mem .output (4 * (k : ℤ)) = out k

theorem predicateOk_congr (h : held' .domain = held .domain) (ho : PredicateOk held predicate) : PredicateOk held' predicate := by
  cases predicate with
  | domain id => exact ⟨ho.1, h.trans ho.2⟩
  | _ => exact ho

theorem mem_runtimeConditions (h : entry ∈ rule.runtimeConditions) : entry.2 ∈ rule.conditions := by
  simp only [KernelRule.runtimeConditions, mem_append, mem_filter, mem_map] at h
  obtain ⟨⟨⟨e, he, rfl⟩, -⟩, -⟩ | ⟨⟨⟨e, he, rfl⟩, -⟩, -⟩ := h <;>
  · rw [Prod.snd_swap, (mem_zipIdx' he).2]
    exact getElem_mem _

theorem mem_runtimePart (h : entry ∈ runtimePart rule) : entry.1 ∈ rule.conditions := by
  have hm : entry.1 ∈ rule.runtimeConditions.map Prod.snd := by
    rw [(mem_zipIdx' h).2]
    exact getElem_mem _
  obtain ⟨e, he, heq⟩ := mem_map.mp hm
  rw [← heq]
  exact mem_runtimeConditions he

section

variable (hz : Linked z prog) (hi : Holds z host input on mask held out regs mem)
include hz hi

theorem leads_emitTraceOutcome (matched : Bool)
    (h : Emit z (emitTraceOutcome slot (outcomeBits matched)) a u b)
    (cont : ∀ regs' mem', Holds z host input on mask held (recordOutcome on out (slot, matched)) regs' mem' →
      Runs host prog Q b.pc regs' mem') : Runs host prog Q a.pc regs mem := by
  rw [emitTraceOutcome] at h
  rw [recordOutcome] at cont
  by_cases hs : routeTraceValues ≤ slot
  · rw [if_pos hs] at h cont
    exact leads_emitTraceOr hz hi h 6 rfl (.inl (by omega)) cont
  rw [if_neg hs] at h cont
  simp only [routeTraceValues] at hs
  apply leads_emitTraceOr hz hi h (52 + slot / 16) _ (.inr ⟨by omega, by omega⟩) cont
  simp only [traceOutcomes]
  omega

theorem leads_stWhen (h : Emit z (when condition (stImm 7 offset imm)) a u b)
    (k : ℕ) (hk : offset = 4 * (k : ℤ)) (hk' : k < 68)
    (cont : ∀ mem', Holds z host input on mask held (setWhen condition k imm out) regs mem' → Runs host prog Q b.pc regs mem') :
    Runs host prog Q a.pc regs mem := by
  rcases emit_when h with ⟨rfl, rfl⟩ | ⟨rfl, hm⟩
  · exact cont mem hi
  · exact leads_stOutput hz hm hi k hk hk' cont

theorem leads_stRuleId (h : Emit z (ruleId.elim (pure ()) (stImm 7 decisionRuleId)) a u b)
    (cont : ∀ mem', Holds z host input on mask held
      (setWhen ruleId.isSome 4 (ruleId.getD 0) out) regs mem' → Runs host prog Q b.pc regs mem') :
    Runs host prog Q a.pc regs mem := by
  cases ruleId with
  | none =>
    obtain ⟨-, rfl, -⟩ := emit_pure_iff.mp h
    exact cont mem hi
  | some id => exact leads_stOutput hz h hi 4 rfl (by omega) cont

theorem leads_emitDirectFinality (h : Emit z (when condition emitDirectFinality) a u b)
    (cont : ∀ regs' mem', Holds z host input on mask held
      (setWhen (condition && (input.flags &&& routingInputAllowDirectFinality != 0)) 3 1 out) regs' mem' →
      Runs host prog Q b.pc regs' mem') : Runs host prog Q a.pc regs mem := by
  rcases emit_when h with ⟨rfl, rfl⟩ | ⟨rfl, hm⟩
  · exact cont regs mem hi
  simp only [emitDirectFinality, emit_bind_iff] at hm
  obtain ⟨notFinal, _, h1, _, _, h2, _, _, h3, _, _, h4, _, _, h5, h6⟩ := hm
  have hf : word mem .input (0 + inputFlags) = input.flags := hi.scalar 7 (by omega)
  apply leads_label h1
  apply leads_ldxW hz h2 hi.r6 (valid_input _ _ (by decide))
  rw [hf]
  apply leads_andImm hz h3 (update_self ..)
  rw [setWidth_and_signExtend]
  have hi0 := (hi.scratch 0 (.scalar (input.flags.setWidth 64)) (by omega)).scratch 0
    (.scalar ((input.flags &&& routingInputAllowDirectFinality).setWidth 64)) (by omega)
  rw [Bool.true_and] at cont
  apply leads_jump hz h4 .eq rfl (by rw [update_self]; exact congrArg some (eval_eq_small _ 0 (by decide)))
  · intro he t ht
    apply leads_at_label hz h6 ht
    apply cont
    rw [bne, he]
    exact hi0
  intro hn
  apply leads_stOutput hz h5 hi0 3 rfl (by omega)
  intro mem' hi'
  apply leads_bind hz h6
  apply cont
  rw [bne, hn]
  exact hi'

theorem leads_emitAction (h : Emit z (emitAction action ruleId refineDirectFinality) a u b)
    (cont : ∀ regs' mem', Holds z host input on mask held
      (applyAction action ruleId refineDirectFinality input.flags out) regs' mem' → Runs host prog Q b.pc regs' mem') :
    Runs host prog Q a.pc regs mem := by
  simp only [emitAction, emit_bind_iff] at h
  obtain ⟨_, _, h1, _, _, h2, _, _, h3, _, _, h4, _, _, h5, h6⟩ := h
  apply leads_emitDirectFinality hz hi h1
  intro regs1 mem1 hi1
  apply leads_stWhen hz hi1 h2 0 rfl (by omega)
  intro mem2 hi2
  apply leads_stWhen hz hi2 h3 1 rfl (by omega)
  intro mem3 hi3
  apply leads_stWhen hz hi3 h4 2 rfl (by omega)
  intro mem4 hi4
  apply leads_stRuleId hz hi4 h5
  intro mem5 hi5
  apply leads_stWhen hz hi5 h6 5 rfl (by omega)
  exact fun mem6 hi6 => cont regs1 mem6 hi6

theorem leads_exit (h1 : Emit z (emitTraceOr traceFlags routeTraceComplete) a u1 c) (h2 : Emit z (movImm 0 0) c u2 d)
    (h3 : Emit z exit d u b) :
    Leads host.env prog ⟨a.pc, regs, mem⟩ (Halts host prog (traceOr on 6 routeTraceComplete out)) := by
  apply leads_emitTraceOr hz hi h1 6 rfl (.inl (by omega))
  intro regs' mem' hi'
  apply leads_movImm hz h2
  exact Leads.done ⟨_, mem', step_exit hz h3, by rw [update_self]; rfl, hi'.words⟩

theorem leads_condition (htr : z.traceLayout.isSome = plan.traceEnabled) (h : Emit z (do
      let pass ← label
      emitChecked plan fds slot condition pass fail
      AsmM.bind pass
      emitTraceOutcome slot routeTraceMatched) a u b)
    (hok : PredicateOk held condition.predicate)
    (kpass : condition.holds (host.view input) = true → ∀ mask' held' regs' mem',
      Holds z host input on mask' held' (recordOutcome on out (slot, true)) regs' mem' →
      held' .domain = held .domain → Runs host prog Q b.pc regs' mem')
    (kfail : condition.holds (host.view input) = false → ∀ t, z.addr fail = some t → ∀ mask' held' regs' mem',
      Holds z host input on mask' held' (recordOutcome on out (slot, false)) regs' mem' →
      held' .domain = held .domain → Runs host prog Q t regs' mem') :
    Runs host prog Q a.pc regs mem := by
  simp only [emit_bind_iff] at h
  obtain ⟨pass, _, h1, _, _, h2, _, _, h3, h4⟩ := h
  -- the negation swaps the two labels, and with them which of them is reached
  have hbr : ∀ miss c u d, Emit z (emitPredicate condition.predicate (if condition.not then miss else pass)
        (if condition.not then pass else miss) fds) c u d →
      (condition.holds (host.view input) = false → ∀ t, z.addr miss = some t → ∀ mask' held' regs' mem',
        Holds z host input on mask' held' out regs' mem' → held' .domain = held .domain → Runs host prog Q t regs' mem') →
      Runs host prog Q c.pc regs mem := by
    intro miss c u d h hm
    apply leads_emitPredicate hz hi h hok
    intro t ht mask' held' regs' mem' hi' hd
    have hta : (if condition.predicate.eval (host.view input) then (if condition.not then miss else pass)
        else (if condition.not then pass else miss)) = if condition.holds (host.view input) then pass else miss := by
      rw [KernelCondition.holds]
      cases condition.predicate.eval (host.view input) <;> cases condition.not <;> rfl
    rw [hta] at ht
    cases hc : condition.holds (host.view input) with
    | true =>
      rw [hc, if_pos rfl] at ht
      apply leads_at_label hz h3 ht
      apply leads_emitTraceOutcome hz hi' true h4
      exact fun regs'' mem'' hi'' => kpass hc mask' held' regs'' mem'' hi'' hd
    | false =>
      rw [hc, if_neg Bool.false_ne_true] at ht
      exact hm hc t ht mask' held' regs' mem' hi' hd
  apply leads_label h1
  rw [emitChecked] at h2
  by_cases hte : plan.traceEnabled = true
  · rw [if_pos hte] at h2
    simp only [emit_bind_iff] at h2
    obtain ⟨missed, _, h5, _, _, h6, _, _, h7, _, _, h8, h9⟩ := h2
    apply leads_label h5
    apply hbr _ _ _ _ h6
    intro hc t ht mask' held' regs' mem' hi' hd
    apply leads_at_label hz h7 ht
    apply leads_emitTraceOutcome hz hi' false h8
    intro regs'' mem'' hi''
    apply leads_ja hz h9
    exact fun t ht => kfail hc t ht mask' held' regs'' mem'' hi'' hd
  rw [if_neg hte] at h2
  have ho : on = false := by
    by_contra hon
    rw [← htr, hi.traced (by simpa using hon)] at hte
    exact hte rfl
  apply hbr _ _ _ _ h2
  intro hc t ht mask' held' regs' mem' hi' hd
  apply kfail hc t ht mask' held' regs' mem' _ hd
  rw [ho] at hi' ⊢
  rw [recordOutcome]
  split <;> exact hi'

theorem leads_emitConditions (htr : z.traceLayout.isSome = plan.traceEnabled)
    (conditions : List (KernelCondition × ℕ)) (h : Emit z (emitConditions plan fds ruleSlot fail conditions) a u b)
    (ho : ∀ entry ∈ conditions, PredicateOk held entry.1.predicate)
    (kpass : (conditions.all fun entry => entry.1.holds (host.view input)) = true → ∀ mask' held' regs' mem',
      Holds z host input on mask' held'
        ((conditionLog (host.view input) ruleSlot conditions).foldl (recordOutcome on) out) regs' mem' →
      held' .domain = held .domain → Runs host prog Q b.pc regs' mem')
    (kfail : (conditions.all fun entry => entry.1.holds (host.view input)) = false → ∀ t, z.addr fail = some t →
      ∀ mask' held' regs' mem', Holds z host input on mask' held'
        ((conditionLog (host.view input) ruleSlot conditions).foldl (recordOutcome on) out) regs' mem' →
      held' .domain = held .domain → Runs host prog Q t regs' mem') : Runs host prog Q a.pc regs mem := by
  induction conditions generalizing a mask held out regs mem with
  | nil =>
    obtain ⟨rfl, -⟩ := emit_forEach_nil.mp h
    exact kpass rfl mask held regs mem hi rfl
  | cons entry conditions ih =>
    obtain ⟨condition, rank⟩ := entry
    obtain ⟨_, c, h1, h2⟩ := emit_forEach_cons.mp h
    simp only [all_cons, conditionLog, foldl_cons] at kpass kfail
    apply leads_condition hz hi htr h1 (ho _ mem_cons_self)
    · intro hc mask' held' regs' mem' hi' hd
      simp only [hc, ↓reduceIte, Bool.true_and] at kpass kfail
      apply ih hi' h2 (fun e he => predicateOk_congr hd (ho e (mem_cons_of_mem _ he)))
      · exact fun ha mask'' held'' regs'' mem'' hi'' hd' => kpass ha mask'' held'' regs'' mem'' hi'' (hd'.trans hd)
      · exact fun ha t ht mask'' held'' regs'' mem'' hi'' hd' => kfail ha t ht mask'' held'' regs'' mem'' hi'' (hd'.trans hd)
    intro hc t ht mask' held' regs' mem' hi' hd
    simp only [hc, Bool.false_eq_true, ↓reduceIte, Bool.false_and] at kfail
    exact kfail trivial t ht mask' held' regs' mem' hi' hd

theorem leads_emitFallback (h : Emit z (emitFallback plan slot domainPrefix) a u b)
    : Leads host.env prog ⟨a.pc, regs, mem⟩
      (Halts host prog ((evaluate (host.view input) slot domainPrefix []).finish plan on input.flags out)) := by
  simp only [emitFallback, emit_bind_iff] at h
  obtain ⟨_, _, h1, _, _, h2, _, _, h3, _, _, h4, _, _, h5, h6⟩ := h
  apply leads_source h1
  apply leads_emitTraceOutcome hz hi true h2
  intro regs1 mem1 hi1
  apply leads_emitAction hz hi1 h3
  intro regs2 mem2 hi2
  exact leads_exit hz hi2 h4 h5 h6

theorem leads_emitRules (htr : z.traceLayout.isSome = plan.traceEnabled) (rules : List KernelRule)
    (h : Emit z (emitRules plan fds slot domainPrefix rules) a u b)
    (ho : ∀ rule ∈ rules, ∀ condition ∈ rule.conditions, PredicateOk held condition.predicate) :
    Leads host.env prog ⟨a.pc, regs, mem⟩
      (Halts host prog ((evaluate (host.view input) slot domainPrefix rules).finish plan on input.flags out)) := by
  induction rules generalizing a slot domainPrefix mask held out regs mem with
  | nil => exact leads_emitFallback hz hi h
  | cons rule rules ih =>
    have hre : ∀ r ∈ rules, ∀ condition ∈ r.conditions, PredicateOk held condition.predicate :=
      fun r hr => ho r (mem_cons_of_mem _ hr)
    rw [emitRules] at h
    rw [evaluate]
    by_cases hf : rule.foldedFalse = true
    · rw [if_pos hf] at h ⊢
      exact ih hi h hre
    rw [if_neg hf] at h ⊢
    obtain ⟨_, c, hru, hm⟩ := emit_bind_iff.mp h
    simp only [emitRule, emit_bind_iff] at hru
    obtain ⟨_, _, h1, fail, _, h2, _, _, h3, _, _, h4, hru⟩ := hru
    obtain ⟨_, _, h5, _, _, h6, _, _, h7, _, _, h8, h9⟩ := hru
    apply leads_source h1
    apply leads_label h2
    apply leads_emitConditions hz hi htr _ h3 (fun e he => ho rule mem_cons_self e.1 (mem_runtimePart he))
    · intro ha mask' held' regs' mem' hi' hd
      have hpa : passes (host.view input) rule = true := ha
      rw [if_pos hpa]
      apply leads_emitTraceOutcome hz hi' true h4
      intro regs1 mem1 hi1
      apply leads_emitAction hz hi1 h5
      intro regs2 mem2 hi2
      have := leads_exit hz hi2 h6 h7 h8
      rw [Evaluation.finish, foldl_append]
      exact this
    intro ha t ht mask' held' regs' mem' hi' hd
    have hmi : ¬ passes (host.view input) rule = true := by
      rw [passes, runtimePart, ha]
      decide
    rw [if_neg hmi]
    have hne : rule.runtimeConditions.isEmpty = false := by
      by_contra hem
      apply hmi
      have hn : rule.runtimeConditions = [] := List.isEmpty_iff.mp (by simpa using hem)
      rw [passes, runtimePart, hn]
      rfl
    rcases emit_when h9 with ⟨hc, -⟩ | ⟨-, h9⟩
    · rw [hne] at hc
      cases hc
    obtain ⟨_, _, h10, h11⟩ := emit_bind_iff.mp h9
    rw [hne, if_neg Bool.false_ne_true] at hm
    apply leads_at_label hz h10 ht
    apply leads_emitTraceOutcome hz hi' false h11
    intro regs1 mem1 hi1
    have := ih hi1 hm (fun r hr c hc => predicateOk_congr hd (hre r hr c hc))
    rw [Evaluation.finish, foldl_append]
    exact this

end

def outWords (mem : Mem Block) : Words := fun k => word mem .output (4 * (k : ℤ))

theorem outWords_store (mem : Mem Block) (k : ℕ) (imm : BitVec 32) :
    outWords (writeMem mem .output (4 * (k : ℤ)) (leBytes 4 imm.toNat)) = update (outWords mem) k imm := by
  funext j
  by_cases hj : j = k
  · subst hj
    rw [update_self, outWords, word_writeMem_self, BitVec.ofNat_toNat, BitVec.setWidth_eq]
  · rw [update_of_ne hj, outWords, outWords, word_writeMem_of_disjoint _ _ _ _ _ _ (by right; rw [leBytes_length]; omega)]

theorem leads_stWord (hz : Linked z prog) (h : Emit z (stImm 7 offset imm) a u b)
    (h7 : regs 7 = .ptr .output 0) (k : ℕ) (hk : offset = 4 * (k : ℤ)) (hk' : k < 68)
    (cont : Runs host prog Q b.pc regs (writeMem mem .output (4 * (k : ℤ)) (leBytes 4 imm.toNat))) :
    Runs host prog Q a.pc regs mem := by
  subst hk
  apply leads_stImm hz h h7 (valid_output _ _ (by omega))
  rwa [zero_add]

theorem leads_emitNonnull (hz : Linked z prog) (h : Emit z (emitNonnull register) a u b)
    (hr : regs register = .ptr block 0) (cont : Runs host prog Q b.pc regs mem) : Runs host prog Q a.pc regs mem := by
  simp only [emitNonnull, emit_bind_iff] at h
  obtain ⟨nonnull, _, h1, _, _, h2, _, _, _, _, _, _, h3⟩ := h
  apply leads_label h1
  apply leads_jump hz h2 .ne rfl (by rw [hr]; rfl)
  · exact fun _ t ht => leads_at_label hz h3 ht cont
  · intro hf
    cases hf

theorem and_enabled (w : BitVec 32) :
    (w &&& routeTraceEnabled).setWidth 64 = if w &&& routeTraceEnabled != 0 then (1 : BitVec 64) else 0 := by
  have hb : w &&& routeTraceEnabled = 0 ∨ w &&& routeTraceEnabled = 1 := by
    have hl : (w &&& routeTraceEnabled).toNat ≤ 1 := by
      rw [BitVec.toNat_and]
      exact Nat.and_le_right
    have hc : (w &&& routeTraceEnabled).toNat = 0 ∨ (w &&& routeTraceEnabled).toNat = 1 := by omega
    exact hc.imp (fun h => BitVec.eq_of_toNat_eq h) (fun h => BitVec.eq_of_toNat_eq h)
  rcases hb with h | h <;> rw [h] <;> rfl

theorem Inv.start_trace (hi : Inv false host input false mask held out regs mem) (layout on : Bool) (ho : on = true → layout = true) :
    Inv layout host input on mask held out (update regs 9 (.scalar (if on then 1 else 0))) mem where
  r6 := by rw [update_of_ne (by decide), hi.r6]
  r7 := by rw [update_of_ne (by decide), hi.r7]
  r8 := by rw [update_of_ne (by decide), hi.r8]
  r9 _ := update_self ..
  r10 := by rw [update_of_ne (by decide), hi.r10]
  traced := ho
  marked := hi.marked
  fixed := hi.fixed
  area := hi.area
  words := hi.words

theorem clearOutcomes_succ : update (clearOutcomes n out) (52 + n) 0 = clearOutcomes (n + 1) out := by
  funext k
  by_cases hk : k = 52 + n
  · subst hk
    rw [update_self, clearOutcomes, if_pos ⟨by omega, by omega⟩]
  rw [update_of_ne hk, clearOutcomes, clearOutcomes]
  have : (52 ≤ k ∧ k < 52 + n) ↔ (52 ≤ k ∧ k < 52 + (n + 1)) := by omega
  simp only [this]

section

variable (hz : Linked z prog)
include hz

theorem leads_clearOutcomes
    (h : Emit z (forEach (fun word : ℕ => stImm 7 (traceOutcomes + (word * 4 : ℕ)) 0) (List.range routeTraceWords)) a u b)
    (hi : Inv layout host input on mask held out regs mem)
    (cont : ∀ mem', Inv layout host input on mask held (clearOutcomes routeTraceWords out) regs mem' →
      Runs host prog Q b.pc regs mem') : Runs host prog Q a.pc regs mem := by
  apply leads_forEach_range _ (fun i regs' mem' => regs' = regs ∧ Inv layout host input on mask held (clearOutcomes i out) regs mem') _ _ h
  · refine ⟨rfl, hi.out_congr fun k _ => ?_⟩
    rw [clearOutcomes, if_neg (by omega)]
  · rintro _ mem' ⟨rfl, hi'⟩
    exact cont mem' hi'
  rintro i hl a u b _ mem' h ⟨rfl, hi'⟩ k
  simp only [routeTraceWords, routeTraceValues] at hl
  apply leads_stOutput hz h hi' (52 + i) (by simp only [traceOutcomes]; omega) (by omega)
  intro mem'' hi''
  rw [clearOutcomes_succ] at hi''
  exact k _ _ ⟨rfl, hi''⟩

theorem leads_clearDomain (h : Emit z (forEach (fun word : ℕ => stImm 7 (traceDomain + (word * 4 : ℕ)) 0) (List.range 8)) a u b)
    (hi : Inv layout host input on mask held out regs mem)
    (cont : ∀ regs' mem', Inv layout host input on mask held out regs' mem' → Runs host prog Q b.pc regs' mem') :
    Runs host prog Q a.pc regs mem := by
  apply leads_forEach_range _ (fun _ regs' mem' => Inv layout host input on mask held out regs' mem') _ _ h hi cont
  intro i hl a u b regs mem h hi k
  apply leads_stImm hz h hi.r7 (valid_output _ _ (by simp only [traceDomain]; omega))
  apply k _ _ (hi.store_untracked _ _ _ _)
  · simp only [traceDomain]
    omega
  rw [leBytes_length]
  simp only [traceDomain]
  omega

theorem leads_echoInput (h : Emit z (forEach (fun word : ℕ => do
      ldxW 1 6 (word * 4 : ℕ)
      stxW 7 1 (traceInput + (word * 4 : ℕ))) (List.range 32)) a u b)
    (hi : Inv layout host input on mask held out regs mem)
    (cont : ∀ regs' mem', Inv layout host input on mask held out regs' mem' → Runs host prog Q b.pc regs' mem') :
    Runs host prog Q a.pc regs mem := by
  apply leads_forEach_range _ (fun _ regs' mem' => Inv layout host input on mask held out regs' mem') _ _ h hi cont
  intro i hlt a u b regs mem h hi k
  obtain ⟨_, _, hl, hs⟩ := emit_bind_iff.mp h
  apply leads_ldxW hz hl hi.r6 (valid_input _ _ (by omega))
  apply leads_stxW hz hs (update_self ..) (by rw [update_of_ne (by decide), hi.r7])
    (valid_output _ _ (by simp only [traceInput]; omega))
  apply k
  apply (hi.scratch 1 _ (by omega)).store_untracked
  · simp only [traceInput]
    omega
  rw [leBytes_length]
  simp only [traceInput]
  omega

theorem leads_emitTraceInit (h : Emit z emitTraceInit a u b) (hi : Inv false host input false mask held out regs mem)
    (cont : ∀ regs' mem', Inv z.traceLayout.isSome host input (z.traceLayout.isSome && (out 6 &&& routeTraceEnabled != 0)) mask held
      (initTrace (z.traceLayout.isSome && (out 6 &&& routeTraceEnabled != 0)) out) regs' mem' → Runs host prog Q b.pc regs' mem') :
    Runs host prog Q a.pc regs mem := by
  rcases emit_whenTraced h with ⟨hn, rfl⟩ | ⟨hs, hm⟩
  · rw [hn] at cont
    exact cont regs mem hi
  simp only [emit_bind_iff] at hm
  obtain ⟨disabled, _, h1, _, _, h2, _, _, h3, _, _, h4, _, _, h5, _, _, h6, _, _, h7, _, _, h8, _, _, h9, h10⟩ := hm
  rw [hs, Bool.true_and] at cont
  have hf : word mem .output (0 + traceFlags) = out 6 := hi.words 6 (.inl (by omega))
  apply leads_label h1
  apply leads_ldxW hz h2 hi.r7 (valid_output _ _ (by decide))
  rw [hf]
  apply leads_andImm hz h3 (update_self ..)
  rw [setWidth_and_signExtend, and_enabled, Function.update_idem]
  have hi9 := hi.start_trace true (out 6 &&& routeTraceEnabled != 0) (fun _ => rfl)
  have hte : (update regs 9 (.scalar (if out 6 &&& routeTraceEnabled != 0 then (1 : BitVec 64) else 0)) 9).test
      .eq 0 = some !(out 6 &&& routeTraceEnabled != 0) := by
    rw [update_self]
    cases out 6 &&& routeTraceEnabled != 0 <;> rfl
  apply leads_jump hz h4 .eq rfl hte
  · intro ho t ht
    apply leads_at_label hz h10 ht
    apply cont
    rw [Bool.not_eq_true'] at ho
    rw [ho] at hi9 ⊢
    exact hi9
  intro hon
  rw [Bool.not_eq_false'] at hon
  rw [hon] at hi9 cont ⊢
  apply leads_stOutput hz h5 hi9 6 rfl (by omega)
  intro mem1 hi1
  apply leads_stOutput hz h6 hi1 11 rfl (by omega)
  intro mem2 hi2
  apply leads_clearOutcomes hz h7 (hi2.untracked (by simp [Tracked]))
  intro mem3 hi3
  apply leads_clearDomain hz h8 hi3
  intro regs4 mem4 hi4
  apply leads_echoInput hz h9 hi4
  exact fun regs5 mem5 hi5 => leads_bind hz h10 (cont regs5 mem5 hi5)

theorem leads_clearAreas (h : Emit z (forEach (fun kind : FactKind => forEach (fun word : ℕ => do
      ldxW 1 7 decisionMark
      stxDw 10 1 (kind.area + (word * 8 : ℕ))) (List.range 4)) [.destination, .source, .mac]) a u b)
    (hi : Inv false host input false mask (fun _ => false) out regs mem)
    (cont : ∀ regs' mem', Inv false host input false mask (fun _ => false) out regs' mem' → Runs host prog Q b.pc regs' mem') :
    Runs host prog Q a.pc regs mem := by
  apply leads_forEach _ (fun _ regs' mem' => Inv false host input false mask (fun _ => false) out regs' mem') _ _ h hi cont
  intro _ kind _ _ a u b regs mem h hi k
  apply leads_forEach_range _ (fun _ regs' mem' => Inv false host input false mask (fun _ => false) out regs' mem') _ _ h hi k
  intro i hlt a u b regs mem h hi k
  obtain ⟨_, _, hl, hs⟩ := emit_bind_iff.mp h
  have hb := area_bounds kind
  apply leads_ldxW hz hl hi.r7 (valid_output _ _ (by decide))
  apply leads_stxDw hz hs (update_self ..) (by rw [update_of_ne (by decide), hi.r10]) (valid_stack _ _ (by omega))
  apply k
  apply (hi.scratch 1 _ (by omega)).store_stack
  intro kind' hk'
  cases hk'

theorem leads_prologueFacts (h1 : Emit z (ldxW ready 7 decisionMark) a u1 c1)
    (h2 : Emit z (forEach (fun kind : FactKind => forEach (fun word : ℕ => do
      ldxW 1 7 decisionMark
      stxDw 10 1 (kind.area + (word * 8 : ℕ))) (List.range 4)) [.destination, .source, .mac]) c1 u2 c2)
    (h3 : Emit z emitTraceInit c2 u3 c3) (h4 : Emit z (when plan.hasDomainRules (emitFactLookup .domain fds)) c3 u b)
    (hr6 : regs 6 = .ptr .input 0) (hr7 : regs 7 = .ptr .output 0) (hr10 : regs 10 = .ptr .stack 0)
    (hf : ∀ b, b ≠ .output → b ≠ .stack → ∀ o : ℤ, mem b o = (host.fixed input b).getD o.toNat 0)
    (ho : outWords mem = resetDecision plan out)
    (hon : on = (z.traceLayout.isSome && (out 6 &&& routeTraceEnabled != 0)))
    (cont : ∀ held' regs' mem', Holds z host input on 0 held'
      (prologueWords plan on (host.fact input .domain) out) regs' mem' → held' .domain = plan.hasDomainRules →
      Runs host prog Q b.pc regs' mem') :
    Runs host prog Q a.pc regs mem := by
  have hm : word mem .output (0 + decisionMark) = 0 := congrFun ho 1
  apply leads_ldxW hz h1 hr7 (valid_output _ _ (by decide))
  rw [hm]
  have hi : Inv false host input false 0 (fun _ => false) (resetDecision plan out)
      (update regs ready (.scalar ((0 : BitVec 32).setWidth 64))) mem :=
    { r6 := by rw [update_of_ne (by decide), hr6]
      r7 := by rw [update_of_ne (by decide), hr7]
      r8 := update_self ..
      r9 := fun h => by cases h
      r10 := by rw [update_of_ne (by decide), hr10]
      traced := fun h => by cases h
      marked := fun kind _ h => by simp at h
      fixed := hf
      area := fun kind h => by cases h
      words := fun k _ => congrFun ho k }
  apply leads_clearAreas hz h2 hi
  intro regs1 mem1 hi1
  apply leads_emitTraceInit hz h3 hi1
  have h6 : resetDecision plan out 6 = out 6 := rfl
  rw [h6, ← hon]
  intro regs2 mem2 hi2
  rw [prologueWords] at cont
  rcases emit_when h4 with ⟨hd, rfl⟩ | ⟨hd, h4⟩
  · rw [hd, if_neg Bool.false_ne_true] at cont
    exact cont _ regs2 mem2 hi2 rfl
  rw [hd, if_pos rfl] at cont
  apply leads_emitFactLookup hz hi2 h4 rfl
  exact fun regs3 mem3 hi3 => cont _ regs3 mem3 hi3 (update_self ..)

theorem leads_emitPrologue (h : Emit z (emitPrologue plan fds) a u b) (hpc : a.pc = 0)
    (hon : on = (z.traceLayout.isSome && (outWords (host.initialMem input output stack) 6 &&& routeTraceEnabled != 0)))
    (cont : ∀ held' regs' mem', Holds z host input on 0 held'
      (prologueWords plan on (host.fact input .domain) (outWords (host.initialMem input output stack))) regs' mem' →
      held' .domain = plan.hasDomainRules → Runs host prog Q b.pc regs' mem') :
    Leads host.env prog (host.initialState input output stack) Q := by
  simp only [emitPrologue, emit_bind_iff] at h
  obtain ⟨_, _, h1, _, _, hn, h⟩ := h
  obtain ⟨_, _, h2, hn⟩ := emit_forEach_cons.mp hn
  obtain ⟨_, _, h3, hn⟩ := emit_forEach_cons.mp hn
  obtain ⟨rfl, -⟩ := emit_forEach_nil.mp hn
  obtain ⟨_, _, h4, _, _, h5, _, _, h6, _, _, h7, _, _, h8, _, _, h9, h⟩ := h
  obtain ⟨_, _, h10, _, _, h11, _, _, h12, _, _, h13, _, _, h14, h15⟩ := h
  rw [MapHost.initialState, ← hpc]
  apply leads_source h1
  apply leads_emitNonnull hz h2 rfl
  apply leads_emitNonnull hz h3 rfl
  apply leads_movReg hz h4
  apply leads_movReg hz h5
  apply leads_stWord hz h6 rfl 5 rfl (by omega)
  apply leads_stWord hz h7 rfl 0 rfl (by omega)
  apply leads_stWord hz h8 rfl 1 rfl (by omega)
  apply leads_stWord hz h9 rfl 2 rfl (by omega)
  apply leads_stWord hz h10 rfl 3 rfl (by omega)
  apply leads_stWord hz h11 rfl 4 rfl (by omega)
  apply leads_prologueFacts hz h12 h13 h14 h15 rfl rfl rfl _ _ hon cont
  · intro block ho hs o
    simp only [writeMem_other _ _ _ _ _ ho]
    cases block with
    | output => exact absurd rfl ho
    | stack => exact absurd rfl hs
    | input => rfl
    | value fd key => rfl
  · simp only [outWords_store]
    rfl

end

theorem ensure_eq_ok (h : ensure condition message = .ok u) : condition = true := by
  cases condition with
  | true => rfl
  | false => cases h

theorem predicateOk_of_validatePlan (h : validatePlan plan = .ok ()) (hd : held .domain = plan.hasDomainRules) :
    ∀ rule ∈ plan.rules, ∀ condition ∈ rule.conditions, PredicateOk held condition.predicate := by
  simp only [validatePlan, bind_eq_ok] at h
  obtain ⟨_, hco, _, hm, _, -, _, -, _, -, _, hrules, -⟩ := h
  have hco : plan.domainPredicateCount ≤ 256 := of_decide_eq_true (ensure_eq_ok hco)
  have hm := ensure_eq_ok hm
  intro rule hr condition hc
  have hru := forM_eq_ok hrules rule hr
  simp only [validateRule, bind_eq_ok] at hru
  obtain ⟨_, -, hconditions⟩ := hru
  have hpr := forM_eq_ok hconditions condition hc
  cases hp : condition.predicate with
  | domain id =>
    rw [hp] at hpr
    have hid : id < plan.domainPredicateCount := of_decide_eq_true (ensure_eq_ok hpr)
    refine ⟨by omega, ?_⟩
    rw [hd]
    rw [beq_iff_eq] at hm
    rw [hm, bne_iff_ne]
    omega
  | destinationIp id | sourceIp id | mac id =>
    rw [hp] at hpr
    have hid : id < 256 := of_decide_eq_true (ensure_eq_ok hpr)
    exact hid
  | processName names =>
    rw [hp] at hpr
    intro name hn
    exact of_decide_eq_true (all_eq_true.mp (ensure_eq_ok hpr) name hn)
  | destinationPort _ | sourcePort _ | protocol _ | ipVersion _ | dscp _ => trivial

def finalWords (plan : RoutingPushPlan) {fds : RoutingMapFds} (host : MapHost fds) (input : RoutingInput)
    (on : Bool) (out : Words) : Words :=
  (evaluate (host.view input) 0 false plan.rules).finish plan on input.flags
    (prologueWords plan on (host.fact input .domain) out)

def tracing (plan : RoutingPushPlan) (out : Words) : Bool := plan.traceEnabled && (out 6 &&& routeTraceEnabled != 0)

theorem run_emitRoutingProgram (h : emitRoutingProgram plan fds = .ok bytecode) (host : MapHost fds) (input : RoutingInput)
    (output stack : ℤ → Byte) :
    ∃ fuel r0 mem, run host.env bytecode.insns fuel (host.initialState input output stack) = some (r0, mem) ∧
      r0 = .scalar 0 ∧ ∀ k, Tracked k → outWords mem k =
        finalWords plan host input (tracing plan (outWords (host.initialMem input output stack)))
          (outWords (host.initialMem input output stack)) k := by
  simp only [emitRoutingProgram, bind_eq_ok] at h
  obtain ⟨_, hv, _, -, ⟨⟨_⟩, z⟩, hz, hf⟩ := h
  rw [Assembler.finish] at hf
  obtain ⟨prog, hpr, rfl⟩ := map_eq_ok hf
  have hl : Linked z prog := ⟨hpr, (closed_emitProgram hz).1.laid.once⟩
  have he : Emit z (emitProgram plan fds) { traceLayout := traceLayout plan } () z := ⟨hz, .refl z⟩
  have hla : z.traceLayout = traceLayout plan := ((emitProgram plan fds).2 _ _ _ hz).traceLayout
  have ht : z.traceLayout.isSome = plan.traceEnabled := by
    rw [hla, traceLayout]
    cases plan.traceEnabled <;> rfl
  obtain ⟨_, _, hprologue, hr⟩ := emit_bind_iff.mp he
  apply Leads.run
  apply leads_emitPrologue hl hprologue rfl rfl
  intro held regs mem hi hd
  have := leads_emitRules hl hi ht plan.rules hr (predicateOk_of_validatePlan hv hd)
  rw [ht] at this
  exact this

end Honk.Codegen
