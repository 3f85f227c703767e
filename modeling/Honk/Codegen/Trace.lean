import Honk.Codegen.Correct

namespace Honk.Codegen

open Honk.Lib Honk.Lib.Bpf Honk.Routing List

/-- What a trace slot stands for: a rule by its position, one of its conditions by its ordinal, or the
fallback. -/
inductive Site where
  | rule (i : ℕ)
  | condition (i ordinal : ℕ)
  | fallback

variable (i : ℕ) {k k' : ℕ}

def conditionSites (conditions : List (ℕ × KernelCondition)) : List Site := conditions.map fun entry => .condition i entry.1

def ruleSites (rule : KernelRule) : List Site := .rule i :: conditionSites i (rule.runtimeConditions ++ emptyConditions rule)

def sitesFrom (i : ℕ) : List KernelRule → List Site
  | [] => [.fallback]
  | rule :: rules => ruleSites i rule ++ sitesFrom (i + 1) rules

inductive Evaluated (view : KernelView) : ℕ → List KernelRule → Site → Bool → Prop
  | fallback {i : ℕ} : Evaluated view i [] .fallback true
  | rule {i : ℕ} {rule : KernelRule} (h : rule.foldedFalse = false) : Evaluated view i (rule :: rules) (.rule i) (rule.matches view)
  | condition {i : ℕ} {rule : KernelRule} (h : rule.foldedFalse = false)
      (hat : rule.runtimeConditions[rank]? = some (ordinal, condition))
      (hbefore : ∀ entry ∈ rule.runtimeConditions.take rank, entry.2.holds view = true) :
      Evaluated view i (rule :: rules) (.condition i ordinal) (condition.holds view)
  | later {i : ℕ} {rule : KernelRule} (h : rule.matches view = false) (t : Evaluated view (i + 1) rules site result) :
      Evaluated view i (rule :: rules) site result

theorem runtime_append_empty_perm (rule : KernelRule) :
    (rule.runtimeConditions ++ emptyConditions rule).Perm (rule.conditions.zipIdx.map Prod.swap) := by
  have hpo : rule.runtimeConditions.Perm
      ((rule.conditions.zipIdx.map Prod.swap).filter fun entry => !entry.2.predicate.isEmpty) := by
    rw [KernelRule.runtimeConditions]
    convert filter_append_perm (fun entry : ℕ × KernelCondition => entry.2.predicate.isPort) _
  refine (hpo.append_right _).trans ?_
  rw [emptyConditions]
  refine perm_append_comm.trans ?_
  convert filter_append_perm (fun entry : ℕ × KernelCondition => entry.2.predicate.isEmpty) _

theorem ruleSites_length (rule : KernelRule) : (ruleSites i rule).length = 1 + rule.conditions.length := by
  have h := (runtime_append_empty_perm rule).length_eq
  rw [length_map, length_zipIdx] at h
  rw [ruleSites, conditionSites, length_cons, length_map, h, Nat.add_comm]

theorem runtimeConditions_length_le (rule : KernelRule) : rule.runtimeConditions.length ≤ rule.conditions.length := by
  have h := (runtime_append_empty_perm rule).length_eq
  rw [length_map, length_zipIdx, length_append] at h
  omega

theorem sitesFrom_head (h : (ruleSites i rule)[k]? = some site) : (sitesFrom i (rule :: rules))[k]? = some site := by
  rw [sitesFrom, getElem?_append_left (List.getElem?_eq_some_iff.mp h).1, h]

theorem sitesFrom_tail (rule : KernelRule) (h : (sitesFrom (i + 1) rules)[k]? = some site) :
    (sitesFrom i (rule :: rules))[1 + rule.conditions.length + k]? = some site := by
  rw [sitesFrom, ← ruleSites_length i, getElem?_append_right (Nat.le_add_right ..), Nat.add_sub_cancel_left, h]

theorem ruleSites_condition {rule : KernelRule} (h : rule.runtimeConditions[rank]? = some (ordinal, condition)) :
    (ruleSites i rule)[1 + rank]? = some (.condition i ordinal) := by
  have hl := (List.getElem?_eq_some_iff.mp h).1
  rw [ruleSites, Nat.add_comm, getElem?_cons_succ, conditionSites, getElem?_map, getElem?_append_left hl, h]
  rfl

def Site.Behind : Site → Prop
  | .rule j | .condition j _ => i ≤ j
  | .fallback => True

theorem behind_of_mem_sitesFrom {site : Site} (h : site ∈ sitesFrom i rules) : site.Behind i := by
  induction rules generalizing i with
  | nil =>
    cases mem_singleton.mp h
    trivial
  | cons rule rules ih =>
    rw [sitesFrom, mem_append, ruleSites, mem_cons] at h
    rcases h with (rfl | h) | h
    · exact Nat.le_refl i
    · obtain ⟨entry, -, rfl⟩ := mem_map.mp h
      exact Nat.le_refl i
    have := ih (i + 1) h
    cases site with
    | rule j | condition j _ => exact Nat.le_of_succ_le this
    | fallback => trivial

theorem nodup_ruleSites (rule : KernelRule) : (ruleSites i rule).Nodup := by
  have ho : ((rule.runtimeConditions ++ emptyConditions rule).map Prod.fst).Nodup := by
    rw [((runtime_append_empty_perm rule).map Prod.fst).nodup_iff, map_map]
    have : (rule.conditions.zipIdx.map (Prod.fst ∘ Prod.swap)) = List.range' 0 rule.conditions.length :=
      zipIdx_map_snd 0 rule.conditions
    rw [this]
    exact nodup_range'
  have hc : (conditionSites i (rule.runtimeConditions ++ emptyConditions rule)).Nodup := by
    have : conditionSites i (rule.runtimeConditions ++ emptyConditions rule) =
        ((rule.runtimeConditions ++ emptyConditions rule).map Prod.fst).map (Site.condition i) := by
      rw [map_map]
      rfl
    rw [this]
    exact ho.map fun _ _ h => (Site.condition.inj h).2
  rw [ruleSites, nodup_cons]
  refine ⟨fun h => ?_, hc⟩
  obtain ⟨entry, -, he⟩ := mem_map.mp h
  cases he

theorem nodup_sitesFrom (rules : List KernelRule) : (sitesFrom i rules).Nodup := by
  induction rules generalizing i with
  | nil => exact nodup_singleton _
  | cons rule rules ih =>
    rw [sitesFrom, nodup_append]
    refine ⟨nodup_ruleSites i rule, ih (i + 1), ?_⟩
    rintro site hs _ ht rfl
    have hb := behind_of_mem_sitesFrom (i + 1) ht
    rw [ruleSites, mem_cons] at hs
    rcases hs with rfl | hs
    · exact Nat.not_succ_le_self i hb
    · obtain ⟨entry, -, rfl⟩ := mem_map.mp hs
      exact Nat.not_succ_le_self i hb

theorem site_unique (h : (sitesFrom i rules)[k]? = some site) (h' : (sitesFrom i rules)[k']? = some site) : k = k' :=
  (getElem?_inj (List.getElem?_eq_some_iff.mp h).1 (nodup_sitesFrom i rules)).mp (h.trans h'.symm)

variable (view : KernelView)

theorem mem_conditionLog_iff (slot start : ℕ) (conditions : List KernelCondition) (s : ℕ)
    (result : Bool) : (s, result) ∈ conditionLog view slot (conditions.zipIdx start) ↔
      ∃ rank condition, conditions[rank]? = some condition ∧ (∀ c ∈ conditions.take rank, c.holds view = true) ∧
        s = slot + 1 + start + rank ∧ result = condition.holds view := by
  induction conditions generalizing start with
  | nil => simp [conditionLog]
  | cons c conditions ih =>
    rw [zipIdx_cons, conditionLog, mem_cons]
    constructor
    · rintro (he | hre)
      · cases he
        exact ⟨0, c, rfl, by simp, by omega, rfl⟩
      · cases hc : c.holds view with
        | false =>
          rw [hc, if_neg Bool.false_ne_true] at hre
          cases hre
        | true =>
          rw [hc, if_pos rfl] at hre
          obtain ⟨rank, condition, ha, hb, hs, hr⟩ := (ih (start + 1)).mp hre
          refine ⟨rank + 1, condition, ha, ?_, by omega, hr⟩
          intro c' hc'
          rw [take_succ_cons, mem_cons] at hc'
          rcases hc' with rfl | hc'
          · exact hc
          · exact hb c' hc'
    rintro ⟨rank, condition, ha, hb, hs, hr⟩
    cases rank with
    | zero =>
      cases ha
      left
      rw [hs, hr, Nat.add_zero]
    | succ rank =>
      right
      have hc : c.holds view = true := hb c (by simp)
      rw [hc, if_pos rfl]
      exact (ih (start + 1)).mpr ⟨rank, condition, ha, fun c' hc' => hb c' (by simp [hc']), by omega, hr⟩

theorem mem_ruleLog_iff (slot : ℕ) (rule : KernelRule) (s : ℕ) (result : Bool) : (s, result) ∈ conditionLog view slot (runtimePart rule) ↔
      ∃ rank ordinal condition, rule.runtimeConditions[rank]? = some (ordinal, condition) ∧
        (∀ entry ∈ rule.runtimeConditions.take rank, entry.2.holds view = true) ∧
        s = slot + (1 + rank) ∧ result = condition.holds view := by
  rw [runtimePart, mem_conditionLog_iff]
  constructor
  · rintro ⟨rank, condition, ha, hb, hs, hr⟩
    rw [getElem?_map] at ha
    obtain ⟨⟨ordinal, c⟩, hen, rfl⟩ := Option.map_eq_some_iff.mp ha
    refine ⟨rank, ordinal, c, hen, fun entry he => ?_, by omega, hr⟩
    apply hb
    rw [← map_take]
    exact mem_map_of_mem he
  rintro ⟨rank, ordinal, condition, ha, hb, hs, hr⟩
  refine ⟨rank, condition, by rw [getElem?_map, ha]; rfl, fun c hc => ?_, by omega, hr⟩
  rw [← map_take] at hc
  obtain ⟨entry, he, rfl⟩ := mem_map.mp hc
  exact hb entry he

theorem mem_log_cons (slot : ℕ) (domainPrefix : Bool) (rule : KernelRule) (rules : List KernelRule) : ∃ domainPrefix', ∀ entry,
    entry ∈ (evaluate view slot domainPrefix (rule :: rules)).log ↔
      rule.foldedFalse = false ∧ (entry ∈ conditionLog view slot (runtimePart rule) ∨ entry = (slot, rule.matches view)) ∨
      rule.matches view = false ∧ entry ∈ (evaluate view (slot + 1 + rule.conditions.length) domainPrefix' rules).log := by
  rw [evaluate]
  cases hf : rule.foldedFalse with
  | true =>
    refine ⟨domainPrefix, fun entry => ?_⟩
    simp [matches_of_foldedFalse view rule hf]
  | false =>
    refine ⟨domainPrefix || readsDomain rule, fun entry => ?_⟩
    rw [matches_of_not_foldedFalse view rule hf]
    cases passes view rule <;> simp [or_assoc]

theorem evaluated_of_mem_log (i slot : ℕ) (domainPrefix : Bool) (rules : List KernelRule) (s : ℕ)
    (result : Bool) (h : (s, result) ∈ (evaluate view slot domainPrefix rules).log) :
    ∃ k site, s = slot + k ∧ (sitesFrom i rules)[k]? = some site ∧ Evaluated view i rules site result := by
  induction rules generalizing i slot domainPrefix with
  | nil =>
    cases mem_singleton.mp h
    exact ⟨0, .fallback, rfl, rfl, .fallback⟩
  | cons rule rules ih =>
    obtain ⟨domainPrefix', hl⟩ := mem_log_cons view slot domainPrefix rule rules
    rcases (hl _).mp h with ⟨hf, hin | heq⟩ | ⟨hm, hin⟩
    · obtain ⟨rank, ordinal, condition, ha, hb, hs, rfl⟩ := (mem_ruleLog_iff view slot rule s result).mp hin
      exact ⟨1 + rank, _, hs, sitesFrom_head i (ruleSites_condition i ha), .condition hf ha hb⟩
    · cases heq
      exact ⟨0, .rule i, rfl, rfl, .rule hf⟩
    · obtain ⟨k, site, rfl, ha, he⟩ := ih (i + 1) _ _ hin
      exact ⟨_, site, by omega, sitesFrom_tail i rule ha, .later hm he⟩

theorem mem_log_of_evaluated (h : Evaluated view i rules site result) (slot : ℕ) (domainPrefix : Bool) :
    ∃ k, (sitesFrom i rules)[k]? = some site ∧ (slot + k, result) ∈ (evaluate view slot domainPrefix rules).log := by
  induction h generalizing slot domainPrefix with
  | fallback => exact ⟨0, rfl, mem_singleton_self _⟩
  | @rule rules _ rule hf =>
    obtain ⟨_, hl⟩ := mem_log_cons view slot domainPrefix rule rules
    exact ⟨0, rfl, (hl _).mpr (.inl ⟨hf, .inr rfl⟩)⟩
  | @condition rank ordinal condition rules i rule hf ha hb =>
    obtain ⟨_, hl⟩ := mem_log_cons view slot domainPrefix rule rules
    refine ⟨1 + rank, sitesFrom_head i (ruleSites_condition i ha), (hl _).mpr (.inl ⟨hf, .inl ?_⟩)⟩
    exact (mem_ruleLog_iff ..).mpr ⟨rank, ordinal, condition, ha, hb, rfl, rfl⟩
  | @later rules _ _ i rule hm t ih =>
    obtain ⟨domainPrefix', hl⟩ := mem_log_cons view slot domainPrefix rule rules
    obtain ⟨k, ha, hin⟩ := ih (slot + 1 + rule.conditions.length) domainPrefix'
    refine ⟨_, sitesFrom_tail i rule ha, (hl _).mpr (.inr ⟨hm, ?_⟩)⟩
    rwa [← Nat.add_assoc, ← Nat.add_assoc]

theorem mem_log_iff (domainPrefix : Bool) (rules : List KernelRule) (s : ℕ) (result : Bool) :
    (s, result) ∈ (evaluate view 0 domainPrefix rules).log ↔
      ∃ site, (sitesFrom 0 rules)[s]? = some site ∧ Evaluated view 0 rules site result := by
  constructor
  · intro h
    obtain ⟨k, site, hs, ha, he⟩ := evaluated_of_mem_log view 0 0 domainPrefix rules s result h
    rw [Nat.zero_add] at hs
    exact ⟨site, hs ▸ ha, he⟩
  rintro ⟨site, ha, he⟩
  obtain ⟨k, ha', hin⟩ := mem_log_of_evaluated 0 view he 0 domainPrefix
  rwa [site_unique 0 ha ha', ← Nat.zero_add k]

theorem conditionLog_pairwise (slot start : ℕ) {conditions : List KernelCondition} :
    (conditionLog view slot (conditions.zipIdx start)).Pairwise fun a b => a.1 ≠ b.1 := by
  induction conditions generalizing start with
  | nil => exact .nil
  | cons c conditions ih =>
    rw [zipIdx_cons, conditionLog]
    split
    · refine .cons (fun entry he => ?_) (ih (start + 1))
      obtain ⟨rank, _, -, -, hs, -⟩ := (mem_conditionLog_iff view slot (start + 1) conditions entry.1 entry.2).mp he
      simp only [ne_eq]
      omega
    · exact pairwise_singleton _ _

theorem log_pairwise (slot : ℕ) (domainPrefix : Bool) (rules : List KernelRule) :
    (evaluate view slot domainPrefix rules).log.Pairwise fun a b => a.1 ≠ b.1 := by
  induction rules generalizing slot domainPrefix with
  | nil => exact pairwise_singleton _ _
  | cons rule rules ih =>
    have hc : (conditionLog view slot (runtimePart rule)).Pairwise fun a b => a.1 ≠ b.1 := conditionLog_pairwise view slot 0
    have hr : ∀ entry ∈ conditionLog view slot (runtimePart rule),
        slot < entry.1 ∧ entry.1 < slot + 1 + rule.conditions.length := by
      intro entry he
      obtain ⟨rank, _, _, hat, -, hs, -⟩ := (mem_ruleLog_iff view slot rule entry.1 entry.2).mp he
      have := (List.getElem?_eq_some_iff.mp hat).1
      have := runtimeConditions_length_le rule
      omega
    have hre : ∀ dp, ∀ entry ∈ (evaluate view (slot + 1 + rule.conditions.length) dp rules).log,
        slot + 1 + rule.conditions.length ≤ entry.1 := by
      intro dp entry he
      obtain ⟨k, _, hs, -, -⟩ := evaluated_of_mem_log view 0 _ dp rules entry.1 entry.2 he
      omega
    rw [evaluate]
    split
    · exact ih _ _
    split
    · refine pairwise_append.mpr ⟨hc, pairwise_singleton _ _, ?_⟩
      intro a ha b hb
      cases mem_singleton.mp hb
      have := hr a ha
      simp only [ne_eq]
      omega
    refine pairwise_append.mpr ⟨hc, .cons (fun b hb => ?_) (ih _ _), ?_⟩
    · have := hre _ b hb
      simp only [ne_eq]
      omega
    intro a ha b hb
    have := hr a ha
    rcases mem_cons.mp hb with rfl | hb
    · simp only [ne_eq]
      omega
    · have := hre _ b hb
      omega

def slotBits (out : Words) (slot : ℕ) : BitVec 32 := (out (52 + slot / 16) >>> (slot % 16 * 2)) &&& 3

def outcome (out : Words) (slot : ℕ) : Option (BitVec 32) := if slot / 16 < routeTraceWords then some (slotBits out slot) else none

theorem field_outcomeBits : ∀ (t s : Fin 16) (r : Bool),
    ((outcomeBits r <<< (t.val * 2)) >>> (s.val * 2)) &&& 3 = if t = s then outcomeBits r else 0#32 := by decide

theorem outcomeBits_inj (h : outcomeBits r = outcomeBits r') : r = r' := by
  cases r <;> cases r' <;> first | rfl | cases h

theorem outcomeBits_ne_zero (r : Bool) : outcomeBits r ≠ 0#32 := by cases r <;> decide

theorem slotBits_recordOutcome (out : Words) (t s : ℕ) (r : Bool) (hs : s < routeTraceValues) :
    slotBits (recordOutcome true out (t, r)) s = slotBits out s ||| if t = s then outcomeBits r else 0#32 := by
  have hs' : s < 256 := hs
  rw [recordOutcome]
  by_cases ht : routeTraceValues ≤ t
  · rw [if_pos ht, slotBits, traceOr_of_ne _ (by omega), if_neg (by omega), BitVec.or_zero]
    rfl
  rw [if_neg ht, slotBits]
  dsimp only
  by_cases hw : 52 + s / 16 = 52 + t / 16
  · have hf := field_outcomeBits ⟨t % 16, Nat.mod_lt _ (by omega)⟩ ⟨s % 16, Nat.mod_lt _ (by omega)⟩ r
    have hsl : ((⟨t % 16, Nat.mod_lt _ (by omega)⟩ : Fin 16) = ⟨s % 16, Nat.mod_lt _ (by omega)⟩) ↔ t = s := by
      rw [Fin.mk.injEq]
      omega
    simp only [hsl] at hf
    rw [hw, traceOr, if_pos rfl, Function.update_self, BitVec.ushiftRight_or_distrib, BitVec.and_comm,
      BitVec.and_or_distrib_left, BitVec.and_comm, BitVec.and_comm 3, hf, slotBits, hw]
  · rw [traceOr_of_ne _ hw, if_neg (fun he => hw (by rw [he])), BitVec.or_zero]
    rfl

variable (log : List (ℕ × Bool))

theorem slotBits_foldl_of_not_mem (out : Words) (s : ℕ) (hs : s < routeTraceValues)
    (h : ∀ r, (s, r) ∉ log) : slotBits (log.foldl (recordOutcome true) out) s = slotBits out s := by
  induction log generalizing out with
  | nil => rfl
  | cons entry log ih =>
    have hn : entry.1 ≠ s := fun he => h entry.2 (mem_cons.mpr (Or.inl (he ▸ rfl)))
    rw [foldl_cons, ih _ fun r hr => h r (mem_cons_of_mem _ hr), slotBits_recordOutcome out entry.1 s entry.2 hs, if_neg hn, BitVec.or_zero]

theorem slotBits_foldl_of_mem (out : Words) (s : ℕ) (r : Bool) (hs : s < routeTraceValues)
    (hl : log.Pairwise fun a b => a.1 ≠ b.1) (h : (s, r) ∈ log) (hz : slotBits out s = 0#32) :
    slotBits (log.foldl (recordOutcome true) out) s = outcomeBits r := by
  induction log generalizing out with
  | nil => cases h
  | cons entry log ih =>
    obtain ⟨hh, ht⟩ := pairwise_cons.mp hl
    rw [foldl_cons]
    rcases mem_cons.mp h with rfl | hin
    · rw [slotBits_foldl_of_not_mem log _ s hs fun r' hr => hh (s, r') hr rfl, slotBits_recordOutcome out s s r hs,
        if_pos rfl, hz, BitVec.zero_or]
    · apply ih _ ht hin
      rw [slotBits_recordOutcome out entry.1 s entry.2 hs, if_neg (hh (s, r) hin), hz, BitVec.or_zero]

variable {out : Words}

theorem overflow_foldl : log.foldl (recordOutcome true) out 6 =
      if log.any fun entry => decide (routeTraceValues ≤ entry.1) then out 6 ||| routeTraceOverflow else out 6 := by
  induction log generalizing out with
  | nil => rfl
  | cons entry log ih =>
    rw [foldl_cons, ih, any_cons, recordOutcome]
    by_cases h : routeTraceValues ≤ entry.1
    · rw [if_pos h, decide_eq_true h, Bool.true_or, traceOr, if_pos rfl, if_pos rfl, Function.update_self, BitVec.or_assoc,
        BitVec.or_self, ite_self]
    · rw [if_neg h, decide_eq_false h, Bool.false_or, traceOr_of_ne _ (by omega)]

variable {flags : BitVec 32}

theorem applyAction_of_le (h : 6 ≤ k) : applyAction action ruleId refineDirectFinality flags out k = out k := by
  simp only [applyAction, setWhen_apply]
  rw [if_neg (by omega), if_neg (by omega), if_neg (by omega), if_neg (by omega), if_neg (by omega), if_neg (by omega)]

variable (plan : RoutingPushPlan) {s : ℕ}

section

variable (domain : Option DomainRouting) (out : Words)

theorem prologueWords_of_le (h : 6 ≤ k) : prologueWords plan true domain out k = initTrace true (resetDecision plan out) k := by
  rw [prologueWords, finalIfPresent]
  split
  · split
    · rw [Function.update_of_ne (by omega)]
    · rfl
  · rfl

theorem prologueWords_flags : prologueWords plan true domain out 6 = routeTraceVersion ||| routeTraceEnabled := by
  rw [prologueWords_of_le plan domain out (by omega)]
  rfl

theorem prologueWords_slotBits (hs : s < routeTraceValues) : slotBits (prologueWords plan true domain out) s = 0#32 := by
  have hs' : s < 256 := hs
  have hw : routeTraceWords = 16 := rfl
  rw [slotBits, prologueWords_of_le plan domain out (by omega), initTrace, if_pos rfl, clearOutcomes, if_pos (by omega)]
  simp

end

theorem slotBits_finish (evaluation : Evaluation) :
    slotBits (evaluation.finish plan true flags out) s = slotBits (evaluation.log.foldl (recordOutcome true) out) s := by
  rw [slotBits, Evaluation.finish, traceOr_of_ne _ (by omega), applyAction_of_le (by omega), slotBits]

section

def slotsFrom (unreachable : Bool) : List KernelRule → List KernelTraceSlot
  | [] => [fallbackSlot unreachable]
  | rule :: rules => ruleSlots unreachable rule ++ slotsFrom (unreachable || endsUnconditionally rule) rules

def KernelTraceLayout.Holds (layout : KernelTraceLayout) (slots : List KernelTraceSlot) : Prop :=
  layout.slots = slots.take routeTraceValues ∧ layout.totalValues = slots.length

variable {layout : KernelTraceLayout} {slots : List KernelTraceSlot}

theorem KernelTraceLayout.Holds.push (h : layout.Holds slots) (slot : KernelTraceSlot) : (layout.push slot).Holds (slots ++ [slot]) := by
  have hl : layout.slots.length = min routeTraceValues slots.length := by rw [h.1, length_take]
  refine ⟨?_, by rw [KernelTraceLayout.push, h.2, length_append]; rfl⟩
  rw [KernelTraceLayout.push]
  by_cases hf : slots.length < routeTraceValues
  · rw [if_pos (by omega), h.1, take_of_length_le (by omega), take_of_length_le (by simp; omega)]
  · rw [if_neg (by omega), h.1, take_append_of_le_length (by omega)]

theorem KernelTraceLayout.Holds.foldl (h : layout.Holds slots) (more : List KernelTraceSlot) :
    (more.foldl KernelTraceLayout.push layout).Holds (slots ++ more) := by
  induction more generalizing layout slots with
  | nil => rwa [append_nil]
  | cons slot more ih =>
    have := ih (h.push slot)
    rwa [append_assoc] at this

theorem holds_layoutRules (h : layout.Holds slots) (unreachable : Bool) (rules : List KernelRule) :
    ((rules.foldl layoutRule (layout, unreachable)).1.push
      (fallbackSlot (rules.foldl layoutRule (layout, unreachable)).2)).Holds (slots ++ slotsFrom unreachable rules) := by
  induction rules generalizing layout slots unreachable with
  | nil => exact h.push _
  | cons rule rules ih =>
    have := ih (h.foldl (ruleSlots unreachable rule)) (unreachable || endsUnconditionally rule)
    rwa [append_assoc] at this

theorem traceLayout_holds (h : traceLayout plan = some layout) : layout.Holds (slotsFrom false plan.rules) := by
  rw [traceLayout] at h
  split at h
  · cases h
    have he : ({} : KernelTraceLayout).Holds [] := ⟨rfl, rfl⟩
    exact holds_layoutRules he false plan.rules
  · cases h

def KernelTraceSlot.label (slot : KernelTraceSlot) : Option (BitVec 32) × Option ℕ := (slot.ruleId, slot.conditionOrdinal)

def Site.label (rules : List KernelRule) : Site → Option (BitVec 32) × Option ℕ
  | .rule i => ((rules[i]?).map KernelRule.id, none)
  | .condition i ordinal => ((rules[i]?).map KernelRule.id, some ordinal)
  | .fallback => (none, none)

theorem ruleSlots_label (all : List KernelRule) (i : ℕ) (rule : KernelRule) (unreachable : Bool) (h : all[i]? = some rule) :
    (ruleSlots unreachable rule).map KernelTraceSlot.label = (ruleSites i rule).map (Site.label all) := by
  have hz : ∀ (l : List (ℕ × KernelCondition)) (n : ℕ),
      (l.zipIdx n).map (fun e => (some rule.id, some e.1.1)) = l.map fun e => (some rule.id, some e.1) := by
    intro l
    induction l with
    | nil => exact fun _ => rfl
    | cons e l ih => exact fun n => congrArg _ (ih (n + 1))
  simp only [ruleSlots, ruleSites, conditionSites, cons_append, map_cons, map_append, map_map,
    Function.comp_def, KernelTraceSlot.label, Site.label, h, Option.map_some, hz]

theorem slotsFrom_label (all : List KernelRule) (i : ℕ) (unreachable : Bool) (rules : List KernelRule) (h : all.drop i = rules) :
    (slotsFrom unreachable rules).map KernelTraceSlot.label = (sitesFrom i rules).map (Site.label all) := by
  induction rules generalizing i unreachable with
  | nil => rfl
  | cons rule rules ih =>
    have ha : all[i]? = some rule := by rw [← head?_drop, h]; rfl
    have hd : all.drop (i + 1) = rules := by rw [← tail_drop, h]; rfl
    rw [slotsFrom, sitesFrom, map_append, map_append, ruleSlots_label all i rule unreachable ha, ih (i + 1) _ hd]

theorem ruleSlots_length (unreachable : Bool) (rule : KernelRule) : (ruleSlots unreachable rule).length = 1 + rule.conditions.length := by
  have h := congrArg List.length (ruleSlots_label [rule] 0 rule unreachable rfl)
  rwa [length_map, length_map, ruleSites_length] at h

theorem not_endsUnconditionally {view : KernelView} {rule : KernelRule} (h : rule.matches view = false) :
    endsUnconditionally rule = false := by
  by_contra he
  rw [Bool.not_eq_false, endsUnconditionally, Bool.and_eq_true, Bool.not_eq_true', beq_iff_eq] at he
  rw [matches_of_not_foldedFalse view rule he.1, passes_eq, eq_nil_of_length_eq_zero he.2] at h
  cases h

theorem disposition_of_evaluated (i : ℕ) (rules : List KernelRule) (site : Site) (result : Bool)
    (h : Evaluated view i rules site result) (k : ℕ) (slot : KernelTraceSlot)
    (hs : (slotsFrom false rules)[k]? = some slot) (hsi : (sitesFrom i rules)[k]? = some site) : slot.disposition = .runtime := by
  induction h generalizing k with
  | fallback =>
    obtain rfl : k = 0 := site_unique _ hsi rfl
    cases hs
    rfl
  | rule hf =>
    obtain rfl : k = 0 := site_unique _ hsi rfl
    cases hs
    simp [ruleDisposition, hf]
  | @condition rank ordinal condition rules i rule hf ha hb =>
    have hl := (List.getElem?_eq_some_iff.mp ha).1
    cases site_unique i hsi (sitesFrom_head i (ruleSites_condition i ha))
    have := runtimeConditions_length_le rule
    rw [slotsFrom, getElem?_append_left (by rw [ruleSlots_length]; omega), ruleSlots, cons_append, Nat.add_comm,
      getElem?_cons_succ, getElem?_append_left (by simpa using hl), getElem?_map] at hs
    obtain ⟨entry, -, rfl⟩ := Option.map_eq_some_iff.mp hs
    simp [ruleDisposition, hf]
  | @later rules _ _ i rule hm t ih =>
    obtain ⟨k', ha, -⟩ := mem_log_of_evaluated (i + 1) view t 0 false
    rw [slotsFrom, not_endsUnconditionally hm, site_unique i hsi (sitesFrom_tail i rule ha),
      getElem?_append_right (by rw [ruleSlots_length]; omega), ruleSlots_length, Nat.add_sub_cancel_left] at hs
    exact ih k' hs ha

/-- A layout names the sites in order, up to the record's size, and calls no evaluated site folded or
unreachable. -/
structure KernelTraceLayout.Describes (layout : KernelTraceLayout) (rules : List KernelRule) : Prop where
  totalValues : layout.totalValues = (sitesFrom 0 rules).length
  labels : layout.slots.map KernelTraceSlot.label = ((sitesFrom 0 rules).take routeTraceValues).map (Site.label rules)
  dispositions : ∀ (s : ℕ) (slot : KernelTraceSlot) (site : Site), layout.slots[s]? = some slot →
    (sitesFrom 0 rules)[s]? = some site → slot.disposition ≠ .runtime → ∀ view result, ¬ Evaluated view 0 rules site result

theorem traceLayout_describes (layout : KernelTraceLayout) (h : traceLayout plan = some layout) : layout.Describes plan.rules := by
  obtain ⟨hs, ht⟩ := traceLayout_holds plan h
  have hl := slotsFrom_label plan.rules 0 false plan.rules rfl
  refine ⟨?_, ?_, ?_⟩
  · have := congrArg List.length hl
    rwa [length_map, length_map, ← ht] at this
  · rw [hs, map_take, hl, map_take]
  intro s slot site hsl hsi hd view result he
  rw [hs, getElem?_take] at hsl
  split at hsl
  · exact hd (disposition_of_evaluated view 0 plan.rules site result he s slot hsl hsi)
  · cases hsl

end

section

structure Faithful (rules : List KernelRule) (view : KernelView) (out : Words) : Prop where
  decided : ∀ s < routeTraceValues, ∀ result, outcome out s = some (outcomeBits result) ↔
    ∃ site, (sitesFrom 0 rules)[s]? = some site ∧ Evaluated view 0 rules site result
  untouched : ∀ s < routeTraceValues, outcome out s = some 0 ↔
    ∀ site result, (sitesFrom 0 rules)[s]? = some site → ¬ Evaluated view 0 rules site result
  overflow : out 6 &&& routeTraceOverflow ≠ 0 ↔
    ∃ s ≥ routeTraceValues, ∃ site result, (sitesFrom 0 rules)[s]? = some site ∧ Evaluated view 0 rules site result

variable {fds : RoutingMapFds} (plan : RoutingPushPlan) (host : MapHost fds) (input : RoutingInput)

theorem finalWords_flags : finalWords plan host input true out 6 &&& routeTraceOverflow ≠ 0 ↔
      ∃ entry ∈ (evaluate (host.view input) 0 false plan.rules).log, routeTraceValues ≤ entry.1 := by
  rw [finalWords, Evaluation.finish, traceOr, if_pos rfl, Function.update_self, applyAction_of_le (by omega),
    overflow_foldl, prologueWords_flags]
  split
  · rename_i h
    refine iff_of_true (by decide) ?_
    obtain ⟨entry, he, hl⟩ := any_eq_true.mp h
    exact ⟨entry, he, of_decide_eq_true hl⟩
  rename_i h
  refine iff_of_false (by decide) ?_
  rintro ⟨entry, he, hl⟩
  exact h (any_eq_true.mpr ⟨entry, he, decide_eq_true hl⟩)

theorem faithful_finalWords : Faithful plan.rules (host.view input) (finalWords plan host input true out) := by
  have hl := log_pairwise (host.view input) 0 false plan.rules
  have hso : ∀ s < routeTraceValues, outcome (finalWords plan host input true out) s =
      some (slotBits (finalWords plan host input true out) s) := by
    intro s hs
    have hs' : s < 256 := hs
    have hw : routeTraceWords = 16 := rfl
    rw [outcome, if_pos (by omega)]
  have hd : ∀ s < routeTraceValues, ∀ r, (s, r) ∈ (evaluate (host.view input) 0 false plan.rules).log →
      slotBits (finalWords plan host input true out) s = outcomeBits r := by
    intro s hs r hin
    rw [finalWords, slotBits_finish]
    exact slotBits_foldl_of_mem _ _ s r hs hl hin (prologueWords_slotBits plan _ out hs)
  have hq : ∀ s < routeTraceValues, (∀ r, (s, r) ∉ (evaluate (host.view input) 0 false plan.rules).log) →
      slotBits (finalWords plan host input true out) s = 0#32 := by
    intro s hs hn
    rw [finalWords, slotBits_finish, slotBits_foldl_of_not_mem _ _ s hs hn, prologueWords_slotBits plan _ out hs]
  refine ⟨?_, ?_, ?_⟩
  · intro s hs r
    rw [hso s hs, Option.some.injEq, ← mem_log_iff (host.view input) false]
    refine ⟨fun h => ?_, hd s hs r⟩
    by_cases hin : ∃ r', (s, r') ∈ (evaluate (host.view input) 0 false plan.rules).log
    · obtain ⟨r', hr'⟩ := hin
      rwa [outcomeBits_inj (h.symm.trans (hd s hs r' hr'))]
    · exact absurd (h.symm.trans (hq s hs fun r' hr => hin ⟨r', hr⟩)) (outcomeBits_ne_zero r)
  · intro s hs
    rw [hso s hs, Option.some.injEq]
    constructor
    · intro h0 site result hsi he
      have hin := (mem_log_iff (host.view input) false plan.rules s result).mpr ⟨site, hsi, he⟩
      exact outcomeBits_ne_zero result ((hd s hs result hin).symm.trans h0)
    intro hn
    apply hq s hs
    intro r hin
    obtain ⟨site, hsi, he⟩ := (mem_log_iff (host.view input) false plan.rules s r).mp hin
    exact hn site r hsi he
  rw [finalWords_flags]
  constructor
  · rintro ⟨⟨s, r⟩, hin, hle⟩
    obtain ⟨site, hsi, he⟩ := (mem_log_iff (host.view input) false plan.rules s r).mp hin
    exact ⟨s, hle, site, r, hsi, he⟩
  · rintro ⟨s, hle, site, r, hsi, he⟩
    exact ⟨(s, r), (mem_log_iff (host.view input) false plan.rules s r).mpr ⟨site, hsi, he⟩, hle⟩

theorem Faithful.congr {rules : List KernelRule} {view : KernelView} {out' : Words} (h : Faithful rules view out)
    (he : ∀ k, Tracked k → out' k = out k) : Faithful rules view out' := by
  have ho : ∀ s < routeTraceValues, outcome out' s = outcome out s := by
    intro s hs
    have hs' : s < 256 := hs
    rw [outcome, outcome, slotBits, slotBits, he _ (.inr (by omega))]
  refine ⟨fun s hs r => ?_, fun s hs => ?_, ?_⟩
  · rw [ho s hs]
    exact h.decided s hs r
  · rw [ho s hs]
    exact h.untouched s hs
  · rw [he 6 (.inl (by omega))]
    exact h.overflow

def traceRequested (output : ℤ → Byte) : Prop :=
  BitVec.ofNat 32 (leNat ((List.range 4).map fun i : ℕ => output (24 + i))) &&& routeTraceEnabled ≠ 0

instance (output : ℤ → Byte) : Decidable (traceRequested output) := inferInstanceAs (Decidable (_ ≠ _))

/-- A trace changes no decision, and a requested one reports the evaluation as it went. -/
theorem routingTrace_faithful :
    (∃ decision, ∀ traceEnabled bytecode, emitRoutingProgram { plan with traceEnabled } fds = .ok bytecode →
      ∀ output stack, ∃ mem, Executes bytecode host input output stack mem ∧ decisionOf (outWords mem) = decision) ∧
    ∀ bytecode, emitRoutingProgram { plan with traceEnabled := true } fds = .ok bytecode →
      ∃ layout, traceLayout { plan with traceEnabled := true } = some layout ∧ layout.Describes plan.rules ∧
        ∀ output stack, traceRequested output → ∃ mem, Executes bytecode host input output stack mem ∧
          Faithful plan.rules (host.view input) (outWords mem) := by
  refine ⟨⟨runDecision plan host input, fun traceEnabled bytecode h output stack => ?_⟩, fun bytecode h => ?_⟩
  · exact exists_executes_decision h host input output stack
  refine ⟨_, rfl, traceLayout_describes { plan with traceEnabled := true } _ rfl, fun output stack hr => ?_⟩
  obtain ⟨mem, hru, hw⟩ := exists_executes h host input output stack
  refine ⟨mem, hru, ?_⟩
  have ho : tracing { plan with traceEnabled := true } (outWords (host.initialMem input output stack)) = true := by
    rw [tracing, Bool.true_and]
    exact bne_iff_ne.mpr hr
  rw [ho] at hw
  exact (faithful_finalWords { plan with traceEnabled := true } host input).congr hw

theorem routingTrace_faithful_finalityPlan :
    ∃ bytecode mem, emitRoutingProgram { finalityPlan with traceEnabled := true } sampleFds = .ok bytecode ∧
      Executes bytecode emptyHost (tcpInput 80) (fun o => if o = 24 then 1 else 0) (fun _ => 0) mem ∧
      outcome (outWords mem) 0 = some routeTraceNotMatched ∧ outcome (outWords mem) 4 = some routeTraceMatched := by
  obtain ⟨bytecode, h⟩ : ∃ bytecode, emitRoutingProgram { finalityPlan with traceEnabled := true } sampleFds = .ok bytecode :=
    exists_ok_of_isOk (by decide +kernel)
  obtain ⟨layout, -, -, hr⟩ := (routingTrace_faithful finalityPlan emptyHost (tcpInput 80)).2 bytecode h
  obtain ⟨mem, he, hf⟩ := hr (fun o => if o = 24 then 1 else 0) (fun _ => 0) (by decide)
  refine ⟨bytecode, mem, h, he, ?_, ?_⟩
  · exact (hf.decided 0 (by decide) false).mpr ⟨.rule 0, rfl, .rule rfl⟩
  · exact (hf.decided 4 (by decide) true).mpr ⟨.fallback, rfl, .later rfl (.later rfl .fallback)⟩

end

end Honk.Codegen
