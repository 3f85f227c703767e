import Honk.Codegen.Correct

namespace Honk.Codegen

open Honk.Lib Honk.Lib.Bpf Honk.Routing AsmM List Option

variable {z : Assembler} {prog : List Insn}

section

variable (hz : Linked z prog)
include hz

theorem Linked.code_eq (i : ℕ) : prog[i]?.map Insn.code = z.insns[i]?.map Insn.code := by
  obtain ⟨ho, hs⟩ := foldlM_resolve hz.patched z.fixups_sorted
  by_cases hfi : ∃ f ∈ z.fixups, f.1 = i
  · obtain ⟨f, hf, rfl⟩ := hfi
    obtain ⟨target, -, he⟩ := hs f hf
    rw [he, Option.map_map]
    rfl
  · rw [ho i fun f hf he => hfi ⟨f, hf, he⟩]

theorem Linked.length_eq : prog.length = z.insns.length := by
  have hc : prog.map Insn.code = z.insns.map Insn.code := by
    apply ext_getElem?
    intro i
    rw [getElem?_map, getElem?_map, hz.code_eq]
  simpa using congrArg List.length hc

theorem Linked.emitted {i : ℕ} {insn : Insn} (h : prog[i]? = some insn) : ∃ insn', z.insns[i]? = some insn' ∧ insn'.code = insn.code := by
  have hc := hz.code_eq i
  rw [h, map_some] at hc
  exact map_eq_some_iff.mp hc.symm

theorem Linked.target (hf : (i, l) ∈ z.fixups) (h : prog[i]? = some insn) : ∃ p, (l, p) ∈ z.binds ∧ (i : ℤ) + 1 + insn.off = p := by
  obtain ⟨target, ha, he⟩ := (foldlM_resolve hz.patched z.fixups_sorted).2 (i, l) hf
  obtain ⟨before, after, hb, -⟩ := lookup_eq_some_iff.mp ha
  refine ⟨target, by rw [hb]; simp, ?_⟩
  rw [h] at he
  obtain ⟨insn', -, rfl⟩ := map_eq_some_iff.mp he.symm
  dsimp only
  omega

theorem Linked.wellFormed (hc : Closed z) : WellFormed prog := by
  obtain ⟨⟨hla, -, -, -⟩, he⟩ := hc
  have hold : ∀ {i}, Boundary prog i → Boundary z.insns i := Boundary.congr fun i => (hz.code_eq i).symm
  have hne : ∀ {i}, Boundary z.insns i → Boundary prog i := Boundary.congr hz.code_eq
  have hjump : ∀ i insn, Boundary prog i → prog[i]? = some insn → insn.isJump = true →
      ∃ p : ℕ, (i : ℤ) + 1 + insn.off = p ∧ Boundary prog p ∧ p < prog.length ∧ i < p := by
    intro i insn hi hin hju
    obtain ⟨insn', hin', hco⟩ := hz.emitted hin
    obtain ⟨l, hl⟩ := hla.jumps i insn' (hold hi) hin' ((flow_congr hco).2.1.trans hju)
    obtain ⟨p, hp, ho⟩ := hz.target hl hin
    exact ⟨p, ho, hne (hla.binds l p hp).2, hz.length_eq ▸ he.bound l p hp, (hla.fixups i l hl).2 p hp⟩
  refine ⟨hz.length_eq ▸ he.nonempty, fun i t hi hed => ?_, fun i hi hlt => ?_, fun i t hi hed => ?_⟩
  · cases hed with
    | fall insn hin hen =>
      have hn : Boundary prog (i + insn.width) := .next i insn hi hin
      refine ⟨i + insn.width, by push_cast; rfl, hn, ?_⟩
      obtain ⟨insn', hin', hco⟩ := hz.emitted hin
      refine (hz.length_eq ▸ hla.whole.bounded _ (hold hn)).lt_of_ne fun heq => ?_
      have hlast := he.last i insn' (hold hi) hin' (by rw [(flow_congr hco).1, heq, hz.length_eq])
      rw [(flow_congr hco).2.2, hen] at hlast
      cases hlast
    | jump insn hin hju =>
      obtain ⟨p, heq, hp, hlt, -⟩ := hjump i insn hi hin hju
      exact ⟨p, heq, hp, hlt⟩
  · -- by strong induction: an instruction is reached from the one before it, or by a jump that lands on it
    induction i using Nat.strong_induction_on with
    | h i ih =>
      cases hi with
      | start => exact .refl
      | next j insn hj hin =>
        have hpo := width_pos insn
        cases hen : insn.isEnd with
        | false =>
          refine (ih j (by omega) hj (by omega)).tail ?_
          rw [Nat.cast_add]
          exact .fall insn hin hen
        | true =>
          obtain ⟨insn', hin', hco⟩ := hz.emitted hin
          have hon : insn.width = 1 := width_of_isEnd hen
          rw [hon] at hlt ih ⊢
          obtain ⟨k, l, hk, hb⟩ := hla.closed j insn' (hold hj) hin' ((flow_congr hco).2.2.trans hen) (.inl (hz.length_eq ▸ hlt))
          obtain ⟨hbo, source, hs, hju⟩ := hla.sources k l hk
          have hkp := (hla.fixups k l hk).2 _ hb
          refine (ih k hkp (hne hbo) (by omega)).tail ?_
          have hem := hz.code_eq k
          rw [hs, map_some] at hem
          obtain ⟨patched, hpa, hco'⟩ := map_eq_some_iff.mp hem
          obtain ⟨p, hp, ho⟩ := hz.target hk hpa
          obtain rfl : p = j + 1 := Option.some.inj ((hz.addr_of_mem hp).symm.trans (hz.addr_of_mem hb))
          rw [← ho]
          exact .jump patched hpa ((flow_congr hco').2.1.trans hju)
  cases hed with
  | fall insn hin hen =>
    have hpo := width_pos insn
    omega
  | jump insn hin hju =>
    obtain ⟨p, heq, -, -, hlt⟩ := hjump i insn hi hin hju
    omega

end

def Fits (off : ℤ) : Prop := -32768 ≤ off ∧ off ≤ 32767

theorem fits_of_foldlM {fixups : List (ℕ × Label)} {insns patched : List Insn} (h : fixups.foldlM z.resolve insns = .ok patched)
    {fixup : ℕ × Label} (hfi : fixup ∈ fixups) : ∃ target : ℕ, z.addr fixup.2 = some target ∧ Fits ((target : ℤ) - fixup.1 - 1) := by
  induction fixups generalizing insns with
  | nil => cases hfi
  | cons f fixups ih =>
    rw [foldlM_cons, bind_eq_ok] at h
    obtain ⟨next, hf, h⟩ := h
    obtain rfl | hfi := mem_cons.mp hfi
    · rw [Assembler.resolve] at hf
      split at hf
      · cases hf
      rename_i target ha
      dsimp only at hf
      split at hf
      · rename_i hfits
        exact ⟨target, ha, hfits⟩
      · cases hf
    · exact ih h hfi

variable (plan : RoutingPushPlan) (fds : RoutingMapFds)

theorem emitRoutingProgram_linked (h : emitRoutingProgram plan fds = .ok bytecode) :
    ∃ z, (emitProgram plan fds).1 { traceLayout := traceLayout plan } = .ok ((), z) ∧ Linked z bytecode.insns := by
  simp only [emitRoutingProgram, bind_eq_ok] at h
  obtain ⟨_, -, _, -, ⟨⟨_⟩, z⟩, hz, hf⟩ := h
  rw [Assembler.finish] at hf
  obtain ⟨prog, hpr, rfl⟩ := map_eq_ok hf
  exact ⟨z, hz, hpr, (closed_emitProgram hz).1.laid.once⟩

/-- The emitted program is well formed, so that no run of it makes as many steps as it has slots; a jump that is too far for its
instruction is an error. -/
theorem emitRoutingProgram_wellFormed : (∀ bytecode, emitRoutingProgram plan fds = .ok bytecode → WellFormed bytecode.insns ∧
      (∀ i insn, Boundary bytecode.insns i → bytecode.insns[i]? = some insn → insn.isJump = true → Fits insn.off) ∧
      ∀ (B : Type) [DecidableEq B] (env : Env B) (states : ℕ → State B) (n : ℕ), (states 0).pc = 0 →
        (∀ i < n, step env bytecode.insns (states i) = some (.next (states (i + 1)))) → n < bytecode.insns.length) ∧
    ∀ z fixup target, (emitProgram plan fds).1 { traceLayout := traceLayout plan } = .ok ((), z) → fixup ∈ z.fixups →
      z.addr fixup.2 = some target → ¬ Fits ((target : ℤ) - fixup.1 - 1) → ∃ message, emitRoutingProgram plan fds = .error message := by
  constructor
  · intro bytecode h
    obtain ⟨z, hz, hli⟩ := emitRoutingProgram_linked plan fds h
    have hc := closed_emitProgram hz
    have hw := hli.wellFormed hc
    refine ⟨hw, fun i insn hi hin hj => ?_, fun B _ env states n hs hst => hw.steps_lt hs hst⟩
    obtain ⟨insn', hin', hco⟩ := hli.emitted hin
    obtain ⟨l, hl⟩ := hc.1.laid.jumps i insn' (hi.congr fun i => (hli.code_eq i).symm) hin' ((flow_congr hco).2.1.trans hj)
    obtain ⟨p, hp, ho⟩ := hli.target hl hin
    obtain ⟨target, ha, hf⟩ := fits_of_foldlM hli.patched hl
    obtain rfl : target = p := Option.some.inj (ha.symm.trans (hli.addr_of_mem hp))
    rwa [← show insn.off = (target : ℤ) - i - 1 by omega] at hf
  intro z fixup target hz hfi ha hfa
  cases hpr : emitRoutingProgram plan fds with
  | error message => exact ⟨message, rfl⟩
  | ok bytecode =>
    obtain ⟨z', hz', hli⟩ := emitRoutingProgram_linked plan fds hpr
    cases hz.symm.trans hz'
    obtain ⟨target', ha', hf⟩ := fits_of_foldlM hli.patched hfi
    cases ha.symm.trans ha'
    exact absurd hf hfa

theorem emitRoutingProgram_wellFormed_finalityPlan :
    ∃ bytecode, emitRoutingProgram finalityPlan sampleFds = .ok bytecode ∧ WellFormed bytecode.insns := by
  obtain ⟨bytecode, h⟩ := emit_finalityPlan
  exact ⟨bytecode, h, ((emitRoutingProgram_wellFormed finalityPlan sampleFds).1 bytecode h).1⟩

end Honk.Codegen
