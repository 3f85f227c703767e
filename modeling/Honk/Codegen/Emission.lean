import Honk.Lib.Result
import Honk.Codegen.Assembler

namespace Honk.Codegen

open Honk.Lib Honk.Lib.Bpf List AsmM Assembler

/-- Emitting `m` took the assembler from `a` to `b` on the way to its final state `z`. -/
def Emit {α : Type} (z : Assembler) (m : AsmM α) (a : Assembler) (x : α) (b : Assembler) : Prop := m.1 a = .ok (x, b) ∧ b.Le z

variable {a c b : Assembler} {u : Unit} {code : BitVec 8} {dst src : ℕ} {off : ℤ} {imm : BitVec 32} {target l : Label}
  {fixup : ℕ × Label} {insns patched : List Insn}

theorem emit_bind_iff : Emit z (m >>= k) a y c ↔ ∃ x b, Emit z m a x b ∧ Emit z (k x) b y c := by
  constructor
  · rintro ⟨h, hz⟩
    obtain ⟨x, b, hm, hk⟩ := andThen_eq_ok.mp h
    exact ⟨x, b, ⟨hm, ((k x).2 b y c hk).trans hz⟩, hk, hz⟩
  · rintro ⟨x, b, ⟨hm, -⟩, hk, hz⟩
    exact ⟨andThen_eq_ok.mpr ⟨x, b, hm, hk⟩, hz⟩

theorem emit_pure_iff : Emit z (pure x : AsmM α) a y b ↔ y = x ∧ b = a ∧ a.Le z := by
  constructor
  · rintro ⟨h, hz⟩
    cases h
    exact ⟨rfl, rfl, hz⟩
  · rintro ⟨rfl, rfl, hz⟩
    exact ⟨rfl, hz⟩

theorem emit_forEach_nil : Emit z (forEach f []) a u b ↔ b = a ∧ a.Le z := by
  rw [forEach, emit_pure_iff]
  simp

theorem emit_forEach_cons : Emit z (forEach f (x :: xs)) a u c ↔ ∃ v b, Emit z (f x) a v b ∧ Emit z (forEach f xs) b u c :=
  emit_bind_iff

theorem emit_traceLayout_iff : Emit z AsmM.traceLayout a t b ↔ t = z.traceLayout ∧ b = a ∧ a.Le z := by
  constructor
  · rintro ⟨h, hz⟩
    cases h
    exact ⟨hz.traceLayout.symm, rfl, hz⟩
  · rintro ⟨rfl, rfl, hz⟩
    exact ⟨by rw [hz.traceLayout]; rfl, hz⟩

theorem emit_when (h : Emit z (when condition m) a u b) : (condition = false ∧ b = a) ∨ (condition = true ∧ Emit z m a u b) := by
  cases condition with
  | false => exact Or.inl ⟨rfl, (emit_pure_iff.mp h).2.1⟩
  | true => exact Or.inr ⟨rfl, h⟩

theorem emit_whenTraced (h : Emit z (whenTraced m) a u b) :
    (z.traceLayout.isSome = false ∧ b = a) ∨ (z.traceLayout.isSome = true ∧ Emit z m a u b) := by
  obtain ⟨t, _, ht, hm⟩ := emit_bind_iff.mp h
  obtain ⟨rfl, rfl, -⟩ := emit_traceLayout_iff.mp ht
  cases hz : z.traceLayout with
  | none =>
    rw [hz] at hm
    exact Or.inl ⟨rfl, (emit_pure_iff.mp hm).2.1⟩
  | some layout =>
    rw [hz] at hm
    exact Or.inr ⟨rfl, hm⟩

theorem emit_emit_iff (h : Emit z (emit code dst src off imm) a u b) : b = a.push ⟨code, dst, src, off, imm⟩ ∧ b.Le z := by
  obtain ⟨h, hz⟩ := h
  simp only [emit] at h
  split at h <;> cases h
  exact ⟨rfl, hz⟩

theorem emit_emitJump_iff (h : Emit z (emitJump code dst imm target) a u b) : b = a.pushJump ⟨code, dst, 0, 0, imm⟩ target ∧ b.Le z := by
  obtain ⟨h, hz⟩ := h
  simp only [emitJump] at h
  split at h <;> cases h
  exact ⟨rfl, hz⟩

theorem resolve_other {z : Assembler} (h : z.resolve insns fixup = .ok patched) (hi : fixup.1 ≠ i) : patched[i]? = insns[i]? := by
  rw [resolve] at h
  split at h
  · cases h
  dsimp only at h
  split at h <;> cases h
  rw [getElem?_modify]
  simp [hi]

theorem resolve_self {z : Assembler} (h : z.resolve insns fixup = .ok patched) : ∃ target : ℕ, z.addr fixup.2 = some target ∧
      patched[fixup.1]? = insns[fixup.1]?.map fun insn => { insn with off := (target : ℤ) - fixup.1 - 1 } := by
  rw [resolve] at h
  split at h
  · cases h
  rename_i target ht
  dsimp only at h
  split at h <;> cases h
  refine ⟨target, ht, ?_⟩
  rw [getElem?_modify]
  simp

theorem foldlM_resolve {z : Assembler} {fixups : List (ℕ × Label)} (h : fixups.foldlM z.resolve insns = .ok patched)
    (hs : fixups.Pairwise (fun f g => f.1 < g.1)) :
    (∀ i, (∀ f ∈ fixups, f.1 ≠ i) → patched[i]? = insns[i]?) ∧
    ∀ f ∈ fixups, ∃ target : ℕ, z.addr f.2 = some target ∧
      patched[f.1]? = insns[f.1]?.map fun insn => { insn with off := (target : ℤ) - f.1 - 1 } := by
  induction fixups generalizing insns with
  | nil =>
    cases h
    simp
  | cons f fixups ih =>
    rw [foldlM_cons, bind_eq_ok] at h
    obtain ⟨next, hf, h⟩ := h
    obtain ⟨hl, hs⟩ := pairwise_cons.mp hs
    obtain ⟨ho, hse⟩ := ih h hs
    constructor
    · intro i hi
      rw [ho i (fun g hg => hi g (mem_cons_of_mem _ hg)), resolve_other hf (hi f mem_cons_self)]
    intro g hg
    rcases mem_cons.mp hg with rfl | hg
    · obtain ⟨target, ht, hp⟩ := resolve_self hf
      exact ⟨target, ht, by rw [ho g.1 (fun g' hg' => (hl g' hg').ne'), hp]⟩
    · obtain ⟨target, ht, hp⟩ := hse g hg
      exact ⟨target, ht, by rw [hp, resolve_other hf (hl g hg).ne]⟩

structure Linked (z : Assembler) (prog : List Insn) : Prop where
  patched : z.fixups.foldlM z.resolve z.insns = .ok prog
  nodup : (z.binds.map Prod.fst).Nodup

variable {z : Assembler} {prog : List Insn}

theorem Linked.addr_of_mem (hz : Linked z prog) {label : Label} {p : ℕ} (h : (label, p) ∈ z.binds) : z.addr label = some p := by
  have key : ∀ binds : List (Label × ℕ), (binds.map Prod.fst).Nodup → (label, p) ∈ binds → binds.lookup label = some p := by
    intro binds
    induction binds with
    | nil => simp
    | cons e binds ih =>
      obtain ⟨l, q⟩ := e
      intro hn hm
      rw [map_cons, nodup_cons] at hn
      rw [lookup_cons]
      rcases mem_cons.mp hm with he | ht
      · cases he
        simp
      have hne : label ≠ l := fun he => hn.1 (mem_map.mpr ⟨_, ht, he⟩)
      rw [beq_eq_false_iff_ne.mpr hne]
      exact ih hn.2 ht
  exact key z.binds hz.nodup h

theorem emit_label (h : Emit z label a l b) : b.pc = a.pc ∧ b.Le z := by
  obtain ⟨h, hz⟩ := h
  cases h
  exact ⟨rfl, hz⟩

theorem emit_source (h : Emit z (source line text) a u b) : b.pc = a.pc ∧ b.Le z := by
  obtain ⟨h, hz⟩ := h
  cases h
  exact ⟨rfl, hz⟩

theorem Linked.addr_bind (hz : Linked z prog) (h : Emit z (bind l) a u b) : z.addr l = some a.pc ∧ b.pc = a.pc := by
  obtain ⟨h, hl⟩ := h
  cases h
  exact ⟨hz.addr_of_mem (hl.binds.subset mem_cons_self), rfl⟩

theorem Linked.fetch (hz : Linked z prog) (h : Emit z (emit code dst src off imm) a u b) :
    prog[a.pc]? = some ⟨code, dst, src, off, imm⟩ ∧ b.pc = a.pc + 1 := by
  obtain ⟨rfl, hl⟩ := emit_emit_iff h
  have hin : z.insns[a.pc]? = some ⟨code, dst, src, off, imm⟩ := by
    obtain ⟨rest, hr⟩ := hl.insns
    rw [← hr]
    simp [push, pc]
  obtain ⟨added, ha, hlt⟩ := hl.fixups
  refine ⟨?_, by simp [pc, push]⟩
  rw [(foldlM_resolve hz.patched z.fixups_sorted).1 a.pc, hin]
  intro f hf
  rw [ha] at hf
  rcases mem_append.mp hf with hf | hf
  · exact (a.fixups_lt f hf).ne
  have := hlt f hf
  simp only [push, length_append, length_singleton] at this
  simp only [pc]
  omega

theorem Linked.fetchJump (hz : Linked z prog) (h : Emit z (emitJump code dst imm target) a u b) :
    ∃ t : ℕ, z.addr target = some t ∧ prog[a.pc]? = some ⟨code, dst, 0, (t : ℤ) - a.pc - 1, imm⟩ ∧ b.pc = a.pc + 1 := by
  obtain ⟨rfl, hl⟩ := emit_emitJump_iff h
  have hin : z.insns[a.pc]? = some ⟨code, dst, 0, 0, imm⟩ := by
    obtain ⟨rest, hr⟩ := hl.insns
    rw [← hr]
    simp [pushJump, pc]
  obtain ⟨added, ha, -⟩ := hl.fixups
  have hm : (a.pc, target) ∈ z.fixups := by
    rw [ha]
    simp [pushJump, pc]
  obtain ⟨t, ht, hp⟩ := (foldlM_resolve hz.patched z.fixups_sorted).2 _ hm
  exact ⟨t, ht, by rw [hp, hin]; rfl, by simp [pc, pushJump]⟩

end Honk.Codegen
