import Honk.Lib.Bpf
import Honk.Codegen.TraceLayout

namespace Honk.Codegen

open Honk.Lib Honk.Lib.Bpf List

abbrev Label := ℕ

structure RoutingSourceLine where
  insnOffset : ℕ
  line : ℕ
  text : String

structure RoutingBytecode where
  insns : List Insn
  lines : List RoutingSourceLine
  traceLayout : Option KernelTraceLayout

/-- `labels` counts the labels made; `binds` lists the positions given to them, the latest first.
Fixups name emitted instructions, each once. -/
structure Assembler where
  insns : List Insn := []
  lines : List RoutingSourceLine := []
  labels : ℕ := 0
  binds : List (Label × ℕ) := []
  fixups : List (ℕ × Label) := []
  traceLayout : Option KernelTraceLayout := none
  fixups_lt : ∀ f ∈ fixups, f.1 < insns.length := by simp
  fixups_sorted : fixups.Pairwise (fun f g => f.1 < g.1) := by simp

def bpfInstructionCapacity : ℕ := 1000000

namespace Assembler

variable (a : Assembler)

def pc : ℕ := a.insns.length

def addr (label : Label) : Option ℕ := a.binds.lookup label

variable (insn : Insn)

def push : Assembler where
  insns := a.insns ++ [insn]
  lines := a.lines
  labels := a.labels
  binds := a.binds
  fixups := a.fixups
  traceLayout := a.traceLayout
  fixups_lt f hf := by
    have := a.fixups_lt f hf
    simp only [length_append, length_singleton]
    omega
  fixups_sorted := a.fixups_sorted

def pushJump (target : Label) : Assembler where
  insns := a.insns ++ [insn]
  lines := a.lines
  labels := a.labels
  binds := a.binds
  fixups := a.fixups ++ [(a.insns.length, target)]
  traceLayout := a.traceLayout
  fixups_lt f hf := by
    simp only [length_append, length_singleton]
    rcases mem_append.mp hf with hf | hf
    · have := a.fixups_lt f hf
      omega
    · rw [mem_singleton.mp hf]
      omega
  fixups_sorted := by
    rw [pairwise_append]
    refine ⟨a.fixups_sorted, by simp, fun f hf g hg => ?_⟩
    rw [mem_singleton.mp hg]
    exact a.fixups_lt f hf

structure Le (a b : Assembler) : Prop where
  insns : a.insns <+: b.insns
  binds : a.binds <:+ b.binds
  fixups : ∃ added, b.fixups = a.fixups ++ added ∧ ∀ f ∈ added, a.insns.length ≤ f.1
  traceLayout : b.traceLayout = a.traceLayout

theorem Le.refl : a.Le a := ⟨prefix_refl _, suffix_refl _, ⟨[], by simp⟩, rfl⟩

theorem Le.trans {a b c : Assembler} (h : a.Le b) (h' : b.Le c) : a.Le c := by
  obtain ⟨added, ha, hl⟩ := h.fixups
  obtain ⟨added', ha', hl'⟩ := h'.fixups
  refine ⟨h.insns.trans h'.insns, h.binds.trans h'.binds, ⟨added ++ added', ?_, ?_⟩, h'.traceLayout.trans h.traceLayout⟩
  · rw [ha', ha, append_assoc]
  intro f hf
  rcases mem_append.mp hf with hf | hf
  · exact hl f hf
  · exact h.insns.length_le.trans (hl' f hf)

theorem le_push : a.Le (a.push insn) := ⟨prefix_append _ _, suffix_refl _, ⟨[], by simp [push]⟩, rfl⟩

theorem le_pushJump : a.Le (a.pushJump insn target) :=
  ⟨prefix_append _ _, suffix_refl _, ⟨[(a.insns.length, target)], rfl, by simp⟩, rfl⟩

def resolve (insns : List Insn) (fixup : ℕ × Label) : Except String (List Insn) :=
  match a.addr fixup.2 with
  | none => .error ("unresolved jump label ordinal " ++ toString fixup.2)
  | some target =>
    let delta : ℤ := target - fixup.1 - 1
    if -32768 ≤ delta ∧ delta ≤ 32767 then .ok (insns.modify fixup.1 fun insn => { insn with off := delta })
    else .error ("routing jump out of range: " ++ toString fixup.1 ++ " -> " ++ toString target)

def finish : Except String RoutingBytecode := (a.fixups.foldlM a.resolve a.insns).map fun insns => ⟨insns, a.lines, a.traceLayout⟩

end Assembler

def AsmM (α : Type) : Type := { f : Assembler → Except String (α × Assembler) // ∀ a x b, f a = .ok (x, b) → a.Le b }

namespace AsmM

def andThen {α β : Type} (m : AsmM α) (k : α → AsmM β) (a : Assembler) : Except String (β × Assembler) :=
  match m.1 a with
  | .ok (x, b) => (k x).1 b
  | .error e => .error e

theorem andThen_eq_ok {α β : Type} {m : AsmM α} {k : α → AsmM β} {a c : Assembler} {y : β} :
    andThen m k a = .ok (y, c) ↔ ∃ x b, m.1 a = .ok (x, b) ∧ (k x).1 b = .ok (y, c) := by
  rw [andThen]
  constructor
  · intro h
    split at h
    · rename_i x b hm
      exact ⟨x, b, hm, h⟩
    · cases h
  rintro ⟨x, b, hm, hk⟩
  rw [hm]
  exact hk

instance : Monad AsmM where
  pure x := ⟨fun a => .ok (x, a), fun a _ b h => by cases h; exact .refl a⟩
  bind m k := ⟨andThen m k, fun a y c h => by
    obtain ⟨x, b, hm, hk⟩ := andThen_eq_ok.mp h
    exact (m.2 a x b hm).trans ((k x).2 b y c hk)⟩

def source (line : ℕ) (text : String) : AsmM Unit :=
  ⟨fun a => .ok ((), { a with lines := a.lines ++ [⟨a.insns.length, line, text⟩] }), fun a _ b h => by
    cases h
    exact ⟨prefix_refl _, suffix_refl _, ⟨[], by simp⟩, rfl⟩⟩

def label : AsmM Label :=
  ⟨fun a => .ok (a.labels, { a with labels := a.labels + 1 }), fun a _ b h => by
    cases h
    exact ⟨prefix_refl _, suffix_refl _, ⟨[], by simp⟩, rfl⟩⟩

def bind (label : Label) : AsmM Unit :=
  ⟨fun a => .ok ((), { a with binds := (label, a.insns.length) :: a.binds }), fun a _ b h => by
    cases h
    exact ⟨prefix_refl _, suffix_cons _ _, ⟨[], by simp⟩, rfl⟩⟩

def capacityError : String := "routing program exceeds BPF instruction capacity"

def emit (code : BitVec 8) (dst src : ℕ) (off : ℤ) (imm : BitVec 32) : AsmM Unit :=
  ⟨fun a => if a.insns.length < bpfInstructionCapacity then .ok ((), a.push ⟨code, dst, src, off, imm⟩)
    else .error capacityError, fun a _ b h => by
    beta_reduce at h
    split at h <;> cases h
    exact a.le_push _⟩

def emitJump (code : BitVec 8) (dst : ℕ) (imm : BitVec 32) (target : Label) : AsmM Unit :=
  ⟨fun a => if a.insns.length < bpfInstructionCapacity then .ok ((), a.pushJump ⟨code, dst, 0, 0, imm⟩ target)
    else .error capacityError, fun a _ b h => by
    beta_reduce at h
    split at h <;> cases h
    exact a.le_pushJump _⟩

def traceLayout : AsmM (Option KernelTraceLayout) := ⟨fun a => .ok (a.traceLayout, a), fun a _ b h => by cases h; exact .refl a⟩

def when (condition : Bool) (m : AsmM Unit) : AsmM Unit := if condition then m else pure ()

def whenTraced (m : AsmM Unit) : AsmM Unit := do
  let layout ← traceLayout
  if layout.isNone then pure () else m

def forEach {α : Type} (f : α → AsmM Unit) : List α → AsmM Unit
  | [] => pure ()
  | x :: xs => do
    f x
    forEach f xs

def bpfLd : BitVec 8 := 0x00
def bpfLdx : BitVec 8 := 0x01
def bpfSt : BitVec 8 := 0x02
def bpfStx : BitVec 8 := 0x03
def bpfJmp : BitVec 8 := 0x05
def bpfAlu64 : BitVec 8 := 0x07
def bpfW : BitVec 8 := 0x00
def bpfB : BitVec 8 := 0x10
def bpfDw : BitVec 8 := 0x18
def bpfImm : BitVec 8 := 0x00
def bpfMem : BitVec 8 := 0x60
def bpfOr : BitVec 8 := 0x40
def bpfAnd : BitVec 8 := 0x50
def bpfMov : BitVec 8 := 0xb0
def bpfK : BitVec 8 := 0x00
def bpfX : BitVec 8 := 0x08
def bpfJa : BitVec 8 := 0x00
def bpfJeq : BitVec 8 := 0x10
def bpfJgt : BitVec 8 := 0x20
def bpfJge : BitVec 8 := 0x30
def bpfJset : BitVec 8 := 0x40
def bpfJne : BitVec 8 := 0x50
def bpfCall : BitVec 8 := 0x80
def bpfExit : BitVec 8 := 0x90

def jump (op : BitVec 8) (dst : ℕ) (imm : BitVec 32) (target : Label) : AsmM Unit :=
  emitJump (bpfJmp ||| op ||| bpfK) dst imm target
def ja (target : Label) : AsmM Unit := emitJump (bpfJmp ||| bpfJa) 0 0 target
def movReg (dst src : ℕ) : AsmM Unit := emit (bpfAlu64 ||| bpfMov ||| bpfX) dst src 0 0
variable (dst : ℕ) (imm : BitVec 32)

def movImm : AsmM Unit := emit (bpfAlu64 ||| bpfMov ||| bpfK) dst 0 0 imm
def addImm : AsmM Unit := emit (bpfAlu64 ||| bpfK) dst 0 0 imm
def andImm : AsmM Unit := emit (bpfAlu64 ||| bpfAnd ||| bpfK) dst 0 0 imm
def orImm : AsmM Unit := emit (bpfAlu64 ||| bpfOr ||| bpfK) dst 0 0 imm
def ldxW (dst src : ℕ) (off : ℤ) : AsmM Unit := emit (bpfLdx ||| bpfW ||| bpfMem) dst src off 0
def ldxB (dst src : ℕ) (off : ℤ) : AsmM Unit := emit (bpfLdx ||| bpfB ||| bpfMem) dst src off 0
def ldxDw (dst src : ℕ) (off : ℤ) : AsmM Unit := emit (bpfLdx ||| bpfDw ||| bpfMem) dst src off 0
def stxDw (dst src : ℕ) (off : ℤ) : AsmM Unit := emit (bpfStx ||| bpfDw ||| bpfMem) dst src off 0
def stxW (dst src : ℕ) (off : ℤ) : AsmM Unit := emit (bpfStx ||| bpfW ||| bpfMem) dst src off 0
def stImm (off : ℤ) (imm : BitVec 32) : AsmM Unit := emit (bpfSt ||| bpfW ||| bpfMem) dst 0 off imm
def call (helper : BitVec 32) : AsmM Unit := emit (bpfJmp ||| bpfCall) 0 0 0 helper
def exit : AsmM Unit := emit (bpfJmp ||| bpfExit) 0 0 0 0

end AsmM

end Honk.Codegen
