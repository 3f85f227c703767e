import Honk.Lib.BpfMemory

namespace Honk.Lib.Bpf

structure Insn where
  code : BitVec 8
  dst : ℕ
  src : ℕ
  off : ℤ
  imm : BitVec 32

inductive Cond where
  | eq
  | gt
  | ge
  | set
  | ne
  deriving DecidableEq

inductive Op where
  | ldImm64
  | ldx (size : ℕ)
  | st (size : ℕ)
  | stx (size : ℕ)
  | mov
  | movImm
  | addImm
  | orImm
  | andImm
  | ja
  | jump (cond : Cond)
  | call
  | exit
  deriving DecidableEq

def decode (code : BitVec 8) : Option Op :=
  match code.toNat with
  | 0x18 => some .ldImm64
  | 0x61 => some (.ldx 4)
  | 0x71 => some (.ldx 1)
  | 0x79 => some (.ldx 8)
  | 0x62 => some (.st 4)
  | 0x63 => some (.stx 4)
  | 0x7b => some (.stx 8)
  | 0xbf => some .mov
  | 0xb7 => some .movImm
  | 0x07 => some .addImm
  | 0x47 => some .orImm
  | 0x57 => some .andImm
  | 0x05 => some .ja
  | 0x15 => some (.jump .eq)
  | 0x25 => some (.jump .gt)
  | 0x35 => some (.jump .ge)
  | 0x45 => some (.jump .set)
  | 0x55 => some (.jump .ne)
  | 0x85 => some .call
  | 0x95 => some .exit
  | _ => none

def Cond.eval (cond : Cond) (a b : BitVec 64) : Bool :=
  match cond with
  | .eq => a == b
  | .gt => decide (b < a)
  | .ge => decide (b ≤ a)
  | .set => a &&& b != 0
  | .ne => a != b

inductive Value (B : Type) where
  | uninit
  | scalar (v : BitVec 64)
  | ptr (block : B) (off : ℤ)
  | map (fd : BitVec 32)

structure State (B : Type) where
  pc : ℕ
  regs : ℕ → Value B
  mem : Mem B

structure MapDef (B : Type) where
  keySize : ℕ
  find : List Byte → Option B

structure Env (B : Type) where
  lo : B → ℤ
  hi : B → ℤ
  maps : BitVec 32 → Option (MapDef B)

inductive Outcome (B : Type) where
  | next (s : State B)
  | exit (r0 : Value B) (mem : Mem B)

def Value.test {B : Type} (cond : Cond) (imm : BitVec 32) : Value B → Option Bool
  | .scalar v => some (cond.eval v (imm.signExtend 64))
  | .ptr _ _ => if imm = 0 then (match cond with | .eq => some false | .ne => some true | _ => none) else none
  | _ => none

section

variable {B : Type}

def Env.Valid (env : Env B) (b : B) (o : ℤ) (n : ℕ) : Prop := env.lo b ≤ o ∧ o + n ≤ env.hi b

instance (env : Env B) (b : B) (o : ℤ) (n : ℕ) : Decidable (env.Valid b o n) := inferInstanceAs (Decidable (_ ∧ _))

def State.set (s : State B) (r : ℕ) (v : Value B) : Option (Outcome B) := some (.next ⟨s.pc + 1, Function.update s.regs r v, s.mem⟩)

def State.jump (s : State B) (off : ℤ) : Option (Outcome B) :=
  if 0 ≤ (s.pc : ℤ) + 1 + off then some (.next { s with pc := ((s.pc : ℤ) + 1 + off).toNat }) else none

def clobber (regs : ℕ → Value B) (r0 : Value B) : ℕ → Value B := fun r => if r = 0 then r0 else if r ≤ 5 then .uninit else regs r

def MapDef.lookup (map : MapDef B) (key : List Byte) : Value B :=
  match map.find key with
  | some value => .ptr value 0
  | none => .scalar 0

def State.lookup (env : Env B) (s : State B) : Option (Outcome B) :=
  match s.regs 1, s.regs 2 with
  | .map fd, .ptr b o =>
    match env.maps fd with
    | some map =>
      if env.Valid b o map.keySize then
        some (.next ⟨s.pc + 1, clobber s.regs (map.lookup (readMem s.mem b o map.keySize)), s.mem⟩)
      else none
    | none => none
  | _, _ => none

variable [DecidableEq B]

def State.store (env : Env B) (s : State B) (r : ℕ) (off : ℤ) (size : ℕ) (v : BitVec 64) : Option (Outcome B) :=
  match s.regs r with
  | .ptr b o =>
    if env.Valid b (o + off) size then
      some (.next ⟨s.pc + 1, s.regs, writeMem s.mem b (o + off) (leBytes size v.toNat)⟩)
    else none
  | _ => none

def execute (env : Env B) (prog : List Insn) (insn : Insn) (s : State B) : Op → Option (Outcome B)
  | .ldImm64 =>
    if insn.src = 1 ∧ (prog[s.pc + 1]?).isSome then
      some (.next ⟨s.pc + 2, Function.update s.regs insn.dst (.map insn.imm), s.mem⟩)
    else none
  | .ldx size =>
    match s.regs insn.src with
    | .ptr b o =>
      if env.Valid b (o + insn.off) size then
        s.set insn.dst (.scalar (BitVec.ofNat 64 (leNat (readMem s.mem b (o + insn.off) size))))
      else none
    | _ => none
  | .st size => s.store env insn.dst insn.off size (insn.imm.signExtend 64)
  | .stx size =>
    match s.regs insn.src with
    | .scalar v => s.store env insn.dst insn.off size v
    | _ => none
  | .mov => s.set insn.dst (s.regs insn.src)
  | .movImm => s.set insn.dst (.scalar (insn.imm.signExtend 64))
  | .addImm =>
    match s.regs insn.dst with
    | .scalar v => s.set insn.dst (.scalar (v + insn.imm.signExtend 64))
    | .ptr b o => s.set insn.dst (.ptr b (o + insn.imm.toInt))
    | _ => none
  | .orImm =>
    match s.regs insn.dst with
    | .scalar v => s.set insn.dst (.scalar (v ||| insn.imm.signExtend 64))
    | _ => none
  | .andImm =>
    match s.regs insn.dst with
    | .scalar v => s.set insn.dst (.scalar (v &&& insn.imm.signExtend 64))
    | _ => none
  | .ja => s.jump insn.off
  | .jump cond =>
    match (s.regs insn.dst).test cond insn.imm with
    | some true => s.jump insn.off
    | some false => some (.next { s with pc := s.pc + 1 })
    | none => none
  | .call => if insn.imm = 1 then s.lookup env else none
  | .exit => some (.exit (s.regs 0) s.mem)

def step (env : Env B) (prog : List Insn) (s : State B) : Option (Outcome B) :=
  match prog[s.pc]? with
  | some insn =>
    match decode insn.code with
    | some op => execute env prog insn s op
    | none => none
  | none => none

def run (env : Env B) (prog : List Insn) : ℕ → State B → Option (Value B × Mem B)
  | 0, _ => none
  | fuel + 1, s =>
    match step env prog s with
    | some (.next s') => run env prog fuel s'
    | some (.exit r0 mem) => some (r0, mem)
    | none => none

inductive Steps (env : Env B) (prog : List Insn) : State B → State B → Prop
  | refl (s : State B) : Steps env prog s s
  | cons (s s' s'' : State B) (h : step env prog s = some (.next s')) (t : Steps env prog s' s'') : Steps env prog s s''

def Leads (env : Env B) (prog : List Insn) (s : State B) (Q : State B → Prop) : Prop := ∃ s', Steps env prog s s' ∧ Q s'

variable {env : Env B} {prog : List Insn} {s s' : State B} {Q : State B → Prop}

theorem Leads.done (h : Q s) : Leads env prog s Q := ⟨s, .refl s, h⟩

theorem Leads.cons (h : step env prog s = some (.next s')) (t : Leads env prog s' Q) : Leads env prog s Q := by
  obtain ⟨u, hs, hq⟩ := t
  exact ⟨u, .cons s s' u h hs, hq⟩

theorem run_of_steps (h : Steps env prog s s')
    (he : step env prog s' = some (.exit r0 mem)) : ∃ fuel, run env prog fuel s = some (r0, mem) := by
  induction h with
  | refl s => exact ⟨1, by simp [run, he]⟩
  | cons s s' s'' h t ih =>
    obtain ⟨fuel, hf⟩ := ih he
    exact ⟨fuel + 1, by simp [run, h, hf]⟩

theorem Leads.run {R : Value B → Mem B → Prop}
    (h : Leads env prog s fun s' => ∃ r0 mem, step env prog s' = some (.exit r0 mem) ∧ R r0 mem) :
    ∃ fuel r0 mem, run env prog fuel s = some (r0, mem) ∧ R r0 mem := by
  obtain ⟨s', hs, r0, mem, he, hr⟩ := h
  obtain ⟨fuel, hf⟩ := run_of_steps hs he
  exact ⟨fuel, r0, mem, hf, hr⟩

theorem run_fuel_mono (fuel extra : ℕ) (s : State B) (r : Value B × Mem B) (h : run env prog fuel s = some r) :
    run env prog (fuel + extra) s = some r := by
  induction fuel generalizing s with
  | zero => simp [run] at h
  | succ fuel ih =>
    rw [Nat.succ_add, run]
    rw [run] at h
    split at h
    · exact ih _ h
    · exact h
    · cases h

theorem run_deterministic (h : run env prog f s = some r) (h' : run env prog g s = some r') : r = r' := by
  have h1 := run_fuel_mono f g s r h
  have h2 := run_fuel_mono g f s r' h'
  rw [Nat.add_comm, h1] at h2
  exact Option.some.inj h2

end

end Honk.Lib.Bpf
