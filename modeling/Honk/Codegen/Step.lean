import Honk.Codegen.Emission

namespace Honk.Codegen

open Honk.Lib Honk.Lib.Bpf AsmM List
open Function (update)

variable {B : Type} [DecidableEq B] {env : Env B} {z : Assembler} {prog : List Insn} {a b : Assembler} {u : Unit}
  {regs : ℕ → Value B} {mem : Mem B} {Q : State B → Prop}

variable {dst src : ℕ} {off o : ℤ} {imm fd : BitVec 32} {block : B} {l target : Label} {op : BitVec 8} {taken : Bool}

theorem leads_emit (hz : Linked z prog) (h : Emit z (emit code dst src off imm) a u b) {op : Op} (hd : decode code = some op)
    (he : execute env prog ⟨code, dst, src, off, imm⟩ ⟨a.pc, regs, mem⟩ op = some (.next ⟨a.pc + 1, regs', mem'⟩))
    (k : Leads env prog ⟨b.pc, regs', mem'⟩ Q) : Leads env prog ⟨a.pc, regs, mem⟩ Q := by
  obtain ⟨hf, hpc⟩ := hz.fetch h
  rw [hpc] at k
  apply Leads.cons _ k
  rw [step]
  simp only [hf, hd, he]

theorem leBytes_mod : leBytes n (v % 256 ^ n) = leBytes n v := by
  have h := leBytes_leNat (leBytes_length n v)
  rwa [leNat_leBytes] at h

theorem leBytes_signExtend : leBytes 4 (imm.signExtend 64).toNat = leBytes 4 imm.toNat := by
  have h : (imm.signExtend 64).toNat % 256 ^ 4 = imm.toNat := by
    have hs := BitVec.toNat_setWidth 32 (imm.signExtend 64)
    have he : (imm.signExtend 64).setWidth 32 = imm := by
      ext i hi
      simp [BitVec.getElem_signExtend, hi, show i < 64 by omega]
    rw [he] at hs
    rw [hs]
    norm_num
  rw [← leBytes_mod, h]

section

variable (hz : Linked z prog)
include hz

theorem leads_ldxW (h : Emit z (ldxW dst src off) a u b) (hs : regs src = .ptr block o) (hv : env.Valid block (o + off) 4)
    (k : Leads env prog ⟨b.pc, update regs dst (.scalar ((word mem block (o + off)).setWidth 64)), mem⟩ Q) :
    Leads env prog ⟨a.pc, regs, mem⟩ Q := by
  have hw : BitVec.ofNat 64 (leNat (readMem mem block (o + off) 4)) = (word mem block (o + off)).setWidth 64 := by
    rw [← word_toNat]
    exact BitVec.ofNat_toNat ..
  apply leads_emit hz h rfl _ k
  simp only [execute, hs, hv, ↓reduceIte, State.set, hw]

theorem leads_ldxB (h : Emit z (ldxB dst src off) a u b) (hs : regs src = .ptr block o) (hv : env.Valid block (o + off) 1)
    (k : Leads env prog ⟨b.pc, update regs dst (.scalar ((mem block (o + off)).setWidth 64)), mem⟩ Q) :
    Leads env prog ⟨a.pc, regs, mem⟩ Q := by
  have hw : BitVec.ofNat 64 (leNat (readMem mem block (o + off) 1)) = (mem block (o + off)).setWidth 64 := by
    simp only [readMem, range_one, map_cons, map_nil, leNat, Nat.cast_zero, add_zero, Nat.mul_zero]
    exact BitVec.ofNat_toNat ..
  apply leads_emit hz h rfl _ k
  simp only [execute, hs, hv, ↓reduceIte, State.set, hw]

theorem leads_ldxDw (h : Emit z (ldxDw dst src off) a u b) (hs : regs src = .ptr block o)
    (hv : env.Valid block (o + off) 8) (k : Leads env prog
      ⟨b.pc, update regs dst (.scalar (BitVec.ofNat 64 (leNat (readMem mem block (o + off) 8)))), mem⟩ Q) :
    Leads env prog ⟨a.pc, regs, mem⟩ Q := by
  apply leads_emit hz h rfl _ k
  simp only [execute, hs, hv, ↓reduceIte, State.set]

theorem leads_stImm (h : Emit z (stImm dst off imm) a u b) (hd : regs dst = .ptr block o) (hv : env.Valid block (o + off) 4)
    (k : Leads env prog ⟨b.pc, regs, writeMem mem block (o + off) (leBytes 4 imm.toNat)⟩ Q) :
    Leads env prog ⟨a.pc, regs, mem⟩ Q := by
  apply leads_emit hz h rfl _ k
  simp only [execute, State.store, hd, hv, ↓reduceIte, leBytes_signExtend]

theorem leads_stxW (h : Emit z (stxW dst src off) a u b)
    (hs : regs src = .scalar v) (hd : regs dst = .ptr block o) (hv : env.Valid block (o + off) 4)
    (k : Leads env prog ⟨b.pc, regs, writeMem mem block (o + off) (leBytes 4 v.toNat)⟩ Q) : Leads env prog ⟨a.pc, regs, mem⟩ Q := by
  apply leads_emit hz h rfl _ k
  simp only [execute, hs, State.store, hd, hv, ↓reduceIte]

theorem leads_stxDw (h : Emit z (stxDw dst src off) a u b)
    (hs : regs src = .scalar v) (hd : regs dst = .ptr block o) (hv : env.Valid block (o + off) 8)
    (k : Leads env prog ⟨b.pc, regs, writeMem mem block (o + off) (leBytes 8 v.toNat)⟩ Q) : Leads env prog ⟨a.pc, regs, mem⟩ Q := by
  apply leads_emit hz h rfl _ k
  simp only [execute, hs, State.store, hd, hv, ↓reduceIte]

theorem leads_movReg (h : Emit z (movReg dst src) a u b) (k : Leads env prog ⟨b.pc, update regs dst (regs src), mem⟩ Q) :
    Leads env prog ⟨a.pc, regs, mem⟩ Q :=
  leads_emit hz h rfl rfl k

theorem leads_movImm (h : Emit z (movImm dst imm) a u b)
    (k : Leads env prog ⟨b.pc, update regs dst (.scalar (imm.signExtend 64)), mem⟩ Q) : Leads env prog ⟨a.pc, regs, mem⟩ Q :=
  leads_emit hz h rfl rfl k

theorem leads_addImm (h : Emit z (addImm dst imm) a u b) (hd : regs dst = .ptr block o)
    (k : Leads env prog ⟨b.pc, update regs dst (.ptr block (o + imm.toInt)), mem⟩ Q) : Leads env prog ⟨a.pc, regs, mem⟩ Q := by
  apply leads_emit hz h rfl _ k
  simp only [execute, hd, State.set]

theorem leads_andImm (h : Emit z (andImm dst imm) a u b) (hd : regs dst = .scalar v)
    (k : Leads env prog ⟨b.pc, update regs dst (.scalar (v &&& imm.signExtend 64)), mem⟩ Q) :
    Leads env prog ⟨a.pc, regs, mem⟩ Q := by
  apply leads_emit hz h rfl _ k
  simp only [execute, hd, State.set]

theorem leads_orImm (h : Emit z (orImm dst imm) a u b) (hd : regs dst = .scalar v)
    (k : Leads env prog ⟨b.pc, update regs dst (.scalar (v ||| imm.signExtend 64)), mem⟩ Q) :
    Leads env prog ⟨a.pc, regs, mem⟩ Q := by
  apply leads_emit hz h rfl _ k
  simp only [execute, hd, State.set]

end

theorem leads_label (h : Emit z label a l b) (k : Leads env prog ⟨b.pc, regs, mem⟩ Q) : Leads env prog ⟨a.pc, regs, mem⟩ Q := by
  rwa [(emit_label h).1] at k

theorem leads_source (h : Emit z (source line text) a u b)
    (k : Leads env prog ⟨b.pc, regs, mem⟩ Q) : Leads env prog ⟨a.pc, regs, mem⟩ Q := by
  rwa [(emit_source h).1] at k

section

variable (hz : Linked z prog)
include hz

theorem leads_bind (h : Emit z (AsmM.bind l) a u b) (k : Leads env prog ⟨b.pc, regs, mem⟩ Q) : Leads env prog ⟨a.pc, regs, mem⟩ Q := by
  rwa [(hz.addr_bind h).2] at k

theorem leads_at_label (h : Emit z (AsmM.bind l) a u b) (ht : z.addr l = some t)
    (k : Leads env prog ⟨b.pc, regs, mem⟩ Q) : Leads env prog ⟨t, regs, mem⟩ Q := by
  obtain ⟨hl, hpc⟩ := hz.addr_bind h
  rw [hl] at ht
  cases ht
  rwa [hpc] at k

theorem leads_ja (h : Emit z (ja target) a u b)
    (k : ∀ t, z.addr target = some t → Leads env prog ⟨t, regs, mem⟩ Q) : Leads env prog ⟨a.pc, regs, mem⟩ Q := by
  obtain ⟨t, ht, hf, -⟩ := hz.fetchJump h
  have hd : (a.pc : ℤ) + 1 + ((t : ℤ) - a.pc - 1) = t := by ring
  apply Leads.cons _ (k t ht)
  rw [step]
  simp only [hf]
  change execute env prog _ _ .ja = _
  simp only [execute, State.jump, hd, Nat.cast_nonneg, ↓reduceIte, Int.toNat_natCast]

theorem leads_jump (h : Emit z (jump op dst imm target) a u b) (cond : Cond)
    (hc : decode (bpfJmp ||| op ||| bpfK) = some (.jump cond)) (ht : (regs dst).test cond imm = some taken)
    (k : taken = true → ∀ t, z.addr target = some t → Leads env prog ⟨t, regs, mem⟩ Q)
    (k' : taken = false → Leads env prog ⟨b.pc, regs, mem⟩ Q) : Leads env prog ⟨a.pc, regs, mem⟩ Q := by
  obtain ⟨t, ha, hf, hpc⟩ := hz.fetchJump h
  have hd : (a.pc : ℤ) + 1 + ((t : ℤ) - a.pc - 1) = t := by ring
  cases taken with
  | true =>
    apply Leads.cons _ (k rfl t ha)
    rw [step]
    simp only [hf, hc, execute, ht, State.jump, hd, Nat.cast_nonneg, ↓reduceIte, Int.toNat_natCast]
  | false =>
    rw [hpc] at k'
    apply Leads.cons _ (k' rfl)
    rw [step]
    simp only [hf, hc, execute, ht]

theorem leads_branch (h : Emit z (jump op dst imm onTrue) a v c) (h' : Emit z (ja onFalse) c u b) {cond : Cond}
    (hc : decode (bpfJmp ||| op ||| bpfK) = some (.jump cond)) (ht : (regs dst).test cond imm = some taken)
    (k : ∀ t, z.addr (if taken then onTrue else onFalse) = some t → Leads env prog ⟨t, regs, mem⟩ Q) :
    Leads env prog ⟨a.pc, regs, mem⟩ Q := by
  apply leads_jump hz h cond hc ht
  · rintro rfl t ha
    exact k t ha
  · rintro rfl
    exact leads_ja hz h' k

theorem leads_call (h : Emit z (call 1) a u b) (h1 : regs 1 = .map fd) (h2 : regs 2 = .ptr block o)
    {map : MapDef B} (hm : env.maps fd = some map) (hv : env.Valid block o map.keySize)
    (k : Leads env prog ⟨b.pc, clobber regs (map.lookup (readMem mem block o map.keySize)), mem⟩ Q) :
    Leads env prog ⟨a.pc, regs, mem⟩ Q := by
  apply leads_emit hz h rfl _ k
  simp only [execute, State.lookup, h1, h2, hm, hv, ↓reduceIte]

theorem step_exit (h : Emit z exit a u b) : step env prog ⟨a.pc, regs, mem⟩ = some (.exit (regs 0) mem) := by
  obtain ⟨hf, -⟩ := hz.fetch h
  rw [step]
  simp only [hf]
  rfl

end

theorem leads_forEach (f : α → AsmM Unit) (P : List α → (ℕ → Value B) → Mem B → Prop) (xs : List α)
    (hs : ∀ done x rest, done ++ x :: rest = xs → ∀ a u b regs mem, Emit z (f x) a u b → P done regs mem →
      (∀ regs' mem', P (done ++ [x]) regs' mem' → Leads env prog ⟨b.pc, regs', mem'⟩ Q) → Leads env prog ⟨a.pc, regs, mem⟩ Q)
    (h : Emit z (forEach f xs) a u b) (h0 : P [] regs mem)
    (k : ∀ regs' mem', P xs regs' mem' → Leads env prog ⟨b.pc, regs', mem'⟩ Q) : Leads env prog ⟨a.pc, regs, mem⟩ Q := by
  -- the loop from any point of the list on
  have key : ∀ rest done, done ++ rest = xs → ∀ a u b regs mem, Emit z (forEach f rest) a u b → P done regs mem →
      (∀ regs' mem', P xs regs' mem' → Leads env prog ⟨b.pc, regs', mem'⟩ Q) →
      Leads env prog ⟨a.pc, regs, mem⟩ Q := by
    intro rest
    induction rest with
    | nil =>
      intro done hd a u b regs mem h hp k
      rw [append_nil] at hd
      obtain ⟨rfl, -⟩ := emit_forEach_nil.mp h
      exact k regs mem (hd ▸ hp)
    | cons x rest ih =>
      intro done hd a u b regs mem h hp k
      obtain ⟨_, c, hx, hr⟩ := emit_forEach_cons.mp h
      apply hs done x rest hd a _ c regs mem hx hp
      intro regs' mem' hp'
      exact ih (done ++ [x]) (by simpa using hd) c u b regs' mem' hr hp' k
  exact key xs [] rfl a u b regs mem h h0 k

theorem leads_forEach_range' (f : ℕ → AsmM Unit) (P : ℕ → (ℕ → Value B) → Mem B → Prop) (s n : ℕ)
    (hs : ∀ i, s ≤ i → i < s + n → ∀ a u b regs mem, Emit z (f i) a u b → P i regs mem →
      (∀ regs' mem', P (i + 1) regs' mem' → Leads env prog ⟨b.pc, regs', mem'⟩ Q) → Leads env prog ⟨a.pc, regs, mem⟩ Q)
    (h : Emit z (forEach f (List.range' s n)) a u b) (h0 : P s regs mem)
    (k : ∀ regs' mem', P (s + n) regs' mem' → Leads env prog ⟨b.pc, regs', mem'⟩ Q) : Leads env prog ⟨a.pc, regs, mem⟩ Q := by
  induction n generalizing s a regs mem with
  | zero =>
    obtain ⟨rfl, -⟩ := emit_forEach_nil.mp h
    exact k regs mem h0
  | succ n ih =>
    obtain ⟨_, c, hx, hr⟩ := emit_forEach_cons.mp h
    apply hs s le_rfl (by omega) a _ c regs mem hx h0
    intro regs' mem' hp'
    apply ih (s + 1) (fun i h1 h2 => hs i (by omega) (by omega)) hr hp'
    intro regs'' mem'' hp''
    exact k regs'' mem'' (by rwa [Nat.add_right_comm, Nat.add_assoc] at hp'')

theorem leads_forEach_range (f : ℕ → AsmM Unit) (P : ℕ → (ℕ → Value B) → Mem B → Prop) (n : ℕ)
    (hs : ∀ i < n, ∀ a u b regs mem, Emit z (f i) a u b → P i regs mem →
      (∀ regs' mem', P (i + 1) regs' mem' → Leads env prog ⟨b.pc, regs', mem'⟩ Q) → Leads env prog ⟨a.pc, regs, mem⟩ Q)
    (h : Emit z (forEach f (List.range n)) a u b) (h0 : P 0 regs mem)
    (k : ∀ regs' mem', P n regs' mem' → Leads env prog ⟨b.pc, regs', mem'⟩ Q) : Leads env prog ⟨a.pc, regs, mem⟩ Q := by
  rw [range_eq_range'] at h
  apply leads_forEach_range' f P 0 n (fun i _ hi => hs i (by omega)) h h0
  rwa [Nat.zero_add]

theorem leads_loadMapFd (hz : Linked z prog)
    (h : Emit z (emit (bpfLd ||| bpfDw ||| bpfImm) 1 1 0 fd) a u a') (h' : Emit z (emit 0 0 0 0 0) a' u b)
    (k : Leads env prog ⟨b.pc, update regs 1 (.map fd), mem⟩ Q) : Leads env prog ⟨a.pc, regs, mem⟩ Q := by
  obtain ⟨hf, hpc⟩ := hz.fetch h
  obtain ⟨hf', hpc'⟩ := hz.fetch h'
  rw [hpc] at hf'
  rw [hpc', hpc] at k
  apply Leads.cons _ k
  rw [step]
  simp only [hf]
  change execute env prog _ _ .ldImm64 = _
  simp only [execute, hf', Option.isSome_some, and_self, ↓reduceIte]

end Honk.Codegen
