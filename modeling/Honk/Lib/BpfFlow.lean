import Honk.Lib.Bpf

namespace Honk.Lib.Bpf

open List

def Insn.width (insn : Insn) : ℕ := if decode insn.code = some .ldImm64 then 2 else 1

def Insn.isJump (insn : Insn) : Bool :=
  match decode insn.code with
  | some .ja | some (.jump _) => true
  | _ => false

def Insn.isEnd (insn : Insn) : Bool :=
  match decode insn.code with
  | some .ja | some .exit => true
  | _ => false

section

variable (prog : List Insn)

inductive Boundary : ℕ → Prop
  | start : Boundary 0
  | next (i : ℕ) (insn : Insn) (h : Boundary i) (hi : prog[i]? = some insn) : Boundary (i + insn.width)

inductive Edge (i : ℕ) : ℤ → Prop
  | fall (insn : Insn) (hi : prog[i]? = some insn) (h : insn.isEnd = false) : Edge i (i + insn.width)
  | jump (insn : Insn) (hi : prog[i]? = some insn) (h : insn.isJump = true) : Edge i (i + 1 + insn.off)

structure WellFormed : Prop where
  nonempty : 0 < prog.length
  lands : ∀ i t, Boundary prog i → Edge prog i t → ∃ j : ℕ, t = j ∧ Boundary prog j ∧ j < prog.length
  reached : ∀ i, Boundary prog i → i < prog.length → Relation.ReflTransGen (fun i j : ℕ => Edge prog i j) 0 i
  forward : ∀ i t, Boundary prog i → Edge prog i t → (i : ℤ) < t

end

variable {prog : List Insn}

theorem width_pos (insn : Insn) : 0 < insn.width := by
  unfold Insn.width
  split
  · exact two_pos
  · exact one_pos

theorem Boundary.mono (h : Boundary prog i) (hl : prog <+: prog') : Boundary prog' i := by
  induction h with
  | start => exact .start
  | next i insn _ hi ih =>
    obtain ⟨rest, rfl⟩ := hl
    exact .next i insn ih (getElem?_append_left (List.getElem?_eq_some_iff.mp hi).1 ▸ hi)

theorem width_of_isEnd {insn : Insn} (h : insn.isEnd = true) : insn.width = 1 := by
  unfold Insn.isEnd at h
  unfold Insn.width
  split at h <;> simp_all

theorem flow_congr {insn insn' : Insn} (h : insn'.code = insn.code) :
    insn'.width = insn.width ∧ insn'.isJump = insn.isJump ∧ insn'.isEnd = insn.isEnd := by
  unfold Insn.width Insn.isJump Insn.isEnd
  rw [h]
  exact ⟨rfl, rfl, rfl⟩

theorem Boundary.congr {prog' : List Insn} (hc : ∀ i : ℕ, prog'[i]?.map Insn.code = prog[i]?.map Insn.code) {i : ℕ}
    (h : Boundary prog i) : Boundary prog' i := by
  induction h with
  | start => exact .start
  | next i insn _ hi ih =>
    have hi' := hc i
    rw [hi, Option.map_some] at hi'
    obtain ⟨insn', hin', he⟩ := Option.map_eq_some_iff.mp hi'
    exact (flow_congr he).1 ▸ .next i insn' ih hin'

structure Whole (prog : List Insn) : Prop where
  ends : Boundary prog prog.length
  bounded : ∀ i, Boundary prog i → i ≤ prog.length

section

variable {insn : Insn} {tail : List Insn}

section

variable (h : Whole prog) (hwidth : insn.width = tail.length + 1)
include h hwidth

theorem Whole.boundary_append (hi : Boundary (prog ++ insn :: tail) i) : Boundary prog i ∨ i = (prog ++ insn :: tail).length := by
  induction hi with
  | start => exact .inl .start
  | next i found _ hf ih =>
    have hl := (List.getElem?_eq_some_iff.mp hf).1
    obtain hi | rfl := ih
    · obtain hs | rfl := (h.bounded i hi).lt_or_eq
      · rw [getElem?_append_left hs] at hf
        exact .inl (.next i found hi hf)
      · rw [getElem?_append_right le_rfl, Nat.sub_self, getElem?_cons_zero] at hf
        rw [← Option.some.inj hf, hwidth, length_append, length_cons]
        exact .inr rfl
    · exact absurd hl (lt_irrefl _)

theorem Whole.inside_append (hi : Boundary (prog ++ insn :: tail) i) (hf : (prog ++ insn :: tail)[i]? = some found) :
    Boundary prog i ∧ prog[i]? = some found ∨ i = prog.length ∧ found = insn := by
  have hl := (List.getElem?_eq_some_iff.mp hf).1
  obtain hi | rfl := h.boundary_append hwidth hi
  · obtain hs | rfl := (h.bounded i hi).lt_or_eq
    · rw [getElem?_append_left hs] at hf
      exact .inl ⟨hi, hf⟩
    · rw [getElem?_append_right le_rfl, Nat.sub_self, getElem?_cons_zero] at hf
      exact .inr ⟨rfl, (Option.some.inj hf).symm⟩
  · exact absurd hl (lt_irrefl _)

theorem Whole.append : Whole (prog ++ insn :: tail) := by
  constructor
  · rw [length_append, length_cons, ← hwidth]
    refine .next _ insn (h.ends.mono (prefix_append _ _)) ?_
    rw [getElem?_append_right le_rfl, Nat.sub_self, getElem?_cons_zero]
  intro i hi
  obtain hi | rfl := h.boundary_append hwidth hi
  · have hl := h.bounded i hi
    rw [length_append]
    omega
  · exact le_rfl

end

end

variable {B : Type}

theorem State.jump_next {s s' : State B} {off : ℤ} (h : s.jump off = some (.next s')) : (s'.pc : ℤ) = s.pc + 1 + off := by
  unfold State.jump at h
  split at h
  · rename_i hpo
    cases h
    exact Int.toNat_of_nonneg hpo
  · cases h

variable {env : Env B}

theorem State.lookup_next {s s' : State B} (h : s.lookup env = some (.next s')) : s'.pc = s.pc + 1 := by
  revert h
  fun_cases State.lookup <;> rintro ⟨⟩
  rfl

variable [DecidableEq B]

theorem State.store_next {s s' : State B} {r : ℕ} {off : ℤ} {size : ℕ} {v : BitVec 64} (h : s.store env r off size v = some (.next s')) :
    s'.pc = s.pc + 1 := by
  revert h
  fun_cases State.store <;> rintro ⟨⟩
  rfl

theorem edge_of_step {s s' : State B} (h : step env prog s = some (.next s')) : Edge prog s.pc s'.pc := by
  unfold step at h
  split at h
  · rename_i insn hin
    split at h
    · rename_i op ho
      have hn : s'.pc = s.pc + insn.width → insn.isEnd = false → Edge prog s.pc s'.pc := by
        intro hpc hen
        rw [hpc, Nat.cast_add]
        exact .fall insn hin hen
      have hpl : ∀ op', decode insn.code = some op' → op' ≠ .ldImm64 → op' ≠ .ja → op' ≠ .exit → s'.pc = s.pc + 1 →
          Edge prog s.pc s'.pc := by
        intro op' ho' hwide hja he hpc
        refine hn ?_ ?_
        · rw [Insn.width, ho', if_neg (fun heq => hwide (Option.some.inj heq))]
          exact hpc
        unfold Insn.isEnd
        rw [ho']
        split
        · exact absurd (Option.some.inj ‹_›) hja
        · exact absurd (Option.some.inj ‹_›) he
        · rfl
      have hj : insn.isJump = true → s.jump insn.off = some (.next s') → Edge prog s.pc s'.pc := by
        intro hj hs
        rw [State.jump_next hs]
        exact .jump insn hin hj
      revert h
      fun_cases execute env prog insn s op with
      | case1 =>
        rintro ⟨⟩
        exact hn (by rw [Insn.width, ho, if_pos rfl]) (by simp [Insn.isEnd, ho])
      | case3 | case9 | case10 | case11 | case12 | case14 | case16 | case20 =>
        rintro ⟨⟩
        exact hpl _ ho nofun nofun nofun rfl
      | case6 | case7 => exact fun h => hpl _ ho nofun nofun nofun (State.store_next h)
      | case18 | case19 => exact hj (by simp [Insn.isJump, ho])
      | case22 => exact fun h => hpl _ ho nofun nofun nofun (State.lookup_next h)
      | _ => exact nofun
    · cases h
  · cases h

theorem WellFormed.steps_lt (h : WellFormed prog) {states : ℕ → State B} (hs : (states 0).pc = 0) {n : ℕ}
    (hst : ∀ i < n, step env prog (states i) = some (.next (states (i + 1)))) : n < prog.length := by
  have hr : ∀ i ≤ n, i ≤ (states i).pc ∧ Boundary prog (states i).pc ∧ (states i).pc < prog.length := by
    intro i
    induction i with
    | zero =>
      intro _
      rw [hs]
      exact ⟨le_rfl, .start, h.nonempty⟩
    | succ i ih =>
      intro hi
      obtain ⟨hle, hb, -⟩ := ih (by omega)
      have he := edge_of_step (hst i hi)
      obtain ⟨j, hj, hb', hl⟩ := h.lands _ _ hb he
      have hf := h.forward _ _ hb he
      obtain rfl : (states (i + 1)).pc = j := by exact_mod_cast hj
      exact ⟨by omega, hb', hl⟩
  obtain ⟨hle, -, hl⟩ := hr n le_rfl
  omega

end Honk.Lib.Bpf
