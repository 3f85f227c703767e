import Honk.Lib.BpfFlow
import Honk.Codegen.Assembler

namespace Honk.Codegen

open Honk.Lib Honk.Lib.Bpf AsmM List

namespace Assembler

def Lands (a : Assembler) (p : ℕ) : Prop := ∃ k l, (k, l) ∈ a.fixups ∧ (l, p) ∈ a.binds

/-- The code so far is a sequence of whole instructions, its jumps go forward, and control comes to each instruction;
`live` says whether it comes to the end as well. -/
structure Laid (a : Assembler) (live : Bool) : Prop where
  whole : Whole a.insns
  binds : ∀ l p, (l, p) ∈ a.binds → l < a.labels ∧ Boundary a.insns p
  fixups : ∀ k l, (k, l) ∈ a.fixups → l < a.labels ∧ ∀ p, (l, p) ∈ a.binds → k < p
  sources : ∀ k l, (k, l) ∈ a.fixups → Boundary a.insns k ∧ ∃ insn, a.insns[k]? = some insn ∧ insn.isJump = true
  jumps : ∀ i insn, Boundary a.insns i → a.insns[i]? = some insn → insn.isJump = true → ∃ l, (i, l) ∈ a.fixups
  closed : ∀ i insn, Boundary a.insns i → a.insns[i]? = some insn → insn.isEnd = true → i + 1 < a.insns.length ∨ live = true →
    a.Lands (i + 1)
  once : (a.binds.map Prod.fst).Nodup

theorem Laid.append {a : Assembler} (h : a.Laid true) (b : Assembler) {insn : Insn} (tail : List Insn) (added : List (ℕ × Label))
    (hw : insn.width = tail.length + 1) (hin : b.insns = a.insns ++ insn :: tail) (hb : b.binds = a.binds)
    (hla : b.labels = a.labels) (hfi : b.fixups = a.fixups ++ added)
    (ha : ∀ f ∈ added, (f.2 < a.labels ∧ ∀ p, (f.2, p) ∉ a.binds) ∧ f.1 = a.insns.length ∧ insn.isJump = true)
    (hju : insn.isJump = true → ∃ l, (a.insns.length, l) ∈ added)
    {live : Bool} (hli : insn.isEnd = true → live = false) : b.Laid live := by
  have hle : a.insns <+: b.insns := ⟨_, hin.symm⟩
  have hat : b.insns[a.insns.length]? = some insn := by simp [hin]
  have hinside : ∀ i found, Boundary b.insns i → b.insns[i]? = some found →
      Boundary a.insns i ∧ a.insns[i]? = some found ∨ i = a.insns.length ∧ found = insn := by
    intro i found hi hf
    rw [hin] at hi hf
    exact h.whole.inside_append hw hi hf
  refine ⟨?_, fun l p hp => ?_, fun k l hk => ?_, fun k l hk => ?_, fun i found hi hf hj => ?_,
    fun i found hi hf he hlt => ?_, by rw [hb]; exact h.once⟩
  · rw [hin]
    exact h.whole.append hw
  · rw [hb] at hp
    rw [hla]
    exact ⟨(h.binds l p hp).1, (h.binds l p hp).2.mono hle⟩
  · rw [hb, hla]
    rw [hfi] at hk
    obtain hk | hk := mem_append.mp hk
    · exact h.fixups k l hk
    · exact ⟨(ha _ hk).1.1, fun p hp => absurd hp ((ha _ hk).1.2 p)⟩
  · rw [hfi] at hk
    obtain hk | hk := mem_append.mp hk
    · obtain ⟨hbo, found, hf, hj⟩ := h.sources k l hk
      have hlt := (List.getElem?_eq_some_iff.mp hf).1
      exact ⟨hbo.mono hle, found, by rw [hin, getElem?_append_left hlt, hf], hj⟩
    · obtain ⟨-, rfl, hj⟩ := ha _ hk
      exact ⟨h.whole.ends.mono hle, insn, hat, hj⟩
  · rw [hfi]
    obtain ⟨hi, hf⟩ | ⟨rfl, rfl⟩ := hinside i found hi hf
    · obtain ⟨l, hl⟩ := h.jumps i found hi hf hj
      exact ⟨l, mem_append_left _ hl⟩
    · obtain ⟨l, hl⟩ := hju hj
      exact ⟨l, mem_append_right _ hl⟩
  obtain ⟨hi, hf⟩ | ⟨rfl, rfl⟩ := hinside i found hi hf
  · obtain ⟨k, l, hk, hp⟩ := h.closed i found hi hf he (.inr rfl)
    exact ⟨k, l, hfi ▸ mem_append_left _ hk, hb ▸ hp⟩
  -- nothing follows an instruction that ends the flow
  have ho : found.width = 1 := width_of_isEnd he
  have hlength : b.insns.length = a.insns.length + found.width := by simp [hin, hw]
  obtain hlt | hlt := hlt
  · omega
  · exact nomatch (hli he).symm.trans hlt

end Assembler

/-- The labels in `free` are still to be bound, and those in `used` have been jumped to. -/
structure At (free used : List Label) (live : Bool) (a : Assembler) : Prop where
  laid : a.Laid live
  nodup : free.Nodup
  unbound : ∀ l ∈ free, l < a.labels ∧ ∀ p, (l, p) ∉ a.binds
  jumped : ∀ l ∈ used, ∃ k, (k, l) ∈ a.fixups

def Flows {α : Type} (pre : Assembler → Prop) (m : AsmM α) (post : α → Assembler → Prop) : Prop :=
  ∀ a x b, pre a → m.1 a = .ok (x, b) → post x b

def Through (m : AsmM Unit) : Prop := ∀ free used, Flows (At free used true) m fun _ => At free used true

def Branches (m : AsmM Unit) (onTrue onFalse : Label) : Prop :=
  ∀ free used, onTrue ∈ free → onFalse ∈ free → Flows (At free used true) m fun _ => At free (onTrue :: onFalse :: used) false

variable {α β : Type} {free used used' : List Label} {live : Bool} {a : Assembler}

theorem At.forget (h : At free used live a) (hs : ∀ l ∈ used', l ∈ used) : At free used' live a :=
  ⟨h.laid, h.nodup, h.unbound, fun l hl => h.jumped l (hs l hl)⟩

variable {l target : Label} {pre : Assembler → Prop} {code : BitVec 8} {f : α → AsmM Unit}

theorem At.drop (h : At (l :: free) used live a) : At free used live a :=
  ⟨h.laid, h.nodup.of_cons, fun l' hl' => h.unbound l' (mem_cons_of_mem _ hl'), h.jumped⟩

theorem flows_pre (hpr : ∀ a, pre a → pre' a) (h : Flows pre' m post) : Flows pre m post := fun a x b ha hm => h a x b (hpr a ha) hm

theorem flows_post (h : Flows pre m post)
    (hpo : ∀ x b, post x b → post' x b) : Flows pre m post' := fun a x b ha hm => hpo x b (h a x b ha hm)

theorem flows_seq (hm : Flows pre m middle) (hk : ∀ x, Flows (middle x) (k x) post) : Flows pre (m >>= k) post := by
  intro a y c ha h
  obtain ⟨x, b, hx, hy⟩ := andThen_eq_ok.mp h
  exact hk x b y c (hm a x b ha hx) hy

theorem flows_pure : Flows pre (pure () : AsmM Unit) fun _ => pre := by
  intro a x b ha h
  cases h
  exact ha

def straight (code : BitVec 8) : Bool :=
  match decode code with
  | some .ldImm64 | some .ja | some (.jump _) | some .exit => false
  | _ => true

theorem straight_insn (insn : Insn) (h : straight insn.code = true) : insn.width = 1 ∧ insn.isJump = false ∧ insn.isEnd = false := by
  unfold Insn.width Insn.isJump Insn.isEnd
  unfold straight at h
  split at h
  · cases h
  · cases h
  · cases h
  · cases h
  rename_i hw hja hj he
  refine ⟨if_neg hw, ?_, ?_⟩
  · split
    · exact absurd ‹_› hja
    · exact absurd ‹_› (hj _)
    · rfl
  split
  · exact absurd ‹_› hja
  · exact absurd ‹_› he
  · rfl

theorem through_emit (h : straight code = true) {dst src : ℕ} {off : ℤ} {imm : BitVec 32} : Through (emit code dst src off imm) := by
  intro free used a x b ha hm
  simp only [emit] at hm
  split at hm <;> cases hm
  obtain ⟨hw, hju, hen⟩ := straight_insn ⟨code, dst, src, off, imm⟩ h
  refine ⟨ha.laid.append (a.push _) [] [] hw rfl rfl rfl (by simp [Assembler.push]) (by simp) ?_ ?_, ha.nodup, ha.unbound, ha.jumped⟩
  · exact fun hj => by cases hju.symm.trans hj
  · exact fun he => by cases hen.symm.trans he

structure Assembler.Ended (a : Assembler) : Prop where
  nonempty : 0 < a.insns.length
  bound : ∀ l p, (l, p) ∈ a.binds → p < a.insns.length
  last : ∀ i insn, Boundary a.insns i → a.insns[i]? = some insn → i + insn.width = a.insns.length → insn.isEnd = true

theorem flows_exit : Flows (At free used true) exit fun _ a => At free used false a ∧ a.Ended := by
  intro a x b ha hm
  simp only [AsmM.exit, emit] at hm
  split at hm <;> cases hm
  refine ⟨⟨ha.laid.append (a.push _) [] [] rfl rfl rfl rfl (by simp [Assembler.push]) nofun (fun hj => absurd hj (by decide))
    fun _ => rfl, ha.nodup, ha.unbound, ha.jumped⟩, ?_⟩
  have hl : (a.push ⟨bpfJmp ||| bpfExit, 0, 0, 0, 0⟩).insns.length = a.insns.length + 1 := by simp [Assembler.push]
  refine ⟨by omega, fun l p hp => ?_, fun i insn hi hf he => ?_⟩
  · have hb := ha.laid.whole.bounded p (ha.laid.binds l p hp).2
    omega
  obtain ⟨hi, hf⟩ | ⟨-, rfl⟩ := ha.laid.whole.inside_append rfl hi hf
  · have hb := ha.laid.whole.bounded _ (.next i insn hi hf)
    omega
  · rfl

theorem flows_emitJump {dst : ℕ} {imm : BitVec 32} (ht : target ∈ free) (hw : ∀ off, (⟨code, dst, 0, off, imm⟩ : Insn).width = 1)
    (hj : ∀ off, (⟨code, dst, 0, off, imm⟩ : Insn).isJump = true)
    (he : ∀ off, (⟨code, dst, 0, off, imm⟩ : Insn).isEnd = true → live = false) :
    Flows (At free used true) (emitJump code dst imm target) fun _ => At free (target :: used) live := by
  intro a x b ha hm
  simp only [emitJump] at hm
  split at hm <;> cases hm
  have hla : (a.pushJump ⟨code, dst, 0, 0, imm⟩ target).Laid live := by
    refine ha.laid.append (a.pushJump _ target) [] [(a.insns.length, target)] (hw 0) rfl rfl rfl rfl ?_ (fun _ => ⟨target, mem_singleton.mpr rfl⟩) (he 0)
    intro f hf
    obtain rfl := mem_singleton.mp hf
    exact ⟨ha.unbound target ht, rfl, hj 0⟩
  refine ⟨hla, ha.nodup, ha.unbound, fun l hl => ?_⟩
  obtain rfl | hl := mem_cons.mp hl
  · exact ⟨a.insns.length, mem_append_right _ (mem_singleton.mpr rfl)⟩
  · obtain ⟨k, hk⟩ := ha.jumped l hl
    exact ⟨k, mem_append_left _ hk⟩

theorem flows_ja (ht : target ∈ free) : Flows (At free used true) (ja target) fun _ => At free (target :: used) false :=
  flows_emitJump ht (fun _ => rfl) (fun _ => rfl) fun _ _ => rfl

def conditional (op : BitVec 8) : Bool := op ∈ [bpfJeq, bpfJgt, bpfJge, bpfJset, bpfJne]

theorem flows_jump (ho : conditional op = true) {dst : ℕ} {imm : BitVec 32} (ht : target ∈ free) :
    Flows (At free used true) (jump op dst imm target) fun _ => At free (target :: used) true := by
  have hc : ∀ off, (⟨bpfJmp ||| op ||| bpfK, dst, 0, off, imm⟩ : Insn).width = 1 ∧
      (⟨bpfJmp ||| op ||| bpfK, dst, 0, off, imm⟩ : Insn).isJump = true ∧ (⟨bpfJmp ||| op ||| bpfK, dst, 0, off, imm⟩ : Insn).isEnd = false := by
    intro off
    simp only [conditional, mem_cons, not_mem_nil, or_false, decide_eq_true_eq] at ho
    obtain rfl | rfl | rfl | rfl | rfl := ho <;> exact ⟨rfl, rfl, rfl⟩
  exact flows_emitJump ht (fun off => (hc off).1) (fun off => (hc off).2.1) fun off he => nomatch (hc off).2.2.symm.trans he

theorem flows_label (h : ∀ l, Flows (At (l :: free) used live) (k l) post) : Flows (At free used live) (label >>= k) post := by
  intro a y c ha hm
  obtain ⟨l, b, hl, hy⟩ := (andThen_eq_ok (m := label)).mp hm
  cases hl
  refine h a.labels { a with labels := a.labels + 1 } y c ⟨?_, ?_, ?_, ha.jumped⟩ hy
  · exact ⟨ha.laid.whole, fun l p hp => ⟨Nat.lt_succ_of_lt (ha.laid.binds l p hp).1, (ha.laid.binds l p hp).2⟩,
      fun k l hk => ⟨Nat.lt_succ_of_lt (ha.laid.fixups k l hk).1, (ha.laid.fixups k l hk).2⟩, ha.laid.sources, ha.laid.jumps,
      ha.laid.closed, ha.laid.once⟩
  · exact nodup_cons.mpr ⟨fun hme => lt_irrefl _ (ha.unbound _ hme).1, ha.nodup⟩
  intro l hl
  obtain rfl | hl := mem_cons.mp hl
  · exact ⟨Nat.lt_succ_self _, fun p hp => lt_irrefl _ (ha.laid.binds _ p hp).1⟩
  · exact ⟨Nat.lt_succ_of_lt (ha.unbound l hl).1, (ha.unbound l hl).2⟩

theorem flows_bind (before after : List Label) (hl : live = true ∨ l ∈ used) :
    Flows (At (before ++ l :: after) used live) (AsmM.bind l) fun _ => At (before ++ after) used true := by
  intro a x b ha hm
  cases hm
  obtain ⟨hno, hn⟩ := nodup_cons.mp (nodup_middle.mp ha.nodup)
  obtain ⟨hlt, hf⟩ := ha.unbound l (by simp)
  refine ⟨⟨ha.laid.whole, fun l' p hp => ?_, fun k l' hk => ?_, ha.laid.sources, ha.laid.jumps, fun i insn hi hin he _ => ?_,
    nodup_cons.mpr ⟨fun hme => ?_, ha.laid.once⟩⟩, hn, fun l' hl' => ?_, ha.jumped⟩
  · obtain heq | hp := mem_cons.mp hp
    · cases heq
      exact ⟨hlt, ha.laid.whole.ends⟩
    · exact ha.laid.binds l' p hp
  · refine ⟨(ha.laid.fixups k l' hk).1, fun p hp => ?_⟩
    obtain heq | hp := mem_cons.mp hp
    · cases heq
      exact a.fixups_lt _ hk
    · exact (ha.laid.fixups k l' hk).2 p hp
  · -- an instruction at the very end needs the label
    have hs : i + 1 ≤ a.insns.length := (List.getElem?_eq_some_iff.mp hin).1
    have hold : i + 1 < a.insns.length ∨ live = true → ∃ k l', (k, l') ∈ a.fixups ∧ (l', i + 1) ∈ (l, a.insns.length) :: a.binds := by
      intro hlt
      obtain ⟨k, l', hk, hp⟩ := ha.laid.closed i insn hi hin he hlt
      exact ⟨k, l', hk, mem_cons_of_mem _ hp⟩
    obtain hl | hu := hl
    · exact hold (.inr hl)
    obtain hlt | heq := hs.lt_or_eq
    · exact hold (.inl hlt)
    · obtain ⟨k, hk⟩ := ha.jumped l hu
      exact ⟨k, l, hk, by rw [heq]; exact mem_cons_self⟩
  · obtain ⟨⟨_, p⟩, hp, rfl⟩ := mem_map.mp hme
    exact hf p hp
  have hme : l' ∈ before ++ l :: after := by
    rw [mem_append, mem_cons]
    exact (mem_append.mp hl').imp_right .inr
  refine ⟨(ha.unbound l' hme).1, fun p hp => ?_⟩
  obtain heq | hp := mem_cons.mp hp
  · cases heq
    exact hno hl'
  · exact (ha.unbound l' hme).2 p hp

theorem through_source {line : ℕ} {text : String} : Through (source line text) := by
  intro free used a x b ha hm
  cases hm
  exact ⟨⟨ha.laid.whole, ha.laid.binds, ha.laid.fixups, ha.laid.sources, ha.laid.jumps, ha.laid.closed, ha.laid.once⟩, ha.nodup,
    ha.unbound, ha.jumped⟩

theorem through_seq (hm : Through m) (hk : Through k) : Through (m >>= fun _ => k) :=
  fun free used => flows_seq (hm free used) fun _ => hk free used

theorem flows_through (hm : Through m) (hk : Flows (At free used true) (k ()) post) : Flows (At free used true) (m >>= k) post :=
  flows_seq (hm free used) fun _ => hk

theorem through_pure : Through (pure ()) := fun _ _ => flows_pure

theorem through_when {condition : Bool} (h : Through m) : Through (when condition m) := by
  unfold AsmM.when
  split
  · exact h
  · exact through_pure

theorem through_whenTraced (h : Through m) : Through (whenTraced m) := by
  intro free used
  have hr : Flows (At free used true) AsmM.traceLayout fun _ => At free used true := by
    intro a x b ha hm
    cases hm
    exact ha
  refine flows_seq hr fun layout => ?_
  split
  · exact flows_pure
  · exact h free used

theorem through_forEach (h : ∀ x, Through (f x)) (xs : List α) : Through (forEach f xs) := by
  induction xs with
  | nil => exact through_pure
  | cons x xs ih => exact through_seq (h x) ih

theorem flows_forEach (hn : xs ≠ []) (h : ∀ x ∈ xs, ∀ used, Flows (At free used true) (f x) fun _ => At free (target :: used) true) :
    Flows (At free used true) (forEach f xs) fun _ => At free (target :: used) true := by
  have hr : ∀ rest, (∀ x ∈ rest, x ∈ xs) →
      Flows (At free (target :: used) true) (forEach f rest) fun _ => At free (target :: used) true := by
    intro rest hre
    induction rest with
    | nil => exact flows_pure
    | cons x rest ih =>
      have hro : Flows (At free (target :: used) true) (f x) fun _ => At free (target :: used) true :=
        flows_post (h x (hre x mem_cons_self) _) fun _ _ ha => ha.forget (by grind)
      exact flows_seq hro fun _ => ih fun y hy => hre y (mem_cons_of_mem _ hy)
  cases xs with
  | nil => exact absurd rfl hn
  | cons x xs => exact flows_seq (h x mem_cons_self used) fun _ => hr xs fun y hy => mem_cons_of_mem _ hy

end Honk.Codegen
