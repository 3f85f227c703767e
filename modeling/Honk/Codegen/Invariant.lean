import Honk.Lib.BpfWord
import Honk.Codegen.Machine
import Honk.Codegen.Step

namespace Honk.Codegen

open Honk.Lib Honk.Lib.Bpf Honk.Routing AsmM
open Function (update update_of_ne update_self)
open List hiding Vector

def Tracked (k : ℕ) : Prop := k < 7 ∨ (52 ≤ k ∧ k < 68)

/-- What holds between two emitted fragments. `layout` says that the program can record a trace, `on`
that this invocation does, `mask` is the register of resolved facts, `held` says which stack areas hold
their bitmap, and `out` what the tracked output words are. -/
structure Inv {fds : RoutingMapFds} (layout : Bool) (host : MapHost fds) (input : RoutingInput) (on : Bool)
    (mask : BitVec 32) (held : FactKind → Bool) (out : ℕ → BitVec 32) (regs : ℕ → Value Block) (mem : Mem Block) : Prop where
  r6 : regs 6 = .ptr .input 0
  r7 : regs 7 = .ptr .output 0
  r8 : regs 8 = .scalar (mask.setWidth 64)
  r9 : layout = true → regs 9 = .scalar (if on then 1 else 0)
  r10 : regs 10 = .ptr .stack 0
  traced : on = true → layout = true
  marked : ∀ kind : FactKind, kind ≠ .domain → mask.getLsbD (kind.index - 1) = true → held kind = true
  fixed : ∀ b, b ≠ .output → b ≠ .stack → ∀ o : ℤ, mem b o = (host.fixed input b).getD o.toNat 0
  area : ∀ kind, held kind = true → readMem mem .stack kind.area 32 = bitmapBytes ((host.fact input kind).getD .zero)
  words : ∀ k, Tracked k → word mem .output (4 * (k : ℤ)) = out k

namespace Inv

variable {fds : RoutingMapFds} {layout : Bool} {host : MapHost fds} {input : RoutingInput} {on : Bool}
  {mask : BitVec 32} {held : FactKind → Bool} {out : ℕ → BitVec 32} {regs : ℕ → Value Block} {mem : Mem Block}

section

variable (h : Inv layout host input on mask held out regs mem)
include h

theorem of_regs (regs' : ℕ → Value Block) (hr : ∀ r, 6 ≤ r → regs' r = regs r) : Inv layout host input on mask held out regs' mem where
  r6 := by rw [hr 6 (by omega), h.r6]
  r7 := by rw [hr 7 (by omega), h.r7]
  r8 := by rw [hr 8 (by omega), h.r8]
  r9 := by rw [hr 9 (by omega)]; exact h.r9
  r10 := by rw [hr 10 (by omega), h.r10]
  traced := h.traced
  marked := h.marked
  fixed := h.fixed
  area := h.area
  words := h.words

theorem scratch (r : ℕ) (v : Value Block) (hr : r < 6) : Inv layout host input on mask held out (update regs r v) mem := by
  apply h.of_regs
  intro r' hr'
  exact update_of_ne (by omega) ..

theorem clobber (v : Value Block) : Inv layout host input on mask held out (Bpf.clobber regs v) mem := by
  apply h.of_regs
  intro r hr
  rw [Bpf.clobber, if_neg (by omega), if_neg (by omega)]

theorem out_congr (ho : ∀ k, Tracked k → out k = out' k) : Inv layout host input on mask held out' regs mem where
  r6 := h.r6
  r7 := h.r7
  r8 := h.r8
  r9 := h.r9
  r10 := h.r10
  traced := h.traced
  marked := h.marked
  fixed := h.fixed
  area := h.area
  words k hk := (h.words k hk).trans (ho k hk)

end

theorem untracked (h : Inv layout host input on mask held (update out k v) regs mem)
    (hk : ¬ Tracked k) : Inv layout host input on mask held out regs mem := by
  apply h.out_congr
  intro j hj
  have hn : j ≠ k := by
    rintro rfl
    exact hk hj
  rw [update_of_ne hn]

section

variable (h : Inv layout host input on mask held out regs mem)
include h

theorem of_output (o : ℤ) (bytes : List Byte) (out' : ℕ → BitVec 32)
    (hw : ∀ k, Tracked k → word (writeMem mem .output o bytes) .output (4 * (k : ℤ)) = out' k) :
    Inv layout host input on mask held out' regs (writeMem mem .output o bytes) where
  r6 := h.r6
  r7 := h.r7
  r8 := h.r8
  r9 := h.r9
  r10 := h.r10
  traced := h.traced
  marked := h.marked
  fixed b hb hb' := by rw [writeMem_other _ _ _ _ _ hb]; exact h.fixed b hb hb'
  area kind hk := by rw [readMem_write_of_disjoint _ _ _ _ _ _ _ (.inl (by simp))]; exact h.area kind hk
  words := hw

theorem store_output (k v : ℕ) : Inv layout host input on mask held (update out k (BitVec.ofNat 32 v)) regs
      (writeMem mem .output (4 * (k : ℤ)) (leBytes 4 v)) := by
  apply h.of_output
  intro j hj
  by_cases hjk : j = k
  · subst hjk
    rw [word_writeMem_self, update_self]
  · rw [word_writeMem_of_disjoint _ _ _ _ _ _ (by right; rw [leBytes_length]; omega), update_of_ne hjk, h.words j hj]

theorem store_untracked (o : ℤ) (bytes : List Byte) (ho : 28 ≤ o) (ho' : o + bytes.length ≤ 208) :
    Inv layout host input on mask held out regs (writeMem mem .output o bytes) := by
  apply h.of_output
  intro k hk
  rw [← h.words k hk]
  apply word_writeMem_of_disjoint
  rcases hk with hk | hk
  · right; left; omega
  · right; right; omega

theorem store_stack (o : ℤ) (bytes : List Byte) (hd : ∀ kind, held kind = true → kind.area + 32 ≤ o ∨ o + bytes.length ≤ kind.area) :
    Inv layout host input on mask held out regs (writeMem mem .stack o bytes) where
  r6 := h.r6
  r7 := h.r7
  r8 := h.r8
  r9 := h.r9
  r10 := h.r10
  traced := h.traced
  marked := h.marked
  fixed b hb hb' := by rw [writeMem_other _ _ _ _ _ hb']; exact h.fixed b hb hb'
  area kind hk := by
    rw [readMem_write_of_disjoint _ _ _ _ _ _ _ (.inr (by simpa using hd kind hk))]
    exact h.area kind hk
  words k hk := by rw [word_writeMem_of_disjoint _ _ _ _ _ _ (.inl (by simp))]; exact h.words k hk

end

theorem area_disjoint (kind kind' : FactKind) (h : kind ≠ kind') : kind.area + 32 ≤ kind'.area ∨ kind'.area + 32 ≤ kind.area := by
  cases kind <;> cases kind' <;> first | exact absurd rfl h | decide

section

variable (h : Inv layout host input on mask held out regs mem)
include h

variable (kind : FactKind)

theorem fill_area (hk : held kind = false) : Inv layout host input on mask (update held kind true) out regs
      (writeMem mem .stack kind.area (bitmapBytes ((host.fact input kind).getD .zero))) := by
  have hl := bitmapBytes_length ((host.fact input kind).getD .zero)
  have hs := h.store_stack kind.area (bitmapBytes ((host.fact input kind).getD .zero)) (by
    intro kind' hk'
    rw [hl]
    exact area_disjoint kind' kind (by rintro rfl; rw [hk] at hk'; cases hk'))
  refine ⟨hs.r6, hs.r7, hs.r8, hs.r9, hs.r10, hs.traced, ?_, hs.fixed, ?_, hs.words⟩
  · intro kind' hne hb
    by_cases he : kind' = kind
    · rw [he, update_self]
    · rw [update_of_ne he, hs.marked kind' hne hb]
  intro kind' hk'
  by_cases he : kind' = kind
  · subst he
    have := readMem_write_self mem .stack kind'.area (bitmapBytes ((host.fact input kind').getD .zero))
    rwa [hl] at this
  · rw [update_of_ne he] at hk'
    exact hs.area kind' hk'

theorem forget (hk : mask.getLsbD (kind.index - 1) = false) : Inv layout host input on mask (update held kind false) out regs mem := by
  refine ⟨h.r6, h.r7, h.r8, h.r9, h.r10, h.traced, ?_, h.fixed, ?_, h.words⟩
  · intro kind' hne hb
    by_cases he : kind' = kind
    · subst he
      rw [hk] at hb
      cases hb
    · rw [update_of_ne he, h.marked kind' hne hb]
  intro kind' hk'
  by_cases he : kind' = kind
  · rw [he, update_self] at hk'
    cases hk'
  · rw [update_of_ne he] at hk'
    exact h.area kind' hk'

theorem mark_ready (hd : kind ≠ .domain) (hk : held kind = true) :
    Inv layout host input on (mask ||| (1 : BitVec 32) <<< (kind.index - 1)) held out
      (update regs 8 (.scalar ((mask ||| (1 : BitVec 32) <<< (kind.index - 1)).setWidth 64))) mem := by
  refine ⟨?_, ?_, update_self .., ?_, ?_, h.traced, ?_, h.fixed, h.area, h.words⟩
  · rw [update_of_ne (by decide), h.r6]
  · rw [update_of_ne (by decide), h.r7]
  · rw [update_of_ne (by decide)]
    exact h.r9
  · rw [update_of_ne (by decide), h.r10]
  intro kind' hn hb
  by_cases he : kind' = kind
  · rw [he, hk]
  apply h.marked kind' hn
  revert hb
  cases kind' <;> cases kind <;> simp [FactKind.index] at hd hn he ⊢

theorem readField (before field after : List Byte) (hb : input.bytes = before ++ (field ++ after)) :
    readMem mem .input (before.length : ℤ) field.length = field := by
  have hl := congrArg List.length hb
  rw [length_append, length_append] at hl
  rw [readMem_getD mem .input input.bytes (h.fixed .input (by simp) (by simp)) _ _ (by omega), hb, drop_left, take_left]

theorem read_srcIp : readMem mem .input inputSrcIp 16 = input.srcIp.toList := by
  have := h.readField [] input.srcIp.toList
    (input.dstIp.toList ++ input.mac.toList ++ input.pname.toList ++ wordBytes input.scalars)
    (by simp [RoutingInput.bytes])
  rwa [Vector.length_toList] at this

theorem read_dstIp : readMem mem .input inputDstIp 16 = input.dstIp.toList := by
  have := h.readField input.srcIp.toList input.dstIp.toList
    (input.mac.toList ++ input.pname.toList ++ wordBytes input.scalars) (by simp [RoutingInput.bytes])
  rwa [Vector.length_toList, Vector.length_toList] at this

theorem read_mac : readMem mem .input inputMac 16 = input.mac.toList := by
  have := h.readField (input.srcIp.toList ++ input.dstIp.toList) input.mac.toList
    (input.pname.toList ++ wordBytes input.scalars) (by simp [RoutingInput.bytes])
  rwa [length_append, Vector.length_toList, Vector.length_toList, Vector.length_toList] at this

theorem read_pname : readMem mem .input inputPname 48 = input.pname.toList := by
  have := h.readField (input.srcIp.toList ++ input.dstIp.toList ++ input.mac.toList) input.pname.toList
    (wordBytes input.scalars) (by simp [RoutingInput.bytes])
  rwa [length_append, length_append, Vector.length_toList, Vector.length_toList, Vector.length_toList, Vector.length_toList] at this

theorem scalar (i : ℕ) (hi : i < 8) : word mem .input (96 + (4 * i : ℕ)) = input.scalars.getD i 0 := by
  apply word_of_readMem mem .input 96 input.scalars _ i hi
  have := h.readField (input.srcIp.toList ++ input.dstIp.toList ++ input.mac.toList ++ input.pname.toList)
    (wordBytes input.scalars) [] (by simp [RoutingInput.bytes])
  rwa [length_append, length_append, length_append, Vector.length_toList, Vector.length_toList,
    Vector.length_toList, Vector.length_toList, wordBytes_length] at this

theorem area_word (hk : held kind = true) (i : ℕ)
    (hi : i < 8) : word mem .stack (kind.area + (4 * i : ℕ)) = ((host.fact input kind).getD .zero).bitmap.toList.getD i 0 := by
  apply word_of_readMem
  · rw [Vector.length_toList]
    exact h.area kind hk
  · rwa [Vector.length_toList]

end

end Inv

end Honk.Codegen
