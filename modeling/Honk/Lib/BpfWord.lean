import Honk.Lib.Bpf

namespace Honk.Lib.Bpf

open BitVec

variable {imm : BitVec 32}

theorem signExtend_small (h : imm.toNat < 2 ^ 31) : imm.signExtend 64 = imm.setWidth 64 := by
  apply signExtend_eq_setWidth_of_msb_false
  rw [msb_eq_decide, decide_eq_false_iff_not]
  omega

theorem setWidth_and_signExtend (w mask : BitVec 32) : w.setWidth 64 &&& mask.signExtend 64 = (w &&& mask).setWidth 64 := by
  ext i hi
  by_cases h : i < 32
  · simp [getElem_signExtend, h]
  · simp [getLsbD_of_ge w i (by omega)]

theorem leBytes_or_signExtend (w bits : BitVec 32) : BitVec.ofNat 32 (w.setWidth 64 ||| bits.signExtend 64).toNat = w ||| bits := by
  rw [ofNat_toNat]
  ext i hi
  simp [getElem_signExtend, hi, show i < 64 by omega]

theorem setWidth_or_small {w bits : BitVec 32} (h : bits.toNat < 2 ^ 31) :
    w.setWidth 64 ||| bits.signExtend 64 = (w ||| bits).setWidth 64 := by
  rw [signExtend_small h]
  ext i hi
  simp

theorem setWidth64_inj (v w : BitVec 32) : v.setWidth 64 = w.setWidth 64 ↔ v = w := by
  constructor
  · intro h
    have := congrArg (BitVec.setWidth 32) h
    simpa using this
  · rintro rfl
    rfl

variable (w : BitVec 32)

theorem eval_ne_zero : Cond.ne.eval (w.setWidth 64) ((0 : BitVec 32).signExtend 64) = (w != 0) := by
  rw [Cond.eval, signExtend_small (by decide), Bool.eq_iff_iff, bne_iff_ne, bne_iff_ne]
  exact not_congr (setWidth64_inj w 0)

theorem eval_eq_small (imm : BitVec 32) (h : imm.toNat < 2 ^ 31) : Cond.eq.eval (w.setWidth 64) (imm.signExtend 64) = (w == imm) := by
  rw [Cond.eval, signExtend_small h, Bool.eq_iff_iff, beq_iff_eq, beq_iff_eq]
  exact setWidth64_inj w imm

theorem eval_ne_small (imm : BitVec 32) (h : imm.toNat < 2 ^ 31) : Cond.ne.eval (w.setWidth 64) (imm.signExtend 64) = (w != imm) := by
  rw [Cond.eval, signExtend_small h, Bool.eq_iff_iff, bne_iff_ne, bne_iff_ne]
  exact not_congr (setWidth64_inj w imm)

theorem eval_ne_byte {v : BitVec 8} (w : BitVec 8) : Cond.ne.eval (v.setWidth 64) ((w.zeroExtend 32).signExtend 64) = (v != w) := by
  have hw : v.setWidth 64 = (v.zeroExtend 32).setWidth 64 := by
    apply eq_of_toNat_eq
    simp only [BitVec.zeroExtend, toNat_setWidth]
    omega
  rw [hw, eval_ne_small _ _ (by rw [BitVec.zeroExtend, toNat_setWidth, Nat.mod_eq_of_lt (by omega)]; omega),
    Bool.eq_iff_iff, bne_iff_ne, bne_iff_ne]
  apply not_congr
  constructor
  · intro h
    have := congrArg (BitVec.setWidth 8) h
    simpa using this
  · rintro rfl
    rfl

theorem toNat_setWidth64 : (w.setWidth 64).toNat = w.toNat := by rw [toNat_setWidth, Nat.mod_eq_of_lt (by omega)]

theorem eval_ge_small (h : imm.toNat < 2 ^ 31) : Cond.ge.eval (w.setWidth 64) (imm.signExtend 64) = decide (imm.toNat ≤ w.toNat) := by
  rw [Cond.eval, signExtend_small h, decide_eq_decide, le_def, toNat_setWidth64, toNat_setWidth64]

theorem eval_gt_small (h : imm.toNat < 2 ^ 31) : Cond.gt.eval (w.setWidth 64) (imm.signExtend 64) = decide (imm.toNat < w.toNat) := by
  rw [Cond.eval, signExtend_small h, decide_eq_decide, lt_def, toNat_setWidth64, toNat_setWidth64]

theorem and_one_shiftLeft {i : ℕ} (h : i < 32) : (w &&& (1 : BitVec 32) <<< i != 0) = w.getLsbD i := by
  rw [Bool.eq_iff_iff, bne_iff_ne]
  constructor
  · intro hn
    by_contra hb
    apply hn
    ext j hj
    by_cases hij : i = j
    · subst hij
      simp only [Bool.not_eq_true] at hb
      simp [← getLsbD_eq_getElem, hb]
    simp only [getElem_and, getElem_shiftLeft]
    have : j < i ∨ ¬ j - i = 0 := by omega
    rcases this with hl | hl
    · simp [hl]
    · simp [hl]
  intro hb hz
  have := congrArg (fun v => v.getLsbD i) hz
  rw [getLsbD_eq_getElem h] at hb
  simp [hb, h] at this

theorem eval_set_shiftLeft (h : i < 32) : Cond.set.eval (w.setWidth 64) (((1 : BitVec 32) <<< i).signExtend 64) = w.getLsbD i := by
  rw [Cond.eval, setWidth_and_signExtend, ← and_one_shiftLeft w h, Bool.eq_iff_iff, bne_iff_ne, bne_iff_ne]
  exact not_congr (setWidth64_inj _ 0)

end Honk.Lib.Bpf
