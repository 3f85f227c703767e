import Mathlib

namespace Honk.Lib

open List

variable {α : Type} {whole rest : List α} {pos : ℕ}

def slice? (whole : List α) (start stop : ℕ) : Option (List α) :=
  if start ≤ stop ∧ stop ≤ whole.length then some ((whole.drop start).take (stop - start)) else none

theorem slice?_eq_some (h : slice? whole start stop = some part) :
    start ≤ stop ∧ stop ≤ whole.length ∧ part = (whole.drop start).take (stop - start) := by
  rw [slice?, Option.ite_none_right_eq_some, Option.some.injEq] at h
  exact ⟨h.1.1, h.1.2, h.2.symm⟩

theorem slice?_infix (h : slice? whole start stop = some part) : part <:+: whole := by
  obtain ⟨-, -, rfl⟩ := slice?_eq_some h
  exact ( take_prefix _ _).isInfix.trans (drop_suffix _ _).isInfix

structure At (whole : List α) (pos : ℕ) (rest : List α) : Prop where
  le : pos ≤ whole.length
  drop : whole.drop pos = rest

namespace At

theorem start (whole : List α) : At whole 0 whole := ⟨Nat.zero_le _, rfl⟩

theorem length (h : At whole pos rest) : whole.length = pos + rest.length := by
  rw [← h.drop, length_drop]
  have := h.le
  omega

theorem next (h : At whole pos (part ++ rest)) : At whole (pos + part.length) rest := by
  have hl := h.length
  rw [length_append] at hl
  refine ⟨by omega, ?_⟩
  rw [← drop_drop, h.drop, drop_left]

theorem slice (h : At whole pos (part ++ rest)) : slice? whole pos (pos + part.length) = some part := by
  have hl := h.length
  rw [length_append] at hl
  rw [slice?, if_pos (by omega), h.drop, Nat.add_sub_cancel_left, take_left]

theorem head (h : At whole pos (a :: rest)) : whole[pos]? = some a := by
  have hd : (whole.drop pos)[0]? = some a := by rw [h.drop]; rfl
  rwa [getElem?_drop, Nat.add_zero] at hd

theorem tail (h : At whole pos (a :: rest)) : At whole (pos + 1) rest := (show At whole pos ([a] ++ rest) from h).next

end At

end Honk.Lib
