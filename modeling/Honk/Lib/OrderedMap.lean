import Mathlib

namespace Honk.Lib.OrderedMap

open List Option

variable {κ ν : Type} [LinearOrder κ]

def Ordered (m : List (κ × ν)) : Prop := m.Pairwise fun a b => a.1 < b.1

def insert (k : κ) (v : ν) : List (κ × ν) → List (κ × ν)
  | [] => [(k, v)]
  | (k', v') :: m =>
    if k < k' then (k, v) :: (k', v') :: m
    else if k = k' then (k, v) :: m
    else (k', v') :: insert k v m

def get? (k : κ) : List (κ × ν) → Option ν
  | [] => none
  | (k', v') :: m => if k = k' then some v' else get? k m

variable {k : κ} {m : List (κ × ν)} {v : ν}

theorem get?_eq_none (h : ∀ entry ∈ m, k < entry.1) : get? k m = none := by
  induction m with
  | nil => rfl
  | cons entry m ih =>
    obtain ⟨he, hm⟩ := forall_mem_cons.mp h
    rw [get?, if_neg he.ne, ih hm]

theorem mem_insert (h : Ordered m) (entry : κ × ν) : entry ∈ insert k v m ↔ entry = (k, v) ∨ (entry ∈ m ∧ entry.1 ≠ k) := by
  induction m with
  | nil => simp [insert]
  | cons first m ih =>
    obtain ⟨hf, hm⟩ := pairwise_cons.mp h
    rw [insert]
    split_ifs with hl heq
    · have ho : ∀ e ∈ first :: m, e.1 ≠ k := by
        rw [forall_mem_cons]
        exact ⟨hl.ne', fun e he => (hl.trans (hf e he)).ne'⟩
      rw [mem_cons]
      exact or_congr_right ⟨fun he => ⟨he, ho entry he⟩, And.left⟩
    · have ho : ∀ e ∈ m, e.1 ≠ k := fun e he => (heq ▸ hf e he).ne'
      rw [mem_cons, mem_cons]
      refine or_congr_right ⟨fun he => ⟨.inr he, ho entry he⟩, ?_⟩
      rintro ⟨rfl | he, hn⟩
      · exact absurd heq.symm hn
      · exact he
    rw [mem_cons, mem_cons, ih hm]
    constructor
    · rintro (rfl | rfl | ⟨he, hn⟩)
      · exact .inr ⟨.inl rfl, Ne.symm heq⟩
      · exact .inl rfl
      · exact .inr ⟨.inr he, hn⟩
    rintro (rfl | ⟨rfl | he, hn⟩)
    · exact .inr (.inl rfl)
    · exact .inl rfl
    · exact .inr (.inr ⟨he, hn⟩)

theorem ordered_insert (h : Ordered m) : Ordered (insert k v m) := by
  induction m with
  | nil => exact pairwise_singleton _ _
  | cons first m ih =>
    obtain ⟨hf, hm⟩ := pairwise_cons.mp h
    rw [insert]
    split_ifs with hl heq
    · refine pairwise_cons.mpr ⟨?_, h⟩
      rw [forall_mem_cons]
      exact ⟨hl, fun e he => hl.trans (hf e he)⟩
    · exact pairwise_cons.mpr ⟨fun e he => heq ▸ hf e he, hm⟩
    refine pairwise_cons.mpr ⟨fun e he => ?_, ih hm⟩
    rcases (mem_insert hm e).mp he with rfl | ⟨he, -⟩
    · exact lt_of_le_of_ne (not_lt.mp hl) (Ne.symm heq)
    · exact hf e he

theorem sum_insert (weight : ν → ℕ) (k : κ) (v : ν) (h : Ordered m) :
    ((insert k v m).map fun entry => weight entry.2).sum + ((get? k m).map weight).getD 0 =
      (m.map fun entry => weight entry.2).sum + weight v := by
  induction m with
  | nil => simp [insert, get?]
  | cons first m ih =>
    obtain ⟨hf, hm⟩ := pairwise_cons.mp h
    rw [insert]
    split_ifs with hl heq
    · have hn : get? k (first :: m) = none := by
        apply get?_eq_none
        rw [forall_mem_cons]
        exact ⟨hl, fun e he => hl.trans (hf e he)⟩
      simp only [hn, map_cons, sum_cons, map_none, getD_none]
      omega
    · simp only [get?, if_pos heq, map_cons, sum_cons, map_some, getD_some]
      omega
    have := ih hm
    simp only [get?, if_neg heq, map_cons, sum_cons]
    omega

end Honk.Lib.OrderedMap
