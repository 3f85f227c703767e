import Mathlib

namespace Honk.Lib

open List

abbrev Tally (V : Type) := List (V × ℕ)

namespace Tally

variable {V : Type} [DecidableEq V]

def add : Tally V → V → Tally V
  | [], v => [(v, 1)]
  | (known, count) :: rest, v => if known = v then (known, count + 1) :: rest else (known, count) :: add rest v

def remove : Tally V → V → Option (Tally V)
  | [], _ => none
  | (known, count) :: rest, v =>
    if known = v then some (if count - 1 = 0 then rest else (known, count - 1) :: rest)
    else (remove rest v).map ((known, count) :: ·)

structure Counts (t : Tally V) (bag : Multiset V) : Prop where
  nodup : (t.map Prod.fst).Nodup
  count : ∀ v n, (v, n) ∈ t ↔ 0 < n ∧ bag.count v = n

theorem Counts.nil : Counts ([] : Tally V) 0 := ⟨nodup_nil, fun v n => ⟨nofun, fun h => absurd h.1 (by rw [← h.2]; simp)⟩⟩

variable {t : Tally V} {bag : Multiset V}

theorem Counts.mem (h : Counts t bag) : v ∈ t.map Prod.fst ↔ v ∈ bag := by
  rw [mem_map, ← Multiset.count_pos]
  constructor
  · rintro ⟨⟨w, n⟩, hm, rfl⟩
    obtain ⟨hpo, hc⟩ := (h.count w n).mp hm
    exact hc ▸ hpo
  · intro hpo
    exact ⟨(v, bag.count v), (h.count v _).mpr ⟨hpo, rfl⟩, rfl⟩

theorem mem_add_of_ne (hn : w ≠ v) : (w, n) ∈ add t v ↔ (w, n) ∈ t := by
  induction t with
  | nil => simp [add, hn]
  | cons entry rest ih =>
    obtain ⟨known, count⟩ := entry
    rw [add]
    split
    · rename_i he
      subst he
      simp [hn]
    · simp [ih]

theorem fst_add : (add t v).map Prod.fst = if v ∈ t.map Prod.fst then t.map Prod.fst else t.map Prod.fst ++ [v] := by
  induction t with
  | nil => simp [add]
  | cons entry rest ih =>
    obtain ⟨known, count⟩ := entry
    rw [add]
    split
    · rename_i he
      simp [he]
    rename_i hn
    simp only [map_cons, ih, mem_cons, Ne.symm hn, false_or]
    split <;> simp

theorem mem_add_self (hn : (t.map Prod.fst).Nodup) : (v, n) ∈ add t v ↔ (v ∉ t.map Prod.fst ∧ n = 1) ∨ ∃ m, (v, m) ∈ t ∧ n = m + 1 := by
  induction t with
  | nil => simp [add]
  | cons entry rest ih =>
    obtain ⟨known, count⟩ := entry
    rw [map_cons, nodup_cons] at hn
    rw [add]
    split
    · rename_i he
      subst he
      have hno : ∀ m, (known, m) ∉ rest := fun m hm => hn.1 (mem_map.mpr ⟨_, hm, rfl⟩)
      simp [hno]
    · rename_i hne
      simp only [mem_cons, Prod.mk.injEq, Ne.symm hne, false_and, false_or, ih hn.2, map_cons]

theorem Counts.add (h : Counts t bag) (v : V) : Counts (t.add v) (v ::ₘ bag) := by
  refine ⟨?_, fun w n => ?_⟩
  · rw [fst_add]
    split
    · exact h.nodup
    · rename_i hn
      exact List.Nodup.append h.nodup (nodup_singleton v) (disjoint_singleton.mpr hn)
  by_cases hw : w = v
  · subst hw
    rw [mem_add_self h.nodup, Multiset.count_cons_self, h.mem, ← Multiset.count_eq_zero]
    simp only [h.count]
    constructor
    · rintro (⟨hz, rfl⟩ | ⟨m, ⟨-, hm⟩, rfl⟩) <;> omega
    rintro ⟨hpo, rfl⟩
    by_cases hz : bag.count w = 0
    · exact .inl ⟨hz, by omega⟩
    · exact .inr ⟨bag.count w, ⟨by omega, rfl⟩, rfl⟩
  · rw [mem_add_of_ne hw, h.count, Multiset.count_cons_of_ne hw]

theorem Counts.tail {known : V} {count : ℕ} (h : Counts ((known, count) :: t) bag) : Counts t (bag.filter (· ≠ known)) := by
  have hn := nodup_cons.mp h.nodup
  refine ⟨hn.2, fun w n => ?_⟩
  by_cases hw : w = known
  · subst hw
    have hno : (w, n) ∉ t := fun hm => hn.1 (mem_map.mpr ⟨_, hm, rfl⟩)
    simp only [hno, false_iff, not_and]
    intro hpo
    rw [Multiset.count_filter, if_neg (not_not_intro rfl)]
    omega
  · rw [Multiset.count_filter, if_pos hw, ← h.count]
    simp [hw]

theorem Counts.of_tail {known : V} {count : ℕ} (h : Counts t (bag.filter (· ≠ known))) (hpo : 0 < count)
    (hc : bag.count known = count) : Counts ((known, count) :: t) bag := by
  refine ⟨nodup_cons.mpr ⟨fun hme => ?_, h.nodup⟩, fun w n => ?_⟩
  · exact absurd rfl (Multiset.mem_filter.mp (h.mem.mp hme)).2
  by_cases hw : w = known
  · subst hw
    have hn : (w, n) ∉ t := fun hm => absurd rfl (Multiset.mem_filter.mp (h.mem.mp (mem_map.mpr ⟨_, hm, rfl⟩))).2
    simp only [mem_cons, Prod.mk.injEq, true_and, hn, or_false, hc]
    omega
  · rw [mem_cons, h.count, Multiset.count_filter, if_pos hw]
    simp [hw]

theorem Counts.remove (h : Counts t bag) (hv : v ∈ bag) : ∃ t', t.remove v = some t' ∧ Counts t' (bag.erase v) := by
  induction t generalizing bag with
  | nil => exact absurd (h.mem.mpr hv) (by simp)
  | cons entry rest ih =>
    obtain ⟨known, count⟩ := entry
    obtain ⟨hpo, hc⟩ := (h.count known count).mp (mem_cons_self ..)
    rw [Tally.remove]
    by_cases he : known = v
    · subst he
      rw [if_pos rfl]
      have hs : (bag.erase known).filter (· ≠ known) = bag.filter (· ≠ known) := by
        ext w
        by_cases hw : w = known
        · simp [hw]
        · rw [Multiset.count_filter, Multiset.count_filter, Multiset.count_erase_of_ne hw]
      have ht := h.tail
      rw [← hs] at ht
      refine ⟨_, rfl, ?_⟩
      split
      · rename_i hl
        have hn : known ∉ bag.erase known := by
          rw [← Multiset.count_eq_zero, Multiset.count_erase_self]
          omega
        have ha : (bag.erase known).filter (· ≠ known) = bag.erase known := Multiset.filter_eq_self.mpr fun w hw he => hn (he ▸ hw)
        rwa [ha] at ht
      · exact ht.of_tail (by omega) (by rw [Multiset.count_erase_self, hc])
    rw [if_neg he]
    have hm : v ∈ bag.filter (· ≠ known) := Multiset.mem_filter.mpr ⟨hv, Ne.symm he⟩
    obtain ⟨t', ht', hco⟩ := ih h.tail hm
    have hs : (bag.filter (· ≠ known)).erase v = (bag.erase v).filter (· ≠ known) := by
      ext w
      by_cases hwv : w = v
      · subst hwv
        rw [Multiset.count_erase_self, Multiset.count_filter, Multiset.count_filter, Multiset.count_erase_self]
        simp [Ne.symm he]
      · rw [Multiset.count_erase_of_ne hwv, Multiset.count_filter, Multiset.count_filter, Multiset.count_erase_of_ne hwv]
    rw [hs] at hco
    exact ⟨(known, count) :: t', by rw [ht']; rfl, hco.of_tail hpo (by rw [Multiset.count_erase_of_ne he, hc])⟩

section

variable [SemilatticeSup V] [OrderBot V]

def join : Tally V → Option V
  | [] => none
  | (first, _) :: rest => some (rest.foldl (fun joined entry => joined ⊔ entry.1) first)

omit [DecidableEq V] in
theorem foldl_sup (rest : Tally V) :
    rest.foldl (fun joined entry => joined ⊔ entry.1) first = first ⊔ Multiset.sup (rest.map Prod.fst : Multiset V) := by
  induction rest generalizing first with
  | nil => simp
  | cons entry rest ih => rw [foldl_cons, ih, map_cons, ← Multiset.cons_coe, Multiset.sup_cons, sup_assoc]

theorem Counts.join (h : Counts t bag) : t.join = if bag = 0 then none else some bag.sup := by
  have hm : ∀ v, v ∈ (t.map Prod.fst : Multiset V) ↔ v ∈ bag := fun v => h.mem
  have hs : Multiset.sup (t.map Prod.fst : Multiset V) = bag.sup := by
    rw [← Multiset.sup_dedup, ← Multiset.sup_dedup (s := bag)]
    exact congrArg Multiset.sup (Multiset.dedup_ext.mpr hm)
  cases t with
  | nil =>
    have hz : bag = 0 := Multiset.eq_zero_of_forall_notMem fun v hv => by simpa using (hm v).mpr hv
    rw [Tally.join, if_pos hz]
  | cons entry rest =>
    have hn : bag ≠ 0 := by
      rintro rfl
      exact absurd ((hm entry.1).mp (by simp)) (Multiset.notMem_zero _)
    rw [if_neg hn, ← hs, Tally.join, foldl_sup, map_cons, ← Multiset.cons_coe, Multiset.sup_cons]

end

end Tally

end Honk.Lib
