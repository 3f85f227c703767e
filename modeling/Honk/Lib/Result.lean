import Mathlib

namespace Honk.Lib

open List

theorem bind_eq_ok {ε α β : Type} {x : Except ε α} {f : α → Except ε β} {b : β} : x >>= f = .ok b ↔ ∃ a, x = .ok a ∧ f a = .ok b := by
  cases x with
  | error e | ok a => simp [bind, Except.bind]

theorem bind_eq_error {ε α β : Type} {x : Except ε α} {f : α → Except ε β} {e : ε} :
    x >>= f = .error e ↔ x = .error e ∨ ∃ a, x = .ok a ∧ f a = .error e := by
  cases x with
  | error e' | ok a => simp [bind, Except.bind]

theorem mapError_eq_ok {ε ε' α : Type} {x : Except ε α} {f : ε → ε'} {a : α} : x.mapError f = .ok a ↔ x = .ok a := by
  cases x with
  | error e | ok a => simp [Except.mapError]

theorem map_eq_ok {ε α β : Type} {x : Except ε α} {f : α → β} {b : β} (h : x.map f = .ok b) : ∃ a, x = .ok a ∧ f a = b := by
  cases x with
  | error e => cases h
  | ok a => exact ⟨a, rfl, Except.ok.inj h⟩

theorem forM_eq_ok {α ε : Type} {f : α → Except ε Unit} {xs : List α} (h : xs.forM f = .ok ()) : ∀ x ∈ xs, f x = .ok () := by
  induction xs with
  | nil => simp
  | cons x xs ih =>
    rw [List.forM, bind_eq_ok] at h
    obtain ⟨_, hx, hxs⟩ := h
    intro y hy
    rcases mem_cons.mp hy with rfl | hy
    · exact hx
    · exact ih hxs y hy

theorem mapM_eq_ok {α β ε : Type} {f : α → Except ε β} {xs : List α} {ys : List β} :
    xs.mapM f = .ok ys ↔ List.Forall₂ (fun x y => f x = .ok y) xs ys := by
  induction xs generalizing ys with
  | nil =>
    rw [forall₂_nil_left_iff]
    exact ⟨fun h => (Except.ok.inj h).symm, fun h => by rw [h]; rfl⟩
  | cons x xs ih =>
    rw [mapM_cons, bind_eq_ok, forall₂_cons_left_iff]
    constructor
    · rintro ⟨y, hy, h⟩
      obtain ⟨rest, hr, h⟩ := bind_eq_ok.mp h
      exact ⟨y, rest, hy, ih.mp hr, (Except.ok.inj h).symm⟩
    · rintro ⟨y, rest, hy, hr, rfl⟩
      exact ⟨y, hy, bind_eq_ok.mpr ⟨rest, ih.mpr hr, rfl⟩⟩

theorem exists_of_mem_mapM {α β ε : Type} {f : α → Except ε β} {xs : List α} {ys : List β} (h : xs.mapM f = .ok ys) {y : β} (hy : y ∈ ys) :
    ∃ x ∈ xs, f x = .ok y := by
  have ha := mapM_eq_ok.mp h
  clear h
  induction ha with
  | nil => cases hy
  | cons hx _ ih =>
    obtain rfl | hy := mem_cons.mp hy
    · exact ⟨_, mem_cons_self, hx⟩
    · obtain ⟨x, hm, hx⟩ := ih hy
      exact ⟨x, mem_cons_of_mem _ hm, hx⟩

theorem exists_mapM_of_mem {α β ε : Type} {f : α → Except ε β} {xs : List α} {ys : List β} (h : xs.mapM f = .ok ys) {x : α} (hx : x ∈ xs) :
    ∃ y ∈ ys, f x = .ok y := by
  have ha := mapM_eq_ok.mp h
  clear h
  induction ha with
  | nil => cases hx
  | cons hy _ ih =>
    obtain rfl | hx := mem_cons.mp hx
    · exact ⟨_, mem_cons_self, hy⟩
    · obtain ⟨y, hm, hy⟩ := ih hx
      exact ⟨y, mem_cons_of_mem _ hm, hy⟩

theorem mapM_eq_error {α β ε : Type} {f : α → Except ε β} {xs : List α} {e : ε} (h : xs.mapM f = .error e) : ∃ x ∈ xs, f x = .error e := by
  induction xs with
  | nil => cases h
  | cons x xs ih =>
    rw [mapM_cons, bind_eq_error] at h
    obtain hx | ⟨y, -, h⟩ := h
    · exact ⟨x, mem_cons_self, hx⟩
    obtain hr | ⟨rest, -, h⟩ := bind_eq_error.mp h
    · obtain ⟨x', hm, hx'⟩ := ih hr
      exact ⟨x', mem_cons_of_mem _ hm, hx'⟩
    · cases h

end Honk.Lib
