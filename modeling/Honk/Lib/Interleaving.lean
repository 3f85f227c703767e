import Mathlib

namespace Honk.Lib

open List Function

/-- Handlers that run one atomic section at a time over shared state. A section reads an answer from
outside (a clock, a lock, a backend); `reclaim` is what the runtime does once no handler can see it. -/
structure System (S L X : Type) where
  init : S
  idle : L
  step : S → L → X → Option (S × L)
  reclaim : S → (ℕ → L) → S → Prop

namespace System

variable {S L X : Type} (sys : System S L X)

inductive Reachable : S → (ℕ → L) → Prop
  | init : Reachable sys.init fun _ => sys.idle
  | step (s s' : S) (ls : ℕ → L) (i : ℕ) (x : X) (l' : L) (h : Reachable s ls)
      (hs : sys.step s (ls i) x = some (s', l')) : Reachable s' (Function.update ls i l')
  | reclaim (s s' : S) (ls : ℕ → L) (h : Reachable s ls) (hs : sys.reclaim s ls s') : Reachable s' ls

def run : List (ℕ × X) → S × (ℕ → L) → Option (S × (ℕ → L))
  | [], config => some config
  | (i, x) :: schedule, (s, ls) =>
    match sys.step s (ls i) x with
    | some (s', l') => run schedule (s', Function.update ls i l')
    | none => none

variable {s s' : S} {ls ls' : ℕ → L} {schedule : List (ℕ × X)}

theorem Reachable.run (h : sys.Reachable s ls) (hr : sys.run schedule (s, ls) = some (s', ls')) : sys.Reachable s' ls' := by
  induction schedule generalizing s ls with
  | nil =>
    cases hr
    exact h
  | cons entry schedule ih =>
    rw [System.run] at hr
    split at hr
    · rename_i hs
      exact ih (.step _ _ _ _ _ _ h hs) hr
    · cases hr

theorem exists_reachable_of_run (schedule : List (ℕ × X)) (P : S × (ℕ → L) → Bool)
    (h : (sys.run schedule (sys.init, fun _ => sys.idle)).any P = true) : ∃ s ls, sys.Reachable s ls ∧ P (s, ls) = true := by
  obtain ⟨⟨s, ls⟩, hr, hP⟩ := (Option.any_eq_true _ _).mp h
  exact ⟨s, ls, Reachable.run sys .init hr, hP⟩

theorem run_frame (h : sys.run schedule (s, ls) = some (s', ls')) (hj : ∀ entry ∈ schedule, entry.1 ≠ j) : ls' j = ls j := by
  induction schedule generalizing s ls with
  | nil =>
    cases h
    rfl
  | cons entry schedule ih =>
    rw [System.run] at h
    split at h
    · rw [ih h fun entry' he => hj entry' (mem_cons_of_mem _ he)]
      exact update_of_ne (hj entry mem_cons_self).symm _ _
    · cases h

inductive ReachableWhile (P : S → (ℕ → L) → X → Prop) : S → (ℕ → L) → Prop
  | init : ReachableWhile P sys.init fun _ => sys.idle
  | step (s s' : S) (ls : ℕ → L) (i : ℕ) (x : X) (l' : L) (h : ReachableWhile P s ls) (hP : P s ls x)
      (hs : sys.step s (ls i) x = some (s', l')) : ReachableWhile P s' (Function.update ls i l')
  | reclaim (s s' : S) (ls : ℕ → L) (h : ReachableWhile P s ls) (hs : sys.reclaim s ls s') : ReachableWhile P s' ls

theorem ReachableWhile.run (h : sys.ReachableWhile P s ls)
    (hP : ∀ entry ∈ schedule, ∀ s ls, P s ls entry.2) (hr : sys.run schedule (s, ls) = some (s', ls')) :
    sys.ReachableWhile P s' ls' := by
  induction schedule generalizing s ls with
  | nil =>
    cases hr
    exact h
  | cons entry schedule ih =>
    rw [System.run] at hr
    split at hr
    · rename_i hs
      exact ih (.step _ _ _ _ _ _ h (hP entry mem_cons_self _ _) hs) (fun entry' he => hP entry' (mem_cons_of_mem _ he)) hr
    · cases hr

structure Invariant (I : S → Prop) (A : S → L → Prop) (B : L → L → Prop) : Prop where
  symm : ∀ l m, B l m → B m l
  init : I sys.init
  idle : A sys.init sys.idle
  apart : B sys.idle sys.idle
  step : ∀ s l x s' l', I s → A s l → sys.step s l x = some (s', l') → I s' ∧ A s' l'
  others : ∀ s l x s' l' m, I s → A s l → A s m → B l m → sys.step s l x = some (s', l') → A s' m ∧ B l' m
  reclaim : ∀ s ls s', I s → (∀ i, A s (ls i)) → sys.reclaim s ls s' → I s' ∧ ∀ i, A s' (ls i)

variable {sys} in
theorem Invariant.reachable (inv : sys.Invariant I A B)
    (h : sys.Reachable s ls) : I s ∧ (∀ i, A s (ls i)) ∧ ∀ i j, i ≠ j → B (ls i) (ls j) := by
  induction h with
  | init => exact ⟨inv.init, fun _ => inv.idle, fun _ _ _ => inv.apart⟩
  | step s s' ls i x l' _ hs ih =>
    obtain ⟨hI, hA, hB⟩ := ih
    obtain ⟨hI', hse⟩ := inv.step s (ls i) x s' l' hI (hA i) hs
    have ho : ∀ j, j ≠ i → A s' (ls j) ∧ B l' (ls j) := fun j hj =>
      inv.others s (ls i) x s' l' (ls j) hI (hA i) (hA j) (hB i j hj.symm) hs
    refine ⟨hI', fun j => ?_, fun j k hjk => ?_⟩
    · by_cases hj : j = i
      · rw [hj, update_self]
        exact hse
      · rw [update_of_ne hj]
        exact (ho j hj).1
    by_cases hj : j = i
    · rw [hj, update_self, update_of_ne (fun hk => hjk (hj.trans hk.symm))]
      exact (ho k fun hk => hjk (hj.trans hk.symm)).2
    rw [update_of_ne hj]
    by_cases hk : k = i
    · rw [hk, update_self]
      exact inv.symm _ _ (ho j hj).2
    · rw [update_of_ne hk]
      exact hB j k hjk
  | reclaim s s' ls _ hs ih =>
    obtain ⟨hI, hA, hB⟩ := ih
    obtain ⟨hI', hA'⟩ := inv.reclaim s ls s' hI hA hs
    exact ⟨hI', hA', hB⟩

end System

variable {E : Type}

/-- Each event of a history, newest first, was fine given what came before it. -/
def Always (P : E → List E → Prop) : List E → Prop
  | [] => True
  | e :: earlier => P e earlier ∧ Always P earlier

theorem Always.split (h : Always P log) (hl : log = later ++ e :: earlier) : P e earlier := by
  induction later generalizing log with
  | nil =>
    subst hl
    exact h.1
  | cons e' later ih =>
    subst hl
    exact ih h.2 rfl

end Honk.Lib
