import Mathlib

namespace Honk.Lib

open Function

structure Elements (K V : Type) where
  entries : K → Option ℕ
  memory : ℕ → V
  live : Finset ℕ
  linked : ∀ key a, entries key = some a → a ∈ live
  apart : ∀ key other a, entries key = some a → entries other = some a → key = other

namespace Elements

variable {K V : Type}

def empty (v : V) : Elements K V where
  entries _ := none
  memory _ := v
  live := ∅
  linked _ _ h := by cases h
  apart _ _ _ h := by cases h

def get (m : Elements K V) (key : K) : Option V := (m.entries key).map m.memory

def update (m : Elements K V) (a : ℕ) (v : V) : Elements K V := { m with memory := Function.update m.memory a v }

variable (m : Elements K V)

variable [DecidableEq K]

def insert (m : Elements K V) (key : K) (a : ℕ) (v : V) (ha : a ∉ m.live) : Elements K V where
  entries := Function.update m.entries key (some a)
  memory := Function.update m.memory a v
  live := Insert.insert a m.live
  linked other b h := by
    by_cases hkey : other = key
    · rw [hkey, update_self] at h
      rw [← Option.some.inj h]
      exact Finset.mem_insert_self ..
    · rw [update_of_ne hkey] at h
      exact Finset.mem_insert_of_mem (m.linked other b h)
  apart k k' b h h' := by
    have hne : ∀ {other}, m.entries other = some a → False := fun hother => ha (m.linked _ _ hother)
    by_cases hk : k = key
    · by_cases hk' : k' = key
      · rw [hk, hk']
      · rw [hk, update_self] at h
        rw [update_of_ne hk', ← h] at h'
        exact (hne h').elim
    rw [update_of_ne hk] at h
    by_cases hk' : k' = key
    · rw [hk', update_self] at h'
      rw [← h'] at h
      exact (hne h).elim
    · rw [update_of_ne hk'] at h'
      exact m.apart k k' b h h'

def remove (m : Elements K V) (key : K) : Elements K V where
  entries := Function.update m.entries key none
  memory := m.memory
  live := m.live \ (m.entries key).toFinset
  linked other b h := by
    by_cases hkey : other = key
    · rw [hkey, update_self] at h
      cases h
    rw [update_of_ne hkey] at h
    refine Finset.mem_sdiff.mpr ⟨m.linked other b h, fun hmem => hkey ?_⟩
    exact m.apart other key b h (Option.mem_toFinset.mp hmem)
  apart k k' b h h' := by
    by_cases hk : k = key
    · rw [hk, update_self] at h
      cases h
    rw [update_of_ne hk] at h
    by_cases hk' : k' = key
    · rw [hk', update_self] at h'
      cases h'
    · rw [update_of_ne hk'] at h'
      exact m.apart k k' b h h'

variable {a : ℕ} {key : K} {v : V}

@[simp] theorem insert_entries (ha : a ∉ m.live) : (m.insert key a v ha).entries = Function.update m.entries key (some a) := rfl

@[simp] theorem insert_memory (ha : a ∉ m.live) : (m.insert key a v ha).memory = Function.update m.memory a v := rfl

@[simp] theorem remove_entries : (m.remove key).entries = Function.update m.entries key none := rfl

theorem entries_of_remove {m : Elements K V} {other : K} (h : (m.remove key).entries other = some a) : m.entries other = some a := by
  rw [remove_entries] at h
  by_cases hk : other = key
  · rw [hk, update_self] at h
    cases h
  · rwa [update_of_ne hk] at h

end Elements

end Honk.Lib
