import Mathlib

namespace Honk.Lib

open List

/-- A program over a state that may stop with an error; what it did to the state by then stays. -/
abbrev Program (S E : Type) := ExceptT E (StateM S)

namespace Program

variable {S T E α β : Type}

def exec (m : Program S E α) (s : S) : Except E α × S := StateT.run (ExceptT.run m) s

def ofExec (f : S → Except E α × S) : Program S E α := ExceptT.mk f

def attempt (m : Program S E α) : Program S E (Except E α) := ofExec fun s => (.ok (m.exec s).1, (m.exec s).2)

def zoom (part : S → T) (put : S → T → S) (m : Program T E α) : Program S E α :=
  ofExec fun s => ((m.exec (part s)).1, put s (m.exec (part s)).2)

def ensure (p : Prop) [Decidable p] (e : E) : Program S E Unit := if p then pure () else throw e

def Ensures (m : Program S E α) (s : S) (Φ : Except E α → S → Prop) : Prop := Φ (m.exec s).1 (m.exec s).2

def Returns (Φ : α → S → Prop) (R : E → S → Prop) : Except E α → S → Prop
  | .ok a, s => Φ a s
  | .error e, s => R e s

variable {e : E}

variable {m : Program S E α} {s : S}

@[simp] theorem exec_pure : exec (pure a : Program S E α) s = (.ok a, s) := rfl

@[simp] theorem exec_throw : exec (throw e : Program S E α) s = (.error e, s) := rfl

@[simp] theorem exec_ofExec : exec (ofExec f) s = f s := rfl

theorem ensures_modify (h : Φ (.ok ()) (f s)) : (modify f : Program S E Unit).Ensures s Φ := h

theorem ensures_get (h : Φ (.ok s) s) : (get : Program S E S).Ensures s Φ := h

theorem exec_bind : exec (m >>= f) s = match m.exec s with
      | (.ok a, s') => (f a).exec s'
      | (.error e, s') => (.error e, s') := by
  rcases h : m.exec s with ⟨r, s'⟩
  have hm : m s = (r, s') := h
  cases r with
  | ok a => simp [exec, bind, ExceptT.bind, ExceptT.mk, ExceptT.run, ExceptT.bindCont, StateT.run, StateT.bind, hm]
  | error e =>
    simp [exec, bind, ExceptT.bind, ExceptT.mk, ExceptT.run, ExceptT.bindCont, StateT.run, StateT.bind, hm, pure, StateT.pure]

theorem Ensures.mono (h : m.Ensures s Φ) (him : ∀ r s', Φ r s' → Ψ r s') : m.Ensures s Ψ := him _ _ h

theorem ensures_pure (h : Φ (.ok a) s) : (pure a : Program S E α).Ensures s Φ := h

theorem ensures_throw (h : Φ (.error e) s) : (throw e : Program S E α).Ensures s Φ := h

theorem Ensures.bind {f : α → Program S E β} {Q : α → S → Prop} {R : E → S → Prop} {Φ : Except E β → S → Prop}
    (h : m.Ensures s (Returns Q R)) (ho : ∀ a s', Q a s' → (f a).Ensures s' Φ)
    (he : ∀ e s', R e s' → Φ (.error e) s') : (m >>= f).Ensures s Φ := by
  unfold Ensures at h ⊢
  rw [exec_bind]
  rcases hm : m.exec s with ⟨r, s'⟩
  rw [hm] at h
  cases r with
  | ok a => exact ho a s' h
  | error e => exact he e s' h

theorem ensures_ensure [Decidable p] (ho : p → Φ (.ok ()) s) (he : ¬ p → Φ (.error e) s) : (ensure p e : Program S E Unit).Ensures s Φ := by
  unfold ensure
  split
  · exact ho ‹_›
  · exact he ‹_›

theorem ensures_attempt (h : m.Ensures s fun r s' => Φ (.ok r) s') : m.attempt.Ensures s Φ := h

theorem ensures_zoom {part : S → T} {put : S → T → S} {m : Program T E α} {Φ : Except E α → S → Prop}
    (h : m.Ensures (part s) fun r t => Φ r (put s t)) : (zoom part put m).Ensures s Φ := h

theorem ensures_forM {ι : Type} {body : ι → Program S E Unit} {I : List ι → S → Prop} {R : E → S → Prop} :
    ∀ (items : List ι), I items s → (∀ item rest s', I (item :: rest) s' → (body item).Ensures s' (Returns (fun _ => I rest) R)) →
      (items.forM body).Ensures s (Returns (fun _ => I []) R) := by
  intro items
  induction items generalizing s with
  | nil => exact fun h _ => h
  | cons item rest ih =>
    intro h hb
    exact Ensures.bind (hb item rest s h) (fun _ _ hre => ih hre hb) fun _ _ hr => hr

variable {I : S → Prop}

def Keeps (I : S → Prop) (m : Program S E α) : Prop := ∀ s, I s → m.Ensures s fun _ s' => I s'

theorem keeps_pure (a : α) : Keeps I (pure a : Program S E α) := fun _ h => h

theorem keeps_throw (e : E) : Keeps I (throw e : Program S E α) := fun _ h => h

theorem keeps_get : Keeps I (get : Program S E S) := fun _ h => h

theorem keeps_modify (h : ∀ s, I s → I (f s)) : Keeps I (modify f : Program S E Unit) := h

theorem keeps_ensure [Decidable p] : Keeps I (ensure p e : Program S E Unit) :=
  fun _ h => ensures_ensure (fun _ => h) fun _ => h

theorem Keeps.bind {f : α → Program S E β} (h : Keeps I m) (hf : ∀ a, Keeps I (f a)) : Keeps I (m >>= f) := by
  intro s hs
  refine Ensures.bind (Q := fun _ s' => I s') (R := fun _ s' => I s') (Ensures.mono (h s hs) ?_)
    (fun a s' hs' => hf a s' hs') fun _ _ hs' => hs'
  rintro (e | a) s' hs'
  · exact hs'
  · exact hs'

theorem Keeps.attempt (h : Keeps I m) : Keeps I m.attempt := h

theorem keeps_forM {items : List ι} (h : ∀ item ∈ items, Keeps I (body item)) : Keeps I (items.forM body) := by
  induction items with
  | nil => exact keeps_pure _
  | cons item rest ih =>
    exact Keeps.bind (h item (mem_cons_self ..)) fun _ => ih fun other ho => h other (mem_cons_of_mem _ ho)

theorem keeps_mapM {items : List ι} (h : ∀ item ∈ items, Keeps I (body item)) : Keeps I (items.mapM body) := by
  induction items with
  | nil => exact keeps_pure _
  | cons item rest ih =>
    rw [mapM_cons]
    exact Keeps.bind (h item (mem_cons_self ..)) fun _ =>
      Keeps.bind (ih fun other ho => h other (mem_cons_of_mem _ ho)) fun _ => keeps_pure _

end Program

end Honk.Lib
