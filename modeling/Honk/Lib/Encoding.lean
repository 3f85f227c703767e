import Honk.Lib.Bytes

namespace Honk.Lib

open List

/-- What is written can be told apart from anything that may follow it, up to `view`. -/
def SelfDelimiting {α β : Type} (encode : α → List Byte) (view : α → β) : Prop :=
  ∀ a b s t, encode a ++ s = encode b ++ t → view a = view b ∧ s = t

abbrev Sized (α : Type) := { xs : List α // xs.length < 2 ^ 64 }

def counted {α : Type} (encode : α → List Byte) (xs : Sized α) : List Byte := leBytes 8 xs.1.length ++ xs.1.flatMap encode

namespace SelfDelimiting

variable {α β γ : Type} {encode encode' : α → List Byte} {view : α → β} {view' : α → γ}

theorem of_length (hl : ∀ a, (encode a).length = n) (hin : ∀ a b, encode a = encode b → view a = view b) : SelfDelimiting encode view := by
  intro a b s t h
  obtain ⟨hc, hr⟩ := append_inj h ((hl a).trans (hl b).symm)
  exact ⟨hin a b hc, hr⟩

section

variable (h : SelfDelimiting encode view)
include h

theorem append (h' : SelfDelimiting encode' view') : SelfDelimiting (fun a => encode a ++ encode' a) fun a => (view a, view' a) := by
  intro a b s t he
  rw [append_assoc, append_assoc] at he
  obtain ⟨hv, hr⟩ := h a b _ _ he
  obtain ⟨hv', hs⟩ := h' a b s t hr
  exact ⟨Prod.ext hv hv', hs⟩

theorem weaken (hv : ∀ a b, view a = view b → view' a = view' b) : SelfDelimiting encode view' := by
  intro a b s t he
  obtain ⟨hs, hst⟩ := h a b s t he
  exact ⟨hv a b hs, hst⟩

theorem comp (f : γ → α) : SelfDelimiting (fun c => encode (f c)) fun c => view (f c) :=
  fun a b s t he => h (f a) (f b) s t he

end

theorem tagged (h : SelfDelimiting encode id) (make : α → δ)
    (he : tag :: encode a ++ s = tag :: encode b ++ t) : make a = make b ∧ s = t := by
  obtain ⟨hs, hst⟩ := h a b s t (List.cons.inj he).2
  exact ⟨congrArg make hs, hst⟩

theorem flatMap (h : SelfDelimiting encode view) {xs ys : List α} (hl : xs.length = ys.length)
    {s t : List Byte} (he : xs.flatMap encode ++ s = ys.flatMap encode ++ t) : xs.map view = ys.map view ∧ s = t := by
  induction xs generalizing ys with
  | nil =>
    obtain rfl := eq_nil_of_length_eq_zero hl.symm
    exact ⟨rfl, he⟩
  | cons x xs ih =>
    cases ys with
    | nil => cases hl
    | cons y ys =>
      rw [flatMap_cons, flatMap_cons, append_assoc, append_assoc] at he
      obtain ⟨hvi, hr⟩ := h x y _ _ he
      obtain ⟨hv, hs⟩ := ih (Nat.succ.inj hl) hr
      exact ⟨by rw [map_cons, map_cons, hvi, hv], hs⟩

theorem leBytes (hl : ∀ a, number a < 256 ^ n) : SelfDelimiting (fun a => Lib.leBytes n (number a)) number :=
  of_length (fun _ => leBytes_length n _) fun a b => leBytes_injective (hl a) (hl b)

theorem counted (h : SelfDelimiting encode view) : SelfDelimiting (counted encode) fun xs => xs.1.map view := by
  intro xs ys s t he
  rw [Lib.counted, Lib.counted, append_assoc, append_assoc] at he
  obtain ⟨hl, hr⟩ := leBytes (n := 8) (fun xs : Sized α => xs.2) xs ys _ _ he
  exact h.flatMap hl hr

end SelfDelimiting

end Honk.Lib
