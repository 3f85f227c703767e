import Mathlib

namespace Honk.Lib

structure Clock where
  reading : ℕ → ℕ
  mono : Monotone reading

def Timed (α : Type) : Type := ℕ → α × ℕ

instance : Monad Timed where
  pure x := fun k => (x, k)
  bind m f := fun k => f (m k).1 (m k).2

def Attempt (ε α : Type) : Type := ℕ → Except ε (α × ℕ)

instance {ε : Type} : Monad (Attempt ε) where
  pure x := fun k => .ok (x, k)
  bind m f := fun k => (m k).bind fun result => f result.1 result.2

namespace Attempt

variable {ε α : Type}

def fail (error : ε) : Attempt ε α := fun _ => .error error

def lift (m : Timed α) : Attempt ε α := fun k => .ok (m k)

end Attempt

variable {ε α β : Type} (clock : Clock) (deadline : ℕ)

def Clock.live : Timed Bool := fun k => (decide (clock.reading k < deadline), k + 1)

def Clock.check (error : ε) : Attempt ε Unit := fun k => if deadline ≤ clock.reading k then .error error else .ok ((), k + 1)

def Close (m : Timed α) (value : α) : Prop := ∀ k, k ≤ (m k).2 ∧ ((m k).1 = value ∨ deadline ≤ clock.reading (m k).2)

def Yields (m : Attempt ε α) (value : α) : Prop := ∀ k x k', m k = .ok (x, k') → x = value

variable {clock deadline}

theorem close_pure (x : α) : Close clock deadline (pure x) x := fun _ => ⟨le_rfl, .inl rfl⟩

theorem close_live : Close clock deadline (clock.live deadline) true := by
  intro k
  refine ⟨Nat.le_succ k, ?_⟩
  obtain hb | ha := lt_or_ge (clock.reading k) deadline
  · exact .inl (decide_eq_true hb)
  · exact .inr (ha.trans (clock.mono (Nat.le_succ k)))

theorem close_bind {m : Timed α} {f : α → Timed β} {value : α} {final : α → β} (hm : Close clock deadline m value)
    (hf : ∀ x, Close clock deadline (f x) (final x)) : Close clock deadline (m >>= f) (final value) := by
  intro k
  obtain ⟨hle, hv⟩ := hm k
  obtain ⟨hle', hfi⟩ := hf (m k).1 (m k).2
  refine ⟨hle.trans hle', ?_⟩
  obtain hv | hl := hv
  · rw [← hv]
    exact hfi
  · exact .inr (hl.trans (clock.mono hle'))

theorem close_ite (condition : Bool) (hm : Close clock deadline m value) (hn : Close clock deadline n other) :
    Close clock deadline (if condition then m else n) (if condition then value else other) := by
  cases condition with
  | true => exact hm
  | false => exact hn

theorem yields_pure (x : α) : Yields (pure x : Attempt ε α) x := by
  intro k y k' h
  cases h
  rfl

theorem yields_bind (hm : Yields m value) (hf : Yields (f value) final) : Yields (m >>= f) final := by
  intro k y k' h
  cases hr : m k with
  | error e =>
    have hb : (m k).bind (fun result => f result.1 result.2) = .ok (y, k') := h
    rw [hr] at hb
    cases hb
  | ok result =>
    have hb : (m k).bind (fun result => f result.1 result.2) = .ok (y, k') := h
    rw [hr] at hb
    obtain ⟨x, k₁⟩ := result
    obtain rfl := hm k x k₁ hr
    exact hf k₁ y k' hb

theorem yields_check (error : ε) : Yields (clock.check deadline error) () := fun _ _ _ _ => rfl

theorem yields_fail (error : ε) (x : α) : Yields (Attempt.fail error) x := nofun

theorem yields_timed {m : Timed α} {value : α} (hm : Close clock deadline m value) {f : α → Attempt ε β} {final : β}
    (hf : Yields (f value) final) : Yields (Attempt.lift m >>= fun x => clock.check deadline error >>= fun _ => f x) final := by
  intro k y k' h
  have hc : (clock.check deadline error (m k).2).bind (fun result => f (m k).1 result.2) = .ok (y, k') := h
  unfold Clock.check at hc
  split at hc
  · cases hc
  rename_i hl
  obtain hv | hl' := (hm k).2
  · rw [hv] at hc
    exact hf _ y k' hc
  · exact absurd hl' hl

end Honk.Lib
