import Mathlib

namespace Honk.Nfqueue

open List

structure AdmissionState where
  isOpen : Bool := false
  epoch : ℕ := 0
  inFlight : ℕ := 0

namespace AdmissionState

variable (state : AdmissionState)

def opens : Option AdmissionState := if state.inFlight = 0 then some { state with isOpen := true } else none

/-- A new ticket, that is its epoch; none where the gate is closed, or the count would overflow. -/
def tryEnter : Option (AdmissionState × ℕ) :=
  if state.isOpen ∧ state.inFlight + 1 < 2 ^ 64 then some ({ state with inFlight := state.inFlight + 1 }, state.epoch)
  else none

/-- The ticket is compared outside the lock, and is in flight until it is dropped even where it is of another epoch. -/
def tryEnterAt (epoch : ℕ) : Option ℕ := (state.tryEnter.map Prod.snd).filter (· = epoch)

def leave : Option AdmissionState :=
  if state.inFlight = 0 then none else some { state with inFlight := state.inFlight - 1 }

/-- The epoch that is left closed. The last one does not advance: the call panics once it has closed the gate. -/
def close : AdmissionState × Option ℕ :=
  if state.isOpen then
    if state.epoch + 1 < 2 ^ 64 then ({ state with isOpen := false, epoch := state.epoch + 1 }, some (state.epoch + 1))
    else ({ state with isOpen := false }, none)
  else (state, some state.epoch)

variable {state}

theorem tryEnter_eq_some (h : state.tryEnter = some (state', ticket)) :
    state.isOpen = true ∧ ticket = state.epoch ∧ state' = { state with inFlight := state.inFlight + 1 } := by
  unfold tryEnter at h
  split at h
  · rename_i ho
    cases h
    exact ⟨ho.1, rfl, rfl⟩
  · cases h

end AdmissionState

/-- The gate with its tickets in flight, and the calls of `close_and_wait` that wait and that have returned. -/
structure AdmissionGate where
  state : AdmissionState := {}
  tickets : List ℕ := []
  closing : List ℕ := []
  closed : List ℕ := []

/-- A section under the lock. A `check` is a turn of the loop in `close_and_wait`, for a call that closed `epoch`. -/
inductive AdmissionEvent where
  | opens
  | enter
  | drop (ticket : ℕ)
  | close
  | check (epoch : ℕ)

namespace AdmissionGate

variable (gate : AdmissionGate)

def step : AdmissionEvent → AdmissionGate
  | .opens => { gate with state := gate.state.opens.getD gate.state }
  | .enter =>
    match gate.state.tryEnter with
    | some (state, ticket) => { gate with state, tickets := ticket :: gate.tickets }
    | none => gate
  | .drop ticket =>
    if ticket ∈ gate.tickets then
      { gate with state := gate.state.leave.getD gate.state, tickets := gate.tickets.erase ticket }
    else gate
  | .close => { gate with state := gate.state.close.1, closing := gate.state.close.2.toList ++ gate.closing }
  | .check epoch =>
    if epoch ∈ gate.closing ∧ gate.state.inFlight = 0 then
      { gate with closing := gate.closing.erase epoch, closed := epoch :: gate.closed }
    else gate

structure Inv : Prop where
  count : gate.state.inFlight = gate.tickets.length
  passed : ∀ epoch ∈ gate.closed, ∀ ticket ∈ gate.tickets, epoch ≤ ticket
  begun : ∀ epoch ∈ gate.closing ++ gate.closed, epoch ≤ gate.state.epoch

variable {gate} in
theorem Inv.step (h : gate.Inv) (event : AdmissionEvent) : (gate.step event).Inv := by
  fun_cases AdmissionGate.step gate event with
  | case1 =>
    rw [AdmissionState.opens]
    split <;> exact ⟨h.count, h.passed, h.begun⟩
  | case2 state ticket hs =>
    obtain ⟨-, rfl, rfl⟩ := AdmissionState.tryEnter_eq_some hs
    refine ⟨congrArg (· + 1) h.count, fun epoch he => forall_mem_cons.mpr ⟨?_, h.passed epoch he⟩, h.begun⟩
    exact h.begun epoch (mem_append_right _ he)
  | case4 ticket hm =>
    have hl := length_erase_of_mem hm
    have hp := length_pos_of_mem hm
    rw [AdmissionState.leave, if_neg (h.count ▸ hp.ne')]
    refine ⟨?_, fun epoch he ticket ht => h.passed epoch he ticket (mem_of_mem_erase ht), h.begun⟩
    exact (congrArg (· - 1) h.count).trans hl.symm
  | case6 =>
    rw [AdmissionState.close]
    split_ifs
    · exact ⟨h.count, h.passed, forall_mem_cons.mpr ⟨le_rfl, fun epoch he => (h.begun epoch he).trans (Nat.le_succ _)⟩⟩
    · exact ⟨h.count, h.passed, h.begun⟩
    · exact ⟨h.count, h.passed, forall_mem_cons.mpr ⟨le_rfl, h.begun⟩⟩
  | case7 epoch hm =>
    have hn : gate.tickets = [] := length_eq_zero_iff.mp (h.count.symm.trans hm.2)
    refine ⟨h.count, fun _ _ ticket ht => absurd (hn ▸ ht) not_mem_nil, fun other ho => h.begun other ?_⟩
    rcases mem_append.mp ho with ho | ho
    · exact mem_append_left _ (mem_of_mem_erase ho)
    · rcases mem_cons.mp ho with rfl | ho
      · exact mem_append_left _ hm.1
      · exact mem_append_right _ ho
  | _ => exact h

end AdmissionGate

end Honk.Nfqueue
