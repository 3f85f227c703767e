import Mathlib

namespace Honk.Dns

open List Function

def maxActiveFlights : ℕ := 2048

def maxWaitersPerFlight : ℕ := 256

/-- A flight is the channel of one leader, and the map of `entries` holds its only sender. `leaders` and `waiters` are the
handles that are still alive; a `FlightLeader` of the code holds its key alone, the flight it opened is a history, and so
is `ended`: what that leader published, or `none` for a leader that was dropped. -/
structure Singleflight (K R : Type) where
  entries : List (K × ℕ) := []
  sent : ℕ → Option R := fun _ => none
  leaders : List (K × ℕ) := []
  waiters : List (ℕ × ℕ) := []
  next : ℕ := 0
  ended : ℕ → Option (Option R) := fun _ => none

inductive FlightRole where
  | leader (flight : ℕ)
  | waiter (waiter flight : ℕ)
  | rejected

namespace Singleflight

variable {K R : Type} [DecidableEq K] (s : Singleflight K R)

def receiverCount (flight : ℕ) : ℕ := s.waiters.countP (·.2 = flight)

def acquire (key : K) : Singleflight K R × FlightRole :=
  match s.entries.find? (·.1 = key) with
  | some (_, flight) =>
    if maxWaitersPerFlight ≤ s.receiverCount flight then (s, .rejected)
    else ({ s with waiters := (s.next, flight) :: s.waiters, next := s.next + 1 }, .waiter s.next flight)
  | none =>
    if maxActiveFlights ≤ s.entries.length then (s, .rejected)
    else
      ({ s with
        entries := (key, s.next) :: s.entries
        leaders := (key, s.next) :: s.leaders
        next := s.next + 1 }, .leader s.next)

/-- `publish`, which `fail` calls with an error, and the drop of a leader, which sends nothing. -/
def finish (leader : K × ℕ) (result : Option R) : Singleflight K R :=
  let s := { s with
    leaders := s.leaders.filter (· ≠ leader)
    ended := Function.update s.ended leader.2 (some result) }
  match s.entries.find? (·.1 = leader.1) with
  | some (_, flight) =>
    { s with
      entries := s.entries.filter (·.1 ≠ leader.1)
      sent := result.elim s.sent fun result => Function.update s.sent flight (some result) }
  | none => s

/-- What a waiter gets: the result, the retry signal of a closed channel, or nothing yet. -/
def receive (flight : ℕ) : Option (Option R) :=
  match s.sent flight with
  | some result => some (some result)
  | none => if flight ∈ s.entries.map Prod.snd then none else some none

def dropWaiter (waiter : ℕ × ℕ) : Singleflight K R := { s with waiters := s.waiters.erase waiter }

inductive Step : Singleflight K R → Singleflight K R → Prop
  | acquire (s : Singleflight K R) (key : K) : Step s (s.acquire key).1
  | finish (s : Singleflight K R) (leader : K × ℕ) (result : Option R) (h : leader ∈ s.leaders) : Step s (s.finish leader result)
  | receive (s : Singleflight K R) (waiter : ℕ × ℕ) (h : waiter ∈ s.waiters) (result : Option R)
      (hready : s.receive waiter.2 = some result) : Step s (s.dropWaiter waiter)
  | dropWaiter (s : Singleflight K R) (waiter : ℕ × ℕ) (h : waiter ∈ s.waiters) : Step s (s.dropWaiter waiter)

structure Inv : Prop where
  same : ∀ slot, slot ∈ s.leaders ↔ slot ∈ s.entries
  keys : (s.entries.map Prod.fst).Nodup
  fresh : ∀ slot ∈ s.entries, slot.2 < s.next
  running : ∀ slot ∈ s.entries, s.ended slot.2 = none
  unopened : ∀ flight, s.next ≤ flight → s.ended flight = none
  flights : ∀ slot ∈ s.entries, ∀ other ∈ s.entries, slot.2 = other.2 → slot = other
  sent : ∀ flight, s.sent flight = (s.ended flight).join
  attached : ∀ waiter ∈ s.waiters, waiter.2 ∈ s.entries.map Prod.snd ∨ (s.ended waiter.2).isSome
  limit : s.entries.length ≤ maxActiveFlights
  waiting : ∀ flight, s.receiverCount flight ≤ maxWaitersPerFlight

variable {s}

theorem Inv.acquire (h : s.Inv) (key : K) : (s.acquire key).1.Inv := by
  unfold Singleflight.acquire
  split
  · rename_i slot flight hfi
    split_ifs with hf
    · exact h
    refine { h with
      fresh := fun slot hs => (h.fresh slot hs).trans (Nat.lt_succ_self _)
      unopened := fun flight hl => h.unopened flight (Nat.le_of_succ_le hl)
      attached := ?_
      waiting := fun other => ?_ }
    · exact forall_mem_cons.mpr ⟨.inl (mem_map_of_mem (mem_of_find?_eq_some hfi)), h.attached⟩
    have ho := h.waiting other
    unfold receiverCount at hf ho ⊢
    rw [countP_cons]
    split_ifs with he
    · obtain rfl := of_decide_eq_true he
      exact Nat.not_le.mp hf
    · exact ho
  rename_i hfi
  split_ifs with hf
  · exact h
  have hn : ∀ slot ∈ s.entries, slot.1 ≠ key := by simpa using hfi
  refine ⟨fun slot => ?_, ?_, ?_, ?_, fun flight hl => h.unopened flight (Nat.le_of_succ_le hl), ?_, h.sent, ?_, ?_, h.waiting⟩
  · rw [mem_cons, mem_cons, h.same]
  · refine nodup_cons.mpr ⟨fun hm => ?_, h.keys⟩
    obtain ⟨slot, hs, he⟩ := mem_map.mp hm
    exact hn slot hs he
  · exact forall_mem_cons.mpr ⟨Nat.lt_succ_self _, fun slot hs => (h.fresh slot hs).trans (Nat.lt_succ_self _)⟩
  · exact forall_mem_cons.mpr ⟨h.unopened _ le_rfl, h.running⟩
  · have ha : ∀ slot ∈ s.entries, slot.2 ≠ s.next := fun slot hs => (h.fresh slot hs).ne
    refine forall_mem_cons.mpr ⟨forall_mem_cons.mpr ⟨fun _ => rfl, fun other ho he => ?_⟩, fun slot hs =>
      forall_mem_cons.mpr ⟨fun he => absurd he (ha slot hs), h.flights slot hs⟩⟩
    exact absurd he.symm (ha other ho)
  · exact fun waiter hw => (h.attached waiter hw).imp_left (mem_cons_of_mem _)
  · exact Nat.not_le.mp hf

/-- The entry under a leader's key is the leader's own flight. -/
theorem Inv.finish_eq (h : s.Inv) (hl : leader ∈ s.leaders) : s.finish leader result = { s with
      leaders := s.leaders.filter (· ≠ leader)
      ended := Function.update s.ended leader.2 (some result)
      entries := s.entries.filter (· ≠ leader)
      sent := Function.update s.sent leader.2 result } := by
  have hm := (h.same leader).mp hl
  have ho : ∀ slot ∈ s.entries, slot.1 = leader.1 ↔ slot = leader := fun slot hs =>
    ⟨inj_on_of_nodup_map h.keys hs hm, congrArg Prod.fst⟩
  have hfi : s.entries.find? (·.1 = leader.1) = some leader := by
    cases hfi : s.entries.find? (·.1 = leader.1) with
    | none => simpa using find?_eq_none.mp hfi leader hm
    | some slot => rw [(ho slot (mem_of_find?_eq_some hfi)).mp (by simpa using find?_some hfi)]
  have hse : Function.update s.sent leader.2 none = s.sent := by
    rw [update_eq_self_iff, h.sent, h.running leader hm]
    rfl
  have hf : s.entries.filter (·.1 ≠ leader.1) = s.entries.filter (· ≠ leader) := filter_congr fun slot hs => by simp [ho slot hs]
  unfold finish
  dsimp only
  rw [hfi]
  dsimp only
  rw [hf]
  cases result with
  | some result => rfl
  | none => rw [hse]; rfl

theorem Inv.finish (h : s.Inv) (hleader : leader ∈ s.leaders) (result : Option R) : (s.finish leader result).Inv := by
  have hm := (h.same leader).mp hleader
  rw [h.finish_eq hleader]
  have hk : ∀ slot, slot ∈ s.entries.filter (· ≠ leader) → slot ∈ s.entries ∧ slot.2 ≠ leader.2 := fun slot hs => by
    obtain ⟨hs, hn⟩ := mem_filter.mp hs
    exact ⟨hs, fun he => of_decide_eq_true hn (h.flights slot hs leader hm he)⟩
  refine ⟨fun slot => ?_, (filter_sublist.map _).nodup h.keys, fun slot hs => h.fresh slot (hk slot hs).1,
    fun slot hs => ?_, fun flight hle => ?_, fun slot hs other ho => h.flights slot (hk slot hs).1 other (hk other ho).1,
    fun flight => ?_, fun waiter hw => ?_, (length_filter_le _ _).trans h.limit, h.waiting⟩
  · rw [mem_filter, mem_filter, h.same]
  · exact (update_of_ne (hk slot hs).2 _ _).trans (h.running slot (hk slot hs).1)
  · exact (update_of_ne ((h.fresh leader hm).trans_le hle).ne' _ _).trans (h.unopened flight hle)
  · dsimp only
    by_cases he : flight = leader.2
    · rw [he, update_self, update_self]
      rfl
    · rw [update_of_ne he, update_of_ne he, h.sent]
  dsimp only
  by_cases he : waiter.2 = leader.2
  · rw [he, update_self]
    exact .inr rfl
  rw [update_of_ne he]
  refine (h.attached waiter hw).imp_left fun hf => ?_
  obtain ⟨slot, hs, hsn⟩ := mem_map.mp hf
  exact hsn ▸ mem_map_of_mem (mem_filter.mpr ⟨hs, decide_eq_true fun hl => he (hsn.symm.trans (hl ▸ rfl))⟩)

omit [DecidableEq K] in
theorem Inv.dropWaiter (h : s.Inv) (waiter : ℕ × ℕ) : (s.dropWaiter waiter).Inv :=
  { h with
    attached := fun other ho => h.attached other (mem_of_mem_erase ho)
    waiting := fun flight => erase_sublist.countP_le.trans (h.waiting flight) }

theorem inv_of_run (h : Relation.ReflTransGen Step {} s) : s.Inv := by
  induction h with
  | refl => constructor <;> simp [receiverCount]
  | tail _ hs ih =>
    cases hs with
    | acquire key => exact ih.acquire key
    | finish leader result hl => exact ih.finish hl result
    | receive waiter | dropWaiter waiter => exact ih.dropWaiter waiter

end Singleflight

end Honk.Dns
