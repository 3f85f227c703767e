import Honk.Conntrack.Retirement

namespace Honk.Conntrack

open Honk.Lib Function Program RedirectTuple
open Function (update)
open List hiding Vector

structure RetirementFence where
  owner : BitVec 64
  decisionToken : BitVec 32

inductive FenceEvent where
  | inserted (key : TuplesKey) (fence : RetirementFence)
  | barrier
  -- The fences that stand when an operation starts.
  | operation (fences : TuplesKey → Option RetirementFence)

/-- The backend around its flows; `refusals` says which of the coming calls on the fences fail, and `events`
is newest first. -/
structure Backend where
  flows : Flows := {}
  fences : TuplesKey → Option RetirementFence := fun _ => none
  retireActive : BitVec 32 := 0
  retirementFailed : Bool := false
  retirementOwner : BitVec 64 := 0
  refusals : List Bool := []
  events : List FenceEvent := []

abbrev BackendProgram := Program Backend BackendError

def retireBatchCapacity : ℕ := 1024

def call {T : Type} (f : Backend → Except BackendError T × Backend) : BackendProgram T := .ofExec fun backend =>
  let asked := { backend with refusals := backend.refusals.tail }
  if backend.refusals.headD false then (.error .syscall, asked) else f asked

def setRetireActive (value : BitVec 32) : BackendProgram Unit := call fun backend =>
  (.ok (), { backend with retireActive := value })

section

variable (key : TuplesKey)

def insertFence (fence : RetirementFence) : BackendProgram Unit := call fun backend =>
  match backend.fences key with
  | some _ => (.error .syscall, backend)
  | none => (.ok (), { backend with
      fences := update backend.fences key (some fence), events := .inserted key fence :: backend.events })

def lookupFence : BackendProgram (Option RetirementFence) := call fun backend => (.ok (backend.fences key), backend)

def removeFence : BackendProgram Bool := call fun backend =>
  (.ok (backend.fences key).isSome, { backend with fences := update backend.fences key none })

def ensureResolved : BackendProgram Unit := do
  let backend ← get
  ensure (backend.retirementFailed = false) .ownershipUnresolved

def graceBarrier : BackendProgram Unit := do
  ensureResolved
  call fun backend => (.ok (), { backend with events := .barrier :: backend.events })

def nextOwner : BackendProgram (BitVec 64) := .ofExec fun backend =>
  if backend.retirementOwner = BitVec.allOnes 64 then
    (.error .ownerExhausted, { backend with retirementFailed := true })
  else (.ok (backend.retirementOwner + 1), { backend with retirementOwner := backend.retirementOwner + 1 })

structure Acquisition where
  acquired : List TuplesKey := []
  seen : List RedirectTuple := []
  failure : Option BackendError := none
  unresolved : Bool := false

def canonical : TuplesKey := { key with padding := Vector.replicate 3 0 }

end

def refused (acquisition : Acquisition) (error : BackendError) : Except BackendError (Option RetirementFence) → Acquisition
  | .ok none => { acquisition with failure := some error }
  | .ok (some _) => { acquisition with failure := some error, unresolved := true }
  | .error lookup => { acquisition with failure := some (.additional error lookup), unresolved := true }

-- The seen set holds the five fields of a key without its padding, which are those of a redirect tuple.
def acquire (owner : BitVec 64) : List (TuplesKey × BitVec 32) → Acquisition → BackendProgram Acquisition
  | [], acquisition => pure acquisition
  | (key, token) :: rest, acquisition =>
    if fromTuples key ∈ acquisition.seen then acquire owner rest acquisition
    else do
      let inserted ← (insertFence (canonical key) ⟨owner, token⟩).attempt
      match inserted with
      | .ok () => acquire owner rest { acquisition with
          acquired := acquisition.acquired ++ [canonical key]
          seen := fromTuples key :: acquisition.seen }
      | .error error => do
        let current ← (lookupFence (canonical key)).attempt
        pure (refused acquisition error current)

def recheck (owner : BitVec 64) (acquired : List TuplesKey) : BackendProgram Unit :=
  acquired.forM fun key => do
    let current ← lookupFence key
    ensure (current.any fun fence => fence.owner == owner) (.fenceChangedBeforeMutation owner)

def runOperation {T : Type} (operation : FlowProgram T) : BackendProgram T := do
  modify fun backend => { backend with events := .operation backend.fences :: backend.events }
  zoom Backend.flows (fun backend flows => { backend with flows := flows }) operation

def guarded {T : Type} (owner : BitVec 64) (acquired : List TuplesKey) (operation : FlowProgram T) : BackendProgram T := do
  graceBarrier
  recheck owner acquired
  runOperation operation

def combineError {T : Type} (outcome : Except BackendError T) (error : BackendError) : Except BackendError T :=
  match outcome with
  | .ok _ => .error error
  | .error previous => .error (.additional previous error)

def releaseOne (owner : BitVec 64) (key : TuplesKey) : BackendProgram Unit := do
  let current ← lookupFence key
  ensure (current.any fun fence => fence.owner == owner) (.fenceDisappearedOrChanged owner)
  let removed ← removeFence key
  ensure (removed = true) (.fenceDisappearedDuringRelease owner)

def release {T : Type} (owner : BitVec 64) :
    List TuplesKey → Bool × Except BackendError T → BackendProgram (Bool × Except BackendError T)
  | [], outcome => pure outcome
  | key :: rest, (unresolved, outcome) => do
    let released ← (releaseOne owner key).attempt
    match released with
    | .ok () => release owner rest (unresolved, outcome)
    | .error error => release owner rest (true, combineError outcome error)

def fail : BackendProgram Unit := modify fun backend => { backend with retirementFailed := true }

def settle {T : Type} : Bool × Except BackendError T → BackendProgram (Except BackendError T)
  | (true, outcome) => do
    fail
    pure outcome
  | (false, outcome) => do
    let reset ← (setRetireActive 0).attempt
    match reset with
    | .ok () => pure outcome
    | .error error => do
      fail
      pure (combineError outcome error)

def returned {T : Type} : Except BackendError T → BackendProgram T
  | .ok value => pure value
  | .error error => throw error

def operate {T : Type} (owner : BitVec 64) (acquisition : Acquisition) (operation : FlowProgram T) :
    BackendProgram (Except BackendError T) :=
  match acquisition.failure with
  | some error => pure (.error error)
  | none => (guarded owner acquisition.acquired operation).attempt

def withRetirementFences {T : Type} (keys : List (TuplesKey × BitVec 32)) (operation : FlowProgram T) : BackendProgram T := do
  ensureResolved
  ensure (keys.length ≤ retireBatchCapacity) .batchExceedsCapacity
  ensure (∀ entry ∈ keys, entry.1.padding = Vector.replicate 3 0) .noncanonicalTuple
  let owner ← nextOwner
  setRetireActive 1
  let acquisition ← acquire owner keys {}
  let outcome ← operate owner acquisition operation
  let released ← release owner acquisition.acquired (acquisition.unresolved, outcome)
  let settled ← settle released
  returned settled

variable {c : Backend} {owner : BitVec 64} {key : TuplesKey}

variable {T : Type} {backend : Backend}

theorem ensures_call (he : Φ (.error .syscall) { backend with refusals := backend.refusals.tail })
    (ho : Φ (f { backend with refusals := backend.refusals.tail }).1 (f { backend with refusals := backend.refusals.tail }).2) :
    (call f).Ensures backend Φ := by
  unfold call Ensures
  rw [exec_ofExec]
  dsimp only
  split
  · exact he
  · exact ho

def Asked (before after : Backend) : Prop := ∃ refusals, after = { before with refusals := refusals }

structure Steady (before after : Backend) : Prop where
  flows : after.flows = before.flows
  failed : after.retirementFailed = before.retirementFailed
  owner : after.retirementOwner = before.retirementOwner

theorem Steady.refl (backend : Backend) : Steady backend backend := ⟨rfl, rfl, rfl⟩

theorem Steady.trans (h : Steady a b) (h' : Steady b c) : Steady a c :=
  ⟨h'.flows.trans h.flows, h'.failed.trans h.failed, h'.owner.trans h.owner⟩

structure Holding (owner : BitVec 64) (acquired : List TuplesKey) (backend : Backend) : Prop where
  held : ∀ key ∈ acquired, ∃ token, backend.fences key = some ⟨owner, token⟩
  free : ∀ key ∉ acquired, backend.fences key = none

theorem Holding.congr {acquired : List TuplesKey} {before after : Backend} (h : Holding owner acquired before)
    (hf : after.fences = before.fences) : Holding owner acquired after :=
  ⟨fun key hk => hf ▸ h.held key hk, fun key hk => hf ▸ h.free key hk⟩

theorem canonical_eq (h : key.padding = Vector.replicate 3 0) : canonical key = key := by rw [canonical, ← h]

theorem fromTuples_injective (ha : a.padding = Vector.replicate 3 0)
    (hb : b.padding = Vector.replicate 3 0) (h : fromTuples a = fromTuples b) : a = b := by
  cases a
  cases b
  simp_all [fromTuples]

section

structure Fencing (owner : BitVec 64) (start backend : Backend) (acquisition : Acquisition) : Prop where
  holding : Holding owner acquisition.acquired backend
  nodup : acquisition.acquired.Nodup
  padding : ∀ key ∈ acquisition.acquired, key.padding = Vector.replicate 3 0
  seen : ∀ tuple, tuple ∈ acquisition.seen ↔ tuple ∈ acquisition.acquired.map fromTuples
  steady : Steady start backend
  events : ∃ new, backend.events = new ++ start.events ∧ ∀ event ∈ new, ∃ key token, event = .inserted key ⟨owner, token⟩

variable {start : Backend} {acquisition : Acquisition}

section

variable (h : Fencing owner start backend acquisition)
include h

theorem Fencing.mem_seen (hk : key.padding = Vector.replicate 3 0) : fromTuples key ∈ acquisition.seen ↔ key ∈ acquisition.acquired := by
  rw [h.seen, mem_map]
  constructor
  · rintro ⟨other, ho, he⟩
    rwa [← fromTuples_injective (h.padding other ho) hk he]
  · exact fun hm => ⟨key, hm, rfl⟩

theorem Fencing.insert (token : BitVec 32)
    (hk : key.padding = Vector.replicate 3 0) (hn : key ∉ acquisition.acquired) (refusals : List Bool) :
    Fencing owner start
      { backend with
        refusals := refusals
        fences := update backend.fences key (some ⟨owner, token⟩)
        events := .inserted key ⟨owner, token⟩ :: backend.events }
      { acquisition with
        acquired := acquisition.acquired ++ [key], seen := fromTuples key :: acquisition.seen } := by
  refine ⟨⟨fun other ho => ?_, fun other ho => ?_⟩, ?_, ?_, fun tuple => ?_, ⟨h.steady.1, h.steady.2, h.steady.3⟩, ?_⟩
  · by_cases heq : other = key
    · subst heq
      exact ⟨token, update_self ..⟩
    · obtain ⟨fence, hf⟩ := h.holding.held other (by simpa [heq] using ho)
      exact ⟨fence, (update_of_ne heq ..).trans hf⟩
  · have hne : other ∉ acquisition.acquired ∧ other ≠ key := by simpa using ho
    exact (update_of_ne hne.2 ..).trans (h.holding.free other hne.1)
  · exact nodup_append.mpr ⟨h.nodup, nodup_singleton key, by
      intro a ha b hb heq
      rw [mem_singleton] at hb
      exact hn (hb ▸ heq ▸ ha)⟩
  · intro other ho
    rcases mem_append.mp ho with ho | ho
    · exact h.padding other ho
    · rw [mem_singleton.mp ho]
      exact hk
  · rw [mem_cons, h.seen, map_append, mem_append]
    simp [or_comm]
  obtain ⟨new, hev, hn⟩ := h.events
  refine ⟨.inserted key ⟨owner, token⟩ :: new, by rw [hev]; rfl, fun event he => ?_⟩
  rcases mem_cons.mp he with rfl | he
  · exact ⟨key, token, rfl⟩
  · exact hn event he

theorem Fencing.refusals (refusals : List Bool) : Fencing owner start { backend with refusals := refusals } acquisition :=
  ⟨h.holding.congr rfl, h.nodup, h.padding, h.seen, ⟨h.steady.1, h.steady.2, h.steady.3⟩, h.events⟩

theorem Fencing.refused (error : BackendError) (current : Except BackendError (Option RetirementFence)) :
    Fencing owner start backend (refused acquisition error current) ∧ (Conntrack.refused acquisition error current).failure ≠ none := by
  rcases current with e | _ | fence
  · exact ⟨⟨h.1, h.2, h.3, h.4, h.5, h.6⟩, by simp [Conntrack.refused]⟩
  · exact ⟨⟨h.1, h.2, h.3, h.4, h.5, h.6⟩, by simp [Conntrack.refused]⟩
  · exact ⟨⟨h.1, h.2, h.3, h.4, h.5, h.6⟩, by simp [Conntrack.refused]⟩

end

theorem acquire_ensures (keys : List (TuplesKey × BitVec 32)) (backend : Backend) (acquisition : Acquisition)
    (h : Fencing owner start backend acquisition) (hr : acquisition.unresolved = false)
    (hkeys : ∀ entry ∈ keys, entry.1.padding = Vector.replicate 3 0) :
    (acquire owner keys acquisition).Ensures backend (Returns (fun acquisition' backend' =>
      Fencing owner start backend' acquisition' ∧ (acquisition'.failure = none →
        acquisition'.unresolved = false ∧ (∀ entry ∈ keys, entry.1 ∈ acquisition'.acquired) ∧
          ∀ key ∈ acquisition.acquired, key ∈ acquisition'.acquired)) fun _ _ => False) := by
  induction keys generalizing backend acquisition with
  | nil => exact ensures_pure ⟨h, fun _ => ⟨hr, by simp, fun _ hke => hke⟩⟩
  | cons entry rest ih =>
    obtain ⟨key, token⟩ := entry
    have hke := hkeys _ (mem_cons_self ..)
    have hre : ∀ entry ∈ rest, entry.1.padding = Vector.replicate 3 0 := fun entry he => hkeys entry (mem_cons_of_mem _ he)
    rw [acquire, canonical_eq hke]
    split
    · rename_i hs
      refine Ensures.mono (ih backend acquisition h hr hre) ?_
      rintro (e | acquisition') backend' ha
      · exact ha
      refine ⟨ha.1, fun hn => ?_⟩
      obtain ⟨hr', hal, hk⟩ := ha.2 hn
      refine ⟨hr', fun entry he => ?_, hk⟩
      rcases mem_cons.mp he with rfl | he
      · exact hk key ((h.mem_seen hke).mp hs)
      · exact hal entry he
    rename_i hs
    have hne : key ∉ acquisition.acquired := fun hm => hs ((h.mem_seen hke).mpr hm)
    refine Ensures.bind (Q := fun inserted backend' => (inserted = .ok () ∧ Fencing owner start backend' { acquisition with
          acquired := acquisition.acquired ++ [key], seen := fromTuples key :: acquisition.seen }) ∨
        (∃ e, inserted = .error e) ∧ Fencing owner start backend' acquisition) (R := fun _ _ => False)
      (ensures_attempt (ensures_call ?_ ?_)) ?_ fun _ _ => False.elim
    · exact .inr ⟨⟨_, rfl⟩, h.refusals _⟩
    · dsimp only
      rw [h.holding.free key hne]
      exact .inl ⟨rfl, h.insert token hke hne _⟩
    rintro inserted backend' (⟨rfl, hf⟩ | ⟨⟨e, rfl⟩, hf⟩)
    · refine Ensures.mono (ih backend' _ hf hr hre) ?_
      rintro (e | acquisition') backend'' ha
      · exact ha
      refine ⟨ha.1, fun hn => ?_⟩
      obtain ⟨hr', hal, hk⟩ := ha.2 hn
      refine ⟨hr', fun entry he => ?_, fun other ho => hk other (by simp [ho])⟩
      rcases mem_cons.mp he with rfl | he
      · exact hk key (by simp)
      · exact hal entry he
    refine Ensures.bind (Q := fun _ backend'' => Fencing owner start backend'' acquisition)
      (R := fun _ _ => False) (ensures_attempt (ensures_call ?_ ?_)) ?_ fun _ _ => False.elim
    · exact hf.refusals _
    · exact hf.refusals _
    · intro current backend'' hf
      exact ensures_pure ⟨(hf.refused e current).1, fun hn => absurd hn (hf.refused e current).2⟩

end

theorem ensureResolved_ensures (backend : Backend) : ensureResolved.Ensures backend
    (Returns (fun _ after => backend = after ∧ backend.retirementFailed = false)
      fun e after => e = .ownershipUnresolved ∧ backend = after ∧ backend.retirementFailed = true) := by
  refine Ensures.bind (Q := fun read after => backend = read ∧ backend = after) (R := fun _ _ => False)
    (ensures_get ⟨rfl, rfl⟩) ?_ fun _ _ => False.elim
  rintro _ _ ⟨rfl, rfl⟩
  exact ensures_ensure (fun h => ⟨rfl, h⟩) fun h => ⟨rfl, rfl, by simpa using h⟩

structure Guarded (operation : FlowProgram T) (before : Backend) (result : Except BackendError T) (after : Backend) : Prop where
  fences : after.fences = before.fences
  failed : after.retirementFailed = before.retirementFailed
  owner : after.retirementOwner = before.retirementOwner
  run : (∃ e, result = .error e) ∧ after.flows = before.flows ∧
      (after.events = before.events ∨ after.events = .barrier :: before.events) ∨
    result = (operation.exec before.flows).1 ∧ after.flows = (operation.exec before.flows).2 ∧
      after.events = .operation before.fences :: .barrier :: before.events

theorem recheck_ensures (acquired : List TuplesKey) : (recheck owner acquired).Ensures backend
      (Returns (fun _ after => Asked backend after) fun _ after => Asked backend after) := by
  refine ensures_forM (I := fun _ after => Asked backend after) acquired ⟨backend.refusals, rfl⟩ ?_
  rintro key rest _ ⟨refusals, rfl⟩
  refine Ensures.bind (Q := fun _ after => Asked backend after) (R := fun _ after => Asked backend after)
    (ensures_call ⟨_, rfl⟩ ⟨_, rfl⟩) ?_ fun _ _ h => h
  exact fun _ _ h => ensures_ensure (fun _ => h) fun _ => h

theorem guarded_ensures : (guarded owner acquired operation).Ensures backend (Guarded operation backend) := by
  refine Ensures.bind (Q := fun _ after => Asked { backend with events := .barrier :: backend.events } after)
    (R := fun _ after => Asked backend after)
    (Ensures.bind (ensureResolved_ensures backend) ?_ ?_) ?_ ?_
  · rintro _ _ ⟨rfl, -⟩
    exact ensures_call ⟨_, rfl⟩ ⟨_, rfl⟩
  · rintro e _ ⟨-, rfl, -⟩
    exact ⟨_, rfl⟩
  · rintro _ _ ⟨refusals, rfl⟩
    refine Ensures.bind (recheck_ensures acquired) ?_ ?_
    · rintro _ _ ⟨refusals', rfl⟩
      exact ⟨rfl, rfl, rfl, .inr ⟨rfl, rfl, rfl⟩⟩
    · rintro e _ ⟨refusals', rfl⟩
      exact ⟨rfl, rfl, rfl, .inl ⟨⟨e, rfl⟩, rfl, .inr rfl⟩⟩
  · rintro e _ ⟨refusals, rfl⟩
    exact ⟨rfl, rfl, rfl, .inl ⟨⟨e, rfl⟩, rfl, .inl rfl⟩⟩

theorem operate_ensures (acquisition : Acquisition) (operation : FlowProgram T) (backend : Backend) :
    (operate owner acquisition operation).Ensures backend (Returns (fun result after => Guarded operation backend result after ∧
        (acquisition.failure ≠ none → (∃ e, result = .error e) ∧ after.events = backend.events)) fun _ _ => False) := by
  unfold operate
  split
  · rename_i error hf
    refine ensures_pure ⟨⟨rfl, rfl, rfl, .inl ⟨⟨error, rfl⟩, rfl, .inl rfl⟩⟩, fun _ => ⟨⟨error, rfl⟩, rfl⟩⟩
  rename_i hf
  refine ensures_attempt (Ensures.mono guarded_ensures fun result after h => ⟨h, fun hn => ?_⟩)
  exact absurd hf hn

structure Releasing (before after : Backend) : Prop where
  steady : Steady before after
  events : after.events = before.events
  active : after.retireActive = before.retireActive

theorem Releasing.trans (h : Releasing a b) (h' : Releasing b c) : Releasing a c :=
  ⟨h.steady.trans h'.steady, h'.events.trans h.events, h'.active.trans h.active⟩

theorem releaseOne_ensures (h : backend.fences key = some ⟨owner, token⟩) : (releaseOne owner key).Ensures backend
      (Returns (fun _ after => Releasing backend after ∧ after.fences = update backend.fences key none)
        fun _ after => Releasing backend after ∧ after.fences = backend.fences) := by
  have hs : ∀ refusals, Releasing backend { backend with refusals := refusals } := fun refusals => ⟨⟨rfl, rfl, rfl⟩, rfl, rfl⟩
  refine Ensures.bind (Q := fun current after => current = some ⟨owner, token⟩ ∧ Asked backend after)
    (R := fun _ after => Asked backend after)
    (ensures_call ⟨_, rfl⟩ ⟨h, _, rfl⟩) ?_ ?_
  · rintro _ _ ⟨rfl, refusals, rfl⟩
    refine Ensures.bind (Q := fun _ after => Asked backend after) (R := fun _ _ => False)
      (ensures_ensure (fun _ => ⟨_, rfl⟩) fun hn => hn (by simp)) ?_ fun _ _ => False.elim
    rintro _ _ ⟨refusals, rfl⟩
    refine Ensures.bind
      (Q := fun removed after => removed = true ∧ Asked { backend with fences := update backend.fences key none } after)
      (R := fun _ after => Asked backend after)
      (ensures_call ⟨_, rfl⟩ ⟨?_, _, rfl⟩) ?_ ?_
    · simp [h]
    · rintro _ _ ⟨rfl, refusals', rfl⟩
      exact ensures_ensure (fun _ => ⟨⟨⟨rfl, rfl, rfl⟩, rfl, rfl⟩, rfl⟩) fun hn => absurd rfl hn
    · rintro e _ ⟨refusals', rfl⟩
      exact ⟨hs _, rfl⟩
  · rintro e _ ⟨refusals, rfl⟩
    exact ⟨hs _, rfl⟩

theorem combineError_ne_ok : combineError outcome error ≠ .ok value := by
  cases outcome with
  | ok v | error e => simp [combineError]

-- The keys still to come hold their fences; the rest is free unless something stayed unresolved.
theorem release_ensures (keys : List TuplesKey) (backend : Backend) (unresolved : Bool) (outcome : Except BackendError T)
    (hn : keys.Nodup) (hh : ∀ key ∈ keys, ∃ token, backend.fences key = some ⟨owner, token⟩)
    (hfr : unresolved = true ∨ ∀ key ∉ keys, backend.fences key = none) :
    (release owner keys (unresolved, outcome)).Ensures backend (Returns (fun released after =>
      Releasing backend after ∧ (released.1 = true ∨ ∀ key, after.fences key = none) ∧
        ∀ value, released.2 = .ok value → outcome = .ok value ∧ released.1 = unresolved) fun _ _ => False) := by
  induction keys generalizing backend unresolved outcome with
  | nil =>
    refine ensures_pure ⟨⟨Steady.refl _, rfl, rfl⟩, ?_, fun value h => ⟨h, rfl⟩⟩
    exact hfr.imp_right fun h key => h key (by simp)
  | cons key rest ih =>
    obtain ⟨hno, hn⟩ := nodup_cons.mp hn
    obtain ⟨token, hk⟩ := hh key (mem_cons_self ..)
    have hne : ∀ other ∈ rest, other ≠ key := by
      rintro other ho rfl
      exact hno ho
    refine Ensures.bind
      (Q := fun released after => Releasing backend after ∧ (released = .ok () ∧ after.fences = update backend.fences key none ∨
          (∃ e, released = .error e) ∧ after.fences = backend.fences)) (R := fun _ _ => False)
      (ensures_attempt (Ensures.mono (releaseOne_ensures hk) ?_)) ?_ fun _ _ => False.elim
    · rintro (e | ⟨⟩) after h
      · exact ⟨h.1, .inr ⟨⟨e, rfl⟩, h.2⟩⟩
      · exact ⟨h.1, .inl ⟨rfl, h.2⟩⟩
    rintro released after ⟨hs, ⟨rfl, hf⟩ | ⟨⟨e, rfl⟩, hf⟩⟩
    · refine Ensures.mono (ih after unresolved outcome hn (fun other ho => ?_) ?_) ?_
      · rw [hf, update_of_ne (hne other ho)]
        exact hh other (mem_cons_of_mem _ ho)
      · refine hfr.imp_right fun h other ho => ?_
        rw [hf]
        by_cases he : other = key
        · rw [he, update_self]
        · rw [update_of_ne he]
          exact h other (by simp [he, ho])
      · rintro (e | released) after' h
        · exact h
        · exact ⟨hs.trans h.1, h.2⟩
    refine Ensures.mono (ih after true (combineError outcome e) hn (fun other ho => ?_) (.inl rfl)) ?_
    · rw [hf]
      exact hh other (mem_cons_of_mem _ ho)
    rintro (e' | released) after' h
    · exact h
    · exact ⟨hs.trans h.1, h.2.1, fun value hv => absurd (h.2.2 value hv).1 combineError_ne_ok⟩

structure Clear (backend : Backend) : Prop where
  failed : backend.retirementFailed = false
  active : backend.retireActive = 0
  fences : ∀ key, backend.fences key = none

structure Protocol (keys : List (TuplesKey × BitVec 32)) (operation : FlowProgram T) (before : Backend)
    (result : Except BackendError T) (after : Backend) (new : List FenceEvent) : Prop where
  events : after.events = new ++ before.events
  inserted : ∀ key fence, .inserted key fence ∈ new →
    fence.owner = after.retirementOwner ∧ before.retirementOwner.toNat < fence.owner.toNat
  ran : ∀ later fences earlier, new = later ++ .operation fences :: earlier →
    (∀ entry ∈ keys, ∃ token, fences entry.1 = some ⟨after.retirementOwner, token⟩) ∧
      before.retirementOwner.toNat < after.retirementOwner.toNat ∧ ∃ insertions, earlier = .barrier :: insertions
  owner : before.retirementOwner.toNat ≤ after.retirementOwner.toNat
  closed : after.retirementFailed = true ∨ Clear after
  ok : ∀ value, result = .ok value → (operation.exec before.flows).1 = .ok value ∧ Clear after
  flows : (∃ e, result = .error e) ∧ after.flows = before.flows ∨ after.flows = (operation.exec before.flows).2

variable {keys : List (TuplesKey × BitVec 32)} {operation : FlowProgram T} {before after : Backend}

theorem Protocol.refused (he : after.events = before.events)
    (ho : before.retirementOwner.toNat ≤ after.retirementOwner.toNat) (hf : after.flows = before.flows)
    (hc : after.retirementFailed = true ∨ Clear after) : Protocol keys operation before (.error e) after [] :=
  ⟨he, by simp, by simp, ho, hc, by simp, .inl ⟨⟨e, rfl⟩, hf⟩⟩

theorem fail_ensures : fail.Ensures backend
    (Returns (fun _ after => after = { backend with retirementFailed := true }) fun _ _ => False) := rfl

theorem settle_ensures (outcome : Except BackendError T)
    (hfr : unresolved = true ∨ ∀ key, backend.fences key = none) (hf : backend.retirementFailed = false) :
    (settle (unresolved, outcome)).Ensures backend (Returns (fun settled after =>
      after.flows = backend.flows ∧ after.retirementOwner = backend.retirementOwner ∧ after.events = backend.events ∧
        (after.retirementFailed = true ∨ Clear after) ∧
        ∀ value, settled = .ok value → outcome = .ok value ∧ (unresolved = false → Clear after)) fun _ _ => False) := by
  cases unresolved with
  | true =>
    refine Ensures.bind fail_ensures ?_ fun _ _ => False.elim
    rintro _ _ rfl
    exact ensures_pure ⟨rfl, rfl, rfl, .inl rfl, fun value h => ⟨h, by simp⟩⟩
  | false =>
    have hn := hfr.resolve_left (by simp)
    refine Ensures.bind (Q := fun reset after => (reset = .ok () ∧ Asked { backend with retireActive := 0 } after) ∨
        (∃ e, reset = .error e) ∧ Asked backend after)
      (R := fun _ _ => False)
      (ensures_attempt (ensures_call (.inr ⟨⟨_, rfl⟩, _, rfl⟩) (.inl ⟨rfl, _, rfl⟩))) ?_ fun _ _ => False.elim
    rintro _ _ (⟨rfl, refusals, rfl⟩ | ⟨⟨e, rfl⟩, refusals, rfl⟩)
    · exact ensures_pure ⟨rfl, rfl, rfl, .inr ⟨hf, rfl, hn⟩, fun value h => ⟨h, fun _ => ⟨hf, rfl, hn⟩⟩⟩
    refine Ensures.bind fail_ensures ?_ fun _ _ => False.elim
    rintro _ _ rfl
    exact ensures_pure ⟨rfl, rfl, rfl, .inl rfl, fun value h => absurd h combineError_ne_ok⟩

theorem nextOwner_ensures (backend : Backend) : nextOwner.Ensures backend (Returns
    (fun owner after => after = { backend with retirementOwner := owner } ∧ backend.retirementOwner.toNat < owner.toNat)
    fun _ after => after = { backend with retirementFailed := true }) := by
  unfold nextOwner Ensures
  rw [exec_ofExec]
  split
  · rfl
  rename_i hn
  have hl : backend.retirementOwner.toNat ≠ 2 ^ 64 - 1 := fun h => hn (BitVec.eq_of_toNat_eq (by simpa using h))
  have ho : (1 : BitVec 64).toNat = 1 := rfl
  refine ⟨rfl, ?_⟩
  rw [BitVec.toNat_add, ho, Nat.mod_eq_of_lt (by have := backend.retirementOwner.isLt; omega)]
  exact Nat.lt_succ_self _

-- The log of a call that came to its insertions: the operation, if it ran, right after the barrier.
theorem protocol_of_phases (hlt : before.retirementOwner.toNat < owner.toNat)
    (hs : start.retirementOwner = owner) (hst : start.flows = before.flows)
    (hstartEvents : start.events = before.events) (hf : Fencing owner start fenced acquisition)
    (ha : acquisition.failure = none → ∀ entry ∈ keys, entry.1 ∈ acquisition.acquired)
    (hg : Guarded operation fenced outcome operated)
    (hfa : acquisition.failure ≠ none → (∃ e, outcome = .error e) ∧ operated.events = fenced.events) (hflows : after.flows = operated.flows)
    (ho : after.retirementOwner = operated.retirementOwner) (hev : after.events = operated.events)
    (hc : after.retirementFailed = true ∨ Clear after) (hok : ∀ value, result = .ok value → outcome = .ok value ∧ Clear after) :
    ∃ new, Protocol keys operation before result after new := by
  have ho' : after.retirementOwner = owner := by rw [ho, hg.owner, hf.steady.owner, hs]
  have hle : before.retirementOwner.toNat ≤ after.retirementOwner.toNat := ho' ▸ hlt.le
  have hfe : fenced.flows = before.flows := hf.steady.flows.trans hst
  obtain ⟨insertions, hin, hon⟩ := hf.events
  rw [hstartEvents] at hin
  have hinserted : ∀ key fence, .inserted key fence ∈ insertions → fence.owner = owner := by
    intro key fence hm
    obtain ⟨_, token, heq⟩ := hon _ hm
    cases heq
    rfl
  have hn : ∀ later fences earlier, insertions ≠ later ++ .operation fences :: earlier := by
    rintro later fences earlier rfl
    obtain ⟨_, _, heq⟩ := hon (.operation fences) (by simp)
    cases heq
  rcases hg.run with ⟨⟨e, herror⟩, hopflows, hop⟩ | ⟨hr, hopflows, hop⟩
  · have her : ∃ e, result = .error e := by
      cases result with
      | error e => exact ⟨e, rfl⟩
      | ok value => exact absurd ((hok value rfl).1.symm.trans herror) (by simp)
    have hfl : (∃ e, result = .error e) ∧ after.flows = before.flows ∨ after.flows = (operation.exec before.flows).2 :=
      .inl ⟨her, by rw [hflows, hopflows, hfe]⟩
    have hno : ∀ value, result = .ok value → (operation.exec before.flows).1 = .ok value ∧ Clear after := by
      rintro value rfl
      obtain ⟨e, he⟩ := her
      cases he
    rcases hop with hop | hop
    · refine ⟨insertions, by rw [hev, hop, hin], fun key fence hm => ?_, fun later fences earlier heq => ?_,
        hle, hc, hno, hfl⟩
      · rw [hinserted key fence hm, ho']
        exact ⟨rfl, hlt⟩
      · exact absurd heq (hn later fences earlier)
    refine ⟨.barrier :: insertions, by rw [hev, hop, hin]; rfl, fun key fence hm => ?_,
      fun later fences earlier heq => ?_, hle, hc, hno, hfl⟩
    · rw [hinserted key fence (by simpa using hm), ho']
      exact ⟨rfl, hlt⟩
    cases later with
    | nil => cases heq
    | cons event later => exact absurd (List.cons.inj heq).2 (hn later fences earlier)
  have hnone : acquisition.failure = none := by
    by_contra hne
    have hl := congrArg List.length ((hfa hne).2.symm.trans hop)
    simp only [length_cons] at hl
    omega
  refine ⟨.operation fenced.fences :: .barrier :: insertions, by rw [hev, hop, hin]; rfl,
    fun key fence hm => ?_, fun later fences earlier heq => ?_, hle, hc, fun value hv => ?_, .inr ?_⟩
  · rw [hinserted key fence (by simpa using hm), ho']
    exact ⟨rfl, hlt⟩
  · cases later with
    | nil =>
      cases heq
      refine ⟨fun entry hen => ?_, ho' ▸ hlt, insertions, rfl⟩
      rw [ho']
      exact hf.holding.held _ (ha hnone entry hen)
    | cons event later =>
      cases later with
      | nil => cases heq
      | cons event' later => exact absurd (List.cons.inj (List.cons.inj heq).2).2 (hn later fences earlier)
  · rw [← hfe, ← hr]
    exact hok value hv
  · rw [hflows, hopflows, hfe]

theorem withRetirementFences_protocol (keys : List (TuplesKey × BitVec 32)) (operation : FlowProgram T) (hc : before.retirementFailed = true ∨ Clear before) :
    (withRetirementFences keys operation).Ensures before fun result after =>
      ∃ new, Protocol keys operation before result after new := by
  refine Ensures.bind (ensureResolved_ensures before) ?_ ?_
  swap
  · rintro e _ ⟨-, rfl, hfa⟩
    exact ⟨[], .refused rfl le_rfl rfl (.inl hfa)⟩
  rintro _ _ ⟨rfl, hre⟩
  have hc : Clear before := hc.resolve_left (by simp [hre])
  refine Ensures.bind (Q := fun _ after => before = after) (R := fun _ after => before = after)
    (ensures_ensure (fun _ => rfl) fun _ => rfl) ?_ ?_
  swap
  · rintro e _ rfl
    exact ⟨[], .refused rfl le_rfl rfl (.inr hc)⟩
  rintro _ _ rfl
  refine Ensures.bind (Q := fun _ after => before = after ∧ ∀ entry ∈ keys, entry.1.padding = Vector.replicate 3 0)
    (R := fun _ after => before = after) (ensures_ensure (fun h => ⟨rfl, h⟩) fun _ => rfl) ?_ ?_
  swap
  · rintro e _ rfl
    exact ⟨[], .refused rfl le_rfl rfl (.inr hc)⟩
  rintro _ _ ⟨rfl, hk⟩
  refine Ensures.bind (nextOwner_ensures before) ?_ ?_
  swap
  · rintro e _ rfl
    exact ⟨[], .refused rfl le_rfl rfl (.inl rfl)⟩
  rintro owner _ ⟨rfl, hl⟩
  refine Ensures.bind (Q := fun _ after => Asked { before with retirementOwner := owner, retireActive := 1 } after)
    (R := fun _ after => Asked { before with retirementOwner := owner } after)
    (ensures_call ⟨_, rfl⟩ ⟨_, rfl⟩) ?_ ?_
  swap
  · rintro e _ ⟨refusals, rfl⟩
    exact ⟨[], .refused rfl hl.le rfl (.inr ⟨hc.failed, hc.active, hc.fences⟩)⟩
  rintro _ start ⟨refusals, hs⟩
  have hf₀ : Fencing owner start start {} := by
    subst hs
    exact ⟨⟨by simp, fun key _ => hc.fences key⟩, nodup_nil, by simp, by simp, Steady.refl _, [], rfl, by simp⟩
  refine Ensures.bind (acquire_ensures keys _ {} hf₀ rfl hk) ?_ fun _ _ => False.elim
  rintro acquisition fenced ⟨hf, ha⟩
  refine Ensures.bind (operate_ensures acquisition operation fenced) ?_ fun _ _ => False.elim
  rintro outcome operated ⟨hg, hfailure⟩
  have hh := hf.holding.congr hg.fences
  refine Ensures.bind (release_ensures _ _ _ _ hf.nodup hh.held (.inr hh.free)) ?_ fun _ _ => False.elim
  rintro ⟨unresolved, outcome'⟩ released ⟨hr, hfr, hok⟩
  have hfa : released.retirementFailed = false := by
    rw [hr.steady.failed, hg.failed, hf.steady.failed, hs]
    exact hc.failed
  refine Ensures.bind (settle_ensures outcome' hfr hfa) ?_ fun _ _ => False.elim
  rintro settled after ⟨hfl, how, hev, hcl, hse⟩
  have hph : ∃ new, Protocol keys operation before settled after new := by
    refine protocol_of_phases hl (by rw [hs]) (by rw [hs]) (by rw [hs]) hf
      (fun hn => (ha hn).2.1) hg hfailure (hfl.trans hr.steady.flows)
      (how.trans hr.steady.owner) (hev.trans hr.events) hcl fun value hv => ?_
    obtain ⟨ho', hcleared⟩ := hse value hv
    obtain ⟨ho, hu⟩ := hok value ho'
    refine ⟨ho, hcleared ?_⟩
    have hn : acquisition.failure = none := by
      by_contra hne
      obtain ⟨e, he⟩ := (hfailure hne).1
      exact absurd (ho.symm.trans he) (by simp)
    exact hu.trans (ha hn).1
  cases settled with
  | ok value => exact ensures_pure hph
  | error e => exact ensures_throw hph

end Honk.Conntrack
