import Honk.Conntrack.Decision
import Honk.Lib.Elements
import Honk.Lib.Interleaving

namespace Honk.Conntrack

open Honk.Lib Honk.Nfqueue

def allocateFlowIncarnation (next : BitVec 64) : Option (BitVec 64) := if next < flowIncarnationMax then some (next + 1) else none

theorem allocateFlowIncarnation_some (h : allocateFlowIncarnation next = some i) : i.toNat = next.toNat + 1 := by
  unfold allocateFlowIncarnation at h
  split at h
  · rename_i hl
    have hm : next.toNat < flowIncarnationMax.toNat := hl
    have hb : flowIncarnationMax.toNat < 2 ^ 56 := by decide
    have ho : (1 : BitVec 64).toNat = 1 := rfl
    cases h
    rw [BitVec.toNat_add]
    omega
  · cases h

namespace Udp

def updateIntervalNs : ℕ := 1000000000

def connStateExpired (state : ConnState) (now : BitVec 64) : Bool :=
  state.state == UdpDecisionState.aborted.code || decide (udpConnStateTimeoutNs < now.toNat - state.lastSeenNs.toNat)

def preparingState (mac : Vector Byte 6) (incarnation now : BitVec 64) : ConnState :=
  { state := UdpDecisionState.preparing.code, incarnation := incarnation, lastSeenNs := now, mac := mac }

def owned (current : ConnState) (incarnation : BitVec 64) : Bool :=
  current.state == UdpDecisionState.preparing.code && current.decisionToken == 0 && current.incarnation == incarnation

-- What the sections under the lock of an element write into it, if they write.
def publishLocked (state current : ConnState) : Option ConnState := if owned current state.incarnation then some state else none

def abortLocked (incarnation : BitVec 64) (actualToken : BitVec 32) (current : ConnState) : Option ConnState :=
  if owned current incarnation then
    some { current with decisionToken := actualToken, state := UdpDecisionState.aborted.code }
  else none

def seenLocked (now : BitVec 64) (current : ConnState) : Option ConnState :=
  if connStateExpired current now = false ∧ current.state ≠ UdpDecisionState.preparing.code ∧
      current.state ≠ UdpDecisionState.pending.code ∧ current.state ≠ UdpDecisionState.directArmed.code ∧
      updateIntervalNs < now.toNat - current.lastSeenNs.toNat then
    some { current with lastSeenNs := now }
  else none

structure ConnLifecycle where
  incarnation : BitVec 64
  lastSeenNs : BitVec 64
  state : Byte

def renewWanted (snapshot : ConnLifecycle) (redirect : RedirectEntry) (now : BitVec 64) : Bool :=
  redirect.incarnation != 0 && snapshot.incarnation == redirect.incarnation &&
    (snapshot.state == UdpDecisionState.none.code || snapshot.state == UdpDecisionState.proxy.code) &&
    decide (updateIntervalNs ≤ now.toNat - snapshot.lastSeenNs.toNat)

def renewLocked (snapshot : ConnLifecycle) (redirect : RedirectEntry) (now : BitVec 64) (current : ConnState) : Option ConnState :=
  if current.incarnation = redirect.incarnation ∧ current.decisionToken = redirect.decisionToken ∧
      current.state = snapshot.state ∧ connStateExpired current now = false ∧
      updateIntervalNs ≤ now.toNat - current.lastSeenNs.toNat then
    some { current with lastSeenNs := now }
  else none

/-- The conn-state map, with the claims that were made and those that were published or aborted. The backend
serves one call at a time. -/
structure Kernel where
  conn : Elements TuplesKey ConnState := .empty {}
  sequence : BitVec 64 := 0
  busy : Bool := false
  claimed : List (TuplesKey × BitVec 64) := []
  released : List (BitVec 64) := []

inductive Phase where
  | idle
  | claiming (key : TuplesKey) (mac : Vector Byte 6) (incarnation : BitVec 64)
  | publishing (state : ConnState) (pointer : ℕ)
  | aborting (incarnation : BitVec 64) (actualToken : BitVec 32) (pointer : ℕ)
  | looking (key : TuplesKey) (now : BitVec 64) (available : Bool) (pointer : ℕ)
  | missed (key : TuplesKey)
  | renewing (snapshot : ConnLifecycle) (redirect : RedirectEntry) (now : BitVec 64) (pointer : ℕ)
  | backend
  | committing (key : TuplesKey) (next : ConnState) (initial : Bool)

/-- A handler knows the claims it made; `answer` is what `lookup_udp_available` last returned to it. -/
structure Handler where
  phase : Phase := .idle
  claims : List (TuplesKey × BitVec 64) := []
  answer : Option (Except Unit (Option ConnState)) := none

inductive Input where
  | enter
  | claim (key : TuplesKey) (mac : Vector Byte 6) (retiring : Bool)
  | insert (address : ℕ) (now : BitVec 64) (admitted : Bool)
  | publish (key : TuplesKey) (state : ConnState) (retiring : Bool)
  | abort (key : TuplesKey) (incarnation : BitVec 64) (actualToken : BitVec 32)
  | lookup (key : TuplesKey) (now : BitVec 64) (available retiring : Bool)
  | renew (key : TuplesKey) (snapshot : ConnLifecycle) (redirect : RedirectEntry) (now : BitVec 64) (retiring : Bool)
  | locked
  | recheck (retiring : Bool)
  | lock
  | retire (key : TuplesKey)
  | read (commit : UdpDecisionCommit) (allowed : Bool)
  | write (address : ℕ)
  | unlock

def Handler.goto (l : Handler) (phase : Phase) : Handler := { l with phase := phase }

def Handler.return (l : Handler) (answer : Except Unit (Option ConnState)) : Handler :=
  { l with phase := .idle, answer := some answer }

section

variable (s : Kernel) (l : Handler)

def release (pointer : ℕ) (incarnation : BitVec 64) : Option ConnState → Kernel × Handler
  | some next => ({ s with conn := s.conn.update pointer next, released := incarnation :: s.released }, l.goto .idle)
  | none => (s, l.goto .idle)

def refresh (pointer : ℕ) : Option ConnState → Kernel
  | some next => { s with conn := s.conn.update pointer next }
  | none => s

-- The answer is copied out under the same lock, after the refresh.

variable (key : TuplesKey)

def seen (now : BitVec 64) (available : Bool) (current : ConnState) : Handler :=
  let copied := (seenLocked now current).getD current
  if available = false then l.goto .idle
  else if connStateExpired current now then l.goto (.missed key)
  else if copied.state = UdpDecisionState.preparing.code then l.return (.error ())
  else l.return (.ok (some copied))

def claimUdpPreparing (mac : Vector Byte 6) (retiring : Bool) : Kernel × Handler :=
  if retiring then (s, l)
  else match allocateFlowIncarnation s.sequence with
    | some incarnation => ({ s with sequence := incarnation }, l.goto (.claiming key mac incarnation))
    | none => (s, l)

def insertPreparing (mac : Vector Byte 6) (incarnation : BitVec 64) (address : ℕ)
    (now : BitVec 64) (admitted : Bool) : Option (Kernel × Handler) :=
  if admitted = false ∨ (s.conn.entries key).isSome then some (s, l.goto .idle)
  else if h : address ∉ s.conn.live then
    some ({ s with
        conn := s.conn.insert key address (preparingState mac incarnation now) h
        claimed := (key, incarnation) :: s.claimed },
      { l with phase := .idle, claims := (key, incarnation) :: l.claims })
  else none

def read (commit : UdpDecisionCommit) (allowed : Bool) : Handler :=
  match s.conn.get commit.key with
  | none => l
  | some state =>
    if commit.token = 0 ∨ state.decisionToken ≠ commit.token ∨ allowed = false then l
    else match applyUdpDecisionTransition state commit.transition with
      | .ok next => l.goto (.committing commit.key next (isInitial commit.transition))
      | .error _ => l

def write (next : ConnState) (initial : Bool) (address : ℕ) : Option Kernel :=
  match s.conn.entries key with
  | some pointer => some { s with conn := s.conn.update pointer next }
  | none =>
    if initial = false then some s
    else if h : address ∉ s.conn.live then some { s with conn := s.conn.insert key address next h }
    else none

-- A producer publishes what it claimed itself, as a flow of its own or as a pending one.
def publishClaimedUdpState (state : ConnState) (retiring : Bool) : Option (Kernel × Handler) :=
  if (key, state.incarnation) ∈ l.claims ∧
      (state.state = UdpDecisionState.none.code ∨ state.state = UdpDecisionState.pending.code) then
    match s.conn.entries key with
    | some pointer => some (s, if retiring ∨ state.incarnation = 0 then l else l.goto (.publishing state pointer))
    | none => some (s, l)
  else none

def abortUdpPreparing (incarnation : BitVec 64) (actualToken : BitVec 32) : Option (Kernel × Handler) :=
  if (key, incarnation) ∈ l.claims then
    match s.conn.entries key with
    | some pointer => some (s, if incarnation = 0 then l else l.goto (.aborting incarnation actualToken pointer))
    | none => some (s, l)
  else none

def lookupUdpSeenAt (now : BitVec 64) (available retiring : Bool) : Handler :=
  match s.conn.entries key with
  | some pointer => if retiring then if available then l.goto (.missed key) else l else l.goto (.looking key now available pointer)
  | none => if available then l.goto (.missed key) else l

def renewUdpReply (snapshot : ConnLifecycle) (redirect : RedirectEntry) (now : BitVec 64) (retiring : Bool) : Handler :=
  match s.conn.entries key with
  | some pointer =>
    if renewWanted snapshot redirect now ∧ retiring = false then l.goto (.renewing snapshot redirect now pointer) else l
  | none => l

def start : Input → Option (Kernel × Handler)
  | .enter => some (s, {})
  | .claim key mac retiring => some (claimUdpPreparing s l key mac retiring)
  | .publish key state retiring => publishClaimedUdpState s l key state retiring
  | .abort key incarnation actualToken => abortUdpPreparing s l key incarnation actualToken
  | .lookup key now available retiring => some (s, lookupUdpSeenAt s l key now available retiring)
  | .renew key snapshot redirect now retiring => some (s, renewUdpReply s l key snapshot redirect now retiring)
  | .lock => if s.busy then none else some ({ s with busy := true }, l.goto .backend)
  | _ => none

def locked : Option (Kernel × Handler) :=
  match l.phase with
  | .publishing state pointer => some (release s l pointer state.incarnation (publishLocked state (s.conn.memory pointer)))
  | .aborting incarnation actualToken pointer =>
    some (release s l pointer incarnation (abortLocked incarnation actualToken (s.conn.memory pointer)))
  | .looking key now available pointer =>
    some (refresh s pointer (seenLocked now (s.conn.memory pointer)), seen l key now available (s.conn.memory pointer))
  | .renewing snapshot redirect now pointer =>
    some (refresh s pointer (renewLocked snapshot redirect now (s.conn.memory pointer)), l.goto .idle)
  | _ => none

def serve : Input → Option (Kernel × Handler)
  | .retire key => some ({ s with conn := s.conn.remove key }, l)
  | .read commit allowed => some (s, read s l commit allowed)
  | .unlock => some ({ s with busy := false }, l.goto .idle)
  | _ => none

def underLock : Input → Option (Kernel × Handler)
  | .locked => locked s l
  | _ => none

def step (x : Input) : Option (Kernel × Handler) :=
  match l.phase with
  | .idle => start s l x
  | .backend => serve s l x
  | .claiming key mac incarnation =>
    match x with
    | .insert address now admitted => insertPreparing s l key mac incarnation address now admitted
    | _ => none
  | .missed key =>
    match x with
    | .recheck retiring => some (s, l.return (if retiring ∨ (s.conn.entries key).isSome then .error () else .ok none))
    | _ => none
  | .committing key next initial =>
    match x with
    | .write address => (write s key next initial address).map fun s' => (s', l.goto .backend)
    | _ => none
  | .publishing .. | .aborting .. | .looking .. | .renewing .. => underLock s l x

end

def claims : System Kernel Handler Input where
  init := {}
  idle := {}
  step := step
  reclaim _ _ _ := False

namespace Handler

def Owns (l : Handler) (incarnation : BitVec 64) : Prop :=
  (∃ key, (key, incarnation) ∈ l.claims) ∨ ∃ key mac, l.phase = .claiming key mac incarnation

def IsBackend (l : Handler) : Prop := l.phase = .backend ∨ ∃ key next initial, l.phase = .committing key next initial

end Handler

def frozen : List Byte := [UdpDecisionState.preparing, .pending, .directArmed, .aborted].map UdpDecisionState.code

def PhaseFit (s : Kernel) (claims : List (TuplesKey × BitVec 64)) : Phase → Prop
  | .claiming _ _ i => i ≠ 0 ∧ i.toNat ≤ s.sequence.toNat ∧ ∀ key, (key, i) ∉ s.claimed
  | .publishing state _ => (∃ key, (key, state.incarnation) ∈ claims) ∧ state.state ≠ UdpDecisionState.preparing.code
  | .aborting i _ _ => ∃ key, (key, i) ∈ claims
  | .renewing snapshot _ _ _ => snapshot.state = UdpDecisionState.none.code ∨ snapshot.state = UdpDecisionState.proxy.code
  | .backend => s.busy = true
  | .committing key next _ => s.busy = true ∧ next.state ≠ UdpDecisionState.preparing.code ∧
    ∃ a, s.conn.entries key = some a ∧ (s.conn.memory a).incarnation = next.incarnation ∧
      (s.conn.memory a).state ≠ UdpDecisionState.preparing.code
  | _ => True

structure Fit (s : Kernel) (l : Handler) : Prop where
  claims : ∀ claim ∈ l.claims, claim ∈ s.claimed
  phase : PhaseFit s l.claims l.phase
  answer : ∀ state, l.answer = some (.ok (some state)) → state.state ≠ UdpDecisionState.preparing.code

structure Lesser (l' l : Handler) : Prop where
  owns : ∀ i, l'.Owns i → l.Owns i
  backend : l'.IsBackend → l.IsBackend

inductive Effect (s : Kernel) (l : Handler) : Kernel → Handler → Prop
  | stay (hfit : Fit s l') (hless : Lesser l' l) : Effect s l s l'
  | lock (hfree : s.busy = false) (hphase : l.phase = .idle) : Effect s l { s with busy := true } (l.goto .backend)
  | unlock (hphase : l.phase = .backend) : Effect s l { s with busy := false } (l.goto .idle)
  | allocate (hphase : l.phase = .idle) (hnext : allocateFlowIncarnation s.sequence = some i) :
      Effect s l { s with sequence := i } (l.goto (.claiming key mac i))
  | insert (hphase : l.phase = .claiming key mac i) (hnone : s.conn.entries key = none) (ha : a ∉ s.conn.live) :
      Effect s l { s with conn := s.conn.insert key a (preparingState mac i now) ha, claimed := (key, i) :: s.claimed }
        { l with phase := .idle, claims := (key, i) :: l.claims }
  | release {next : ConnState} (hclaim : ∃ key, (key, i) ∈ l.claims)
      (howned : owned (s.conn.memory a) i = true) (hincarnation : next.incarnation = i)
      (hstate : next.state ≠ UdpDecisionState.preparing.code) :
      Effect s l { s with conn := s.conn.update a next, released := i :: s.released } (l.goto .idle)
  | refresh (hstate : (s.conn.memory a).state ∉ frozen) (hfit : Fit s l')
      (hidle : Handler.phase l' = .idle) (hless : Lesser l' l) :
      Effect s l { s with conn := s.conn.update a { s.conn.memory a with lastSeenNs := now } } l'
  | retire (hphase : l.phase = .backend) : Effect s l { s with conn := s.conn.remove key } l
  | commit (hphase : l.phase = .committing key next initial) (hentry : s.conn.entries key = some a) : Effect s l { s with conn := s.conn.update a next } (l.goto .backend)

variable {s s' : Kernel} {l l' : Handler} {phase : Phase} {now i : BitVec 64} {current next : ConnState} {a : ℕ}
  {outcome : Option ConnState} {x : Input}

theorem Fit.goto (h : Fit s l) (hph : PhaseFit s l.claims phase) : Fit s (l.goto phase) := ⟨h.claims, hph, h.answer⟩

theorem Lesser.refl (l : Handler) : Lesser l l := ⟨fun _ h => h, fun h => h⟩

theorem Lesser.goto (hc : ∀ key mac i, phase ≠ .claiming key mac i)
    (hb : (l.goto phase).IsBackend → l.IsBackend) : Lesser (l.goto phase) l := by
  refine ⟨fun i h => ?_, hb⟩
  rcases h with h | ⟨key, mac, h⟩
  · exact .inl h
  · exact absurd h (hc key mac i)

theorem not_isBackend (hph : l.phase = phase) (hb : phase ≠ .backend)
    (hc : ∀ key next initial, phase ≠ .committing key next initial) : ¬ l.IsBackend := by
  rintro (h | ⟨key, next, initial, h⟩)
  · exact hb (hph.symm.trans h)
  · exact hc key next initial (hph.symm.trans h)

theorem Lesser.idle (l : Handler) : Lesser (l.goto .idle) l :=
  .goto (fun _ _ _ h => by cases h) fun h => absurd h (not_isBackend rfl nofun nofun)

theorem Effect.moved (hf : Fit s l) (hph : PhaseFit s l.claims phase)
    (hc : ∀ key mac i, phase ≠ .claiming key mac i) (hb : phase ≠ .backend)
    (hco : ∀ key next initial, phase ≠ .committing key next initial) : Effect s l s (l.goto phase) :=
  .stay (hf.goto hph) (.goto hc fun h => absurd h (not_isBackend rfl hb hco))

theorem Effect.same (hf : Fit s l) : Effect s l s l := .stay hf (.refl l)

theorem Effect.idle (hf : Fit s l) : Effect s l s (l.goto .idle) := .stay (hf.goto trivial) (.idle l)

theorem Fit.return (h : Fit s l) {answer : Except Unit (Option ConnState)}
    (ha : ∀ state, answer = .ok (some state) → state.state ≠ UdpDecisionState.preparing.code) : Fit s (l.return answer) :=
  ⟨h.claims, trivial, fun state he => ha state (Option.some.inj he)⟩

theorem Lesser.return (l : Handler) : Lesser (l.return answer) l := by
  refine ⟨fun i h => ?_, fun h => absurd h (not_isBackend rfl nofun nofun)⟩
  rcases h with h | ⟨key, mac, h⟩
  · exact .inl h
  · cases h

theorem seenLocked_some (h : seenLocked now current = some next) :
    current.state ∉ frozen ∧ connStateExpired current now = false ∧ next = { current with lastSeenNs := now } := by
  unfold seenLocked at h
  split at h
  · rename_i hc
    obtain ⟨he, hpr, hpe, ha, -⟩ := hc
    refine ⟨?_, he, (Option.some.inj h).symm⟩
    have hab : current.state ≠ UdpDecisionState.aborted.code := by
      rintro heq
      rw [connStateExpired, heq] at he
      simp at he
    simp [frozen, hpr, hpe, ha, hab]
  · cases h

theorem renewLocked_some (hs : snapshot.state = UdpDecisionState.none.code ∨ snapshot.state = UdpDecisionState.proxy.code)
    (h : renewLocked snapshot redirect now current = some next) :
    current.state ∉ frozen ∧ next = { current with lastSeenNs := now } := by
  unfold renewLocked at h
  split at h
  · rename_i hc
    obtain ⟨-, -, hst, -⟩ := hc
    refine ⟨?_, (Option.some.inj h).symm⟩
    rw [hst]
    rcases hs with he | he
    · rw [he]
      decide
    · rw [he]
      decide
  · cases h

theorem seen_stay (hf : Fit s l) (key : TuplesKey) (now : BitVec 64) (available : Bool) (current : ConnState) :
    Fit s (seen l key now available current) ∧ Lesser (seen l key now available current) l ∧
      (connStateExpired current now = false → (seen l key now available current).phase = .idle) := by
  unfold seen
  dsimp only
  split
  · exact ⟨hf.goto trivial, .idle l, fun _ => rfl⟩
  split
  · rename_i he
    refine ⟨hf.goto trivial, .goto (by simp) fun h => ?_, fun h => by simp [h] at he⟩
    exact absurd h (not_isBackend rfl nofun nofun)
  split
  · exact ⟨hf.return (by simp), .return l, fun _ => rfl⟩
  rename_i hs
  refine ⟨hf.return ?_, .return l, fun _ => rfl⟩
  rintro state ⟨⟩
  exact hs

theorem release_effect (hf : Fit s l) (h : release s l a i outcome = (s', l')) (hc : ∃ key, (key, i) ∈ l.claims)
    (ho : ∀ next, outcome = some next → owned (s.conn.memory a) i = true ∧ next.incarnation = i ∧
      next.state ≠ UdpDecisionState.preparing.code) : Effect s l s' l' := by
  cases outcome with
  | none =>
    cases h
    exact .idle hf
  | some next =>
    obtain ⟨how, hin, hs⟩ := ho next rfl
    cases h
    exact .release hc how hin hs

theorem refresh_effect (hf : Fit s l') (hl : Lesser l' l) (ho : ∀ next, outcome = some next → (s.conn.memory a).state ∉ frozen ∧
      l'.phase = .idle ∧ ∃ now, next = { s.conn.memory a with lastSeenNs := now }) :
    Effect s l (refresh s a outcome) l' := by
  cases outcome with
  | none => exact .stay hf hl
  | some next =>
    obtain ⟨hs, hid, now, rfl⟩ := ho next rfl
    exact .refresh hs hf hid hl

theorem read_effect (hf : Fit s l) (hph : l.phase = .backend) (commit : UdpDecisionCommit) (allowed : Bool) :
    Effect s l s (read s l commit allowed) := by
  unfold read
  split
  · exact .same hf
  rename_i state hs
  split
  · exact .same hf
  split
  swap
  · exact .same hf
  rename_i next hn
  obtain ⟨a, he, rfl⟩ := Option.map_eq_some_iff.mp hs
  have hd := applyUdpDecisionTransition_decided hn
  have hb := hf.phase
  rw [hph] at hb
  have hm : ∀ transition, (moves transition).1 ≠ .preparing ∧ (moves transition).2 ≠ .preparing := by
    intro transition
    cases transition <;> exact ⟨by simp [moves], by simp [moves]⟩
  refine .stay (hf.goto ⟨hb, ?_, a, he, ?_, ?_⟩) (.goto (by simp) fun _ => .inl hph)
  · rw [hd.target]
    exact fun h => (hm commit.transition).2 (code_injective h)
  · exact hd.identity.1.symm
  · rw [hd.source]
    exact fun h => (hm commit.transition).1 (code_injective h)

theorem start_effect (hf : Fit s l) (hph : l.phase = .idle) (h : start s l x = some (s', l')) : Effect s l s' l' := by
  cases x with
  | enter =>
    cases h
    refine .stay ⟨by simp, trivial, by simp⟩ ⟨?_, fun h => absurd h (not_isBackend rfl nofun nofun)⟩
    rintro i (⟨key, hk⟩ | ⟨key, mac, hk⟩)
    · cases hk
    · cases hk
  | claim key mac retiring =>
    have h : claimUdpPreparing s l key mac retiring = (s', l') := Option.some.inj h
    unfold claimUdpPreparing at h
    split at h
    · cases h
      exact .same hf
    split at h
    · rename_i i hn
      cases h
      exact .allocate hph hn
    · cases h
      exact .same hf
  | publish key state retiring =>
    have h : publishClaimedUdpState s l key state retiring = some (s', l') := h
    unfold publishClaimedUdpState at h
    split at h
    swap
    · cases h
    rename_i hc
    have hs : state.state ≠ UdpDecisionState.preparing.code := by
      rcases hc.2 with he | he
      · rw [he]
        decide
      · rw [he]
        decide
    split at h
    · cases h
      split
      · exact .same hf
      · exact .moved hf ⟨⟨key, hc.1⟩, hs⟩ nofun nofun nofun
    · cases h
      exact .same hf
  | abort key i token =>
    have h : abortUdpPreparing s l key i token = some (s', l') := h
    unfold abortUdpPreparing at h
    split at h
    swap
    · cases h
    rename_i hcl
    split at h
    · cases h
      split
      · exact .same hf
      · exact .moved hf ⟨key, hcl⟩ nofun nofun nofun
    · cases h
      exact .same hf
  | lookup key now available retiring =>
    cases h
    have hm : Effect s l s (if available then l.goto (.missed key) else l) := by
      split
      · exact .moved hf trivial nofun nofun nofun
      · exact .same hf
    unfold lookupUdpSeenAt
    split
    · split
      · exact hm
      · exact .moved hf trivial nofun nofun nofun
    · exact hm
  | renew key snapshot redirect now retiring =>
    cases h
    unfold renewUdpReply
    split
    · split
      · rename_i hw
        refine .moved hf ?_ nofun nofun nofun
        have hr := hw.1
        simp only [renewWanted, Bool.and_eq_true, Bool.or_eq_true, beq_iff_eq] at hr
        exact hr.1.2
      · exact .same hf
    · exact .same hf
  | lock =>
    have h : (if s.busy then none else some ({ s with busy := true }, l.goto .backend)) = some (s', l') := h
    split at h
    · cases h
    rename_i hb
    cases h
    exact .lock (by simpa using hb) hph
  | _ => cases h

theorem locked_effect (hfi : Fit s l) (h : locked s l = some (s', l')) : Effect s l s' l' := by
  have hf := hfi.phase
  unfold locked at h
  split at h
  · rename_i state pointer hph
    rw [hph] at hf
    refine release_effect hfi (Option.some.inj h) hf.1 fun next hn => ?_
    unfold publishLocked at hn
    split at hn
    · rename_i ho
      cases hn
      exact ⟨ho, rfl, hf.2⟩
    · cases hn
  · rename_i i token pointer hph
    rw [hph] at hf
    refine release_effect hfi (Option.some.inj h) hf fun next hn => ?_
    unfold abortLocked at hn
    split at hn
    · rename_i ho
      cases hn
      have hid := ho
      simp only [owned, Bool.and_eq_true, beq_iff_eq] at ho
      exact ⟨hid, ho.2, by simp [UdpDecisionState.code]⟩
    · cases hn
  · rename_i key now available pointer hph
    cases h
    obtain ⟨hfi', hl, hidle⟩ := seen_stay hfi key now available (s.conn.memory pointer)
    refine refresh_effect hfi' hl fun next hn => ?_
    obtain ⟨hs, he, hn⟩ := seenLocked_some hn
    exact ⟨hs, hidle he, now, hn⟩
  · rename_i snapshot redirect now pointer hph
    rw [hph] at hf
    cases h
    have hfi' : Fit s (l.goto .idle) := hfi.goto trivial
    refine refresh_effect hfi' (.idle l) fun next hn => ?_
    obtain ⟨hs, hn⟩ := renewLocked_some hf hn
    exact ⟨hs, rfl, now, hn⟩
  · cases h

theorem serve_effect (hf : Fit s l) (hph : l.phase = .backend) (h : serve s l x = some (s', l')) : Effect s l s' l' := by
  cases x with
  | retire key =>
    cases h
    exact .retire hph
  | read commit allowed =>
    cases h
    exact read_effect hf hph commit allowed
  | unlock =>
    cases h
    exact .unlock hph
  | _ => cases h

theorem insert_effect (hf : Fit s l)
    (hph : l.phase = .claiming key mac i) (h : insertPreparing s l key mac i address now admitted = some (s', l')) :
    Effect s l s' l' := by
  unfold insertPreparing at h
  split at h
  · cases h
    exact .idle hf
  rename_i ha
  have hn : s.conn.entries key = none := by simpa using (not_or.mp ha).2
  split at h
  · cases h
    exact .insert hph hn _
  · cases h

theorem step_effect (hfi : Fit s l) (h : step s l x = some (s', l')) : Effect s l s' l' := by
  have hl : underLock s l x = some (s', l') → Effect s l s' l' := by
    intro h
    cases x with
    | locked => exact locked_effect hfi h
    | _ => cases h
  unfold step at h
  generalize hph : l.phase = phase at h
  cases phase with
  | idle => exact start_effect hfi hph h
  | backend => exact serve_effect hfi hph h
  | claiming key mac i =>
    cases x with
    | insert address now admitted => exact insert_effect hfi hph h
    | _ => cases h
  | missed key =>
    cases x with
    | recheck retiring =>
      cases h
      refine .stay (hfi.return fun state hs => ?_) (.return l)
      split at hs <;> cases hs
    | _ => cases h
  | committing key next initial =>
    have hf := hfi.phase
    rw [hph] at hf
    obtain ⟨-, -, a, he, -⟩ := hf
    cases x with
    | write address =>
      dsimp only at h
      rw [write, he] at h
      cases h
      exact .commit hph he
    | _ => cases h
  | publishing _ _ | aborting _ _ _ | looking _ _ _ _ | renewing _ _ _ _ => exact hl h

end Udp

end Honk.Conntrack
