import Honk.Lib.Bytes
import Honk.Lib.Interleaving

namespace Honk.Quic

open Honk.Lib

inductive ClientHelloParse where
  | complete (domain : Option String)
  | incomplete
  | invalid

structure PacketSnifferKey where
  srcIp : Vector Byte 16
  srcPort : BitVec 16
  dstIp : Vector Byte 16
  dstPort : BitVec 16
  deriving DecidableEq

/-- Decryption of a datagram, the reassembly of its fragments and the parser over it, and the hash that picks the
shard of a flow: each a fixed function. -/
structure Decoder (D C : Type) where
  shardIndex : PacketSnifferKey → Fin 32
  decryptInitialDatagram : D → Option (List (ℕ × List Byte))
  empty : C
  insert : C → ℕ → List Byte → C
  isOverflowed : C → Bool
  parseClientHello : C → ClientHelloParse

inductive QuicSniffOutcome where
  | notQuic
  | incomplete
  | completeNoDomain
  | domain (domain : String)
  deriving DecidableEq

def QuicSniffOutcome.isTerminal : QuicSniffOutcome → Bool
  | .completeNoDomain | .domain _ => true
  | _ => false

/-- `genuine` and `judged` are a history: a datagram has decrypted, and the ClientHello was found complete or
invalid. -/
structure SnifferSession (C : Type) where
  domain : Option String := none
  packetsSeen : BitVec 32 := 0
  noSniCount : BitVec 32 := 0
  errorCount : BitVec 32 := 0
  crypto : C
  done : Bool := false
  expiresAt : ℕ
  genuine : Bool := false
  judged : Bool := false

/-- The pool and the clock. `abandoned` is a history: a session was finalized by datagrams that do not decrypt,
with its ClientHello never judged. -/
structure Pool (C : Type) where
  clock : ℕ := 0
  sessions : PacketSnifferKey → Option (SnifferSession C) := fun _ => none
  failedDcids : Fin 32 → List (PacketSnifferKey × ℕ) := fun _ => []
  abandoned : Bool := false

def snifferTtl : ℕ := 5000000000

def noSniThreshold : BitVec 32 := 4

def noSniBypassTtl : ℕ := 1000000000

def decryptBypassTtl : ℕ := 30000000000

def maxInitialSniffPackets : BitVec 32 := 8

variable {D C : Type}

namespace SnifferSession

def new (decoder : Decoder D C) (now : ℕ) : SnifferSession C := { crypto := decoder.empty, expiresAt := now + snifferTtl }

def outcome (session : SnifferSession C) : QuicSniffOutcome :=
  match session.domain with
  | some domain => .domain domain
  | none => .completeNoDomain

def shouldBypass (session : SnifferSession C) : Bool := noSniThreshold ≤ session.noSniCount

def parse (decoder : Decoder D C) (session : SnifferSession C) : ClientHelloParse :=
  if decoder.isOverflowed session.crypto then .invalid else decoder.parseClientHello session.crypto

end SnifferSession

structure Fed (C : Type) where
  session : SnifferSession C
  outcome : QuicSniffOutcome
  bypass : Option ℕ := none

namespace SnifferSession

def fail (session : SnifferSession C) : Fed C :=
  let session := { session with errorCount := session.errorCount + 1 }
  if noSniThreshold ≤ session.errorCount then ⟨{ session with done := true }, .notQuic, some decryptBypassTtl⟩
  else ⟨session, .notQuic, none⟩

def judge (session : SnifferSession C) : ClientHelloParse → Fed C
  | .complete (some domain) => ⟨{ session with domain := some domain, done := true, judged := true }, .domain domain, none⟩
  | .complete none => ⟨{ session with done := true, judged := true }, .completeNoDomain, some noSniBypassTtl⟩
  | .incomplete => ⟨session, .incomplete, none⟩
  | .invalid =>
    let session := { session with noSniCount := session.noSniCount + 1, judged := true }
    if session.shouldBypass then ⟨{ session with done := true }, .completeNoDomain, some noSniBypassTtl⟩
    else ⟨session, .completeNoDomain, none⟩

def reassemble (decoder : Decoder D C) (session : SnifferSession C) (fragments : List (ℕ × List Byte)) : SnifferSession C :=
  { session with
    genuine := true
    crypto := fragments.foldl (fun crypto fragment => decoder.insert crypto fragment.1 fragment.2) session.crypto }

def feed (decoder : Decoder D C) (session : SnifferSession C) (fragments : Option (List (ℕ × List Byte))) : Fed C :=
  if session.done then ⟨session, session.outcome, none⟩
  else
    let session := { session with packetsSeen := session.packetsSeen + 1 }
    -- the session stays open: done would read as a ClientHello without a domain
    if maxInitialSniffPackets < session.packetsSeen then ⟨session, .notQuic, some noSniBypassTtl⟩
    else match fragments with
      | none => session.fail
      | some fragments =>
        let session := session.reassemble decoder fragments
        session.judge (session.parse decoder)

end SnifferSession

namespace Pool

variable (decoder : Decoder D C) (pool : Pool C) (key : PacketSnifferKey)

def isDcidFailedAt : Bool :=
  ((pool.failedDcids (decoder.shardIndex key)).lookup key).any fun expiresAt => pool.clock < expiresAt

def terminalOutcome : Option (SnifferSession C × QuicSniffOutcome) :=
  (pool.sessions key).bind fun session => if session.done then some (session, session.outcome) else none

def markDcidFailed (ttl : ℕ) : Pool C :=
  let cache := (key, pool.clock + ttl) :: (pool.failedDcids (decoder.shardIndex key)).filter fun entry => entry.1 ≠ key
  let cache := if cache.length > 512 then cache.filter fun entry => entry.2 > pool.clock else cache
  { pool with failedDcids := Function.update pool.failedDcids (decoder.shardIndex key) cache }

def update (decoder : Decoder D C) (pool : Pool C) (key : PacketSnifferKey) (fragments : Option (List (ℕ × List Byte))) : Pool C × Fed C :=
  let fed := ((pool.sessions key).getD (.new decoder pool.clock)).feed decoder fragments
  ({ pool with
      sessions := Function.update pool.sessions key (some fed.session)
      abandoned := pool.abandoned || (fed.session.done && !fed.session.judged) }, fed)

def sweepSessions (now : ℕ) (shard : Fin 32) : Pool C :=
  { pool with sessions := fun key =>
      if decoder.shardIndex key = shard then (pool.sessions key).filter fun session => now ≤ session.expiresAt else pool.sessions key }

def sweepFailed (now : ℕ) (shard : Fin 32) : Pool C :=
  let cache := (pool.failedDcids shard).filter fun entry => entry.2 > now
  { pool with failedDcids := Function.update pool.failedDcids shard cache }

end Pool

/-- A task of the pool, between two of its sections. A returned outcome goes with the session it was read from. -/
inductive Task (D C : Type) where
  | idle
  | entered (key : PacketSnifferKey) (data : D)
  | unskipped (key : PacketSnifferKey) (data : D)
  | decrypting (key : PacketSnifferKey) (data : D)
  | decrypted (key : PacketSnifferKey) (fragments : Option (List (ℕ × List Byte)))
  | marking (key : PacketSnifferKey) (ttl : ℕ) (outcome : QuicSniffOutcome) (session : SnifferSession C)
  | returned (key : PacketSnifferKey) (outcome : QuicSniffOutcome) (session : Option (SnifferSession C))
  | sweepingSessions (now shard : ℕ)
  | sweepingFailed (now shard : ℕ)

inductive Given (D : Type) where
  | feed (key : PacketSnifferKey) (data : D)
  | janitor
  | time (elapsed : ℕ)
  | go

def step (decoder : Decoder D C) (pool : Pool C) : Task D C → Given D → Option (Pool C × Task D C)
  | .idle, .feed key data => some (pool, .entered key data)
  | .idle, .janitor => some (pool, .sweepingSessions pool.clock 0)
  | .idle, .time elapsed => some ({ pool with clock := pool.clock + elapsed }, .idle)
  | .entered key data, .go =>
    some (pool, if pool.isDcidFailedAt decoder key then .returned key .notQuic none else .unskipped key data)
  | .unskipped key data, .go =>
    some (pool, match pool.terminalOutcome key with
      | some (session, outcome) => .returned key outcome (some session)
      | none => .decrypting key data)
  | .decrypting key data, .go => some (pool, .decrypted key (decoder.decryptInitialDatagram data))
  | .decrypted key fragments, .go =>
    let (pool, fed) := pool.update decoder key fragments
    some (pool, match fed.bypass with
      | some ttl => .marking key ttl fed.outcome fed.session
      | none => .returned key fed.outcome (some fed.session))
  | .marking key ttl outcome session, .go => some (pool.markDcidFailed decoder key ttl, .returned key outcome (some session))
  | .returned _ _ _, .go => some (pool, .idle)
  | .sweepingSessions now shard, .go =>
    some (if h : shard < 32 then (pool.sweepSessions decoder now ⟨shard, h⟩, .sweepingSessions now (shard + 1))
      else (pool, .sweepingFailed now 0))
  | .sweepingFailed now shard, .go =>
    some (if h : shard < 32 then (pool.sweepFailed now ⟨shard, h⟩, .sweepingFailed now (shard + 1)) else (pool, .idle))
  | _, _ => none

def system (decoder : Decoder D C) : System (Pool C) (Task D C) (Given D) where
  init := {}
  idle := .idle
  step := step decoder
  reclaim _ _ _ := False

section

def SnifferSession.Resolved (session : SnifferSession C) : Prop := session.genuine = true ∧ session.judged = true

structure SnifferSession.Sound (abandoned : Bool) (session : SnifferSession C) : Prop where
  judged : session.judged = true → session.genuine = true
  done : session.done = true → session.judged = true ∨ abandoned = true

structure Fed.Sound (abandoned : Bool) (fed : Fed C) : Prop where
  session : fed.session.Sound (abandoned || (fed.session.done && !fed.session.judged))
  outcome : fed.outcome.isTerminal = true → fed.session.Resolved ∨ abandoned = true

variable {session : SnifferSession C} {abandoned : Bool}

theorem sound_fail (h : session.Sound abandoned) (ho : session.done = false) : session.fail.Sound abandoned := by
  unfold SnifferSession.fail
  dsimp only
  split
  · refine ⟨⟨h.judged, fun _ => ?_⟩, nofun⟩
    cases hj : session.judged with
    | true => exact .inl rfl
    | false => exact .inr (by simp)
  · exact ⟨⟨h.judged, fun hd => absurd hd (by simp [ho])⟩, nofun⟩

theorem sound_judge (hg : session.genuine = true) (ho : session.done = false) : (session.judge parse).Sound abandoned := by
  cases parse with
  | complete domain =>
    cases domain with
    | none | some domain => exact ⟨⟨fun _ => hg, fun _ => .inl rfl⟩, fun _ => .inl ⟨hg, rfl⟩⟩
  | incomplete => exact ⟨⟨fun _ => hg, fun hd => nomatch ho.symm.trans hd⟩, nofun⟩
  | invalid =>
    rw [SnifferSession.judge]
    dsimp only
    split
    · exact ⟨⟨fun _ => hg, fun _ => .inl rfl⟩, fun _ => .inl ⟨hg, rfl⟩⟩
    · exact ⟨⟨fun _ => hg, fun hd => nomatch ho.symm.trans hd⟩, fun _ => .inl ⟨hg, rfl⟩⟩

theorem sound_outcome (h : session.Sound abandoned) (hd : session.done = true) : session.Resolved ∨ abandoned = true :=
  (h.done hd).imp_left fun hj => ⟨h.judged hj, hj⟩

variable (decoder : Decoder D C)

theorem sound_feed (h : session.Sound abandoned) (fragments : Option (List (ℕ × List Byte))) :
    (session.feed decoder fragments).Sound abandoned := by
  unfold SnifferSession.feed
  split
  · rename_i hd
    refine ⟨⟨h.judged, fun _ => ?_⟩, fun _ => sound_outcome h hd⟩
    exact (h.done hd).imp_right fun ha => by simp [ha]
  rename_i ho
  have ho : session.done = false := by simpa using ho
  dsimp only
  split
  · exact ⟨⟨h.judged, fun hd => nomatch ho.symm.trans hd⟩, nofun⟩
  split
  · exact sound_fail ⟨h.judged, fun hd => nomatch ho.symm.trans hd⟩ ho
  refine sound_judge ?_ ?_
  · rfl
  · exact ho

/-- Every session of the pool, and every outcome on its way to a caller, is sound unless a session was abandoned. -/
def Pool.Sound (pool : Pool C) : Prop := ∀ key session, pool.sessions key = some session → session.Sound pool.abandoned

def Task.Sound (pool : Pool C) : Task D C → Prop
  | .marking _ _ outcome session => outcome.isTerminal = true → session.Resolved ∨ pool.abandoned = true
  | .returned _ outcome session => outcome.isTerminal = true → (∃ s, session = some s ∧ s.Resolved) ∨ pool.abandoned = true
  | _ => True

theorem SnifferSession.Sound.mono (h : session.Sound abandoned) (hl : abandoned = true → abandoned' = true) :
    session.Sound abandoned' := ⟨h.judged, fun hd => (h.done hd).imp_right hl⟩

variable {pool pool' : Pool C} {task task' : Task D C} {key : PacketSnifferKey}

theorem Task.Sound.mono (h : task.Sound pool) (hl : pool.abandoned = true → pool'.abandoned = true) : task.Sound pool' := by
  cases task <;> first | trivial | exact fun ht => (h ht).imp_right hl

section

variable (h : pool.Sound)
include h

theorem Pool.Sound.update (key : PacketSnifferKey) (fragments : Option (List (ℕ × List Byte))) :
    (pool.update decoder key fragments).1.Sound ∧ (pool.update decoder key fragments).2.Sound pool.abandoned := by
  have hs : ((pool.sessions key).getD (.new decoder pool.clock)).Sound pool.abandoned := by
    cases hc : pool.sessions key with
    | none => exact ⟨nofun, nofun⟩
    | some session => exact h key session hc
  have hf := sound_feed decoder hs fragments
  refine ⟨fun other session ho => ?_, hf⟩
  unfold Pool.update at ho ⊢
  dsimp only at ho ⊢
  by_cases he : other = key
  · subst he
    rw [Function.update_self] at ho
    cases ho
    exact hf.session
  · rw [Function.update_of_ne he] at ho
    exact (h other session ho).mono fun ha => by simp [ha]

theorem sound_terminalOutcome (hre : pool.terminalOutcome key = some (found, outcome)) :
    (∃ s, some found = some s ∧ s.Resolved) ∨ pool.abandoned = true := by
  obtain ⟨session, hs, hre⟩ := Option.bind_eq_some_iff.mp hre
  split at hre
  · rename_i hd
    cases hre
    exact (sound_outcome (h key _ hs) hd).imp_left fun hr => ⟨_, rfl, hr⟩
  · cases hre

theorem Pool.Sound.sweep (now : ℕ) : (pool.sweepSessions decoder now shard).Sound := by
  intro key session hs
  unfold Pool.sweepSessions at hs
  dsimp only at hs
  split at hs
  · exact h key session (Option.filter_eq_some_iff.mp hs).1
  · exact h key session hs

theorem step_decrypted (hs : step decoder pool (.decrypted key fragments) .go = some (pool', task')) :
    pool'.Sound ∧ task'.Sound pool' ∧ (pool.abandoned = true → pool'.abandoned = true) := by
  obtain ⟨hpo, hf⟩ := h.update decoder key fragments
  have hm : pool.abandoned = true → (pool.update decoder key fragments).1.abandoned = true := fun ha => by
    simp [Pool.update, ha]
  cases hs
  refine ⟨hpo, ?_, hm⟩
  split
  · exact fun ht => (hf.outcome ht).imp_right hm
  · exact fun ht => (hf.outcome ht).imp (fun hr => ⟨_, rfl, hr⟩) hm

theorem step_sound (hta : task.Sound pool) (hs : step decoder pool task given = some (pool', task')) :
    pool'.Sound ∧ task'.Sound pool' ∧ (pool.abandoned = true → pool'.abandoned = true) := by
  revert hs
  fun_cases step decoder pool task given with
  | case4 key data =>
    rintro ⟨⟩
    refine ⟨h, ?_, id⟩
    split
    · exact nofun
    · trivial
  | case5 key data =>
    rintro ⟨⟩
    refine ⟨h, ?_, id⟩
    split
    · exact fun _ => sound_terminalOutcome h ‹_›
    · trivial
  | case7 key fragments pool₁ fed hu =>
    intro hs
    exact step_decrypted decoder h (by rwa [step, hu])
  | case8 key ttl outcome session =>
    rintro ⟨⟩
    exact ⟨h, fun ht => (hta ht).imp_left fun hr => ⟨session, rfl, hr⟩, id⟩
  | case10 now shard =>
    intro hs
    have hs := Option.some.inj hs
    split at hs
    · cases hs
      exact ⟨h.sweep decoder now, trivial, id⟩
    · cases hs
      exact ⟨h, trivial, id⟩
  | case11 now shard =>
    intro hs
    have hs := Option.some.inj hs
    split at hs <;> cases hs <;> exact ⟨h, trivial, id⟩
  | case12 => exact nofun
  | _ =>
    rintro ⟨⟩
    exact ⟨h, trivial, id⟩

end

theorem invariant_sound : (system decoder).Invariant Pool.Sound Task.Sound fun _ _ => True where
  symm _ _ h := h
  init _ _ h := nomatch h
  idle := trivial
  apart := trivial
  step _ _ _ _ _ hpo ht hs := ⟨(step_sound decoder hpo ht hs).1, (step_sound decoder hpo ht hs).2.1⟩
  others _ _ _ _ _ _ hpo ht ho _ hs := ⟨ho.mono (step_sound decoder hpo ht hs).2.2, trivial⟩
  reclaim _ _ _ _ _ h := h.elim

def garbled : Decoder Unit Unit where
  shardIndex _ := 0
  decryptInitialDatagram _ := none
  empty := ()
  insert _ _ _ := ()
  isOverflowed _ := false
  parseClientHello _ := .incomplete

def someFlow : PacketSnifferKey := ⟨.replicate 16 0, 0, .replicate 16 0, 0⟩

def fiveAtOnce : List (ℕ × Given Unit) :=
  ([0, 1, 2, 3, 4].flatMap fun i => [(i, .feed someFlow ()), (i, .go), (i, .go), (i, .go)]) ++ [0, 1, 2, 3, 4].map fun i => (i, .go)

def plain : Decoder Unit Unit where
  shardIndex _ := 0
  decryptInitialDatagram _ := some []
  empty := ()
  insert _ _ _ := ()
  isOverflowed _ := false
  parseClientHello _ := .complete (some "honk")

end

end Honk.Quic
