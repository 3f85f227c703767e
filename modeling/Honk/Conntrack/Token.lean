import Honk.Conntrack.State

namespace Honk.Conntrack.Token

open List
open BitVec (le_def toNat_add toNat_and)
open Function (update update_of_ne update_self)

structure UdpDecisionSequence where
  next : BitVec 32 := 0
  exhausted : BitVec 32 := 0
  deriving DecidableEq

def udpDecisionSequenceMask : BitVec 32 := 0x0fffffff
def udpDecisionGenerationShift : ℕ := 28
def udpDecisionGenerationMask : BitVec 32 := 3

def udpDecisionTokenGeneration (token : BitVec 32) : BitVec 32 := token >>> udpDecisionGenerationShift &&& udpDecisionGenerationMask

section

variable (sequence : UdpDecisionSequence)

def allocateUdpDecisionToken : UdpDecisionSequence × Option (BitVec 32) :=
  if sequence.exhausted ≠ 0 ∨ udpDecisionSequenceMask ≤ sequence.next &&& udpDecisionSequenceMask then (sequence, none)
  else
    let next := sequence.next + 1
    let exhausted := if next = nfqueueTokenMask then 1 else sequence.exhausted
    if next = 0 then (⟨next, exhausted⟩, none) else (⟨next, exhausted⟩, some next)

def validateUdpDecisionSequenceValue : Bool :=
  decide (sequence.next ≤ nfqueueTokenMask) && decide (sequence.exhausted ≤ 1) &&
    (sequence.exhausted == 0 || sequence.next == nfqueueTokenMask)

def statusExhausted : Bool :=
  decide (udpDecisionSequenceMask ≤ sequence.next &&& udpDecisionSequenceMask)

end

def conflictsWithRollback (generation token : BitVec 32) : Bool :=
  token != 0 && decide (generation ≤ udpDecisionTokenGeneration token)

-- The visitor of a map overwrites its flag at each chunk and stops at the first that sets it.
def visitChunks (conflicts : BitVec 32 → Bool) : List (List (BitVec 32)) → Bool → Bool
  | [], live => live
  | chunk :: rest, _ => if chunk.any conflicts then true else visitChunks conflicts rest false

inductive Table where
  | conn
  | fence
  | handoff
  | redirect
  deriving DecidableEq

def tables : List Table := [.conn, .fence, .handoff, .redirect]

structure Rotation where
  generation : BitVec 32
  offset : ℕ
  rest : List Table

def Rotation.candidate (rotation : Rotation) : BitVec 32 :=
  (rotation.generation + BitVec.ofNat 32 rotation.offset) &&& udpDecisionGenerationMask

/-- The sequence and, of the entries of each map, the tokens. A token is held by whoever allocated it or read it
from an entry, until it is given up; while it is held it may be stored. -/
structure Tokens where
  sequence : UdpDecisionSequence := {}
  entries : Table → List (BitVec 32) := fun _ => []
  held : List (BitVec 32) := []
  rotation : Option Rotation := none
  result : Option Bool := none

inductive Action where
  | allocate
  | drop (token : BitVec 32)
  | pick (table : Table) (token : BitVec 32)
  | store (table : Table) (token : BitVec 32)
  | remove (table : Table) (token : BitVec 32)
  | rotate
  | scan (chunks : List (List (BitVec 32)))

def scanned (s : Tokens) (rotation : Rotation) (rest : List Table) (live : Bool) : Tokens :=
  if live = false then { s with rotation := some { rotation with rest := rest } }
  else if rotation.offset ≤ udpDecisionGenerationMask.toNat then
    { s with rotation := some { rotation with offset := rotation.offset + 1, rest := tables } }
  else { s with rotation := none, result := some false }

/-- One scan of `reset_udp_decision_sequence`, or its reset once all maps are scanned. The kernel hands the
entries of a map out in any order and chunks. -/
def scan (s : Tokens) (rotation : Rotation) (chunks : List (List (BitVec 32))) : Option Tokens :=
  if statusExhausted s.sequence = false then some { s with rotation := none }
  else match rotation.rest with
    | [] => some { s with
        sequence := ⟨rotation.candidate <<< udpDecisionGenerationShift, 0⟩, rotation := none, result := some true }
    | table :: rest =>
      if chunks.flatten.Perm (s.entries table) then
        some (scanned s rotation rest (visitChunks (conflictsWithRollback rotation.candidate) chunks false))
      else none

-- A rotation starts with no token in flight and keeps the backend to itself, which alone removes entries,
-- installs fences and reads the auxiliary maps for their tokens.
@[local simp] def act (s : Tokens) : Action → Option Tokens
  | .allocate =>
    match allocateUdpDecisionToken s.sequence with
    | (sequence, some token) => some { s with sequence := sequence, held := token :: s.held }
    | (sequence, none) => some { s with sequence := sequence }
  | .drop token => some { s with held := s.held.erase token }
  | .pick table token =>
    if token ∈ s.entries table ∧ (table ≠ .conn → s.rotation.isNone) then some { s with held := token :: s.held } else none
  | .store table token =>
    if (token = 0 ∨ token ∈ s.held) ∧ (table = .fence → s.rotation.isNone) then
      some { s with entries := update s.entries table (token :: s.entries table) }
    else none
  | .remove table token =>
    if s.rotation.isNone then
      some { s with entries := update s.entries table ((s.entries table).erase token) }
    else none
  | .rotate =>
    if s.rotation.isSome ∨ s.held ≠ [] ∨ validateUdpDecisionSequenceValue s.sequence = false then none
    else if statusExhausted s.sequence = false then some { s with result := some true }
    else some { s with rotation := some ⟨udpDecisionTokenGeneration s.sequence.next, 1, tables⟩, result := none }
  | .scan chunks => s.rotation.bind fun rotation => scan s rotation chunks

inductive Reachable : Tokens → Prop
  | init : Reachable {}
  | act {s s' : Tokens} (action : Action) (h : Reachable s) (hs : act s action = some s') : Reachable s'

variable {generation : BitVec 32} {conflicts : BitVec 32 → Bool}

section

theorem visitChunks_eq (chunks : List (List (BitVec 32))) : visitChunks conflicts chunks false = chunks.flatten.any conflicts := by
  induction chunks with
  | nil => rfl
  | cons chunk rest ih =>
    rw [visitChunks, flatten_cons, any_append, ih]
    cases chunk.any conflicts <;> rfl

theorem nfqueueTokenMask_toNat : nfqueueTokenMask.toNat = 2 ^ 30 - 1 := by decide

theorem toNat_and_sequenceMask (next : BitVec 32) : (next &&& udpDecisionSequenceMask).toNat = next.toNat % 2 ^ 28 := by
  rw [toNat_and]
  exact Nat.and_two_pow_sub_one_eq_mod next.toNat 28

theorem toNat_tokenGeneration (token : BitVec 32) : (udpDecisionTokenGeneration token).toNat = token.toNat / 2 ^ 28 % 4 := by
  rw [udpDecisionTokenGeneration, toNat_and, BitVec.toNat_ushiftRight, Nat.shiftRight_eq_div_pow]
  exact Nat.and_two_pow_sub_one_eq_mod _ 2

theorem toNat_candidate (rotation : Rotation) : rotation.candidate.toNat = (rotation.generation.toNat + rotation.offset) % 4 := by
  have hmo := Nat.and_two_pow_sub_one_eq_mod (rotation.generation + BitVec.ofNat 32 rotation.offset).toNat 2
  have hm : udpDecisionGenerationMask.toNat = 2 ^ 2 - 1 := by decide
  rw [Rotation.candidate, toNat_and, hm, hmo, toNat_add, BitVec.toNat_ofNat]
  omega

theorem toNat_restart (rotation : Rotation) :
    (rotation.candidate <<< udpDecisionGenerationShift).toNat = rotation.candidate.toNat * 2 ^ 28 := by
  have hc := toNat_candidate rotation
  rw [BitVec.toNat_shiftLeft, Nat.shiftLeft_eq, udpDecisionGenerationShift]
  omega

theorem valid_iff (sequence : UdpDecisionSequence) : validateUdpDecisionSequenceValue sequence = true ↔
    sequence.next.toNat < 2 ^ 30 ∧ sequence.exhausted ≤ 1 ∧ (sequence.exhausted = 0 ∨ sequence.next = nfqueueTokenMask) := by
  have hl : sequence.next ≤ nfqueueTokenMask ↔ sequence.next.toNat < 2 ^ 30 := by
    rw [le_def, nfqueueTokenMask_toNat]
    omega
  simp [validateUdpDecisionSequenceValue, hl, and_assoc]

variable {token next : BitVec 32} {sequence sequence' : UdpDecisionSequence}

theorem lt_of_no_conflict (h : conflictsWithRollback generation token = false) (ht : token.toNat < 2 ^ 30) :
    token.toNat ≤ generation.toNat * 2 ^ 28 := by
  by_cases hz : token = 0
  · rw [hz]
    exact Nat.zero_le _
  simp only [conflictsWithRollback, Bool.and_eq_false_iff, bne_eq_false_iff_eq, hz, false_or, decide_eq_false_iff_not,
    le_def, toNat_tokenGeneration] at h
  omega

theorem toNat_succ (h : next.toNat < 2 ^ 30) : (next + 1).toNat = next.toNat + 1 := by
  have ho : (1 : BitVec 32).toNat = 1 := rfl
  rw [toNat_add]
  omega

theorem succ_ne_zero (h : next.toNat < 2 ^ 30) : next + 1 ≠ 0 := by
  intro hz
  have hn := toNat_succ h
  rw [hz] at hn
  exact absurd hn (by simp)

theorem allocate_some (h : allocateUdpDecisionToken sequence = (sequence', some token))
    (hv : validateUdpDecisionSequenceValue sequence = true) :
    validateUdpDecisionSequenceValue sequence' = true ∧ sequence'.next = token ∧
      token.toNat = sequence.next.toNat + 1 ∧ token.toNat < 2 ^ 30 ∧ statusExhausted sequence = false := by
  rw [valid_iff] at hv ⊢
  unfold allocateUdpDecisionToken at h
  split at h
  · cases h
  rename_i hc
  rw [not_or, not_not, le_def, toNat_and_sequenceMask] at hc
  obtain ⟨he, hs⟩ := hc
  have hm : udpDecisionSequenceMask.toNat = 2 ^ 28 - 1 := by decide
  have hn := toNat_succ hv.1
  dsimp only at h
  rw [if_neg (succ_ne_zero hv.1)] at h
  obtain ⟨rfl, ht⟩ := Prod.mk.inj h
  obtain rfl := Option.some.inj ht
  refine ⟨⟨by dsimp only; omega, ?_, ?_⟩, rfl, hn, by omega, ?_⟩
  · dsimp only
    split
    · decide
    · rw [he]
      decide
  · dsimp only
    split
    · rename_i heq
      exact .inr heq
    · exact .inl he
  · rw [statusExhausted, decide_eq_false_iff_not, le_def, toNat_and_sequenceMask]
    exact hs

theorem allocate_none (h : allocateUdpDecisionToken sequence = (sequence', none))
    (hv : validateUdpDecisionSequenceValue sequence = true) : sequence' = sequence := by
  rw [valid_iff] at hv
  unfold allocateUdpDecisionToken at h
  split at h
  · exact (congrArg Prod.fst h).symm
  dsimp only at h
  rw [if_neg (succ_ne_zero hv.1)] at h
  cases congrArg Prod.snd h

end

section

def Conflict (s : Tokens) (generation : BitVec 32) : Prop :=
  ∃ table, ∃ token ∈ s.entries table, conflictsWithRollback generation token = true

structure Scanning (s : Tokens) (rotation : Rotation) : Prop where
  exhausted : statusExhausted s.sequence = true
  running : s.result = none
  offset : 1 ≤ rotation.offset ∧ rotation.offset ≤ 4
  held : ∀ token ∈ s.held, token ∈ s.entries .conn
  clean : ∃ done, done ++ rotation.rest = tables ∧
    ∀ table ∈ done, ∀ token ∈ s.entries table, conflictsWithRollback rotation.candidate token = false
  refused : ∀ offset, 1 ≤ offset → offset < rotation.offset → Conflict s (Rotation.candidate { rotation with offset := offset })

structure Sound (s : Tokens) : Prop where
  valid : validateUdpDecisionSequenceValue s.sequence = true
  entries : ∀ table, ∀ token ∈ s.entries table, token.toNat ≤ s.sequence.next.toNat
  held : ∀ token ∈ s.held, token.toNat ≤ s.sequence.next.toNat
  rotation : ∀ rotation, s.rotation = some rotation → Scanning s rotation

theorem sound_init : Sound {} := ⟨by decide, nofun, nofun, nofun⟩

variable {s s' : Tokens} {table : Table} {token : BitVec 32} {chunks : List (List (BitVec 32))}

theorem Conflict.mono (h : Conflict s generation)
    (he : ∀ table, ∀ token ∈ s.entries table, token ∈ s'.entries table) : Conflict s' generation := by
  obtain ⟨table, token, hm, hc⟩ := h
  exact ⟨table, token, he table token hm, hc⟩

theorem sound_allocate (h : Sound s) (hs : act s .allocate = some s') : Sound s' := by
  have hv := h.valid
  rcases ha : allocateUdpDecisionToken s.sequence with ⟨sequence, _ | token⟩
  · simp only [act, ha, Option.some.injEq] at hs
    rw [allocate_none ha hv] at hs
    rwa [← hs]
  obtain ⟨hv', hn, ht, -, hst⟩ := allocate_some ha hv
  simp only [act, ha, Option.some.injEq] at hs
  subst hs
  refine ⟨hv', fun table other ho => ?_, fun other ho => ?_, fun rotation hr => ?_⟩
  · have hl := h.entries table other ho
    dsimp only
    rw [hn]
    omega
  · dsimp only
    rw [hn]
    rcases mem_cons.mp ho with rfl | ho
    · exact le_rfl
    · have hl := h.held other ho
      omega
  -- The sequence is exhausted while a rotation scans.
  · have he := (h.rotation rotation hr).exhausted
    rw [hst] at he
    cases he

theorem sound_store (h : Sound s) (hs : act s (.store table token) = some s') : Sound s' := by
  rw [act] at hs
  split at hs
  swap
  · cases hs
  rename_i hco
  cases hs
  have hm : ∀ {other t}, t ∈ update s.entries table (token :: s.entries table) other → t ∈ s.entries other ∨ other = table ∧ t = token := by
    intro other t ht
    by_cases ho : other = table
    · rw [ho, update_self] at ht
      rcases mem_cons.mp ht with rfl | ht
      · exact .inr ⟨ho, rfl⟩
      · exact .inl (ho ▸ ht)
    · rw [update_of_ne ho] at ht
      exact .inl ht
  have hk : ∀ other, ∀ t ∈ s.entries other, t ∈ update s.entries table (token :: s.entries table) other := by
    intro other t ht
    by_cases ho : other = table
    · rw [ho, update_self]
      exact mem_cons_of_mem _ (ho ▸ ht)
    · rwa [update_of_ne ho]
  refine ⟨h.valid, fun other t ht => ?_, h.held, fun rotation hr => ?_⟩
  · rcases hm ht with ht | ⟨-, rfl⟩
    · exact h.entries other t ht
    · rcases hco.1 with hz | hh
      · rw [hz]
        exact Nat.zero_le _
      · exact h.held _ hh
  have hsc := h.rotation rotation hr
  obtain ⟨done, hd, hc⟩ := hsc.clean
  refine ⟨hsc.exhausted, hsc.running, hsc.offset, fun t ht => hk _ t (hsc.held t ht), ⟨done, hd, fun other ho t ht => ?_⟩,
    fun offset hl hhigh => (hsc.refused offset hl hhigh).mono hk⟩
  rcases hm ht with ht | ⟨-, rfl⟩
  · exact hc other ho t ht
  -- The conn map is the first to be scanned, and what is held is in it.
  · rcases hco.1 with hz | hh
    · rw [hz]
      rfl
    · have hconn : Table.conn ∈ done := by
        cases done with
        | nil => cases ho
        | cons first rest =>
          obtain ⟨rfl, -⟩ := List.cons.inj hd
          exact mem_cons_self ..
      exact hc .conn hconn _ (hsc.held _ hh)

theorem sound_remove (h : Sound s) (hs : act s (.remove table token) = some s') : Sound s' := by
  rw [act] at hs
  split at hs
  swap
  · cases hs
  rename_i hn
  cases hs
  refine ⟨h.valid, fun other t ht => ?_, h.held, fun rotation hr => ?_⟩
  · by_cases ho : other = table
    · dsimp only at ht
      rw [ho, update_self] at ht
      exact h.entries table t (mem_of_mem_erase ht)
    · dsimp only at ht
      rw [update_of_ne ho] at ht
      exact h.entries other t ht
  · rw [Option.isNone_iff_eq_none.mp hn] at hr
    cases hr

theorem sound_held (h : Sound s)
    (hh : ∀ token ∈ held, token ∈ s.held ∨ ∃ table, token ∈ s.entries table ∧ (table ≠ .conn → s.rotation.isNone)) :
    Sound { s with held := held } := by
  refine ⟨h.valid, h.entries, fun token hm => ?_, fun rotation hr => ?_⟩
  · rcases hh token hm with hm | ⟨table, hm, -⟩
    · exact h.held token hm
    · exact h.entries table token hm
  have hs := h.rotation rotation hr
  refine ⟨hs.exhausted, hs.running, hs.offset, fun token hm => ?_, hs.clean, hs.refused⟩
  rcases hh token hm with hm | ⟨table, hm, hc⟩
  · exact hs.held token hm
  by_cases ht : table = .conn
  · exact ht ▸ hm
  have hn := Option.isNone_iff_eq_none.mp (hc ht)
  rw [hn] at hr
  cases hr

theorem sound_rotate (h : Sound s) (hs : act s .rotate = some s') : Sound s' := by
  rw [act] at hs
  split at hs
  · cases hs
  rename_i hc
  rw [not_or, not_or, not_not] at hc
  obtain ⟨hso, hh, -⟩ := hc
  have hn : s.rotation = none := by simpa using hso
  split at hs
  · cases hs
    refine ⟨h.valid, h.entries, h.held, fun rotation hr => ?_⟩
    rw [hn] at hr
    cases hr
  rename_i he
  cases hs
  refine ⟨h.valid, h.entries, h.held, ?_⟩
  rintro rotation ⟨⟩
  refine ⟨by simpa using he, rfl, ⟨le_rfl, by simp⟩, fun token hm => ?_, ⟨[], rfl, nofun⟩, fun offset hl hhigh => ?_⟩
  · dsimp only at hm
    rw [hh] at hm
    cases hm
  · dsimp only at hhigh
    omega

theorem perm_any (h : chunks.flatten.Perm entries) : visitChunks conflicts chunks false = entries.any conflicts := by
  rw [visitChunks_eq]
  exact h.any_eq

theorem sound_scanned {rotation : Rotation} {rest : List Table} {live : Bool} (h : Sound s)
    (hr : s.rotation = some rotation) (hre : rotation.rest = table :: rest)
    (hl : live = (s.entries table).any (conflictsWithRollback rotation.candidate)) : Sound (scanned s rotation rest live) := by
  have hs := h.rotation rotation hr
  obtain ⟨done, hd, hc⟩ := hs.clean
  unfold scanned
  split
  · rename_i hn
    rw [hl, any_eq_false] at hn
    refine ⟨h.valid, h.entries, h.held, ?_⟩
    rintro _ ⟨⟩
    refine ⟨hs.exhausted, hs.running, hs.offset, hs.held, ⟨done ++ [table], ?_, fun other ho token hme => ?_⟩, hs.refused⟩
    · rw [append_assoc, singleton_append, ← hre, hd]
    rcases mem_append.mp ho with ho | ho
    · exact hc other ho token hme
    · rw [mem_singleton.mp ho] at hme
      exact Bool.eq_false_of_not_eq_true (hn token hme)
  rename_i hso
  rw [Bool.not_eq_false, hl, any_eq_true] at hso
  have hco : Conflict s rotation.candidate := ⟨table, hso⟩
  split
  · rename_i hof
    refine ⟨h.valid, h.entries, h.held, ?_⟩
    rintro _ ⟨⟩
    have hm : udpDecisionGenerationMask.toNat = 3 := rfl
    refine ⟨hs.exhausted, hs.running, ⟨by dsimp only; omega, by dsimp only; omega⟩, hs.held, ⟨[], rfl, nofun⟩, fun offset hlo hh => ?_⟩
    dsimp only at hh
    by_cases he : offset = rotation.offset
    · rw [he]
      exact hco
    · exact hs.refused offset hlo (by omega)
  · exact ⟨h.valid, h.entries, h.held, nofun⟩

theorem sound_scan (h : Sound s) (hs : act s (.scan chunks) = some s') : Sound s' := by
  rw [act] at hs
  obtain ⟨rotation, hr, hs⟩ := Option.bind_eq_some_iff.mp hs
  have hsc := h.rotation rotation hr
  rw [scan, hsc.exhausted, if_neg (by simp)] at hs
  split at hs
  · rename_i hre
    obtain rfl := Option.some.inj hs
    obtain ⟨done, hd, hc⟩ := hsc.clean
    have hb : s.sequence.next.toNat < 2 ^ 30 := ((valid_iff s.sequence).mp h.valid).1
    have hrestart := toNat_restart rotation
    have hca := toNat_candidate rotation
    have hl : ∀ table, ∀ token ∈ s.entries table, token.toNat ≤ rotation.candidate.toNat * 2 ^ 28 := by
      intro table token hm
      have ht : table ∈ done := by
        rw [hre, append_nil] at hd
        rw [hd]
        cases table <;> decide
      exact lt_of_no_conflict (hc table ht token hm) ((h.entries table token hm).trans_lt hb)
    refine ⟨?_, fun table token hm => ?_, fun token hm => ?_, nofun⟩
    · rw [valid_iff]
      exact ⟨by dsimp only; omega, by simp, .inl rfl⟩
    · dsimp only
      rw [hrestart]
      exact hl table token hm
    dsimp only
    rw [hrestart]
    exact hl .conn token (hsc.held token hm)
  rename_i table rest hre
  split at hs
  · rename_i hpe
    cases hs
    exact sound_scanned h hr hre (perm_any hpe)
  · cases hs

theorem sound_act (h : Sound s) (hs : act s action = some s') : Sound s' := by
  cases action with
  | allocate => exact sound_allocate h hs
  | drop token =>
    cases hs
    exact sound_held h fun token hm => .inl (mem_of_mem_erase hm)
  | pick table token =>
    rw [act] at hs
    split at hs
    · rename_i hc
      cases hs
      refine sound_held h fun other hm => ?_
      rcases mem_cons.mp hm with rfl | hm
      · exact .inr ⟨table, hc.1, hc.2⟩
      · exact .inl hm
    · cases hs
  | store table token => exact sound_store h hs
  | remove table token => exact sound_remove h hs
  | rotate => exact sound_rotate h hs
  | scan chunks => exact sound_scan h hs

theorem Reachable.sound (h : Reachable s) : Sound s := by
  induction h with
  | init => exact sound_init
  | act action _ hs ih => exact sound_act ih hs

end

theorem exists_candidate (rotation : Rotation) (h : generation ≤ udpDecisionGenerationMask) :
    ∃ offset, 1 ≤ offset ∧ offset ≤ 4 ∧ Rotation.candidate { rotation with offset := offset } = generation := by
  have hl : generation.toNat ≤ 3 := h
  refine ⟨(generation.toNat + 3 - rotation.generation.toNat % 4) % 4 + 1, by omega, by omega, BitVec.eq_of_toNat_eq ?_⟩
  rw [toNat_candidate]
  dsimp only
  omega

theorem conflicts_of_refusal (h : Sound s) (hs : act s (.scan chunks) = some s') (hr : s'.result = some false)
    (hg : generation ≤ udpDecisionGenerationMask) : Conflict s' generation := by
  rw [act] at hs
  obtain ⟨rotation, hro, hs⟩ := Option.bind_eq_some_iff.mp hs
  have hsc := h.rotation rotation hro
  rw [scan, hsc.exhausted, if_neg (by simp)] at hs
  split at hs
  · obtain rfl := Option.some.inj hs
    cases hr
  rename_i table rest hre
  split at hs
  swap
  · cases hs
  rename_i hpe
  obtain rfl := Option.some.inj hs
  rw [perm_any hpe] at hr ⊢
  unfold scanned at hr ⊢
  split at hr
  · exact absurd (hsc.running.symm.trans hr) nofun
  rename_i hl
  rw [if_neg hl]
  split at hr
  · exact absurd (hsc.running.symm.trans hr) nofun
  rename_i ho
  rw [if_neg ho]
  rw [Bool.not_eq_false, any_eq_true] at hl
  have hm : udpDecisionGenerationMask.toNat = 3 := rfl
  obtain ⟨offset, hlo, hh, rfl⟩ := exists_candidate rotation hg
  by_cases he : offset = rotation.offset
  · rw [he]
    exact ⟨table, hl⟩
  · exact hsc.refused offset hlo (by have := hsc.offset.2; omega)

/-- Over every interleaving: the sequence is valid, an allocated token is a token that no entry carries, and a
rotation gives up only when an entry stands against each generation. -/
theorem udp_tokens_unique {s : Tokens} (h : Reachable s) : validateUdpDecisionSequenceValue s.sequence = true ∧
      (∀ sequence token, allocateUdpDecisionToken s.sequence = (sequence, some token) →
        token ≠ 0 ∧ token &&& nfqueueTokenMask = token ∧ ∀ table, token ∉ s.entries table) ∧
      ∀ chunks s', act s (.scan chunks) = some s' → s'.result = some false →
        ∀ generation ≤ udpDecisionGenerationMask, Conflict s' generation := by
  have hso := h.sound
  refine ⟨hso.valid, fun sequence token ha => ?_, fun chunks s' hs hr generation hg => conflicts_of_refusal hso hs hr hg⟩
  obtain ⟨-, -, ht, hb, -⟩ := allocate_some ha hso.valid
  refine ⟨fun hz => ?_, BitVec.eq_of_toNat_eq ?_, fun table hm => ?_⟩
  · rw [hz] at ht
    exact absurd ht (by simp)
  · rw [toNat_and, nfqueueTokenMask_toNat, Nat.and_two_pow_sub_one_eq_mod, Nat.mod_eq_of_lt hb]
  · have hl := hso.entries table token hm
    omega

theorem udp_tokens_unique_second : ∃ s, Reachable s ∧ 1 ∈ s.entries .conn ∧
    ∃ token, (allocateUdpDecisionToken s.sequence).2 = some token ∧ ∀ table, token ∉ s.entries table := by
  have hf : Reachable { sequence := ⟨1, 0⟩, held := [1] } := .act .allocate .init (by rfl)
  have hs := Reachable.act (.store .conn 1) hf rfl
  exact ⟨_, hs, by decide, 2, by decide, ((udp_tokens_unique hs).2.1 ⟨2, 0⟩ 2 (by decide)).2.2⟩

end Honk.Conntrack.Token
