import Honk.Lib.Bytes

namespace Honk.Mux

open Honk.Lib List

def paddedRecords : ℕ := 16

def maxRecordData : ℕ := 2 ^ 16 - 1

inductive Poll (α : Type) where
  | pending
  | failed
  | ready (value : α)

structure PaddingReadState where
  records : ℕ := 0
  header : List Byte := []
  dataRemaining : ℕ := 0
  paddingRemaining : ℕ := 0

structure PaddingWriteState where
  records : ℕ := 0
  pending : Option (List Byte) := none
  offset : ℕ := 0

namespace PaddingReadState

variable (st : PaddingReadState)

def passes : Bool := paddedRecords ≤ st.records && st.dataRemaining = 0 && st.paddingRemaining = 0

/-- How much the next read may take. -/
def limit (room : ℕ) : ℕ :=
  if st.dataRemaining ≠ 0 then min st.dataRemaining room
  else if st.paddingRemaining ≠ 0 then min st.paddingRemaining 1024
  else if paddedRecords ≤ st.records then room
  else 4 - st.header.length

/-- The state behind a read of `bytes`, and what is handed over if that ends the call. -/
def advance (bytes : List Byte) : PaddingReadState × Option (List Byte) :=
  if st.dataRemaining ≠ 0 then ({ st with dataRemaining := st.dataRemaining - bytes.length }, some bytes)
  else if st.paddingRemaining ≠ 0 then ({ st with paddingRemaining := st.paddingRemaining - bytes.length }, none)
  else if paddedRecords ≤ st.records then (st, some bytes)
  else
    let header := st.header ++ bytes
    if header.length ≠ 4 then ({ st with header := header }, none)
    else (⟨st.records + 1, [], beNat (header.take 2), beNat (header.drop 2)⟩, none)

end PaddingReadState

/-- The loop of `poll_read`: one answer of the inner stream a turn, and what that stream still has to deliver. -/
def pollRecords (room : ℕ) : List (Poll ℕ) → PaddingReadState → List Byte → Poll (List Byte) × PaddingReadState × List Byte
  | .ready n :: answers, st, wire =>
    let n := min n (st.limit room)
    if wire.take n = [] && !st.passes then (.failed, st, wire)
    else
      match st.advance (wire.take n) with
      | (st, some bytes) => (.ready bytes, st, wire.drop n)
      | (st, none) => pollRecords room answers st (wire.drop n)
  | .failed :: _, st, wire => (.failed, st, wire)
  | _, st, wire => (.pending, st, wire)

def pollRead (enabled : Bool) (room : ℕ) (answers : List (Poll ℕ)) (st : PaddingReadState) (wire : List Byte) :
    Poll (List Byte) × PaddingReadState × List Byte :=
  if !enabled || st.passes && st.header = [] then
    match answers with
    | .ready n :: _ => (.ready (wire.take (min n room)), st, wire.drop (min n room))
    | .failed :: _ => (.failed, st, wire)
    | _ => (.pending, st, wire)
  else if room = 0 then (.ready [], st, wire)
  else pollRecords room answers st wire

/-- Once nothing is pending, `ready` has the answers left for the calls after it. -/
def pollPending : List (Poll ℕ) → PaddingWriteState → List Byte → Poll (List (Poll ℕ)) × PaddingWriteState × List Byte
  | answers, ⟨records, none, offset⟩, sent => (.ready answers, ⟨records, none, offset⟩, sent)
  | .ready n :: answers, ⟨records, some frame, offset⟩, sent =>
    let bytes := (frame.drop offset).take n
    if bytes = [] then (.failed, ⟨records, some frame, offset⟩, sent)
    else if offset + bytes.length = frame.length then pollPending answers ⟨records, none, 0⟩ (sent ++ bytes)
    else pollPending answers ⟨records, some frame, offset + bytes.length⟩ (sent ++ bytes)
  | .failed :: _, st, sent => (.failed, st, sent)
  | _, st, sent => (.pending, st, sent)

def record (data : List Byte) (padding : ℕ) : List Byte :=
  beBytes 2 data.length ++ beBytes 2 padding ++ data ++ replicate padding 0

def pollInner (data : List Byte) (st : PaddingWriteState) (sent : List Byte) : List (Poll ℕ) → Poll ℕ × PaddingWriteState × List Byte
  | .ready n :: _ => (.ready (data.take n).length, st, sent ++ data.take n)
  | .failed :: _ => (.failed, st, sent)
  | _ => (.pending, st, sent)

def pollWrite (enabled : Bool) (choice : ℕ) (data : List Byte) (answers : List (Poll ℕ)) (st : PaddingWriteState) (sent : List Byte) :
    Poll ℕ × PaddingWriteState × List Byte :=
  if !enabled then pollInner data st sent answers
  else
    match pollPending answers st sent with
    | (.pending, st, sent) => (.pending, st, sent)
    | (.failed, st, sent) => (.failed, st, sent)
    | (.ready answers, st, sent) =>
      if paddedRecords ≤ st.records then pollInner data st sent answers
      else if data = [] then (.ready 0, st, sent)
      else
        let data := data.take maxRecordData
        (.ready data.length, { st with records := st.records + 1, pending := some (record data (256 + choice % 512)) }, sent)

/-- The sending side: what the inner stream has taken, and what the caller was told is written. -/
structure Writer where
  write : PaddingWriteState := {}
  sent : List Byte := []
  accepted : List Byte := []

inductive WriteCall where
  | write (data : List Byte) (choice : ℕ) (answers : List (Poll ℕ))
  | flush (answers : List (Poll ℕ))

def Writer.call (w : Writer) : WriteCall → Writer
  | .write data choice answers =>
    match pollWrite true choice data answers w.write w.sent with
    | (.ready n, st, sent) => ⟨st, sent, w.accepted ++ data.take n⟩
    | (_, st, sent) => ⟨st, sent, w.accepted⟩
  | .flush answers =>
    let (_, st, sent) := pollPending answers w.write w.sent
    ⟨st, sent, w.accepted⟩

/-- The receiving side: what the inner stream still delivers, and what the caller has got. -/
structure Reader where
  read : PaddingReadState := {}
  wire : List Byte
  output : List Byte := []

def Poll.bytes : Poll (List Byte) → List Byte
  | .ready bytes => bytes
  | _ => []

def Reader.call (r : Reader) (call : ℕ × List (Poll ℕ)) : Reader :=
  let (answer, st, wire) := pollRead true call.1 call.2 r.read r.wire
  ⟨st, wire, r.output ++ answer.bytes⟩

/-- The reader a byte at a time. -/
def feed (st : PaddingReadState) : List Byte → PaddingReadState × List Byte
  | [] => (st, [])
  | byte :: bytes => ((feed (st.advance [byte]).1 bytes).1, (st.advance [byte]).2.getD [] ++ (feed (st.advance [byte]).1 bytes).2)

variable {st : PaddingReadState} {bs : List Byte}

theorem feed_append (st : PaddingReadState) (as bs : List Byte) :
    feed st (as ++ bs) = ((feed (feed st as).1 bs).1, (feed st as).2 ++ (feed (feed st as).1 bs).2) := by
  induction as generalizing st with
  | nil => rfl
  | cons a as ih => rw [cons_append, feed, ih, feed, append_assoc]

theorem advance_cons (hb : bs ≠ []) (h : (b :: bs).length ≤ st.limit room) :
    bs.length ≤ (st.advance [b]).1.limit room ∧ ((st.advance [b]).1.advance bs).1 = (st.advance (b :: bs)).1 ∧
      (st.advance [b]).2.getD [] ++ ((st.advance [b]).1.advance bs).2.getD [] = (st.advance (b :: bs)).2.getD [] := by
  have hn : 0 < bs.length := length_pos_iff.mpr hb
  obtain ⟨records, header, data, padding⟩ := st
  dsimp only [PaddingReadState.limit, length_cons] at h
  split_ifs at h with hd hp hr
  · have hd' : data - 1 ≠ 0 := by omega
    simp only [PaddingReadState.advance, PaddingReadState.limit, if_pos hd, if_pos hd', length_cons, length_nil, Nat.zero_add]
    simp
    omega
  · have hp' : padding - 1 ≠ 0 := by omega
    simp only [PaddingReadState.advance, PaddingReadState.limit, if_neg hd, if_pos hp, if_pos hp', length_cons, length_nil, Nat.zero_add]
    simp
    omega
  · simp only [PaddingReadState.advance, PaddingReadState.limit, if_neg hd, if_neg hp, if_pos hr]
    simp
    omega
  have hl : (header ++ [b]).length ≠ 4 := by simp; omega
  simp only [PaddingReadState.advance, PaddingReadState.limit, if_neg hd, if_neg hp, if_neg hr, if_pos hl]
  simp
  omega

/-- Reading byte by byte comes to the same as one read within the limit. -/
theorem feed_advance (room : ℕ) (hb : bs ≠ []) (h : bs.length ≤ st.limit room) :
    feed st bs = ((st.advance bs).1, (st.advance bs).2.getD []) := by
  induction bs generalizing st with
  | nil => exact absurd rfl hb
  | cons b bs ih =>
    by_cases hn : bs = []
    · simp [hn, feed]
    · obtain ⟨hl, hs, ho⟩ := advance_cons hn h
      rw [feed, ih hn hl, hs, ho]

theorem advance_passes (h : st.passes) (bs : List Byte) : st.advance bs = (st, some bs) := by
  simp only [PaddingReadState.passes, Bool.and_eq_true, decide_eq_true_eq] at h
  simp [PaddingReadState.advance, h]

theorem feed_passes (h : st.passes) (bs : List Byte) : feed st bs = (st, bs) := by
  induction bs with
  | nil => rfl
  | cons b bs ih =>
    rw [feed, advance_passes h, ih]
    rfl

/-- The bytes read are fed, and what comes out of them is handed over. -/
def Reads (st : PaddingReadState) (wire : List Byte) (result : Poll (List Byte) × PaddingReadState × List Byte) : Prop :=
  ∃ bytes, wire = bytes ++ result.2.2 ∧ feed st bytes = (result.2.1, result.1.bytes)

variable {wire : List Byte}

theorem reads_pollRecords (room : ℕ) (answers : List (Poll ℕ)) (st : PaddingReadState) (wire : List Byte) :
    Reads st wire (pollRecords room answers st wire) := by
  induction answers generalizing st wire with
  | nil => exact ⟨[], rfl, rfl⟩
  | cons answer answers ih =>
    cases answer with
    | pending | failed => exact ⟨[], rfl, rfl⟩
    | ready n =>
      unfold pollRecords
      dsimp only
      generalize hn : min n (st.limit room) = m
      split
      · exact ⟨[], rfl, rfl⟩
      rename_i hb
      have hf : feed st (wire.take m) = ((st.advance (wire.take m)).1, (st.advance (wire.take m)).2.getD []) := by
        by_cases he : wire.take m = []
        · have hp : st.passes := by simpa [he] using hb
          rw [feed_passes hp, advance_passes hp]
          rfl
        · exact feed_advance room he ((length_take_le ..).trans (hn ▸ min_le_right ..))
      split
      · rename_i st' bytes ha
        rw [ha] at hf
        exact ⟨wire.take m, (take_append_drop ..).symm, hf⟩
      rename_i st' ha
      rw [ha] at hf
      obtain ⟨bytes, hw, hr⟩ := ih st' (wire.drop m)
      refine ⟨wire.take m ++ bytes, ?_, ?_⟩
      · rw [append_assoc, ← hw, take_append_drop]
      · rw [feed_append, hf, hr]
        rfl

theorem Reader.reads_call (r : Reader) (call : ℕ × List (Poll ℕ)) : Reads r.read r.wire (pollRead true call.1 call.2 r.read r.wire) := by
  unfold pollRead
  split
  · rename_i hp
    simp only [Bool.not_true, Bool.false_or, Bool.and_eq_true] at hp
    split
    · exact ⟨_, (take_append_drop ..).symm, feed_passes hp.1 _⟩
    · exact ⟨[], rfl, rfl⟩
    · exact ⟨[], rfl, rfl⟩
  split
  · exact ⟨[], rfl, rfl⟩
  · exact reads_pollRecords ..

theorem exists_fed (r : Reader) (calls : List (ℕ × List (Poll ℕ))) : ∃ bytes out, r.wire = bytes ++ (calls.foldl Reader.call r).wire ∧
    feed r.read bytes = ((calls.foldl Reader.call r).read, out) ∧ r.output ++ out = (calls.foldl Reader.call r).output := by
  induction calls generalizing r with
  | nil => exact ⟨[], [], rfl, rfl, append_nil _⟩
  | cons call calls ih =>
    obtain ⟨bytes, hw, hf⟩ := r.reads_call call
    obtain ⟨rest, out, hw', hf', ho⟩ := ih (r.call call)
    refine ⟨bytes ++ rest, _ ++ out, ?_, ?_, (append_assoc ..).symm.trans ho⟩
    · rw [append_assoc, foldl_cons, ← hw']
      exact hw
    · rw [feed_append, hf]
      exact congrArg (fun p => (p.1, _ ++ p.2)) hf'

theorem length_header_feed (h : st.header.length < 4) (bs : List Byte) : (feed st bs).1.header.length < 4 := by
  induction bs generalizing st with
  | nil => exact h
  | cons b bs ih =>
    refine ih ?_
    simp only [PaddingReadState.advance]
    split_ifs with _ _ _ hl
    · exact h
    · exact h
    · exact h
    · simp at hl ⊢
      omega
    · exact Nat.succ_pos 3

/-- A read of a stream that has bytes to deliver takes some of them. -/
theorem Reader.length_wire_call (r : Reader) (hh : r.read.header.length < 4) (hr : room ≠ 0) (hn : n ≠ 0) (hw : r.wire ≠ []) :
    (r.call (room, .ready n :: answers)).wire.length < r.wire.length := by
  have hp : 0 < r.wire.length := length_pos_iff.mpr hw
  simp only [Reader.call, pollRead, if_neg hr]
  split_ifs
  · dsimp only
    rw [length_drop]
    omega
  have hl : r.read.limit room ≠ 0 := by
    unfold PaddingReadState.limit
    split_ifs <;> omega
  unfold pollRecords
  generalize hm : min n (r.read.limit room) = m
  have hd : (r.wire.drop m).length < r.wire.length := by
    rw [length_drop]
    omega
  dsimp only
  rw [if_neg (by simp [hw]; omega)]
  split
  · exact hd
  obtain ⟨bytes, hb, -⟩ := reads_pollRecords room answers ‹_› (r.wire.drop m)
  refine lt_of_le_of_lt ?_ hd
  rw [congrArg length hb, length_append]
  exact Nat.le_add_left ..

theorem feed_record (hk : k < paddedRecords) (hn : data ≠ []) (hd : data.length < 2 ^ 16) (hp : padding ≠ 0) (hm : padding ≤ 1024) :
    feed ⟨k, [], 0, 0⟩ (record data padding) = (⟨k + 1, [], 0, 0⟩, data) := by
  have hh : feed ⟨k, [], 0, 0⟩ (beBytes 2 data.length ++ beBytes 2 padding) = (⟨k + 1, [], data.length, padding⟩, []) := by
    rw [feed_advance 0 (by simp [← length_eq_zero_iff]) (by simp [PaddingReadState.limit, not_le.mpr hk])]
    have hs : padding < 2 ^ 16 := by omega
    simpa [PaddingReadState.advance, not_le.mpr hk, beNat_beBytes] using And.intro hd hs
  have hda : feed ⟨k + 1, [], data.length, padding⟩ data = (⟨k + 1, [], 0, padding⟩, data) := by
    rw [feed_advance data.length hn (by simp [PaddingReadState.limit, hn])]
    simp [PaddingReadState.advance, hn]
  have hpa : feed ⟨k + 1, [], 0, padding⟩ (replicate padding 0) = (⟨k + 1, [], 0, 0⟩, []) := by
    rw [feed_advance 0 (by simp [hp]) (by simp [PaddingReadState.limit, hp, hm])]
    simp [PaddingReadState.advance, hp]
  rw [record, append_assoc, feed_append, hh, feed_append, hda, hpa, append_nil]
  rfl

/-- What is on its way is a number of padded records and, only behind the sixteenth, bytes as they were written. -/
structure Wired (w : Writer) (records : List (List Byte × ℕ)) (plain : List Byte) : Prop where
  count : records.length = w.write.records
  bound : w.write.records ≤ paddedRecords
  wire : w.sent ++ (w.write.pending.getD []).drop w.write.offset = records.flatMap (fun r => record r.1 r.2) ++ plain
  accepted : w.accepted = records.flatMap Prod.fst ++ plain
  plain : plain ≠ [] → records.length = paddedRecords
  sizes : ∀ r ∈ records, r.1 ≠ [] ∧ r.1.length ≤ maxRecordData ∧ 256 ≤ r.2 ∧ r.2 < 768
  offset : w.write.pending = none → w.write.offset = 0

variable {records : List (List Byte × ℕ)} {plain : List Byte} {w : Writer}

theorem feed_records (hs : ∀ r ∈ records, r.1 ≠ [] ∧ r.1.length ≤ maxRecordData ∧ 256 ≤ r.2 ∧ r.2 < 768) (hk : k + records.length ≤ paddedRecords) :
    feed ⟨k, [], 0, 0⟩ (records.flatMap fun r => record r.1 r.2) = (⟨k + records.length, [], 0, 0⟩, records.flatMap Prod.fst) := by
  induction records generalizing k with
  | nil => rfl
  | cons r records ih =>
    rw [length_cons] at hk
    obtain ⟨hn, hd, hp, hm⟩ := hs r mem_cons_self
    rw [maxRecordData] at hd
    rw [flatMap_cons, feed_append, feed_record (by omega) hn (by omega) (by omega) (by omega), ih (fun r hm => hs r (mem_cons_of_mem _ hm)) (by omega),
      length_cons, flatMap_cons, Nat.add_assoc, Nat.add_comm 1]

theorem Wired.feed (h : Wired w records plain) : (feed {} (w.sent ++ (w.write.pending.getD []).drop w.write.offset)).2 = w.accepted := by
  have hk : 0 + records.length ≤ paddedRecords := by
    rw [Nat.zero_add, h.count]
    exact h.bound
  rw [h.wire, feed_append, feed_records h.sizes hk, h.accepted]
  by_cases hp : plain = []
  · rw [hp]
    rfl
  · rw [feed_passes (by simp [PaddingReadState.passes, h.plain hp])]

theorem wired_pollPending (answers : List (Poll ℕ)) {st : PaddingWriteState} {sent : List Byte} (h : Wired ⟨st, sent, accepted⟩ records plain) :
    Wired ⟨(pollPending answers st sent).2.1, (pollPending answers st sent).2.2, accepted⟩ records plain ∧
      (∀ left, (pollPending answers st sent).1 = .ready left → (pollPending answers st sent).2.1.pending = none) := by
  induction answers generalizing st sent with
  | nil =>
    obtain ⟨k, _ | frame, offset⟩ := st
    · exact ⟨h, fun _ _ => rfl⟩
    · exact ⟨h, nofun⟩
  | cons answer answers ih =>
    obtain ⟨k, _ | frame, offset⟩ := st
    · cases answer <;> exact ⟨h, fun _ _ => rfl⟩
    cases answer with
    | pending | failed => exact ⟨h, nofun⟩
    | ready n =>
      unfold pollPending
      dsimp only
      split
      · exact ⟨h, nofun⟩
      have hw := h.wire
      change sent ++ frame.drop offset = _ at hw
      rw [← prefix_iff_eq_append.mp ( take_prefix n (frame.drop offset)), drop_drop, ← append_assoc] at hw
      split
      · rename_i he
        rw [he, drop_length] at hw
        exact ih { h with wire := hw, offset := fun _ => rfl }
      · exact ih { h with wire := hw, offset := nofun }

theorem wired_call (h : Wired w records plain) (call : WriteCall) : ∃ records plain, Wired (w.call call) records plain := by
  cases call with
  | flush answers => exact ⟨records, plain, (wired_pollPending answers h).1⟩
  | write data choice answers =>
    obtain ⟨hw, hn⟩ := wired_pollPending answers h
    simp only [Writer.call, pollWrite, Bool.not_true, Bool.false_eq_true, if_false]
    generalize pollPending answers w.write w.sent = result at hw hn
    obtain ⟨answer, st, sent⟩ := result
    cases answer with
    | pending | failed => exact ⟨records, plain, hw⟩
    | ready left =>
      have hp : st.pending = none := hn left rfl
      have hwi := hw.wire
      simp only [hp, Option.getD_none, drop_nil, append_nil] at hwi
      by_cases hr : paddedRecords ≤ st.records
      · simp only [if_pos hr]
        rcases left with _ | ⟨_ | _ | n, _⟩
        · exact ⟨records, plain, hw⟩
        · exact ⟨records, plain, hw⟩
        · exact ⟨records, plain, hw⟩
        refine ⟨records, plain ++ data.take n, hw.count, hw.bound, ?_, ?_, fun _ => ?_, hw.sizes, hw.offset⟩
        · simp [hp, hwi, pollInner]
        · simp [pollInner, h.accepted]
        · exact hw.count.trans (le_antisymm hw.bound hr)
      by_cases hd : data = []
      · simp only [if_neg hr, if_pos hd, take_zero, append_nil]
        exact ⟨records, plain, hw⟩
      simp only [if_neg hr, if_neg hd]
      have hpl : plain = [] := by
        by_contra hne
        exact hr (hw.plain hne ▸ hw.count.le)
      rw [hpl, append_nil] at hwi
      have ho : st.offset = 0 := hw.offset hp
      refine ⟨records ++ [(data.take maxRecordData, 256 + choice % 512)], [], ?_, ?_, ?_, ?_, nofun, ?_, nofun⟩
      · simp [hw.count]
      · exact not_le.mp hr
      · simp [hwi, ho]
      · simp [h.accepted, hpl]
      intro r hm
      rcases mem_append.mp hm with hm | hm
      · exact hw.sizes r hm
      rw [mem_singleton.mp hm]
      refine ⟨by simp [hd, maxRecordData], length_take_le .., Nat.le_add_right .., ?_⟩
      dsimp only
      omega

end Honk.Mux
