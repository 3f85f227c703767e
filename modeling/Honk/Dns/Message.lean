import Honk.Dns.Name

namespace Honk.Dns

open Honk.Lib List Option

def headerLen : ℕ := 12

section

variable (raw : List Byte)

def readU16 (offset : ℕ) : Option ℕ := (slice? raw offset (offset + 2)).map beNat

/-- Bytes that are known to be there. -/
def netAt (offset width : ℕ) : ℕ := beNat ((raw.drop offset).take width)

inductive MessageSection where
  | answer
  | authority
  | additional
  deriving DecidableEq

structure RecordBoundary where
  kind : MessageSection
  start : ℕ
  stop : ℕ
  deriving DecidableEq

/-- What the validator reads of a request: its flags, whether it came over UDP, and its questions. -/
structure RequestView where
  flags : ℕ
  udp : Bool
  questions : List (List Byte × ℕ × ℕ)

def recordEnd (response : List Byte) (start : ℕ) : Option ℕ :=
  (parseNameInto response start).bind fun name =>
    (readU16 response (name.2 + 8)).bind fun rdlength =>
      if name.2 + 10 + rdlength ≤ response.length then some (name.2 + 10 + rdlength) else none

def visitQuestions (response : List Byte) : ℕ → ℕ → List (List Byte × ℕ × ℕ) → Option ℕ
  | 0, cursor, _ => some cursor
  | count + 1, cursor, expected =>
    (parseNameInto response cursor).bind fun name =>
      (readU16 response name.2).bind fun qtype =>
        (readU16 response (name.2 + 2)).bind fun qclass =>
          if expected.head?.any (· ≠ (name.1, qtype, qclass)) then none
          else visitQuestions response count (name.2 + 4) expected.tail

def visitRecords (response : List Byte) : List MessageSection → ℕ → Option (List RecordBoundary × ℕ)
  | [], cursor => some ([], cursor)
  | kind :: kinds, cursor =>
    (recordEnd response cursor).bind fun stop =>
      (visitRecords response kinds stop).map fun rest => (⟨kind, cursor, stop⟩ :: rest.1, rest.2)

def recordCount : ℕ := netAt raw 6 2 + netAt raw 8 2 + netAt raw 10 2

def visitMessage (request : Option RequestView) (response : List Byte) : Option (ℕ × List RecordBoundary) :=
  let flags := netAt response 2 2
  if response.length < headerLen ∨ flags &&& 0x8000 = 0 then none
  else if request.any fun request => flags &&& 0x7800 ≠ request.flags &&& 0x7800 ∨ flags &&& 0x0200 ≠ 0 ∧ request.udp = false ∨
      netAt response 4 2 ≠ request.questions.length then none
  else
    (visitQuestions response (netAt response 4 2) headerLen (request.elim [] RequestView.questions)).bind fun questionEnd =>
      (visitRecords response (replicate (netAt response 6 2) .answer ++ replicate (netAt response 8 2) .authority ++
        replicate (netAt response 10 2) .additional) questionEnd).bind fun records =>
          if records.2 ≠ response.length then none else some (questionEnd, records.1)

def skipQuestions (data : List Byte) : ℕ → ℕ → Option ℕ
  | 0, pos => some pos
  | count + 1, pos =>
    (skipDnsName data pos).bind fun pos => if data.length < pos + 4 then none else skipQuestions data count (pos + 4)

/-- The loop of the lenient walkers: `visit` gets the start of a record and of its fields, and says whether to go on. The end of
the last record comes back when no round failed. -/
def walk {σ : Type} (data : σ → List Byte) (visit : σ → ℕ → ℕ → σ × Bool) : ℕ → ℕ → σ → σ × Option ℕ
  | 0, pos, s => (s, some pos)
  | count + 1, pos, s =>
    match skipDnsName (data s) pos with
    | none => (s, none)
    | some fields =>
      if (data s).length < fields + 10 then (s, none)
      else if (visit s pos fields).2 then
        walk data visit count (fields + 10 + netAt (data s) (fields + 8) 2) (visit s pos fields).1
      else ((visit s pos fields).1, none)

def walkMessage {σ : Type} (data : σ → List Byte) (visit : σ → ℕ → ℕ → σ × Bool) (count : ℕ) (raw : List Byte) (s : σ) :
    Option (σ × Option ℕ) :=
  if raw.length < headerLen then none else (skipQuestions raw (netAt raw 4 2) headerLen).map fun pos => walk data visit count pos s

def visitMinTtl (includeZero : Bool) (data : List Byte) (least _start fields : ℕ) : ℕ × Bool :=
  let ttl := netAt data (fields + 4) 4
  if netAt data fields 2 = 41 then (least, true)
  else if includeZero ∧ ttl = 0 then (0, false)
  else (if 0 < ttl ∧ ttl < least then ttl else least, true)

def leastTtl (least : ℕ) : ℕ := if least = 0xffffffff then 60 else least

def extractMinTtlInner (includeZero : Bool) (data : List Byte) : ℕ :=
  (walkMessage (fun _ => data) (visitMinTtl includeZero data) (recordCount data) data 0xffffffff).elim 60 fun found => leastTtl found.1

def visitRewrite (ttl : ℕ) (data : List Byte) (_start fields : ℕ) : List Byte × Bool :=
  (if netAt data fields 2 = 41 then data else data.take (fields + 4) ++ beBytes 4 ttl ++ data.drop (fields + 8), true)

variable (data : List Byte)

def rewriteAnswerTtls (ttl : ℕ) : List Byte :=
  (walkMessage id (visitRewrite ttl) (recordCount data) data data).elim data Prod.fst

def visitAddress (limit : ℕ) (response : List Byte) (out : List (List Byte × ℕ)) (_start fields : ℕ) : List (List Byte × ℕ) × Bool :=
  let rdlength := netAt response (fields + 8) 2
  if out.length = limit ∨ response.length < fields + 10 + rdlength then (out, false)
  else if (netAt response fields 2, rdlength) ∈ [(1, 4), (28, 16)] then
    (out ++ [((response.drop (fields + 10)).take rdlength, netAt response (fields + 4) 4)], true)
  else (out, true)

def extractIpsWithTtlBounded (response : List Byte) (limit : ℕ) : List (List Byte × ℕ) :=
  (walkMessage (fun _ => response) (visitAddress limit response) (netAt response 6 2) response []).elim [] Prod.fst

def visitSoa (state : ℕ × Option ℕ) (_start fields : ℕ) : (ℕ × Option ℕ) × Bool :=
  let rdlength := netAt data (fields + 8) 2
  if netAt data 6 2 ≤ state.1 ∧ netAt data fields 2 = 6 ∧ 20 ≤ rdlength ∧ fields + 10 + rdlength ≤ data.length then
    ((state.1, some (min (netAt data (fields + 4) 4) (netAt data (fields + 10 + rdlength - 4) 4))), false)
  else ((state.1 + 1, none), true)

def extractSoaNegativeTtl : Option ℕ :=
  (walkMessage (fun _ => data) (visitSoa data) (netAt data 6 2 + netAt data 8 2) data (0, none)).bind fun found => found.1.2

structure OptRecord where
  start : ℕ
  stop : ℕ
  rdlengthOffset : ℕ
  extendedRcode : Byte
  version : Byte

/-- The records seen and the OPT record among the additional ones; a walk that stops is an error. -/
def visitLayout (state : ℕ × Option OptRecord) (start fields : ℕ) : (ℕ × Option OptRecord) × Bool :=
  let stop := fields + 10 + netAt raw (fields + 8) 2
  if raw.length < stop ∨ netAt raw fields 2 = 41 ∧ (fields ≠ start + 1 ∨ raw[start]? ≠ some 0) then (state, false)
  else if state.1 < netAt raw 6 2 + netAt raw 8 2 ∨ netAt raw fields 2 ≠ 41 then ((state.1 + 1, state.2), true)
  else ((state.1 + 1, some ⟨start, stop, fields + 8, raw.getD (fields + 4) 0, raw.getD (fields + 5) 0⟩), state.2.isNone)

def layoutOf (found : (ℕ × Option OptRecord) × Option ℕ) : Option (Option OptRecord × ℕ) :=
  found.2.bind fun stop => if stop ≠ raw.length then none else some (found.1.2, netAt raw 10 2)

def messageLayout : Option (Option OptRecord × ℕ) :=
  (walkMessage (fun _ => raw) (visitLayout raw) (recordCount raw) raw (0, none)).bind (layoutOf raw)

end

/-- A walk over the records that the validator found. -/
def visitAll {σ : Type} (visit : σ → ℕ → ℕ → σ × Bool) (response : List Byte) : List RecordBoundary → ℕ → σ → σ × Option ℕ
  | [], cursor, s => (s, some cursor)
  | record :: records, _, s =>
    let next := visit s record.start ((skipDnsName response record.start).getD 0)
    if next.2 then visitAll visit response records record.stop next.1 else (next.1, none)

variable {response raw : List Byte} {cursor stop count : ℕ} {kinds : List MessageSection} {records : List RecordBoundary} {σ : Type}
  {data : σ → List Byte} {visit : σ → ℕ → ℕ → σ × Bool} {name : List Byte}

theorem readU16_eq_some (h : readU16 raw offset = some value) : offset + 2 ≤ raw.length ∧ value = netAt raw offset 2 := by
  obtain ⟨part, hpa, rfl⟩ := map_eq_some_iff.mp h
  obtain ⟨-, hl, rfl⟩ := slice?_eq_some hpa
  rw [Nat.add_sub_cancel_left]
  exact ⟨hl, rfl⟩

theorem skip_of_parse (h : parseNameInto raw cursor = some (name, stop)) : skipDnsName raw cursor = some stop := by
  obtain ⟨labels, k, he, -⟩ := parseNameInto_iff.mp h
  exact he.skip (by omega)

theorem recordEnd_eq_some (h : recordEnd response cursor = some stop) : ∃ fields, skipDnsName response cursor = some fields ∧
    fields + 10 ≤ response.length ∧ stop = fields + 10 + netAt response (fields + 8) 2 := by
  obtain ⟨⟨name, fields⟩, hn, h⟩ := bind_eq_some_iff.mp h
  obtain ⟨rdlength, hr, h⟩ := bind_eq_some_iff.mp h
  obtain ⟨hl, rfl⟩ := readU16_eq_some hr
  obtain ⟨-, h⟩ := ite_none_right_eq_some.mp h
  exact ⟨fields, skip_of_parse hn, hl, (some.inj h).symm⟩

theorem skipQuestions_of_visit (h : visitQuestions response count cursor expected = some stop) :
    skipQuestions response count cursor = some stop := by
  induction count generalizing cursor expected with
  | zero => exact h
  | succ count ih =>
    obtain ⟨⟨name, fields⟩, hn, h⟩ := bind_eq_some_iff.mp h
    obtain ⟨qtype, -, h⟩ := bind_eq_some_iff.mp h
    obtain ⟨qclass, hc, h⟩ := bind_eq_some_iff.mp h
    have hl := (readU16_eq_some hc).1
    split_ifs at h
    rw [skipQuestions, skip_of_parse hn, bind_some, if_neg (by dsimp only at hl; omega)]
    exact ih h

/-- Two messages that are the same from a place on. -/
def Agrees (raw response : List Byte) (cursor : ℕ) : Prop := raw.length = response.length ∧ ∀ i, cursor ≤ i → raw[i]? = response[i]?

section

variable (h : Agrees raw response cursor)
include h

theorem Agrees.mono (hl : cursor ≤ cursor') : Agrees raw response cursor' :=
  ⟨h.1, fun i hi => h.2 i (hl.trans hi)⟩

theorem Agrees.netAt (hl : cursor ≤ offset) : netAt raw offset width = netAt response offset width := by
  have hd : raw.drop offset = response.drop offset := ext_getElem? fun i => by
    rw [getElem?_drop, getElem?_drop, h.2 _ (hl.trans (Nat.le_add_right _ _))]
  rw [Dns.netAt, hd, Dns.netAt]

theorem Agrees.skipFrom : skipFrom raw fuel cursor = skipFrom response fuel cursor := by
  induction fuel generalizing cursor with
  | zero => rfl
  | succ fuel ih =>
    rw [Dns.skipFrom, Dns.skipFrom, h.1, h.2 cursor le_rfl]
    refine congrArg _ (funext fun len => ?_)
    rw [ih (h.mono (by omega))]

end

theorem skipFrom_lt (h : skipFrom raw fuel cursor = some stop) : cursor < stop := by
  induction fuel generalizing cursor with
  | zero => cases h
  | succ fuel ih =>
    obtain ⟨len, -, h⟩ := bind_eq_some_iff.mp h
    split_ifs at h
    · cases h; omega
    · cases h; omega
    · have hl := ih h
      omega

theorem walk_eq (hk : ∀ s start fields, fields + 10 ≤ (data s).length → Agrees (data (visit s start fields).1) (data s) (fields + 8))
    (h : visitRecords response kinds cursor = some (records, stop)) (hc : count ≤ kinds.length) (s : σ)
    (hs : Agrees (data s) response cursor) : walk data visit count cursor s = visitAll visit response (records.take count) cursor s := by
  induction count generalizing kinds cursor records s with
  | zero => rw [take_zero]; rfl
  | succ count ih =>
    cases kinds with
    | nil => cases hc
    | cons kind kinds =>
      obtain ⟨next, hn, h⟩ := bind_eq_some_iff.mp h
      obtain ⟨⟨rest, e⟩, hre, hr⟩ := map_eq_some_iff.mp h
      cases hr
      obtain ⟨fields, hsk, hl, rfl⟩ := recordEnd_eq_some hn
      have hlt := skipFrom_lt hsk
      have hsk' : skipDnsName (data s) cursor = some fields := by rw [← hsk, skipDnsName, skipDnsName, hs.1, hs.skipFrom]
      have hst := hk s cursor fields (hs.1 ▸ hl)
      rw [walk, hsk', take_succ_cons, visitAll, hsk]
      dsimp only
      rw [if_neg (by rw [hs.1]; omega), hs.netAt (by omega)]
      refine ite_congr rfl (fun _ => ?_) fun _ => rfl
      exact ih hre (Nat.le_of_succ_le_succ hc) _ ⟨hst.1.trans hs.1, fun i hi => (hst.2 i (by omega)).trans (hs.2 i (by omega))⟩

theorem keep_rewrite (ttl : ℕ) (hl : fields + 10 ≤ raw.length) (start : ℕ) :
    Agrees (visitRewrite ttl raw start fields).1 raw (fields + 8) := by
  rw [visitRewrite]
  split
  · exact ⟨rfl, fun _ _ => rfl⟩
  have hh : (raw.take (fields + 4) ++ beBytes 4 ttl).length = fields + 8 := by
    rw [length_append, length_take, beBytes_length]
    omega
  refine ⟨?_, fun i hi => ?_⟩
  · rw [length_append, hh, length_drop]
    omega
  · rw [getElem?_append_right (hh ▸ hi), hh, getElem?_drop, Nat.add_sub_cancel' hi]

theorem visitRecords_length (h : visitRecords response kinds cursor = some (records, stop)) : records.length = kinds.length := by
  induction kinds generalizing cursor records with
  | nil => cases h; rfl
  | cons kind kinds ih =>
    obtain ⟨next, -, h⟩ := bind_eq_some_iff.mp h
    obtain ⟨rest, hr, he⟩ := map_eq_some_iff.mp h
    cases he
    rw [length_cons, ih hr, length_cons]

theorem walkMessage_eq (h : visitMessage request response = some (questionEnd, records))
    (hk : ∀ s start fields, fields + 10 ≤ (data s).length → Agrees (data (visit s start fields).1) (data s) (fields + 8))
    (hs : data s = response) (hc : count ≤ recordCount response) :
    walkMessage data visit count response s = some (visitAll visit response (records.take count) questionEnd s) ∧
      records.length = recordCount response := by
  rw [visitMessage] at h
  split_ifs at h with hsh
  obtain ⟨start, hq, h⟩ := bind_eq_some_iff.mp h
  obtain ⟨⟨found, stop⟩, hr, h⟩ := bind_eq_some_iff.mp h
  split_ifs at h
  cases h
  have hl := visitRecords_length hr
  simp only [length_append, length_replicate] at hl
  rw [walkMessage, if_neg (fun h => hsh (.inl h)), skipQuestions_of_visit hq, map_some,
    walk_eq hk hr (by rwa [length_append, length_append, length_replicate, length_replicate, length_replicate]) s (hs ▸ ⟨rfl, fun _ _ => rfl⟩)]
  exact ⟨rfl, hl⟩

/-- An answer without a question whose record has the root as its name. -/
def rootAnswer : List Byte := [0, 0, 0x80, 0, 0, 0, 0, 1, 0, 0, 0, 0, 0, 0, 1, 0, 1, 0, 0, 0, 5, 0, 4, 192, 0, 2, 1]

end Honk.Dns
