import Honk.Lib.Framing
import Honk.Packet.Message

namespace Honk.Packet.Netlink

open Honk.Lib List

theorem le_align4 (n : ℕ) : n ≤ align4 n := by
  rw [align4]
  omega

inductive MessageError where
  | truncatedMessageHeader
  | invalidMessageLength (length : ℕ)
  | truncatedMessagePadding

structure Message where
  messageType : BitVec 16
  sequence : BitVec 32
  flags : BitVec 16
  body : List Byte

def nlmsgHdrlen : ℕ := 16

def nativeField (width : ℕ) (record : List Byte) (offset : ℕ) : BitVec (8 * width) :=
  BitVec.ofNat (8 * width) (leNat ((record.drop offset).take width))

def messages : Framing MessageError Message where
  header := nlmsgHdrlen
  header_pos := by decide
  pad := align4
  le_pad := le_align4
  lengthAt rest := leNat (rest.take 4)
  decode record := {
    messageType := nativeField 2 record 4
    flags := nativeField 2 record 6
    sequence := nativeField 4 record 8
    body := record.drop nlmsgHdrlen }
  truncated := .truncatedMessageHeader
  invalid := .invalidMessageLength
  unpadded := .truncatedMessagePadding

def plainKind (rawKind : BitVec 16) : BitVec 16 := rawKind &&& ~~~(nlaFNested ||| nlaFNetByteorder)

def attributeFrames : Framing DecodeError Attribute where
  header := nlaHdrlen
  header_pos := by decide
  pad := align4
  le_pad := le_align4
  lengthAt rest := leNat (rest.take 2)
  decode record := {
    kind := plainKind (nativeField 2 record 2)
    payload := record.drop nlaHdrlen }
  truncated := .truncatedAttributeHeader
  invalid := .invalidAttributeLength
  unpadded := .truncatedAttributePadding

variable {bytes : List Byte}

theorem attributeFrames_read : attributeFrames.read bytes =
      if bytes.length < nlaHdrlen then .error .truncatedAttributeHeader
      else if leNat (bytes.take 2) < nlaHdrlen ∨ bytes.length < leNat (bytes.take 2) then
        .error (.invalidAttributeLength (leNat (bytes.take 2)))
      else if bytes.length < align4 (leNat (bytes.take 2)) ∧ leNat (bytes.take 2) ≠ bytes.length then
        .error .truncatedAttributePadding
      else .ok (bytes.take (leNat (bytes.take 2)), align4 (leNat (bytes.take 2))) := rfl

theorem attributesFrom_eq_collectFrom : attributesFrom fuel bytes = attributeFrames.collectFrom fuel bytes := by
  induction fuel generalizing bytes with
  | zero => rfl
  | succ fuel ih =>
    have hd (length : ℕ) : bytes.drop (min (align4 length) bytes.length) = bytes.drop (align4 length) := by
      rcases le_total (align4 length) bytes.length with h | h
      · rw [min_eq_left h]
      · rw [min_eq_right h, drop_length, drop_eq_nil_of_le h]
    simp only [attributesFrom, Framing.collectFrom, attributeFrames_read, length_eq_zero_iff, ih, hd]
    by_cases hn : bytes = []
    · rw [if_pos hn, if_pos hn]
    rw [if_neg hn, if_neg hn]
    split_ifs with hh hl hpa
    · rfl
    · rfl
    · rfl
    have hf : min 2 (leNat (bytes.take 2) - 2) = 2 := by
      rw [nlaHdrlen] at hl
      omega
    simp only [attributeFrames, plainKind, nativeField, drop_take, take_take, hf]

theorem attributes_yields : attributeFrames.Yields bytes (attributes bytes) := by
  rw [attributes, attributesFrom_eq_collectFrom]
  exact Framing.yields_collect bytes

section

variable (buffer : List Byte)

def putMessageHeader (messageType flags : BitVec 16) (sequence : BitVec 32) (family : Byte)
    (resourceId : BitVec 16) : List Byte × ℕ :=
  (buffer ++ leBytes 4 0 ++ leBytes 2 messageType.toNat ++ leBytes 2 flags.toNat ++ leBytes 4 sequence.toNat ++
    leBytes 4 0 ++ [family] ++ [0] ++ beBytes 2 resourceId.toNat, buffer.length)

/-- `none` where the length does not fit and the source panics. -/
def sealMessage (start : ℕ) : Option (List Byte) :=
  let length := buffer.length - start
  if length < 2 ^ 32 then some (buffer.take start ++ leBytes 4 length ++ buffer.drop (start + 4)) else none

def putAttribute (kind : BitVec 16) (payload : List Byte) : Option (List Byte) :=
  let length := nlaHdrlen + payload.length
  if length < 2 ^ 16 then
    some (buffer ++ leBytes 2 length ++ leBytes 2 kind.toNat ++ payload ++ List.replicate (align4 length - length) 0)
  else none

structure MessageDraft where
  messageType : BitVec 16
  flags : BitVec 16
  sequence : BitVec 32
  family : Byte
  resourceId : BitVec 16
  attributes : List Attribute

def putMessage (draft : MessageDraft) : Option (List Byte) :=
  let (buffer, start) := putMessageHeader buffer draft.messageType draft.flags draft.sequence draft.family draft.resourceId
  (draft.attributes.foldlM (fun buffer attr => putAttribute buffer attr.kind attr.payload) buffer) >>= fun buffer =>
    sealMessage buffer start

end

def putMessages (drafts : List MessageDraft) : Option (List Byte) := drafts.foldlM putMessage []

section

theorem nativeField_append (width : ℕ) (front back : List Byte) (value : BitVec (8 * width)) :
    nativeField width (front ++ (leBytes width value.toNat ++ back)) front.length = value := by
  have ht : (leBytes width value.toNat ++ back).take width = leBytes width value.toNat := by simp
  rw [nativeField, drop_left, ht, leNat_leBytes]
  have hl : value.toNat < 256 ^ width := by
    have h := value.isLt
    rwa [show (256 : ℕ) = 2 ^ 8 from rfl, ← pow_mul]
  rw [Nat.mod_eq_of_lt hl, BitVec.ofNat_toNat, BitVec.setWidth_eq]

def attributeRecord (attr : Attribute) : List Byte :=
  leBytes 2 (nlaHdrlen + attr.payload.length) ++ (leBytes 2 attr.kind.toNat ++ attr.payload)

@[simp] theorem length_attributeRecord (attr : Attribute) : (attributeRecord attr).length = nlaHdrlen + attr.payload.length := by
  simp only [attributeRecord, length_append, leBytes_length, nlaHdrlen]
  omega

variable {buffer built : List Byte} {attr : Attribute} {attrs : List Attribute} {draft : MessageDraft} {drafts : List MessageDraft}

theorem putAttribute_eq_some (h : putAttribute buffer attr.kind attr.payload = some built) :
    nlaHdrlen + attr.payload.length < 2 ^ 16 ∧ built = buffer ++ attributeFrames.padded (attributeRecord attr) := by
  simp only [putAttribute, Option.ite_none_right_eq_some, Option.some.injEq] at h
  refine ⟨h.1, h.2.symm.trans ?_⟩
  rw [Framing.padded, length_attributeRecord]
  simp only [attributeRecord, attributeFrames, append_assoc]

theorem sealed_attributeRecord (h : nlaHdrlen + attr.payload.length < 2 ^ 16) : attributeFrames.Sealed (attributeRecord attr) where
  header_le := by simp [attributeFrames]
  lengthAt_append tail := by
    have ht : ((attributeRecord attr ++ tail).take 2) = leBytes 2 (nlaHdrlen + attr.payload.length) := by simp [attributeRecord]
    rw [length_attributeRecord]
    change leNat ((attributeRecord attr ++ tail).take 2) = _
    rw [ht, leNat_leBytes]
    exact Nat.mod_eq_of_lt h

theorem decode_attributeRecord : attributeFrames.decode (attributeRecord attr) = ⟨plainKind attr.kind, attr.payload⟩ := by
  have hk : nativeField 2 (attributeRecord attr) 2 = attr.kind :=
    nativeField_append 2 (leBytes 2 (nlaHdrlen + attr.payload.length)) attr.payload attr.kind
  have hpa : (attributeRecord attr).drop nlaHdrlen = attr.payload := by
    rw [attributeRecord, ← append_assoc]
    exact drop_left' (by simp [nlaHdrlen])
  simp only [attributeFrames, hk, hpa]

def attributeBytes (attrs : List Attribute) : List Byte := (attrs.map attributeRecord).flatMap attributeFrames.padded

theorem putAttributes_eq_some (h : attrs.foldlM (fun buffer attr => putAttribute buffer attr.kind attr.payload) buffer = some built) :
    (∀ attr ∈ attrs, nlaHdrlen + attr.payload.length < 2 ^ 16) ∧ built = buffer ++ attributeBytes attrs := by
  induction attrs generalizing buffer with
  | nil =>
    obtain rfl : buffer = built := by simpa using h
    simp [attributeBytes]
  | cons attr attrs ih =>
    rw [foldlM_cons] at h
    obtain ⟨next, hpu, hr⟩ := Option.bind_eq_some_iff.mp h
    obtain ⟨hf, rfl⟩ := putAttribute_eq_some hpu
    obtain ⟨ha, rfl⟩ := ih hr
    exact ⟨forall_mem_cons.mpr ⟨hf, ha⟩, by simp [attributeBytes]⟩

theorem attributeBytes_yields (h : ∀ attr ∈ attrs, nlaHdrlen + attr.payload.length < 2 ^ 16) :
    attributeFrames.Yields (attributeBytes attrs) (attrs.map fun attr => .ok ⟨plainKind attr.kind, attr.payload⟩) := by
  have hs : ∀ record ∈ attrs.map attributeRecord, attributeFrames.Sealed record := by
    intro record hr
    obtain ⟨attr, ha, rfl⟩ := mem_map.mp hr
    exact sealed_attributeRecord (h attr ha)
  have hy := Framing.yields_padded hs
  rw [attributeBytes]
  simpa only [map_map, Function.comp_def, decode_attributeRecord] using hy

section

variable (draft : MessageDraft)

def nfgenmsg : List Byte := [draft.family, 0] ++ beBytes 2 draft.resourceId.toNat

def messageBody : List Byte := nfgenmsg draft ++ attributeBytes draft.attributes

def messageRecord : List Byte :=
  leBytes 4 (nlmsgHdrlen + (messageBody draft).length) ++ (leBytes 2 draft.messageType.toNat ++
    (leBytes 2 draft.flags.toNat ++ (leBytes 4 draft.sequence.toNat ++ (leBytes 4 0 ++ messageBody draft))))

@[simp] theorem length_messageRecord : (messageRecord draft).length = nlmsgHdrlen + (messageBody draft).length := by
  simp only [messageRecord, length_append, leBytes_length, nlmsgHdrlen]
  omega

theorem length_attributeBytes (attrs : List Attribute) : 4 ∣ (attributeBytes attrs).length := by
  induction attrs with
  | nil => simp [attributeBytes]
  | cons attr attrs ih =>
    have hpa : 4 ∣ (attributeFrames.padded (attributeRecord attr)).length := by
      rw [Framing.length_padded]
      exact Nat.dvd_mul_left 4 _
    have hc : attributeBytes (attr :: attrs) =
        attributeFrames.padded (attributeRecord attr) ++ attributeBytes attrs := by simp [attributeBytes]
    rw [hc, length_append]
    exact Nat.dvd_add hpa ih

theorem padded_messageRecord : messages.padded (messageRecord draft) = messageRecord draft := by
  have hd := length_attributeBytes draft.attributes
  have hl : (messageBody draft).length = 4 + (attributeBytes draft.attributes).length := by
    simp [messageBody, nfgenmsg]
    omega
  have ha : align4 (nlmsgHdrlen + (messageBody draft).length) = nlmsgHdrlen + (messageBody draft).length := by
    rw [align4, nlmsgHdrlen]
    omega
  rw [Framing.padded, length_messageRecord]
  simp [messages, ha]

end

theorem putMessage_eq_some (h : putMessage buffer draft = some built) :
    (∀ attr ∈ draft.attributes, nlaHdrlen + attr.payload.length < 2 ^ 16) ∧
      (messageRecord draft).length < 2 ^ 32 ∧ built = buffer ++ messages.padded (messageRecord draft) := by
  rw [putMessage] at h
  obtain ⟨filled, hpu, hs⟩ := Option.bind_eq_some_iff.mp h
  obtain ⟨hfi, rfl⟩ := putAttributes_eq_some hpu
  -- Behind the length that is still missing, the rest of the record is in place.
  obtain ⟨tail, ht⟩ : ∃ tail, tail = leBytes 2 draft.messageType.toNat ++ (leBytes 2 draft.flags.toNat ++
    (leBytes 4 draft.sequence.toNat ++ (leBytes 4 0 ++ messageBody draft))) := ⟨_, rfl⟩
  have hf : (putMessageHeader buffer draft.messageType draft.flags draft.sequence draft.family
      draft.resourceId).1 ++ attributeBytes draft.attributes = buffer ++ (leBytes 4 0 ++ tail) := by
    simp only [putMessageHeader, ht, messageBody, nfgenmsg, append_assoc, cons_append, nil_append]
  have hr : messageRecord draft = leBytes 4 (4 + tail.length) ++ tail := by
    rw [messageRecord, ← ht]
    congr 2
    simp only [ht, length_append, leBytes_length, nlmsgHdrlen]
    omega
  have hl : (buffer ++ (leBytes 4 0 ++ tail)).length - buffer.length = 4 + tail.length := by simp
  have hta : (buffer ++ (leBytes 4 0 ++ tail)).take buffer.length = buffer := take_left
  have hd : (buffer ++ (leBytes 4 0 ++ tail)).drop (buffer.length + 4) = tail := by
    rw [← drop_drop, drop_left]
    exact drop_left' (leBytes_length 4 0)
  replace hs : sealMessage (buffer ++ (leBytes 4 0 ++ tail)) buffer.length = some built := by
    rw [← hf]
    exact hs
  simp only [sealMessage, hl, hta, hd, Option.ite_none_right_eq_some, Option.some.injEq] at hs
  refine ⟨hfi, ?_, ?_⟩
  · rw [hr, length_append, leBytes_length]
    exact hs.1
  · rw [padded_messageRecord, hr, ← hs.2, append_assoc]

theorem sealed_messageRecord (h : (messageRecord draft).length < 2 ^ 32) : messages.Sealed (messageRecord draft) where
  header_le := by simp [messages]
  lengthAt_append tail := by
    have ht : ((messageRecord draft ++ tail).take 4) = leBytes 4 (nlmsgHdrlen + (messageBody draft).length) := by
      simp [messageRecord]
    rw [length_messageRecord] at h ⊢
    change leNat ((messageRecord draft ++ tail).take 4) = _
    rw [ht, leNat_leBytes]
    exact Nat.mod_eq_of_lt h

variable (draft : MessageDraft)

theorem decode_messageRecord : messages.decode (messageRecord draft) =
      ⟨draft.messageType, draft.sequence, draft.flags, messageBody draft⟩ := by
  obtain ⟨size, hsi⟩ : ∃ size, size = leBytes 4 (nlmsgHdrlen + (messageBody draft).length) := ⟨_, rfl⟩
  have hl : size.length = 4 := by rw [hsi, leBytes_length]
  have ht : nativeField 2 (messageRecord draft) 4 = draft.messageType := by
    rw [messageRecord, ← hsi, ← hl]
    exact nativeField_append 2 size _ draft.messageType
  have hf : nativeField 2 (messageRecord draft) 6 = draft.flags := by
    have h := nativeField_append 2 (size ++ leBytes 2 draft.messageType.toNat)
      (leBytes 4 draft.sequence.toNat ++ (leBytes 4 0 ++ messageBody draft)) draft.flags
    rwa [length_append, hl, leBytes_length, append_assoc, hsi] at h
  have hs : nativeField 4 (messageRecord draft) 8 = draft.sequence := by
    have h := nativeField_append 4 (size ++ (leBytes 2 draft.messageType.toNat ++ leBytes 2 draft.flags.toNat))
      (leBytes 4 0 ++ messageBody draft) draft.sequence
    rwa [length_append, length_append, hl, leBytes_length, leBytes_length, append_assoc, append_assoc, hsi] at h
  have hb : (messageRecord draft).drop nlmsgHdrlen = messageBody draft := by
    have hfr : messageRecord draft = (size ++ leBytes 2 draft.messageType.toNat ++ leBytes 2 draft.flags.toNat ++
        leBytes 4 draft.sequence.toNat ++ leBytes 4 0) ++ messageBody draft := by
      rw [messageRecord, hsi]
      simp only [append_assoc]
    rw [hfr]
    exact drop_left' (by simp [hl, nlmsgHdrlen])
  simp only [messages, ht, hf, hs, hb]

theorem putMessages_eq_some (h : drafts.foldlM putMessage buffer = some built) :
    (∀ draft ∈ drafts, ∀ attr ∈ draft.attributes, nlaHdrlen + attr.payload.length < 2 ^ 16) ∧
      (∀ draft ∈ drafts, messages.Sealed (messageRecord draft)) ∧
      built = buffer ++ (drafts.map messageRecord).flatMap messages.padded := by
  induction drafts generalizing buffer with
  | nil =>
    obtain rfl : buffer = built := by simpa using h
    simp
  | cons draft drafts ih =>
    rw [foldlM_cons] at h
    obtain ⟨next, hpu, hr⟩ := Option.bind_eq_some_iff.mp h
    obtain ⟨hf, hl, rfl⟩ := putMessage_eq_some hpu
    obtain ⟨ha, hs, rfl⟩ := ih hr
    exact ⟨forall_mem_cons.mpr ⟨hf, ha⟩, forall_mem_cons.mpr ⟨sealed_messageRecord hl, hs⟩, by simp⟩

theorem putMessages_yields (h : putMessages drafts = some bytes) :
    messages.Yields bytes (drafts.map fun draft => .ok ⟨draft.messageType, draft.sequence, draft.flags, messageBody draft⟩) := by
  obtain ⟨-, hs, rfl⟩ := putMessages_eq_some h
  have hr : ∀ record ∈ drafts.map messageRecord, messages.Sealed record := by
    intro record hre
    obtain ⟨draft, hd, rfl⟩ := mem_map.mp hre
    exact hs draft hd
  have hy := Framing.yields_padded hr
  rw [nil_append]
  simpa only [map_map, Function.comp_def, decode_messageRecord] using hy

/-- What an iteration over any bytes does: it ends, its error is its last answer, and the bytes of its answers
lie in the input. -/
def Drains {ε α : Type} (frames : Framing ε α) (content : α → List Byte) (bytes : List Byte) : Prop :=
  ∃ items, frames.Yields bytes items ∧ items.length ≤ bytes.length ∧ (∀ a, .ok a ∈ items → content a <:+: bytes) ∧
    ∀ k e, items[k]? = some (.error e) → items.length = k + 1

theorem drains_of_suffix {frames : Framing ε α} {content : α → List Byte}
    (h : ∀ record, content (frames.decode record) <:+ record) (bytes : List Byte) : Drains frames content bytes := by
  refine ⟨frames.collect bytes, Framing.yields_collect bytes, frames.length_collectFrom_le _ _, ?_, frames.collectFrom_error _ _⟩
  intro a ha
  obtain ⟨record, hin, rfl⟩ := frames.collectFrom_inside _ _ a ha
  exact (h record).isInfix.trans hin

/-- A message tells its draft, and its attributes are those of the draft under their plain kinds. -/
structure Message.Tells (message : Message) : Prop where
  messageType_eq : message.messageType = draft.messageType
  flags_eq : message.flags = draft.flags
  sequence_eq : message.sequence = draft.sequence
  nfgenmsg_eq : message.body.take nfgenmsgLen = [draft.family, 0] ++ beBytes 2 draft.resourceId.toNat
  attributes_eq : attributeFrames.Yields (message.body.drop nfgenmsgLen)
    (draft.attributes.map fun attr => .ok ⟨plainKind attr.kind, attr.payload⟩)

theorem Message.tells_body (h : ∀ attr ∈ draft.attributes, nlaHdrlen + attr.payload.length < 2 ^ 16) :
    Message.Tells draft ⟨draft.messageType, draft.sequence, draft.flags, messageBody draft⟩ where
  messageType_eq := rfl
  flags_eq := rfl
  sequence_eq := rfl
  nfgenmsg_eq := by
    rw [messageBody, take_left' (by simp [nfgenmsg, nfgenmsgLen])]
    rfl
  attributes_eq := by
    rw [messageBody, drop_left' (by simp [nfgenmsg, nfgenmsgLen])]
    exact attributeBytes_yields h

/-- Messages and attributes are read as they were written, up to the flag bits of the kinds, and on every input
the two iterators end. -/
theorem netlink_framing : (∀ drafts bytes, putMessages drafts = some bytes →
      ∃ received : List Message, messages.Yields bytes (received.map .ok) ∧ List.Forall₂ Message.Tells drafts received) ∧
    (∀ bytes, Drains messages Message.body bytes) ∧ ∀ bytes, Drains attributeFrames Attribute.payload bytes := by
  refine ⟨fun drafts bytes h => ?_, ?_, ?_⟩
  · refine ⟨drafts.map fun draft => ⟨draft.messageType, draft.sequence, draft.flags, messageBody draft⟩, ?_, ?_⟩
    · simpa only [map_map, Function.comp_def] using putMessages_yields h
    · rw [forall₂_map_right_iff, forall₂_same]
      exact fun draft hd => Message.tells_body draft ((putMessages_eq_some h).1 draft hd)
  · exact drains_of_suffix fun record => drop_suffix _ _
  · exact drains_of_suffix fun record => drop_suffix _ _

def nestedDraft : MessageDraft := ⟨0x0a06, 1, 7, 1, 0, [⟨0x8001, [0xaa]⟩]⟩

theorem netlink_framing_one : ∃ bytes received, putMessages [nestedDraft] = some bytes ∧ messages.Yields bytes (received.map .ok) ∧
      List.Forall₂ Message.Tells [nestedDraft] received := by
  have h : putMessages [nestedDraft] = some (messageRecord nestedDraft) := by decide +kernel
  obtain ⟨received, hy, ht⟩ := netlink_framing.1 [nestedDraft] (messageRecord nestedDraft) h
  exact ⟨_, received, h, hy, ht⟩

theorem netlink_framing_nested : ∃ bytes message, putMessages [nestedDraft] = some bytes ∧ messages.Yields bytes [.ok message] ∧
      ¬ attributeFrames.Yields (message.body.drop nfgenmsgLen) (nestedDraft.attributes.map .ok) := by
  have h : putMessages [nestedDraft] = some (messageRecord nestedDraft) := by decide +kernel
  refine ⟨messageRecord nestedDraft, ⟨0x0a06, 7, 1, messageBody nestedDraft⟩, h, putMessages_yields h, ?_⟩
  intro hy
  have hf := hy 0
  revert hf
  decide +kernel

end

def nfnlSubsysQueue : BitVec 16 := 3
def nlmFRequest : BitVec 16 := 1
def queueNum : BitVec 16 := 320
def nfqaVerdictHdr : BitVec 16 := 2

variable (packetId verdict : BitVec 32)

variable (mark : Option (BitVec 32))

variable (sequence : BitVec 32)

def buildVerdictMessage : Option (List Byte) :=
  let (buffer, start) := putMessageHeader [] (nfnlSubsysQueue <<< 8 ||| 1) nlmFRequest sequence 0 queueNum
  (putAttribute buffer nfqaVerdictHdr (beBytes 4 verdict.toNat ++ beBytes 4 packetId.toNat)) >>= fun buffer =>
    (match mark with
      | some mark => putAttribute buffer nfqaMark (beBytes 4 mark.toNat)
      | none => some buffer) >>= fun buffer =>
      sealMessage buffer start

def verdictDraft : MessageDraft where
  messageType := nfnlSubsysQueue <<< 8 ||| 1
  flags := nlmFRequest
  sequence := sequence
  family := 0
  resourceId := queueNum
  attributes := ⟨nfqaVerdictHdr, beBytes 4 verdict.toNat ++ beBytes 4 packetId.toNat⟩ ::
    mark.toList.map fun mark => ⟨nfqaMark, beBytes 4 mark.toNat⟩

theorem buildVerdictMessage_eq :
    buildVerdictMessage packetId verdict mark sequence = putMessages [verdictDraft packetId verdict mark sequence] := by
  cases mark <;> simp [buildVerdictMessage, putMessages, putMessage, verdictDraft, Option.bind_assoc]

theorem buildVerdictMessage_isSome : (buildVerdictMessage packetId verdict mark sequence).isSome := by
  cases mark <;>
    simp [buildVerdictMessage, putMessageHeader, putAttribute, sealMessage, nlaHdrlen, align4]

theorem buildVerdictMessage_yields : ∃ bytes, buildVerdictMessage packetId verdict mark sequence = some bytes ∧
      ∃ message, messages.Yields bytes [.ok message] ∧ message.Tells (verdictDraft packetId verdict mark sequence) := by
  obtain ⟨bytes, hb⟩ := Option.isSome_iff_exists.mp (buildVerdictMessage_isSome packetId verdict mark sequence)
  have hpu := (buildVerdictMessage_eq packetId verdict mark sequence).symm.trans hb
  exact ⟨bytes, hb, _, putMessages_yields hpu, Message.tells_body _ ((putMessages_eq_some hpu).1 _ (by simp))⟩

end Honk.Packet.Netlink
