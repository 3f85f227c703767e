import Honk.Lib.Result
import Honk.Nfqueue.Cell
import Honk.Packet.Transport

namespace Honk.Packet

open Honk.Lib Honk.Routing Honk.Nfqueue

inductive DecodeError where
  | truncatedAttributeHeader
  | invalidAttributeLength (length : ℕ)
  | truncatedAttributePadding
  deriving DecidableEq

structure Attribute where
  kind : BitVec 16
  payload : List Byte
  deriving DecidableEq

def nlaHdrlen : ℕ := 4
def nlaFNested : BitVec 16 := 0x8000
def nlaFNetByteorder : BitVec 16 := 0x4000

def align4 (value : ℕ) : ℕ := (value + 3) / 4 * 4

/-- What the attribute iterator yields; it stops at its first error. The host is little-endian, and
each attribute takes at least its header. -/
def attributesFrom : ℕ → List Byte → List (Except DecodeError Attribute)
  | 0, _ => []
  | fuel + 1, bytes =>
    if bytes.length = 0 then []
    else if bytes.length < nlaHdrlen then [.error .truncatedAttributeHeader]
    else
      let length := leNat (bytes.take 2)
      if length < nlaHdrlen ∨ bytes.length < length then [.error (.invalidAttributeLength length)]
      else if bytes.length < align4 length ∧ length ≠ bytes.length then [.error .truncatedAttributePadding]
      else
        let rawKind := BitVec.ofNat 16 (leNat ((bytes.drop 2).take 2))
        .ok ⟨rawKind &&& ~~~(nlaFNested ||| nlaFNetByteorder), (bytes.take length).drop nlaHdrlen⟩ ::
          attributesFrom fuel (bytes.drop (min (align4 length) bytes.length))

def attributes (bytes : List Byte) : List (Except DecodeError Attribute) := attributesFrom bytes.length bytes

inductive PacketError where
  | truncatedNfgenmsg
  | unexpectedFamily (family : Byte)
  | malformedAttributes (error : DecodeError)
  | duplicateAttribute (kind : BitVec 16)
  | invalidAttributeLength (kind : BitVec 16) (length : ℕ)
  | missingPacketHeader
  | missingMark
  | missingPayload
  | captureLengthMismatch (captured payload : ℕ)
  | malformedIpv4
  | malformedIpv6
  | notIpDatagram
  | notUdpIpv4 (protocol : Byte) (fragment : BitVec 16) (headerLength : ℕ)
  | notUdpIpv6 (nextHeader : Byte) (fragment : BitVec 16) (headerOffset : ℕ)
  | malformedUdp
  | invalidUdpChecksum
  deriving DecidableEq

inductive PacketEvent where
  | datagram (tuple : FlowKey) (payload : List Byte) (mark : BitVec 32) (priority : Option (BitVec 32)) (receivedAt : ℕ)
  | rejected (tuple : FlowKey) (mark : BitVec 32) (receivedAt : ℕ) (error : PacketError)
  deriving DecidableEq

structure ParsedMessage where
  packetId : BitVec 32
  event : PacketEvent
  deriving DecidableEq

structure ParsedUdp where
  tuple : FlowKey
  payloadRange : Except PacketError (ℕ × ℕ)

variable (packet : List Byte)

def at16 (i : ℕ) : BitVec 16 := be16 (packet.getD i 0) (packet.getD (i + 1) 0)

def checksumWords : List Byte → ℕ
  | [] => 0
  | [last] => last.toNat * 256
  | hi :: lo :: bytes => (be16 hi lo).toNat + checksumWords bytes

/-- Three rounds bring any 32-bit sum below 2^16. -/
def foldChecksum (sum : ℕ) : BitVec 16 :=
  let fold (sum : ℕ) : ℕ := sum % 65536 + sum / 65536
  ~~~ BitVec.ofNat 16 (fold (fold (fold sum)))

variable (offset packetEnd : ℕ)

def udpChecksum : BitVec 16 :=
  let addresses := if packet.getD 0 0 >>> 4 = 4 then (packet.take 20).drop 12 else (packet.take 40).drop 8
  foldChecksum (checksumWords addresses + ipprotoUdp.toNat + (packetEnd - offset) +
    checksumWords ((packet.take packetEnd).drop offset))

def isIpv6 : IpAddr → Bool
  | .v4 _ => false
  | .v6 _ => true

def udpPayloadRange (source : IpAddr) (checksumNotReady : Bool) : Except PacketError (ℕ × ℕ) :=
  let udpLength := (at16 packet (offset + 4)).toNat
  if udpLength < 8 ∨ offset + udpLength ≠ packetEnd ∨ packet.length < packetEnd then .error .malformedUdp
  else if !checksumNotReady &&
      (if at16 packet (offset + 6) = 0 then isIpv6 source else udpChecksum packet offset packetEnd != 0) then
    .error .invalidUdpChecksum
  else .ok (offset + 8, packetEnd)

def parseUdp (source destination : IpAddr) (checksumNotReady : Bool) : Except PacketError ParsedUdp :=
  if min packetEnd packet.length < offset + 8 then .error .malformedUdp
  else .ok {
    tuple := ⟨⟨source, at16 packet offset⟩, ⟨destination, at16 packet (offset + 2)⟩⟩
    payloadRange := udpPayloadRange packet offset packetEnd source checksumNotReady }

def octets (n offset : ℕ) : Vector Byte n := Vector.ofFn fun i => packet.getD (offset + i) 0

def parseIpv4Udp (checksumNotReady : Bool) : Except PacketError ParsedUdp :=
  let headerLength := (packet.getD 0 0 &&& 0x0f).toNat * 4
  let totalLength := (at16 packet 2).toNat
  let fragment := at16 packet 6
  let protocol := packet.getD 9 0
  if packet.length < 20 ∨ packet.getD 0 0 >>> 4 ≠ 4 then .error .malformedIpv4
  else if headerLength < 20 ∨ packet.length < headerLength then .error .malformedIpv4
  else if fragment &&& 0x1fff ≠ 0 ∨ protocol ≠ ipprotoUdp then .error (.notUdpIpv4 protocol fragment headerLength)
  else (parseUdp packet headerLength totalLength (.v4 (octets packet 4 12)) (.v4 (octets packet 4 16)) checksumNotReady).map
    fun parsed =>
      if fragment &&& 0x2000 ≠ 0 then { parsed with payloadRange := .error (.notUdpIpv4 protocol fragment headerLength) }
      else if totalLength ≠ packet.length then { parsed with payloadRange := .error .malformedIpv4 }
      else parsed

def ipprotoAh : Byte := 51

def skipExtension (capturedEnd offset : ℕ) (length : Byte → ℕ) : Except PacketError (Byte × ℕ) :=
  if capturedEnd < offset + 2 then .error .malformedIpv6
  else if capturedEnd < offset + length (packet.getD (offset + 1) 0) then .error .malformedIpv6
  else .ok (packet.getD offset 0, offset + length (packet.getD (offset + 1) 0))

/-- The walk to the UDP header with the error of a first fragment on the way; `n` rounds are left. -/
def udpHeaderFrom (packet : List Byte) (capturedEnd : ℕ) :
    ℕ → Byte → ℕ → Option PacketError → Except PacketError (ℕ × Option PacketError)
  | 0, nextHeader, offset, fragmentError => if nextHeader = ipprotoUdp then .ok (offset, fragmentError) else .error .malformedIpv6
  | n + 1, nextHeader, offset, fragmentError =>
    if nextHeader = ipprotoUdp then .ok (offset, fragmentError)
    else if nextHeader = ipprotoHopopts ∨ nextHeader = ipprotoRouting ∨ nextHeader = ipprotoDstopts then
      (skipExtension packet capturedEnd offset ipv6Optlen) >>= fun (next, o) =>
        udpHeaderFrom packet capturedEnd n next o fragmentError
    else if nextHeader = ipprotoFragment then
      if capturedEnd < offset + 8 then .error .malformedIpv6
      else
        let fragment := at16 packet (offset + 2)
        let next := packet.getD offset 0
        if fragment &&& 0xfff8 ≠ 0 then .error (.notUdpIpv6 next fragment offset)
        else udpHeaderFrom packet capturedEnd n next (offset + 8)
          (if fragment &&& 1 ≠ 0 then some (.notUdpIpv6 next fragment offset) else fragmentError)
    else if nextHeader = ipprotoAh then
      (skipExtension packet capturedEnd offset fun length => (length.toNat + 2) * 4) >>= fun (next, o) =>
        udpHeaderFrom packet capturedEnd n next o fragmentError
    else .error (.notUdpIpv6 nextHeader 0 offset)

def parseIpv6Udp (checksumNotReady : Bool) : Except PacketError ParsedUdp :=
  let payloadLength := (at16 packet 4).toNat
  let totalLength := 40 + payloadLength
  if packet.length < 48 ∨ packet.getD 0 0 >>> 4 ≠ 6 then .error .malformedIpv6
  else if payloadLength = 0 then .error .malformedIpv6
  else udpHeaderFrom packet (min totalLength packet.length) 16 (packet.getD 6 0) 40 none >>= fun (offset, fragmentError) =>
    (parseUdp packet offset totalLength (.v6 (octets packet 16 8)) (.v6 (octets packet 16 24)) checksumNotReady).map
      fun parsed =>
        match fragmentError with
        | some error => { parsed with payloadRange := .error error }
        | none => if totalLength ≠ packet.length then { parsed with payloadRange := .error .malformedIpv6 } else parsed

def nfgenmsgLen : ℕ := 4
def afInet : Byte := 2
def afInet6 : Byte := 10
def nfqaPacketHdr : BitVec 16 := 1
def nfqaMark : BitVec 16 := 3
def nfqaPayload : BitVec 16 := 10
def nfqaCapLen : BitVec 16 := 13
def nfqaSkbInfo : BitVec 16 := 14
def nfqaPriority : BitVec 16 := 21
def nfqaSkbCsumnotready : BitVec 32 := 1

structure Slots where
  packetId : Option (BitVec 32) := none
  mark : Option (BitVec 32) := none
  payload : Option (List Byte) := none
  captureLength : Option ℕ := none
  skbInfo : Option (BitVec 32) := none
  priority : Option (BitVec 32) := none
  prioritySeen : Bool := false
  deriving DecidableEq

def be32Attribute (attr : Attribute) : Except PacketError (BitVec 32) :=
  if attr.payload.length ≠ 4 then .error (.invalidAttributeLength attr.kind attr.payload.length)
  else .ok (BitVec.ofNat 32 (beNat attr.payload))

def once {α β : Type} (slot : Option α) (attr : Attribute) (read : Except PacketError β) : Except PacketError β :=
  if slot.isSome then .error (.duplicateAttribute attr.kind) else read

def readAttribute (slots : Slots) (attr : Attribute) : Except PacketError Slots :=
  if attr.kind = nfqaPacketHdr then
    once slots.packetId attr ( if attr.payload.length ≠ 7 then .error (.invalidAttributeLength attr.kind attr.payload.length)
      else .ok { slots with packetId := some (BitVec.ofNat 32 (beNat (attr.payload.take 4))) })
  else if attr.kind = nfqaMark then
    once slots.mark attr ((be32Attribute attr).map fun mark => { slots with mark := some mark })
  else if attr.kind = nfqaPayload then
    once slots.payload attr (.ok { slots with payload := some attr.payload })
  else if attr.kind = nfqaCapLen then
    once slots.captureLength attr
      ((be32Attribute attr).map fun captured => { slots with captureLength := some captured.toNat })
  else if attr.kind = nfqaSkbInfo then
    once slots.skbInfo attr ((be32Attribute attr).map fun info => { slots with skbInfo := some info })
  else if attr.kind = nfqaPriority then
    .ok { slots with
      priority := if slots.prioritySeen then none else (be32Attribute attr).toOption
      prioritySeen := true }
  else .ok slots

def readAttributes : List (Except DecodeError Attribute) → Slots → Except PacketError Slots
  | [], slots => .ok slots
  | .error error :: _, _ => .error (.malformedAttributes error)
  | .ok attr :: rest, slots => readAttribute slots attr >>= readAttributes rest

def parseLayerThree (family : Byte) (layerThree : List Byte) (checksumNotReady : Bool) : Except PacketError ParsedUdp :=
  match layerThree with
  | [] => .error .notIpDatagram
  | first :: _ =>
    let familyFromPacket := first >>> 4
    if (family = afInet ∧ familyFromPacket ≠ 4) ∨ (family = afInet6 ∧ familyFromPacket ≠ 6) then
      .error (.unexpectedFamily family)
    else if familyFromPacket = 4 then parseIpv4Udp layerThree checksumNotReady
    else if familyFromPacket = 6 then parseIpv6Udp layerThree checksumNotReady
    else .error .notIpDatagram

def packetEvent (slots : Slots) (mark : BitVec 32) (layerThree : List Byte) (receivedAt : ℕ) (parsed : ParsedUdp) : PacketEvent :=
  let payloadRange : Except PacketError (ℕ × ℕ) :=
    match slots.captureLength with
    | some captured =>
      if layerThree.length < captured then .error (.captureLengthMismatch captured layerThree.length)
      else parsed.payloadRange
    | none => parsed.payloadRange
  match payloadRange with
  | .ok (start, stop) => .datagram parsed.tuple ((layerThree.take stop).drop start) mark slots.priority receivedAt
  | .error error => .rejected parsed.tuple mark receivedAt error

def parseSlots (family : Byte) (receivedAt : ℕ) (slots : Slots) : Except PacketError ParsedMessage :=
  match slots.packetId, slots.mark, slots.payload with
  | none, _, _ => .error .missingPacketHeader
  | some _, none, _ => .error .missingMark
  | some _, some _, none => .error .missingPayload
  | some packetId, some mark, some layerThree =>
    match slots.captureLength.filter fun captured => decide (captured < layerThree.length) with
    | some captured => .error (.captureLengthMismatch captured layerThree.length)
    | none =>
      let checksumNotReady := slots.skbInfo.getD 0 &&& nfqaSkbCsumnotready != 0
      (parseLayerThree family layerThree checksumNotReady).map fun parsed =>
        ⟨packetId, packetEvent slots mark layerThree receivedAt parsed⟩

def parsePacketMessage (body : List Byte) (receivedAt : ℕ) : Except PacketError ParsedMessage :=
  if body.length < nfgenmsgLen then .error .truncatedNfgenmsg
  else
    let family := body.getD 0 0
    if family ≠ afInet ∧ family ≠ afInet6 then .error (.unexpectedFamily family)
    else readAttributes (attributes (body.drop nfgenmsgLen)) {} >>= parseSlots family receivedAt

end Honk.Packet
