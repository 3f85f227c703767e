import Honk.Lib.Bytes
import Honk.Shadowsocks.Window

namespace Honk.Shadowsocks

open Honk.Lib

/-- The ciphers and the address format, as functions of what they are given. `sessionKey` derives the AEAD of a
server session from the first half of the separate header. -/
structure Codec (Key Peer : Type) where
  chacha : Bool
  decryptHeader : Vector Byte 16 → Except String (Vector Byte 16)
  sessionKey : List Byte → Except String Key
  aeadOpen : Key → List Byte → List Byte → Option (List Byte)
  xchachaOpen : List Byte → List Byte → Option (List Byte)
  decodeAddress : List Byte → Except String (Peer × List Byte)

/-- Why a datagram is not delivered. `panic` is an `expect` that fails. -/
inductive Refusal where
  | packetTooShort
  | bodyTooShort
  | key (text : String)
  | unsealed
  | replayed
  | rotated
  | headerType (type : Byte)
  | timestamp (diff : ℕ)
  | clientSession
  | padding
  | address (text : String)
  | panic

def Refusal.text : Refusal → String
  | .packetTooShort => "UDP packet too short"
  | .bodyTooShort => "UDP body too short"
  | .key text => text
  | .unsealed => "open UDP packet failed"
  | .replayed => "packet id not unique"
  | .rotated => "server session changed more than once during the last minute"
  | .headerType type => "bad UDP header type " ++ toString type.toNat
  | .timestamp diff => "bad UDP timestamp (diff " ++ toString diff ++ "s)"
  | .clientSession => "bad client session id"
  | .padding => "truncated UDP padding"
  | .address text => text
  | .panic => "server session exists"

structure ServerSession (Key : Type) where
  id : ℕ
  cipher : Option Key
  window : SlidingWindow

inductive ServerSessionSlot where
  | current
  | previous
  | new

structure UdpSession (Key : Type) where
  sessionId : ℕ
  remoteSession : Option (ServerSession Key) := none
  previousRemoteSession : Option (ServerSession Key) := none
  previousRemoteSeen : ℕ := 0

structure UdpDatagram (Peer : Type) where
  peer : Peer
  body : List Byte
  payloadAt : ℕ

def udpMinimalPacketSize : ℕ := 30

def udpXnonceSize : ℕ := 24

def headerTypeServer : Byte := 1

def serverSessionRotationSecs : ℕ := 60

variable {Key Peer : Type}

def beAt (bytes : List Byte) (offset size : ℕ) : ℕ := beNat ((bytes.drop offset).take size)

namespace UdpSession

variable (s : UdpSession Key)

def serverPacketSlot (serverSessionId packetId now : ℕ) : Except Refusal ServerSessionSlot :=
  match s.remoteSession.filter (·.id = serverSessionId), s.previousRemoteSession.filter (·.id = serverSessionId) with
  | some session, _ => if session.window.check packetId then .ok .current else .error .replayed
  | none, some session => if session.window.check packetId then .ok .previous else .error .replayed
  | none, none =>
    if s.previousRemoteSession.isSome ∧ now - s.previousRemoteSeen < serverSessionRotationSecs then .error .rotated
    else .ok .new

def ServerSession.add (session : ServerSession Key) (packetId : ℕ) : ServerSession Key :=
  { session with window := session.window.add packetId }

def commitServerPacket (slot : ServerSessionSlot) (serverSessionId packetId : ℕ) (cipher : Option Key)
    (now : ℕ) : Option (UdpSession Key) :=
  match slot with
  | .current => s.remoteSession.map fun session => { s with remoteSession := some (ServerSession.add session packetId) }
  | .previous => s.previousRemoteSession.map fun session =>
      { s with previousRemoteSession := some (ServerSession.add session packetId), previousRemoteSeen := now }
  | .new =>
    let s := match s.remoteSession with
      | some current => { s with remoteSession := none, previousRemoteSession := some current, previousRemoteSeen := now }
      | none => s
    some { s with remoteSession := some ⟨serverSessionId, cipher, ({} : SlidingWindow).add packetId⟩ }

def serverAddressOffset (body : List Byte) (now : ℕ) : Except Refusal ℕ :=
  if body.length < 1 + 8 + 8 + 2 then .error .bodyTooShort
  else if body.getD 0 0 ≠ headerTypeServer then .error (.headerType (body.getD 0 0))
  else
    let diff := max now (beAt body 1 8) - min now (beAt body 1 8)
    if diff > 30 then .error (.timestamp diff)
    else if beAt body 9 8 ≠ s.sessionId then .error .clientSession
    else
      let paddingLen := beAt body 17 2
      if body.length < 19 + paddingLen then .error .padding else .ok (19 + paddingLen)

variable (codec : Codec Key Peer)

def datagram (body : List Byte) (addressAt : ℕ) : Except Refusal (UdpDatagram Peer) :=
  match codec.decodeAddress (body.drop addressAt) with
  | .error text => .error (.address text)
  | .ok (peer, rest) => .ok ⟨peer, body, body.length - rest.length⟩

structure Accepted (Key Peer : Type) where
  slot : ServerSessionSlot
  serverSessionId : ℕ
  packetId : ℕ
  cipher : Option Key
  datagram : UdpDatagram Peer

variable (s : UdpSession Key) (packet : List Byte) (now : ℕ)

def acceptChacha : Except Refusal (Accepted Key Peer) :=
  if packet.length < udpXnonceSize + udpMinimalPacketSize then .error .packetTooShort
  else match codec.xchachaOpen (packet.take udpXnonceSize) (packet.drop udpXnonceSize) with
    | none => .error .unsealed
    | some body =>
      if body.length < 16 then .error .bodyTooShort
      else do
        let slot ← s.serverPacketSlot (beAt body 0 8) (beAt body 8 8) now
        let offset ← s.serverAddressOffset (body.drop 16) now
        let datagram ← datagram codec body (16 + offset)
        return ⟨slot, beAt body 0 8, beAt body 8 8, none, datagram⟩

def slotCipher (header : Vector Byte 16) : ServerSessionSlot → Except Refusal (Key × Option Key)
  | .current => match s.remoteSession.bind ServerSession.cipher with
    | some cipher => .ok (cipher, none)
    | none => .error .panic
  | .previous => match s.previousRemoteSession.bind ServerSession.cipher with
    | some cipher => .ok (cipher, none)
    | none => .error .panic
  | .new => match codec.sessionKey (header.toList.take 8) with
    | .ok cipher => .ok (cipher, some cipher)
    | .error text => .error (.key text)

def headerOf (h : ¬ packet.length < udpMinimalPacketSize) : Vector Byte 16 :=
  ⟨(packet.take 16).toArray, by simp [udpMinimalPacketSize] at h ⊢; omega⟩

def acceptAes : Except Refusal (Accepted Key Peer) :=
  if h : packet.length < udpMinimalPacketSize then .error .packetTooShort
  else match codec.decryptHeader (headerOf packet h) with
    | .error text => .error (.key text)
    | .ok header => do
      let serverSessionId := beAt header.toList 0 8
      let serverPacketId := beAt header.toList 8 8
      let slot ← s.serverPacketSlot serverSessionId serverPacketId now
      let (cipher, newCipher) ← slotCipher codec s header slot
      match codec.aeadOpen cipher (header.toList.drop 4) (packet.drop 16) with
      | none => .error .unsealed
      | some body => do
        let offset ← s.serverAddressOffset body now
        let datagram ← datagram codec body offset
        return ⟨slot, serverSessionId, serverPacketId, newCipher, datagram⟩

def accept : Except Refusal (Accepted Key Peer) :=
  if codec.chacha then acceptChacha codec s packet now else acceptAes codec s packet now

/-- The session is touched once everything has been checked. -/
def openPacketAt : Except Refusal (UdpDatagram Peer) × UdpSession Key :=
  match accept codec s packet now with
  | .error refusal => (.error refusal, s)
  | .ok accepted =>
    match s.commitServerPacket accepted.slot accepted.serverSessionId accepted.packetId accepted.cipher now with
    | some s' => (.ok accepted.datagram, s')
    | none => (.error .panic, s)

end UdpSession

end Honk.Shadowsocks
