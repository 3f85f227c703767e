import Honk.Quic.Frames

namespace Honk.Quic

open Honk.Lib Option
open List hiding Vector

def quicVersion1 : BitVec 32 := 0x00000001
def quicVersion2 : BitVec 32 := 0x6b3343cf

structure LongHeader where
  version : BitVec 32
  dcid : List Byte
  pnOffset : ℕ
  packetEnd : ℕ

def initialType (version : BitVec 32) : Option Byte :=
  if version = quicVersion1 then some 0 else if version = quicVersion2 then some 1 else none

def connectionIdLength (packet : List Byte) (pos : ℕ) : Option ℕ :=
  packet[pos]? >>= fun len => if 20 < len.toNat then none else some len.toNat

def parseLongHeader (packet : List Byte) : Option LongHeader :=
  if packet.length < 7 ∨ packet.getD 0 0 &&& 0xc0 ≠ 0xc0 then none
  else
    let version := BitVec.ofNat 32 (beNat ((packet.drop 1).take 4))
    initialType version >>= fun type =>
      if (packet.getD 0 0 >>> 4) &&& 0x03 ≠ type then none
      else
        connectionIdLength packet 5 >>= fun dcidLen =>
          slice? packet 6 (6 + dcidLen) >>= fun dcid =>
            connectionIdLength packet (6 + dcidLen) >>= fun scidLen =>
              readVarint packet (6 + dcidLen + (1 + scidLen)) >>= fun (tokenLen, next) =>
                readVarint packet (next + tokenLen) >>= fun (length, pnOffset) =>
                  if packet.length < pnOffset + length then none
                  else some ⟨version, dcid, pnOffset, pnOffset + length⟩

theorem parseLongHeader_bounds (h : parseLongHeader packet = some hdr) :
    0 < hdr.packetEnd ∧ hdr.packetEnd ≤ packet.length ∧ (initialType hdr.version).isSome := by
  simp only [parseLongHeader] at h
  split_ifs at h with hs
  obtain ⟨type, ht, h⟩ := bind_eq_some_iff.mp h
  split_ifs at h with hinitial
  obtain ⟨dcidLen, -, h⟩ := bind_eq_some_iff.mp h
  obtain ⟨dcid, -, h⟩ := bind_eq_some_iff.mp h
  obtain ⟨scidLen, -, h⟩ := bind_eq_some_iff.mp h
  obtain ⟨⟨tokenLen, next⟩, -, h⟩ := bind_eq_some_iff.mp h
  obtain ⟨⟨length, pnOffset⟩, hl, h⟩ := bind_eq_some_iff.mp h
  dsimp only at h
  split_ifs at h with hin
  cases h
  have := readVarint_lt hl
  exact ⟨by dsimp only; omega, not_lt.mp hin, by rw [ht]; rfl⟩

structure InitialKeys where
  key : Vector Byte 16
  iv : Vector Byte 12
  hp : Vector Byte 16

/-- HKDF with the salt and labels of a version, the block cipher of the header protection and the opening of the
AEAD, each a fixed function. -/
structure Cipher where
  derive : BitVec 32 → List Byte → InitialKeys
  encryptBlock : Vector Byte 16 → List Byte → Vector Byte 16
  openSealed : Vector Byte 16 → List Byte → List Byte → List Byte → Option (List Byte)

def gcmTagLen : ℕ := 16

variable (cipher : Cipher)

def deriveClient (dcid : List Byte) (version : BitVec 32) : Option InitialKeys :=
  if version = quicVersion1 ∨ version = quicVersion2 then some (cipher.derive version dcid) else none

def unmaskNumber (packet : List Byte) (pnOffset : ℕ) (mask : Vector Byte 16) (pnLen : ℕ) : List Byte :=
  (List.range pnLen).map fun i => packet.getD (pnOffset + i) 0 ^^^ mask.toList.getD (1 + i) 0

def nonceOf (iv : Vector Byte 12) (packetNumber : ℕ) : List Byte :=
  iv.toList.take 4 ++ List.zipWith (· ^^^ ·) (iv.toList.drop 4) (leBytes 8 packetNumber).reverse

def decryptInitial (keys : InitialKeys) (packet : List Byte) (hdr : LongHeader) : Option (ℕ × List Byte) :=
  let pnOffset := hdr.pnOffset
  slice? packet (pnOffset + 4) (pnOffset + 20) >>= fun sample =>
    let mask := cipher.encryptBlock keys.hp sample
    slice? packet 0 (pnOffset + 4) >>= fun header =>
      let first := header.getD 0 0 ^^^ (mask.toList.getD 0 0 &&& 0x0f)
      let pnLen := (first &&& 0x03).toNat + 1
      let number := unmaskNumber packet pnOffset mask pnLen
      let packetNumber := number.foldl (fun value b => value <<< 8 ||| b.toNat) 0
      let header := (header.set 0 first).take pnOffset ++ number
      slice? packet (pnOffset + pnLen) hdr.packetEnd >>= fun ciphertext =>
        if ciphertext.length < gcmTagLen then none
        else (cipher.openSealed keys.key (nonceOf keys.iv packetNumber) header ciphertext).map fun payload =>
          (packetNumber, payload)

inductive QuicDecryptError where
  | notInitial
  | decryptFailed
  deriving DecidableEq

/-- The loop over the packets of a datagram; `none` if it is not over after `fuel` packets. -/
def decryptPackets : ℕ → List (ℕ × List Byte) → List Byte → Option (Except QuicDecryptError (List (ℕ × List Byte)))
  | 0, _, _ => none
  | fuel + 1, fragments, rest =>
    match parseLongHeader rest with
    | none => some (if fragments.isEmpty then .error .notInitial else .ok fragments)
    | some hdr =>
      match deriveClient cipher hdr.dcid hdr.version with
      | none => some (.error .notInitial)
      | some keys =>
        match decryptInitial cipher keys rest hdr with
        | none => some (if fragments.isEmpty then .error .decryptFailed else .ok fragments)
        | some (_, payload) =>
          collectCryptoFrames payload >>= fun found =>
            if (rest.drop hdr.packetEnd).isEmpty then some (.ok (fragments ++ found))
            else decryptPackets fuel (fragments ++ found) (rest.drop hdr.packetEnd)

def decryptInitialDatagram (datagram : List Byte) : Option (Except QuicDecryptError (List (ℕ × List Byte))) :=
  decryptPackets cipher (datagram.length + 1) [] datagram

/-- The first packet is an Initial of a supported version with this payload, and `rest` comes behind it. -/
def Opens (datagram payload rest : List Byte) : Prop :=
  ∃ hdr keys number, parseLongHeader datagram = some hdr ∧ deriveClient cipher hdr.dcid hdr.version = some keys ∧
    decryptInitial cipher keys datagram hdr = some (number, payload) ∧ rest = datagram.drop hdr.packetEnd

/-- The payloads of the Initials that lead a datagram, and what comes behind them. -/
inductive Leading : List Byte → List (List Byte) → List Byte → Prop
  | behind (tail : List Byte) (h : ∀ payload rest, ¬ Opens cipher tail payload rest) : Leading tail [] tail
  | initial (datagram payload rest tail : List Byte) (payloads : List (List Byte)) (h : Opens cipher datagram payload rest)
      (hrest : Leading rest payloads tail) : Leading datagram (payload :: payloads) tail

def cryptoFragments (payload : List Byte) : List (ℕ × List Byte) := (collectCryptoFrames payload).getD []

variable {cipher}

theorem collectCryptoFrames_eq : collectCryptoFrames payload = some (cryptoFragments payload) := by
  obtain ⟨out, ho, -⟩ : ∃ out, collectCryptoFrames payload = some out ∧ ∀ f ∈ out, f.2 <:+: payload := walkFrames_total (by omega)
  rw [cryptoFragments, ho, getD_some]

theorem deriveClient_isSome (h : parseLongHeader packet = some hdr) : ∃ keys, deriveClient cipher hdr.dcid hdr.version = some keys := by
  have hv := (parseLongHeader_bounds h).2.2
  refine ⟨_, if_pos ?_⟩
  rw [initialType] at hv
  split_ifs at hv with h1 h2
  · exact .inl h1
  · exact .inr h2
  · cases hv

variable {datagram payload rest tail : List Byte} {fuel : ℕ}

theorem Opens.length_lt (h : Opens cipher datagram payload rest) : rest.length < datagram.length := by
  obtain ⟨hdr, keys, number, hpa, -, -, rfl⟩ := h
  have hb := parseLongHeader_bounds hpa
  rw [length_drop]
  omega

theorem exists_leading (datagram : List Byte) : ∃ payloads tail, Leading cipher datagram payloads tail := by
  induction hn : datagram.length using Nat.strong_induction_on generalizing datagram with
  | _ n ih =>
    by_cases h : ∃ payload rest, Opens cipher datagram payload rest
    · obtain ⟨payload, rest, ho⟩ := h
      obtain ⟨payloads, tail, hr⟩ := ih rest.length (hn ▸ ho.length_lt) rest rfl
      exact ⟨payload :: payloads, tail, .initial datagram payload rest tail payloads ho hr⟩
    · exact ⟨[], datagram, .behind datagram fun payload rest ho => h ⟨payload, rest, ho⟩⟩

theorem decryptPackets_behind (fuel : ℕ) (fragments : List (ℕ × List Byte)) (h : ∀ payload rest, ¬ Opens cipher tail payload rest) :
    ∃ e, decryptPackets cipher (fuel + 1) fragments tail = some (if fragments.isEmpty then .error e else .ok fragments) := by
  rw [decryptPackets]
  cases hpa : parseLongHeader tail with
  | none => exact ⟨.notInitial, rfl⟩
  | some hdr =>
    obtain ⟨keys, hk⟩ : ∃ keys, deriveClient cipher hdr.dcid hdr.version = some keys := deriveClient_isSome hpa
    simp only [hk]
    cases hd : decryptInitial cipher keys tail hdr with
    | none => exact ⟨.decryptFailed, rfl⟩
    | some found => exact absurd ⟨hdr, keys, found.1, hpa, hk, hd, rfl⟩ (h found.2 _)

theorem decryptPackets_opens (h : Opens cipher datagram payload rest) :
    decryptPackets cipher (fuel + 1) fragments datagram = if rest.isEmpty then some (.ok (fragments ++ cryptoFragments payload))
      else decryptPackets cipher fuel (fragments ++ cryptoFragments payload) rest := by
  obtain ⟨hdr, keys, number, hpa, hk, hd, rfl⟩ := h
  simp only [decryptPackets, hpa, hk, hd, collectCryptoFrames_eq, bind_eq_bind, bind_some]

theorem not_opens_nil : ¬ Opens cipher [] payload rest := by
  rintro ⟨hdr, keys, number, hpa, -⟩
  cases hpa

theorem decryptPackets_leading (h : Leading cipher datagram payloads tail)
    (hne : payloads ≠ []) (hf : datagram.length < fuel) (fragments : List (ℕ × List Byte)) :
    ∃ e, decryptPackets cipher fuel fragments datagram =
      some (if fragments ++ payloads.flatMap cryptoFragments = [] ∧ tail ≠ [] then .error e
        else .ok (fragments ++ payloads.flatMap cryptoFragments)) := by
  induction h generalizing fuel fragments with
  | behind tail h => exact absurd rfl hne
  | initial datagram payload rest tail payloads ho hr ih =>
    obtain ⟨fuel, rfl⟩ : ∃ n, fuel = n + 1 := ⟨fuel - 1, by omega⟩
    have hl := ho.length_lt
    rw [decryptPackets_opens ho, flatMap_cons, ← append_assoc]
    cases hr with
    | behind _ hb =>
      rw [flatMap_nil, append_nil]
      cases rest with
      | nil => exact ⟨.notInitial, by simp⟩
      | cons byte rest =>
        obtain ⟨fuel, rfl⟩ : ∃ n, fuel = n + 1 := ⟨fuel - 1, by simp only [length_cons] at hl; omega⟩
        obtain ⟨e, he⟩ := decryptPackets_behind fuel (fragments ++ cryptoFragments payload) hb
        exact ⟨e, by simpa using he⟩
    | initial _ payload' rest' _ payloads' ho' hr' =>
      have hn : rest.isEmpty = false := by
        cases rest with
        | nil => exact absurd ho' not_opens_nil
        | cons byte rest => rfl
      rw [hn]
      exact ih (by simp) (by omega) (fragments ++ cryptoFragments payload)

/-- A datagram whose first packet is an Initial that opens: the fragments of all its leading Initials are returned
exactly when there are any or nothing follows those packets. -/
theorem decryptInitialDatagram_iff (cipher : Cipher) (datagram payload rest : List Byte) (h : Opens cipher datagram payload rest) :
    ∃ payloads tail, Leading cipher datagram (payload :: payloads) tail ∧
      (decryptInitialDatagram cipher datagram = some (.ok ((payload :: payloads).flatMap cryptoFragments)) ↔
        (payload :: payloads).flatMap cryptoFragments ≠ [] ∨ tail = []) := by
  obtain ⟨payloads, tail, hr⟩ := (show ∃ payloads tail, Leading cipher rest payloads tail from exists_leading rest)
  have hl := Leading.initial datagram payload rest tail payloads h hr
  obtain ⟨e, he⟩ := decryptPackets_leading hl (by simp) (Nat.lt_succ_self _) []
  refine ⟨payloads, tail, hl, ?_⟩
  rw [decryptInitialDatagram, he, nil_append]
  split_ifs with hlo
  · simp only [reduceCtorEq, Option.some.injEq, false_iff]
    tauto
  · simp only [true_iff]
    tauto

def plainCipher : Cipher where
  derive _ _ := ⟨Vector.replicate 16 0, Vector.replicate 12 0, Vector.replicate 16 0⟩
  encryptBlock _ _ := Vector.replicate 16 0
  openSealed _ _ _ ciphertext := some (ciphertext.take (ciphertext.length - gcmTagLen))

def plainInitial (payload : List Byte) : List Byte :=
  [0xc0, 0, 0, 0, 1, 0, 0, 0, BitVec.ofNat 8 (17 + payload.length), 0] ++ payload ++ List.replicate 16 0

theorem opens_plainInitial (h : ((parseLongHeader (plainInitial payload ++ rest)).map fun hdr => (hdr.version, hdr.dcid, hdr.packetEnd)) =
      some (1, [], (plainInitial payload).length)) (hd : ((parseLongHeader (plainInitial payload ++ rest)).bind fun hdr =>
      decryptInitial plainCipher (plainCipher.derive 1 []) (plainInitial payload ++ rest) hdr) = some (0, payload)) :
    Opens plainCipher (plainInitial payload ++ rest) payload rest := by
  obtain ⟨hdr, hpa, hf⟩ := map_eq_some_iff.mp h
  simp only [Prod.mk.injEq] at hf
  rw [hpa, bind_some] at hd
  refine ⟨hdr, plainCipher.derive 1 [], 0, hpa, ?_, hd, ?_⟩
  · rw [hf.1, hf.2.1]
    rfl
  · rw [hf.2.2, drop_left]

theorem decryptInitialDatagram_iff_crypto :
    ∃ payloads tail, Leading plainCipher (plainInitial [6, 0, 1, 7] ++ [0xff]) ([6, 0, 1, 7] :: payloads) tail ∧
      (decryptInitialDatagram plainCipher (plainInitial [6, 0, 1, 7] ++ [0xff]) =
        some (.ok (([6, 0, 1, 7] :: payloads).flatMap cryptoFragments)) ↔
        ([6, 0, 1, 7] :: payloads).flatMap cryptoFragments ≠ [] ∨ tail = []) :=
  decryptInitialDatagram_iff plainCipher _ [6, 0, 1, 7] [0xff]
    (opens_plainInitial (by decide +kernel) (by decide +kernel))

/-- Only padding in the Initial, and one byte behind it. -/
theorem decryptInitialDatagram_padding : Opens plainCipher (plainInitial [0, 0, 0] ++ [0xff]) [0, 0, 0] [0xff] ∧
      decryptInitialDatagram plainCipher (plainInitial [0, 0, 0] ++ [0xff]) = some (.error .notInitial) :=
  ⟨opens_plainInitial (by decide +kernel) (by decide +kernel), by decide +kernel⟩

end Honk.Quic
