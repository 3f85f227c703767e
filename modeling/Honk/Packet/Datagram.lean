import Honk.Lib.OnesComplement
import Honk.Packet.Netlink

namespace Honk.Packet

open Honk.Lib Honk.Routing Honk.Nfqueue
open List hiding Vector

section

theorem checksumWords_eq_sum : checksumWords bytes = (words16 bytes).sum := by
  induction bytes using words16.induct with
  | case1 => rfl
  | case2 last => simp [checksumWords, words16]
  | case3 hi lo bytes ih =>
    have hl := lo.isLt
    have hw : (be16 hi lo).toNat = hi.toNat * 256 + lo.toNat := by
      rw [be16, BitVec.toNat_append, Nat.shiftLeft_eq, Nat.mul_comm, ← Nat.two_pow_add_eq_or_of_lt hl]
    rw [checksumWords, words16, sum_cons, ih, hw]

def udpSum (packet : List Byte) (offset packetEnd : ℕ) : ℕ :=
  let addresses := if packet.getD 0 0 >>> 4 = 4 then (packet.take 20).drop 12 else (packet.take 40).drop 8
  checksumWords addresses + ipprotoUdp.toNat + (packetEnd - offset) + checksumWords ((packet.take packetEnd).drop offset)

variable {packet : List Byte} {offset packetEnd n : ℕ}

section

variable (h : packetEnd - offset < 65536)
include h

theorem udpSum_lt : udpSum packet offset packetEnd < 2 ^ 32 := by
  have ha : ∀ a b, b - a ≤ 32 → checksumWords ((packet.take b).drop a) ≤ 65535 * 16 := by
    intro a b hab
    have hs := sum_words16_le ((packet.take b).drop a)
    rw [← checksumWords_eq_sum, length_drop, length_take] at hs
    omega
  have hu := sum_words16_le ((packet.take packetEnd).drop offset)
  rw [← checksumWords_eq_sum, length_drop, length_take] at hu
  have h4 := ha 12 20 (by omega)
  have h6 := ha 8 40 (by omega)
  have hpr : ipprotoUdp.toNat = 17 := rfl
  simp only [udpSum, hpr]
  split_ifs <;> omega

theorem udpChecksum_eq_foldCarries :
    udpChecksum packet offset packetEnd = ~~~ BitVec.ofNat 16 (foldCarries (udpSum packet offset packetEnd)) := by
  rw [← foldRound_thrice (udpSum_lt h)]
  rfl

theorem udpChecksum_eq_zero_iff : udpChecksum packet offset packetEnd = 0 ↔ onesResidue (udpSum packet offset packetEnd) = 65535 := by
  have hl := onesResidue_le (udpSum packet offset packetEnd)
  rw [udpChecksum_eq_foldCarries h, foldCarries_eq_onesResidue, BitVec.not_eq_comm, ← BitVec.toNat_inj, BitVec.toNat_ofNat]
  simp only [BitVec.ofNat_eq_ofNat, BitVec.toNat_not, BitVec.toNat_ofNat]
  omega

end

def pseudoHeader : IpAddr → IpAddr → ℕ → List Byte
  | .v4 source, .v4 destination, length => source.toList ++ destination.toList ++ [0, ipprotoUdp] ++ beBytes 2 length
  | .v6 source, .v6 destination, length => source.toList ++ destination.toList ++ beBytes 4 length ++ [0, 0, 0, ipprotoUdp]
  | _, _, _ => []

theorem octets_toList (h : offset + n ≤ packet.length) : (octets packet n offset).toList = (packet.drop offset).take n := by
  apply ext_getElem
  · simp only [Vector.length_toList, length_take, length_drop]
    omega
  intro i hi hi'
  have hin : i < n := by simpa using hi
  simp [octets, getElem?_eq_getElem (show offset + i < packet.length by omega)]

theorem addresses_toList (h : offset + n + n ≤ packet.length) :
    (octets packet n offset).toList ++ (octets packet n (offset + n)).toList = (packet.take (offset + n + n)).drop offset := by
  rw [octets_toList (by omega), octets_toList h, drop_take, ← drop_drop, ← take_add]
  congr 1
  omega

theorem sum_words16_append {as : List Byte} (h : 2 ∣ as.length) : (words16 (as ++ bs)).sum = (words16 as).sum + (words16 bs).sum := by
  rw [words16_append bs h, sum_append]

theorem sum_words16_fields {addresses fields data : List Byte} {length : ℕ} (he : 2 ∣ addresses.length)
    (hf : 2 ∣ fields.length) (hs : (words16 fields).sum = 17 + length) :
    (words16 (addresses ++ fields ++ data)).sum = checksumWords addresses + ipprotoUdp.toNat + length + checksumWords data := by
  simp only [checksumWords_eq_sum]
  rw [append_assoc, sum_words16_append he, sum_words16_append hf, hs, show ipprotoUdp.toNat = 17 from rfl]
  omega

theorem sum_pseudoHeader_v4 (hv : packet.getD 0 0 >>> 4 = 4) (hl : 20 ≤ packet.length) (hu : packet.length - offset < 65536) :
    (words16 (pseudoHeader (.v4 (octets packet 4 12)) (.v4 (octets packet 4 16)) (packet.length - offset) ++
      packet.drop offset)).sum = udpSum packet offset packet.length := by
  have ha : (octets packet 4 12).toList ++ (octets packet 4 16).toList = (packet.take 20).drop 12 := addresses_toList hl
  simp only [pseudoHeader, ha, udpSum, if_pos hv, take_length]
  rw [append_assoc ((packet.take 20).drop 12)]
  refine sum_words16_fields ?_ (by simp) ?_
  · simp only [length_drop, length_take]
    omega
  · simp [beBytes, leBytes, words16, ipprotoUdp]
    omega

theorem sum_pseudoHeader_v6 (hv : packet.getD 0 0 >>> 4 = 6) (hl : 40 ≤ packet.length) (hu : packet.length - offset < 65536) :
    (words16 (pseudoHeader (.v6 (octets packet 16 8)) (.v6 (octets packet 16 24)) (packet.length - offset) ++
      packet.drop offset)).sum = udpSum packet offset packet.length := by
  have ha : (octets packet 16 8).toList ++ (octets packet 16 24).toList = (packet.take 40).drop 8 := addresses_toList hl
  have hs : ¬ packet.getD 0 0 >>> 4 = 4 := by
    rw [hv]
    decide
  simp only [pseudoHeader, ha, udpSum, if_neg hs, take_length]
  rw [append_assoc ((packet.take 40).drop 8)]
  refine sum_words16_fields ?_ (by simp) ?_
  · simp only [length_drop, length_take]
    omega
  · simp [beBytes, leBytes, words16, ipprotoUdp]
    omega

end

section

/-- Behind `n` extension headers that lie before `stop`, none of them of a fragment of several, the UDP header is
at `o`. -/
inductive ExtensionChain (packet : List Byte) (stop : ℕ) : ℕ → Byte → ℕ → ℕ → Prop
  | udp (offset : ℕ) : ExtensionChain packet stop 0 ipprotoUdp offset offset
  | options (n offset o : ℕ) (nextHeader : Byte)
      (hnext : nextHeader = ipprotoHopopts ∨ nextHeader = ipprotoRouting ∨ nextHeader = ipprotoDstopts)
      (hfits : offset + ipv6Optlen (packet.getD (offset + 1) 0) ≤ stop)
      (h : ExtensionChain packet stop n (packet.getD offset 0) (offset + ipv6Optlen (packet.getD (offset + 1) 0)) o) :
      ExtensionChain packet stop (n + 1) nextHeader offset o
  | atomicFragment (n offset o : ℕ) (hfits : offset + 8 ≤ stop) (hoffset : at16 packet (offset + 2) &&& 0xfff8 = 0)
      (hmore : at16 packet (offset + 2) &&& 1 = 0)
      (h : ExtensionChain packet stop n (packet.getD offset 0) (offset + 8) o) :
      ExtensionChain packet stop (n + 1) ipprotoFragment offset o
  | authentication (n offset o : ℕ) (hfits : offset + ((packet.getD (offset + 1) 0).toNat + 2) * 4 ≤ stop)
      (h : ExtensionChain packet stop n (packet.getD offset 0)
        (offset + ((packet.getD (offset + 1) 0).toNat + 2) * 4) o) :
      ExtensionChain packet stop (n + 1) ipprotoAh offset o

theorem skipExtension_ok_iff (packet : List Byte) (stop offset : ℕ) (length : Byte → ℕ)
    (hl : ∀ b, 2 ≤ length b) (next : Byte) (o : ℕ) : skipExtension packet stop offset length = .ok (next, o) ↔
      offset + length (packet.getD (offset + 1) 0) ≤ stop ∧ next = packet.getD offset 0 ∧
        o = offset + length (packet.getD (offset + 1) 0) := by
  have ht := hl (packet.getD (offset + 1) 0)
  rw [skipExtension]
  split_ifs with hh hb
  · simp only [false_iff]
    omega
  · simp only [false_iff]
    omega
  simp only [Except.ok.injEq, Prod.mk.injEq]
  constructor
  · rintro ⟨rfl, rfl⟩
    exact ⟨by omega, rfl, rfl⟩
  · rintro ⟨-, rfl, rfl⟩
    exact ⟨rfl, rfl⟩

theorem two_le_ipv6Optlen (b : Byte) : 2 ≤ ipv6Optlen b := by
  rw [ipv6Optlen]
  omega

variable {packet : List Byte} {stop n offset o rounds : ℕ} {nextHeader : Byte}

theorem ExtensionChain.walk (h : ExtensionChain packet stop n nextHeader offset o) (hn : n ≤ rounds) :
    udpHeaderFrom packet stop rounds nextHeader offset none = .ok (o, none) := by
  induction h generalizing rounds with
  | udp offset => cases rounds <;> rfl
  | options n offset o nextHeader hnext hf h ih =>
    obtain ⟨rounds, rfl⟩ : ∃ r, rounds = r + 1 := ⟨rounds - 1, by omega⟩
    have hne : nextHeader ≠ ipprotoUdp := by rcases hnext with rfl | rfl | rfl <;> decide
    have hs := (skipExtension_ok_iff packet stop offset ipv6Optlen two_le_ipv6Optlen _ _).mpr ⟨hf, rfl, rfl⟩
    rw [udpHeaderFrom, if_neg hne, if_pos hnext, hs]
    exact ih (by omega)
  | atomicFragment n offset o hf ho hm h ih =>
    obtain ⟨rounds, rfl⟩ : ∃ r, rounds = r + 1 := ⟨rounds - 1, by omega⟩
    rw [udpHeaderFrom, if_neg (by decide), if_neg (by decide), if_pos rfl, if_neg (by omega)]
    dsimp only
    rw [if_neg (not_not.mpr ho), if_neg (not_not.mpr hm)]
    exact ih (by omega)
  | authentication n offset o hf h ih =>
    obtain ⟨rounds, rfl⟩ : ∃ r, rounds = r + 1 := ⟨rounds - 1, by omega⟩
    have hs := (skipExtension_ok_iff packet stop offset (fun length => (length.toNat + 2) * 4)
      (fun length => by omega) _ _).mpr ⟨hf, rfl, rfl⟩
    rw [udpHeaderFrom, if_neg (by decide), if_neg (by decide), if_neg (by decide), if_pos rfl, hs]
    exact ih (by omega)

theorem exists_extensionChain (h : udpHeaderFrom packet stop rounds nextHeader offset error = .ok (o, none)) :
    error = none ∧ ∃ n ≤ rounds, ExtensionChain packet stop n nextHeader offset o := by
  induction rounds generalizing nextHeader offset error with
  | zero =>
    rw [udpHeaderFrom] at h
    split_ifs at h with hu
    cases h
    exact ⟨rfl, 0, le_rfl, hu ▸ .udp _⟩
  | succ rounds ih =>
    rw [udpHeaderFrom] at h
    split_ifs at h with hu hne hf hfi ha
    · cases h
      exact ⟨rfl, 0, Nat.zero_le _, hu ▸ .udp _⟩
    · obtain ⟨⟨next, o'⟩, hs, hr⟩ := bind_eq_ok.mp h
      obtain ⟨hfi, rfl, rfl⟩ := (skipExtension_ok_iff _ _ _ _ two_le_ipv6Optlen _ _).mp hs
      obtain ⟨rfl, n, hn, hc⟩ := ih hr
      exact ⟨rfl, n + 1, by omega, .options n offset o nextHeader hne hfi hc⟩
    · dsimp only at h
      split_ifs at h with ho hm
      · exact absurd (ih h).1 (by simp)
      obtain ⟨rfl, n, hn, hc⟩ := ih h
      rw [hf]
      exact ⟨rfl, n + 1, by omega, .atomicFragment n offset o (not_lt.mp hfi) (not_not.mp ho) (not_not.mp hm) hc⟩
    obtain ⟨⟨next, o'⟩, hs, hr⟩ := bind_eq_ok.mp h
    obtain ⟨hfi, rfl, rfl⟩ := (skipExtension_ok_iff _ _ _ _ (fun length => by omega) _ _).mp hs
    obtain ⟨rfl, n, hn, hc⟩ := ih hr
    rw [ha]
    exact ⟨rfl, n + 1, by omega, .authentication n offset o hfi hc⟩

theorem ExtensionChain.le (h : ExtensionChain packet stop n nextHeader offset o) : offset ≤ o := by
  induction h <;> omega

end

section

section

variable (packet : List Byte)

/-- An IPv4 packet that is no fragment, with a UDP header at `offset`. -/
structure Ipv4Whole (offset : ℕ) : Prop where
  header : 20 ≤ packet.length
  version : packet.getD 0 0 >>> 4 = 4
  headerLength : offset = (packet.getD 0 0 &&& 0x0f).toNat * 4
  minimal : 20 ≤ offset
  totalLength : (at16 packet 2).toNat = packet.length
  first : at16 packet 6 &&& 0x1fff = 0
  last : at16 packet 6 &&& 0x2000 = 0
  protocol : packet.getD 9 0 = ipprotoUdp

/-- An IPv6 packet that is no fragment, with a UDP header at `offset` behind `n` extension headers. -/
structure Ipv6Whole (n offset : ℕ) : Prop where
  version : packet.getD 0 0 >>> 4 = 6
  totalLength : 40 + (at16 packet 4).toNat = packet.length
  chain : ExtensionChain packet packet.length n (packet.getD 6 0) 40 offset

inductive CarriesUdp (packet : List Byte) : ℕ → IpAddr → IpAddr → ℕ → Prop
  | v4 (offset : ℕ) (h : Ipv4Whole packet offset) : CarriesUdp packet 0 (.v4 (octets packet 4 12)) (.v4 (octets packet 4 16)) offset
  | v6 (n offset : ℕ) (h : Ipv6Whole packet n offset) :
      CarriesUdp packet n (.v6 (octets packet 16 8)) (.v6 (octets packet 16 24)) offset

def udpLength (offset : ℕ) : ℕ := (at16 packet (offset + 4)).toNat

def ChecksumHolds (source destination : IpAddr) (offset : ℕ) (checksumNotReady : Bool) : Prop :=
  checksumNotReady = true ∨ if at16 packet (offset + 6) = 0 then isIpv6 source = false
    else onesSum (words16 (pseudoHeader source destination (udpLength packet offset) ++
      (packet.drop offset).take (udpLength packet offset))) = 0xffff

/-- A UDP header at `offset` whose length ends with the packet. -/
structure UdpWhole (source destination : IpAddr) (offset : ℕ) (checksumNotReady : Bool) : Prop where
  header : offset + 8 ≤ packet.length
  length : offset + udpLength packet offset = packet.length
  checksum : ChecksumHolds packet source destination offset checksumNotReady

def udpTuple (source destination : IpAddr) (offset : ℕ) : FlowKey :=
  ⟨⟨source, at16 packet offset⟩, ⟨destination, at16 packet (offset + 2)⟩⟩

end

variable {packet : List Byte} {offset start stop : ℕ} {source destination : IpAddr} {checksumNotReady : Bool} {tuple : FlowKey}

theorem checksumHolds_iff (hl : offset + udpLength packet offset = packet.length) (hsu : packet.length - offset < 65536 →
      (words16 (pseudoHeader source destination (packet.length - offset) ++ packet.drop offset)).sum =
        udpSum packet offset packet.length) :
    ChecksumHolds packet source destination offset checksumNotReady ↔
      (!checksumNotReady && (if at16 packet (offset + 6) = 0 then isIpv6 source
        else udpChecksum packet offset packet.length != 0)) = false := by
  have hlt : packet.length - offset < 65536 := by
    have := (at16 packet (offset + 4)).isLt
    rw [udpLength] at hl
    omega
  have hd : udpLength packet offset = packet.length - offset := by omega
  have hs : (packet.drop offset).take (udpLength packet offset) = packet.drop offset := take_of_length_le (by rw [length_drop, hd])
  rw [ChecksumHolds, hs, hd, onesSum_eq_onesResidue words16_lt, hsu hlt, ← udpChecksum_eq_zero_iff hlt]
  cases checksumNotReady <;> split_ifs <;> simp

theorem parseUdp_eq_ok_iff (hsu : packet.length - offset < 65536 →
      (words16 (pseudoHeader source destination (packet.length - offset) ++ packet.drop offset)).sum =
        udpSum packet offset packet.length) :
    parseUdp packet offset packet.length source destination checksumNotReady = .ok ⟨tuple, .ok (start, stop)⟩ ↔
      UdpWhole packet source destination offset checksumNotReady ∧
        tuple = udpTuple packet source destination offset ∧ start = offset + 8 ∧ stop = packet.length := by
  have hr : udpPayloadRange packet offset packet.length source checksumNotReady = .ok (start, stop) ↔
      8 ≤ udpLength packet offset ∧ offset + udpLength packet offset = packet.length ∧
        ChecksumHolds packet source destination offset checksumNotReady ∧ start = offset + 8 ∧ stop = packet.length := by
    rw [udpPayloadRange, ← udpLength]
    by_cases hl : udpLength packet offset < 8 ∨ offset + udpLength packet offset ≠ packet.length ∨ packet.length < packet.length
    · rw [if_pos hl]
      simp only [reduceCtorEq, false_iff]
      omega
    have he : offset + udpLength packet offset = packet.length := by omega
    rw [if_neg hl, checksumHolds_iff he hsu]
    by_cases hc : (!checksumNotReady && (if at16 packet (offset + 6) = 0 then isIpv6 source
        else udpChecksum packet offset packet.length != 0)) = true
    · rw [if_pos hc, hc]
      simp
    rw [if_neg hc]
    rw [Bool.not_eq_true] at hc
    simp only [Except.ok.injEq, Prod.mk.injEq]
    constructor
    · rintro ⟨rfl, rfl⟩
      exact ⟨by omega, he, hc, rfl, rfl⟩
    · rintro ⟨-, -, -, rfl, rfl⟩
      exact ⟨rfl, rfl⟩
  rw [parseUdp, min_self]
  split_ifs with hh
  · simp only [false_iff]
    rintro ⟨hu, -⟩
    have := hu.header
    omega
  simp only [Except.ok.injEq, ParsedUdp.mk.injEq, hr]
  constructor
  · rintro ⟨rfl, -, hl, hc, hs, hst⟩
    exact ⟨⟨by omega, hl, hc⟩, rfl, hs, hst⟩
  · rintro ⟨⟨-, hl, hc⟩, rfl, hs, hst⟩
    exact ⟨rfl, by omega, hl, hc, hs, hst⟩

theorem parseIpv4Udp_eq_ok_iff : parseIpv4Udp packet checksumNotReady = .ok ⟨tuple, .ok (start, stop)⟩ ↔ ∃ offset, Ipv4Whole packet offset ∧
        UdpWhole packet (.v4 (octets packet 4 12)) (.v4 (octets packet 4 16)) offset checksumNotReady ∧
        tuple = udpTuple packet (.v4 (octets packet 4 12)) (.v4 (octets packet 4 16)) offset ∧
        start = offset + 8 ∧ stop = packet.length := by
  constructor
  · intro h
    simp only [parseIpv4Udp] at h
    split_ifs at h with hv hh hpr hf ht
    all_goals obtain ⟨parsed, hparsed, hpa⟩ := map_eq_ok h
    · simp at hpa
    · simp at hpa
    simp only [not_or, not_lt, not_not] at hv hh hpr hf ht
    rw [ht, hpa, parseUdp_eq_ok_iff (sum_pseudoHeader_v4 hv.2 hv.1)] at hparsed
    exact ⟨_, ⟨hv.1, hv.2, rfl, hh.1, ht, hpr.1, hf, hpr.2⟩, hparsed⟩
  rintro ⟨offset, hw, hu⟩
  have hfi := hu.1.header
  have ho := hw.headerLength
  have hm := hw.minimal
  have hparse := (parseUdp_eq_ok_iff (sum_pseudoHeader_v4 hw.version hw.header)).mpr hu
  simp only [parseIpv4Udp, ← ho, hw.totalLength]
  rw [if_neg (not_or.mpr ⟨not_lt.mpr hw.header, not_not.mpr hw.version⟩), if_neg (by omega),
    if_neg (not_or.mpr ⟨not_not.mpr hw.first, not_not.mpr hw.protocol⟩), hparse]
  simp only [Except.map, hw.last, ne_eq, not_true_eq_false, if_false]

theorem parseIpv6Udp_eq_ok_iff : parseIpv6Udp packet checksumNotReady = .ok ⟨tuple, .ok (start, stop)⟩ ↔
      ∃ n ≤ 16, ∃ offset, Ipv6Whole packet n offset ∧
        UdpWhole packet (.v6 (octets packet 16 8)) (.v6 (octets packet 16 24)) offset checksumNotReady ∧
        tuple = udpTuple packet (.v6 (octets packet 16 8)) (.v6 (octets packet 16 24)) offset ∧
        start = offset + 8 ∧ stop = packet.length := by
  constructor
  · intro h
    simp only [parseIpv6Udp] at h
    split_ifs at h with hv hpayload ht
    all_goals
      obtain ⟨⟨offset, fragmentError⟩, hwa, hr⟩ := bind_eq_ok.mp h
      obtain ⟨parsed, hparsed, hpa⟩ := map_eq_ok hr
    · cases fragmentError <;> simp at hpa
    cases fragmentError with
    | some error => simp at hpa
    | none =>
      simp only [not_or, not_lt, not_not] at hv ht hpa
      rw [ht, min_self] at hwa
      rw [ht, hpa, parseUdp_eq_ok_iff (sum_pseudoHeader_v6 hv.2 (by omega))] at hparsed
      obtain ⟨-, n, hn, hc⟩ := exists_extensionChain hwa
      exact ⟨n, hn, offset, ⟨hv.2, ht, hc⟩, hparsed⟩
  rintro ⟨n, hn, offset, hw, hu⟩
  have hf := hu.1.header
  have hl := hw.chain.le
  have ht := hw.totalLength
  have hparse := (parseUdp_eq_ok_iff (sum_pseudoHeader_v6 hw.version (by omega))).mpr hu
  simp only [parseIpv6Udp, ht, min_self]
  rw [if_neg (not_or.mpr ⟨by omega, not_not.mpr hw.version⟩), if_neg (by omega), hw.chain.walk hn]
  refine bind_eq_ok.mpr ⟨(offset, none), rfl, ?_⟩
  rw [hparse]
  exact congrArg Except.ok (if_neg (not_not.mpr rfl))

def addressFamily (source : IpAddr) : Byte := if isIpv6 source then afInet6 else afInet

theorem parseLayerThree_eq_ok_iff (hf : family = afInet ∨ family = afInet6) :
    parseLayerThree family packet checksumNotReady = .ok ⟨tuple, .ok (start, stop)⟩ ↔
      ∃ n ≤ 16, ∃ source destination offset, CarriesUdp packet n source destination offset ∧
        family = addressFamily source ∧ UdpWhole packet source destination offset checksumNotReady ∧
        tuple = udpTuple packet source destination offset ∧ start = offset + 8 ∧ stop = packet.length := by
  constructor
  · intro h
    cases packet with
    | nil => cases h
    | cons first bytes =>
      rw [parseLayerThree] at h
      split_ifs at h with hm hfo hs
      · obtain ⟨offset, hw, hu⟩ := parseIpv4Udp_eq_ok_iff.mp h
        have hin : family = afInet := hf.resolve_right fun hin6 => hm (.inr ⟨hin6, by rw [hfo]; decide⟩)
        exact ⟨0, Nat.zero_le _, _, _, offset, .v4 offset hw, hin, hu⟩
      obtain ⟨n, hn, offset, hw, hu⟩ := parseIpv6Udp_eq_ok_iff.mp h
      have hin6 : family = afInet6 := hf.resolve_left fun hin => hm (.inl ⟨hin, hfo⟩)
      exact ⟨n, hn, _, _, offset, .v6 n offset hw, hin6, hu⟩
  rintro ⟨n, hn, source, destination, offset, hc, rfl, hu⟩
  cases packet with
  | nil => exact absurd hu.1.header (by simp)
  | cons first bytes =>
    cases hc with
    | v4 _ hw =>
      have hv : first >>> 4 = 4 := hw.version
      simp only [parseLayerThree, hv]
      exact parseIpv4Udp_eq_ok_iff.mpr ⟨offset, hw, hu⟩
    | v6 _ _ hw =>
      have hv : first >>> 4 = 6 := hw.version
      simp only [parseLayerThree, hv]
      exact parseIpv6Udp_eq_ok_iff.mpr ⟨n, hn, offset, hw, hu⟩

end

/-- A message with a packet captured whole, its id and its mark. -/
structure Envelope (body : List Byte) (slots : Slots) (packetId mark : BitVec 32) (packet : List Byte) : Prop where
  header : nfgenmsgLen ≤ body.length
  read : readAttributes (attributes (body.drop nfgenmsgLen)) {} = .ok slots
  packetId_eq : slots.packetId = some packetId
  mark_eq : slots.mark = some mark
  payload_eq : slots.payload = some packet
  captured : ∀ length, slots.captureLength = some length → length = packet.length

def Slots.checksumNotReady (slots : Slots) : Bool := slots.skbInfo.getD 0 &&& nfqaSkbCsumnotready != 0

variable {slots : Slots} {mark : BitVec 32} {payload : List Byte} {receivedAt arrival : ℕ} {tuple : FlowKey}
  {priority : Option (BitVec 32)}

theorem packetEvent_datagram_iff : packetEvent slots mark packet receivedAt parsed = .datagram tuple payload mark' priority arrival ↔
      (∀ length, slots.captureLength = some length → length ≤ packet.length) ∧
      ∃ start stop, parsed = ⟨tuple, .ok (start, stop)⟩ ∧ payload = (packet.take stop).drop start ∧ mark = mark' ∧
        priority = slots.priority ∧ arrival = receivedAt := by
  obtain ⟨found, range⟩ := parsed
  have ho (start stop : ℕ) : PacketEvent.datagram found ((packet.take stop).drop start) mark slots.priority receivedAt =
        .datagram tuple payload mark' priority arrival ↔
      ∃ start' stop', (found = tuple ∧ start = start' ∧ stop = stop') ∧ payload = (packet.take stop').drop start' ∧
        mark = mark' ∧ priority = slots.priority ∧ arrival = receivedAt := by
    rw [PacketEvent.datagram.injEq]
    constructor
    · rintro ⟨rfl, rfl, rfl, rfl, rfl⟩
      exact ⟨start, stop, ⟨rfl, rfl, rfl⟩, rfl, rfl, rfl, rfl⟩
    · rintro ⟨_, _, ⟨rfl, rfl, rfl⟩, rfl, rfl, rfl, rfl⟩
      exact ⟨rfl, rfl, rfl, rfl, rfl⟩
  simp only [packetEvent, ParsedUdp.mk.injEq]
  cases slots.captureLength with
  | none =>
    cases range with
    | error error => simp
    | ok bounds =>
      simp only [reduceCtorEq, false_implies, implies_true, true_and, Except.ok.injEq, Prod.ext_iff]
      exact ho bounds.1 bounds.2
  | some captured =>
    by_cases hl : packet.length < captured
    · simp [hl]
    cases range with
    | error error => simp [hl]
    | ok bounds =>
      simp only [if_neg hl, Option.some.injEq, forall_eq', not_lt.mp hl, true_and, Except.ok.injEq, Prod.ext_iff]
      exact ho bounds.1 bounds.2

theorem parseSlots_datagram_iff : parseSlots family receivedAt slots = .ok ⟨packetId, .datagram tuple payload mark priority arrival⟩ ↔
      ∃ packet, slots.packetId = some packetId ∧ slots.mark = some mark ∧ slots.payload = some packet ∧
        (∀ length, slots.captureLength = some length → length = packet.length) ∧
        ∃ start stop, parseLayerThree family packet slots.checksumNotReady = .ok ⟨tuple, .ok (start, stop)⟩ ∧
          payload = (packet.take stop).drop start ∧ priority = slots.priority ∧ arrival = receivedAt := by
  constructor
  · intro h
    rw [parseSlots] at h
    cases hid : slots.packetId with
    | none => simp [hid] at h
    | some id =>
    cases hma : slots.mark with
    | none => simp [hid, hma] at h
    | some mark' =>
    cases hpa : slots.payload with
    | none => simp [hid, hma, hpa] at h
    | some packet =>
    simp only [hid, hma, hpa] at h
    split at h
    · cases h
    rename_i hf
    obtain ⟨parsed, hparse, hm⟩ := map_eq_ok h
    rw [ParsedMessage.mk.injEq] at hm
    obtain ⟨rfl, he⟩ := hm
    obtain ⟨hc, start, stop, rfl, rfl, rfl, rfl, rfl⟩ := packetEvent_datagram_iff.mp he
    refine ⟨packet, rfl, rfl, rfl, fun length hl => ?_, start, stop, hparse, rfl, rfl, rfl⟩
    have hn := Option.filter_eq_none_iff.mp hf length hl
    have hle := hc length hl
    simp only [decide_eq_true_eq, not_lt] at hn
    omega
  rintro ⟨packet, hid, hma, hpa, hc, start, stop, hparse, rfl, rfl, rfl⟩
  have hf : (slots.captureLength.filter fun captured => decide (captured < packet.length)) = none := by
    rw [Option.filter_eq_none_iff]
    intro length hl
    simp [hc length hl]
  simp only [parseSlots, hid, hma, hpa, hf]
  change (parseLayerThree family packet slots.checksumNotReady).map _ = _
  rw [hparse]
  refine congrArg Except.ok (congrArg (ParsedMessage.mk packetId) ?_)
  exact packetEvent_datagram_iff.mpr ⟨fun length hl => (hc length hl).le, start, stop, rfl, rfl, rfl, rfl, rfl⟩

/-- A message is read as a datagram exactly when the packet in it is a whole UDP packet whose lengths agree and
whose checksum holds; the payload is what the UDP header declares. Where a checksum is computed, the accumulator
stays below 2^32 and all its carries are folded. -/
theorem datagram_parsing (body : List Byte) (receivedAt : ℕ) (packetId mark : BitVec 32) (tuple : FlowKey)
    (payload : List Byte) (priority : Option (BitVec 32)) (arrival : ℕ) :
    (parsePacketMessage body receivedAt = .ok ⟨packetId, .datagram tuple payload mark priority arrival⟩ ↔
      ∃ slots packet, Envelope body slots packetId mark packet ∧
        ∃ n ≤ 16, ∃ source destination offset, CarriesUdp packet n source destination offset ∧
          body.getD 0 0 = addressFamily source ∧ UdpWhole packet source destination offset slots.checksumNotReady ∧
          tuple = udpTuple packet source destination offset ∧
          payload = (packet.drop (offset + 8)).take (udpLength packet offset - 8) ∧
          priority = slots.priority ∧ arrival = receivedAt) ∧
    ∀ packet offset packetEnd, offset + udpLength packet offset = packetEnd → udpSum packet offset packetEnd < 2 ^ 32 ∧
        udpChecksum packet offset packetEnd = ~~~ BitVec.ofNat 16 (foldCarries (udpSum packet offset packetEnd)) := by
  have hpayload {packet : List Byte} {source destination : IpAddr} {offset : ℕ} {checksumNotReady : Bool}
      (hu : UdpWhole packet source destination offset checksumNotReady) :
      (packet.take packet.length).drop (offset + 8) = (packet.drop (offset + 8)).take (udpLength packet offset - 8) := by
    have hl := hu.length
    rw [take_length, take_of_length_le]
    rw [length_drop]
    omega
  refine ⟨?_, ?_⟩
  · constructor
    · intro h
      simp only [parsePacketMessage] at h
      split_ifs at h with hh hf
      obtain ⟨slots, hr, hs⟩ := bind_eq_ok.mp h
      obtain ⟨packet, hid, hm, hpacket, hca, start, stop, hpa, rfl, rfl, rfl⟩ := parseSlots_datagram_iff.mp hs
      obtain ⟨n, hn, source, destination, offset, hc, hso, hu, rfl, rfl, rfl⟩ := (parseLayerThree_eq_ok_iff (by tauto)).mp hpa
      exact ⟨slots, packet, ⟨not_lt.mp hh, hr, hid, hm, hpacket, hca⟩, n, hn, source, destination, offset,
        hc, hso, hu, rfl, hpayload hu, rfl, rfl⟩
    · rintro ⟨slots, packet, he, n, hn, source, destination, offset, hc, hf, hu, rfl, rfl, rfl, rfl⟩
      have hin : body.getD 0 0 = afInet ∨ body.getD 0 0 = afInet6 := by
        rw [hf, addressFamily]
        split_ifs <;> simp
      have hpa := (parseLayerThree_eq_ok_iff hin).mpr ⟨n, hn, source, destination, offset, hc, hf, hu, rfl, rfl, rfl⟩
      rw [parsePacketMessage, if_neg (not_lt.mpr he.header)]
      dsimp only
      rw [if_neg (by tauto), he.read]
      exact parseSlots_datagram_iff.mpr ⟨packet, he.packetId_eq, he.mark_eq, he.payload_eq, he.captured,
        _, _, hpa, (hpayload hu).symm, rfl, rfl⟩
  intro packet offset packetEnd hl
  have hlt : packetEnd - offset < 65536 := by
    have := (at16 packet (offset + 4)).isLt
    rw [udpLength] at hl
    omega
  exact ⟨udpSum_lt hlt, udpChecksum_eq_foldCarries hlt⟩

def envelopeBody (family : Byte) (packet : List Byte) : List Byte :=
  [family, 0, 1, 64] ++ Netlink.attributeBytes
    [⟨nfqaPacketHdr, [0, 0, 0, 9, 8, 0, 0]⟩, ⟨nfqaMark, [0, 0, 0, 5]⟩, ⟨nfqaPayload, packet⟩]

def oddDatagram : List Byte :=
  [0x45, 0, 0, 29, 0, 0, 0, 0, 64, 17, 0x34, 0xc7, 10, 0, 0, 2, 203, 0, 113, 7] ++ [0x30, 0x39, 0, 53, 0, 9, 0x0f, 0x64, 0x7a]

theorem envelope_sample (h : readAttributes (attributes ((envelopeBody family packet).drop nfgenmsgLen)) {} =
      .ok { packetId := some 9, mark := some 5, payload := some packet }) :
    Envelope (envelopeBody family packet) { packetId := some 9, mark := some 5, payload := some packet } 9 5 packet where
  header := by simp [envelopeBody, nfgenmsgLen]
  read := h
  packetId_eq := rfl
  mark_eq := rfl
  payload_eq := rfl
  captured := by simp

theorem datagram_parsing_odd : parsePacketMessage (envelopeBody afInet oddDatagram) 3 = .ok ⟨9, .datagram
      (udpTuple oddDatagram (.v4 (octets oddDatagram 4 12)) (.v4 (octets oddDatagram 4 16)) 20) [0x7a] 5 none 3⟩ ∧
    udpSum oddDatagram 20 29 < 2 ^ 32 := by
  refine ⟨(datagram_parsing _ 3 9 5 _ [0x7a] none 3).1.mpr
    ⟨_, oddDatagram, envelope_sample (by decide +kernel), 0, by decide, _, _, 20,
      .v4 20 ⟨by decide, by decide, by decide, by decide, by decide, by decide, by decide, by decide⟩, rfl,
      ⟨by decide, by decide, .inr (by decide +kernel)⟩, rfl, by decide, rfl, rfl⟩, ?_⟩
  exact ((datagram_parsing [] 3 9 5 ⟨⟨.v4 (octets [] 4 0), 0⟩, ⟨.v4 (octets [] 4 0), 0⟩⟩ [] none 3).2
    oddDatagram 20 29 (by decide)).1

def longChain : List Byte :=
  [0x60, 0, 0, 0, 0, 144, 60, 64] ++ [0xfd, 0, 0, 0, 0, 0, 0, 0, 0, 0, 0, 0, 0, 0, 0, 1] ++
    [0xfd, 0, 0, 0, 0, 0, 0, 0, 0, 0, 0, 0, 0, 0, 0, 2] ++ (List.replicate 16 [60, 0, 0, 0, 0, 0, 0, 0]).flatten ++
    [17, 0, 0, 0, 0, 0, 0, 0] ++ [0x30, 0x39, 0, 53, 0, 8, 0xd5, 0x6b]

theorem datagram_parsing_longChain : ∃ slots n source destination, Envelope (envelopeBody afInet6 longChain) slots 9 5 longChain ∧
      CarriesUdp longChain n source destination 176 ∧ afInet6 = addressFamily source ∧
      UdpWhole longChain source destination 176 slots.checksumNotReady ∧
      parsePacketMessage (envelopeBody afInet6 longChain) 3 = .error .malformedIpv6 := by
  have hw : udpHeaderFrom longChain longChain.length 17 (longChain.getD 6 0) 40 none = .ok (176, none) := by decide +kernel
  obtain ⟨-, n, -, hc⟩ := exists_extensionChain hw
  exact ⟨_, n, _, _, envelope_sample (by decide +kernel), .v6 n 176 ⟨by decide +kernel, by decide +kernel, hc⟩, rfl,
    ⟨by decide +kernel, by decide +kernel, .inr (by decide +kernel)⟩, by decide +kernel⟩

end Honk.Packet
