import Honk.Packet.Agreement
import Honk.Packet.Message

namespace Honk.Packet

open Honk.Lib Honk.Routing Honk.Nfqueue Option
open List hiding Vector

section

/-- At most one attribute of the kind is left, and it fills an empty slot. -/
def Fits {α : Type} (kind : BitVec 16) (read : List Byte → Option α) (attrs : List Attribute) (slot slot' : Option α) : Prop :=
  (attrs.filter (fun attr => attr.kind = kind) = [] ∧ slot' = slot) ∨
    (slot = none ∧ ∃ payload, attrs.filter (fun attr => attr.kind = kind) = [⟨kind, payload⟩] ∧ (read payload).isSome ∧
      slot' = read payload)

variable {α : Type} {kind : BitVec 16} {read : List Byte → Option α} {attrs : List Attribute} {slot slot' : Option α}

variable {attr : Attribute} {slots slots' : Slots}

theorem Fits.cons_of_ne (h : Fits kind read (attr :: attrs) slot slot') (hn : attr.kind ≠ kind) : Fits kind read attrs slot slot' := by
  rwa [Fits, filter_cons_of_neg (by simpa using hn)] at h

theorem Fits.cons_of_eq (h : Fits kind read (attr :: attrs) slot slot') (he : attr.kind = kind) :
    slot = none ∧ ∃ a, read attr.payload = some a ∧ Fits kind read attrs (some a) slot' := by
  rw [Fits, filter_cons_of_pos (by simpa using he)] at h
  rcases h with ⟨h, -⟩ | ⟨hn, payload, hc, hs, hsl⟩
  · cases h
  obtain ⟨rfl, hr⟩ := List.cons.inj hc
  obtain ⟨a, ha⟩ := isSome_iff_exists.mp hs
  exact ⟨hn, a, ha, .inl ⟨hr, hsl.trans ha⟩⟩

def readWord (payload : List Byte) : Option (BitVec 32) :=
  if payload.length = 4 then some (BitVec.ofNat 32 (beNat payload)) else none

def readPacketHdr (payload : List Byte) : Option (BitVec 32) :=
  if payload.length = 7 then some (BitVec.ofNat 32 (beNat (payload.take 4))) else none

structure Reads (attrs : List Attribute) (slots slots' : Slots) : Prop where
  packetId : Fits nfqaPacketHdr readPacketHdr attrs slots.packetId slots'.packetId
  mark : Fits nfqaMark readWord attrs slots.mark slots'.mark
  payload : Fits nfqaPayload some attrs slots.payload slots'.payload
  captureLength : Fits nfqaCapLen (fun payload => (readWord payload).map BitVec.toNat) attrs slots.captureLength
    slots'.captureLength
  skbInfo : Fits nfqaSkbInfo readWord attrs slots.skbInfo slots'.skbInfo

theorem be32Attribute_of_readWord (h : readWord attr.payload = some word) : be32Attribute attr = .ok word := by
  rw [readWord] at h
  split at h
  · rename_i hl
    cases h
    exact if_neg (not_not.mpr hl)
  · cases h

theorem Reads.step (h : Reads (attr :: attrs) slots slots') : ∃ mid, readAttribute slots attr = .ok mid ∧ Reads attrs mid slots' := by
  unfold readAttribute
  by_cases h1 : attr.kind = nfqaPacketHdr
  · obtain ⟨hn, word, hr, hf⟩ := h.packetId.cons_of_eq h1
    rw [readPacketHdr] at hr
    split at hr
    · rename_i hl
      cases hr
      refine ⟨{ slots with packetId := some _ }, ?_, hf, h.mark.cons_of_ne ?_, h.payload.cons_of_ne ?_, h.captureLength.cons_of_ne ?_,
        h.skbInfo.cons_of_ne ?_⟩
      · rw [if_pos h1, once, hn, if_neg (not_not.mpr hl)]
        rfl
      all_goals rw [h1]; decide
    · cases hr
  by_cases h2 : attr.kind = nfqaMark
  · obtain ⟨hn, word, hr, hf⟩ := h.mark.cons_of_eq h2
    refine ⟨{ slots with mark := some word }, ?_, h.packetId.cons_of_ne h1, hf, h.payload.cons_of_ne ?_, h.captureLength.cons_of_ne ?_,
      h.skbInfo.cons_of_ne ?_⟩
    · rw [if_neg h1, if_pos h2, once, hn, be32Attribute_of_readWord hr]
      rfl
    all_goals rw [h2]; decide
  by_cases h3 : attr.kind = nfqaPayload
  · obtain ⟨hn, payload, hr, hf⟩ := h.payload.cons_of_eq h3
    cases hr
    refine ⟨{ slots with payload := some _ }, ?_, h.packetId.cons_of_ne h1, h.mark.cons_of_ne h2, hf, h.captureLength.cons_of_ne ?_,
      h.skbInfo.cons_of_ne ?_⟩
    · rw [if_neg h1, if_neg h2, if_pos h3, once, hn]
      rfl
    all_goals rw [h3]; decide
  by_cases h4 : attr.kind = nfqaCapLen
  · obtain ⟨hn, captured, hr, hf⟩ := h.captureLength.cons_of_eq h4
    obtain ⟨word, hw, rfl⟩ := map_eq_some_iff.mp hr
    refine ⟨{ slots with captureLength := some _ }, ?_, h.packetId.cons_of_ne h1, h.mark.cons_of_ne h2, h.payload.cons_of_ne h3, hf,
      h.skbInfo.cons_of_ne ?_⟩
    · rw [if_neg h1, if_neg h2, if_neg h3, if_pos h4, once, hn, be32Attribute_of_readWord hw]
      rfl
    · rw [h4]
      decide
  by_cases h5 : attr.kind = nfqaSkbInfo
  · obtain ⟨hn, word, hr, hf⟩ := h.skbInfo.cons_of_eq h5
    refine ⟨{ slots with skbInfo := some word }, ?_, h.packetId.cons_of_ne h1, h.mark.cons_of_ne h2,
      h.payload.cons_of_ne h3, h.captureLength.cons_of_ne h4, hf⟩
    rw [if_neg h1, if_neg h2, if_neg h3, if_neg h4, if_pos h5, once, hn, be32Attribute_of_readWord hr]
    rfl
  rw [if_neg h1, if_neg h2, if_neg h3, if_neg h4, if_neg h5]
  split
  all_goals exact ⟨_, rfl, h.packetId.cons_of_ne h1, h.mark.cons_of_ne h2, h.payload.cons_of_ne h3,
    h.captureLength.cons_of_ne h4, h.skbInfo.cons_of_ne h5⟩

theorem Fits.nil (h : Fits kind read [] slot slot') : slot' = slot := by
  rcases h with ⟨-, h⟩ | ⟨-, payload, h, -⟩
  · exact h
  · cases h

theorem Reads.run (h : Reads attrs slots slots') :
    ∃ final, readAttributes (attrs.map .ok) slots = .ok final ∧ final.packetId = slots'.packetId ∧
      final.mark = slots'.mark ∧ final.payload = slots'.payload ∧ final.captureLength = slots'.captureLength ∧
      final.skbInfo = slots'.skbInfo := by
  induction attrs generalizing slots with
  | nil =>
    exact ⟨slots, rfl, h.packetId.nil.symm, h.mark.nil.symm, h.payload.nil.symm, h.captureLength.nil.symm, h.skbInfo.nil.symm⟩
  | cons attr attrs ih =>
    obtain ⟨mid, hm, hr⟩ := h.step
    obtain ⟨final, hf, hfi⟩ := ih hr
    refine ⟨final, ?_, hfi⟩
    rw [map_cons, readAttributes, hm]
    exact hf

def maxCopyRange : ℕ := 65531

/-- A queue message with the packet in it, as the kernel builds them: one header, one mark, the packet cut
at the copy range with its length beside it if it was cut, and whatever else. -/
structure Delivers (body : List Byte) (family : Byte) (packet : List Byte) (attrs : List Attribute) : Prop where
  length : nfgenmsgLen ≤ body.length
  family : body.getD 0 0 = family
  decodes : attributes (body.drop nfgenmsgLen) = attrs.map .ok
  packetHdr : ∃ payload, attrs.filter (fun attr => attr.kind = nfqaPacketHdr) = [⟨nfqaPacketHdr, payload⟩] ∧ payload.length = 7
  mark : ∃ payload, attrs.filter (fun attr => attr.kind = nfqaMark) = [⟨nfqaMark, payload⟩] ∧ payload.length = 4
  payload : attrs.filter (fun attr => attr.kind = nfqaPayload) = [⟨nfqaPayload, packet.take maxCopyRange⟩]
  capLen : if maxCopyRange < packet.length then
      ∃ payload, attrs.filter (fun attr => attr.kind = nfqaCapLen) = [⟨nfqaCapLen, payload⟩] ∧ payload.length = 4 ∧
        beNat payload = packet.length
    else attrs.filter (fun attr => attr.kind = nfqaCapLen) = []
  skbInfo : attrs.filter (fun attr => attr.kind = nfqaSkbInfo) = [] ∨
    ∃ payload, attrs.filter (fun attr => attr.kind = nfqaSkbInfo) = [⟨nfqaSkbInfo, payload⟩] ∧ payload.length = 4

theorem readWord_of_length (h : payload.length = 4) : readWord payload = some (BitVec.ofNat 32 (beNat payload)) := if_pos h

variable {body packet : List Byte} {family : Byte}

theorem Delivers.reads (h : Delivers body family packet attrs) :
    ∃ slots, Reads attrs {} slots ∧ slots.packetId.isSome ∧ slots.mark.isSome ∧ slots.payload = some (packet.take maxCopyRange) ∧
      (slots.captureLength.filter fun captured => decide (captured < (packet.take maxCopyRange).length)) = none := by
  obtain ⟨hdr, hf, hl⟩ := h.packetHdr
  obtain ⟨mark, hma, hm⟩ := h.mark
  have hh : readPacketHdr hdr = some _ := if_pos hl
  have hw := readWord_of_length hm
  obtain ⟨info, hin⟩ : ∃ info, Fits nfqaSkbInfo readWord attrs none info := by
    rcases h.skbInfo with hno | ⟨payload, hpa, hl⟩
    · exact ⟨none, .inl ⟨hno, rfl⟩⟩
    · exact ⟨_, .inr ⟨rfl, payload, hpa, by rw [readWord_of_length hl]; rfl, rfl⟩⟩
  obtain ⟨captured, hc, hcu⟩ : ∃ captured,
      Fits nfqaCapLen (fun payload => (readWord payload).map BitVec.toNat) attrs none captured ∧
      (captured.filter fun captured => decide (captured < (packet.take maxCopyRange).length)) = none := by
    have hca := h.capLen
    split at hca
    · obtain ⟨payload, hpa, hl, hv⟩ := hca
      have hlt : beNat payload < 2 ^ 32 := by simpa [hl] using beNat_lt payload
      have hr : (readWord payload).map BitVec.toNat = some packet.length := by
        rw [readWord_of_length hl, map_some, BitVec.toNat_ofNat, Nat.mod_eq_of_lt hlt, hv]
      refine ⟨some packet.length, .inr ⟨rfl, payload, hpa, by simp [hr], hr.symm⟩, ?_⟩
      refine filter_eq_none_iff.mpr fun n hn => ?_
      cases hn
      simp
    · exact ⟨none, .inl ⟨hca, rfl⟩, rfl⟩
  exact ⟨{ packetId := readPacketHdr hdr, mark := readWord mark, payload := some _, captureLength := captured, skbInfo := info },
    ⟨.inr ⟨rfl, hdr, hf, by rw [hh]; rfl, rfl⟩, .inr ⟨rfl, mark, hma, by rw [hw]; rfl, rfl⟩,
      .inr ⟨rfl, _, h.payload, rfl, rfl⟩, hc, hin⟩, by rw [hh]; rfl, by rw [hw]; rfl, rfl, hcu⟩

theorem Delivers.parses_iff (h : Delivers body family packet attrs) (hf : family = afInet ∨ family = afInet6) (receivedAt : ℕ) :
    ∃ checksumNotReady, (∃ parsed, parsePacketMessage body receivedAt = .ok parsed) ↔
      ∃ parsed, parseLayerThree family (packet.take maxCopyRange) checksumNotReady = .ok parsed := by
  obtain ⟨slots, hr, hid, hm, hpa, hc⟩ := h.reads
  obtain ⟨final, hfi, hid', hm', hpa', hc', -⟩ := hr.run
  obtain ⟨packetId, hid⟩ := isSome_iff_exists.mp hid
  obtain ⟨mark, hm⟩ := isSome_iff_exists.mp hm
  have hb : parsePacketMessage body receivedAt = parseSlots family receivedAt final := by
    rw [parsePacketMessage, if_neg (not_lt.mpr h.length)]
    dsimp only
    rw [h.family, if_neg (by rcases hf with h | h <;> simp [h]), h.decodes, hfi]
    rfl
  refine ⟨final.skbInfo.getD 0 &&& nfqaSkbCsumnotready != 0, ?_⟩
  rw [hb, parseSlots, hid', hid, hm', hm, hpa', hpa, hc']
  dsimp only
  rw [hc]
  dsimp only
  constructor
  · rintro ⟨parsed, hparsed⟩
    obtain ⟨udp, hu, -⟩ := map_eq_ok hparsed
    exact ⟨udp, hu⟩
  rintro ⟨udp, hu⟩
  rw [hu]
  exact ⟨_, rfl⟩

end

section

/-- Behind `n` extension headers from the one at `offset`, none of them a later fragment, the UDP header is at `o`. -/
inductive UdpAt (packet : List Byte) : ℕ → Byte → ℕ → ℕ → Prop
  | here (offset : ℕ) : UdpAt packet 0 ipprotoUdp offset offset
  | fragment (n offset o : ℕ) (hfirst : at16 packet (offset + 2) &&& 0xfff8 = 0)
      (h : UdpAt packet n (packet.getD offset 0) (offset + 8) o) : UdpAt packet (n + 1) ipprotoFragment offset o
  | extension (n offset o : ℕ) (nexthdr : Byte)
      (hnext : nexthdr = ipprotoHopopts ∨ nexthdr = ipprotoRouting ∨ nexthdr = ipprotoDstopts)
      (h : UdpAt packet n (packet.getD offset 0) (offset + ipv6Optlen (packet.getD (offset + 1) 0)) o) :
      UdpAt packet (n + 1) nexthdr offset o

variable {packet captured : List Byte} {n rounds offset o stop : ℕ} {nexthdr : Byte}

theorem ipv6Optlen_bounds (length : Byte) : 8 ≤ ipv6Optlen length ∧ ipv6Optlen length ≤ 2048 := by
  have := length.isLt
  rw [ipv6Optlen]
  omega

theorem UdpAt.bounds (h : UdpAt packet n nexthdr offset o) : offset ≤ o ∧ o ≤ offset + n * 2048 := by
  induction h with
  | here offset => omega
  | fragment n offset o _ _ ih => omega
  | extension n offset o nexthdr _ _ ih =>
    have := ipv6Optlen_bounds (packet.getD (offset + 1) 0)
    omega

theorem not_udp_of_extension (h : nexthdr = ipprotoHopopts ∨ nexthdr = ipprotoRouting ∨ nexthdr = ipprotoDstopts) :
    nexthdr ≠ ipprotoUdp := by
  rcases h with rfl | rfl | rfl <;> decide

theorem at16_congr (h : ∀ i < stop, captured.getD i 0 = packet.getD i 0) (hi : offset + 2 ≤ stop) :
    at16 captured offset = at16 packet offset := by
  rw [at16, at16, h offset (by omega), h (offset + 1) (by omega)]

theorem UdpAt.walk (h : UdpAt packet n nexthdr offset o) (hc : ∀ i < stop, captured.getD i 0 = packet.getD i 0)
    (hn : n ≤ rounds) (ho : o ≤ stop) (fragmentError : Option PacketError) :
    ∃ fragmentError', udpHeaderFrom captured stop rounds nexthdr offset fragmentError = .ok (o, fragmentError') := by
  induction h generalizing rounds fragmentError with
  | here offset =>
    refine ⟨fragmentError, ?_⟩
    cases rounds <;> rfl
  | fragment n offset o hf h ih =>
    obtain ⟨rounds, rfl⟩ : ∃ r, rounds = r + 1 := ⟨rounds - 1, by omega⟩
    have hle := h.bounds.1
    rw [udpHeaderFrom, if_neg (by decide), if_neg (by decide), if_pos rfl, if_neg (by omega)]
    dsimp only
    rw [at16_congr hc (by omega), if_neg (not_not.mpr hf), hc offset (by omega)]
    exact ih (by omega) ho _
  | extension n offset o nexthdr hne h ih =>
    obtain ⟨rounds, rfl⟩ : ∃ r, rounds = r + 1 := ⟨rounds - 1, by omega⟩
    have hle := h.bounds.1
    have hl := (ipv6Optlen_bounds (packet.getD (offset + 1) 0)).1
    rw [udpHeaderFrom, if_neg (not_udp_of_extension hne), if_pos hne, skipExtension, hc offset (by omega),
      hc (offset + 1) (by omega), if_neg (by omega), if_neg (by omega)]
    exact ih (by omega) ho fragmentError

theorem UdpAt.walk_unique (h : UdpAt packet n nexthdr offset o) (hc : ∀ i < stop, captured.getD i 0 = packet.getD i 0)
    (ho : udpHeaderFrom captured stop rounds nexthdr offset fragmentError = .ok (found, fragmentError')) : found = o := by
  induction h generalizing rounds fragmentError with
  | here offset =>
    cases rounds <;> cases ho <;> rfl
  | fragment n offset o hf h ih =>
    cases rounds with
    | zero => cases ho
    | succ rounds =>
      rw [udpHeaderFrom, if_neg (by decide), if_neg (by decide), if_pos rfl] at ho
      split at ho
      · cases ho
      dsimp only at ho
      rw [at16_congr hc (by omega), if_neg (not_not.mpr hf), hc offset (by omega)] at ho
      exact ih ho
  | extension n offset o nexthdr hn h ih =>
    cases rounds with
    | zero =>
      rw [udpHeaderFrom, if_neg (not_udp_of_extension hn)] at ho
      cases ho
    | succ rounds =>
      rw [udpHeaderFrom, if_neg (not_udp_of_extension hn), if_pos hn] at ho
      obtain ⟨⟨next, offset'⟩, hs, ho⟩ := bind_eq_ok.mp ho
      rw [skipExtension] at hs
      split at hs
      · cases hs
      split at hs
      · cases hs
      rw [hc offset (by omega), hc (offset + 1) (by omega)] at hs
      cases hs
      exact ih ho

end

section

variable {skb : Skb} {linkHLen offset : ℕ} {ctx c : ParseTransportCtx}

def Skb.packet (skb : Skb) (linkHLen : ℕ) : List Byte := skb.frame.drop (networkOffset linkHLen)

variable {k : ℕ}

theorem getD_drop (bytes : List Byte) : (bytes.drop k).getD i 0 = bytes.getD (k + i) 0 := by
  simp [getD_eq_getElem?_getD, getElem?_drop]

theorem slow_read (k offset : ℕ) (h : skb.bpfSkbLoadBytes (k + offset) n = some bytes) :
    offset + n ≤ (skb.frame.drop k).length ∧ ∀ i : Fin n, bytes.get i = (skb.frame.drop k).getD (offset + i) 0 := by
  obtain ⟨hl, hg⟩ := window_eq_some h
  refine ⟨?_, fun i => ?_⟩
  · rw [length_drop]
    omega
  · rw [hg, getD_drop, Nat.add_assoc]

theorem udpAt_of_extensions (h : extensions skb.slow n nexthdr (k + offset) ctx = (.ok (ipprotoUdp, found), c)) :
    ∃ m ≤ n, ∃ o, UdpAt (skb.frame.drop k) m nexthdr offset o := by
  induction n generalizing nexthdr offset ctx with
  | zero =>
    cases h
    exact ⟨0, le_rfl, offset, .here offset⟩
  | succ n ih =>
    rw [extensions] at h
    split at h
    · cases h
    split at h
    · rename_i hfr
      subst hfr
      split at h
      · cases h
      rename_i bytes hr
      obtain ⟨-, hg⟩ := slow_read k offset hr
      dsimp only at h
      split at h
      · cases h
      rename_i hf
      rw [Nat.add_assoc] at h
      obtain ⟨m, hm, o, hu⟩ := ih h
      have hn : FragHdr.nexthdr ⟨bytes⟩ = (skb.frame.drop k).getD offset 0 := hg 0
      have ho : FragHdr.fragOff ⟨bytes⟩ = at16 (skb.frame.drop k) (offset + 2) := by
        rw [FragHdr.fragOff, at16, hg 2, hg 3]
        rfl
      rw [hn] at hu
      exact ⟨m + 1, by omega, o, .fragment m offset o (ho ▸ not_not.mp hf) hu⟩
    split at h
    · rename_i hno hfr he
      split at h
      · cases h
      rename_i next hd hr
      obtain ⟨hn, hl⟩ : next = (skb.frame.drop k).getD offset 0 ∧ hd = (skb.frame.drop k).getD (offset + 1) 0 := by
        simp only [Skb.slow] at hr
        split at hr
        · rename_i first second hf hs
          cases hr
          rw [Nat.add_assoc] at hs
          exact ⟨(slow_read k offset hf).2 0, (slow_read k (offset + 1) hs).2 0⟩
        · cases hr
      subst hn hl
      rw [Nat.add_assoc] at h
      obtain ⟨m, hm, o, hu⟩ := ih h
      refine ⟨m + 1, by omega, o, .extension m offset o nexthdr ?_ hu⟩
      simp only [isExtensionHeader, Bool.or_eq_true, beq_iff_eq] at he
      tauto
    · cases h
      exact ⟨0, by omega, offset, .here offset⟩

structure Ipv4Udp (packet : List Byte) : Prop where
  length : 20 ≤ packet.length
  ihl : ¬ (packet.getD 0 0 &&& 0x0f) <<< 2 < 20#8
  first : at16 packet 6 &&& 0x1fff = 0
  protocol : packet.getD 9 0 = ipprotoUdp

structure Ipv6Udp (packet : List Byte) : Prop where
  length : 40 ≤ packet.length
  udp : ∃ m ≤ ipv6MaxExtensions, ∃ o, UdpAt packet m (packet.getD 6 0) 40 o

theorem readHeader_ok (h : readHeader access n store offset ctx = (.ok (), c)) : ∃ bytes, c = store bytes ctx := by
  rw [readHeader] at h
  split at h
  · cases h
  · cases h
    exact ⟨_, rfl⟩

theorem parseIpv4_ok (h : parseIpv4 access iph offset ctx = (.ok (), c)) : iph.frags &&& 0x1fff = 0 ∧ c.l4proto = iph.proto := by
  unfold parseIpv4 at h
  dsimp only at h
  split at h
  · cases h
  rename_i hf
  refine ⟨not_not.mp hf, ?_⟩
  split at h
  · obtain ⟨_, rfl⟩ := readHeader_ok h
    rfl
  split at h
  · obtain ⟨_, rfl⟩ := readHeader_ok h
    rfl
  · cases h

theorem parseIpv6_ok (h : parseIpv6 access nexthdr offset ctx = (.ok (), c)) :
    ∃ found ctx', extensions access ipv6MaxExtensions nexthdr offset ctx = (.ok (c.l4proto, found), ctx') := by
  unfold parseIpv6 at h
  split at h
  · cases h
  rename_i next found ctx' hl
  refine ⟨found, ctx', ?_⟩
  rw [hl]
  unfold parseIpv6Transport at h
  dsimp only at h
  split at h
  · cases h
  have hpr : c.l4proto = next := by
    split at h
    · obtain ⟨_, rfl⟩ := readHeader_ok h
      rfl
    split at h
    · obtain ⟨_, rfl⟩ := readHeader_ok h
      rfl
    split at h
    · obtain ⟨_, rfl⟩ := readHeader_ok h
      rfl
    · cases h
  rw [hpr]

theorem slowNetwork_udp (h : slowNetwork skb k ethh ctx = (.ok (), c)) (hu : c.l4proto = ipprotoUdp) :
    (ethh.etherType = ethPIp ∧ Ipv4Udp (skb.frame.drop k)) ∨ (ethh.etherType = ethPIpv6 ∧ Ipv6Udp (skb.frame.drop k)) := by
  unfold slowNetwork at h
  dsimp only at h
  split at h
  · rename_i hip
    refine .inl ⟨hip, ?_⟩
    unfold slowIpv4 at h
    split at h
    · cases h
    rename_i bytes hr
    obtain ⟨hle, hg⟩ := slow_read k 0 hr
    dsimp only at h
    split at h
    · cases h
    rename_i hih
    obtain ⟨hf, hpr⟩ := parseIpv4_ok h
    have h0 : bytes.get 0 = (skb.frame.drop k).getD 0 0 := hg 0
    refine ⟨by omega, by rwa [← h0], ?_, ?_⟩
    · rwa [Ipv4Hdr.frags, hg 6, hg 7] at hf
    · rw [← hu, hpr]
      exact (hg 9).symm
  split at h
  · rename_i hip
    refine .inr ⟨hip, ?_⟩
    unfold slowIpv6 at h
    split at h
    · cases h
    rename_i bytes hr
    obtain ⟨hle, hg⟩ := slow_read k 0 hr
    obtain ⟨found, ctx', hl⟩ := parseIpv6_ok h
    rw [hu] at hl
    have hn : Ipv6Hdr.nextHdr ⟨bytes⟩ = (skb.frame.drop k).getD 6 0 := hg 6
    exact ⟨by omega, hn ▸ udpAt_of_extensions hl⟩
  · cases h

theorem parseSlow_udp (h : parseSlow skb linkHLen ctx = (.ok (), c)) (hu : c.l4proto = ipprotoUdp) :
    (skb.etherType linkHLen = ethPIp ∧ Ipv4Udp (skb.packet linkHLen)) ∨
      (skb.etherType linkHLen = ethPIpv6 ∧ Ipv6Udp (skb.packet linkHLen)) := by
  unfold parseSlow at h
  by_cases hl : linkHLen = ethHlen
  · rw [if_pos hl] at h
    split at h
    · cases h
    rename_i bytes hr
    obtain ⟨-, hg⟩ := window_eq_some hr
    have ho : networkOffset linkHLen = 14 := if_pos hl
    have ht : skb.etherType linkHLen = (EthHdr.ofBytes bytes).etherType := by
      rw [Skb.etherType, if_pos hl, EthHdr.ofBytes, hg 12, hg 13]
      rfl
    rw [ht, Skb.packet, ho]
    exact slowNetwork_udp h hu
  rw [if_neg hl] at h
  have ho : networkOffset linkHLen = 0 := if_neg hl
  have ht : skb.etherType linkHLen = skb.protocol := if_neg hl
  rw [ht, Skb.packet, ho]
  exact slowNetwork_udp h hu

/-- The classifier takes the frame for an UDP packet that is not fragmented. -/
def TcAccepts (skb : Skb) (linkHLen : ℕ) (scratch : ParseTransportCtx) (out : ParsedPacket) : Prop :=
  (parsePacket skb linkHLen scratch out).1 = 0 ∧ (parsePacket skb linkHLen scratch out).2.l4proto = ipprotoUdp ∧
    (parsePacket skb linkHLen scratch out).2.isFragmented = 0

theorem parse_udp (h : parse skb linkHLen ctx = (.ok (), c)) (hu : c.l4proto = ipprotoUdp) :
    ∃ ctx' c', parseSlow skb linkHLen ctx' = (.ok (), c') ∧ c'.l4proto = ipprotoUdp := by
  unfold parse at h
  split at h
  · rename_i code ctx' hf
    split at h
    · exact ⟨ctx', c, h, hu⟩
    · cases h
  rename_i hf
  have ho : (parseFast skb linkHLen ctx).1 = .ok () := by rw [h]
  have ha := parseFast_agrees_parseSlow skb linkHLen ctx ctx (by rw [ho]; exact fun h => by cases h)
  have hn : ¬ skb.NoNextHeader linkHLen := by
    intro hn
    have := ha.malformed (.inr hn)
    rw [ho] at this
    cases this
  have hr := ha.result
  have hpr := ha.l4proto hn
  rw [h] at hr hpr
  exact ⟨ctx, (parseSlow skb linkHLen ctx).2, Prod.ext hr.symm rfl, hpr.symm.trans hu⟩

section

variable {access : Access} (hmissing : access.missing ≠ 0)

include hmissing

theorem readHeader_ne_zero : (readHeader access n store offset ctx).1 ≠ .error 0 := by
  rw [readHeader]
  split
  · simpa using hmissing
  · simp

theorem parseIpv4_ne_zero : (parseIpv4 access iph offset ctx).1 ≠ .error 0 := by
  unfold parseIpv4
  dsimp only
  split
  · simp [parseFragment]
  split
  · exact readHeader_ne_zero hmissing
  split
  · exact readHeader_ne_zero hmissing
  · simp [passUnsupported]

theorem extensions_ne_zero (n : ℕ) (nexthdr : Byte) (offset : ℕ) (ctx : ParseTransportCtx) :
    (extensions access n nexthdr offset ctx).1 ≠ .error 0 := by
  induction n generalizing nexthdr offset ctx with
  | zero => simp [extensions]
  | succ n ih =>
    rw [extensions]
    split
    · simp [errMalformed]
    split
    · split
      · simpa using hmissing
      · dsimp only
        split
        · simp [parseFragment]
        · exact ih _ _ _
    split
    · split
      · simpa using hmissing
      · exact ih _ _ _
    · simp

theorem parseIpv6_ne_zero : (parseIpv6 access nexthdr offset ctx).1 ≠ .error 0 := by
  have hl := extensions_ne_zero hmissing ipv6MaxExtensions nexthdr offset ctx
  unfold parseIpv6
  split
  · rename_i code _ he
    rw [he] at hl
    simpa using hl
  unfold parseIpv6Transport
  dsimp only
  split
  · simp [errMalformed]
  split
  · exact readHeader_ne_zero hmissing
  split
  · exact readHeader_ne_zero hmissing
  split
  · exact readHeader_ne_zero hmissing
  · simp [passUnsupported]

end

theorem slowNetwork_ne_zero : (slowNetwork skb offset ethh ctx).1 ≠ .error 0 := by
  unfold slowNetwork
  dsimp only
  split
  · unfold slowIpv4
    split
    · simp [errMalformed]
    dsimp only
    split
    · simp [errMalformed]
    · exact parseIpv4_ne_zero (by simp [Skb.slow, errMalformed])
  split
  · unfold slowIpv6
    split
    · simp [errMalformed]
    · exact parseIpv6_ne_zero (by simp [Skb.slow, errMalformed])
  · simp [passUnsupported]

theorem parseSlow_ne_zero : (parseSlow skb linkHLen ctx).1 ≠ .error 0 := by
  unfold parseSlow
  split
  · split
    · simp [passUnsupported]
    · exact slowNetwork_ne_zero
  · exact slowNetwork_ne_zero

theorem parse_ne_zero : (parse skb linkHLen ctx).1 ≠ .error 0 := by
  unfold parse
  split
  · rename_i code c hf
    split
    · exact parseSlow_ne_zero
    rename_i hc
    have hr := (parseFast_agrees_parseSlow skb linkHLen ctx ctx (by rw [hf]; simpa using hc)).result
    rw [hf] at hr
    exact hr ▸ parseSlow_ne_zero
  rename_i ho
  cases hf : (parseFast skb linkHLen ctx).1 with
  | error code => exact (ho code _ (Prod.ext hf rfl)).elim
  | ok _ => simp

theorem TcAccepts.udp (h : TcAccepts skb linkHLen scratch out) : (skb.etherType linkHLen = ethPIp ∧ Ipv4Udp (skb.packet linkHLen)) ∨
      (skb.etherType linkHLen = ethPIpv6 ∧ Ipv6Udp (skb.packet linkHLen)) := by
  obtain ⟨hc, hpr, -⟩ := h
  have hn : (parse skb linkHLen scratch).1 ≠ .error 0 := parse_ne_zero
  unfold parsePacket at hc hpr
  cases hpa : parse skb linkHLen scratch with
  | mk result c =>
    rw [hpa] at hc hpr hn
    cases result with
    | error code => exact absurd (congrArg Except.error hc) hn
    | ok _ =>
      dsimp only at hc hpr
      split at hpr
      · rename_i hic
        rw [if_pos hic] at hc
        split at hc <;> cases hc
      · obtain ⟨ctx', c', hs, hu⟩ := parse_udp hpa hpr
        exact parseSlow_udp hs hu

end

variable {packet : List Byte}

def headerLength (packet : List Byte) : ℕ := (packet.getD 0 0 &&& 0x0f).toNat * 4

variable (etherType : BitVec 16)

/-- To this length the network layer trims the packet. -/
def declaredLength (packet : List Byte) : ℕ := if etherType = ethPIp then (at16 packet 2).toNat else 40 + (at16 packet 4).toNat

/-- The input checks of the network layer. -/
def KernelAdmits (packet : List Byte) : Prop :=
  if etherType = ethPIp then
    20 ≤ headerLength packet ∧ headerLength packet ≤ declaredLength etherType packet ∧
      declaredLength etherType packet ≤ packet.length ∧
      foldChecksum (checksumWords (packet.take (headerLength packet))) = 0
  else declaredLength etherType packet ≤ packet.length

def nfqueueFamily : Byte := if etherType = ethPIp then afInet else afInet6

/-- The version is the family's, and the UDP header lies within the declared length. -/
def Identifiable (packet : List Byte) : Prop :=
  if etherType = ethPIp then
    packet.getD 0 0 >>> 4 = 4 ∧ headerLength packet + 8 ≤ declaredLength etherType packet
  else
    packet.getD 0 0 >>> 4 = 6 ∧ ∀ m o, UdpAt packet m (packet.getD 6 0) 40 o → o + 8 ≤ declaredLength etherType packet

variable {checksumNotReady : Bool}

theorem parseUdp_ok_iff (captured : List Byte) :
    (∃ parsed, (parseUdp captured offset packetEnd source destination checksumNotReady).map finish = .ok parsed) ↔
      offset + 8 ≤ min packetEnd captured.length := by
  unfold parseUdp
  split
  · rename_i h
    exact ⟨fun ⟨_, h'⟩ => (by cases h'), fun h' => absurd h (not_lt.mpr h')⟩
  · rename_i h
    exact ⟨fun _ => not_lt.mp h, fun _ => ⟨_, rfl⟩⟩

variable {length : ℕ} {captured : List Byte}

theorem captured_spec (h : length ≤ packet.length) : ((packet.take length).take maxCopyRange).length = min maxCopyRange length ∧
      ∀ i < min maxCopyRange length, ((packet.take length).take maxCopyRange).getD i 0 = packet.getD i 0 := by
  rw [take_take, length_take]
  refine ⟨by omega, fun i hi => ?_⟩
  simp only [getD_eq_getElem?_getD, getElem?_take, hi, if_true]

theorem parseIpv4Udp_ok_iff (hu : Ipv4Udp packet) (hv : packet.getD 0 0 >>> 4 = 4)
    (hm : 20 ≤ headerLength packet) (hl : headerLength packet ≤ length)
    (hd : (at16 packet 2).toNat = length) (hc : captured.length = min maxCopyRange length)
    (hg : ∀ i < min maxCopyRange length, captured.getD i 0 = packet.getD i 0) :
    (∃ parsed, parseIpv4Udp captured checksumNotReady = .ok parsed) ↔ headerLength packet + 8 ≤ length := by
  have hma : headerLength packet ≤ 60 := by
    have : (packet.getD 0 0 &&& 0x0f).toNat ≤ 15 := by
      rw [BitVec.toNat_and]
      exact Nat.and_le_right
    rw [headerLength]
    omega
  have hr : maxCopyRange = 65531 := rfl
  unfold parseIpv4Udp
  dsimp only
  rw [hg 0 (by omega), hg 9 (by omega), at16_congr hg (by omega), at16_congr hg (by omega),
    if_neg (not_or.mpr ⟨by omega, not_not.mpr hv⟩), if_neg (not_or.mpr ⟨?_, ?_⟩),
    if_neg (not_or.mpr ⟨not_not.mpr hu.first, not_not.mpr hu.protocol⟩), parseUdp_ok_iff, hd, hc]
  · change headerLength packet + 8 ≤ _ ↔ _
    omega
  · exact not_lt.mpr hm
  · change ¬ _ < headerLength packet
    omega

theorem parseIpv6Udp_ok_iff (hu : Ipv6Udp packet) (hv : packet.getD 0 0 >>> 4 = 6)
    (hd : 40 + (at16 packet 4).toNat = length) (hc : captured.length = min maxCopyRange length)
    (hg : ∀ i < min maxCopyRange length, captured.getD i 0 = packet.getD i 0) :
    (∃ parsed, parseIpv6Udp captured checksumNotReady = .ok parsed) ↔ ∀ m o, UdpAt packet m (packet.getD 6 0) 40 o → o + 8 ≤ length := by
  have hr : maxCopyRange = 65531 := rfl
  have he : min length captured.length = min maxCopyRange length := by omega
  unfold parseIpv6Udp
  dsimp only
  rw [hg 0 (by omega), hg 6 (by omega), at16_congr hg (by omega), hd, he]
  constructor
  · rintro ⟨parsed, hpa⟩ m o ho
    split at hpa
    · cases hpa
    split at hpa
    · cases hpa
    obtain ⟨⟨found, fragmentError⟩, hw, hre⟩ := bind_eq_ok.mp hpa
    have hf := ho.walk_unique hg hw
    have hl := (parseUdp_ok_iff ..).mp ⟨parsed, hre⟩
    omega
  intro ha
  obtain ⟨m, hm, o, ho⟩ := hu.udp
  have hb := ho.bounds
  have hl := ha m o ho
  have hma : ipv6MaxExtensions = 8 := rfl
  obtain ⟨fragmentError, hw⟩ : ∃ fragmentError, udpHeaderFrom captured (min maxCopyRange length) 16 _ 40 none = _ :=
    ho.walk hg (by omega) (by omega) none
  rw [if_neg (not_or.mpr ⟨by omega, not_not.mpr hv⟩), if_neg (by omega), hw]
  exact (parseUdp_ok_iff ..).mpr (by omega)

theorem parseLayerThree_ipv4 (h : 0 < captured.length) :
    parseLayerThree afInet captured checksumNotReady = if captured.getD 0 0 >>> 4 = 4 then parseIpv4Udp captured checksumNotReady
      else .error (.unexpectedFamily afInet) := by
  obtain ⟨first, rest, rfl⟩ := exists_cons_of_length_pos h
  rw [parseLayerThree, getD_cons_zero]
  by_cases hv : first >>> 4 = 4
  · simp [hv, afInet, afInet6]
  · exact (if_pos (.inl ⟨rfl, hv⟩)).trans (if_neg hv).symm

theorem parseLayerThree_ipv6 (h : 0 < captured.length) :
    parseLayerThree afInet6 captured checksumNotReady = if captured.getD 0 0 >>> 4 = 6 then parseIpv6Udp captured checksumNotReady
      else .error (.unexpectedFamily afInet6) := by
  obtain ⟨first, rest, rfl⟩ := exists_cons_of_length_pos h
  rw [parseLayerThree, getD_cons_zero]
  by_cases hv : first >>> 4 = 6
  · simp [hv, afInet, afInet6]
  · exact (if_pos (.inr ⟨rfl, hv⟩)).trans (if_neg hv).symm

/-- A packet that the classifier queued and the network layer passed on reaches its listener as an event
exactly when its UDP header lies within the declared length; otherwise it ends the listener. -/
theorem queuedPacket_parses_iff {skb : Skb} {linkHLen : ℕ} {scratch : ParseTransportCtx} {out : ParsedPacket}
    {body : List Byte} {attrs : List Attribute} (receivedAt : ℕ) (htc : TcAccepts skb linkHLen scratch out)
    (hkernel : KernelAdmits (skb.etherType linkHLen) (skb.packet linkHLen))
    (hqueue : Delivers body (nfqueueFamily (skb.etherType linkHLen))
      ((skb.packet linkHLen).take (declaredLength (skb.etherType linkHLen) (skb.packet linkHLen))) attrs) :
    (∃ parsed, parsePacketMessage body receivedAt = .ok parsed) ↔ Identifiable (skb.etherType linkHLen) (skb.packet linkHLen) := by
  have hr : maxCopyRange = 65531 := rfl
  rcases htc.udp with ⟨ht, hu⟩ | ⟨ht, hu⟩
  · rw [ht] at hkernel hqueue ⊢
    rw [KernelAdmits, if_pos rfl] at hkernel
    obtain ⟨hm, hf, hle, -⟩ := hkernel
    obtain ⟨hl, hg⟩ := captured_spec hle
    obtain ⟨checksumNotReady, hif⟩ := hqueue.parses_iff (.inl rfl) receivedAt
    have hd : (at16 (skb.packet linkHLen) 2).toNat = declaredLength ethPIp (skb.packet linkHLen) := rfl
    have hid : Identifiable ethPIp (skb.packet linkHLen) = (_ ∧ _) := if_pos rfl
    rw [hif, hid, show nfqueueFamily ethPIp = afInet from rfl, parseLayerThree_ipv4 (by omega), hg 0 (by omega)]
    by_cases hv : (skb.packet linkHLen).getD 0 0 >>> 4 = 4
    · rw [if_pos hv, parseIpv4Udp_ok_iff hu hv hm hf hd hl hg]
      exact ⟨fun h => ⟨hv, h⟩, And.right⟩
    · rw [if_neg hv]
      exact ⟨fun ⟨_, h⟩ => (by cases h), fun h => absurd h.1 hv⟩
  have hn : ethPIpv6 ≠ ethPIp := by decide
  rw [ht] at hkernel hqueue ⊢
  rw [KernelAdmits, if_neg hn] at hkernel
  obtain ⟨hl, hg⟩ := captured_spec hkernel
  obtain ⟨checksumNotReady, hif⟩ := hqueue.parses_iff (.inr rfl) receivedAt
  have hd : 40 + (at16 (skb.packet linkHLen) 4).toNat = declaredLength ethPIpv6 (skb.packet linkHLen) := rfl
  have hid : Identifiable ethPIpv6 (skb.packet linkHLen) = (_ ∧ _) := if_neg hn
  rw [hif, hid, show nfqueueFamily ethPIpv6 = afInet6 from rfl, parseLayerThree_ipv6 (by omega), hg 0 (by omega)]
  by_cases hv : (skb.packet linkHLen).getD 0 0 >>> 4 = 6
  · rw [if_pos hv, parseIpv6Udp_ok_iff hu hv hd hl hg]
    exact ⟨fun h => ⟨hv, h⟩, And.right⟩
  · rw [if_neg hv]
    exact ⟨fun ⟨_, h⟩ => (by cases h), fun h => absurd h.1 hv⟩

def putAttribute (kind : ℕ) (payload : List Byte) : List Byte :=
  leBytes 2 (nlaHdrlen + payload.length) ++ leBytes 2 kind ++ payload ++
    List.replicate (align4 (nlaHdrlen + payload.length) - (nlaHdrlen + payload.length)) 0

def sampleAttributes (packet : List Byte) : List Attribute :=
  [⟨nfqaPacketHdr, [0, 0, 0, 9, 8, 0, 0]⟩, ⟨nfqaMark, [0xc0, 0, 0, 5]⟩, ⟨nfqaPayload, packet⟩]

def sampleBody (packet : List Byte) : List Byte :=
  [afInet, 0, 1, 64] ++ (sampleAttributes packet).flatMap fun attr => putAttribute attr.kind.toNat attr.payload

def shortUdp : List Byte := [0x45, 0, 0, 20, 0, 0, 0, 0, 64, 17, 0x34, 0xd0, 10, 0, 0, 2, 203, 0, 113, 7]

theorem delivers_sample (hl : packet.length ≤ maxCopyRange)
    (hd : attributes ((sampleBody packet).drop nfgenmsgLen) = (sampleAttributes packet).map .ok) :
    Delivers (sampleBody packet) afInet packet (sampleAttributes packet) where
  length := by
    rw [sampleBody, length_append]
    exact Nat.le_add_right 4 _
  family := rfl
  decodes := hd
  packetHdr := ⟨_, rfl, rfl⟩
  mark := ⟨_, rfl, rfl⟩
  payload := by
    rw [take_of_length_le hl]
    rfl
  capLen := by
    rw [if_neg (not_lt.mpr hl)]
    rfl
  skbInfo := .inl rfl

theorem shortUdp_ends_listener : TcAccepts (sampleSkb [0x08, 0x00] shortUdp) 14 {} {} ∧
      KernelAdmits ethPIp ((sampleSkb [0x08, 0x00] shortUdp).packet 14) ∧
      ((sampleSkb [0x08, 0x00] shortUdp).packet 14).take 20 = shortUdp ∧
      Delivers (sampleBody shortUdp) afInet shortUdp (sampleAttributes shortUdp) ∧
      parsePacketMessage (sampleBody shortUdp) 0 = .error .malformedUdp := by
  refine ⟨⟨by decide +kernel, by decide +kernel, by decide +kernel⟩, ?_, by decide +kernel,
    delivers_sample (by decide) (by decide +kernel), by decide +kernel⟩
  unfold KernelAdmits
  decide +kernel

theorem delivers_sampleSkb (hl : packet.length ≤ maxCopyRange) (ht : (sampleSkb [0x08, 0x00] packet).etherType 14 = ethPIp)
    (hta : ((sampleSkb [0x08, 0x00] packet).packet 14).take
      (declaredLength ethPIp ((sampleSkb [0x08, 0x00] packet).packet 14)) = packet)
    (hd : attributes ((sampleBody packet).drop nfgenmsgLen) = (sampleAttributes packet).map .ok) :
    Delivers (sampleBody packet) (nfqueueFamily ((sampleSkb [0x08, 0x00] packet).etherType 14))
      (((sampleSkb [0x08, 0x00] packet).packet 14).take (declaredLength ((sampleSkb [0x08, 0x00] packet).etherType 14)
        ((sampleSkb [0x08, 0x00] packet).packet 14))) (sampleAttributes packet) := by
  rw [ht, hta]
  exact delivers_sample hl hd

theorem queuedPacket_parses_iff_samples : (∃ parsed, parsePacketMessage (sampleBody sampleUdp) 0 = .ok parsed) ∧
      ¬ ∃ parsed, parsePacketMessage (sampleBody shortUdp) 0 = .ok parsed := by
  have hu : TcAccepts (sampleSkb [0x08, 0x00] sampleUdp) 14 {} {} := ⟨by decide +kernel, by decide +kernel, by decide +kernel⟩
  have hs : TcAccepts (sampleSkb [0x08, 0x00] shortUdp) 14 {} {} := ⟨by decide +kernel, by decide +kernel, by decide +kernel⟩
  constructor
  · refine (queuedPacket_parses_iff 0 hu (by unfold KernelAdmits; decide +kernel)
      (delivers_sampleSkb (by decide) (by decide +kernel) (by decide +kernel) (by decide +kernel))).mpr ?_
    rw [Identifiable, if_pos (by decide +kernel)]
    decide +kernel
  refine mt (queuedPacket_parses_iff 0 hs (by unfold KernelAdmits; decide +kernel)
    (delivers_sampleSkb (by decide) (by decide +kernel) (by decide +kernel) (by decide +kernel))).mp ?_
  rw [Identifiable, if_pos (by decide +kernel)]
  decide +kernel

end Honk.Packet
