import Honk.Packet.Transport

namespace Honk.Packet

open Honk.Lib

variable {skb : Skb} {offset n : ℕ}

theorem loadBytes_of_direct (h : skb.direct offset n = some v) : skb.bpfSkbLoadBytes offset n = some v := by
  rw [Skb.direct] at h
  split at h
  · exact h
  · cases h

theorem slow_extension_of_fast (h : skb.fast.extension offset = some ext) : skb.slow.extension offset = some ext := by
  obtain ⟨v, hv, rfl⟩ := Option.map_eq_some_iff.mp h
  obtain ⟨hl, hg⟩ := window_eq_some (loadBytes_of_direct hv)
  have hf : skb.bpfSkbLoadBytes offset 1 = _ := window_of_le (by omega)
  have hs : skb.bpfSkbLoadBytes (offset + 1) 1 = _ := window_of_le (by omega)
  simp [Skb.slow, hf, hs, hg, Vector.get_eq_getElem]

structure Alike (fast slow : ParseTransportCtx) : Prop where
  iph : fast.iph = slow.iph
  ipv6h : fast.ipv6h = slow.ipv6h
  icmp6h : fast.icmp6h = slow.icmp6h
  tcph : fast.tcph = slow.tcph
  udph : fast.udph = slow.udph
  isFragmented : fast.isFragmented = slow.isFragmented
  fragId : fast.isFragmented ≠ 0 → fast.fragId = slow.fragId

structure Matches {α : Type} (fast slow : Except ℤ α × ParseTransportCtx) : Prop where
  result : fast.1 = slow.1
  alike : Alike fast.2 slow.2
  fragId : fast.1 = .error parseFragment → fast.2.fragId = slow.2.fragId

def Agrees (fast slow : Parsed) : Prop := fast.1 = .error errFallback ∨ (Matches fast slow ∧ fast.2.l4proto = slow.2.l4proto)

variable {f s : ParseTransportCtx}

theorem Matches.ok (h : Alike f s) : Matches (.ok a, f) (.ok a, s) := ⟨rfl, h, fun hc => by cases hc⟩

theorem Matches.error (h : Alike f s) (hf : code ≠ parseFragment) :
    Matches ((.error code : Except ℤ α), f) (.error code, s) := ⟨rfl, h, fun hc => absurd (Except.error.inj hc) hf⟩

theorem readHeader_agrees {store : Vector Byte n → ParseTransportCtx → ParseTransportCtx}
    (h : ∀ bytes, Alike (store bytes f) (store bytes s) ∧ (store bytes f).l4proto = (store bytes s).l4proto) :
    Agrees (readHeader skb.fast n store offset f) (readHeader skb.slow n store offset s) := by
  rw [readHeader]
  cases hr : skb.fast.read offset n with
  | none => exact .inl rfl
  | some bytes =>
    have hs : skb.slow.read offset n = some bytes := loadBytes_of_direct hr
    rw [readHeader, hs]
    exact .inr ⟨.ok (h bytes).1, (h bytes).2⟩

theorem parseIpv4_agrees (h : Alike f s) : Agrees (parseIpv4 skb.fast iph offset f) (parseIpv4 skb.slow iph offset s) := by
  unfold parseIpv4
  dsimp only
  split
  · exact .inr ⟨⟨rfl, ⟨rfl, h.ipv6h, h.icmp6h, h.tcph, h.udph, rfl, fun _ => rfl⟩, fun _ => rfl⟩, rfl⟩
  split
  · exact readHeader_agrees fun _ => ⟨⟨rfl, h.ipv6h, h.icmp6h, rfl, h.udph, rfl, fun _ => rfl⟩, rfl⟩
  split
  · exact readHeader_agrees fun _ => ⟨⟨rfl, h.ipv6h, h.icmp6h, h.tcph, rfl, rfl, fun _ => rfl⟩, rfl⟩
  · exact .inr ⟨.error ⟨rfl, h.ipv6h, h.icmp6h, h.tcph, h.udph, rfl, fun _ => rfl⟩ (by decide), rfl⟩

theorem Alike.fragment (h : Alike f s) : Alike (f.fragment fragh) (s.fragment fragh) := by
  refine ⟨h.iph, h.ipv6h, h.icmp6h, h.tcph, h.udph, ?_, fun _ => rfl⟩
  rw [ParseTransportCtx.fragment, ParseTransportCtx.fragment, h.isFragmented]

theorem extensions_agree (skb : Skb) (n : ℕ) (nexthdr : Byte) (offset : ℕ) (h : Alike f s) :
    (extensions skb.fast n nexthdr offset f).1 = .error errFallback ∨
      (Matches (extensions skb.fast n nexthdr offset f) (extensions skb.slow n nexthdr offset s) ∧ (f.l4proto = s.l4proto →
        (extensions skb.fast n nexthdr offset f).2.l4proto = (extensions skb.slow n nexthdr offset s).2.l4proto) ∧
      (nexthdr ≠ ipprotoNone → 0 < n →
        (∀ next o, (extensions skb.fast n nexthdr offset f).1 = .ok (next, o) → isExtensionHeader next = true) →
        (extensions skb.fast n nexthdr offset f).2.l4proto = (extensions skb.slow n nexthdr offset s).2.l4proto)) := by
  induction n generalizing nexthdr offset f s with
  | zero => exact .inr ⟨.ok h, id, fun _ hn => absurd hn (lt_irrefl 0)⟩
  | succ n ih =>
    rw [extensions, extensions]
    split
    · rename_i hno
      exact .inr ⟨.error h (by decide), id, fun hne => absurd hno hne⟩
    split
    · cases hr : skb.fast.read offset 8 with
      | none => exact .inl rfl
      | some bytes =>
        have hs : skb.slow.read offset 8 = some bytes := loadBytes_of_direct hr
        rw [hs]
        dsimp only
        split
        · exact .inr ⟨⟨rfl, h.fragment, fun _ => rfl⟩, fun _ => rfl, fun _ _ _ => rfl⟩
        · exact (ih _ _ h.fragment).imp_right fun ⟨hm, hpr, _⟩ => ⟨hm, fun _ => hpr rfl, fun _ _ _ => hpr rfl⟩
    split
    · cases hr : skb.fast.extension offset with
      | none => exact .inl rfl
      | some ext =>
        rw [slow_extension_of_fast hr]
        have hc : Alike { f with l4proto := ext.1 } { s with l4proto := ext.1 } := { h with }
        exact (ih _ _ hc).imp_right fun ⟨hm, hpr, _⟩ => ⟨hm, fun _ => hpr rfl, fun _ _ _ => hpr rfl⟩
    · rename_i he
      exact .inr ⟨.ok h, id, fun _ _ ha => absurd (ha nexthdr offset rfl) he⟩

variable {nexthdr : Byte}

theorem parseIpv6Transport_agrees (h : Alike f s) (hpr : isExtensionHeader nexthdr = true → f.l4proto = s.l4proto) :
    Agrees (parseIpv6Transport skb.fast nexthdr offset f) (parseIpv6Transport skb.slow nexthdr offset s) := by
  unfold parseIpv6Transport
  dsimp only
  split
  · rename_i he
    exact .inr ⟨.error h (by decide), hpr he⟩
  split
  · exact readHeader_agrees fun _ => ⟨{ h with tcph := rfl }, rfl⟩
  split
  · exact readHeader_agrees fun _ => ⟨{ h with udph := rfl }, rfl⟩
  split
  · exact readHeader_agrees fun _ => ⟨{ h with icmp6h := rfl }, rfl⟩
  · exact .inr ⟨.error { h with } (by decide), rfl⟩

theorem parseIpv6_agrees (h : Alike f s) (hn : nexthdr ≠ ipprotoNone) :
    Agrees (parseIpv6 skb.fast nexthdr offset f) (parseIpv6 skb.slow nexthdr offset s) := by
  have hl := extensions_agree skb ipv6MaxExtensions nexthdr offset h
  unfold parseIpv6
  generalize extensions skb.fast ipv6MaxExtensions nexthdr offset f = fast at hl ⊢
  generalize extensions skb.slow ipv6MaxExtensions nexthdr offset s = slow at hl ⊢
  obtain ⟨fast, fctx⟩ := fast
  obtain ⟨slow, sctx⟩ := slow
  rcases hl with hl | ⟨⟨hr, ha, hf⟩, -, hpr⟩
  · cases hl
    exact .inl rfl
  cases hr
  cases fast with
  | error code =>
    refine .inr ⟨⟨rfl, ha, fun hc => hf ?_⟩, hpr hn (by decide) fun _ _ ho => by cases ho⟩
    exact congrArg Except.error (Except.error.inj hc)
  | ok found =>
    refine parseIpv6Transport_agrees ha fun he => hpr hn (by decide) fun next o ho => ?_
    cases ho
    exact he

def networkOffset (linkHLen : ℕ) : ℕ := if linkHLen = ethHlen then 14 else 0

def Skb.etherType (skb : Skb) (linkHLen : ℕ) : BitVec 16 :=
  if linkHLen = ethHlen then be16 (skb.frame.getD 12 0) (skb.frame.getD 13 0) else skb.protocol

def Skb.ShortIpv4 (skb : Skb) (linkHLen : ℕ) : Prop :=
  skb.etherType linkHLen = ethPIp ∧ (skb.frame.getD (networkOffset linkHLen) 0 &&& 0x0f) <<< 2 < 20#8

def Skb.NoNextHeader (skb : Skb) (linkHLen : ℕ) : Prop :=
  skb.etherType linkHLen = ethPIpv6 ∧ skb.frame.getD (networkOffset linkHLen + 6) 0 = ipprotoNone

instance (skb : Skb) (linkHLen : ℕ) : Decidable (skb.ShortIpv4 linkHLen) := inferInstanceAs (Decidable (_ ∧ _))

instance (skb : Skb) (linkHLen : ℕ) : Decidable (skb.NoNextHeader linkHLen) := inferInstanceAs (Decidable (_ ∧ _))

structure Agreement (skb : Skb) (linkHLen : ℕ) (fast slow : Parsed) : Prop where
  result : fast.1 = slow.1
  ipv6h : fast.2.ipv6h = slow.2.ipv6h
  icmp6h : fast.2.icmp6h = slow.2.icmp6h
  tcph : fast.2.tcph = slow.2.tcph
  udph : fast.2.udph = slow.2.udph
  isFragmented : fast.2.isFragmented = slow.2.isFragmented
  fragId : fast.2.isFragmented ≠ 0 ∨ fast.1 = .error parseFragment → fast.2.fragId = slow.2.fragId
  iph : ¬ skb.ShortIpv4 linkHLen → fast.2.iph = slow.2.iph
  l4proto : ¬ skb.NoNextHeader linkHLen → fast.2.l4proto = slow.2.l4proto
  tuples : ¬ skb.ShortIpv4 linkHLen → ¬ skb.NoNextHeader linkHLen → fillTuples fast.2 = fillTuples slow.2
  malformed : skb.ShortIpv4 linkHLen ∨ skb.NoNextHeader linkHLen → fast.1 = .error errMalformed

theorem fillTuples_congr (h : Alike f s) (hpr : f.l4proto = s.l4proto) : fillTuples f = fillTuples s := by
  simp only [fillTuples, h.iph, h.ipv6h, h.tcph, h.udph, hpr]

variable {linkHLen : ℕ} {fast slow : Parsed}

theorem Agreement.of_agrees (h : Agrees fast slow) (hf : fast.1 ≠ .error errFallback)
    (hs : ¬ skb.ShortIpv4 linkHLen) (hn : ¬ skb.NoNextHeader linkHLen) : Agreement skb linkHLen fast slow := by
  obtain ⟨⟨hr, ha, hfr⟩, hpr⟩ := h.resolve_left hf
  exact {
    result := hr
    ipv6h := ha.ipv6h
    icmp6h := ha.icmp6h
    tcph := ha.tcph
    udph := ha.udph
    isFragmented := ha.isFragmented
    fragId := fun hc => hc.elim ha.fragId hfr
    iph := fun _ => ha.iph
    l4proto := fun _ => hpr
    tuples := fun _ _ => fillTuples_congr ha hpr
    malformed := fun hc => hc.elim (absurd · hs) (absurd · hn) }

variable {ethh : EthHdr} {fragId : BitVec 32}

theorem alike_fresh : Alike { ethh } { ethh := ethh', fragId } :=
  ⟨rfl, rfl, rfl, rfl, rfl, rfl, fun h => absurd rfl h⟩

theorem fastIpv4_agreement (ho : offset = networkOffset linkHLen)
    (ht : skb.etherType linkHLen = ethPIp) (hfa : (fastIpv4 skb offset { ethh }).1 ≠ .error errFallback) :
    Agreement skb linkHLen (fastIpv4 skb offset { ethh }) (slowIpv4 skb offset { ethh, fragId }) := by
  have hn : ¬ skb.NoNextHeader linkHLen := fun h => absurd (ht.symm.trans h.1) (by decide)
  unfold fastIpv4 at hfa ⊢
  cases hr : skb.direct offset 20 with
  | none =>
    rw [hr] at hfa
    exact absurd rfl hfa
  | some bytes =>
    have hsl := loadBytes_of_direct hr
    have hf : bytes.get 0 = skb.frame.getD (networkOffset linkHLen) 0 := by
      rw [(window_eq_some hsl).2, ← ho]
      rfl
    have hif : Ipv4Hdr.ihl ⟨bytes⟩ < 20 ↔ skb.ShortIpv4 linkHLen := by
      rw [Skb.ShortIpv4, ← hf]
      exact ⟨fun h => ⟨ht, h⟩, And.right⟩
    rw [slowIpv4, hsl]
    rw [hr] at hfa
    dsimp only at hfa ⊢
    by_cases hs : Ipv4Hdr.ihl ⟨bytes⟩ < 20
    · rw [if_pos hs, if_pos hs]
      -- only the slow parser has stored the header by now
      exact { result := rfl, ipv6h := rfl, icmp6h := rfl, tcph := rfl, udph := rfl, isFragmented := rfl,
              fragId := fun hca => hca.elim (absurd rfl) fun hc => absurd (Except.error.inj hc) (by decide)
              iph := fun hno => absurd (hif.mp hs) hno, l4proto := fun _ => rfl
              tuples := fun hno => absurd (hif.mp hs) hno, malformed := fun _ => rfl }
    rw [if_neg hs] at hfa ⊢
    rw [if_neg hs]
    exact .of_agrees (parseIpv4_agrees (alike_fresh ..)) hfa (fun h => hs (hif.mpr h)) hn

variable {ctx : ParseTransportCtx}

theorem parseIpv6_none : parseIpv6 access ipprotoNone offset ctx = (.error errMalformed, ctx) := by
  rfl

theorem fastIpv6_agreement (ho : offset = networkOffset linkHLen)
    (ht : skb.etherType linkHLen = ethPIpv6) (hf : (fastIpv6 skb offset { ethh }).1 ≠ .error errFallback) :
    Agreement skb linkHLen (fastIpv6 skb offset { ethh }) (slowIpv6 skb offset { ethh, fragId }) := by
  have hs : ¬ skb.ShortIpv4 linkHLen := fun h => absurd (ht.symm.trans h.1) (by decide)
  unfold fastIpv6 at hf ⊢
  cases hr : skb.direct offset 40 with
  | none =>
    rw [hr] at hf
    exact absurd rfl hf
  | some bytes =>
    have hsl := loadBytes_of_direct hr
    have hne : Ipv6Hdr.nextHdr ⟨bytes⟩ = skb.frame.getD (networkOffset linkHLen + 6) 0 := by
      rw [Ipv6Hdr.nextHdr, (window_eq_some hsl).2, ← ho]
      rfl
    have hif : Ipv6Hdr.nextHdr ⟨bytes⟩ = ipprotoNone ↔ skb.NoNextHeader linkHLen := by
      rw [Skb.NoNextHeader, ← hne]
      exact ⟨fun h => ⟨ht, h⟩, And.right⟩
    rw [slowIpv6, hsl]
    rw [hr] at hf
    dsimp only at hf ⊢
    by_cases hn : Ipv6Hdr.nextHdr ⟨bytes⟩ = ipprotoNone
    · rw [hn, parseIpv6_none, parseIpv6_none]
      -- the fast parser has stored the announced protocol, the slow one none
      exact { result := rfl, ipv6h := rfl, icmp6h := rfl, tcph := rfl, udph := rfl, isFragmented := rfl,
              fragId := fun hca => hca.elim (absurd rfl) fun hc => absurd (Except.error.inj hc) (by decide)
              iph := fun _ => rfl, l4proto := fun hno => absurd (hif.mp hn) hno
              tuples := fun _ hno => absurd (hif.mp hn) hno, malformed := fun _ => rfl }
    have ha : Alike { ethh, ipv6h := ⟨bytes⟩, l4proto := Ipv6Hdr.nextHdr ⟨bytes⟩, ihl := 10 }
        { ethh, fragId, ipv6h := ⟨bytes⟩, ihl := 10 } := ⟨rfl, rfl, rfl, rfl, rfl, rfl, fun h => absurd rfl h⟩
    exact .of_agrees (parseIpv6_agrees ha hn) hf hs fun h => hn (hif.mpr h)

theorem fastNetwork_agreement (ho : offset = networkOffset linkHLen)
    (ht : skb.etherType linkHLen = ethh.etherType) (hf : (fastNetwork skb offset ethh).1 ≠ .error errFallback) :
    Agreement skb linkHLen (fastNetwork skb offset ethh) (slowNetwork skb offset ethh ctx) := by
  unfold fastNetwork at hf ⊢
  unfold slowNetwork
  split
  · rename_i hip
    rw [if_pos hip] at hf
    exact fastIpv4_agreement ho (ht.trans hip) hf
  rename_i hip
  rw [if_neg hip] at hf
  split
  · rename_i hip6
    rw [if_pos hip6] at hf
    exact fastIpv6_agreement ho (ht.trans hip6) hf
  rename_i hip6
  exact .of_agrees (.inr ⟨.error (alike_fresh ..) (by decide), rfl⟩) (by simp [passUnsupported, errFallback])
    (fun h => hip (ht.symm.trans h.1)) fun h => hip6 (ht.symm.trans h.1)

/-- Whenever the direct parser needs no fallback, the helper's parser comes to the same result,
whatever the scratch contexts held before. -/
theorem parseFast_agrees_parseSlow (skb : Skb) (linkHLen : ℕ) (scratch scratch' : ParseTransportCtx)
    (h : (parseFast skb linkHLen scratch).1 ≠ .error errFallback) :
    Agreement skb linkHLen (parseFast skb linkHLen scratch) (parseSlow skb linkHLen scratch') := by
  unfold parseFast at h ⊢
  cases hpu : skb.pulls with
  | false =>
    rw [hpu] at h
    exact absurd rfl h
  | true =>
    rw [hpu] at h
    unfold parseSlow
    by_cases hl : linkHLen = ethHlen
    · have ht : skb.etherType linkHLen = be16 (skb.frame.getD 12 0) (skb.frame.getD 13 0) := if_pos hl
      simp only [Bool.not_true, Bool.false_eq_true, if_false, if_pos hl] at h ⊢
      cases hr : skb.direct 0 14 with
      | none =>
        rw [hr] at h
        exact absurd rfl h
      | some bytes =>
        have hs := loadBytes_of_direct hr
        obtain ⟨-, hg⟩ := window_eq_some hs
        rw [hr] at h
        rw [hs]
        refine fastNetwork_agreement (if_pos hl).symm ?_ h
        rw [ht, EthHdr.ofBytes, hg 12, hg 13]
        rfl
    · simp only [Bool.not_true, Bool.false_eq_true, if_false, if_neg hl] at h ⊢
      exact fastNetwork_agreement (if_neg hl).symm (if_neg hl) h

def sampleSkb (etherType packet : List Byte) : Skb where
  frame := (List.replicate 12 0 ++ etherType ++ packet ++ List.replicate 256 0).take 256
  protocol := 0
  pulls := true
  head := 256
  head_le := by
    rw [List.length_take, List.length_append, List.length_replicate]
    omega

def sampleUdp : List Byte :=
  [0x45, 0, 0, 28, 0, 0, 0, 0, 64, 17, 0x34, 0xc8, 10, 0, 0, 2, 203, 0, 113, 7, 0x0f, 0xa0, 0x01, 0xbb, 0, 8, 0, 0]

theorem parseFast_agrees_parseSlow_sampleUdp : (parseFast (sampleSkb [0x08, 0x00] sampleUdp) 14 {}).1 = .ok () ∧
      Agreement (sampleSkb [0x08, 0x00] sampleUdp) 14 (parseFast (sampleSkb [0x08, 0x00] sampleUdp) 14 {})
        (parseSlow (sampleSkb [0x08, 0x00] sampleUdp) 14 { fragId := 7 }) := by
  have ho : (parseFast (sampleSkb [0x08, 0x00] sampleUdp) 14 {}).1 = .ok () := by decide +kernel
  exact ⟨ho, parseFast_agrees_parseSlow _ _ _ _ (by rw [ho]; exact fun h => by cases h)⟩

theorem parseFast_differs_parseSlow : ((parseFast (sampleSkb [0x08, 0x00] [0x41]) 14 {}).1 = .error errMalformed ∧
      (parseFast (sampleSkb [0x08, 0x00] [0x41]) 14 {}).2.iph ≠ (parseSlow (sampleSkb [0x08, 0x00] [0x41]) 14 {}).2.iph ∧
      fillTuples (parseFast (sampleSkb [0x08, 0x00] [0x41]) 14 {}).2 ≠
        fillTuples (parseSlow (sampleSkb [0x08, 0x00] [0x41]) 14 {}).2) ∧
    (parseFast (sampleSkb [0x86, 0xdd] [0x60, 0, 0, 0, 0, 0, 59]) 14 {}).1 = .error errMalformed ∧
      (parseFast (sampleSkb [0x86, 0xdd] [0x60, 0, 0, 0, 0, 0, 59]) 14 {}).2.l4proto = 59 ∧
      (parseSlow (sampleSkb [0x86, 0xdd] [0x60, 0, 0, 0, 0, 0, 59]) 14 {}).2.l4proto = 0 := by
  decide +kernel

end Honk.Packet
