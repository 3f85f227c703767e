import Honk.Lib.Bytes

namespace Honk.Packet

open Honk.Lib

def window (bytes : List Byte) (offset n : ℕ) : Option (Vector Byte n) :=
  if offset + n ≤ bytes.length then some (Vector.ofFn fun i => bytes.getD (offset + i) 0) else none

theorem window_eq_some (h : window bytes offset n = some v) :
    offset + n ≤ bytes.length ∧ ∀ i : Fin n, v.get i = bytes.getD (offset + i) 0 := by
  rw [window] at h
  split at h
  · rename_i hl
    refine ⟨hl, fun i => ?_⟩
    cases h
    simp [Vector.get_eq_getElem]
  · cases h

theorem window_of_le (h : offset + n ≤ bytes.length) :
    window bytes offset n = some (Vector.ofFn fun i => bytes.getD (offset + i) 0) := if_pos h

def be16 (hi lo : Byte) : BitVec 16 := hi ++ lo

def be32 (a b c d : Byte) : BitVec 32 := be16 a b ++ be16 c d

/-- `ether_type` and `skb.protocol` are kept as the big-endian number they spell. -/
structure EthHdr where
  dstAddr : Vector Byte 6 := Vector.replicate 6 0
  srcAddr : Vector Byte 6 := Vector.replicate 6 0
  etherType : BitVec 16 := 0

def EthHdr.ofBytes (bytes : Vector Byte 14) : EthHdr where
  dstAddr := Vector.ofFn fun i => bytes.get (i.castLE (by decide))
  srcAddr := Vector.ofFn fun i => bytes.get ((i.natAdd 6).castLE (by decide))
  etherType := be16 (bytes.get 12) (bytes.get 13)

structure Ipv4Hdr where
  bytes : Vector Byte 20 := Vector.replicate 20 0
  deriving DecidableEq

namespace Ipv4Hdr

variable (iph : Ipv4Hdr)

def version : Byte := iph.bytes.get 0 >>> 4

def ihl : Byte := (iph.bytes.get 0 &&& 0x0f) <<< 2

def dscp : Byte := iph.bytes.get 1 >>> 2

def id : BitVec 16 := be16 (iph.bytes.get 4) (iph.bytes.get 5)

def frags : BitVec 16 := be16 (iph.bytes.get 6) (iph.bytes.get 7)

def proto : Byte := iph.bytes.get 9

def srcAddr : Vector Byte 4 := Vector.ofFn fun i => iph.bytes.get ((i.natAdd 12).castLE (by decide))

def dstAddr : Vector Byte 4 := Vector.ofFn fun i => iph.bytes.get ((i.natAdd 16).castLE (by decide))

end Ipv4Hdr

structure Ipv6Hdr where
  bytes : Vector Byte 40 := Vector.replicate 40 0

namespace Ipv6Hdr

variable (ipv6h : Ipv6Hdr)

def nextHdr : Byte := ipv6h.bytes.get 6

def srcAddr : Vector Byte 16 := Vector.ofFn fun i => ipv6h.bytes.get ((i.natAdd 8).castLE (by decide))

def dstAddr : Vector Byte 16 := Vector.ofFn fun i => ipv6h.bytes.get ((i.natAdd 24).castLE (by decide))

def dscp : Byte := (ipv6h.bytes.get 0 &&& 0x0f) <<< 2 ||| ipv6h.bytes.get 1 >>> 6

end Ipv6Hdr

structure Icmpv6Hdr where
  bytes : Vector Byte 8 := Vector.replicate 8 0

def Icmpv6Hdr.type (icmp6h : Icmpv6Hdr) : Byte := icmp6h.bytes.get 0

structure TcpHdr where
  bytes : Vector Byte 20 := Vector.replicate 20 0

structure UdpHdr where
  bytes : Vector Byte 8 := Vector.replicate 8 0

structure FragHdr where
  bytes : Vector Byte 8

namespace FragHdr

variable (fragh : FragHdr)

def nexthdr : Byte := fragh.bytes.get 0

def fragOff : BitVec 16 := be16 (fragh.bytes.get 2) (fragh.bytes.get 3)

def identification : BitVec 32 := be32 (fragh.bytes.get 4) (fragh.bytes.get 5) (fragh.bytes.get 6) (fragh.bytes.get 7)

end FragHdr

def parseFragment : ℤ := 2
def errMalformed : ℤ := -14
def errFallback : ℤ := -1
def passUnsupported : ℤ := 1
def passNdpRedirect : ℤ := 3

def ethHlen : ℕ := 14
def ethPIp : BitVec 16 := 0x0800
def ethPIpv6 : BitVec 16 := 0x86dd
def ipprotoNone : Byte := 59
def ipprotoTcp : Byte := 6
def ipprotoUdp : Byte := 17
def ipprotoIcmpv6 : Byte := 58
def ipprotoHopopts : Byte := 0
def ipprotoRouting : Byte := 43
def ipprotoFragment : Byte := 44
def ipprotoDstopts : Byte := 60
def ipv6MaxExtensions : ℕ := 8

def isExtensionHeader (nexthdr : Byte) : Bool :=
  nexthdr == ipprotoHopopts || nexthdr == ipprotoRouting || nexthdr == ipprotoFragment || nexthdr == ipprotoDstopts

def ipv6Optlen (hdrExtLen : Byte) : ℕ := (hdrExtLen.toNat + 1) * 8

/-- A packet as the classifier sees it. `head` is what direct access may read once the pull is done. -/
structure Skb where
  frame : List Byte
  protocol : BitVec 16
  pulls : Bool
  head : ℕ
  head_le : head ≤ frame.length

structure ParseTransportCtx where
  ethh : EthHdr := {}
  iph : Ipv4Hdr := {}
  ipv6h : Ipv6Hdr := {}
  icmp6h : Icmpv6Hdr := {}
  tcph : TcpHdr := {}
  udph : UdpHdr := {}
  ihl : Byte := 0
  l4proto : Byte := 0
  listenerL4proto : Byte := 0
  isFragmented : Byte := 0
  fragId : BitVec 32 := 0

abbrev Parsed := Except ℤ Unit × ParseTransportCtx

structure Access where
  read : ℕ → (n : ℕ) → Option (Vector Byte n)
  extension : ℕ → Option (Byte × Byte)
  missing : ℤ

namespace Skb

variable (skb : Skb)

def bpfSkbLoadBytes (offset n : ℕ) : Option (Vector Byte n) := window skb.frame offset n

def direct (offset n : ℕ) : Option (Vector Byte n) := if offset + n ≤ skb.head then window skb.frame offset n else none

def fast : Access where
  read := skb.direct
  extension offset := (skb.direct offset 2).map fun bytes => (bytes.get 0, bytes.get 1)
  missing := errFallback

def slow : Access where
  read := skb.bpfSkbLoadBytes
  extension offset :=
    match skb.bpfSkbLoadBytes offset 1, skb.bpfSkbLoadBytes (offset + 1) 1 with
    | some next, some hdrExtLen => some (next.get 0, hdrExtLen.get 0)
    | _, _ => none
  missing := errMalformed

end Skb

section

variable (access : Access)

def readHeader (n : ℕ) (store : Vector Byte n → ParseTransportCtx → ParseTransportCtx) (offset : ℕ)
    (ctx : ParseTransportCtx) : Parsed :=
  match access.read offset n with
  | none => (.error access.missing, ctx)
  | some bytes => (.ok (), store bytes ctx)

def readTcp : ℕ → ParseTransportCtx → Parsed := readHeader access 20 fun bytes ctx => { ctx with tcph := ⟨bytes⟩ }

def readUdp : ℕ → ParseTransportCtx → Parsed :=
  readHeader access 8 fun bytes ctx => { ctx with udph := ⟨bytes⟩, listenerL4proto := ipprotoUdp }

def readIcmpv6 : ℕ → ParseTransportCtx → Parsed := readHeader access 8 fun bytes ctx => { ctx with icmp6h := ⟨bytes⟩ }

def parseIpv4 (iph : Ipv4Hdr) (offset : ℕ) (ctx : ParseTransportCtx) : Parsed :=
  let ctx := { ctx with
    iph
    ihl := iph.ihl
    l4proto := iph.proto
    isFragmented := if iph.frags &&& 0x2000 ≠ 0 then 1 else 0
    fragId := iph.id.setWidth 32 }
  if iph.frags &&& 0x1fff ≠ 0 then (.error parseFragment, ctx)
  else if iph.proto = ipprotoTcp then readTcp access (offset + iph.ihl.toNat) ctx
  else if iph.proto = ipprotoUdp then readUdp access (offset + iph.ihl.toNat) ctx
  else (.error passUnsupported, ctx)

def ParseTransportCtx.fragment (ctx : ParseTransportCtx) (fragh : FragHdr) : ParseTransportCtx :=
  { ctx with
    l4proto := fragh.nexthdr
    fragId := fragh.identification
    isFragmented := ctx.isFragmented ||| (fragh.fragOff &&& 0x0001).setWidth 8 }

/-- The extension loop: `n` rounds are left. -/
def extensions : ℕ → Byte → ℕ → ParseTransportCtx → Except ℤ (Byte × ℕ) × ParseTransportCtx
  | 0, nexthdr, offset, ctx => (.ok (nexthdr, offset), ctx)
  | n + 1, nexthdr, offset, ctx =>
    if nexthdr = ipprotoNone then (.error errMalformed, ctx)
    else if nexthdr = ipprotoFragment then
      match access.read offset 8 with
      | none => (.error access.missing, ctx)
      | some bytes =>
        let fragh : FragHdr := ⟨bytes⟩
        if fragh.fragOff &&& 0xfff8 ≠ 0 then (.error parseFragment, ctx.fragment fragh)
        else extensions n fragh.nexthdr (offset + 8) (ctx.fragment fragh)
    else if isExtensionHeader nexthdr then
      match access.extension offset with
      | none => (.error access.missing, ctx)
      | some (next, hdrExtLen) => extensions n next (offset + ipv6Optlen hdrExtLen) { ctx with l4proto := next }
    else (.ok (nexthdr, offset), ctx)

def parseIpv6Transport (nexthdr : Byte) (offset : ℕ) (ctx : ParseTransportCtx) : Parsed :=
  if isExtensionHeader nexthdr then (.error errMalformed, ctx)
  else
    let ctx := { ctx with l4proto := nexthdr }
    if nexthdr = ipprotoTcp then readTcp access offset ctx
    else if nexthdr = ipprotoUdp then readUdp access offset ctx
    else if nexthdr = ipprotoIcmpv6 then readIcmpv6 access offset ctx
    else (.error passUnsupported, ctx)

def parseIpv6 (nexthdr : Byte) (offset : ℕ) (ctx : ParseTransportCtx) : Parsed :=
  match extensions access ipv6MaxExtensions nexthdr offset ctx with
  | (.error code, ctx) => (.error code, ctx)
  | (.ok (nexthdr, offset), ctx) => parseIpv6Transport access nexthdr offset ctx

end

variable (skb : Skb) (offset : ℕ)

section

variable (ctx : ParseTransportCtx)

def slowIpv4 : Parsed :=
  match skb.bpfSkbLoadBytes offset 20 with
  | none => (.error errMalformed, ctx)
  | some bytes =>
    let iph : Ipv4Hdr := ⟨bytes⟩
    -- the header is already stored when its length is checked
    if iph.ihl < 20 then (.error errMalformed, { ctx with iph })
    else parseIpv4 skb.slow iph offset ctx

def slowIpv6 : Parsed :=
  match skb.bpfSkbLoadBytes offset 40 with
  | none => (.error errMalformed, ctx)
  | some bytes =>
    let ipv6h : Ipv6Hdr := ⟨bytes⟩
    parseIpv6 skb.slow ipv6h.nextHdr (offset + 40) { ctx with ipv6h, ihl := 10 }

def slowNetwork (ethh : EthHdr) (ctx : ParseTransportCtx) : Parsed :=
  let ctx : ParseTransportCtx := { ethh, fragId := ctx.fragId }
  if ethh.etherType = ethPIp then slowIpv4 skb offset ctx
  else if ethh.etherType = ethPIpv6 then slowIpv6 skb offset ctx
  else (.error passUnsupported, ctx)

variable (linkHLen : ℕ)

def parseSlow (ctx : ParseTransportCtx) : Parsed :=
  if linkHLen = ethHlen then
    match skb.bpfSkbLoadBytes 0 14 with
    -- the helper clears its buffer when it fails
    | none => (.error passUnsupported, { ctx with ethh := {} })
    | some bytes => slowNetwork skb 14 (.ofBytes bytes) ctx
  else slowNetwork skb 0 { etherType := skb.protocol } ctx

def fastIpv4 : Parsed :=
  match skb.direct offset 20 with
  | none => (.error errFallback, ctx)
  | some bytes =>
    let iph : Ipv4Hdr := ⟨bytes⟩
    if iph.ihl < 20 then (.error errMalformed, ctx)
    else parseIpv4 skb.fast iph offset ctx

def fastIpv6 : Parsed :=
  match skb.direct offset 40 with
  | none => (.error errFallback, ctx)
  | some bytes =>
    let ipv6h : Ipv6Hdr := ⟨bytes⟩
    parseIpv6 skb.fast ipv6h.nextHdr (offset + 40) { ctx with ipv6h, l4proto := ipv6h.nextHdr, ihl := 10 }

def fastNetwork (ethh : EthHdr) : Parsed :=
  if ethh.etherType = ethPIp then fastIpv4 skb offset { ethh }
  else if ethh.etherType = ethPIpv6 then fastIpv6 skb offset { ethh }
  else (.error passUnsupported, { ethh })

def parseFast (ctx : ParseTransportCtx) : Parsed :=
  if !skb.pulls then (.error errFallback, ctx)
  else if linkHLen = ethHlen then
    match skb.direct 0 14 with
    | none => (.error errFallback, {})
    | some bytes => fastNetwork skb 14 (.ofBytes bytes)
  else fastNetwork skb 0 { etherType := skb.protocol }

def parse (ctx : ParseTransportCtx) : Parsed :=
  match parseFast skb linkHLen ctx with
  | (.error code, ctx) => if code = errFallback then parseSlow skb linkHLen ctx else (.error code, ctx)
  | parsed => parsed

structure Tuples where
  srcIp : Vector Byte 16 := Vector.replicate 16 0
  dstIp : Vector Byte 16 := Vector.replicate 16 0
  srcPort : BitVec 16 := 0
  dstPort : BitVec 16 := 0
  l4proto : Byte := 0
  dscp : Byte := 0
  deriving DecidableEq

/-- `::ffff:a.b.c.d`. -/
def ipv4Mapped (octets : Vector Byte 4) : Vector Byte 16 :=
  Vector.replicate 10 (0 : Byte) ++ Vector.replicate 2 (0xff : Byte) ++ octets

def fillTuples : Tuples :=
  let tuples : Tuples :=
    if ctx.iph.version = 4 then
      { l4proto := ctx.l4proto, srcIp := ipv4Mapped ctx.iph.srcAddr, dstIp := ipv4Mapped ctx.iph.dstAddr,
        dscp := ctx.iph.dscp }
    else
      { l4proto := ctx.l4proto, srcIp := ctx.ipv6h.srcAddr, dstIp := ctx.ipv6h.dstAddr, dscp := ctx.ipv6h.dscp }
  if ctx.l4proto = ipprotoTcp then
    { tuples with
      srcPort := be16 (ctx.tcph.bytes.get 0) (ctx.tcph.bytes.get 1)
      dstPort := be16 (ctx.tcph.bytes.get 2) (ctx.tcph.bytes.get 3) }
  else if ctx.l4proto = ipprotoUdp then
    { tuples with
      srcPort := be16 (ctx.udph.bytes.get 0) (ctx.udph.bytes.get 1)
      dstPort := be16 (ctx.udph.bytes.get 2) (ctx.udph.bytes.get 3) }
  else tuples

end

structure ParsedPacket where
  ethh : EthHdr := {}
  tuples : Tuples := {}
  tcph : TcpHdr := {}
  udph : UdpHdr := {}
  l4proto : Byte := 0
  listenerL4proto : Byte := 0
  isFragmented : Byte := 0
  fragId : BitVec 32 := 0
  incarnation : BitVec 64 := 0

/-- The result code, and the packet record as the caller passed it in, filled where the code says so. -/
def parsePacket (linkHLen : ℕ) (scratch : ParseTransportCtx) (out : ParsedPacket) : ℤ × ParsedPacket :=
  let out := { out with isFragmented := 0 }
  match parse skb linkHLen scratch with
  | (.error code, ctx) => (code, if code = parseFragment then { out with fragId := ctx.fragId, tuples := fillTuples ctx } else out)
  | (.ok (), ctx) =>
    if ctx.l4proto = ipprotoIcmpv6 then (if ctx.icmp6h.type = 137 then passNdpRedirect else passUnsupported, out)
    else
      (0, { out with
        ethh := ctx.ethh
        tcph := ctx.tcph
        udph := ctx.udph
        l4proto := ctx.l4proto
        listenerL4proto := ctx.listenerL4proto
        isFragmented := ctx.isFragmented
        fragId := ctx.fragId
        incarnation := 0
        tuples := fillTuples ctx })

end Honk.Packet
