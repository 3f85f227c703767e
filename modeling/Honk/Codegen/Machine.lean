import Honk.Codegen.Codegen

namespace Honk.Codegen

open Honk.Lib Honk.Lib.Bpf Honk.Routing
open List hiding Vector

structure RoutingInput where
  srcIp : Vector Byte 16
  dstIp : Vector Byte 16
  mac : Vector Byte 16
  pname : Vector Byte 48
  srcPort : BitVec 32
  dstPort : BitVec 32
  l4proto : BitVec 32
  ipVersion : BitVec 32
  dscp : BitVec 32
  isWan : BitVec 32
  pnameLen : BitVec 32
  flags : BitVec 32

def RoutingInput.scalars (input : RoutingInput) : List (BitVec 32) :=
  [input.srcPort, input.dstPort, input.l4proto, input.ipVersion, input.dscp, input.isWan, input.pnameLen, input.flags]

def wordBytes (words : List (BitVec 32)) : List Byte := words.flatMap fun word => leBytes 4 word.toNat

def RoutingInput.bytes (input : RoutingInput) : List Byte :=
  input.srcIp.toList ++ input.dstIp.toList ++ input.mac.toList ++ input.pname.toList ++ wordBytes input.scalars

def bitmapBytes (routing : DomainRouting) : List Byte := wordBytes routing.bitmap.toList

inductive Block where
  | input
  | output
  | stack
  | value (fd : BitVec 32) (key : List Byte)
  deriving DecidableEq

/-- The maps behind the descriptors; the address maps and the MAC map have 20-byte keys, the domain
map has the bare address as its key. -/
structure MapHost (fds : RoutingMapFds) where
  keySize : BitVec 32 → ℕ
  find : BitVec 32 → List Byte → Option DomainRouting
  keySize_destinationV4 : keySize fds.destinationV4 = 20
  keySize_destinationV6 : keySize fds.destinationV6 = 20
  keySize_sourceV4 : keySize fds.sourceV4 = 20
  keySize_sourceV6 : keySize fds.sourceV6 = 20
  keySize_mac : keySize fds.mac = 20
  keySize_domain : keySize fds.domain = 16

def v4Key (ip : Vector Byte 16) : List Byte := leBytes 4 32 ++ ip.toList.drop 12 ++ List.replicate 12 0

def wideKey (bytes : Vector Byte 16) : List Byte := leBytes 4 128 ++ bytes.toList

namespace MapHost

variable {fds : RoutingMapFds} (host : MapHost fds) (input : RoutingInput)

def env : Env Block where
  lo
    | .stack => -512
    | _ => 0
  hi
    | .input => 128
    | .output => 272
    | .stack => 0
    | .value _ _ => 32
  maps fd := some ⟨host.keySize fd, fun key => (host.find fd key).map fun _ => .value fd key⟩

def fixed : Block → List Byte
  | .input => input.bytes
  | .value fd key => (host.find fd key).elim [] bitmapBytes
  | _ => []

def initialMem (output stack : ℤ → Byte) : Mem Block
  | .output => output
  | .stack => stack
  | block => fun o => (host.fixed input block).getD o.toNat 0

def initialRegs : ℕ → Value Block
  | 1 => .ptr .input 0
  | 2 => .ptr .output 0
  | 10 => .ptr .stack 0
  | _ => .uninit

def initialState (output stack : ℤ → Byte) : State Block := ⟨0, initialRegs, host.initialMem input output stack⟩

def address (v4 v6 : BitVec 32) (ip : Vector Byte 16) : Option DomainRouting :=
  if input.ipVersion = 1 then host.find v4 (v4Key ip)
  else if input.ipVersion = 2 then host.find v6 (wideKey ip)
  else none

def fact : FactKind → Option DomainRouting
  | .domain => host.find fds.domain input.dstIp.toList
  | .destination => host.address input fds.destinationV4 fds.destinationV6 input.dstIp
  | .source => host.address input fds.sourceV4 fds.sourceV6 input.srcIp
  | .mac => if input.flags &&& routingInputMacPresent = 0 then none else host.find fds.mac (wideKey input.mac)

def factBit (kind : FactKind) (id : ℕ) : Bool := (host.fact input kind).any fun routing => routing.bit id

def view : KernelView where
  domain := host.factBit input .domain
  destination := host.factBit input .destination
  source := host.factBit input .source
  mac := host.factBit input .mac
  dstPort := input.dstPort.toNat
  srcPort := input.srcPort.toNat
  l4proto := input.l4proto
  ipVersion := input.ipVersion
  dscp := input.dscp
  pname := if input.pnameLen = 0 then none else some (input.pname.toList.take input.pnameLen.toNat)

end MapHost

section

variable {fds : RoutingMapFds} (host : MapHost fds) (input : RoutingInput)

theorem wordBytes_length (words : List (BitVec 32)) : (wordBytes words).length = 4 * words.length := by
  induction words with
  | nil => rfl
  | cons w words ih =>
    rw [wordBytes, flatMap_cons, length_append, leBytes_length, length_cons]
    rw [wordBytes] at ih
    omega

theorem RoutingInput.bytes_length : input.bytes.length = 128 := by simp [RoutingInput.bytes, wordBytes_length, RoutingInput.scalars]

theorem bitmapBytes_length (routing : DomainRouting) : (bitmapBytes routing).length = 32 := by simp [bitmapBytes, wordBytes_length]

theorem bitmapBytes_zero : bitmapBytes .zero = List.replicate 32 0 := by decide

theorem readMem_getD (mem : Mem Block) (b : Block) (bytes : List Byte)
    (h : ∀ o : ℤ, mem b o = bytes.getD o.toNat 0) (o n : ℕ) (hn : o + n ≤ bytes.length) :
    readMem mem b o n = (bytes.drop o).take n := by
  apply ext_getElem
  · simp
    omega
  intro i h1 h2
  have hi : i < n := by simpa using h1
  simp only [readMem, getElem_map, getElem_range, getElem_take, getElem_drop, h]
  have : ((o : ℤ) + (i : ℤ)).toNat = o + i := by omega
  rw [this, getD_eq_getElem?_getD, getElem?_eq_getElem (by omega), Option.getD_some]

end

end Honk.Codegen
