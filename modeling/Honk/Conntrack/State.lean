import Honk.Routing.Address

namespace Honk.Conntrack

open Honk.Lib

def classifiedMark : BitVec 32 := 0x40000000
def nfqueuePendingMark : BitVec 32 := 0x80000000
def nfqueueSignatureMark : BitVec 32 := classifiedMark ||| nfqueuePendingMark
def nfqueueTokenMask : BitVec 32 := ~~~nfqueueSignatureMark
def skbMarkReservedMask : BitVec 32 := nfqueueSignatureMark

def skbMarkHasReservedBits (mark : BitVec 32) : Bool := mark &&& skbMarkReservedMask != 0

def extractNfqueueToken (mark : BitVec 32) : Option (BitVec 32) :=
  if mark &&& nfqueueSignatureMark != nfqueueSignatureMark then none
  else if mark &&& nfqueueTokenMask = 0 then none
  else some (mark &&& nfqueueTokenMask)

def routingMetaFlagPublished : BitVec 64 := 1 <<< 56
def routingMetaFlagOffload : BitVec 64 := 1 <<< 57
def routingMetaFlagWanUserspace : BitVec 64 := 1 <<< 58

inductive UdpDecisionState where
  | none
  | preparing
  | pending
  | directArmed
  | proxy
  | block
  | aborted

def UdpDecisionState.code : UdpDecisionState → Byte
  | .none => 0
  | .preparing => 1
  | .pending => 2
  | .directArmed => 3
  | .proxy => 4
  | .block => 5
  | .aborted => 6

theorem code_injective : Function.Injective UdpDecisionState.code := by
  intro a b h
  cases a <;> cases b <;> first | rfl | cases h

structure ConnState where
  isWanIngressDirection : Byte := 0
  state : Byte := 0
  tcpSynFlags : BitVec 16 := 0
  decisionToken : BitVec 32 := 0
  lastSeenNs : BitVec 64 := 0
  routingMeta : BitVec 64 := 0
  mac : Vector Byte 6 := Vector.replicate 6 0
  pname : Vector Byte 16 := Vector.replicate 16 0
  pid : BitVec 32 := 0
  traceId : BitVec 32 := 0
  incarnation : BitVec 64 := 0
  tcpSynIsn : BitVec 32 := 0

end Honk.Conntrack
