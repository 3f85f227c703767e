import Mathlib

namespace Honk.Control

def maxEffectiveNofile : ℕ := 1048576
def maxFixedReserve : ℕ := 256
def maxActiveTcpFlows : ℕ := 16384
def maxTransientDials : ℕ := 1024
def maxUdpSlowPath : ℕ := 256
def dnsUdpQueryMemoryBytes : ℕ := 256 * 1024
def maxVlessCarriers : ℕ := 8192
def udpEndpointMemoryBytes : ℕ := 64 * 1024
def tcpFlowDescriptorCost : ℕ := 6
def maxReplySocketsPerEndpoint : ℕ := 8
def udpEndpointDescriptorCost : ℕ := 2 + maxReplySocketsPerEndpoint
def maxUdpClientQueries : ℕ := 1536
def maxEndpoints : ℕ := 32768
def defaultDnsSocketLimit : ℕ := 256
def maxTotalEntries : ℕ := 2048

structure ResourceBudget where
  effectiveNofile : ℕ
  fixedReserve : ℕ
  activeTcpFlows : ℕ
  tcpPoolEntries : ℕ
  transientDials : ℕ
  vlessCarriers : ℕ
  udpEndpoints : ℕ
  udpSlowPath : ℕ
  dnsSockets : ℕ
  dnsUdpQueries : ℕ

def saturate (n : ℕ) : ℕ := min n (2 ^ 64 - 1)

namespace ResourceBudget

def forNofile (rprx : Bool) (nofile : ℕ) : ResourceBudget :=
  let effectiveNofile := min nofile maxEffectiveNofile
  let fixedReserve := min (effectiveNofile / 8) maxFixedReserve
  let allocatable := effectiveNofile - fixedReserve
  let activeTcpDescriptors :=
    min (allocatable / 4) (maxActiveTcpFlows * tcpFlowDescriptorCost) / tcpFlowDescriptorCost * tcpFlowDescriptorCost
  let afterActiveTcp := allocatable - activeTcpDescriptors
  let tcpPoolEntries := min (min (allocatable / 8) maxTotalEntries) afterActiveTcp
  let afterTcpPool := afterActiveTcp - tcpPoolEntries
  let transientDials := if allocatable = 0 then 0 else min (min ((allocatable + 15) / 16) maxTransientDials) afterTcpPool
  let afterDials := afterTcpPool - transientDials
  let dnsSockets := min (min transientDials defaultDnsSocketLimit) afterDials
  let afterDns := afterDials - dnsSockets
  let vlessCarriers := if rprx then min (afterDns / 8) maxVlessCarriers else 0
  let udpEndpoints := min ((afterDns - vlessCarriers) / udpEndpointDescriptorCost) maxEndpoints
  { effectiveNofile, fixedReserve, tcpPoolEntries, transientDials, vlessCarriers, udpEndpoints, dnsSockets
    activeTcpFlows := activeTcpDescriptors / tcpFlowDescriptorCost
    udpSlowPath := min udpEndpoints maxUdpSlowPath
    dnsUdpQueries := maxUdpClientQueries }

variable (budget : ResourceBudget)

def withMemory (totalBytes : ℕ) : ResourceBudget :=
  let udpEndpoints := min budget.udpEndpoints (saturate (totalBytes / 4 / udpEndpointMemoryBytes))
  { budget with
    udpEndpoints
    udpSlowPath := min udpEndpoints maxUdpSlowPath
    dnsUdpQueries := min budget.dnsUdpQueries (saturate (totalBytes / 4 / dnsUdpQueryMemoryBytes)) }

def elasticTcpFlows (activePermits openFds : ℕ) : ℕ :=
  let floor := budget.activeTcpFlows
  if floor = 0 then activePermits
  else
    let nonTcpBudget := saturate (saturate (saturate (saturate (budget.tcpPoolEntries + budget.transientDials) +
      budget.dnsSockets) + budget.vlessCarriers) + saturate (budget.udpEndpoints * udpEndpointDescriptorCost))
    let nonTcpUsed := openFds - budget.fixedReserve - saturate (activePermits * tcpFlowDescriptorCost)
    let idleNonTcp := nonTcpBudget - nonTcpBudget / 2 - nonTcpUsed
    max (min (saturate (floor + idleNonTcp / tcpFlowDescriptorCost)) (saturate (floor * 2))) activePermits

def nonTcpDescriptors : ℕ := budget.tcpPoolEntries + budget.transientDials + budget.dnsSockets + budget.vlessCarriers +
  budget.udpEndpoints * udpEndpointDescriptorCost

def accountedDescriptors : ℕ :=
  budget.fixedReserve + budget.activeTcpFlows * tcpFlowDescriptorCost + budget.nonTcpDescriptors

def shares : List ℕ := [budget.fixedReserve, budget.activeTcpFlows, budget.tcpPoolEntries, budget.transientDials,
  budget.vlessCarriers, budget.udpEndpoints, budget.udpSlowPath, budget.dnsSockets, budget.dnsUdpQueries]

theorem partition_le {effective : ℕ} (hf : fixed ≤ effective) (ht : tcp ≤ effective - fixed) (hc : flows ≤ tcp)
    (hp : pool ≤ effective - fixed - tcp) (hd : dials ≤ effective - fixed - tcp - pool)
    (hs : sockets ≤ effective - fixed - tcp - pool - dials)
    (hv : carriers ≤ effective - fixed - tcp - pool - dials - sockets)
    (hu : endpoints ≤ effective - fixed - tcp - pool - dials - sockets - carriers) :
    fixed + flows + (pool + dials + sockets + carriers + endpoints) ≤ effective := by
  omega

theorem accounted_forNofile (rprx : Bool) (nofile : ℕ) :
    (forNofile rprx nofile).accountedDescriptors ≤ (forNofile rprx nofile).effectiveNofile := by
  refine partition_le ((min_le_left _ _).trans (Nat.div_le_self _ _)) ?_ (Nat.div_mul_le_self _ _) (min_le_right _ _) ?_
    (min_le_right _ _) ?_ ?_
  · exact (Nat.div_mul_le_self _ _).trans ((min_le_left _ _).trans (Nat.div_le_self _ _))
  · dsimp only [forNofile]
    split
    · exact Nat.zero_le _
    · exact min_le_right _ _
  · dsimp only [forNofile]
    split
    · exact (min_le_left _ _).trans (Nat.div_le_self _ _)
    · exact Nat.zero_le _
  · exact (Nat.mul_le_mul_right _ (min_le_left _ _)).trans (Nat.div_mul_le_self _ _)

/-- The shares stay within the limit and memory only lowers them, and a budget never lends TCP more than the idle part of
the half of the other descriptors that is not reserved. -/
theorem descriptor_budget (rprx : Bool) (nofile totalBytes : ℕ) :
    (forNofile rprx nofile).accountedDescriptors ≤ (forNofile rprx nofile).effectiveNofile ∧
    List.Forall₂ (· ≤ ·) ((forNofile rprx nofile).withMemory totalBytes).shares (forNofile rprx nofile).shares ∧
    ∀ (budget : ResourceBudget) (activePermits openFds : ℕ),
      activePermits ≤ budget.elasticTcpFlows activePermits openFds ∧
      budget.elasticTcpFlows activePermits openFds ≤ max (2 * budget.activeTcpFlows) activePermits ∧
      tcpFlowDescriptorCost * (budget.elasticTcpFlows activePermits openFds - max budget.activeTcpFlows activePermits) ≤
        budget.nonTcpDescriptors - budget.nonTcpDescriptors / 2 -
          (openFds - budget.fixedReserve - activePermits * tcpFlowDescriptorCost) := by
  refine ⟨accounted_forNofile rprx nofile, ?_, fun budget activePermits openFds => ?_⟩
  · have hu := min_le_left (forNofile rprx nofile).udpEndpoints (saturate (totalBytes / 4 / udpEndpointMemoryBytes))
    simp only [shares, withMemory, List.forall₂_cons, le_refl, true_and]
    exact ⟨hu, min_le_min_right _ hu, min_le_left _ _, .nil⟩
  -- A saturated sum is below the plain one, and so is what it lends.
  have hl : ∀ n, saturate n ≤ n := fun n => min_le_left _ _
  unfold elasticTcpFlows nonTcpDescriptors
  dsimp only
  split
  · simp
  · simp only [tcpFlowDescriptorCost]
    grind

end ResourceBudget

end Honk.Control
