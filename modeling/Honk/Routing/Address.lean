import Honk.Lib.Bytes

namespace Honk.Routing

open Honk.Lib BitVec

inductive IpAddr where
  | v4 (octets : Vector Byte 4)
  | v6 (octets : Vector Byte 16)
  deriving DecidableEq

/-- A network over addresses of `n` octets; `addr` may carry host bits. -/
structure Net (n : ℕ) where
  addr : Vector Byte n
  prefixLen : ℕ
  prefixLen_le : prefixLen ≤ 8 * n

inductive IpNet where
  | v4 (net : Net 4)
  | v6 (net : Net 16)

def prefixMask (bits : ℕ) : Byte := ~~~ (255#8 >>> bits)

def Net.network {n : ℕ} (net : Net n) : Vector Byte n := Vector.ofFn fun i => net.addr.get i &&& prefixMask (net.prefixLen - 8 * i)

def Net.Covers {n : ℕ} (net : Net n) (ip : Vector Byte n) : Prop := ∀ i < net.prefixLen, bitAt ip.toList i = bitAt net.addr.toList i

def IpNet.Covers : IpNet → IpAddr → Prop
  | .v4 net, .v4 ip => net.Covers ip
  | .v6 net, .v6 ip => net.Covers ip
  | _, _ => False

variable {i : ℕ}

theorem prefixMask_getLsbD (h : i < 8) : (prefixMask bits).getLsbD (7 - i) = decide (i < bits) := by
  have ha : (255#8).getLsbD (bits + (7 - i)) = decide (bits + (7 - i) < 8) := by
    by_cases hb : bits + (7 - i) < 8
    · have : ∀ j < 8, (255#8).getLsbD j = true := by decide
      simp [this _ hb, hb]
    · rw [getLsbD_of_ge _ _ (by omega)]
      simp [hb]
  rw [prefixMask, getLsbD_not, getLsbD_ushiftRight, ha]
  have h7 : 7 - i < 8 := by omega
  by_cases hb : i < bits
  · simp [h7, hb]; omega
  · simp [h7, hb]; omega

theorem Net.bitAt_network (net : Net n) (h : i < 8 * n) :
    bitAt net.network.toList i = (decide (i < net.prefixLen) && bitAt net.addr.toList i) := by
  have hi : i / 8 < n := by omega
  have hn : net.network.toList.getD (i / 8) 0 = net.addr.toList.getD (i / 8) 0 &&& prefixMask (net.prefixLen - 8 * (i / 8)) := by
    simp [Net.network, hi, List.getD_eq_getElem?_getD, Vector.get_eq_getElem]
  rw [bitAt, hn, getLsbD_and, prefixMask_getLsbD (Nat.mod_lt i (by omega)), bitAt, Bool.and_comm]
  congr 1
  have hd := Nat.div_add_mod i 8
  by_cases hp : i < net.prefixLen
  · simp [hp]; omega
  · simp [hp]; omega

theorem Net.covers_iff_network (net : Net n) (ip : Vector Byte n) :
    net.Covers ip ↔ ∀ i < net.prefixLen, bitAt ip.toList i = bitAt net.network.toList i := by
  have hl := net.prefixLen_le
  refine forall₂_congr fun i hi => ?_
  rw [net.bitAt_network (by omega)]
  simp [hi]

def Net.first {n : ℕ} (net : Net n) : ℕ := beNat net.addr.toList / 2 ^ (8 * n - net.prefixLen) * 2 ^ (8 * n - net.prefixLen)

def Net.last {n : ℕ} (net : Net n) : ℕ := net.first + (2 ^ (8 * n - net.prefixLen) - 1)

def IpNet.Contains : IpNet → IpAddr → Prop
  | .v4 net, .v4 ip => net.first ≤ beNat ip.toList ∧ beNat ip.toList ≤ net.last
  | .v6 net, .v6 ip => net.first ≤ beNat ip.toList ∧ beNat ip.toList ≤ net.last
  | _, _ => False

theorem Net.between_iff_covers (net : Net n) (ip : Vector Byte n) :
    (net.first ≤ beNat ip.toList ∧ beNat ip.toList ≤ net.last) ↔ net.Covers ip := by
  have hpo : 0 < 2 ^ (8 * n - net.prefixLen) := Nat.two_pow_pos _
  have hl : ip.toList.length = net.addr.toList.length := by simp
  have hd := div_beNat_eq_iff ip.toList net.addr.toList net.prefixLen hl (by simpa using net.prefixLen_le)
  have hn : ip.toList.length = n := by simp
  rw [hn] at hd
  rw [Net.Covers, ← hd, Nat.div_eq_iff hpo, Net.last, Net.first]
  exact and_congr_right fun _ => by omega

theorem IpNet.contains_iff_covers (net : IpNet) (ip : IpAddr) : net.Contains ip ↔ net.Covers ip := by
  cases net with
  | v4 net =>
    cases ip with
    | v4 ip => exact net.between_iff_covers ip
    | v6 ip => rfl
  | v6 net =>
    cases ip with
    | v4 ip => rfl
    | v6 ip => exact net.between_iff_covers ip

end Honk.Routing
