import Honk.Routing.Build

namespace Honk.Routing

open Honk.Lib
open BitVec (eq_of_getLsbD_eq eq_of_toNat_eq getLsbD_and getLsbD_or getLsbD_setWidth getLsbD_ushiftRight setWidth_eq toNat_setWidth)

def tproxyMark : BitVec 32 := 0x08000000#32
def nfqueueSignatureMark : BitVec 32 := 0xc0000000#32
def dnsRouteGenerationMax : ℕ := 2 ^ 20 - 1
def dnsRouteMarkMask : BitVec 32 := 0x37ffffff#32
def dnsDirectMarkKind : BitVec 32 := 0x100#32

def routableOutbound (outbound : Byte) : Bool := (decide (2 ≤ outbound) && decide (outbound < 0xfc)) || outbound == 0xfd

structure UdpDnsRoute where
  outbound : Byte
  generation : BitVec 32
  directMark : Bool
  generation_pos : generation ≠ 0
  generation_le : generation.toNat ≤ dnsRouteGenerationMax
  routable : directMark = false → routableOutbound outbound = true

namespace UdpDnsRoute

variable {generation : BitVec 64} {route : UdpDnsRoute} {mark : BitVec 32}

theorem generation_setWidth (h : ¬ (generation = 0 ∨ dnsRouteGenerationMax < generation.toNat)) :
    generation.setWidth 32 ≠ 0 ∧ (generation.setWidth 32).toNat ≤ dnsRouteGenerationMax ∧ (generation.setWidth 32).toNat = generation.toNat := by
  obtain ⟨hpo, hl⟩ := not_or.mp h
  have hs : (generation.setWidth 32).toNat = generation.toNat := by
    rw [toNat_setWidth, Nat.mod_eq_of_lt]
    simp only [dnsRouteGenerationMax] at hl
    omega
  refine ⟨fun hz => hpo ?_, hs ▸ not_lt.mp hl, hs⟩
  apply eq_of_toNat_eq
  rw [← hs, hz]
  rfl

def new (outbound : Byte) (generation : BitVec 64) : Option UdpDnsRoute :=
  if h : generation = 0 ∨ dnsRouteGenerationMax < generation.toNat then none
  else if hroutable : routableOutbound outbound = true then
    some ⟨outbound, generation.setWidth 32, false, (generation_setWidth h).1, (generation_setWidth h).2.1, fun _ => hroutable⟩
  else none

/-- A marked must-direct datagram carries the index of its mark in place of an outbound. -/
def direct (index : Byte) (generation : BitVec 64) : Option UdpDnsRoute :=
  if h : generation = 0 ∨ dnsRouteGenerationMax < generation.toNat then none
  else some ⟨index, generation.setWidth 32, true, (generation_setWidth h).1, (generation_setWidth h).2.1, by simp⟩

section

variable (route : UdpDnsRoute)

def directMarkIndex : Option Byte := if route.directMark then some route.outbound else none

def toMark : BitVec 32 :=
  tproxyMark ||| route.outbound.setWidth 32 <<< 16 ||| (if route.directMark then dnsDirectMarkKind else 0#32) ||| route.generation &&& 0xff#32 |||
    (route.generation &&& 0x7f00#32) <<< 1 ||| (route.generation &&& 0x38000#32) <<< 9 ||| (route.generation &&& 0xc0000#32) <<< 10

variable (mark : BitVec 32)

def markGeneration : BitVec 32 :=
  mark &&& 0xff#32 ||| (mark >>> 1) &&& 0x7f00#32 ||| (mark >>> 9) &&& 0x38000#32 ||| (mark >>> 10) &&& 0xc0000#32

def fromMark : Option UdpDnsRoute :=
  if mark &&& ~~~dnsRouteMarkMask ≠ tproxyMark then none
  else
    let outbound : Byte := (mark >>> 16).setWidth 8
    let generation := markGeneration mark
    if mark &&& dnsDirectMarkKind ≠ 0 then direct outbound (generation.setWidth 64) else new outbound (generation.setWidth 64)

def toNfqueueMark : BitVec 32 := route.toMark ||| nfqueueSignatureMark

def fromNfqueueMark : Option UdpDnsRoute :=
  if mark &&& nfqueueSignatureMark ≠ nfqueueSignatureMark ∨ mark &&& dnsDirectMarkKind ≠ 0 then none
  else fromMark (mark &&& ~~~nfqueueSignatureMark)

theorem mask_bits : ∀ i < 32, (0xff#32).getLsbD i = decide (i < 8) ∧ (0x7f00#32).getLsbD i = decide (8 ≤ i ∧ i < 15) ∧
    (0x38000#32).getLsbD i = decide (15 ≤ i ∧ i < 18) ∧ (0xc0000#32).getLsbD i = decide (18 ≤ i ∧ i < 20) ∧
    dnsDirectMarkKind.getLsbD i = decide (i = 8) ∧ tproxyMark.getLsbD i = decide (i = 27) ∧
    (~~~dnsRouteMarkMask).getLsbD i = decide (i = 27 ∨ 30 ≤ i) ∧ nfqueueSignatureMark.getLsbD i = decide (30 ≤ i) := by decide

theorem toMark_bit (hj : j < 32) : route.toMark.getLsbD j = if j < 8 then route.generation.getLsbD j
    else if j = 8 then route.directMark
    else if j < 16 then route.generation.getLsbD (j - 1)
    else if j < 24 then route.outbound.getLsbD (j - 16)
    else if j < 27 then route.generation.getLsbD (j - 9)
    else if j = 27 then true
    else if j < 30 then route.generation.getLsbD (j - 10)
    else false := by
  obtain ⟨outbound, generation, kind, -, -, -⟩ := route
  have hk : (if kind then dnsDirectMarkKind else 0#32).getLsbD j = (kind && decide (j = 8)) := by
    cases kind with
    | false => simp
    | true => exact (mask_bits j hj).2.2.2.2.1
  have h0 := mask_bits j hj
  have h1 := mask_bits (j - 1) (by omega)
  have h9 := mask_bits (j - 9) (by omega)
  have h10 := mask_bits (j - 10) (by omega)
  simp only [toMark, getLsbD_or, getLsbD_and, BitVec.getLsbD_shiftLeft, getLsbD_setWidth, hk, h0, h1, h9, h10, hj,
    decide_true, Bool.true_and]
  clear h0 h1 h9 h10 hk
  have ho := BitVec.getLsbD_of_ge outbound (j - 16)
  obtain rfl | h8 := eq_or_ne j 8
  · simp
  obtain rfl | h27 := eq_or_ne j 27
  · simp
  split_ifs <;> grind

variable {i : ℕ}

theorem markGeneration_bit (hi : i < 32) : (markGeneration mark).getLsbD i = if i < 8 then mark.getLsbD i
    else if i < 15 then mark.getLsbD (i + 1)
    else if i < 18 then mark.getLsbD (i + 9)
    else if i < 20 then mark.getLsbD (i + 10)
    else false := by
  obtain ⟨h1, h2, h3, h4, -⟩ := mask_bits i hi
  simp only [markGeneration, getLsbD_or, getLsbD_and, getLsbD_ushiftRight, h1, h2, h3, h4]
  split_ifs <;> grind

theorem generation_bit (hi : 20 ≤ i) : route.generation.getLsbD i = false := by
  rw [BitVec.getLsbD]
  apply Nat.testBit_lt_two_pow
  calc route.generation.toNat ≤ dnsRouteGenerationMax := route.generation_le
    _ < 2 ^ 20 := by decide
    _ ≤ 2 ^ i := Nat.pow_le_pow_right two_pos hi

theorem kind_bit : mark &&& dnsDirectMarkKind ≠ 0 ↔ mark.getLsbD 8 = true := by
  constructor
  · intro h
    by_contra hb
    refine h (eq_of_getLsbD_eq fun i hi => ?_)
    rw [getLsbD_and, (mask_bits i hi).2.2.2.2.1, show (0 : BitVec 32).getLsbD i = false from BitVec.getLsbD_zero]
    grind
  intro hb h
  have hz := congrArg (BitVec.getLsbD · 8) h
  rw [getLsbD_and, hb] at hz
  exact absurd hz (by decide)

theorem signature_bits : mark &&& ~~~dnsRouteMarkMask = tproxyMark ↔
    mark.getLsbD 27 = true ∧ mark.getLsbD 30 = false ∧ mark.getLsbD 31 = false := by
  constructor
  · intro h
    have hb : ∀ i < 32, (mark.getLsbD i && decide (i = 27 ∨ 30 ≤ i)) = decide (i = 27) := by
      intro i hi
      rw [← (mask_bits i hi).2.2.2.2.2.1, ← (mask_bits i hi).2.2.2.2.2.2.1, ← getLsbD_and, h]
    have h27 := hb 27 (by decide)
    have h30 := hb 30 (by decide)
    have h31 := hb 31 (by decide)
    exact ⟨by simpa using h27, by simpa using h30, by simpa using h31⟩
  rintro ⟨h27, h30, h31⟩
  refine eq_of_getLsbD_eq fun i hi => ?_
  rw [getLsbD_and, (mask_bits i hi).2.2.2.2.2.1, (mask_bits i hi).2.2.2.2.2.2.1]
  obtain rfl | rfl | rfl | ho : i = 27 ∨ i = 30 ∨ i = 31 ∨ (i ≠ 27 ∧ i < 30) := by omega
  · rw [h27]
    decide
  · rw [h30]
    decide
  · rw [h31]
    decide
  · grind

theorem markGeneration_toMark : markGeneration route.toMark = route.generation := by
  refine eq_of_getLsbD_eq fun i hi => ?_
  rw [markGeneration_bit _ hi]
  split_ifs
  · rw [toMark_bit _ hi, if_pos ‹_›]
  · rw [toMark_bit _ (by omega)]
    grind
  · rw [toMark_bit _ (by omega)]
    grind
  · rw [toMark_bit _ (by omega)]
    grind
  · exact (generation_bit route (by omega)).symm

theorem outbound_toMark : (route.toMark >>> 16).setWidth 8 = route.outbound := by
  refine eq_of_getLsbD_eq fun i hi => ?_
  rw [getLsbD_setWidth, getLsbD_ushiftRight, toMark_bit _ (by omega)]
  grind

theorem generation_valid : ¬ (route.generation.setWidth 64 = 0 ∨ dnsRouteGenerationMax < (route.generation.setWidth 64).toNat) := by
  have hs : (route.generation.setWidth 64).toNat = route.generation.toNat := by
    rw [toNat_setWidth, Nat.mod_eq_of_lt]
    exact route.generation.isLt.trans (by decide)
  rw [not_or, not_lt, hs]
  refine ⟨fun hz => route.generation_pos (eq_of_toNat_eq ?_), route.generation_le⟩
  rw [← hs, hz]
  rfl

end

theorem setWidth_generation (h : ¬ (generation = 0 ∨ dnsRouteGenerationMax < generation.toNat)) :
    (generation.setWidth 32).setWidth 64 = generation := by
  apply eq_of_toNat_eq
  rw [toNat_setWidth, (generation_setWidth h).2.2, Nat.mod_eq_of_lt generation.isLt]

theorem eq_of_fields (ho : route.outbound = other.outbound)
    (hg : route.generation = other.generation) (hk : route.directMark = other.directMark) : route = other := by
  obtain ⟨outbound, generation, directMark, _, _, _⟩ := route
  obtain ⟨outbound', generation', directMark', _, _, _⟩ := other
  cases ho
  cases hg
  cases hk
  rfl

theorem setWidth_setWidth_generation (route : UdpDnsRoute) : (route.generation.setWidth 64).setWidth 32 = route.generation := by
  rw [BitVec.setWidth_setWidth_of_le _ (by decide), setWidth_eq]

theorem direct_eq_some : direct index generation = some route ↔
    route.outbound = index ∧ route.generation.setWidth 64 = generation ∧ route.directMark = true := by
  unfold direct
  constructor
  · intro h
    split at h
    · cases h
    rename_i hv
    cases h
    exact ⟨rfl, setWidth_generation hv, rfl⟩
  rintro ⟨rfl, rfl, hk⟩
  rw [dif_neg route.generation_valid]
  exact congrArg some (eq_of_fields rfl route.setWidth_setWidth_generation hk.symm)

theorem new_eq_some {outbound : Byte} : new outbound generation = some route ↔
    route.outbound = outbound ∧ route.generation.setWidth 64 = generation ∧ route.directMark = false := by
  unfold new
  constructor
  · intro h
    split at h
    · cases h
    rename_i hv
    split at h <;> cases h
    exact ⟨rfl, setWidth_generation hv, rfl⟩
  rintro ⟨rfl, rfl, hk⟩
  rw [dif_neg route.generation_valid, dif_pos (route.routable hk)]
  exact congrArg some (eq_of_fields rfl route.setWidth_setWidth_generation hk.symm)

theorem fromMark_toMark (route : UdpDnsRoute) : fromMark route.toMark = some route := by
  have hs : route.toMark &&& ~~~dnsRouteMarkMask = tproxyMark := by
    rw [signature_bits, toMark_bit _ (by decide), toMark_bit _ (by decide), toMark_bit _ (by decide)]
    simp
  have hk : route.toMark &&& dnsDirectMarkKind ≠ 0 ↔ route.directMark = true := by
    rw [kind_bit, toMark_bit _ (by decide)]
    simp
  unfold fromMark
  rw [if_neg (not_not.mpr hs), markGeneration_toMark, outbound_toMark]
  dsimp only
  split
  · rename_i hd
    exact direct_eq_some.mpr ⟨rfl, rfl, hk.mp hd⟩
  · rename_i hpr
    exact new_eq_some.mpr ⟨rfl, rfl, by simpa using mt hk.mpr hpr⟩

theorem of_fromMark (h : fromMark mark = some route) :
    mark &&& ~~~dnsRouteMarkMask = tproxyMark ∧ route.outbound = (mark >>> 16).setWidth 8 ∧ route.generation = markGeneration mark ∧
      route.directMark = mark.getLsbD 8 := by
  have hn : route.generation.setWidth 64 = (markGeneration mark).setWidth 64 → route.generation = markGeneration mark := by
    intro he
    rw [← route.setWidth_setWidth_generation, he, BitVec.setWidth_setWidth_of_le _ (by decide), setWidth_eq]
  unfold fromMark at h
  split at h
  · cases h
  rename_i hs
  dsimp only at h
  split at h
  · rename_i hd
    obtain ⟨ho, hg, hk⟩ := direct_eq_some.mp h
    exact ⟨not_not.mp hs, ho, hn hg, by rw [hk, (kind_bit mark).mp hd]⟩
  rename_i hpr
  obtain ⟨ho, hg, hk⟩ := new_eq_some.mp h
  exact ⟨not_not.mp hs, ho, hn hg, by simpa [hk] using mt (kind_bit mark).mpr hpr⟩

theorem toMark_fromMark (h : fromMark mark = some route) : route.toMark = mark := by
  obtain ⟨hs, ho, hg, hk⟩ := of_fromMark h
  obtain ⟨h27, h30, h31⟩ := (signature_bits mark).mp hs
  refine eq_of_getLsbD_eq fun j hj => ?_
  rw [toMark_bit _ hj, ho, hg, hk]
  split_ifs with h1 h2 h3 h4 h5 h6 h7
  · rw [markGeneration_bit _ hj, if_pos h1]
  · rw [h2]
  · rw [markGeneration_bit _ (by omega)]
    grind
  · rw [getLsbD_setWidth, getLsbD_ushiftRight]
    grind
  · rw [markGeneration_bit _ (by omega)]
    grind
  · rw [h6, h27]
  · rw [markGeneration_bit _ (by omega)]
    grind
  obtain rfl | rfl : j = 30 ∨ j = 31 := by omega
  · exact h30.symm
  · exact h31.symm

theorem toNfqueueMark_fromNfqueueMark (h : fromNfqueueMark mark = some route) : route.toNfqueueMark = mark := by
  unfold fromNfqueueMark at h
  split at h
  · cases h
  rename_i hs
  obtain ⟨hsi, -⟩ := not_or.mp hs
  rw [toNfqueueMark, toMark_fromMark h, ← not_not.mp hsi]
  refine eq_of_getLsbD_eq fun j hj => ?_
  simp only [getLsbD_or, getLsbD_and, BitVec.getLsbD_not, hj, decide_true, Bool.true_and]
  cases mark.getLsbD j <;> simp

end UdpDnsRoute

section

variable {C : Type}

/-- Every terminal direct mark, and nothing else, has an index that the router resolves and that survives its way through a packet's mark;
and a mark is the encoding of what it decodes to. -/
theorem direct_mark_roundTrip (setting : Setting C) (routing : RoutingConfig C) (shared : SharedMatchers) :
    (∀ router, fromConfigSharing setting routing shared = .ok router → ∀ action ∈ router.routes.map CompiledRoute.action ++ [router.fallback],
      (action.isTerminalDirectMark = true → ∃ index mark, action.directMarkIndex = some index ∧ action.mark = some mark ∧
        router.directMark index = some mark.1 ∧ ∀ generation : BitVec 64, generation ≠ 0 → generation.toNat ≤ dnsRouteGenerationMax →
          ∃ route, UdpDnsRoute.direct index generation = some route ∧ ∃ decoded, UdpDnsRoute.fromMark route.toMark = some decoded ∧
            decoded.directMarkIndex = some index ∧ decoded.generation.toNat = generation.toNat) ∧
      (action.isTerminalDirectMark = false → action.directMarkIndex = none)) ∧
    fromConfigSharing setting routing shared ≠ .error .panic ∧
    (∀ mark route, UdpDnsRoute.fromMark mark = some route → route.toMark = mark) ∧
    ∀ mark route, UdpDnsRoute.fromNfqueueMark mark = some route → route.toNfqueueMark = mark := by
  have hf : (⟨routing.defaultOutbound, routing.defaultMust, DirectMark.new routing.defaultMark, none⟩ : RouteAction).directMarkIndex = none := rfl
  obtain ⟨hpa, hin⟩ := build_indexed setting routing.rules shared hf
  refine ⟨fun router h action ha => ⟨fun ht => ?_, (hin router h action ha).2⟩, hpa, fun _ _ => UdpDnsRoute.toMark_fromMark,
    fun _ _ => UdpDnsRoute.toNfqueueMark_fromNfqueueMark⟩
  obtain ⟨index, mark, hindex, hm, hta⟩ := (hin router h action ha).1 ht
  refine ⟨index, mark, hindex, hm, hta, fun generation hpo hl => ?_⟩
  have hv := not_or.mpr ⟨hpo, not_lt.mpr hl⟩
  obtain ⟨route, hr⟩ : ∃ route, UdpDnsRoute.direct index generation = some route := by
    rw [UdpDnsRoute.direct, dif_neg hv]
    exact ⟨_, rfl⟩
  obtain ⟨ho, rfl, hk⟩ := UdpDnsRoute.direct_eq_some.mp hr
  refine ⟨route, hr, route, route.fromMark_toMark, by rw [UdpDnsRoute.directMarkIndex, hk, ho]; rfl, ?_⟩
  rw [← (UdpDnsRoute.generation_setWidth hv).2.2, route.setWidth_setWidth_generation]

def markedConfig : RoutingConfig Unit where
  rules := [⟨"first", fun _ => {}, (), "direct", 0, true, 0x300⟩, ⟨"second", fun _ => {}, (), "direct", 0, false, 0x200⟩,
    ⟨"third", fun _ => {}, (), "direct", 0, true, 0x300⟩]
  defaultOutbound := "direct"
  defaultMust := true
  defaultMark := 0x100

theorem generation_zero_unencoded : ∃ router, fromConfigSharing plainSetting markedConfig {} = .ok router ∧
    router.fallback.isTerminalDirectMark = true ∧ router.fallback.directMarkIndex = some 0 ∧
    (0 : BitVec 64).toNat ≤ dnsRouteGenerationMax ∧ UdpDnsRoute.direct 0 0 = none :=
  ⟨_, rfl, by decide +kernel⟩

theorem direct_mark_roundTrip_marked : ∃ router, fromConfigSharing plainSetting markedConfig {} = .ok router ∧
    router.directMarks = [0x100, 0x300] ∧ ∃ action ∈ router.routes.map CompiledRoute.action, ∃ index mark, action.directMarkIndex = some index ∧
      action.mark = some mark ∧ router.directMark index = some mark.1 ∧ ∃ route, UdpDnsRoute.direct index 0xabcde = some route ∧
        ∃ decoded, UdpDnsRoute.fromMark route.toMark = some decoded ∧ decoded.directMarkIndex = some index := by
  obtain ⟨router, h, hm, action, ha, ht⟩ : ∃ router, fromConfigSharing plainSetting markedConfig {} = .ok router ∧
      router.directMarks = [0x100, 0x300] ∧ ∃ action ∈ router.routes.map CompiledRoute.action, action.isTerminalDirectMark = true :=
    ⟨_, rfl, by decide +kernel⟩
  obtain ⟨index, mark, hin, hma, hta, htr⟩ := ((direct_mark_roundTrip plainSetting markedConfig {}).1 router h action
    (List.mem_append_left _ ha)).1 ht
  obtain ⟨route, hr, decoded, hd, hs, -⟩ := htr 0xabcde (by decide) (by decide)
  exact ⟨router, h, hm, action, ha, index, mark, hin, hma, hta, route, hr, decoded, hd, hs⟩

end

end Honk.Routing
