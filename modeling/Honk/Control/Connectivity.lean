import Honk.Group.Graph

namespace Honk.Control

open Honk.Group List

inductive ProbeDomain
  | tcp
  | dnsUdp
  | dataUdp
  deriving DecidableEq

inductive IpVersion
  | v4
  | v6
  deriving DecidableEq

def probeDomains : List ProbeDomain := [.tcp, .dnsUdp, .dataUdp]

def ipVersions : List IpVersion := [.v4, .v6]

abbrev Health := NodeId → ProbeDomain → IpVersion → Bool

def groupDatapathAlive (group : Group) (manager : GroupManager) (alive : Health)
    (domain : ProbeDomain) (ipver : IpVersion) : Bool :=
  (domain = .tcp && group.finalOutbound = none && (manager.leafNodesInGroup group.name).length = 1) ||
  (manager.reachableLeafNodesInGroup group.name).any fun node =>
    (domain = .tcp || node.protocol = .block || node.supportsUdp) && alive node.id domain ipver

def userBase : ℕ := 2

abbrev Slot := ℕ × ProbeDomain × IpVersion

abbrev Connectivity := Slot → Bool

def groupSlots (index : ℕ) : List Slot :=
  probeDomains.flatMap fun domain => ipVersions.map fun ipver => (userBase + index, domain, ipver)

def groupConnectivitySnapshot (config : Config) (manager : GroupManager) (alive : Health) : List (Slot × Bool) :=
  config.groups.zipIdx.flatMap fun (group, index) =>
    (groupSlots index).map fun slot => (slot, groupDatapathAlive group manager alive slot.2.1 slot.2.2)

def writeSlots (ok : ℕ → Bool) : List (Slot × Bool) → ℕ → Connectivity → Bool × Connectivity
  | [], _, bits => (true, bits)
  | (slot, alive) :: rest, i, bits => if ok i then writeSlots ok rest (i + 1) (Function.update bits slot alive) else (false, bits)

def publishGroupConnectivity (ok : ℕ → Bool) (snapshot : List (Slot × Bool)) (bits : Connectivity) : Bool × Connectivity :=
  writeSlots ok snapshot 0 bits

def openGroupConnectivity (ok : ℕ → Bool) (groupCount : ℕ) (bits : Connectivity) : Bool × Connectivity :=
  writeSlots ok (((List.range groupCount).flatMap groupSlots).map fun slot => (slot, true)) 0 bits

def healthCheckTargets (config : Config) : List Node :=
  let ids := config.groups.flatMap (collectGroupLeafIds config maxGroupDepth [])
  config.nodes.filter fun node => ids = [] ∨ node.id ∈ ids

def buildOutboundIdMap (config : Config) (id : NodeId) : Option ℕ :=
  (config.groups.zipIdx.find? fun (group, _) =>
    id ∈ collectGroupLeafIds config maxGroupDepth [] group).map fun (_, index) => userBase + index

section

variable {config : Config} {group : Group} {id : NodeId}

theorem mem_groupLeafNodes {manager : GroupManager} {name : String} {includeFinal : Bool}
    {node : Node} (h : node ∈ manager.groupLeafNodes name includeFinal) :
    node ∈ manager.visitGroupLeaves includeFinal maxGroupDepth [] name := by
  rw [GroupManager.groupLeafNodes] at h
  generalize manager.visitGroupLeaves includeFinal maxGroupDepth [] name = leaves at h
  suffices ha : ∀ (leaves out : List Node), node ∈ leaves.foldl
      (fun out node => if out.any (·.id = node.id) then out else out ++ [node]) out →
      node ∈ out ∨ node ∈ leaves from
    (ha leaves [] h).resolve_left not_mem_nil
  intro leaves
  induction leaves with
  | nil => exact fun out h => .inl h
  | cons leaf leaves ih =>
    intro out h
    rw [foldl_cons] at h
    rcases ih _ h with ho | hr
    · split_ifs at ho
      · exact .inl ho
      · rcases mem_append.mp ho with hm | hl
        · exact .inl hm
        · exact .inr (mem_singleton.mp hl ▸ mem_cons_self)
    · exact .inr (mem_cons_of_mem _ hr)

theorem groupDatapathAlive_congr {manager : GroupManager} {alive alive' : Health} {domain : ProbeDomain} {ipver : IpVersion}
    (h : ∀ id, manager.groupReachesNode group.name id → alive id domain ipver = alive' id domain ipver) :
    groupDatapathAlive group manager alive domain ipver = groupDatapathAlive group manager alive' domain ipver := by
  have ha : (manager.reachableLeafNodesInGroup group.name).any (fun node =>
        (domain = .tcp || node.protocol = .block || node.supportsUdp) && alive node.id domain ipver) =
      (manager.reachableLeafNodesInGroup group.name).any (fun node =>
        (domain = .tcp || node.protocol = .block || node.supportsUdp) && alive' node.id domain ipver) := by
    rw [Bool.eq_iff_iff, any_eq_true, any_eq_true]
    refine exists_congr fun node => and_congr_right fun hn => ?_
    have hr : manager.groupReachesNode group.name node.id = true := any_eq_true.mpr ⟨node, mem_groupLeafNodes hn, by simp⟩
    rw [h node.id hr]
  rw [groupDatapathAlive, groupDatapathAlive, ha]

section

variable (h : (GroupManager.ofConfig config).groupReachesNode group.name id)
include h

theorem exists_reached_leaf : ∃ node, node.id = id ∧
      node ∈ (GroupManager.ofConfig config).visitGroupLeaves true maxGroupDepth [] group.name := by
  obtain ⟨node, hn, hid⟩ := any_eq_true.mp h
  exact ⟨node, by simpa using hid, hn⟩

theorem exists_collected : ∃ group ∈ config.groups, id ∈ collectGroupLeafIds config maxGroupDepth [] group := by
  obtain ⟨node, rfl, hn⟩ := exists_reached_leaf h
  obtain ⟨found, hf, hc⟩ := visitGroupLeaves_subset true maxGroupDepth [] _ hn
  exact ⟨found, (groupsByName_mem hf).1, hc⟩

theorem buildOutboundIdMap_isSome : (buildOutboundIdMap config id).isSome := by
  obtain ⟨found, hf, hc⟩ := exists_collected h
  obtain ⟨index, hin⟩ := mem_iff_getElem?.mp hf
  rw [buildOutboundIdMap, Option.isSome_map, find?_isSome]
  exact ⟨(found, index), mk_mem_zipIdx_iff_getElem?.mpr hin, by simpa using hc⟩

theorem mem_healthCheckTargets : id = directNodeId ∨ id = blockNodeId ∨ ∃ node ∈ healthCheckTargets config, node.id = id := by
  obtain ⟨node, rfl, hn⟩ := exists_reached_leaf h
  obtain ⟨found, hf, hc⟩ := exists_collected h
  rcases visitGroupLeaves_known true maxGroupDepth [] _ hn with hk | rfl | rfl
  · refine .inr (.inr ⟨node, mem_filter.mpr ⟨hk, ?_⟩, rfl⟩)
    exact decide_eq_true (.inr (mem_flatMap.mpr ⟨found, hf, hc⟩))
  · exact .inl rfl
  · exact .inr (.inl rfl)

end

end

variable {ok : ℕ → Bool}

theorem writeSlots_eq (ok : ℕ → Bool) (writes : List (Slot × Bool)) (i : ℕ) (bits : Connectivity) :
    ∃ n ≤ writes.length, (writeSlots ok writes i bits).2 =
        (writes.take n).foldl (fun bits write => Function.update bits write.1 write.2) bits ∧
      ((writeSlots ok writes i bits).1 = true → n = writes.length) := by
  induction writes generalizing i bits with
  | nil => exact ⟨0, le_rfl, rfl, fun _ => rfl⟩
  | cons write writes ih =>
    rw [writeSlots]
    by_cases ho : ok i
    · rw [if_pos ho]
      obtain ⟨n, hn, hb, ha⟩ := ih (i + 1) (Function.update bits write.1 write.2)
      exact ⟨n + 1, Nat.succ_le_succ hn, hb, fun h => congrArg Nat.succ (ha h)⟩
    · rw [if_neg ho]
      exact ⟨0, Nat.zero_le _, rfl, fun h => absurd h (by simp)⟩

variable {writes : List (Slot × Bool)} {slot : Slot} {write : Slot × Bool}

theorem foldl_update_of_notMem (bits : Connectivity) (h : slot ∉ writes.map Prod.fst) :
    writes.foldl (fun bits write => Function.update bits write.1 write.2) bits slot = bits slot := by
  induction writes generalizing bits with
  | nil => rfl
  | cons write writes ih =>
    obtain ⟨hn, hr⟩ : slot ≠ write.1 ∧ slot ∉ writes.map Prod.fst := by simpa using h
    rw [foldl_cons, ih _ hr, Function.update_of_ne hn]

theorem foldl_update_of_mem (bits : Connectivity) (hn : (writes.map Prod.fst).Nodup) (h : write ∈ writes) :
    writes.foldl (fun bits write => Function.update bits write.1 write.2) bits write.1 = write.2 := by
  induction writes generalizing bits with
  | nil => exact absurd h not_mem_nil
  | cons first writes ih =>
    rw [map_cons, nodup_cons] at hn
    rw [foldl_cons]
    rcases mem_cons.mp h with rfl | hr
    · rw [foldl_update_of_notMem _ hn.1, Function.update_self]
    · exact ih _ hn.2 hr

theorem publishGroupConnectivity_true (hn : (writes.map Prod.fst).Nodup)
    (h : (publishGroupConnectivity ok writes bits).1 = true) (hw : write ∈ writes) :
    (publishGroupConnectivity ok writes bits).2 write.1 = write.2 := by
  obtain ⟨n, -, hb, ha⟩ := writeSlots_eq ok writes 0 bits
  rw [publishGroupConnectivity, hb, ha h, take_length]
  exact foldl_update_of_mem bits hn hw

theorem groupSlots_nodup (index : ℕ) : (groupSlots index).Nodup := by simp [groupSlots, probeDomains, ipVersions]

theorem outbound_of_mem_groupSlots (h : slot ∈ groupSlots index) : slot.1 = userBase + index := by
  obtain ⟨domain, -, hs⟩ := mem_flatMap.mp h
  obtain ⟨ipver, -, rfl⟩ := mem_map.mp hs
  rfl

theorem snapshot_nodup : ((groupConnectivitySnapshot config manager alive).map Prod.fst).Nodup := by
  have hk : (groupConnectivitySnapshot config manager alive).map Prod.fst =
      (config.groups.zipIdx.map Prod.snd).flatMap groupSlots := by
    rw [groupConnectivitySnapshot, map_flatMap, flatMap_map]
    refine flatMap_congr fun entry _ => ?_
    rw [map_map]
    exact map_id _
  have hin : config.groups.zipIdx.map Prod.snd = List.range config.groups.length := by rw [zipIdx_map_snd, range_eq_range']
  rw [hk, hin, nodup_flatMap]
  refine ⟨fun index _ => groupSlots_nodup index, ?_⟩
  refine pairwise_lt_range.imp fun {i j} hlt slot hi hj => ?_
  have := outbound_of_mem_groupSlots hi
  have := outbound_of_mem_groupSlots hj
  omega

end Honk.Control
