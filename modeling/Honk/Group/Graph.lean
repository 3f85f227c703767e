import Mathlib

namespace Honk.Group

open List

abbrev NodeId := ℕ

def directNodeId : NodeId := 1

def blockNodeId : NodeId := 2

inductive NodeProtocol
  | direct
  | block
  | proxy
  deriving DecidableEq

structure Node where
  id : NodeId
  name : String
  address : String
  protocol : NodeProtocol
  /-- The protocol descriptor's answer for this node. -/
  supportsUdp : Bool
  deriving DecidableEq

def builtinDirectNode : Node := ⟨directNodeId, "direct", "", .direct, true⟩

def builtinBlockNode : Node := ⟨blockNodeId, "block", "", .block, false⟩

inductive GroupPolicy
  | selector
  | urlTest
  | loadBalance
  | fallback
  | score

structure Group where
  name : String
  policy : GroupPolicy
  nodes : List NodeId
  groups : List String
  default : Option String := none
  finalOutbound : Option String := none
  checkUrl : Option String := none

/-- The parts of a configuration that name nodes and groups. Assembled configurations have
distinct node ids; group names may repeat. -/
structure Config where
  groups : List Group
  nodes : List Node
  ids_nodup : (nodes.map Node.id).Nodup

def maxGroupDepth : ℕ := 8

def groupsByName (groups : List Group) (name : String) : Option Group := groups.reverse.find? (·.name = name)

theorem groupsByName_mem {groups : List Group} {name : String} {group : Group}
    (h : groupsByName groups name = some group) : group ∈ groups ∧ group.name = name :=
  ⟨mem_reverse.mp (mem_of_find?_eq_some h), by simpa using find?_some h⟩

inductive Mark
  | visiting
  | done

structure CycleScan where
  marks : List (String × Mark) := []
  cuts : List (String × String) := []

def CycleScan.mark (scan : CycleScan) (name : String) (mark : Mark) : CycleScan := { scan with marks := (name, mark) :: scan.marks }

def CycleScan.visit (groups : List Group) : ℕ → String → CycleScan → CycleScan
  | 0, _, scan => scan
  | fuel + 1, name, scan =>
    let scan := scan.mark name .visiting
    let children := ((groupsByName groups name).map Group.groups).getD []
    let scan := children.foldl
      (fun scan child =>
        if (groupsByName groups child).isNone then scan
        else
          match scan.marks.lookup child with
          | none => CycleScan.visit groups fuel child scan
          | some .visiting => { scan with cuts := scan.cuts ++ [(name, child)] }
          | some .done => scan)
      scan
    scan.mark name .done

def cycleCuts (groups : List Group) : List (String × String) :=
  let names := ((groups.map Group.name).dedup).insertionSort (· ≤ ·)
  (names.foldl
    (fun scan name =>
      if (scan.marks.lookup name).isSome then scan
      else scan.visit groups (groups.length + 1) name)
    ({} : CycleScan)).cuts

def breakGroupCycles (groups : List Group) : List Group :=
  let cuts := cycleCuts groups
  groups.map fun group => { group with groups := group.groups.filter fun tag => (group.name, tag) ∉ cuts }

structure GroupManager where
  groups : List Group
  nodes : List Node

def GroupManager.ofConfig (config : Config) : GroupManager where
  groups := breakGroupCycles config.groups
  nodes := config.nodes

inductive GroupMember
  | node (node : Node)
  | group (group : Group)

namespace GroupManager

variable (manager : GroupManager)

variable (name : String)

def group? : Option Group := groupsByName manager.groups name

def node? (id : NodeId) : Option Node := manager.nodes.find? (·.id = id)

def nodeByName : Option Node := manager.nodes.find? (·.name = name)

def finalMember (group : Group) : Option GroupMember :=
  match group.finalOutbound with
  | none => none
  | some name =>
    if name = "direct" then some (.node builtinDirectNode)
    else if name = "block" then some (.node builtinBlockNode)
    else
      match manager.nodeByName name with
      | some node => some (.node node)
      | none => (manager.group? name).map .group

/-- The leaves a walk meets, in its order. `depth` counts down from `maxGroupDepth`. -/
def visitGroupLeaves (includeFinal : Bool) : ℕ → List String → String → List Node
  | 0, _, _ => []
  | depth + 1, visited, name =>
    if name ∈ visited then []
    else
      match manager.group? name with
      | none => []
      | some group =>
        let visited := visited ++ [group.name]
        group.nodes.filterMap manager.node? ++ group.groups.flatMap (visitGroupLeaves includeFinal depth visited) ++
          (if includeFinal then
            match manager.finalMember group with
            | some (.node node) => [node]
            | some (.group final) => visitGroupLeaves true depth visited final.name
            | none => []
          else [])

def groupLeafNodes (includeFinal : Bool) : List Node :=
  (manager.visitGroupLeaves includeFinal maxGroupDepth [] name).foldl
    (fun out node => if out.any (·.id = node.id) then out else out ++ [node]) []

def leafNodesInGroup : List Node := manager.groupLeafNodes name false

def reachableLeafNodesInGroup : List Node := manager.groupLeafNodes name true

def groupReachesNode (id : NodeId) : Bool := (manager.visitGroupLeaves true maxGroupDepth [] name).any (·.id = id)

end GroupManager

def collectGroupLeafIds (config : Config) : ℕ → List String → Group → List NodeId
  | 0, _, _ => []
  | depth + 1, visited, group =>
    if group.name ∈ visited then []
    else
      let visited := visited ++ [group.name]
      group.nodes ++ (group.groups.filterMap (groupsByName config.groups)).flatMap
          (collectGroupLeafIds config depth visited) ++
        (match group.finalOutbound with
        | none => []
        | some name =>
          if name = "direct" then [directNodeId]
          else if name = "block" then [blockNodeId]
          else
            match config.nodes.find? (·.name = name) with
            | some node => [node.id]
            | none =>
              match groupsByName config.groups name with
              | some sub => collectGroupLeafIds config depth visited sub
              | none => [])

section

variable {config : Config} {group : Group} {node : Node}

theorem group?_ofConfig {name : String} (h : (GroupManager.ofConfig config).group? name = some group) :
    ∃ original, groupsByName config.groups name = some original ∧ group.name = original.name ∧ group.nodes = original.nodes ∧
      group.groups ⊆ original.groups ∧ group.finalOutbound = original.finalOutbound := by
  rw [GroupManager.group?, GroupManager.ofConfig, breakGroupCycles, groupsByName, ← map_reverse, find?_map, Option.map_eq_some_iff] at h
  obtain ⟨original, ho, rfl⟩ := h
  exact ⟨original, ho, rfl, rfl, filter_subset' _, rfl⟩

theorem final_collected {depth : ℕ} {visited : List String} {original : Group}
    (ih : ∀ (includeFinal : Bool) (visited : List String) (name : String),
      node ∈ (GroupManager.ofConfig config).visitGroupLeaves includeFinal depth visited name →
      ∃ group, groupsByName config.groups name = some group ∧ node.id ∈ collectGroupLeafIds config depth visited group)
    (hf : group.finalOutbound = original.finalOutbound)
    (h : node ∈ (match (GroupManager.ofConfig config).finalMember group with
      | some (.node node) => [node]
      | some (.group final) => (GroupManager.ofConfig config).visitGroupLeaves true depth visited final.name
      | none => [])) :
    node.id ∈ (match original.finalOutbound with
      | none => []
      | some name =>
        if name = "direct" then [directNodeId]
        else if name = "block" then [blockNodeId]
        else
          match config.nodes.find? (fun node : Node => node.name = name) with
          | some node => [node.id]
          | none =>
            match groupsByName config.groups name with
            | some sub => collectGroupLeafIds config depth visited sub
            | none => []) := by
  rw [GroupManager.finalMember, hf] at h
  cases ho : original.finalOutbound with
  | none =>
    rw [ho] at h
    exact absurd h not_mem_nil
  | some name =>
    simp only [ho] at h ⊢
    by_cases hd : name = "direct"
    · rw [if_pos hd] at h ⊢
      exact mem_singleton.mpr (congrArg Node.id (mem_singleton.mp h))
    by_cases hb : name = "block"
    · rw [if_neg hd, if_pos hb] at h ⊢
      exact mem_singleton.mpr (congrArg Node.id (mem_singleton.mp h))
    rw [if_neg hd, if_neg hb] at h ⊢
    have hn : (GroupManager.ofConfig config).nodeByName name = config.nodes.find? (fun node : Node => node.name = name) := rfl
    rw [hn] at h
    cases hno : config.nodes.find? (fun node : Node => node.name = name) with
    | some found =>
      rw [hno] at h
      exact mem_singleton.mpr (congrArg Node.id (mem_singleton.mp h))
    | none =>
      simp only [hno] at h ⊢
      cases hg : (GroupManager.ofConfig config).group? name with
      | none =>
        rw [hg] at h
        exact absurd h not_mem_nil
      | some final =>
        rw [hg] at h
        obtain ⟨sub, hs, hc⟩ := ih true visited final.name h
        have hna := (groupsByName_mem hg).2
        rw [hna] at hs
        simpa only [hs] using hc

theorem visitGroupLeaves_subset (includeFinal : Bool) (depth : ℕ) (visited : List String) (name : String)
    (h : node ∈ (GroupManager.ofConfig config).visitGroupLeaves includeFinal depth visited name) :
    ∃ group, groupsByName config.groups name = some group ∧ node.id ∈ collectGroupLeafIds config depth visited group := by
  induction depth generalizing includeFinal visited name with
  | zero => simp [GroupManager.visitGroupLeaves] at h
  | succ depth ih =>
    rw [GroupManager.visitGroupLeaves] at h
    by_cases hv : name ∈ visited
    · rw [if_pos hv] at h
      exact absurd h not_mem_nil
    rw [if_neg hv] at h
    cases hg : (GroupManager.ofConfig config).group? name with
    | none =>
      rw [hg] at h
      exact absurd h not_mem_nil
    | some group =>
      obtain ⟨original, ho, hna, hn, hgr, hf⟩ := group?_ofConfig hg
      refine ⟨original, ho, ?_⟩
      have hor := (groupsByName_mem ho).2
      simp only [hg, hna, mem_append] at h
      rw [collectGroupLeafIds, hor, if_neg hv]
      rw [hor] at h
      simp only [mem_append]
      rcases h with (hno | hsu) | he
      · obtain ⟨id, hid, hfo⟩ := mem_filterMap.mp hno
        have : node.id = id := by simpa using find?_some hfo
        exact .inl (.inl (this ▸ hn ▸ hid))
      · obtain ⟨tag, ht, hw⟩ := mem_flatMap.mp hsu
        obtain ⟨sub, hs, hc⟩ := ih _ _ _ hw
        exact .inl (.inr (mem_flatMap.mpr ⟨sub, mem_filterMap.mpr ⟨tag, hgr ht, hs⟩, hc⟩))
      refine .inr ?_
      cases includeFinal with
      | false => simp at he
      | true =>
        rw [if_pos rfl] at he
        exact final_collected ih hf he

theorem finalMember_known (h : (GroupManager.ofConfig config).finalMember group = some (.node node)) :
    node ∈ config.nodes ∨ node = builtinDirectNode ∨ node = builtinBlockNode := by
  unfold GroupManager.finalMember at h
  split at h
  · exact absurd h (by simp)
  split_ifs at h
  · exact .inr (.inl (by simpa using h.symm))
  · exact .inr (.inr (by simpa using h.symm))
  split at h
  · rename_i found hf
    obtain rfl : found = node := by simpa using h
    exact .inl (mem_of_find?_eq_some hf)
  · simp at h

theorem visitGroupLeaves_known (includeFinal : Bool) (depth : ℕ) (visited : List String) (name : String)
    (h : node ∈ (GroupManager.ofConfig config).visitGroupLeaves includeFinal depth visited name) :
    node ∈ config.nodes ∨ node = builtinDirectNode ∨ node = builtinBlockNode := by
  induction depth generalizing includeFinal visited name with
  | zero => simp [GroupManager.visitGroupLeaves] at h
  | succ depth ih =>
    rw [GroupManager.visitGroupLeaves] at h
    by_cases hv : name ∈ visited
    · rw [if_pos hv] at h
      exact absurd h not_mem_nil
    rw [if_neg hv] at h
    cases hg : (GroupManager.ofConfig config).group? name with
    | none =>
      rw [hg] at h
      exact absurd h not_mem_nil
    | some group =>
      simp only [hg, mem_append] at h
      rcases h with (hn | hs) | he
      · obtain ⟨id, -, hf⟩ := mem_filterMap.mp hn
        exact .inl (mem_of_find?_eq_some hf)
      · obtain ⟨tag, -, hw⟩ := mem_flatMap.mp hs
        exact ih _ _ _ hw
      cases includeFinal with
      | false => simp at he
      | true =>
        rw [if_pos rfl] at he
        cases hm : (GroupManager.ofConfig config).finalMember group with
        | none =>
          rw [hm] at he
          exact absurd he not_mem_nil
        | some member =>
          rw [hm] at he
          cases member with
          | node final =>
            obtain rfl := mem_singleton.mp he
            exact finalMember_known hm
          | group final => exact ih _ _ _ he

end

end Honk.Group
