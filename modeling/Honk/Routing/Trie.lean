import Honk.Routing.Address

namespace Honk.Routing

open Honk.Lib List Option

structure TrieNode where
  zero : ℕ := 0
  one : ℕ := 0
  matched : Bool := false

def TrieNode.empty : TrieNode := {}

def TrieNode.child (node : TrieNode) (bit : Bool) : ℕ := if bit then node.one else node.zero

def TrieNode.setChild (node : TrieNode) (bit : Bool) (idx : ℕ) : TrieNode :=
  if bit then { node with one := idx } else { node with zero := idx }

structure BinaryLpmTrie where
  v4Nodes : List TrieNode
  v6Nodes : List TrieNode

namespace BinaryLpmTrie

section

variable (nodes : List TrieNode)

def nodeAt (idx : ℕ) : TrieNode := nodes.getD idx .empty

def keyBits (bytes : List Byte) (n : ℕ) : List Bool := (List.range n).map (bitAt bytes)

def grow (idx : ℕ) (bit : Bool) : List TrieNode :=
  (nodes ++ [TrieNode.empty]).modify idx (fun node => node.setChild bit nodes.length)

/-- The descent of `insert`: child index 0 stands for no child, as the root has no parent. -/
def insertFrom (nodes : List TrieNode) (idx : ℕ) : List Bool → List TrieNode
  | [] => nodes.modify idx (fun node => { node with matched := true })
  | bit :: bits =>
    if (nodeAt nodes idx).child bit = 0 then
      insertFrom (grow nodes idx bit) nodes.length bits
    else
      insertFrom nodes ((nodeAt nodes idx).child bit) bits

def insert (bytes : List Byte) (prefixLen : ℕ) : List TrieNode :=
  insertFrom nodes 0 (keyBits bytes prefixLen)

end

variable (nets : List IpNet)

def fromNets : BinaryLpmTrie :=
  nets.foldl (fun trie net =>
    match net with
    | .v4 net => { trie with v4Nodes := insert trie.v4Nodes net.addr.toList net.prefixLen }
    | .v6 net => { trie with v6Nodes := insert trie.v6Nodes net.addr.toList net.prefixLen })
    { v4Nodes := [TrieNode.empty], v6Nodes := [TrieNode.empty] }

def matchesFrom (nodes : List TrieNode) (idx : ℕ) : List Bool → Bool
  | [] => (nodeAt nodes idx).matched
  | bit :: bits =>
    if (nodeAt nodes idx).matched then true
    else if (nodeAt nodes idx).child bit = 0 then (nodeAt nodes idx).matched
    else matchesFrom nodes ((nodeAt nodes idx).child bit) bits

variable {j : ℕ}

section

variable (nodes : List TrieNode)

def matchesNodes (bytes : List Byte) (keyLen : ℕ) : Bool :=
  if nodes.isEmpty then false else matchesFrom nodes 0 (keyBits bytes keyLen)

def «matches» (trie : BinaryLpmTrie) : IpAddr → Bool
  | .v4 ip => matchesNodes trie.v4Nodes ip.toList 32
  | .v6 ip => matchesNodes trie.v6Nodes ip.toList 128

def step? (idx : ℕ) (bit : Bool) : Option ℕ :=
  if (nodeAt nodes idx).child bit = 0 then none else some ((nodeAt nodes idx).child bit)

variable (bits : List Bool)

def walk : Option ℕ := bits.foldlM (step? nodes) 0

def Marked : Prop := ∃ idx, walk nodes bits = some idx ∧ (nodeAt nodes idx).matched

structure Linked : Prop where
  root : nodes ≠ []
  bound : ∀ i b, (nodeAt nodes i).child b < nodes.length
  parent : ∀ i j a b, (nodeAt nodes i).child a ≠ 0 → (nodeAt nodes i).child a = (nodeAt nodes j).child b → i = j ∧ a = b

theorem walk_append_singleton (bit : Bool) : walk nodes (bits ++ [bit]) = (walk nodes bits).bind (fun idx => step? nodes idx bit) := by
  simp only [walk, foldlM_append, foldlM_cons, foldlM_nil]
  cases List.foldlM (step? nodes) 0 bits with
  | none => rfl
  | some idx => cases h : step? nodes idx bit <;> simp [h]

theorem step?_eq_some {idx : ℕ} {bit : Bool} : step? nodes idx bit = some j ↔ (nodeAt nodes idx).child bit = j ∧ j ≠ 0 := by
  rw [step?]
  split
  · rename_i h
    simp only [reduceCtorEq, false_iff, not_and]
    intro hj
    simp [← hj, h]
  rename_i h
  simp only [Option.some.injEq]
  refine ⟨fun hj => ⟨hj, hj ▸ h⟩, fun hj => hj.1⟩

end

variable {nodes : List TrieNode}

theorem Linked.walk_injective (h : Linked nodes) (p q : List Bool) (idx : ℕ) (hp : walk nodes p = some idx)
    (hq : walk nodes q = some idx) : p = q := by
  induction p using List.reverseRecOn generalizing q idx with
  | nil =>
    induction q using List.reverseRecOn with
    | nil => rfl
    | append_singleton q b _ =>
      rw [walk_append_singleton, bind_eq_some_iff] at hq
      obtain ⟨j, -, hj⟩ := hq
      have hz : idx = 0 := by simpa [walk] using hp.symm
      exact absurd hz ((step?_eq_some _).mp hj).2
  | append_singleton p a ih =>
    rw [walk_append_singleton, bind_eq_some_iff] at hp
    obtain ⟨i, hi, hpi⟩ := hp
    rw [step?_eq_some] at hpi
    induction q using List.reverseRecOn with
    | nil =>
      have hz : idx = 0 := by simpa [walk] using hq.symm
      exact absurd hz hpi.2
    | append_singleton q b _ =>
      rw [walk_append_singleton, bind_eq_some_iff] at hq
      obtain ⟨j, hj, hqj⟩ := hq
      rw [step?_eq_some] at hqj
      obtain ⟨rfl, rfl⟩ := h.parent i j a b (hpi.1 ▸ hpi.2) (hpi.1.trans hqj.1.symm)
      rw [ih q i hi hj]

theorem Linked.walk_lt (h : Linked nodes) (p : List Bool) (idx : ℕ) (hp : walk nodes p = some idx) : idx < nodes.length := by
  induction p using List.reverseRecOn with
  | nil =>
    have hz : idx = 0 := by simpa [walk] using hp.symm
    rw [hz]
    exact length_pos_of_ne_nil h.root
  | append_singleton p b _ =>
    rw [walk_append_singleton, bind_eq_some_iff] at hp
    obtain ⟨i, -, hi⟩ := hp
    exact ((step?_eq_some _).mp hi).1 ▸ h.bound i b

section

variable (nodes : List TrieNode)

theorem nodeAt_modify {idx : ℕ} (h : idx < nodes.length) :
    nodeAt (nodes.modify idx f) j = if j = idx then f (nodeAt nodes j) else nodeAt nodes j := by
  simp only [nodeAt, getD_eq_getElem?_getD, getElem?_modify]
  by_cases hj : j = idx
  · subst hj
    simp [h]
  · simp [hj, Ne.symm hj]

theorem nodeAt_append_empty : nodeAt (nodes ++ [TrieNode.empty]) j = nodeAt nodes j := by
  simp only [nodeAt, getD_eq_getElem?_getD, getElem?_append]
  split
  · rfl
  rename_i h
  have hn : nodes[j]? = none := getElem?_eq_none (not_lt.mp h)
  cases j - nodes.length <;> simp [hn]

variable {b : Bool} {node : TrieNode}

theorem child_setChild (bit : Bool) (idx : ℕ) : (node.setChild bit idx).child b = if b = bit then idx else node.child b := by
  cases bit <;> cases b <;> simp [TrieNode.setChild, TrieNode.child]

theorem matched_setChild (bit : Bool) (idx : ℕ) : (node.setChild bit idx).matched = node.matched := by
  cases bit <;> rfl

theorem nodeAt_grow {idx : ℕ} {bit : Bool} (h : idx < nodes.length) :
    nodeAt (grow nodes idx bit) j = if j = idx then (nodeAt nodes j).setChild bit nodes.length else nodeAt nodes j := by
  rw [grow, nodeAt_modify _ (by simp; omega), nodeAt_append_empty]

theorem child_grow {idx : ℕ} {bit : Bool} (h : idx < nodes.length) :
    (nodeAt (grow nodes idx bit) j).child b = if j = idx ∧ b = bit then nodes.length else (nodeAt nodes j).child b := by
  rw [nodeAt_grow _ h]
  by_cases hj : j = idx
  · simp only [hj, ↓reduceIte, child_setChild, true_and]
  · simp only [hj, ↓reduceIte, false_and]

theorem matched_grow {idx : ℕ} {bit : Bool} (h : idx < nodes.length) :
    (nodeAt (grow nodes idx bit) j).matched = (nodeAt nodes j).matched := by
  rw [nodeAt_grow _ h]
  split
  · rw [matched_setChild]
  · rfl

end

theorem Linked.grow (h : Linked nodes) (idx : ℕ) (bit : Bool) (hi : idx < nodes.length) : Linked (grow nodes idx bit) := by
  have hl : (BinaryLpmTrie.grow nodes idx bit).length = nodes.length + 1 := by simp [BinaryLpmTrie.grow]
  refine ⟨?_, ?_, ?_⟩
  · apply ne_nil_of_length_pos
    omega
  · intro i b
    have hb := h.bound i b
    rw [child_grow _ hi, hl]
    split <;> omega
  intro i j a b hn he
  have ha := h.bound i a
  have hb := h.bound j b
  simp only [child_grow _ hi] at hn he
  -- the fresh index is no child yet, so only equal edges can share it
  split at he <;> split at he
  · rename_i h1 h2
    exact ⟨h1.1.trans h2.1.symm, h1.2.trans h2.2.symm⟩
  · omega
  · omega
  rename_i h1 h2
  rw [if_neg h1] at hn
  exact h.parent i j a b hn he

section

variable (h : Linked nodes) (path : List Bool) (idx : ℕ) (bit : Bool) (hpath : walk nodes path = some idx) (hc : (nodeAt nodes idx).child bit = 0) (p : List Bool)
include h path idx bit hpath hc p

theorem Linked.walk_grow : walk (BinaryLpmTrie.grow nodes idx bit) p =
      if p = path ++ [bit] then some nodes.length else walk nodes p := by
  have hi : idx < nodes.length := h.walk_lt path idx hpath
  have hz : nodes.length ≠ 0 := by omega
  have hs (j : ℕ) (b : Bool) : step? (BinaryLpmTrie.grow nodes idx bit) j b =
      if j = idx ∧ b = bit then some nodes.length else step? nodes j b := by
    by_cases hj : j = idx ∧ b = bit
    · simp [step?, child_grow _ hi, hj, hz]
    · simp [step?, child_grow _ hi, hj]
  induction p using List.reverseRecOn with
  | nil => simp [walk]
  | append_singleton p b ih =>
    rw [walk_append_singleton, ih, walk_append_singleton]
    by_cases hp : p = path ++ [bit]
    · -- the fresh node is a leaf, and the old forest has no such path
      have hl : (nodeAt nodes nodes.length).child b = 0 := by simp [nodeAt, TrieNode.empty, TrieNode.child]
      have hn : walk nodes p = none := by
        rw [hp, walk_append_singleton, hpath]
        simp [step?, hc]
      have hne : p ++ [b] ≠ path ++ [bit] := by
        intro he
        rw [hp] at he
        simpa using congrArg List.length he
      have hli : nodes.length ≠ idx := by omega
      rw [if_pos hp, if_neg hne, hn]
      rw [bind_some, hs, if_neg (fun he => hli he.1), step?, if_pos hl]
      rfl
    rw [if_neg hp]
    cases hw : walk nodes p with
    | none =>
      have hne : p ++ [b] ≠ path ++ [bit] := by
        intro he
        have := (append_inj' he rfl).1
        simp [this, hpath] at hw
      rw [if_neg hne]
      rfl
    | some j =>
      have hif : (j = idx ∧ b = bit) ↔ p ++ [b] = path ++ [bit] := by
        constructor
        · rintro ⟨rfl, rfl⟩
          rw [h.walk_injective p path j hw hpath]
        intro he
        obtain ⟨rfl, hb⟩ := append_inj' he rfl
        exact ⟨by simpa [hpath] using hw.symm, by simpa using hb⟩
      simp only [bind_some, hs, hif]

theorem Linked.marked_grow : Marked (BinaryLpmTrie.grow nodes idx bit) p ↔ Marked nodes p := by
  have hi : idx < nodes.length := h.walk_lt path idx hpath
  simp only [Marked, matched_grow _ hi, h.walk_grow path idx bit hpath hc]
  by_cases hp : p = path ++ [bit]
  · have hn : walk nodes p = none := by
      rw [hp, walk_append_singleton, hpath]
      simp [step?, hc]
    have he : (nodeAt nodes nodes.length).matched = false := by simp [nodeAt, TrieNode.empty]
    rw [if_pos hp, hn]
    simp [he]
  · simp only [hp, ↓reduceIte]

end

theorem nodeAt_mark {idx : ℕ} (j : ℕ) (h : idx < nodes.length) :
    (∀ b, (nodeAt (insertFrom nodes idx []) j).child b = (nodeAt nodes j).child b) ∧
      (nodeAt (insertFrom nodes idx []) j).matched = ((nodeAt nodes j).matched || decide (j = idx)) := by
  rw [insertFrom, nodeAt_modify _ h]
  by_cases hj : j = idx
  · simp [hj, TrieNode.child]
  · simp [hj]

theorem Linked.mark (h : Linked nodes) {path : List Bool} {idx : ℕ} (hpath : walk nodes path = some idx) :
    Linked (insertFrom nodes idx []) ∧ ∀ p, Marked (insertFrom nodes idx []) p ↔ Marked nodes p ∨ p = path := by
  have hi : idx < nodes.length := h.walk_lt path idx hpath
  have hl : (insertFrom nodes idx []).length = nodes.length := by simp [insertFrom]
  have hch (j : ℕ) := (nodeAt_mark j hi).1
  have hma (j : ℕ) := (nodeAt_mark j hi).2
  have hw : walk (insertFrom nodes idx []) = walk nodes := by
    have : step? (insertFrom nodes idx []) = step? nodes := by
      funext j b
      simp only [step?, hch]
    funext p
    simp only [walk, this]
  refine ⟨⟨?_, ?_, ?_⟩, ?_⟩
  · apply ne_nil_of_length_pos
    omega
  · intro i b
    rw [hch, hl]
    exact h.bound i b
  · intro i j a b
    rw [hch, hch]
    exact h.parent i j a b
  intro p
  simp only [Marked, hw, hma, Bool.or_eq_true, decide_eq_true_eq]
  constructor
  · rintro ⟨j, hj, hm | rfl⟩
    · exact Or.inl ⟨j, hj, hm⟩
    · exact Or.inr (h.walk_injective p path j hj hpath)
  rintro (⟨j, hj, hm⟩ | rfl)
  · exact ⟨j, hj, Or.inl hm⟩
  · exact ⟨idx, hpath, Or.inr rfl⟩

theorem Linked.insertFrom (h : Linked nodes) (path : List Bool) (idx : ℕ) (hpath : walk nodes path = some idx) (bits : List Bool) :
    Linked (insertFrom nodes idx bits) ∧ ∀ p, Marked (BinaryLpmTrie.insertFrom nodes idx bits) p ↔ Marked nodes p ∨ p = path ++ bits := by
  induction bits generalizing nodes path idx with
  | nil => simpa using h.mark hpath
  | cons bit bits ih =>
    have ha : path ++ bit :: bits = (path ++ [bit]) ++ bits := by simp
    rw [BinaryLpmTrie.insertFrom, ha]
    split
    · rename_i hc
      have hn : walk (BinaryLpmTrie.grow nodes idx bit) (path ++ [bit]) = some nodes.length := by
        rw [h.walk_grow path idx bit hpath hc, if_pos rfl]
      obtain ⟨hl, hm⟩ := ih (h.grow idx bit (h.walk_lt path idx hpath)) _ _ hn
      refine ⟨hl, fun p => ?_⟩
      rw [hm, h.marked_grow path idx bit hpath hc]
    rename_i hc
    apply ih h
    rw [walk_append_singleton, hpath, bind_some, step?, if_neg hc]

theorem Linked.insert (h : Linked nodes) (bytes : List Byte) (n : ℕ) : Linked (insert nodes bytes n) ∧
      ∀ p, Marked (BinaryLpmTrie.insert nodes bytes n) p ↔ Marked nodes p ∨ p = keyBits bytes n :=
  h.insertFrom [] 0 rfl _

theorem linked_singleton : Linked [TrieNode.empty] := by
  have hc (i : ℕ) (b : Bool) : (nodeAt [TrieNode.empty] i).child b = 0 := by
    rcases i with - | i <;> simp [nodeAt, TrieNode.empty, TrieNode.child]
  exact ⟨by simp, by simp [hc], fun i j a b hn => absurd (hc i a) hn⟩

theorem not_marked_singleton (p : List Bool) : ¬ Marked [TrieNode.empty] p := by
  rintro ⟨idx, -, h⟩
  rcases idx with - | idx <;> simp [nodeAt, TrieNode.empty] at h

theorem matchesFrom_iff (nodes : List TrieNode) (idx : ℕ) : matchesFrom nodes idx bits ↔
      ∃ p, p <+: bits ∧ ∃ j, p.foldlM (step? nodes) idx = some j ∧ (nodeAt nodes j).matched := by
  induction bits generalizing idx with
  | nil => simp [matchesFrom]
  | cons bit bits ih =>
    rw [matchesFrom]
    split
    · rename_i hm
      simp only [true_iff]
      exact ⟨[], by simp, idx, rfl, hm⟩
    rename_i hm
    have hn : ¬ ∃ j, ([] : List Bool).foldlM (step? nodes) idx = some j ∧ (nodeAt nodes j).matched := by simpa using hm
    have hco (p : List Bool) (b : Bool) : (b :: p).foldlM (step? nodes) idx =
        (step? nodes idx b).bind (fun i => p.foldlM (step? nodes) i) := rfl
    split
    · rename_i hc
      simp only [hm, Bool.false_eq_true, false_iff, not_exists, not_and]
      rintro p hp j hj
      rcases p with - | ⟨b, p⟩
      · exact fun hmj => hn ⟨j, hj, hmj⟩
      rw [cons_prefix_cons] at hp
      rw [hco, hp.1, step?, if_pos hc] at hj
      simp at hj
    rename_i hc
    rw [ih]
    constructor
    · rintro ⟨p, hp, j, hj, hmj⟩
      refine ⟨bit :: p, cons_prefix_cons.mpr ⟨rfl, hp⟩, j, ?_, hmj⟩
      rw [hco, step?, if_neg hc, bind_some, hj]
    rintro ⟨p, hp, j, hj, hmj⟩
    rcases p with - | ⟨b, p⟩
    · exact absurd ⟨j, hj, hmj⟩ hn
    rw [cons_prefix_cons] at hp
    rw [hco, hp.1, step?, if_neg hc, bind_some] at hj
    exact ⟨p, hp.2, j, hj, hmj⟩

theorem Linked.matchesNodes_iff (h : Linked nodes) (n : ℕ) :
    matchesNodes nodes bytes n ↔ ∃ p, p <+: keyBits bytes n ∧ Marked nodes p := by
  have hn : nodes.isEmpty = false := by simpa using h.root
  rw [matchesNodes, hn]
  exact matchesFrom_iff nodes 0

theorem keyBits_prefix_iff {n : ℕ} (hm : m ≤ n) : keyBits as m <+: keyBits bs n ↔ ∀ i < m, bitAt bs i = bitAt as i := by
  simp only [keyBits, prefix_iff_eq_take, length_map, length_range, ← map_take, take_range, Nat.min_eq_left hm]
  rw [map_inj_left]
  simp [eq_comm]

theorem fromNets_marked : (Linked (fromNets nets).v4Nodes ∧ ∀ p, Marked (fromNets nets).v4Nodes p ↔
      ∃ net, IpNet.v4 net ∈ nets ∧ p = keyBits net.addr.toList net.prefixLen) ∧
    (Linked (fromNets nets).v6Nodes ∧ ∀ p, Marked (fromNets nets).v6Nodes p ↔
      ∃ net, IpNet.v6 net ∈ nets ∧ p = keyBits net.addr.toList net.prefixLen) := by
  induction nets using List.reverseRecOn with
  | nil => simp [fromNets, linked_singleton, not_marked_singleton]
  | append_singleton nets net ih =>
    obtain ⟨⟨h4, m4⟩, h6, m6⟩ := ih
    rw [fromNets, foldl_append, ← fromNets]
    cases net with
    | v4 net =>
      obtain ⟨hl, hm⟩ := h4.insert net.addr.toList net.prefixLen
      refine ⟨⟨hl, fun p => ?_⟩, h6, fun p => ?_⟩
      · simp only [foldl_cons, foldl_nil, hm, m4, mem_append, mem_singleton, IpNet.v4.injEq, or_and_right, exists_or, exists_eq_left]
      · simpa using m6 p
    | v6 net =>
      obtain ⟨hl, hm⟩ := h6.insert net.addr.toList net.prefixLen
      refine ⟨⟨h4, fun p => ?_⟩, hl, fun p => ?_⟩
      · simpa using m4 p
      · simp only [foldl_cons, foldl_nil, hm, m6, mem_append, mem_singleton, IpNet.v6.injEq, or_and_right, exists_or, exists_eq_left]

theorem matches_fromNets : (fromNets nets).matches ip ↔ ∃ net ∈ nets, net.Covers ip := by
  obtain ⟨⟨h4, m4⟩, h6, m6⟩ := fromNets_marked nets
  cases ip with
  | v4 ip =>
    rw [BinaryLpmTrie.matches, h4.matchesNodes_iff]
    constructor
    · rintro ⟨p, hp, hm⟩
      obtain ⟨net, hn, rfl⟩ := (m4 p).mp hm
      exact ⟨_, hn, (keyBits_prefix_iff net.prefixLen_le).mp hp⟩
    rintro ⟨net | net, hn, hc⟩
    · exact ⟨_, (keyBits_prefix_iff net.prefixLen_le).mpr hc, (m4 _).mpr ⟨net, hn, rfl⟩⟩
    · exact hc.elim
  | v6 ip =>
    rw [BinaryLpmTrie.matches, h6.matchesNodes_iff]
    constructor
    · rintro ⟨p, hp, hm⟩
      obtain ⟨net, hn, rfl⟩ := (m6 p).mp hm
      exact ⟨_, hn, (keyBits_prefix_iff net.prefixLen_le).mp hp⟩
    rintro ⟨net | net, hn, hc⟩
    · exact hc.elim
    · exact ⟨_, (keyBits_prefix_iff net.prefixLen_le).mpr hc, (m6 _).mpr ⟨net, hn, rfl⟩⟩

/-- Order, duplicates and nesting of the networks play no part: only which of them were inserted. -/
theorem matches_iff_exists_contains (ip : IpAddr) : (fromNets nets).matches ip = true ↔ ∃ net ∈ nets, net.Contains ip := by
  rw [matches_fromNets]
  exact exists_congr fun net => and_congr_right fun _ => (net.contains_iff_covers ip).symm

end BinaryLpmTrie

end Honk.Routing
