import Honk.Routing.Compile

namespace Honk.Routing

open Honk.Lib
open List hiding Vector

variable {as : List Byte} {i : ℕ}

theorem bitAt_append_left (h : i < 8 * as.length) : bitAt (as ++ bs) i = bitAt as i := by
  have hi : i / 8 < as.length := by omega
  simp only [bitAt, getD_eq_getElem?_getD, getElem?_append_left hi]

theorem bitAt_replicate_zero (h : 8 * as.length ≤ i) : bitAt (as ++ List.replicate n 0) i = false := by
  have hi : as.length ≤ i / 8 := by omega
  simp only [bitAt, getD_eq_getElem?_getD, getElem?_append_right hi, getElem?_replicate]
  split <;> simp

theorem toList_v4Bytes (octets : Vector Byte 4) : (v4Bytes octets).toList = octets.toList ++ List.replicate 12 0 := by
  rw [v4Bytes, Vector.toList_append, Vector.toList_replicate]

theorem prefixLen_canonicalLpmKey (bytes : Vector Byte 16) (n : ℕ) (h : n ≤ 128) : (canonicalLpmKey bytes n).prefixLen.toNat = n := by
  simp only [canonicalLpmKey, BitVec.toNat_ofNat]
  omega

theorem canonical_v4Key (net : Net 4) : (canonicalLpmKey (v4Bytes net.network) net.prefixLen).Canonical := by
  have hl := net.prefixLen_le
  have hp := prefixLen_canonicalLpmKey (v4Bytes net.network) net.prefixLen (by omega)
  refine ⟨by omega, fun i hi _ => ?_⟩
  rw [hp] at hi
  rw [bytes_canonicalLpmKey, toList_v4Bytes]
  by_cases h : i < 32
  · rw [bitAt_append_left (by simpa using h), net.bitAt_network (by omega)]
    simp only [Bool.and_eq_false_iff, decide_eq_false_iff_not]
    omega
  apply bitAt_replicate_zero
  simp
  omega

theorem canonical_v6Key (net : Net 16) : (canonicalLpmKey net.network net.prefixLen).Canonical := by
  have hl := net.prefixLen_le
  have hp := prefixLen_canonicalLpmKey net.network net.prefixLen (by omega)
  refine ⟨by omega, fun i hi h => ?_⟩
  rw [hp] at hi
  rw [bytes_canonicalLpmKey, net.bitAt_network (by omega)]
  simp only [Bool.and_eq_false_iff, decide_eq_false_iff_not]
  omega

theorem canonical_macKey (mac : Mac) : (canonicalLpmKey (macBytes mac) 128).Canonical := by
  have hp := prefixLen_canonicalLpmKey (macBytes mac) 128 le_rfl
  exact ⟨by omega, fun i hi h => by omega⟩

theorem prefixContains_v4Key (net : Net 4) (ip : Vector Byte 4) :
    prefixContains (canonicalLpmKey (v4Bytes net.network) net.prefixLen) (canonicalLpmKey (v4Bytes ip) 32) ↔ net.Covers ip := by
  have hl := net.prefixLen_le
  rw [prefixContains_iff, prefixLen_canonicalLpmKey _ _ (by omega), prefixLen_canonicalLpmKey _ _ (by omega),
    net.covers_iff_network]
  simp only [bytes_canonicalLpmKey, toList_v4Bytes]
  constructor
  · rintro ⟨-, h⟩ i hi
    have := h i hi
    rw [bitAt_append_left (by simp; omega), bitAt_append_left (by simp; omega)] at this
    exact this.symm
  intro h
  refine ⟨by omega, fun i hi => ?_⟩
  rw [bitAt_append_left (by simp; omega), bitAt_append_left (by simp; omega)]
  exact (h i hi).symm

theorem prefixContains_v6Key (net : Net 16) (ip : Vector Byte 16) :
    prefixContains (canonicalLpmKey net.network net.prefixLen) (canonicalLpmKey ip 128) ↔ net.Covers ip := by
  have hl := net.prefixLen_le
  rw [prefixContains_iff, prefixLen_canonicalLpmKey _ _ (by omega), prefixLen_canonicalLpmKey _ _ (by omega),
    net.covers_iff_network]
  simp only [bytes_canonicalLpmKey]
  exact ⟨fun h i hi => (h.2 i hi).symm, fun h => ⟨by omega, fun i hi => (h i hi).symm⟩⟩

theorem prefixContains_macKey (a b : Mac) :
    prefixContains (canonicalLpmKey (macBytes a) 128) (canonicalLpmKey (macBytes b) 128) ↔ a = b := by
  rw [prefixContains_iff, prefixLen_canonicalLpmKey _ _ le_rfl, prefixLen_canonicalLpmKey _ _ le_rfl]
  simp only [bytes_canonicalLpmKey]
  constructor
  · rintro ⟨-, h⟩
    have hd := (div_beNat_eq_iff (macBytes a).toList (macBytes b).toList 128 (by simp) (by simp)).mpr h
    have hl : 8 * (macBytes a).toList.length - 128 = 0 := by simp
    rw [hl, Nat.pow_zero, Nat.div_one, Nat.div_one] at hd
    have hb := beNat_injective _ _ (by simp) hd
    simp only [macBytes, Vector.toList_append] at hb
    exact Vector.toList_inj.mp (append_cancel_left hb)
  · rintro rfl
    exact ⟨le_rfl, fun _ _ => rfl⟩

structure FactAllocator.Ok {K : Type} (allocator : FactAllocator K) : Prop where
  keys : (allocator.ids.map Prod.fst).Nodup
  ids : allocator.ids.map Prod.snd = List.range allocator.ids.length
  capacity : allocator.ids.length ≤ routingFactCapacity

theorem FactAllocator.Ok.lt {K : Type} {allocator : FactAllocator K} (h : allocator.Ok) {key : K} {id : ℕ}
    (hm : (key, id) ∈ allocator.ids) : id < routingFactCapacity := by
  have hid : id ∈ allocator.ids.map Prod.snd := mem_map_of_mem hm
  rw [h.ids, mem_range] at hid
  exact hid.trans_le h.capacity

theorem FactAllocator.Ok.injective {K : Type} {allocator : FactAllocator K} (h : allocator.Ok) {a b : K} {id : ℕ}
    (ha : (a, id) ∈ allocator.ids) (hb : (b, id) ∈ allocator.ids) : a = b := by
  have hn : (allocator.ids.map Prod.snd).Nodup := h.ids ▸ nodup_range
  have := inj_on_of_nodup_map hn ha hb rfl
  exact congrArg Prod.fst this

theorem FactAllocator.alloc_eq_ok {K : Type} [DecidableEq K] {allocator allocated : FactAllocator K} {key : K}
    {kind : String} {id : ℕ} {new : Bool} (h : allocator.alloc key kind = .ok ((id, new), allocated)) (ho : allocator.Ok) :
    allocated.Ok ∧ (key, id) ∈ allocated.ids ∧
      ((new = false ∧ allocated = allocator) ∨ (new = true ∧ allocated.ids = allocator.ids ++ [(key, id)])) := by
  rw [FactAllocator.alloc] at h
  split at h
  · rename_i found hf
    simp only [Except.ok.injEq, Prod.mk.injEq] at h
    obtain ⟨⟨rfl, rfl⟩, rfl⟩ := h
    obtain ⟨before, after, hs, -⟩ := lookup_eq_some_iff.mp hf
    exact ⟨ho, by simp [hs], Or.inl ⟨rfl, rfl⟩⟩
  rename_i hn
  simp only at h
  split at h
  · rename_i hc
    simp only [Except.ok.injEq, Prod.mk.injEq] at h
    obtain ⟨⟨rfl, rfl⟩, rfl⟩ := h
    have hfr : key ∉ allocator.ids.map Prod.fst := by
      intro hm
      obtain ⟨entry, he, rfl⟩ := mem_map.mp hm
      simpa using lookup_eq_none_iff.mp hn entry he
    refine ⟨⟨?_, ?_, ?_⟩, by simp, Or.inr ⟨rfl, rfl⟩⟩
    · rw [map_append, map_singleton, ← concat_eq_append]
      exact ho.keys.concat hfr
    · simp [ho.ids, range_succ]
    · simp only [length_append, length_singleton]
      omega
  · cases h

def Assigned {K : Type} (ids : List (K × ℕ)) (keysOf : K → LpmKey → Prop) (entries : FactMap) : Prop :=
  ∀ e, e ∈ entries ↔ ∃ k id key, (k, id) ∈ ids ∧ keysOf k key ∧ e = (key, bitmapBit id)

variable {entries v4 v6 : FactMap} {router : Router}

theorem Assigned.add {K : Type} {ids : List (K × ℕ)} {keysOf : K → LpmKey → Prop} {added : FactMap}
    (h : Assigned ids keysOf entries) {k : K} {id : ℕ}
    (ha : ∀ e, e ∈ added ↔ e ∈ entries ∨ ∃ key, keysOf k key ∧ e = (key, bitmapBit id)) :
    Assigned (ids ++ [(k, id)]) keysOf added := by
  intro e
  rw [ha, h e]
  simp only [mem_append, mem_singleton, Prod.mk.injEq, or_and_right, exists_or, and_assoc, exists_and_left, exists_eq_left]

theorem Assigned.factBit_inherit {K : Type} {allocator : FactAllocator K} {keysOf : K → LpmKey → Prop}
    (h : Assigned allocator.ids keysOf entries) (ho : allocator.Ok) (hc : ∀ k key, keysOf k key → key.Canonical) {k : K} {id : ℕ} (hk : (k, id) ∈ allocator.ids) (key : LpmKey) :
    factBit (inheritPrefixBits entries) key id ↔ ∃ parent, keysOf k parent ∧ prefixContains parent key := by
  have hca : ∀ e ∈ entries, e.1.Canonical := by
    intro e he
    obtain ⟨k', -, key', -, hke, rfl⟩ := (h e).mp he
    exact hc k' key' hke
  rw [factBit_inheritPrefixBits entries hca]
  constructor
  · rintro ⟨e, he, hco, hb⟩
    obtain ⟨k', id', parent, hk', hpa, rfl⟩ := (h e).mp he
    have hid : id = id' := by simpa [bit_bitmapBit _ _ (ho.lt hk')] using hb
    subst hid
    rw [ho.injective hk' hk] at hpa
    exact ⟨parent, hpa, hco⟩
  rintro ⟨parent, hpa, hco⟩
  refine ⟨_, (h _).mpr ⟨k, id, parent, hk, hpa, rfl⟩, hco, ?_⟩
  simp [bit_bitmapBit _ _ (ho.lt hk)]

def v4Keys (router : Router) (m : MatcherPtr) (key : LpmKey) : Prop :=
  ∃ net, IpNet.v4 net ∈ (router.matchers m).nets ∧ key = canonicalLpmKey (v4Bytes net.network) net.prefixLen

def v6Keys (router : Router) (m : MatcherPtr) (key : LpmKey) : Prop :=
  ∃ net, IpNet.v6 net ∈ (router.matchers m).nets ∧ key = canonicalLpmKey net.network net.prefixLen

def macKeys (macs : List Mac) (key : LpmKey) : Prop := ∃ mac ∈ macs, key = canonicalLpmKey (macBytes mac) 128

theorem mem_addIpFacts (v4 v6 : FactMap) (id : ℕ) (e : LpmKey × DomainRouting) :
    (e ∈ (addIpFacts v4 v6 nets id).1 ↔ e ∈ v4 ∨ ∃ net, IpNet.v4 net ∈ nets ∧
      e = (canonicalLpmKey (v4Bytes net.network) net.prefixLen, bitmapBit id)) ∧
    (e ∈ (addIpFacts v4 v6 nets id).2 ↔ e ∈ v6 ∨ ∃ net, IpNet.v6 net ∈ nets ∧
      e = (canonicalLpmKey net.network net.prefixLen, bitmapBit id)) := by
  induction nets using List.reverseRecOn with
  | nil => simp [addIpFacts]
  | append_singleton nets net ih =>
    simp only [addIpFacts, foldl_append] at ih ⊢
    cases net with
    | v4 net =>
      simp only [foldl_cons, foldl_nil, mem_append, mem_singleton, ih.1, ih.2, reduceCtorEq,
        or_false, IpNet.v4.injEq, or_and_right, exists_or, exists_eq_left, or_assoc, and_self]
    | v6 net =>
      simp only [foldl_cons, foldl_nil, mem_append, mem_singleton, ih.1, ih.2, reduceCtorEq,
        or_false, IpNet.v6.injEq, or_and_right, exists_or, exists_eq_left, or_assoc, and_self]

variable {id : ℕ}

theorem mem_addMacs (macs : List Mac) : e ∈ macs.foldl (fun entries mac => addMacFact entries mac id) entries ↔
      e ∈ entries ∨ ∃ mac ∈ macs, e = (canonicalLpmKey (macBytes mac) 128, bitmapBit id) := by
  induction macs using List.reverseRecOn with
  | nil => simp
  | append_singleton macs mac ih =>
    rw [foldl_append, foldl_cons, foldl_nil, addMacFact, mem_append, ih]
    simp only [mem_append, mem_singleton, or_and_right, exists_or, exists_eq_left, or_assoc]

structure IpFacts (router : Router) (ids : List (MatcherPtr × ℕ)) (v4 v6 : FactMap) : Prop where
  v4 : Assigned ids (v4Keys router) v4
  v6 : Assigned ids (v6Keys router) v6

theorem IpFacts.add {ids : List (MatcherPtr × ℕ)} (h : IpFacts router ids v4 v6) (m : MatcherPtr) (id : ℕ) :
    IpFacts router (ids ++ [(m, id)]) (addIpFacts v4 v6 (router.matchers m).nets id).1
      (addIpFacts v4 v6 (router.matchers m).nets id).2 where
  v4 := h.v4.add fun e => by
    rw [(mem_addIpFacts v4 v6 id e).1]
    refine or_congr_right ⟨?_, ?_⟩
    · rintro ⟨net, hn, he⟩
      exact ⟨_, ⟨net, hn, rfl⟩, he⟩
    · rintro ⟨-, ⟨net, hn, rfl⟩, he⟩
      exact ⟨net, hn, he⟩
  v6 := h.v6.add fun e => by
    rw [(mem_addIpFacts v4 v6 id e).2]
    refine or_congr_right ⟨?_, ?_⟩
    · rintro ⟨net, hn, he⟩
      exact ⟨_, ⟨net, hn, rfl⟩, he⟩
    · rintro ⟨-, ⟨net, hn, rfl⟩, he⟩
      exact ⟨net, hn, he⟩

variable {ip : IpAddr}

theorem IpMatcher.matches_iff (matcher : IpMatcher) : matcher.matches ip ↔ ∃ net ∈ matcher.nets, net.Covers ip := by
  rw [IpMatcher.matches, matcher.trie_eq, BinaryLpmTrie.matches_fromNets]

theorem IpFacts.ipBit_inherit {allocator : FactAllocator MatcherPtr} (h : IpFacts router allocator.ids v4 v6)
    (ho : allocator.Ok) (hm : (m, id) ∈ allocator.ids) :
    ipBit (inheritPrefixBits v4) (inheritPrefixBits v6) ip id = (router.matchers m).matches ip := by
  rw [Bool.eq_iff_iff, IpMatcher.matches_iff]
  cases ip with
  | v4 octets =>
    have hca : ∀ m key, v4Keys router m key → key.Canonical := by
      rintro m key ⟨net, -, rfl⟩
      exact canonical_v4Key net
    rw [ipBit, h.v4.factBit_inherit ho hca hm]
    constructor
    · rintro ⟨-, ⟨net, hn, rfl⟩, hc⟩
      exact ⟨_, hn, (prefixContains_v4Key net octets).mp hc⟩
    rintro ⟨net | net, hn, hc⟩
    · exact ⟨_, ⟨net, hn, rfl⟩, (prefixContains_v4Key net octets).mpr hc⟩
    · exact hc.elim
  | v6 octets =>
    have hca : ∀ m key, v6Keys router m key → key.Canonical := by
      rintro m key ⟨net, -, rfl⟩
      exact canonical_v6Key net
    rw [ipBit, h.v6.factBit_inherit ho hca hm]
    constructor
    · rintro ⟨-, ⟨net, hn, rfl⟩, hc⟩
      exact ⟨_, hn, (prefixContains_v6Key net octets).mp hc⟩
    rintro ⟨net | net, hn, hc⟩
    · exact hc.elim
    · exact ⟨_, ⟨net, hn, rfl⟩, (prefixContains_v6Key net octets).mpr hc⟩

theorem macBit_inherit {allocator : FactAllocator (List Mac)} (h : Assigned allocator.ids macKeys entries)
    (ho : allocator.Ok) {macs : List Mac} (hm : (macs, id) ∈ allocator.ids) (mac : Mac) :
    factBit (inheritPrefixBits entries) (canonicalLpmKey (macBytes mac) 128) id = macs.any fun value => value == mac := by
  have hca : ∀ macs key, macKeys macs key → key.Canonical := by
    rintro macs key ⟨mac, -, rfl⟩
    exact canonical_macKey mac
  rw [Bool.eq_iff_iff, h.factBit_inherit ho hca hm]
  simp only [any_eq_true, beq_iff_eq, exists_eq_right]
  constructor
  · rintro ⟨-, ⟨mac', hma, rfl⟩, hc⟩
    rwa [(prefixContains_macKey mac' mac).mp hc] at hma
  · intro hma
    exact ⟨_, ⟨mac, hma, rfl⟩, (prefixContains_macKey mac mac).mpr rfl⟩

end Honk.Routing
