import Honk.Lib.Bytes
import Honk.Lib.PrefixStack

namespace Honk.Routing

open Honk.Lib PrefixStack Prod
open List hiding Vector

def routingFactCapacity : ℕ := 256

structure LpmKey where
  prefixLen : BitVec 32
  data : Vector (BitVec 32) 4
  deriving DecidableEq

structure DomainRouting where
  bitmap : Vector (BitVec 32) 8
  deriving DecidableEq

abbrev FactMap := List (LpmKey × DomainRouting)

def DomainRouting.zero : DomainRouting := ⟨Vector.replicate 8 0⟩

def DomainRouting.bit (routing : DomainRouting) (id : ℕ) : Bool := (routing.bitmap.toList.getD (id / 32) 0).getLsbD (id % 32)

def DomainRouting.union (left right : DomainRouting) : DomainRouting := ⟨Vector.zipWith (· ||| ·) left.bitmap right.bitmap⟩

def bitmapBit (id : ℕ) : DomainRouting := ⟨(Vector.replicate 8 0).setIfInBounds (id / 32) (0 ||| 1#32 <<< (id % 32))⟩

def lpmKeyBytes (key : LpmKey) : List Byte :=
  leBytes 4 key.prefixLen.toNat ++ key.data.toList.flatMap (fun word => leBytes 4 word.toNat)

def canonicalLpmKey (bytes : Vector Byte 16) (prefixLen : ℕ) : LpmKey where
  prefixLen := BitVec.ofNat 32 prefixLen
  data := Vector.ofFn fun i => BitVec.ofNat 32 (leNat ((bytes.toList.drop (4 * i)).take 4))

def LpmKey.bytes (key : LpmKey) : List Byte := (lpmKeyBytes key).drop 4

def prefixContains (parent child : LpmKey) : Bool :=
  if parent.prefixLen > child.prefixLen then false
  else (List.range parent.prefixLen.toNat).all fun bit => bitAt parent.bytes bit == bitAt child.bytes bit

def mergeEntry (key : LpmKey) (value : DomainRouting) : FactMap → FactMap
  | [] => [(key, value)]
  | (k, v) :: merged =>
    if lpmKeyBytes k = lpmKeyBytes key then (k, v.union value) :: merged
    else (k, v) :: mergeEntry key value merged

section

variable (entries : FactMap)

def mergeAll : FactMap := entries.foldl (fun merged entry => mergeEntry entry.1 entry.2 merged) []

def keyLe (a b : LpmKey) : Prop := a.bytes < b.bytes ∨ (a.bytes = b.bytes ∧ a.prefixLen ≤ b.prefixLen)

instance (a b : LpmKey) : Decidable (keyLe a b) := inferInstanceAs (Decidable (_ ∨ _))

def sortEntries : FactMap := (mergeAll entries).insertionSort (fun a b => keyLe a.1 b.1)

/-- The order in which the hash map hands its values out is immaterial: its keys are distinct and
the sort places each of them. -/
def inheritPrefixBits : FactMap :=
  inheritFrom prefixContains DomainRouting.union [] (sortEntries entries)

def lpmLookup (key : LpmKey) : Option DomainRouting :=
  (longestMatch prefixContains (fun k => k.prefixLen.toNat) key entries).map snd

def factBit (key : LpmKey) (id : ℕ) : Bool := (lpmLookup entries key).any (fun routing => routing.bit id)

end

theorem bit_union (a b : DomainRouting) (id : ℕ) : (a.union b).bit id = (a.bit id || b.bit id) := by
  simp only [DomainRouting.bit, DomainRouting.union, getD_eq_getElem?_getD, Vector.getElem?_toList]
  by_cases h : id / 32 < 8
  · simp [h]
  · simp [h]

theorem bit_bitmapBit (id i : ℕ) (h : id < routingFactCapacity) : (bitmapBit id).bit i = decide (i = id) := by
  have hid : id / 32 < 8 := by simp only [routingFactCapacity] at h; omega
  have hm : i % 32 < 32 := Nat.mod_lt _ (by omega)
  simp only [DomainRouting.bit, bitmapBit, getD_eq_getElem?_getD, Vector.getElem?_toList]
  by_cases hw : id / 32 = i / 32
  · have hi : i / 32 < 8 := hw ▸ hid
    rw [Vector.getElem?_setIfInBounds, if_pos hw, if_pos hid]
    rw [Option.getD_some]
    by_cases he : i = id
    · simp [he, Nat.mod_lt]
    have : i % 32 ≠ id % 32 := by omega
    simp [he]
    omega
  rw [Vector.getElem?_setIfInBounds, if_neg hw]
  have he : i ≠ id := by rintro rfl; exact hw rfl
  by_cases hi : i / 32 < 8
  · simp [hi, he]
  · simp [hi, he]

variable (key : LpmKey)

theorem LpmKey.bytes_eq : key.bytes = key.data.toList.flatMap (fun word => leBytes 4 word.toNat) := by
  simp [LpmKey.bytes, lpmKeyBytes]

theorem LpmKey.bytes_length : key.bytes.length = 16 := by simp [LpmKey.bytes_eq, length_flatMap]

theorem lpmKeyBytes_injective {a b : LpmKey} (h : lpmKeyBytes a = lpmKeyBytes b) : a = b := by
  obtain ⟨pa, da⟩ := a
  obtain ⟨pb, db⟩ := b
  obtain ⟨hp, hd⟩ := append_inj h (by simp)
  have hw (v w : BitVec 32) (hvw : leBytes 4 v.toNat = leBytes 4 w.toNat) : v = w :=
    BitVec.eq_of_toNat_eq (leBytes_injective (by have := v.isLt; omega) (by have := w.isLt; omega) hvw)
  have hin : ∀ l m : List (BitVec 32), l.flatMap (fun word => leBytes 4 word.toNat) =
      m.flatMap (fun word => leBytes 4 word.toNat) → l.length = m.length → l = m := by
    intro l
    induction l with
    | nil => intro m _ hl; simpa using hl.symm
    | cons v l ih =>
      intro m hm hl
      cases m with
      | nil => simp at hl
      | cons w m =>
        simp only [flatMap_cons] at hm
        obtain ⟨hv, hr⟩ := append_inj hm (by simp)
        rw [hw v w hv, ih m hr (by simpa using hl)]
  rw [hw pa pb hp, Vector.toList_inj.mp (hin da.toList db.toList hd (by simp))]

theorem bytes_canonicalLpmKey (bytes : Vector Byte 16) (n : ℕ) : (canonicalLpmKey bytes n).bytes = bytes.toList := by
  have hle : bytes.toList.length = 16 := by simp
  have hc (i : ℕ) (hi : i < 4) : leBytes 4 (BitVec.ofNat 32 (leNat ((bytes.toList.drop (4 * i)).take 4))).toNat =
        (bytes.toList.drop (4 * i)).take 4 := by
    have hl : ((bytes.toList.drop (4 * i)).take 4).length = 4 := by
      rw [length_take, length_drop]
      omega
    have hlt := leNat_lt ((bytes.toList.drop (4 * i)).take 4)
    rw [hl] at hlt
    rw [BitVec.toNat_ofNat, Nat.mod_eq_of_lt (by omega), leBytes_leNat hl]
  have hcu (k : ℕ) : (bytes.toList.drop k).take 4 ++ bytes.toList.drop (k + 4) = bytes.toList.drop k := by
    rw [← drop_drop, take_append_drop]
  have hn : bytes.toList.drop 16 = [] := drop_eq_nil_of_le hle.le
  calc (canonicalLpmKey bytes n).bytes
      = (bytes.toList.drop 0).take 4 ++ ((bytes.toList.drop 4).take 4 ++
          ((bytes.toList.drop 8).take 4 ++ ((bytes.toList.drop 12).take 4 ++ bytes.toList.drop 16))) := by
        rw [LpmKey.bytes_eq, canonicalLpmKey, hn]
        simp only [Vector.toList_ofFn, ofFn_succ, ofFn_zero, flatMap_cons, flatMap_nil]
        exact congrArg₂ _ (hc 0 (by omega)) (congrArg₂ _ (hc 1 (by omega))
          (congrArg₂ _ (hc 2 (by omega)) (congrArg₂ _ (hc 3 (by omega)) rfl)))
    _ = bytes.toList := by rw [hcu 12, hcu 8, hcu 4, hcu 0, drop_zero]

structure LpmKey.Canonical (key : LpmKey) : Prop where
  len : key.prefixLen.toNat ≤ 128
  host : ∀ i, key.prefixLen.toNat ≤ i → i < 128 → bitAt key.bytes i = false

def LpmKey.value (key : LpmKey) : ℕ := beNat key.bytes

def KeyBefore (a b : LpmKey) : Prop :=
  a.Canonical ∧ b.Canonical ∧ (a.value < b.value ∨ (a.value = b.value ∧ a.prefixLen.toNat < b.prefixLen.toNat))

theorem prefixContains_iff (a b : LpmKey) : prefixContains a b ↔ a.prefixLen.toNat ≤ b.prefixLen.toNat ∧
      ∀ i < a.prefixLen.toNat, bitAt a.bytes i = bitAt b.bytes i := by
  rw [prefixContains]
  split
  · rename_i h
    have : b.prefixLen.toNat < a.prefixLen.toNat := h
    simp only [Bool.false_eq_true, false_iff]
    omega
  rename_i h
  have : a.prefixLen.toNat ≤ b.prefixLen.toNat := not_lt.mp h
  simp [this]

theorem LpmKey.Canonical.value_div_eq_iff {a : LpmKey} (h : a.Canonical) (b : LpmKey) :
    a.value / 2 ^ (128 - a.prefixLen.toNat) = b.value / 2 ^ (128 - a.prefixLen.toNat) ↔
      ∀ i < a.prefixLen.toNat, bitAt a.bytes i = bitAt b.bytes i := by
  have hd := div_beNat_eq_iff a.bytes b.bytes a.prefixLen.toNat
    (by rw [a.bytes_length, b.bytes_length]) (by rw [a.bytes_length]; exact h.len)
  rwa [a.bytes_length] at hd

theorem LpmKey.Canonical.dvd_value {a : LpmKey} (h : a.Canonical) : 2 ^ (128 - a.prefixLen.toNat) ∣ a.value := by
  apply Nat.dvd_of_mod_eq_zero
  apply Nat.eq_of_testBit_eq
  intro j
  rw [Nat.testBit_mod_two_pow, Nat.zero_testBit]
  by_cases hj : j < 128 - a.prefixLen.toNat
  · have ht := testBit_beNat a.bytes (127 - j) (by rw [a.bytes_length]; omega)
    have he : 8 * a.bytes.length - 1 - (127 - j) = j := by
      rw [a.bytes_length]
      omega
    rw [he] at ht
    rw [LpmKey.value, ht, h.host (127 - j) (by omega) (by omega), Bool.and_false]
  · simp [hj]

theorem LpmKey.Canonical.value_le {a : LpmKey} (h : a.Canonical) {b : LpmKey}
    (hb : ∀ i < a.prefixLen.toNat, bitAt a.bytes i = bitAt b.bytes i) : a.value ≤ b.value := by
  have hd := (h.value_div_eq_iff b).mpr hb
  calc a.value = a.value / 2 ^ (128 - a.prefixLen.toNat) * 2 ^ (128 - a.prefixLen.toNat) :=
        (Nat.div_mul_cancel h.dvd_value).symm
    _ = b.value / 2 ^ (128 - a.prefixLen.toNat) * 2 ^ (128 - a.prefixLen.toNat) := by rw [hd]
    _ ≤ b.value := Nat.div_mul_le_self _ _

theorem keyBefore_gap_len {a b : LpmKey} (h : KeyBefore a b)
    (hd : a.value / 2 ^ (128 - a.prefixLen.toNat) = b.value / 2 ^ (128 - a.prefixLen.toNat)) :
    a.prefixLen.toNat ≤ b.prefixLen.toNat := by
  obtain ⟨ha, hb, hlt⟩ := h
  by_contra hl
  have hdv : 2 ^ (128 - a.prefixLen.toNat) ∣ b.value := by
    apply (Nat.pow_dvd_pow 2 _).trans hb.dvd_value
    omega
  have : a.value = b.value := by rw [← Nat.div_mul_cancel ha.dvd_value, ← Nat.div_mul_cancel hdv, hd]
  omega

theorem nested_prefixContains : Nested prefixContains KeyBefore (fun k => k.prefixLen.toNat) where
  refl a := by simp [prefixContains_iff]
  trans a b c hab hbc := by
    rw [prefixContains_iff] at *
    refine ⟨hab.1.trans hbc.1, fun i hi => ?_⟩
    rw [hab.2 i hi, hbc.2 i (hi.trans_le hab.1)]
  chain a b c hac hbc hl := by
    rw [prefixContains_iff] at *
    refine ⟨hl, fun i hi => ?_⟩
    rw [hac.2 i hi, hbc.2 i (hi.trans_le hl)]
  back a b h hba := by
    obtain ⟨-, hb, hlt⟩ := h
    rw [prefixContains_iff] at hba
    have := hb.value_le hba.2
    omega
  gap a b c hab hbc hac := by
    rw [prefixContains_iff] at *
    have ha := hab.1
    have hle : a.value ≤ b.value ∧ b.value ≤ c.value := by
      have h1 := hab.2.2
      have h2 := hbc.2.2
      omega
    have hac' := (ha.value_div_eq_iff c).mpr hac.2
    have hd : a.value / 2 ^ (128 - a.prefixLen.toNat) = b.value / 2 ^ (128 - a.prefixLen.toNat) := by
      apply le_antisymm (Nat.div_le_div_right hle.1)
      rw [hac']
      exact Nat.div_le_div_right hle.2
    exact ⟨keyBefore_gap_len hab hd, (ha.value_div_eq_iff b).mp hd⟩

section

variable (entries : FactMap)

def Covers (key : LpmKey) (id : ℕ) : Prop :=
  Covered prefixContains (fun routing => routing.bit id) entries key

theorem covers_nil (id : ℕ) : ¬ Covers [] key id := by
  rintro ⟨e, he, -⟩
  exact absurd he not_mem_nil

theorem covers_cons (e : LpmKey × DomainRouting) (entries : FactMap) (key : LpmKey) (id : ℕ) :
    Covers (e :: entries) key id ↔ (prefixContains e.1 key ∧ e.2.bit id) ∨ Covers entries key id := by
  simp [Covers, Covered]

theorem covers_append (l m : FactMap) (key : LpmKey) (id : ℕ) : Covers (l ++ m) key id ↔ Covers l key id ∨ Covers m key id := by
  simp [Covers, Covered, or_and_right, exists_or]

theorem covers_mergeEntry (k : LpmKey) (value : DomainRouting) (merged : FactMap) (id : ℕ) :
    Covers (mergeEntry key value merged) k id ↔ Covers merged k id ∨ (prefixContains key k ∧ value.bit id) := by
  induction merged with
  | nil => rw [mergeEntry, covers_cons, or_comm]
  | cons e merged ih =>
    rw [mergeEntry]
    split
    · rename_i h
      have he : e.1 = key := lpmKeyBytes_injective h
      simp only [covers_cons, bit_union, he, Bool.or_eq_true]
      tauto
    · rw [covers_cons, ih, covers_cons, or_assoc]

theorem mem_mergeEntry_keys (k : LpmKey) (value : DomainRouting) (merged : FactMap) :
    k ∈ (mergeEntry key value merged).map fst ↔ k ∈ merged.map fst ∨ k = key := by
  induction merged with
  | nil => simp [mergeEntry]
  | cons e merged ih =>
    rw [mergeEntry]
    split
    · rename_i h
      have he : e.1 = key := lpmKeyBytes_injective h
      simp only [map_cons, mem_cons, he]
      tauto
    · simp only [map_cons, mem_cons, ih]
      tauto

theorem nodup_mergeEntry {value : DomainRouting} {merged : FactMap} (h : (merged.map fst).Nodup) :
    ((mergeEntry key value merged).map fst).Nodup := by
  induction merged with
  | nil => simp [mergeEntry]
  | cons e merged ih =>
    rw [map_cons, nodup_cons] at h
    rw [mergeEntry]
    split
    · exact nodup_cons.mpr h
    rename_i hn
    rw [map_cons, nodup_cons, mem_mergeEntry_keys]
    refine ⟨?_, ih h.2⟩
    rintro (hm | he)
    · exact h.1 hm
    · exact hn (congrArg lpmKeyBytes he)

theorem mergeAll_spec : ((mergeAll entries).map fst).Nodup ∧ (∀ k, k ∈ (mergeAll entries).map fst ↔ k ∈ entries.map fst) ∧
    ∀ k id, Covers (mergeAll entries) k id ↔ Covers entries k id := by
  induction entries using List.reverseRecOn with
  | nil => simp [mergeAll]
  | append_singleton entries e ih =>
    obtain ⟨hn, hk, hc⟩ := ih
    have hs : mergeAll (entries ++ [e]) = mergeEntry e.1 e.2 (mergeAll entries) := by simp [mergeAll]
    rw [hs]
    refine ⟨nodup_mergeEntry _ hn, fun k => ?_, fun k id => ?_⟩
    · rw [mem_mergeEntry_keys, hk]
      simp
    · rw [covers_mergeEntry, hc, covers_append, covers_cons]
      simp [covers_nil]

theorem keyLe_iff (a b : LpmKey) : keyLe a b ↔ a.value < b.value ∨ (a.value = b.value ∧ a.prefixLen.toNat ≤ b.prefixLen.toNat) := by
  have hl : a.bytes.length = b.bytes.length := by rw [a.bytes_length, b.bytes_length]
  have he : a.bytes = b.bytes ↔ a.value = b.value := ⟨fun h => congrArg beNat h, beNat_injective _ _ hl⟩
  rw [keyLe, lt_iff_beNat_lt _ _ hl, he, BitVec.le_def]
  rfl

instance : Std.Total (fun a b : LpmKey × DomainRouting => keyLe a.1 b.1) where
  total a b := by
    simp only [keyLe_iff]
    omega

instance : IsTrans (LpmKey × DomainRouting) (fun a b => keyLe a.1 b.1) where
  trans a b c := by
    simp only [keyLe_iff]
    omega

theorem key_ext (a b : LpmKey) (hv : a.value = b.value) (hp : a.prefixLen.toNat = b.prefixLen.toNat) : a = b := by
  have hb : a.bytes = b.bytes := beNat_injective _ _ (by rw [a.bytes_length, b.bytes_length]) hv
  apply lpmKeyBytes_injective
  rw [lpmKeyBytes, lpmKeyBytes, hp, ← LpmKey.bytes_eq, ← LpmKey.bytes_eq, hb]

theorem sortEntries_pairwise (hc : ∀ e ∈ entries, e.1.Canonical) : (sortEntries entries).Pairwise (fun x y => KeyBefore x.1 y.1) := by
  obtain ⟨hn, hke, -⟩ := mergeAll_spec entries
  have hpe : (sortEntries entries).Perm (mergeAll entries) := perm_insertionSort _ _
  have hca : ∀ e ∈ sortEntries entries, e.1.Canonical := by
    intro e he
    have hk := (hke e.1).mp (mem_map_of_mem (hpe.mem_iff.mp he))
    obtain ⟨e', he', hee⟩ := mem_map.mp hk
    exact hee ▸ hc e' he'
  have hne : (sortEntries entries).Pairwise (fun x y => x.1 ≠ y.1) := by
    have := (hpe.map fst).nodup_iff.mpr hn
    exact pairwise_map.mp this
  have hs : (sortEntries entries).Pairwise (fun x y => keyLe x.1 y.1) := pairwise_insertionSort _ _
  refine (hs.and hne).imp_of_mem ?_
  rintro x y hx hy ⟨hl, hxy⟩
  refine ⟨hca x hx, hca y hy, ?_⟩
  have hext := key_ext x.1 y.1
  rw [keyLe_iff] at hl
  by_contra hlt
  exact hxy (hext (by omega) (by omega))

theorem factBit_inheritPrefixBits (hc : ∀ e ∈ entries, e.1.Canonical) (key : LpmKey) (id : ℕ) :
    factBit (inheritPrefixBits entries) key id ↔ Covers entries key id := by
  have hl := longestMatch_inherit DomainRouting.union (fun routing => routing.bit id)
    nested_prefixContains (fun a b => bit_union a b id) _ (sortEntries_pairwise entries hc) key
  have hpe : (sortEntries entries).Perm (mergeAll entries) := perm_insertionSort _ _
  have hco : Covered prefixContains (fun routing => routing.bit id) (sortEntries entries) key ↔ Covers (mergeAll entries) key id := by
    simp only [Covers, Covered, hpe.mem_iff]
  rw [factBit, lpmLookup, Option.any_map, ← (mergeAll_spec entries).2.2, ← hco, ← hl]
  rfl

end

section

def containing (entries : FactMap) (address : Vector Byte 16) : FactMap :=
  entries.filter fun entry => prefixContains entry.1 (canonicalLpmKey address 128)

def unionAll (entries : FactMap) : DomainRouting := entries.foldr (fun entry routing => entry.2.union routing) .zero

theorem bit_zero (id : ℕ) : DomainRouting.zero.bit id = false := by
  simp only [DomainRouting.bit, DomainRouting.zero, getD_eq_getElem?_getD, Vector.getElem?_toList]
  by_cases h : id / 32 < 8
  · simp [h]
  · simp [h]

theorem routing_ext {a b : DomainRouting} (h : ∀ id, a.bit id = b.bit id) : a = b := by
  obtain ⟨a⟩ := a
  obtain ⟨b⟩ := b
  congr 1
  ext word hw bit hb
  have hid := h (32 * word + bit)
  have hd : (32 * word + bit) / 32 = word := by omega
  have hm : (32 * word + bit) % 32 = bit := by omega
  simpa [DomainRouting.bit, hd, hm, hw, BitVec.getLsbD_eq_getElem hb] using hid

variable (entries : FactMap)

theorem bit_unionAll (id : ℕ) : (unionAll entries).bit id = true ↔ ∃ entry ∈ entries, entry.2.bit id = true := by
  induction entries with
  | nil => simp [unionAll, bit_zero]
  | cons entry entries ih =>
    rw [unionAll, foldr_cons, bit_union, Bool.or_eq_true, exists_mem_cons_iff, ← ih]
    rfl

theorem covers_iff_unionAll (address : Vector Byte 16) (id : ℕ) :
    Covers entries (canonicalLpmKey address 128) id ↔ (unionAll (containing entries address)).bit id = true := by
  rw [bit_unionAll]
  simp only [Covers, Covered, containing, mem_filter, and_assoc]

theorem inheritPrefixBits_keys : (inheritPrefixBits entries).map fst = (sortEntries entries).map fst :=
  inheritFrom_keys DomainRouting.union [] (sortEntries entries)

theorem mem_keys_inheritPrefixBits (key : LpmKey) : key ∈ (inheritPrefixBits entries).map fst ↔ key ∈ entries.map fst := by
  have hpe : (sortEntries entries).Perm (mergeAll entries) := perm_insertionSort _ _
  rw [inheritPrefixBits_keys, (hpe.map fst).mem_iff, (mergeAll_spec entries).2.1]

theorem containing_eq_nil_iff (address : Vector Byte 16) :
    containing entries address = [] ↔ ∀ key ∈ entries.map fst, prefixContains key (canonicalLpmKey address 128) = false := by
  simp [containing, filter_eq_nil_iff]

/-- Among the inherited entries the keys are distinct, and the longest prefix that contains an address carries the
union of the bitmaps of all the prefixes that did. -/
theorem inheritPrefixBits_longest (entries : FactMap) (hc : ∀ entry ∈ entries, entry.1.Canonical) :
    ((inheritPrefixBits entries).map fst).Nodup ∧ ∀ address,
      (containing (inheritPrefixBits entries) address = [] ↔ containing entries address = []) ∧
      ∀ best ∈ containing (inheritPrefixBits entries) address,
        (∀ entry ∈ containing (inheritPrefixBits entries) address, entry.1.prefixLen ≤ best.1.prefixLen) →
          best.2 = unionAll (containing entries address) := by
  have hpe : (sortEntries entries).Perm (mergeAll entries) := perm_insertionSort _ _
  refine ⟨?_, fun address => ⟨?_, fun best hb hm => routing_ext fun id => ?_⟩⟩
  · rw [inheritPrefixBits_keys]
    exact (hpe.map fst).nodup_iff.mpr (mergeAll_spec entries).1
  · simp only [containing_eq_nil_iff, mem_keys_inheritPrefixBits]
  obtain ⟨hme, hco⟩ := mem_filter.mp hb
  have hl := covered_of_longest (fun routing : DomainRouting => routing.bit id) nested_prefixContains
    (fun a b => bit_union a b id) (sortEntries_pairwise entries hc) hme hco fun entry he hec => hm entry (mem_filter.mpr ⟨he, hec⟩)
  rw [Bool.eq_iff_iff, ← covers_iff_unionAll, ← (mergeAll_spec entries).2.2, hl]
  simp only [Covers, Covered, hpe.mem_iff]

def tenEight : Vector Byte 16 := #v[10, 0, 0, 0, 0, 0, 0, 0, 0, 0, 0, 0, 0, 0, 0, 0]

def tenOneSixteen : Vector Byte 16 := #v[10, 1, 0, 0, 0, 0, 0, 0, 0, 0, 0, 0, 0, 0, 0, 0]

def nestedEntries : FactMap := [(canonicalLpmKey tenOneSixteen 16, bitmapBit 255), (canonicalLpmKey tenEight 8, bitmapBit 0)]

theorem nestedEntries_canonical : ∀ entry ∈ nestedEntries, entry.1.Canonical := by
  intro entry he
  have hh : ∀ entry ∈ nestedEntries, entry.1.prefixLen.toNat ≤ 128 ∧
      ∀ i < 128, entry.1.prefixLen.toNat ≤ i → bitAt entry.1.bytes i = false := by decide +kernel
  exact ⟨(hh entry he).1, fun i hl hi => (hh entry he).2 i hi hl⟩

theorem inheritPrefixBits_longest_nested : (∀ entry ∈ nestedEntries, entry.1.Canonical) ∧
    (canonicalLpmKey tenOneSixteen 16, (bitmapBit 255).union (bitmapBit 0)) ∈ containing (inheritPrefixBits nestedEntries) tenOneSixteen ∧
    (bitmapBit 255).union (bitmapBit 0) = unionAll (containing nestedEntries tenOneSixteen) := by
  have hb : (canonicalLpmKey tenOneSixteen 16, (bitmapBit 255).union (bitmapBit 0)) ∈
      containing (inheritPrefixBits nestedEntries) tenOneSixteen := by decide +kernel
  exact ⟨nestedEntries_canonical, hb,
    ((inheritPrefixBits_longest nestedEntries nestedEntries_canonical).2 tenOneSixteen).2 _ hb (by decide +kernel)⟩

end

end Honk.Routing
