import Honk.Lib.Tally
import Honk.Routing.Address
import Honk.Routing.FactMap

namespace Honk.Projection

open Honk.Lib Honk.Routing DomainRouting
open Std (ExtTreeMap ExtTreeSet)

inductive IpVersion where
  | v4
  | v6
  deriving DecidableEq

def IpVersion.index : IpVersion → ℕ
  | .v4 => 0
  | .v6 => 1

theorem IpVersion.index_injective : Function.Injective IpVersion.index := by
  intro a b h
  cases a <;> cases b <;> first | rfl | cases h

instance : LinearOrder IpVersion := LinearOrder.lift' IpVersion.index IpVersion.index_injective

def rank : IpAddr → ℕ
  | .v4 octets => beNat octets.toList
  | .v6 octets => 2 ^ 32 + beNat octets.toList

theorem rank_injective : Function.Injective rank := by
  have hl : ∀ octets : Vector Byte 4, beNat octets.toList < 2 ^ 32 := fun octets => by
    have h := beNat_lt octets.toList
    rwa [Vector.length_toList] at h
  intro a b h
  cases a with
  | v4 a =>
    cases b with
    | v4 b => rw [Vector.toList_inj.mp (beNat_injective a.toList b.toList (by simp) h)]
    | v6 b => exact absurd h (by have := hl a; simp only [rank]; omega)
  | v6 a =>
    cases b with
    | v4 b => exact absurd h (by have := hl b; simp only [rank]; omega)
    | v6 b =>
      have he := Nat.add_left_cancel h
      rw [Vector.toList_inj.mp (beNat_injective a.toList b.toList (by simp) he)]

instance : LinearOrder IpAddr := LinearOrder.lift' rank rank_injective

theorem lawfulEqCmp_compare (K : Type) [LinearOrder K] : Std.LawfulEqCmp (compare : K → K → Ordering) := inferInstance

instance transCmp {K : Type} [LinearOrder K] : Std.TransCmp (compare : K → K → Ordering) := inferInstance

instance : Std.LawfulEqCmp (compare : IpAddr → IpAddr → Ordering) := lawfulEqCmp_compare IpAddr

def toCanonical : IpAddr → IpAddr
  | .v4 octets => .v4 octets
  | .v6 octets =>
    if octets.toList.take 12 = List.replicate 10 0 ++ [255, 255] then
      .v4 ⟨(octets.toList.drop 12).toArray, by simp⟩
    else .v6 octets

instance : Max DomainRouting := ⟨union⟩

theorem union_eq (a b : DomainRouting) : a ⊔ b = ⟨Vector.zipWith (· ||| ·) a.bitmap b.bitmap⟩ := rfl

instance : SemilatticeSup DomainRouting :=
  SemilatticeSup.mk'
    (fun a b => by
      rw [union_eq, union_eq, mk.injEq]
      ext i hi
      simp [BitVec.or_comm])
    (fun a b c => by
      simp only [union_eq, mk.injEq]
      ext i hi
      simp [BitVec.or_assoc])
    (fun a => by
      rw [union_eq]
      congr 1
      ext i hi
      simp)

instance : OrderBot DomainRouting where
  bot := .zero
  bot_le a := by
    show union .zero a = a
    rw [union, zero]
    congr 1
    ext i hi
    simp

section

variable {N : Type} [LinearOrder N]

structure IpOwners (N : Type) where
  members : Finset (N ×ₗ IpVersion) := ∅
  contributions : Tally DomainRouting := []

section

variable (owners : IpOwners N)

def IpOwners.insert (member : N ×ₗ IpVersion) (bitmap : Option DomainRouting) : IpOwners N :=
  if member ∈ owners.members then owners
  else
    { members := Insert.insert member owners.members
      contributions := match bitmap with
        | some bitmap => owners.contributions.add bitmap
        | none => owners.contributions }

/-- A member whose contribution is lost is a panic. -/
def IpOwners.remove (member : N ×ₗ IpVersion) (bitmap : Option DomainRouting) : Option (IpOwners N) :=
  if member ∈ owners.members then
    match bitmap with
    | some bitmap => (owners.contributions.remove bitmap).map fun contributions =>
        { members := owners.members.erase member, contributions := contributions }
    | none => some { owners with members := owners.members.erase member }
  else some owners

def IpOwners.aggregate : Option DomainRouting := owners.contributions.join

variable (bitmapOf : N ×ₗ IpVersion → Option DomainRouting) (members : Finset (N ×ₗ IpVersion))

def bitmaps : Multiset DomainRouting :=
  members.val.filterMap bitmapOf

def joined : Option DomainRouting :=
  if bitmaps bitmapOf members = 0 then none else some (bitmaps bitmapOf members).sup

def IpOwners.Counted : Prop :=
  owners.contributions.Counts (bitmaps bitmapOf owners.members)

end

variable {owners : IpOwners N} {bitmapOf : N ×ₗ IpVersion → Option DomainRouting}

omit [LinearOrder N] in
theorem IpOwners.Counted.empty : ({} : IpOwners N).Counted bitmapOf := Tally.Counts.nil

omit [LinearOrder N] in
theorem IpOwners.Counted.aggregate (h : owners.Counted bitmapOf) : owners.aggregate = joined bitmapOf owners.members :=
  Tally.Counts.join h

variable {member : N ×ₗ IpVersion} {bitmap : Option DomainRouting}

theorem IpOwners.mem_insert : m ∈ (owners.insert member bitmap).members ↔ m = member ∨ m ∈ owners.members := by
  unfold IpOwners.insert
  split
  · rename_i hme
    exact ⟨.inr, fun hm => hm.elim (fun he => he ▸ hme) id⟩
  · exact Finset.mem_insert

theorem IpOwners.Counted.insert (h : owners.Counted bitmapOf) (hb : bitmapOf member = bitmap) :
    (owners.insert member bitmap).Counted bitmapOf := by
  unfold IpOwners.insert
  split
  · exact h
  rename_i hn
  have hba : bitmaps bitmapOf (Insert.insert member owners.members) =
      (bitmap.toList : Multiset DomainRouting) + bitmaps bitmapOf owners.members := by
    unfold bitmaps
    rw [Finset.insert_val_of_notMem hn]
    cases bitmap with
    | none => rw [Multiset.filterMap_cons_none _ _ hb]; simp
    | some b => rw [Multiset.filterMap_cons_some _ _ _ hb]; simp
  unfold IpOwners.Counted
  rw [hba]
  cases bitmap with
  | none =>
    rw [Option.toList_none, Multiset.coe_nil, zero_add]
    exact h
  | some b => simpa using Tally.Counts.add h b

theorem IpOwners.Counted.remove (h : owners.Counted bitmapOf) (hb : bitmapOf member = bitmap) :
    ∃ owners', owners.remove member bitmap = some owners' ∧ owners'.members = owners.members.erase member ∧ owners'.Counted bitmapOf := by
  unfold IpOwners.remove
  split
  · rename_i hm
    have hv : owners.members.val = member ::ₘ (owners.members.erase member).val := by
      rw [Finset.erase_val, Multiset.cons_erase hm]
    unfold IpOwners.Counted bitmaps at h
    rw [hv] at h
    cases bitmap with
    | none =>
      rw [Multiset.filterMap_cons_none _ _ hb] at h
      exact ⟨_, rfl, rfl, h⟩
    | some b =>
      rw [Multiset.filterMap_cons_some _ _ _ hb] at h
      obtain ⟨contributions, hr, hc⟩ := h.remove (Multiset.mem_cons_self ..)
      rw [Multiset.erase_cons_head] at hc
      refine ⟨{ members := owners.members.erase member, contributions := contributions }, ?_, rfl, hc⟩
      show (owners.contributions.remove b).map _ = _
      rw [hr]
      rfl
  · rename_i hn
    exact ⟨owners, rfl, (Finset.erase_eq_of_notMem hn).symm, h⟩

end

def ipCapacity : ℕ := 65536 * 3 / 4

def zeroIpCapacity : ℕ := 65536 / 2

/-- The desired entries and which of them are all zero. `omitted` is a history: how many zero entries and how
many entries there were when an address was left out. -/
structure Bounded where
  entries : ExtTreeMap IpAddr DomainRouting := ∅
  zeroIps : ExtTreeSet IpAddr := ∅
  omitted : IpAddr → Option (ℕ × ℕ) := fun _ => none

namespace Bounded

section

variable (table : Bounded) (ip : IpAddr) (bitmap : DomainRouting)

def put : Bounded where
  entries := table.entries.insert ip bitmap
  zeroIps := if bitmap = .zero then table.zeroIps.insert ip else table.zeroIps.erase ip
  omitted := Function.update table.omitted ip none

def remove : Bounded where
  entries := table.entries.erase ip
  zeroIps := table.zeroIps.erase ip
  omitted := Function.update table.omitted ip none

def evict : Bounded :=
  { table.remove ip with omitted := Function.update table.omitted ip (some (table.zeroIps.size, table.entries.size)) }

def exceeds : Prop := table.zeroIps.size > zeroIpCapacity ∨ table.entries.size > ipCapacity

instance (table : Bounded) : Decidable table.exceeds := inferInstanceAs (Decidable (_ ∨ _))

def victim : Option IpAddr := if table.exceeds then table.zeroIps.max? <|> table.entries.maxKey? else none

def insertBounded : Bounded × Option IpAddr :=
  match (table.put ip bitmap).victim with
  | some evicted => ((table.put ip bitmap).evict evicted, some evicted)
  | none => (table.put ip bitmap, none)

structure Sound : Prop where
  entries : table.entries.size ≤ ipCapacity
  zeroIps : table.zeroIps.size ≤ zeroIpCapacity
  exact : ∀ ip, ip ∈ table.zeroIps ↔ table.entries[ip]? = some .zero

end

variable {table : Bounded}

theorem Sound.empty : Sound {} := ⟨by simp, by simp, by simp⟩

section

variable (h : ∀ ip, ip ∈ table.zeroIps ↔ table.entries[ip]? = some .zero)
include h

theorem exact_put (ip : IpAddr) (bitmap : DomainRouting)
    (other : IpAddr) : other ∈ (table.put ip bitmap).zeroIps ↔ (table.put ip bitmap).entries[other]? = some .zero := by
  simp only [put, ExtTreeMap.getElem?_insert, compare_eq_iff_eq]
  by_cases he : ip = other
  · subst he
    split <;> simp_all
  · split <;> simp [he, h]

theorem exact_remove (ip other : IpAddr) : other ∈ (table.remove ip).zeroIps ↔ (table.remove ip).entries[other]? = some .zero := by
  simp only [remove, ExtTreeMap.getElem?_erase, compare_eq_iff_eq, ExtTreeSet.mem_erase]
  by_cases he : ip = other
  · simp [he]
  · simp [he, h]

end

theorem Sound.remove (h : Sound table) (ip : IpAddr) : Sound (table.remove ip) := by
  refine ⟨?_, ?_, exact_remove h.exact ip⟩
  · have hl := h.entries
    rw [Bounded.remove, ExtTreeMap.size_erase]
    split <;> omega
  have hl := h.zeroIps
  rw [Bounded.remove, ExtTreeSet.size_erase]
  split <;> omega

theorem victim_mem (he : ∀ ip, ip ∈ table.zeroIps ↔ table.entries[ip]? = some .zero)
    (h : table.victim = some evicted) : table.exceeds ∧ evicted ∈ table.entries ∧ ∀ ip ∈ table.zeroIps, evicted ∈ table.zeroIps := by
  unfold victim at h
  split at h
  · refine ⟨‹_›, ?_⟩
    cases hz : table.zeroIps.max? with
    | some zero =>
      rw [hz] at h
      cases h
      have hm := (ExtTreeSet.max?_eq_some_iff_mem_and_forall.mp hz).1
      exact ⟨ExtTreeMap.mem_iff_isSome_getElem?.mpr (by rw [(he _).mp hm]; rfl), fun _ _ => hm⟩
    | none =>
      rw [hz] at h
      change table.entries.maxKey? = some evicted at h
      have hem := ExtTreeSet.max?_eq_none_iff.mp hz
      exact ⟨(ExtTreeMap.maxKey?_eq_some_iff_mem_and_forall.mp h).1, fun ip hip => by rw [hem] at hip; simp at hip⟩
  · cases h

theorem Sound.insertBounded (h : Sound table) (ip : IpAddr) (bitmap : DomainRouting) : Sound (table.insertBounded ip bitmap).1 := by
  have he := exact_put h.exact ip bitmap
  have hen : (table.put ip bitmap).entries.size ≤ ipCapacity + 1 := by
    have hl := h.entries
    simp only [put, ExtTreeMap.size_insert]
    split <;> omega
  have hz : (table.put ip bitmap).zeroIps.size ≤ zeroIpCapacity + 1 := by
    have hl := h.zeroIps
    simp only [put]
    split
    · rw [ExtTreeSet.size_insert]
      split <;> omega
    · rw [ExtTreeSet.size_erase]
      split <;> omega
  unfold Bounded.insertBounded
  split
  · rename_i evicted hv
    obtain ⟨hexceeds, hm, hze⟩ := victim_mem he hv
    refine ⟨?_, ?_, exact_remove he evicted⟩
    · simp only [Bounded.evict, Bounded.remove, ExtTreeMap.size_erase, ExtTreeMap.contains_iff_mem.mpr hm, if_true]
      omega
    simp only [Bounded.evict, Bounded.remove, ExtTreeSet.size_erase]
    split
    · omega
    rename_i hn
    have hem : (table.put ip bitmap).zeroIps = ∅ :=
      ExtTreeSet.ext_mem fun other => ⟨fun ho => absurd (ExtTreeSet.contains_iff_mem.mpr (hze other ho)) hn, fun ho => by simp at ho⟩
    rw [hem]
    simp
  rename_i hv
  have hn : ¬ (table.put ip bitmap).exceeds := by
    intro hexceeds
    rw [victim, if_pos hexceeds] at hv
    cases hze : (table.put ip bitmap).zeroIps.max? with
    | some zero => rw [hze] at hv; cases hv
    | none =>
      rw [hze] at hv
      change (table.put ip bitmap).entries.maxKey? = none at hv
      have hem := ExtTreeMap.maxKey?_eq_none_iff.mp hv
      have hs : (table.put ip bitmap).entries[ip]? = some bitmap := by simp [put]
      rw [hem] at hs
      simp at hs
  rw [exceeds, not_or, not_lt, not_lt] at hn
  exact ⟨hn.2, hn.1, he⟩

end Bounded

end Honk.Projection
