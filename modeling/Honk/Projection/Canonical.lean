import Honk.Projection.Ownership

namespace Honk.Projection

open Honk.Lib Honk.Routing List Option Bounded
open Std (ExtTreeMap ExtTreeSet)

section

abbrev Facts := List (IpAddr × DomainRouting)

section

variable (facts : Facts)

def nonzeros : Facts := facts.filter fun fact => fact.2 ≠ .zero

def zeros : Facts := facts.filter fun fact => fact.2 = .zero

def zeroRoom : ℕ := min zeroIpCapacity (ipCapacity - (nonzeros facts).length)

def canonical : Facts := (nonzeros facts).take ipCapacity ++ (zeros facts).take (zeroRoom facts)

def fill : Bounded := facts.foldl (fun table fact => (table.insertBounded fact.1 fact.2).1) {}

structure Selects (table : Bounded) : Prop where
  sound : table.Sound
  entries : ∀ ip bitmap, table.entries[ip]? = some bitmap ↔ (ip, bitmap) ∈ canonical facts
  size : table.entries.size = min (nonzeros facts).length ipCapacity + min (zeroRoom facts) (zeros facts).length
  zeroSize : table.zeroIps.size = min (zeroRoom facts) (zeros facts).length

end

variable {facts : Facts} {table : Bounded} {ip : IpAddr} {bitmap : DomainRouting}

theorem mem_of_mem_canonical (h : fact ∈ canonical facts) : fact ∈ facts := by
  rcases mem_append.mp h with h | h
  · exact mem_of_mem_filter (mem_of_mem_take h)
  · exact mem_of_mem_filter (mem_of_mem_take h)

theorem snd_of_mem_zeros (facts : Facts) (n : ℕ) (h : fact ∈ (zeros facts).take n) : fact.2 = .zero := by
  simpa using of_mem_filter (mem_of_mem_take h)

theorem zero_mem_canonical : (ip, .zero) ∈ canonical facts ↔ (ip, .zero) ∈ (zeros facts).take (zeroRoom facts) := by
  rw [canonical, mem_append, or_iff_right]
  intro hm
  have hn := of_mem_filter (mem_of_mem_take hm)
  simp at hn

theorem Selects.mem_zeroIps (h : Selects facts table) : ip ∈ table.zeroIps ↔ (ip, .zero) ∈ (zeros facts).take (zeroRoom facts) := by
  rw [h.sound.exact, h.entries, zero_mem_canonical]

theorem canonical_append_nonzero (hn : bitmap ≠ .zero) : canonical (facts ++ [(ip, bitmap)]) =
    (nonzeros facts ++ [(ip, bitmap)]).take ipCapacity ++
      (zeros facts).take (min zeroIpCapacity (ipCapacity - ((nonzeros facts).length + 1))) := by
  simp [canonical, nonzeros, zeros, zeroRoom, hn]

theorem canonical_append_zero : canonical (facts ++ [(ip, .zero)]) =
    (nonzeros facts).take ipCapacity ++ (zeros facts ++ [(ip, DomainRouting.zero)]).take (zeroRoom facts) := by
  simp [canonical, nonzeros, zeros, zeroRoom]

/-- The sizes follow from the contents, for no address occurs twice. -/
theorem Selects.of_entries (hso : facts.Pairwise fun a b => a.1 < b.1) (hs : table.Sound)
    (he : ∀ ip bitmap, table.entries[ip]? = some bitmap ↔ (ip, bitmap) ∈ canonical facts) : Selects facts table := by
  have hn : (facts.map Prod.fst).Nodup := pairwise_map.mpr (hso.imp ne_of_lt)
  have hpe : table.entries.toList.Perm (canonical facts) := by
    refine (perm_ext_iff_of_nodup ?_ ?_).mpr fun fact => ?_
    · refine ExtTreeMap.distinct_keys_toList.imp ?_
      rintro fact _ hne rfl
      exact hne (compare_eq_iff_eq.mpr rfl)
    · have hsp : (nonzeros facts ++ zeros facts).Perm facts := by
        simpa [nonzeros, zeros] using filter_append_perm (fun fact : IpAddr × DomainRouting => fact.2 ≠ .zero) facts
      exact ((take_sublist _ _).append (take_sublist _ _)).nodup (hsp.nodup_iff.mpr hn.of_map)
    · rw [ExtTreeMap.mem_toList_iff_getElem?_eq_some, he]
  have hz : table.zeroIps.toList.Perm (((zeros facts).take (zeroRoom facts)).map Prod.fst) := by
    refine (perm_ext_iff_of_nodup ?_ ?_).mpr fun ip => ?_
    · refine ExtTreeSet.distinct_toList.imp ?_
      rintro ip _ hne rfl
      exact hne (compare_eq_iff_eq.mpr rfl)
    · exact hn.sublist (((take_sublist _ _).trans filter_sublist).map _)
    rw [ExtTreeSet.mem_toList, hs.exact, he, zero_mem_canonical, List.mem_map]
    constructor
    · exact fun hm => ⟨_, hm, rfl⟩
    · rintro ⟨⟨ip, bitmap⟩, hm, rfl⟩
      exact snd_of_mem_zeros facts _ hm ▸ hm
  refine ⟨hs, he, ?_, ?_⟩
  · rw [← ExtTreeMap.length_toList, hpe.length_eq, canonical, length_append, length_take, length_take, min_comm]
  · rw [← ExtTreeSet.length_toList, hz.length_eq, length_map, length_take]

structure Fresh (facts : Facts) (ip : IpAddr) : Prop where
  sorted : facts.Pairwise fun a b => a.1 < b.1
  above : ∀ fact ∈ facts, fact.1 < ip

theorem Fresh.append (h : Fresh facts ip) (bitmap : DomainRouting) : (facts ++ [(ip, bitmap)]).Pairwise fun a b => a.1 < b.1 :=
  pairwise_append.mpr ⟨h.sorted, pairwise_singleton _ _, fun fact hf _ hip => mem_singleton.mp hip ▸ h.above fact hf⟩

section

variable (h : Selects facts table) (hfresh : Fresh facts ip)
include h hfresh

theorem Selects.lt_of_mem (hm : other ∈ table.entries) : other < ip := by
  have hg := ExtTreeMap.getElem?_eq_some_getElem hm
  exact hfresh.above _ (mem_of_mem_canonical ((h.entries _ _).mp hg))

theorem Selects.notMem : ip ∉ table.entries := fun hm => lt_irrefl _ (h.lt_of_mem hfresh hm)

theorem Selects.notMem_zeroIps : ip ∉ table.zeroIps := by
  intro hm
  rw [h.sound.exact] at hm
  exact h.notMem hfresh (ExtTreeMap.mem_iff_isSome_getElem?.mpr (by simp [hm]))

theorem Selects.put_entries :
    (table.put ip bitmap).entries[other]? = some value ↔ (other, value) = (ip, bitmap) ∨ (other, value) ∈ canonical facts := by
  have hn := h.notMem hfresh
  rw [← h.entries, put]
  simp only [ExtTreeMap.getElem?_insert, compare_eq_iff_eq, Prod.mk.injEq]
  by_cases he : ip = other
  · subst he
    simp [ExtTreeMap.getElem?_eq_none hn, eq_comm]
  · simp [he, Ne.symm he]

theorem Selects.put_size (bitmap : DomainRouting) : (table.put ip bitmap).entries.size =
      min (nonzeros facts).length ipCapacity + min (zeroRoom facts) (zeros facts).length + 1 := by
  have hn := h.notMem hfresh
  simp only [put]
  rw [ExtTreeMap.size_insert, if_neg (by simpa using hn), h.size]

theorem Selects.put_zero_zeroSize : (table.put ip .zero).zeroIps.size = min (zeroRoom facts) (zeros facts).length + 1 := by
  have hn := h.notMem_zeroIps hfresh
  simp only [put, if_true]
  rw [ExtTreeSet.size_insert, if_neg (by simpa using hn), h.zeroSize]

theorem Selects.put_nonzero_zeroIps (hne : bitmap ≠ .zero) : (table.put ip bitmap).zeroIps = table.zeroIps := by
  have hn := h.notMem_zeroIps hfresh
  refine ExtTreeSet.ext_mem fun other => ?_
  simp only [put, if_neg hne, ExtTreeSet.mem_erase, compare_eq_iff_eq, ne_eq]
  exact and_iff_right_of_imp fun hm he => hn (he ▸ hm)

theorem Selects.evict_self (hv : (table.put ip bitmap).victim = some ip) (hc : canonical (facts ++ [(ip, bitmap)]) = canonical facts) :
    Selects (facts ++ [(ip, bitmap)]) (table.insertBounded ip bitmap).1 := by
  refine .of_entries (hfresh.append bitmap) (h.sound.insertBounded ip bitmap) fun other value => ?_
  have hn := h.notMem hfresh
  have hs : (table.insertBounded ip bitmap).2 = some ip := by rw [insertBounded, hv]
  rw [hc, ← h.entries, insertBounded_entries, hs]
  by_cases he : ip = other
  · subst he
    rw [if_pos rfl, ExtTreeMap.getElem?_eq_none hn]
  · rw [if_neg (by simpa using he), if_neg he]

end

theorem Bounded.victim_eq_max_zero (he : table.exceeds) (hm : ip ∈ table.zeroIps)
    (hma : ∀ other ∈ table.zeroIps, other ≤ ip) : table.victim = some ip := by
  have hz : table.zeroIps.max? = some ip := ExtTreeSet.max?_eq_some_iff_mem_and_forall.mpr ⟨hm, fun other ho => by
      rw [Ordering.isLE_iff_ne_gt]
      exact compare_le_iff_le.mpr (hma other ho)⟩
  rw [victim, if_pos he, hz]
  rfl

theorem Bounded.victim_eq_max (he : table.exceeds) (hem : table.zeroIps = ∅) (hm : ip ∈ table.entries)
    (hma : ∀ other ∈ table.entries, other ≤ ip) : table.victim = some ip := by
  have hk := ExtTreeMap.maxKey?_eq_some_iff_mem_and_forall.mpr ⟨hm, fun other ho => by
      rw [Ordering.isLE_iff_ne_gt]
      exact compare_le_iff_le.mpr (hma other ho)⟩
  have hz : table.zeroIps.max? = none := by simp [hem]
  rw [victim, if_pos he, hz, hk]
  rfl

theorem Selects.append_zero (h : Selects facts table) (hfresh : Fresh facts ip) :
    Selects (facts ++ [(ip, .zero)]) (table.insertBounded ip .zero).1 := by
  have hs := h.put_size hfresh .zero
  have hz := h.put_zero_zeroSize hfresh
  by_cases he : (table.put ip .zero).exceeds
  · have hfu : zeroRoom facts ≤ (zeros facts).length := by
      rw [exceeds, hs, hz] at he
      rw [zeroRoom] at he ⊢
      omega
    apply h.evict_self hfresh
    · apply victim_eq_max_zero he
      · simp [put]
      · intro other ho
        simp only [put, if_true, ExtTreeSet.mem_insert, compare_eq_iff_eq] at ho
        rcases ho with heq | hm
        · exact heq.ge
        · rw [h.sound.exact] at hm
          exact (h.lt_of_mem hfresh (ExtTreeMap.mem_iff_isSome_getElem?.mpr (by simp [hm]))).le
    · rw [canonical_append_zero, take_append_of_le_length hfu, canonical]
  have hf : (zeros facts).length < zeroRoom facts := by
    rw [exceeds, hs, hz] at he
    rw [zeroRoom] at he ⊢
    omega
  have hpu : table.insertBounded ip .zero = (table.put ip .zero, none) := by
    rw [insertBounded, victim, if_neg he]
  refine .of_entries (hfresh.append .zero) (h.sound.insertBounded ip .zero) fun other value => ?_
  rw [hpu, h.put_entries hfresh, canonical_append_zero, canonical, take_of_length_le hf.le,
    take_of_length_le (by simpa using hf : (zeros facts ++ [(ip, DomainRouting.zero)]).length ≤ _)]
  simp only [mem_append, mem_singleton]
  tauto

theorem sorted_zeros (hs : facts.Pairwise fun a b => a.1 < b.1) (n : ℕ) : ((zeros facts).take n).Pairwise fun a b => a.1 < b.1 :=
  (hs.filter _).sublist (take_sublist _ _)

section

variable (h : Selects facts table) (hfresh : Fresh facts ip)
include h hfresh

theorem Selects.displace (hne : bitmap ≠ .zero) (he : (table.put ip bitmap).exceeds) (hr : zeroRoom facts = k + 1)
    (hn : (nonzeros facts).length + (k + 1) = ipCapacity) (hz : k + 1 ≤ (zeros facts).length) :
    Selects (facts ++ [(ip, bitmap)]) (table.insertBounded ip bitmap).1 := by
  have hr' : min zeroIpCapacity (ipCapacity - ((nonzeros facts).length + 1)) = k := by
    rw [zeroRoom] at hr
    omega
  have hpu := h.put_nonzero_zeroIps hfresh hne
  obtain ⟨last, hla⟩ : ∃ last, (zeros facts).take (k + 1) = (zeros facts).take k ++ [last] := ⟨(zeros facts).get ⟨k, hz⟩, by
      rw [take_add_one, getElem?_eq_getElem hz]
      rfl⟩
  have hlastZero : last.2 = .zero := snd_of_mem_zeros facts (k + 1) (by simp [hla])
  have hb : ∀ fact ∈ (zeros facts).take k, fact.1 < last.1 := by
    have hs := sorted_zeros hfresh.sorted (k + 1)
    rw [hla, pairwise_append] at hs
    exact fun fact hfa => hs.2.2 fact hfa last (by simp)
  have hm : last.1 ∈ table.zeroIps := by
    rw [h.mem_zeroIps, hr, hla, ← hlastZero]
    simp
  have hv : (table.put ip bitmap).victim = some last.1 := by
    apply victim_eq_max_zero he (hpu ▸ hm)
    intro other ho
    rw [hpu, h.mem_zeroIps, hr, hla, mem_append, mem_singleton] at ho
    rcases ho with ho | ho
    · exact (hb _ ho).le
    · exact (congrArg Prod.fst ho).le
  have hin : table.insertBounded ip bitmap = ((table.put ip bitmap).evict last.1, some last.1) := by
    rw [insertBounded, hv]
  have hl := (h.sound.exact _).mp hm
  have hlastLt : last.1 < ip := h.lt_of_mem hfresh (ExtTreeMap.mem_iff_isSome_getElem?.mpr (by simp [hl]))
  have hf : canonical facts = nonzeros facts ++ ((zeros facts).take k ++ [last]) := by
    rw [canonical, hr, hla, take_of_length_le (by omega)]
  have hf' : canonical (facts ++ [(ip, bitmap)]) = nonzeros facts ++ [(ip, bitmap)] ++ (zeros facts).take k := by
    rw [canonical_append_nonzero hne, hr', take_of_length_le]
    simp only [length_append, length_singleton]
    omega
  have hk : ∀ other value, (other, value) ∈ canonical (facts ++ [(ip, bitmap)]) → other ≠ last.1 := by
    rintro other value hfa rfl
    rw [hf', mem_append, mem_append, mem_singleton] at hfa
    rcases hfa with (hfa | hfa) | hfa
    · have hva := (h.entries last.1 value).mpr (by rw [hf]; exact mem_append_left _ hfa)
      obtain rfl := Option.some.inj (hva.symm.trans hl)
      simpa using of_mem_filter hfa
    · exact hlastLt.ne (congrArg Prod.fst hfa)
    · exact lt_irrefl last.1 (hb (last.1, value) hfa)
  refine .of_entries (hfresh.append bitmap) (h.sound.insertBounded ip bitmap) fun other value => ?_
  rw [hin]
  simp only [evict, remove, ExtTreeMap.getElem?_erase, compare_eq_iff_eq]
  by_cases heq : last.1 = other
  · subst heq
    simpa using fun hfa => hk _ _ hfa rfl
  rw [if_neg heq, h.put_entries hfresh, hf, hf']
  simp only [mem_append, mem_singleton]
  have ho : (other, value) ≠ last := fun hfa => heq (congrArg Prod.fst hfa).symm
  tauto

theorem Selects.append_nonzero (hne : bitmap ≠ .zero) : Selects (facts ++ [(ip, bitmap)]) (table.insertBounded ip bitmap).1 := by
  have hs := h.put_size hfresh bitmap
  have hpu := h.put_nonzero_zeroIps hfresh hne
  by_cases he : (table.put ip bitmap).exceeds
  · have hov : ipCapacity ≤ min (nonzeros facts).length ipCapacity + min (zeroRoom facts) (zeros facts).length := by
      have hz := h.sound.zeroIps
      rw [exceeds, hs, hpu] at he
      omega
    by_cases hfu : ipCapacity ≤ (nonzeros facts).length
    · have hn : zeroRoom facts = 0 := by
        rw [zeroRoom]
        omega
      have hem : table.zeroIps = ∅ := by
        refine ExtTreeSet.ext_mem fun other => ?_
        rw [h.mem_zeroIps, hn]
        simp
      apply h.evict_self hfresh
      · apply victim_eq_max he (hpu.trans hem)
        · simp [put]
        · intro other ho
          simp only [put, ExtTreeMap.mem_insert, compare_eq_iff_eq] at ho
          rcases ho with heq | hm
          · exact heq.ge
          · exact (h.lt_of_mem hfresh hm).le
      rw [canonical_append_nonzero hne, take_append_of_le_length hfu, canonical, hn]
      congr 2
      omega
    have hk : zeroRoom facts = ipCapacity - (nonzeros facts).length ∧ zeroRoom facts ≤ (zeros facts).length := by
      rw [zeroRoom] at hov ⊢
      omega
    apply h.displace hfresh hne he (k := ipCapacity - (nonzeros facts).length - 1)
    · omega
    · omega
    · omega
  have hf : (nonzeros facts).length + 1 ≤ ipCapacity ∧
      min (zeroRoom facts) (zeros facts).length ≤ ipCapacity - ((nonzeros facts).length + 1) := by
    rw [exceeds, hs] at he
    rw [zeroRoom] at he ⊢
    omega
  have ht : (zeros facts).take (min zeroIpCapacity (ipCapacity - ((nonzeros facts).length + 1))) =
      (zeros facts).take (zeroRoom facts) := by
    rw [take_eq_take_iff]
    rw [zeroRoom] at hf ⊢
    omega
  have hin : table.insertBounded ip bitmap = (table.put ip bitmap, none) := by
    rw [insertBounded, victim, if_neg he]
  refine .of_entries (hfresh.append bitmap) (h.sound.insertBounded ip bitmap) fun other value => ?_
  rw [hin, h.put_entries hfresh, canonical_append_nonzero hne, ht, canonical,
    take_of_length_le (by omega : (nonzeros facts).length ≤ ipCapacity),
    take_of_length_le (by simpa using hf.1 : (nonzeros facts ++ [(ip, bitmap)]).length ≤ ipCapacity)]
  simp only [mem_append, mem_singleton]
  tauto

theorem Selects.append (bitmap : DomainRouting) : Selects (facts ++ [(ip, bitmap)]) (table.insertBounded ip bitmap).1 := by
  by_cases hz : bitmap = .zero
  · subst hz
    exact h.append_zero hfresh
  · exact h.append_nonzero hfresh hz

end

theorem selects_fill (hs : facts.Pairwise fun a b => a.1 < b.1) : Selects facts (fill facts) := by
  -- the facts grow at the high end, so a step sees the highest address so far
  induction facts using List.reverseRecOn with
  | nil => exact .of_entries .nil .empty (by simp [fill, canonical, nonzeros, zeros])
  | append_singleton facts fact ih =>
    rw [pairwise_append] at hs
    have hfresh : Fresh facts fact.1 := ⟨hs.1, fun other ho => hs.2.2 other ho fact (by simp)⟩
    rw [fill, foldl_append]
    exact (ih hs.1).append hfresh fact.2

theorem Selects.entries_eq (h : Selects facts table) (h' : Selects facts table') : table.entries = table'.entries :=
  ExtTreeMap.ext_getElem? fun _ => Option.ext fun _ => (h.entries _ _).trans (h'.entries _ _).symm

end

section

variable {N : Type} [LinearOrder N]

def factsOf (reverse : ExtTreeMap IpAddr (IpOwners N)) (aggregate : IpOwners N → Option DomainRouting) : Facts :=
  reverse.toList.filterMap fun entry => (aggregate entry.2).map (entry.1, ·)

variable {reverse reverse' : ExtTreeMap IpAddr (IpOwners N)} {aggregate aggregate' : IpOwners N → Option DomainRouting}

omit [LinearOrder N] in
theorem mem_factsOf : (ip, bitmap) ∈ factsOf reverse aggregate ↔ reverse[ip]?.bind aggregate = some bitmap := by
  simp only [factsOf, mem_filterMap, Prod.exists, map_eq_some_iff, Prod.mk.injEq, bind_eq_some_iff]
  constructor
  · rintro ⟨other, entry, hm, value, hv, rfl, rfl⟩
    exact ⟨entry, ExtTreeMap.mem_toList_iff_getElem?_eq_some.mp hm, hv⟩
  · rintro ⟨entry, he, hv⟩
    exact ⟨ip, entry, ExtTreeMap.mem_toList_iff_getElem?_eq_some.mpr he, bitmap, hv, rfl, rfl⟩

omit [LinearOrder N] in
theorem sorted_factsOf (reverse : ExtTreeMap IpAddr (IpOwners N)) (aggregate : IpOwners N → Option DomainRouting) :
    (factsOf reverse aggregate).Pairwise fun a b => a.1 < b.1 := by
  refine List.Pairwise.filterMap _ ?_ reverse.ordered_keys_toList
  rintro a b hl x hx y hy
  obtain ⟨_, -, rfl⟩ := map_eq_some_iff.mp hx
  obtain ⟨_, -, rfl⟩ := map_eq_some_iff.mp hy
  exact compare_lt_iff_lt.mp hl

theorem facts_ext {facts facts' : Facts} (hs : facts.Pairwise fun a b => a.1 < b.1)
    (hs' : facts'.Pairwise fun a b => a.1 < b.1) (h : ∀ fact, fact ∈ facts ↔ fact ∈ facts') : facts = facts' := by
  have hpe : facts.Perm facts' := (perm_ext_iff_of_nodup (hs.imp fun hl he => hl.ne (congrArg Prod.fst he))
    (hs'.imp fun hl he => hl.ne (congrArg Prod.fst he))).mpr h
  exact hpe.eq_of_pairwise (fun a b _ _ ha hb => absurd hb ha.asymm) hs hs'

namespace DesiredState

omit [LinearOrder N] in
theorem projectBy_eq_fill : projectBy reverse aggregate = fill (factsOf reverse aggregate) := by
  rw [projectBy, fill, factsOf, foldl_filterMap]
  congr 1
  funext table entry
  cases aggregate entry.2 <;> rfl

omit [LinearOrder N] in
theorem selects_projectBy (reverse : ExtTreeMap IpAddr (IpOwners N)) (aggregate : IpOwners N → Option DomainRouting) :
    Selects (factsOf reverse aggregate) (projectBy reverse aggregate) := by
  rw [projectBy_eq_fill]
  exact selects_fill (sorted_factsOf reverse aggregate)

end DesiredState

end

end Honk.Projection
