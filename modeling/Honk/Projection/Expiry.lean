import Honk.Projection.Projected

namespace Honk.Projection

open Honk.Lib Honk.Routing List Option
open Std (ExtTreeMap ExtTreeSet)

variable {N : Type} [LinearOrder N]

section

/-- What decides over an owner's stay: when it expires, and the number of its last refresh. -/
structure Lease where
  expiresAt : ℕ
  refreshed : ℕ

abbrev Leases (N : Type) := IpVersion → N → Option Lease

namespace Leases

variable (leases : Leases N)

def expire (now : ℕ) : Leases N := fun family domain => (leases family domain).filter fun lease => now < lease.expiresAt

def set (family : IpVersion) (domain : N) (lease : Option Lease) : Leases N := fun other name =>
  if other = family ∧ name = domain then lease else leases other name

/-- The owner was refreshed before every other one. -/
def Oldest (family : IpVersion) (domain : N) : Prop := ∃ lease, leases family domain = some lease ∧
  ∀ {other name lease'}, ¬(other = family ∧ name = domain) → leases other name = some lease' → lease.refreshed < lease'.refreshed

/-- The refreshes are numbered, and the last has the number `last`. -/
structure Recent (last : ℕ) : Prop where
  le : ∀ {family domain lease}, leases family domain = some lease → lease.refreshed ≤ last
  inj : ∀ {family domain lease other name lease'}, leases family domain = some lease → leases other name = some lease' →
    lease.refreshed = lease'.refreshed → other = family ∧ name = domain

variable {leases} {leases' : Leases N} {family : IpVersion} {domain : N}

omit [LinearOrder N] in
theorem Recent.mono (h : leases.Recent last) (hs : ∀ {family domain lease}, leases' family domain = some lease →
    leases family domain = some lease) : leases'.Recent last :=
  ⟨fun hl => h.le (hs hl), fun hl hl' => h.inj (hs hl) (hs hl')⟩

theorem Recent.put (h : leases.Recent last) (family : IpVersion) (domain : N) (expiresAt : ℕ) :
    (leases.set family domain (some ⟨expiresAt, last + 1⟩)).Recent (last + 1) := by
  have hg : ∀ {other name lease}, leases.set family domain (some ⟨expiresAt, last + 1⟩) other name = some lease →
      (other = family ∧ name = domain) ∧ lease.refreshed = last + 1 ∨ leases other name = some lease ∧ lease.refreshed ≤ last := by
    intro other name lease hl
    rw [set] at hl
    split at hl
    · cases hl
      exact .inl ⟨‹_›, rfl⟩
    · exact .inr ⟨hl, h.le hl⟩
  refine ⟨fun hl => ?_, fun hl hl' heq => ?_⟩
  · rcases hg hl with ⟨-, h⟩ | ⟨-, h⟩ <;> omega
  rcases hg hl with ⟨⟨rfl, rfl⟩, hr⟩ | ⟨hold, hr⟩ <;> rcases hg hl' with ⟨⟨rfl, rfl⟩, hr'⟩ | ⟨hold', hr'⟩
  · exact ⟨rfl, rfl⟩
  · omega
  · omega
  · exact h.inj hold hold' heq

theorem set_self (h : leases family domain = lease) : leases.set family domain lease = leases := by
  funext other name
  rw [set]
  split
  · rename_i he
    rw [he.1, he.2, h]
  · rfl

omit [LinearOrder N] in
theorem expire_of_forall (h : ∀ family domain lease, leases family domain = some lease → now < lease.expiresAt) :
    leases.expire now = leases := by
  funext family domain
  cases hl : leases family domain with
  | none => rw [expire, hl, filter_none]
  | some lease => rw [expire, hl, filter_some_pos (by simpa using h family domain lease hl)]

theorem expire_set (h : leases family domain = some lease) (hl : lease.expiresAt ≤ now) :
    (leases.set family domain none).expire now = leases.expire now := by
  funext other name
  rw [expire, expire, set]
  split
  · rename_i he
    rw [he.1, he.2, h, filter_some_neg (by simpa using hl), filter_none]
  · rfl

theorem of_set_none {other : IpVersion} {name : N} (h : leases.set family domain none other name = some lease) :
    leases other name = some lease := by
  rw [set] at h
  split at h
  · cases h
  · exact h

end Leases

instance : Std.Total (DeadlineEntry.before (N := N)) := ⟨fun a b => le_total a.key b.key⟩

instance : IsTrans _ (DeadlineEntry.before (N := N)) := ⟨fun _ _ _ => le_trans⟩

instance : Std.Total (EvictionEntry.before (N := N)) := ⟨fun a b => le_total a.key b.key⟩

instance : IsTrans _ (EvictionEntry.before (N := N)) := ⟨fun _ _ _ => le_trans⟩

end

namespace DesiredState

def leases (s : DesiredState N) : Leases N := fun family domain =>
  ((s.owners family)[domain]?).map fun owner => ⟨owner.expiresAt, owner.sequence⟩

/-- The owner has its entry in each heap, and neither stands later than the owner does. -/
structure Placed (s : DesiredState N) (family : IpVersion) (domain : N) (owner : DomainOwner) : Prop where
  rank : ⟨owner.evictionSequence, family, domain⟩ ∈ s.evictionOrder
  rank_le : owner.evictionSequence ≤ owner.sequence
  time : ∃ expiresAt ≤ owner.expiresAt, ⟨expiresAt, family, domain, owner.expirySequence⟩ ∈ s.expiryDeadlines

structure QueuedBut (but : Option (IpVersion × N)) (s : DesiredState N) : Prop where
  order : s.evictionOrder.Pairwise EvictionEntry.before
  deadlines : s.expiryDeadlines.Pairwise DeadlineEntry.before
  placed : ∀ {family domain owner}, (s.owners family)[domain]? = some owner → but ≠ some (family, domain) → s.Placed family domain owner

abbrev Queued : DesiredState N → Prop := QueuedBut none

structure Changes (s t : DesiredState N) (leases : Leases N) (count : ℕ) (but : Option (IpVersion × N) := none) : Prop where
  leases : t.leases = leases
  count : t.ownerCount = count
  sequence : t.sequence = s.sequence
  capacity : t.capacity = s.capacity
  queued : QueuedBut but t

abbrev Calm (s t : DesiredState N) : Prop := Changes s t s.leases s.ownerCount

variable {s t u : DesiredState N} {family : IpVersion} {domain : N} {owner next : DomainOwner} {l : Leases N} {n : ℕ}

theorem Changes.trans (h : Changes s t l n) (h' : Calm t u) : Changes s u l n :=
  ⟨h'.leases.trans h.leases, h'.count.trans h.count, h'.sequence.trans h.sequence, h'.capacity.trans h.capacity, h'.queued⟩

theorem Changes.after {b b' : Option (IpVersion × N)} (h' : Changes t u l n b') (h : Changes s t l' n' b) : Changes s u l n b' :=
  { h' with
    sequence := h'.sequence.trans h.sequence
    capacity := h'.capacity.trans h.capacity }

theorem QueuedBut.prune (h : Queued s) : Calm s s.pruneStaleExpiryHeads := by
  refine ⟨rfl, rfl, rfl, rfl, h.order, h.deadlines.sublist (dropWhile_sublist _), ?_⟩
  rintro family domain owner (ho : (s.owners family)[domain]? = some owner) -
  obtain ⟨hr, hle, expiresAt, hx, hd⟩ := h.placed ho nofun
  refine ⟨hr, hle, expiresAt, hx, ?_⟩
  -- a deadline that an owner waits on is not among the stale heads
  have hl : s.staleDeadline ⟨expiresAt, family, domain, owner.expirySequence⟩ = false := by simp [staleDeadline, ho]
  rw [← takeWhile_append_dropWhile (p := s.staleDeadline) (l := s.expiryDeadlines), mem_append] at hd
  exact hd.resolve_left fun hm => by simp [mem_takeWhile_imp hm] at hl

theorem mem_allOwners : (family, domain, owner) ∈ s.allOwners ↔ (s.owners family)[domain]? = some owner := by
  cases family <;> simp [allOwners, ExtTreeMap.mem_toList_iff_getElem?_eq_some]

theorem calm_rebuildHeaps : Calm s s.rebuildHeaps := by
  refine ⟨?_, ?_, rfl, rfl, pairwise_insertionSort _ _, pairwise_insertionSort _ _, fun ho _ => ?_⟩
  · funext family domain
    simp [leases, rebuildHeaps, Function.comp_def]
  · simp [rebuildHeaps, ownerCount, ExtTreeMap.size_map]
  simp only [rebuildHeaps, ExtTreeMap.getElem?_map, map_eq_some_iff] at ho
  obtain ⟨old, hold, rfl⟩ := ho
  have hm := mem_allOwners.mpr hold
  exact ⟨(mem_insertionSort _).mpr (mem_map.mpr ⟨_, hm, rfl⟩), le_rfl, old.expiresAt, le_rfl,
    (mem_insertionSort _).mpr (mem_map.mpr ⟨_, hm, rfl⟩)⟩

theorem QueuedBut.compact (h : Queued s) : Calm s s.compactOwnerHeapsIfNeeded := by
  unfold compactOwnerHeapsIfNeeded
  dsimp only
  split
  · exact h.prune
  · exact h.prune.trans calm_rebuildHeaps

theorem QueuedBut.recomputeIps (h : Queued s) (ips : List IpAddr) : Calm s (s.recomputeIps ips) := by
  obtain ⟨desired, dirty, he⟩ := exists_recomputeIps s ips
  rw [he]
  exact ⟨rfl, rfl, rfl, rfl, h.order, h.deadlines, fun ho _ => { h.placed ho nofun with }⟩

theorem Placed.pushDeadline (h : s.Placed family domain owner) (entry : DeadlineEntry N) :
    (s.pushDeadline entry).Placed family domain owner := by
  obtain ⟨expiresAt, hl, hm⟩ := h.time
  exact ⟨h.rank, h.rank_le, expiresAt, hl, (mem_orderedInsert _).mpr (.inr hm)⟩

theorem Placed.pushEviction (h : s.Placed family domain owner) (entry : EvictionEntry N) :
    (s.pushEviction entry).Placed family domain owner :=
  ⟨(mem_orderedInsert _).mpr (.inr h.rank), h.rank_le, h.time⟩

theorem leases_eq (ho : (s.owners family)[domain]? = some owner) : s.leases family domain = some ⟨owner.expiresAt, owner.sequence⟩ := by
  rw [leases, ho, map_some]

theorem exists_owner_of_leases (h : s.leases family domain = some lease) :
    ∃ owner, (s.owners family)[domain]? = some owner ∧ owner.expiresAt = lease.expiresAt ∧ owner.sequence = lease.refreshed := by
  obtain ⟨owner, ho, rfl⟩ := map_eq_some_iff.mp h
  exact ⟨owner, ho, rfl, rfl⟩

theorem Sets.leases (h : Sets s t family domain next) : t.leases = s.leases.set family domain (some ⟨next.expiresAt, next.sequence⟩) := by
  funext other name
  rw [DesiredState.leases, h other name, Leases.set]
  split <;> rfl

theorem Sets.queued (h : Sets s t family domain next) (hor : t.evictionOrder.Pairwise EvictionEntry.before)
    (hd : t.expiryDeadlines.Pairwise DeadlineEntry.before) (hs : t.Placed family domain next)
    (hot : ∀ {other name owner}, (s.owners other)[name]? = some owner → ¬(other = family ∧ name = domain) → t.Placed other name owner) :
    Queued t := by
  refine ⟨hor, hd, @fun other name owner ho _ => ?_⟩
  have hg := (h other name).symm.trans ho
  split at hg
  · rename_i he
    obtain ⟨rfl, rfl⟩ := he
    exact some.inj hg ▸ hs
  · rename_i hn
    exact hot hg hn

theorem QueuedBut.removeOwner (h : QueuedBut (some (family, domain)) s) (ho : (s.owners family)[domain]? = some owner)
    (hr : s.removeOwner family domain = some t) : Changes s t (s.leases.set family domain none) (s.ownerCount - 1) := by
  unfold DesiredState.removeOwner at hr
  rw [ho] at hr
  obtain ⟨reverse, -, rfl⟩ := map_eq_some_iff.mp hr
  have hq : Queued ((s.setOwners family ((s.owners family).erase domain)).setReverse reverse) := by
    refine ⟨h.order, h.deadlines, @fun other name owner hx _ => ?_⟩
    have hg := (getElem_setOwners_erase s family domain other name).symm.trans hx
    split at hg
    · cases hg
    · rename_i hn
      exact { h.placed hg (by simpa [eq_comm] using hn) with }
  have hc := (hq.recomputeIps owner.ips.toList).trans (hq.recomputeIps owner.ips.toList).queued.compact
  refine ⟨hc.leases.trans ?_, ?_, hc.sequence, hc.capacity, hc.queued⟩
  · funext other name
    have hg := getElem_setOwners_erase s family domain other name
    rw [DesiredState.leases, Leases.set]
    change (((s.setOwners family ((s.owners family).erase domain)).owners other)[name]?).map _ = _
    rw [hg]
    split <;> rfl
  · rw [hc.count, ← ownerCount_erase ho]
    rfl

theorem ownerCount_insert (s : DesiredState N) (family : IpVersion) (domain : N) (next : DomainOwner) :
    (s.setOwners family ((s.owners family).insert domain next)).ownerCount =
      s.ownerCount + if (s.owners family)[domain]? = none then 1 else 0 := by
  have hs : ((s.owners family).insert domain next).size =
      (s.owners family).size + if (s.owners family)[domain]? = none then 1 else 0 := by
    rw [ExtTreeMap.size_insert, ExtTreeMap.contains_eq_isSome_getElem?]
    cases (s.owners family)[domain]? <;> rfl
  cases family with
  | v4 | v6 =>
    simp only [ownerCount, owners_setOwners, if_true, hs, reduceCtorEq, if_false]
    omega

theorem head_le {α β : Type} [Preorder β] {k : α → ℕ ×ₗ β} {a x : α} {l : List α} (h : (a :: l).Pairwise fun a b => k a ≤ k b)
    (hx : x ∈ a :: l) : (ofLex (k a)).1 ≤ (ofLex (k x)).1 := by
  apply Prod.Lex.monotone_fst
  rcases mem_cons.mp hx with rfl | hx
  · exact le_rfl
  · exact rel_of_pairwise_cons h hx

/-- The owner that the heap gives up was refreshed no later than any other, and only its place is gone. -/
structure Pops (s t : DesiredState N) (evicted : Option (IpVersion × N)) : Prop where
  changes : Changes s t s.leases s.ownerCount evicted
  none : evicted = none → ∀ family domain, s.leases family domain = none
  some : ∀ family domain, evicted = some (family, domain) → ∃ owner, (t.owners family)[domain]? = some owner ∧
    ∀ {other name lease}, s.leases other name = some lease → owner.sequence ≤ lease.refreshed

variable {fuel : ℕ}

theorem QueuedBut.pops (h : Queued s) (hp : popEviction fuel s = some (t, evicted)) : Pops s t evicted := by
  induction fuel generalizing s with
  | zero => cases hp
  | succ fuel ih =>
    have hg : ∀ u, Calm s u → popEviction fuel u = some (t, evicted) → Pops s t evicted := by
      intro u hu hp
      have hr := ih hu.queued hp
      have hch := hr.changes.after hu
      rw [hu.leases, hu.count] at hch
      exact ⟨hch, hu.leases ▸ hr.none, hu.leases ▸ hr.some⟩
    unfold DesiredState.popEviction at hp
    split at hp
    · rename_i hn
      cases hp
      refine ⟨⟨rfl, rfl, rfl, rfl, h⟩, fun _ family domain => ?_, (by simp)⟩
      by_contra hne
      obtain ⟨lease, hl⟩ := ne_none_iff_exists'.mp hne
      obtain ⟨owner, ho, -⟩ := exists_owner_of_leases hl
      simpa [hn] using (h.placed ho (by simp)).rank
    rename_i candidate rest hc
    dsimp only at hp
    have hs := h.order
    rw [hc] at hs
    -- what is popped is the place of one owner at most
    have hot : ∀ {other name owner}, (s.owners other)[name]? = some owner → candidate ≠ ⟨owner.evictionSequence, other, name⟩ →
        ({ s with evictionOrder := rest } : DesiredState N).Placed other name owner := by
      intro other name owner ho hne
      have hpl := h.placed ho (by simp)
      exact ⟨(mem_cons.mp (hc ▸ hpl.rank)).resolve_left hne.symm, hpl.rank_le, hpl.time⟩
    have hsk (hst : ∀ owner, (s.owners candidate.family)[candidate.domain]? = some owner → owner.evictionSequence ≠ candidate.sequence) :
        Calm s { s with evictionOrder := rest } := by
      refine ⟨rfl, rfl, rfl, rfl, hs.of_cons, h.deadlines, fun ho _ => hot ho ?_⟩
      rintro rfl
      exact hst _ ho rfl
    split at hp
    · rename_i hno
      exact hg _ (hsk fun owner ho => by cases hno.symm.trans ho) hp
    rename_i owner ho
    split at hp
    · rename_i hne
      exact hg _ (hsk fun owner' ho' => some.inj (ho'.symm.trans ho) ▸ hne) hp
    split at hp
    · rename_i how
      cases hp
      refine ⟨⟨rfl, rfl, rfl, rfl, hs.of_cons, h.deadlines, fun ho' hne => hot ho' ?_⟩, (by simp), ?_⟩
      · rintro rfl
        exact hne rfl
      rintro _ _ ⟨⟩
      refine ⟨owner, ho, fun hl => ?_⟩
      obtain ⟨owner', ho', -, hle⟩ := exists_owner_of_leases hl
      have hpl := h.placed ho' (by simp)
      rw [how, ← hle]
      have hh := head_le (k := EvictionEntry.key) hs (hc ▸ hpl.rank)
      exact le_trans hh hpl.rank_le
    have hse := getElem_setOwners_insert { s with evictionOrder := rest } candidate.family candidate.domain
      { owner with evictionSequence := owner.sequence }
    refine hg _ ?_ hp
    refine ⟨(Sets.leases (s := s) hse).trans (Leases.set_self (by rw [leases_eq ho])), ?_, rfl, rfl, ?_⟩
    · exact (ownerCount_insert { s with evictionOrder := rest } ..).trans (by simp [ho, ownerCount])
    refine Sets.queued (s := s) hse (hs.of_cons.orderedInsert ..) h.deadlines
      ⟨(mem_orderedInsert _).mpr (.inl rfl), le_rfl, (h.placed ho (by simp)).time⟩ fun ho' hne => ?_
    have hpl := hot ho' (by rintro rfl; exact hne ⟨rfl, rfl⟩)
    exact { hpl.pushEviction { candidate with sequence := owner.sequence } with }

def Expires (now : ℕ) (s t : DesiredState N) : Prop := ∃ n ≤ s.ownerCount, Changes s t (s.leases.expire now) n

theorem Changes.expires (h : Calm s u) (hx : Expires now u t) : Expires now s t := by
  obtain ⟨n, hl, hc⟩ := hx
  rw [h.leases] at hc
  exact ⟨n, hl.trans_eq h.count, hc.after h⟩

variable {now : ℕ}

section

variable (h : Queued s)
include h

theorem QueuedBut.expireLoop (hx : expireLoop now fuel s = some t) : Expires now s t := by
  induction fuel generalizing s with
  | zero => cases hx
  | succ fuel ih =>
    have hg : ∀ u, Calm s u → DesiredState.expireLoop now fuel u.pruneStaleExpiryHeads = some t → Expires now s t := fun u hu hx =>
      (hu.trans hu.queued.prune).expires (ih hu.queued.prune.queued hx)
    have hdo (ha : ∀ deadline ∈ s.expiryDeadlines, now < deadline.expiresAt) : Expires now s s := by
      refine ⟨_, le_rfl, (Leases.expire_of_forall fun family domain lease hl => ?_).symm, rfl, rfl, rfl, h⟩
      obtain ⟨owner, ho, he, -⟩ := exists_owner_of_leases hl
      obtain ⟨expiresAt, hle, hm⟩ := (h.placed ho (by simp)).time
      exact he ▸ (ha _ hm).trans_le hle
    unfold DesiredState.expireLoop at hx
    split at hx
    · rename_i hni
      cases hx
      exact hdo (by simp [hni])
    rename_i deadline rest hc
    have hs := h.deadlines
    rw [hc] at hs
    have hot : ∀ {other name owner}, (s.owners other)[name]? = some owner →
        ¬(deadline.family = other ∧ deadline.domain = name ∧ deadline.sequence = owner.expirySequence) →
        ({ s with expiryDeadlines := rest } : DesiredState N).Placed other name owner := by
      intro other name owner ho hne
      obtain ⟨hr, hle, expiresAt, hx, hm⟩ := h.placed ho (by simp)
      exact ⟨hr, hle, expiresAt, hx, (mem_cons.mp (hc ▸ hm)).resolve_left fun heq => hne (by rw [← heq]; exact ⟨rfl, rfl, rfl⟩)⟩
    have hsk (hst : ∀ owner, (s.owners deadline.family)[deadline.domain]? = some owner → owner.expirySequence ≠ deadline.sequence) :
        Calm s { s with expiryDeadlines := rest } := by
      refine ⟨rfl, rfl, rfl, rfl, h.order, hs.of_cons, fun ho _ => hot ho ?_⟩
      rintro ⟨rfl, rfl, hseq⟩
      exact hst _ ho hseq.symm
    split at hx
    · rename_i hno
      cases hx
      exact hdo fun entry hm => hno.trans_le (head_le (k := DeadlineEntry.key) hs (hc ▸ hm))
    dsimp only at hx
    split at hx
    · rename_i hnone
      exact hg _ (hsk fun owner ho => by cases hnone.symm.trans ho) hx
    rename_i owner ho
    split at hx
    · rename_i hne
      exact hg _ (hsk fun owner' ho' => some.inj (ho'.symm.trans ho) ▸ hne) hx
    rename_i how
    rw [not_not] at how
    split at hx
    · rename_i hexpired
      split at hx
      · cases hx
      rename_i u hu
      have hb : QueuedBut (some (deadline.family, deadline.domain)) { s with expiryDeadlines := rest } := by
        refine ⟨h.order, hs.of_cons, fun ho' hne => hot ho' ?_⟩
        rintro ⟨rfl, rfl, -⟩
        exact hne rfl
      have hd : Changes s u (s.leases.set _ _ none) (s.ownerCount - 1) := { hb.removeOwner ho hu with }
      obtain ⟨n, hn, hre⟩ := hd.queued.prune.expires (ih hd.queued.prune.queued hx)
      rw [hd.leases, Leases.expire_set (leases_eq ho) hexpired] at hre
      exact ⟨n, hn.trans (hd.count.trans_le (Nat.sub_le _ _)), { hre.after hd with }⟩
    refine hg _ ?_ hx
    refine ⟨rfl, rfl, rfl, rfl, h.order, hs.of_cons.orderedInsert .., @fun other name owner' ho' _ => ?_⟩
    by_cases hse : deadline.family = other ∧ deadline.domain = name
    · obtain ⟨rfl, rfl⟩ := hse
      obtain rfl := some.inj (ho'.symm.trans ho)
      have hpl := h.placed ho (by simp)
      exact ⟨hpl.rank, hpl.rank_le, owner'.expiresAt, le_rfl, (mem_orderedInsert _).mpr (.inl (by rw [how]))⟩
    · exact (hot ho' fun heq => hse ⟨heq.1, heq.2.1⟩).pushDeadline _

theorem QueuedBut.expire (hx : s.expire now = some t) : Expires now s t := by
  obtain ⟨u, hu, rfl⟩ := map_eq_some_iff.mp hx
  obtain ⟨n, hn, hl⟩ := h.prune.expires (h.prune.queued.expireLoop hu)
  exact ⟨n, hn, hl.trans hl.queued.compact⟩

theorem QueuedBut.reschedule (ho : (s.owners family)[domain]? = some owner) (ips : ExtTreeSet IpAddr) (expiresAt : ℕ)
    {sequence : ℕ} (hle : owner.sequence ≤ sequence) : Changes s (s.reschedule family domain { owner with ips := ips } expiresAt sequence)
      (s.leases.set family domain (some ⟨expiresAt, sequence⟩)) s.ownerCount := by
  have hpl := h.placed ho nofun
  have hc (next : DomainOwner) : (s.setOwners family ((s.owners family).insert domain next)).ownerCount = s.ownerCount :=
    (ownerCount_insert s family domain next).trans (by simp [ho])
  unfold DesiredState.reschedule
  split
  · have hs := getElem_setOwners_insert s family domain
      { owner with ips := ips, expirySequence := sequence, expiresAt := expiresAt, sequence := sequence }
    refine ⟨Sets.leases (s := s) hs, hc _, rfl, rfl, Sets.queued (s := s) hs h.order (h.deadlines.orderedInsert ..)
      ⟨hpl.rank, hpl.rank_le.trans hle, expiresAt, le_rfl, (mem_orderedInsert _).mpr (.inl rfl)⟩ fun ho' _ => ?_⟩
    exact { (h.placed ho' nofun).pushDeadline ⟨expiresAt, family, domain, sequence⟩ with }
  rename_i hl
  have hs := getElem_setOwners_insert s family domain { owner with ips := ips, expiresAt := expiresAt, sequence := sequence }
  obtain ⟨first, hf, hm⟩ := hpl.time
  exact ⟨Sets.leases (s := s) hs, hc _, rfl, rfl, Sets.queued (s := s) hs h.order h.deadlines
    ⟨hpl.rank, hpl.rank_le.trans hle, first, hf.trans (not_lt.mp hl), hm⟩
    fun ho' _ => { h.placed ho' nofun with }⟩

theorem QueuedBut.setReverse (reverse : ExtTreeMap IpAddr (IpOwners N)) : Calm s (s.setReverse reverse) :=
  ⟨rfl, rfl, rfl, rfl, h.order, h.deadlines, fun ho _ => { h.placed ho nofun with }⟩

theorem QueuedBut.replaceExisting (ho : (s.owners family)[domain]? = some owner) {ips : ExtTreeSet IpAddr} {expiresAt sequence : ℕ}
    (hl : owner.sequence ≤ sequence) (hu : s.replaceExisting family domain owner ips expiresAt sequence = some u) :
    Changes s u (s.leases.set family domain (some ⟨expiresAt, sequence⟩)) s.ownerCount := by
  obtain ⟨reverse, -, rfl⟩ := map_eq_some_iff.mp hu
  generalize foldl _ reverse _ = linked
  have hc := h.setReverse linked
  have hs := (hc.queued.reschedule ho ips expiresAt hl).after hc
  exact hs.trans (hs.queued.recomputeIps _)

theorem QueuedBut.insertOwner (hn : (s.owners family)[domain]? = none) (ips : ExtTreeSet IpAddr) (expiresAt sequence : ℕ) :
    Changes s (s.insertOwner family domain ips expiresAt sequence) (s.leases.set family domain (some ⟨expiresAt, sequence⟩))
      (s.ownerCount + 1) := by
  unfold DesiredState.insertOwner
  dsimp only
  generalize ips.toList.foldl (link (toLex (domain, family)) (s.bitmapFor family domain)) s.reverse = reverse
  have hs := getElem_setOwners_insert (s.setReverse reverse) family domain
    { ips := ips, bitmap := s.bitmapFor family domain, expiresAt := expiresAt, sequence := sequence, expirySequence := sequence,
      evictionSequence := sequence }
  suffices hu : Changes s _ _ _ from hu.trans (hu.queued.recomputeIps ips.toList)
  refine ⟨Sets.leases (s := s) hs, ?_, rfl, rfl, Sets.queued (s := s) hs (h.order.orderedInsert ..) (h.deadlines.orderedInsert ..)
    ⟨(mem_orderedInsert _).mpr (.inl rfl), le_rfl, expiresAt, le_rfl, (mem_orderedInsert _).mpr (.inl rfl)⟩ fun ho' _ => ?_⟩
  · exact (ownerCount_insert (s.setReverse reverse) ..).trans (congrArg _ (if_pos hn))
  · exact { ((h.placed ho' nofun).pushDeadline ⟨expiresAt, family, domain, sequence⟩).pushEviction ⟨sequence, family, domain⟩ with }

theorem QueuedBut.evictOldest (hr : s.leases.Recent last) (hs : ∃ family domain, s.leases family domain ≠ none)
    (ht : s.evictOldest = some t) : ∃ family domain, s.leases.Oldest family domain ∧
      Changes s t (s.leases.set family domain none) (s.ownerCount - 1) := by
  unfold DesiredState.evictOldest at ht
  split at ht
  · cases ht
  · rename_i hp
    obtain ⟨family, domain, hn⟩ := hs
    exact absurd ((h.pops hp).none rfl family domain) hn
  rename_i u family domain hp
  have hpo := h.pops hp
  obtain ⟨owner, ho, hle⟩ := hpo.some family domain rfl
  have hc := hpo.changes
  have hd := hc.queued.removeOwner ho ht
  have hlease : s.leases family domain = some ⟨owner.expiresAt, owner.sequence⟩ := hc.leases ▸ leases_eq ho
  rw [hc.leases, hc.count] at hd
  refine ⟨family, domain, ⟨_, hlease, fun hn hl => ?_⟩, hd.after hc⟩
  exact lt_of_le_of_ne (hle hl) fun he => hn (hr.inj hlease hl he)

end

/-- An owner more or a later lease, and the oldest owner less when there was no room. -/
def Replaces (s t : DesiredState N) (family : IpVersion) (domain : N) (expiresAt : ℕ) : Prop :=
  let refreshed := s.leases.set family domain (some ⟨expiresAt, s.sequence + 1⟩)
  if s.leases family domain = none ∧ s.ownerCount = s.capacity then
    ∃ other name, refreshed.Oldest other name ∧ t.leases = refreshed.set other name none
  else t.leases = refreshed

structure Timely (s : DesiredState N) : Prop where
  coherent : Coherent s
  queued : Queued s
  recent : s.leases.Recent s.sequence
  count : s.ownerCount ≤ s.capacity

theorem leases_eq_none : s.leases family domain = none ↔ (s.owners family)[domain]? = none := by
  rw [leases, map_eq_none_iff]

theorem Timely.replace (h : Timely s) (hw : s.sequence + 1 < 2 ^ 64) (family : IpVersion) (domain : N) (ips : List IpAddr) (expiresAt : ℕ) :
    ∃ t, s.replace family domain ips expiresAt = some t ∧ Replaces s t family domain expiresAt ∧ Timely t ∧
      t.sequence = s.sequence + 1 ∧ t.capacity = s.capacity := by
  obtain ⟨t, ht, hc, -⟩ := h.coherent.replace family domain ips expiresAt
  refine ⟨t, ht, ?_⟩
  have hpu := h.recent.put family domain expiresAt
  have hm := Nat.mod_eq_of_lt hw
  unfold DesiredState.replace at ht
  rw [hm] at ht
  have hq : Queued { s with sequence := s.sequence + 1 } :=
    ⟨h.queued.order, h.queued.deadlines, fun ho _ => { h.queued.placed ho nofun with }⟩
  have hk {n : ℕ} (hu : Changes { s with sequence := s.sequence + 1 } t
      (s.leases.set family domain (some ⟨expiresAt, s.sequence + 1⟩)) n) (hn : n ≤ s.capacity)
      (hr : s.leases family domain = none → s.ownerCount ≠ s.capacity) :
      Replaces s t family domain expiresAt ∧ Timely t ∧ t.sequence = s.sequence + 1 ∧ t.capacity = s.capacity := by
    refine ⟨?_, ⟨hc, hu.queued, ?_, ?_⟩, hu.sequence, hu.capacity⟩
    · rw [Replaces, if_neg fun hb => hr hb.1 hb.2]
      exact hu.leases
    · rw [hu.leases, hu.sequence]
      exact hpu
    · rw [hu.count, hu.capacity]
      exact hn
  dsimp only at ht
  split at ht
  · rename_i owner ho
    have hs : s.leases family domain ≠ none := by simp [leases_eq ho]
    have hle := (h.recent.le (leases_eq ho)).trans (Nat.le_succ _)
    split at ht
    · cases ht
      have hu := hq.reschedule ho owner.ips expiresAt hle
      exact hk (hu.trans hu.queued.compact) h.count fun hno => absurd hno hs
    split at ht
    · cases ht
    rename_i u hu
    have hse := hq.replaceExisting ho hle hu
    have ha := hse.trans hse.queued.compact
    rw [if_pos (by rw [ha.count, ha.capacity]; exact h.count)] at ht
    cases ht
    exact hk ha h.count fun hno => absurd hno hs
  rename_i hno
  have hin := hq.insertOwner hno (ExtTreeSet.ofList (ips.map toCanonical)) expiresAt (s.sequence + 1)
  have ha := hin.trans hin.queued.compact
  split at ht
  · rename_i hf
    cases ht
    rw [ha.count, ha.capacity] at hf
    exact hk ha hf fun _ he => absurd he (Nat.ne_of_lt hf)
  rename_i hfu
  rw [ha.count, ha.capacity] at hfu
  have he : s.ownerCount = s.capacity := le_antisymm h.count (Nat.le_of_lt_succ (not_le.mp hfu))
  have hl := ha.leases
  obtain ⟨other, name, hold, hd⟩ := ha.queued.evictOldest (hl ▸ hpu) ⟨family, domain, by simp [hl, Leases.set]⟩ ht
  rw [hl] at hold hd
  have hu := hd.after ha
  refine ⟨?_, ⟨hc, hu.queued, ?_, ?_⟩, hu.sequence, hu.capacity⟩
  · rw [Replaces, if_pos ⟨leases_eq_none.mpr hno, he⟩]
    exact ⟨other, name, hold, hu.leases⟩
  · rw [hu.leases, hu.sequence]
    exact hpu.mono Leases.of_set_none
  · rw [hu.count, ha.count, hu.capacity]
    exact h.count

theorem Timely.expire (h : Timely s) (now : ℕ) : ∃ t, s.expire now = some t ∧ t.leases = s.leases.expire now ∧ Timely t ∧
    t.sequence = s.sequence ∧ t.capacity = s.capacity := by
  obtain ⟨t, ht, hc, -⟩ := h.coherent.expire now
  obtain ⟨n, hn, hx⟩ := h.queued.expire ht
  refine ⟨t, ht, hx.leases, ⟨hc, hx.queued, ?_, ?_⟩, hx.sequence, hx.capacity⟩
  · rw [hx.leases, hx.sequence]
    exact h.recent.mono fun hl => (Option.filter_eq_some_iff.mp hl).1
  · rw [hx.count, hx.capacity]
    exact hn.trans h.count

inductive OwnerOp (N : Type) where
  | replace (family : IpVersion) (domain : N) (ips : List IpAddr) (expiresAt : ℕ)
  | expire (now : ℕ)
  | compact

def own (s : DesiredState N) : OwnerOp N → Option (DesiredState N)
  | .replace family domain ips expiresAt => s.replace family domain ips expiresAt
  | .expire now => s.expire now
  | .compact => some s.compactOwnerHeapsIfNeeded

variable (capacity : ℕ) (snapshot : Snapshot N) (ops : List (OwnerOp N))

def ownerRun : Option (DesiredState N) :=
  ops.foldlM own { capacity := capacity, snapshot := snapshot }

theorem Timely.own (h : Timely s) (hw : s.sequence + 1 < 2 ^ 64) (op : OwnerOp N) :
    ∃ t, s.own op = some t ∧ Timely t ∧ t.sequence ≤ s.sequence + 1 ∧ t.capacity = s.capacity := by
  cases op with
  | replace family domain ips expiresAt =>
    obtain ⟨t, ht, -, hti, hs, hc⟩ := h.replace hw family domain ips expiresAt
    exact ⟨t, ht, hti, hs.le, hc⟩
  | expire now =>
    obtain ⟨t, ht, -, hti, hs, hc⟩ := h.expire now
    exact ⟨t, ht, hti, hs.le.trans (Nat.le_succ _), hc⟩
  | compact =>
    have hca := h.queued.compact
    refine ⟨_, rfl, ⟨h.coherent.quiet (quiet_compact s), hca.queued, ?_, ?_⟩, hca.sequence.le.trans (Nat.le_succ _), hca.capacity⟩
    · rw [hca.leases, hca.sequence]
      exact h.recent
    · rw [hca.count, hca.capacity]
      exact h.count

theorem Timely.run (h : Timely s) (ops : List (OwnerOp N)) (hw : s.sequence + ops.length < 2 ^ 64) :
    ∃ t, ops.foldlM DesiredState.own s = some t ∧ Timely t ∧ t.sequence ≤ s.sequence + ops.length ∧ t.capacity = s.capacity := by
  induction ops generalizing s with
  | nil => exact ⟨s, rfl, h, le_rfl, rfl⟩
  | cons op ops ih =>
    rw [length_cons] at hw
    obtain ⟨t, ht, hti, hs, hc⟩ := h.own (by omega) op
    obtain ⟨u, hu, hf, hs', hc'⟩ := ih hti (by omega)
    refine ⟨u, ?_, hf, by rw [length_cons]; omega, hc'.trans hc⟩
    rw [foldlM_cons, ht]
    exact hu

theorem Timely.start : Timely { capacity := capacity, snapshot := snapshot } := by
  have hn (family : IpVersion) (domain : N) : leases { capacity := capacity, snapshot := snapshot } family domain = none := by
    simp [leases]
  refine ⟨.start capacity snapshot, ⟨.nil, .nil, fun ho => ?_⟩, ⟨fun hl => ?_, fun hl => ?_⟩, Nat.zero_le _⟩
  · cases (leases_eq ho).symm.trans (hn ..)
  · cases hl.symm.trans (hn ..)
  · cases hl.symm.trans (hn ..)

/-- Whatever the replacements, the expiries and the compactions so far, as long as the refreshes can be numbered: an expiry drops
exactly the owners that are due, there are never more owners than the capacity, a replacement without room drops exactly the owner
that was refreshed first, and a compaction drops none. -/
theorem owner_expiry (hw : ops.length + 1 < 2 ^ 64) :
    ∃ s, ownerRun capacity snapshot ops = some s ∧ s.ownerCount ≤ capacity ∧ s.leases.Recent s.sequence ∧
      (∀ now, ∃ t, s.expire now = some t ∧ t.leases = s.leases.expire now) ∧
      (∀ family domain ips expiresAt, ∃ t, s.replace family domain ips expiresAt = some t ∧ Replaces s t family domain expiresAt) ∧
      s.compactOwnerHeapsIfNeeded.leases = s.leases := by
  obtain ⟨s, hs, hti, hse, hc⟩ := (Timely.start capacity snapshot).run ops (by change 0 + _ < _; omega)
  change s.sequence ≤ 0 + _ at hse
  refine ⟨s, hs, hti.count.trans hc.le, hti.recent, fun now => ?_, fun family domain ips expiresAt => ?_, hti.queued.compact.leases⟩
  · obtain ⟨t, ht, hl, -⟩ := hti.expire now
    exact ⟨t, ht, hl⟩
  · obtain ⟨t, ht, hr, -⟩ := hti.replace (by omega) family domain ips expiresAt
    exact ⟨t, ht, hr⟩

theorem owner_expiry_full : ∃ s, ownerRun 1 ⟨0, fun _ => some .zero⟩ [.replace .v4 0 [loopback] 10] = some s ∧ s.ownerCount ≤ 1 ∧
    ∃ t, s.replace .v4 1 [loopback] 20 = some t ∧ Replaces s t .v4 1 20 := by
  obtain ⟨s, hs, hc, -, -, hr, -⟩ := owner_expiry 1 ⟨0, fun _ => some .zero⟩ [.replace .v4 (0 : ℕ) [loopback] 10] (by decide)
  exact ⟨s, hs, hc, hr .v4 1 [loopback] 20⟩

end DesiredState

end Honk.Projection
