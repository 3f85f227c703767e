import Honk.Projection.Canonical

namespace Honk.Projection

open Honk.Lib Honk.Routing List Option
open Std (ExtTreeMap ExtTreeSet)

variable {N : Type} [LinearOrder N]

section

variable {owners : IpVersion → ExtTreeMap N DomainOwner} {bitmapOf : N ×ₗ IpVersion → Option DomainRouting}

def Backs (owners : IpVersion → ExtTreeMap N DomainOwner) (bitmapOf : N ×ₗ IpVersion → Option DomainRouting)
    (member : N ×ₗ IpVersion) : Prop :=
  ∃ owner, (owners (ofLex member).2)[(ofLex member).1]? = some owner ∧ owner.bitmap = bitmapOf member

namespace DesiredState

theorem exists_countMembers (members : List (N ×ₗ IpVersion)) (hb : ∀ member ∈ members, Backs owners bitmapOf member)
    (h : tally.Counts bag) : ∃ tally', members.foldlM (countMember owners) tally = some tally' ∧
      tally'.Counts ((members.filterMap bitmapOf : Multiset DomainRouting) + bag) := by
  induction members generalizing tally bag with
  | nil => exact ⟨tally, rfl, by simpa using h⟩
  | cons member members ih =>
    obtain ⟨owner, ho, hbi⟩ := hb member (mem_cons_self ..)
    have hr := fun m hm => hb m (mem_cons_of_mem _ hm)
    rw [foldlM_cons, countMember, ho, map_some, hbi]
    cases hv : bitmapOf member with
    | none =>
      obtain ⟨tally', hf, hc⟩ := ih hr h
      exact ⟨tally', hf, by rwa [filterMap_cons_none hv]⟩
    | some value =>
      obtain ⟨tally', hf, hc⟩ := ih hr (h.add value)
      refine ⟨tally', hf, ?_⟩
      rw [filterMap_cons_some hv, ← Multiset.cons_coe, Multiset.cons_add, ← Multiset.add_cons]
      exact hc

theorem exists_recount {entry : IpOwners N} (hb : ∀ member ∈ entry.members, Backs owners bitmapOf member) :
    ∃ entry', recount owners entry = some entry' ∧ entry'.members = entry.members ∧ entry'.Counted bitmapOf := by
  obtain ⟨tally, hf, hc⟩ := exists_countMembers entry.members.sort
    (fun member hm => hb member ((Finset.mem_sort _).mp hm)) Tally.Counts.nil
  refine ⟨{ entry with contributions := tally }, by rw [recount, hf, map_some], rfl, ?_⟩
  rw [add_zero, ← Multiset.filterMap_coe, Finset.sort_eq] at hc
  exact hc

theorem exists_recountList {entries : List (IpAddr × IpOwners N)} (hn : (entries.map Prod.fst).Nodup)
    (hb : ∀ entry ∈ entries, ∀ member ∈ entry.2.members, Backs owners bitmapOf member) (counted : ExtTreeMap IpAddr (IpOwners N)) :
    ∃ counted', entries.foldlM (fun counted entry => (recount owners entry.2).map (counted.insert entry.1 ·)) counted = some counted' ∧
      (∀ ip ∉ entries.map Prod.fst, counted'[ip]? = counted[ip]?) ∧
      ∀ entry ∈ entries, ∃ entry' : IpOwners N, counted'[entry.1]? = some entry' ∧ entry'.members = entry.2.members ∧
        entry'.Counted bitmapOf := by
  induction entries generalizing counted with
  | nil => exact ⟨counted, rfl, fun _ _ => rfl, nofun⟩
  | cons entry entries ih =>
    rw [map_cons, nodup_cons] at hn
    obtain ⟨entry', hr, hm, hc⟩ := exists_recount (hb entry (mem_cons_self ..))
    obtain ⟨counted', hf, ho, hea⟩ := ih hn.2 (fun e he => hb e (mem_cons_of_mem _ he)) (counted.insert entry.1 entry')
    refine ⟨counted', ?_, ?_, ?_⟩
    · rw [foldlM_cons, hr]
      exact hf
    · intro ip hip
      rw [map_cons, mem_cons, not_or] at hip
      rw [ho ip hip.2, ExtTreeMap.getElem?_insert, if_neg]
      rw [compare_eq_iff_eq]
      exact Ne.symm hip.1
    intro e he
    rcases mem_cons.mp he with rfl | he
    · exact ⟨entry', by rw [ho _ hn.1, ExtTreeMap.getElem?_insert_self], hm, hc⟩
    · exact hea e he

end DesiredState

end

section

variable {snapshot : Snapshot N}

omit [LinearOrder N] in
theorem foldl_joinMember (members : List (N ×ₗ IpVersion)) (acc : Option DomainRouting) :
    members.foldl (DesiredState.joinMember snapshot) acc = if members.filterMap (bitmapOf snapshot) = [] then acc
      else some (acc.getD ⊥ ⊔ Multiset.sup (members.filterMap (bitmapOf snapshot) : Multiset DomainRouting)) := by
  induction members generalizing acc with
  | nil => rfl
  | cons member members ih =>
    rw [foldl_cons, ih, DesiredState.joinMember]
    cases hv : bitmapOf snapshot member with
    | none =>
      have hb : snapshot.bitmapFor (ofLex member).1 = none := hv
      rw [filterMap_cons_none hv, hb]
    | some value =>
      have hb : snapshot.bitmapFor (ofLex member).1 = some value := hv
      have hz : (DomainRouting.zero : DomainRouting) = ⊥ := rfl
      rw [filterMap_cons_some hv, hb, if_neg (cons_ne_nil _ _), ← Multiset.cons_coe, Multiset.sup_cons, hz]
      by_cases he : members.filterMap (bitmapOf snapshot) = []
      · rw [if_pos he, he, Multiset.coe_nil, Multiset.sup_zero, sup_bot_eq]
      · rw [if_neg he, getD_some, sup_assoc]

theorem joinMembers_eq_joined (owners : IpOwners N) :
    DesiredState.joinMembers snapshot owners = joined (bitmapOf snapshot) owners.members := by
  have hb : (owners.members.sort.filterMap (bitmapOf snapshot) : Multiset DomainRouting) =
      bitmaps (bitmapOf snapshot) owners.members := by
    rw [← Multiset.filterMap_coe, Finset.sort_eq]
    rfl
  rw [DesiredState.joinMembers, foldl_joinMember, hb, joined, getD_none, bot_sup_eq, ← hb]
  exact if_congr (Multiset.coe_eq_zero _).symm rfl rfl

end

namespace DesiredState

variable {s s' : DesiredState N}

theorem getElem_refreshedOwners (s : DesiredState N) (family : IpVersion) (domain : N) : (s.refreshedOwners family)[domain]? =
      ((s.owners family)[domain]?).map fun owner => { owner with bitmap := s.snapshot.bitmapFor domain } := by
  cases family with
  | v4 => simp [refreshedOwners, refreshedV4]
  | v6 =>
    simp only [refreshedOwners, refreshedV4, ExtTreeMap.getElem?_map]
    cases (s.owners .v4)[domain]? <;> rfl

variable {t : DesiredState N} {member : N ×ₗ IpVersion} {ip : IpAddr} {f : N ×ₗ IpVersion → Option DomainRouting}

theorem owns_iff_of_owners_eq (h : t.owners = s.refreshedOwners) (member : N ×ₗ IpVersion) (ip : IpAddr) :
    s.Owns member ip ↔ t.Owns member ip := by
  simp only [Owns, h, getElem_refreshedOwners, map_eq_some_iff]
  constructor
  · rintro ⟨owner, ho, hip⟩
    exact ⟨_, ⟨owner, ho, rfl⟩, hip⟩
  · rintro ⟨_, ⟨owner, ho, rfl⟩, hip⟩
    exact ⟨owner, ho, hip⟩

theorem backs_refreshedOwners (h : s.Owns member ip) : Backs s.refreshedOwners (bitmapOf s.snapshot) member := by
  obtain ⟨owner, ho, -⟩ := h
  exact ⟨_, by rw [getElem_refreshedOwners, ho, map_some], rfl⟩

theorem exists_refreshOwnerBitmaps (h : Indexes s.reverse bitmapOf' s.Owns) :
    ∃ reverse, s.refreshOwnerBitmaps = some { s with owners := s.refreshedOwners, reverse := reverse } ∧
      Indexes reverse (bitmapOf s.snapshot) s.Owns := by
  have hn : (s.reverse.toList.map Prod.fst).Nodup := by
    rw [List.Nodup, pairwise_map]
    exact s.reverse.ordered_keys_toList.imp fun hl => (compare_lt_iff_lt.mp hl).ne
  have hb : ∀ entry ∈ s.reverse.toList, ∀ member ∈ entry.2.members, Backs s.refreshedOwners (bitmapOf s.snapshot) member := by
    intro entry he member hme
    have hg := ExtTreeMap.mem_toList_iff_getElem?_eq_some.mp he
    exact backs_refreshedOwners (((h.present _ _ hg).2.2 member).mp hme)
  obtain ⟨reverse, hf, ho, hea⟩ := exists_recountList hn hb s.reverse
  have hno : ∀ ip : IpAddr, s.reverse[ip]? = none → reverse[ip]? = none := by
    intro ip hno
    rw [ho ip, hno]
    intro hmem
    obtain ⟨entry, he, rfl⟩ := mem_map.mp hmem
    exact nomatch hno.symm.trans (ExtTreeMap.mem_toList_iff_getElem?_eq_some.mp he)
  refine ⟨reverse, by rw [refreshOwnerBitmaps, recountAll, hf, map_some], ?_, ?_⟩
  · intro ip entry he
    cases hold : s.reverse[ip]? with
    | none => exact nomatch (hno ip hold).symm.trans he
    | some old =>
      obtain ⟨entry', he', hm, hc⟩ := hea (ip, old) (ExtTreeMap.mem_toList_iff_getElem?_eq_some.mpr hold)
      obtain rfl := Option.some.inj (he'.symm.trans he)
      obtain ⟨hne, -, hif⟩ := h.present ip old hold
      exact ⟨hm ▸ hne, hc, hm ▸ hif⟩
  intro ip he
  cases hold : s.reverse[ip]? with
  | none => exact h.absent ip hold
  | some old =>
    obtain ⟨entry', he', -⟩ := hea (ip, old) (ExtTreeMap.mem_toList_iff_getElem?_eq_some.mpr hold)
    exact nomatch he'.symm.trans he

theorem recorded_fill (facts : Facts) : Bounded.Recorded (fill facts) fun ip => ip ∈ facts.map Prod.fst := by
  induction facts using List.reverseRecOn with
  | nil => exact ⟨fun _ hm => absurd hm not_mem_nil, nofun⟩
  | append_singleton facts fact ih =>
    have hs := ih.insertBounded fact.1 fact.2
    rw [fill, foldl_append]
    refine ⟨fun ip hm => hs.omitted ip ?_, hs.full⟩
    simpa [or_comm] using hm

theorem admits_projectBy (h : s.desired = projectBy s.reverse IpOwners.aggregate) : Admits [] s := by
  have hs := selects_projectBy s.reverse IpOwners.aggregate
  have hr := recorded_fill (factsOf s.reverse IpOwners.aggregate)
  rw [← projectBy_eq_fill, ← h] at hr
  rw [← h] at hs
  refine ⟨hs.sound, ?_, ?_, hr.full⟩
  · intro ip _ bitmap he
    exact mem_factsOf.mp (mem_of_mem_canonical ((hs.entries ip bitmap).mp he))
  intro ip _ hso he
  obtain ⟨bitmap, hb⟩ := ne_none_iff_exists'.mp hso
  exact hr.omitted ip (mem_map.mpr ⟨(ip, bitmap), mem_factsOf.mpr hb, rfl⟩) he

def ownersAt (s : DesiredState N) (ip : IpAddr) : Finset (N ×ₗ IpVersion) := (s.reverse[ip]?).elim ∅ IpOwners.members

def factsUnder (s : DesiredState N) (snapshot : Snapshot N) : Facts :=
  factsOf s.reverse fun entry => joined (bitmapOf snapshot) entry.members

theorem mem_ownersAt (h : Indexes s.reverse f s.Owns) : member ∈ s.ownersAt ip ↔ s.Owns member ip := by
  unfold ownersAt
  cases he : s.reverse[ip]? with
  | none => simpa using h.absent ip he member
  | some entry => exact (h.present ip entry he).2.2 member

theorem joined_ownersAt : joined f (s.ownersAt ip) = s.reverse[ip]?.bind fun entry => joined f entry.members := by
  unfold ownersAt
  cases s.reverse[ip]? with
  | none => simp [joined, bitmaps]
  | some entry => rfl

theorem aggregate_eq_joined (h : Indexes s.reverse f s.Owns) (ip : IpAddr) : s.aggregate ip = joined f (s.ownersAt ip) := by
  rw [joined_ownersAt, aggregate]
  cases he : s.reverse[ip]? with
  | none => rfl
  | some entry => exact (h.present ip entry he).2.1.aggregate

theorem factsOf_aggregate (h : Indexes s.reverse (bitmapOf s.snapshot) s.Owns) :
    factsOf s.reverse IpOwners.aggregate = s.factsUnder s.snapshot := by
  refine facts_ext (sorted_factsOf ..) (sorted_factsOf ..) fun fact => ?_
  obtain ⟨ip, bitmap⟩ := fact
  rw [factsUnder, mem_factsOf, mem_factsOf, ← joined_ownersAt, ← aggregate_eq_joined h, aggregate]

theorem selects_project (s : DesiredState N) (snapshot : Snapshot N) :
    Selects (s.factsUnder snapshot) (projectBy s.reverse (joinMembers snapshot)) := by
  have he : joinMembers snapshot = fun entry => joined (bitmapOf snapshot) entry.members := funext joinMembers_eq_joined
  rw [he]
  exact selects_projectBy s.reverse _

theorem factsUnder_congr (hs : Indexes s.reverse f s.Owns)
    (ht : Indexes t.reverse g t.Owns) (ho : ∀ member ip, s.Owns member ip ↔ t.Owns member ip) (snapshot : Snapshot N) :
    s.factsUnder snapshot = t.factsUnder snapshot := by
  refine facts_ext (sorted_factsOf ..) (sorted_factsOf ..) fun fact => ?_
  obtain ⟨ip, bitmap⟩ := fact
  have hm : s.ownersAt ip = t.ownersAt ip := Finset.ext fun member => by rw [mem_ownersAt hs, mem_ownersAt ht, ho]
  rw [factsUnder, factsUnder, mem_factsOf, mem_factsOf, ← joined_ownersAt, ← joined_ownersAt, hm]

structure Rebuilds (s s' : DesiredState N) : Prop where
  applied : s'.applied = s.applied
  dirty : ∀ ip ∈ s.dirtyIps, ip ∈ s'.dirtyIps
  drift : ∀ ip, s'.desired.entries[ip]? ≠ s'.applied[ip]? → ip ∈ s'.dirtyIps

theorem mem_foldl_insert_if (ips : List IpAddr) (p : IpAddr → Prop) [DecidablePred p] (dirty : ExtTreeSet IpAddr) (ip : IpAddr) :
    ip ∈ ips.foldl (fun dirty ip => if p ip then dirty.insert ip else dirty) dirty ↔ ip ∈ dirty ∨ ip ∈ ips ∧ p ip := by
  induction ips generalizing dirty with
  | nil => simp
  | cons first ips ih =>
    rw [foldl_cons, ih]
    by_cases he : ip = first
    · subst he
      split <;> simp_all
    · split <;> simp [he, Ne.symm he]

theorem exists_rebuildAll (h : Indexes s.reverse f s.Owns) :
    ∃ s', s.rebuildAll = some s' ∧ Coherent s' ∧ Rebuilds s s' ∧ s'.snapshot = s.snapshot ∧ s'.desired.entries = s.project s.snapshot := by
  obtain ⟨reverse, hr, hin⟩ := exists_refreshOwnerBitmaps h
  rw [rebuildAll, hr, map_some]
  have how := owns_iff_of_owners_eq (s := s) (t := { s with owners := s.refreshedOwners, reverse := reverse }) rfl
  refine ⟨_, rfl, ⟨?_, hin.congr how, admits_projectBy rfl⟩, ⟨rfl, ?_, ?_⟩, rfl, ?_⟩
  · intro family domain owner ho
    obtain ⟨old, -, rfl⟩ := map_eq_some_iff.mp ((getElem_refreshedOwners s family domain).symm.trans ho)
    rfl
  · exact fun ip hip => (mem_foldl_insert_if ..).mpr (.inl hip)
  · intro ip hne
    refine (mem_foldl_insert_if ..).mpr (.inr ⟨?_, .inr (Ne.symm hne)⟩)
    by_contra hn
    simp only [mem_append, ExtTreeMap.mem_keys, not_or] at hn
    exact hne ((ExtTreeMap.getElem?_eq_none hn.1.2).trans (ExtTreeMap.getElem?_eq_none hn.2).symm)
  have hs := selects_projectBy reverse IpOwners.aggregate
  rw [factsOf_aggregate (s := { s with owners := s.refreshedOwners, reverse := reverse }) (hin.congr how),
    factsUnder_congr (hin.congr how) h fun member ip => (how member ip).symm] at hs
  exact hs.entries_eq (selects_project s s.snapshot)

theorem Coherent.updateSnapshot (hs : Coherent s) {snapshot : Snapshot N} (hn : s.snapshot.generation < snapshot.generation) :
    ∃ s', s.updateSnapshot snapshot = some (s', true) ∧ Coherent s' ∧ Rebuilds s s' ∧ s'.snapshot = snapshot ∧
      s'.desired.entries = s.project snapshot := by
  obtain ⟨s', hre, hc, hr, hsn, he⟩ := exists_rebuildAll (s := { s with snapshot := snapshot }) hs.index
  refine ⟨s', ?_, hc, ⟨hr.applied, hr.dirty, hr.drift⟩, hsn, he⟩
  rw [DesiredState.updateSnapshot, if_neg (by omega), hre, map_some]

section

inductive Act (N : Type) where
  | observe (observation : Observation N) (now : ℕ)
  | expire (now : ℕ)
  | updateSnapshot (snapshot : Snapshot N)
  | batch (now : ℕ)
  | commitSuccess (sets : List PendingSet) (removes : List IpAddr)
  | recordFailure (ip : IpAddr) (now : ℕ)
  | commitPublication (snapshot : Snapshot N) (published : Option (ExtTreeMap IpAddr DomainRouting))

def act (s : DesiredState N) : Act N → Option (DesiredState N)
  | .observe observation now => s.observe observation now
  | .expire now => s.expire now
  | .updateSnapshot snapshot => (s.updateSnapshot snapshot).map Prod.fst
  | .batch now => some (s.batch now).1
  | .commitSuccess sets removes => some (s.commitSuccess sets removes)
  | .recordFailure ip now => some (s.recordFailure ip now)
  | .commitPublication snapshot published => s.commitPublication snapshot published

def run (capacity : ℕ) (snapshot : Snapshot N) (acts : List (Act N)) : Option (DesiredState N) :=
  acts.foldlM act { capacity := capacity, snapshot := snapshot }

def Books (s s' : DesiredState N) : Prop :=
  ∃ applied dirty retries, s' = { s with applied := applied, dirtyIps := dirty, retries := retries }

variable {s'' : DesiredState N}

theorem Books.refl (s : DesiredState N) : Books s s := ⟨s.applied, s.dirtyIps, s.retries, rfl⟩

theorem Books.trans (h : Books s s') (h' : Books s' s'') : Books s s'' := by
  obtain ⟨_, _, _, rfl⟩ := h
  obtain ⟨applied, dirty, retries, rfl⟩ := h'
  exact ⟨applied, dirty, retries, rfl⟩

theorem books_foldl {α : Type} {f : DesiredState N → α → DesiredState N} (hf : ∀ s a, Books s (f s a)) (as : List α) (s : DesiredState N) :
    Books s (as.foldl f s) := by
  induction as generalizing s with
  | nil => exact .refl s
  | cons a as ih => exact (hf s a).trans (ih (f s a))

theorem books_commitSuccess (s : DesiredState N) (sets : List PendingSet) (removes : List IpAddr) :
    Books s (s.commitSuccess sets removes) :=
  (books_foldl (fun _ _ => ⟨_, _, _, rfl⟩) sets s).trans (books_foldl (fun _ _ => ⟨_, _, _, rfl⟩) removes _)

theorem books_add (draft : Draft N) (ip : IpAddr) : Books draft.state (draft.add ip).state := by
  unfold Draft.add
  split
  · split
    · exact ⟨_, _, _, rfl⟩
    · exact .refl _
  · split <;> exact .refl _
  · exact .refl _
  · exact ⟨_, _, _, rfl⟩

theorem books_batch (s : DesiredState N) (now : ℕ) : Books s (s.batch now).1 := by
  have hd : ∀ (ips : List IpAddr) (draft : Draft N), Books draft.state (ips.foldl Draft.add draft).state := by
    intro ips
    induction ips with
    | nil => exact fun draft => .refl _
    | cons ip ips ih => exact fun draft => (books_add draft ip).trans (ih (draft.add ip))
  exact hd _ _

theorem Coherent.books (hs : Coherent s) (h : Books s s') : Coherent s' := by
  obtain ⟨applied, dirty, retries, rfl⟩ := h
  exact ⟨hs.bitmaps, hs.index, ⟨hs.admits.sound, hs.admits.exact, hs.admits.omitted, hs.admits.full⟩⟩

variable (capacity : ℕ) (snapshot : Snapshot N)

theorem Coherent.start : Coherent { capacity := capacity, snapshot := snapshot } := by
  refine ⟨?_, ⟨?_, ?_⟩, ⟨.empty, ?_, ?_, nofun⟩⟩
  · intro family domain owner ho
    simp at ho
  · intro ip entry he
    simp at he
  · rintro ip - member ⟨owner, ho, -⟩
    simp at ho
  · intro ip _ bitmap he
    simp at he
  · intro ip _ hs
    simp [DesiredState.aggregate] at hs

theorem Coherent.installed (hs : Coherent s) (snapshot : Snapshot N) :
    ∃ s', (s.updateSnapshot snapshot).map Prod.fst = some s' ∧ Coherent s' := by
  by_cases hn : s.snapshot.generation < snapshot.generation
  · obtain ⟨s', hu, hc, -⟩ := hs.updateSnapshot hn
    exact ⟨s', by rw [hu, map_some], hc⟩
  · exact ⟨s, by rw [DesiredState.updateSnapshot, if_pos (by omega), map_some], hs⟩

theorem Coherent.act (hs : Coherent s) (a : Act N) : ∃ s', s.act a = some s' ∧ Coherent s' := by
  cases a with
  | observe observation now =>
    obtain ⟨s', hst, hc, -⟩ := hs.observe observation now
    exact ⟨s', hst, hc⟩
  | expire now =>
    obtain ⟨s', hst, hc, -⟩ := hs.expire now
    exact ⟨s', hst, hc⟩
  | updateSnapshot snapshot => exact hs.installed snapshot
  | batch now => exact ⟨_, rfl, hs.books (books_batch s now)⟩
  | commitSuccess sets removes => exact ⟨_, rfl, hs.books (books_commitSuccess s sets removes)⟩
  | recordFailure ip now => exact ⟨_, rfl, hs.books ⟨_, _, _, rfl⟩⟩
  | commitPublication snapshot published =>
    cases published with
    | none => exact hs.installed snapshot
    | some published => exact (hs.books ⟨published, ∅, ∅, rfl⟩).installed snapshot

theorem Coherent.run (acts : List (Act N)) : ∃ s, run capacity snapshot acts = some s ∧ Coherent s := by
  have hr : ∀ (acts : List (Act N)) (s : DesiredState N), Coherent s → ∃ s', acts.foldlM DesiredState.act s = some s' ∧ Coherent s' := by
    intro acts
    induction acts with
    | nil => exact fun s hs => ⟨s, rfl, hs⟩
    | cons a acts ih =>
      intro s hs
      obtain ⟨t, hst, ht⟩ := hs.act a
      rw [foldlM_cons, hst]
      exact ih t ht
  exact hr acts _ (.start capacity snapshot)

structure Owned (s : DesiredState N) : Prop where
  members : ∀ ip member, member ∈ s.ownersAt ip ↔ s.Owns member ip
  counts : ∀ (ip : IpAddr) (entry : IpOwners N), s.reverse[ip]? = some entry →
    entry.members.Nonempty ∧ entry.contributions.Counts (bitmaps (bitmapOf s.snapshot) entry.members)
  exact : ∀ ip bitmap, s.desired.entries[ip]? = some bitmap → joined (bitmapOf s.snapshot) (s.ownersAt ip) = some bitmap
  omitted : ∀ ip member bitmap, s.Owns member ip → bitmapOf s.snapshot member = some bitmap → s.desired.entries[ip]? = none →
    ∃ zeros entries, s.desired.omitted ip = some (zeros, entries) ∧ (zeroIpCapacity < zeros ∨ ipCapacity < entries)
  entries : s.desired.entries.size ≤ ipCapacity
  zeroIps : s.desired.zeroIps.size ≤ zeroIpCapacity
  zeros : ∀ ip, ip ∈ s.desired.zeroIps ↔ s.desired.entries[ip]? = some .zero

structure ProjectsTo (s : DesiredState N) (snapshot : Snapshot N) (facts : Facts) : Prop where
  sorted : facts.Pairwise fun a b => a.1 < b.1
  wanted : ∀ ip bitmap, (ip, bitmap) ∈ facts ↔ joined (bitmapOf snapshot) (s.ownersAt ip) = some bitmap
  project : ∀ ip bitmap, (s.project snapshot)[ip]? = some bitmap ↔ (ip, bitmap) ∈ canonical facts
  install : s.snapshot.generation < snapshot.generation →
    ∃ s', s.updateSnapshot snapshot = some (s', true) ∧ s'.desired.entries = s.project snapshot

omit [LinearOrder N] in
theorem joined_ne_none (hm : member ∈ members) (hb : f member = some bitmap) : joined f members ≠ none := by
  have hba : bitmap ∈ bitmaps f members := (Multiset.mem_filterMap _ _).mpr ⟨member, hm, hb⟩
  rw [joined, if_neg fun hz => by rw [hz] at hba; exact Multiset.notMem_zero _ hba]
  exact some_ne_none _

theorem Coherent.owned (hs : Coherent s) : Owned s := by
  refine ⟨fun ip member => mem_ownersAt hs.index, ?_, ?_, ?_, hs.admits.sound.entries, hs.admits.sound.zeroIps, hs.admits.sound.exact⟩
  · intro ip entry he
    obtain ⟨hn, hc, -⟩ := hs.index.present ip entry he
    exact ⟨hn, hc⟩
  · intro ip bitmap he
    rw [← aggregate_eq_joined hs.index]
    exact hs.admits.exact ip not_mem_nil bitmap he
  intro ip member bitmap how hb he
  have hso : s.aggregate ip ≠ none := by
    rw [aggregate_eq_joined hs.index]
    exact joined_ne_none ((mem_ownersAt hs.index).mpr how) hb
  obtain ⟨⟨zeros, entries⟩, ho⟩ := ne_none_iff_exists'.mp (hs.admits.omitted ip not_mem_nil hso he)
  exact ⟨zeros, entries, ho, hs.admits.full ip zeros entries ho⟩

theorem Coherent.projectsTo (hs : Coherent s) (snapshot : Snapshot N) : ProjectsTo s snapshot (s.factsUnder snapshot) := by
  refine ⟨sorted_factsOf .., fun ip bitmap => ?_, fun ip bitmap => (selects_project s snapshot).entries ip bitmap, fun hn => ?_⟩
  · rw [factsUnder, mem_factsOf, joined_ownersAt]
  · obtain ⟨s', hu, -, -, -, he⟩ := hs.updateSnapshot hn
    exact ⟨s', hu, he⟩

/-- No history makes the index panic or drift, and what a snapshot selects depends only on who owns what. -/
theorem projection_owned (acts : List (Act N)) :
    ∃ s, run capacity snapshot acts = some s ∧ Owned s ∧ (∀ next, ∃ facts, ProjectsTo s next facts) ∧
      ∀ capacity' snapshot' acts' t, run capacity' snapshot' acts' = some t →
        (∀ member ip, s.Owns member ip ↔ t.Owns member ip) → ∀ next, s.project next = t.project next := by
  obtain ⟨s, hr, hs⟩ := Coherent.run capacity snapshot acts
  refine ⟨s, hr, hs.owned, fun next => ⟨_, hs.projectsTo next⟩, ?_⟩
  intro capacity' snapshot' acts' t hr' ho next
  obtain ⟨t', ht', ht⟩ := Coherent.run capacity' snapshot' acts'
  obtain rfl := Option.some.inj (ht'.symm.trans hr')
  have hse := selects_project s next
  rw [factsUnder_congr hs.index ht.index ho next] at hse
  exact hse.entries_eq (selects_project t' next)

def loopback : IpAddr := .v4 #v[127, 0, 0, 1]

def unanswered : List (Act ℕ) := [.observe (.positive 0 .v4 [loopback] 10) 0]

theorem owner_without_bitmap : ∃ s, run 8 ⟨0, fun _ => none⟩ unanswered = some s ∧
    s.Owns (toLex (0, .v4)) loopback ∧ s.desired.entries[loopback]? = none ∧ s.desired.entries.size = 0 := by
  obtain ⟨s, hr, -⟩ := Coherent.run 8 ⟨0, fun _ => none⟩ unanswered
  have hev : (run 8 ⟨0, fun _ => none⟩ unanswered).map (fun s => (((s.owners .v4)[0]?).any fun owner => owner.ips.contains loopback,
      s.desired.entries[loopback]?, s.desired.entries.size)) = some (true, none, 0) := by
    decide +kernel
  rw [hr, map_some, Option.some.injEq, Prod.mk.injEq, Prod.mk.injEq, any_eq_true_iff_get] at hev
  obtain ⟨⟨ho, hip⟩, he, hs⟩ := hev
  exact ⟨s, hr, ⟨_, eq_some_of_isSome ho, ExtTreeSet.contains_iff_mem.mp hip⟩, he, hs⟩

end

end DesiredState

end Honk.Projection
