import Honk.Projection.State

namespace Honk.Projection

open Honk.Lib Honk.Routing List Function Option
open Std (ExtTreeMap ExtTreeSet)

variable {N : Type} [LinearOrder N]

section

def bitmapOf (snapshot : Snapshot N) (member : N ×ₗ IpVersion) : Option DomainRouting := snapshot.bitmapFor (ofLex member).1

structure Indexes (reverse : ExtTreeMap IpAddr (IpOwners N)) (bitmapOf : N ×ₗ IpVersion → Option DomainRouting)
    (R : N ×ₗ IpVersion → IpAddr → Prop) : Prop where
  present : ∀ ip entry, reverse[ip]? = some entry →
    entry.members.Nonempty ∧ entry.Counted bitmapOf ∧ ∀ member, member ∈ entry.members ↔ R member ip
  absent : ∀ ip, reverse[ip]? = none → ∀ member, ¬ R member ip

variable {reverse : ExtTreeMap IpAddr (IpOwners N)} {bitmapOf : N ×ₗ IpVersion → Option DomainRouting}
variable {R R' : N ×ₗ IpVersion → IpAddr → Prop} {member : N ×ₗ IpVersion} {bitmap : Option DomainRouting}

omit [LinearOrder N] in
theorem Indexes.congr (h : Indexes reverse bitmapOf R) (hR : ∀ member ip, R member ip ↔ R' member ip) : Indexes reverse bitmapOf R' := by
  have he : R = R' := funext fun member => funext fun ip => propext (hR member ip)
  exact he ▸ h

omit [LinearOrder N] in
theorem Indexes.at_other (h : Indexes reverse bitmapOf R) (ip : IpAddr)
    (ho : ∀ other, ip ≠ other → changed[other]? = reverse[other]? ∧ ∀ member, R member other ↔ R' member other)
    (hso : ∀ entry : IpOwners N, changed[ip]? = some entry →
      entry.members.Nonempty ∧ entry.Counted bitmapOf ∧ ∀ member, member ∈ entry.members ↔ R' member ip)
    (hn : changed[ip]? = none → ∀ member, ¬ R' member ip) : Indexes changed bitmapOf R' := by
  refine ⟨fun other entry he => ?_, fun other he member => ?_⟩
  · by_cases heq : ip = other
    · subst heq
      exact hso entry he
    · obtain ⟨hs, hR⟩ := ho other heq
      obtain ⟨hne, hc, hm⟩ := h.present other entry (hs ▸ he)
      exact ⟨hne, hc, fun member => (hm member).trans (hR member)⟩
  by_cases heq : ip = other
  · subst heq
    exact hn he member
  · obtain ⟨hs, hR⟩ := ho other heq
    exact fun hme => h.absent other (hs ▸ he) member ((hR member).mpr hme)

variable (h : Indexes reverse bitmapOf R)
include h

section

variable (hb : bitmapOf member = bitmap)
include hb

theorem Indexes.unlink (ip : IpAddr) : ∃ reverse', DesiredState.unlink member bitmap reverse ip = some reverse' ∧
      (∀ other, ip ≠ other → reverse'[other]? = reverse[other]?) ∧
      Indexes reverse' bitmapOf fun m other => R m other ∧ ¬ (m = member ∧ other = ip) := by
  unfold DesiredState.unlink
  split
  · rename_i hn
    refine ⟨reverse, rfl, fun _ _ => rfl, h.congr fun m other => ⟨fun hR => ⟨hR, ?_⟩, fun hR => hR.1⟩⟩
    rintro ⟨-, rfl⟩
    exact h.absent other hn m hR
  rename_i owners hs
  obtain ⟨-, hc, hm⟩ := h.present ip owners hs
  obtain ⟨owners', hr, herase, hc'⟩ := hc.remove hb
  refine ⟨_, by rw [hr, map_some], ?_⟩
  have hk : ∀ m, m ∈ owners'.members ↔ R m ip ∧ ¬ (m = member ∧ ip = ip) := by
    intro m
    rw [herase, Finset.mem_erase, hm, and_comm]
    simp
  have ho : ∀ other, ip ≠ other → ∀ m, R m other ↔ R m other ∧ ¬ (m = member ∧ other = ip) :=
    fun other hne m => ⟨fun hR => ⟨hR, fun heq => hne heq.2.symm⟩, fun hR => hR.1⟩
  split
  · rename_i hem
    have her : ∀ other, ip ≠ other → (reverse.erase ip)[other]? = reverse[other]? :=
      fun other hne => by simp [ExtTreeMap.getElem?_erase, hne]
    refine ⟨her, h.at_other ip (fun other hne => ⟨her other hne, ho other hne⟩) (fun entry he => by simp at he) fun _ m hR => ?_⟩
    have hme := (hk m).mpr hR
    rw [hem] at hme
    exact absurd hme (Finset.notMem_empty m)
  rename_i hne
  have hin : ∀ other, ip ≠ other → (reverse.insert ip owners')[other]? = reverse[other]? :=
    fun other hne => by simp [ExtTreeMap.getElem?_insert, hne]
  refine ⟨hin, h.at_other ip (fun other hne => ⟨hin other hne, ho other hne⟩) (fun entry he => ?_) fun he => by simp at he⟩
  rw [ExtTreeMap.getElem?_insert_self, Option.some.injEq] at he
  subst he
  exact ⟨Finset.nonempty_iff_ne_empty.mpr hne, hc', hk⟩

theorem Indexes.unlink_all (ips : List IpAddr) : ∃ reverse', ips.foldlM (DesiredState.unlink member bitmap) reverse = some reverse' ∧
      (∀ other ∉ ips, reverse'[other]? = reverse[other]?) ∧
      Indexes reverse' bitmapOf fun m other => R m other ∧ ¬ (m = member ∧ other ∈ ips) := by
  induction ips generalizing reverse R with
  | nil => exact ⟨reverse, rfl, fun _ _ => rfl, h.congr fun m other => by simp⟩
  | cons ip ips ih =>
    obtain ⟨next, hn, hs, hin⟩ := h.unlink hb ip
    obtain ⟨reverse', hr, hs', hin'⟩ := ih hin
    refine ⟨reverse', ?_, fun other hno => ?_, hin'.congr fun m other => ?_⟩
    · rw [foldlM_cons, hn]
      exact hr
    · rw [mem_cons, not_or] at hno
      rw [hs' other hno.2, hs other (Ne.symm hno.1)]
    · rw [mem_cons]
      tauto

theorem Indexes.link (ip : IpAddr) :
    Indexes (DesiredState.link member bitmap reverse ip) bitmapOf fun m other => R m other ∨ m = member ∧ other = ip := by
  have hold : ((reverse[ip]?.getD {}).Counted bitmapOf) ∧ ∀ m, m ∈ (reverse[ip]?.getD {}).members ↔ R m ip := by
    cases he : reverse[ip]? with
    | none => exact ⟨.empty, fun m => ⟨fun hm => absurd hm (Finset.notMem_empty m), fun hR => absurd hR (h.absent ip he m)⟩⟩
    | some entry => exact (h.present ip entry he).2
  have hme : ∀ m, m ∈ ((reverse[ip]?.getD {}).insert member bitmap).members ↔ R m ip ∨ m = member ∧ ip = ip := by
    intro m
    rw [IpOwners.mem_insert, hold.2 m]
    tauto
  refine h.at_other ip (fun other hn => ⟨by simp [DesiredState.link, ExtTreeMap.getElem?_insert, hn], fun m => ?_⟩)
    (fun entry he => ?_) fun he => by simp [DesiredState.link] at he
  · exact ⟨.inl, fun hR => hR.elim id fun heq => absurd heq.2.symm hn⟩
  rw [DesiredState.link, ExtTreeMap.getElem?_insert_self, Option.some.injEq] at he
  subst he
  exact ⟨⟨member, (hme member).mpr (.inr ⟨rfl, rfl⟩)⟩, hold.1.insert hb, hme⟩

end

omit h in
theorem getElem_link_all {ips : List IpAddr} (hn : other ∉ ips) :
    (ips.foldl (DesiredState.link member bitmap) reverse)[other]? = reverse[other]? := by
  induction ips generalizing reverse with
  | nil => rfl
  | cons ip ips ih =>
    rw [mem_cons, not_or] at hn
    rw [foldl_cons, ih hn.2, DesiredState.link, ExtTreeMap.getElem?_insert]
    simp [Ne.symm hn.1]

theorem Indexes.link_all (hb : bitmapOf member = bitmap) (ips : List IpAddr) :
    Indexes (ips.foldl (DesiredState.link member bitmap) reverse) bitmapOf fun m other => R m other ∨ m = member ∧ other ∈ ips := by
  induction ips generalizing reverse R with
  | nil => exact h.congr fun m other => by simp
  | cons ip ips ih =>
    refine (ih (h.link hb ip)).congr fun m other => ?_
    rw [mem_cons]
    tauto

end

namespace Bounded

variable {table : Bounded}

theorem insertBounded_entries (ip : IpAddr) (bitmap : DomainRouting) (other : IpAddr) :
    (table.insertBounded ip bitmap).1.entries[other]? = if (table.insertBounded ip bitmap).2 = some other then none
      else if ip = other then some bitmap else table.entries[other]? := by
  unfold insertBounded
  split
  · simp [evict, remove, put, ExtTreeMap.getElem?_erase, ExtTreeMap.getElem?_insert]
  · simp [put, ExtTreeMap.getElem?_insert]

theorem insertBounded_omitted {ip : IpAddr} {bitmap : DomainRouting} (he : (table.insertBounded ip bitmap).2 ≠ some other) :
    (table.insertBounded ip bitmap).1.omitted other = if other = ip then none else table.omitted other := by
  unfold insertBounded at he ⊢
  split at he
  · rename_i evicted hv
    have hn : other ≠ evicted := fun heq => he (congrArg some heq.symm)
    simp [evict, put, update_apply, hn]
  · rename_i hv
    simp [put, update_apply]

theorem insertBounded_evicted {ip : IpAddr} {bitmap : DomainRouting}
    (he : (table.insertBounded ip bitmap).2 = some other) : ∃ zeros entries,
      (table.insertBounded ip bitmap).1.omitted other = some (zeros, entries) ∧ (zeroIpCapacity < zeros ∨ ipCapacity < entries) := by
  unfold insertBounded at he ⊢
  split at he
  · rename_i evicted hv
    cases he
    refine ⟨(table.put ip bitmap).zeroIps.size, (table.put ip bitmap).entries.size, ?_, ?_⟩
    · simp [evict]
    unfold victim at hv
    split at hv
    · assumption
    · cases hv
  · cases he

structure Recorded (table : Bounded) (wanted : IpAddr → Prop) : Prop where
  omitted : ∀ ip, wanted ip → table.entries[ip]? = none → table.omitted ip ≠ none
  full : ∀ ip zeros entries, table.omitted ip = some (zeros, entries) → zeroIpCapacity < zeros ∨ ipCapacity < entries

theorem Recorded.insertBounded (h : Recorded table wanted) (ip : IpAddr)
    (bitmap : DomainRouting) : Recorded (table.insertBounded ip bitmap).1 fun other => other = ip ∨ wanted other := by
  refine ⟨fun other hw hen => ?_, fun other zeros entries ho => ?_⟩
  · by_cases he : (table.insertBounded ip bitmap).2 = some other
    · obtain ⟨zeros, entries, ho, -⟩ := insertBounded_evicted he
      simp [ho]
    · rw [insertBounded_entries, if_neg he] at hen
      split at hen
      · cases hen
      rename_i heq
      rw [insertBounded_omitted he, if_neg (Ne.symm heq)]
      exact h.omitted other (hw.resolve_left (Ne.symm heq)) hen
  by_cases he : (table.insertBounded ip bitmap).2 = some other
  · obtain ⟨zeros', entries', ho', hf⟩ := insertBounded_evicted he
    cases ho'.symm.trans ho
    exact hf
  rw [insertBounded_omitted he] at ho
  split at ho
  · cases ho
  · exact h.full other zeros entries ho

end Bounded

def DomainOwner.content (owner : DomainOwner) : ExtTreeSet IpAddr × Option DomainRouting := (owner.ips, owner.bitmap)

namespace DesiredState

section

structure Admits (pending : List IpAddr) (s : DesiredState N) : Prop where
  sound : s.desired.Sound
  exact : ∀ ip ∉ pending, ∀ bitmap, s.desired.entries[ip]? = some bitmap → s.aggregate ip = some bitmap
  omitted : ∀ ip ∉ pending, s.aggregate ip ≠ none → s.desired.entries[ip]? = none → s.desired.omitted ip ≠ none
  full : ∀ ip zeros entries, s.desired.omitted ip = some (zeros, entries) → zeroIpCapacity < zeros ∨ ipCapacity < entries

structure Settles (s s' : DesiredState N) : Prop where
  applied : s'.applied = s.applied
  snapshot : s'.snapshot = s.snapshot
  dirty : ∀ ip ∈ s.dirtyIps, ip ∈ s'.dirtyIps
  changed : ∀ ip, s'.desired.entries[ip]? ≠ s.desired.entries[ip]? →
    ip ∈ s'.dirtyIps ∨ s'.desired.entries[ip]? = none ∧ s.applied[ip]? = none

theorem Settles.of_eq {s s' : DesiredState N} (ha : s'.applied = s.applied) (hs : s'.snapshot = s.snapshot)
    (hd : s'.dirtyIps = s.dirtyIps) (hde : s'.desired = s.desired) : Settles s s' :=
  ⟨ha, hs, fun _ h => hd ▸ h, fun _ hn => absurd (by rw [hde]) hn⟩

theorem Settles.refl (s : DesiredState N) : Settles s s := .of_eq rfl rfl rfl rfl

theorem Settles.trans {s s' s'' : DesiredState N} (h : Settles s s') (h' : Settles s' s'') : Settles s s'' := by
  refine ⟨h'.applied.trans h.applied, h'.snapshot.trans h.snapshot, fun ip hip => h'.dirty ip (h.dirty ip hip), fun ip hn => ?_⟩
  by_cases hs : s''.desired.entries[ip]? = s'.desired.entries[ip]?
  · rw [hs] at hn ⊢
    exact (h.changed ip hn).imp_left (h'.dirty ip)
  · rw [← h.applied]
    exact h'.changed ip hs

variable {s : DesiredState N} {pending : List IpAddr}

section

variable (s : DesiredState N) (ip : IpAddr)

theorem mem_markDirty (other : IpAddr) : other ∈ s.markDirty ip evicted ↔
      other ∈ s.dirtyIps ∨ other = ip ∧ (evicted ≠ some ip ∨ ip ∈ s.applied) ∨ evicted = some other ∧ other ≠ ip := by
  have hd : ∀ p : Prop, [Decidable p] →
      (other ∈ (if p then s.dirtyIps.insert ip else s.dirtyIps) ↔ other ∈ s.dirtyIps ∨ other = ip ∧ p) := by
    intro p _
    split
    · rename_i hp
      rw [ExtTreeSet.mem_insert, compare_eq_iff_eq]
      constructor
      · rintro (rfl | h)
        · exact .inr ⟨rfl, hp⟩
        · exact .inl h
      rintro (h | ⟨rfl, -⟩)
      · exact .inr h
      · exact .inl rfl
    · simp [*]
  unfold markDirty
  cases evicted with
  | none =>
    simp only [filter_none, hd]
    simp
  | some evicted =>
    by_cases he : evicted = ip
    · subst he
      simp [Option.filter, hd]
      tauto
    simp only [Option.filter, he, decide_not, decide_false, Bool.not_false, if_true, ExtTreeSet.mem_insert,
      compare_eq_iff_eq, hd, Option.some.injEq]
    constructor
    · rintro (rfl | h)
      · exact .inr (.inr ⟨rfl, he⟩)
      · tauto
    · tauto

theorem settles_recomputeIp : Settles s (s.recomputeIp ip) := by
  unfold recomputeIp
  split
  · exact .refl s
  split
  · refine ⟨rfl, rfl, fun other ho => (mem_markDirty ..).mpr (.inl ho), fun other hne => ?_⟩
    by_cases heq : other = ip
    · exact .inl ((mem_markDirty ..).mpr (.inr (.inl ⟨heq, .inl nofun⟩)))
    · exact absurd (by simp [Bounded.remove, ExtTreeMap.getElem?_erase, Ne.symm heq]) hne
  rename_i next hn
  refine ⟨rfl, rfl, fun other ho => (mem_markDirty ..).mpr (.inl ho), fun other hne => ?_⟩
  dsimp only at hne ⊢
  rw [Bounded.insertBounded_entries] at hne ⊢
  rw [mem_markDirty]
  by_cases he : (s.desired.insertBounded ip next).2 = some other
  · rw [he, if_pos rfl]
    by_cases hs : other = ip
    · subst hs
      by_cases ha : other ∈ s.applied
      · exact .inl (.inr (.inl ⟨rfl, .inr ha⟩))
      · exact .inr ⟨rfl, by simpa using ha⟩
    · exact .inl (.inr (.inr ⟨rfl, hs⟩))
  rw [if_neg he] at hne
  by_cases heq : other = ip
  · subst heq
    exact .inl (.inr (.inl ⟨rfl, .inl he⟩))
  · exact absurd (if_neg (Ne.symm heq)) hne

theorem settles_recomputeIps (ips : List IpAddr) : Settles s (s.recomputeIps ips) := by
  induction ips generalizing s with
  | nil => exact .refl s
  | cons ip ips ih => exact (settles_recomputeIp s ip).trans (ih (s.recomputeIp ip))

theorem Settles.recomputed {s t : DesiredState N} {ips : List IpAddr} (ha : t.applied = s.applied)
    (hs : t.snapshot = s.snapshot) (hd : t.dirtyIps = s.dirtyIps) (hde : t.desired = s.desired) : Settles s (t.recomputeIps ips) :=
  (Settles.of_eq ha hs hd hde).trans (settles_recomputeIps t ips)

theorem exists_recomputeIp : ∃ desired dirty, s.recomputeIp ip = { s with desired := desired, dirtyIps := dirty } := by
  unfold recomputeIp
  split
  · exact ⟨s.desired, s.dirtyIps, rfl⟩
  · split <;> exact ⟨_, _, rfl⟩

theorem exists_recomputeIps (ips : List IpAddr) :
    ∃ desired dirty, s.recomputeIps ips = { s with desired := desired, dirtyIps := dirty } := by
  induction ips generalizing s with
  | nil => exact ⟨s.desired, s.dirtyIps, rfl⟩
  | cons ip ips ih =>
    obtain ⟨desired, dirty, ho⟩ := exists_recomputeIp s ip
    obtain ⟨desired', dirty', hr⟩ := ih (s.recomputeIp ip)
    rw [ho] at hr
    exact ⟨desired', dirty', by rw [recomputeIps, foldl_cons, ho]; exact hr⟩

end

theorem aggregate_congr {s' : DesiredState N} (h : s'.reverse = s.reverse) (ip : IpAddr) : s'.aggregate ip = s.aggregate ip := by
  rw [aggregate, aggregate, h]

theorem Admits.drop (h : Admits (ip :: pending) s) (he : ∀ bitmap, s.desired.entries[ip]? = some bitmap → s.aggregate ip = some bitmap)
    (ho : s.aggregate ip ≠ none → s.desired.entries[ip]? = none → s.desired.omitted ip ≠ none) : Admits pending s := by
  have hr : ∀ other, other ∉ pending → other ≠ ip → other ∉ ip :: pending := fun other hn hne hm => (mem_cons.mp hm).elim hne hn
  refine ⟨h.sound, fun other hn => ?_, fun other hn => ?_, h.full⟩
  · by_cases heq : other = ip
    · exact heq ▸ he
    · exact h.exact other (hr other hn heq)
  by_cases heq : other = ip
  · exact heq ▸ ho
  · exact h.omitted other (hr other hn heq)

theorem Admits.congr {t : DesiredState N} (h : Admits [] s) (hd : t.desired = s.desired)
    (ha : ∀ ip ∉ pending, t.aggregate ip = s.aggregate ip) : Admits pending t := by
  refine ⟨hd ▸ h.sound, fun ip hn => ?_, fun ip hn => ?_, hd ▸ h.full⟩
  · rw [hd, ha ip hn]
    exact h.exact ip not_mem_nil
  · rw [hd, ha ip hn]
    exact h.omitted ip not_mem_nil

theorem Admits.recomputeIp (h : Admits (ip :: pending) s) : Admits pending (s.recomputeIp ip) := by
  have hne : ∀ other, other ∉ ip :: pending → ip ≠ other := fun other hno heq => hno (heq ▸ mem_cons_self)
  unfold DesiredState.recomputeIp
  split
  · rename_i hsa
    exact h.drop (fun bitmap hb => hsa ▸ hb) fun hs hn => absurd (hsa ▸ hn) hs
  split
  · rename_i hn
    have he : ∀ other, other ∉ ip :: pending → (s.desired.remove ip).entries[other]? = s.desired.entries[other]? :=
      fun other hno => by simp [Bounded.remove, ExtTreeMap.getElem?_erase, hne other hno]
    refine Admits.drop ⟨h.sound.remove ip, fun other hno => ?_, fun other hno => ?_, fun other zeros entries ho => ?_⟩
      (by simp [Bounded.remove]) fun hs => absurd hn hs
    · rw [he other hno]
      exact h.exact other hno
    · rw [he other hno]
      simp only [Bounded.remove, update_of_ne (hne other hno).symm]
      exact h.omitted other hno
    by_cases heq : other = ip
    · simp [Bounded.remove, heq] at ho
    · simp only [Bounded.remove, update_of_ne heq] at ho
      exact h.full other zeros entries ho
  rename_i next hnext
  have hr : Bounded.Recorded s.desired fun other => other ∉ ip :: pending ∧ s.aggregate other ≠ none :=
    ⟨fun other hw => h.omitted other hw.1 hw.2, h.full⟩
  have hr' := hr.insertBounded ip next
  refine Admits.drop ⟨h.sound.insertBounded ip next, fun other hno bitmap hb => ?_,
    fun other hno hs => hr'.omitted other (.inr ⟨hno, hs⟩), hr'.full⟩ (fun bitmap hb => ?_)
    fun _ => hr'.omitted ip (.inl rfl)
  all_goals
    dsimp only at hb
    rw [Bounded.insertBounded_entries] at hb
    split at hb
    · cases hb
  · rw [if_neg (hne other hno)] at hb
    exact h.exact other hno bitmap hb
  · rw [if_pos rfl] at hb
    exact hb ▸ hnext

theorem Admits.recomputeIps (h : Admits ips s) : Admits [] (s.recomputeIps ips) := by
  induction ips generalizing s with
  | nil => exact h
  | cons ip ips ih => exact ih h.recomputeIp

end

section

def Owns (s : DesiredState N) (member : N ×ₗ IpVersion) (ip : IpAddr) : Prop :=
  ∃ owner, (s.owners (ofLex member).2)[(ofLex member).1]? = some owner ∧ ip ∈ owner.ips

structure Coherent (s : DesiredState N) : Prop where
  bitmaps : ∀ family domain owner, (s.owners family)[domain]? = some owner → owner.bitmap = s.snapshot.bitmapFor domain
  index : Indexes s.reverse (bitmapOf s.snapshot) s.Owns
  admits : Admits [] s

/-- The operation ends, coherent and with its changes marked. -/
abbrev Ends (s : DesiredState N) (result : Option (DesiredState N)) : Prop := ∃ s', result = some s' ∧ Coherent s' ∧ Settles s s'

theorem Ends.after {s t : DesiredState N} (h : Settles s t) (he : Ends t result) : Ends s result := by
  obtain ⟨s', hr, hc, hs⟩ := he
  exact ⟨s', hr, hc, h.trans hs⟩

structure Quiet (s s' : DesiredState N) : Prop where
  owners : ∀ (family : IpVersion) (domain : N), ((s'.owners family)[domain]?).map DomainOwner.content =
    ((s.owners family)[domain]?).map DomainOwner.content
  reverse : s'.reverse = s.reverse
  desired : s'.desired = s.desired
  snapshot : s'.snapshot = s.snapshot
  applied : s'.applied = s.applied
  dirty : s'.dirtyIps = s.dirtyIps

variable {s s' s'' : DesiredState N}

theorem Quiet.of_owners_eq (ho : s'.owners = s.owners) (hr : s'.reverse = s.reverse)
    (hd : s'.desired = s.desired) (hs : s'.snapshot = s.snapshot) (ha : s'.applied = s.applied)
    (hdi : s'.dirtyIps = s.dirtyIps) : Quiet s s' :=
  ⟨fun _ _ => by rw [ho], hr, hd, hs, ha, hdi⟩

theorem Quiet.refl (s : DesiredState N) : Quiet s s := .of_owners_eq rfl rfl rfl rfl rfl rfl

theorem Quiet.trans (h : Quiet s s') (h' : Quiet s' s'') : Quiet s s'' :=
  ⟨fun family domain => (h'.owners family domain).trans (h.owners family domain), h'.reverse.trans h.reverse,
    h'.desired.trans h.desired, h'.snapshot.trans h.snapshot, h'.applied.trans h.applied, h'.dirty.trans h.dirty⟩

theorem Quiet.symm (h : Quiet s s') : Quiet s' s :=
  ⟨fun family domain => (h.owners family domain).symm, h.reverse.symm, h.desired.symm, h.snapshot.symm, h.applied.symm, h.dirty.symm⟩

theorem Quiet.settles (h : Quiet s s') : Settles s s' := .of_eq h.applied h.snapshot h.dirty h.desired

variable {family : IpVersion} {domain : N} {owner : DomainOwner}

theorem Quiet.exists_owner (h : Quiet s s') (ho : (s'.owners family)[domain]? = some owner) :
    ∃ old, (s.owners family)[domain]? = some old ∧ old.ips = owner.ips ∧ old.bitmap = owner.bitmap := by
  have hs := h.owners family domain
  rw [ho, map_some, eq_comm, map_eq_some_iff] at hs
  obtain ⟨old, hold, he⟩ := hs
  exact ⟨old, hold, congrArg Prod.fst he, congrArg Prod.snd he⟩

theorem Quiet.owns (h : Quiet s s') (member : N ×ₗ IpVersion) (ip : IpAddr) : s.Owns member ip ↔ s'.Owns member ip := by
  have hon : ∀ {t t' : DesiredState N}, Quiet t t' → t'.Owns member ip → t.Owns member ip := by
    rintro t t' h ⟨owner, ho, hip⟩
    obtain ⟨old, hold, hips, -⟩ := h.exists_owner ho
    exact ⟨old, hold, hips ▸ hip⟩
  exact ⟨hon h.symm, hon h⟩

theorem Coherent.quiet (hs : Coherent s) (h : Quiet s s') : Coherent s' := by
  refine ⟨fun family domain owner ho => ?_, ?_, ?_⟩
  · obtain ⟨old, hold, -, hb⟩ := h.exists_owner ho
    rw [← hb, hs.bitmaps family domain old hold, h.snapshot]
  · rw [h.reverse, h.snapshot]
    exact hs.index.congr h.owns
  · exact hs.admits.congr h.desired fun ip _ => aggregate_congr h.reverse ip

variable (s : DesiredState N)

theorem quiet_prune : Quiet s s.pruneStaleExpiryHeads := .of_owners_eq rfl rfl rfl rfl rfl rfl

theorem quiet_pushDeadline (entry : DeadlineEntry N) : Quiet s (s.pushDeadline entry) :=
  .of_owners_eq rfl rfl rfl rfl rfl rfl

theorem quiet_pushEviction (entry : EvictionEntry N) : Quiet s (s.pushEviction entry) :=
  .of_owners_eq rfl rfl rfl rfl rfl rfl

theorem quiet_rebuildHeaps : Quiet s s.rebuildHeaps := by
  refine ⟨fun family domain => ?_, rfl, rfl, rfl, rfl, rfl⟩
  simp only [rebuildHeaps, ExtTreeMap.getElem?_map, Option.map_map]
  rfl

theorem quiet_compact : Quiet s s.compactOwnerHeapsIfNeeded := by
  unfold compactOwnerHeapsIfNeeded
  dsimp only
  split
  · exact quiet_prune s
  · exact (quiet_prune s).trans (quiet_rebuildHeaps _)

theorem owners_setOwners (family : IpVersion) (owners : ExtTreeMap N DomainOwner) (other : IpVersion) :
    (s.setOwners family owners).owners other = if other = family then owners else s.owners other :=
  update_apply ..

theorem getElem_setOwners {s : DesiredState N} {owners : ExtTreeMap N DomainOwner}
    (h : ∀ name : N, owners[name]? = if domain = name then value else (s.owners family)[name]?) (other : IpVersion) (name : N) :
    ((s.setOwners family owners).owners other)[name]? =
      if other = family ∧ name = domain then value else (s.owners other)[name]? := by
  rw [owners_setOwners]
  by_cases ho : other = family
  · subst ho
    rw [if_pos rfl, h]
    simp only [true_and]
    exact if_congr eq_comm rfl rfl
  · simp [ho]

theorem getElem_setOwners_erase (family : IpVersion) (domain : N) (other : IpVersion) (name : N) :
    ((s.setOwners family ((s.owners family).erase domain)).owners other)[name]? =
      if other = family ∧ name = domain then none else (s.owners other)[name]? :=
  getElem_setOwners (fun _ => by simp [ExtTreeMap.getElem?_erase]) other name

theorem getElem_setOwners_insert (family : IpVersion) (domain : N) (owner : DomainOwner)
    (other : IpVersion) (name : N) : ((s.setOwners family ((s.owners family).insert domain owner)).owners other)[name]? =
      if other = family ∧ name = domain then some owner else (s.owners other)[name]? :=
  getElem_setOwners (fun _ => by simp [ExtTreeMap.getElem?_insert]) other name

theorem quiet_setOwner (ho : (s.owners family)[domain]? = some owner) (next : DomainOwner)
    (hip : next.ips = owner.ips) (hb : next.bitmap = owner.bitmap) :
    Quiet s (s.setOwners family ((s.owners family).insert domain next)) := by
  refine ⟨fun other name => ?_, rfl, rfl, rfl, rfl, rfl⟩
  rw [getElem_setOwners_insert]
  split
  · rename_i he
    rw [he.1, he.2, ho, map_some, map_some, DomainOwner.content, DomainOwner.content, hip, hb]
  · rfl

theorem quiet_reschedule (ho : (s.owners family)[domain]? = some owner) (expiresAt sequence : ℕ) :
    Quiet s (s.reschedule family domain owner expiresAt sequence) := by
  unfold reschedule
  split
  · exact (quiet_setOwner s ho { owner with expirySequence := sequence, expiresAt := expiresAt, sequence := sequence }
      rfl rfl).trans (quiet_pushDeadline _ _)
  · exact quiet_setOwner s ho _ rfl rfl

end

section

variable {s t : DesiredState N} {family : IpVersion} {domain : N} {owner : DomainOwner}

theorem Coherent.recomputed (hs : Coherent s)
    (hb : ∀ family domain owner, (t.owners family)[domain]? = some owner → owner.bitmap = t.snapshot.bitmapFor domain)
    (hin : Indexes t.reverse (bitmapOf t.snapshot) t.Owns) (hd : t.desired = s.desired)
    (hsa : ∀ ip ∉ ips, t.reverse[ip]? = s.reverse[ip]?) : Coherent (t.recomputeIps ips) := by
  have ha : Admits ips t := hs.admits.congr hd fun ip hn => by rw [aggregate, aggregate, hsa ip hn]
  have hf := ha.recomputeIps
  obtain ⟨desired, dirty, he⟩ := exists_recomputeIps t ips
  rw [he] at hf ⊢
  exact ⟨hb, hin, hf⟩

theorem owns_other (hne : member ≠ toLex (domain, family)) (hg : ∀ (other : IpVersion) (name : N), ¬ (other = family ∧ name = domain) →
      (t.owners other)[name]? = (s.owners other)[name]?) : s.Owns member ip ↔ t.Owns member ip := by
  have hn : ¬ ((ofLex member).2 = family ∧ (ofLex member).1 = domain) := by
    rintro ⟨rfl, rfl⟩
    exact hne rfl
  rw [Owns, Owns, hg _ _ hn]

theorem owns_setOwners_erase (ho : (s.owners family)[domain]? = some owner)
    (reverse : ExtTreeMap IpAddr (IpOwners N)) (member : N ×ₗ IpVersion) (ip : IpAddr) :
    s.Owns member ip ∧ ¬ (member = toLex (domain, family) ∧ ip ∈ owner.ips.toList) ↔
      ((s.setOwners family ((s.owners family).erase domain)).setReverse reverse).Owns member ip := by
  have hg := getElem_setOwners_erase s family domain
  by_cases hne : member = toLex (domain, family)
  · subst hne
    constructor
    · rintro ⟨⟨current, hc, hip⟩, hn⟩
      cases ho.symm.trans hc
      exact absurd ⟨rfl, ExtTreeSet.mem_toList.mpr hip⟩ hn
    · rintro ⟨current, hc, -⟩
      cases ((hg family domain).trans (if_pos ⟨rfl, rfl⟩)).symm.trans hc
  · refine Iff.trans ⟨fun h => h.1, fun h => ⟨h, fun he => hne he.1⟩⟩ (owns_other hne fun other name hn => ?_)
    exact (hg other name).trans (if_neg hn)

theorem Coherent.removeOwner (hs : Coherent s) (family : IpVersion) (domain : N) : Ends s (s.removeOwner family domain) := by
  unfold DesiredState.removeOwner
  split
  · exact ⟨s, rfl, hs, .refl s⟩
  rename_i owner ho
  have hb : bitmapOf s.snapshot (toLex (domain, family)) = owner.bitmap := (hs.bitmaps family domain owner ho).symm
  obtain ⟨reverse, hr, hsa, hin⟩ := hs.index.unlink_all hb owner.ips.toList
  have hc : Coherent (((s.setOwners family ((s.owners family).erase domain)).setReverse reverse).recomputeIps
      owner.ips.toList) := by
    refine .recomputed hs (fun other name current hcu => ?_) (hin.congr (owns_setOwners_erase ho reverse)) rfl hsa
    have hg := (getElem_setOwners_erase s family domain other name).symm.trans hcu
    split at hg
    · cases hg
    · exact hs.bitmaps other name current hg
  have hse : Settles s (((s.setOwners family ((s.owners family).erase domain)).setReverse reverse).recomputeIps
      owner.ips.toList) := .recomputed rfl rfl rfl rfl
  rw [hr, map_some]
  exact ⟨_, rfl, hc.quiet (quiet_compact _), hse.trans (quiet_compact _).settles⟩

def Sets (s t : DesiredState N) (family : IpVersion) (domain : N) (next : DomainOwner) : Prop :=
  ∀ (other : IpVersion) (name : N), (t.owners other)[name]? =
    if other = family ∧ name = domain then some next else (s.owners other)[name]?

variable {next : DomainOwner}

theorem Sets.owns (h : Sets s t family domain next) {R : N ×ₗ IpVersion → IpAddr → Prop}
    (ho : ∀ member ip, member ≠ toLex (domain, family) → (R member ip ↔ s.Owns member ip))
    (hs : ∀ ip, R (toLex (domain, family)) ip ↔ ip ∈ next.ips) (member : N ×ₗ IpVersion) (ip : IpAddr) :
    R member ip ↔ t.Owns member ip := by
  by_cases hne : member = toLex (domain, family)
  · subst hne
    rw [hs]
    constructor
    · exact fun hip => ⟨next, (h family domain).trans (if_pos ⟨rfl, rfl⟩), hip⟩
    rintro ⟨current, hc, hip⟩
    cases ((h family domain).trans (if_pos ⟨rfl, rfl⟩)).symm.trans hc
    exact hip
  · rw [ho member ip hne]
    exact owns_other hne fun other name hn => (h other name).trans (if_neg hn)

theorem Sets.bitmaps (h : Sets s t family domain next) (hs : Coherent s) (hn : next.bitmap = s.snapshot.bitmapFor domain)
    (hc : (t.owners other)[name]? = some current) : current.bitmap = s.snapshot.bitmapFor name := by
  have hg := (h other name).symm.trans hc
  split at hg
  · rename_i he
    cases hg
    rw [he.2]
    exact hn
  · exact hs.bitmaps other name current hg

theorem exists_reschedule (s : DesiredState N) (family : IpVersion) (domain : N) (owner : DomainOwner) (expiresAt sequence : ℕ) :
    ∃ next deadlines, s.reschedule family domain owner expiresAt sequence =
      { s.setOwners family ((s.owners family).insert domain next) with expiryDeadlines := deadlines } ∧
      next.ips = owner.ips ∧ next.bitmap = owner.bitmap := by
  unfold reschedule
  split
  · exact ⟨_, _, rfl, rfl, rfl⟩
  · exact ⟨_, s.expiryDeadlines, rfl, rfl, rfl⟩

theorem Coherent.replaceExisting (hs : Coherent s) (ho : (s.owners family)[domain]? = some owner)
    (ips : ExtTreeSet IpAddr) (expiresAt sequence : ℕ) : Ends s (s.replaceExisting family domain owner ips expiresAt sequence) := by
  have howned := hs.bitmaps family domain owner ho
  have hb : bitmapOf s.snapshot (toLex (domain, family)) = owner.bitmap := howned.symm
  unfold DesiredState.replaceExisting
  dsimp only
  generalize hr : owner.ips.toList.filter (fun ip => ip ∉ ips) = removed
  generalize ha : ips.toList.filter (fun ip => ip ∉ owner.ips ∨ ip ∉ s.desired.entries) = added
  obtain ⟨unlinked, hu, hsa, hin⟩ := hs.index.unlink_all hb removed
  have hl := hin.link_all hb added
  have hk : ∀ ip ∉ removed ++ added,
      (added.foldl (DesiredState.link (toLex (domain, family)) owner.bitmap) unlinked)[ip]? = s.reverse[ip]? := by
    intro ip hno
    rw [mem_append, not_or] at hno
    rw [getElem_link_all hno.2, hsa ip hno.1]
  have hm : ∀ ip, (s.Owns (toLex (domain, family)) ip ∧ ¬ (toLex (domain, family) = toLex (domain, family) ∧ ip ∈ removed)) ∨
      toLex (domain, family) = toLex (domain, family) ∧ ip ∈ added ↔ ip ∈ ips := by
    intro ip
    have how : s.Owns (toLex (domain, family)) ip ↔ ip ∈ owner.ips :=
      ⟨fun ⟨current, hc, hip⟩ => by cases ho.symm.trans hc; exact hip, fun hip => ⟨owner, ho, hip⟩⟩
    rw [how, ← hr, ← ha]
    simp only [mem_filter, ExtTreeSet.mem_toList, decide_eq_true_eq]
    tauto
  rw [hu, map_some]
  obtain ⟨next, deadlines, he, hips, hn⟩ := exists_reschedule
    (s.setReverse (added.foldl (DesiredState.link (toLex (domain, family)) owner.bitmap) unlinked)) family domain
    { owner with ips := ips } expiresAt sequence
  rw [he]
  have hse : Sets s ((s.setReverse (added.foldl (DesiredState.link (toLex (domain, family)) owner.bitmap)
      unlinked)).setOwners family ((s.owners family).insert domain next)) family domain next :=
    getElem_setOwners_insert _ family domain next
  have how := hl.congr (hse.owns (fun member ip hne => by simp [hne]) fun ip => by rw [hips]; exact hm ip)
  exact ⟨_, rfl, .recomputed hs (fun _ _ _ hc => hse.bitmaps hs (hn.trans howned) hc) how rfl hk, .recomputed rfl rfl rfl rfl⟩

theorem Coherent.insertOwner (hs : Coherent s) (hn : (s.owners family)[domain]? = none) (ips : ExtTreeSet IpAddr)
    (expiresAt sequence : ℕ) : Coherent (s.insertOwner family domain ips expiresAt sequence) ∧
      Settles s (s.insertOwner family domain ips expiresAt sequence) := by
  have ho : s.bitmapFor family domain = s.snapshot.bitmapFor domain := by
    unfold DesiredState.bitmapFor
    split
    · rename_i sibling hsi
      exact hs.bitmaps _ domain sibling hsi
    · rfl
  have hl := hs.index.link_all (show bitmapOf s.snapshot (toLex (domain, family)) = _ from ho.symm) ips.toList
  have hse := getElem_setOwners_insert (s.setReverse (ips.toList.foldl (link (toLex (domain, family))
    (s.bitmapFor family domain)) s.reverse)) family domain
      { ips := ips, bitmap := s.bitmapFor family domain, expiresAt := expiresAt, sequence := sequence,
        expirySequence := sequence, evictionSequence := sequence }
  have hno : ∀ ip, ¬ s.Owns (toLex (domain, family)) ip := by
    rintro ip ⟨current, hc, -⟩
    cases hn.symm.trans hc
  have how := hl.congr (Sets.owns (s := s) hse (fun member ip hne => by simp [hne]) fun ip => by simp [hno])
  exact ⟨.recomputed hs (fun _ _ _ hc => Sets.bitmaps (s := s) hse hs ho hc) how rfl
    (fun ip hnot => getElem_link_all hnot), .recomputed rfl rfl rfl rfl⟩

end

section

variable {s : DesiredState N}

section

variable (s : DesiredState N) (entry : EvictionEntry N)

def evictionWeight : ℕ :=
  if ((s.owners entry.family)[entry.domain]?).any (fun owner => owner.sequence != entry.sequence) then 2 else 1

def evictionWork : ℕ := (s.evictionOrder.map s.evictionWeight).sum

theorem evictionWork_le : s.evictionWork ≤ 2 * s.evictionOrder.length := by
  have hl := sum_le_card_nsmul (s.evictionOrder.map s.evictionWeight) 2 (fun weight hw => by
    obtain ⟨entry, -, rfl⟩ := mem_map.mp hw
    unfold evictionWeight
    split <;> omega)
  rw [length_map, smul_eq_mul] at hl
  rw [evictionWork]
  omega

theorem evictionWeight_pos : 0 < s.evictionWeight entry := by
  unfold evictionWeight
  split <;> omega

theorem evictionWork_push : (s.pushEviction entry).evictionWork = s.evictionWeight entry + s.evictionWork := by
  have hpe := ((perm_orderedInsert EvictionEntry.before entry s.evictionOrder).map s.evictionWeight).sum_eq
  rwa [map_cons, sum_cons] at hpe

end

theorem evictionWeight_setOwner {next : DomainOwner} (ho : (s.owners family)[domain]? = some owner) (hs : next.sequence = owner.sequence) :
    (s.setOwners family ((s.owners family).insert domain next)).evictionWeight = s.evictionWeight := by
  funext entry
  unfold evictionWeight
  rw [getElem_setOwners_insert]
  split
  · rename_i he
    rw [he.1, he.2, ho, any_some, any_some, hs]
  · rfl

theorem exists_popEviction (fuel : ℕ) (s : DesiredState N) (hf : s.evictionWork < fuel) :
    ∃ s' evicted, popEviction fuel s = some (s', evicted) ∧ Quiet s s' := by
  induction fuel generalizing s with
  | zero => omega
  | succ fuel ih =>
    unfold popEviction
    split
    · exact ⟨s, none, rfl, .refl s⟩
    rename_i candidate rest hor
    have hw : s.evictionWork = s.evictionWeight candidate + (rest.map s.evictionWeight).sum := by
      rw [evictionWork, hor, map_cons, sum_cons]
    have hpos := evictionWeight_pos s candidate
    have hq : Quiet s { s with evictionOrder := rest } := .of_owners_eq rfl rfl rfl rfl rfl rfl
    have hg : ∀ t, Quiet s t → t.evictionWork < fuel → ∃ s' evicted, popEviction fuel t = some (s', evicted) ∧ Quiet s s' := by
      intro t ht hl
      obtain ⟨s', evicted, hpo, hq'⟩ := ih t hl
      exact ⟨s', evicted, hpo, ht.trans hq'⟩
    have hsk := hg _ hq (by change (rest.map s.evictionWeight).sum < fuel; omega)
    dsimp only
    split
    · exact hsk
    rename_i owner ho
    split
    · exact hsk
    split
    · exact ⟨_, _, rfl, hq⟩
    rename_i hsa hs
    -- The owner goes back under its own sequence, under which it will be the oldest when it comes again.
    have hse := quiet_setOwner { s with evictionOrder := rest } ho { owner with evictionSequence := owner.sequence } rfl rfl
    refine hg _ ((hq.trans hse).trans (quiet_pushEviction _ _)) ?_
    have hpu : s.evictionWeight { candidate with sequence := owner.sequence } = 1 := by simp [evictionWeight, ho]
    have htw : s.evictionWeight candidate = 2 := by simp [evictionWeight, ho, hs]
    rw [evictionWork_push, evictionWork, evictionWeight_setOwner (s := { s with evictionOrder := rest }) ho (by rfl)]
    change s.evictionWeight _ + (rest.map s.evictionWeight).sum < fuel
    omega

theorem Coherent.evictOldest (hs : Coherent s) : Ends s s.evictOldest := by
  obtain ⟨popped, evicted, hpo, hq⟩ := exists_popEviction (2 * s.evictionOrder.length + 1) s (Nat.lt_succ_of_le (evictionWork_le s))
  unfold DesiredState.evictOldest
  rw [hpo]
  cases evicted with
  | none => exact ⟨popped, rfl, hs.quiet hq, hq.settles⟩
  | some owner => exact ((hs.quiet hq).removeOwner owner.1 owner.2).after hq.settles

theorem Coherent.replace (hs : Coherent s) (family : IpVersion) (domain : N) (ips : List IpAddr) (expiresAt : ℕ) :
    Ends s (s.replace family domain ips expiresAt) := by
  have hq : Quiet s { s with sequence := (s.sequence + 1) % 2 ^ 64 } := .of_owners_eq rfl rfl rfl rfl rfl rfl
  have hs' := hs.quiet hq
  have he : ∀ t, Coherent t → Settles s t → Ends s (if t.compactOwnerHeapsIfNeeded.ownerCount ≤
      t.compactOwnerHeapsIfNeeded.capacity then some t.compactOwnerHeapsIfNeeded
      else t.compactOwnerHeapsIfNeeded.evictOldest) := by
    intro t ht hse
    have hco := ht.quiet (quiet_compact t)
    have hse' := hse.trans (quiet_compact t).settles
    split
    · exact ⟨_, rfl, hco, hse'⟩
    · exact hco.evictOldest.after hse'
  unfold DesiredState.replace
  dsimp only
  split
  · rename_i owner ho
    split
    · have hr := quiet_reschedule { s with sequence := (s.sequence + 1) % 2 ^ 64 } ho expiresAt ((s.sequence + 1) % 2 ^ 64)
      have ha := (hq.trans hr).trans (quiet_compact _)
      exact ⟨_, rfl, hs.quiet ha, ha.settles⟩
    obtain ⟨t, ht, hc, hse⟩ := hs'.replaceExisting ho (ExtTreeSet.ofList (ips.map toCanonical)) expiresAt
      ((s.sequence + 1) % 2 ^ 64)
    rw [ht]
    exact he t hc (hq.settles.trans hse)
  rename_i hn
  obtain ⟨hc, hse⟩ := hs'.insertOwner hn (ExtTreeSet.ofList (ips.map toCanonical)) expiresAt ((s.sequence + 1) % 2 ^ 64)
  exact he _ hc (hq.settles.trans hse)

end

section

variable {s : DesiredState N}

section

variable (s : DesiredState N) (now : ℕ)

def due : ℕ := s.expiryDeadlines.countP fun deadline => deadline.expiresAt ≤ now

theorem due_le : s.due now ≤ s.expiryDeadlines.length := countP_le_length

theorem prune_le : s.pruneStaleExpiryHeads.expiryDeadlines.length ≤ s.expiryDeadlines.length ∧
      s.pruneStaleExpiryHeads.due now ≤ s.due now :=
  ⟨(dropWhile_sublist _).length_le, (dropWhile_sublist _).countP_le⟩

theorem length_allOwners : s.allOwners.length = s.ownerCount := by
  simp [allOwners, ownerCount, ExtTreeMap.length_toList]

theorem compact_counts : s.compactOwnerHeapsIfNeeded.ownerCount = s.ownerCount ∧
    s.compactOwnerHeapsIfNeeded.expiryDeadlines.length ≤ max s.expiryDeadlines.length s.ownerCount := by
  have hpr := (prune_le s 0).1
  unfold compactOwnerHeapsIfNeeded
  dsimp only
  split
  · exact ⟨rfl, le_max_of_le_left hpr⟩
  refine ⟨?_, ?_⟩
  · simp [rebuildHeaps, ownerCount, pruneStaleExpiryHeads, ExtTreeMap.size_map]
  · simp only [rebuildHeaps, length_insertionSort, length_map, length_allOwners]
    exact le_max_right _ _

end

theorem ownerCount_erase (ho : (s.owners family)[domain]? = some owner) :
    (s.setOwners family ((s.owners family).erase domain)).ownerCount + 1 = s.ownerCount := by
  have hc : (s.owners family).contains domain = true := by
    rw [ExtTreeMap.contains_eq_isSome_getElem?, ho]
    rfl
  have hpo : 0 < (s.owners family).size := by
    by_contra hz
    have he : s.owners family = ∅ := ExtTreeMap.eq_empty_iff_size_eq_zero.mpr (by omega)
    rw [he] at hc
    simp at hc
  have hs : ((s.owners family).erase domain).size = (s.owners family).size - 1 := by rw [ExtTreeMap.size_erase, if_pos hc]
  cases family with
  | v4 | v6 =>
    simp only [ownerCount, owners_setOwners, if_true, hs, reduceCtorEq, if_false]
    omega

theorem removeOwner_counts (ho : (s.owners family)[domain]? = some owner) (h : s.removeOwner family domain = some s') :
    s'.ownerCount + 1 = s.ownerCount ∧ s'.expiryDeadlines.length ≤ max s.expiryDeadlines.length s.ownerCount := by
  unfold removeOwner at h
  rw [ho] at h
  obtain ⟨reverse, -, rfl⟩ := map_eq_some_iff.mp h
  obtain ⟨desired, dirty, heq⟩ := exists_recomputeIps
    ((s.setOwners family ((s.owners family).erase domain)).setReverse reverse) owner.ips.toList
  rw [heq]
  obtain ⟨hc, hl⟩ := compact_counts { (s.setOwners family ((s.owners family).erase domain)).setReverse reverse with
    desired := desired, dirtyIps := dirty }
  have he := ownerCount_erase ho
  change _ = (s.setOwners family ((s.owners family).erase domain)).ownerCount at hc
  change _ ≤ max s.expiryDeadlines.length (s.setOwners family ((s.owners family).erase domain)).ownerCount at hl
  exact ⟨by rw [hc]; exact he, hl.trans (max_le_max_left _ (by omega))⟩

theorem exists_expireLoop (now bound : ℕ) (fuel : ℕ) (s : DesiredState N) (hs : Coherent s)
    (hl : s.expiryDeadlines.length ≤ bound) (hc : s.ownerCount ≤ bound) (hf : s.ownerCount * (bound + 1) + s.due now < fuel) :
    Ends s (expireLoop now fuel s) := by
  induction fuel generalizing s with
  | zero => omega
  | succ fuel ih =>
    -- A round that keeps the owners goes on with fewer deadlines that are due.
    have hg : ∀ t : DesiredState N, Quiet s t → t.expiryDeadlines.length ≤ bound → t.ownerCount = s.ownerCount →
        t.due now < s.due now → Ends s (expireLoop now fuel t.pruneStaleExpiryHeads) := by
      intro t hq hle how hdu
      have hpr := prune_le t now
      have ha := hq.trans (quiet_prune t)
      exact (ih t.pruneStaleExpiryHeads (hs.quiet ha) (by omega) (by change t.ownerCount ≤ bound; omega)
        (by change t.ownerCount * (bound + 1) + _ < fuel; rw [how]; omega)).after ha.settles
    unfold expireLoop
    split
    · exact ⟨s, rfl, hs, .refl s⟩
    rename_i deadline rest hd
    rw [hd, length_cons] at hl
    split
    · exact ⟨s, rfl, hs, .refl s⟩
    rename_i hn
    have hdu : s.due now = rest.countP (fun deadline => deadline.expiresAt ≤ now) + 1 := by
      rw [due, hd, countP_cons_of_pos (by simpa using hn)]
    have hq : Quiet s { s with expiryDeadlines := rest } := .of_owners_eq rfl rfl rfl rfl rfl rfl
    have hr : ({ s with expiryDeadlines := rest } : DesiredState N).due now < s.due now := by
      change rest.countP _ < _
      omega
    dsimp only
    split
    · exact hg _ hq (by change rest.length ≤ bound; omega) rfl hr
    rename_i owner ho
    split
    · exact hg _ hq (by change rest.length ≤ bound; omega) rfl hr
    split
    · obtain ⟨t, ht, hco, hse⟩ := (hs.quiet hq).removeOwner deadline.family deadline.domain
      obtain ⟨hless, hle⟩ := removeOwner_counts (s := { s with expiryDeadlines := rest }) ho ht
      change t.ownerCount + 1 = s.ownerCount at hless
      change _ ≤ max rest.length s.ownerCount at hle
      have hpr := prune_le t now
      have hdu' := due_le t.pruneStaleExpiryHeads now
      have hb := hle.trans (max_le (by omega) hc)
      rw [ht]
      refine (ih t.pruneStaleExpiryHeads (hco.quiet (quiet_prune t)) (by omega)
        (by change t.ownerCount ≤ bound; omega) ?_).after ((hq.settles.trans hse).trans (quiet_prune t).settles)
      change t.ownerCount * (bound + 1) + _ < fuel
      have hm : s.ownerCount * (bound + 1) = t.ownerCount * (bound + 1) + (bound + 1) := by
        rw [← hless, Nat.add_mul, Nat.one_mul]
      omega
    rename_i hli
    have hpe := perm_orderedInsert DeadlineEntry.before { deadline with expiresAt := owner.expiresAt } rest
    refine hg _ (hq.trans (quiet_pushDeadline _ _)) ?_ rfl ?_
    · change (rest.orderedInsert _ _).length ≤ bound
      rw [hpe.length_eq, length_cons]
      omega
    change (rest.orderedInsert _ _).countP _ < _
    rw [hpe.countP_eq, countP_cons_of_neg (by simpa using hli), hdu]
    omega

theorem Coherent.expire (hs : Coherent s) (now : ℕ) : Ends s (s.expire now) := by
  have hpr := prune_le s now
  have hd := due_le s.pruneStaleExpiryHeads now
  obtain ⟨t, ht, hc, hse⟩ := exists_expireLoop now (max s.expiryDeadlines.length s.ownerCount) s.expiryFuel
    s.pruneStaleExpiryHeads (hs.quiet (quiet_prune s)) (hpr.1.trans (le_max_left _ _)) (le_max_right _ _) (by
      change s.ownerCount * _ + _ < _
      have hm := le_max_left s.expiryDeadlines.length s.ownerCount
      rw [expiryFuel, Nat.add_mul, Nat.one_mul]
      omega)
  unfold DesiredState.expire
  rw [ht, map_some]
  exact ⟨_, rfl, hc.quiet (quiet_compact t), ((quiet_prune s).settles.trans hse).trans (quiet_compact t).settles⟩

theorem Coherent.observe (hs : Coherent s) (observation : Observation N) (now : ℕ) : Ends s (s.observe observation now) := by
  obtain ⟨t, ht, hc, hse⟩ := hs.expire now
  unfold DesiredState.observe
  rw [ht]
  refine Ends.after hse ?_
  cases observation with
  | positive domain family ips expiresAt =>
    dsimp only
    split
    · exact hc.replace family domain ips expiresAt
    · exact hc.removeOwner family domain
  | clear domain family => exact hc.removeOwner family domain
  | clearName domain =>
    obtain ⟨u, hu, hc', hse'⟩ := hc.removeOwner .v4 domain
    dsimp only
    rw [hu]
    exact (hc'.removeOwner .v6 domain).after hse'
  | retain => exact ⟨t, rfl, hc, .refl t⟩

end

end DesiredState

end Honk.Projection
