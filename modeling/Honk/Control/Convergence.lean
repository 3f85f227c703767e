import Honk.Control.Health

namespace Honk.Control

open Honk.Group Honk.Lib List Function

def Handler.Announces (alive : AliveDialerSet) (key : HealthUpdateKey) : Handler → Prop
  | .idle => False
  | .flipped report => report.key = key ∧ shouldNotify alive report = true
  | .checked report => report.key = key ∧ shouldNotify alive report = true
  | .resolved report outbound => outbound.isSome = true ∧ report.key = key ∧ shouldNotify alive report = true
  | .notifying report _ => report.key = key

def Owed (s : HealthPlane) (ls : ℕ → Handler) (key : HealthUpdateKey) : Prop :=
  (∃ i, (ls i).Announces s.alive key) ∨ key ∈ s.pending ∨ key ∈ s.updates

def Tracks (config : Config) (health : Health) (owed : ℕ → HealthUpdateKey → Prop)
    (bit : ℕ → Group → ProbeDomain → IpVersion → Bool) : Prop :=
  ∀ index group, config.groups[index]? = some group → ∀ domain ipver, bit index group domain ipver =
        groupDatapathAlive group (.ofConfig config) health domain ipver ∨
      ∃ id, (GroupManager.ofConfig config).groupReachesNode group.name id = true ∧ owed index (id, domain, ipver)

def activeOwed (s : HealthPlane) (ls : ℕ → Handler) (index : ℕ) (key : HealthUpdateKey) : Prop :=
  Owed s ls key ∨ ∃ p, s.publishing = some p ∧ p.key = key ∧ (p.index < index ∨ p.index = index ∧ p.computed = none)

def activeBit (s : HealthPlane) (index : ℕ) (_ : Group) (domain : ProbeDomain) (ipver : IpVersion) : Bool :=
  match s.publishing with
  | some ⟨key, next, some bit⟩ =>
    if next = index ∧ key.2 = (domain, ipver) then bit
    else s.kernel (userBase + index, domain, ipver)
  | _ => s.kernel (userBase + index, domain, ipver)

def ActiveTracks (start : Config) (s : HealthPlane) (ls : ℕ → Handler) : Prop :=
  0 < s.generation ∨ StartsOpen start → Tracks s.config s.alive.isAliveFor (activeOwed s ls) (activeBit s)

/-- From its snapshot on, a reload has the candidate's bits tracked in place of the active ones. -/
def PhaseTracks (start : Config) (s : HealthPlane) (ls : ℕ → Handler) : ReloadPhase → Prop
  | .snapshotted config snapshot | .opened config snapshot =>
    ∃ health, snapshot = groupConnectivitySnapshot config (.ofConfig config) health ∧
      Tracks config s.alive.isAliveFor (fun _ => Owed s ls)
        fun _ group => groupDatapathAlive group (.ofConfig config) health
  | .published config =>
    Tracks config s.alive.isAliveFor (fun _ => Owed s ls)
      fun index _ domain ipver => s.kernel (userBase + index, domain, ipver)
  | _ => ActiveTracks start s ls

def Handler.report? : Handler → Option Report
  | .idle => none
  | .flipped report => some report
  | .checked report => some report
  | .resolved report _ => some report
  | .notifying report _ => some report

structure HealthInvariant (start : Config) (s : HealthPlane) (ls : ℕ → Handler) : Prop where
  map : s.outboundIdMap = buildOutboundIdMap s.config
  immortal : ∀ key, isBuiltin key.1 → s.alive.health key = true
  mortal : ∀ i report, (ls i).report? = some report → ¬ isBuiltin report.node
  unlocked : s.publishing ≠ none → s.reload.holdsLocks = false
  removing : ∀ registering removing, s.reload = .syncing registering removing →
    ∀ id ∈ removing, ∀ node ∈ healthCheckTargets s.config, node.id ≠ id
  tracks : PhaseTracks start s ls s.reload

section

variable {config : Config} {alive alive' : AliveDialerSet} {owed owed' : ℕ → HealthUpdateKey → Prop}
  {bit bit' : ℕ → Group → ProbeDomain → IpVersion → Bool}

theorem Tracks.step (h : Tracks config alive.isAliveFor owed bit)
    (hst : ∀ index group, config.groups[index]? = some group → ∀ domain ipver, bit' index group domain ipver =
          groupDatapathAlive group (.ofConfig config) alive'.isAliveFor domain ipver ∨
        bit' index group domain ipver = bit index group domain ipver ∧
          ∀ id, (GroupManager.ofConfig config).groupReachesNode group.name id = true →
            alive'.health (id, domain, ipver) ≠ alive.health (id, domain, ipver) ∨ owed index (id, domain, ipver) →
            owed' index (id, domain, ipver)) : Tracks config alive'.isAliveFor owed' bit' := by
  intro index group hg domain ipver
  rcases hst index group hg domain ipver with hri | ⟨hb, ho⟩
  · exact .inl hri
  rcases h index group hg domain ipver with he | ⟨id, hr, hid⟩
  · by_cases hs : ∀ id, (GroupManager.ofConfig config).groupReachesNode group.name id = true →
        alive'.health (id, domain, ipver) = alive.health (id, domain, ipver)
    · left
      rw [hb, he]
      exact groupDatapathAlive_congr fun id hr => (hs id hr).symm
    · right
      obtain ⟨id, hid⟩ := not_forall.mp hs
      obtain ⟨hr, hn⟩ := Classical.not_imp.mp hid
      exact ⟨id, hr, ho id hr (.inl hn)⟩
  · exact .inr ⟨id, hr, ho id hr (.inr hid)⟩

theorem Tracks.owe (h : Tracks config alive.isAliveFor owed bit) (ho : ∀ index group, config.groups[index]? = some group → ∀ key,
      (GroupManager.ofConfig config).groupReachesNode group.name key.1 = true →
        alive'.health key ≠ alive.health key ∨ owed index key → owed' index key) : Tracks config alive'.isAliveFor owed' bit :=
  h.step fun index group hg _ _ => .inr ⟨rfl, fun _ hr => ho index group hg _ hr⟩

end

section

variable {s s' : HealthPlane} {l l' : Handler}

variable {alive alive' : AliveDialerSet} {report : Report} {key : HealthUpdateKey}

theorem shouldNotify_congr (ha : alive'.registeredArc report.node = alive.registeredArc report.node)
    (hh : alive'.health report.key = alive.health report.key) : shouldNotify alive' report = shouldNotify alive report := by
  rw [shouldNotify, shouldNotify, hh, Report.isCurrent, Report.isCurrent, ha]

theorem Handler.Announces.congr (h : l.Announces alive key) (hs : ∀ report, l.awaiting = some report → report.key = key →
      shouldNotify alive' report = shouldNotify alive report) : l.Announces alive' key := by
  cases l with
  | idle => exact h
  | flipped report | checked report => exact ⟨h.1, (hs report rfl h.1).trans h.2⟩
  | resolved report outbound => exact ⟨h.1, h.2.1, (hs report rfl h.2.1).trans h.2.2⟩
  | notifying report outbound => exact h

structure Reported (s : HealthPlane) (l : Handler) (s' : HealthPlane) (l' : Handler) : Prop where
  frame : s' = { s with alive := s'.alive, pending := s'.pending }
  pending : s.pending ⊆ s'.pending
  registered : s'.alive.registered = s.alive.registered
  news : ∀ key, s'.alive.health key ≠ s.alive.health key →
    l'.Announces s'.alive key ∧ (s'.alive.health key = false → ¬ isBuiltin key.1)
  announced : ∀ key, l.Announces s.alive key → l'.Announces s'.alive key ∨ key ∈ s'.pending ∨
      s.reload.holdsLocks = false ∧ s.outboundIdMap key.1 = none
  report : ∀ report, l'.report? = some report → l.report? = some report ∨ s.alive.health report.key = (!report.alive) ∧
      (report.alive = false → ¬ isBuiltin report.node)

theorem Reported.begun (hf : AliveDialerSet.Flip s.alive report.key report.alive result)
    (hc : result.2 = true → report.isCurrent s.alive = true) :
    Reported s .idle (begun s result report).1 (begun s result report).2 := by
  obtain ⟨alive', changed⟩ := result
  refine ⟨rfl, subset_rfl, hf.registered, fun key hne => ?_, nofun, fun report' h => ?_⟩
  · have hk : key = report.key := by
      by_contra ho
      exact hne (hf.others key ho)
    subst hk
    cases changed with
    | false => exact absurd (hf.unchanged rfl) hne
    | true =>
      have ha := (hf.flipped rfl).2
      have hn : report.isCurrent alive' = report.isCurrent s.alive := by
        have hr := hf.registered
        rw [Report.isCurrent, Report.isCurrent, AliveDialerSet.registeredArc, AliveDialerSet.registeredArc, AliveDialerSet.registration,
          AliveDialerSet.registration, hr]
      refine ⟨⟨rfl, ?_⟩, fun hd => hf.mortal rfl (ha.symm.trans hd)⟩
      rw [shouldNotify, show (Control.begun s (alive', true) report).1.alive = alive' from rfl,
        hn, hc rfl, ha, Bool.true_and, beq_self_eq_true]
  cases changed with
  | false => cases h
  | true =>
    cases h
    exact .inr ⟨(hf.flipped rfl).1, hf.mortal rfl⟩

theorem Reported.of_continued {pending : Finset HealthUpdateKey} (hpe : s.pending ⊆ pending)
    (ha : ∀ key, l.Announces s.alive key → l'.Announces s.alive key ∨ key ∈ pending ∨
        s.reload.holdsLocks = false ∧ s.outboundIdMap key.1 = none)
    (hr : ∀ report, l'.report? = some report → l.report? = some report) :
    Reported s l { s with pending := pending } l' :=
  ⟨rfl, hpe, rfl, fun _ hn => absurd rfl hn, ha, fun report h => .inl (hr report h)⟩

theorem reportStep_reported (h : reportStep s l event = some (s', l')) : Reported s l s' l' := by
  revert h
  fun_cases reportStep s l event with
  | case1 node captured domain ipver success grace =>
    rintro ⟨⟩
    refine .begun (AliveDialerSet.applyProbeResultState_flip ..) fun ha => ?_
    exact decide_eq_true (AliveDialerSet.registeredArc_of_applied ha)
  | case2 node domain ipver grace =>
    rintro ⟨⟩
    exact .begun (AliveDialerSet.reportUnavailableTrafficState_flip ..) fun _ => rfl
  | case3 node domain ipver =>
    rintro ⟨⟩
    exact .begun (AliveDialerSet.reportAvailableTrafficState_flip ..) fun _ => rfl
  | case4 node domain ipver grace =>
    rintro ⟨⟩
    exact .begun (AliveDialerSet.markUnavailableState_flip ..) fun _ => rfl
  | case5 node domain ipver =>
    rintro ⟨⟩
    exact .begun (AliveDialerSet.recordProbeLatencyState_flip ..) fun _ => rfl
  | case6 report =>
    rintro ⟨⟩
    refine .of_continued subset_rfl (fun key hk => .inl ?_) fun report' h => ?_
    · rw [if_pos hk.2]
      exact hk
    split_ifs at h
    · exact h
    · cases h
  | case8 report hl =>
    rintro ⟨⟩
    refine .of_continued subset_rfl (fun key hk => ?_) fun _ h => h
    cases hm : s.outboundIdMap report.node with
    | some outbound => exact .inl ⟨rfl, hk⟩
    | none =>
      obtain ⟨rfl, -⟩ := hk
      exact .inr (.inr ⟨Bool.eq_false_iff.mpr hl, hm⟩)
  | case9 report outbound =>
    rintro ⟨⟩
    refine .of_continued subset_rfl (fun key hk => .inl ?_) fun report' h => ?_
    · rw [if_pos hk.2.2]
      exact hk.2.1
    split_ifs at h
    · exact h
    · cases h
  | case10 report =>
    rintro ⟨⟩
    exact .of_continued subset_rfl (fun _ hk => absurd hk.1 (by simp)) nofun
  | case11 report outbound =>
    rintro ⟨⟩
    refine .of_continued (Finset.subset_insert _ _) (fun key hk => .inr (.inl ?_)) nofun
    exact hk ▸ Finset.mem_insert_self _ _
  | _ => exact nofun

theorem Reported.owed (h : Reported s l s' l') (hl : ls i = l) (hk : s'.alive.health key ≠ s.alive.health key ∨ Owed s ls key) :
    Owed s' (Function.update ls i l') key ∨ s.reload.holdsLocks = false ∧ s.outboundIdMap key.1 = none := by
  have hse : l'.Announces s'.alive key → Owed s' (Function.update ls i l') key := fun hn => .inl ⟨i, by rwa [update_self]⟩
  by_cases hsa : s'.alive.health key = s.alive.health key
  · rcases hk.resolve_left (not_not_intro hsa) with ⟨j, hj⟩ | hpe | hu
    · by_cases hji : j = i
      · subst hji
        rcases h.announced key (hl ▸ hj) with hs | hpe | hlo
        · exact .inl (hse hs)
        · exact .inl (.inr (.inl hpe))
        · exact .inr hlo
      · refine .inl (.inl ⟨j, ?_⟩)
        rw [update_of_ne hji]
        refine hj.congr fun report _ hr => shouldNotify_congr ?_ (hr ▸ hsa)
        rw [AliveDialerSet.registeredArc, AliveDialerSet.registeredArc,
          AliveDialerSet.registration, AliveDialerSet.registration, h.registered]
    · exact .inl (.inr (.inl (h.pending hpe)))
    · have hf : s'.updates = s.updates := by rw [h.frame]
      exact .inl (.inr (.inr (hf ▸ hu)))
  · exact .inl (hse (h.news key hsa).1)

end

section

variable {start : Config} {s s' : HealthPlane} {ls ls' : ℕ → Handler}

variable {phase : ReloadPhase} {key : HealthUpdateKey} {id : NodeId}

theorem PhaseTracks.active (h : PhaseTracks start s ls phase) (hl : phase.holdsLocks = false) : ActiveTracks start s ls := by
  cases phase <;> first | exact h | cases hl

theorem PhaseTracks.of_active (h : ActiveTracks start s ls) (hl : phase.holdsLocks = false) : PhaseTracks start s ls phase := by
  cases phase <;> first | exact h | cases hl

theorem PhaseTracks.owe (h : PhaseTracks start s ls phase) (hc : s'.config = s.config)
    (hk : s'.kernel = s.kernel) (hpu : s'.publishing = s.publishing)
    (hg : s'.generation = s.generation) (ha : phase.holdsLocks = false → ∀ group ∈ s.config.groups, ∀ key,
      s.manager.groupReachesNode group.name key.1 = true → s'.alive.health key ≠ s.alive.health key ∨ Owed s ls key → Owed s' ls' key)
    (hl : phase.holdsLocks = true → ∀ key, s'.alive.health key ≠ s.alive.health key ∨ Owed s ls key → Owed s' ls' key) :
    PhaseTracks start s' ls' phase := by
  have hb : activeBit s' = activeBit s := by
    funext index group domain ipver
    rw [activeBit, activeBit, hk, hpu]
  have hs (ho : ∀ group ∈ s.config.groups, ∀ key, s.manager.groupReachesNode group.name key.1 = true →
        s'.alive.health key ≠ s.alive.health key ∨ Owed s ls key → Owed s' ls' key)
      (h : ActiveTracks start s ls) : ActiveTracks start s' ls' := by
    intro hst
    rw [hg] at hst
    rw [hb, hc]
    refine (h hst).owe fun index group hgr key hr hke => ?_
    have hm := mem_of_getElem? hgr
    rcases hke with hn | how | ⟨p, hp, hca⟩
    · exact .inl (ho group hm key hr (.inl hn))
    · exact .inl (ho group hm key hr (.inr how))
    · exact .inr ⟨p, hpu.trans hp, hca⟩
  cases phase with
  | none | installed | syncing registering removing => exact hs (ha rfl) h
  | locked config => exact hs (fun _ _ key _ => hl rfl key) h
  | snapshotted config snapshot | opened config snapshot =>
    obtain ⟨health, hsn, ht⟩ := h
    exact ⟨health, hsn, ht.owe fun _ _ _ key _ => hl rfl key⟩
  | published config =>
    have ht := Tracks.owe h fun _ _ _ key _ => hl rfl key
    rw [← hk] at ht
    exact ht

theorem HealthInvariant.report (inv : HealthInvariant start s ls)
    (h : Reported s (ls i) s' l') : HealthInvariant start s' (Function.update ls i l') := by
  have hf := h.frame
  have hc : s'.config = s.config := by rw [hf]
  have hr : s'.reload = s.reload := by rw [hf]
  refine ⟨?_, fun key hk => ?_, fun j report hj => ?_, ?_, ?_, ?_⟩
  · rw [hf]
    exact inv.map
  · by_contra hd
    have hn : s'.alive.health key ≠ s.alive.health key := by
      rw [inv.immortal key hk]
      exact hd
    exact (h.news key hn).2 (Bool.eq_false_iff.mpr hd) hk
  · by_cases hji : j = i
    · subst hji
      rw [update_self] at hj
      rcases h.report report hj with hb | ⟨hw, hm⟩
      · exact inv.mortal j report hb
      cases ha : report.alive with
      | false => exact hm ha
      | true =>
        intro hbu
        rw [ha, inv.immortal report.key hbu] at hw
        cases hw
    · rw [update_of_ne hji] at hj
      exact inv.mortal j report hj
  · rw [hf]
    exact inv.unlocked
  · rw [hf]
    exact inv.removing
  rw [hr]
  refine inv.tracks.owe hc (by rw [hf]) (by rw [hf]) (by rw [hf]) (fun _ group _ key hre hk => ?_) (fun hl key hk => ?_)
  · refine (h.owed rfl hk).resolve_right fun hlo => ?_
    have hs := buildOutboundIdMap_isSome hre
    rw [← inv.map, hlo.2] at hs
    cases hs
  refine (h.owed rfl hk).resolve_right fun hlo => ?_
  rw [hl] at hlo
  cases hlo.1

theorem HealthInvariant.publishing (inv : HealthInvariant start s ls)
    (hp : s.publishing = some p) {publishing : Option Publishing} {kernel : Connectivity}
    (hst : ∀ index group, s.config.groups[index]? = some group → ∀ domain ipver,
      let s' := { s with kernel := kernel, publishing := publishing }
      activeBit s' index group domain ipver = groupDatapathAlive group s.manager s.alive.isAliveFor domain ipver ∨
        activeBit s' index group domain ipver = activeBit s index group domain ipver ∧
          ∀ id, s.manager.groupReachesNode group.name id = true → p.key = (id, domain, ipver) →
            (p.index < index ∨ p.index = index ∧ p.computed = none) →
            ∃ p', publishing = some p' ∧ p'.key = p.key ∧ (p'.index < index ∨ p'.index = index ∧ p'.computed = none)) :
    HealthInvariant start { s with kernel := kernel, publishing := publishing } ls := by
  have hl : s.reload.holdsLocks = false := inv.unlocked (by rw [hp]; nofun)
  refine ⟨inv.map, inv.immortal, inv.mortal, fun _ => hl, inv.removing, .of_active (fun hs => ?_) hl⟩
  refine Tracks.step (inv.tracks.active hl hs) fun index group hg domain ipver => ?_
  rcases hst index group hg domain ipver with hr | ⟨hsa, ho⟩
  · exact .inl hr
  refine .inr ⟨hsa, fun id hre hk => ?_⟩
  rcases hk with hn | how | ⟨q, hq, hk, hc⟩
  · exact absurd rfl hn
  · exact .inl how
  obtain rfl : p = q := Option.some.inj (hp.symm.trans hq)
  obtain ⟨p', hp', hk', hc'⟩ := ho id hre hk hc
  exact .inr ⟨p', hp', hk'.trans hk, hc'⟩

theorem publisherStep_invariant (inv : HealthInvariant start s ls) (h : publisherStep s event = some s') : HealthInvariant start s' ls := by
  revert h
  fun_cases publisherStep s event with
  | case1 hid =>
    rintro ⟨⟩
    refine ⟨inv.map, inv.immortal, inv.mortal, inv.unlocked, inv.removing, ?_⟩
    have ho (key : HealthUpdateKey) (hk : Owed s ls key) : Owed { s with pending := ∅, updates := s.pending } ls key := by
      rcases hk with ha | hpe | hu
      · exact .inl ha
      · exact .inr (.inr hpe)
      · rw [hid.1] at hu
        exact absurd hu (Finset.notMem_empty _)
    exact inv.tracks.owe rfl rfl rfl rfl (fun _ _ _ key _ hk => ho key (hk.resolve_left (not_not_intro rfl)))
      (fun _ key hk => ho key (hk.resolve_left (not_not_intro rfl)))
  | case3 key hre =>
    rintro ⟨⟩
    obtain ⟨-, hn, hl⟩ := hre
    refine ⟨inv.map, inv.immortal, inv.mortal, fun _ => hl, inv.removing, .of_active (fun hs => ?_) hl⟩
    refine Tracks.step (inv.tracks.active hl hs) fun index group _ domain ipver => ?_
    refine .inr ⟨?_, fun id _ hk => ?_⟩
    · rw [activeBit, activeBit, hn]
    rcases hk with hne | (ha | hpe | hu) | ⟨p, hp, -⟩
    · exact absurd rfl hne
    · exact .inl (.inl ha)
    · exact .inl (.inr (.inl hpe))
    · by_cases hse : (id, domain, ipver) = key
      · exact .inr ⟨_, rfl, hse.symm, (Nat.eq_zero_or_pos index).symm.imp_right fun hz => ⟨hz.symm, rfl⟩⟩
      · exact .inl (.inr (.inr (Finset.mem_erase.mpr ⟨hse, hu⟩)))
    · rw [hn] at hp
      cases hp
  | case5 key next hp group hg hreaches bit =>
    rintro ⟨⟩
    refine inv.publishing hp fun index group' hg' domain ipver => ?_
    by_cases hsl : next = index ∧ key.2 = (domain, ipver)
    · left
      obtain ⟨rfl, hk⟩ := hsl
      obtain rfl : group = group' := Option.some.inj (hg.symm.trans hg')
      simp only [activeBit, bit, hk, and_self, ↓reduceIte]
    right
    refine ⟨?_, fun id _ hk hc => ?_⟩
    · simp only [activeBit, hp, hsl, ↓reduceIte]
    · refine ⟨_, rfl, rfl, .inl (hc.resolve_right fun hse => hsl ⟨hse.1, ?_⟩)⟩
      exact congrArg Prod.snd hk
  | case6 key next hp group hg hreaches =>
    rintro ⟨⟩
    refine inv.publishing hp fun index group' hg' domain ipver => ?_
    refine .inr ⟨by rw [activeBit, activeBit, hp], fun id hr hk hc => ?_⟩
    have hnext : next ≠ index := by
      rintro rfl
      obtain rfl : group = group' := Option.some.inj (hg.symm.trans hg')
      exact hreaches (by rw [show key.1 = id from congrArg Prod.fst hk]; exact hr)
    have hlt : next < index := hc.resolve_right fun hse => hnext hse.1
    exact ⟨_, rfl, rfl, (Nat.lt_or_eq_of_le hlt).imp_right fun heq => ⟨heq, rfl⟩⟩
  | case7 key next hp he =>
    rintro ⟨⟩
    refine inv.publishing hp fun index group' hg' domain ipver => ?_
    refine .inr ⟨by rw [activeBit, activeBit, hp], fun id hr hk hc => ?_⟩
    have hle := List.getElem?_eq_none_iff.mp he
    have hlt := (List.getElem?_eq_some_iff.mp hg').1
    rcases hc with hlt' | ⟨heq, -⟩
    · exact absurd (hle.trans hlt'.le) hlt.not_ge
    · exact absurd (heq ▸ hle) hlt.not_ge
  | case9 key next bit hp =>
    rintro ⟨⟩
    refine inv.publishing hp fun index group hg domain ipver => .inr ⟨?_, ?_⟩
    · simp only [activeBit, hp, update_apply, Prod.mk.injEq, Nat.add_left_cancel_iff]
      simp only [eq_comm]
    intro id _ _ hc
    have hlt : next < index := hc.resolve_right nofun
    exact ⟨_, rfl, rfl, (Nat.lt_or_eq_of_le hlt).imp_right fun heq => ⟨heq, rfl⟩⟩
  | _ => exact nofun

theorem writeSlots_all (writes : List (Slot × Bool)) (i : ℕ) (bits : Connectivity) :
    (writeSlots (fun _ => true) writes i bits).1 = true := by
  induction writes generalizing i bits with
  | nil => rfl
  | cons write writes ih =>
    rw [writeSlots, if_pos rfl]
    exact ih _ _

theorem mem_groupConnectivitySnapshot (hg : config.groups[index]? = some group) (domain : ProbeDomain) (ipver : IpVersion) :
    ((userBase + index, domain, ipver), groupDatapathAlive group manager health domain ipver) ∈
      groupConnectivitySnapshot config manager health := by
  have hs : (userBase + index, domain, ipver) ∈ groupSlots index := by
    cases domain <;> cases ipver <;> simp [groupSlots, probeDomains, ipVersions]
  exact mem_flatMap.mpr ⟨(group, index), mk_mem_zipIdx_iff_getElem?.mpr hg, mem_map.mpr ⟨_, hs, rfl⟩⟩

variable {reload : ReloadPhase}

theorem owed_register {node : Node} (hq : ∀ i report, (ls i).awaiting = some report → report.node = node.id → report.captured = none)
    (h : Owed s ls key) :
    Owed { s with
      alive := s.alive.registerNode node.id node.name node.address, reload := reload } ls key := by
  refine h.imp_left fun ⟨i, hi⟩ => ⟨i, hi.congr fun report hr _ => ?_⟩
  by_cases hn : report.node = node.id
  · have hc := hq i report hr hn
    rw [shouldNotify, shouldNotify, AliveDialerSet.health_registerNode, Report.isCurrent, Report.isCurrent, hc]
  · exact shouldNotify_congr (AliveDialerSet.registeredArc_registerNode_of_ne hn) (AliveDialerSet.health_registerNode ..)

theorem owed_remove (hne : key.1 ≠ id) (h : Owed s ls key) : Owed { s with alive := s.alive.removeNode id, reload := reload } ls key := by
  refine h.imp_left fun ⟨i, hi⟩ => ⟨i, hi.congr fun report _ hk => ?_⟩
  have hn : report.key.1 ≠ id := hk ▸ hne
  refine shouldNotify_congr (AliveDialerSet.registeredArc_removeNode_of_ne hn) ?_
  rw [AliveDialerSet.health_removeNode, if_neg hn]

theorem Handler.Announces.report {alive : AliveDialerSet} {l : Handler} (h : l.Announces alive key) :
    ∃ report, l.report? = some report ∧ report.key = key := by
  cases l with
  | idle => exact absurd h id
  | flipped report | checked report => exact ⟨report, rfl, h.1⟩
  | resolved report outbound => exact ⟨report, rfl, h.2.1⟩
  | notifying report outbound => exact ⟨report, rfl, h⟩

theorem HealthInvariant.remove (inv : HealthInvariant start s ls) {registering : List Node} {removing : List NodeId}
    (hph : s.reload = .syncing registering removing) (hid : id ∈ removing) :
    HealthInvariant start { s with
      alive := s.alive.removeNode id, reload := .syncing registering (removing.erase id) } ls := by
  -- A removed node that some group reaches is a builtin, whose verdict was alive already.
  have hb {group : Group} (hr : s.manager.groupReachesNode group.name id = true) : isBuiltin id := by
    rcases mem_healthCheckTargets hr with hd | hbl | ⟨node, hno, hn⟩
    · exact .inl hd
    · exact .inr hbl
    · exact absurd hn (inv.removing _ _ hph id hid node hno)
  refine ⟨inv.map, fun key hk => ?_, inv.mortal, fun _ => rfl, ?_, ?_⟩
  · rw [AliveDialerSet.health_removeNode]
    split_ifs
    · rfl
    · exact inv.immortal key hk
  · intro registering' removing' h id' hid'
    cases h
    exact inv.removing _ _ hph id' (mem_of_mem_erase hid')
  have ht : PhaseTracks start s ls (.syncing registering (removing.erase id)) :=
    .of_active (inv.tracks.active (by rw [hph]; rfl)) rfl
  refine ht.owe rfl rfl rfl rfl (fun _ group _ key hr hk => ?_) nofun
  by_cases hne : key.1 = id
  · have him : isBuiltin key.1 := hne ▸ hb (hne ▸ hr)
    rcases hk with hc | ⟨i, hi⟩ | hq
    · rw [AliveDialerSet.health_removeNode, if_pos hne, inv.immortal key him] at hc
      exact absurd rfl hc
    · obtain ⟨report, hre, rfl⟩ := hi.report
      exact absurd him (inv.mortal i report hre)
    · exact .inr hq
  · refine owed_remove hne (hk.resolve_left (not_not_intro ?_))
    rw [AliveDialerSet.health_removeNode, if_neg hne]

theorem reloadStep_invariant (inv : HealthInvariant start s ls) {event : ReloadEvent}
    (hq : NotOvertaken s ls (.reload event)) (h : reloadStep s event = some s') : HealthInvariant start s' ls := by
  have ht := inv.tracks
  have hu := inv.unlocked
  revert h
  fun_cases reloadStep s event with
  | case1 config hph hidle =>
    rintro ⟨⟩
    rw [hph] at ht
    exact ⟨inv.map, inv.immortal, inv.mortal, fun hb => absurd hidle hb, nofun, ht⟩
  | case4 config hph | case22 hph =>
    rintro ⟨⟩
    rw [hph] at ht
    exact ⟨inv.map, inv.immortal, inv.mortal, fun _ => rfl, nofun, ht⟩
  | case6 config hph =>
    rintro ⟨⟩
    rw [hph] at hu
    exact ⟨inv.map, inv.immortal, inv.mortal, hu, nofun, s.alive.isAliveFor, rfl, fun _ _ _ _ _ => .inl rfl⟩
  | case8 config snapshot hph =>
    rintro ⟨⟩
    rw [hph] at ht hu
    exact ⟨inv.map, inv.immortal, inv.mortal, hu, nofun, ht⟩
  | case10 config snapshot hph =>
    rintro ⟨⟩
    rw [hph] at ht hu
    obtain ⟨health, rfl, ht⟩ := ht
    refine ⟨inv.map, inv.immortal, inv.mortal, hu, nofun, ?_⟩
    refine Tracks.step ht fun index group hg domain ipver => .inr ⟨?_, ?_⟩
    · exact publishGroupConnectivity_true (snapshot_nodup ..) (writeSlots_all ..) (mem_groupConnectivitySnapshot hg domain ipver)
    · exact fun id _ hk => hk.resolve_left (not_not_intro rfl)
  | case12 config hph =>
    rintro ⟨⟩
    rw [hph] at ht hu
    have hidle : s.publishing = none := by
      by_contra hb
      cases hu hb
    refine ⟨rfl, inv.immortal, inv.mortal, fun _ => rfl, nofun, fun _ => ?_⟩
    refine Tracks.step ht fun index group _ domain ipver => .inr ⟨?_, fun id _ hk => ?_⟩
    · rw [activeBit, hidle]
    · exact .inl (hk.resolve_left (not_not_intro rfl))
  | case14 hph =>
    rintro ⟨⟩
    rw [hph] at ht
    refine ⟨inv.map, inv.immortal, inv.mortal, fun _ => rfl, ?_, ht⟩
    intro registering removing hs id hid node hno hn
    cases hs
    have hf := (mem_filter.mp hid).2
    exact of_decide_eq_true hf (hn ▸ mem_map_of_mem hno)
  | case16 node registering removing hph =>
    rintro ⟨⟩
    replace ht : PhaseTracks start s ls (.syncing (registering.erase node) removing) :=
      .of_active (ht.active (by rw [hph]; rfl)) rfl
    refine ⟨inv.map, fun key hk => ?_, inv.mortal, fun _ => rfl, ?_, ?_⟩
    · rw [AliveDialerSet.health_registerNode]
      exact inv.immortal key hk
    · intro registering' removing' hs
      cases hs
      exact inv.removing _ _ hph
    refine ht.owe rfl rfl rfl rfl (fun _ _ _ key _ hk => ?_) nofun
    refine owed_register hq (hk.resolve_left (not_not_intro ?_))
    exact AliveDialerSet.health_registerNode ..
  | case19 id removing hph hid =>
    rintro ⟨⟩
    exact inv.remove hph hid
  | _ => exact nofun

theorem bootstrapPlane_health (key : HealthUpdateKey) : (bootstrapPlane start).alive.health key = true := by
  suffices ha : ∀ (targets : List Node) (alive : AliveDialerSet), alive.health key = true →
      (targets.foldl (fun alive node => alive.registerNode node.id node.name node.address) alive).health key = true from ha _ _ rfl
  intro targets
  induction targets with
  | nil => exact fun _ h => h
  | cons node targets ih =>
    intro alive h
    exact ih _ ((AliveDialerSet.health_registerNode ..).trans h)

theorem bootstrapPlane_invariant (start : Config) : HealthInvariant start (bootstrapPlane start) fun _ => .idle := by
  refine ⟨rfl, fun key _ => bootstrapPlane_health key, nofun, nofun, nofun, fun hs => ?_⟩
  intro index group hg domain ipver
  have ho : StartsOpen start := hs.resolve_left (lt_irrefl 0)
  left
  calc true
      = groupDatapathAlive group (.ofConfig start) (fun _ _ _ => true) domain ipver :=
        (ho group (mem_of_getElem? hg) domain ipver).symm
    _ = groupDatapathAlive group (.ofConfig start) (bootstrapPlane start).alive.isAliveFor
          domain ipver :=
        groupDatapathAlive_congr fun id _ => (bootstrapPlane_health (id, domain, ipver)).symm

theorem healthInvariant_reachable (h : (healthSystem start).ReachableWhile NotOvertaken s ls) : HealthInvariant start s ls := by
  induction h with
  | init => exact bootstrapPlane_invariant start
  | step s s' ls i event l' _ hq hs ih =>
    cases event with
    | report event => exact ih.report (reportStep_reported hs)
    | publisher event =>
      obtain ⟨s'', hs'', he⟩ := Option.map_eq_some_iff.mp hs
      cases he
      rw [update_eq_self]
      exact publisherStep_invariant ih hs''
    | reload event =>
      obtain ⟨s'', hs'', he⟩ := Option.map_eq_some_iff.mp hs
      cases he
      rw [update_eq_self]
      exact reloadStep_invariant ih hq hs''
  | reclaim s s' ls _ hs _ => exact hs.elim

end

/-- Once everything has settled the kernel's bits are those of the groups, as long as no node was
registered again before a probe's flip of it was announced. -/
theorem healthSystem_converges (start : Config) {s : HealthPlane} {ls : ℕ → Handler}
    (h : (healthSystem start).ReachableWhile NotOvertaken s ls) (hquiet : Quiescent s ls)
    (hstart : 0 < s.generation ∨ StartsOpen start) : Converged s := by
  obtain ⟨hid, hr, hpe, hu, hpu⟩ := hquiet
  have ht := (healthInvariant_reachable h).tracks
  rw [hr] at ht
  intro index group hg domain ipver
  rcases ht hstart index group hg domain ipver with he | ⟨id, -, ho⟩
  · rw [activeBit, hpu] at he
    exact he
  rcases ho with (⟨i, hi⟩ | hm | hm) | ⟨p, hp, -⟩
  · rw [hid i] at hi
    exact hi.elim
  · rw [hpe] at hm
    exact absurd hm (Finset.notMem_empty _)
  · rw [hu] at hm
    exact absurd hm (Finset.notMem_empty _)
  · rw [hpu] at hp
    cases hp

def leafConfig (name : String) : Config where
  groups := [{ name := "proxy", policy := .selector, nodes := [3], groups := [] }]
  nodes := [⟨3, name, "192.0.2.1:443", .proxy, true⟩]
  ids_nodup := nodup_singleton _

def leafTimeout : HealthEvent := .report (.probe 3 (some 0) .dataUdp .v4 false false)

def committedReload (config : Config) : List HealthEvent :=
  [.reload (.start config), .reload .snapshot, .reload .openSlots, .reload .publish, .reload .install]

def announcement : List HealthEvent :=
  [.report .check, .report .resolve, .report .recheck, .report .callback, .publisher .take,
    .publisher (.start (3, .dataUdp, .v4)), .publisher .recompute, .publisher .write,
    .publisher .recompute]

def HealthPlane.settled (s : HealthPlane) : Bool :=
  (match s.reload with | .none => true | _ => false) && s.pending = ∅ && s.updates = ∅ && s.publishing = none

def HealthEvent.registers : HealthEvent → Bool
  | .reload (.register _) => true
  | _ => false

theorem notOvertaken_of_not_registers (h : event.registers = false) : NotOvertaken s ls event := by
  cases event with
  | report event => trivial
  | publisher event => trivial
  | reload event => cases event <;> first | exact True.intro | cases h

theorem quiescent_of_run {start : Config} {events : List HealthEvent} {s : HealthPlane} {ls : ℕ → Handler}
    (hru : (healthSystem start).run (events.map fun event => (0, event))
      ((healthSystem start).init, fun _ => (healthSystem start).idle) = some (s, ls))
    (hid : ls 0 = .idle) (hs : s.settled = true) : Quiescent s ls := by
  obtain ⟨⟨⟨hr, hpe⟩, hu⟩, hpu⟩ :
      (((match s.reload with | .none => true | _ => false) = true ∧ s.pending = ∅) ∧ s.updates = ∅) ∧ s.publishing = none := by
    simpa [HealthPlane.settled] using hs
  refine ⟨fun i => ?_, ?_, hpe, hu, hpu⟩
  · by_cases hi : i = 0
    · rw [hi, hid]
    · refine System.run_frame _ hru fun entry he => ?_
      obtain ⟨event, -, rfl⟩ := mem_map.mp he
      exact fun h => hi h.symm
  · cases hph : s.reload <;> rw [hph] at hr <;> first | rfl | cases hr

theorem healthSystem_converges_leaf : ∃ s ls, (healthSystem (leafConfig "leaf")).ReachableWhile NotOvertaken s ls ∧ Quiescent s ls ∧
      0 < s.generation ∧ s.kernel (2, .dataUdp, .v4) = false ∧ Converged s := by
  let events := committedReload (leafConfig "leaf") ++
    [.reload .startSync, .reload .finish, leafTimeout, leafTimeout, leafTimeout] ++ announcement
  have ha : ((healthSystem (leafConfig "leaf")).run (events.map fun event => (0, event))
      ((healthSystem (leafConfig "leaf")).init, fun _ => .idle)).any (fun (s, ls) =>
        ls 0 = .idle && s.settled && 0 < s.generation && s.kernel (2, .dataUdp, .v4) = false) = true := by decide +kernel
  obtain ⟨⟨s, ls⟩, hru, hen⟩ := (Option.any_eq_true _ _).mp ha
  obtain ⟨⟨⟨hid, hs⟩, hg⟩, hb⟩ : ((ls 0 = .idle ∧ s.settled = true) ∧ 0 < s.generation) ∧ s.kernel (2, .dataUdp, .v4) = false := by
    simpa using hen
  have he : ∀ event ∈ events, event.registers = false := by decide +kernel
  have hr : (healthSystem (leafConfig "leaf")).ReachableWhile NotOvertaken s ls := by
    refine System.ReachableWhile.run _ .init (fun entry hentry s ls => ?_) hru
    obtain ⟨event, hev, rfl⟩ := mem_map.mp hentry
    exact notOvertaken_of_not_registers (he event hev)
  have hq := quiescent_of_run hru hid hs
  exact ⟨s, ls, hr, hq, hg, hb, healthSystem_converges _ hr hq (.inl hg)⟩

theorem healthSystem_overtaken : StartsOpen (leafConfig "leaf") ∧ ∃ s ls,
    (healthSystem (leafConfig "leaf")).Reachable s ls ∧ Quiescent s ls ∧ ¬ Converged s := by
  refine ⟨fun group hg domain ipver => ?_, ?_⟩
  · obtain rfl := mem_singleton.mp hg
    cases domain <;> cases ipver <;> decide +kernel
  let events := leafTimeout :: leafTimeout :: committedReload (leafConfig "renamed") ++ [leafTimeout, .reload .startSync,
      .reload (.register ⟨3, "renamed", "192.0.2.1:443", .proxy, true⟩), .reload .finish,
      .report .check]
  have ha : ((healthSystem (leafConfig "leaf")).run (events.map fun event => (0, event))
      ((healthSystem (leafConfig "leaf")).init, fun _ => .idle)).any (fun (s, ls) =>
        ls 0 = .idle && s.settled && s.config.groups[0]?.any fun group =>
          s.kernel (userBase + 0, .dataUdp, .v4) ≠ groupDatapathAlive group s.manager s.alive.isAliveFor .dataUdp .v4) = true := by
    decide +kernel
  obtain ⟨⟨s, ls⟩, hr, he⟩ := (Option.any_eq_true _ _).mp ha
  obtain ⟨⟨hid, hs⟩, hg⟩ : (ls 0 = .idle ∧ s.settled = true) ∧ s.config.groups[0]?.any (fun group =>
        s.kernel (userBase + 0, .dataUdp, .v4) ≠ groupDatapathAlive group s.manager s.alive.isAliveFor .dataUdp .v4) = true := by
    simpa using he
  obtain ⟨group, hg, hb⟩ := (Option.any_eq_true _ _).mp hg
  exact ⟨s, ls, System.Reachable.run _ .init hr, quiescent_of_run hr hid hs,
    fun hc => of_decide_eq_true hb (hc 0 group hg .dataUdp .v4)⟩

end Honk.Control
