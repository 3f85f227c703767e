import Honk.Dns.Effect

namespace Honk.Dns

open Honk.Lib List

variable {K : Type}

def Event.isFence : Event K → Bool
  | .began _ | .reopened _ => true
  | _ => false

def fenced : List (Event K) → ℕ
  | [] => 0
  | event :: earlier => if event.isFence then earlier.length + 1 else fenced earlier

def latest [DecidableEq K] (key : K) : List (Event K) → Option ℕ
  | [] => none
  | .published publication :: earlier => if publication.key = key then publication.revision else latest key earlier
  | _ :: earlier => latest key earlier

variable {log : List (Event K)}

theorem fenced_cons_of_not (h : event.isFence = false) : fenced (event :: log) = fenced log := by
  rw [fenced, h]
  rfl

theorem fenced_le : fenced log ≤ log.length := by
  induction log with
  | nil => exact le_rfl
  | cons event earlier ih =>
    rw [fenced]
    split
    · exact le_rfl
    · exact ih.trans (Nat.le_succ _)

theorem lt_fenced (h : event.isFence = true) (later older : List (Event K)) : older.length < fenced (later ++ event :: older) := by
  induction later with
  | nil =>
    rw [nil_append, fenced, if_pos h]
    exact Nat.lt_succ_self _
  | cons first later ih =>
    rw [cons_append, fenced]
    split
    · simp only [length_append, length_cons]
      omega
    · exact ih

theorem split_cons (h : event :: log = later ++ mark :: older) : event = mark ∧ log = older ∨ ∃ later', log = later' ++ mark :: older := by
  obtain ⟨-, he⟩ | ⟨later', -, he⟩ := cons_eq_append_iff.mp h
  · obtain ⟨rfl, rfl⟩ := List.cons.inj he
    exact .inl ⟨rfl, rfl⟩
  · exact .inr ⟨later', he⟩

variable [DecidableEq K]

def Event.Fresh (event : Event K) (earlier : List (Event K)) : Prop :=
  ∀ publication, event = .published publication →
    fenced earlier ≤ publication.captured ∧ (∀ r, publication.refreshing = some r → latest publication.key earlier = some r) ∧
      ∀ r, publication.revision = some r → ∀ other r', .published other ∈ earlier → other.revision = some r' → r' < r

theorem mem_of_latest {key : K} {r : ℕ} (h : latest key log = some r) :
    ∃ publication, .published publication ∈ log ∧ publication.revision = some r := by
  induction log with
  | nil => cases h
  | cons event earlier ih =>
    have ht : latest key earlier = some r → ∃ publication, .published publication ∈ event :: earlier ∧ publication.revision = some r :=
      fun ht => (ih ht).imp fun _ hf => ⟨mem_cons_of_mem _ hf.1, hf.2⟩
    cases event with
    | published publication =>
      rw [latest] at h
      split at h
      · exact ⟨publication, mem_cons_self, h⟩
      · exact ht h
    | _ => exact ht h

theorem latest_injective {key key' : K} {r : ℕ} (hf : Always Event.Fresh log) (h : latest key log = some r)
    (h' : latest key' log = some r) : key = key' := by
  induction log with
  | nil => cases h
  | cons event earlier ih =>
    cases event with
    | published publication =>
      -- a revision that is new here is not the latest of another key
      have hn : publication.revision = some r → ∀ other, latest other earlier ≠ some r := by
        intro hr other ho
        obtain ⟨older, hm, hre⟩ := mem_of_latest ho
        exact lt_irrefl r ((hf.1 publication rfl).2.2 r hr older r hm hre)
      rw [latest] at h h'
      split at h
      · split at h'
        · rename_i he he'
          exact he.symm.trans he'
        · exact absurd h' (hn h key')
      split at h'
      · exact absurd h (hn h' key)
      · exact ih hf.2 h h'
    | _ => exact ih hf.2 h h'

def Since (key : K) (published : ℕ) (log : List (Event K)) : Prop :=
  ∀ later older, log = later ++ .denied key :: older → ∀ publication, .published publication ∈ older → publication.revision ≠ some published

def Event.Current (key : K) (event : Event K) (earlier : List (Event K)) : Prop :=
  ∀ published, event = .served key published → Since key published earlier

def CacheInvalidation.bySlot : CacheInvalidation → Bool
  | .id _ => false
  | _ => true

namespace Service

variable (setting : Setting K)

structure Kept (service : Service K) : Prop where
  history : Always Event.Fresh service.log
  drawn : ∀ publication r, .published publication ∈ service.log → publication.revision = some r → r < service.nextRevision
  latest : ∀ key value, service.peek setting key = some value → latest key service.log = some value.revision
  reopened : ∀ later older selection, service.log = later ++ .reopened selection :: older → ∀ key value,
    service.peek setting key = some value → setting.selects key value selection = true →
      older.length < value.captured ∧ (selection.bySlot = true → ∀ entry, value.positive = some entry → older.length < entry.captured)
  current : ∀ key, service.spared key = false → Always (Event.Current key) service.log
  since : ∀ key, service.spared key = false → ∀ entry, service.Holds setting key entry → Since key entry.published service.log

variable {setting} {service service' : Service K} {key : K} {publication : Publication K}

theorem selects_eq (h : value'.revision = value.revision) : setting.selects key value' selection = setting.selects key value selection := by
  cases selection with
  | all => rfl
  | id id =>
    unfold Setting.selects
    rw [h]
  | name name types => rfl

theorem Shrinks.holds (h : Shrinks setting service service') (hh : service'.Holds setting key entry) : service.Holds setting key entry := by
  obtain ⟨found, hf, hpo⟩ := hh
  obtain ⟨value, hv, hr⟩ := h key found hf
  exact ⟨value, hv, hr.entry hpo⟩

theorem Kept.shrink (h : Kept setting service) (hs : Shrinks setting service service') (hn : service'.nextRevision = service.nextRevision)
    (hl : service'.log = service.log) (hsp : service'.spared = service.spared) : Kept setting service' where
  history := hl ▸ h.history
  drawn := hl ▸ hn ▸ h.drawn
  latest key found hf := by
    obtain ⟨value, hv, hr⟩ := hs key found hf
    rw [hl, hr.revision]
    exact h.latest key value hv
  reopened later older selection hsplit key found hf hse := by
    obtain ⟨value, hv, hr⟩ := hs key found hf
    rw [selects_eq hr.revision] at hse
    obtain ⟨hc, he⟩ := h.reopened later older selection (hl ▸ hsplit) key value hv hse
    exact ⟨hr.captured ▸ hc, fun hsl entry hpo => he hsl entry (hr.entry hpo)⟩
  current := hl ▸ hsp ▸ h.current
  since key hk entry hh := by
    rw [hl]
    exact h.since key (hsp ▸ hk) entry (hs.holds hh)

theorem Kept.record (h : Kept setting service) (hsh : service'.shards = service.shards)
    (hn : service'.nextRevision = service.nextRevision) (hlo : service'.log = event :: service.log)
    (hs : ∀ key, service'.spared key = false → service.spared key = false) (hpu : ∀ publication, event ≠ .published publication)
    (hr : ∀ selection, event = .reopened selection → ∀ key value, service.peek setting key = some value →
      setting.selects key value selection = false)
    (hd : ∀ key, event = .denied key → service'.spared key = false → ∀ entry, ¬service'.Holds setting key entry)
    (hserved : ∀ key published, event = .served key published → service.spared key = false → Since key published service.log) :
    Kept setting service' := by
  have hpe : ∀ key, service'.peek setting key = service.peek setting key := fun key => by
    unfold peek shard
    rw [hsh]
  refine ⟨?_, ?_, ?_, ?_, ?_, ?_⟩
  · rw [hlo]
    exact ⟨fun publication heq => absurd heq (hpu publication), h.history⟩
  · intro publication r hm
    rw [hlo] at hm
    rw [hn]
    exact h.drawn publication r ((mem_cons.mp hm).resolve_left fun heq => hpu publication heq.symm)
  · intro key value hv
    rw [hlo]
    refine Eq.trans ?_ (h.latest key value (hpe key ▸ hv))
    cases event with
    | published publication => exact absurd rfl (hpu publication)
    | _ => rfl
  · intro later older selection hsp key value hv hse
    rw [hpe] at hv
    obtain ⟨heq, -⟩ | ⟨later', hl⟩ := split_cons (hlo.symm.trans hsp)
    · exact absurd ((hr selection heq key value hv).symm.trans hse) Bool.false_ne_true
    · exact h.reopened later' older selection hl key value hv hse
  · intro key hk
    rw [hlo]
    exact ⟨fun published heq => hserved key published heq (hs key hk), h.current key (hs key hk)⟩
  intro key hk entry hh later older hsp
  obtain ⟨heq, -⟩ | ⟨later', hl⟩ := split_cons (hlo.symm.trans hsp)
  · exact absurd hh (hd key heq hk entry)
  · obtain ⟨value, hv, he⟩ := hh
    exact h.since key (hs key hk) entry ⟨value, hpe key ▸ hv, he⟩ later' older hl

theorem latest_published : Dns.latest publication.key (.published publication :: log) = publication.revision := by
  rw [Dns.latest, if_pos rfl]

theorem latest_published_of_ne (h : key ≠ publication.key) : Dns.latest key (.published publication :: log) = Dns.latest key log := by
  rw [Dns.latest, if_neg h.symm]

theorem Kept.publish (h : Kept setting service) (hpu : Publishes setting service service' publication)
    (hc : fenced service.log ≤ publication.captured)
    (hlo : service'.log = .published publication :: service.log) (hsp : service'.spared = service.spared) :
    Kept setting service' := by
  have hn : ∀ later older (event : Event K), event.isFence = true → service.log = later ++ event :: older →
      older.length < publication.captured := fun later older event hfe hs =>
    (lt_fenced hfe later older).trans_le (hs ▸ hc)
  have ho : ∀ later older selection, service'.log = later ++ .reopened selection :: older →
      ∃ later', service.log = later' ++ .reopened selection :: older := by
    intro later older selection hs
    obtain ⟨heq, -⟩ | hl := split_cons (hlo.symm.trans hs)
    · cases heq
    · exact hl
  refine ⟨?_, ?_, ?_, ?_, ?_, ?_⟩
  · rw [hlo]
    refine ⟨?_, h.history⟩
    rintro _ ⟨⟩
    refine ⟨hc, fun r hr => ?_, fun r hr other r' hm hr' => ?_⟩
    · obtain ⟨value, hv, rfl⟩ := hpu.refreshing r hr
      exact h.latest _ value hv
    · rw [(hpu.revision r hr).1]
      exact h.drawn other r' hm hr'
  · intro other r hm hr
    rw [hlo] at hm
    obtain heq | hm := mem_cons.mp hm
    · cases heq
      exact (hpu.revision r hr).2
    · exact (h.drawn other r hm hr).trans_le hpu.next
  · intro key found hf
    rw [hlo]
    by_cases hk : key = publication.key
    · subst hk
      rw [latest_published]
      exact (hpu.slot found hf).1
    · rw [latest_published_of_ne hk]
      exact h.latest key found (hpu.others key found hk hf)
  · intro later older selection hs key found hf hse
    obtain ⟨later', hl⟩ := ho later older selection hs
    by_cases hk : key = publication.key
    · subst hk
      have ha := hn later' older (.reopened selection) rfl hl
      refine ⟨(hpu.slot found hf).2 ▸ ha, fun hsl entry he => ?_⟩
      obtain ⟨-, hca⟩ | ⟨value, hv, hpo⟩ := hpu.answer found entry hf he
      · exact hca ▸ ha
      -- the key alone decides, so the old slot was selected as well
      have hold : setting.selects publication.key value selection = true := by
        cases selection with
        | all => rfl
        | id id => cases hsl
        | name name types => exact hse
      exact (h.reopened later' older selection hl _ value hv hold).2 hsl entry hpo
    · exact h.reopened later' older selection hl key found (hpu.others key found hk hf) hse
  · intro key hk
    rw [hlo]
    exact ⟨nofun, h.current key (hsp ▸ hk)⟩
  rintro key hk entry ⟨found, hf, he⟩ later older hs other hm
  rw [hsp] at hk
  obtain ⟨heq, -⟩ | ⟨later', hl⟩ := split_cons (hlo.symm.trans hs)
  · cases heq
  by_cases hsa : key = publication.key
  · subst hsa
    obtain ⟨hpublished, -⟩ | hh := hpu.answer found entry hf he
    · intro hre
      have hlt := h.drawn other _ (hl ▸ mem_append_right _ (mem_cons_of_mem _ hm)) hre
      rw [hpublished] at hlt
      have heq := (hpu.revision _ (hpu.slot found hf).1).1
      omega
    · exact h.since _ hk entry hh later' older hl other hm
  · exact h.since key hk entry ⟨found, hpu.others key found hsa hf, he⟩ later' older hl other hm

theorem Kept.ran (h : Kept setting service) {epoch captured : ℕ} (hr : Ran setting service service' key epoch captured)
    (hf : epoch = service.epoch → fenced service.log ≤ captured) : Kept setting service' := by
  have hcu : service.admits epoch = true → epoch = service.epoch := fun ha =>
    (of_decide_eq_true (Bool.and_eq_true_iff.mp ha).2).symm
  cases hr with
  | refused he => exact he ▸ h
  | published publication hk hc ha hpu hfr hl hs =>
    exact h.publish hpu (hc ▸ hf (hcu ha)) hl hs
  | denied publication hk hc ha hpu hfr hl hs hg =>
    -- the publication first, then the note that it was an NXDOMAIN
    let middle : Service K := { service' with log := .published publication :: service.log, spared := service.spared }
    have hm : Kept setting middle := h.publish ⟨hpu.revision, hpu.next, hpu.refreshing, hpu.others, hpu.slot, hpu.answer⟩
      (hc ▸ hf (hcu ha)) rfl rfl
    refine hm.record rfl rfl hl hs nofun nofun ?_ nofun
    rintro _ ⟨⟩ hkept
    exact hg hkept

end Service

section

variable (setting : Setting K)

def Task.mutates : Task K → Bool
  | .reserving _ | .scanning _ _ | .persisting _ | .returning => true
  | _ => false

def Service.Captured (service : Service K) (epoch captured : ℕ) : Prop :=
  epoch ≤ service.epoch ∧ (epoch = service.epoch → fenced service.log ≤ captured)

def Task.Relies (service : Service K) : Task K → Prop
  | .idle => True
  | .resolving context => service.Captured context.epoch context.captured
  | .restoring epoch captured => service.Captured epoch captured
  | .reserving _ | .returning => service.mutation = true
  | .scanning selection index => service.mutation = true ∧ service.accepting = false ∧ ∀ key value, service.peek setting key = some value →
      setting.shardIndex key < index → setting.selects key value selection = false
  | .persisting selection => service.mutation = true ∧ service.accepting = false ∧ ∀ key value, service.peek setting key = some value →
      setting.selects key value selection = false

variable {setting} {service service' : Service K} {task task' : Task K}

structure Service.Mild (setting : Setting K) (service service' : Service K) : Prop extends Service.Frame service service' where
  fenced : fenced service'.log = fenced service.log
  slots : service.accepting = false → Service.Shrinks setting service service'

variable {epoch captured : ℕ} {key : K}

theorem Service.Captured.keep (h : service.Captured epoch captured) (he : service'.epoch = service.epoch)
    (hf : fenced service'.log = fenced service.log) : service'.Captured epoch captured := by
  unfold Service.Captured
  rw [he, hf]
  exact h

theorem Service.Captured.turn (h : service.Captured epoch captured) (he : service'.epoch = service.epoch + 1) :
    service'.Captured epoch captured := by
  refine ⟨by rw [he]; exact h.1.trans (Nat.le_succ _), fun heq => ?_⟩
  have := h.1
  omega

theorem Task.Relies.mild (h : task.Relies setting service) (hm : service.Mild setting service') : task.Relies setting service' := by
  have hs : ∀ (index : ℕ) (selection : CacheInvalidation), service.accepting = false →
      (∀ key value, service.peek setting key = some value → setting.shardIndex key < index → setting.selects key value selection = false) →
      ∀ key value, service'.peek setting key = some value → setting.shardIndex key < index → setting.selects key value selection = false := by
    intro index selection ha hold key found hf hin
    obtain ⟨value, hv, hr⟩ := hm.slots ha key found hf
    rw [Service.selects_eq hr.revision]
    exact hold key value hv hin
  cases task with
  | idle => trivial
  | resolving context | restoring epoch captured => exact Service.Captured.keep h hm.epoch hm.fenced
  | reserving selection | returning => exact hm.mutation.trans h
  | scanning selection index => exact ⟨hm.mutation.trans h.1, hm.accepting.trans h.2.1, hs index selection h.2.1 h.2.2⟩
  | persisting selection =>
    refine ⟨hm.mutation.trans h.1, hm.accepting.trans h.2.1, fun key value hv => ?_⟩
    exact hs (setting.shardIndex key + 1) selection h.2.1 (fun key value hv _ => h.2.2 key value hv) key value hv
      (Nat.lt_succ_self _)

inductive Disturbs (setting : Setting K) (service service' : Service K) (task task' : Task K) : Prop
  | mild (h : service.Mild setting service') (hmutates : task'.mutates = true → task.mutates = true)
  | turn (hcaptured : ∀ epoch captured, service.Captured epoch captured → service'.Captured epoch captured)
      (hexclusive : task.mutates = true ∨ service.mutation = false)

theorem Task.Relies.disturbed {other : Task K} (h : other.Relies setting service) (ha : ¬(task.mutates = true ∧ other.mutates = true))
    (hs : Disturbs setting service service' task task') :
    other.Relies setting service' ∧ ¬(task'.mutates = true ∧ other.mutates = true) := by
  have hl : other.mutates = true → service.mutation = true := by
    intro hm
    cases other with
    | reserving selection | returning => exact h
    | scanning selection index | persisting selection => exact h.1
    | _ => cases hm
  cases hs with
  | mild hmi hm => exact ⟨h.mild hmi, fun hb => ha ⟨hm hb.1, hb.2⟩⟩
  | turn hc he =>
    have ho : other.mutates ≠ true := fun hm => he.elim (fun ht => ha ⟨ht, hm⟩) fun hf => nomatch hf.symm.trans (hl hm)
    refine ⟨?_, fun hb => ho hb.2⟩
    cases other with
    | idle => trivial
    | resolving context | restoring epoch captured => exact hc _ _ h
    | _ => exact absurd rfl ho

structure Steps (setting : Setting K) (service service' : Service K) (task task' : Task K) : Prop where
  kept : Service.Kept setting service'
  relies : task'.Relies setting service'
  disturbs : Disturbs setting service service' task task'

section

variable (h : Service.Reads setting service service')
include h

theorem Service.Reads.mild : service.Mild setting service' :=
  ⟨h.still.toFrame, congrArg fenced h.still.log, fun _ => h.shrinks⟩

theorem Service.Reads.steps (hkept : Service.Kept setting service)
    (hr : task'.Relies setting service) (hm : task'.mutates = true → task.mutates = true) : Steps setting service service' task task' :=
  ⟨hkept.shrink h.shrinks h.still.nextRevision h.still.log h.still.spared, hr.mild h.mild, .mild h.mild hm⟩

omit h in
theorem Service.Reads.refl (service : Service K) : Service.Reads setting service service :=
  ⟨.of_shards rfl, ⟨rfl, rfl, rfl⟩, rfl, rfl, rfl⟩

theorem Service.Reads.served (hkept : Service.Kept setting service)
    (hh : service.Holds setting key entry) (hr : task'.Relies setting service) (hm : task'.mutates = true → task.mutates = true) :
    Steps setting service (service'.record (.served key entry.published)) task task' := by
  have hk' := hkept.shrink h.shrinks h.still.nextRevision h.still.log h.still.spared
  have hmi : service.Mild setting (service'.record (.served key entry.published)) :=
    ⟨⟨h.still.epoch, h.still.accepting, h.still.mutation⟩, (fenced_cons_of_not rfl).trans (congrArg fenced h.still.log), fun _ => h.shrinks⟩
  refine ⟨?_, hr.mild hmi, .mild hmi hm⟩
  refine hk'.record rfl rfl rfl (fun _ => id) nofun nofun nofun ?_
  rintro _ _ ⟨⟩ hspared
  rw [h.still.log]
  exact hkept.since key (h.still.spared ▸ hspared) entry hh

end

variable (h : Service.Ran setting service service' key epoch captured)
include h

theorem Service.Ran.mild : service.Mild setting service' := by
  have ho : service.admits epoch = true → ¬service.accepting = false := fun ha hac =>
    nomatch hac.symm.trans (Bool.and_eq_true_iff.mp ha).1
  cases h with
  | refused he =>
    subst he
    exact (Service.Reads.refl service').mild
  | published publication hk hc ha hpu hf hl hs =>
    exact ⟨hf, by rw [hl]; exact fenced_cons_of_not rfl, fun hac => absurd hac (ho ha)⟩
  | denied publication hk hc ha hpu hf hl hs hg =>
    refine ⟨hf, ?_, fun hac => absurd hac (ho ha)⟩
    rw [hl, fenced_cons_of_not rfl, fenced_cons_of_not rfl]

theorem Service.Ran.steps (hkept : Service.Kept setting service) (hc : service.Captured epoch captured)
    (hr : task'.Relies setting service) (hm : task'.mutates = true → task.mutates = true) :
    Steps setting service service' task task' :=
  ⟨hkept.ran h hc.2, hr.mild h.mild, .mild h.mild hm⟩

end

section

variable {setting : Setting K} {service service' : Service K} {task' : Task K}

theorem Service.captured_now (service : Service K) : service.Captured service.epoch service.log.length := ⟨le_rfl, fun _ => fenced_le⟩

variable {context : Context K} {selection : CacheInvalidation} {key : K} {given : Given K}

theorem step_lookup (hkept : Service.Kept setting service) (hre : service.Captured context.epoch context.captured)
    (hs : step setting service (.resolving context) (.lookup leads) = some (service', task')) :
    Steps setting service service' (.resolving context) task' := by
  rw [step] at hs
  generalize hread : service.lookupExact setting context.key context.strict = result at hs
  obtain ⟨read, found⟩ := result
  have hr := service.lookupExact_reads setting context.key context.strict
  rw [hread] at hr
  split at hs
  · cases hs
  have hs := Option.some.inj hs
  split at hs
  · cases hs
    exact hr.steps hkept trivial nofun
  · rename_i entry revision
    cases hs
    refine hr.served hkept (Service.lookupExact_positive (congrArg Prod.snd hread)) ?_ ?_
    · unfold Context.answered
      split
      · exact hre
      · trivial
    unfold Context.answered
    split
    · nofun
    · nofun
  · cases hs
    exact hr.steps hkept hre nofun

theorem step_stale (hkept : Service.Kept setting service) (hrelies : service.Captured context.epoch context.captured)
    (hs : step setting service (.resolving context) .stale = some (service', task')) :
    Steps setting service service' (.resolving context) task' := by
  rw [step] at hs
  generalize hre : service.getStaleExact setting context.key context.strict = result at hs
  obtain ⟨read, found⟩ := result
  have hr := service.getStaleExact_reads setting context.key context.strict
  rw [hre] at hr
  split at hs
  · cases hs
  have hs := Option.some.inj hs
  split at hs
  · rename_i entry
    cases hs
    exact hr.served hkept (Service.getStaleExact_some (congrArg Prod.snd hre)) trivial nofun
  · cases hs
    exact hr.steps hkept hrelies nofun

theorem Service.Kept.began (h : Service.Kept setting service) (selection : CacheInvalidation) :
    Service.Kept setting (service.beginInvalidation selection) := h.record rfl rfl rfl (fun _ => id) nofun nofun nofun nofun

theorem Service.Kept.reopen (h : Service.Kept setting service)
    (hn : ∀ key value, service.peek setting key = some value → setting.selects key value selection = false) :
    Service.Kept setting (service.reopen selection) := by
  refine h.record rfl rfl rfl (fun _ => id) nofun ?_ nofun nofun
  rintro _ ⟨⟩
  exact hn

theorem peek_foldl_pop (slots : List (K × CacheValue)) (shard : CacheShard K) :
    (slots.foldl (fun shard slot => shard.pop slot.1) shard).peek key = if key ∈ slots.map Prod.fst then none else shard.peek key := by
  induction slots generalizing shard with
  | nil => rfl
  | cons slot slots ih =>
    rw [foldl_cons, ih, CacheShard.peek_pop, map_cons]
    by_cases hf : key = slot.1
    · simp [hf]
    · simp only [hf, if_false, mem_cons, false_or]

theorem mem_of_peek {shard : CacheShard K} {value : CacheValue} (h : shard.peek key = some value) : (key, value) ∈ shard.entries := by
  obtain ⟨slot, hs, rfl⟩ := Option.map_eq_some_iff.mp h
  obtain rfl : slot.1 = key := by simpa using find?_some hs
  exact mem_of_find?_eq_some hs

theorem peek_scanShard {found : CacheValue} (h : (service.scanShard setting selection index).peek setting key = some found) :
    service.peek setting key = some found ∧ (setting.shardIndex key = index → setting.selects key found selection = false) := by
  have hse : ∀ shard : CacheShard K, shard.peek key = some found → setting.selects key found selection = true →
      key ∈ (shard.entries.filter fun slot => setting.selects slot.1 slot.2 selection).map Prod.fst := fun shard hpe hs =>
    mem_map_of_mem (mem_filter.mpr ⟨mem_of_peek hpe, hs⟩)
  unfold Service.scanShard Service.peek Service.shard at h
  dsimp only at h
  by_cases hin : setting.shardIndex key = index
  · subst hin
    rw [Function.update_self] at h
    split at h
    · rw [CacheShard.peek_clear] at h
      cases h
    rw [peek_foldl_pop] at h
    split at h
    · cases h
    rename_i hkept
    refine ⟨h, fun _ => ?_⟩
    by_contra hs
    exact hkept (hse _ h (by simpa using hs))
  · rw [Function.update_of_ne hin] at h
    exact ⟨h, fun he => absurd he hin⟩

section

variable (hkept : Service.Kept setting service)
include hkept

theorem step_scanning (hr : (Task.scanning selection index).Relies setting service)
    (hst : step setting service (.scanning selection index) .go = some (service', task')) :
    Steps setting service service' (.scanning selection index) task' := by
  have hst := Option.some.inj hst
  split at hst
  · cases hst
    have hre : Service.Reads setting service (service.scanShard setting selection index) :=
      ⟨fun key found hf => ⟨found, (peek_scanShard hf).1, .refl⟩, ⟨rfl, rfl, rfl⟩, rfl, rfl, rfl⟩
    refine ⟨hkept.shrink hre.shrinks rfl rfl rfl, ⟨hr.1, hr.2.1, fun key value hv hin => ?_⟩, .mild hre.mild fun _ => rfl⟩
    obtain ⟨hold, hs⟩ := peek_scanShard hv
    obtain hl | he := Nat.lt_succ_iff_lt_or_eq.mp hin
    · exact hr.2.2 key value hold hl
    · exact hs he
  rename_i hd
  cases hst
  have hre : Service.Reads setting service { service with publication := false } := ⟨.of_shards rfl, ⟨rfl, rfl, rfl⟩, rfl, rfl, rfl⟩
  refine hre.steps hkept ⟨hr.1, hr.2.1, fun key value hv => hr.2.2 key value hv ?_⟩ fun _ => rfl
  exact (Nat.mod_lt _ (by unfold Setting.shardCount Setting.capacity maxCacheEntries; omega)).trans_le (not_lt.mp hd)

theorem step_steps (hr : task.Relies setting service)
    (hs : step setting service task given = some (service', task')) : Steps setting service service' task task' := by
  revert hs
  fun_cases step setting service task given with
  | case1 elapsed =>
    rintro ⟨⟩
    have hre : Service.Reads setting service { service with clock := service.clock + elapsed } :=
      ⟨.of_shards rfl, ⟨rfl, rfl, rfl⟩, rfl, rfl, rfl⟩
    exact hre.steps hkept trivial nofun
  | case3 | case12 =>
    rintro ⟨⟩
    exact (Service.Reads.refl service).steps hkept service.captured_now nofun
  | case5 context leads hc read found hread => exact fun hs => step_lookup hkept hr (by rwa [step, if_neg hc, hread])
  | case7 context hc read found hread => exact fun hs => step_stale hkept hr (by rwa [step, if_neg hc, hread])
  | case9 context response rejectedWire =>
    rintro ⟨⟩
    exact (service.ran_store context response rejectedWire).steps hkept hr trivial nofun
  | case10 | case15 =>
    rintro ⟨⟩
    exact (Service.Reads.refl service).steps hkept trivial nofun
  | case14 epoch captured key response minTtl =>
    rintro ⟨⟩
    exact (service.ran_putRestored epoch captured key response minTtl).steps hkept hr hr nofun
  | case17 selection hf =>
    rintro ⟨⟩
    exact ⟨hkept.shrink (.of_shards rfl) rfl rfl rfl, rfl, .turn (fun _ _ h => h.keep rfl rfl) (.inr (by simpa using hf))⟩
  | case18 | case24 =>
    rintro ⟨⟩
    exact ⟨hkept.shrink (.of_shards rfl) rfl rfl rfl, trivial, .turn (fun _ _ h => h.keep rfl rfl) (.inl rfl)⟩
  | case20 selection =>
    rintro ⟨⟩
    exact ⟨hkept.began selection, ⟨hr, rfl, nofun⟩, .turn (fun _ _ h => h.turn rfl) (.inl rfl)⟩
  | case21 selection index => exact step_scanning hkept hr
  | case23 selection =>
    rintro ⟨⟩
    exact ⟨hkept.reopen hr.2.2, hr.1, .turn (fun _ _ h => h.turn rfl) (.inl rfl)⟩
  | _ => exact nofun

end

end

variable (setting : Setting K)

theorem kept_init : Service.Kept setting (system setting).init where
  history := trivial
  drawn := nofun
  latest := nofun
  reopened later _ _ hl := absurd hl.symm (append_ne_nil_of_right_ne_nil later (cons_ne_nil _ _))
  current _ _ := trivial
  since _ _ _ := nofun

theorem invariant_kept : (system setting).Invariant (Service.Kept setting) (Task.Relies setting)
    fun task other => ¬(task.mutates = true ∧ other.mutates = true) where
  symm _ _ h hb := h ⟨hb.2, hb.1⟩
  init := kept_init setting
  idle := trivial
  apart := nofun
  step _ _ _ _ _ hkept hr hs := ⟨(step_steps hkept hr hs).kept, (step_steps hkept hr hs).relies⟩
  others _ _ _ _ _ _ hkept hr ho ha hs := ho.disturbed ha (step_steps hkept hr hs).disturbs
  reclaim _ _ _ _ _ h := h.elim

variable {setting} {service : Service K} {tasks : ℕ → Task K}

theorem kept_of_reachable (h : (system setting).Reachable service tasks) : service.Kept setting := ((invariant_kept setting).reachable h).1

/-- Whatever the order of resolutions, refreshes, restores and invalidations: nothing that was resolved before an
invalidation began is published after it, what an invalidation has returned leaves behind was resolved after it, a
refresh replaces only the publication it started from, and revisions grow and are never shared. -/
theorem publication_fenced (h : (system setting).Reachable service tasks) :
    (∀ later between older selection publication, service.log = later ++ .published publication :: (between ++ .began selection :: older) →
      older.length < publication.captured) ∧
    (∀ later older selection key value, service.log = later ++ .reopened selection :: older → service.peek setting key = some value →
      setting.selects key value selection = true → older.length < value.captured ∧
        (selection.bySlot = true → ∀ entry, value.positive = some entry → older.length < entry.captured)) ∧
    (∀ later older publication r, service.log = later ++ .published publication :: older → publication.refreshing = some r →
      latest publication.key older = some r) ∧
    (∀ later older publication r other r', service.log = later ++ .published publication :: older → publication.revision = some r →
      .published other ∈ older → other.revision = some r' → r' < r) ∧
    ∀ key key' value value', service.peek setting key = some value → service.peek setting key' = some value' →
      value.revision = value'.revision → key = key' := by
  have hkept := kept_of_reachable h
  refine ⟨?_, ?_, ?_, ?_, ?_⟩
  · intro later between older selection publication hl
    exact (lt_fenced rfl between older).trans_le (hkept.history.split hl publication rfl).1
  · intro later older selection key value hl hv hs
    exact hkept.reopened later older selection hl key value hv hs
  · intro later older publication r hl
    exact (hkept.history.split hl publication rfl).2.1 r
  · intro later older publication r other r' hl hr hm hr'
    exact (hkept.history.split hl publication rfl).2.2 r hr other r' hm hr'
  · intro key key' value value' hv hv' he
    exact latest_injective hkept.history (hkept.latest key value hv) (he ▸ hkept.latest key' value' hv')

/-- One slot, and answers that live for half a minute; an NXDOMAIN of thirteen bytes has an SOA of one minute. -/
def oneSlot : Setting Unit where
  maxSize := 1
  shardHash _ := 0
  incarnationId _ := ""
  questionMatches _ _ _ := true
  soaNegativeTtl wire := if wire.length = 13 then some 60 else none
  minTtl _ := 30
  minTtlIncludingZero _ := 30
  rewriteAnswerTtls wire _ := wire
  cacheEnabled := true
  cacheTtl := 0
  fixedTtl _ := none

def somePositive : List Byte := [0, 0, 0, 0, 0, 1, 0, 1, 0, 0, 0, 0]

def someNxdomain : List Byte := [0, 0, 0, 3, 0, 1, 0, 0, 0, 0, 0, 0]

def refreshedThenCleared : List (ℕ × Given Unit) :=
  [(0, .resolve () true true), (0, .answer somePositive none), (0, .time (29 * second)), (0, .resolve () true true), (0, .lookup true),
    (0, .answer somePositive none), (1, .invalidate .all), (1, .go), (1, .go), (1, .go), (1, .go), (1, .go),
    (0, .resolve () true true), (0, .answer somePositive none)]

def refilledLog : List (Event Unit) → Bool
  | [.published _, .reopened _, .began .all, .published _, .served _ _, .published _] => true
  | _ => false

theorem publication_fenced_cleared : ∃ service tasks later between older publication, (system oneSlot).Reachable service tasks ∧
    service.log = later ++ .published publication :: (between ++ .began .all :: older) ∧ older.length = 3 ∧ 3 < publication.captured := by
  obtain ⟨service, tasks, hr, hl⟩ := System.exists_reachable_of_run (system oneSlot) refreshedThenCleared
    (fun config => refilledLog config.1.log) (by decide +kernel)
  dsimp only [refilledLog] at hl
  split at hl
  · rename_i publication selection refresh key revision first hc
    have hs : service.log = [] ++ .published publication :: ([.reopened selection] ++ .began .all ::
      [.published refresh, .served key revision, .published first]) := hc
    exact ⟨service, tasks, [], [.reopened selection], _, publication, hr, hs, rfl, (publication_fenced hr).1 _ _ _ _ _ hs⟩
  · cases hl

/-- An answer expires, an NXDOMAIN with an SOA is published beside it, and once that has expired as well the upstream
fails. -/
def spareThenFail : List (ℕ × Given Unit) :=
  [(0, .resolve () true true), (0, .answer somePositive none), (0, .time (31 * second)), (0, .resolve () true true), (0, .lookup true),
    (0, .answer (someNxdomain ++ [0]) none), (0, .time (61 * second)), (0, .resolve () true true), (0, .lookup true), (0, .stale)]

def staleLog : List (Event Unit) → Bool
  | [.served () 1, .denied (), .published _, .published publication] => publication.revision = some 1
  | _ => false

def clearThenServe : List (ℕ × Given Unit) :=
  [(0, .resolve () true true), (0, .answer somePositive none), (0, .time (31 * second)), (0, .resolve () true true), (0, .lookup true),
    (0, .answer someNxdomain none), (0, .resolve () true true), (0, .lookup true), (0, .answer somePositive none),
    (0, .resolve () true true), (0, .lookup true)]

def renewedLog : List (Event Unit) → Bool
  | [.served () _, .published _, .denied (), .published _, .published _] => true
  | _ => false

end Honk.Dns
