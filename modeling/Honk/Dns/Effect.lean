import Honk.Dns.Cache

namespace Honk.Dns

open Honk.Lib Function Option CacheShard

variable {K : Type} [DecidableEq K] (setting : Setting K)

namespace Service

variable {key : K} {other : K} {shard : CacheShard K}

section

variable {setting} {service : Service K}

theorem peek_setShard : (service.setShard setting key shard).peek setting other =
      if setting.shardIndex other = setting.shardIndex key then shard.peek other else service.peek setting other := by
  unfold peek setShard Service.shard
  dsimp only
  split
  · rename_i he
    rw [he, update_self]
  · rename_i hn
    rw [update_of_ne hn]

theorem shard_peek (h : setting.shardIndex other = setting.shardIndex key) :
    (service.shard setting key).peek other = service.peek setting other := by
  unfold peek Service.shard
  rw [h]

end

def Shrinks (service service' : Service K) : Prop :=
  ∀ key found, service'.peek setting key = some found → ∃ value, service.peek setting key = some value ∧ found.Remains value

variable {setting} {service service' : Service K}

theorem Shrinks.of_shards (h : service'.shards = service.shards) : Shrinks setting service service' := by
  intro key found hf
  refine ⟨found, ?_, .refl⟩
  rw [← hf]
  unfold peek shard
  rw [h]

theorem Shrinks.setShard
    (h : ∀ other found, shard.peek other = some found → ∃ value, (service.shard setting key).peek other = some value ∧ found.Remains value) :
    Shrinks setting service (service.setShard setting key shard) := by
  intro other found hf
  rw [peek_setShard] at hf
  split at hf
  · rename_i he
    obtain ⟨value, hv, hr⟩ := h other found hf
    exact ⟨value, shard_peek he ▸ hv, hr⟩
  · exact ⟨found, hf, .refl⟩

structure Frame (service service' : Service K) : Prop where
  epoch : service'.epoch = service.epoch
  accepting : service'.accepting = service.accepting
  mutation : service'.mutation = service.mutation

structure Still (service service' : Service K) : Prop extends Frame service service' where
  nextRevision : service'.nextRevision = service.nextRevision
  log : service'.log = service.log
  spared : service'.spared = service.spared

structure Reads (setting : Setting K) (service service' : Service K) : Prop where
  shrinks : Shrinks setting service service'
  still : service.Still service'

theorem Reads.setShard
    (h : ∀ other found, shard.peek other = some found → ∃ value, (service.shard setting key).peek other = some value ∧ found.Remains value) :
    Reads setting service (service.setShard setting key shard) :=
  ⟨.setShard h, ⟨rfl, rfl, rfl⟩, rfl, rfl, rfl⟩

theorem remains_get {found : CacheValue} (h : (shard.get key).peek other = some found) :
    ∃ value, shard.peek other = some value ∧ found.Remains value :=
  ⟨found, peek_get shard key other ▸ h, .refl⟩

theorem remains_swept {expired : Bool} {found : CacheValue}
    (h : (if expired then (shard.get key).dropNegative key else shard.get key).peek other = some found) :
    ∃ value, shard.peek other = some value ∧ found.Remains value := by
  split at h
  · obtain ⟨middle, hm, hr⟩ := peek_dropNegative h
    obtain ⟨value, hv, hmo⟩ := remains_get hm
    exact ⟨value, hv, hr.trans hmo⟩
  · exact remains_get h

theorem lookupExact_reads (setting : Setting K) (service : Service K) (key : K) (requireStrict : Bool) :
    Reads setting service (service.lookupExact setting key requireStrict).1 := by
  unfold lookupExact
  dsimp only
  split
  · exact .setShard fun _ _ => remains_get
  rename_i value hv
  split
  · exact .setShard fun _ _ => remains_get
  split
  · exact .setShard fun other found => remains_swept
  split
  · refine .setShard fun other found hf => ?_
    obtain ⟨middle, hm, hr, -⟩ := peek_dropPositive hf
    obtain ⟨value, hv, hmo⟩ := remains_swept hm
    exact ⟨value, hv, hr.trans hmo⟩
  split
  · exact .setShard fun other found => remains_swept
  split
  · exact .setShard fun other found => remains_swept
  · exact .setShard fun other found => remains_swept

def Holds (setting : Setting K) (service : Service K) (key : K) (entry : CachedEntry) : Prop :=
  ∃ value, service.peek setting key = some value ∧ value.positive = some entry

theorem lookupExact_positive
    (h : (service.lookupExact setting key requireStrict).2 = .positive entry revision) : Holds setting service key entry := by
  revert h
  fun_cases lookupExact setting service key requireStrict <;> rintro ⟨⟩
  rename_i value hv _ _ hf _ _ _
  rw [peek_get] at hv
  exact ⟨value, hv, hf⟩

theorem getStaleExact_reads (setting : Setting K) (service : Service K) (key : K) (requireStrict : Bool) :
    Reads setting service (service.getStaleExact setting key requireStrict).1 :=
  .setShard fun _ _ => remains_get

theorem getStaleExact_some (h : (service.getStaleExact setting key requireStrict).2 = some entry) : Holds setting service key entry := by
  unfold getStaleExact at h
  dsimp only at h
  obtain ⟨value, hv, hpo⟩ := bind_eq_some_iff.mp (filter_eq_some_iff.mp (filter_eq_some_iff.mp h).1).1
  rw [peek_get] at hv
  exact ⟨value, hv, hpo⟩

section

structure Publishes (setting : Setting K) (service service' : Service K) (publication : Publication K) : Prop where
  revision : ∀ r, publication.revision = some r → r = service.nextRevision ∧ r < service'.nextRevision
  next : service.nextRevision ≤ service'.nextRevision
  refreshing : ∀ r, publication.refreshing = some r → ∃ value, service.peek setting publication.key = some value ∧ value.revision = r
  others : ∀ key found, key ≠ publication.key → service'.peek setting key = some found → service.peek setting key = some found
  slot : ∀ found, service'.peek setting publication.key = some found →
    publication.revision = some found.revision ∧ found.captured = publication.captured
  answer : ∀ found entry, service'.peek setting publication.key = some found → found.positive = some entry →
    entry.published = found.revision ∧ entry.captured = publication.captured ∨ Holds setting service publication.key entry

variable {publication : Publication K} {key : K} {refreshing : Option ℕ} {shard : CacheShard K} {epoch : ℕ}

theorem Publishes.record (h : Publishes setting service service' publication) (event : Event K) :
    Publishes setting service (service'.record event) publication :=
  ⟨h.revision, h.next, h.refreshing, h.others, h.slot, h.answer⟩

variable {spares : Bool}

theorem Publishes.deny (h : Publishes setting service service' publication) :
    Publishes setting service (service'.deny key spares) publication :=
  ⟨h.revision, h.next, h.refreshing, h.others, h.slot, h.answer⟩

theorem spared_deny : (∀ other, (service.deny key spares).spared other = false → service.spared other = false) ∧
      ((service.deny key spares).spared key = false → spares = false) := by
  unfold Service.deny
  dsimp only
  refine ⟨fun other ho => ?_, fun hk => ?_⟩
  · by_cases he : other = key
    · subst he
      rw [update_self] at ho
      exact (Bool.or_eq_false_iff.mp ho).1
    · rwa [update_of_ne he] at ho
  · rw [update_self] at hk
    exact (Bool.or_eq_false_iff.mp hk).2

theorem refreshing_of_owns (h : (service.shard setting key).owns key refreshing = true) (r : ℕ)
    (hr : refreshing = some r) : ∃ value, service.peek setting key = some value ∧ value.revision = r := by
  subst hr
  obtain ⟨value, hv, ho⟩ := (Option.any_eq_true _ _).mp h
  exact ⟨value, hv, of_decide_eq_true (Bool.and_eq_true_iff.mp ho).1⟩

theorem others_setShard (service : Service K)
    (h : ∀ other found, other ≠ key → shard.peek other = some found → (service.shard setting key).peek other = some found)
    (other : K) (found : CacheValue) (ho : other ≠ key)
    (hf : (service.setShard setting key shard).peek setting other = some found) : service.peek setting other = some found := by
  rw [peek_setShard] at hf
  split at hf
  · rename_i he
    exact shard_peek he ▸ h other found ho hf
  · exact hf

theorem peek_setShard_self (service : Service K) (key : K) : (service.setShard setting key shard).peek setting key = shard.peek key := by
  rw [peek_setShard, if_pos rfl]

theorem publishes_putSlot (key : K) (entry : CachedEntry) (how : (service.shard setting key).owns key refreshing = true)
    (hpu : entry.published = service.nextRevision) : Publishes setting service
      (service.bump.setShard setting key ((service.shard setting key).put key (.ofPositive entry service.nextRevision entry.captured)))
      ⟨key, some service.nextRevision, entry.captured, refreshing⟩ where
  revision r hr := ⟨(Option.some.inj hr).symm, by rw [← Option.some.inj hr]; exact Nat.lt_succ_self _⟩
  next := Nat.le_succ _
  refreshing := refreshing_of_owns how
  others := others_setShard service.bump fun other found ho hf =>
    ((peek_put hf).resolve_left fun h => ho h.1).2
  slot found hf := by
    rw [peek_setShard_self] at hf
    obtain ⟨-, rfl⟩ | ⟨hn, -⟩ := peek_put hf
    · exact ⟨rfl, rfl⟩
    · exact absurd rfl hn
  answer found stored hf hs := by
    rw [peek_setShard_self] at hf
    obtain ⟨-, rfl⟩ | ⟨hn, -⟩ := peek_put hf
    · cases hs
      exact .inl ⟨hpu, rfl⟩
    · exact absurd rfl hn

theorem publishes_putNegative (how : (service.shard setting key).owns key refreshing = true)
    (negative : NegativeEntry) (captured : ℕ) (shard : CacheShard K)
    (hot : ∀ other found, other ≠ key → shard.peek other = some found → (service.shard setting key).peek other = some found)
    (ha : ∀ entry, (shard.peek key).bind CacheValue.positive = some entry → Holds setting service key entry) :
    Publishes setting service (service.bump.setShard setting key (shard.putNegative key negative service.nextRevision captured))
      ⟨key, some service.nextRevision, captured, refreshing⟩ where
  revision r hr := ⟨(Option.some.inj hr).symm, by rw [← Option.some.inj hr]; exact Nat.lt_succ_self _⟩
  next := Nat.le_succ _
  refreshing := refreshing_of_owns how
  others := others_setShard service.bump fun other found ho hf =>
    hot other found ho ((peek_putNegative hf).resolve_left fun h => ho h.1).2
  slot found hf := by
    rw [peek_setShard_self] at hf
    obtain ⟨-, rfl⟩ | ⟨hn, -⟩ := peek_putNegative hf
    · exact ⟨rfl, rfl⟩
    · exact absurd rfl hn
  answer found stored hf hs := by
    rw [peek_setShard_self] at hf
    obtain ⟨-, rfl⟩ | ⟨hn, -⟩ := peek_putNegative hf
    · exact .inr (ha stored hs)
    · exact absurd rfl hn

inductive Ran (setting : Setting K) (service service' : Service K) (key : K) (epoch captured : ℕ) : Prop
  | refused (h : service' = service)
  | published (publication : Publication K) (hkey : publication.key = key) (hcaptured : publication.captured = captured)
      (hadmits : service.admits epoch = true) (h : Publishes setting service service' publication) (hframe : service.Frame service')
      (hlog : service'.log = .published publication :: service.log) (hspared : service'.spared = service.spared)
  | denied (publication : Publication K) (hkey : publication.key = key) (hcaptured : publication.captured = captured)
      (hadmits : service.admits epoch = true) (h : Publishes setting service service' publication) (hframe : service.Frame service')
      (hlog : service'.log = .denied key :: .published publication :: service.log)
      (hspared : ∀ other, service'.spared other = false → service.spared other = false)
      (hgone : service'.spared key = false → ∀ entry, ¬Holds setting service' key entry)

variable {rcode : Byte}

section

variable (service : Service K) {minTtl : ℕ} {response : List Byte}

theorem ran_putSlot (ha : service.admits epoch = true) :
    Ran setting service (service.putSlot setting key response minTtl strictReusable refreshing captured) key epoch captured := by
  unfold putSlot
  dsimp only
  split
  · exact .refused rfl
  split
  · exact .refused rfl
  rename_i ho
  have h := publishes_putSlot key ⟨response, service.clock + max minTtl 1 * second, minTtl, strictReusable, service.nextRevision,
    captured⟩ (by simpa using ho) rfl
  exact .published _ rfl rfl ha (h.record _) ⟨rfl, rfl, rfl⟩ rfl rfl

theorem ran_putExact (context : Context K) :
    Ran setting service (service.putExactIfCurrent setting context response minTtl) context.key context.epoch context.captured := by
  unfold putExactIfCurrent
  split
  · exact ran_putSlot service ‹_›
  · exact .refused rfl

theorem peek_retired {retires : Bool} {found : CacheValue}
    (h : (if retires then shard.dropPositive key else shard).peek other = some found) :
    ∃ value, shard.peek other = some value ∧ found.Remains value ∧ (other ≠ key → value = found) := by
  split at h
  · obtain ⟨value, hv, hr, -⟩ := peek_dropPositive h
    refine ⟨value, hv, hr, fun ho => ?_⟩
    rw [peek_dropPositive_of_ne shard ho, hv] at h
    exact Option.some.inj h
  · exact ⟨found, h, .refl, fun _ => rfl⟩

theorem ran_mergeNegativeSlot (key : K) (ttl : ℕ) (rcode : Byte) (refreshing : Option ℕ) (captured : ℕ) (ha : service.admits epoch = true) :
    Ran setting service (service.mergeNegativeSlot setting key ttl rcode refreshing captured) key epoch captured := by
  unfold mergeNegativeSlot
  dsimp only
  split
  · exact .refused rfl
  rename_i how
  have how : (service.shard setting key).owns key refreshing = true := by simpa using how
  have h := publishes_putNegative how (negativeEntry service.clock ttl rcode) captured
    (if (refreshing.isSome && decide (rcode = 3)) = true then (service.shard setting key).dropPositive key else service.shard setting key)
    (fun other found ho hf => by
      obtain ⟨value, hv, -, hsa⟩ := peek_retired hf
      exact hsa ho ▸ hv)
    fun entry he => by
      obtain ⟨found, hf, hpo⟩ := bind_eq_some_iff.mp he
      obtain ⟨value, hv, hr, -⟩ := peek_retired hf
      exact ⟨value, hv, hr.entry hpo⟩
  split
  · rename_i hrc
    refine .denied _ rfl rfl ha ((h.record _).deny) ⟨rfl, rfl, rfl⟩ rfl spared_deny.1 fun hsp entry hh => ?_
    have hs := spared_deny.2 hsp
    obtain ⟨found, hf, hpo⟩ := hh
    have hf := (peek_setShard_self service.bump key).symm.trans hf
    obtain ⟨-, rfl⟩ | ⟨hn, -⟩ := peek_putNegative hf
    · simp only [hrc, decide_true, Bool.true_and] at hs hpo
      rw [hpo] at hs
      cases hs
    · exact hn rfl
  · exact .published _ rfl rfl ha (h.record _) ⟨rfl, rfl, rfl⟩ rfl rfl

theorem ran_putNegative (context : Context K) :
    Ran setting service (service.putNegativeIfCurrent setting context ttl rcode) context.key context.epoch context.captured := by
  unfold putNegativeIfCurrent
  split
  · exact ran_mergeNegativeSlot service _ _ _ _ _ ‹_›
  · exact .refused rfl

end

theorem publishes_pop (captured : ℕ) (how : (service.shard setting key).owns key refreshing = true)
    {drawn : Service K} (hs : drawn.shards = service.shards) (hn : service.nextRevision ≤ drawn.nextRevision) :
    Publishes setting service (drawn.setShard setting key ((service.shard setting key).pop key)) ⟨key, none, captured, refreshing⟩ := by
  have hg : (drawn.setShard setting key ((service.shard setting key).pop key)).peek setting key = none := by
    rw [peek_setShard_self, peek_pop, if_pos rfl]
  have hd : ∀ other, drawn.peek setting other = service.peek setting other := fun other => by
    unfold peek Service.shard
    rw [hs]
  refine ⟨nofun, hn, refreshing_of_owns how, fun other found ho hf => ?_, fun found hf => ?_, fun found entry hf => ?_⟩
  · rw [← hd]
    refine others_setShard drawn (fun another seen ha hse => ?_) other found ho hf
    rw [peek_pop, if_neg ha] at hse
    unfold Service.shard
    rwa [hs]
  · exact nomatch hg.symm.trans hf
  · exact nomatch hg.symm.trans hf

variable (service : Service K)

theorem ran_supersede (context : Context K) :
    Ran setting service (service.supersedeExactIfCurrent setting context rcode) context.key context.epoch context.captured := by
  unfold supersedeExactIfCurrent
  dsimp only
  split
  · exact .refused rfl
  rename_i ha
  have ha : service.admits context.epoch = true := by simpa using ha
  split
  · exact .refused rfl
  rename_i how
  have how : (service.shard setting context.key).owns context.key context.refreshing = true := by simpa using how
  generalize hd : (if ((service.shard setting context.key).peek context.key).isSome = true then service.bump else service) = drawn
  have hsa : drawn.shards = service.shards ∧ service.nextRevision ≤ drawn.nextRevision ∧ service.Frame drawn ∧ drawn.log = service.log ∧
      drawn.spared = service.spared := by
    rw [← hd]
    split
    · exact ⟨rfl, Nat.le_succ _, ⟨rfl, rfl, rfl⟩, rfl, rfl⟩
    · exact ⟨rfl, le_rfl, ⟨rfl, rfl, rfl⟩, rfl, rfl⟩
  obtain ⟨hsh, hn, hf, hl, hs⟩ := hsa
  have h := publishes_pop context.captured how hsh hn
  have hf : service.Frame ((drawn.setShard setting context.key ((service.shard setting context.key).pop context.key)).record
      (.published ⟨context.key, none, context.captured, context.refreshing⟩)) := ⟨hf.epoch, hf.accepting, hf.mutation⟩
  split
  · refine .denied _ rfl rfl ha ((h.record _).deny) ⟨hf.epoch, hf.accepting, hf.mutation⟩ ?_ ?_ ?_
    · exact congrArg (fun log => Event.denied context.key :: .published _ :: log) hl
    · intro other ho
      rw [← hs]
      exact spared_deny.1 other ho
    · rintro - entry ⟨found, hfo, -⟩
      cases (h.slot found hfo).1
  · exact .published _ rfl rfl ha (h.record _) hf (congrArg (List.cons (Event.published _)) hl) hs

theorem ran_store (context : Context K) (response : List Byte) (rejectedWire : Option (List Byte)) :
    Ran setting service (service.store setting context response rejectedWire) context.key context.epoch context.captured := by
  unfold store
  dsimp only
  split
  · exact .refused rfl
  split
  · exact .refused rfl
  split
  · exact .refused rfl
  split
  · exact ran_supersede service context
  split
  · exact ran_putNegative service context
  · exact ran_putExact service context

theorem ran_putRestored (epoch captured : ℕ) (key : K) (response : List Byte) (minTtl : ℕ) :
    Ran setting service (service.putRestoredExactIfCurrent setting epoch captured key response minTtl) key epoch captured := by
  unfold putRestoredExactIfCurrent
  split
  · exact ran_putSlot service ‹_›
  · exact .refused rfl

end

end Service

end Honk.Dns
