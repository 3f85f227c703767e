import Honk.Lib.Interleaving
import Honk.Dns.Shard

namespace Honk.Dns

open Honk.Lib

inductive ResponseClass where
  | positive
  | nodata
  | nxdomain
  | servfail
  deriving DecidableEq

inductive CacheInvalidation where
  | all
  | id (id : String)
  | name (name : String) (types : List ℕ)

/-- The configuration of the forwarder and of its cache, with the fixed functions they read a key and a wire by. -/
structure Setting (K : Type) where
  maxSize : ℕ
  shardHash : K → ℕ
  incarnationId : ℕ → String
  questionMatches : K → String → List ℕ → Bool
  soaNegativeTtl : List Byte → Option ℕ
  minTtl : List Byte → ℕ
  minTtlIncludingZero : List Byte → ℕ
  rewriteAnswerTtls : List Byte → ℕ → List Byte
  cacheEnabled : Bool
  cacheTtl : ℕ
  fixedTtl : K → Option ℕ

structure Publication (K : Type) where
  key : K
  revision : Option ℕ
  captured : ℕ
  refreshing : Option ℕ

/-- `denied` follows the publication of an NXDOMAIN; `served` names the publication of the answer it served. -/
inductive Event (K : Type) where
  | began (selection : CacheInvalidation)
  | reopened (selection : CacheInvalidation)
  | published (publication : Publication K)
  | denied (key : K)
  | served (key : K) (published : ℕ)

/-- The two locks are held across sections by an invalidation only. `log` is a history, newest first, and so is
`spared`: an NXDOMAIN for the key was published beside a positive answer. -/
structure Service (K : Type) where
  clock : ℕ := 0
  shards : ℕ → CacheShard K
  epoch : ℕ := 0
  accepting : Bool := true
  nextRevision : ℕ := 1
  mutation : Bool := false
  publication : Bool := false
  log : List (Event K) := []
  spared : K → Bool := fun _ => false

def maxCacheEntries : ℕ := 100000

def maxNegativeTtl : ℕ := 300

variable {K : Type} [DecidableEq K]

namespace Setting

variable (setting : Setting K)

def capacity : ℕ := min (max setting.maxSize 1) maxCacheEntries

def shardCount : ℕ := min setting.capacity 16

def shardCapacity (index : ℕ) : ℕ :=
  setting.capacity / setting.shardCount + if index < setting.capacity % setting.shardCount then 1 else 0

def shardIndex (key : K) : ℕ := setting.shardHash key % setting.shardCount

def selects (key : K) (value : CacheValue) : CacheInvalidation → Bool
  | .all => true
  | .id id => setting.incarnationId value.revision = id
  | .name name types => setting.questionMatches key name types

end Setting

variable (wire : List Byte)

def isTruncated : Bool := (wire[2]?.getD 0).getLsbD 1

def responseCode : Byte := wire[3]?.getD 0 &&& 15

def classifyResponse : ResponseClass :=
  if responseCode wire = 2 then .servfail
  else if responseCode wire = 3 then .nxdomain
  else if wire[6]? = some 0 ∧ wire[7]? = some 0 then .nodata
  else .positive

def effectiveExpiry (fixedTtl : Option ℕ) (configuredTtl answerTtl : ℕ) : Option ℕ :=
  match fixedTtl with
  | some 0 => none
  | some ttl => some ttl
  | none => if 0 < configuredTtl then some configuredTtl else if answerTtl = 0 then none else some answerTtl

def negativeEntry (now ttl : ℕ) (rcode : Byte) : NegativeEntry := ⟨now + max 1 (min ttl maxNegativeTtl) * second, rcode⟩

def CacheShard.owns (shard : CacheShard K) (key : K) (refreshing : Option ℕ) : Bool :=
  refreshing.all fun revision => (shard.peek key).any fun value => value.revision = revision && value.positive.isSome

structure Context (K : Type) where
  key : K
  epoch : ℕ
  captured : ℕ
  strict : Bool
  reuseEligible : Bool
  refreshing : Option ℕ := none

inductive ExactLookup where
  | negative (rcode : Byte) (expiresAt revision : ℕ)
  | positive (entry : CachedEntry) (revision : ℕ)
  | miss

namespace Service

variable (setting : Setting K) (service : Service K)

variable (key : K)

def shard : CacheShard K := service.shards (setting.shardIndex key)

def peek (key : K) : Option CacheValue := (service.shard setting key).peek key

def setShard (shard : CacheShard K) : Service K :=
  { service with shards := Function.update service.shards (setting.shardIndex key) shard }

def record (event : Event K) : Service K := { service with log := event :: service.log }

def deny (spares : Bool) : Service K :=
  { service.record (.denied key) with spared := Function.update service.spared key (service.spared key || spares) }

def bump : Service K := { service with nextRevision := service.nextRevision + 1 }

def admits (epoch : ℕ) : Bool := service.accepting && service.epoch = epoch

def lookupExact (requireStrict : Bool) : Service K × ExactLookup :=
  let shard := (service.shard setting key).get key
  let now := service.clock
  match shard.peek key with
  | none => (service.setShard setting key shard, .miss)
  | some value =>
    match value.negative.filter fun negative => now ≤ negative.expiresAt with
    | some negative => (service.setShard setting key shard, .negative negative.rcode negative.expiresAt value.revision)
    | none =>
      let shard := if value.negative.isSome then shard.dropNegative key else shard
      match value.positive with
      | none => (service.setShard setting key shard, .miss)
      | some entry =>
        if entry.isStaleRetentionExceeded now then (service.setShard setting key (shard.dropPositive key), .miss)
        else if requireStrict && !entry.strictReusable then (service.setShard setting key shard, .miss)
        else if !entry.isExpired now then (service.setShard setting key shard, .positive entry value.revision)
        else (service.setShard setting key shard, .miss)

def getStaleExact (requireStrict : Bool) : Service K × Option CachedEntry :=
  let shard := (service.shard setting key).get key
  let entry := (shard.peek key).bind CacheValue.positive
  let entry := entry.filter fun entry => !requireStrict || entry.strictReusable
  let entry := entry.filter fun entry => entry.isExpired service.clock && !entry.isStaleRetentionExceeded service.clock
  (service.setShard setting key shard, entry)

def putSlot (response : List Byte) (minTtl : ℕ) (strictReusable : Bool) (refreshing : Option ℕ) (captured : ℕ) : Service K :=
  let shard := service.shard setting key
  let revision := service.nextRevision
  let expiresAt := service.clock + max minTtl 1 * second
  if maxAnswerBytes < response.length || isTruncated response then service
  else if !shard.owns key refreshing then service
  else
    let value := .ofPositive ⟨response, expiresAt, minTtl, strictReusable, revision, captured⟩ revision captured
    (service.bump.setShard setting key (shard.put key value)).record (.published ⟨key, some revision, captured, refreshing⟩)

def publishExact (response : List Byte) (minTtl : ℕ) (refreshing : Option ℕ) (captured : ℕ) : Service K :=
  service.putSlot setting key response (max minTtl 1) true refreshing captured

variable (context : Context K)

def putExactIfCurrent (response : List Byte) (minTtl : ℕ) : Service K :=
  if service.admits context.epoch then service.publishExact setting context.key response minTtl context.refreshing context.captured
  else service

def putRestoredExactIfCurrent (epoch captured : ℕ) (key : K) (response : List Byte) (minTtl : ℕ) : Service K :=
  if service.admits epoch then service.putSlot setting key response minTtl false none captured else service

def mergeNegativeSlot (ttl : ℕ) (rcode : Byte) (refreshing : Option ℕ) (captured : ℕ) : Service K :=
  let shard := service.shard setting key
  let revision := service.nextRevision
  if !shard.owns key refreshing then service
  else
    let shard := if refreshing.isSome && rcode = 3 then shard.dropPositive key else shard
    let spares := rcode = 3 && ((shard.peek key).bind CacheValue.positive).isSome
    let service := service.bump.setShard setting key (shard.putNegative key (negativeEntry service.clock ttl rcode) revision captured)
    let service := service.record (.published ⟨key, some revision, captured, refreshing⟩)
    if rcode = 3 then service.deny key spares else service

def putNegativeIfCurrent (ttl : ℕ) (rcode : Byte) : Service K :=
  if service.admits context.epoch then service.mergeNegativeSlot setting context.key ttl rcode context.refreshing context.captured
  else service

def supersedeExactIfCurrent (rcode : Byte) : Service K :=
  let shard := service.shard setting context.key
  if !service.admits context.epoch then service
  else if !shard.owns context.key context.refreshing then service
  else
    let popped := if (shard.peek context.key).isSome then service.bump else service
    let service := popped.setShard setting context.key (shard.pop context.key)
    let service := service.record (.published ⟨context.key, none, context.captured, context.refreshing⟩)
    if rcode = 3 then service.deny context.key false else service

/-- A refused answer is kept by the lifetime of the wire it stands for. -/
def store (response : List Byte) (rejectedWire : Option (List Byte)) : Service K :=
  let lifetimeWire := rejectedWire.getD response
  let fixedTtl := setting.fixedTtl context.key
  if !context.reuseEligible then service
  else if fixedTtl = some 0 then service
  else
    let rcode := responseCode lifetimeWire
    let cls := classifyResponse lifetimeWire
    let negative := cls = .nxdomain || cls = .servfail
    let soaTtl := setting.soaNegativeTtl lifetimeWire
    let expiry :=
      if negative then
        effectiveExpiry none 0 (if cls = .nxdomain then min (soaTtl.getD 0) 300 else max 1 (min (soaTtl.getD 60) 300))
      else if cls = .nodata && rcode = 0 then effectiveExpiry none 0 (fixedTtl.getD (min (soaTtl.getD 0) 300))
      else
        let answerTtl := if cls = .positive && rcode = 0 then setting.minTtlIncludingZero lifetimeWire else setting.minTtl lifetimeWire
        effectiveExpiry fixedTtl setting.cacheTtl answerTtl
    if !setting.cacheEnabled then service
    else match expiry with
      | none => service.supersedeExactIfCurrent setting context rcode
      | some ttl =>
        if negative then service.putNegativeIfCurrent setting context ttl rcode
        else service.putExactIfCurrent setting context (setting.rewriteAnswerTtls response ttl) ttl

variable (selection : CacheInvalidation)

def beginInvalidation : Service K :=
  { service.record (.began selection) with epoch := service.epoch + 1, accepting := false, publication := true }

def scanShard (index : ℕ) : Service K :=
  let shard := service.shards index
  let kept := match selection with
    | .all => shard.clear
    | _ => (shard.entries.filter fun slot => setting.selects slot.1 slot.2 selection).foldl (fun shard slot => shard.pop slot.1) shard
  { service with shards := Function.update service.shards index kept }

def reopen : Service K := { service.record (.reopened selection) with epoch := service.epoch + 1, accepting := true }

end Service

/-- A resolution or refresh, a restore of saved rows, or an invalidation, between two of its sections. -/
inductive Task (K : Type) where
  | idle
  | resolving (context : Context K)
  | restoring (epoch captured : ℕ)
  | reserving (selection : CacheInvalidation)
  | scanning (selection : CacheInvalidation) (index : ℕ)
  | persisting (selection : CacheInvalidation)
  | returning

inductive Given (K : Type) where
  | time (elapsed : ℕ)
  | resolve (key : K) (strict reuseEligible : Bool)
  | lookup (leads : Bool)
  | stale
  | answer (response : List Byte) (rejectedWire : Option (List Byte))
  | restore
  | row (key : K) (response : List Byte) (minTtl : ℕ)
  | invalidate (selection : CacheInvalidation)
  | go
  | leave

def Context.answered (context : Context K) (leads : Bool) (now : ℕ) (entry : CachedEntry) (revision : ℕ) : Task K :=
  if leads && decide (entry.remainingTtlSecs now ≤ max (entry.minTtl / 10) 1) then .resolving { context with refreshing := some revision }
  else .idle

def step (setting : Setting K) (service : Service K) : Task K → Given K → Option (Service K × Task K)
  | .idle, .time elapsed => some ({ service with clock := service.clock + elapsed }, .idle)
  | .idle, .resolve key strict reuseEligible =>
    if service.publication then none
    else some (service, .resolving ⟨key, service.epoch, service.log.length, strict, reuseEligible, none⟩)
  | .resolving context, .lookup leads =>
    if !setting.cacheEnabled || context.refreshing.isSome || !context.reuseEligible then none
    else
      let (service', found) := service.lookupExact setting context.key context.strict
      some (match found with
        | .negative _ _ _ => (service', .idle)
        | .positive entry revision =>
          (service'.record (.served context.key entry.published), context.answered leads service.clock entry revision)
        | .miss => (service', .resolving context))
  | .resolving context, .stale =>
    if !setting.cacheEnabled || !context.reuseEligible then none
    else
      let (service', found) := service.getStaleExact setting context.key context.strict
      some (match found with
        | some entry => (service'.record (.served context.key entry.published), .idle)
        | none => (service', .resolving context))
  | .resolving context, .answer response rejectedWire =>
    if service.publication then none else some (service.store setting context response rejectedWire, .idle)
  | .resolving _, .leave => some (service, .idle)
  | .idle, .restore => if service.publication then none else some (service, .restoring service.epoch service.log.length)
  | .restoring epoch captured, .row key response minTtl =>
    if service.publication then none
    else some (service.putRestoredExactIfCurrent setting epoch captured key response minTtl, .restoring epoch captured)
  | .restoring _ _, .leave => some (service, .idle)
  | .idle, .invalidate selection =>
    if service.mutation then none else some ({ service with mutation := true }, .reserving selection)
  | .reserving _, .leave => some ({ service with mutation := false }, .idle)
  | .reserving selection, .go => if service.publication then none else some (service.beginInvalidation selection, .scanning selection 0)
  | .scanning selection index, .go =>
    some (if index < setting.shardCount then (service.scanShard setting selection index, .scanning selection (index + 1))
      else ({ service with publication := false }, .persisting selection))
  | .persisting selection, .go => if service.publication then none else some (service.reopen selection, .returning)
  | .returning, .go => some ({ service with mutation := false }, .idle)
  | _, _ => none

def system (setting : Setting K) : System (Service K) (Task K) (Given K) where
  init := { shards := fun index => { cap := setting.shardCapacity index } }
  idle := .idle
  step := step setting
  reclaim _ _ _ := False

end Honk.Dns
