import Honk.Projection.Owners

namespace Honk.Projection

open Honk.Lib Honk.Routing
open Std (ExtTreeMap ExtTreeSet)

/-- A generation of the router: `bitmapFor` is `none` where it has no domain predicate at all. -/
structure Snapshot (N : Type) where
  generation : ℕ
  bitmapFor : N → Option DomainRouting

inductive Observation (N : Type) where
  | positive (domain : N) (family : IpVersion) (ips : List IpAddr) (expiresAt : ℕ)
  | clear (domain : N) (family : IpVersion)
  | clearName (domain : N)
  | retain

structure DomainOwner where
  ips : ExtTreeSet IpAddr
  bitmap : Option DomainRouting
  expiresAt : ℕ
  sequence : ℕ
  expirySequence : ℕ
  evictionSequence : ℕ

structure RetryMetadata where
  attempts : ℕ
  nextAt : ℕ

structure PendingSet where
  ip : IpAddr
  bitmap : DomainRouting

structure Batch where
  generation : ℕ
  sets : List PendingSet
  removes : List IpAddr

structure DeadlineEntry (N : Type) where
  expiresAt : ℕ
  family : IpVersion
  domain : N
  sequence : ℕ

structure EvictionEntry (N : Type) where
  sequence : ℕ
  family : IpVersion
  domain : N

variable {N : Type} [LinearOrder N]

def DeadlineEntry.key (entry : DeadlineEntry N) : ℕ ×ₗ IpVersion ×ₗ N ×ₗ ℕ :=
  toLex (entry.expiresAt, toLex (entry.family, toLex (entry.domain, entry.sequence)))

def EvictionEntry.key (entry : EvictionEntry N) : ℕ ×ₗ IpVersion ×ₗ N := toLex (entry.sequence, toLex (entry.family, entry.domain))

def DeadlineEntry.before (a b : DeadlineEntry N) : Prop := a.key ≤ b.key

def EvictionEntry.before (a b : EvictionEntry N) : Prop := a.key ≤ b.key

instance (a b : DeadlineEntry N) : Decidable (a.before b) := inferInstanceAs (Decidable (_ ≤ _))

instance (a b : EvictionEntry N) : Decidable (a.before b) := inferInstanceAs (Decidable (_ ≤ _))

structure DesiredState (N : Type) [LinearOrder N] where
  capacity : ℕ
  sequence : ℕ := 0
  snapshot : Snapshot N
  owners : IpVersion → ExtTreeMap N DomainOwner := fun _ => ∅
  reverse : ExtTreeMap IpAddr (IpOwners N) := ∅
  desired : Bounded := {}
  applied : ExtTreeMap IpAddr DomainRouting := ∅
  dirtyIps : ExtTreeSet IpAddr := ∅
  retries : ExtTreeMap IpAddr RetryMetadata := ∅
  expiryDeadlines : List (DeadlineEntry N) := []
  evictionOrder : List (EvictionEntry N) := []

namespace DesiredState

variable (s : DesiredState N)

def ownerCount : ℕ := (s.owners .v4).size + (s.owners .v6).size

variable (family : IpVersion)

def setOwners (owners : ExtTreeMap N DomainOwner) : DesiredState N :=
  { s with owners := Function.update s.owners family owners }

def setReverse (reverse : ExtTreeMap IpAddr (IpOwners N)) : DesiredState N := { s with reverse := reverse }

def pushDeadline (entry : DeadlineEntry N) : DesiredState N :=
  { s with expiryDeadlines := s.expiryDeadlines.orderedInsert DeadlineEntry.before entry }

def pushEviction (entry : EvictionEntry N) : DesiredState N :=
  { s with evictionOrder := s.evictionOrder.orderedInsert EvictionEntry.before entry }

def staleDeadline (entry : DeadlineEntry N) : Bool :=
  !((s.owners entry.family)[entry.domain]?).any fun owner => owner.expirySequence == entry.sequence

def pruneStaleExpiryHeads : DesiredState N := { s with expiryDeadlines := s.expiryDeadlines.dropWhile s.staleDeadline }

def allOwners : List (IpVersion × N × DomainOwner) :=
  [.v4, .v6].flatMap fun family => (s.owners family).toList.map fun entry => (family, entry)

def rebuildHeaps : DesiredState N :=
  { s with
    owners := fun family => (s.owners family).map fun _ owner =>
      { owner with expirySequence := owner.sequence, evictionSequence := owner.sequence }
    expiryDeadlines := (s.allOwners.map fun entry =>
      ⟨entry.2.2.expiresAt, entry.1, entry.2.1, entry.2.2.sequence⟩).insertionSort DeadlineEntry.before
    evictionOrder := (s.allOwners.map fun entry => ⟨entry.2.2.sequence, entry.1, entry.2.1⟩).insertionSort EvictionEntry.before }

def compactOwnerHeapsIfNeeded : DesiredState N :=
  let s := s.pruneStaleExpiryHeads
  let staleLimit := max s.ownerCount 64
  if s.expiryDeadlines.length - s.ownerCount ≤ staleLimit ∧ s.evictionOrder.length - s.ownerCount ≤ staleLimit then s
  else s.rebuildHeaps

def aggregate (s : DesiredState N) (ip : IpAddr) : Option DomainRouting := s.reverse[ip]?.bind IpOwners.aggregate

def markDirty (ip : IpAddr) (evicted : Option IpAddr) : ExtTreeSet IpAddr :=
  let dirty := if evicted ≠ some ip ∨ ip ∈ s.applied then s.dirtyIps.insert ip else s.dirtyIps
  match evicted.filter (· ≠ ip) with
  | some evicted => dirty.insert evicted
  | none => dirty

def recomputeIp (ip : IpAddr) : DesiredState N :=
  if s.desired.entries[ip]? = s.aggregate ip then s
  else match s.aggregate ip with
    | none => { s with desired := s.desired.remove ip, dirtyIps := s.markDirty ip none }
    | some next =>
      let (desired, evicted) := s.desired.insertBounded ip next
      { s with desired := desired, dirtyIps := s.markDirty ip evicted }

def recomputeIps (ips : List IpAddr) : DesiredState N := ips.foldl recomputeIp s

def unlink (member : N ×ₗ IpVersion) (bitmap : Option DomainRouting) (reverse : ExtTreeMap IpAddr (IpOwners N)) (ip : IpAddr) :
    Option (ExtTreeMap IpAddr (IpOwners N)) :=
  match reverse[ip]? with
  | none => some reverse
  | some owners => (owners.remove member bitmap).map fun owners =>
      if owners.members = ∅ then reverse.erase ip else reverse.insert ip owners

def link (member : N ×ₗ IpVersion) (bitmap : Option DomainRouting) (reverse : ExtTreeMap IpAddr (IpOwners N)) (ip : IpAddr) :
    ExtTreeMap IpAddr (IpOwners N) :=
  reverse.insert ip ((reverse[ip]?.getD {}).insert member bitmap)

variable (domain : N)

def removeOwner : Option (DesiredState N) :=
  match (s.owners family)[domain]? with
  | none => some s
  | some owner =>
    (owner.ips.toList.foldlM (unlink (toLex (domain, family)) owner.bitmap) s.reverse).map fun reverse =>
      (((s.setOwners family ((s.owners family).erase domain)).setReverse reverse).recomputeIps
        owner.ips.toList).compactOwnerHeapsIfNeeded

def fullyAdmitted (ip : IpAddr) : Bool := s.desired.entries.contains ip || (s.aggregate ip).isNone

def sameAddressSet (known : List IpAddr) (ips : List IpAddr) : Bool :=
  if known.length ≠ ips.length then false
  else if ips.length ≤ 16 then
    ips.all (fun ip => known.any fun known => known == toCanonical ip) &&
      known.all fun known => ips.any fun ip => toCanonical ip == known
  else (ips.map toCanonical).insertionSort (· ≤ ·) == known

def unchanged (ips : List IpAddr) : Bool :=
  ((s.owners family)[domain]?).any fun owner => sameAddressSet owner.ips.toList ips && owner.ips.toList.all s.fullyAdmitted

def reschedule (owner : DomainOwner) (expiresAt sequence : ℕ) : DesiredState N :=
  if expiresAt < owner.expiresAt then
    (s.setOwners family ((s.owners family).insert domain
      { owner with expirySequence := sequence, expiresAt := expiresAt, sequence := sequence })).pushDeadline
        ⟨expiresAt, family, domain, sequence⟩
  else s.setOwners family ((s.owners family).insert domain { owner with expiresAt := expiresAt, sequence := sequence })

def replaceExisting (owner : DomainOwner) (ips : ExtTreeSet IpAddr) (expiresAt sequence : ℕ) : Option (DesiredState N) :=
  let member := toLex (domain, family)
  let removed := owner.ips.toList.filter fun ip => ip ∉ ips
  let added := ips.toList.filter fun ip => ip ∉ owner.ips ∨ ip ∉ s.desired.entries
  (removed.foldlM (unlink member owner.bitmap) s.reverse).map fun reverse =>
    ((s.setReverse (added.foldl (link member owner.bitmap) reverse)).reschedule family domain { owner with ips := ips }
      expiresAt sequence).recomputeIps (removed ++ added)

def bitmapFor (s : DesiredState N) (family : IpVersion) (domain : N) : Option DomainRouting :=
  match (s.owners (match family with | .v4 => .v6 | .v6 => .v4))[domain]? with
  | some sibling => sibling.bitmap
  | none => s.snapshot.bitmapFor domain

def insertOwner (ips : ExtTreeSet IpAddr) (expiresAt sequence : ℕ) : DesiredState N :=
  let bitmap := s.bitmapFor family domain
  let owner : DomainOwner :=
    { ips := ips, bitmap := bitmap, expiresAt := expiresAt, sequence := sequence, expirySequence := sequence,
      evictionSequence := sequence }
  ((((s.setReverse (ips.toList.foldl (link (toLex (domain, family)) bitmap) s.reverse)).setOwners family
    ((s.owners family).insert domain owner)).pushDeadline ⟨expiresAt, family, domain, sequence⟩).pushEviction
      ⟨sequence, family, domain⟩).recomputeIps ips.toList

def popEviction : ℕ → DesiredState N → Option (DesiredState N × Option (IpVersion × N))
  | 0, _ => none
  | fuel + 1, s =>
    match s.evictionOrder with
    | [] => some (s, none)
    | candidate :: rest =>
      let s := { s with evictionOrder := rest }
      match (s.owners candidate.family)[candidate.domain]? with
      | none => popEviction fuel s
      | some owner =>
        if owner.evictionSequence ≠ candidate.sequence then popEviction fuel s
        else if owner.sequence = candidate.sequence then some (s, some (candidate.family, candidate.domain))
        else popEviction fuel ((s.setOwners candidate.family ((s.owners candidate.family).insert candidate.domain
          { owner with evictionSequence := owner.sequence })).pushEviction
            { candidate with sequence := owner.sequence })

def evictOldest : Option (DesiredState N) :=
  match popEviction (2 * s.evictionOrder.length + 1) s with
  | none => none
  | some (s, none) => some s
  | some (s, some (family, domain)) => s.removeOwner family domain

def replace (family : IpVersion) (domain : N) (ips : List IpAddr) (expiresAt : ℕ) : Option (DesiredState N) :=
  let sequence := (s.sequence + 1) % 2 ^ 64
  let s := { s with sequence := sequence }
  match (s.owners family)[domain]? with
  | some owner =>
    if s.unchanged family domain ips then
      some (s.reschedule family domain owner expiresAt sequence).compactOwnerHeapsIfNeeded
    else
      match s.replaceExisting family domain owner (ExtTreeSet.ofList (ips.map toCanonical)) expiresAt sequence with
      | none => none
      | some s => let s := s.compactOwnerHeapsIfNeeded
        if s.ownerCount ≤ s.capacity then some s else s.evictOldest
  | none =>
    let s := (s.insertOwner family domain (ExtTreeSet.ofList (ips.map toCanonical)) expiresAt
      sequence).compactOwnerHeapsIfNeeded
    if s.ownerCount ≤ s.capacity then some s else s.evictOldest

def expiryFuel : ℕ := (s.ownerCount + 1) * (max s.expiryDeadlines.length s.ownerCount + 1) + 1

def expireLoop (now : ℕ) : ℕ → DesiredState N → Option (DesiredState N)
  | 0, _ => none
  | fuel + 1, s =>
    match s.expiryDeadlines with
    | [] => some s
    | deadline :: rest =>
      if now < deadline.expiresAt then some s
      else
        let s := { s with expiryDeadlines := rest }
        match (s.owners deadline.family)[deadline.domain]? with
        | none => expireLoop now fuel s.pruneStaleExpiryHeads
        | some owner =>
          if owner.expirySequence ≠ deadline.sequence then expireLoop now fuel s.pruneStaleExpiryHeads
          else if owner.expiresAt ≤ now then
            match s.removeOwner deadline.family deadline.domain with
            | none => none
            | some s => expireLoop now fuel s.pruneStaleExpiryHeads
          else expireLoop now fuel (s.pushDeadline { deadline with expiresAt := owner.expiresAt }).pruneStaleExpiryHeads

def expire (now : ℕ) : Option (DesiredState N) :=
  (expireLoop now s.expiryFuel s.pruneStaleExpiryHeads).map compactOwnerHeapsIfNeeded

def observe (observation : Observation N) (now : ℕ) : Option (DesiredState N) :=
  match s.expire now with
  | none => none
  | some s =>
    match observation with
    | .positive domain family ips expiresAt =>
      if now < expiresAt then s.replace family domain ips expiresAt else s.removeOwner family domain
    | .clear domain family => s.removeOwner family domain
    | .clearName domain => (s.removeOwner .v4 domain).bind (removeOwner · .v6 domain)
    | .retain => some s

def refreshedV4 : ExtTreeMap N DomainOwner :=
  (s.owners .v4).map fun domain owner => { owner with bitmap := s.snapshot.bitmapFor domain }

def refreshedOwners : IpVersion → ExtTreeMap N DomainOwner
  | .v4 => s.refreshedV4
  | .v6 => (s.owners .v6).map fun domain owner =>
      { owner with bitmap := match s.refreshedV4[domain]? with
        | some sibling => sibling.bitmap
        | none => s.snapshot.bitmapFor domain }

variable (owners : IpVersion → ExtTreeMap N DomainOwner)

/-- A member without an owner is a panic. -/
def countMember (contributions : Tally DomainRouting) (member : N ×ₗ IpVersion) : Option (Tally DomainRouting) :=
  ((owners (ofLex member).2)[(ofLex member).1]?).map fun owner =>
    match owner.bitmap with
    | some bitmap => contributions.add bitmap
    | none => contributions

def recount (entry : IpOwners N) : Option (IpOwners N) :=
  (entry.members.sort.foldlM (countMember owners) []).map fun contributions => { entry with contributions := contributions }

def recountAll (reverse : ExtTreeMap IpAddr (IpOwners N)) : Option (ExtTreeMap IpAddr (IpOwners N)) :=
  reverse.toList.foldlM (fun counted entry => (recount owners entry.2).map (counted.insert entry.1 ·)) reverse

def refreshOwnerBitmaps : Option (DesiredState N) :=
  (recountAll s.refreshedOwners s.reverse).map fun reverse => { s with owners := s.refreshedOwners, reverse := reverse }

def projectBy (reverse : ExtTreeMap IpAddr (IpOwners N)) (aggregate : IpOwners N → Option DomainRouting) : Bounded :=
  reverse.toList.foldl (fun table entry =>
    match aggregate entry.2 with
    | some bitmap => (table.insertBounded entry.1 bitmap).1
    | none => table) {}

variable (snapshot : Snapshot N)

def joinMember (aggregate : Option DomainRouting) (member : N ×ₗ IpVersion) : Option DomainRouting :=
  match snapshot.bitmapFor (ofLex member).1 with
  | some bitmap => some (aggregate.getD .zero ⊔ bitmap)
  | none => aggregate

def joinMembers (owners : IpOwners N) : Option DomainRouting :=
  owners.members.sort.foldl (joinMember snapshot) none

def project : ExtTreeMap IpAddr DomainRouting := (projectBy s.reverse (joinMembers snapshot)).entries

def rebuildAll : Option (DesiredState N) :=
  s.refreshOwnerBitmaps.map fun s =>
    let desired := projectBy s.reverse IpOwners.aggregate
    { s with
      dirtyIps := (s.desired.entries.keys ++ desired.entries.keys ++ s.applied.keys).foldl (fun dirty ip =>
        if s.desired.entries[ip]? ≠ desired.entries[ip]? ∨ s.applied[ip]? ≠ desired.entries[ip]? then dirty.insert ip
        else dirty) s.dirtyIps
      desired := desired }

def updateSnapshot : Option (DesiredState N × Bool) :=
  if snapshot.generation ≤ s.snapshot.generation then some (s, snapshot.generation = s.snapshot.generation)
  else ({ s with snapshot := snapshot }.rebuildAll).map (·, true)

def retryMin : ℕ := 100000000

def retryMax : ℕ := 5000000000

def maxBatchEntries : ℕ := 256

def nextAttemptAt (ip : IpAddr) (now : ℕ) : Option ℕ :=
  if ip ∈ s.desired.entries ∧ ip ∉ s.applied ∧ ipCapacity ≤ s.applied.size then none
  else some ((s.retries[ip]?).elim now fun retry => max retry.nextAt now)

def candidates (now : ℕ) : List IpAddr :=
  ((s.dirtyIps.toList.filter (· ∉ s.desired.entries) ++ s.dirtyIps.toList.filter (· ∈ s.desired.entries)).filter
    fun ip => s.nextAttemptAt ip now = some now).take maxBatchEntries

structure Draft (N : Type) [LinearOrder N] where
  state : DesiredState N
  sets : List PendingSet := []
  removes : List IpAddr := []
  available : ℕ

def Draft.add (draft : Draft N) (ip : IpAddr) : Draft N :=
  match draft.state.desired.entries[ip]?, draft.state.applied[ip]? with
  | some desired, some applied =>
    if applied = desired then
      { draft with state := { draft.state with
          dirtyIps := draft.state.dirtyIps.erase ip, retries := draft.state.retries.erase ip } }
    else { draft with sets := draft.sets ++ [⟨ip, desired⟩] }
  | some desired, none =>
    if draft.available = 0 then draft
    else { draft with sets := draft.sets ++ [⟨ip, desired⟩], available := draft.available - 1 }
  | none, some _ => { draft with removes := draft.removes ++ [ip] }
  | none, none =>
    { draft with state := { draft.state with
        dirtyIps := draft.state.dirtyIps.erase ip, retries := draft.state.retries.erase ip } }

def draftBatch (now : ℕ) : Draft N := (s.candidates now).foldl Draft.add { state := s, available := ipCapacity - s.applied.size }

def batch (now : ℕ) : DesiredState N × Batch :=
  let draft := s.draftBatch now
  (draft.state, ⟨draft.state.snapshot.generation, draft.sets, draft.removes⟩)

def commitSet (set : PendingSet) : DesiredState N :=
  { s with
    applied := s.applied.insert set.ip set.bitmap
    retries := s.retries.erase set.ip
    dirtyIps := if s.desired.entries[set.ip]? = some set.bitmap then s.dirtyIps.erase set.ip else s.dirtyIps.insert set.ip }

def commitRemove (ip : IpAddr) : DesiredState N :=
  { s with
    applied := s.applied.erase ip
    retries := s.retries.erase ip
    dirtyIps := if ip ∉ s.desired.entries then s.dirtyIps.erase ip else s.dirtyIps.insert ip }

def commitSuccess (sets : List PendingSet) (removes : List IpAddr) : DesiredState N :=
  removes.foldl commitRemove (sets.foldl commitSet s)

def recordFailure (ip : IpAddr) (now : ℕ) : DesiredState N :=
  let attempts := (s.retries[ip]?).elim 1 fun retry => min (retry.attempts + 1) 255
  { s with
    retries := s.retries.insert ip ⟨attempts, now + min (retryMin * 2 ^ min (attempts - 1) 6) retryMax⟩
    dirtyIps := s.dirtyIps.insert ip }

def commitPublication (published : Option (ExtTreeMap IpAddr DomainRouting)) : Option (DesiredState N) :=
  let s := match published with
    | some published => { s with applied := published, dirtyIps := ∅, retries := ∅ }
    | none => s
  (s.updateSnapshot snapshot).map Prod.fst

end DesiredState

end Honk.Projection
