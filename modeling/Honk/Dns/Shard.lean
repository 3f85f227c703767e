import Honk.Lib.Bytes

namespace Honk.Dns

open Honk.Lib List

/-- `published` and `captured` are a history: the revision of the publication that brought the answer, and the place
in the history of the cache at which its resolution read the epoch. -/
structure CachedEntry where
  response : List Byte
  expiresAt : ℕ
  minTtl : ℕ
  strictReusable : Bool
  published : ℕ
  captured : ℕ

structure NegativeEntry where
  expiresAt : ℕ
  rcode : Byte

structure CacheValue where
  positive : Option CachedEntry
  negative : Option NegativeEntry
  revision : ℕ
  captured : ℕ

def second : ℕ := 1000000000

def staleRetention : ℕ := 3600 * second

section

variable (entry : CachedEntry) (now : ℕ)

def CachedEntry.isExpired : Bool := entry.expiresAt ≤ now

def CachedEntry.remainingTtlSecs : ℕ := (entry.expiresAt - now) / second

def CachedEntry.isStaleRetentionExceeded : Bool := entry.expiresAt + staleRetention ≤ now

def CacheValue.ofPositive (revision captured : ℕ) : CacheValue := ⟨some entry, none, revision, captured⟩

end

def CacheValue.ofNegative (entry : NegativeEntry) (revision captured : ℕ) : CacheValue := ⟨none, some entry, revision, captured⟩

def CacheValue.responseBytes (value : CacheValue) : ℕ := (value.positive.map fun entry => entry.response.length).getD 0

structure CacheValue.Remains (value' value : CacheValue) : Prop where
  positive : value'.positive = value.positive ∨ value'.positive = none
  revision : value'.revision = value.revision
  captured : value'.captured = value.captured

theorem CacheValue.Remains.refl {value : CacheValue} : value.Remains value := ⟨.inl rfl, rfl, rfl⟩

theorem CacheValue.Remains.trans {a b c : CacheValue} (ha : a.Remains b) (hb : b.Remains c) : a.Remains c :=
  ⟨ha.positive.elim (fun h => hb.positive.imp h.trans h.trans) .inr, ha.revision.trans hb.revision, ha.captured.trans hb.captured⟩

theorem CacheValue.Remains.entry {value' value : CacheValue} (h : value'.Remains value) {entry : CachedEntry}
    (he : value'.positive = some entry) : value.positive = some entry := by
  obtain hk | hd := h.positive
  · exact hk ▸ he
  · exact nomatch hd.symm.trans he

def cacheBytesPerEntry : ℕ := 1024

def maxAnswerBytes : ℕ := 65535

structure CacheShard (K : Type) where
  entries : List (K × CacheValue) := []
  cap : ℕ
  retained : ℕ := 0

namespace CacheShard

variable {K : Type} [DecidableEq K]

section

variable (shard : CacheShard K)

def budget : ℕ := max (shard.cap * cacheBytesPerEntry) maxAnswerBytes

variable (key : K)

def peek : Option CacheValue := (shard.entries.find? fun slot => slot.1 = key).map Prod.snd

def others : List (K × CacheValue) := shard.entries.filter fun slot => slot.1 ≠ key

def get : CacheShard K :=
  match shard.peek key with
  | some value => { shard with entries := (key, value) :: shard.others key }
  | none => shard

def pop : CacheShard K :=
  match shard.peek key with
  | some value => { shard with entries := shard.others key, retained := shard.retained - value.responseBytes }
  | none => shard

def clear : CacheShard K := { shard with entries := [], retained := 0 }

def displaced : Option CacheValue :=
  match shard.peek key with
  | some value => some value
  | none => if shard.entries.length < shard.cap then none else shard.entries.getLast?.map Prod.snd

def pushed (value : CacheValue) : List (K × CacheValue) :=
  match shard.peek key with
  | some _ => (key, value) :: shard.others key
  | none => (key, value) :: if shard.entries.length < shard.cap then shard.entries else shard.entries.dropLast

def trim (budget : ℕ) : ℕ → List (K × CacheValue) → ℕ → List (K × CacheValue) × ℕ
  | 0, entries, retained => (entries, retained)
  | fuel + 1, entries, retained =>
    if budget < retained then
      match entries.getLast? with
      | some slot => trim budget fuel entries.dropLast (retained - slot.2.responseBytes)
      | none => (entries, retained)
    else (entries, retained)

def put (value : CacheValue) : CacheShard K :=
  let retained := shard.retained + value.responseBytes
  let retained := retained - ((shard.displaced key).map CacheValue.responseBytes).getD 0
  let entries := shard.pushed key value
  let kept := trim shard.budget entries.length entries retained
  { shard with entries := kept.1, retained := kept.2 }

def dropPositive : CacheShard K :=
  match shard.peek key with
  | none => shard
  | some value =>
    { shard with
      entries := if value.negative.isNone then shard.others key else (key, { value with positive := none }) :: shard.others key
      retained := shard.retained - value.responseBytes }

def dropNegative : CacheShard K :=
  match shard.peek key with
  | none => shard
  | some value =>
    { shard with
      entries := if value.positive.isNone then shard.others key else (key, { value with negative := none }) :: shard.others key }

def putNegative (negative : NegativeEntry) (revision captured : ℕ) : CacheShard K :=
  match shard.peek key with
  | some value =>
    { shard with
      entries := (key, { value with negative := some negative, revision := revision, captured := captured }) :: shard.others key }
  | none => shard.put key (.ofNegative negative revision captured)

end

section

variable {shard : CacheShard K} {key other : K} {value : CacheValue}

theorem find_others (entries : List (K × CacheValue)) : (entries.filter fun slot => slot.1 ≠ key).find? (fun slot => slot.1 = other) =
    if other = key then none else entries.find? fun slot => slot.1 = other := by
  rw [find?_filter]
  split
  · rename_i he
    subst he
    simp
  rename_i hn
  congr 1
  funext slot
  by_cases hs : slot.1 = other
  · simp [hs, hn]
  · simp [hs]

section

variable (shard : CacheShard K)

theorem peek_front (key other : K) (value : CacheValue) (retained : ℕ) :
    peek { shard with entries := (key, value) :: shard.others key, retained := retained } other =
      if other = key then some value else shard.peek other := by
  unfold peek others
  rw [find?_cons]
  by_cases he : key = other
  · simp [he]
  · simp only [he, decide_false, find_others, if_neg (Ne.symm he)]

theorem peek_others (key other : K) (retained : ℕ) :
    peek { shard with entries := shard.others key, retained := retained } other = if other = key then none else shard.peek other := by
  unfold peek others
  dsimp only
  rw [find_others]
  split
  · rfl
  · rfl

theorem peek_get (key other : K) : (shard.get key).peek other = shard.peek other := by
  unfold get
  split
  · rename_i value hv
    refine (peek_front shard key other value shard.retained).trans ?_
    split
    · rename_i he
      rw [he, hv]
    · rfl
  · rfl

theorem peek_pop : (shard.pop key).peek other = if other = key then none else shard.peek other := by
  unfold pop
  split
  · exact peek_others shard key other _
  rename_i hv
  split
  · rename_i he
    rw [he, hv]
  · rfl

theorem peek_clear : shard.clear.peek key = none := rfl

end

variable {entries : List (K × CacheValue)} {slot : K × CacheValue} {found : CacheValue}

theorem find_of_prefix (h : entries.find? (fun slot => slot.1 = other) = some slot) :
    (entries ++ rest).find? (fun slot => slot.1 = other) = some slot := by
  rw [find?_append, h]
  rfl

theorem find_of_dropLast (h : entries.dropLast.find? (fun slot => slot.1 = other) = some slot) :
    entries.find? (fun slot => slot.1 = other) = some slot := by
  cases hl : entries.getLast? with
  | none =>
    rw [getLast?_eq_none_iff.mp hl] at h
    cases h
  | some last =>
    rw [← dropLast_append_getLast? last hl]
    exact find_of_prefix h

theorem find_of_trim {budget fuel : ℕ} {retained : ℕ}
    (h : (trim budget fuel entries retained).1.find? (fun slot => slot.1 = other) = some slot) :
    entries.find? (fun slot => slot.1 = other) = some slot := by
  induction fuel generalizing entries retained with
  | zero => exact h
  | succ fuel ih =>
    rw [trim] at h
    split at h
    · split at h
      · exact find_of_dropLast (ih h)
      · exact h
    · exact h

theorem peek_put (h : (shard.put key value).peek other = some found) :
    other = key ∧ found = value ∨ other ≠ key ∧ shard.peek other = some found := by
  obtain ⟨slot, hs, rfl⟩ := Option.map_eq_some_iff.mp h
  have hpu := find_of_trim hs
  unfold pushed at hpu
  split at hpu
  · have hf := peek_front shard key other value shard.retained
    unfold peek at hf
    dsimp only at hf
    rw [hpu] at hf
    split at hf
    · exact .inl ⟨‹_›, Option.some.inj hf⟩
    · exact .inr ⟨‹_›, hf.symm⟩
  rw [find?_cons] at hpu
  by_cases he : key = other
  · simp only [he, decide_true] at hpu
    cases hpu
    exact .inl ⟨he.symm, rfl⟩
  simp only [he, decide_false] at hpu
  refine .inr ⟨Ne.symm he, ?_⟩
  unfold peek
  split at hpu
  · rw [hpu]
    rfl
  · rw [find_of_dropLast hpu]
    rfl

theorem peek_half (gone : Prop) [Decidable gone] (value : CacheValue) (retained : ℕ) :
    peek { shard with entries := if gone then shard.others key else (key, value) :: shard.others key, retained := retained } other =
      if other = key then if gone then none else some value else shard.peek other := by
  split
  · exact peek_others shard key other retained
  · exact peek_front shard key other value retained

theorem peek_dropPositive (h : (shard.dropPositive key).peek other = some found) :
    ∃ value, shard.peek other = some value ∧ found.Remains value ∧ (other = key → found.positive = none) := by
  unfold dropPositive at h
  split at h
  · rename_i hn
    refine ⟨found, h, .refl, fun he => ?_⟩
    rw [he, hn] at h
    cases h
  rename_i value hv
  rw [peek_half] at h
  split_ifs at h with he hn
  · cases h
    exact ⟨value, he ▸ hv, ⟨.inr rfl, rfl, rfl⟩, fun _ => rfl⟩
  · exact ⟨found, h, .refl, fun hk => absurd hk he⟩

theorem peek_dropPositive_of_ne (shard : CacheShard K) (h : other ≠ key) : (shard.dropPositive key).peek other = shard.peek other := by
  unfold dropPositive
  split
  · rfl
  · rw [peek_half, if_neg h]

theorem peek_dropNegative (h : (shard.dropNegative key).peek other = some found) :
    ∃ value, shard.peek other = some value ∧ found.Remains value := by
  unfold dropNegative at h
  split at h
  · exact ⟨found, h, .refl⟩
  rename_i value hv
  rw [peek_half value.positive.isNone _ shard.retained] at h
  split_ifs at h with he hn
  · cases h
    exact ⟨value, he ▸ hv, ⟨.inl rfl, rfl, rfl⟩⟩
  · exact ⟨found, h, .refl⟩

theorem peek_putNegative (h : (shard.putNegative key negative revision captured).peek other = some found) :
    other = key ∧ found = ⟨(shard.peek key).bind CacheValue.positive, some negative, revision, captured⟩ ∨
      other ≠ key ∧ shard.peek other = some found := by
  unfold putNegative at h
  split at h
  · rename_i value hv
    rw [peek_front shard key other _ shard.retained] at h
    split at h
    · refine .inl ⟨‹_›, ?_⟩
      rw [hv]
      exact (Option.some.inj h).symm
    · exact .inr ⟨‹_›, h⟩
  rename_i hn
  rw [hn]
  exact peek_put h

end

end CacheShard

end Honk.Dns
