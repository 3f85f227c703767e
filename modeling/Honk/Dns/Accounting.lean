import Honk.Dns.Shard

namespace Honk.Dns

open List Option

def CacheValue.Answers (value : CacheValue) : Prop := value.positive.isSome ∨ value.negative.isSome

namespace CacheShard

variable {K : Type} {entries : List (K × CacheValue)} {key : K} {value : CacheValue}

/-- The bytes of the positive answers that the slots hold. -/
def answerBytes (entries : List (K × CacheValue)) : ℕ :=
  (entries.filterMap fun slot => slot.2.positive.map fun entry => entry.response.length).sum

theorem answerBytes_cons (slot : K × CacheValue) (entries : List (K × CacheValue)) :
    answerBytes (slot :: entries) = slot.2.responseBytes + answerBytes entries := by
  unfold answerBytes CacheValue.responseBytes
  rw [filterMap_cons]
  cases slot.2.positive with
  | none => exact (Nat.zero_add _).symm
  | some entry => exact sum_cons

theorem answerBytes_concat : answerBytes (entries ++ [slot]) = answerBytes entries + slot.2.responseBytes := by
  rw [answerBytes, filterMap_append, sum_append]
  exact congrArg (answerBytes entries + ·) (answerBytes_cons slot [])

theorem answerBytes_perm (h : entries.Perm kept) : answerBytes entries = answerBytes kept := (h.filterMap _).sum_eq

/-- Trimming keeps the longest part from the front that fits the budget. -/
theorem trim_eq (budget : ℕ) (hf : entries.length ≤ fuel) :
    ∃ kept, trim budget fuel entries (answerBytes entries) = (kept, answerBytes kept) ∧ kept <+: entries ∧
      answerBytes kept ≤ budget ∧ ∀ part, part <+: entries → answerBytes part ≤ budget → part <+: kept := by
  induction fuel generalizing entries with
  | zero =>
    obtain rfl := length_eq_zero_iff.mp (Nat.le_zero.mp hf)
    exact ⟨[], rfl, prefix_rfl, Nat.zero_le _, fun part hpa _ => hpa⟩
  | succ fuel ih =>
    rw [trim]
    split_ifs with ho
    · obtain rfl | ⟨front, slot, rfl⟩ := entries.eq_nil_or_concat
      · exact absurd ho (Nat.not_lt_zero _)
      rw [concat_eq_append] at ho hf ⊢
      rw [getLast?_concat]
      dsimp only
      rw [dropLast_concat, answerBytes_concat, Nat.add_sub_cancel]
      rw [length_append, length_singleton] at hf
      obtain ⟨kept, hk, hpr, hfi, hl⟩ := ih (Nat.le_of_succ_le_succ hf)
      refine ⟨kept, hk, hpr.trans (prefix_append ..), hfi, fun part hpa hb => ?_⟩
      obtain rfl | hpa := prefix_concat_iff.mp hpa
      · exact absurd hb (Nat.not_le.mpr ho)
      · exact hl part hpa hb
    · exact ⟨entries, rfl, prefix_rfl, Nat.not_lt.mp ho, fun part hpa _ => hpa⟩

variable [DecidableEq K] {shard : CacheShard K} {capacity : ℕ}

structure Accounted (capacity : ℕ) (shard : CacheShard K) : Prop where
  cap : shard.cap = capacity
  keys : (shard.entries.map Prod.fst).Nodup
  retained : shard.retained = answerBytes shard.entries
  budget : shard.retained ≤ shard.budget
  slots : shard.entries.length ≤ shard.cap
  answers : ∀ slot ∈ shard.entries, slot.2.Answers

theorem perm_of_peek (hk : (shard.entries.map Prod.fst).Nodup) (hpe : shard.peek key = some value) :
    shard.entries.Perm ((key, value) :: shard.others key) := by
  obtain ⟨slot, hs, rfl⟩ := map_eq_some_iff.mp hpe
  obtain ⟨hke, front, back, he, hf⟩ := find?_eq_some_iff_append.mp hs
  obtain rfl := of_decide_eq_true hke
  rw [he, map_append, map_cons, nodup_middle] at hk
  have hd := (nodup_cons.mp hk).1
  have ho : shard.others slot.1 = front ++ back := by
    rw [others, he, filter_append, filter_cons_of_neg (by simp), ← filter_append]
    refine filter_eq_self.mpr fun other hot => decide_eq_true fun heq => hd ?_
    rw [← map_append, ← heq]
    exact mem_map_of_mem hot
  rw [ho, he]
  exact perm_middle

theorem notMem_keys (hpe : shard.peek key = none) : key ∉ shard.entries.map Prod.fst := by
  intro hk
  obtain ⟨slot, hs, rfl⟩ := mem_map.mp hk
  have hn := find?_eq_none.mp (map_eq_none_iff.mp hpe) slot hs
  simp at hn

theorem keys_others (key : K) (hk : (shard.entries.map Prod.fst).Nodup) :
    key ∉ (shard.others key).map Prod.fst ∧ ((shard.others key).map Prod.fst).Nodup := by
  refine ⟨fun hke => ?_, (filter_sublist.map _).nodup hk⟩
  obtain ⟨slot, hs, he⟩ := mem_map.mp hke
  simpa [he] using (mem_filter.mp hs).2

section

variable (h : Accounted capacity shard)
include h

/-- A slot that is looked at leaves the shard, or comes back at the front with no more bytes than it had. -/
theorem Accounted.replace (hpeek : shard.peek key = some value) (found : Option CacheValue) (ha : ∀ v ∈ found, v.Answers) (retained : ℕ)
    (hr : retained + value.responseBytes = shard.retained + (found.map CacheValue.responseBytes).getD 0)
    (hle : retained ≤ shard.retained) :
    Accounted capacity { shard with entries := (found.map (key, ·)).toList ++ shard.others key, retained := retained } := by
  have hpe := perm_of_peek h.keys hpeek
  have hb := answerBytes_perm hpe
  have hl := hpe.length_eq
  obtain ⟨hke, ho⟩ := keys_others key h.keys
  have hk : ∀ slot ∈ shard.others key, slot.2.Answers := fun slot hsl => h.answers slot (mem_filter.mp hsl).1
  have hs := h.slots
  rw [answerBytes_cons, ← h.retained] at hb
  dsimp only at hb
  rw [length_cons] at hl
  cases found with
  | none =>
    refine ⟨h.cap, ho, ?_, hle.trans h.budget, ?_, hk⟩
    · simp only [map_none, toList_none, nil_append, getD_none] at hr ⊢
      omega
    · simp only [map_none, toList_none, nil_append]
      omega
  | some found =>
    simp only [map_some, getD_some] at hr
    refine ⟨h.cap, nodup_cons.mpr ⟨hke, ho⟩, ?_, hle.trans h.budget, ?_, ?_⟩
    · simp only [map_some, toList_some, singleton_append, answerBytes_cons]
      omega
    · simp only [map_some, toList_some, singleton_append, length_cons]
      omega
    · exact forall_mem_cons.mpr ⟨ha found rfl, hk⟩

theorem Accounted.pushed (hc : 0 < capacity) (key : K) (hv : value.Answers) :
    answerBytes (shard.pushed key value) + ((shard.displaced key).map CacheValue.responseBytes).getD 0 =
      shard.retained + value.responseBytes ∧
      ((shard.pushed key value).map Prod.fst).Nodup ∧ (shard.pushed key value).length ≤ shard.cap ∧
      ∀ slot ∈ shard.pushed key value, slot.2.Answers := by
  have hs := h.slots
  have hc := h.cap ▸ hc
  unfold CacheShard.pushed displaced
  cases hpe : shard.peek key with
  | some old =>
    have hperm := perm_of_peek h.keys hpe
    have hl := hperm.length_eq
    rw [length_cons] at hl
    refine ⟨?_, nodup_cons.mpr (keys_others key h.keys), by rw [length_cons]; omega,
      forall_mem_cons.mpr ⟨hv, fun slot hsl => h.answers slot (mem_filter.mp hsl).1⟩⟩
    rw [h.retained, answerBytes_perm hperm, answerBytes_cons, answerBytes_cons]
    simp only [map_some, getD_some]
    omega
  | none =>
    have hke := notMem_keys hpe
    dsimp only
    split_ifs with hr
    · refine ⟨?_, nodup_cons.mpr ⟨hke, h.keys⟩, hr, forall_mem_cons.mpr ⟨hv, h.answers⟩⟩
      rw [answerBytes_cons, h.retained]
      exact Nat.add_comm value.responseBytes _
    obtain hn | ⟨front, slot, hf⟩ := shard.entries.eq_nil_or_concat
    · rw [hn] at hr
      exact absurd hc hr
    rw [concat_eq_append] at hf
    have hk := h.keys
    rw [hf, map_append] at hke hk
    rw [h.retained, hf, dropLast_concat, getLast?_concat, answerBytes_cons, answerBytes_concat]
    refine ⟨by simp only [map_some, getD_some]; omega, nodup_cons.mpr
      ⟨fun hm => hke (mem_append_left _ hm), hk.of_append_left⟩, ?_, forall_mem_cons.mpr
      ⟨hv, fun other ho => h.answers other (hf ▸ mem_append_left _ ho)⟩⟩
    rw [hf, length_append] at hs
    exact hs

/-- A value that fits the budget is there right after it is put. -/
theorem Accounted.put (hc : 0 < capacity) (key : K) (hv : value.Answers) : Accounted capacity (shard.put key value) ∧
      (value.responseBytes ≤ shard.budget → (shard.put key value).peek key = some value) := by
  obtain ⟨hb, hk, hs, ha⟩ := h.pushed hc key hv
  obtain ⟨kept, ht, hpa, hfi, hl⟩ := trim_eq shard.budget (le_refl (shard.pushed key value).length)
  have hpu : shard.put key value = { shard with entries := kept, retained := answerBytes kept } := by
    unfold CacheShard.put
    dsimp only
    rw [← hb, Nat.add_sub_cancel, ht]
  rw [hpu]
  refine ⟨⟨h.cap, (hpa.sublist.map _).nodup hk, rfl, hfi, hpa.length_le.trans hs,
    fun slot hsl => ha slot (hpa.subset hsl)⟩, fun hv => ?_⟩
  have hf : [(key, value)] <+: shard.pushed key value := by
    unfold CacheShard.pushed
    split <;> exact prefix_cons_inj _ |>.mpr nil_prefix
  obtain ⟨rest, hr⟩ := hl _ hf (by rw [answerBytes_cons]; exact hv)
  subst hr
  simp [peek]

end

inductive Operation (K : Type) where
  | put (key : K) (entry : CachedEntry) (revision captured : ℕ)
  | putNegative (key : K) (negative : NegativeEntry) (revision captured : ℕ)
  | dropPositive (key : K)
  | dropNegative (key : K)
  | get (key : K)
  | pop (key : K)
  | clear

def apply (shard : CacheShard K) : Operation K → CacheShard K
  | .put key entry revision captured => shard.put key (.ofPositive entry revision captured)
  | .putNegative key negative revision captured => shard.putNegative key negative revision captured
  | .dropPositive key => shard.dropPositive key
  | .dropNegative key => shard.dropNegative key
  | .get key => shard.get key
  | .pop key => shard.pop key
  | .clear => shard.clear

theorem Accounted.apply (h : Accounted capacity shard) (hca : 0 < capacity) (operation : Operation K) :
    Accounted capacity (shard.apply operation) := by
  -- A slot that `peek` finds has its bytes counted.
  have hc : ∀ {key value}, shard.peek key = some value → value.responseBytes ≤ shard.retained := fun hpe => by
    rw [h.retained, answerBytes_perm (perm_of_peek h.keys hpe), answerBytes_cons]
    exact Nat.le_add_right _ _
  have ha : ∀ {key value}, shard.peek key = some value → value.Answers := fun hpe =>
    h.answers _ ((perm_of_peek h.keys hpe).mem_iff.mpr mem_cons_self)
  cases operation with
  | put key entry revision captured => exact (h.put hca key (.inl rfl)).1
  | putNegative key negative revision captured =>
    rw [CacheShard.apply, CacheShard.putNegative]
    split
    · rename_i value hpe
      exact h.replace hpe (some { value with negative, revision, captured }) (by rintro _ ⟨⟩; exact .inr rfl) shard.retained
        rfl le_rfl
    · exact (h.put hca key (.inr rfl)).1
  | dropPositive key =>
    rw [CacheShard.apply, CacheShard.dropPositive]
    split
    · exact h
    rename_i value hpe
    have hb := hc hpe
    split_ifs with hn
    · exact h.replace hpe none nofun _ (Nat.sub_add_cancel hb) (Nat.sub_le _ _)
    refine h.replace hpe (some { value with positive := none }) ?_ _ (Nat.sub_add_cancel hb) (Nat.sub_le _ _)
    rintro _ ⟨⟩
    exact .inr (isSome_iff_ne_none.mpr (hn ∘ isNone_iff_eq_none.mpr))
  | dropNegative key =>
    rw [CacheShard.apply, CacheShard.dropNegative]
    split
    · exact h
    rename_i value hpe
    split_ifs with hn
    · refine h.replace hpe none nofun _ ?_ le_rfl
      rw [CacheValue.responseBytes, isNone_iff_eq_none.mp hn]
      rfl
    refine h.replace hpe (some { value with negative := none }) ?_ _ rfl le_rfl
    rintro _ ⟨⟩
    exact .inl (isSome_iff_ne_none.mpr (hn ∘ isNone_iff_eq_none.mpr))
  | get key =>
    rw [CacheShard.apply, CacheShard.get]
    split
    · rename_i value hpe
      exact h.replace hpe (some value) (by rintro _ ⟨⟩; exact ha hpe) _ rfl le_rfl
    · exact h
  | pop key =>
    rw [CacheShard.apply, CacheShard.pop]
    split
    · rename_i value hpe
      exact h.replace hpe none nofun _ (Nat.sub_add_cancel (hc hpe)) (Nat.sub_le _ _)
    · exact h
  | clear => exact ⟨h.cap, nodup_nil, rfl, Nat.zero_le _, Nat.zero_le _, nofun⟩

theorem accounted_run (hc : 0 < capacity) (operations : List (Operation K)) :
    Accounted capacity (operations.foldl apply { cap := capacity }) := by
  induction operations using List.reverseRecOn with
  | nil => exact ⟨rfl, nodup_nil, rfl, Nat.zero_le _, Nat.zero_le _, nofun⟩
  | append_singleton operations operation ih =>
    rw [foldl_append]
    exact ih.apply hc operation

end CacheShard

end Honk.Dns
