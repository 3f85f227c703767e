import Mathlib

namespace Honk.Lib.PrefixStack

open List

/-- A containment order on keys, laid out by `before` so that what a key contains follows it
without a gap. -/
structure Nested {K : Type} (contains : K → K → Bool) (before : K → K → Prop) (len : K → ℕ) : Prop where
  refl : ∀ a, contains a a
  trans : ∀ a b c, contains a b → contains b c → contains a c
  chain : ∀ a b c, contains a c → contains b c → len a ≤ len b → contains a b
  back : ∀ a b, before a b → ¬ contains b a
  gap : ∀ a b c, before a b → before b c → contains a c → contains a b

variable {K V : Type} (contains : K → K → Bool) (join : V → V → V)

def popTo (k : K) : List (K × V) → List (K × V)
  | [] => []
  | a :: stack => if contains a.1 k then a :: stack else popTo k stack

def joinTop (v : V) : List (K × V) → V
  | [] => v
  | a :: _ => join v a.2

def inheritFrom : List (K × V) → List (K × V) → List (K × V)
  | _, [] => []
  | stack, (k, v) :: entries =>
    let stack' := popTo contains k stack
    let v' := joinTop join v stack'
    (k, v') :: inheritFrom ((k, v') :: stack') entries

def longestMatch (len : K → ℕ) (k : K) : List (K × V) → Option (K × V)
  | [] => none
  | e :: entries =>
    match longestMatch len k entries with
    | none => if contains e.1 k then some e else none
    | some best => if contains e.1 k ∧ len best.1 < len e.1 then some e else some best

section

variable {contains} {join} {before : K → K → Prop} {len : K → ℕ}

theorem mem_popTo_of_contains {k : K} {stack : List (K × V)} {e : K × V} (he : e ∈ stack)
    (h : contains e.1 k) : e ∈ popTo contains k stack := by
  induction stack with
  | nil => exact he
  | cons a stack ih =>
    rw [popTo]
    split
    · exact he
    rename_i ha
    rcases mem_cons.mp he with rfl | he
    · exact absurd h ha
    · exact ih he

theorem popTo_suffix (k : K) (stack : List (K × V)) : popTo contains k stack <:+ stack := by
  induction stack with
  | nil => exact suffix_refl _
  | cons a stack ih =>
    rw [popTo]
    split
    · exact suffix_refl _
    · exact ih.trans (suffix_cons a stack)

theorem popTo_head_contains {k : K} {stack rest : List (K × V)} {e : K × V} (h : popTo contains k stack = e :: rest) : contains e.1 k := by
  induction stack with
  | nil => simp [popTo] at h
  | cons a stack ih =>
    rw [popTo] at h
    split at h
    · rename_i ha
      cases h
      exact ha
    · exact ih h

def Covered (contains : K → K → Bool) (test : V → Bool) (entries : List (K × V)) (k : K) : Prop :=
  ∃ e ∈ entries, contains e.1 k ∧ test e.2

structure Tracks (contains : K → K → Bool) (before : K → K → Prop) (test : V → Bool) (done stack : List (K × V)) : Prop where
  nested : stack.Pairwise (fun x y => contains y.1 x.1)
  value : ∀ e ∈ stack, (test e.2 ↔ Covered contains test done e.1)
  seen : ∀ e ∈ stack, ∃ d ∈ done, d.1 = e.1
  live : ∀ d ∈ done, ∀ c, (∀ d' ∈ done, before d'.1 c) → contains d.1 c → ∃ v, (d.1, v) ∈ stack

variable {test : V → Bool} {done stack : List (K × V)}

section

variable (hn : Nested contains before len) (h : Tracks contains before test done stack) (hj : ∀ a b, test (join a b) = (test a || test b)) (k : K) (v : V) (hk : ∀ d ∈ done, before d.1 k)
include hn h hj k v hk

theorem Tracks.covered_popTo : test (joinTop join v (popTo contains k stack)) ↔ Covered contains test (done ++ [(k, v)]) k := by
  have hse : test v → Covered contains test (done ++ [(k, v)]) k := fun hv => ⟨(k, v), by simp, hn.refl k, hv⟩
  have hsp : Covered contains test (done ++ [(k, v)]) k → test v ∨ Covered contains test done k := by
    rintro ⟨e, he, hc, ht⟩
    rcases mem_append.mp he with he | he
    · exact Or.inr ⟨e, he, hc, ht⟩
    rw [mem_singleton] at he
    subst he
    exact Or.inl ht
  have hl : Covered contains test done k → ∃ e ∈ popTo contains k stack, test e.2 := by
    rintro ⟨e, he, hc, ht⟩
    obtain ⟨w, hw⟩ := h.live e he k hk hc
    refine ⟨(e.1, w), mem_popTo_of_contains hw hc, ?_⟩
    exact (h.value _ hw).mpr ⟨e, he, hn.refl _, ht⟩
  cases hp : popTo contains k stack with
  | nil =>
    rw [joinTop]
    refine ⟨hse, fun hc => ?_⟩
    rcases hsp hc with hv | hc
    · exact hv
    obtain ⟨e, he, -⟩ := hl hc
    rw [hp] at he
    exact absurd he not_mem_nil
  | cons a rest =>
    have ha : a ∈ stack := (popTo_suffix k stack).subset (hp ▸ mem_cons_self)
    have hak : contains a.1 k := popTo_head_contains hp
    rw [joinTop, hj, Bool.or_eq_true]
    constructor
    · rintro (hv | hv)
      · exact hse hv
      · obtain ⟨e, he, hc, ht⟩ := (h.value a ha).mp hv
        exact ⟨e, mem_append_left _ he, hn.trans _ _ _ hc hak, ht⟩
    intro hc
    rcases hsp hc with hv | hc
    · exact Or.inl hv
    refine Or.inr ?_
    obtain ⟨e, he, ht⟩ := hl hc
    rw [hp] at he
    rcases mem_cons.mp he with rfl | he
    · exact ht
    -- everything below the head contains it
    · have hs : (a :: rest).Pairwise (fun x y => contains y.1 x.1) := h.nested.sublist (hp ▸ (popTo_suffix k stack).sublist)
      have hea : contains e.1 a.1 := (pairwise_cons.mp hs).1 e he
      have hes : e ∈ stack := (popTo_suffix k stack).subset (hp ▸ mem_cons_of_mem _ he)
      obtain ⟨d, hd, hdc, hdt⟩ := (h.value e hes).mp ht
      exact (h.value a ha).mpr ⟨d, hd, hn.trans _ _ _ hdc hea, hdt⟩

theorem Tracks.push : Tracks contains before test (done ++ [(k, v)])
      ((k, joinTop join v (popTo contains k stack)) :: popTo contains k stack) := by
  have hsu : popTo contains k stack ⊆ stack := (popTo_suffix k stack).subset
  refine ⟨pairwise_cons.mpr ⟨?_, ?_⟩, ?_, ?_, ?_⟩
  · intro e he
    cases hp : popTo contains k stack with
    | nil => simp [hp] at he
    | cons a rest =>
      have ha : contains a.1 k := popTo_head_contains hp
      have hs := h.nested.sublist (hp ▸ (popTo_suffix k stack).sublist)
      rw [hp] at he
      rcases mem_cons.mp he with rfl | he
      · exact ha
      · exact hn.trans _ _ _ ((pairwise_cons.mp hs).1 e he) ha
  · exact h.nested.sublist (popTo_suffix k stack).sublist
  · intro e he
    rcases mem_cons.mp he with rfl | he
    · exact h.covered_popTo hn hj k v hk
    rw [h.value e (hsu he)]
    constructor
    · rintro ⟨d, hd, hc, ht⟩
      exact ⟨d, mem_append_left _ hd, hc, ht⟩
    rintro ⟨d, hd, hc, ht⟩
    rcases mem_append.mp hd with hd | hd
    · exact ⟨d, hd, hc, ht⟩
    rw [mem_singleton] at hd
    subst hd
    obtain ⟨d, hd, hde⟩ := h.seen e (hsu he)
    exact absurd hc (hde ▸ hn.back _ _ (hk d hd))
  · intro e he
    rcases mem_cons.mp he with rfl | he
    · exact ⟨(k, v), by simp, rfl⟩
    · obtain ⟨d, hd, hde⟩ := h.seen e (hsu he)
      exact ⟨d, mem_append_left _ hd, hde⟩
  intro d hd c hc hdc
  have hkc : before k c := hc (k, v) (by simp)
  rcases mem_append.mp hd with hd | hd
  · obtain ⟨w, hw⟩ := h.live d hd c (fun d' hd' => hc d' (mem_append_left _ hd')) hdc
    have hdk : contains d.1 k := hn.gap _ _ _ (hk d hd) hkc hdc
    exact ⟨w, mem_cons_of_mem _ (mem_popTo_of_contains hw hdk)⟩
  rw [mem_singleton] at hd
  subst hd
  exact ⟨_, mem_cons_self⟩

end

theorem inheritFrom_forall₂ (hn : Nested contains before len) (hj : ∀ a b, test (join a b) = (test a || test b))
    (done stack entries : List (K × V)) (h : Tracks contains before test done stack)
    (hs : (done ++ entries).Pairwise (fun x y => before x.1 y.1)) :
    List.Forall₂ (fun e e' => e'.1 = e.1 ∧ (test e'.2 ↔ Covered contains test (done ++ entries) e.1))
      entries (inheritFrom contains join stack entries) := by
  induction entries generalizing done stack with
  | nil => exact List.Forall₂.nil
  | cons e entries ih =>
    obtain ⟨k, v⟩ := e
    obtain ⟨-, hr, hcr⟩ := pairwise_append.mp hs
    have hk : ∀ d ∈ done, before d.1 k := fun d hd => hcr d hd (k, v) mem_cons_self
    have ha : done ++ (k, v) :: entries = done ++ [(k, v)] ++ entries := by simp
    refine List.Forall₂.cons ⟨rfl, (h.covered_popTo hn hj k v hk).trans ⟨?_, ?_⟩⟩ ?_
    · rintro ⟨d, hd, hc, ht⟩
      exact ⟨d, ha ▸ mem_append_left _ hd, hc, ht⟩
    · rintro ⟨d, hd, hc, ht⟩
      rw [ha, mem_append] at hd
      rcases hd with hd | hd
      · exact ⟨d, hd, hc, ht⟩
      · exact absurd hc (hn.back _ _ ((pairwise_cons.mp hr).1 d hd))
    · rw [ha]
      exact ih _ _ (h.push hn hj k v hk) (ha ▸ hs)

theorem inherit_forall₂ (hn : Nested contains before len) (hj : ∀ a b, test (join a b) = (test a || test b))
    (entries : List (K × V)) (hs : entries.Pairwise (fun x y => before x.1 y.1)) :
    List.Forall₂ (fun e e' => e'.1 = e.1 ∧ (test e'.2 ↔ Covered contains test entries e.1))
      entries (inheritFrom contains join [] entries) :=
  inheritFrom_forall₂ hn hj [] [] entries ⟨List.Pairwise.nil, by simp, by simp, by simp⟩ hs

end

variable {contains} {before : K → K → Prop} {len : K → ℕ}

theorem forall₂_mem_left {α β : Type} {R : α → β → Prop} {l : List α} {m : List β}
    (h : List.Forall₂ R l m) {a : α} (ha : a ∈ l) : ∃ b ∈ m, R a b := by
  induction h with
  | nil => simp at ha
  | cons hr _ ih =>
    rcases mem_cons.mp ha with rfl | ha
    · exact ⟨_, mem_cons_self, hr⟩
    · obtain ⟨b, hb, hr⟩ := ih ha
      exact ⟨b, mem_cons_of_mem _ hb, hr⟩

theorem forall₂_mem_right {α β : Type} {R : α → β → Prop} {l : List α} {m : List β}
    (h : List.Forall₂ R l m) {b : β} (hb : b ∈ m) : ∃ a ∈ l, R a b :=
  forall₂_mem_left h.flip hb

theorem longestMatch_eq_none (k : K) (entries : List (K × V))
    (h : longestMatch contains len k entries = none) : ∀ e ∈ entries, ¬ contains e.1 k := by
  induction entries with
  | nil => simp
  | cons e entries ih =>
    rw [longestMatch] at h
    split at h
    · rename_i hr
      split at h
      · cases h
      · rename_i he
        exact forall_mem_cons.mpr ⟨he, ih hr⟩
    · split at h <;> cases h

theorem longestMatch_eq_some (k : K) (entries : List (K × V)) (best : K × V) (h : longestMatch contains len k entries = some best) :
    best ∈ entries ∧ contains best.1 k ∧ ∀ e ∈ entries, contains e.1 k → len e.1 ≤ len best.1 := by
  induction entries generalizing best with
  | nil => simp [longestMatch] at h
  | cons e entries ih =>
    rw [longestMatch] at h
    split at h
    · rename_i hr
      split at h
      · rename_i he
        cases h
        refine ⟨mem_cons_self, he, forall_mem_cons.mpr ⟨fun _ => le_rfl, fun a ha hc => ?_⟩⟩
        exact absurd hc (longestMatch_eq_none k entries hr a ha)
      · cases h
    rename_i b hr
    obtain ⟨hb, hbk, hm⟩ := ih b hr
    split at h
    · rename_i he
      cases h
      refine ⟨mem_cons_self, he.1, forall_mem_cons.mpr ⟨fun _ => le_rfl, fun a ha hc => ?_⟩⟩
      exact (hm a ha hc).trans he.2.le
    rename_i he
    cases h
    refine ⟨mem_cons_of_mem _ hb, hbk, forall_mem_cons.mpr ⟨fun hc => ?_, hm⟩⟩
    by_contra hl
    exact he ⟨hc, by omega⟩

theorem covered_of_longest {join : V → V → V} (test : V → Bool) (hn : Nested contains before len)
    (hj : ∀ a b, test (join a b) = (test a || test b)) {entries : List (K × V)}
    (hs : entries.Pairwise (fun x y => before x.1 y.1)) {k : K} {best : K × V}
    (hb : best ∈ inheritFrom contains join [] entries) (hbk : contains best.1 k)
    (hm : ∀ e ∈ inheritFrom contains join [] entries, contains e.1 k → len e.1 ≤ len best.1) :
    test best.2 ↔ Covered contains test entries k := by
  have hf := inherit_forall₂ hn hj entries hs
  obtain ⟨b, hb', hke, hv⟩ := forall₂_mem_right hf hb
  rw [hv]
  constructor
  · rintro ⟨e, he, hc, ht⟩
    exact ⟨e, he, hn.trans _ _ _ hc (hke ▸ hbk), ht⟩
  rintro ⟨e, he, hc, ht⟩
  obtain ⟨e', he', hke', -⟩ := forall₂_mem_left hf he
  have hl : len e.1 ≤ len b.1 := by
    have := hm e' he' (hke' ▸ hc)
    rwa [hke', hke] at this
  exact ⟨e, he, hn.chain _ _ _ hc (hke ▸ hbk) hl, ht⟩

theorem longestMatch_inherit (test : V → Bool) (hn : Nested contains before len)
    (hj : ∀ a b, test (join a b) = (test a || test b)) (entries : List (K × V))
    (hs : entries.Pairwise (fun x y => before x.1 y.1)) (k : K) :
    (longestMatch contains len k (inheritFrom contains join [] entries)).any (fun e => test e.2) ↔ Covered contains test entries k := by
  cases hl : longestMatch contains len k (inheritFrom contains join [] entries) with
  | none =>
    simp only [Option.any_none, Bool.false_eq_true, false_iff]
    rintro ⟨e, he, hc, -⟩
    obtain ⟨e', he', hr⟩ := forall₂_mem_left (inherit_forall₂ hn hj entries hs) he
    exact longestMatch_eq_none k _ hl e' he' (hr.1 ▸ hc)
  | some best =>
    obtain ⟨hb, hbk, hm⟩ := longestMatch_eq_some k _ best hl
    exact covered_of_longest test hn hj hs hb hbk hm

theorem inheritFrom_keys (stack entries : List (K × V)) :
    (inheritFrom contains join stack entries).map Prod.fst = entries.map Prod.fst := by
  induction entries generalizing stack with
  | nil => rfl
  | cons e entries ih => rw [inheritFrom, map_cons, map_cons, ih]

end Honk.Lib.PrefixStack
