import Honk.Lib.Bytes
import Honk.Lib.OrderedMap

namespace Honk.Quic

open Honk.Lib List

def maxCryptoStream : ℕ := 64 * 1024

structure CryptoReassembly where
  assembled : List Byte := []
  fragments : List (ℕ × List Byte) := []
  buffered : ℕ := 0
  overflowed : Bool := false

namespace CryptoReassembly

variable (r : CryptoReassembly)

def overflow : CryptoReassembly := { r with overflowed := true, fragments := [], buffered := 0 }

def drain : List Byte → List (ℕ × List Byte) → ℕ → List Byte × List (ℕ × List Byte) × ℕ
  | assembled, [], buffered => (assembled, [], buffered)
  | assembled, (offset, fragment) :: rest, buffered =>
    if assembled.length < offset then (assembled, (offset, fragment) :: rest, buffered)
    else
      let skip := assembled.length - offset
      drain (if skip < fragment.length then assembled ++ fragment.drop skip else assembled) rest
        (buffered - fragment.length)

def drainContiguous : CryptoReassembly :=
  let (assembled, fragments, buffered) := drain r.assembled r.fragments r.buffered
  let r := { r with assembled := assembled, fragments := fragments, buffered := buffered }
  if maxCryptoStream < r.assembled.length then r.overflow else r

def insertTrimmed (offset : ℕ) (data : List Byte) : CryptoReassembly :=
  if maxCryptoStream < data.length ∨ maxCryptoStream < r.buffered + data.length then r.overflow
  else
    let old := OrderedMap.get? offset r.fragments
    drainContiguous { r with
      fragments := OrderedMap.insert offset data r.fragments
      buffered := r.buffered + data.length - (old.map List.length).getD 0 }

def insert (offset : ℕ) (data : List Byte) : CryptoReassembly :=
  if r.overflowed then r
  else if offset < r.assembled.length then
    let skip := r.assembled.length - offset
    if data.length ≤ skip then r else r.insertTrimmed r.assembled.length (data.drop skip)
  else r.insertTrimmed offset data

def run (inserts : List (ℕ × List Byte)) : CryptoReassembly := inserts.foldl (fun r f => r.insert f.1 f.2) {}

end CryptoReassembly

section

def Cut (stream : List Byte) (f : ℕ × List Byte) : Prop :=
  f.1 + f.2.length ≤ stream.length ∧ f.2 = (stream.drop f.1).take f.2.length

def Covers (f : ℕ × List Byte) (p : ℕ) : Prop := f.1 ≤ p ∧ p < f.1 + f.2.length

def Covered (fs : List (ℕ × List Byte)) (p : ℕ) : Prop := ∃ f ∈ fs, Covers f p

noncomputable def coveredPrefix (fs : List (ℕ × List Byte)) : ℕ := sInf {p | ¬ Covered fs p}

theorem covered_cons (f : ℕ × List Byte) (fs : List (ℕ × List Byte)) (p : ℕ) :
    Covered (f :: fs) p ↔ Covers f p ∨ Covered fs p := by simp [Covered]

theorem covered_append (fs gs : List (ℕ × List Byte)) (p : ℕ) : Covered (fs ++ gs) p ↔ Covered fs p ∨ Covered gs p := by
  simp only [Covered, mem_append, or_and_right, exists_or]

variable {k offset : ℕ} {stream data : List Byte}

theorem eq_coveredPrefix (hb : ∀ p < k, Covered fs p) (hk : ¬ Covered fs k) : k = coveredPrefix fs := by
  apply le_antisymm
  · exact le_csInf ⟨k, hk⟩ fun p hp => not_lt.mp fun hl => hp (hb p hl)
  · exact csInf_le (OrderBot.bddBelow _) hk

section

variable (h : Cut stream (offset, data)) (hoffset : offset ≤ k)
include h hoffset

theorem Cut.drop_eq : data.drop (k - offset) = (stream.drop k).take (offset + data.length - k) := by
  have hd := h.2
  calc data.drop (k - offset)
      = ((stream.drop offset).take data.length).drop (k - offset) := by rw [← hd]
    _ = ((stream.drop offset).drop (k - offset)).take (data.length - (k - offset)) := by rw [drop_take]
    _ = (stream.drop k).take (offset + data.length - k) := by
      rw [drop_drop, show offset + (k - offset) = k by omega, show data.length - (k - offset) = offset + data.length - k by omega]

theorem Cut.append_drop (hk : k ≤ offset + data.length) : stream.take k ++ data.drop (k - offset) = stream.take (offset + data.length) := by
  rw [h.drop_eq hoffset, ← take_add, Nat.add_sub_cancel' hk]

theorem Cut.drop (hk : k ≤ offset + data.length) : Cut stream (k, data.drop (k - offset)) := by
  have hle : offset + data.length ≤ stream.length := h.1
  have hl : (data.drop (k - offset)).length = offset + data.length - k := by
    rw [length_drop]
    omega
  refine ⟨?_, ?_⟩
  · change k + (data.drop (k - offset)).length ≤ stream.length
    omega
  · change data.drop (k - offset) = (stream.drop k).take (data.drop (k - offset)).length
    rw [hl, h.drop_eq hoffset]

end

end

namespace CryptoReassembly

structure Holds (stream : List Byte) (inserts : List (ℕ × List Byte)) (r : CryptoReassembly) : Prop where
  le_stream : r.assembled.length ≤ stream.length
  assembled_eq : r.assembled = stream.take r.assembled.length
  ordered : OrderedMap.Ordered r.fragments
  beyond : ∀ f ∈ r.fragments, r.assembled.length < f.1
  cut : ∀ f ∈ r.fragments, Cut stream f
  covered : ∀ p, Covered inserts p ↔ p < r.assembled.length ∨ Covered r.fragments p
  overflowed : r.overflowed = false

variable {stream assembled assembled' data : List Byte} {fragments fragments' inserts : List (ℕ × List Byte)}
  {buffered' offset : ℕ} {r : CryptoReassembly} {f : ℕ × List Byte}

theorem drain_spec (buffered : ℕ) (hle : assembled.length ≤ stream.length)
    (heq : assembled = stream.take assembled.length) (ho : OrderedMap.Ordered fragments) (hcu : ∀ f ∈ fragments, Cut stream f)
    (h : drain assembled fragments buffered = (assembled', fragments', buffered')) :
    assembled'.length ≤ stream.length ∧ assembled' = stream.take assembled'.length ∧
      OrderedMap.Ordered fragments' ∧ (∀ f ∈ fragments', assembled'.length < f.1) ∧ (∀ f ∈ fragments', Cut stream f) ∧
      ∀ p, (p < assembled'.length ∨ Covered fragments' p) ↔ (p < assembled.length ∨ Covered fragments p) := by
  induction fragments generalizing assembled buffered with
  | nil =>
    cases h
    exact ⟨hle, heq, ho, by simp, by simp, fun p => Iff.rfl⟩
  | cons first rest ih =>
    obtain ⟨offset, data⟩ := first
    obtain ⟨hfi, hr⟩ := pairwise_cons.mp ho
    obtain ⟨hcutFirst, hcutRest⟩ := forall_mem_cons.mp hcu
    by_cases hg : assembled.length < offset
    · rw [drain, if_pos hg] at h
      cases h
      refine ⟨hle, heq, ho, ?_, hcu, fun p => Iff.rfl⟩
      rw [forall_mem_cons]
      exact ⟨hg, fun f hf => hg.trans (hfi f hf)⟩
    have hn : offset ≤ assembled.length := not_lt.mp hg
    have hen : offset + data.length ≤ stream.length := hcutFirst.1
    rw [drain, if_neg hg] at h
    dsimp only at h
    by_cases he : assembled.length - offset < data.length
    · rw [if_pos he] at h
      -- The prefix now ends where the fragment does.
      have ha : assembled ++ data.drop (assembled.length - offset) = stream.take (offset + data.length) := by
        conv_lhs => rw [heq]
        rw [length_take, min_eq_left hle]
        exact hcutFirst.append_drop hn (by omega)
      have hl : (stream.take (offset + data.length)).length = offset + data.length := by rw [length_take, min_eq_left hen]
      rw [ha] at h
      obtain ⟨h1, h2, h3, h4, h5, hc⟩ := ih _ (by omega) (by rw [hl]) hr hcutRest h
      refine ⟨h1, h2, h3, h4, h5, fun p => ?_⟩
      rw [hc p, hl, covered_cons, Covers]
      constructor
      · rintro (hp | hp)
        · rcases Nat.lt_or_ge p assembled.length with hp' | hp'
          · exact .inl hp'
          · exact .inr (.inl ⟨hn.trans hp', hp⟩)
        · exact .inr (.inr hp)
      rintro (hp | hp | hp)
      · exact .inl (by omega)
      · exact .inl hp.2
      · exact .inr hp
    rw [if_neg he] at h
    obtain ⟨h1, h2, h3, h4, h5, hc⟩ := ih _ hle heq hr hcutRest h
    refine ⟨h1, h2, h3, h4, h5, fun p => ?_⟩
    have hin : Covers (offset, data) p → p < assembled.length := fun hp => by
      have : p < offset + data.length := hp.2
      omega
    rw [hc p, covered_cons]
    tauto

structure Accounts (r : CryptoReassembly) : Prop where
  ordered : OrderedMap.Ordered r.fragments
  buffered_eq : r.buffered = (r.fragments.map fun f => f.2.length).sum

theorem accounts_drain {buffered : ℕ} (ho : OrderedMap.Ordered fragments) (hb : buffered = (fragments.map fun f => f.2.length).sum)
    (h : drain assembled fragments buffered = (assembled', fragments', buffered')) :
    OrderedMap.Ordered fragments' ∧ buffered' = (fragments'.map fun f => f.2.length).sum := by
  induction fragments generalizing assembled buffered with
  | nil =>
    cases h
    exact ⟨ho, hb⟩
  | cons first rest ih =>
    rw [drain] at h
    split_ifs at h with hg
    · cases h
      exact ⟨ho, hb⟩
    · refine ih (pairwise_cons.mp ho).2 ?_ h
      rw [hb, map_cons, sum_cons, Nat.add_sub_cancel_left]

theorem Accounts.drainContiguous (h : Accounts r) : Accounts r.drainContiguous := by
  obtain ⟨ho, hb⟩ := accounts_drain h.ordered h.buffered_eq (show drain _ _ _ = (_, _, _) from rfl)
  rw [CryptoReassembly.drainContiguous]
  dsimp only
  split_ifs
  · exact ⟨List.Pairwise.nil, rfl⟩
  · exact ⟨ho, hb⟩

theorem Accounts.insertTrimmed (h : Accounts r) : Accounts (r.insertTrimmed offset data) := by
  rw [CryptoReassembly.insertTrimmed]
  split_ifs
  · exact ⟨List.Pairwise.nil, rfl⟩
  have hs := OrderedMap.sum_insert List.length offset data h.ordered
  apply Accounts.drainContiguous
  refine ⟨OrderedMap.ordered_insert h.ordered, ?_⟩
  dsimp only
  rw [h.buffered_eq]
  omega

theorem Accounts.insert (h : Accounts r) (offset : ℕ) (data : List Byte) : Accounts (r.insert offset data) := by
  rw [CryptoReassembly.insert]
  dsimp only
  split_ifs
  · exact h
  · exact h
  · exact h.insertTrimmed
  · exact h.insertTrimmed

section

variable (inserts : List (ℕ × List Byte))

theorem run_append (f : ℕ × List Byte) : run (inserts ++ [f]) = (run inserts).insert f.1 f.2 := by simp [run]

theorem accounts_run : Accounts (run inserts) := by
  induction inserts using List.reverseRecOn with
  | nil => exact ⟨List.Pairwise.nil, rfl⟩
  | append_singleton inserts f ih =>
    rw [run_append]
    exact ih.insert f.1 f.2

structure Admits (r : CryptoReassembly) (f : ℕ × List Byte) : Prop where
  no_longer : ∀ old, (f.1, old) ∈ r.fragments → old.length ≤ f.2.length
  room : r.buffered + (f.1 + f.2.length - max f.1 r.assembled.length) ≤ maxCryptoStream

def Undisturbed : Prop := ∀ before f after, inserts = before ++ f :: after → (run before).Admits f

end

theorem covered_insert (ho : OrderedMap.Ordered fragments) (hold : ∀ old, (offset, old) ∈ fragments → old.length ≤ data.length) (p : ℕ) :
    Covered (OrderedMap.insert offset data fragments) p ↔ Covers (offset, data) p ∨ Covered fragments p := by
  constructor
  · rintro ⟨f, hf, hp⟩
    rcases (OrderedMap.mem_insert ho f).mp hf with rfl | ⟨hf, -⟩
    · exact .inl hp
    · exact .inr ⟨f, hf, hp⟩
  rintro (hp | ⟨⟨offset', old⟩, hf, hp⟩)
  · exact ⟨(offset, data), (OrderedMap.mem_insert ho _).mpr (.inl rfl), hp⟩
  by_cases hoffset : offset' = offset
  · subst hoffset
    refine ⟨(offset', data), (OrderedMap.mem_insert ho _).mpr (.inl rfl), hp.1, ?_⟩
    exact lt_of_lt_of_le hp.2 (Nat.add_le_add_left (hold old hf) offset')
  · exact ⟨(offset', old), (OrderedMap.mem_insert ho _).mpr (.inr ⟨hf, hoffset⟩), hp⟩

section

variable (hs : stream.length < maxCryptoStream)
include hs

theorem Holds.insertTrimmed (h : Holds stream inserts r) (hcu : Cut stream (offset, data)) (hr : r.buffered + data.length ≤ maxCryptoStream)
    (hold : ∀ old, (offset, old) ∈ r.fragments → old.length ≤ data.length)
    (hf : ∀ p, p < r.assembled.length ∨ Covers f p ↔ p < r.assembled.length ∨ Covers (offset, data) p) :
    Holds stream (inserts ++ [f]) (r.insertTrimmed offset data) := by
  have hcuts : ∀ g ∈ OrderedMap.insert offset data r.fragments, Cut stream g := by
    intro g hg
    rcases (OrderedMap.mem_insert h.ordered g).mp hg with rfl | ⟨hg, -⟩
    · exact hcu
    · exact h.cut g hg
  rw [CryptoReassembly.insertTrimmed, if_neg (by omega)]
  dsimp only [CryptoReassembly.drainContiguous]
  generalize hd : drain r.assembled _ _ = drained
  obtain ⟨assembled', fragments', buffered'⟩ := drained
  obtain ⟨hl, he, ho, hb, hcu', hc⟩ := drain_spec _ h.le_stream h.assembled_eq (OrderedMap.ordered_insert h.ordered) hcuts hd
  dsimp only
  rw [if_neg (by omega)]
  refine ⟨hl, he, ho, hb, hcu', fun p => ?_, h.overflowed⟩
  rw [hc p, covered_insert h.ordered hold, covered_append, h.covered p, covered_cons]
  have hp := hf p
  have hn : ¬ Covered [] p := by simp [Covered]
  tauto

theorem Holds.insert (h : Holds stream inserts r) (hc : Cut stream f)
    (ha : r.Admits f) : Holds stream (inserts ++ [f]) (r.insert f.1 f.2) := by
  obtain ⟨offset, data⟩ := f
  have hr := ha.room
  dsimp only at hr ⊢
  rw [CryptoReassembly.insert, if_neg (by simp [h.overflowed])]
  by_cases ht : offset < r.assembled.length
  · rw [if_pos ht]
    dsimp only
    by_cases hin : data.length ≤ r.assembled.length - offset
    · rw [if_pos hin]
      refine { h with covered := fun p => ?_ }
      have hp : Covers (offset, data) p → p < r.assembled.length := fun hp => by
        have : p < offset + data.length := hp.2
        omega
      have hn : ¬ Covered [] p := by simp [Covered]
      rw [covered_append, covered_cons, h.covered p]
      tauto
    rw [if_neg hin]
    refine h.insertTrimmed hs (hc.drop ht.le (by omega)) ?_ ?_ fun p => ?_
    · rw [length_drop]
      omega
    · intro old hm
      exact absurd (h.beyond _ hm) (lt_irrefl _)
    · simp only [Covers, length_drop]
      omega
  · rw [if_neg ht]
    refine h.insertTrimmed hs hc (by omega) ha.no_longer fun p => Iff.rfl

theorem holds_run (hc : ∀ f ∈ inserts, Cut stream f) (h : Undisturbed inserts) : Holds stream inserts (run inserts) := by
  induction inserts using List.reverseRecOn with
  | nil => exact ⟨Nat.zero_le _, rfl, List.Pairwise.nil, by simp [run], by simp [run], by simp [run, Covered], rfl⟩
  | append_singleton inserts f ih =>
    have hb : Holds stream inserts (run inserts) := by
      refine ih (fun g hg => hc g (by simp [hg])) fun before g after he => ?_
      exact h before g (after ++ [f]) (by simp [he])
    rw [run_append]
    exact hb.insert hs (hc f (by simp)) (h inserts f [] rfl)

end

/-- While nothing held is dropped, the prefix assembled is the longest one that the fragments cover, whatever their
order; the count is that of the fragments held in every case. -/
theorem run_reassembles (stream : List Byte) (hstream : stream.length < maxCryptoStream)
    (inserts : List (ℕ × List Byte)) (hcut : ∀ f ∈ inserts, Cut stream f) :
    (run inserts).buffered = ((run inserts).fragments.map fun f => f.2.length).sum ∧ (Undisturbed inserts →
        (run inserts).assembled = stream.take (coveredPrefix inserts) ∧ (run inserts).overflowed = false) := by
  refine ⟨(accounts_run inserts).buffered_eq, fun h => ?_⟩
  have hh := holds_run hstream hcut h
  have hl : (run inserts).assembled.length = coveredPrefix inserts := by
    apply eq_coveredPrefix
    · exact fun p hp => (hh.covered p).mpr (.inl hp)
    rw [hh.covered]
    rintro (hlt | ⟨f, hf, hp⟩)
    · exact lt_irrefl _ hlt
    · exact absurd (hh.beyond f hf) (not_lt.mpr hp.1)
  exact ⟨hl ▸ hh.assembled_eq, hh.overflowed⟩

theorem run_reassembles_two :
    (run [(1, [2]), (0, [1])]).assembled = ([1, 2] : List Byte).take (coveredPrefix [(1, [2]), (0, [1])]) := by
  have hu : Undisturbed [(1, [2]), (0, [1])] := by
    intro before f after h
    match before, h with
    | [], h =>
      obtain rfl : (1, [2]) = f := by simpa using congrArg List.head? h
      exact ⟨by simp [run], by decide⟩
    | [_], h =>
      simp only [cons_append, nil_append, List.cons.injEq] at h
      obtain ⟨rfl, rfl, -⟩ := h
      have hf : (run [(1, [2])]).fragments = [(1, [2])] := by decide +kernel
      refine ⟨fun old hold => ?_, by decide⟩
      rw [hf] at hold
      simp at hold
    | _ :: _ :: rest, h =>
      have := congrArg List.length h
      simp only [length_cons, length_append, length_nil] at this
      omega
  exact ((run_reassembles [1, 2] (by decide) [(1, [2]), (0, [1])] (by simp [Cut])).2 hu).1

theorem insert_twice_overflows (hl : data.length ≤ maxCryptoStream) (h : maxCryptoStream < data.length + data.length) :
    (run [(1, data), (1, data)]).overflowed = true := by
  have hf : run [(1, data)] = { fragments := [(1, data)], buffered := data.length } := by
    simp [run, CryptoReassembly.insert, CryptoReassembly.insertTrimmed, CryptoReassembly.drainContiguous, drain,
      OrderedMap.insert, OrderedMap.get?, not_lt.mpr hl]
  have ht : run [(1, data), (1, data)] = (run [(1, data)]).insert 1 data := run_append [(1, data)] (1, data)
  rw [ht, hf]
  simp [CryptoReassembly.insert, CryptoReassembly.insertTrimmed, CryptoReassembly.overflow, h]

theorem cut_replicate (n : ℕ) : Cut (List.replicate (n + 1) 0) (1, List.replicate n 0) := by simp [Cut, Nat.add_comm]

def shrinking : List (ℕ × List Byte) := [(1, [2, 3, 4]), (1, [2]), (0, [1])]

theorem run_reassembles_shrinking :
    (∀ f ∈ shrinking, Cut [1, 2, 3, 4] f) ∧ (run shrinking).assembled = [1, 2] ∧ coveredPrefix shrinking = 4 ∧
      (run shrinking.reverse).assembled = [1, 2, 3, 4] ∧
      (∀ f ∈ [(1, List.replicate 40000 0), (1, List.replicate 40000 0)], Cut (List.replicate 40001 0) f) ∧
      (run [(1, List.replicate 40000 0), (1, List.replicate 40000 0)]).overflowed = true := by
  refine ⟨by simp [shrinking, Cut], by decide +kernel, ?_, by decide +kernel, ?_, ?_⟩
  · refine (eq_coveredPrefix (fun p hp => ?_) ?_).symm
    · simp only [shrinking, Covered, Covers, mem_cons, not_mem_nil, or_false]
      rcases Nat.eq_zero_or_pos p with rfl | hpo
      · exact ⟨(0, [1]), by simp, by simp⟩
      · exact ⟨(1, [2, 3, 4]), by simp, hpo, by simpa using hp⟩
    · simp [shrinking, Covered, Covers]
  · intro f hf
    obtain rfl : f = (1, List.replicate 40000 0) := by simpa only [mem_cons, not_mem_nil, or_false, or_self] using hf
    exact cut_replicate 40000
  · exact insert_twice_overflows (by rw [length_replicate]; decide) (by rw [length_replicate]; decide)

end CryptoReassembly

end Honk.Quic
