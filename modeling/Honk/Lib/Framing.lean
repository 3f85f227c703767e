import Honk.Lib.Bytes

namespace Honk.Lib

open List

structure Framing (ε α : Type) where
  header : ℕ
  header_pos : 0 < header
  pad : ℕ → ℕ
  le_pad (n : ℕ) : n ≤ pad n
  lengthAt : List Byte → ℕ
  decode : List Byte → α
  truncated : ε
  invalid : ℕ → ε
  unpadded : ε

structure Cursor where
  bytes : List Byte
  offset : ℕ
  failed : Bool
  inside : offset ≤ bytes.length

namespace Cursor

def start (bytes : List Byte) : Cursor := ⟨bytes, 0, false, Nat.zero_le _⟩

variable (c : Cursor)

def rest : List Byte := c.bytes.drop c.offset

def fail : Cursor := { c with failed := true }

def advance (n : ℕ) : Cursor :=
  { c with
    offset := c.offset + min n c.rest.length
    inside := by
      have h := c.inside
      simp only [rest, length_drop]
      omega }

theorem rest_advance (n : ℕ) : (c.advance n).rest = c.rest.drop n := by
  simp only [advance, rest, drop_drop]
  rcases le_total n (c.bytes.length - c.offset) with h | h
  · rw [length_drop, min_eq_left h]
  · rw [length_drop, min_eq_right h, drop_eq_nil_of_le (by omega), drop_eq_nil_of_le (by omega)]

theorem rest_eq_nil_iff : c.rest = [] ↔ c.offset = c.bytes.length := by
  have h := c.inside
  simp only [rest, drop_eq_nil_iff]
  omega

end Cursor

namespace Framing

variable {ε α : Type} (f : Framing ε α)

def read (rest : List Byte) : Except ε (List Byte × ℕ) :=
  if rest.length < f.header then .error f.truncated
  else
    let length := f.lengthAt rest
    if length < f.header ∨ rest.length < length then .error (f.invalid length)
    else if rest.length < f.pad length ∧ length ≠ rest.length then .error f.unpadded
    else .ok (rest.take length, f.pad length)

theorem read_ok (h : f.read rest = .ok (record, n)) : record <+: rest ∧ f.header ≤ n := by
  simp only [read] at h
  split_ifs at h with _ hl _
  obtain ⟨rfl, rfl⟩ : rest.take (f.lengthAt rest) = record ∧ f.pad (f.lengthAt rest) = n := by simpa using h
  have := f.le_pad (f.lengthAt rest)
  exact ⟨ take_prefix _ _, by omega⟩

def next (c : Cursor) : Option (Except ε α) × Cursor :=
  if c.failed ∨ c.offset = c.bytes.length then (none, c)
  else
    match f.read c.rest with
    | .error e => (some (.error e), c.fail)
    | .ok (record, n) => (some (.ok (f.decode record)), c.advance n)

def output : Cursor → ℕ → Option (Except ε α)
  | c, 0 => (f.next c).1
  | c, k + 1 => output (f.next c).2 k

def Yields (bytes : List Byte) (items : List (Except ε α)) : Prop := ∀ k, f.output (Cursor.start bytes) k = items[k]?

def collectFrom : ℕ → List Byte → List (Except ε α)
  | 0, _ => []
  | fuel + 1, rest =>
    if rest = [] then []
    else
      match f.read rest with
      | .error e => [.error e]
      | .ok (record, n) => .ok (f.decode record) :: collectFrom fuel (rest.drop n)

def collect (bytes : List Byte) : List (Except ε α) := f.collectFrom bytes.length bytes

section

variable {f}

theorem output_none {c : Cursor} (h : c.failed ∨ c.offset = c.bytes.length) : f.output c k = none := by
  have hn : f.next c = (none, c) := if_pos h
  induction k with
  | zero => rw [output, hn]
  | succ k ih => rw [output, hn, ih]

theorem output_eq_collectFrom (fuel : ℕ) (c : Cursor) (hc : c.failed = false) (hf : c.rest.length ≤ fuel)
    (k : ℕ) : f.output c k = (f.collectFrom fuel c.rest)[k]? := by
  induction fuel generalizing c k with
  | zero =>
    have hni : c.rest = [] := eq_nil_of_length_eq_zero (by omega)
    rw [output_none (.inr (c.rest_eq_nil_iff.mp hni)), collectFrom, getElem?_nil]
  | succ fuel ih =>
    rw [collectFrom]
    by_cases hni : c.rest = []
    · rw [output_none (.inr (c.rest_eq_nil_iff.mp hni)), if_pos hni, getElem?_nil]
    rw [if_neg hni]
    have ho : ¬ (c.failed ∨ c.offset = c.bytes.length) := by
      rw [hc, ← c.rest_eq_nil_iff]
      simpa using hni
    cases hr : f.read c.rest with
    | error e =>
      have hs : f.next c = (some (.error e), c.fail) := by rw [next, if_neg ho, hr]
      cases k with
      | zero => rw [output, hs]; rfl
      | succ k => rw [output, hs, output_none (.inl rfl)]; rfl
    | ok found =>
      obtain ⟨record, n⟩ := found
      have hs : f.next c = (some (.ok (f.decode record)), c.advance n) := by rw [next, if_neg ho, hr]
      have hn := (f.read_ok hr).2
      have hpo := f.header_pos
      cases k with
      | zero => rw [output, hs]; rfl
      | succ k =>
        rw [output, hs, getElem?_cons_succ, ← c.rest_advance]
        apply ih (c.advance n) hc
        rw [c.rest_advance, length_drop]
        omega

theorem yields_collect (bytes : List Byte) : f.Yields bytes (f.collect bytes) :=
  fun k => output_eq_collectFrom bytes.length (Cursor.start bytes) rfl le_rfl k

end

theorem length_collectFrom_le (fuel : ℕ) (rest : List Byte) : (f.collectFrom fuel rest).length ≤ rest.length := by
  induction fuel generalizing rest with
  | zero => simp [collectFrom]
  | succ fuel ih =>
    rw [collectFrom]
    split_ifs with hni
    · simp
    have hl := length_pos_iff.mpr hni
    cases hr : f.read rest with
    | error e => exact hl
    | ok found =>
      have hn := (f.read_ok hr).2
      have hpo := f.header_pos
      have hre := ih (rest.drop found.2)
      simp only [length_cons, length_drop] at hre ⊢
      omega

theorem collectFrom_error (fuel : ℕ) (rest : List Byte) (k : ℕ) (e : ε)
    (h : (f.collectFrom fuel rest)[k]? = some (.error e)) : (f.collectFrom fuel rest).length = k + 1 := by
  induction fuel generalizing rest k with
  | zero => simp [collectFrom] at h
  | succ fuel ih =>
    rw [collectFrom] at h ⊢
    split_ifs at h ⊢ with hn
    · simp at h
    cases hr : f.read rest with
    | error e' =>
      rw [hr] at h
      cases k with
      | zero => rfl
      | succ k => simp at h
    | ok found =>
      rw [hr] at h
      cases k with
      | zero => simp at h
      | succ k => simpa using ih (rest.drop found.2) k (by simpa using h)

theorem collectFrom_inside (fuel : ℕ) (rest : List Byte) (a : α) (h : .ok a ∈ f.collectFrom fuel rest) :
    ∃ record, record <:+: rest ∧ f.decode record = a := by
  induction fuel generalizing rest with
  | zero => simp [collectFrom] at h
  | succ fuel ih =>
    rw [collectFrom] at h
    split_ifs at h with hn
    · simp at h
    cases hr : f.read rest with
    | error e => simp [hr] at h
    | ok found =>
      rw [hr] at h
      rcases mem_cons.mp h with he | ht
      · exact ⟨found.1, (f.read_ok hr).1.isInfix, by simpa using he.symm⟩
      · obtain ⟨record, hin, hd⟩ := ih _ ht
        exact ⟨record, hin.trans (drop_suffix _ _).isInfix, hd⟩

structure Sealed (record : List Byte) : Prop where
  header_le : f.header ≤ record.length
  lengthAt_append (tail : List Byte) : f.lengthAt (record ++ tail) = record.length

def padded (record : List Byte) : List Byte := record ++ List.replicate (f.pad record.length - record.length) 0

@[simp] theorem length_padded (record : List Byte) : (f.padded record).length = f.pad record.length := by
  have := f.le_pad record.length
  simp only [padded, length_append, length_replicate]
  omega

variable {f}

theorem read_padded (h : f.Sealed record) (tail : List Byte) : f.read (f.padded record ++ tail) = .ok (record, f.pad record.length) := by
  have hl : f.lengthAt (f.padded record ++ tail) = record.length := by rw [padded, append_assoc, h.lengthAt_append]
  have hpa := f.le_pad record.length
  have hh := h.header_le
  have ht : (f.padded record ++ tail).take record.length = record := by simp [padded]
  rw [read, if_neg (by rw [length_append, length_padded]; omega)]
  simp only [hl, length_append, length_padded]
  rw [if_neg (by omega), if_neg (by omega), ht]

theorem collectFrom_padded {records : List (List Byte)} (h : ∀ record ∈ records, f.Sealed record) (fuel : ℕ)
    (hf : (records.flatMap f.padded).length ≤ fuel) :
    f.collectFrom fuel (records.flatMap f.padded) = records.map fun record => .ok (f.decode record) := by
  induction records generalizing fuel with
  | nil => cases fuel <;> simp [collectFrom]
  | cons record records ih =>
    have hs := h record (by simp)
    have hpo : 0 < f.pad record.length := by
      have := f.header_pos
      have := hs.header_le
      have := f.le_pad record.length
      omega
    rw [flatMap_cons, length_append, length_padded] at hf
    obtain ⟨fuel, rfl⟩ : ∃ m, fuel = m + 1 := ⟨fuel - 1, by omega⟩
    have hne : f.padded record ++ records.flatMap f.padded ≠ [] := by
      intro hn
      have := congrArg List.length hn
      rw [length_append, length_padded, length_nil] at this
      omega
    have hd : (f.padded record ++ records.flatMap f.padded).drop (f.pad record.length) =
        records.flatMap f.padded := drop_left' (f.length_padded record)
    rw [flatMap_cons, collectFrom, if_neg hne, read_padded hs]
    simp only [hd, map_cons]
    rw [ih (fun r hr => h r (mem_cons_of_mem _ hr)) fuel (by omega)]

theorem yields_padded {records : List (List Byte)} (h : ∀ record ∈ records, f.Sealed record) :
    f.Yields (records.flatMap f.padded) (records.map fun record => .ok (f.decode record)) := by
  rw [← collectFrom_padded h _ le_rfl]
  exact yields_collect _

end Framing

end Honk.Lib
