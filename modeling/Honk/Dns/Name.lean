import Honk.Lib.Bytes
import Honk.Lib.Position

namespace Honk.Dns

open Honk.Lib List
open Option (bind_eq_some_iff bind_some)

def maxPointerHops : ℕ := 128

def isPointer (octet : Byte) : Bool := octet &&& 0xc0 = 0xc0

def pointerTarget (octet second : Byte) : ℕ := (octet &&& 0x3f).toNat * 256 + second.toNat

def parseNameFrom (raw : List Byte) : ℕ → ℕ → Option ℕ → ℕ → List Byte → Option (List Byte × ℕ)
  | 0, _, _, _, _ => none
  | fuel + 1, cursor, stop, hops, wire =>
    raw[cursor]?.bind fun octet =>
      if isPointer octet then
        raw[cursor + 1]?.bind fun second =>
          if cursor ≤ pointerTarget octet second ∨ maxPointerHops < hops + 1 then none
          else parseNameFrom raw fuel (pointerTarget octet second) (stop.or (some (cursor + 2))) (hops + 1) wire
      else if octet &&& 0xc0 ≠ 0 ∨ 63 < octet.toNat ∨ 255 ≤ wire.length then none
      else if octet = 0 then some (wire ++ [octet], stop.getD (cursor + 1))
      else if 255 < wire.length + 1 + octet.toNat then none
      else (slice? raw (cursor + 1) (cursor + 1 + octet.toNat)).bind fun label =>
        parseNameFrom raw fuel (cursor + 1 + octet.toNat) stop hops (wire ++ octet :: label)

/-- A round follows a pointer or adds an octet at least. -/
def parseNameInto (raw : List Byte) (start : ℕ) : Option (List Byte × ℕ) := parseNameFrom raw 384 start none 0 []

def skipFrom (data : List Byte) : ℕ → ℕ → Option ℕ
  | 0, _ => none
  | fuel + 1, pos =>
    data[pos]?.bind fun len =>
      if len = 0 then some (pos + 1)
      else if isPointer len then if data.length < pos + 2 then none else some (pos + 2)
      else if 63 < len.toNat then none
      else if data.length < pos + 1 + len.toNat then none
      else skipFrom data fuel (pos + 1 + len.toNat)

def skipDnsName (data : List Byte) (pos : ℕ) : Option ℕ := skipFrom data (data.length + 1) pos

/-- `jumped` is the end of the name once a pointer has been followed. -/
def skipStrictFrom (data : List Byte) : ℕ → List ℕ → ℕ → ℕ → Option ℕ → ℕ → Option (ℕ × List ℕ)
  | 0, _, _, _, _, _ => none
  | fuel + 1, boundaries, cursor, expanded, jumped, depth =>
    if 128 < depth ∨ jumped.isSome ∧ cursor ∉ boundaries then none
    else data[cursor]?.bind fun octet =>
      let boundaries := if jumped.isSome then boundaries else cursor :: boundaries
      if octet = 0 then if 255 < expanded + 1 then none else some (jumped.getD (cursor + 1), boundaries)
      else if isPointer octet then
        data[cursor + 1]?.bind fun second =>
          if cursor ≤ pointerTarget octet second ∨ pointerTarget octet second ∉ boundaries then none
          else skipStrictFrom data fuel boundaries (pointerTarget octet second) expanded (jumped.or (some (cursor + 2))) (depth + 1)
      else if 63 < octet.toNat ∨ 255 < expanded + (1 + octet.toNat) ∨ data.length < cursor + (1 + octet.toNat) then none
      else skipStrictFrom data fuel boundaries (cursor + (1 + octet.toNat)) (expanded + (1 + octet.toNat)) jumped depth

def skipStrictDnsName (data : List Byte) (pos : ℕ) (boundaries : List ℕ) : Option (ℕ × List ℕ) :=
  skipStrictFrom data 384 boundaries pos 0 none 0

/-- The name at `cursor` as RFC 1035 reads it: its labels, the number of pointers on the way, each to an earlier place, and where
the name ends. -/
inductive Expands (raw : List Byte) : ℕ → List (List Byte) → ℕ → ℕ → Prop
  | root (h : raw[cursor]? = some 0) : Expands raw cursor [] 0 (cursor + 1)
  | label (h : raw[cursor]? = some octet) (hne : octet ≠ 0) (hshort : octet.toNat ≤ 63)
      (hlabel : slice? raw (cursor + 1) (cursor + 1 + octet.toNat) = some label)
      (hrest : Expands raw (cursor + 1 + octet.toNat) labels hops stop) : Expands raw cursor (label :: labels) hops stop
  | pointer (h : raw[cursor]? = some octet) (hpointer : isPointer octet = true) (hsecond : raw[cursor + 1]? = some low)
      (hback : pointerTarget octet low < cursor) (hrest : Expands raw (pointerTarget octet low) labels hops stop) :
      Expands raw cursor labels (hops + 1) (cursor + 2)

def nameWire (labels : List (List Byte)) : List Byte := labels.flatMap (fun label => BitVec.ofNat 8 label.length :: label) ++ [0]

variable {raw wire name : List Byte} {cursor hops fuel : ℕ} {stop : Option ℕ} {labels : List (List Byte)} {octet : Byte}

theorem nameWire_cons (hla : slice? raw (cursor + 1) (cursor + 1 + octet.toNat) = some label)
    (labels : List (List Byte)) : nameWire (label :: labels) = octet :: label ++ nameWire labels ∧ label.length = octet.toNat := by
  obtain ⟨-, hle, rfl⟩ := slice?_eq_some hla
  have hl : ((raw.drop (cursor + 1)).take (cursor + 1 + octet.toNat - (cursor + 1))).length = octet.toNat := by
    rw [length_take, length_drop]
    omega
  refine ⟨?_, hl⟩
  rw [nameWire, flatMap_cons, hl, BitVec.ofNat_toNat, BitVec.setWidth_eq, append_assoc]
  rfl

theorem octet_label (h : octet.toNat ≤ 63) : isPointer octet = false ∧ octet &&& 0xc0 = 0 := by
  revert octet
  decide

theorem parseNameFrom_sound (hh : hops ≤ maxPointerHops) (h : parseNameFrom raw fuel cursor stop hops wire = some (name, stopped)) :
    ∃ labels k s, Expands raw cursor labels k s ∧ name = wire ++ nameWire labels ∧ stopped = stop.getD s ∧ name.length ≤ 255 ∧
      hops + k ≤ maxPointerHops := by
  induction fuel generalizing cursor stop hops wire with
  | zero => cases h
  | succ fuel ih =>
    rw [parseNameFrom] at h
    obtain ⟨octet, ho, h⟩ := bind_eq_some_iff.mp h
    split at h
    · obtain ⟨second, hs, h⟩ := bind_eq_some_iff.mp h
      split_ifs at h with hb
      rw [not_or, Nat.not_le, Nat.not_lt] at hb
      obtain ⟨labels, k, s, he, hn, hst, hl, hk⟩ := ih hb.2 h
      exact ⟨labels, k + 1, cursor + 2, .pointer ho ‹_› hs hb.1 he, hn, by cases stop <;> exact hst, hl,
        by omega⟩
    split_ifs at h with hb hz hlo
    · cases h
      subst hz
      refine ⟨[], 0, cursor + 1, .root ho, rfl, rfl, ?_, hh⟩
      rw [length_append, length_singleton]
      omega
    obtain ⟨label, hla, h⟩ := bind_eq_some_iff.mp h
    obtain ⟨labels, k, s, he, hn, hst, hl, hk⟩ := ih hh h
    refine ⟨label :: labels, k, s, .label ho hz (by omega) hla he, ?_, hst, hl, hk⟩
    rw [hn, (nameWire_cons hla labels).1, append_assoc]

theorem nameWire_length (labels : List (List Byte)) : labels.length < (nameWire labels).length := by
  induction labels with
  | nil => exact Nat.zero_lt_one
  | cons label labels ih =>
    rw [nameWire, flatMap_cons, append_assoc, length_append, length_cons, length_cons]
    exact Nat.add_lt_add_of_le_of_lt (Nat.le_add_left 1 _) ih |>.trans_eq' (Nat.add_comm _ _)

/-- The loop reads every name that expands within its limits, however much fuel it has beyond that. -/
theorem Expands.parse (h : Expands raw cursor labels k s) (hf : labels.length + k < fuel)
    (hl : (wire ++ nameWire labels).length ≤ 255) (hh : hops + k ≤ maxPointerHops) :
    parseNameFrom raw fuel cursor stop hops wire = some (wire ++ nameWire labels, stop.getD s) := by
  have hr : ∃ n, fuel = n + 1 := ⟨fuel - 1, by omega⟩
  induction h generalizing fuel wire stop hops with
  | root h =>
    obtain ⟨fuel, rfl⟩ := hr
    rw [length_append] at hl
    rw [parseNameFrom, h, bind_some, if_neg (by decide), if_neg, if_pos rfl]
    · rfl
    · simpa [nameWire] using hl
  | @label cursor octet label labels k s h hn hs hla hre ih =>
    obtain ⟨hw, hlabelLength⟩ := nameWire_cons hla labels
    obtain ⟨hpo, hb⟩ := octet_label hs
    obtain ⟨fuel, rfl⟩ := hr
    rw [length_cons] at hf
    rw [hw, ← append_assoc] at hl ⊢
    have hfi : wire.length + 1 + octet.toNat < 255 := by
      have hpos := nameWire_length labels
      simp only [length_append, length_cons] at hl
      omega
    rw [parseNameFrom, h, bind_some, hpo, if_neg Bool.false_ne_true, 
      if_neg (by rw [not_or, not_not]; exact ⟨hb, by omega⟩), if_neg hn, if_neg (by omega), hla, bind_some]
    exact ih (by omega) hl hh ⟨fuel - 1, by omega⟩
  | @pointer cursor octet second labels k s h hpo hse hba hre ih =>
    obtain ⟨fuel, rfl⟩ := hr
    rw [parseNameFrom, h, bind_some, if_pos hpo, hse, bind_some, if_neg (by omega),
      ih (by omega) hl (by omega) ⟨fuel - 1, by omega⟩]
    cases stop <;> rfl

theorem parseNameInto_iff : parseNameInto raw cursor = some (name, stopped) ↔
    ∃ labels k, Expands raw cursor labels k stopped ∧ name = nameWire labels ∧ name.length ≤ 255 ∧ k ≤ maxPointerHops := by
  constructor
  · intro h
    obtain ⟨labels, k, s, he, hn, rfl, hl, hk⟩ := parseNameFrom_sound (Nat.zero_le _) h
    exact ⟨labels, k, he, hn, hl, by omega⟩
  rintro ⟨labels, k, he, rfl, hl, hk⟩
  have hpa := nameWire_length labels
  exact he.parse (by unfold maxPointerHops at hk; omega) hl (by omega)

theorem Expands.skip (h : Expands raw cursor labels k s) (hf : raw.length < cursor + fuel) : skipFrom raw fuel cursor = some s := by
  have hr : ∀ {c fuel : ℕ} {octet : Byte}, raw[c]? = some octet → raw.length < c + fuel → ∃ n, fuel = n + 1 := by
    intro c fuel octet ho hf
    have hlt := (List.getElem?_eq_some_iff.mp ho).1
    exact ⟨fuel - 1, by omega⟩
  induction h generalizing fuel with
  | root h =>
    obtain ⟨fuel, rfl⟩ := hr h hf
    rw [skipFrom, h, bind_some, if_pos rfl]
  | @label cursor octet label labels k s h hn hs hl hre ih =>
    obtain ⟨fuel, rfl⟩ := hr h hf
    obtain ⟨-, hle, -⟩ := slice?_eq_some hl
    rw [skipFrom, h, bind_some, if_neg hn, (octet_label hs).1, if_neg Bool.false_ne_true, if_neg (by omega), if_neg (by omega)]
    exact ih (by omega)
  | @pointer cursor octet second labels k s h hpo hse hb hre ih =>
    obtain ⟨fuel, rfl⟩ := hr h hf
    have hlt := (List.getElem?_eq_some_iff.mp hse).1
    have hn : octet ≠ 0 := by
      rintro rfl
      exact absurd hpo (by decide)
    rw [skipFrom, h, bind_some, if_neg hn, if_pos hpo, if_neg (by omega)]

theorem skipStrictFrom_sound (h : skipStrictFrom raw fuel boundaries cursor expanded jumped depth = some (s, boundaries')) :
    ∃ labels k e, Expands raw cursor labels k e ∧ s = jumped.getD e ∧ expanded + (nameWire labels).length ≤ 255 ∧
      depth + k ≤ maxPointerHops := by
  induction fuel generalizing boundaries cursor expanded jumped depth with
  | zero => cases h
  | succ fuel ih =>
    rw [skipStrictFrom] at h
    split at h
    · cases h
    rename_i hen
    obtain ⟨octet, ho, h⟩ := bind_eq_some_iff.mp h
    dsimp only at h
    generalize (if jumped.isSome then boundaries else cursor :: boundaries) = marked at h
    split at h
    · split_ifs at h with hlo
      cases h
      subst ‹octet = 0›
      exact ⟨[], 0, cursor + 1, .root ho, rfl, Nat.not_lt.mp hlo, Nat.not_lt.mp (not_or.mp hen).1⟩
    rename_i hn
    split at h
    · obtain ⟨second, hs, h⟩ := bind_eq_some_iff.mp h
      split_ifs at h with hb
      obtain ⟨labels, k, e, he, hst, hl, hk⟩ := ih h
      exact ⟨labels, k + 1, cursor + 2, .pointer ho ‹_› hs (Nat.not_le.mp (not_or.mp hb).1) he,
        by cases jumped <;> exact hst, hl, by omega⟩
    split_ifs at h with hb
    obtain ⟨labels, k, e, he, hst, hl, hk⟩ := ih h
    rw [← Nat.add_assoc] at he
    have hla : slice? raw (cursor + 1) (cursor + 1 + octet.toNat) = some _ := if_pos ⟨by omega, by omega⟩
    refine ⟨_ :: labels, k, e, .label ho hn (by omega) hla he, hst, ?_, hk⟩
    obtain ⟨hw, hlabelLength⟩ := nameWire_cons hla labels
    rw [hw, length_append, length_cons, hlabelLength]
    omega

end Honk.Dns
