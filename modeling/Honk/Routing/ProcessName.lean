import Honk.Lib.Utf8
import Honk.Routing.Compile

namespace Honk.Routing

open Honk.Lib.Utf8
open List hiding Vector
open String (utf8EncodeChar)

/-! The datapath's rewriting of a task's fixed-width name, and the text the control plane makes
of the same bytes. -/

def taskCommLen : ℕ := 16

variable (input : List UInt8)

def readNameByte (offset : ℕ) : UInt8 :=
  input.getD (offset &&& (taskCommLen - 1)) 0

variable (output : Vector UInt8 routingProcessMaxLen)

def writeNameByte (offset : ℕ) (byte : UInt8) : Vector UInt8 routingProcessMaxLen :=
  if h : offset < routingProcessMaxLen then output.set offset byte h else output

def isUnicodeWhitespace (codepoint : ℕ) : Bool :=
  if codepoint < 0x80 then
    (0x09 ≤ codepoint ∧ codepoint ≤ 0x0D) ∨ codepoint = 0x20
  else
    codepoint = 0x85 ∨ codepoint = 0xA0 ∨ codepoint = 0x1680 ∨
      (0x2000 ≤ codepoint ∧ codepoint ≤ 0x200A) ∨ codepoint = 0x2028 ∨ codepoint = 0x2029 ∨
      codepoint = 0x202F ∨ codepoint = 0x205F ∨ codepoint = 0x3000

def leadWidth (first : UInt8) : Option ℕ :=
  if 0xC2 ≤ first ∧ first ≤ 0xDF then some 2
  else if 0xE0 ≤ first ∧ first ≤ 0xEF then some 3
  else if 0xF0 ≤ first ∧ first ≤ 0xF4 then some 4
  else none

def isContinuation (byte : UInt8) : Bool := byte &&& 0xC0 == 0x80

def secondValid (first second : UInt8) : Bool :=
  if first = 0xE0 then 0xA0 ≤ second ∧ second ≤ 0xBF
  else if first = 0xED then 0x80 ≤ second ∧ second ≤ 0x9F
  else if first = 0xF0 then 0x90 ≤ second ∧ second ≤ 0xBF
  else if first = 0xF4 then 0x80 ≤ second ∧ second ≤ 0x8F
  else isContinuation second

/-- The code point at `pos` and the bytes it takes. The code points stay below `2 ^ 21`, so the
shifts of the source's `u32` lose no bit. -/
def decodeLossy (pos limit : ℕ) : ℕ × ℕ :=
  let first := readNameByte input pos
  if first < 0x80 then (first.toNat, 1)
  else
    match leadWidth first with
    | none => (0xFFFD, 1)
    | some width =>
      if pos + 1 ≥ limit then (0xFFFD, limit - pos)
      else
        let second := readNameByte input (pos + 1)
        if !secondValid first second then (0xFFFD, 1)
        else
          let codepoint := ((first.toNat &&& (0x7F >>> width)) <<< 6) ||| (second.toNat &&& 0x3F)
          if width = 2 then (codepoint, 2)
          else if pos + 2 ≥ limit then (0xFFFD, limit - pos)
          else
            let third := readNameByte input (pos + 2)
            if !isContinuation third then (0xFFFD, 2)
            else
              let codepoint := (codepoint <<< 6) ||| (third.toNat &&& 0x3F)
              if width = 3 then (codepoint, 3)
              else if pos + 3 ≥ limit then (0xFFFD, limit - pos)
              else
                let fourth := readNameByte input (pos + 3)
                if !isContinuation fourth then (0xFFFD, 3)
                else ((codepoint <<< 6) ||| (fourth.toNat &&& 0x3F), 4)

structure ProcessNameNormalizer where
  pos : ℕ := 0
  written : ℕ := 0
  trimmed : ℕ := 0
  deriving DecidableEq, Repr

variable (state : ProcessNameNormalizer)

def ProcessNameNormalizer.normalizedLen : ℕ :=
  min state.trimmed routingProcessMaxLen

/-- The bytes of one decoded code point at `written`: the replacement character, or a copy of
the bytes it was read from. -/
def writeCodepoint (pos written codepoint consumed : ℕ) : Vector UInt8 routingProcessMaxLen :=
  if codepoint = 0xFFFD then
    let output := writeNameByte output written 0xEF
    let output := writeNameByte output (written + 1) 0xBF
    writeNameByte output (written + 2) 0xBD
  else
    let output := writeNameByte output written (readNameByte input pos)
    let output :=
      if consumed > 1 then writeNameByte output (written + 1) (readNameByte input (pos + 1))
      else output
    let output :=
      if consumed > 2 then writeNameByte output (written + 2) (readNameByte input (pos + 2))
      else output
    if consumed > 3 then writeNameByte output (written + 3) (readNameByte input (pos + 3))
    else output

def ProcessNameNormalizer.advance (input : List UInt8)
    (output : Vector UInt8 routingProcessMaxLen) : Bool × ProcessNameNormalizer × Vector UInt8 routingProcessMaxLen :=
  let limit := min input.length taskCommLen
  let pos := state.pos
  let written := state.written
  if pos ≥ limit ∨ written > routingProcessMaxLen ∨ input.getD pos 0 = 0 then
    (false, state, output)
  else
    let (codepoint, consumed) := decodeLossy input pos limit
    let whitespace := isUnicodeWhitespace codepoint
    if written ≠ 0 ∨ !whitespace then
      let length := if codepoint = 0xFFFD then 3 else consumed
      if written + length > routingProcessMaxLen then (false, state, output)
      else
        (true,
          { pos := pos + consumed
            written := written + length
            trimmed := if whitespace then state.trimmed else written + length },
          writeCodepoint input output pos written codepoint consumed)
    else (true, { state with pos := pos + consumed }, output)

/-- At most `steps` rounds of the loop, which a refused round ends. -/
def normalizeSteps (input : List UInt8) : ℕ → ProcessNameNormalizer × Vector UInt8 routingProcessMaxLen →
      ProcessNameNormalizer × Vector UInt8 routingProcessMaxLen
  | 0, scan => scan
  | steps + 1, (state, output) =>
    match state.advance input output with
    | (true, state, output) => normalizeSteps input steps (state, output)
    | (false, state, output) => (state, output)

def normalizeStart : ProcessNameNormalizer × Vector UInt8 routingProcessMaxLen :=
  ({}, Vector.replicate routingProcessMaxLen 0)

def honkNormalizeProcessName (input : Vector UInt8 taskCommLen) : ProcessNameNormalizer × Vector UInt8 routingProcessMaxLen :=
  normalizeSteps input.toList 16 normalizeStart

def normalizedName (scan : ProcessNameNormalizer × Vector UInt8 routingProcessMaxLen) : List UInt8 :=
  scan.2.toList.take scan.1.normalizedLen

def WhiteSpace (c : Char) : Prop :=
  c.toNat ∈ [0x09, 0x0A, 0x0B, 0x0C, 0x0D, 0x20, 0x85, 0xA0, 0x1680, 0x2000, 0x2001, 0x2002,
    0x2003, 0x2004, 0x2005, 0x2006, 0x2007, 0x2008, 0x2009, 0x200A, 0x2028, 0x2029, 0x202F,
    0x205F, 0x3000]

instance : DecidablePred WhiteSpace := fun _ => inferInstanceAs (Decidable (_ ∈ _))

def trim (text : List Char) : List Char :=
  (text.dropWhile (WhiteSpace ·)).rdropWhile (WhiteSpace ·)

def utf8 (text : List Char) : List UInt8 := text.flatMap utf8EncodeChar

def beforeNul (bytes : List UInt8) : List UInt8 := bytes.takeWhile (· ≠ 0)

/-- The control plane's `process_name`: the lossily decoded bytes before the first NUL, trimmed,
unless nothing is left. -/
def ProcessName (pname : List UInt8) (name : Option (List Char)) : Prop :=
  ∃ text, Lossy (beforeNul pname) text ∧
    name = if trim text = [] then none else some (trim text)

theorem isUnicodeWhitespace_iff (c : Char) : isUnicodeWhitespace c.toNat = true ↔ WhiteSpace c := by
  unfold isUnicodeWhitespace WhiteSpace
  generalize c.toNat = n
  simp only [mem_cons, not_mem_nil, or_false]
  split_ifs with h <;> simp only [decide_eq_true_eq] <;> omega

variable {a b : UInt8} {pos : ℕ}

section

theorem isContinuation_iff (b : UInt8) : isContinuation b = true ↔ Tail b := by
  have ha : ∀ n < 256, n &&& 0xC0 = 0x80 ↔ 0x80 ≤ n ∧ n ≤ 0xBF := by decide +kernel
  rw [isContinuation, beq_iff_eq, ← UInt8.toNat_inj, UInt8.toNat_and]
  exact ha b.toNat b.toNat_lt

theorem secondValid_iff (a b : UInt8) : secondValid a b = true ↔ Second a b := by
  have hc := isContinuation_iff b
  unfold Tail at hc
  have he : ∀ k : UInt8, a = k ↔ a.toNat = k.toNat := fun k => UInt8.toNat_inj.symm
  have hs : Second a b ↔ (0x80 ≤ b.toNat ∧ b.toNat ≤ 0xBF) ∧ (a.toNat = 0xE0 → 0xA0 ≤ b.toNat) ∧ (a.toNat = 0xED → b.toNat ≤ 0x9F) ∧
      (a.toNat = 0xF0 → 0x90 ≤ b.toNat) ∧ (a.toNat = 0xF4 → b.toNat ≤ 0x8F) :=
    ⟨fun h => ⟨h.tail, h.overlong3, h.surrogate, h.overlong4, h.above⟩, fun h => ⟨h.1, h.2.1, h.2.2.1, h.2.2.2.1, h.2.2.2.2⟩⟩
  rw [hs]
  unfold secondValid
  simp only [he, UInt8.le_iff_toNat_le]
  split_ifs <;> simp only [decide_eq_true_eq, hc] <;>
    simp only [UInt8.reduceToNat] at * <;> omega

theorem leadWidth_cases (h : leadWidth a = some width) : (width = 2 ∧ 0xC2 ≤ a.toNat ∧ a.toNat ≤ 0xDF) ∨
    (width = 3 ∧ 0xE0 ≤ a.toNat ∧ a.toNat ≤ 0xEF) ∨ (width = 4 ∧ 0xF0 ≤ a.toNat ∧ a.toNat ≤ 0xF4) := by
  unfold leadWidth at h
  simp only [UInt8.le_iff_toNat_le, UInt8.reduceToNat] at h
  split_ifs at h with h₁ h₂ h₃
  · exact .inl ⟨(Option.some.inj h).symm, h₁⟩
  · exact .inr (.inl ⟨(Option.some.inj h).symm, h₂⟩)
  · exact .inr (.inr ⟨(Option.some.inj h).symm, h₃⟩)

theorem leadWidth_none (h : leadWidth a = none) (h₁ : 0xC2 ≤ a.toNat) : 0xF4 < a.toNat := by
  unfold leadWidth at h
  simp only [UInt8.le_iff_toNat_le, UInt8.reduceToNat] at h
  split_ifs at h
  omega

theorem shift_or : (x <<< 6) ||| (y &&& 0x3F) = x * 64 + y % 64 := by
  have hy : y &&& 0x3F = y % 64 := Nat.and_two_pow_sub_one_eq_mod y 6
  rw [hy, ← Nat.shiftLeft_add_eq_or_of_lt (Nat.mod_lt y (by decide)), Nat.shiftLeft_eq]

theorem lead_bits (x : ℕ) : x &&& (0x7F >>> 2) = x % 32 ∧ x &&& (0x7F >>> 3) = x % 16 ∧ x &&& (0x7F >>> 4) = x % 8 :=
  ⟨Nat.and_two_pow_sub_one_eq_mod x 5, Nat.and_two_pow_sub_one_eq_mod x 4, Nat.and_two_pow_sub_one_eq_mod x 3⟩

variable {input : List UInt8}

theorem getD_beforeNul (h : i ≤ (beforeNul input).length) : input.getD i 0 = (beforeNul input).getD i 0 := by
  induction input generalizing i with
  | nil => rfl
  | cons b input ih =>
    by_cases hb : b = 0
    · have hn : beforeNul (b :: input) = [] := by simp [beforeNul, hb]
      rw [hn] at h ⊢
      obtain rfl : i = 0 := by simpa using h
      simpa using hb
    have hc : beforeNul (b :: input) = b :: beforeNul input := by simp [beforeNul, hb]
    rw [hc] at h ⊢
    cases i with
    | zero => rfl
    | succ i => simpa using ih (by simpa using h)

theorem readNameByte_beforeNul (h : pos + k ≤ (beforeNul input).length) (hl : pos + k < taskCommLen) :
    readNameByte input (pos + k) = ((beforeNul input).drop pos).getD k 0 := by
  have hm : (pos + k) &&& (taskCommLen - 1) = pos + k := (Nat.and_two_pow_sub_one_eq_mod (pos + k) 4).trans (Nat.mod_eq_of_lt hl)
  rw [readNameByte, hm, getD_beforeNul h, getD_eq_getElem?_getD, getD_eq_getElem?_getD, getElem?_drop]

theorem not_tail_zero : ¬ Tail 0 := fun h => absurd h.1 (by decide)

/-- One more byte of a sequence: it is there and goes on with the sequence, or the sequence breaks off before it. -/
theorem probe {P : UInt8 → Prop} {valid : UInt8 → Bool} (hv : ∀ b, valid b = true ↔ P b) (hz : ¬ P 0) (hlen : input.length ≤ taskCommLen)
    (hd : (beforeNul input).drop (pos + k) = rest) (hk : pos + k ≤ (beforeNul input).length) :
    let read (y : ℕ × ℕ) := if pos + k ≥ input.length then (0xFFFD, input.length - pos)
      else if !valid (readNameByte input (pos + k)) then (0xFFFD, k) else y
    (∀ b ∈ rest.head?, ¬ P b) ∧ (∀ y, read y = (0xFFFD, k)) ∨ ∃ b tail, rest = b :: tail ∧ P b ∧ readNameByte input (pos + k) = b ∧
      (beforeNul input).drop (pos + (k + 1)) = tail ∧ pos + (k + 1) ≤ (beforeNul input).length ∧ ∀ y, read y = y := by
  have hle : (beforeNul input).length ≤ input.length := ( takeWhile_prefix _).length_le
  have hr (h : pos + k < input.length) : readNameByte input (pos + k) = rest.headD 0 := by
    rw [readNameByte_beforeNul hk (by omega), ← hd]
    simp
  cases rest with
  | nil =>
    have hl := drop_eq_nil_iff.mp hd
    refine .inl ⟨by simp, fun y => ?_⟩
    split_ifs with he hn
    · rw [show input.length - pos = k by omega]
    · rfl
    · rw [hr (by omega)] at hn
      exact absurd ((hv 0).mp (by simpa using hn)) hz
  | cons b tail =>
    have hl : pos + k < (beforeNul input).length := by
      by_contra hn
      rw [drop_eq_nil_of_le (by omega)] at hd
      cases hd
    have hb : readNameByte input (pos + k) = b := hr (by omega)
    simp only [hb, if_neg (show ¬ pos + k ≥ input.length by omega)]
    by_cases hp : P b
    · refine .inr ⟨b, tail, rfl, hp, rfl, ?_, hl, fun y => by rw [(hv b).mpr hp]; rfl⟩
      rw [← add_assoc, ← tail_drop, hd]
      rfl
    · exact .inl ⟨by simpa using hp, fun y => by rw [Bool.eq_false_iff.mpr fun h => hp ((hv b).mp h)]; rfl⟩

theorem decodeLossy_head (hlen : input.length ≤ taskCommLen) (hpo : pos < (beforeNul input).length) :
    ∃ c : Char, c.toNat = (decodeLossy input pos input.length).1 ∧
      Head ((beforeNul input).drop pos) c (decodeLossy input pos input.length).2 := by
  have hr : ('\uFFFD').toNat = 0xFFFD := rfl
  obtain ⟨a, rest, hby⟩ : ∃ a rest, (beforeNul input).drop pos = a :: rest := exists_cons_of_ne_nil (by simpa using hpo)
  have hle : (beforeNul input).length ≤ input.length := ( takeWhile_prefix _).length_le
  have h0 : readNameByte input (pos + 0) = a := by
    rw [readNameByte_beforeNul hpo.le (by omega), hby]
    rfl
  have h1 : (beforeNul input).drop (pos + 1) = rest := by
    rw [← tail_drop, hby]
    rfl
  rw [hby]
  unfold decodeLossy
  rw [show readNameByte input pos = a from h0]
  by_cases ha : a < 0x80
  · simp only [if_pos ha]
    exact Head.of_wellFormed (.one ha) ⟨rest, rfl⟩
  have ha' : 0x80 ≤ a.toNat := by
    have : ¬ a.toNat < 0x80 := ha
    omega
  simp only [if_neg ha]
  cases hw : leadWidth a with
  | none => exact ⟨_, hr, .broken_one ha' fun h₁ h₂ => absurd (leadWidth_none hw h₁) (by omega)⟩
  | some width =>
    simp only
    rcases probe (secondValid_iff a) (fun h => not_tail_zero h.tail) hlen h1 hpo with ⟨hn, he⟩ | ⟨b, rest, rfl, hb, hx, h2, hl2, he⟩
    · simp only [he]
      exact ⟨_, hr, .broken_one ha' fun _ _ => hn⟩
    simp only [he]
    rw [hx, shift_or]
    rcases leadWidth_cases hw with ⟨rfl, h₁, h₂⟩ | hwide
    · rw [if_pos rfl, (lead_bits a.toNat).1]
      exact Head.of_wellFormed (.two h₁ h₂ hb.tail) ⟨rest, rfl⟩
    have hl : width ≠ 2 ∧ 0xE0 ≤ a.toNat ∧ a.toNat ≤ 0xF4 := by omega
    rw [if_neg hl.1]
    rcases probe isContinuation_iff not_tail_zero hlen h2 hl2 with ⟨hn, he⟩ | ⟨c, rest, rfl, hc, hx, h3, hl3, he⟩
    · simp only [he]
      exact ⟨_, hr, .broken_two hl.2.1 hl.2.2 hb hn⟩
    simp only [he]
    rw [hx, shift_or]
    rcases hwide with ⟨rfl, h₁, h₂⟩ | ⟨rfl, h₁, h₂⟩
    · rw [if_pos rfl, (lead_bits a.toNat).2.1]
      exact Head.of_wellFormed (.three h₁ h₂ hb hc) ⟨rest, rfl⟩
    rw [if_neg (by decide)]
    rcases probe isContinuation_iff not_tail_zero hlen h3 hl3 with ⟨hn, he⟩ | ⟨d, rest, rfl, hd, hx, -, -, he⟩
    · simp only [he]
      exact ⟨_, hr, .broken_three h₁ h₂ hb hc hn⟩
    simp only [he]
    rw [hx, shift_or, (lead_bits a.toNat).2.2]
    exact Head.of_wellFormed (.four h₁ h₂ hb hc hd) ⟨rest, rfl⟩

end

variable {written n : ℕ} {bytes : List UInt8}

section

variable {input : List UInt8} {output : Vector UInt8 routingProcessMaxLen}

theorem take_writeNameByte (h : w < routingProcessMaxLen) :
    (writeNameByte output w b).toList.take (w + 1) = output.toList.take w ++ [b] := by
  have hl : w < output.toList.length := by simpa using h
  rw [writeNameByte, dif_pos h, Vector.toList_set, take_add_one, take_set_of_le le_rfl, getElem?_set_self hl, Option.toList_some]

theorem take_writeCodepoint_replaced (h : written + 3 ≤ routingProcessMaxLen) :
    (writeCodepoint input output pos written 0xFFFD consumed).toList.take (written + 3) =
      output.toList.take written ++ utf8EncodeChar '\uFFFD' := by
  have he : utf8EncodeChar '\uFFFD' = [0xEF, 0xBF, 0xBD] := by decide
  simp only [writeCodepoint, if_true]
  rw [take_writeNameByte (by omega), take_writeNameByte (by omega), take_writeNameByte (by omega), he]
  simp

theorem take_writeCodepoint_copied (hb : WellFormed bytes n) (hc : codepoint ≠ 0xFFFD)
    (hr : ∀ k < bytes.length, readNameByte input (pos + k) = bytes.getD k 0) (h : written + bytes.length ≤ routingProcessMaxLen) :
    (writeCodepoint input output pos written codepoint bytes.length).toList.take
      (written + bytes.length) = output.toList.take written ++ bytes := by
  have hf : readNameByte input pos = bytes.getD 0 0 := hr 0 (by cases hb <;> simp)
  simp only [writeCodepoint, if_neg hc, hf]
  cases hb with
  | one =>
    simp only [length_cons, length_nil, Nat.reduceAdd, gt_iff_lt, Nat.reduceLT, if_false] at h hr ⊢
    rw [take_writeNameByte (by omega)]
    rfl
  | two =>
    simp only [length_cons, length_nil, Nat.reduceAdd, gt_iff_lt, Nat.reduceLT, if_true, if_false] at h hr ⊢
    rw [hr 1 (by omega), take_writeNameByte (by omega), take_writeNameByte (by omega)]
    simp
  | three =>
    simp only [length_cons, length_nil, Nat.reduceAdd, gt_iff_lt, Nat.reduceLT, if_true, if_false] at h hr ⊢
    rw [hr 1 (by omega), hr 2 (by omega), take_writeNameByte (by omega),
      take_writeNameByte (by omega), take_writeNameByte (by omega)]
    simp
  | four =>
    simp only [length_cons, length_nil, Nat.reduceAdd, gt_iff_lt, Nat.reduceLT, if_true] at h hr ⊢
    rw [hr 1 (by omega), hr 2 (by omega), hr 3 (by omega), take_writeNameByte (by omega), take_writeNameByte (by omega),
      take_writeNameByte (by omega), take_writeNameByte (by omega)]
    simp

end

/-- What the scan has made of the bytes before `pos`: they decode to `text`, whose trimmed start
stands in the output. -/
structure Scanned (input : List UInt8) (state : ProcessNameNormalizer)
    (output : Vector UInt8 routingProcessMaxLen) (text : List Char) : Prop where
  inside : state.pos ≤ (beforeNul input).length
  decoded : ∀ tail, Lossy ((beforeNul input).drop state.pos) tail →
    Lossy (beforeNul input) (text ++ tail)
  output : output.toList.take state.written = utf8 (text.dropWhile (WhiteSpace ·))
  written : state.written = (utf8 (text.dropWhile (WhiteSpace ·))).length
  trimmed : state.trimmed = (utf8 (trim text)).length
  room : state.written ≤ 3 * state.pos

variable {text : List Char} {c : Char}

section

variable {input : List UInt8} {state : ProcessNameNormalizer} {output : Vector UInt8 routingProcessMaxLen}

theorem scanned_start : Scanned input normalizeStart.1 normalizeStart.2 [] where
  inside := Nat.zero_le _
  decoded := fun _ h => h
  output := rfl
  written := rfl
  trimmed := rfl
  room := Nat.zero_le _

theorem utf8_concat : utf8 (text ++ [c]) = utf8 text ++ utf8EncodeChar c := by
  simp [utf8]

theorem utf8_eq_nil : utf8 text = [] ↔ text = [] := by
  cases text with
  | nil | cons c text => simp [utf8]

theorem trim_concat : trim (text ++ [c]) =
      if WhiteSpace c then trim text else (text ++ [c]).dropWhile (WhiteSpace ·) := by
  rw [trim, trim, dropWhile_append]
  by_cases hc : WhiteSpace c
  · rw [if_pos hc]
    split_ifs with he
    · simp only [List.isEmpty_iff] at he
      simp [he, hc]
    · rw [rdropWhile_concat_pos _ _ _ (by simpa using hc)]
  rw [if_neg hc]
  split_ifs with he
  · simp [hc, rdropWhile_singleton]
  · rw [rdropWhile_concat_neg _ _ _ (by simpa using hc)]

theorem dropWhile_concat : (text ++ [c]).dropWhile (WhiteSpace ·) =
      if text.dropWhile (WhiteSpace ·) = [] ∧ WhiteSpace c then []
      else text.dropWhile (WhiteSpace ·) ++ [c] := by
  rw [dropWhile_append]
  by_cases he : text.dropWhile (WhiteSpace ·) = []
  · by_cases hc : WhiteSpace c
    · simp [he, hc]
    · simp [he, hc]
  · simp [he, List.isEmpty_iff]

theorem beforeNul_length_le (input : List UInt8) : (beforeNul input).length ≤ input.length :=
  ( takeWhile_prefix _).length_le

theorem advance_end (hpo : state.pos = (beforeNul input).length) : state.advance input output = (false, state, output) := by
  have hz : input.getD state.pos 0 = 0 := by
    rw [getD_beforeNul hpo.le, hpo]
    simp
  simp only [ProcessNameNormalizer.advance]
  rw [if_pos (.inr (.inr hz))]

theorem getD_ne_zero (hpo : state.pos < (beforeNul input).length) : input.getD state.pos 0 ≠ 0 := by
  rw [getD_beforeNul hpo.le, getD_eq_getElem _ _ hpo]
  have := mem_takeWhile_imp (getElem_mem hpo)
  simpa using this

variable (hs : Scanned input state output text)
include hs

theorem Scanned.written_ne_zero : state.written ≠ 0 ↔ text.dropWhile (WhiteSpace ·) ≠ [] := by
  rw [hs.written, Ne, length_eq_zero_iff, utf8_eq_nil]

omit hs in
theorem length_written (h : Head bytes c n) : (if c.toNat = 0xFFFD then 3 else n) = (utf8EncodeChar c).length ∧
      (utf8EncodeChar c).length ≤ 3 * n := by
  have hpo := h.pos
  by_cases hc : c = '\uFFFD'
  · subst hc
    have hl : (utf8EncodeChar '\uFFFD').length = 3 := by decide
    rw [hl]
    exact ⟨rfl, by omega⟩
  have hva : c.toNat ≠ 0xFFFD := fun hv => hc (Char.toNat_inj.mp hv)
  have hl : (utf8EncodeChar c).length = n := by
    rw [← h.take_eq hc, length_take, min_eq_left h.le]
  rw [if_neg hva, hl]
  exact ⟨rfl, by omega⟩

omit hs in
theorem take_writeCodepoint (hl : input.length ≤ taskCommLen) (hh : Head ((beforeNul input).drop pos) c n)
    (hf : written + (utf8EncodeChar c).length ≤ routingProcessMaxLen) :
    (writeCodepoint input output pos written c.toNat n).toList.take (written + (utf8EncodeChar c).length) =
      output.toList.take written ++ utf8EncodeChar c := by
  by_cases hc : c = '\uFFFD'
  · subst hc
    exact take_writeCodepoint_replaced hf
  have hva : c.toNat ≠ 0xFFFD := fun hv => hc (Char.toNat_inj.mp hv)
  have ht := hh.take_eq hc
  have hn : n = (utf8EncodeChar c).length := by
    rw [← ht, length_take, min_eq_left hh.le]
  have hle := hh.le
  rw [length_drop] at hle
  have hb := beforeNul_length_le input
  rw [hn]
  refine take_writeCodepoint_copied (wellFormed_utf8EncodeChar c) hva (fun k hk => ?_) hf
  rw [readNameByte_beforeNul (by omega) (by omega), ← ht, getD_eq_getElem?_getD,
    getD_eq_getElem?_getD, getElem?_take_of_lt (by omega)]

theorem Scanned.advance (hlen : input.length ≤ taskCommLen) (hpo : state.pos < (beforeNul input).length) :
    ∃ c state' output', state.advance input output = (true, state', output') ∧
      Scanned input state' output' (text ++ [c]) ∧ state.pos < state'.pos := by
  have hb := beforeNul_length_le input
  have hr := hs.room
  have hm : routingProcessMaxLen = 3 * taskCommLen := rfl
  obtain ⟨c, hc, hh⟩ := decodeLossy_head hlen hpo
  simp only [ProcessNameNormalizer.advance]
  rw [min_eq_left hlen, if_neg (by
    rintro (h | h | h)
    · omega
    · omega
    · exact getD_ne_zero hpo h)]
  generalize decodeLossy input state.pos input.length = decoded at hc hh
  obtain ⟨codepoint, consumed⟩ := decoded
  simp only at hc hh ⊢
  subst hc
  obtain ⟨hl, ht⟩ := length_written hh
  have hle := hh.le
  rw [length_drop] at hle
  have hd : ∀ tail, Lossy ((beforeNul input).drop (state.pos + consumed)) tail → Lossy (beforeNul input) (text ++ [c] ++ tail) := by
    intro tail hta
    rw [append_assoc]
    exact hs.decoded _ (.cons hh (by rwa [drop_drop]))
  rw [hl]
  by_cases hk : state.written ≠ 0 ∨ ¬ WhiteSpace c
  · have hke : (text ++ [c]).dropWhile (WhiteSpace ·) = text.dropWhile (WhiteSpace ·) ++ [c] := by
      rw [dropWhile_concat, if_neg]
      rintro ⟨hn, hw⟩
      exact hk.elim (fun h => hs.written_ne_zero.mp h hn) fun h => h hw
    have hwr : state.written ≠ 0 ∨ (!isUnicodeWhitespace c.toNat) = true :=
      hk.imp_right fun h => by simpa [← isUnicodeWhitespace_iff] using h
    have hf : state.written + (utf8EncodeChar c).length ≤ routingProcessMaxLen := by omega
    rw [if_pos hwr, if_neg (by omega)]
    refine ⟨c, _, _, rfl, ⟨by simp only; omega, hd, ?_, ?_, ?_, by simp only; omega⟩,
      by simp only; have := hh.pos; omega⟩
    · simp only [take_writeCodepoint hlen hh hf, hke, utf8_concat, hs.output]
    · simp only [hke, utf8_concat, length_append, hs.written]
    simp only [trim_concat, isUnicodeWhitespace_iff]
    split_ifs
    · exact hs.trimmed
    · rw [hke, utf8_concat, length_append, hs.written]
  obtain ⟨hz, hw⟩ : state.written = 0 ∧ WhiteSpace c := by simpa using hk
  have hn : text.dropWhile (WhiteSpace ·) = [] := by
    by_contra hne
    exact hs.written_ne_zero.mpr hne hz
  have hsk : (text ++ [c]).dropWhile (WhiteSpace ·) = [] := by
    rw [dropWhile_concat, if_pos ⟨hn, hw⟩]
  have hskip : ¬ (state.written ≠ 0 ∨ (!isUnicodeWhitespace c.toNat) = true) := by
    rw [(isUnicodeWhitespace_iff c).mpr hw]
    simpa using hz
  rw [if_neg hskip]
  refine ⟨c, _, _, rfl, ⟨by simp only; omega, hd, ?_, ?_, ?_, by simp only; omega⟩,
    by simp only; have := hh.pos; omega⟩
  · rw [hsk, ← hn]
    exact hs.output
  · rw [hsk, ← hn]
    exact hs.written
  · rw [trim_concat, if_pos hw]
    exact hs.trimmed

theorem Scanned.run (hl : input.length ≤ taskCommLen)
    (hst : (beforeNul input).length ≤ state.pos + steps) : ∃ text, Scanned input (normalizeSteps input steps (state, output)).1
        (normalizeSteps input steps (state, output)).2 text ∧
      (normalizeSteps input steps (state, output)).1.pos = (beforeNul input).length := by
  induction steps generalizing state output text with
  | zero => exact ⟨text, hs, le_antisymm hs.inside hst⟩
  | succ steps ih =>
    rw [normalizeSteps]
    rcases hs.inside.lt_or_eq with hpo | hpo
    · obtain ⟨c, state', output', ha, hs', hlt⟩ := hs.advance hl hpo
      rw [ha]
      exact ih hs' (by omega)
    · rw [advance_end hpo]
      exact ⟨text, hs, hpo⟩

omit hs in
theorem normalizeSteps_add (input : List UInt8) (steps more : ℕ) (scan : ProcessNameNormalizer × Vector UInt8 routingProcessMaxLen)
    (h : (normalizeSteps input steps scan).1.pos = (beforeNul input).length) :
    normalizeSteps input (steps + more) scan = normalizeSteps input steps scan := by
  induction steps generalizing scan with
  | zero =>
    cases more with
    | zero => rfl
    | succ more =>
      obtain ⟨state, output⟩ := scan
      have hpo : state.pos = (beforeNul input).length := h
      rw [Nat.zero_add]
      change normalizeSteps input (more + 1) (state, output) = (state, output)
      rw [normalizeSteps, advance_end hpo]
  | succ steps ih =>
    rw [Nat.succ_add, normalizeSteps, normalizeSteps]
    rw [normalizeSteps] at h
    split
    · rename_i ha
      rw [ha] at h
      exact ih _ h
    · rfl

omit hs in
theorem utf8_trim_isPrefix (text : List Char) : utf8 (trim text) <+: utf8 (text.dropWhile (WhiteSpace ·)) := by
  obtain ⟨rest, hr⟩ := rdropWhile_prefix (WhiteSpace ·) (text.dropWhile (WhiteSpace ·))
  refine ⟨utf8 rest, ?_⟩
  rw [utf8, utf8, utf8, ← flatMap_append]
  exact congrArg _ hr

theorem Scanned.take_eq : normalizedName (state, output) = utf8 (trim text) ∧ state.normalizedLen = (utf8 (trim text)).length := by
  have hpr := utf8_trim_isPrefix text
  have hle : state.trimmed ≤ state.written := by
    rw [hs.trimmed, hs.written]
    exact hpr.length_le
  have hf : state.written ≤ routingProcessMaxLen := by
    have hlen := congrArg List.length hs.output
    rw [← hs.written, length_take, Vector.length_toList] at hlen
    omega
  have hl : state.normalizedLen = state.trimmed := min_eq_left (hle.trans hf)
  refine ⟨?_, hl.trans hs.trimmed⟩
  calc normalizedName (state, output)
      = (output.toList.take state.written).take state.trimmed := by
        rw [normalizedName, hl, take_take, min_eq_left hle]
    _ = utf8 (trim text) := by
        rw [hs.output, hs.trimmed]
        exact (prefix_iff_eq_take.mp hpr).symm

end

theorem ProcessName.utf8_eq (h : ProcessName pname name) (ht : Lossy (beforeNul pname) text) : utf8 (name.getD []) = utf8 (trim text) := by
  obtain ⟨text', ht', rfl⟩ := h
  obtain rfl := ht.unique ht'
  split_ifs with hn
  · rw [hn]
    rfl
  · rfl

/-- The datapath's name of a task is the control plane's: the sixteen rounds reach the end of the
name, more rounds would change nothing, and what they leave in the output is the trimmed lossy
decoding. -/
theorem honkNormalizeProcessName_exact (pname : Vector UInt8 taskCommLen) : (∃ text, Lossy (beforeNul pname.toList) text ∧
      normalizedName (honkNormalizeProcessName pname) = utf8 (trim text)) ∧ (∃ name, ProcessName pname.toList name) ∧
    (∀ name, ProcessName pname.toList name → normalizedName (honkNormalizeProcessName pname) = utf8 (name.getD [])) ∧
    (normalizedName (honkNormalizeProcessName pname)).length = (honkNormalizeProcessName pname).1.normalizedLen ∧
    (normalizedName (honkNormalizeProcessName pname)).length ≤ 48 ∧
    (honkNormalizeProcessName pname).1.pos = (beforeNul pname.toList).length ∧
    ∀ rounds ≥ 16, normalizeSteps pname.toList rounds normalizeStart = honkNormalizeProcessName pname := by
  have hle : pname.toList.length ≤ taskCommLen := by simp
  have hb := beforeNul_length_le pname.toList
  have hst : Scanned pname.toList normalizeStart.1 normalizeStart.2 [] := scanned_start
  have he : (beforeNul pname.toList).length ≤ normalizeStart.1.pos + 16 := hb.trans hle
  obtain ⟨text, hs, hpo⟩ := hst.run hle he
  have ht : Lossy (beforeNul pname.toList) text := by
    have := hs.decoded [] (by rw [hpo, drop_length]; exact .nil)
    rwa [append_nil] at this
  obtain ⟨hn, hl⟩ := hs.take_eq
  refine ⟨⟨text, ht, hn⟩, ⟨_, text, ht, rfl⟩, ?_, ?_, ?_, hpo, ?_⟩
  · intro name h
    rw [h.utf8_eq ht]
    exact hn
  · exact (congrArg List.length hn).trans hl.symm
  · exact (length_take_le _ _).trans (min_le_right _ _)
  intro rounds hr
  obtain ⟨more, rfl⟩ := Nat.exists_eq_add_of_le hr
  exact normalizeSteps_add pname.toList 16 more normalizeStart hpo

end Honk.Routing
