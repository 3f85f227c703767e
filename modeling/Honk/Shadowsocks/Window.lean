import Mathlib

namespace Honk.Shadowsocks

structure SlidingWindow where
  last : ℕ := 0
  ring : Fin 128 → BitVec 64 := fun _ => 0

def swBlockBitLog : ℕ := 6

def swRingBlocks : ℕ := 128

def swSize : ℕ := (swRingBlocks - 1) <<< swBlockBitLog

namespace SlidingWindow

def blockIndex (counter : ℕ) : ℕ := counter >>> swBlockBitLog

def bitIndex (counter : ℕ) : ℕ := counter &&& (1 <<< swBlockBitLog - 1)

def slot (block : ℕ) : Fin 128 := ⟨block &&& (swRingBlocks - 1), Nat.lt_of_le_of_lt Nat.and_le_right (by decide)⟩

section

variable (window : SlidingWindow) (counter : ℕ)

def check : Bool :=
  if counter > window.last then true
  else if window.last - counter > swSize then false
  else window.ring (slot (blockIndex counter)) >>> bitIndex counter &&& 1 == 0

def clear : ℕ → ℕ → (Fin 128 → BitVec 64) → (Fin 128 → BitVec 64)
  | 0, _, ring => ring
  | n + 1, block, ring => clear n (slot (block + 1)) (Function.update ring (slot (block + 1)) 0)

def advance : SlidingWindow :=
  if counter > window.last then
    { last := counter
      ring := clear (min (blockIndex counter - blockIndex window.last) swRingBlocks) (blockIndex window.last) window.ring }
  else window

def add : SlidingWindow :=
  let window := window.advance counter
  let block := slot (blockIndex counter)
  { window with ring := Function.update window.ring block (window.ring block ||| (1 : BitVec 64) <<< bitIndex counter) }

end

variable {counter : ℕ}

theorem blockIndex_eq : blockIndex counter = counter / 64 := Nat.shiftRight_eq_div_pow counter 6

theorem bitIndex_eq : bitIndex counter = counter % 64 := Nat.and_two_pow_sub_one_eq_mod counter 6

variable {block : ℕ}

theorem slot_val : (slot block).val = block % 128 := Nat.and_two_pow_sub_one_eq_mod block 7

theorem swSize_eq : swSize = 8128 := by decide

theorem slot_eq_iff : slot a = slot b ↔ a % 128 = b % 128 := by rw [Fin.ext_iff, slot_val, slot_val]

variable (ring : Fin 128 → BitVec 64)

def bit (counter : ℕ) : Bool := (ring (slot (counter / 64))).getLsbD (counter % 64)

theorem check_bit : (ring (slot (blockIndex counter)) >>> bitIndex counter &&& 1 == 0) = !bit ring counter := by
  rw [bit, blockIndex_eq, bitIndex_eq]
  have ho : (1 : BitVec 64) = 1#64 := rfl
  rw [ho, BitVec.and_one_eq_setWidth_ofBool_getLsbD, BitVec.getLsbD_ushiftRight, Nat.add_zero]
  cases (ring (slot (counter / 64))).getLsbD (counter % 64) <;> decide

theorem bit_update (value : BitVec 64) : bit (Function.update ring (slot block) value) counter =
      if counter / 64 % 128 = block % 128 then value.getLsbD (counter % 64) else bit ring counter := by
  simp only [bit, Function.update_apply, slot_eq_iff]
  split <;> rfl

theorem bit_clear : bit (clear n block ring) counter = true ↔
      bit ring counter = true ∧ ∀ j, j < n → (block + 1 + j) % 128 ≠ counter / 64 % 128 := by
  induction n generalizing block ring with
  | zero => simp [clear]
  | succ n ih =>
    rw [clear, ih, slot_val, bit_update]
    constructor
    · rintro ⟨hb, hr⟩
      split at hb
      · simp at hb
      rename_i hn
      refine ⟨hb, fun j hj => ?_⟩
      cases j with
      | zero => exact Ne.symm hn
      | succ j =>
        have hj := hr j (by omega)
        omega
    rintro ⟨hb, hr⟩
    refine ⟨?_, fun j hj => ?_⟩
    · rw [if_neg (Ne.symm (hr 0 (by omega)))]
      exact hb
    · have hj := hr (j + 1) (by omega)
      omega

theorem getLsbD_one_shiftLeft (hm : m < 64) : ((1 : BitVec 64) <<< n).getLsbD m = true ↔ m = n := by
  have ho : (1 : BitVec 64) = 1#64 := rfl
  rw [ho, BitVec.getLsbD_shiftLeft, BitVec.getLsbD_one]
  simp only [hm, decide_true, Bool.true_and, Bool.and_eq_true, Bool.not_eq_true', decide_eq_false_iff_not, decide_eq_true_eq]
  omega

structure Tracks (window : SlidingWindow) (seen : Set ℕ) : Prop where
  le : ∀ counter ∈ seen, counter ≤ window.last
  exact : ∀ counter, counter / 64 ≤ window.last / 64 → window.last / 64 < counter / 64 + 128 →
    (bit window.ring counter = true ↔ counter ∈ seen)

variable {window : SlidingWindow} {seen : Set ℕ}

theorem tracks_new : Tracks {} ∅ := by
  refine ⟨fun _ h => absurd h (Set.notMem_empty _), fun counter _ _ => ?_⟩
  simp [bit]

variable (h : Tracks window seen)
include h

theorem check_iff : window.check counter = true ↔ window.last < counter ∨ window.last - counter ≤ 8128 ∧ counter ∉ seen := by
  unfold check
  rw [swSize_eq]
  split
  · simp [*]
  split
  · simp only [Bool.false_eq_true, false_iff]
    omega
  rw [check_bit, Bool.not_eq_true', ← Bool.not_eq_true, h.exact counter (by omega) (by omega)]
  constructor
  · exact fun hn => .inr ⟨by omega, hn⟩
  rintro (hl | ⟨-, hn⟩)
  · omega
  · exact hn

theorem notMem_of_check (hc : window.check counter = true) : counter ∉ seen := by
  rcases (check_iff h).mp hc with hl | ⟨-, hn⟩
  · intro hm
    have hle := h.le counter hm
    omega
  · exact hn

theorem Tracks.advance (counter : ℕ) : Tracks (window.advance counter) seen := by
  unfold SlidingWindow.advance
  split
  · rename_i hlt
    refine ⟨fun other ho => (h.le other ho).trans (le_of_lt hlt), fun other hl hw => ?_⟩
    rw [bit_clear, blockIndex_eq, blockIndex_eq]
    have hw' : counter / 64 < other / 64 + 128 := hw
    have hl' : other / 64 ≤ counter / 64 := hl
    -- a block after the old head has been emptied, and nothing of it was ever added
    by_cases hold : other / 64 ≤ window.last / 64
    · rw [h.exact other hold (by have := Nat.div_le_div_right (c := 64) (le_of_lt hlt); omega), and_iff_left]
      intro j hj
      rw [swRingBlocks] at hj
      omega
    constructor
    · rintro ⟨-, hc⟩
      have hb := hc ((other / 64 - window.last / 64 - 1) % 128) (by rw [swRingBlocks]; omega)
      omega
    intro hm
    have hl := Nat.div_le_div_right (c := 64) (h.le other hm)
    omega
  · exact h

omit h in
theorem last_advance (window : SlidingWindow) (counter : ℕ) : (window.advance counter).last = max counter window.last := by
  unfold SlidingWindow.advance
  split
  · exact (max_eq_left (le_of_lt ‹_›)).symm
  · exact (max_eq_right (not_lt.mp ‹_›)).symm

omit h in
theorem last_add : (window.add counter).last = max counter window.last :=
  last_advance window counter

theorem Tracks.add (hc : window.check counter = true) : Tracks (window.add counter) (insert counter seen) := by
  have ha := h.advance counter
  have hl := last_advance window counter
  have hw : (window.advance counter).last / 64 < counter / 64 + 128 := by
    rw [hl]
    rcases (check_iff h).mp hc with hlt | ⟨hle, -⟩
    · rw [max_eq_left (le_of_lt hlt)]
      omega
    · omega
  refine ⟨fun other ho => ?_, fun other hle ho => ?_⟩
  · rw [last_add]
    rcases ho with rfl | ho
    · exact le_max_left _ _
    · exact (h.le other ho).trans (le_max_right _ _)
  change other / 64 ≤ (window.advance counter).last / 64 at hle
  change (window.advance counter).last / 64 < _ at ho
  have hbi := ha.exact other hle ho
  rw [SlidingWindow.add]
  dsimp only
  rw [bit_update, blockIndex_eq, bitIndex_eq, Set.mem_insert_iff]
  split
  · rename_i hb
    have hs : counter / 64 = other / 64 := by
      have hco : counter / 64 ≤ (window.advance counter).last / 64 := by
        rw [hl]
        exact Nat.div_le_div_right (le_max_left _ _)
      omega
    have hse : bit (window.advance counter).ring other =
        ((window.advance counter).ring (slot (counter / 64))).getLsbD (other % 64) := by rw [bit, hs]
    rw [BitVec.getLsbD_or, Bool.or_eq_true, ← hse, hbi, getLsbD_one_shiftLeft (by omega), or_comm]
    refine or_congr_left ⟨fun he => by omega, fun he => by rw [he]⟩
  rename_i hb
  rw [hbi, or_iff_right]
  rintro rfl
  exact hb rfl

end SlidingWindow

end Honk.Shadowsocks
