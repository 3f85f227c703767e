import Honk.Lib.Bytes

namespace Honk.Lib

open List

def onesAdd (a b : ℕ) : ℕ := if a + b < 65536 then a + b else a + b - 65535

def onesSum (words : List ℕ) : ℕ := words.foldl onesAdd 0

def words16 : List Byte → List ℕ
  | [] => []
  | [last] => [last.toNat * 256]
  | hi :: lo :: bytes => (hi.toNat * 256 + lo.toNat) :: words16 bytes

variable (sum : ℕ)

def onesResidue : ℕ := if sum = 0 then 0 else (sum - 1) % 65535 + 1

theorem onesResidue_le : onesResidue sum ≤ 65535 := by
  rw [onesResidue]
  split_ifs <;> omega

theorem onesResidue_of_lt {sum : ℕ} (h : sum < 65536) : onesResidue sum = sum := by
  rw [onesResidue]
  split_ifs <;> omega

theorem onesAdd_onesResidue (h : word < 65536) : onesAdd (onesResidue sum) word = onesResidue (sum + word) := by
  simp only [onesAdd, onesResidue]
  split_ifs <;> omega

theorem onesSum_eq_onesResidue {words : List ℕ} (h : ∀ word ∈ words, word < 65536) : onesSum words = onesResidue words.sum := by
  suffices ha : ∀ sum, words.foldl onesAdd (onesResidue sum) = onesResidue (sum + words.sum) by
    simpa [onesSum, onesResidue] using ha 0
  induction words with
  | nil => simp
  | cons word words ih =>
    intro sum
    obtain ⟨hwo, hw⟩ := forall_mem_cons.mp h
    rw [foldl_cons, onesAdd_onesResidue sum hwo, ih hw, sum_cons, Nat.add_assoc]

theorem words16_lt : ∀ word ∈ words16 bytes, word < 65536 := by
  induction bytes using words16.induct with
  | case1 => simp [words16]
  | case2 last =>
    have := last.isLt
    simp only [words16, mem_singleton, forall_eq]
    omega
  | case3 hi lo bytes ih =>
    have := hi.isLt
    have := lo.isLt
    rw [words16, forall_mem_cons]
    exact ⟨by omega, ih⟩

theorem words16_append {as : List Byte} (bs : List Byte) (h : 2 ∣ as.length) : words16 (as ++ bs) = words16 as ++ words16 bs := by
  induction as using words16.induct with
  | case1 => rfl
  | case2 last => simp at h
  | case3 hi lo as ih =>
    simp only [length_cons] at h
    simp only [cons_append, words16, ih (by omega)]

theorem sum_words16_le (bytes : List Byte) : (words16 bytes).sum ≤ 65535 * ((bytes.length + 1) / 2) := by
  induction bytes using words16.induct with
  | case1 => simp [words16]
  | case2 last =>
    have := last.isLt
    simp only [words16, sum_singleton, length_singleton]
    omega
  | case3 hi lo bytes ih =>
    have := hi.isLt
    have := lo.isLt
    simp only [words16, sum_cons, length_cons]
    omega

def foldRound : ℕ := sum % 65536 + sum / 65536

theorem onesResidue_foldRound : onesResidue (foldRound sum) = onesResidue sum := by
  by_cases hz : sum = 0
  · rw [hz]
    rfl
  rw [onesResidue, onesResidue, foldRound, if_neg hz, if_neg (by omega)]
  omega

def foldCarries (sum : ℕ) : ℕ := if _h : sum / 65536 = 0 then sum else foldCarries (foldRound sum)
termination_by sum
decreasing_by
  rw [foldRound]
  omega

theorem foldCarries_eq_onesResidue : foldCarries sum = onesResidue sum := by
  fun_induction foldCarries sum with
  | case1 sum h => exact (onesResidue_of_lt (by omega)).symm
  | case2 sum h ih => rw [ih, onesResidue_foldRound]

theorem foldRound_thrice {sum : ℕ} (h : sum < 2 ^ 32) : foldRound (foldRound (foldRound sum)) = foldCarries sum := by
  have hl : foldRound (foldRound (foldRound sum)) < 65536 := by
    simp only [foldRound]
    omega
  rw [← onesResidue_of_lt hl, onesResidue_foldRound, onesResidue_foldRound, onesResidue_foldRound, foldCarries_eq_onesResidue]

end Honk.Lib
