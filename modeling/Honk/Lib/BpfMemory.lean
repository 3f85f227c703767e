import Honk.Lib.Bytes

namespace Honk.Lib.Bpf

open List

abbrev Mem (B : Type) := B → ℤ → Byte

section

variable {B : Type}

def readMem (m : Mem B) (b : B) (o : ℤ) (n : ℕ) : List Byte := (List.range n).map fun i : ℕ => m b (o + i)

def word (m : Mem B) (b : B) (o : ℤ) : BitVec 32 := BitVec.ofNat 32 (leNat (readMem m b o 4))

variable (m : Mem B) (b : B)

variable (o : ℤ)

@[simp] theorem readMem_length (n : ℕ) : (readMem m b o n).length = n := by simp [readMem]

theorem readMem_append (i j : ℕ) : readMem m b o (i + j) = readMem m b o i ++ readMem m b (o + i) j := by
  simp only [readMem, range_add, map_append, map_map, append_cancel_left_eq]
  apply map_congr_left
  intro k _
  simp only [Function.comp, Nat.cast_add, add_assoc]

theorem readMem_congr (h : ∀ i < n, m b (o + (i : ℕ)) = m' b (o + (i : ℕ))) : readMem m b o n = readMem m' b o n := by
  apply map_congr_left
  intro i hi
  exact h i (mem_range.mp hi)

theorem word_toNat : (word m b o).toNat = leNat (readMem m b o 4) := by
  have h := leNat_lt (readMem m b o 4)
  rw [readMem_length] at h
  rw [word, BitVec.toNat_ofNat, Nat.mod_eq_of_lt (by omega)]

theorem leBytes_word : leBytes 4 (word m b o).toNat = readMem m b o 4 := by
  rw [word_toNat, leBytes_leNat (readMem_length m b o 4)]

theorem leBytes_dword : leBytes 8 (BitVec.ofNat 64 (leNat (readMem m b o 8))).toNat = readMem m b o 8 := by
  have h := leNat_lt (readMem m b o 8)
  rw [readMem_length] at h
  rw [BitVec.toNat_ofNat, Nat.mod_eq_of_lt (by omega), leBytes_leNat (readMem_length m b o 8)]

theorem readMem_sub (n i j : ℕ) (h : i + j ≤ n) : readMem m b (o + i) j = ((readMem m b o n).drop i).take j := by
  obtain ⟨k, rfl⟩ := Nat.exists_eq_add_of_le h
  rw [readMem_append, readMem_append, append_assoc, drop_left' (readMem_length m b o i), take_left' (readMem_length m b (o + i) j)]

theorem word_of_readMem (ws : List (BitVec 32))
    (h : readMem m b o (4 * ws.length) = ws.flatMap fun w => leBytes 4 w.toNat) (i : ℕ) (hi : i < ws.length) :
    word m b (o + (4 * i : ℕ)) = ws.getD i 0 := by
  induction ws generalizing o i with
  | nil => simp at hi
  | cons w ws ih =>
    rw [length_cons, Nat.mul_succ, Nat.add_comm, readMem_append, flatMap_cons] at h
    obtain ⟨hh, ht⟩ := append_inj h (by rw [readMem_length, leBytes_length])
    cases i with
    | zero =>
      apply BitVec.eq_of_toNat_eq
      rw [word_toNat, Nat.mul_zero, Nat.cast_zero, add_zero, hh, leNat_leBytes]
      exact Nat.mod_eq_of_lt (by omega)
    | succ i =>
      have := ih (o + (4 : ℕ)) ht i (by simpa using hi)
      rw [getD_cons_succ, ← this]
      congr 1
      push_cast
      ring

end

variable {B : Type} [DecidableEq B]

def writeMem (m : Mem B) (b : B) (o : ℤ) (bytes : List Byte) : Mem B := fun b' o' =>
  if b' = b ∧ o ≤ o' ∧ o' < o + bytes.length then bytes.getD (o' - o).toNat 0 else m b' o'

variable (m : Mem B)

theorem writeMem_other (b b' : B) (o : ℤ) (bytes : List Byte) (h : b' ≠ b) : writeMem m b o bytes b' = m b' := by
  funext o'
  rw [writeMem, if_neg (fun hb => h hb.1)]

theorem readMem_write_self (b : B) (o : ℤ) (bytes : List Byte) : readMem (writeMem m b o bytes) b o bytes.length = bytes := by
  apply ext_getElem
  · simp
  intro i h1 h2
  simp only [readMem, writeMem, getElem_map, getElem_range]
  rw [if_pos ⟨trivial, by omega, by omega⟩]
  simp [getD_eq_getElem?_getD, h2]

variable {b : B} {o : ℤ}

theorem writeMem_apply_of_disjoint (bytes : List Byte)
    (h : b' ≠ b ∨ o' < o ∨ o + bytes.length ≤ o') : writeMem m b o bytes b' o' = m b' o' := by
  rw [writeMem, if_neg]
  rintro ⟨hb, h1, h2⟩
  rcases h with h | h | h
  · exact h hb
  · omega
  · omega

theorem readMem_write_of_disjoint (b b' : B) (o o' : ℤ) (bytes : List Byte) (n : ℕ)
    (h : b' ≠ b ∨ o' + n ≤ o ∨ o + bytes.length ≤ o') : readMem (writeMem m b o bytes) b' o' n = readMem m b' o' n := by
  apply readMem_congr
  intro i hi
  apply writeMem_apply_of_disjoint
  rcases h with h | h | h
  · exact Or.inl h
  · right; left; omega
  · right; right; omega

theorem writeMem_append (as : List Byte) : writeMem m b o (as ++ bs) = writeMem (writeMem m b o as) b (o + as.length) bs := by
  funext b' o'
  simp only [writeMem, length_append, Nat.cast_add, getD_eq_getElem?_getD]
  by_cases hb : b' = b
  · by_cases h1 : o + as.length ≤ o'
    · have ha : ¬ o' < o + as.length := by omega
      have hl : as.length ≤ (o' - o).toNat := by omega
      have hs : (o' - o).toNat - as.length = (o' - (o + as.length)).toNat := by omega
      by_cases h2 : o' < o + as.length + bs.length
      · simp [hb, h1, h2, show o ≤ o' by omega, show o' < o + (as.length + bs.length) by omega, getElem?_append_right hl, hs]
      · simp [hb, h1, h2, ha, show ¬ o' < o + (as.length + bs.length) by omega]
    · by_cases h2 : o ≤ o'
      · have hl : (o' - o).toNat < as.length := by omega
        simp [hb, h1, h2, show o' < o + as.length by omega, show o' < o + (as.length + bs.length) by omega,
          getElem?_append_left hl]
      · simp [hb, h1, h2]
  · simp [hb]

theorem writeMem_extend (b : B) (o o' : ℤ) (as bs : List Byte) (h : o' = o + as.length) :
    writeMem (writeMem m b o as) b o' bs = writeMem m b o (as ++ bs) := by
  rw [h, writeMem_append]

theorem word_writeMem_self (b : B) (o : ℤ) (v : ℕ) : word (writeMem m b o (leBytes 4 v)) b o = BitVec.ofNat 32 v := by
  have h := readMem_write_self m b o (leBytes 4 v)
  rw [leBytes_length] at h
  apply BitVec.eq_of_toNat_eq
  rw [word_toNat, h, leNat_leBytes, BitVec.toNat_ofNat]
  norm_num

theorem word_writeMem_of_disjoint (b b' : B) (o o' : ℤ) (bytes : List Byte) (h : b' ≠ b ∨ o' + 4 ≤ o ∨ o + bytes.length ≤ o') :
    word (writeMem m b o bytes) b' o' = word m b' o' := by
  rw [word, readMem_write_of_disjoint m b b' o o' bytes 4 h, word]

end Honk.Lib.Bpf
