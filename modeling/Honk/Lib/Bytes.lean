import Mathlib

namespace Honk.Lib

open List

abbrev Byte := BitVec 8

def bitAt (bytes : List Byte) (i : ℕ) : Bool := (bytes.getD (i / 8) 0).getLsbD (7 - i % 8)

def beNat : List Byte → ℕ
  | [] => 0
  | b :: bs => b.toNat * 2 ^ (8 * bs.length) + beNat bs

variable (bs : List Byte)

theorem beNat_lt : beNat bs < 2 ^ (8 * bs.length) := by
  induction bs with
  | nil => simp [beNat]
  | cons b bs ih =>
    have hb : b.toNat < 256 := b.isLt
    have hp : 2 ^ (8 * (b :: bs).length) = 256 * 2 ^ (8 * bs.length) := by rw [length_cons, Nat.mul_succ, Nat.pow_add, Nat.mul_comm]
    rw [hp, beNat]
    calc b.toNat * 2 ^ (8 * bs.length) + beNat bs
        < b.toNat * 2 ^ (8 * bs.length) + 2 ^ (8 * bs.length) := by omega
      _ = (b.toNat + 1) * 2 ^ (8 * bs.length) := by ring
      _ ≤ 256 * 2 ^ (8 * bs.length) := Nat.mul_le_mul_right _ (by omega)

variable {i : ℕ}

theorem bitAt_cons_lt (b : Byte) (bs : List Byte) (h : i < 8) : bitAt (b :: bs) i = b.getLsbD (7 - i) := by
  have hd : i / 8 = 0 := by omega
  have hm : i % 8 = i := by omega
  simp [bitAt, hd, hm]

theorem bitAt_cons_add (b : Byte) (bs : List Byte) (i : ℕ) : bitAt (b :: bs) (i + 8) = bitAt bs i := by
  have hd : (i + 8) / 8 = i / 8 + 1 := by omega
  have hm : (i + 8) % 8 = i % 8 := by omega
  simp [bitAt, hd, hm]

theorem testBit_beNat (i : ℕ) (h : i < 8 * bs.length) : (beNat bs).testBit (8 * bs.length - 1 - i) = bitAt bs i := by
  induction bs generalizing i with
  | nil => simp at h
  | cons b bs ih =>
    have hl : 8 * (b :: bs).length = 8 * bs.length + 8 := by simp; omega
    rw [beNat, Nat.mul_comm, Nat.testBit_two_pow_mul_add _ (beNat_lt bs)]
    by_cases hi : i < 8
    · rw [bitAt_cons_lt b bs hi, if_neg (by omega)]
      have he : 8 * (b :: bs).length - 1 - i - 8 * bs.length = 7 - i := by omega
      rw [he, BitVec.getLsbD]
    obtain ⟨j, rfl⟩ : ∃ j, i = j + 8 := ⟨i - 8, by omega⟩
    have he : 8 * (b :: bs).length - 1 - (j + 8) = 8 * bs.length - 1 - j := by omega
    rw [bitAt_cons_add, he, if_pos (by omega)]
    exact ih j (by omega)

variable (as bs : List Byte)

theorem div_beNat_eq_iff (n : ℕ) (hl : as.length = bs.length) (hn : n ≤ 8 * as.length) :
    beNat as / 2 ^ (8 * as.length - n) = beNat bs / 2 ^ (8 * as.length - n) ↔ ∀ i < n, bitAt as i = bitAt bs i := by
  constructor
  · intro h i hi
    have ht := congrArg (fun x => x.testBit (n - 1 - i)) h
    simp only [Nat.testBit_div_two_pow] at ht
    have he : n - 1 - i + (8 * as.length - n) = 8 * as.length - 1 - i := by omega
    rw [he, testBit_beNat as i (by omega), hl, testBit_beNat bs i (by omega)] at ht
    exact ht
  intro h
  apply Nat.eq_of_testBit_eq
  intro j
  simp only [Nat.testBit_div_two_pow]
  by_cases hj : j < n
  · have he : j + (8 * as.length - n) = 8 * as.length - 1 - (n - 1 - j) := by omega
    rw [he, testBit_beNat as _ (by omega), hl, testBit_beNat bs _ (by omega)]
    exact h _ (by omega)
  have ha : beNat as < 2 ^ (j + (8 * as.length - n)) := (beNat_lt as).trans_le (Nat.pow_le_pow_right (by omega) (by omega))
  have hb : beNat bs < 2 ^ (j + (8 * as.length - n)) := (beNat_lt bs).trans_le (Nat.pow_le_pow_right (by omega) (by omega))
  rw [Nat.testBit_lt_two_pow ha, Nat.testBit_lt_two_pow hb]

theorem beNat_injective (hl : as.length = bs.length) (h : beNat as = beNat bs) : as = bs := by
  induction as generalizing bs with
  | nil => simpa using hl.symm
  | cons a as ih =>
    cases bs with
    | nil => simp at hl
    | cons b bs =>
      have hl' : as.length = bs.length := by simpa using hl
      have ha := beNat_lt as
      have hb := beNat_lt bs
      simp only [beNat, hl'] at h ha
      have hq := congrArg (fun x => x / 2 ^ (8 * bs.length)) h
      have hr := congrArg (fun x => x % 2 ^ (8 * bs.length)) h
      simp only [Nat.add_comm _ (beNat _), Nat.add_mul_div_right _ _ (Nat.two_pow_pos _),
        Nat.div_eq_of_lt ha, Nat.div_eq_of_lt hb, Nat.zero_add] at hq
      simp only [Nat.mul_add_mod_self_right, Nat.mod_eq_of_lt ha, Nat.mod_eq_of_lt hb] at hr
      rw [ih bs hl' hr, BitVec.eq_of_toNat_eq hq]

theorem lt_iff_beNat_lt (hl : as.length = bs.length) : as < bs ↔ beNat as < beNat bs := by
  induction as generalizing bs with
  | nil =>
    have : bs = [] := by simpa using hl.symm
    simp [this]
  | cons a as ih =>
    cases bs with
    | nil => simp at hl
    | cons b bs =>
      have hl' : as.length = bs.length := by simpa using hl
      have ha := beNat_lt as
      have hb := beNat_lt bs
      rw [cons_lt_cons_iff, ih bs hl']
      simp only [beNat, hl'] at ha ⊢
      rcases lt_trichotomy a.toNat b.toNat with h | h | h
      · have hm : (a.toNat + 1) * 2 ^ (8 * bs.length) ≤ b.toNat * 2 ^ (8 * bs.length) := Nat.mul_le_mul_right _ h
        simp only [BitVec.lt_def, h, true_or, true_iff]
        nlinarith
      · have he : a = b := BitVec.eq_of_toNat_eq h
        subst he
        simp
      have hm : (b.toNat + 1) * 2 ^ (8 * bs.length) ≤ a.toNat * 2 ^ (8 * bs.length) := Nat.mul_le_mul_right _ h
      have hn : a ≠ b := by rintro rfl; omega
      simp only [BitVec.lt_def, hn, false_and, or_false]
      constructor
      · intro h'; omega
      · intro h'; nlinarith

def leNat : List Byte → ℕ
  | [] => 0
  | b :: bs => b.toNat + 256 * leNat bs

def leBytes : ℕ → ℕ → List Byte
  | 0, _ => []
  | n + 1, v => BitVec.ofNat 8 v :: leBytes n (v / 256)

@[simp] theorem leBytes_length (n v : ℕ) : (leBytes n v).length = n := by
  induction n generalizing v with
  | zero => rfl
  | succ n ih => simp [leBytes, ih]

theorem leNat_lt : leNat bs < 256 ^ bs.length := by
  induction bs with
  | nil => simp [leNat]
  | cons b bs ih =>
    have hb : b.toNat < 256 := b.isLt
    rw [leNat, length_cons, pow_succ]
    omega

variable {n : ℕ} {v : ℕ}

theorem leNat_leBytes : leNat (leBytes n v) = v % 256 ^ n := by
  induction n generalizing v with
  | zero => simp [leBytes, leNat, Nat.mod_one]
  | succ n ih => simp [leBytes, leNat, ih, pow_succ, Nat.mul_comm (256 ^ n), Nat.mod_mul]

theorem leBytes_leNat {bs : List Byte} (h : bs.length = n) : leBytes n (leNat bs) = bs := by
  subst h
  induction bs with
  | nil => rfl
  | cons b bs ih =>
    have hb : b.toNat < 256 := b.isLt
    have hd : (b.toNat + 256 * leNat bs) / 256 = leNat bs := by omega
    have hm : BitVec.ofNat 8 (b.toNat + 256 * leNat bs) = b := by
      apply BitVec.eq_of_toNat_eq
      simp only [BitVec.toNat_ofNat]
      omega
    rw [length_cons, leNat, leBytes, hd, ih, hm]

theorem leBytes_injective {w : ℕ} (hv : v < 256 ^ n) (hw : w < 256 ^ n) (h : leBytes n v = leBytes n w) : v = w := by
  have hl := congrArg leNat h
  rwa [leNat_leBytes, leNat_leBytes, Nat.mod_eq_of_lt hv, Nat.mod_eq_of_lt hw] at hl

theorem leBytes_add : leBytes (i + j) v = leBytes i v ++ leBytes j (v / 256 ^ i) := by
  induction i generalizing v with
  | zero => simp [leBytes]
  | succ i ih =>
    rw [Nat.succ_add, leBytes, ih, leBytes, Nat.div_div_eq_div_mul, pow_succ, Nat.mul_comm 256]
    rfl

def beBytes (n v : ℕ) : List Byte := (leBytes n v).reverse

@[simp] theorem beBytes_length (n v : ℕ) : (beBytes n v).length = n := by simp [beBytes]

theorem beNat_concat (b : Byte) : beNat (bs ++ [b]) = beNat bs * 256 + b.toNat := by
  induction bs with
  | nil => simp [beNat]
  | cons a bs ih =>
    rw [cons_append, beNat, ih, beNat, length_append, length_singleton, Nat.mul_add, Nat.pow_add]
    ring

theorem beNat_beBytes : beNat (beBytes n v) = v % 256 ^ n := by
  induction n generalizing v with
  | zero => simp [beBytes, leBytes, beNat, Nat.mod_one]
  | succ n ih =>
    have hb := BitVec.toNat_ofNat v 8
    rw [beBytes, leBytes, reverse_cons, beNat_concat, ← beBytes, ih, hb, pow_succ 256 n, Nat.mul_comm (256 ^ n), Nat.mod_mul]
    ring

end Honk.Lib
