import Mathlib

namespace Honk.Lib.Sorted

open List

variable {α : Type*} [LinearOrder α]

def dedup : List α → List α
  | [] => []
  | [a] => [a]
  | a :: b :: rest => if a = b then dedup (b :: rest) else a :: dedup (b :: rest)

variable (xs : List α)

theorem mem_dedup : x ∈ dedup xs ↔ x ∈ xs := by
  fun_induction dedup xs with
  | case1 => rfl
  | case2 a => rfl
  | case3 b rest ih => simp [ih]
  | case4 a b rest hn ih => rw [mem_cons, ih, mem_cons (l := b :: rest)]

theorem pairwise_dedup {xs : List α} (h : xs.Pairwise (· ≤ ·)) : (dedup xs).Pairwise (· < ·) := by
  fun_induction dedup xs with
  | case1 => exact .nil
  | case2 a => exact pairwise_singleton _ a
  | case3 b rest ih => exact ih (pairwise_cons.mp h).2
  | case4 a b rest hn ih =>
    obtain ⟨hl, ht⟩ := pairwise_cons.mp h
    refine pairwise_cons.mpr ⟨fun x hx => ?_, ih ht⟩
    have ha : a < b := lt_of_le_of_ne (hl b mem_cons_self) hn
    obtain rfl | hx := mem_cons.mp ((mem_dedup _).mp hx)
    · exact ha
    · exact ha.trans_le ((pairwise_cons.mp ht).1 x hx)

def sortDedup : List α := dedup (xs.insertionSort (· ≤ ·))

theorem mem_sortDedup : x ∈ sortDedup xs ↔ x ∈ xs := by rw [sortDedup, mem_dedup, mem_insertionSort]

theorem pairwise_sortDedup : (sortDedup xs).Pairwise (· < ·) := pairwise_dedup (pairwise_insertionSort _ xs)

/-- The halving loop: the window `size` slots long from `base` keeps its left half when its middle lies beyond `x`. -/
def narrow (xs : List α) (x : α) : ℕ → ℕ → ℕ → ℕ
  | 0, base, _ => base
  | fuel + 1, base, size =>
    if size ≤ 1 then base
    else narrow xs x fuel (if xs[base + size / 2]?.any (fun y => decide (x < y)) then base else base + size / 2) (size - size / 2)

def binarySearch (x : α) : Option ℕ :=
  let found := narrow xs x xs.length 0 xs.length
  if xs[found]? = some x then some found else none

theorem narrow_eq {xs : List α} (hs : xs.Pairwise (· < ·)) {x : α} {k : ℕ} (hk : xs[k]? = some x) {base size : ℕ}
    (hf : size ≤ fuel + 1) (he : base + size ≤ xs.length) (hl : base ≤ k) (hh : k < base + size) :
    narrow xs x fuel base size = k := by
  induction fuel generalizing base size with
  | zero =>
    rw [narrow]
    omega
  | succ fuel ih =>
    rw [narrow]
    split
    · omega
    -- the middle is before `k`, at it, or after it
    have hm : base + size / 2 < xs.length := by omega
    obtain ⟨hlt, rfl⟩ := List.getElem?_eq_some_iff.mp hk
    rw [getElem?_eq_getElem hm, Option.any_some]
    have ho := pairwise_iff_getElem.mp hs
    split
    · rename_i hb
      have hb := of_decide_eq_true hb
      have hbe : k < base + size / 2 := by
        by_contra hle
        obtain heq | hlt' := (not_lt.mp hle).eq_or_lt
        · simp [heq] at hb
        · exact lt_asymm hb (ho _ _ hm hlt hlt')
      exact ih (by omega) (by omega) hl (by omega)
    rename_i hw
    have hw : ¬ xs[k] < xs[base + size / 2] := fun h => hw (decide_eq_true h)
    have ha : base + size / 2 ≤ k := by
      by_contra hlt'
      exact hw (ho _ _ hlt hm (not_le.mp hlt'))
    exact ih (by omega) (by omega) ha (by omega)

theorem binarySearch_of_mem {xs : List α} (hs : xs.Pairwise (· < ·)) {x : α} (h : x ∈ xs) :
    ∃ k, binarySearch xs x = some k ∧ xs[k]? = some x := by
  obtain ⟨k, hk⟩ := mem_iff_getElem?.mp h
  have hl := (List.getElem?_eq_some_iff.mp hk).1
  have hf : narrow xs x xs.length 0 xs.length = k := narrow_eq hs hk (by omega) (by omega) (Nat.zero_le k) (by omega)
  exact ⟨k, by rw [binarySearch, hf, if_pos hk], hk⟩

instance bitVecOrder {w : ℕ} : LinearOrder (BitVec w) where
  le_refl := BitVec.le_refl
  le_trans _ _ _ := BitVec.le_trans
  le_antisymm _ _ := BitVec.le_antisymm
  lt_iff_le_not_ge a b := by rw [BitVec.not_le]; exact ⟨fun h => ⟨BitVec.le_of_lt h, h⟩, And.right⟩
  le_total a b := BitVec.le_total a b
  toDecidableLE := inferInstance
  toDecidableLT := inferInstance
  toDecidableEq := inferInstance
  min_def _ _ := rfl
  max_def _ _ := rfl

end Honk.Lib.Sorted
