import Honk.Lib.Bytes
import Honk.Lib.Utf8

namespace Honk.Lib

open List

def toUtf8 (text : List Char) : List Byte := (text.flatMap String.utf8EncodeChar).map UInt8.toBitVec

def fromUtf8 (bytes : List Byte) : Option (List Char) := (String.fromUTF8? (bytes.map UInt8.ofBitVec).toByteArray).map String.toList

@[simp] theorem toUtf8_append : toUtf8 (a ++ b) = toUtf8 a ++ toUtf8 b := by simp [toUtf8]

theorem fromUtf8_eq_some_iff : fromUtf8 bytes = some text ↔ bytes = toUtf8 text := by
  have hb : bytes = toUtf8 text ↔ (bytes.map UInt8.ofBitVec).toByteArray = text.utf8Encode := by
    rw [List.utf8Encode, toByteArray_inj, toUtf8]
    constructor
    · rintro rfl
      rw [map_map]
      exact map_id' _
    intro h
    rw [← h, map_map]
    exact (map_id' _).symm
  rw [hb, fromUtf8, String.fromUTF8?]
  constructor
  · intro h
    obtain ⟨s, hs, rfl⟩ := Option.map_eq_some_iff.mp h
    split_ifs at hs with hv
    cases hs
    rw [String.utf8Encode_toList]
    rfl
  intro h
  rw [dif_pos ⟨text, h⟩, Option.map_some, Option.some.injEq]
  have hst : String.fromUTF8 _ ⟨text, h⟩ = String.ofList text := by
    rw [← String.toByteArray_inj, String.toByteArray_ofList, ← h]
    rfl
  rw [hst, String.toList_ofList]

theorem utf8EncodeChar_ascii (hm : b ∈ String.utf8EncodeChar c) (hb : b.toNat < 128) :
    String.utf8EncodeChar c = [b] ∧ c.toNat = b.toNat := by
  have hw := Utf8.wellFormed_utf8EncodeChar c
  generalize String.utf8EncodeChar c = bytes at hm hw
  generalize c.toNat = n at hw
  cases hw with
  | one ha =>
    rw [mem_singleton] at hm
    rw [hm]
    exact ⟨rfl, rfl⟩
  | two ha _ h2 =>
    have := h2.1
    simp only [mem_cons, not_mem_nil, or_false] at hm
    rcases hm with rfl | rfl <;> omega
  | three ha _ h2 h3 =>
    have := h2.tail.1
    have := h3.1
    simp only [mem_cons, not_mem_nil, or_false] at hm
    rcases hm with rfl | rfl | rfl <;> omega
  | four ha _ h2 h3 h4 =>
    have := h2.tail.1
    have := h3.1
    have := h4.1
    simp only [mem_cons, not_mem_nil, or_false] at hm
    rcases hm with rfl | rfl | rfl | rfl <;> omega

theorem ascii_split (hb : b.toNat < 128) (h : toUtf8 text = front ++ b :: back) :
    ∃ t c u, text = t ++ c :: u ∧ front = toUtf8 t ∧ back = toUtf8 u ∧ c.toNat = b.toNat := by
  induction text generalizing front with
  | nil => simp [toUtf8] at h
  | cons c text ih =>
    have hco : toUtf8 (c :: text) = (String.utf8EncodeChar c).map UInt8.toBitVec ++ toUtf8 text := by simp [toUtf8]
    rw [hco] at h
    rcases append_eq_append_iff.mp h with ⟨rest, hf, hba⟩ | ⟨rest, hch, hba⟩
    · obtain ⟨t, c', u, rfl, rfl, hu, hc⟩ := ih hba
      exact ⟨c :: t, c', u, rfl, by rw [hf]; simp [toUtf8], hu, hc⟩
    cases rest with
    | nil =>
      obtain ⟨t, c', u, rfl, ht, hu, hc⟩ := @ih [] hba.symm
      refine ⟨c :: t, c', u, rfl, ?_, hu, hc⟩
      rw [append_nil] at hch
      have : toUtf8 (c :: t) = (String.utf8EncodeChar c).map UInt8.toBitVec ++ toUtf8 t := by simp [toUtf8]
      rw [this, ← ht, hch, append_nil]
    | cons b' rest =>
      rw [cons_append, List.cons.injEq] at hba
      obtain ⟨rfl, hba⟩ := hba
      have hm : UInt8.ofBitVec b ∈ String.utf8EncodeChar c := by
        have : b ∈ (String.utf8EncodeChar c).map UInt8.toBitVec := by rw [hch]; simp
        obtain ⟨u, hu, rfl⟩ := mem_map.mp this
        simpa using hu
      obtain ⟨ho, hn⟩ := utf8EncodeChar_ascii hm hb
      rw [ho] at hch
      obtain ⟨rfl, hr⟩ : front = [] ∧ rest = [] := by
        have hl := congrArg List.length hch
        simp only [map_cons, map_nil, length_append, length_cons, length_nil] at hl
        exact ⟨eq_nil_of_length_eq_zero (by omega), eq_nil_of_length_eq_zero (by omega)⟩
      exact ⟨[], c, text, rfl, by simp [toUtf8], by rw [hba, hr]; rfl, hn⟩

end Honk.Lib
