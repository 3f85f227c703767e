import Mathlib

namespace Honk.Lib.Utf8

open List UInt8

open String (utf8EncodeChar)

def Tail (b : UInt8) : Prop := 0x80 ≤ b.toNat ∧ b.toNat ≤ 0xBF

/-- The second bytes allowed after a lead byte: the narrowed ranges exclude overlong forms,
surrogates and values above `0x10FFFF`. -/
structure Second (a b : UInt8) : Prop where
  tail : Tail b
  overlong3 : a.toNat = 0xE0 → 0xA0 ≤ b.toNat
  surrogate : a.toNat = 0xED → b.toNat ≤ 0x9F
  overlong4 : a.toNat = 0xF0 → 0x90 ≤ b.toNat
  above : a.toNat = 0xF4 → b.toNat ≤ 0x8F

/-- The table of well-formed byte sequences, with the scalar value each stands for. -/
inductive WellFormed : List UInt8 → ℕ → Prop
  | one {a : UInt8} : a.toNat < 0x80 → WellFormed [a] a.toNat
  | two {a b : UInt8} : 0xC2 ≤ a.toNat → a.toNat ≤ 0xDF → Tail b → WellFormed [a, b] (a.toNat % 32 * 64 + b.toNat % 64)
  | three {a b c : UInt8} : 0xE0 ≤ a.toNat → a.toNat ≤ 0xEF → Second a b → Tail c →
      WellFormed [a, b, c] ((a.toNat % 16 * 64 + b.toNat % 64) * 64 + c.toNat % 64)
  | four {a b c d : UInt8} : 0xF0 ≤ a.toNat → a.toNat ≤ 0xF4 → Second a b → Tail c → Tail d → WellFormed [a, b, c, d]
        (((a.toNat % 8 * 64 + b.toNat % 64) * 64 + c.toNat % 64) * 64 + d.toNat % 64)

theorem char_toNat_valid (c : Char) : c.toNat < 0xD800 ∨ (0xDFFF < c.toNat ∧ c.toNat < 0x110000) := c.valid

theorem utf8EncodeChar_eq {c : Char} (h : c.toNat = n) : utf8EncodeChar c = if n ≤ 127 then [ofNat n]
      else if n ≤ 2047 then [ofNat (n / 64 % 32 + 192), ofNat (n % 64 + 128)]
      else if n ≤ 65535 then
        [ofNat (n / 4096 % 16 + 224), ofNat (n / 64 % 64 + 128), ofNat (n % 64 + 128)]
      else
        [ofNat (n / 262144 % 8 + 240), ofNat (n / 4096 % 64 + 128), ofNat (n / 64 % 64 + 128), ofNat (n % 64 + 128)] := by
  subst h
  rfl

variable {n m : ℕ} {bytes p q : List UInt8} {c : Char}

theorem toNat_ofNat_of_lt (h : n < 256) : (ofNat n).toNat = n := by
  rw [toNat_ofNat']
  exact Nat.mod_eq_of_lt h

theorem wellFormed_utf8EncodeChar (c : Char) : WellFormed (utf8EncodeChar c) c.toNat := by
  have hv := char_toNat_valid c
  rw [utf8EncodeChar_eq rfl]
  generalize c.toNat = n at hv
  split_ifs with h₁ h₂ h₃
  · have hn := toNat_ofNat_of_lt (n := n) (by omega)
    have := WellFormed.one (a := ofNat n) (by omega)
    rwa [hn] at this
  · have ha := toNat_ofNat_of_lt (n := n / 64 % 32 + 192) (by omega)
    have hb := toNat_ofNat_of_lt (n := n % 64 + 128) (by omega)
    have hw := WellFormed.two (a := ofNat (n / 64 % 32 + 192))
      (b := ofNat (n % 64 + 128)) (by omega) (by omega) ⟨by omega, by omega⟩
    rw [ha, hb] at hw
    convert hw using 1
    omega
  · have ha := toNat_ofNat_of_lt (n := n / 4096 % 16 + 224) (by omega)
    have hb := toNat_ofNat_of_lt (n := n / 64 % 64 + 128) (by omega)
    have hc := toNat_ofNat_of_lt (n := n % 64 + 128) (by omega)
    have hw := WellFormed.three (a := ofNat (n / 4096 % 16 + 224)) (b := ofNat (n / 64 % 64 + 128)) (c := ofNat (n % 64 + 128))
      (by omega) (by omega)
      ⟨⟨by omega, by omega⟩, by omega, by omega, by omega, by omega⟩ ⟨by omega, by omega⟩
    rw [ha, hb, hc] at hw
    convert hw using 1
    omega
  have ha := toNat_ofNat_of_lt (n := n / 262144 % 8 + 240) (by omega)
  have hb := toNat_ofNat_of_lt (n := n / 4096 % 64 + 128) (by omega)
  have hc := toNat_ofNat_of_lt (n := n / 64 % 64 + 128) (by omega)
  have hd := toNat_ofNat_of_lt (n := n % 64 + 128) (by omega)
  have hw := WellFormed.four (a := ofNat (n / 262144 % 8 + 240)) (b := ofNat (n / 4096 % 64 + 128)) (c := ofNat (n / 64 % 64 + 128))
    (d := ofNat (n % 64 + 128)) (by omega) (by omega)
    ⟨⟨by omega, by omega⟩, by omega, by omega, by omega, by omega⟩
    ⟨by omega, by omega⟩ ⟨by omega, by omega⟩
  rw [ha, hb, hc, hd] at hw
  convert hw using 1
  omega

theorem ofNat_eq_of_toNat (h : n = b.toNat) : UInt8.ofNat n = b := by rw [h, UInt8.ofNat_toNat]

theorem WellFormed.valid (h : WellFormed bytes n) : n.isValidChar := by
  unfold Nat.isValidChar
  cases h with
  | one h => omega
  | two h₁ h₂ hb => obtain ⟨_, _⟩ := hb; omega
  | three h₁ h₂ hb hc => obtain ⟨⟨_, _⟩, _, _, _, _⟩ := hb; obtain ⟨_, _⟩ := hc; omega
  | four h₁ h₂ hb hc hd => obtain ⟨⟨_, _⟩, _, _, _, _⟩ := hb; obtain ⟨_, _⟩ := hc; obtain ⟨_, _⟩ := hd; omega

theorem WellFormed.exists_char (h : WellFormed bytes n) : ∃ c : Char, c.toNat = n ∧ utf8EncodeChar c = bytes := by
  have hn : (Char.ofNatAux n h.valid).toNat = n := rfl
  refine ⟨Char.ofNatAux n h.valid, hn, ?_⟩
  rw [utf8EncodeChar_eq hn]
  clear hn
  cases h with
  | one h => rw [if_pos (by omega), UInt8.ofNat_toNat]
  | @two a b h₁ h₂ hb =>
    obtain ⟨_, _⟩ := hb
    rw [if_neg (by omega), if_pos (by omega), ofNat_eq_of_toNat (b := a) (by omega), ofNat_eq_of_toNat (b := b) (by omega)]
  | @three a b c h₁ h₂ hb hc =>
    obtain ⟨⟨_, _⟩, _, _, _, _⟩ := hb
    obtain ⟨_, _⟩ := hc
    rw [if_neg (by omega), if_neg (by omega), if_pos (by omega),
      ofNat_eq_of_toNat (b := a) (by omega), ofNat_eq_of_toNat (b := b) (by omega),
      ofNat_eq_of_toNat (b := c) (by omega)]
  | @four a b c d h₁ h₂ hb hc hd =>
    obtain ⟨⟨_, _⟩, _, _, _, _⟩ := hb
    obtain ⟨_, _⟩ := hc
    obtain ⟨_, _⟩ := hd
    rw [if_neg (by omega), if_neg (by omega), if_neg (by omega),
      ofNat_eq_of_toNat (b := a) (by omega), ofNat_eq_of_toNat (b := b) (by omega),
      ofNat_eq_of_toNat (b := c) (by omega), ofNat_eq_of_toNat (b := d) (by omega)]

theorem WellFormed.unique (hp : WellFormed p n) (hq : WellFormed q m) (hpb : p <+: bytes) (hqb : q <+: bytes) : p = q ∧ n = m := by
  obtain ⟨r, rfl⟩ := hpb
  obtain ⟨s, hs⟩ := hqb
  cases hp <;> cases hq <;> simp only [cons_append, List.cons.injEq] at hs <;>
    grind

def Begins (bytes : List UInt8) : Prop := ∃ c : Char, bytes <+: utf8EncodeChar c

theorem begins_iff : Begins p ↔ ∃ q n, WellFormed q n ∧ p <+: q := by
  constructor
  · rintro ⟨c, hc⟩
    exact ⟨_, _, wellFormed_utf8EncodeChar c, hc⟩
  rintro ⟨q, n, hq, hp⟩
  obtain ⟨c, -, rfl⟩ := hq.exists_char
  exact ⟨c, hp⟩

theorem Begins.of_isPrefix (h : Begins q) (hp : p <+: q) : Begins p := by
  obtain ⟨c, hc⟩ := h
  exact ⟨c, hp.trans hc⟩

/-- What replacing maximal subparts makes of the start of `bytes`: an encoded character, or the
replacement character for the longest start of an encoding, and for one byte at least. -/
inductive Head (bytes : List UInt8) : Char → ℕ → Prop
  | encoded (c : Char) : utf8EncodeChar c <+: bytes → Head bytes c (utf8EncodeChar c).length
  | replaced (n : ℕ) : (∀ c, ¬ utf8EncodeChar c <+: bytes) → 0 < n → n ≤ bytes.length → (n = 1 ∨ Begins (bytes.take n)) →
      (∀ m, n < m → m ≤ bytes.length → ¬ Begins (bytes.take m)) → Head bytes '\uFFFD' n

section

variable (h : Head bytes c n)
include h

theorem Head.unique (h' : Head bytes d m) : c = d ∧ n = m := by
  cases h with
  | encoded _ hc =>
    cases h' with
    | encoded _ hd =>
      obtain ⟨hby, hv⟩ := (wellFormed_utf8EncodeChar c).unique (wellFormed_utf8EncodeChar d) hc hd
      exact ⟨Char.toNat_inj.mp hv, by rw [hby]⟩
    | replaced _ hn => exact absurd hc (hn c)
  | replaced _ hn hpo hl hb hm =>
    cases h' with
    | encoded _ hd => exact absurd hd (hn d)
    | replaced _ _ hpo' hl' hb' hm' =>
      refine ⟨rfl, ?_⟩
      -- The longer of the two would be a start of an encoding that the shorter rules out.
      rcases Nat.lt_trichotomy n m with hlt | he | hg
      · exact absurd (hb'.resolve_left (by omega)) (hm m hlt hl')
      · exact he
      · exact absurd (hb.resolve_left (by omega)) (hm' n hg hl)

theorem Head.pos : 0 < n := by
  cases h with
  | encoded _ hc => exact length_pos_iff.mpr (String.utf8EncodeChar_ne_nil)
  | replaced _ _ hpo => exact hpo

theorem Head.le : n ≤ bytes.length := by
  cases h with
  | encoded _ hc => exact hc.length_le
  | replaced _ _ _ hl => exact hl

theorem Head.ne_nil : bytes ≠ [] := length_pos_iff.mp (h.pos.trans_le h.le)

theorem Head.take_eq (hc : c ≠ '\uFFFD') : bytes.take n = utf8EncodeChar c := by
  cases h with
  | encoded _ hp => exact (prefix_iff_eq_take.mp hp).symm
  | replaced => exact absurd rfl hc

end

inductive Lossy : List UInt8 → List Char → Prop
  | nil : Lossy [] []
  | cons {bytes : List UInt8} {c : Char} {n : ℕ} {text : List Char} :
      Head bytes c n → Lossy (bytes.drop n) text → Lossy bytes (c :: text)

theorem Lossy.unique (h : Lossy bytes text) (h' : Lossy bytes text') : text = text' := by
  induction h generalizing text' with
  | nil =>
    cases h' with
    | nil => rfl
    | cons hh => exact absurd rfl hh.ne_nil
  | cons hh _ ih =>
    cases h' with
    | nil => exact absurd rfl hh.ne_nil
    | cons hh' hr =>
      obtain ⟨rfl, rfl⟩ := hh.unique hh'
      rw [ih hr]

theorem Head.broken (hpo : 0 < n) (hl : n ≤ bytes.length) (hbe : n = 1 ∨ Begins (bytes.take n))
    (hn : ∀ q v, WellFormed q v → ¬ q <+: bytes.take n) (hs : n < bytes.length → ¬ Begins (bytes.take (n + 1))) :
    Head bytes '\uFFFD' n := by
  have hma : ∀ m, n < m → m ≤ bytes.length → ¬ Begins (bytes.take m) := by
    intro m hm hml hb
    exact hs (by omega) (hb.of_isPrefix (take_prefix_take_left (by omega)))
  refine .replaced n (fun c hc => ?_) hpo hl hbe hma
  rcases Nat.lt_or_ge n (utf8EncodeChar c).length with hlt | hg
  · refine hma _ hlt hc.length_le ⟨c, ?_⟩
    rw [← prefix_iff_eq_take.mp hc]
  refine hn _ _ (wellFormed_utf8EncodeChar c) ?_
  rw [prefix_iff_eq_take.mp hc]
  exact take_prefix_take_left hg

theorem Head.of_wellFormed (h : WellFormed p n) (hp : p <+: bytes) : ∃ c : Char, c.toNat = n ∧ Head bytes c p.length := by
  obtain ⟨c, hc, rfl⟩ := h.exists_char
  exact ⟨c, hc, .encoded c hp⟩

section

variable {a b c : UInt8} {rest : List UInt8}

theorem WellFormed.lead (h : WellFormed q n) (hp : [a, b] <+: q) : 0xC2 ≤ a.toNat ∧ a.toNat ≤ 0xF4 ∧ Second a b := by
  cases h with
  | one => simp at hp
  | two h₁ h₂ hb =>
    simp only [cons_prefix_cons] at hp
    obtain ⟨rfl, rfl, -⟩ := hp
    exact ⟨h₁, by omega, hb, by omega, by omega, by omega, by omega⟩
  | three h₁ h₂ hb | four h₁ h₂ hb =>
    simp only [cons_prefix_cons] at hp
    obtain ⟨rfl, rfl, -⟩ := hp
    exact ⟨by omega, by omega, hb⟩

theorem Begins.third (h : Begins [a, b, c]) : Tail c := by
  obtain ⟨q, n, hq, hp⟩ := begins_iff.mp h
  cases hq with
  | one | two => simp at hp
  | three _ _ _ hc | four _ _ _ hc =>
    simp only [cons_prefix_cons] at hp
    exact hp.2.2.1 ▸ hc

theorem Begins.fourth (h : Begins [a, b, c, d]) : Tail d := by
  obtain ⟨q, n, hq, hp⟩ := begins_iff.mp h
  cases hq with
  | one | two | three => simp at hp
  | four _ _ _ _ hd =>
    simp only [cons_prefix_cons] at hp
    exact hp.2.2.2.1 ▸ hd

theorem tail_low : Tail 0x80 := ⟨by decide, by decide⟩

theorem begins_three (h₁ : 0xF0 ≤ a.toNat) (h₂ : a.toNat ≤ 0xF4) (hb : Second a b) (hc : Tail c) : Begins [a, b, c] :=
  begins_iff.mpr ⟨_, _, .four h₁ h₂ hb hc tail_low, [0x80], rfl⟩

theorem begins_two (h₁ : 0xE0 ≤ a.toNat) (h₂ : a.toNat ≤ 0xF4) (hb : Second a b) : Begins [a, b] := by
  rcases Nat.lt_or_ge a.toNat 0xF0 with h | h
  · exact begins_iff.mpr ⟨_, _, .three h₁ (by omega) hb tail_low, [0x80], rfl⟩
  · exact (begins_three h h₂ hb tail_low).of_isPrefix ⟨[0x80], rfl⟩

theorem Head.broken_one (ha : 0x80 ≤ a.toNat) (hr : 0xC2 ≤ a.toNat → a.toNat ≤ 0xF4 → ∀ b ∈ rest.head?, ¬ Second a b) :
    Head (a :: rest) '\uFFFD' 1 := by
  refine .broken one_pos (by simp) (.inl rfl) ?_ ?_
  · intro q v hq hp
    have hl := hp.length_le
    cases hq with
    | one h =>
      obtain ⟨rfl, -⟩ := cons_prefix_cons.mp hp
      omega
    | two | three | four => simp at hl
  intro hlt hb
  cases rest with
  | nil => simp at hlt
  | cons b rest =>
    obtain ⟨q, n, hq, hp⟩ := begins_iff.mp hb
    obtain ⟨h₁, h₂, hs⟩ := hq.lead hp
    exact hr h₁ h₂ b rfl hs

theorem Head.broken_two (h₁ : 0xE0 ≤ a.toNat) (h₂ : a.toNat ≤ 0xF4) (hb : Second a b)
    (hr : ∀ c ∈ rest.head?, ¬ Tail c) : Head (a :: b :: rest) '\uFFFD' 2 := by
  refine .broken two_pos (by simp) (.inr (begins_two h₁ h₂ hb)) ?_ ?_
  · intro q v hq hp
    have hl := hp.length_le
    cases hq with
    | one h | two _ h =>
      obtain ⟨rfl, -⟩ := cons_prefix_cons.mp hp
      omega
    | three | four => simp at hl
  intro hlt hbe
  cases rest with
  | nil => simp at hlt
  | cons c rest => exact hr c rfl hbe.third

theorem Head.broken_three (h₁ : 0xF0 ≤ a.toNat) (h₂ : a.toNat ≤ 0xF4) (hb : Second a b)
    (hc : Tail c) (hr : ∀ d ∈ rest.head?, ¬ Tail d) : Head (a :: b :: c :: rest) '\uFFFD' 3 := by
  refine .broken three_pos (by simp) (.inr (begins_three h₁ h₂ hb hc)) ?_ ?_
  · intro q v hq hp
    have hl := hp.length_le
    cases hq with
    | one h | two _ h | three _ h =>
      obtain ⟨rfl, -⟩ := cons_prefix_cons.mp hp
      omega
    | four => simp at hl
  intro hlt hbe
  cases rest with
  | nil => simp at hlt
  | cons d rest => exact hr d rfl hbe.fourth

end

end Honk.Lib.Utf8
