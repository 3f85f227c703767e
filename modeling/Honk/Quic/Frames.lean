import Honk.Lib.Bytes
import Honk.Lib.Position

namespace Honk.Quic

open Honk.Lib
open Option (bind_eq_bind bind_eq_some_iff bind_some isSome_none isSome_some map_eq_some_iff map_some)
open List hiding Vector

def readVarint (data : List Byte) (pos : ℕ) : Option (ℕ × ℕ) :=
  data[pos]? >>= fun first =>
    let len := 1 <<< (first >>> 6).toNat
    (slice? data pos (pos + len)).map fun bytes =>
      (bytes.tail.foldl (fun value b => value <<< 8 ||| b.toNat) (first &&& 0x3f).toNat, pos + len)

variable {data rest : List Byte} {pos next : ℕ}

theorem readVarint_lt (h : readVarint data pos = some (value, next)) : pos < next ∧ next ≤ data.length := by
  obtain ⟨first, -, h⟩ := bind_eq_some_iff.mp h
  obtain ⟨bytes, hb, he⟩ := map_eq_some_iff.mp h
  cases he
  have hl : 0 < 1 <<< (first >>> 6).toNat := by simp [Nat.shiftLeft_eq]
  exact ⟨by omega, (slice?_eq_some hb).2.1⟩

structure Varint where
  width : Fin 4
  value : ℕ
  fits : value < 2 ^ (8 * 2 ^ width.val - 2)

namespace Varint

def encode (v : Varint) : List Byte := beBytes (2 ^ v.width.val) (v.width.val * 2 ^ (8 * 2 ^ v.width.val - 2) + v.value)

theorem length_encode (v : Varint) : v.encode.length = 2 ^ v.width.val := by simp [encode]

end Varint

theorem foldl_reverse_leBytes : (leBytes n v).reverse.foldl (fun value b => value <<< 8 ||| b.toNat) acc = acc * 256 ^ n + v % 256 ^ n := by
  induction n generalizing v with
  | zero => simp [leBytes, Nat.mod_one]
  | succ n ih =>
    have hb := BitVec.toNat_ofNat v 8
    have hl : v % 256 < 2 ^ 8 := Nat.mod_lt _ (by decide)
    rw [leBytes, reverse_cons, foldl_append, ih, foldl_cons, foldl_nil, hb,
      ← Nat.shiftLeft_add_eq_or_of_lt hl, Nat.shiftLeft_eq, pow_succ 256 n, Nat.mul_comm (256 ^ n) 256, Nat.mod_mul]
    ring

variable {v : Varint}

theorem readVarint_encode (h : At data pos (v.encode ++ rest)) : readVarint data pos = some (v.value, pos + v.encode.length) := by
  obtain ⟨m, hm⟩ : ∃ m, 2 ^ v.width.val = m + 1 := ⟨2 ^ v.width.val - 1, by have := Nat.two_pow_pos v.width.val; omega⟩
  obtain ⟨number, hn⟩ : ∃ number, number = v.width.val * (64 * 256 ^ m) + v.value := ⟨_, rfl⟩
  have hr : 2 ^ (8 * 2 ^ v.width.val - 2) = 64 * 256 ^ m := by
    rw [hm, show (256 : ℕ) = 2 ^ 8 from rfl, ← pow_mul, show (64 : ℕ) = 2 ^ 6 from rfl, ← pow_add]
    congr 1
    omega
  have hv : v.value < 64 * 256 ^ m := hr ▸ v.fits
  have hpo : 0 < 256 ^ m := Nat.pow_pos (by decide)
  -- The first byte is the width followed by the six high bits of the value.
  have he : v.encode = BitVec.ofNat 8 (number / 256 ^ m) :: (leBytes m number).reverse := by
    rw [Varint.encode, hr, hm, ← hn, beBytes, leBytes_add, reverse_append]
    rfl
  obtain ⟨high, hh⟩ : ∃ high, high = v.value / 256 ^ m := ⟨_, rfl⟩
  have hq : number / 256 ^ m = v.width.val * 64 + high := by
    rw [hh, hn, show v.width.val * (64 * 256 ^ m) + v.value = v.value + 256 ^ m * (v.width.val * 64) by ring,
      Nat.add_mul_div_left _ _ hpo, Nat.add_comm]
  have hlt : high < 64 := hh ▸ Nat.div_lt_of_lt_mul (by rwa [Nat.mul_comm])
  have hw := v.width.isLt
  have hf : (BitVec.ofNat 8 (number / 256 ^ m)).toNat = v.width.val * 64 + high := by
    rw [BitVec.toNat_ofNat, hq, Nat.mod_eq_of_lt (by omega)]
  have hs : (BitVec.ofNat 8 (number / 256 ^ m) >>> 6).toNat = v.width.val := by
    rw [BitVec.toNat_ushiftRight, hf, Nat.shiftRight_eq_div_pow]
    omega
  have hma : (BitVec.ofNat 8 (number / 256 ^ m) &&& 0x3f).toNat = high := by
    rw [BitVec.toNat_and, hf, show (0x3f : BitVec 8).toNat = 2 ^ 6 - 1 from rfl, Nat.and_two_pow_sub_one_eq_mod]
    omega
  have hl : 1 <<< (BitVec.ofNat 8 (number / 256 ^ m) >>> 6).toNat = v.encode.length := by
    rw [hs, Nat.one_shiftLeft, v.length_encode]
  have hhe : data[pos]? = some (BitVec.ofNat 8 (number / 256 ^ m)) := by
    rw [he] at h
    exact h.head
  have hlo : number % 256 ^ m = v.value % 256 ^ m := by
    rw [hn, show v.width.val * (64 * 256 ^ m) + v.value = v.value + 256 ^ m * (v.width.val * 64) by ring,
      Nat.add_mul_mod_self_left]
  rw [readVarint, hhe]
  simp only [bind_eq_bind, bind_some, hl, h.slice, map_some, Option.some.injEq, Prod.mk.injEq, and_true]
  rw [he, tail_cons, foldl_reverse_leBytes, hma, hlo, hh, Nat.div_add_mod']

def skipVarint (data : List Byte) (pos : ℕ) : Option ℕ := (readVarint data pos).map Prod.snd

theorem skipVarint_encode (h : At data pos (v.encode ++ rest)) :
    skipVarint data pos = some (pos + v.encode.length) := by rw [skipVarint, readVarint_encode h, map_some]

theorem skipVarint_lt (h : skipVarint data pos = some next) : pos < next ∧ next ≤ data.length := by
  obtain ⟨⟨value, next'⟩, hr, rfl⟩ := map_eq_some_iff.mp h
  exact readVarint_lt hr

def skipAckRanges (payload : List Byte) : ℕ → ℕ → Option ℕ
  | 0, pos => some pos
  | n + 1, pos => skipVarint payload pos >>= fun next => skipVarint payload next >>= fun next => skipAckRanges payload n next

def skipEcnCounts (payload : List Byte) : ℕ → ℕ → Option ℕ
  | 0, pos => some pos
  | n + 1, pos => skipVarint payload pos >>= fun next => skipEcnCounts payload n next

section

variable (payload : List Byte)

def skipAckFrame (pos : ℕ) (hasEcn : Bool) : Option ℕ :=
  skipVarint payload pos >>= fun next =>
    skipVarint payload next >>= fun next =>
      readVarint payload next >>= fun (rangeCount, next) =>
        skipVarint payload next >>= fun next =>
          skipAckRanges payload rangeCount next >>= fun pos => if hasEcn then skipEcnCounts payload 3 pos else some pos

def skipConnectionCloseFrame (pos : ℕ) (hasFrameType : Bool) : Option ℕ :=
  skipVarint payload pos >>= fun pos =>
    (if hasFrameType then skipVarint payload pos else some pos) >>= fun pos =>
      readVarint payload pos >>= fun (reasonLen, next) => some (next + reasonLen) |>.filter fun stop => stop ≤ payload.length

def readCryptoFrame (pos : ℕ) : Option ((ℕ × List Byte) × ℕ) :=
  readVarint payload pos >>= fun (offset, next) =>
    readVarint payload next >>= fun (len, next) => (slice? payload next (next + len)).map fun data => ((offset, data), next + len)

def readFrame (frameType : Byte) (pos : ℕ) : Option (Option (ℕ × List Byte) × ℕ) :=
  if frameType = 0x00 ∨ frameType = 0x01 then some (none, pos)
  else if frameType = 0x02 ∨ frameType = 0x03 then
    (skipAckFrame payload pos (frameType = 0x03)).map fun next => (none, next)
  else if frameType = 0x06 then (readCryptoFrame payload pos).map fun (fragment, next) => (some fragment, next)
  else if frameType = 0x1c ∨ frameType = 0x1d then
    (skipConnectionCloseFrame payload pos (frameType = 0x1c)).map fun next => (none, next)
  else none

/-- `none` if the walk is not over after `fuel` rounds, or if it reads a byte that is not there. -/
def walkFrames (payload : List Byte) : ℕ → ℕ → Option (List (ℕ × List Byte))
  | 0, pos => if pos < payload.length then none else some []
  | fuel + 1, pos =>
    if pos < payload.length then
      payload[pos]? >>= fun frameType =>
        match readFrame payload frameType (pos + 1) with
        | none => some []
        | some (fragment, next) => (walkFrames payload fuel next).map fun out => fragment.toList ++ out
    else some []

def collectCryptoFrames : Option (List (ℕ × List Byte)) := walkFrames payload payload.length 0

end

variable {payload : List Byte}

theorem skipAckRanges_le (h : skipAckRanges payload n pos = some next) (hpo : pos ≤ payload.length) :
    pos ≤ next ∧ next ≤ payload.length := by
  induction n generalizing pos with
  | zero =>
    cases h
    exact ⟨le_rfl, hpo⟩
  | succ n ih =>
    obtain ⟨gap, hg, h⟩ := bind_eq_some_iff.mp h
    obtain ⟨length, hl, h⟩ := bind_eq_some_iff.mp h
    have h1 := skipVarint_lt hg
    have h2 := skipVarint_lt hl
    have h3 := ih h h2.2
    omega

theorem skipEcnCounts_le (h : skipEcnCounts payload n pos = some next) (hpo : pos ≤ payload.length) :
    pos ≤ next ∧ next ≤ payload.length := by
  induction n generalizing pos with
  | zero =>
    cases h
    exact ⟨le_rfl, hpo⟩
  | succ n ih =>
    obtain ⟨count, hc, h⟩ := bind_eq_some_iff.mp h
    have h1 := skipVarint_lt hc
    have h2 := ih h h1.2
    omega

theorem skipAckFrame_lt (h : skipAckFrame payload pos ha = some next) : pos < next ∧ next ≤ payload.length := by
  obtain ⟨largest, hl, h⟩ := bind_eq_some_iff.mp h
  obtain ⟨delay, hd, h⟩ := bind_eq_some_iff.mp h
  obtain ⟨⟨count, afterCount⟩, hc, h⟩ := bind_eq_some_iff.mp h
  obtain ⟨first, hf, h⟩ := bind_eq_some_iff.mp h
  obtain ⟨ranges, hr, h⟩ := bind_eq_some_iff.mp h
  have h1 := skipVarint_lt hl
  have h2 := skipVarint_lt hd
  have h3 := readVarint_lt hc
  have h4 := skipVarint_lt hf
  have h5 := skipAckRanges_le hr h4.2
  cases ha with
  | false =>
    cases h
    omega
  | true =>
    have h6 := skipEcnCounts_le h h5.2
    omega

theorem skipConnectionCloseFrame_lt (h : skipConnectionCloseFrame payload pos ha = some next) : pos < next ∧ next ≤ payload.length := by
  obtain ⟨code, hc, h⟩ := bind_eq_some_iff.mp h
  obtain ⟨kind, hk, h⟩ := bind_eq_some_iff.mp h
  obtain ⟨⟨reasonLen, reason⟩, hr, h⟩ := bind_eq_some_iff.mp h
  have h1 := skipVarint_lt hc
  have h2 : code ≤ kind := by
    cases ha with
    | false => exact (Option.some.inj hk).le
    | true => exact (skipVarint_lt hk).1.le
  have h3 := readVarint_lt hr
  obtain ⟨hn, hs⟩ := Option.filter_eq_some_iff.mp h
  cases hn
  exact ⟨by omega, of_decide_eq_true hs⟩

theorem readCryptoFrame_lt (h : readCryptoFrame payload pos = some (fragment, next)) :
    pos < next ∧ next ≤ payload.length ∧ fragment.2 <:+: payload := by
  obtain ⟨⟨offset, afterOffset⟩, ho, h⟩ := bind_eq_some_iff.mp h
  obtain ⟨⟨len, afterLen⟩, hl, h⟩ := bind_eq_some_iff.mp h
  obtain ⟨data, hd, he⟩ := map_eq_some_iff.mp h
  cases he
  have h1 := readVarint_lt ho
  have h2 := readVarint_lt hl
  exact ⟨by omega, (slice?_eq_some hd).2.1, slice?_infix hd⟩

theorem readFrame_le (hpo : pos ≤ payload.length) (h : readFrame payload frameType pos = some (fragment, next)) :
    pos ≤ next ∧ next ≤ payload.length ∧ ∀ f ∈ fragment, f.2 <:+: payload := by
  rw [readFrame] at h
  split_ifs at h with hpl ha hc hcl
  · cases h
    exact ⟨le_rfl, hpo, by simp⟩
  · obtain ⟨next', hn, he⟩ := map_eq_some_iff.mp h
    cases he
    have := skipAckFrame_lt hn
    exact ⟨by omega, this.2, by simp⟩
  · obtain ⟨⟨f, next'⟩, hn, he⟩ := map_eq_some_iff.mp h
    cases he
    have := readCryptoFrame_lt hn
    exact ⟨by omega, this.2.1, by simpa using this.2.2⟩
  obtain ⟨next', hn, he⟩ := map_eq_some_iff.mp h
  cases he
  have := skipConnectionCloseFrame_lt hn
  exact ⟨by omega, this.2, by simp⟩

theorem walkFrames_total (hfu : payload.length - pos ≤ fuel) :
    ∃ out, walkFrames payload fuel pos = some out ∧ ∀ f ∈ out, f.2 <:+: payload := by
  induction fuel generalizing pos with
  | zero => exact ⟨[], by rw [walkFrames, if_neg (by omega)], by simp⟩
  | succ fuel ih =>
    rw [walkFrames]
    split_ifs with hpo
    · rw [getElem?_eq_getElem hpo]
      simp only [bind_eq_bind, bind_some]
      cases hfr : readFrame payload payload[pos] (pos + 1) with
      | none => exact ⟨[], rfl, by simp⟩
      | some found =>
        obtain ⟨fragment, next⟩ := found
        obtain ⟨hl, -, hinside⟩ := readFrame_le hpo hfr
        obtain ⟨out, ho, hin⟩ := @ih next (by omega)
        refine ⟨fragment.toList ++ out, by simp [ho], fun f hf => ?_⟩
        rcases mem_append.mp hf with hf | hf
        · exact hinside f (by simpa using hf)
        · exact hin f hf
    · exact ⟨[], rfl, by simp⟩

inductive Frame where
  | padding
  | ping
  | ack (largest delay count firstRange : Varint) (ranges : List (Varint × Varint)) (ecn : Option (Vector Varint 3))
      (hcount : count.value = ranges.length)
  | crypto (offset len : Varint) (data : List Byte) (hlen : len.value = data.length)
  | connectionClose (code : Varint) (frameType : Option Varint) (reasonLen : Varint) (reason : List Byte)
      (hlen : reasonLen.value = reason.length)

namespace Frame

def encodeRanges (ranges : List (Varint × Varint)) : List Byte := ranges.flatMap fun r => r.1.encode ++ r.2.encode

def encodeCounts (counts : List Varint) : List Byte := counts.flatMap Varint.encode

def encode : Frame → List Byte
  | .padding => [0x00]
  | .ping => [0x01]
  | .ack largest delay count firstRange ranges ecn _ =>
    (if ecn.isSome then 0x03 else 0x02) :: (largest.encode ++ (delay.encode ++ (count.encode ++ (firstRange.encode ++
      (encodeRanges ranges ++ encodeCounts (ecn.elim [] Vector.toList))))))
  | .crypto offset len data _ => 0x06 :: (offset.encode ++ (len.encode ++ data))
  | .connectionClose code frameType reasonLen reason _ =>
    (if frameType.isSome then 0x1c else 0x1d) ::
      (code.encode ++ (encodeCounts frameType.toList ++ (reasonLen.encode ++ reason)))

def fragment? : Frame → Option (ℕ × List Byte)
  | .crypto offset _ data _ => some (offset.value, data)
  | _ => none

end Frame

theorem skipAckRanges_encode {ranges : List (Varint × Varint)} (h : At payload pos (Frame.encodeRanges ranges ++ rest)) :
    skipAckRanges payload ranges.length pos = some (pos + (Frame.encodeRanges ranges).length) := by
  induction ranges generalizing pos with
  | nil => rfl
  | cons r ranges ih =>
    simp only [Frame.encodeRanges, flatMap_cons, append_assoc] at h
    have hn := ih h.next.next
    rw [length_cons, skipAckRanges, skipVarint_encode h]
    simp only [bind_eq_bind, bind_some, skipVarint_encode h.next, hn]
    simp only [Frame.encodeRanges, flatMap_cons, length_append, Nat.add_assoc]

theorem skipEcnCounts_encode (counts : List Varint) (h : At payload pos (Frame.encodeCounts counts ++ rest)) :
    skipEcnCounts payload counts.length pos = some (pos + (Frame.encodeCounts counts).length) := by
  induction counts generalizing pos with
  | nil => rfl
  | cons count counts ih =>
    simp only [Frame.encodeCounts, flatMap_cons, append_assoc] at h
    have hn := ih h.next
    rw [length_cons, skipEcnCounts, skipVarint_encode h]
    simp only [bind_eq_bind, bind_some, hn]
    simp only [Frame.encodeCounts, flatMap_cons, length_append, Nat.add_assoc]

theorem readFrame_encode {frame : Frame} (h : At payload pos (frame.encode ++ rest)) : ∃ frameType, payload[pos]? = some frameType ∧
      readFrame payload frameType (pos + 1) = some (frame.fragment?, pos + frame.encode.length) := by
  cases frame with
  | padding => exact ⟨0x00, h.head, rfl⟩
  | ping => exact ⟨0x01, h.head, rfl⟩
  | ack largest delay count firstRange ranges ecn hc =>
    simp only [Frame.encode, cons_append, append_assoc] at h
    refine ⟨_, h.head, ?_⟩
    have hr := skipAckRanges_encode h.tail.next.next.next.next
    have he := h.tail.next.next.next.next.next
    have hs : skipAckFrame payload (pos + 1) ecn.isSome =
        some (pos + (Frame.ack largest delay count firstRange ranges ecn hc).encode.length) := by
      rw [skipAckFrame, skipVarint_encode h.tail]
      simp only [bind_eq_bind, bind_some, skipVarint_encode h.tail.next,
        readVarint_encode h.tail.next.next, skipVarint_encode h.tail.next.next.next, hc, hr]
      cases ecn with
      | none =>
        simp only [isSome_none, Bool.false_eq_true, if_false, Frame.encode, Frame.encodeCounts, Option.elim_none,
          flatMap_nil, append_nil, length_cons, length_append, Option.some.injEq]
        omega
      | some counts =>
        have hco := skipEcnCounts_encode counts.toList he
        rw [Vector.length_toList] at hco
        simp only [isSome_some, if_true, hco, Frame.encode, Option.elim_some, length_cons, length_append, Option.some.injEq]
        omega
    cases ecn <;> simp only [isSome_none, isSome_some] at hs <;>
      simp [readFrame, hs, Frame.fragment?]
  | crypto offset len data hle =>
    simp only [Frame.encode, cons_append, append_assoc] at h
    refine ⟨_, h.head, ?_⟩
    have hd := h.tail.next.next.slice
    rw [readFrame, if_neg (by decide), if_neg (by decide), if_pos rfl, readCryptoFrame, readVarint_encode h.tail]
    simp only [bind_eq_bind, bind_some, readVarint_encode h.tail.next, hle, hd, map_some,
      Frame.fragment?, Frame.encode, length_cons, length_append, Option.some.injEq, Prod.mk.injEq, true_and]
    omega
  | connectionClose code frameType reasonLen reason hle =>
    simp only [Frame.encode, cons_append, append_assoc] at h
    refine ⟨_, h.head, ?_⟩
    have hs : skipConnectionCloseFrame payload (pos + 1) frameType.isSome =
        some (pos + (Frame.connectionClose code frameType reasonLen reason hle).encode.length) := by
      have hl := h.tail.next.next.next.length
      have hre := readVarint_encode h.tail.next.next
      rw [length_append] at hl
      have hk : (if frameType.isSome then skipVarint payload (pos + 1 + code.encode.length)
          else some (pos + 1 + code.encode.length)) =
          some (pos + 1 + code.encode.length + (Frame.encodeCounts frameType.toList).length) := by
        cases frameType with
        | none => rfl
        | some kind =>
          have hk := h.tail.next
          simp only [Frame.encodeCounts, Option.toList_some, flatMap_cons, flatMap_nil, append_nil]
            at hk ⊢
          exact skipVarint_encode hk
      rw [skipConnectionCloseFrame, skipVarint_encode h.tail]
      simp only [bind_eq_bind, bind_some, hk, hre, hle, Option.filter_some]
      rw [if_pos (by simp only [decide_eq_true_eq]; omega)]
      simp only [Frame.encode, length_cons, length_append, Option.some.injEq]
      omega
    cases frameType <;> simp only [isSome_none, isSome_some] at hs <;>
      simp [readFrame, hs, Frame.fragment?]

theorem walkFrames_encode (frames : List Frame) (fuel : ℕ) (hfu : frames.length ≤ fuel)
    (h : At payload pos (frames.flatMap Frame.encode)) : walkFrames payload fuel pos = some (frames.filterMap Frame.fragment?) := by
  induction frames generalizing pos fuel with
  | nil =>
    have hl := h.length
    simp only [flatMap_nil, length_nil] at hl
    cases fuel <;> rw [walkFrames, if_neg (by omega)] <;> rfl
  | cons frame frames ih =>
    obtain ⟨fuel, rfl⟩ : ∃ n, fuel = n + 1 := ⟨fuel - 1, by rw [length_cons] at hfu; omega⟩
    rw [flatMap_cons] at h
    obtain ⟨frameType, hh, hf⟩ := readFrame_encode h
    have hpo : pos < payload.length := (List.getElem?_eq_some_iff.mp hh).1
    have hr := ih fuel (by rw [length_cons] at hfu; omega) h.next
    rw [walkFrames, if_pos hpo, hh]
    simp only [bind_eq_bind, bind_some, hf, hr, map_some, filterMap_cons]
    cases frame.fragment? <;> rfl

theorem length_le_flatMap_encode (frames : List Frame) : frames.length ≤ (frames.flatMap Frame.encode).length := by
  induction frames with
  | nil => simp
  | cons frame frames ih =>
    have hpo : 1 ≤ frame.encode.length := by cases frame <;> simp [Frame.encode]
    rw [flatMap_cons, length_append, length_cons]
    omega

theorem collectCryptoFrames_correct : (∀ frames : List Frame,
      collectCryptoFrames (frames.flatMap Frame.encode) = some (frames.filterMap Frame.fragment?)) ∧
    ∀ payload, ∃ out, collectCryptoFrames payload = some out ∧ ∀ f ∈ out, f.2 <:+: payload := by
  constructor
  · intro frames
    exact walkFrames_encode frames _ (length_le_flatMap_encode frames) (At.start _)
  · intro payload
    exact walkFrames_total (by omega)

end Honk.Quic
