import Honk.Lib.Framing

namespace Honk.Anytls

open Honk.Lib List

def cmdWaste : Byte := 0
def cmdSettings : Byte := 4
def frameHeaderLen : ℕ := 7
def tlsRecord : ℕ := 16 * 1024
def writerBatchMaxFrames : ℕ := 64
def writerBatchMaxBytes : ℕ := 256 * 1024

/-- A queued frame; `fits` is what its header expects. -/
structure FrameCommand where
  data : Bool
  cmd : Byte
  sid : BitVec 32
  payload : List Byte
  fits : payload.length < 2 ^ 16

def header (cmd : Byte) (sid : BitVec 32) (len : ℕ) : List Byte := cmd :: (beBytes 4 sid.toNat ++ beBytes 2 len)

variable (frame : FrameCommand)

def FrameCommand.encode : List Byte := header frame.cmd frame.sid frame.payload.length ++ frame.payload

def encodeAll (frames : List FrameCommand) : List Byte := frames.flatMap FrameCommand.encode

/-- The bounds as `parse` leaves them, swapped if need be. -/
inductive PaddingInstruction where
  | range (start stop : BitVec 16) (ordered : start ≤ stop)
  | check

structure PaddingScheme where
  stop : BitVec 32
  packets : BitVec 32 → Option (List PaddingInstruction)

def sampleRange (start stop : BitVec 16) (choice : ℕ) : ℕ :=
  if start = stop then start.toNat else start.toNat + choice % (stop.toNat - start.toNat)

def waste (len : ℕ) : List Byte := header cmdWaste 0 len ++ replicate len 0

/-- The loop over the instructions of a packet, with one random choice for each. -/
def writeInstructions : List PaddingInstruction → (ℕ → ℕ) → List Byte → List Byte
  | [], _, payload => payload
  | .check :: rest, choice, payload => if payload = [] then [] else writeInstructions rest (choice <| · + 1) payload
  | .range start stop _ :: rest, choice, payload =>
    let target := sampleRange start stop (choice 0)
    if target < payload.length then payload.take target ++ writeInstructions rest (choice <| · + 1) (payload.drop target)
    else if payload ≠ [] then
      let paddingLen := target - (payload.length + frameHeaderLen)
      (payload ++ if paddingLen = 0 then [] else waste paddingLen) ++ writeInstructions rest (choice <| · + 1) []
    else waste target ++ writeInstructions rest (choice <| · + 1) []

def writePadded (payload : List Byte) (scheme : PaddingScheme) (packet : BitVec 32) (choice : ℕ → ℕ) : List Byte :=
  match if packet < scheme.stop then scheme.packets packet else none with
  | some instructions => writeInstructions instructions choice payload
  | none => payload

def writeBatch : List FrameCommand → List Byte → List Byte
  | [], buf => buf
  | cmd :: batch, buf =>
    let head := (tlsRecord - buf.length % tlsRecord) % tlsRecord
    let direct := (cmd.encode.length - head) / tlsRecord * tlsRecord
    if !cmd.data || direct = 0 then writeBatch batch (buf ++ cmd.encode)
    else buf ++ cmd.encode.take head ++ (cmd.encode.drop head).take direct ++ writeBatch batch (cmd.encode.drop (head + direct))

def drainAvailable : ℕ → ℕ → List FrameCommand → List FrameCommand × List FrameCommand
  | _, _, [] => ([], [])
  | 0, _, queue => ([], queue)
  | maxFrames + 1, bytes, front :: queue =>
    if writerBatchMaxBytes < bytes + front.encode.length then ([], front :: queue)
    else
      let drained := drainAvailable maxFrames (bytes + front.encode.length) queue
      (front :: drained.1, drained.2)

structure Writer where
  queue : List FrameCommand := []
  packet : BitVec 32 := 0
  sendPadding : Bool := true
  wire : List Byte := []

inductive WriterEvent where
  | push (frames : List FrameCommand)
  | round (scheme : PaddingScheme) (choice : ℕ → ℕ)

def WriterEvent.pushed : WriterEvent → List FrameCommand
  | push frames => frames
  | round _ _ => []

/-- A round of `session_writer` whose write succeeds: the first one that does not is its last. -/
def Writer.step (w : Writer) : WriterEvent → Writer
  | .push frames => { w with queue := w.queue ++ frames }
  | .round scheme choice =>
    match w.queue with
    | [] => w
    | first :: queue =>
      let padding := w.sendPadding && w.packet + 1 < scheme.stop
      let extraFrames := if !first.data && first.cmd = cmdSettings then 2 else if padding then 0 else writerBatchMaxFrames - 1
      let drained := drainAvailable extraFrames 0 queue
      let batch := first :: drained.1
      { queue := drained.2
        packet := w.packet + 1
        sendPadding := padding
        wire := w.wire ++
          if padding then writePadded (encodeAll batch) scheme (w.packet + 1) choice else writeBatch batch [] }

/-- What the peer makes of a frame. -/
def demux : Framing Unit (Byte × BitVec 32 × List Byte) where
  header := frameHeaderLen
  header_pos := by decide
  pad := id
  le_pad _ := le_rfl
  lengthAt rest := frameHeaderLen + beNat ((rest.drop 5).take 2)
  decode record := (record.headD 0, .ofNat 32 (beNat ((record.drop 1).take 4)), record.drop frameHeaderLen)
  truncated := ()
  invalid _ := ()
  unpadded := ()

def FrameCommand.told : Byte × BitVec 32 × List Byte := (frame.cmd, frame.sid, frame.payload)

/-- Nothing but waste, in whole frames. -/
def Wasted (bytes : List Byte) : Prop := ∃ frames : List FrameCommand, (∀ f ∈ frames, f.cmd = cmdWaste) ∧ bytes = encodeAll frames

theorem wasted_waste (h : len < 2 ^ 16) (hr : Wasted rest) : Wasted (waste len ++ rest) := by
  obtain ⟨frames, ha, rfl⟩ := hr
  refine ⟨⟨false, cmdWaste, 0, replicate len 0, by rwa [length_replicate]⟩ :: frames, ?_, ?_⟩
  · exact fun f hf => (mem_cons.mp hf).elim (fun he => he ▸ rfl) (ha f)
  · simp only [encodeAll, flatMap_cons, FrameCommand.encode, length_replicate, waste]

theorem sampleRange_lt (start stop : BitVec 16) (h : start ≤ stop) (choice : ℕ) : sampleRange start stop choice < 2 ^ 16 := by
  rw [sampleRange]
  split
  · exact start.isLt
  rename_i hn
  have hl : start.toNat < stop.toNat := lt_of_le_of_ne h fun he => hn (BitVec.eq_of_toNat_eq he)
  have hm := Nat.mod_lt choice (Nat.sub_pos_of_lt hl)
  have hs := stop.isLt
  omega

theorem writeInstructions_eq (instructions : List PaddingInstruction) (choice : ℕ → ℕ) (payload : List Byte) :
    ∃ rest, Wasted rest ∧ writeInstructions instructions choice payload = payload ++ rest := by
  induction instructions generalizing choice payload with
  | nil => exact ⟨[], ⟨[], nofun, rfl⟩, (append_nil _).symm⟩
  | cons instruction instructions ih =>
    cases instruction with
    | check =>
      rw [writeInstructions]
      split
      · exact ⟨[], ⟨[], nofun, rfl⟩, by rwa [append_nil, eq_comm]⟩
      · exact ih _ _
    | range start stop ordered =>
      have ht := sampleRange_lt start stop ordered (choice 0)
      rw [writeInstructions]
      generalize sampleRange start stop (choice 0) = target at ht
      dsimp only
      split_ifs with hl hs hpa
      · obtain ⟨rest, hr, he⟩ := ih (choice <| · + 1) (payload.drop target)
        exact ⟨rest, hr, by rw [he, ← append_assoc, take_append_drop]⟩
      · obtain ⟨rest, hr, he⟩ := ih (choice <| · + 1) []
        exact ⟨rest, hr, by rw [he, append_nil, nil_append]⟩
      · obtain ⟨rest, hr, he⟩ := ih (choice <| · + 1) []
        exact ⟨_, wasted_waste ((Nat.sub_le target _).trans_lt ht) hr, by rw [he, nil_append, append_assoc]⟩
      · obtain ⟨rest, hr, he⟩ := ih (choice <| · + 1) []
        exact ⟨_, wasted_waste ht hr, by rw [he, not_not.mp hs, nil_append, nil_append]⟩

theorem writePadded_eq (payload : List Byte) (scheme : PaddingScheme) (packet : BitVec 32) (choice : ℕ → ℕ) :
    ∃ rest, Wasted rest ∧ writePadded payload scheme packet choice = payload ++ rest := by
  rw [writePadded]
  split
  · exact writeInstructions_eq _ _ _
  · exact ⟨[], ⟨[], nofun, rfl⟩, (append_nil _).symm⟩

theorem writeBatch_eq : writeBatch batch buf = buf ++ encodeAll batch := by
  induction batch generalizing buf with
  | nil => exact (append_nil _).symm
  | cons cmd batch ih =>
    rw [writeBatch]
    generalize (tlsRecord - buf.length % tlsRecord) % tlsRecord = head
    split
    · rw [ih, append_assoc]
      rfl
    rw [ih, ← drop_drop, append_assoc, append_assoc, ← append_assoc (take _ (drop _ _)), take_append_drop,
      ← append_assoc (take _ _), take_append_drop]
    rfl

theorem drainAvailable_eq (bytes : ℕ) (queue : List FrameCommand) :
    (drainAvailable maxFrames bytes queue).1 ++ (drainAvailable maxFrames bytes queue).2 = queue := by
  fun_induction drainAvailable with
  | case1 | case2 | case3 => rfl
  | case4 bytes maxFrames front queue _ drained ih => rw [cons_append, ih]

theorem sealed_encode : demux.Sealed frame.encode ∧ demux.decode frame.encode = frame.told := by
  have hl : frame.encode.length = frameHeaderLen + frame.payload.length := by
    simp [FrameCommand.encode, header, frameHeaderLen]
    omega
  refine ⟨⟨hl ▸ Nat.le_add_right _ _, fun tail => ?_⟩, ?_⟩
  · have hf : ((frame.encode ++ tail).drop 5).take 2 = beBytes 2 frame.payload.length := by
      rw [FrameCommand.encode, header, cons_append, cons_append, append_assoc, append_assoc, drop_succ_cons,
        drop_left' (beBytes_length 4 _), take_left' (beBytes_length 2 _)]
    change frameHeaderLen + beNat _ = _
    rw [hf, beNat_beBytes, Nat.mod_eq_of_lt (show _ < 256 ^ 2 from frame.fits), hl]
  have hf : (frame.encode.drop 1).take 4 = beBytes 4 frame.sid.toNat := by
    rw [FrameCommand.encode, header, cons_append, append_assoc, drop_succ_cons, drop_zero, take_left' (beBytes_length 4 _)]
  have hb : frame.encode.drop frameHeaderLen = frame.payload := drop_left' (by simp [header, frameHeaderLen])
  change (frame.cmd, BitVec.ofNat 32 (beNat _), _) = _
  rw [hf, hb, beNat_beBytes, Nat.mod_eq_of_lt (show _ < 256 ^ 4 from frame.sid.isLt), BitVec.ofNat_toNat, BitVec.setWidth_eq]
  rfl

theorem demux_yields {frames : List FrameCommand} : demux.Yields (encodeAll frames) (frames.map fun f => .ok f.told) := by
  have hs : ∀ record ∈ frames.map FrameCommand.encode, demux.Sealed record := fun record hr => by
    obtain ⟨frame, -, rfl⟩ := mem_map.mp hr
    exact (sealed_encode frame).1
  have hpa : (fun frame : FrameCommand => demux.padded frame.encode) = FrameCommand.encode := by
    funext frame
    simp [Framing.padded, demux]
  have hy := Framing.yields_padded hs
  rw [flatMap_map, map_map, hpa, ← encodeAll] at hy
  simpa only [Function.comp_def, (sealed_encode _).2] using hy

/-- The packets written so far: the frames of the queue and the waste behind them. -/
def Wrote (w : Writer) (pushed : List FrameCommand) (packets : List (List FrameCommand × List FrameCommand)) : Prop :=
  (∀ p ∈ packets, ∀ f ∈ p.2, f.cmd = cmdWaste) ∧ (packets.map Prod.fst).flatten ++ w.queue = pushed ∧
    w.wire = encodeAll (packets.flatMap fun p => p.1 ++ p.2)

theorem Wrote.step (h : Wrote w pushed packets) (event : WriterEvent) :
    ∃ packets, Wrote (w.step event) (pushed ++ event.pushed) packets := by
  obtain ⟨hw, hq, hwi⟩ := h
  cases event with
  | push frames => exact ⟨packets, hw, by rw [← hq, append_assoc]; rfl, hwi⟩
  | round scheme choice =>
    rw [WriterEvent.pushed, append_nil, Writer.step]
    split
    · exact ⟨packets, hw, hq, hwi⟩
    rename_i first queue hf
    dsimp only
    generalize hd : drainAvailable _ 0 queue = drained
    have hdrained : drained.1 ++ drained.2 = queue := hd ▸ drainAvailable_eq 0 queue
    have hb : ∃ rest, Wasted rest ∧ (if (w.sendPadding && decide (w.packet + 1 < scheme.stop)) = true
        then writePadded (encodeAll (first :: drained.1)) scheme (w.packet + 1) choice
        else writeBatch (first :: drained.1) []) = encodeAll (first :: drained.1) ++ rest := by
      split
      · exact writePadded_eq _ _ _ _
      · exact ⟨[], ⟨[], nofun, rfl⟩, by rw [writeBatch_eq, nil_append, append_nil]⟩
    obtain ⟨_, ⟨wastes, ha, rfl⟩, hb⟩ := hb
    refine ⟨packets ++ [(first :: drained.1, wastes)], ?_, ?_, ?_⟩
    · exact fun p hp => (mem_append.mp hp).elim (hw p) fun hp => mem_singleton.mp hp ▸ ha
    · rw [← hq, hf, map_append, flatten_append, append_assoc, ← hdrained]
      simp
    · rw [hb, hwi]
      simp [encodeAll]

/-- A padded packet is its payload with whole waste frames behind it, so that the peer reads the queued frames in their order with
waste in between. -/
theorem padding_transparent : (∀ payload scheme packet choice, ∃ wastes : List FrameCommand, (∀ f ∈ wastes, f.cmd = cmdWaste) ∧
      writePadded payload scheme packet choice = payload ++ encodeAll wastes) ∧
    ∀ events : List WriterEvent, ∃ packets : List (List FrameCommand × List FrameCommand),
      (∀ p ∈ packets, ∀ f ∈ p.2, f.cmd = cmdWaste) ∧
      (packets.map Prod.fst).flatten ++ (events.foldl Writer.step {}).queue = events.flatMap WriterEvent.pushed ∧
      demux.Yields (events.foldl Writer.step {}).wire ((packets.flatMap fun p => p.1 ++ p.2).map fun f => .ok f.told) := by
  refine ⟨fun payload scheme packet choice => ?_, fun events => ?_⟩
  · obtain ⟨_, ⟨wastes, ha, rfl⟩, he⟩ := writePadded_eq payload scheme packet choice
    exact ⟨wastes, ha, he⟩
  have hr : ∃ packets, Wrote (events.foldl Writer.step {}) (events.flatMap WriterEvent.pushed) packets := by
    induction events using List.reverseRecOn with
    | nil => exact ⟨[], nofun, rfl, rfl⟩
    | append_singleton events event ih =>
      obtain ⟨packets, h⟩ := ih
      rw [foldl_append, flatMap_append, flatMap_singleton]
      exact h.step event
  obtain ⟨packets, hw, hq, hwi⟩ := hr
  exact ⟨packets, hw, hq, hwi ▸ demux_yields⟩

/-- The buffers that `writeBatch` hands to `write_all`, in their order. -/
def batchWrites : List FrameCommand → List Byte → List (List Byte)
  | [], buf => if buf = [] then [] else [buf]
  | cmd :: batch, buf =>
    let head := (tlsRecord - buf.length % tlsRecord) % tlsRecord
    let direct := (cmd.encode.length - head) / tlsRecord * tlsRecord
    if !cmd.data || direct = 0 then batchWrites batch (buf ++ cmd.encode)
    else (if buf ++ cmd.encode.take head = [] then [] else [buf ++ cmd.encode.take head]) ++
      (cmd.encode.drop head).take direct :: batchWrites batch (cmd.encode.drop (head + direct))

/-- The polls of these `write_all`s: what is offered to the writer and what it takes, `accept` bytes beyond the one it must. -/
def writeAll (accept : ℕ → ℕ) : List (List Byte) → List (List Byte × List Byte)
  | [] => []
  | [] :: writes => writeAll accept writes
  | (byte :: buf) :: writes =>
    (byte :: buf, byte :: buf.take (accept 0)) :: writeAll (accept <| · + 1) (buf.drop (accept 0) :: writes)
termination_by writes => writes.flatten.length + writes.length
decreasing_by all_goals simp

theorem flatten_batchWrites : (batchWrites batch buf).flatten = writeBatch batch buf := by
  induction batch generalizing buf with
  | nil => by_cases hb : buf = [] <;> simp [batchWrites, writeBatch, hb]
  | cons cmd batch ih =>
    rw [batchWrites, writeBatch]
    split
    · exact ih
    rw [flatten_append, flatten_cons, ih, ← append_assoc]
    congr 2
    split
    · rename_i hf
      rw [hf, flatten_nil]
    · simp

theorem dvd_batchWrites : ∀ write ∈ (batchWrites batch buf).dropLast, tlsRecord ∣ write.length := by
  induction batch generalizing buf with
  | nil => by_cases hb : buf = [] <;> simp [batchWrites, hb]
  | cons cmd batch ih =>
    rw [batchWrites]
    split
    · exact ih
    rename_i hd
    intro write hw
    rw [dropLast_append_of_ne_nil (cons_ne_nil _ _)] at hw
    generalize hh : (tlsRecord - buf.length % tlsRecord) % tlsRecord = head at *
    -- A direct slice lies wholly within the frame, so that the head before it does too.
    have hl : (cmd.encode.length - head) / tlsRecord * tlsRecord ≤ cmd.encode.length - head := Nat.div_mul_le_self _ _
    have hp : head ≤ cmd.encode.length := by
      by_contra hn
      simp [Nat.sub_eq_zero_of_le (Nat.le_of_not_le hn)] at hd
    rcases mem_append.mp hw with hw | hw
    · split at hw
      · cases hw
      rw [mem_singleton.mp hw, length_append, length_take, Nat.min_eq_left hp, ← hh]
      simp only [tlsRecord]
      omega
    generalize hr : batchWrites batch _ = rest at hw
    cases rest with
    | nil => cases hw
    | cons next rest =>
      rcases mem_cons.mp hw with rfl | hw
      · rw [length_take, length_drop, Nat.min_eq_left hl]
        exact dvd_mul_left _ _
      · exact ih write (hr ▸ hw)

theorem flatMap_writeAll (accept : ℕ → ℕ) (writes : List (List Byte)) : (writeAll accept writes).flatMap Prod.snd = writes.flatten := by
  fun_induction writeAll with
  | case1 => rfl
  | case2 accept writes ih => exact ih
  | case3 accept byte buf writes ih =>
    rw [flatMap_cons, ih, flatten_cons, flatten_cons, ← append_assoc, cons_append, take_append_drop]

/-- A poll offers what is left of a write, to its end. -/
theorem writeAll_ends (accept : ℕ → ℕ) (writes : List (List Byte)) (h : writeAll accept writes = before ++ poll :: later) :
    ∃ k < writes.length, (before.flatMap Prod.snd).length + poll.1.length = (writes.take (k + 1)).flatten.length := by
  fun_induction writeAll generalizing before with
  | case1 => simp at h
  | case2 accept writes ih =>
    obtain ⟨k, hk, he⟩ := ih h
    exact ⟨k + 1, Nat.succ_lt_succ hk, he⟩
  | case3 accept byte buf writes ih =>
    cases before with
    | nil =>
      obtain ⟨rfl, -⟩ := cons_eq_cons.mp h
      exact ⟨0, Nat.succ_pos _, by simp⟩
    | cons first before =>
      obtain ⟨rfl, ht⟩ := cons_eq_cons.mp h
      obtain ⟨k, hk, he⟩ := ih ht
      refine ⟨k, hk, ?_⟩
      simp only [take_succ_cons, flatten_cons, length_append, length_drop, flatMap_cons, length_cons, length_take] at he ⊢
      omega

/-- The writes of a batch are its frames, each but the last one ends at a record border, and however few bytes the writer
takes at a time, it takes the same bytes and is never offered some that end elsewhere. -/
theorem writeBatch_records (batch : List FrameCommand) (accept : ℕ → ℕ) : (batchWrites batch []).flatten = encodeAll batch ∧
    (∀ k < (batchWrites batch []).length, tlsRecord ∣ ((batchWrites batch []).take k).flatten.length) ∧
    (writeAll accept (batchWrites batch [])).flatMap Prod.snd = encodeAll batch ∧
    ∀ before poll later, writeAll accept (batchWrites batch []) = before ++ poll :: later → ∃ k < (batchWrites batch []).length,
      (before.flatMap Prod.snd).length + poll.1.length = ((batchWrites batch []).take (k + 1)).flatten.length := by
  have hf : (batchWrites batch []).flatten = encodeAll batch := flatten_batchWrites.trans writeBatch_eq
  refine ⟨hf, fun k hk => ?_, (flatMap_writeAll _ _).trans hf, fun _ _ _ => writeAll_ends _ _⟩
  rw [length_flatten]
  apply dvd_sum
  intro n hn
  obtain ⟨write, hw, rfl⟩ := mem_map.mp hn
  exact dvd_batchWrites write (dropLast_eq_take ▸ take_subset_take_left _ (Nat.le_sub_one_of_lt hk) hw)

end Honk.Anytls
