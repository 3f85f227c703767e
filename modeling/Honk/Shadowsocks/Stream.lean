import Honk.Shadowsocks.Udp

namespace Honk.Shadowsocks

open Honk.Lib List

/-- What a poll of the server's socket returns. Nothing read is the end of the stream. -/
inductive SocketPoll where
  | ready (bytes : List Byte)
  | failed (text : String)
  | pending

structure Socket (σ : Type) where
  poll : σ → ℕ → SocketPoll × σ

inductive Stop where
  | full
  | eof
  | failed (text : String)
  | pending

/-- A response prologue between two reads. The arguments of `done` are the cipher, the nonce and the first payload. -/
inductive Prologue (Cipher : Type) where
  | readExact (size : ℕ) (next : List Byte → Prologue Cipher)
  | failed (text : String)
  | done (cipher : Cipher) (nonce payload : List Byte)

/-- The receiving side once the prologue is through: decrypted bytes not handed out yet, and the carry of an incomplete
chunk. Once the length of that chunk is known its field stays at the front of the carry and is not read again. -/
structure Reader (Cipher : Type) where
  cipher : Cipher
  recvNonce : List Byte
  recvPendingLen : Option ℕ := none
  plain : List Byte := []
  carry : List Byte := []

inductive SsStream (Cipher : Type) where
  | opening (prologue : Prologue Cipher)
  | reading (reader : Reader Cipher)

/-- What `poll_read` answers. Nothing is said of the stream after an error. -/
inductive Answer (Cipher σ : Type) where
  | pending (stream : SsStream Cipher) (socket : σ)
  | ready (bytes : List Byte) (stream : SsStream Cipher) (socket : σ)
  | failed (text : String)

def tagLen : ℕ := 16

def lenField : ℕ := 2 + tagLen

def recvBufCap : ℕ := 64 * 1024 + 8192

def incrementNonce : List Byte → List Byte
  | [] => []
  | byte :: nonce => if byte = 0xff then 0 :: incrementNonce nonce else (byte + 1) :: nonce

variable {Cipher σ : Type} (opens : Cipher → List Byte → List Byte → Except String (List Byte))

/-- The length of the next chunk and the nonce of its payload, unless the field is not complete yet. -/
def openLength (r : Reader Cipher) (buf : List Byte) : Except String (Option (ℕ × List Byte)) :=
  match r.recvPendingLen with
  | some len => .ok (some (len, r.recvNonce))
  | none =>
    if buf.length < lenField then .ok none
    else
      match opens r.cipher r.recvNonce (buf.take lenField) with
      | .error e => .error ("decrypt length failed: " ++ e)
      | .ok field => .ok (some (beNat (field.take 2), incrementNonce r.recvNonce))

/-- The reader after all complete chunks of `buf`, with their plaintext behind what it holds. -/
def decryptChunks (r : Reader Cipher) (buf : List Byte) : Except String (Reader Cipher) :=
  match openLength opens r buf with
  | .error e => .error e
  | .ok none => .ok { r with carry := buf }
  | .ok (some (len, nonce)) =>
    if buf.length < lenField + len + tagLen then .ok { r with recvNonce := nonce, recvPendingLen := some len, carry := buf }
    else
      match opens r.cipher nonce ((buf.drop lenField).take (len + tagLen)) with
      | .error e => .error ("decrypt payload failed: " ++ e)
      | .ok chunk =>
        decryptChunks { r with
          recvNonce := incrementNonce nonce, recvPendingLen := none, plain := r.plain ++ chunk.take len }
          (buf.drop (lenField + len + tagLen))
termination_by buf.length
decreasing_by
  rw [length_drop]
  simp only [lenField, tagLen] at *
  omega

variable (socket : Socket σ)

/-- Reads until `room` bytes have come or the socket has no more of them. -/
def collect (room : ℕ) (k : σ) : List Byte × Stop × σ :=
  if room = 0 then ([], .full, k)
  else
    match socket.poll k room with
    | (.pending, k) => ([], .pending, k)
    | (.failed e, k) => ([], .failed e, k)
    | (.ready [], k) => ([], .eof, k)
    | (.ready (byte :: bytes), k) =>
      let (more, stop, k) := collect (room - (byte :: bytes).length) k
      (byte :: bytes ++ more, stop, k)
termination_by room

/-- Drives the prologue as far as the socket allows; an answer given on the way is an error here. -/
def Prologue.drive : Prologue Cipher → σ → Except (Answer Cipher σ) (Reader Cipher × σ)
  | .failed e, _ => .error (.failed e)
  | .done cipher nonce payload, k => .ok ({ cipher, recvNonce := nonce, plain := payload }, k)
  | .readExact size next, k =>
    match collect socket size k with
    | (bytes, .full, k) => drive (next bytes) k
    | (_, .eof, _) => .error (.failed "early eof")
    | (_, .failed e, _) => .error (.failed e)
    | (bytes, .pending, k) =>
      .error (.pending (.opening (.readExact (size - bytes.length) fun rest => next (bytes ++ rest))) k)

section

variable (r : Reader Cipher) (k : σ) (size : ℕ)

def deliver : Answer Cipher σ :=
  .ready (r.plain.take size) (.reading { r with plain := r.plain.drop size }) k

/-- Reads into the caller's buffer of `size` bytes and decrypts there. -/
def fastPath : Except (Answer Cipher σ) (Reader Cipher × σ) :=
  match socket.poll k size with
  | (.pending, k) => .error (.pending (.reading r) k)
  | (.failed e, _) => .error (.failed e)
  | (.ready bytes, k) =>
    match decryptChunks opens r bytes with
    | .error e => .error (.failed e)
    | .ok r' =>
      if bytes = [] then .error (.ready [] (.reading r') k)
      else if r'.plain = [] then .ok (r', k)
      else .error (.ready r'.plain (.reading { r' with plain := [] }) k)

def Reader.enter : Except (Answer Cipher σ) (Reader Cipher × σ) :=
  if r.plain ≠ [] then .error (deliver r k size)
  else if r.carry ≠ [] then .ok (r, k)
  else fastPath opens socket r k size

/-- `poll_read` up to the staging path: the answer already given, or what that path starts from. -/
def enter (stream : SsStream Cipher) (k : σ) (size : ℕ) : Except (Answer Cipher σ) (Reader Cipher × σ) :=
  match stream with
  | .opening prologue => (prologue.drive socket k).bind fun (r, k) => r.enter opens socket k size
  | .reading r => r.enter opens socket k size

def decryptStaged (filled : List Byte) (size : ℕ) : Answer Cipher σ :=
  match decryptChunks opens r (r.carry ++ filled) with
  | .error e => .failed e
  | .ok r => if r.plain = [] then .pending (.reading r) k else deliver r k size

def pollStaged : Answer Cipher σ :=
  match collect socket (recvBufCap - r.carry.length) k with
  | (_, .failed e, _) => .failed e
  | ([], .pending, k) => .pending (.reading r) k
  | ([], .eof, k) =>
    if r.carry ≠ [] ∨ r.recvPendingLen.isSome then .failed "ss stream closed mid-chunk" else .ready [] (.reading r) k
  | (filled, _, k) => decryptStaged opens r k filled size

end

def pollRead (stream : SsStream Cipher) (k : σ) (size : ℕ) : Answer Cipher σ :=
  match enter opens socket stream k size with
  | .error answer => answer
  | .ok (r, k) => pollStaged opens socket r k size

/-- The socket with what it last answered. -/
def Socket.recorded : Socket (Option SocketPoll × σ) :=
  ⟨fun k room => ((socket.poll k.2 room).1, some (socket.poll k.2 room).1, (socket.poll k.2 room).2)⟩

/-- The staging path stops reading at the end of the stream or with its buffer full, and has no plaintext. -/
def Stalls (stream : SsStream Cipher) (k : σ) (size : ℕ) : Prop :=
  ∃ r r' k' k'' filled stop, enter opens socket stream k size = .ok (r, k') ∧
    collect socket (recvBufCap - r.carry.length) k' = (filled, stop, k'') ∧ (stop = .full ∨ stop = .eof ∧ filled ≠ []) ∧
    decryptChunks opens r (r.carry ++ filled) = .ok r' ∧ r'.plain = []

def Waits (k : Option SocketPoll × σ) : Prop := k.1 = some .pending

/-- An early answer `Pending` waits on the socket, and a path that goes on does not. -/
def Early : Except (Answer Cipher (Option SocketPoll × σ)) (Reader Cipher × (Option SocketPoll × σ)) → Prop
  | .error (.pending _ k) => Waits k
  | .error _ => True
  | .ok (_, k) => ¬ Waits k

variable {socket opens} {k : Option SocketPoll × σ}

theorem recorded_waits (h : socket.recorded.poll k room = (poll, k')) : Waits k' ↔ poll = .pending := by
  cases h
  simp [Waits]

theorem collect_waits (hc : collect socket.recorded room k = (filled, stop, k')) (h : ¬ Waits k) : stop = .pending ↔ Waits k' := by
  fun_induction collect socket.recorded room k generalizing filled with
  | case1 =>
    cases hc
    simp [h]
  | case2 room k hr k' hpo | case3 room k hr e k' hpo | case4 room k hr k' hpo =>
    cases hc
    simp [recorded_waits hpo]
  | case5 room k hr byte bytes k' hpo more stop k'' hm ih =>
    cases hc
    exact ih hm (by simp [recorded_waits hpo])

theorem drive_early (prologue : Prologue Cipher) (h : ¬ Waits k) : Early (prologue.drive socket.recorded k) := by
  induction prologue generalizing k with
  | failed e => trivial
  | done cipher nonce payload => exact h
  | readExact size next ih =>
    rw [Prologue.drive]
    split
    · next bytes k' hc => exact ih bytes fun hw => nomatch (collect_waits hc h).mpr hw
    · trivial
    · trivial
    · next bytes k' hc => exact (collect_waits hc h).mp rfl

theorem fastPath_early (r : Reader Cipher) (size : ℕ) : Early (fastPath opens socket.recorded r k size) := by
  rw [fastPath]
  split
  · next k' hpo => exact (recorded_waits hpo).mpr rfl
  · trivial
  next bytes k' hpo =>
  split
  · trivial
  split_ifs
  · trivial
  · exact fun hw => by simpa using (recorded_waits hpo).mp hw
  · trivial

theorem Reader.enter_early (r : Reader Cipher) (size : ℕ) (h : ¬ Waits k) : Early (r.enter opens socket.recorded k size) := by
  rw [enter]
  split_ifs
  · trivial
  · exact h
  · exact fastPath_early r size

theorem enter_early (stream : SsStream Cipher) (size : ℕ) (h : ¬ Waits k) : Early (enter opens socket.recorded stream k size) := by
  cases stream with
  | opening prologue =>
    have hd : Early (prologue.drive socket.recorded k) := drive_early prologue h
    rw [enter]
    generalize prologue.drive socket.recorded k = driven at hd
    cases driven with
    | error answer => exact hd
    | ok start => exact start.1.enter_early size hd
  | reading r => exact r.enter_early size h

theorem pollStaged_stopped {r : Reader Cipher} (hc : collect socket.recorded (recvBufCap - r.carry.length) k = (filled, stop, k'))
    (hs : stop = .full ∨ stop = .eof ∧ filled ≠ []) :
    pollStaged opens socket.recorded r k size = decryptStaged opens r k' filled size := by
  rw [pollStaged, hc]
  rcases hs with rfl | ⟨rfl, hf⟩
  · cases filled <;> rfl
  cases filled with
  | nil => exact absurd rfl hf
  | cons byte bytes => rfl

theorem decryptStaged_pending (h : decryptStaged opens r k filled size = .pending stream k') :
    k' = k ∧ ∃ r', decryptChunks opens r (r.carry ++ filled) = .ok r' ∧ r'.plain = [] := by
  rw [decryptStaged] at h
  split at h
  · cases h
  next r' hd =>
  split_ifs at h with hpl
  · cases h
    exact ⟨rfl, r', hd, hpl⟩
  · cases h

/-- The socket with a list of answers. -/
def scripted : Socket (List SocketPoll) := ⟨fun k _ => (k.headD .pending, k.tail)⟩

end Honk.Shadowsocks
