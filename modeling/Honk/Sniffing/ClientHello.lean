import Honk.Lib.Position
import Honk.Lib.Text
import Honk.Quic.Reassembly
import Honk.Quic.Sniffer

namespace Honk.Sniffing

open Honk.Lib List Option
open Quic (ClientHelloParse maxCryptoStream)

def isValidHostname (hostname : List Char) : Bool :=
  !hostname.isEmpty && decide ((toUtf8 hostname).length ≤ 253) && (hostname.splitOn '.').all fun label =>
    !label.isEmpty && decide ((toUtf8 label).length ≤ 63) && label.head?.any Char.isAlphanum &&
      label.getLast?.any Char.isAlphanum && label.all fun ch => ch.isAlphanum || ch == '-'

def netAt (n : ℕ) (data : List Byte) (pos : ℕ) : ℕ := beNat ((data.drop pos).take n)

/-- The loop of the source over records of a kind, a length of two bytes and a body: it ends at the first record that
`visit` answers and at the first that runs over the end. -/
def walkRecords {β : Type} (kindLen : ℕ) (visit : List Byte → List Byte → Option β) (data : List Byte) (stop : ℕ) : ℕ → ℕ → Option β
  | 0, _ => none
  | fuel + 1, pos =>
    if pos + kindLen + 2 ≤ stop then
      if stop < pos + kindLen + 2 + netAt 2 data (pos + kindLen) then none
      else
        match visit ((data.drop pos).take kindLen)
          ((data.drop (pos + kindLen + 2)).take (netAt 2 data (pos + kindLen))) with
        | some found => some found
        | none => walkRecords kindLen visit data stop fuel (pos + kindLen + 2 + netAt 2 data (pos + kindLen))
    else none

def skipVector (n : ℕ) (data : List Byte) (pos : ℕ) : Option ℕ :=
  if data.length < pos + n then none
  else if data.length < pos + n + netAt n data pos then none
  else some (pos + n + netAt n data pos)

-- `str::to_lowercase`.
variable (lower : List Char → List Char)

def normalizedHost (name : List Char) : Option (List Char) :=
  let hostname := lower (name.rdropWhile (· = '.'))
  if hostname ≠ [] ∧ isValidHostname hostname = true then some hostname else none

def visitName (kind name : List Byte) : Option (List Char) :=
  if kind = [0] then (fromUtf8 name).bind (normalizedHost lower) else none

def parseSniExtension (data : List Byte) : Option (List Char) :=
  if data.length < 5 then none
  else if data.length < 2 + netAt 2 data 0 then none
  else walkRecords 1 (visitName lower) data (2 + netAt 2 data 0) data.length 2

def visitExtension (kind body : List Byte) : Option (Option (List Char)) :=
  if kind = [0, 0] then some (parseSniExtension lower body) else none

def parseClientHelloBody (data : List Byte) : Option (List Char) :=
  if data.length < 34 then none
  else
    (skipVector 1 data 34).bind fun pos => (skipVector 2 data pos).bind fun pos =>
      (skipVector 1 data pos).bind fun pos =>
        if data.length < pos + 2 then none
        else
          (walkRecords 2 (visitExtension lower) data (min (pos + 2 + netAt 2 data pos) data.length) data.length
            (pos + 2)).join

/-- `parse_client_hello`: the ClientHello at the start of a CRYPTO stream. -/
def parseClientHello (stream : List Byte) : ClientHelloParse :=
  if stream.length < 4 then .incomplete
  else if stream.take 1 ≠ [1] then .invalid
  else if maxCryptoStream < netAt 3 stream 1 then .invalid
  else if stream.length < 4 + netAt 3 stream 1 then .incomplete
  else .complete ((parseClientHelloBody lower ((stream.drop 4).take (netAt 3 stream 1))).map String.ofList)

def vector (n : ℕ) (body : List Byte) : List Byte := beBytes n body.length ++ body

def record (r : List Byte × List Byte) : List Byte := r.1 ++ vector 2 r.2

def nameRecord (n : Byte × List Byte) : List Byte × List Byte := ([n.1], n.2)

structure ServerNameList where
  names : List (Byte × List Byte)
  nonempty : names ≠ []
  fits : ((names.map nameRecord).flatMap record).length < 256 ^ 2

inductive Extension where
  | serverName (list : ServerNameList)
  | other (kind : BitVec 16) (hkind : kind ≠ 0) (body : List Byte)

def ServerNameList.encode (list : ServerNameList) : List Byte := vector 2 ((list.names.map nameRecord).flatMap record)

def Extension.record : Extension → List Byte × List Byte
  | .serverName list => ([0, 0], list.encode)
  | .other kind _ body => (beBytes 2 kind.toNat, body)

def Extension.serverNames : Extension → Option ServerNameList
  | .serverName list => some list
  | .other .. => none

def extensionBytes (extensions : List Extension) : List Byte := (extensions.map Extension.record).flatMap record

/-- A ClientHello as its sender composes it; `opening` is the version and the random. -/
structure ClientHello where
  opening : List Byte
  sessionId : List Byte
  cipherSuites : List Byte
  compressionMethods : List Byte
  extensions : Option (List Extension)
  opening_length : opening.length = 34
  sessionId_fits : sessionId.length < 256 ^ 1
  cipherSuites_fits : cipherSuites.length < 256 ^ 2
  compressionMethods_fits : compressionMethods.length < 256 ^ 1
  extensions_fit : ∀ es ∈ extensions, (extensionBytes es).length < 256 ^ 2

def ClientHello.body (hello : ClientHello) : List Byte :=
  hello.opening ++ (vector 1 hello.sessionId ++ (vector 2 hello.cipherSuites ++ (vector 1 hello.compressionMethods ++
    (hello.extensions.map fun es => vector 2 (extensionBytes es)).getD [])))

def ClientHello.message (hello : ClientHello) : List Byte := [1] ++ vector 3 hello.body

def ServerNameList.hostName (lower : List Char → List Char) (list : ServerNameList) : Option (List Char) :=
  list.names.findSome? fun n => if n.1 = 0 then (fromUtf8 n.2).bind (normalizedHost lower) else none

/-- The first valid host name of the `server_name` extension, lower-cased and without trailing dots. -/
def ClientHello.hostName (lower : List Char → List Char) (hello : ClientHello) : Option (List Char) :=
  ((hello.extensions.getD []).findSome? Extension.serverNames).bind (ServerNameList.hostName lower)

variable {data rest : List Byte} {pos n : ℕ}

@[simp] theorem vector_length (body : List Byte) : (vector n body).length = n + body.length := by simp [vector]

theorem record_length : (record r).length = r.1.length + 2 + r.2.length := by
  simp [record, Nat.add_assoc]

theorem At.netAt_eq (h : At data pos (beBytes n v ++ rest)) (hv : v < 256 ^ n) : netAt n data pos = v := by
  rw [netAt, h.drop, take_left' (beBytes_length n v), beNat_beBytes, Nat.mod_eq_of_lt hv]

theorem At.take_drop (h : At data pos (part ++ rest)) : (data.drop pos).take part.length = part := by rw [h.drop, take_left]

variable {body : List Byte} {records : List (List Byte × List Byte)}

section

variable (h : At data pos (vector n body ++ rest))
include h

theorem At.vector_body : At data (pos + n) (body ++ rest) := by
  rw [vector, append_assoc] at h
  simpa using h.next

theorem At.netAt_vector (hf : body.length < 256 ^ n) : netAt n data pos = body.length := by
  rw [vector, append_assoc] at h
  exact At.netAt_eq h hf

theorem At.skipVector_eq (hf : body.length < 256 ^ n) : skipVector n data pos = some (pos + n + body.length) := by
  have hl := h.length
  simp only [length_append, vector_length] at hl
  rw [skipVector, At.netAt_vector h hf, if_neg (by omega), if_neg (by omega)]

end

theorem length_le_flatMap_record (records : List (List Byte × List Byte)) : records.length ≤ (records.flatMap record).length := by
  induction records with
  | nil => simp
  | cons r records ih =>
    rw [flatMap_cons, length_append, record_length, length_cons]
    omega

theorem length_le_of_mem_records (hr : r ∈ records) : r.2.length ≤ (records.flatMap record).length := by
  have hs := sublist_flatten_of_mem (mem_map_of_mem hr : record r ∈ records.map record)
  have hl := hs.length_le
  rw [record_length, ← flatMap_def] at hl
  omega

theorem walkRecords_eq (visit : List Byte → List Byte → Option β)
    (hki : ∀ r ∈ records, r.1.length = kindLen) (hf : ∀ r ∈ records, r.2.length < 256 ^ 2)
    (h : At data pos (records.flatMap record ++ rest)) (hfu : records.length ≤ fuel) :
    walkRecords kindLen visit data (pos + (records.flatMap record).length) fuel pos = records.findSome? fun r => visit r.1 r.2 := by
  induction records generalizing fuel pos with
  | nil =>
    cases fuel with
    | zero => rfl
    | succ fuel =>
      rw [walkRecords, flatMap_nil, length_nil, if_neg (by omega)]
      rfl
  | cons r records ih =>
    obtain ⟨fuel, rfl⟩ : ∃ k, fuel = k + 1 := ⟨fuel - 1, by rw [length_cons] at hfu; omega⟩
    have hk : r.1.length = kindLen := hki r mem_cons_self
    rw [flatMap_cons, record, append_assoc, append_assoc] at h
    have hv := h.next
    rw [hk] at hv
    have hb := At.vector_body hv
    have hl := At.netAt_vector hv (hf r mem_cons_self)
    have hn := hb.next
    have hr := ih (fun s hs => hki s (mem_cons_of_mem _ hs)) (fun s hs => hf s (mem_cons_of_mem _ hs))
      hn (Nat.le_of_succ_le_succ hfu)
    have hst : pos + ((r :: records).flatMap record).length = pos + kindLen + 2 + r.2.length + (records.flatMap record).length := by
      rw [flatMap_cons, length_append, record_length, hk]
      omega
    rw [hst, walkRecords, if_pos (by omega), hl, if_neg (by omega), ← hk, At.take_drop h, hk, At.take_drop hb, findSome?_cons, hr]
    cases visit r.1 r.2 <;> rfl

theorem parseSniExtension_encode (list : ServerNameList) : parseSniExtension lower list.encode = list.hostName lower := by
  have hv : At list.encode 0 (vector 2 ((list.names.map nameRecord).flatMap record) ++ []) := by
    rw [append_nil]
    exact At.start _
  have hle := At.netAt_vector hv list.fits
  have hl := hv.length
  rw [append_nil, vector_length] at hl
  have hc := length_le_flatMap_record (list.names.map nameRecord)
  have hro : 3 ≤ ((list.names.map nameRecord).flatMap record).length := by
    obtain ⟨n, names, hn⟩ := exists_cons_of_ne_nil list.nonempty
    rw [hn, map_cons, flatMap_cons, length_append, record_length, nameRecord, length_singleton]
    omega
  have hk : ∀ r ∈ list.names.map nameRecord, r.1.length = 1 := by
    intro r hr
    obtain ⟨n, -, rfl⟩ := mem_map.mp hr
    rfl
  rw [parseSniExtension, if_neg (by omega), hle, if_neg (by omega)]
  refine (walkRecords_eq (visitName lower) hk (fun r hr => (length_le_of_mem_records hr).trans_lt list.fits)
    (At.vector_body hv) (by omega)).trans ?_
  rw [findSome?_map, ServerNameList.hostName]
  congr 1
  funext n
  simp [nameRecord, visitName]

theorem beBytes_two_eq_zero {kind : BitVec 16} (hk : kind ≠ 0) : beBytes 2 kind.toNat ≠ [0, 0] := by
  intro h
  have hn := congrArg beNat h
  rw [beNat_beBytes, Nat.mod_eq_of_lt (show kind.toNat < 256 ^ 2 from kind.isLt)] at hn
  exact hk (BitVec.eq_of_toNat_eq hn)

theorem visitExtension_record (e : Extension) :
    visitExtension lower e.record.1 e.record.2 = e.serverNames.map (ServerNameList.hostName lower) := by
  cases e with
  | serverName list => rw [visitExtension, Extension.record, if_pos rfl, parseSniExtension_encode]; rfl
  | other kind hk body => rw [visitExtension, Extension.record, if_neg (beBytes_two_eq_zero hk)]; rfl

theorem findSome?_visitExtension (extensions : List Extension) :
    ((extensions.map Extension.record).findSome? fun r => visitExtension lower r.1 r.2).join =
      (extensions.findSome? Extension.serverNames).bind (ServerNameList.hostName lower) := by
  rw [findSome?_map]
  induction extensions with
  | nil => rfl
  | cons e extensions ih =>
    rw [findSome?_cons, findSome?_cons, Function.comp_apply, visitExtension_record]
    cases e.serverNames with
    | none => exact ih
    | some list => rfl

variable (hello : ClientHello)

theorem parseClientHelloBody_body : parseClientHelloBody lower hello.body = hello.hostName lower := by
  have ho := (show At hello.body 0 (hello.opening ++ _) from At.start _).next
  rw [hello.opening_length, Nat.zero_add] at ho
  have hs := At.vector_body ho
  have hsu := At.vector_body hs.next
  have hm := At.vector_body hsu.next
  have he := hm.next
  have hl := ho.length
  rw [parseClientHelloBody, if_neg (by omega), At.skipVector_eq ho hello.sessionId_fits, bind_some,
    At.skipVector_eq hs.next hello.cipherSuites_fits, bind_some,
    At.skipVector_eq hsu.next hello.compressionMethods_fits, bind_some, ClientHello.hostName]
  generalize 34 + 1 + _ + 2 + _ + 1 + hello.compressionMethods.length = pos at he
  have hf := hello.extensions_fit
  generalize hello.extensions = extensions at he hf
  have hen := he.length
  cases extensions with
  | none =>
    rw [if_pos (by simp only [map_none, getD_none, length_nil] at hen; omega)]
    rfl
  | some es =>
    simp only [map_some, getD_some, vector_length] at hen he
    rw [← append_nil (vector 2 _)] at he
    have hes := hf es rfl
    have hc := length_le_flatMap_record (es.map Extension.record)
    rw [← extensionBytes] at hc
    rw [if_neg (by omega), At.netAt_vector he hes, Nat.min_eq_left (by omega), getD_some, ← findSome?_visitExtension]
    refine congrArg Option.join (walkRecords_eq (visitExtension lower) ?_ ?_ (At.vector_body he) (by omega))
    · intro r hr
      obtain ⟨e, -, rfl⟩ := mem_map.mp hr
      cases e <;> simp [Extension.record]
    · exact fun r hr => (length_le_of_mem_records hr).trans_lt hes

theorem netAt_take (data : List Byte) (h : pos + n ≤ k) : netAt n (data.take k) pos = netAt n data pos := by
  rw [netAt, drop_take, take_take, Nat.min_eq_left (by omega), netAt]

theorem parseClientHello_take (stream : List Byte) (hf : 4 ≤ k) (hk : k ≤ stream.length) :
    parseClientHello lower (stream.take k) = if stream.take 1 ≠ [1] ∨ maxCryptoStream < netAt 3 stream 1 then .invalid
      else if k < 4 + netAt 3 stream 1 then .incomplete
      else .complete ((parseClientHelloBody lower ((stream.drop 4).take (netAt 3 stream 1))).map String.ofList) := by
  rw [parseClientHello, netAt_take stream (by omega), length_take_of_le hk, if_neg (by omega), take_take,
    Nat.min_eq_left (by omega), drop_take, take_take, ite_or]
  by_cases hl : k < 4 + netAt 3 stream 1
  · simp only [if_pos hl]
  · simp only [if_neg hl, Nat.min_eq_left (show netAt 3 stream 1 ≤ k - 4 by omega)]

theorem parseClientHello_stable (data more : List Byte) (h : parseClientHello lower data ≠ .incomplete) :
    parseClientHello lower (data ++ more) = parseClientHello lower data := by
  have hf : 4 ≤ data.length := by
    by_contra hlt
    exact h (if_pos (by omega))
  have hw := parseClientHello_take lower (data ++ more) (hf.trans (by simp)) (le_refl (data ++ more).length)
  have hpa := parseClientHello_take lower (data ++ more) hf (by simp)
  rw [take_length] at hw
  rw [take_left] at hpa
  rw [hpa] at h ⊢
  have hl : data.length ≤ (data ++ more).length := by simp
  rw [hw]
  split_ifs at h ⊢ <;> first | rfl | omega | exact absurd rfl h

theorem ClientHello.message_length : hello.message.length = 4 + hello.body.length := by
  rw [ClientHello.message, length_append, vector_length, length_singleton]
  omega

theorem ClientHello.body_lt : hello.body.length < 256 ^ 3 := by
  have hf := hello.extensions_fit
  have he : ((hello.extensions.map fun es => vector 2 (extensionBytes es)).getD []).length < 2 + 256 ^ 2 := by
    cases hes : hello.extensions with
    | none => decide
    | some es =>
      rw [map_some, getD_some, vector_length]
      exact Nat.add_lt_add_left (hf es hes) 2
  have h1 := hello.sessionId_fits
  have h2 := hello.cipherSuites_fits
  have h3 := hello.compressionMethods_fits
  simp only [ClientHello.body, length_append, vector_length, hello.opening_length]
  omega

theorem ClientHello.at_body (rest : List Byte) : At (hello.message ++ rest) 1 (vector 3 hello.body ++ rest) :=
  (show At _ 0 ([1] ++ (vector 3 hello.body ++ rest)) from At.start _).next

theorem parseClientHello_large {hello : ClientHello} (hl : maxCryptoStream < hello.body.length) (rest : List Byte) :
    parseClientHello lower (hello.message ++ rest) = .invalid := by
  have hle : 4 ≤ (hello.message ++ rest).length := by simp [ClientHello.message]; omega
  have hw := parseClientHello_take lower (hello.message ++ rest) hle le_rfl
  rwa [take_length, At.netAt_vector (hello.at_body rest) hello.body_lt, if_pos (.inr hl)] at hw

theorem parseClientHello_message (hfi : hello.body.length ≤ maxCryptoStream) (hk : k ≤ (hello.message ++ rest).length) :
    parseClientHello lower ((hello.message ++ rest).take k) =
      if k < hello.message.length then .incomplete else .complete ((hello.hostName lower).map String.ofList) := by
  have hv := hello.at_body rest
  have hm := hello.message_length
  by_cases hf : 4 ≤ k
  · have ht : (hello.message ++ rest).take 1 = [1] := rfl
    have hin : ¬ ((hello.message ++ rest).take 1 ≠ [1] ∨ maxCryptoStream < hello.body.length) := by
      rintro (hn | hl)
      · exact hn ht
      · omega
    rw [parseClientHello_take lower _ hf hk, At.netAt_vector hv hello.body_lt, if_neg hin,
      At.take_drop (At.vector_body hv), parseClientHelloBody_body, hm]
  · rw [if_pos (by omega), parseClientHello, if_pos (by rw [length_take_of_le hk]; omega)]

end Honk.Sniffing
