import Honk.Routing.ProcessName
import Honk.Sniffing.ClientHello

namespace Honk.Sniffing

open Honk.Lib List
open Quic (ClientHelloParse maxCryptoStream)
open Routing (trim)

def maxClientHelloSize : ℕ := 4096

inductive TrafficType where
  | tls
  | http
  | unknown

structure SniffResult where
  trafficType : TrafficType
  domain : Option (List Char)
  buffered : List Byte

def methods : List (List Char) := ["GET ", "POST ", "CONNECT ", "HEAD ", "PUT ", "DELETE ", "OPTIONS "].map String.toList

def crlf : List Byte := [0x0D, 0x0A]

variable (data : List Byte)

def isHttpRequestPrefix : Bool :=
  (methods.map toUtf8).any fun method => data.isPrefixOf method || method.isPrefixOf data

def isAsciiLine (byte : Byte) : Bool := (0x21 ≤ byte.toNat && byte.toNat ≤ 0x7E) || byte == 0x0D || byte == 0x0A || byte == 0x09

def tlsRequiredLen : ℕ :=
  if data.length < 5 then 5
  else if maxClientHelloSize < 5 + netAt 2 data 3 then maxClientHelloSize
  else if data.length < 9 then 5 + netAt 2 data 3
  else if (data.drop 5).take 1 ≠ [1] then 5 + netAt 2 data 3
  else min (max (5 + netAt 2 data 3) (9 + netAt 3 data 6)) maxClientHelloSize

def sniffRequiredLen : ℕ :=
  if data = [] then 1
  else if data.take 1 = [0x16] then tlsRequiredLen data
  else if isHttpRequestPrefix data then
    if crlf ++ crlf <:+: data then data.length else maxClientHelloSize
  else if data.all isAsciiLine then maxClientHelloSize
  else 5

/-- The reads of `sniff_tcp`: with `n` bytes read, the next read returns `split n` bytes, but at least one, and at most
what is asked for and what the stream still holds. A read at the end of the stream ends the loop. -/
def fill (split : ℕ → ℕ) : ℕ → List Byte → List Byte → List Byte × List Byte
  | 0, buf, stream => (buf, stream)
  | fuel + 1, buf, stream =>
    if sniffRequiredLen buf ≤ buf.length ∨ buf.length = maxClientHelloSize then (buf, stream)
    else if stream = [] then (buf, stream)
    else
      let want := min (sniffRequiredLen buf - buf.length) 512
      let n := max 1 (min (split buf.length) (min want stream.length))
      fill split fuel (buf ++ stream.take n) (stream.drop n)

def linesFrom (line : List Char) : List Char → List (List Char)
  | [] => if line = [] then [] else [line]
  | c :: text =>
    if c = '\n' then (if line.getLast? = some '\r' then line.dropLast else line) :: linesFrom [] text
    else linesFrom (line ++ [c]) text

variable (lower : List Char → List Char)

variable (data : List Byte)

def parseTlsSni : Option (List Char) :=
  if data.length < 5 then none
  else if data.take 1 ≠ [0x16] then none
  else if netAt 2 data 1 < 0x0301 then none
  else
    let available := min (5 + netAt 2 data 3) data.length
    if available ≤ 5 then none
    else if (data.drop 5).take 1 ≠ [1] then none
    else if available < 9 then none
    else parseClientHelloBody lower ((data.drop 9).take (min (netAt 3 data 6) (available - 9)))

def hostValue (value : List Char) : Option (List Char) :=
  let host := (trim value).takeWhile (· ≠ ':')
  if host ≠ [] ∧ isValidHostname host = true then some (lower host) else none

def lineHost (line : List Char) : Option (List Char) :=
  if ((trim line).take 5).map Char.toLower = "host:".toList then hostValue lower ((trim line).drop 5) else none

def parseHttpHost : Option (List Char) :=
  (fromUtf8 data).bind fun text => if methods.any (·.isPrefixOf text) then (linesFrom [] text).findSome? (lineHost lower) else none

def classify : SniffResult :=
  match parseTlsSni lower data with
  | some sni => ⟨.tls, some sni, data⟩
  | none =>
    match parseHttpHost lower data with
    | some host => ⟨.http, some host, data⟩
    | none => ⟨.unknown, none, data⟩

/-- The result and what is left of the stream. No deadline passes and no read fails. -/
def sniffTcp (split : ℕ → ℕ) (stream : List Byte) : SniffResult × List Byte :=
  let filled := fill split maxClientHelloSize [] stream
  (classify lower filled.1, filled.2)

/-- A buffer shorter than `least` is not enough, and none asks for more than `most`. -/
structure Awaits (stream : List Byte) (least most : ℕ) : Prop where
  le : least ≤ most
  cap : most ≤ maxClientHelloSize
  long : least ≤ stream.length
  wait : ∀ k < least, k < sniffRequiredLen (stream.take k)
  bound : ∀ k ≤ most, k ≤ stream.length → sniffRequiredLen (stream.take k) ≤ most

variable {stream : List Byte} {least most : ℕ}

theorem fill_take (split : ℕ → ℕ) (h : Awaits stream least most) (fuel k : ℕ) (hk : k ≤ most)
    (hl : k ≤ stream.length) (hf : least ≤ k + fuel) : ∃ m, least ≤ m ∧ m ≤ most ∧ m ≤ stream.length ∧
      fill split fuel (stream.take k) (stream.drop k) = (stream.take m, stream.drop m) := by
  obtain ⟨hle, hm, hs, hw, hb⟩ := h
  induction fuel generalizing k with
  | zero => exact ⟨k, hf, hk, hl, rfl⟩
  | succ fuel ih =>
    have hbu : (stream.take k).length = k := length_take_of_le hl
    have hn := hb k hk hl
    simp only [fill, hbu]
    by_cases hd : sniffRequiredLen (stream.take k) ≤ k ∨ k = maxClientHelloSize
    · rw [if_pos hd]
      refine ⟨k, ?_, hk, hl, rfl⟩
      by_contra hlt
      have := hw k (by omega)
      omega
    rw [if_neg hd]
    by_cases he : stream.drop k = []
    · rw [if_pos he]
      have := drop_eq_nil_iff.mp he
      exact ⟨k, by omega, hk, hl, rfl⟩
    rw [if_neg he, length_drop, drop_drop, ← take_add]
    have : k < stream.length := by
      by_contra hg
      exact he (drop_eq_nil_of_le (by omega))
    exact ih _ (by omega) (by omega) (by omega)

theorem sniffTcp_take (split : ℕ → ℕ) (h : Awaits stream least most) : ∃ m, least ≤ m ∧ m ≤ most ∧ m ≤ stream.length ∧
      sniffTcp lower split stream = (classify lower (stream.take m), stream.drop m) := by
  obtain ⟨m, hl, hm, hle, hf⟩ := fill_take split h maxClientHelloSize 0 (Nat.zero_le _) (Nat.zero_le _)
    ((h.le.trans h.cap).trans (Nat.le_add_left _ _))
  rw [take_zero, drop_zero] at hf
  refine ⟨m, hl, hm, hle, ?_⟩
  rw [sniffTcp, hf]

/-- A handshake record of TLS 1.0 or later of at most 4096 bytes that opens with a ClientHello. -/
structure TlsRecord where
  version : ℕ
  hello : ClientHello
  extra : List Byte
  version_ge : 0x0301 ≤ version
  version_lt : version < 256 ^ 2
  fits : 5 + (hello.message ++ extra).length ≤ maxClientHelloSize

def TlsRecord.encode (r : TlsRecord) : List Byte := [0x16] ++ (beBytes 2 r.version ++ vector 2 (r.hello.message ++ r.extra))

variable (r : TlsRecord) (rest : List Byte)

theorem TlsRecord.encode_length : r.encode.length = 5 + (r.hello.message ++ r.extra).length := by
  simp only [TlsRecord.encode, length_append, vector_length, beBytes_length, length_singleton]
  omega

structure TlsRecord.Fields (data : List Byte) : Prop where
  version : At data 1 (beBytes 2 r.version ++ (vector 2 (r.hello.message ++ r.extra) ++ rest))
  payload : At data 3 (vector 2 (r.hello.message ++ r.extra) ++ rest)
  kind : At data 5 ([1] ++ (vector 3 r.hello.body ++ (r.extra ++ rest)))
  message : At data 6 (vector 3 r.hello.body ++ (r.extra ++ rest))
  body : At data 9 (r.hello.body ++ (r.extra ++ rest))

theorem TlsRecord.fields : r.Fields rest (r.encode ++ rest) := by
  have hk : At (r.encode ++ rest) 0 ([0x16] ++ (beBytes 2 r.version ++ (vector 2 (r.hello.message ++ r.extra) ++ rest))) := by
    simpa [TlsRecord.encode] using At.start (r.encode ++ rest)
  have hv := hk.next
  have hpa := hv.next
  rw [beBytes_length] at hpa
  have hm := At.vector_body hpa
  simp only [ClientHello.message, append_assoc] at hm
  exact ⟨hv, hpa, hm, hm.next, At.vector_body hm.next⟩

variable {r rest}

theorem TlsRecord.payload_lt : (r.hello.message ++ r.extra).length < 256 ^ 2 := by
  have := r.fits
  rw [maxClientHelloSize] at this
  omega

theorem TlsRecord.body_le : 9 + r.hello.body.length + r.extra.length = r.encode.length := by
  rw [r.encode_length, length_append, r.hello.message_length]
  omega

theorem sniffRequiredLen_tls (hk : k ≤ (r.encode ++ rest).length) :
    sniffRequiredLen ((r.encode ++ rest).take k) = if k = 0 then 1 else if k < 5 then 5 else r.encode.length := by
  have hf := r.fields rest
  have hfits := r.fits
  rw [← r.encode_length] at hfits
  have hbu : ((r.encode ++ rest).take k).length = k := length_take_of_le hk
  by_cases hz : k = 0
  · rw [if_pos hz, hz]
    rfl
  have hne : (r.encode ++ rest).take k ≠ [] := ne_nil_of_length_pos (by omega)
  have hfirst : ((r.encode ++ rest).take k).take 1 = [0x16] := by
    rw [take_take, Nat.min_eq_left (by omega)]
    rfl
  rw [sniffRequiredLen, if_neg hne, if_pos hfirst, if_neg hz, tlsRequiredLen, hbu]
  by_cases hfi : k < 5
  · rw [if_pos hfi, if_pos hfi]
  have he : 5 + netAt 2 ((r.encode ++ rest).take k) 3 = r.encode.length := by
    rw [netAt_take _ (by omega), At.netAt_vector hf.payload r.payload_lt, r.encode_length]
  rw [if_neg hfi, if_neg hfi, he, if_neg (by omega)]
  by_cases hn : k < 9
  · rw [if_pos hn]
  have hl : netAt 3 ((r.encode ++ rest).take k) 6 = r.hello.body.length := by
    have hb := r.body_le
    rw [netAt_take _ (by omega), At.netAt_vector hf.message]
    rw [maxClientHelloSize] at hfits
    omega
  have hb := r.body_le
  rw [if_neg hn, hl, Nat.max_eq_left (by omega), Nat.min_eq_left hfits, ite_self]

theorem parseTlsSni_encode : parseTlsSni lower r.encode = r.hello.hostName lower := by
  have hf := r.fields []
  rw [append_nil] at hf
  have hl := r.body_le
  have hfi := r.fits
  rw [maxClientHelloSize, ← r.encode_length] at hfi
  have hfirst : r.encode.take 1 = [0x16] := rfl
  have hk : (r.encode.drop 5).take 1 = [1] := At.take_drop hf.kind
  have he : 5 + netAt 2 r.encode 3 = r.encode.length := by rw [At.netAt_vector hf.payload r.payload_lt, r.encode_length]
  have hle : netAt 3 r.encode 6 = r.hello.body.length := At.netAt_vector hf.message (by omega)
  have hv : netAt 2 r.encode 1 = r.version := At.netAt_eq hf.version r.version_lt
  have hg := r.version_ge
  simp only [parseTlsSni, hfirst, hk, he, hle, hv, ne_eq, not_true_eq_false, if_false, min_self]
  rw [if_neg (by omega), if_neg (by omega), if_neg (by omega), if_neg (by omega), Nat.min_eq_left (by omega),
    At.take_drop hf.body, parseClientHelloBody_body]

theorem methods_first : ∀ m ∈ methods, (toUtf8 m).take 1 ≠ [0x16] ∧ 1 ≤ (toUtf8 m).length := by decide +kernel

theorem parseHttpHost_record : parseHttpHost lower r.encode = none := by
  rw [parseHttpHost]
  cases ht : fromUtf8 r.encode with
  | none => rfl
  | some text =>
    have hb := fromUtf8_eq_some_iff.mp ht
    have hf : (toUtf8 text).take 1 = [0x16] := by rw [← hb]; rfl
    refine if_neg ?_
    rw [any_eq_true]
    rintro ⟨m, hm, hpr⟩
    obtain ⟨tail, rfl⟩ := isPrefixOf_iff_prefix.mp hpr
    rw [toUtf8_append, take_append_of_le_length (methods_first m hm).2] at hf
    exact (methods_first m hm).1 hf

theorem classify_record : (classify lower r.encode).domain = r.hello.hostName lower ∧ (classify lower r.encode).buffered = r.encode := by
  rw [classify, parseTlsSni_encode, parseHttpHost_record]
  cases r.hello.hostName lower <;> exact ⟨rfl, rfl⟩

/-- Both carriers of a ClientHello, under every segmentation: the host name is found, and only once the message is
whole; the verdict of a prefix of a CRYPTO stream is final. -/
theorem clientHello_parsing (hello : ClientHello) :
    (∀ (r : TlsRecord) (split : ℕ → ℕ) (rest : List Byte), r.hello = hello →
      (sniffTcp lower split (r.encode ++ rest)).1.domain = hello.hostName lower ∧
        (sniffTcp lower split (r.encode ++ rest)).1.buffered = r.encode ∧
        (sniffTcp lower split (r.encode ++ rest)).2 = rest) ∧
    (hello.body.length ≤ maxCryptoStream → ∀ (rest : List Byte) (k : ℕ), k ≤ (hello.message ++ rest).length →
      parseClientHello lower ((hello.message ++ rest).take k) =
        if k < hello.message.length then .incomplete else .complete ((hello.hostName lower).map String.ofList)) ∧
    ∀ data more : List Byte, parseClientHello lower data ≠ .incomplete →
      parseClientHello lower (data ++ more) = parseClientHello lower data := by
  refine ⟨?_, fun hf rest k hk => parseClientHello_message lower hello hf hk, parseClientHello_stable lower⟩
  rintro r split rest rfl
  have hf := r.fits
  rw [← r.encode_length] at hf
  have hl := r.body_le
  have ha : Awaits (r.encode ++ rest) r.encode.length r.encode.length := by
    refine ⟨le_rfl, hf, by simp, fun k hk => ?_, fun k _ hle => ?_⟩
    · rw [sniffRequiredLen_tls (by rw [length_append]; omega)]
      split_ifs <;> omega
    · rw [sniffRequiredLen_tls hle]
      split_ifs <;> omega
  obtain ⟨m, hleast, hm, -, hs⟩ := sniffTcp_take lower split ha
  obtain rfl : m = r.encode.length := by omega
  rw [hs, take_left, drop_left]
  exact ⟨(classify_record lower).1, (classify_record lower).2, rfl⟩

def dottedName : ServerNameList := ⟨[(0, toUtf8 "A.b.".toList)], by decide, by decide +kernel⟩

def dottedHello (suites : List Byte) (h : suites.length < 256 ^ 2) : ClientHello :=
  ⟨List.replicate 34 0, [], suites, [0], some [.serverName dottedName], rfl, by decide, h, by decide, by
    rintro es ⟨⟩
    decide +kernel⟩

theorem dottedHello_hostName (suites : List Byte) (h : suites.length < 256 ^ 2) :
    (dottedHello suites h).hostName (List.map Char.toLower) = some "a.b".toList := by
  change dottedName.hostName (List.map Char.toLower) = some "a.b".toList
  decide +kernel

def dottedRecord : TlsRecord := ⟨0x0301, dottedHello [] (by decide), [], by decide, by decide, by decide +kernel⟩

theorem clientHello_parsing_dotted :
    (sniffTcp (List.map Char.toLower) (fun _ => 1) (dottedRecord.encode ++ [0])).1.domain = some "a.b".toList ∧
      parseClientHello (List.map Char.toLower) (dottedRecord.hello.message ++ [0]) = .complete (some "a.b") := by
  obtain ⟨ht, hq, -⟩ := clientHello_parsing (List.map Char.toLower) dottedRecord.hello
  have hn := dottedHello_hostName [] (by decide)
  refine ⟨((ht dottedRecord _ [0] rfl).1).trans hn, ?_⟩
  have hw := hq (by decide +kernel) [0] _ le_rfl
  rw [take_length, if_neg (by simp), show dottedRecord.hello.hostName _ = _ from hn] at hw
  exact hw

theorem clientHello_parsing_large : ∃ hello : ClientHello, hello.hostName (List.map Char.toLower) = some "a.b".toList ∧
    ∀ rest : List Byte, parseClientHello (List.map Char.toLower) (hello.message ++ rest) = .invalid := by
  obtain ⟨suites, hs⟩ : ∃ suites : List Byte, suites.length = 65535 := ⟨List.replicate 65535 0, length_replicate⟩
  refine ⟨dottedHello suites (by omega), dottedHello_hostName _ _, fun rest => parseClientHello_large _ ?_ rest⟩
  simp only [ClientHello.body, dottedHello, length_append, length_replicate, vector_length, hs, maxCryptoStream]
  omega

end Honk.Sniffing
