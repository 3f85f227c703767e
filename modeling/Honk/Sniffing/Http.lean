import Honk.Sniffing.Tcp

namespace Honk.Sniffing

open Honk.Lib List
open Routing (trim WhiteSpace)

def InLine (line : List Byte) : Prop := 0x0D ∉ line ∧ 0x0A ∉ line

instance : DecidablePred InLine := fun _ => inferInstanceAs (Decidable (_ ∧ _))

structure Field where
  name : List Char
  value : List Byte
  name_ne : name ≠ []
  token : ∀ c ∈ name, ¬ WhiteSpace c ∧ c ≠ ':'
  value_line : InLine value

/-- An HTTP/1 request head; `target` is the request line after the method and its space. -/
structure RequestHead where
  method : List Char
  target : List Byte
  fields : List Field
  supported : method ∈ methods
  target_line : InLine target

def Field.encode (f : Field) : List Byte := toUtf8 f.name ++ 0x3A :: f.value

def RequestHead.lines (head : RequestHead) : List (List Byte) := (toUtf8 head.method ++ head.target) :: head.fields.map Field.encode

def RequestHead.encode (head : RequestHead) : List Byte := head.lines.flatMap (· ++ crlf) ++ crlf

variable (lower : List Char → List Char)

def Field.host (f : Field) : Option (List Char) :=
  if f.name.map Char.toLower = "host".toList then (fromUtf8 f.value).bind (hostValue lower) else none

/-- The host of the first valid `Host` field. -/
def RequestHead.host (head : RequestHead) : Option (List Char) := head.fields.findSome? (Field.host lower)

variable {lines : List (List Byte)} {c : Char} {t : List Char} {texts : List (List Char)}

theorem skip_line {line rest a b : List Byte} (hl : 0x0D ∉ line)
    (h : line ++ 0x0D :: 0x0A :: rest = a ++ 0x0D :: 0x0A :: 0x0D :: 0x0A :: b) :
    rest = 0x0D :: 0x0A :: b ∨ ∃ a', rest = a' ++ 0x0D :: 0x0A :: 0x0D :: 0x0A :: b := by
  induction line generalizing a with
  | nil =>
    match a with
    | [] => exact .inl (by simpa using h)
    | [x] => simp at h
    | x :: y :: a => exact .inr ⟨a, by simp only [nil_append, cons_append, List.cons.injEq] at h; exact h.2.2⟩
  | cons x line ih =>
    rw [mem_cons, not_or] at hl
    cases a with
    | nil => exact absurd (List.cons.inj h).1.symm hl.1
    | cons y a => exact ih hl.2 (List.cons.inj h).2

theorem blank_line_last (hli : ∀ line ∈ lines, line ≠ [] ∧ 0x0D ∉ line) {a b : List Byte}
    (h : lines.flatMap (· ++ crlf) ++ crlf = a ++ (crlf ++ crlf) ++ b) : b = [] := by
  induction lines generalizing a with
  | nil =>
    have hle := congrArg List.length h
    simp only [crlf, flatMap_nil, length_append, length_cons, length_nil] at hle
    omega
  | cons line lines ih =>
    have ht := fun l hl => hli l (mem_cons_of_mem _ hl)
    simp only [flatMap_cons, crlf, append_assoc, cons_append, nil_append] at h ih
    rcases skip_line (hli line mem_cons_self).2 h with hr | ⟨a', hr⟩
    · cases lines with
      | nil => simpa using hr.symm
      | cons next lines =>
        obtain ⟨hn, hc⟩ := ht next mem_cons_self
        obtain ⟨x, next, rfl⟩ := exists_cons_of_ne_nil hn
        rw [flatMap_cons, cons_append, cons_append, cons_append] at hr
        exact absurd ((List.cons.inj hr).1 ▸ mem_cons_self) hc
    · exact ih ht hr

theorem toUtf8_injective (h : toUtf8 a = toUtf8 b) : a = b :=
  Option.some.inj ((fromUtf8_eq_some_iff.mpr h).symm.trans (fromUtf8_eq_some_iff.mpr rfl)) |>.symm

theorem char_eq_of_toNat (h : c.toNat = d.toNat) : c = d := Char.ext (UInt32.toNat_inj.mp h)

theorem text_lines {text : List Char} {rest : List Byte} (h : toUtf8 text = lines.flatMap (· ++ crlf) ++ rest) :
    ∃ (texts : List (List Char)) (tail : List Char), text = texts.flatMap (· ++ ['\r', '\n']) ++ tail ∧ texts.map toUtf8 = lines := by
  induction lines generalizing text with
  | nil => exact ⟨[], text, rfl, rfl⟩
  | cons line lines ih =>
    simp only [flatMap_cons, crlf, append_assoc, cons_append, nil_append] at h ih
    obtain ⟨t, c, u, rfl, rfl, hu, hc⟩ := ascii_split (by decide) h
    obtain ⟨t', c', v, rfl, ht', hv, hc'⟩ := ascii_split (by decide) (hu.symm.trans (nil_append _).symm)
    obtain rfl : t' = [] := toUtf8_injective ht'.symm
    obtain rfl : c = '\r' := char_eq_of_toNat hc
    obtain rfl : c' = '\n' := char_eq_of_toNat hc'
    obtain ⟨texts, tail, rfl, ht⟩ := ih hv.symm
    exact ⟨t :: texts, tail, by simp, by rw [map_cons, ht]⟩

theorem linesFrom_line (line rest : List Char) (ht : '\n' ∉ t) :
    linesFrom line (t ++ '\r' :: '\n' :: rest) = (line ++ t) :: linesFrom [] rest := by
  induction t generalizing line with
  | nil => simp [linesFrom]
  | cons c t ih =>
    rw [mem_cons, not_or] at ht
    rw [cons_append, linesFrom, if_neg (Ne.symm ht.1), ih _ ht.2, append_assoc, singleton_append]

theorem linesFrom_texts (hte : ∀ t ∈ texts, '\n' ∉ t) (tail : List Char) :
    linesFrom [] (texts.flatMap (· ++ ['\r', '\n']) ++ tail) = texts ++ linesFrom [] tail := by
  induction texts with
  | nil => rfl
  | cons t texts ih =>
    rw [cons_append, ← ih fun t ht => hte t (mem_cons_of_mem _ ht)]
    have hl := linesFrom_line [] (texts.flatMap (· ++ ['\r', '\n']) ++ tail) (hte t mem_cons_self)
    simpa using hl

theorem rdropWhile_append (hc : p c = false) (back : List Char) : (front ++ c :: back).rdropWhile p = front ++ c :: back.rdropWhile p := by
  induction back using List.reverseRecOn with
  | nil => simpa using rdropWhile_concat_neg p front c (by simp [hc])
  | append_singleton back d ih =>
    have hs : front ++ c :: (back ++ [d]) = (front ++ c :: back) ++ [d] := by simp
    rw [hs, rdropWhile_concat, rdropWhile_concat]
    split_ifs
    · exact ih
    · exact hs.symm

theorem trim_rdropWhile (text : List Char) : trim (text.rdropWhile (WhiteSpace ·)) = trim text := by
  induction text using List.reverseRecOn with
  | nil => rfl
  | append_singleton text c ih =>
    rw [rdropWhile_concat]
    split_ifs with hc
    · rw [ih, Routing.trim_concat, if_pos (of_decide_eq_true hc)]
    · rfl

theorem toLower_eq_colon (h : c.toLower = ':') : c = ':' := by
  rw [Char.toLower] at h
  split at h
  · rename_i hu
    have hv : c.val + 32 = 58 := congrArg Char.val h
    have hg : 65 ≤ c.val.toNat := hu.1
    have hl : c.val.toNat ≤ 90 := hu.2
    have hn := congrArg UInt32.toNat hv
    rw [UInt32.toNat_add] at hn
    change (c.val.toNat + 32) % 2 ^ 32 = 58 at hn
    omega
  · exact h

theorem toLower_host {name tail : List Char} (hn : ':' ∉ name) :
    ((name ++ ':' :: tail).take 5).map Char.toLower = "host:".toList ↔ name.map Char.toLower = "host".toList := by
  match name with
  | [] | [_] | [_, _] | [_, _, _] => simp
  | [a, b, c, d] => simp
  | a :: b :: c :: d :: e :: name =>
    have he : e.toLower ≠ ':' := fun h => hn (by simp [toLower_eq_colon h])
    simp [he]

variable {m : List Char}

theorem lineHost_field (f : Field) :
    lineHost lower (f.name ++ ':' :: v) = if f.name.map Char.toLower = "host".toList then hostValue lower v else none := by
  have hs : ∀ c ∈ f.name, decide (WhiteSpace c) = false := fun c hc => by simpa using (f.token c hc).1
  have hco : ':' ∉ f.name := fun h => (f.token _ h).2 rfl
  have ht : trim (f.name ++ ':' :: v) = f.name ++ ':' :: v.rdropWhile (WhiteSpace ·) := by
    obtain ⟨c, name, hn⟩ := exists_cons_of_ne_nil f.name_ne
    have hc := hs c (by simp [hn])
    have hst : (f.name ++ ':' :: v).dropWhile (WhiteSpace ·) = f.name ++ ':' :: v := by
      rw [hn, cons_append, dropWhile_cons_of_neg (by simp [hc])]
    rw [trim, hst, rdropWhile_append (by decide)]
  rw [lineHost, ht]
  refine if_ctx_congr (toLower_host hco) (fun hh => ?_) fun _ => rfl
  have hl : (f.name ++ [':']).length = 5 := by simpa using congrArg List.length hh
  rw [← singleton_append, ← append_assoc, drop_left' hl, hostValue, trim_rdropWhile, hostValue]

theorem lineHost_text {f : Field} (h : toUtf8 t = f.encode) : lineHost lower t = f.host lower := by
  obtain ⟨t, c, u, rfl, ht, hu, hc⟩ := ascii_split (by decide) h
  obtain rfl : f.name = t := toUtf8_injective ht
  obtain rfl : c = ':' := char_eq_of_toNat hc
  rw [lineHost_field, Field.host, fromUtf8_eq_some_iff.mpr hu]
  rfl

theorem findSome?_lineHost {fields : List Field} (h : texts.map toUtf8 = fields.map Field.encode) :
    texts.findSome? (lineHost lower) = fields.findSome? (Field.host lower) := by
  induction fields generalizing texts with
  | nil =>
    rw [map_eq_nil_iff.mp h]
    rfl
  | cons f fields ih =>
    obtain ⟨t, texts, rfl, ht, hte⟩ := map_eq_cons_iff.mp h
    rw [findSome?_cons, findSome?_cons, lineHost_text lower ht, ih hte]

theorem methods_text : ∀ m ∈ methods, m.dropLast ++ [' '] = m ∧ ¬ WhiteSpace (m.headD ' ') ∧ 2 ≤ m.length ∧
    (m.take 2).map Char.toLower ≠ "ho".toList := by decide +kernel

theorem methods_inLine : ∀ m ∈ methods, InLine (toUtf8 m) := by decide +kernel

theorem method_prefix (hm : m ∈ methods) (h : toUtf8 t = toUtf8 m ++ target) : m <+: t := by
  rw [← (methods_text m hm).1, toUtf8_append, append_assoc] at h
  obtain ⟨t, c, u, rfl, ht, -, hc⟩ := ascii_split (show (0x20 : Byte).toNat < 128 by decide) h
  obtain rfl : c = ' ' := char_eq_of_toNat hc
  refine ⟨u, ?_⟩
  nth_rewrite 1 [← (methods_text m hm).1]
  rw [toUtf8_injective ht, append_assoc, singleton_append]

theorem lineHost_request (hm : m ∈ methods) (h : m <+: t) : lineHost lower t = none := by
  obtain ⟨-, hs, hl, hho⟩ := methods_text m hm
  obtain ⟨u, rfl⟩ := h
  obtain ⟨c, m', rfl⟩ := exists_cons_of_length_pos (show 0 < m.length by omega)
  have hst : (c :: m' ++ u).dropWhile (WhiteSpace ·) = c :: m' ++ u := by
    rw [cons_append, dropWhile_cons_of_neg (by simpa using hs)]
  have ht : trim (c :: m' ++ u) <+: c :: m' ++ u := by
    rw [trim, hst]
    exact rdropWhile_prefix _ _
  refine if_neg fun hh => hho ?_
  have hf : 5 ≤ (trim (c :: m' ++ u)).length := by
    have := congrArg List.length hh
    rw [length_map, length_take] at this
    change min 5 _ = 5 at this
    omega
  have htw := congrArg (List.take 2) hh
  rw [← map_take, take_take, prefix_iff_eq_take.mp ht, take_take,
    Nat.min_eq_left (show min 2 5 ≤ _ by omega), show min 2 5 = 2 from rfl, take_append_of_le_length hl] at htw
  exact htw

variable {k : ℕ}

variable (head : RequestHead) (rest : List Byte)

theorem mem_toUtf8_ascii (hb : b.toNat < 128) (h : b ∈ toUtf8 t) : ∃ c ∈ t, c.toNat = b.toNat := by
  obtain ⟨front, back, hs⟩ := append_of_mem h
  obtain ⟨t, c, u, rfl, -, -, hc⟩ := ascii_split hb hs
  exact ⟨c, by simp, hc⟩

theorem Field.encode_inLine (f : Field) : InLine f.encode := by
  have hn : ∀ b : Byte, b.toNat < 128 → WhiteSpace (Char.ofNat b.toNat) → b ∉ toUtf8 f.name := by
    intro b hb hs hm
    obtain ⟨c, hc, hna⟩ := mem_toUtf8_ascii hb hm
    rw [← hna, Char.ofNat_toNat] at hs
    exact (f.token c hc).1 hs
  constructor
  · exact not_mem_append (hn _ (by decide) (by decide)) (not_mem_cons_of_ne_of_not_mem (by decide) f.value_line.1)
  · exact not_mem_append (hn _ (by decide) (by decide)) (not_mem_cons_of_ne_of_not_mem (by decide) f.value_line.2)

theorem RequestHead.lines_inLine : ∀ line ∈ head.lines, line ≠ [] ∧ InLine line := by
  intro line hli
  rcases mem_cons.mp hli with rfl | hli
  · have hm := methods_inLine _ head.supported
    have hl := (methods_first _ head.supported).2
    refine ⟨ne_nil_of_length_pos (by rw [length_append]; omega), ?_, ?_⟩
    · exact not_mem_append hm.1 head.target_line.1
    · exact not_mem_append hm.2 head.target_line.2
  · obtain ⟨f, -, rfl⟩ := mem_map.mp hli
    exact ⟨by simp [Field.encode], f.encode_inLine⟩

theorem RequestHead.method_prefix : toUtf8 head.method <+: head.encode := by
  rw [RequestHead.encode, RequestHead.lines, flatMap_cons, append_assoc, append_assoc, append_assoc]
  exact prefix_append _ _

theorem RequestHead.first_ne : (head.encode ++ rest).take 1 ≠ [0x16] := by
  obtain ⟨tail, ht⟩ := head.method_prefix
  rw [← ht, append_assoc, take_append_of_le_length (methods_first _ head.supported).2]
  exact (methods_first _ head.supported).1

variable {head rest}

theorem sniffRequiredLen_http (hpo : 0 < k) (hk : k ≤ (head.encode ++ rest).length) : sniffRequiredLen ((head.encode ++ rest).take k) =
      if crlf ++ crlf <:+: (head.encode ++ rest).take k then k else maxClientHelloSize := by
  have hl := length_take_of_le hk
  have hf : ((head.encode ++ rest).take k).take 1 ≠ [0x16] := by
    rw [take_take, Nat.min_eq_left hpo]
    exact head.first_ne rest
  have hpr : isHttpRequestPrefix ((head.encode ++ rest).take k) = true := by
    refine any_eq_true.mpr ⟨_, mem_map_of_mem head.supported, ?_⟩
    rw [Bool.or_eq_true, isPrefixOf_iff_prefix, isPrefixOf_iff_prefix]
    exact prefix_or_prefix_of_prefix ( take_prefix _ _) (head.method_prefix.trans (prefix_append _ _))
  rw [sniffRequiredLen, if_neg (ne_nil_of_length_pos (by omega)), if_neg hf, if_pos hpr, hl]

theorem not_blank_before (hk : k < head.encode.length) : ¬ crlf ++ crlf <:+: (head.encode ++ rest).take k := by
  rw [take_append_of_le_length hk.le]
  rintro ⟨a, b, hs⟩
  have hw : head.encode = a ++ (crlf ++ crlf) ++ (b ++ head.encode.drop k) := by rw [← append_assoc, hs, take_append_drop]
  have he := blank_line_last (fun line hl => ⟨(head.lines_inLine line hl).1, (head.lines_inLine line hl).2.1⟩) hw
  have hd := drop_eq_nil_iff.mp (append_eq_nil_iff.mp he).2
  omega

variable {more : List Byte}

theorem parseHttpHost_head (hho : head.host lower = some host) :
    parseHttpHost lower (head.encode ++ more) = some host ↔ (fromUtf8 (head.encode ++ more)).isSome = true := by
  rw [parseHttpHost]
  cases hte : fromUtf8 (head.encode ++ more) with
  | none => simp
  | some text =>
    have hb := (fromUtf8_eq_some_iff.mp hte).symm
    rw [RequestHead.encode, append_assoc] at hb
    obtain ⟨texts, tail, rfl, ht⟩ := text_lines hb
    obtain ⟨t, fields, rfl, hl, hf⟩ := map_eq_cons_iff.mp ht
    have hm := method_prefix head.supported hl
    have hn : ∀ t' ∈ t :: fields, '\n' ∉ t' := by
      intro t' ht' hme
      have hin := (head.lines_inLine (toUtf8 t') (ht ▸ mem_map_of_mem ht')).2.2
      exact hin (mem_map.mpr ⟨0x0A, mem_flatMap.mpr ⟨'\n', hme, by decide⟩, rfl⟩)
    have hh : fields.findSome? (lineHost lower) = some host := (findSome?_lineHost lower hf).trans hho
    have hpr : head.method <+: (t :: fields).flatMap (· ++ ['\r', '\n']) ++ tail := by
      rw [flatMap_cons, append_assoc, append_assoc]
      exact hm.trans (prefix_append _ _)
    have ha : methods.any (·.isPrefixOf ((t :: fields).flatMap (· ++ ['\r', '\n']) ++ tail)) = true :=
      any_eq_true.mpr ⟨_, head.supported, isPrefixOf_iff_prefix.mpr hpr⟩
    rw [Option.bind_some, if_pos ha, linesFrom_texts hn, cons_append, findSome?_cons,
      lineHost_request lower head.supported hm, findSome?_append, hh]
    simp

theorem parseTlsSni_head : parseTlsSni lower (head.encode ++ more) = none := by
  rw [parseTlsSni, if_pos (head.first_ne more), ite_self]

theorem classify_buffered : (classify lower data).buffered = data := by
  rw [classify]
  split
  · rfl
  · split <;> rfl

def postHead : RequestHead :=
  ⟨"POST ".toList, toUtf8 "/ HTTP/1.1".toList, [⟨['H', 'o', 's', 't'], toUtf8 " A.b:80".toList, by decide,
    by simp [WhiteSpace], by decide +kernel⟩], by decide, by decide +kernel⟩

theorem postHead_host : postHead.host (List.map Char.toLower) = some "a.b".toList := by decide +kernel

end Honk.Sniffing
