import Honk.Lib.Sorted
import Honk.Lib.Result
import Honk.Routing.Router

namespace Honk.Routing

open Honk.Lib Honk.Lib.Sorted List

structure Engine where
  compiles : String → Except String Unit
  isMatch : String → String → Bool
  toLowercase : String → String
  trim : String → String
  toLowercase_ascii : ∀ s : String, (∀ c ∈ s.toList, c.toNat < 128 ∧ c.isUpper = false) → toLowercase s = s

inductive GeositeDomain where
  | full (value : String)
  | domain (value : String)
  | keyword (value : String)
  | regex (pattern : String)

/-- A keyword automaton is the list of its keywords. -/
structure GeositeMatcher where
  full : Finset String := ∅
  suffix : Finset String := ∅
  keywordAc : Option (List String) := none
  regex : List String := []

/-- A budget asked for before each alternative; `any` on a slice is the case of one that never ends. -/
def boundedAny {m : Type → Type} [Monad m] {α : Type} (live : m Bool) (matches? : α → m Bool) : List α → m Bool
  | [] => pure false
  | value :: values => do
    if ← live then
      if ← matches? value then pure true else boundedAny live matches? values
    else pure false

def orElse {m : Type → Type} [Monad m] (first second : m Bool) : m Bool := do
  if ← first then pure true else second

def lowercase (engine : Engine) (domain : String) : String :=
  if domain.toList.any fun c => c.isUpper || 128 ≤ c.toNat then engine.toLowercase domain else domain

def parentMatches (contains : String → Bool) : List Char → Bool
  | [] => false
  | c :: rest => if c = '.' then contains (String.ofList rest) || parentMatches contains rest else parentMatches contains rest

def suffixWalk (suffixes : Finset String) (lower : String) : Bool :=
  decide (lower ∈ suffixes) || parentMatches (fun d => decide (d ∈ suffixes)) lower.toList

namespace GeositeMatcher

def insert (engine : Engine) (matcher : GeositeMatcher) : GeositeDomain → GeositeMatcher
  | .full value => { matcher with full := Insert.insert (engine.toLowercase value) matcher.full }
  | .domain value => { matcher with suffix := Insert.insert (engine.toLowercase value) matcher.suffix }
  | .keyword _ => matcher
  | .regex pattern => { matcher with regex := matcher.regex ++ [pattern] }

def keywords (domains : List GeositeDomain) : List String := domains.filterMap fun
  | .keyword value => some value
  | _ => none

def build (engine : Engine) (domains : List GeositeDomain) : GeositeMatcher :=
  let matcher := domains.foldl (insert engine) {}
  if (keywords domains).isEmpty then matcher else { matcher with keywordAc := some (keywords domains) }

def matchesBounded {m : Type → Type} [Monad m] (engine : Engine) (live : m Bool) (matcher : GeositeMatcher) (domain lower : String) : m Bool :=
  if lower ∈ matcher.full then pure true
  else if !decide (matcher.suffix = ∅) && suffixWalk matcher.suffix lower then pure true
  else if matcher.keywordAc.any (fun keywords => keywords.any fun keyword => strContains domain keyword) then pure true
  else boundedAny live (fun pattern => pure (engine.isMatch pattern domain)) matcher.regex

end GeositeMatcher

def GeositeMatcher.matches (engine : Engine) (matcher : GeositeMatcher) (domain : String) : Bool :=
  Id.run (matcher.matchesBounded engine (pure true) domain (lowercase engine domain))

abbrev DomainMatcherKey := List (ℕ ×ₗ String)

structure DomainMatcher where
  patterns : List String
  suffixes : List String
  keywords : List String
  geosite : List GeositeMatcher

def globChar (c : Char) : List Char :=
  if c = '*' then ['.', '*']
  else if c = '?' then ['.']
  else if c ∈ ['.', '+', '(', ')', '|', '^', '$', '{', '}', '[', ']', '\\'] then ['\\', c]
  else [c]

def globToRegex (pattern : String) : String := String.ofList ('^' :: pattern.toList.flatMap globChar ++ ['$'])

def GeositeDomain.keyEntry (engine : Engine) : GeositeDomain → ℕ ×ₗ String
  | .full value => toLex (3, engine.toLowercase value)
  | .domain value => toLex (4, engine.toLowercase value)
  | .keyword value => toLex (5, value)
  | .regex pattern => toLex (6, pattern)

/-- `str::ends_with` compares the bytes. -/
def strEndsWith (name suffix : String) : Bool := decide (asBytes suffix <:+ asBytes name)

namespace DomainMatcher

variable (engine : Engine)

def compilePattern (kind shown pattern : String) : Except String String :=
  match engine.compiles pattern with
  | .ok () => .ok pattern
  | .error error => .error ("Invalid " ++ kind ++ " '" ++ shown ++ "': " ++ error)

def key (patterns suffixes keywords : List String) (geosite : List GeositeDomain) : DomainMatcherKey :=
  sortDedup (patterns.map (fun pattern => toLex (0, pattern)) ++ suffixes.map (fun value => toLex (1, value)) ++
    keywords.map (fun value => toLex (2, value)) ++ geosite.map (GeositeDomain.keyEntry engine))

def new (domains suffixes keywords regexes : List String) (geosite : List GeositeDomain) (matchers : List GeositeMatcher) :
    Except String (DomainMatcherKey × DomainMatcher) := do
  let compiled ← regexes.mapM fun pattern => compilePattern engine "regex" pattern pattern
  let globs ← domains.mapM fun wildcard => compilePattern engine "pattern" wildcard (globToRegex wildcard)
  let patterns := compiled ++ globs
  return (key engine patterns suffixes keywords geosite, ⟨patterns, suffixes, keywords, matchers⟩)

def matchesBounded {m : Type → Type} [Monad m] (engine : Engine) (live : m Bool) (matcher : DomainMatcher) (domain : String) : m Bool :=
  orElse (boundedAny live (fun pattern => pure (engine.isMatch pattern domain)) matcher.patterns) <|
  orElse (boundedAny live (fun suffix => pure (strEndsWith domain suffix)) matcher.suffixes) <|
  orElse (boundedAny live (fun keyword => pure (strContains domain keyword)) matcher.keywords) <|
  if matcher.geosite.isEmpty then pure false
  else boundedAny live (fun geosite => geosite.matchesBounded engine live domain (lowercase engine domain)) matcher.geosite

end DomainMatcher

variable (engine : Engine)

def DomainMatcher.matches (matcher : DomainMatcher) (domain : String) : Bool :=
  Id.run (matcher.matchesBounded engine (pure true) domain)

def selector (code : String) : String := engine.toLowercase (engine.trim code)

structure SharedMatchers where
  known : String → Option GeositeMatcher := fun _ => none

def SharedMatchers.geosite (shared : SharedMatchers) (code : String) (domains : List GeositeDomain) :
    GeositeMatcher × SharedMatchers :=
  match shared.known (selector engine code) with
  | some matcher => (matcher, shared)
  | none => (.build engine domains, ⟨Function.update shared.known (selector engine code) (some (.build engine domains))⟩)

structure DomainFields where
  domain : List String := []
  domainSuffix : List String := []
  domainKeyword : List String := []
  domainRegex : List String := []
  geosite : List String := []

def DomainFields.isEmpty (fields : DomainFields) : Bool :=
  fields.domain.isEmpty && fields.domainSuffix.isEmpty && fields.domainKeyword.isEmpty && fields.domainRegex.isEmpty &&
    fields.geosite.isEmpty

def expandGeosites (engine : Engine) (assets : String → List GeositeDomain) :
    List String → SharedMatchers → (List GeositeDomain × List GeositeMatcher) × SharedMatchers
  | [], shared => (([], []), shared)
  | code :: codes, shared =>
    let selected := assets (selector engine code)
    let (matcher, shared) := shared.geosite engine code selected
    let ((domains, matchers), shared) := expandGeosites engine assets codes shared
    ((selected ++ domains, matcher :: matchers), shared)

def compileDomain (assets : String → List GeositeDomain) (fields : DomainFields) (shared : SharedMatchers) :
    Except String ((DomainMatcherKey × DomainMatcher) × SharedMatchers) :=
  let ((geosite, matchers), shared) := expandGeosites engine assets fields.geosite shared
  (DomainMatcher.new engine fields.domain fields.domainSuffix fields.domainKeyword fields.domainRegex geosite matchers).map (·, shared)

def DotAligned (suffix name : String) : Prop := name = suffix ∨ ∃ head : List Char, name.toList = head ++ '.' :: suffix.toList

def GeositeDomain.Accepts (name : String) : GeositeDomain → Prop
  | .full value => engine.toLowercase name = engine.toLowercase value
  | .domain value => DotAligned (engine.toLowercase value) (engine.toLowercase name)
  | .keyword value => asBytes value <:+: asBytes name
  | .regex pattern => engine.isMatch pattern name = true

@[simp]
theorem run_boundedAny {α : Type} {f : α → Id Bool} {xs : List α} :
    Id.run (boundedAny (pure true) f xs) = xs.any fun x => Id.run (f x) := by
  induction xs with
  | nil => rfl
  | cons x xs ih =>
    rw [any_cons, ← ih]
    cases hx : Id.run (f x) with
    | true | false => simp [boundedAny, hx]

@[simp]
theorem run_orElse (first second : Id Bool) : Id.run (orElse first second) = (Id.run first || Id.run second) := by
  cases hf : Id.run first with
  | true | false => simp [orElse, hf]

theorem lowercase_eq : lowercase engine domain = engine.toLowercase domain := by
  unfold lowercase
  split
  · rfl
  rename_i hpl
  refine (engine.toLowercase_ascii domain fun c hc => ?_).symm
  have := mt any_eq_true.mpr hpl
  simp only [Bool.or_eq_true, decide_eq_true_eq, not_exists, not_and, not_or, not_le] at this
  exact ⟨(this c hc).2, by simpa using (this c hc).1⟩

theorem parentMatches_iff (contains : String → Bool) (name : List Char) :
    parentMatches contains name = true ↔ ∃ head suffix, name = head ++ '.' :: suffix ∧ contains (String.ofList suffix) = true := by
  induction name with
  | nil => simp [parentMatches]
  | cons c rest ih =>
    rw [parentMatches]
    constructor
    · intro h
      split at h
      · rename_i hd
        obtain hr | hr := Bool.or_eq_true_iff.mp h
        · exact ⟨[], rest, by rw [hd]; rfl, hr⟩
        · obtain ⟨head, suffix, rfl, hs⟩ := ih.mp hr
          exact ⟨c :: head, suffix, rfl, hs⟩
      · obtain ⟨head, suffix, rfl, hs⟩ := ih.mp h
        exact ⟨c :: head, suffix, rfl, hs⟩
    rintro ⟨head, suffix, he, hs⟩
    cases head with
    | nil =>
      obtain ⟨rfl, rfl⟩ := List.cons.inj he
      simp [hs]
    | cons first head =>
      obtain ⟨rfl, rfl⟩ := List.cons.inj he
      have hr := ih.mpr ⟨head, suffix, rfl, hs⟩
      split
      · rw [hr, Bool.or_true]
      · exact hr

theorem suffixWalk_iff (suffixes : Finset String) (lower : String) :
    suffixWalk suffixes lower = true ↔ ∃ suffix ∈ suffixes, DotAligned suffix lower := by
  rw [suffixWalk, Bool.or_eq_true, decide_eq_true_eq, parentMatches_iff]
  constructor
  · rintro (hm | ⟨head, suffix, he, hm⟩)
    · exact ⟨lower, hm, .inl rfl⟩
    · exact ⟨_, of_decide_eq_true hm, .inr ⟨head, by rw [he, String.toList_ofList]⟩⟩
  rintro ⟨suffix, hm, rfl | ⟨head, he⟩⟩
  · exact .inl hm
  · exact .inr ⟨head, suffix.toList, he, by rw [String.ofList_toList]; exact decide_eq_true hm⟩

namespace GeositeMatcher

variable (domains : List GeositeDomain) (matcher : GeositeMatcher)

theorem foldl_insert : (∀ x, x ∈ (domains.foldl (insert engine) matcher).full ↔
      x ∈ matcher.full ∨ ∃ value, GeositeDomain.full value ∈ domains ∧ x = engine.toLowercase value) ∧
    (∀ x, x ∈ (domains.foldl (insert engine) matcher).suffix ↔
      x ∈ matcher.suffix ∨ ∃ value, GeositeDomain.domain value ∈ domains ∧ x = engine.toLowercase value) ∧
    (∀ x, x ∈ (domains.foldl (insert engine) matcher).regex ↔ x ∈ matcher.regex ∨ GeositeDomain.regex x ∈ domains) ∧
    (domains.foldl (insert engine) matcher).keywordAc = matcher.keywordAc := by
  induction domains generalizing matcher with
  | nil => simp
  | cons domain domains ih =>
    rw [foldl_cons]
    obtain ⟨hf, hs, hr, hk⟩ := ih (insert engine matcher domain)
    refine ⟨fun x => ?_, fun x => ?_, fun x => ?_, ?_⟩
    · rw [hf]
      cases domain <;> grind [insert]
    · rw [hs]
      cases domain <;> grind [insert]
    · rw [hr]
      cases domain <;> grind [insert]
    · rw [hk]
      cases domain <;> rfl

theorem mem_keywords {domains : List GeositeDomain} {value : String} : value ∈ keywords domains ↔ GeositeDomain.keyword value ∈ domains := by
  rw [keywords, mem_filterMap]
  constructor
  · rintro ⟨domain, hm, he⟩
    cases domain with
    | keyword text => exact Option.some.inj he ▸ hm
    | full _ | domain _ | regex _ => cases he
  · exact fun hm => ⟨_, hm, rfl⟩

theorem matches_iff (name : String) : matcher.matches engine name = true ↔ engine.toLowercase name ∈ matcher.full ∨
      (∃ suffix ∈ matcher.suffix, DotAligned suffix (engine.toLowercase name)) ∨
      (∃ keywords ∈ matcher.keywordAc, ∃ keyword ∈ keywords, asBytes keyword <:+: asBytes name) ∨
      ∃ pattern ∈ matcher.regex, engine.isMatch pattern name = true := by
  have hw : (!decide (matcher.suffix = ∅) && suffixWalk matcher.suffix (engine.toLowercase name)) = true ↔
      ∃ suffix ∈ matcher.suffix, DotAligned suffix (engine.toLowercase name) := by
    rw [Bool.and_eq_true, suffixWalk_iff]
    refine ⟨And.right, fun h => ⟨?_, h⟩⟩
    obtain ⟨suffix, hm, -⟩ := h
    simpa using Finset.ne_empty_of_mem hm
  have hk : matcher.keywordAc.any (fun keywords => keywords.any fun keyword => strContains name keyword) = true ↔
      ∃ keywords ∈ matcher.keywordAc, ∃ keyword ∈ keywords, asBytes keyword <:+: asBytes name := by
    simp [Option.any_eq_true, strContains]
  rw [GeositeMatcher.matches, matchesBounded, lowercase_eq, ← hw, ← hk]
  split
  · simp [*]
  split
  · simp [*]
  split
  · simp [*]
  · simp [*]

theorem build_keywordAc : (build engine domains).keywordAc = if (keywords domains).isEmpty then none else some (keywords domains) := by
  unfold build
  split
  · exact (foldl_insert engine domains {}).2.2.2
  · rfl

theorem build_rest : (build engine domains).full = (domains.foldl (insert engine) {}).full ∧
    (build engine domains).suffix = (domains.foldl (insert engine) {}).suffix ∧
    (build engine domains).regex = (domains.foldl (insert engine) {}).regex := by
  unfold build
  split
  · exact ⟨rfl, rfl, rfl⟩
  · exact ⟨rfl, rfl, rfl⟩

theorem matches_build_iff (name : String) :
    (build engine domains).matches engine name = true ↔ ∃ domain ∈ domains, domain.Accepts engine name := by
  obtain ⟨hf, hs, hr, -⟩ := foldl_insert engine domains {}
  obtain ⟨hf', hs', hr'⟩ := build_rest engine domains
  have hk : (∃ keywords ∈ (build engine domains).keywordAc, ∃ keyword ∈ keywords, asBytes keyword <:+: asBytes name) ↔
      ∃ keyword, GeositeDomain.keyword keyword ∈ domains ∧ asBytes keyword <:+: asBytes name := by
    rw [build_keywordAc]
    split
    · rename_i he
      have hn : ∀ keyword, GeositeDomain.keyword keyword ∉ domains := by
        intro keyword hme
        have := mem_keywords.mpr hme
        rw [List.isEmpty_iff.mp he] at this
        cases this
      simp [hn]
    · simp [mem_keywords]
  rw [matches_iff, hk, hf', hs', hr', hf]
  simp only [hs, hr, Finset.notMem_empty, not_mem_nil, false_or]
  constructor
  · rintro (⟨value, hme, heq⟩ | ⟨_, ⟨value, hme, rfl⟩, hal⟩ | ⟨keyword, hme, hc⟩ | ⟨pattern, hme, hm⟩)
    · exact ⟨_, hme, heq⟩
    · exact ⟨_, hme, hal⟩
    · exact ⟨_, hme, hc⟩
    · exact ⟨_, hme, hm⟩
  rintro ⟨domain, hme, ha⟩
  cases domain with
  | full value => exact .inl ⟨value, hme, ha⟩
  | domain value => exact .inr (.inl ⟨_, ⟨value, hme, rfl⟩, ha⟩)
  | keyword value => exact .inr (.inr (.inl ⟨value, hme, ha⟩))
  | regex pattern => exact .inr (.inr (.inr ⟨pattern, hme, ha⟩))

end GeositeMatcher

variable (assets : String → List GeositeDomain)

def DomainFields.Accepts (fields : DomainFields) (name : String) : Prop :=
  (∃ pattern ∈ fields.domainRegex, engine.isMatch pattern name = true) ∨
  (∃ wildcard ∈ fields.domain, engine.isMatch (globToRegex wildcard) name = true) ∨
  (∃ suffix ∈ fields.domainSuffix, asBytes suffix <:+ asBytes name) ∨
  (∃ keyword ∈ fields.domainKeyword, asBytes keyword <:+: asBytes name) ∨
  ∃ code ∈ fields.geosite, ∃ domain ∈ assets (selector engine code), domain.Accepts engine name

def EntryAccepts (name : String) (entry : ℕ ×ₗ String) : Prop :=
  match ofLex entry with
  | (0, pattern) => engine.isMatch pattern name = true
  | (1, suffix) => asBytes suffix <:+ asBytes name
  | (2, keyword) => asBytes keyword <:+: asBytes name
  | (3, value) => engine.toLowercase name = value
  | (4, value) => DotAligned value (engine.toLowercase name)
  | (5, value) => asBytes value <:+: asBytes name
  | (6, pattern) => engine.isMatch pattern name = true
  | _ => False

theorem entryAccepts_keyEntry (domain : GeositeDomain) :
    EntryAccepts engine name (domain.keyEntry engine) ↔ domain.Accepts engine name := by
  cases domain <;> rfl

def SharedMatchers.Sound (shared : SharedMatchers) : Prop :=
  ∀ key matcher, shared.known key = some matcher → matcher = .build engine (assets key)

variable {engine} {assets : String → List GeositeDomain}

theorem SharedMatchers.Sound.geosite {shared : SharedMatchers} (h : shared.Sound engine assets) (code : String) :
    (shared.geosite engine code (assets (selector engine code))).1 = .build engine (assets (selector engine code)) ∧
      (shared.geosite engine code (assets (selector engine code))).2.Sound engine assets := by
  unfold SharedMatchers.geosite
  split
  · rename_i matcher hk
    exact ⟨h _ matcher hk, h⟩
  refine ⟨rfl, fun key matcher hk => ?_⟩
  dsimp only at hk
  obtain rfl | hn := eq_or_ne key (selector engine code)
  · rw [Function.update_self] at hk
    exact (Option.some.inj hk).symm
  · rw [Function.update_of_ne hn] at hk
    exact h key matcher hk

theorem SharedMatchers.Sound.expandGeosites {shared : SharedMatchers} (h : shared.Sound engine assets) (codes : List String) :
    (expandGeosites engine assets codes shared).1 =
      (codes.flatMap fun code => assets (selector engine code), codes.map fun code => .build engine (assets (selector engine code))) ∧
    (expandGeosites engine assets codes shared).2.Sound engine assets := by
  induction codes generalizing shared with
  | nil => exact ⟨rfl, h⟩
  | cons code codes ih =>
    obtain ⟨hm, hs⟩ := h.geosite code
    obtain ⟨hr, hs'⟩ := ih hs
    rw [Routing.expandGeosites]
    exact ⟨by simp [hr, hm], hs'⟩

theorem mapM_compilePattern {kind : String} {patterns compiled : List String}
    (h : patterns.mapM (fun pattern => DomainMatcher.compilePattern engine kind pattern (source pattern)) = .ok compiled) :
    compiled = patterns.map source := by
  have he : ∀ pattern result, DomainMatcher.compilePattern engine kind pattern (source pattern) = .ok result → source pattern = result := by
    intro pattern result hr
    rw [DomainMatcher.compilePattern] at hr
    split at hr <;> cases hr
    rfl
  have ha := forall₂_map_left_iff.mpr ((mapM_eq_ok.mp h).imp he)
  rw [forall₂_eq_eq_eq] at ha
  exact ha.symm

theorem DomainMatcher.matches_iff (matcher : DomainMatcher) (name : String) :
    matcher.matches engine name = true ↔ (∃ pattern ∈ matcher.patterns, engine.isMatch pattern name = true) ∨
      (∃ suffix ∈ matcher.suffixes, asBytes suffix <:+ asBytes name) ∨ (∃ keyword ∈ matcher.keywords, asBytes keyword <:+: asBytes name) ∨
      ∃ geosite ∈ matcher.geosite, geosite.matches engine name = true := by
  have hg : Id.run (if matcher.geosite.isEmpty then pure false else boundedAny (pure true)
      (fun geosite => geosite.matchesBounded engine (pure true) name (lowercase engine name)) matcher.geosite) =
      matcher.geosite.any fun geosite => geosite.matches engine name := by
    split
    · rename_i he
      rw [List.isEmpty_iff.mp he]
      rfl
    · exact run_boundedAny
  rw [DomainMatcher.matches, DomainMatcher.matchesBounded, run_orElse, run_orElse, run_orElse, hg]
  simp [strEndsWith, strContains]

theorem compileDomain_accepts {shared shared' : SharedMatchers} (hsh : shared.Sound engine assets) {fields : DomainFields}
    {key : DomainMatcherKey} {matcher : DomainMatcher} (h : compileDomain engine assets fields shared = .ok ((key, matcher), shared')) :
    shared'.Sound engine assets ∧ ∀ name, (matcher.matches engine name = true ↔ fields.Accepts engine assets name) ∧
      (matcher.matches engine name = true ↔ ∃ entry ∈ key, EntryAccepts engine name entry) := by
  obtain ⟨he, hs⟩ := hsh.expandGeosites fields.geosite
  unfold compileDomain at h
  generalize hr : expandGeosites engine assets fields.geosite shared = result at h he hs
  obtain ⟨⟨geosite, matchers⟩, rest⟩ := result
  cases he
  obtain ⟨made, hm, heq⟩ := map_eq_ok h
  cases heq
  simp only [DomainMatcher.new, bind_eq_ok] at hm
  obtain ⟨compiled, hc, globs, hg, hm⟩ := hm
  obtain ⟨rfl, rfl⟩ := Prod.mk.inj (Except.ok.inj hm)
  obtain rfl := mapM_compilePattern hc
  obtain rfl := mapM_compilePattern hg
  refine ⟨hs, fun name => ⟨?_, ?_⟩⟩
  · rw [DomainMatcher.matches_iff]
    simp only [DomainFields.Accepts, mem_append, mem_map, exists_eq_right, or_and_right, exists_or,
      exists_exists_and_eq_and, GeositeMatcher.matches_build_iff, or_assoc]
  rw [DomainMatcher.matches_iff]
  simp only [DomainMatcher.key, mem_sortDedup, mem_append, mem_map, exists_eq_right, or_and_right, exists_or,
    exists_exists_and_eq_and, GeositeMatcher.matches_build_iff, or_assoc, entryAccepts_keyEntry, mem_flatMap]
  refine or_congr Iff.rfl (or_congr Iff.rfl (or_congr Iff.rfl (or_congr Iff.rfl ⟨?_, ?_⟩)))
  · rintro ⟨code, hco, domain, hd, ha⟩
    exact ⟨domain, ⟨code, hco, hd⟩, ha⟩
  · rintro ⟨domain, ⟨code, hco, hd⟩, ha⟩
    exact ⟨code, hco, domain, hd, ha⟩

end Honk.Routing
