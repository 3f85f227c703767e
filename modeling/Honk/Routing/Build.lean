import Honk.Routing.Domain

namespace Honk.Routing

open Honk.Lib Honk.Lib.Sorted
open List hiding Vector

structure DomainRegistry where
  keys : List DomainMatcherKey := []
  matchers : List DomainMatcher := []
  length_eq : keys.length = matchers.length := by rfl
  bounded : matchers.length ≤ routingFactCapacity := by decide

def DomainRegistry.intern (registry : DomainRegistry) (key : DomainMatcherKey) (matcher : DomainMatcher) : Except String (ℕ × DomainRegistry) :=
  match registry.keys.findIdx? fun candidate => candidate == key with
  | some id => .ok (id, registry)
  | none =>
    if h : registry.matchers.length < routingFactCapacity then
      .ok (registry.matchers.length,
        { keys := registry.keys ++ [key]
          matchers := registry.matchers ++ [matcher]
          length_eq := by simp [registry.length_eq]
          bounded := by simpa using h })
    else .error ("routing policy has more than " ++ toString routingFactCapacity ++ " domain predicates")

/-- A configured rule. `domains` are the `domain(...)` arguments, positive and negated; `rest` the other conditions. -/
structure RoutingRule (C : Type) where
  name : String
  domains : Bool → DomainFields
  rest : C
  outbound : String
  priority : BitVec 32
  must : Bool
  mark : BitVec 32

structure RoutingConfig (C : Type) where
  rules : List (RoutingRule C)
  defaultOutbound : String
  defaultMust : Bool
  defaultMark : BitVec 32

structure Setting (C : Type) where
  engine : Engine
  assets : String → List GeositeDomain
  otherConditions : C → Bool → Except String (List CompiledCondition)
  clashRuleParts : RoutingRule C → Option (String × String)
  matchers : MatcherPtr → IpMatcher
  fingerprint : List CompiledRoute → List DomainMatcherKey → RouteAction → Vector Byte 32

inductive BuildError where
  | message (text : String)
  | panic

structure IndexedRouter extends Router where
  directMarks : List (BitVec 32)

def DirectMark.new (mark : BitVec 32) : Option DirectMark := if h : mark ≠ 0 then some ⟨mark, h⟩ else none

def RouteAction.isTerminalDirectMark (action : RouteAction) : Bool := action.must && action.outbound == "direct" && action.mark.isSome

structure BuildState where
  registry : DomainRegistry := {}
  shared : SharedMatchers := {}

section

variable {C : Type} (setting : Setting C)

def domainConditions (not : Bool) (fields : DomainFields) (st : BuildState) : Except String (List CompiledCondition × BuildState) :=
  if fields.isEmpty then .ok ([], st)
  else do
    let ((key, matcher), shared) ← compileDomain setting.engine setting.assets fields st.shared
    let (id, registry) ← st.registry.intern key matcher
    return ([⟨not, .domain id⟩], ⟨registry, shared⟩)

def appendConditions (not : Bool) (rule : RoutingRule C) (st : BuildState) : Except String (List CompiledCondition × BuildState) := do
  let (domains, st) ← domainConditions setting not (rule.domains not) st
  let rest ← setting.otherConditions rule.rest not
  return (domains ++ rest, st)

def compileRule (sourceIndex : ℕ) (rule : RoutingRule C) (st : BuildState) : Except String (CompiledRoute × BuildState) := do
  let (positive, st) ← appendConditions setting false rule st
  let (negated, st) ← appendConditions setting true rule st
  let (ruleType, rulePayload) := (setting.clashRuleParts rule).getD ("Match", "")
  return ({ id := BitVec.ofNat 32 sourceIndex
            name := rule.name
            ruleType
            rulePayload
            conditions := positive ++ negated
            action := ⟨rule.outbound, rule.must, DirectMark.new rule.mark, none⟩ }, st)

def compileRules : ℕ → List (RoutingRule C) → BuildState → Except String (List (BitVec 32 × CompiledRoute) × BuildState)
  | _, [], st => .ok ([], st)
  | sourceIndex, rule :: rules, st => do
    let (route, st) ← compileRule setting sourceIndex rule st
    let (routes, st) ← compileRules (sourceIndex + 1) rules st
    return ((rule.priority, route) :: routes, st)

def orderRoutes (compiled : List (BitVec 32 × CompiledRoute)) : List CompiledRoute :=
  ((compiled.insertionSort fun a b => a.1 ≤ b.1).map Prod.snd).zipIdx.map fun entry => { entry.1 with id := BitVec.ofNat 32 entry.2 }

def directMarkTable (actions : List RouteAction) : List (BitVec 32) :=
  sortDedup ((actions.filter RouteAction.isTerminalDirectMark).filterMap fun action => action.mark.map Subtype.val)

def indexFor (directMarks : List (BitVec 32)) (action : RouteAction) : Except BuildError RouteAction :=
  if action.isTerminalDirectMark then
    match action.mark.bind fun mark => binarySearch directMarks mark.1 with
    | some index => .ok { action with directMarkIndex := some (BitVec.ofNat 8 index) }
    | none => .error .panic
  else .ok action

def indexRoute (directMarks : List (BitVec 32)) (route : CompiledRoute) : Except BuildError CompiledRoute :=
  (indexFor directMarks route.action).map fun action => { route with action }

def build (rules : List (RoutingRule C)) (fallback : RouteAction) (shared : SharedMatchers) : Except BuildError IndexedRouter := do
  let (compiled, st) ← (compileRules setting 0 rules { shared }).mapError .message
  let routes := orderRoutes compiled
  let directMarks := directMarkTable (routes.map CompiledRoute.action ++ [fallback])
  if 256 < directMarks.length then
    .error (.message ("terminal direct mark capacity exceeded (" ++ toString directMarks.length ++ " > 256 distinct nonzero marks)"))
  else do
    let routes ← routes.mapM (indexRoute directMarks)
    let fallback ← indexFor directMarks fallback
    return { matchers := setting.matchers
             routes
             fallback
             domainMatchers := st.registry.matchers.map (DomainMatcher.matches setting.engine)
             policyFingerprint := setting.fingerprint routes st.registry.keys fallback
             directMarks }

def fromConfigSharing (routing : RoutingConfig C) (shared : SharedMatchers) : Except BuildError IndexedRouter :=
  build setting routing.rules ⟨routing.defaultOutbound, routing.defaultMust, DirectMark.new routing.defaultMark, none⟩ shared

end

def IndexedRouter.directMark (router : IndexedRouter) (index : Byte) : Option (BitVec 32) := router.directMarks[index.toNat]?

/-- One word of the bitmap gets its bit; `none` is an index out of bounds. -/
def DomainRouting.set (routing : DomainRouting) (id : ℕ) : Option DomainRouting :=
  (routing.bitmap[id / 32]?).map fun word => ⟨routing.bitmap.setIfInBounds (id / 32) (word ||| 1#32 <<< (id % 32))⟩

/-- The inner `none` is the answer of a policy without domain predicates. -/
def Router.domainBitmap (router : Router) (domain : String) : Option (Option DomainRouting) :=
  if router.domainMatchers.isEmpty then some none
  else (router.domainMatchers.zipIdx.foldlM (fun (bitmap : DomainRouting) (entry : (String → Bool) × ℕ) =>
    if entry.1 domain then bitmap.set entry.2 else some bitmap) .zero).map some

def plainEngine : Engine where
  compiles _ := .ok ()
  isMatch pattern name := pattern == name
  toLowercase := id
  trim := id
  toLowercase_ascii _ _ := rfl

def plainSetting : Setting Unit where
  engine := plainEngine
  assets _ := []
  otherConditions _ _ := .ok []
  clashRuleParts _ := none
  matchers _ := .new []
  fingerprint _ _ _ := Vector.replicate 32 0

variable {C : Type} {setting : Setting C}

def Indexed (directMarks : List (BitVec 32)) (action : RouteAction) : Prop :=
  (action.isTerminalDirectMark = true → ∃ index mark, action.directMarkIndex = some index ∧ action.mark = some mark ∧
    directMarks[index.toNat]? = some mark.1) ∧
  (action.isTerminalDirectMark = false → action.directMarkIndex = none)

theorem mem_directMarkTable (h : action ∈ actions) (ht : action.isTerminalDirectMark = true)
    (hm : action.mark = some mark) : mark.1 ∈ directMarkTable actions := by
  rw [directMarkTable, mem_sortDedup, mem_filterMap]
  exact ⟨action, mem_filter.mpr ⟨h, ht⟩, by rw [hm]; rfl⟩

theorem indexFor_of_mem (h : action ∈ actions) (hn : action.directMarkIndex = none) :
    ∃ indexed, indexFor (directMarkTable actions) action = .ok indexed ∧
      ((directMarkTable actions).length ≤ 256 → Indexed (directMarkTable actions) indexed) := by
  unfold indexFor
  cases ht : action.isTerminalDirectMark with
  | false => exact ⟨action, rfl, fun _ => ⟨fun h => (nomatch ht.symm.trans h), fun _ => hn⟩⟩
  | true =>
    obtain ⟨mark, hm⟩ : ∃ mark, action.mark = some mark := by
      rw [RouteAction.isTerminalDirectMark, Bool.and_eq_true] at ht
      exact Option.isSome_iff_exists.mp ht.2
    obtain ⟨k, hs, hk⟩ := binarySearch_of_mem (pairwise_sortDedup _) (mem_directMarkTable h ht hm)
    have hf : (action.mark.bind fun mark => binarySearch (directMarkTable actions) mark.1) = some k := by rw [hm]; exact hs
    rw [if_pos rfl, hf]
    refine ⟨_, rfl, fun hl => ⟨fun _ => ⟨BitVec.ofNat 8 k, mark, rfl, hm, ?_⟩, fun ho => ?_⟩⟩
    · have hlt := (List.getElem?_eq_some_iff.mp hk).1
      rw [BitVec.toNat_ofNat, Nat.mod_eq_of_lt (hlt.trans_le hl)]
      exact hk
    · exact nomatch ht.symm.trans ho

theorem compileRule_unindexed (h : compileRule setting sourceIndex rule st = .ok (route, st')) : route.action.directMarkIndex = none := by
  simp only [compileRule, bind_eq_ok] at h
  obtain ⟨_, -, _, -, h⟩ := h
  cases h
  rfl

theorem compileRules_unindexed
    (h : compileRules setting sourceIndex rules st = .ok (compiled, st')) : ∀ entry ∈ compiled, entry.2.action.directMarkIndex = none := by
  induction rules generalizing sourceIndex st compiled with
  | nil =>
    cases h
    exact nofun
  | cons rule rules ih =>
    simp only [compileRules, bind_eq_ok] at h
    obtain ⟨⟨route, st₁⟩, hr, ⟨routes, st₂⟩, hro, h⟩ := h
    cases h
    intro entry he
    obtain rfl | he := mem_cons.mp he
    · exact compileRule_unindexed hr
    · exact ih hro entry he

theorem orderRoutes_unindexed (h : ∀ entry ∈ compiled, entry.2.action.directMarkIndex = none) :
    ∀ route ∈ orderRoutes compiled, route.action.directMarkIndex = none := by
  intro route hr
  obtain ⟨entry, he, rfl⟩ := mem_map.mp hr
  have hm : entry.1 ∈ (compiled.insertionSort fun a b => a.1 ≤ b.1).map Prod.snd := by
    rw [(mem_zipIdx' he).2]
    exact getElem_mem _
  obtain ⟨source, hs, heq⟩ := mem_map.mp hm
  dsimp only
  rw [← heq]
  exact h source ((mem_insertionSort _).mp hs)

theorem build_indexed (setting : Setting C) (rules : List (RoutingRule C)) (shared : SharedMatchers)
    (hf : fallback.directMarkIndex = none) :
    build setting rules fallback shared ≠ .error .panic ∧ ∀ router, build setting rules fallback shared = .ok router →
      ∀ action ∈ router.routes.map CompiledRoute.action ++ [router.fallback], Indexed router.directMarks action := by
  unfold build
  cases hc : compileRules setting 0 rules { shared } with
  | error message => exact ⟨nofun, nofun⟩
  | ok result =>
    obtain ⟨compiled, st⟩ := result
    have hro := orderRoutes_unindexed (compileRules_unindexed hc)
    generalize hac : (orderRoutes compiled).map CompiledRoute.action ++ [fallback] = actions
    have hr : ∀ route ∈ orderRoutes compiled, ∃ indexed, indexFor (directMarkTable actions) route.action = .ok indexed ∧
        ((directMarkTable actions).length ≤ 256 → Indexed (directMarkTable actions) indexed) := by
      intro route hm
      refine indexFor_of_mem ?_ (hro route hm)
      rw [← hac]
      exact mem_append_left _ (mem_map_of_mem hm)
    obtain ⟨indexedFallback, hindexFallback, hindexedFallback⟩ : ∃ indexed, indexFor (directMarkTable actions) fallback = .ok indexed ∧
        ((directMarkTable actions).length ≤ 256 → Indexed (directMarkTable actions) indexed) := by
      refine indexFor_of_mem ?_ hf
      rw [← hac]
      exact mem_append_right _ (mem_singleton.mpr rfl)
    obtain ⟨routes, hma⟩ : ∃ routes, (orderRoutes compiled).mapM (indexRoute (directMarkTable actions)) = .ok routes := by
      cases hma : (orderRoutes compiled).mapM (indexRoute (directMarkTable actions)) with
      | ok routes => exact ⟨routes, rfl⟩
      | error e =>
        obtain ⟨route, hm, he⟩ := mapM_eq_error hma
        obtain ⟨indexed, hin, -⟩ := hr route hm
        rw [indexRoute, hin] at he
        cases he
    simp only [Except.mapError, hac, Except.bind, bind, hma, hindexFallback]
    split
    · exact ⟨nofun, nofun⟩
    rename_i hl
    refine ⟨nofun, fun router h action ha => ?_⟩
    cases h
    obtain ha | ha := mem_append.mp ha
    · obtain ⟨indexedRoute, hm, rfl⟩ := mem_map.mp ha
      obtain ⟨route, hs, hin⟩ := exists_of_mem_mapM hma hm
      obtain ⟨indexed, ho, hg⟩ := hr route hs
      rw [indexRoute, ho] at hin
      cases hin
      exact hg (not_lt.mp hl)
    · rw [mem_singleton.mp ha]
      exact hindexedFallback (not_lt.mp hl)

def DomainRegistry.Sound (engine : Engine) (registry : DomainRegistry) : Prop :=
  ∀ (i : ℕ) (key : DomainMatcherKey) (matcher : DomainMatcher), registry.keys[i]? = some key → registry.matchers[i]? = some matcher →
    ∀ name, matcher.matches engine name = true ↔ ∃ entry ∈ key, EntryAccepts engine name entry

def CompiledDomains (engine : Engine) (assets : String → List GeositeDomain) (registry : DomainRegistry) (not : Bool) (fields : DomainFields)
    (conditions : List CompiledCondition) : Prop :=
  fields.isEmpty = false → ∃ id matcher, ⟨not, .domain id⟩ ∈ conditions ∧ registry.matchers[id]? = some matcher ∧
    ∀ name, matcher.matches engine name = true ↔ fields.Accepts engine assets name

theorem getElem?_of_prefix {α : Type} {xs ys : List α} (h : xs <+: ys) {i : ℕ} {x : α} (hx : xs[i]? = some x) : ys[i]? = some x := by
  obtain ⟨rest, rfl⟩ := h
  rw [getElem?_append_left (List.getElem?_eq_some_iff.mp hx).1, hx]

theorem CompiledDomains.mono {engine : Engine} {assets : String → List GeositeDomain} {registry registry' : DomainRegistry} {not : Bool}
    {fields : DomainFields} {conditions conditions' : List CompiledCondition} (h : CompiledDomains engine assets registry not fields conditions)
    (hl : registry.matchers <+: registry'.matchers) (hs : ∀ condition ∈ conditions, condition ∈ conditions') :
    CompiledDomains engine assets registry' not fields conditions' := by
  intro hf
  obtain ⟨id, matcher, hme, hm, ha⟩ := h hf
  exact ⟨id, matcher, hs _ hme, getElem?_of_prefix hl hm, ha⟩

theorem DomainRegistry.Sound.intern {engine : Engine} {registry registry' : DomainRegistry} (hs : registry.Sound engine) {key : DomainMatcherKey}
    {matcher : DomainMatcher} (hm : ∀ name, matcher.matches engine name = true ↔ ∃ entry ∈ key, EntryAccepts engine name entry) {id : ℕ}
    (h : registry.intern key matcher = .ok (id, registry')) : registry'.Sound engine ∧ registry.matchers <+: registry'.matchers ∧
      ∃ found, registry'.matchers[id]? = some found ∧ ∀ name, found.matches engine name = true ↔ matcher.matches engine name = true := by
  unfold DomainRegistry.intern at h
  split at h
  · rename_i hf
    cases h
    obtain ⟨hl, he, -⟩ := findIdx?_eq_some_iff_getElem.mp hf
    have hk : registry.keys[id]? = some key := by rw [getElem?_eq_getElem hl, eq_of_beq he]
    have hl' : id < registry.matchers.length := registry.length_eq ▸ hl
    refine ⟨hs, prefix_refl _, registry.matchers[id], getElem?_eq_getElem hl', fun name => ?_⟩
    rw [hs id key _ hk (getElem?_eq_getElem hl'), hm]
  split at h
  · cases h
    refine ⟨fun i other found hk hf => ?_, prefix_append _ _, matcher, by simp, fun name => Iff.rfl⟩
    obtain hl | he | hg := lt_trichotomy i registry.matchers.length
    · rw [getElem?_append_left hl] at hf
      rw [getElem?_append_left (registry.length_eq ▸ hl)] at hk
      exact hs i other found hk hf
    · rw [he, getElem?_concat_length] at hf
      rw [he, ← registry.length_eq, getElem?_concat_length] at hk
      cases hf
      cases hk
      exact hm
    · rw [getElem?_eq_none (by simp; omega)] at hf
      cases hf
  · cases h

structure BuildState.Sound (setting : Setting C) (st : BuildState) : Prop where
  registry : st.registry.Sound setting.engine
  shared : st.shared.Sound setting.engine setting.assets

theorem domainConditions_sound {not : Bool} {fields : DomainFields} {st st' : BuildState} (hst : st.Sound setting)
    {conditions : List CompiledCondition} (h : domainConditions setting not fields st = .ok (conditions, st')) :
    st'.Sound setting ∧ st.registry.matchers <+: st'.registry.matchers ∧
      CompiledDomains setting.engine setting.assets st'.registry not fields conditions := by
  unfold domainConditions at h
  split at h
  · rename_i he
    cases h
    exact ⟨hst, prefix_refl _, fun hf => (nomatch he.symm.trans hf)⟩
  simp only [bind_eq_ok] at h
  obtain ⟨⟨⟨key, matcher⟩, shared⟩, hc, ⟨id, registry⟩, hin, h⟩ := h
  cases h
  obtain ⟨hs, ha⟩ := compileDomain_accepts hst.shared hc
  obtain ⟨hr, hl, found, hfo, hsa⟩ := hst.registry.intern (fun name => (ha name).2) hin
  exact ⟨⟨hr, hs⟩, hl, fun _ => ⟨id, found, mem_singleton.mpr rfl, hfo, fun name => (hsa name).trans (ha name).1⟩⟩

theorem appendConditions_sound {not : Bool} {rule : RoutingRule C} {st st' : BuildState} (hst : st.Sound setting)
    {conditions : List CompiledCondition} (h : appendConditions setting not rule st = .ok (conditions, st')) :
    st'.Sound setting ∧ st.registry.matchers <+: st'.registry.matchers ∧
      CompiledDomains setting.engine setting.assets st'.registry not (rule.domains not) conditions := by
  simp only [appendConditions, bind_eq_ok] at h
  obtain ⟨⟨domains, st₁⟩, hd, rest, -, h⟩ := h
  cases h
  obtain ⟨hs, hl, hc⟩ := domainConditions_sound hst hd
  exact ⟨hs, hl, hc.mono (prefix_refl _) fun _ => mem_append_left _⟩

theorem compileRule_sound {sourceIndex : ℕ} {rule : RoutingRule C} {st st' : BuildState} (hs : st.Sound setting) {route : CompiledRoute}
    (h : compileRule setting sourceIndex rule st = .ok (route, st')) : st'.Sound setting ∧ st.registry.matchers <+: st'.registry.matchers ∧
      ∀ not, CompiledDomains setting.engine setting.assets st'.registry not (rule.domains not) route.conditions := by
  simp only [compileRule, bind_eq_ok] at h
  obtain ⟨⟨positive, st₁⟩, hpo, ⟨negated, st₂⟩, hn, h⟩ := h
  cases h
  obtain ⟨hs₁, hl₁, hc₁⟩ := appendConditions_sound hs hpo
  obtain ⟨hs₂, hl₂, hc₂⟩ := appendConditions_sound hs₁ hn
  refine ⟨hs₂, hl₁.trans hl₂, fun not => ?_⟩
  cases not with
  | false => exact hc₁.mono hl₂ fun _ => mem_append_left _
  | true => exact hc₂.mono (prefix_refl _) fun _ => mem_append_right _

theorem compileRules_sound (hs : st.Sound setting) (h : compileRules setting sourceIndex rules st = .ok (compiled, st')) :
    st'.Sound setting ∧ st.registry.matchers <+: st'.registry.matchers ∧ ∀ rule ∈ rules, ∃ entry ∈ compiled, ∀ not,
      CompiledDomains setting.engine setting.assets st'.registry not (rule.domains not) entry.2.conditions := by
  induction rules generalizing sourceIndex st compiled with
  | nil =>
    cases h
    exact ⟨hs, prefix_refl _, nofun⟩
  | cons rule rules ih =>
    simp only [compileRules, bind_eq_ok] at h
    obtain ⟨⟨route, st₁⟩, hr, ⟨routes, st₂⟩, hro, h⟩ := h
    cases h
    obtain ⟨hs₁, hl₁, hc₁⟩ := compileRule_sound hs hr
    obtain ⟨hs₂, hl₂, hc₂⟩ := ih hs₁ hro
    refine ⟨hs₂, hl₁.trans hl₂, fun other ho => ?_⟩
    obtain rfl | ho := mem_cons.mp ho
    · exact ⟨_, mem_cons_self, fun not => (hc₁ not).mono hl₂ fun _ => id⟩
    · obtain ⟨entry, he, ha⟩ := hc₂ other ho
      exact ⟨entry, mem_cons_of_mem _ he, ha⟩

theorem set_eq_union (routing : DomainRouting) {id : ℕ} (h : id < routingFactCapacity) : routing.set id = some (routing.union (bitmapBit id)) := by
  have hid : id / 32 < 8 := by
    simp only [routingFactCapacity] at h
    omega
  rw [DomainRouting.set, Vector.getElem?_eq_getElem hid, Option.map_some, DomainRouting.union, bitmapBit]
  congr 2
  ext k hk
  rw [Vector.getElem_zipWith, Vector.getElem_setIfInBounds, Vector.getElem_setIfInBounds]
  split
  · simp [*]
  · simp

theorem foldlM_set (name : String) (matchers : List (String → Bool)) (start : ℕ) (bitmap : DomainRouting)
    (h : start + matchers.length ≤ routingFactCapacity) :
    ∃ result, (matchers.zipIdx start).foldlM (fun (bitmap : DomainRouting) (entry : (String → Bool) × ℕ) =>
        if entry.1 name then bitmap.set entry.2 else some bitmap) bitmap = some result ∧
      ∀ i, result.bit i = (bitmap.bit i || decide (start ≤ i) && (matchers[i - start]?).any fun accepts => accepts name) := by
  induction matchers generalizing start bitmap with
  | nil => exact ⟨bitmap, rfl, by simp⟩
  | cons accepts matchers ih =>
    rw [length_cons] at h
    obtain ⟨next, hn, hb⟩ : ∃ next, (if accepts name then bitmap.set start else some bitmap) = some next ∧
        ∀ i, next.bit i = (bitmap.bit i || decide (i = start) && accepts name) := by
      split
      · rename_i ha
        refine ⟨_, set_eq_union bitmap (by omega), fun i => ?_⟩
        rw [bit_union, bit_bitmapBit _ _ (by omega), ha, Bool.and_true]
      · rename_i hr
        exact ⟨bitmap, rfl, fun i => by simp [hr]⟩
    obtain ⟨result, hre, hrest⟩ := ih (start + 1) next (by omega)
    refine ⟨result, ?_, fun i => ?_⟩
    · rw [zipIdx_cons, foldlM_cons, hn]
      exact hre
    rw [hrest, hb]
    obtain hl | rfl | hg := lt_trichotomy i start
    · simp [hl.ne, not_le.mpr hl, not_le.mpr (hl.trans (Nat.lt_succ_self _))]
    · simp
    obtain ⟨k, rfl⟩ := Nat.exists_eq_add_of_lt hg
    have hold : start + k + 1 - start = k + 1 := by omega
    have hne : start + k + 1 - (start + 1) = k := by omega
    rw [hold, hne, getElem?_cons_succ]
    simp [show start ≤ start + k + 1 by omega, show start + k + 1 ≠ start by omega]

theorem domainBitmap_bits {router : Router} (h : router.domainMatchers.length ≤ routingFactCapacity) (name : String) :
    ∃ answer, router.domainBitmap name = some answer ∧ (answer = none ↔ router.domainMatchers = []) ∧
      ∀ bitmap, answer = some bitmap → ∀ i, bitmap.bit i = (router.domainMatchers[i]?).any fun accepts => accepts name := by
  unfold Router.domainBitmap
  cases he : router.domainMatchers.isEmpty with
  | true => exact ⟨none, rfl, by simpa using List.isEmpty_iff.mp he, nofun⟩
  | false =>
    obtain ⟨bitmap, hb, hbi⟩ := foldlM_set name router.domainMatchers 0 .zero (by omega)
    refine ⟨some bitmap, by rw [if_neg Bool.false_ne_true, hb]; rfl, by simpa using isEmpty_eq_false_iff.mp he, fun other ho i => ?_⟩
    cases ho
    rw [hbi, bit_zero]
    simp

theorem mem_orderRoutes (h : entry ∈ compiled) : ∃ route ∈ orderRoutes compiled, route.conditions = entry.2.conditions := by
  have hm : entry.2 ∈ (compiled.insertionSort fun a b => a.1 ≤ b.1).map Prod.snd := mem_map_of_mem ((mem_insertionSort _).mpr h)
  obtain ⟨k, hk⟩ := mem_iff_getElem?.mp hm
  exact ⟨_, mem_map_of_mem (mk_mem_zipIdx_iff_getElem?.mpr hk), rfl⟩

theorem build_parts
    (h : build setting rules fallback shared = .ok router) : ∃ compiled st, compileRules setting 0 rules { shared } = .ok (compiled, st) ∧
      router.domainMatchers = st.registry.matchers.map (DomainMatcher.matches setting.engine) ∧
      ∀ entry ∈ compiled, ∃ route ∈ router.routes, route.conditions = entry.2.conditions := by
  simp only [build, bind_eq_ok, mapError_eq_ok] at h
  obtain ⟨⟨compiled, st⟩, hc, h⟩ := h
  split at h
  · cases h
  simp only [bind_eq_ok] at h
  obtain ⟨routes, hr, indexedFallback, -, h⟩ := h
  cases h
  refine ⟨compiled, st, hc, rfl, fun entry he => ?_⟩
  obtain ⟨route, hro, heq⟩ := mem_orderRoutes he
  obtain ⟨indexed, hin, ho⟩ := exists_mapM_of_mem hr hro
  obtain ⟨action, -, rfl⟩ := map_eq_ok ho
  exact ⟨_, hin, heq⟩

def suffixConfig : RoutingConfig Unit where
  rules := [⟨"first", fun not => if not then {} else { domainSuffix := ["example.org"] }, (), "direct", 0, false, 0⟩,
    ⟨"second", fun not => if not then { domainSuffix := ["example.org"] } else {}, (), "block", 0, false, 0⟩]
  defaultOutbound := "direct"
  defaultMust := false
  defaultMark := 0

end Honk.Routing
