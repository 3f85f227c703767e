import Honk.Group.Graph

namespace Honk.Group

open List Relation

abbrev Known (groups : List Group) (name : String) : Prop := (groupsByName groups name).isSome

/-- A member edge to a group that exists. -/
def Edge (groups : List Group) (parent child : String) : Prop :=
  (∃ group, groupsByName groups parent = some group ∧ child ∈ group.groups) ∧ Known groups child

/-- The edges that are not cut, read from the member to the group. -/
def Remains (groups : List Group) (cuts : List (String × String)) (child parent : String) : Prop :=
  Edge groups parent child ∧ (parent, child) ∉ cuts

variable {groups groups' : List Group} {name child : String}

theorem known_iff : Known groups name ↔ name ∈ groups.map Group.name := by
  simp [Known, groupsByName, find?_isSome]

namespace CycleScan

variable {scan scan' scan'' : CycleScan}

abbrev Done (scan : CycleScan) (name : String) : Prop := scan.marks.lookup name = some .done

abbrev Visiting (scan : CycleScan) (name : String) : Prop := scan.marks.lookup name = some .visiting

/-- The marks at work: no cycle of uncut edges is reachable from a group that is done, and every cut edge closes a cycle. -/
structure Sound (groups : List Group) (scan : CycleScan) : Prop where
  done : ∀ {name}, scan.Done name → Acc (Remains groups scan.cuts) name
  cuts : ∀ {parent child}, (parent, child) ∈ scan.cuts → Edge groups parent child ∧ ReflTransGen (Edge groups) child parent

structure Extends (scan scan' : CycleScan) : Prop where
  marks : ∀ name, scan'.marks.lookup name = scan.marks.lookup name ∨
    scan.marks.lookup name = none ∧ scan'.Done name
  cuts : scan.cuts ⊆ scan'.cuts

theorem Extends.refl : Extends scan scan := ⟨fun _ => .inl rfl, Subset.refl _⟩

theorem Extends.trans (h : Extends scan scan') (h' : Extends scan' scan'') : Extends scan scan'' := by
  refine ⟨fun name => ?_, fun _ hm => h'.cuts (h.cuts hm)⟩
  rcases h.marks name with he | ⟨hn, hd⟩
  · rw [← he]
    exact h'.marks name
  rcases h'.marks name with he | ⟨hn', -⟩
  · exact .inr ⟨hn, he.trans hd⟩
  · cases hd.symm.trans hn'

theorem Extends.done (h : Extends scan scan') (hd : scan.Done name) : scan'.Done name := by
  rcases h.marks name with he | ⟨-, hd'⟩
  · exact he.trans hd
  · exact hd'

theorem Extends.visiting (h : Extends scan scan') (hv : scan'.Visiting name) : scan.Visiting name := by
  rcases h.marks name with he | ⟨-, hd⟩
  · exact he.symm.trans hv
  · cases hv.symm.trans hd

theorem lookup_mark (scan : CycleScan) (name : String) (mark : Mark) (other : String) :
    (scan.mark name mark).marks.lookup other = if other = name then some mark else scan.marks.lookup other := by
  rw [CycleScan.mark, lookup_cons]
  by_cases h : other = name
  · simp [h]
  · rw [beq_false_of_ne h, if_neg h]

def unmarked (groups : List Group) (scan : CycleScan) : Finset String :=
  (groups.map Group.name).toFinset.filter fun name => (scan.marks.lookup name).isNone

theorem Extends.unmarked (h : Extends scan scan') : scan'.unmarked groups ⊆ scan.unmarked groups := by
  intro name hm
  rw [CycleScan.unmarked, Finset.mem_filter, Option.isNone_iff_eq_none] at hm ⊢
  refine ⟨hm.1, ?_⟩
  rcases h.marks name with he | ⟨hn, -⟩
  · rw [← he, hm.2]
  · exact hn

theorem card_unmarked_mark (hn : scan.marks.lookup name = none) (hg : Known groups name) (mark : Mark) :
    ((scan.mark name mark).unmarked groups).card < (scan.unmarked groups).card := by
  apply Finset.card_lt_card
  refine ⟨fun other hm => ?_, fun hs => ?_⟩
  · simp only [unmarked, Finset.mem_filter, lookup_mark] at hm ⊢
    refine ⟨hm.1, ?_⟩
    by_cases he : other = name
    · simp [he] at hm
    · simpa [he] using hm.2
  have hm : name ∈ scan.unmarked groups := by
    simpa [unmarked, hn] using known_iff.mp hg
  simpa [unmarked, lookup_mark] using hs hm

theorem Sound.mark_visiting (h : Sound groups scan) : Sound groups (scan.mark name .visiting) := by
  refine ⟨fun {other} hd => h.done ?_, h.cuts⟩
  rw [Done, lookup_mark] at hd
  split at hd
  · cases hd
  · exact hd

theorem Sound.cut (h : Sound groups scan) (he : Edge groups name child) (hr : ReflTransGen (Edge groups) child name) :
    Sound groups { scan with cuts := scan.cuts ++ [(name, child)] } := by
  refine ⟨fun hd => Subrelation.accessible ?_ (h.done hd), fun hm => ?_⟩
  · exact fun hr => ⟨hr.1, fun hm => hr.2 (mem_append_left _ hm)⟩
  rcases mem_append.mp hm with hm | hm
  · exact h.cuts hm
  · cases mem_singleton.mp hm
    exact ⟨he, hr⟩

section

variable (groups : List Group)

/-- One turn of the loop over the members of `name`. -/
def follow (visit : String → CycleScan → CycleScan) (name : String) (scan : CycleScan) (child : String) : CycleScan :=
  if (groupsByName groups child).isNone then scan
  else
    match scan.marks.lookup child with
    | none => visit child scan
    | some .visiting => { scan with cuts := scan.cuts ++ [(name, child)] }
    | some .done => scan

/-- A visit is asked for a group that exists and has no mark, from groups that all lead to it. -/
structure Ready (fuel : ℕ) (name : String) (scan : CycleScan) : Prop where
  sound : Sound groups scan
  stack : ∀ {other}, scan.Visiting other → ReflTransGen (Edge groups) other name
  fresh : scan.marks.lookup name = none
  known : Known groups name
  fuel : (scan.unmarked groups).card ≤ fuel

structure Visited (name : String) (scan scan' : CycleScan) : Prop where
  sound : Sound groups scan'
  extend : Extends scan scan'
  done : scan'.Done name

/-- After the loop each member that exists is cut off or done. -/
structure Followed (name : String) (children : List String) (scan scan' : CycleScan) : Prop where
  sound : Sound groups scan'
  extend : Extends scan scan'
  settled : ∀ child ∈ children, Known groups child → (name, child) ∈ scan'.cuts ∨ scan'.Done child

end

section

variable {visit : String → CycleScan → CycleScan} {base : CycleScan}
  (hv : ∀ {child scan}, Ready groups fuel child scan → Visited groups child scan (visit child scan))
  (hb : ∀ {other}, base.Visiting other → ReflTransGen (Edge groups) other name) (hu : (base.unmarked groups).card ≤ fuel)

include hv hb hu

theorem followed_follow (he : Known groups child → Edge groups name child) (hs : Sound groups scan)
    (hx : Extends base scan) : Followed groups name [child] scan (follow groups visit name scan child) := by
  unfold follow
  split
  · rename_i hn
    refine ⟨hs, .refl, fun c hm hg => ?_⟩
    rw [mem_singleton.mp hm, Known, Option.isNone_iff_eq_none.mp hn] at hg
    cases hg
  rename_i hn
  have hg : Known groups child := by
    rwa [Known, ← Option.not_isNone, Bool.not_eq_true_eq_eq_false, ← Bool.not_eq_true]
  split
  · rename_i hf
    have hr : Ready groups fuel child scan :=
      ⟨hs, fun hv => (hb (hx.visiting hv)).tail (he hg), hf, hg, (Finset.card_le_card hx.unmarked).trans hu⟩
    exact ⟨(hv hr).sound, (hv hr).extend, fun c hm _ => .inr (mem_singleton.mp hm ▸ (hv hr).done)⟩
  · rename_i hf
    refine ⟨hs.cut (he hg) (hb (hx.visiting hf)), ⟨fun _ => .inl rfl, subset_append_left ..⟩, fun c hm _ => .inl ?_⟩
    rw [mem_singleton.mp hm]
    exact mem_append_right _ (mem_singleton_self _)
  · rename_i hd
    exact ⟨hs, .refl, fun c hm _ => .inr (mem_singleton.mp hm ▸ hd)⟩

theorem followed_foldl {children : List String} (he : ∀ child ∈ children, Known groups child → Edge groups name child)
    (hs : Sound groups scan) (hx : Extends base scan) :
    Followed groups name children scan (children.foldl (follow groups visit name) scan) := by
  induction children generalizing scan with
  | nil => exact ⟨hs, .refl, nofun⟩
  | cons child children ih =>
    have hc := followed_follow hv hb hu (he child mem_cons_self) hs hx
    have hr := ih (fun c hm => he c (mem_cons_of_mem _ hm)) hc.sound (hx.trans hc.extend)
    refine ⟨hr.sound, hc.extend.trans hr.extend, fun c hm hg => ?_⟩
    rcases mem_cons.mp hm with rfl | hm
    · exact (hc.settled c (mem_singleton_self c) hg).imp (hr.extend.cuts ·) hr.extend.done
    · exact hr.settled c hm hg

end

theorem visited_visit (h : Ready groups fuel name scan) : Visited groups name scan (scan.visit groups fuel name) := by
  induction fuel generalizing name scan with
  | zero =>
    have hm := card_unmarked_mark h.fresh h.known .done
    exact absurd (hm.trans_le h.fuel) (Nat.not_lt_zero _)
  | succ fuel ih =>
    obtain ⟨group, hg⟩ := Option.isSome_iff_exists.mp h.known
    have hb : ∀ {other}, (scan.mark name .visiting).Visiting other → ReflTransGen (Edge groups) other name := by
      intro other hv
      rw [Visiting, lookup_mark] at hv
      split at hv
      · rename_i he
        rw [he]
      · exact h.stack hv
    have hu := Nat.le_of_lt_succ ((card_unmarked_mark h.fresh h.known .visiting).trans_le h.fuel)
    have he : ∀ child ∈ group.groups, Known groups child → Edge groups name child := fun child hm hk => ⟨⟨group, hg, hm⟩, hk⟩
    obtain ⟨hs, hx, hc⟩ := followed_foldl (fun hr => ih hr) hb hu he h.sound.mark_visiting (.refl)
    have heq : scan.visit groups (fuel + 1) name =
        (group.groups.foldl (follow groups (fun child scan => scan.visit groups fuel child) name) (scan.mark name .visiting)).mark
          name .done := by
      rw [CycleScan.visit, hg]
      rfl
    rw [heq]
    generalize group.groups.foldl _ _ = scan' at hs hx hc
    have hse : Acc (Remains groups scan'.cuts) name := by
      constructor
      rintro child ⟨⟨⟨group', hg', hm⟩, hk⟩, hn⟩
      rw [hg] at hg'
      cases hg'
      exact hs.done ((hc child hm hk).resolve_left hn)
    refine ⟨⟨fun {other} hd => ?_, hs.cuts⟩, ⟨fun other => ?_, hx.cuts⟩, ?_⟩
    · rw [Done, lookup_mark] at hd
      split at hd
      · rename_i he
        rw [he]
        exact hse
      · exact hs.done hd
    · have hm := hx.marks other
      rw [Done, lookup_mark] at hm ⊢
      split
      · rename_i he
        rw [he]
        exact .inr ⟨h.fresh, rfl⟩
      · rename_i he
        rwa [if_neg he] at hm
    · rw [Done, lookup_mark, if_pos rfl]

/-- One turn of the loop over the names. -/
def start (groups : List Group) (scan : CycleScan) (name : String) : CycleScan :=
  if (scan.marks.lookup name).isSome then scan else scan.visit groups (groups.length + 1) name

theorem visited_start (hs : Sound groups scan) (hn : ∀ name, ¬ scan.Visiting name)
    (hk : Known groups name) : Visited groups name scan (scan.start groups name) := by
  unfold start
  split
  · rename_i hm
    obtain ⟨mark, hm⟩ := Option.isSome_iff_exists.mp hm
    cases mark with
    | visiting => exact absurd hm (hn name)
    | done => exact ⟨hs, .refl, hm⟩
  rename_i hm
  apply visited_visit
  refine ⟨hs, fun hv => absurd hv (hn _), Option.not_isSome_iff_eq_none.mp hm, hk, ?_⟩
  calc (scan.unmarked groups).card ≤ (groups.map Group.name).toFinset.card := Finset.card_filter_le ..
    _ ≤ groups.length := (toFinset_card_le _).trans_eq (length_map _)
    _ ≤ groups.length + 1 := Nat.le_succ _

theorem visited_starts {names : List String} (hs : Sound groups scan) (hn : ∀ name, ¬ scan.Visiting name)
    (hk : ∀ name ∈ names, Known groups name) :
    Sound groups (names.foldl (start groups) scan) ∧ Extends scan (names.foldl (start groups) scan) ∧
      ∀ name ∈ names, (names.foldl (start groups) scan).marks.lookup name = some .done := by
  induction names generalizing scan with
  | nil => exact ⟨hs, .refl, nofun⟩
  | cons name names ih =>
    have hv := visited_start hs hn (hk name mem_cons_self)
    obtain ⟨hs', hx, hd⟩ := ih hv.sound (fun other ho => hn other (hv.extend.visiting ho)) fun other hm => hk other (mem_cons_of_mem _ hm)
    refine ⟨hs', hv.extend.trans hx, fun other hm => ?_⟩
    rcases mem_cons.mp hm with rfl | hm
    · exact hx.done hv.done
    · exact hd other hm

theorem exists_scan (groups : List Group) : ∃ scan, Sound groups scan ∧ scan.cuts = cycleCuts groups ∧
    ∀ name, Known groups name → scan.Done name := by
  have hm : ∀ name, name ∈ ((groups.map Group.name).dedup).insertionSort (· ≤ ·) ↔ Known groups name := by
    simp [known_iff]
  have h : Sound groups {} := ⟨nofun, nofun⟩
  obtain ⟨hs, -, hd⟩ := visited_starts h nofun fun name hn => (hm name).mp hn
  exact ⟨_, hs, rfl, fun name hk => hd name ((hm name).mpr hk)⟩

end CycleScan

theorem groupsByName_breakGroupCycles : groupsByName (breakGroupCycles groups) name =
    (groupsByName groups name).map fun group =>
      { group with groups := group.groups.filter fun tag => (group.name, tag) ∉ cycleCuts groups } := by
  rw [groupsByName, breakGroupCycles, ← map_reverse, find?_map]
  rfl

theorem edge_breakGroupCycles {parent : String} :
    Edge (breakGroupCycles groups) parent child ↔ Remains groups (cycleCuts groups) child parent := by
  simp only [Edge, Remains, Known, groupsByName_breakGroupCycles, Option.map_eq_some_iff, Option.isSome_map]
  constructor
  · rintro ⟨⟨_, ⟨group, hg, rfl⟩, hm⟩, hk⟩
    obtain ⟨hm, hc⟩ := mem_filter.mp hm
    rw [(groupsByName_mem hg).2, decide_eq_true_eq] at hc
    exact ⟨⟨⟨group, hg, hm⟩, hk⟩, hc⟩
  rintro ⟨⟨⟨group, hg, hm⟩, hk⟩, hc⟩
  refine ⟨⟨_, ⟨group, hg, rfl⟩, mem_filter.mpr ⟨hm, ?_⟩⟩, hk⟩
  rwa [(groupsByName_mem hg).2, decide_eq_true_eq]

theorem not_transGen_of_acc {α : Type} {r : α → α → Prop} {a : α} (h : Acc r a) : ¬ TransGen r a a := by
  have ht := h.transGen
  clear h
  induction ht with
  | intro a _ ih => exact fun hc => ih a hc hc

theorem visit_congr (h : groupsByName groups = groupsByName groups') : CycleScan.visit groups = CycleScan.visit groups' := by
  funext fuel
  induction fuel with
  | zero => rfl
  | succ fuel ih =>
    funext name scan
    simp only [CycleScan.visit, h, ih]

theorem groupsByName_eq_some (hn : (groups.map Group.name).Nodup) {group : Group} :
    groupsByName groups name = some group ↔ group ∈ groups ∧ group.name = name := by
  refine ⟨groupsByName_mem, fun ⟨hm, he⟩ => ?_⟩
  obtain ⟨found, hf⟩ := Option.isSome_iff_exists.mp (known_iff.mpr (mem_map.mpr ⟨group, hm, he⟩))
  obtain ⟨hm', he'⟩ := groupsByName_mem hf
  rw [hf, inj_on_of_nodup_map hn hm hm' (he.trans he'.symm)]

theorem groupsByName_perm (h : groups.Perm groups') (hn : (groups.map Group.name).Nodup) : groupsByName groups = groupsByName groups' := by
  funext name
  ext group
  rw [groupsByName_eq_some hn, groupsByName_eq_some ((h.map _).nodup_iff.mp hn), h.mem_iff]

theorem cycleCuts_perm (h : groups.Perm groups') (hn : (groups.map Group.name).Nodup) : cycleCuts groups = cycleCuts groups' := by
  have hs : ((groups.map Group.name).dedup).insertionSort (· ≤ ·) = ((groups'.map Group.name).dedup).insertionSort (· ≤ ·) := by
    apply Perm.eq_of_pairwise' (pairwise_insertionSort (· ≤ ·) _) (pairwise_insertionSort (· ≤ ·) _)
    exact (perm_insertionSort _ _).trans ((h.map _).dedup.trans (perm_insertionSort _ _).symm)
  rw [cycleCuts, cycleCuts, hs, visit_congr (groupsByName_perm h hn), h.length_eq]

/-- Breaking the cycles leaves none, cuts only what lies on one, touches neither an acyclic graph nor a reference to an unknown group,
and depends on the groups only, not on the order the map lists them in. -/
theorem breakGroupCycles_spec (groups : List Group) :
    (∀ name, ¬ TransGen (Edge (breakGroupCycles groups)) name name) ∧
      (∀ parent child, Edge groups parent child → ¬ Edge (breakGroupCycles groups) parent child →
        ReflTransGen (Edge groups) child parent) ∧
      ((∀ name, ¬ TransGen (Edge groups) name name) → breakGroupCycles groups = groups) ∧
      (∀ group ∈ groups, ∃ kept ∈ breakGroupCycles groups, kept = { group with groups := kept.groups } ∧
        kept.groups.Sublist group.groups ∧ ∀ tag, groupsByName groups tag = none → kept.groups.count tag = group.groups.count tag) ∧
      ∀ groups', groups.Perm groups' → (groups.map Group.name).Nodup → (breakGroupCycles groups).Perm (breakGroupCycles groups') := by
  obtain ⟨scan, hs, hc, hd⟩ := CycleScan.exists_scan groups
  have hcu : ∀ {parent child}, (parent, child) ∈ cycleCuts groups → Edge groups parent child ∧ ReflTransGen (Edge groups) child parent := by
    rw [← hc]
    exact hs.cuts
  refine ⟨fun name ht => ?_, fun parent child he hn => ?_, fun ha => ?_, fun group hm => ?_, fun groups' hp hn => ?_⟩
  · have hk : Known groups name := by
      obtain ⟨_, he, -⟩ := TransGen.head'_iff.mp ht
      obtain ⟨⟨group, hg, -⟩, -⟩ := (edge_breakGroupCycles.mp he).1
      exact Option.isSome_of_eq_some hg
    refine not_transGen_of_acc (hs.done (hd name hk)) ?_
    rw [hc]
    exact transGen_swap.mp (TransGen.mono (fun _ _ he => edge_breakGroupCycles.mp he) _ _ ht)
  · rw [edge_breakGroupCycles, Remains, not_and_not_right] at hn
    exact (hcu (hn he)).2
  · have hni : cycleCuts groups = [] := by
      apply eq_nil_iff_forall_not_mem.mpr
      rintro ⟨parent, child⟩ hm
      exact ha parent (.head' (hcu hm).1 (hcu hm).2)
    simp [breakGroupCycles, hni]
  · refine ⟨_, mem_map_of_mem hm, rfl, filter_sublist, fun tag hu => count_filter ?_⟩
    rw [decide_eq_true_eq]
    intro hm
    have hk := (hcu hm).1.2
    rw [Known, hu] at hk
    cases hk
  · rw [breakGroupCycles, breakGroupCycles, cycleCuts_perm hp hn]
    exact hp.map _

end Honk.Group
