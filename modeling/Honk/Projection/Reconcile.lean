import Honk.Projection.Projected

namespace Honk.Projection

open Honk.Lib Honk.Routing Option
open List hiding set
open Std (ExtTreeMap ExtTreeSet)

variable {N : Type} [LinearOrder N]

namespace DesiredState

def Marked (s : DesiredState N) : Prop := ∀ ip : IpAddr, s.desired.entries[ip]? ≠ s.applied[ip]? → ip ∈ s.dirtyIps

variable {s s' : DesiredState N}

theorem Marked.settles (h : Marked s) (hs : Settles s s') : Marked s' := by
  intro ip hn
  by_cases hsa : s'.desired.entries[ip]? = s.desired.entries[ip]?
  · rw [hsa, hs.applied] at hn
    exact hs.dirty ip (h ip hn)
  rcases hs.changed ip hsa with hd | ⟨hde, ha⟩
  · exact hd
  · rw [hs.applied, hde, ha] at hn
    exact absurd rfl hn

theorem Marked.commitSet (h : Marked s) (set : PendingSet) : Marked (s.commitSet set) := by
  intro ip hn
  simp only [DesiredState.commitSet, ExtTreeMap.getElem?_insert, compare_eq_iff_eq] at hn ⊢
  by_cases he : set.ip = ip
  · subst he
    rw [if_pos rfl] at hn
    simp [if_neg hn]
  rw [if_neg he] at hn
  have hm := h ip hn
  split <;> simp [he, hm]

theorem Marked.commitRemove (h : Marked s) (removed : IpAddr) : Marked (s.commitRemove removed) := by
  intro ip hne
  simp only [DesiredState.commitRemove, ExtTreeMap.getElem?_erase, compare_eq_iff_eq] at hne ⊢
  by_cases he : removed = ip
  · subst he
    rw [if_pos rfl] at hne
    have hm : removed ∈ s.desired.entries := by_contra fun hn => hne (ExtTreeMap.getElem?_eq_none hn)
    simp [hm]
  rw [if_neg he] at hne
  have hm := h ip hne
  split <;> simp [he, hm]

theorem Marked.recordFailure (h : Marked s) (failed : IpAddr) (now : ℕ) : Marked (s.recordFailure failed now) := by
  intro ip hn
  simp only [DesiredState.recordFailure, ExtTreeSet.mem_insert]
  exact .inr (h ip hn)

theorem Marked.foldl {α : Type} {f : DesiredState N → α → DesiredState N} (hf : ∀ s a, Marked s → Marked (f s a)) (as : List α)
    (h : Marked s) : Marked (as.foldl f s) := by
  induction as generalizing s with
  | nil => exact h
  | cons a as ih => exact ih (hf s a h)

theorem Marked.commitSuccess (h : Marked s) : Marked (s.commitSuccess sets removes) :=
  (h.foldl (fun _ set hs => hs.commitSet set) sets).foldl (fun _ ip hs => hs.commitRemove ip) removes

def replay (sets : List PendingSet) (removes : List IpAddr) (table : ExtTreeMap IpAddr DomainRouting) :
    ExtTreeMap IpAddr DomainRouting :=
  removes.foldl (fun table ip => table.erase ip) (sets.foldl (fun table set => table.insert set.ip set.bitmap) table)

theorem applied_commitSuccess (s : DesiredState N) (sets : List PendingSet) (removes : List IpAddr) :
    (s.commitSuccess sets removes).applied = replay sets removes s.applied := by
  have hs : sets.foldl (fun table set => table.insert set.ip set.bitmap) s.applied = (sets.foldl commitSet s).applied :=
    foldl_hom _ fun _ _ => rfl
  rw [replay, hs]
  exact (foldl_hom _ fun _ _ => rfl).symm

theorem size_replay (sets : List PendingSet) (removes : List IpAddr) (table : ExtTreeMap IpAddr DomainRouting) :
    (replay sets removes table).size ≤ table.size + (sets.filter fun set => set.ip ∉ table).length := by
  have hr : ∀ (removes : List IpAddr) (table : ExtTreeMap IpAddr DomainRouting),
      (removes.foldl (fun table ip => table.erase ip) table).size ≤ table.size := by
    intro removes
    induction removes with
    | nil => exact fun table => le_rfl
    | cons ip removes ih => exact fun table => (ih _).trans ExtTreeMap.size_erase_le
  refine (hr removes _).trans ?_
  induction sets generalizing table with
  | nil => simp
  | cons set sets ih =>
    rw [foldl_cons]
    refine (ih (table.insert set.ip set.bitmap)).trans ?_
    have hf : (sets.filter fun other => other.ip ∉ table.insert set.ip set.bitmap).length ≤
        (sets.filter fun other => other.ip ∉ table).length :=
      (monotone_filter_right sets fun other => by simp).length_le
    rw [ExtTreeMap.size_insert]
    by_cases hm : set.ip ∈ table
    · rw [if_pos (ExtTreeMap.contains_iff_mem.mpr hm), filter_cons_of_neg (by simpa using hm)]
      omega
    · rw [if_neg fun h => hm (ExtTreeMap.contains_iff_mem.mp h), filter_cons_of_pos (by simpa using hm), length_cons]
      omega

section

structure Drafts (s : DesiredState N) (todo : List IpAddr) (draft : Draft N) : Prop where
  applied : draft.state.applied = s.applied
  books : Books s draft.state
  marked : Marked draft.state
  ahead : ∀ ip ∈ todo, ip ∈ draft.state.dirtyIps
  sets : ∀ set ∈ draft.sets, set.ip ∈ draft.state.dirtyIps ∧ set.ip ∉ todo
  removes : ∀ ip ∈ draft.removes, ip ∈ draft.state.dirtyIps ∧ ip ∉ todo
  room : (draft.sets.filter fun set => set.ip ∉ s.applied).length + draft.available ≤ ipCapacity - s.applied.size

variable {draft : Draft N} {ip : IpAddr} {todo : List IpAddr}

section

variable (h : Drafts s (ip :: todo) draft)
include h

theorem Drafts.skip : Drafts s todo draft :=
  ⟨h.applied, h.books, h.marked, fun other ho => h.ahead other (mem_cons_of_mem _ ho),
    fun set hs => ⟨(h.sets set hs).1, fun hm => (h.sets set hs).2 (mem_cons_of_mem _ hm)⟩,
    fun other ho => ⟨(h.removes other ho).1, fun hm => (h.removes other ho).2 (mem_cons_of_mem _ hm)⟩, h.room⟩

variable (hn : ip ∉ todo)
include hn

theorem Drafts.set (hr : available + (if ip ∈ s.applied then 0 else 1) ≤ draft.available) :
    Drafts s todo { draft with sets := draft.sets ++ [⟨ip, bitmap⟩], available := available } := by
  have hs := h.skip
  refine ⟨hs.applied, hs.books, hs.marked, hs.ahead, fun set hse => ?_, hs.removes, ?_⟩
  · rcases mem_append.mp hse with hse | hse
    · exact hs.sets set hse
    · obtain rfl := mem_singleton.mp hse
      exact ⟨h.ahead ip (mem_cons_self ..), hn⟩
  have hl := h.room
  simp only [filter_append, length_append]
  by_cases hm : ip ∈ s.applied
  · rw [if_pos hm] at hr
    rw [filter_cons_of_neg (by simpa using hm)]
    simp only [filter_nil, length_nil]
    omega
  rw [if_neg hm] at hr
  rw [filter_cons_of_pos (by simpa using hm)]
  simp only [filter_nil, length_singleton]
  omega

theorem Drafts.remove : Drafts s todo { draft with removes := draft.removes ++ [ip] } := by
  have hs := h.skip
  refine ⟨hs.applied, hs.books, hs.marked, hs.ahead, hs.sets, fun other ho => ?_, hs.room⟩
  rcases mem_append.mp ho with ho | ho
  · exact hs.removes other ho
  · obtain rfl := mem_singleton.mp ho
    exact ⟨h.ahead other (mem_cons_self ..), hn⟩

theorem Drafts.unmark (hsa : draft.state.desired.entries[ip]? = draft.state.applied[ip]?) :
    Drafts s todo { draft with state := { draft.state with
      dirtyIps := draft.state.dirtyIps.erase ip, retries := draft.state.retries.erase ip } } := by
  have hs := h.skip
  have he : ∀ other, other ∈ draft.state.dirtyIps → ip ≠ other → other ∈ draft.state.dirtyIps.erase ip := by
    intro other ho hne
    simpa using ⟨hne, ho⟩
  refine ⟨hs.applied, hs.books.trans ⟨_, _, _, rfl⟩, fun other hne => ?_, fun other ho => ?_, fun set hse => ?_,
    fun other ho => ?_, hs.room⟩
  · refine he other (h.marked other hne) ?_
    rintro rfl
    exact hne hsa
  · exact he other (hs.ahead other ho) fun heq => hn (heq ▸ ho)
  · obtain ⟨hd, hno⟩ := h.sets set hse
    exact ⟨he _ hd fun heq => hno (heq ▸ mem_cons_self ..), (hs.sets set hse).2⟩
  · obtain ⟨hd, hno⟩ := h.removes other ho
    exact ⟨he _ hd fun heq => hno (heq ▸ mem_cons_self ..), (hs.removes other ho).2⟩

theorem Drafts.add : Drafts s todo (draft.add ip) := by
  unfold Draft.add
  split
  · rename_i desired applied hd ha
    split
    · rename_i he
      exact h.unmark hn (by rw [hd, ha, he])
    have hm : ip ∈ s.applied := by
      rw [← h.applied, ExtTreeMap.mem_iff_isSome_getElem?, ha]
      rfl
    refine h.set hn ?_
    simp [hm]
  · split
    · exact h.skip
    · refine h.set hn ?_
      split <;> omega
  · exact h.remove hn
  · rename_i hd ha
    exact h.unmark hn (by rw [hd, ha])

end

theorem nodup_candidates (s : DesiredState N) (now : ℕ) : (s.candidates now).Nodup := by
  have hn : s.dirtyIps.toList.Nodup := s.dirtyIps.ordered_toList.imp fun hl => (compare_lt_iff_lt.mp hl).ne
  refine List.Nodup.sublist (take_sublist _ _) (List.Nodup.filter _ ?_)
  rw [nodup_append]
  refine ⟨hn.filter _, hn.filter _, ?_⟩
  rintro a ha b hb rfl
  simp only [mem_filter, decide_eq_true_eq] at ha hb
  exact ha.2 hb.2

theorem candidates_dirty (h : ip ∈ s.candidates now) : ip ∈ s.dirtyIps := by
  have hm := mem_of_mem_filter (mem_of_mem_take h)
  rcases mem_append.mp hm with hm | hm
  · exact ExtTreeSet.mem_toList.mp (mem_of_mem_filter hm)
  · exact ExtTreeSet.mem_toList.mp (mem_of_mem_filter hm)

theorem Marked.draftBatch (h : Marked s) (now : ℕ) : Drafts s [] (s.draftBatch now) := by
  have hf : ∀ (todo : List IpAddr) (draft : Draft N), todo.Nodup → Drafts s todo draft → Drafts s [] (todo.foldl Draft.add draft) := by
    intro todo
    induction todo with
    | nil => exact fun draft _ hd => hd
    | cons ip todo ih =>
      intro draft hn hd
      rw [nodup_cons] at hn
      exact ih _ hn.2 (hd.add hn.1)
  refine hf _ _ (nodup_candidates s now) ⟨rfl, .refl s, h, fun ip hip => candidates_dirty hip, nofun, nofun, ?_⟩
  simp

end

end DesiredState

structure Flush where
  batch : Batch
  now : ℕ
  sets : List PendingSet
  removes : List IpAddr
  successfulSets : List PendingSet := []
  successfulRemoves : List IpAddr := []
  failures : List IpAddr := []

inductive Worker where
  | idle
  | prepared (batch : Batch) (now : ℕ)
  | writing (flush : Flush)

/-- A reload holds the backend and the publication fence from `fenced` on. -/
inductive Reload (N : Type) where
  | idle
  | fenced
  | projected (snapshot : Snapshot N) (published : ExtTreeMap IpAddr DomainRouting)

structure World (N : Type) [LinearOrder N] where
  state : DesiredState N
  kernel : ExtTreeMap IpAddr DomainRouting := ∅
  worker : Worker := .idle
  reload : Reload N := .idle

inductive Event (N : Type) where
  | submit (snapshot : Snapshot N) (observation : Observation N) (now : ℕ)
  | nextDeadline
  | prepare (now : ℕ)
  | start
  | write (ok : Bool)
  | book
  | fence
  | project (snapshot : Snapshot N)
  | publish (needed : Bool)
  | abort

namespace World

variable (w : World N)

def submit (snapshot : Snapshot N) (observation : Observation N) (now : ℕ) : Option (World N) :=
  match w.reload, w.worker with
  | .idle, .writing _ => if w.state.snapshot.generation < snapshot.generation then none else apply
  | .idle, _ => apply
  | _, _ => none
where
  apply : Option (World N) :=
    (w.state.updateSnapshot snapshot).bind fun (state, current) =>
      if current then (state.observe observation now).map fun state => { w with state := state }
      else some { w with state := state }

def prepare (now : ℕ) : Option (World N) :=
  match w.worker with
  | .idle => (w.state.expire now).map fun state =>
      let (state, batch) := state.batch now
      { w with state := state, worker := if batch.sets = [] ∧ batch.removes = [] then .idle else .prepared batch now }
  | _ => none

def start : Option (World N) :=
  match w.reload, w.worker with
  | .idle, .prepared batch now => some { w with
      worker := if batch.generation ≠ w.state.snapshot.generation then .idle
        else .writing { batch := batch, now := now, sets := batch.sets, removes := batch.removes } }
  | _, _ => none

def write (ok : Bool) : Option (World N) :=
  match w.worker with
  | .writing flush =>
    match flush.sets, flush.removes with
    | set :: sets, _ =>
      if ok then some { w with
        kernel := w.kernel.insert set.ip set.bitmap
        worker := .writing { flush with sets := sets, successfulSets := flush.successfulSets ++ [set] } }
      else some { w with worker := .writing { flush with sets := sets, failures := flush.failures ++ [set.ip] } }
    | [], ip :: removes =>
      if ok then some { w with
        kernel := w.kernel.erase ip
        worker := .writing { flush with removes := removes, successfulRemoves := flush.successfulRemoves ++ [ip] } }
      else some { w with worker := .writing { flush with removes := removes, failures := flush.failures ++ [ip] } }
    | [], [] => none
  | _ => none

def book : Option (World N) :=
  match w.worker with
  | .writing flush =>
    if flush.sets = [] ∧ flush.removes = [] then some { w with
      state := (flush.failures.foldl (fun state ip => state.recordFailure ip flush.now) w.state).commitSuccess
        flush.successfulSets flush.successfulRemoves
      worker := .idle }
    else none
  | _ => none

def fence : Option (World N) :=
  match w.reload, w.worker with
  | .idle, .writing _ => none
  | .idle, _ => some { w with reload := .fenced }
  | _, _ => none

def project (w : World N) (snapshot : Snapshot N) : Option (World N) :=
  match w.reload with
  | .fenced =>
    if w.state.snapshot.generation < snapshot.generation then
      some { w with reload := .projected snapshot (w.state.project snapshot) }
    else none
  | _ => none

def publish (needed : Bool) : Option (World N) :=
  match w.reload with
  | .projected snapshot published =>
    (w.state.commitPublication snapshot (if needed then some published else none)).map fun state =>
      { w with state := state, kernel := if needed then published else w.kernel, reload := .idle }
  | _ => none

def abort : Option (World N) :=
  match w.reload with
  | .idle => none
  | _ => some { w with reload := .idle }

def step : Event N → Option (World N)
  | .submit snapshot observation now => w.submit snapshot observation now
  | .nextDeadline => some { w with state := w.state.compactOwnerHeapsIfNeeded }
  | .prepare now => w.prepare now
  | .start => w.start
  | .write ok => w.write ok
  | .book => w.book
  | .fence => w.fence
  | .project snapshot => w.project snapshot
  | .publish needed => w.publish needed
  | .abort => w.abort

def run (capacity : ℕ) (snapshot : Snapshot N) (events : List (Event N)) : Option (World N) :=
  events.foldlM step { state := { capacity := capacity, snapshot := snapshot } }

end World

section

variable (s : DesiredState N)

/-- A batch of the current generation: its addresses are still marked, and there is room for what is new. -/
structure Fits (batch : Batch) : Prop where
  sets : ∀ set ∈ batch.sets, set.ip ∈ s.dirtyIps
  removes : ∀ ip ∈ batch.removes, ip ∈ s.dirtyIps
  room : s.applied.size + (batch.sets.filter fun set => set.ip ∉ s.applied).length ≤ ipCapacity

variable (kernel : ExtTreeMap IpAddr DomainRouting)

structure Flush.Fits (flush : Flush) : Prop where
  generation : flush.batch.generation = s.snapshot.generation
  batch : Projection.Fits s flush.batch
  kernel : kernel = DesiredState.replay flush.successfulSets flush.successfulRemoves s.applied
  sets : (flush.successfulSets ++ flush.sets).Sublist flush.batch.sets
  removes : ∀ ip ∈ flush.successfulRemoves ++ flush.removes, ip ∈ flush.batch.removes
  order : flush.sets ≠ [] → flush.successfulRemoves = []

/-- The kernel has what is applied, and what the worker has written since it began. -/
def Worker.Fits : Worker → Prop
  | .idle => kernel = s.applied
  | .prepared batch _ => kernel = s.applied ∧ batch.generation ≤ s.snapshot.generation ∧
      (batch.generation = s.snapshot.generation → Projection.Fits s batch)
  | .writing flush => flush.Fits s kernel

def Worker.isWriting : Worker → Bool
  | .writing _ => true
  | _ => false

def Reload.Fits (worker : Worker) : Reload N → Prop
  | .idle => True
  | .fenced => worker.isWriting = false
  | .projected snapshot published => worker.isWriting = false ∧ s.snapshot.generation < snapshot.generation ∧
      published.size ≤ ipCapacity

end

structure World.Inv (w : World N) : Prop where
  coherent : w.state.Coherent
  marked : w.state.Marked
  size : w.state.applied.size ≤ ipCapacity
  worker : w.worker.Fits w.state w.kernel
  reload : w.reload.Fits w.state w.worker

variable {s s' : DesiredState N} {w w' : World N} {kernel : ExtTreeMap IpAddr DomainRouting} {worker : Worker} {batch : Batch}

theorem Fits.settles (h : Fits s batch) (hs : s.Settles s') : Fits s' batch :=
  ⟨fun set hse => hs.dirty _ (h.sets set hse), fun ip hip => hs.dirty ip (h.removes ip hip), by rw [hs.applied]; exact h.room⟩

theorem Worker.Fits.settles (h : worker.Fits s kernel) (hs : s.Settles s') : worker.Fits s' kernel := by
  cases worker with
  | idle => exact h.trans hs.applied.symm
  | prepared batch now =>
    obtain ⟨hk, hl, hf⟩ := h
    refine ⟨hk.trans hs.applied.symm, by rw [hs.snapshot]; exact hl, fun he => (hf ?_).settles hs⟩
    rw [he, hs.snapshot]
  | writing flush =>
    exact ⟨by rw [hs.snapshot]; exact h.generation, h.batch.settles hs, by rw [hs.applied]; exact h.kernel, h.sets, h.removes, h.order⟩

theorem Reload.Fits.settles {reload : Reload N} (h : reload.Fits s worker) (hs : s.snapshot = s'.snapshot) : reload.Fits s' worker := by
  cases reload with
  | idle => trivial
  | fenced => exact h
  | projected snapshot published => exact ⟨h.1, hs ▸ h.2.1, h.2.2⟩

theorem World.Inv.settles (h : w.Inv) (hs : w.state.Settles s') (hc : s'.Coherent) : World.Inv { w with state := s' } :=
  ⟨hc, h.marked.settles hs, by rw [hs.applied]; exact h.size, h.worker.settles hs, h.reload.settles hs.snapshot.symm⟩

theorem Worker.Fits.kernel_eq (h : worker.Fits s kernel) (hn : worker.isWriting = false) : kernel = s.applied := by
  cases worker with
  | idle => exact h
  | prepared batch now => exact h.1
  | writing flush => exact nomatch hn

theorem Worker.Fits.newer (h : worker.Fits s kernel) (hno : worker.isWriting = false)
    (hn : s.snapshot.generation < s'.snapshot.generation) (hk : kernel' = s'.applied) : worker.Fits s' kernel' := by
  cases worker with
  | idle => exact hk
  | prepared batch now =>
    have hl := h.2.1
    exact ⟨hk, by omega, fun he => absurd he (by omega)⟩
  | writing flush => exact nomatch hno

theorem Worker.not_writing (h : ∀ flush, worker = .writing flush → False) : worker.isWriting = false := by
  cases worker with
  | idle => rfl
  | prepared batch now => rfl
  | writing flush => exact (h flush rfl).elim

variable {snapshot : Snapshot N} {observation : Observation N} {now : ℕ} {flush : Flush}

section

variable (h : w.Inv)
include h

theorem World.Inv.apply (hid : w.reload = .idle) (hf : w.worker.isWriting = true → snapshot.generation ≤ w.state.snapshot.generation)
    (hst : World.submit.apply w snapshot observation now = some w') : w'.Inv := by
  obtain ⟨⟨state, current⟩, hu, ht⟩ := bind_eq_some_iff.mp hst
  have hin : World.Inv { w with state := state } := by
    by_cases hn : w.state.snapshot.generation < snapshot.generation
    · obtain ⟨state', hu', hc, hr, hs, -⟩ := h.coherent.updateSnapshot hn
      obtain ⟨rfl, -⟩ := Prod.mk.inj (Option.some.inj (hu'.symm.trans hu))
      have hno : w.worker.isWriting = false := by
        rw [← Bool.not_eq_true]
        intro hw
        have hl := hf hw
        omega
      refine ⟨hc, hr.drift, by rw [hr.applied]; exact h.size, h.worker.newer hno ?_ ?_, ?_⟩
      · rw [hs]
        exact hn
      · exact (h.worker.kernel_eq hno).trans hr.applied.symm
      · rw [hid]
        trivial
    rw [DesiredState.updateSnapshot, if_pos (by omega)] at hu
    obtain ⟨rfl, -⟩ := Prod.mk.inj (Option.some.inj hu)
    exact h
  dsimp only at ht
  split at ht
  · obtain ⟨observed, ho, rfl⟩ := map_eq_some_iff.mp ht
    obtain ⟨observed', ho', hc, hse⟩ := hin.coherent.observe observation now
    obtain rfl := Option.some.inj (ho'.symm.trans ho)
    exact hin.settles hse hc
  · cases ht
    exact hin

theorem World.Inv.submit (hs : w.submit snapshot observation now = some w') : w'.Inv := by
  unfold World.submit at hs
  split at hs
  · rename_i hr hwo
    split at hs
    · cases hs
    · exact h.apply hr (fun _ => by omega) hs
  · rename_i hr hn
    exact h.apply hr (fun hw => absurd (Worker.not_writing hn) (by simp [hw])) hs
  · cases hs

theorem World.Inv.prepare (hst : w.prepare now = some w') : w'.Inv := by
  unfold World.prepare at hst
  split at hst
  · rename_i hw
    obtain ⟨expired, he, rfl⟩ := map_eq_some_iff.mp hst
    obtain ⟨expired', he', hc, hs⟩ := h.coherent.expire now
    obtain rfl := Option.some.inj (he'.symm.trans he)
    have hin := h.settles hs hc
    have hm : expired'.Marked := hin.marked
    have hd := hm.draftBatch now
    have hk : w.kernel = expired'.applied := by
      have hf := hin.worker
      rw [hw] at hf
      exact hf
    have hg : (expired'.batch now).2.generation = (expired'.batch now).1.snapshot.generation := rfl
    obtain ⟨applied, dirty, retries, hb⟩ := hd.books
    have hsn : (expired'.batch now).1.snapshot = expired'.snapshot := by rw [DesiredState.batch, hb]
    refine ⟨hc.books hd.books, hd.marked, ?_, ?_, ?_⟩
    · show (expired'.draftBatch now).state.applied.size ≤ ipCapacity
      rw [hd.applied]
      exact hin.size
    · have hf : Projection.Fits (expired'.batch now).1 (expired'.batch now).2 := by
        refine ⟨fun set hse => (hd.sets set hse).1, fun ip hip => (hd.removes ip hip).1, ?_⟩
        have hro := hd.room
        have hsi := hin.size
        have ha : (expired'.batch now).1.applied = expired'.applied := hd.applied
        rw [ha]
        change expired'.applied.size ≤ _ at hsi
        change expired'.applied.size + ((expired'.draftBatch now).sets.filter fun set => set.ip ∉ expired'.applied).length ≤ _
        omega
      have hid : w.kernel = (expired'.batch now).1.applied := hk.trans hd.applied.symm
      dsimp only
      split
      · exact hid
      · exact ⟨hid, le_of_eq hg, fun _ => hf⟩
    have hr := h.reload
    rw [hw] at hr
    cases hca : w.reload with
    | idle => trivial
    | fenced =>
      dsimp only [Reload.Fits]
      split <;> rfl
    | projected snapshot published =>
      rw [hca] at hr
      refine ⟨?_, ?_, hr.2.2⟩
      · dsimp only
        split <;> rfl
      dsimp only
      rw [hsn, hs.snapshot]
      exact hr.2.1
  · cases hst

theorem World.Inv.start (hs : w.start = some w') : w'.Inv := by
  unfold World.start at hs
  split at hs
  · rename_i batch now hr hw
    cases hs
    have hf := h.worker
    rw [hw] at hf
    obtain ⟨hk, -, hb⟩ := hf
    refine ⟨h.coherent, h.marked, h.size, ?_, ?_⟩
    · dsimp only
      split
      · exact hk
      · rename_i he
        exact ⟨not_not.mp he, hb (not_not.mp he), hk, by simp, by simp, fun _ => rfl⟩
    · rw [hr]
      trivial
  · cases hs

theorem World.Inv.reload_idle (hw : w.worker = .writing flush) : w.reload = .idle := by
  have hr := h.reload
  rw [hw] at hr
  cases hc : w.reload with
  | idle => rfl
  | fenced =>
    rw [hc] at hr
    exact nomatch hr
  | projected snapshot published =>
    rw [hc] at hr
    exact nomatch hr.1

theorem World.Inv.writing (hw : w.worker = .writing flush) (hf : flush'.Fits w.state kernel) :
    World.Inv { w with kernel := kernel, worker := .writing flush' } := by
  refine ⟨h.coherent, h.marked, h.size, hf, ?_⟩
  rw [h.reload_idle hw]
  trivial

theorem World.Inv.write (hs : w.write ok = some w') : w'.Inv := by
  unfold World.write at hs
  split at hs
  · rename_i flush hw
    have hf := h.worker
    rw [hw] at hf
    split at hs
    · rename_i set sets hse
      have hor := hf.order (by rw [hse]; exact cons_ne_nil _ _)
      have hsu := hf.sets
      rw [hse] at hsu
      split at hs
      · cases hs
        refine h.writing hw ⟨hf.generation, hf.batch, ?_, by simpa using hsu, hf.removes, fun _ => hor⟩
        rw [hf.kernel, hor, DesiredState.replay, DesiredState.replay, foldl_append]
        rfl
      cases hs
      refine h.writing hw ⟨hf.generation, hf.batch, hf.kernel, ?_, hf.removes, fun _ => hor⟩
      exact (List.Sublist.append_left (sublist_cons_self set sets) _).trans hsu
    · rename_i ip removes hse hr
      have hm := hf.removes
      rw [hr] at hm
      split at hs
      · cases hs
        refine h.writing hw ⟨hf.generation, hf.batch, ?_, hf.sets, by simpa using hm, fun hn => absurd hse hn⟩
        rw [hf.kernel, DesiredState.replay, DesiredState.replay, foldl_append]
        rfl
      cases hs
      refine h.writing hw ⟨hf.generation, hf.batch, hf.kernel, hf.sets, fun other ho => hm other ?_, fun hn => absurd hse hn⟩
      rcases mem_append.mp ho with ho | ho
      · exact mem_append_left _ ho
      · exact mem_append_right _ (mem_cons_of_mem _ ho)
    · cases hs
  · cases hs

omit h in
theorem books_failures (failures : List IpAddr) (now : ℕ) (s : DesiredState N) :
    (failures.foldl (fun state ip => state.recordFailure ip now) s).applied = s.applied := by
  induction failures generalizing s with
  | nil => rfl
  | cons ip failures ih => exact ih (s.recordFailure ip now)

theorem World.Inv.book (hst : w.book = some w') : w'.Inv := by
  unfold World.book at hst
  split at hst
  · rename_i flush hw
    have hf := h.worker
    rw [hw] at hf
    split at hst
    · cases hst
      have ha := DesiredState.applied_commitSuccess
        (flush.failures.foldl (fun state ip => state.recordFailure ip flush.now) w.state) flush.successfulSets flush.successfulRemoves
      rw [books_failures] at ha
      refine ⟨?_, ?_, ?_, ?_, ?_⟩
      · exact (h.coherent.books (DesiredState.books_foldl (fun _ _ => ⟨_, _, _, rfl⟩) _ _)).books
          (DesiredState.books_commitSuccess _ _ _)
      · exact (h.marked.foldl (fun _ ip hs => hs.recordFailure ip flush.now) _).commitSuccess
      · dsimp only
        rw [ha]
        have hsu := ((sublist_append_left _ _).trans hf.sets).filter fun set => set.ip ∉ w.state.applied
        exact (DesiredState.size_replay _ _ _).trans ((Nat.add_le_add_left hsu.length_le _).trans hf.batch.room)
      · exact hf.kernel.trans ha.symm
      dsimp only
      rw [h.reload_idle hw]
      trivial
    · cases hst
  · cases hst

theorem World.Inv.fence (hs : w.fence = some w') : w'.Inv := by
  unfold World.fence at hs
  split at hs
  · cases hs
  · rename_i hn
    cases hs
    exact ⟨h.coherent, h.marked, h.size, h.worker, Worker.not_writing hn⟩
  · cases hs

theorem World.Inv.project (hs : w.project snapshot = some w') : w'.Inv := by
  unfold World.project at hs
  split at hs
  · rename_i hr
    split at hs
    · rename_i hn
      cases hs
      have hf := h.reload
      rw [hr] at hf
      exact ⟨h.coherent, h.marked, h.size, h.worker, hf, hn, (DesiredState.selects_project w.state snapshot).sound.entries⟩
    · cases hs
  · cases hs

end

theorem World.Inv.commit (h : w.Inv) {applied : ExtTreeMap IpAddr DomainRouting} (hno : w.worker.isWriting = false)
    (hn : w.state.snapshot.generation < snapshot.generation) {dirty : ExtTreeSet IpAddr}
    {retries : ExtTreeMap IpAddr RetryMetadata} (hsi : applied.size ≤ ipCapacity) {state : DesiredState N}
    (hu : (({ w.state with applied := applied, dirtyIps := dirty, retries := retries } : DesiredState N).updateSnapshot
      snapshot).map Prod.fst = some state) :
    World.Inv { w with state := state, kernel := applied, reload := .idle } := by
  have hc := h.coherent.books ⟨applied, dirty, retries, rfl⟩
  obtain ⟨state', hu', hc', hr, hs, -⟩ := hc.updateSnapshot hn
  rw [hu', map_some] at hu
  cases hu
  refine ⟨hc', hr.drift, ?_, ?_, trivial⟩
  · dsimp only
    rw [hr.applied]
    exact hsi
  · exact h.worker.newer hno (by rw [hs]; exact hn) hr.applied.symm

theorem World.Inv.publish (h : w.Inv) {needed : Bool} (hs : w.publish needed = some w') : w'.Inv := by
  unfold World.publish at hs
  split at hs
  · rename_i snapshot published hr
    have hf := h.reload
    rw [hr] at hf
    obtain ⟨hno, hn, hsi⟩ := hf
    obtain ⟨state, hc, rfl⟩ := map_eq_some_iff.mp hs
    cases needed with
    | true => exact h.commit hno hn hsi hc
    | false =>
      -- nothing is written, and between two passes of the worker the kernel has what is applied
      have hin := h.commit hno hn h.size hc
      rw [← h.worker.kernel_eq hno] at hin
      exact hin
  · cases hs

theorem World.Inv.abort (h : w.Inv) (hs : w.abort = some w') : w'.Inv := by
  unfold World.abort at hs
  split at hs
  · cases hs
  · cases hs
    exact ⟨h.coherent, h.marked, h.size, h.worker, trivial⟩

theorem World.Inv.step (h : w.Inv) (hs : w.step event = some w') : w'.Inv := by
  cases event with
  | submit snapshot observation now => exact h.submit hs
  | nextDeadline =>
    cases hs
    have hq := DesiredState.quiet_compact w.state
    exact h.settles hq.settles (h.coherent.quiet hq)
  | prepare now => exact h.prepare hs
  | start => exact h.start hs
  | write ok => exact h.write hs
  | book => exact h.book hs
  | fence => exact h.fence hs
  | project snapshot => exact h.project hs
  | publish needed => exact h.publish hs
  | abort => exact h.abort hs

theorem World.Inv.run (h : World.run capacity snapshot events = some w) : w.Inv := by
  have hr : ∀ (events : List (Event N)) (first : World N), first.Inv → events.foldlM World.step first = some w → w.Inv := by
    intro events
    induction events with
    | nil =>
      intro first hf hru
      cases hru
      exact hf
    | cons event events ih =>
      intro first hf hru
      rw [foldlM_cons] at hru
      obtain ⟨next, hs, hru⟩ := bind_eq_some_iff.mp hru
      exact ih next (hf.step hs) hru
  refine hr events _ ⟨.start capacity snapshot, ?_, ?_, ?_, ?_⟩ h
  · intro ip hn
    simp at hn
  · simp
  · rfl
  · trivial

def World.recorded (w : World N) : ExtTreeMap IpAddr DomainRouting :=
  match w.worker with
  | .writing flush => DesiredState.replay flush.successfulSets flush.successfulRemoves w.state.applied
  | _ => w.state.applied

theorem World.Inv.kernel_eq (h : w.Inv) : w.kernel = w.recorded := by
  have hw := h.worker
  unfold World.recorded
  split
  · rename_i flush hc
    rw [hc] at hw
    exact hw.kernel
  rename_i hn
  cases hc : w.worker with
  | idle => rw [hc] at hw; exact hw
  | prepared batch now => rw [hc] at hw; exact hw.1
  | writing flush => exact absurd hc (hn flush)

theorem World.Inv.clean (h : w.Inv) (hc : w.state.dirtyIps = ∅) : w.kernel = w.state.desired.entries := by
  have ha := ExtTreeMap.ext_getElem? fun {ip} => by
    by_contra hne
    have hm := h.marked ip (Ne.symm hne)
    rw [hc] at hm
    simp at hm
  rw [← ha, h.kernel_eq, World.recorded]
  split
  · rename_i flush hca
    have hf := h.worker
    rw [hca] at hf
    have hn : ∀ ip, ip ∉ w.state.dirtyIps := by simp [hc]
    have hs : flush.successfulSets = [] := eq_nil_iff_forall_not_mem.mpr fun set hse =>
      hn _ (hf.batch.sets set (hf.sets.subset (mem_append_left _ hse)))
    have hr : flush.successfulRemoves = [] := eq_nil_iff_forall_not_mem.mpr fun ip hip =>
      hn _ (hf.batch.removes ip (hf.removes ip (mem_append_left _ hip)))
    rw [hs, hr]
    rfl
  · rfl

/-- However observations, expiries, the worker's passes and reloads interleave: the applied table is what was
last written, every difference from what is desired is marked, and a batch of an older generation writes nothing. -/
theorem projection_reconciled {capacity : ℕ} {snapshot : Snapshot N} {events : List (Event N)} {w : World N}
    (h : World.run capacity snapshot events = some w) :
    w.kernel = w.recorded ∧ (∀ ip : IpAddr, w.state.desired.entries[ip]? ≠ w.state.applied[ip]? → ip ∈ w.state.dirtyIps) ∧
      (w.state.dirtyIps = ∅ → w.kernel = w.state.desired.entries) ∧
      (∀ flush, w.worker = .writing flush → flush.batch.generation = w.state.snapshot.generation) ∧
      (∀ batch now w', w.worker = .prepared batch now → batch.generation < w.state.snapshot.generation →
        w.step .start = some w' → w' = { w with worker := .idle }) ∧
      w.state.applied.size ≤ ipCapacity := by
  have hin := World.Inv.run h
  refine ⟨hin.kernel_eq, hin.marked, hin.clean, ?_, ?_, hin.size⟩
  · intro flush hw
    have hf := hin.worker
    rw [hw] at hf
    exact hf.generation
  intro batch now w' hw ho hs
  change w.start = some w' at hs
  rw [World.start, hw] at hs
  split at hs
  · rename_i batch' now' hreload he
    cases he
    rw [if_pos ho.ne] at hs
    exact (Option.some.inj hs).symm
  · cases hs

def onePass : List (Event ℕ) :=
  [.submit ⟨0, fun _ => some .zero⟩ (.positive 0 .v4 [DesiredState.loopback] 10) 0, .prepare 1, .start, .write true, .book]

theorem projection_reconciled_one_pass : ∃ w, World.run 8 ⟨0, fun _ => some .zero⟩ onePass = some w ∧
    w.state.desired.entries.size = 1 ∧ w.kernel = w.state.desired.entries := by
  have he : (World.run 8 ⟨0, fun _ => some .zero⟩ onePass).any (fun w => w.state.dirtyIps.isEmpty &&
      w.state.desired.entries.size == 1) = true := by
    decide +kernel
  obtain ⟨w, hr, hw⟩ := (Option.any_eq_true _ _).mp he
  rw [Bool.and_eq_true, beq_iff_eq] at hw
  exact ⟨w, hr, hw.2, (projection_reconciled hr).2.2.1 (ExtTreeSet.isEmpty_iff.mp hw.1)⟩

end Honk.Projection
