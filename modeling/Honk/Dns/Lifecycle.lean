import Honk.Lib.Interleaving

namespace Honk.Dns.Lifecycle

open Honk.Lib List Function

/-- Builds are numbered, and a value has the number of its build; the code's `generation` is that number modulo `2 ^ 64`. -/
inductive SlotState where
  | building (build : ℕ)
  | ready (value : ℕ)
  | closing (value : ℕ)
  | closed
  deriving DecidableEq

inductive Op where
  | acquire (waited : Option ℕ)
  | close (observed : Option ℕ)
  | retireIdle

/-- `notified` counts the notifications. The lists are a history, newest first; the head of `failed` is the code's
`last_failure`. -/
structure Slot where
  state : SlotState := .closed
  builds : ℕ := 0
  idleRetiring : Bool := false
  notified : ℕ := 0
  failed : List (ℕ × ℕ) := []
  published : List ℕ := []
  begun : List ℕ := []
  torn : List ℕ := []

/-- Where a task stands: before `notified()`, before the lock, and at its awaits. -/
inductive Task where
  | idle
  | enter (op : Op)
  | look (op : Op) (seen : ℕ)
  | wait (op : Op) (seen build : ℕ)
  | build (build : ℕ)
  | notify (result : Except ℕ ℕ)
  | finish (op : Op) (value : ℕ)
  | settle (op : Op) (value : ℕ)
  | release
  | done (result : Except ℕ ℕ)

namespace Slot

variable (s : Slot)

def failure (waited : Option ℕ) : Option ℕ :=
  match waited, s.failed with
  | some build, (last, error) :: _ => if last % 2 ^ 64 = build % 2 ^ 64 then some error else none
  | _, _ => none

def begin (value : ℕ) : Slot := { s with state := .closing value, begun := value :: s.begun }

/-- The locked section of each operation; `unique` tells whether the slot has the only handle of its value. -/
def look (unique : Bool) (seen : ℕ) : Op → Slot × Task
  | .acquire waited =>
    match s.failure waited, s.state with
    | some error, _ => (s, .done (.error error))
    | none, .ready value => (s, .done (.ok value))
    | none, .building build => (s, .wait (.acquire (some build)) seen build)
    | none, .closing value => (s, .finish (.acquire waited) value)
    | none, .closed => ({ s with state := .building (s.builds + 1), builds := s.builds + 1 }, .build (s.builds + 1))
  | .close observed =>
    match s.state with
    | .ready value => if observed.any (· ≠ value) then (s, .idle) else (s.begin value, .finish (.close observed) value)
    | .closing value => if observed.any (· ≠ value) then (s, .idle) else (s, .finish (.close observed) value)
    | .building build => if observed.isNone then (s, .wait (.close none) seen build) else (s, .idle)
    | .closed => (s, .idle)
  | .retireIdle =>
    if s.idleRetiring then (s, .idle)
    else
      match s.state with
      | .ready value =>
        if unique then ({ s.begin value with idleRetiring := true }, .finish .retireIdle value) else (s, .idle)
      | .closing value => ({ s with idleRetiring := true }, .finish .retireIdle value)
      | _ => (s, .idle)

def publish (build : ℕ) : Slot := { s with state := .ready build, published := build :: s.published }

def recordFailure (build error : ℕ) : Slot :=
  match s.state with
  | .building current =>
    if current % 2 ^ 64 = build % 2 ^ 64 then { s with state := .closed, failed := (build, error) :: s.failed } else s
  | _ => s

def notifyWaiters : Slot := { s with notified := s.notified + 1 }

/-- The shared future of the teardown completes under the poll of one of its holders. -/
def tear (value : ℕ) : Slot := if value ∈ s.torn then s else { s with torn := value :: s.torn }

def settle (value : ℕ) : Slot := if s.state = .closing value then notifyWaiters { s with state := .closed } else s

end Slot

inductive Choice where
  | go (unique : Bool)
  | call (op : Op)
  | fail (error : ℕ)
  | cancel

/-- One section of a task between awaits or locks, or the drop of its future at an await. A dropped build fails too. -/
def step (s : Slot) : Task → Choice → Option (Slot × Task)
  | .idle, .call (.acquire _) => some (s, .enter (.acquire none))
  | .idle, .call op => some (s, .enter op)
  | .enter op, .go _ => some (s, .look op s.notified)
  | .look op seen, .go unique => some (s.look unique seen op)
  | .wait op seen _, .go _ => if seen = s.notified then none else some (s, .enter op)
  | .wait _ _ _, .cancel => some (s, .idle)
  | .build build, .go _ => some (s.publish build, .notify (.ok build))
  | .build build, .fail error => some (s.recordFailure build error, .notify (.error error))
  | .notify result, .go _ => some (s.notifyWaiters, .done result)
  | .finish op value, .go _ => some (s.tear value, .settle op value)
  | .finish .retireIdle _, .cancel | .release, .go _ => some ({ s with idleRetiring := false }, .idle)
  | .finish _ _, .cancel => some (s, .idle)
  | .settle (.acquire waited) value, .go _ => some (s.settle value, .enter (.acquire waited))
  | .settle .retireIdle value, .go _ => some (s.settle value, .release)
  | .settle _ value, .go _ => some (s.settle value, .idle)
  | .done _, .go _ => some (s, .idle)
  | _, _ => none

def lifecycle : System Slot Task Choice where
  init := {}
  idle := .idle
  step := step
  reclaim _ _ _ := False

/-- The caller of a `retire` has the observed value. -/
def Task.Holds (value : ℕ) : Task → Prop
  | .notify result | .done result => result = .ok value
  | .enter op | .look op _ | .finish op _ | .settle op _ => op = .close (some value)
  | _ => False

def Task.Retires : Task → Prop
  | .finish op _ | .settle op _ => op = .retireIdle
  | .release => True
  | _ => False

/-- `unique` is a true reading of the reference count. -/
def Counted (s : Slot) (ls : ℕ → Task) : Choice → Prop
  | .go true => ∀ value, s.state = .ready value → ∀ j, ¬ (ls j).Holds value
  | _ => True

structure Sound (s : Slot) : Prop where
  builds : s.state = .building b → b = s.builds
  bound : n ∈ s.published ∨ n ∈ s.failed.map Prod.fst → n ≤ s.builds ∧ s.state ≠ .building n
  order : s.failed.Pairwise fun a b => b.1 < a.1
  ended : v ∈ s.published → v ∈ s.torn ∨ s.state = .ready v ∨ s.state = .closing v
  ready : s.state = .ready v → v ∈ s.published ∧ v ∉ s.begun
  begun : s.begun ⊆ s.published
  once : s.begun.Nodup ∧ s.torn.Nodup

def Task.Fits (s : Slot) : Task → Prop
  | .build n => s.state = .building n
  | .look _ seen | .wait _ seen _ => seen ≤ s.notified
  | .finish op value => ∀ w, op = .close (some w) → value = w
  | .settle _ value => value ∈ s.torn
  | _ => True

variable {s s' : Slot} {l l' m : Task} {x : Choice} {ls : ℕ → Task}

section

variable (h : Sound s)
include h

theorem Sound.begin (hv : s.state = .ready v) : Sound (s.begin v) := by
  cases h
  constructor <;> grind [Slot.begin]

theorem Sound.start (hc : s.state = .closed) : Sound { s with state := .building (s.builds + 1), builds := s.builds + 1 } := by
  cases h
  constructor <;> grind

theorem Sound.publish (hb : s.state = .building b) : Sound (s.publish b) := by
  cases h
  constructor <;> grind [Slot.publish]

theorem Sound.recordFailure (hs : s.state = .building b) : Sound (s.recordFailure b e) := by
  have ⟨hb, ho, hf, he, hr, hu, hn⟩ := h
  have hl : ∀ f ∈ s.failed, f.1 < b := fun f hf => by
    have := ho (.inr (mem_map_of_mem hf))
    grind
  simp only [Slot.recordFailure, hs, if_true]
  exact ⟨nofun, by grind, pairwise_cons.mpr ⟨hl, hf⟩, by grind, nofun, hu, hn⟩

theorem Sound.tear : Sound (s.tear v) := by
  cases h
  constructor <;> grind [Slot.tear]

theorem Sound.settle (hv : v ∈ s.torn) : Sound (s.settle v) := by
  cases h
  constructor <;> grind [Slot.settle, Slot.notifyWaiters]

theorem Sound.congr (r : Bool) (n : ℕ) : Sound { s with idleRetiring := r, notified := n } :=
  ⟨h.builds, h.bound, h.order, h.ended, h.ready, h.begun, h.once⟩

end

def Task.Apart (l m : Task) : Prop := ∀ b c, l = .build b → m ≠ .build c

structure Frame (s : Slot) (l : Task) (s' : Slot) (l' : Task) : Prop where
  sound : Sound s → l.Fits s → Sound s' ∧ l'.Fits s'
  grows : s.notified ≤ s'.notified ∧ s.torn ⊆ s'.torn
  building : s.state = .building b → s'.state = .building b ∨ (∃ c, l = .build c) ∧ ∃ result, l' = .notify result
  starts : l' = .build b ∨ s'.builds ≠ s.builds → s.state = .closed
  closing : s.state = .closing v → s'.state = .closing v ∨ (l.Fits s → v ∈ s.torn ∧ s'.state = .closed)
  waits : l' = .wait op seen b → s'.state = .building b
  notifies : l = .notify result → s.notified < s'.notified
  retiring : s'.idleRetiring = true → l'.Retires ∨ s.idleRetiring = true ∧ ¬ l.Retires

theorem look_frame (h : s.look unique seen op = (s', l')) : Frame s (.look op seen) s' l' := by
  revert h
  fun_cases Slot.look s unique seen op <;>
  · intro h
    constructor
    case sound => grind -ring -linarith [Task.Fits, Sound.begin, Sound.start, Sound.congr]
    all_goals grind -ring -linarith [Slot.begin, Task.Retires]

theorem step_frame (h : step s l x = some (s', l')) : Frame s l s' l' := by
  revert h
  fun_cases step s l x with
  | case4 => exact fun h => look_frame (Option.some.inj h)
  | _ =>
    -- The other steps apply one operation of the slot each, so that its lemma above and its definition tell all.
    intro h
    constructor
    case sound => grind -ring -linarith [Slot.tear, Slot.notifyWaiters, Task.Fits, Sound.publish, Sound.recordFailure, Sound.tear,
      Sound.settle, Sound.congr]
    all_goals grind -ring -linarith [Slot.publish, Slot.recordFailure, Slot.notifyWaiters, Slot.tear, Slot.settle, Task.Fits, Task.Retires]

theorem step_others (h : step s l x = some (s', l')) (hm : m.Fits s) (hb : l.Apart m) : m.Fits s' ∧ l'.Apart m := by
  cases step_frame h
  cases m <;> grind [Task.Fits, Task.Apart]

theorem invariant : lifecycle.Invariant Sound (fun s l => l.Fits s) Task.Apart where
  symm _ _ h b c hm hl := h c b hl hm
  init := ⟨nofun, by simp [lifecycle], .nil, nofun, nofun, nofun, nodup_nil, nodup_nil⟩
  idle := trivial
  apart := nofun
  step _ _ _ _ _ hs hl h := (step_frame h).sound hs hl
  others _ _ _ _ _ _ _ _ hm hb h := step_others h hm hb
  reclaim _ _ _ _ _ h := h.elim

/-- What some task still has to do. -/
structure Owed (s : Slot) (ls : ℕ → Task) : Prop where
  retiring : s.idleRetiring = true → ∃ j, (ls j).Retires
  woken : ls j = .wait op seen b → s.state = .building b ∨ seen < s.notified ∨ ∃ k result, ls k = .notify result

theorem owed (h : lifecycle.Reachable s ls) : Owed s ls := by
  induction h with
  | init => exact ⟨nofun, nofun⟩
  | step s s' ls i x l' hr h ih =>
    have hf := step_frame h
    refine ⟨fun ht => ?_, fun {j op seen b} hj => ?_⟩
    · rcases hf.retiring ht with hl | ⟨ht, hl⟩
      · exact ⟨i, by rwa [update_self]⟩
      · obtain ⟨j, hj⟩ := ih.retiring ht
        exact ⟨j, by rwa [update_of_ne (ne_of_apply_ne ls fun he => hl (he ▸ hj))]⟩
    by_cases hi : j = i
    · rw [hi, update_self] at hj
      exact .inl (hf.waits hj)
    rw [update_of_ne hi] at hj
    rcases ih.woken hj with hb | hn | ⟨k, result, hk⟩
    · rcases hf.building hb with hb | ⟨-, result, hl⟩
      · exact .inl hb
      · exact .inr (.inr ⟨i, result, by rwa [update_self]⟩)
    · exact .inr (.inl (hn.trans_le hf.grows.1))
    -- A notification that was owed came, or is owed still.
    by_cases hi : k = i
    · subst hi
      have hn := (invariant.reachable hr).2.1 j
      rw [hj] at hn
      exact .inr (.inl (hn.trans_lt (hf.notifies hk)))
    · exact .inr (.inr ⟨k, result, by rwa [update_of_ne hi]⟩)
  | reclaim _ _ _ _ h => exact h.elim

/-- What holds of each step of a task. -/
structure Orderly (s : Slot) (ls : ℕ → Task) (l : Task) (s' : Slot) (l' : Task) : Prop where
  start : s'.builds ≠ s.builds → s.state = .closed ∧ (∀ j b, ls j ≠ .build b) ∧ s.published ⊆ s.torn
  once : s'.begun.Nodup ∧ s'.torn.Nodup
  closing : s.state = .closing v → s'.state = .closing v ∨ v ∈ s.torn ∧ s'.state = .closed
  continued : s.state = .closing v → l = .look op seen → l' = .finish op v ∨ (∃ w ≠ v, op = .close (some w)) ∨
    (∃ error, l' = .done (.error error)) ∨ op = .retireIdle ∧ ∃ j, (ls j).Retires
  retire : l = .look (.close (some v)) seen → s'.begun = s.begun ∨ s'.begun = v :: s.begun
  torn : ls j = .finish (.close (some v)) w → w = v
  idle : l = .look .retireIdle seen → s'.begun = s.begun ∨ ∃ v, s'.begun = v :: s.begun ∧ ∀ j, ¬ (ls j).Holds v
  failed : l = .look (.acquire (some b)) seen → (b, e) ∈ s.failed → l' = .done (.error e) ∨ ∃ later ∈ s.failed, b < later.1
  woken : ls j = .wait op seen b → s.state = .building b ∨ seen < s.notified ∨ ∃ k result, ls k = .notify result

theorem failure_of_mem (hs : Sound s) (h : (b, e) ∈ s.failed) : s.failure (some b) = some e ∨ ∃ later ∈ s.failed, b < later.1 := by
  have ho := hs.order
  cases hf : s.failed with
  | nil => simp [hf] at h
  | cons last rest =>
    rw [hf] at h ho
    rcases mem_cons.mp h with rfl | h
    · simp [Slot.failure, hf]
    · exact .inr ⟨last, mem_cons_self, (pairwise_cons.mp ho).1 _ h⟩

/-- Value 1 is built, closed and still held; value 2 is built, and its `close` is dropped half way. -/
def abandoned : List (ℕ × Choice) :=
  (1, .call (.acquire none)) :: replicate 4 (1, .go false) ++ (0, .call (.close none)) :: replicate 4 (0, .go false) ++
  (0, .call (.acquire none)) :: replicate 5 (0, .go false) ++ [(0, .call (.close none)), (0, .go false), (0, .go false),
    (0, .cancel), (1, .go false), (1, .call (.close (some 1))), (1, .go false)]

end Honk.Dns.Lifecycle
