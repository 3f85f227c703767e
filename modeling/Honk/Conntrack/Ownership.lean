import Honk.Conntrack.Udp

namespace Honk.Conntrack.Udp

open Honk.Lib Honk.Nfqueue Function UdpDecisionState
open List hiding Vector

/-- Each incarnation in memory has one claim and one element, and an element is in preparation exactly until
its claim is released. -/
structure Owned (s : Kernel) : Prop where
  claims : (s.claimed.map Prod.snd).Nodup
  bounded : ∀ claim ∈ s.claimed, claim.2 ≠ 0 ∧ claim.2.toNat ≤ s.sequence.toNat
  once : s.released.Nodup
  released : ∀ i ∈ s.released, ∃ key, (key, i) ∈ s.claimed
  memory : ∀ a, (s.conn.memory a).incarnation ≠ 0 → ∃ key, (key, (s.conn.memory a).incarnation) ∈ s.claimed
  unique : ∀ a b, (s.conn.memory a).incarnation ≠ 0 → (s.conn.memory a).incarnation = (s.conn.memory b).incarnation → a = b
  preparing : ∀ a, (s.conn.memory a).incarnation ≠ 0 →
    ((s.conn.memory a).state = preparing.code ↔ (s.conn.memory a).incarnation ∉ s.released)
  entries : ∀ key a, s.conn.entries key = some a → (key, (s.conn.memory a).incarnation) ∈ s.claimed

structure Apart (l m : Handler) : Prop where
  owns : ∀ i, l.Owns i → ¬ m.Owns i
  backend : ¬ (l.IsBackend ∧ m.IsBackend)

variable {l m l' : Handler} {s s' : Kernel}

theorem Apart.symm (h : Apart l m) : Apart m l := ⟨fun i hm hl => h.owns i hl hm, fun ⟨hm, hl⟩ => h.backend ⟨hl, hm⟩⟩

theorem Apart.lesser (h : Apart l m) (hle : Lesser l' l) : Apart l' m :=
  ⟨fun i hl => h.owns i (hle.owns i hl), fun ⟨hl, hm⟩ => h.backend ⟨hle.backend hl, hm⟩⟩

namespace Owned

variable (h : Owned s)
include h

theorem update {a : ℕ} {next : ConnState} (hid : next.incarnation = (s.conn.memory a).incarnation)
    (hs : next.state = UdpDecisionState.preparing.code ↔
      (s.conn.memory a).state = UdpDecisionState.preparing.code) : Owned { s with conn := s.conn.update a next } := by
  have hsa : ∀ b, ((s.conn.update a next).memory b).incarnation = (s.conn.memory b).incarnation := by
    intro b
    by_cases hb : b = a
    · rw [hb, ← hid]
      exact congrArg ConnState.incarnation (update_self ..)
    · exact congrArg ConnState.incarnation (update_of_ne hb ..)
  have hpr : ∀ b, ((s.conn.update a next).memory b).state = UdpDecisionState.preparing.code ↔
      (s.conn.memory b).state = UdpDecisionState.preparing.code := by
    intro b
    by_cases hb : b = a
    · rw [hb, ← hs]
      simp [Elements.update]
    · simp [Elements.update, update_of_ne hb]
  refine ⟨h.claims, h.bounded, h.once, h.released, fun b => ?_, fun b c => ?_, fun b => ?_, fun key b hb => ?_⟩
  · rw [hsa]
    exact h.memory b
  · rw [hsa, hsa]
    exact h.unique b c
  · rw [hsa, hpr]
    exact h.preparing b
  · rw [hsa]
    exact h.entries key b hb

theorem of_owned (hf : Fit s l) (hc : ∃ key, (key, i) ∈ l.claims) : i ≠ 0 := by
  obtain ⟨key, hk⟩ := hc
  exact (h.bounded _ (hf.claims _ hk)).1

theorem release {a : ℕ} {i : BitVec 64} {next : ConnState} (hi : i ≠ 0) (ho : owned (s.conn.memory a) i = true) (hid : next.incarnation = i)
    (hs : next.state ≠ UdpDecisionState.preparing.code) :
    Owned { s with conn := s.conn.update a next, released := i :: s.released } := by
  simp only [owned, Bool.and_eq_true, beq_iff_eq] at ho
  obtain ⟨⟨hpr, -⟩, hc⟩ := ho
  have hsa : ∀ b, ((s.conn.update a next).memory b).incarnation = (s.conn.memory b).incarnation := by
    intro b
    by_cases hb : b = a
    · rw [hb, hc, ← hid]
      exact congrArg ConnState.incarnation (update_self ..)
    · exact congrArg ConnState.incarnation (update_of_ne hb ..)
  have hn : i ∉ s.released := hc ▸ (h.preparing a (by rwa [hc])).mp hpr
  refine ⟨h.claims, h.bounded, nodup_cons.mpr ⟨hn, h.once⟩, fun j hj => ?_, fun b => ?_, fun b c => ?_,
    fun b hb => ?_, fun key b hb => ?_⟩
  · rcases mem_cons.mp hj with rfl | hj
    · exact hc ▸ h.memory a (by rwa [hc])
    · exact h.released j hj
  · rw [hsa]
    exact h.memory b
  · rw [hsa, hsa]
    exact h.unique b c
  · rw [hsa] at hb ⊢
    by_cases hba : b = a
    · subst hba
      simp [Elements.update, hc, hs]
    have hne : (s.conn.memory b).incarnation ≠ i := fun he => hba (h.unique b a hb (he.trans hc.symm))
    rw [mem_cons, not_or, ← h.preparing b hb]
    simp [Elements.update, update_of_ne hba, hne]
  · rw [hsa]
    exact h.entries key b hb

theorem insert (ha : a ∉ s.conn.live) (hi : i ≠ 0 ∧ i.toNat ≤ s.sequence.toNat ∧ ∀ key, (key, i) ∉ s.claimed) : Owned { s with
      conn := s.conn.insert key a (preparingState mac i now) ha, claimed := (key, i) :: s.claimed } := by
  obtain ⟨hz, hl, hf⟩ := hi
  have hs : (s.conn.insert key a (preparingState mac i now) ha).memory a = preparingState mac i now := by simp
  have ho : ∀ {b}, b ≠ a → (s.conn.insert key a (preparingState mac i now) ha).memory b = s.conn.memory b :=
    fun hb => by simp [update_of_ne hb]
  have hn : ∀ b, (s.conn.memory b).incarnation ≠ i := by
    rintro b rfl
    obtain ⟨other, ho⟩ := h.memory b hz
    exact hf other ho
  refine ⟨?_, fun claim hm => ?_, h.once, fun j hj => ?_, fun b hb => ?_, fun b c hb hbc => ?_, fun b hb => ?_,
    fun other b hb => ?_⟩
  · refine nodup_cons.mpr ⟨fun hm => ?_, h.claims⟩
    obtain ⟨⟨other, j⟩, hc, rfl⟩ := mem_map.mp hm
    exact hf other hc
  · rcases mem_cons.mp hm with rfl | hm
    · exact ⟨hz, hl⟩
    · exact h.bounded claim hm
  · obtain ⟨other, ho⟩ := h.released j hj
    exact ⟨other, mem_cons_of_mem _ ho⟩
  · by_cases hba : b = a
    · rw [hba, hs]
      exact ⟨key, mem_cons_self ..⟩
    · dsimp only at hb ⊢
      rw [ho hba] at hb ⊢
      obtain ⟨other, hm⟩ := h.memory b hb
      exact ⟨other, mem_cons_of_mem _ hm⟩
  · dsimp only at hb hbc
    by_cases hba : b = a
    · by_cases hca : c = a
      · rw [hba, hca]
      · rw [hba, hs, ho hca] at hbc
        exact absurd hbc.symm (hn c)
    rw [ho hba] at hb hbc
    by_cases hca : c = a
    · rw [hca, hs] at hbc
      exact absurd hbc (hn b)
    · rw [ho hca] at hbc
      exact h.unique b c hb hbc
  · by_cases hba : b = a
    · dsimp only
      rw [hba, hs]
      refine iff_of_true rfl fun hm => ?_
      obtain ⟨other, hc⟩ := h.released i hm
      exact hf other hc
    · dsimp only at hb ⊢
      rw [ho hba] at hb ⊢
      exact h.preparing b hb
  dsimp only at hb ⊢
  rw [Elements.insert_entries] at hb
  by_cases hk : other = key
  · rw [hk, update_self] at hb
    rw [← Option.some.inj hb, hs, hk]
    exact mem_cons_self ..
  rw [update_of_ne hk] at hb
  have hba : b ≠ a := fun he => ha (he ▸ s.conn.linked other b hb)
  rw [ho hba]
  exact mem_cons_of_mem _ (h.entries other b hb)

theorem effect (hf : Fit s l) (hef : Effect s l s' l') : Owned s' := by
  cases hef with
  | stay _ _ => exact h
  | lock _ _ | unlock _ => exact ⟨h.1, h.2, h.3, h.4, h.5, h.6, h.7, h.8⟩
  | allocate _ hn =>
    have hl := allocateFlowIncarnation_some hn
    exact ⟨h.1, fun claim hm => ⟨(h.bounded claim hm).1, by have := (h.bounded claim hm).2; dsimp only; omega⟩, h.3, h.4,
      h.5, h.6, h.7, h.8⟩
  | insert hph _ ha =>
    have hc := hf.phase
    rw [hph] at hc
    exact h.insert ha hc
  | release hcl ho hid hs => exact h.release (h.of_owned hf hcl) ho hid hs
  | refresh _ _ _ _ => exact h.update rfl Iff.rfl
  | retire _ => exact ⟨h.1, h.2, h.3, h.4, h.5, h.6, h.7, fun key a ha => h.entries key a (Elements.entries_of_remove ha)⟩
  | commit hph he =>
    have hco := hf.phase
    rw [hph] at hco
    obtain ⟨-, hn, a, he', hid, hs⟩ := hco
    obtain rfl := Option.some.inj (he.symm.trans he')
    exact h.update hid.symm (iff_of_false hn hs)

end Owned

theorem Fit.others (hm : Fit s m) (hap : Apart l m) (hef : Effect s l s' l') : Fit s' m := by
  have hph := hm.phase
  -- A claim in progress and a commit in progress are all that an effect could disturb.
  have hke : (∀ claim ∈ s.claimed, claim ∈ s'.claimed) →
      (∀ key mac i, m.phase = .claiming key mac i → s.sequence.toNat ≤ s'.sequence.toNat ∧
        ∀ other, (other, i) ∉ s.claimed → (other, i) ∉ s'.claimed) →
      (m.IsBackend → s'.busy = s.busy) →
      (∀ key next initial a, m.phase = .committing key next initial → s.conn.entries key = some a →
        (s.conn.memory a).state ≠ preparing.code → s'.conn.entries key = some a ∧
          (s'.conn.memory a).incarnation = (s.conn.memory a).incarnation ∧
          (s'.conn.memory a).state ≠ preparing.code) → Fit s' m := by
    intro hc hcl hbu hco
    refine ⟨fun claim hme => hc claim (hm.claims claim hme), ?_, hm.answer⟩
    cases hmp : m.phase with
    | claiming key mac i =>
      rw [hmp] at hph
      obtain ⟨hse, hf⟩ := hcl key mac i hmp
      exact ⟨hph.1, hph.2.1.trans hse, fun other => hf other (hph.2.2 other)⟩
    | backend =>
      rw [hmp] at hph
      exact (hbu (.inl hmp)).trans hph
    | committing key next initial =>
      rw [hmp] at hph
      obtain ⟨hb, hn, a, he, hid, hs⟩ := hph
      obtain ⟨he', hid', hs'⟩ := hco key next initial a hmp he hs
      exact ⟨(hbu (.inr ⟨key, next, initial, hmp⟩)).trans hb, hn, a, he', hid'.trans hid, hs'⟩
    | _ =>
      rw [hmp] at hph
      exact hph
  have hse (hc : s'.claimed = s.claimed) (hs : s.sequence.toNat ≤ s'.sequence.toNat) := hke (fun _ h => hc ▸ h)
    fun _ _ _ _ => ⟨hs, fun _ h => hc ▸ h⟩
  cases hef with
  | stay _ _ => exact hm
  | lock hfr _ =>
    refine hse rfl le_rfl (fun hbackend => ?_) fun _ _ _ _ _ he hs => ⟨he, rfl, hs⟩
    rcases hbackend with hmp | ⟨key, next, initial, hmp⟩
    · rw [hmp] at hph
      exact hph.symm
    · rw [hmp] at hph
      exact hph.1.symm
  | unlock hl =>
    exact hse rfl le_rfl (fun hbackend => absurd ⟨.inl hl, hbackend⟩ hap.backend) fun _ _ _ _ _ he hs => ⟨he, rfl, hs⟩
  | allocate _ hn =>
    have hlt := allocateFlowIncarnation_some hn
    exact hse rfl (by dsimp only; omega) (fun _ => rfl) fun _ _ _ _ _ he hs => ⟨he, rfl, hs⟩
  | @insert key mac i a now hl hno ha =>
    refine hke (fun _ h => mem_cons_of_mem _ h) (fun other mac' j hmp => ⟨le_rfl, fun k hk hme => ?_⟩) (fun _ => rfl)
      fun other next initial b hmp he hs => ?_
    · rcases mem_cons.mp hme with heq | hme
      · have hj : j = i := congrArg Prod.snd heq
        exact hap.owns i (.inr ⟨key, mac, hl⟩) (.inr ⟨other, mac', hj ▸ hmp⟩)
      · exact hk hme
    have hot : other ≠ key := by
      rintro rfl
      rw [hno] at he
      cases he
    have hba : b ≠ a := fun heq => ha (heq ▸ s.conn.linked other b he)
    dsimp only
    rw [Elements.insert_entries, Elements.insert_memory, update_of_ne hot, update_of_ne hba]
    exact ⟨he, rfl, hs⟩
  | @release i a next hclaim ho hid _ =>
    refine hse rfl le_rfl (fun _ => rfl) fun key _ _ b _ he hs => ?_
    have hba : b ≠ a := by
      rintro rfl
      simp only [owned, Bool.and_eq_true, beq_iff_eq] at ho
      exact hs ho.1.1
    dsimp only [Elements.update]
    rw [update_of_ne hba]
    exact ⟨he, rfl, hs⟩
  | @refresh a now _ _ _ _ _ =>
    refine hse rfl le_rfl (fun _ => rfl) fun key _ _ b _ he hs => ?_
    dsimp only [Elements.update]
    by_cases hba : b = a
    · rw [hba, update_self]
      exact ⟨hba ▸ he, rfl, hba ▸ hs⟩
    · rw [update_of_ne hba]
      exact ⟨he, rfl, hs⟩
  | retire hl =>
    exact hse rfl le_rfl (fun _ => rfl) fun key next initial _ hmp _ _ =>
      absurd ⟨.inl hl, .inr ⟨key, next, initial, hmp⟩⟩ hap.backend
  | commit hl _ =>
    exact hse rfl le_rfl (fun _ => rfl) fun key next initial _ hmp _ _ =>
      absurd ⟨.inr ⟨_, _, _, hl⟩, .inr ⟨key, next, initial, hmp⟩⟩ hap.backend

theorem Fit.effect (ho : Owned s) (hf : Fit s l) (he : Effect s l s' l') : Fit s' l' := by
  have hph := hf.phase
  cases he with
  | stay hf' _ => exact hf'
  | lock _ _ => exact ⟨hf.claims, rfl, hf.answer⟩
  | unlock _ | release _ _ _ _ => exact ⟨hf.claims, trivial, hf.answer⟩
  | allocate _ hn =>
    have hlt := allocateFlowIncarnation_some hn
    refine ⟨hf.claims, ⟨fun hz => ?_, le_rfl, fun key hm => ?_⟩, hf.answer⟩
    · rw [hz] at hlt
      exact absurd hlt (by simp)
    have hle := (ho.bounded _ hm).2
    dsimp only at hle
    omega
  | insert _ _ _ =>
    refine ⟨fun claim hm => ?_, trivial, hf.answer⟩
    rcases mem_cons.mp hm with rfl | hm
    · exact mem_cons_self ..
    · exact mem_cons_of_mem _ (hf.claims claim hm)
  | refresh _ hf' hid _ => exact ⟨hf'.claims, by rw [hid]; trivial, hf'.answer⟩
  | retire hl =>
    rw [hl] at hph
    exact ⟨hf.claims, by rw [hl]; exact hph, hf.answer⟩
  | commit hl _ =>
    rw [hl] at hph
    exact ⟨hf.claims, hph.1, hf.answer⟩

theorem Apart.effect (ho : Owned s) (hm : Fit s m) (ha : Apart l m) (he : Effect s l s' l') : Apart l' m := by
  have hne : ∀ {l'' : Handler}, (∀ i, l''.Owns i → l.Owns i ∨ ¬ m.Owns i) →
      (l''.IsBackend → l.IsBackend ∨ ¬ m.IsBackend) → Apart l'' m := fun how hb =>
    ⟨fun i hl => (how i hl).elim (ha.owns i) id, fun ⟨hl, hmb⟩ => (hb hl).elim (fun hl => ha.backend ⟨hl, hmb⟩) fun hno => hno hmb⟩
  have hph := hm.phase
  cases he with
  | stay _ hless | refresh _ _ _ hless => exact ha.lesser hless
  | lock hf hl =>
    refine hne (fun i h => .inl ?_) fun _ => .inr fun hmb => ?_
    · exact h.imp_right fun ⟨key, mac, hp⟩ => by cases hp
    rcases hmb with hmp | ⟨key, next, initial, hmp⟩
    · rw [hmp] at hph
      exact Bool.false_ne_true (hf.symm.trans hph)
    · rw [hmp] at hph
      exact Bool.false_ne_true (hf.symm.trans hph.1)
  | unlock _ | release _ _ _ _ => exact ha.lesser (.idle l)
  | @allocate i key mac hl hn =>
    have hlt := allocateFlowIncarnation_some hn
    refine hne (fun j h => ?_) fun h => absurd h (not_isBackend rfl nofun nofun)
    rcases h with h | ⟨key', mac', hp⟩
    · exact .inl (.inl h)
    cases hp
    refine .inr ?_
    rintro (⟨other, hme⟩ | ⟨other, mac', hmp⟩)
    · have hle := (ho.bounded _ (hm.claims _ hme)).2
      dsimp only at hle
      omega
    rw [hmp] at hph
    have hle := hph.2.1
    omega
  | @insert key mac i _ _ hl _ _ =>
    refine hne (fun j h => .inl ?_) fun h => absurd h (not_isBackend rfl nofun nofun)
    rcases h with ⟨other, hme⟩ | ⟨_, _, hp⟩
    · rcases mem_cons.mp hme with heq | hme
      · cases heq
        exact .inr ⟨key, mac, hl⟩
      · exact .inl ⟨other, hme⟩
    · cases hp
  | retire _ => exact ha
  | commit hl _ => exact ha.lesser (.goto nofun fun _ => .inr ⟨_, _, _, hl⟩)

theorem claims_invariant : claims.Invariant Owned Fit Apart where
  symm _ _ h := h.symm
  init := ⟨.nil, nofun, .nil, nofun, fun a h => absurd rfl h, fun a b h => absurd rfl h, fun a h => absurd rfl h, nofun⟩
  idle := ⟨nofun, trivial, nofun⟩
  apart := ⟨by simp [claims, Handler.Owns], by simp [claims, Handler.IsBackend]⟩
  step _ _ _ _ _ ho hf h := ⟨ho.effect hf (step_effect hf h), .effect ho hf (step_effect hf h)⟩
  others _ _ _ _ _ _ ho hf hm ha h :=
    ⟨.others hm ha (step_effect hf h), .effect ho hm ha (step_effect hf h)⟩
  reclaim _ _ _ _ _ h := h.elim

/-- How a section may change an element in place: its own claim is published or aborted, a follower renews it,
or the backend commits a decision. -/
inductive Change (l : Handler) (before after : ConnState) : Prop
  | released {key : TuplesKey} (hclaim : (key, before.incarnation) ∈ l.claims)
      (hbefore : before.state = preparing.code) (hid : after.incarnation = before.incarnation)
      (hafter : after.state ≠ preparing.code)
  | refreshed {now : BitVec 64} (hbefore : before.state ∉ frozen) (hafter : after = { before with lastSeenNs := now })
  | committed (hbackend : l.IsBackend) (hbefore : before.state ≠ preparing.code)
      (hid : after.incarnation = before.incarnation) (hafter : after.state ≠ preparing.code)

theorem Effect.change (hf : Fit s l) (h : Effect s l s' l') (ha : a ∈ s.conn.live) (hne : s'.conn.memory a ≠ s.conn.memory a) :
    Change l (s.conn.memory a) (s'.conn.memory a) := by
  have hu : ∀ {b next}, (s.conn.update b next).memory a ≠ s.conn.memory a → b = a ∧ (s.conn.update b next).memory a = next := by
    intro b next hne
    by_cases hab : a = b
    · subst hab
      exact ⟨rfl, update_self ..⟩
    · exact absurd (update_of_ne hab ..) hne
  cases h with
  | stay _ _ | lock _ _ | unlock _ | allocate _ _ | retire _ => exact absurd rfl hne
  | @insert _ _ _ b _ _ _ hb =>
    have hab : a ≠ b := fun heq => hb (heq ▸ ha)
    exact absurd (by simp [update_of_ne hab]) hne
  | release hcl ho hid hs =>
    obtain ⟨rfl, hn⟩ := hu hne
    simp only [owned, Bool.and_eq_true, beq_iff_eq] at ho
    obtain ⟨key, hk⟩ := hcl
    dsimp only
    rw [hn]
    exact .released (ho.2 ▸ hk) ho.1.1 (hid.trans ho.2.symm) hs
  | refresh hs _ _ _ =>
    obtain ⟨rfl, hn⟩ := hu hne
    dsimp only
    rw [hn]
    exact .refreshed hs rfl
  | commit hph he =>
    obtain ⟨rfl, hn⟩ := hu hne
    have hc := hf.phase
    rw [hph] at hc
    obtain ⟨-, hs, b, he', hid, hbe⟩ := hc
    obtain rfl := Option.some.inj (he.symm.trans he')
    dsimp only
    rw [hn]
    exact .committed (.inr ⟨_, _, _, hph⟩) hbe hid.symm hs

theorem Effect.released (h : Effect s l s' l') :
    s'.released = s.released ∨ ∃ i key, s'.released = i :: s.released ∧ (key, i) ∈ l.claims := by
  cases h with
  | release hc _ _ _ =>
    obtain ⟨key, hk⟩ := hc
    exact .inr ⟨_, key, rfl, hk⟩
  | _ => exact .inl rfl

/-- Over every interleaving: an element leaves preparation once, by the producer that claimed its incarnation
and by no other; no section changes an element in any way but its own; and followers are never handed a state
in preparation. -/
theorem udp_claims_owned {ls : ℕ → Handler} (h : claims.Reachable s ls) : (s.claimed.map Prod.snd).Nodup ∧ s.released.Nodup ∧
      (∀ key a, s.conn.entries key = some a → (key, (s.conn.memory a).incarnation) ∈ s.claimed ∧
        ((s.conn.memory a).state ≠ preparing.code ↔ (s.conn.memory a).incarnation ∈ s.released)) ∧
      (∀ i state, (ls i).answer = some (.ok (some state)) → state.state ≠ preparing.code) ∧
      ∀ i x s' l', step s (ls i) x = some (s', l') →
        (s'.released = s.released ∨ ∃ incarnation key, s'.released = incarnation :: s.released ∧
          (key, incarnation) ∈ (ls i).claims ∧ ∀ j ≠ i, ∀ other, (other, incarnation) ∉ (ls j).claims) ∧
        ∀ a ∈ s.conn.live, s'.conn.memory a ≠ s.conn.memory a → Change (ls i) (s.conn.memory a) (s'.conn.memory a) := by
  obtain ⟨ho, hf, hap⟩ := claims_invariant.reachable h
  refine ⟨ho.claims, ho.once, fun key a he => ?_, fun i => (hf i).answer, fun i x s' l' hstep => ⟨?_, ?_⟩⟩
  · have hc := ho.entries key a he
    refine ⟨hc, ?_⟩
    rw [Ne, ho.preparing a (ho.bounded _ hc).1, not_not]
  · refine (step_effect (hf i) hstep).released.imp_right ?_
    rintro ⟨incarnation, key, hr, hcl⟩
    exact ⟨incarnation, key, hr, hcl, fun j hj other hot =>
      (hap i j hj.symm).owns incarnation (.inl ⟨key, hcl⟩) (.inl ⟨other, hot⟩)⟩
  · exact fun a ha hn => (step_effect (hf i) hstep).change (hf i) ha hn

def reuseSchedule : List (ℕ × Input) :=
  [(0, .claim {} (Vector.replicate 6 0) false), (0, .insert 0 0 true), (0, .publish {} { incarnation := 1 } false),
    (2, .lock), (2, .retire {}), (1, .claim {} (Vector.replicate 6 0) false), (1, .insert 0 0 true), (0, .locked)]

theorem udp_claims_owned_reuse : ∃ s ls, claims.Reachable s ls ∧ s.released = [] ∧
    s.conn.entries {} = some 0 ∧ (({} : TuplesKey), (s.conn.memory 0).incarnation) ∈ s.claimed := by
  obtain ⟨s, ls, hs, hru⟩ := claims.exists_reachable_of_run reuseSchedule
    (fun config => decide (config.1.released = [] ∧ config.1.conn.entries {} = some 0)) (by decide +kernel)
  obtain ⟨hr, he⟩ := of_decide_eq_true hru
  exact ⟨s, ls, hs, hr, he, ((udp_claims_owned hs).2.2.1 {} 0 he).1⟩

end Honk.Conntrack.Udp
