import Honk.Lib.Result
import Honk.Shadowsocks.Udp

namespace Honk.Shadowsocks

open Honk.Lib Option Option
open List hiding Vector

variable {Key Peer : Type}

namespace UdpSession

structure Sealed where
  serverSessionId : ℕ
  packetId : ℕ
  body : List Byte

def Sealed.timestamp (s : Sealed) : ℕ := beAt s.body 1 8

section

variable (codec : Codec Key Peer)

def unsealed (packet : List Byte) : Option Sealed :=
  if codec.chacha then
    if packet.length < udpXnonceSize + udpMinimalPacketSize then none
    else ((codec.xchachaOpen (packet.take udpXnonceSize) (packet.drop udpXnonceSize)).filter fun body => 16 ≤ body.length).map fun body =>
      ⟨beAt body 0 8, beAt body 8 8, body.drop 16⟩
  else if h : packet.length < udpMinimalPacketSize then none
  else do
    let header ← (codec.decryptHeader (headerOf packet h)).toOption
    let key ← (codec.sessionKey (header.toList.take 8)).toOption
    let body ← codec.aeadOpen key (header.toList.drop 4) (packet.drop 16)
    return ⟨beAt header.toList 0 8, beAt header.toList 8 8, body⟩

/-- The ids by which a datagram is looked up. -/
def lookupIds (packet : List Byte) : Option (ℕ × ℕ) :=
  if codec.chacha then (unsealed codec packet).map fun s => (s.serverSessionId, s.packetId)
  else if h : packet.length < udpMinimalPacketSize then none
  else (codec.decryptHeader (headerOf packet h)).toOption.map fun header => (beAt header.toList 0 8, beAt header.toList 8 8)

structure Delivery where
  serverSessionId : ℕ
  packetId : ℕ
  time : ℕ

def receive (history : UdpSession Key × List Delivery) (input : List Byte × ℕ) : UdpSession Key × List Delivery :=
  match openPacketAt codec history.1 input.1 input.2, lookupIds codec input.1 with
  | (.ok _, s), some (serverSessionId, packetId) => (s, history.2 ++ [⟨serverSessionId, packetId, input.2⟩])
  | (_, s), _ => (s, history.2)

def run (sessionId : ℕ) (inputs : List (List Byte × ℕ)) : UdpSession Key × List Delivery :=
  inputs.foldl (receive codec) ({ sessionId := sessionId }, [])

end

section

def Keyed (codec : Codec Key Peer) (session : ServerSession Key) : Prop :=
  codec.chacha = false → ∃ salt key, salt.length = 8 ∧ beNat salt = session.id ∧ codec.sessionKey salt = .ok key ∧
    session.cipher = some key

variable {codec : Codec Key Peer} {s : UdpSession Key} {packet : List Byte} {now : ℕ}

inductive Finds (s : UdpSession Key) (serverSessionId packetId now : ℕ) : ServerSessionSlot → Prop
  | current (session : ServerSession Key) (hremote : s.remoteSession = some session) (hid : session.id = serverSessionId)
      (hcheck : session.window.check packetId = true) : Finds s serverSessionId packetId now .current
  | previous (session : ServerSession Key) (hprevious : s.previousRemoteSession = some session) (hid : session.id = serverSessionId)
      (hcheck : session.window.check packetId = true)
      (hother : ∀ current, s.remoteSession = some current → current.id ≠ serverSessionId) :
      Finds s serverSessionId packetId now .previous
  | new (hcurrent : ∀ current, s.remoteSession = some current → current.id ≠ serverSessionId)
      (hprevious : ∀ previous, s.previousRemoteSession = some previous → previous.id ≠ serverSessionId)
      (hheld : s.previousRemoteSession.isSome → s.previousRemoteSeen + 60 ≤ now) : Finds s serverSessionId packetId now .new

theorem filter_eq_none {session : Option (ServerSession Key)} {id : ℕ} (h : session.filter (·.id = id) = none) (other : ServerSession Key)
    (ho : session = some other) : other.id ≠ id := by
  intro hid
  simp [ho, hid] at h

variable {slot : ServerSessionSlot} {accepted : Accepted Key Peer}

theorem finds_of_serverPacketSlot {serverSessionId packetId : ℕ}
    (h : s.serverPacketSlot serverSessionId packetId now = .ok slot) : Finds s serverSessionId packetId now slot := by
  revert h
  fun_cases serverPacketSlot s serverSessionId packetId now with
  | case1 session hf =>
    rintro ⟨⟩
    obtain ⟨hr, hid⟩ := filter_eq_some_iff.mp hf
    exact .current session hr (by simpa using hid) ‹_›
  | case3 session hf hn =>
    rintro ⟨⟩
    obtain ⟨hpr, hid⟩ := filter_eq_some_iff.mp hf
    exact .previous session hpr (by simpa using hid) ‹_› (filter_eq_none hn)
  | case6 hn' hn hh =>
    rintro ⟨⟩
    refine .new (filter_eq_none hn) (filter_eq_none hn') fun hs => ?_
    rw [serverSessionRotationSecs] at hh
    have hno : ¬ now - s.previousRemoteSeen < 60 := fun hl => hh ⟨hs, hl⟩
    omega
  | _ => exact nofun

theorem serverAddressOffset_ok (h : s.serverAddressOffset body now = .ok offset) : now ≤ beAt body 1 8 + 30 ∧ beAt body 1 8 ≤ now + 30 := by
  revert h
  fun_cases serverAddressOffset s body now <;> rintro ⟨⟩
  omega

structure Passes (codec : Codec Key Peer) (s : UdpSession Key) (packet : List Byte) (now : ℕ) (accepted : Accepted Key Peer) : Prop where
  slot : s.serverPacketSlot accepted.serverSessionId accepted.packetId now = .ok accepted.slot
  ids : lookupIds codec packet = some (accepted.serverSessionId, accepted.packetId)
  genuine : ∃ opened, unsealed codec packet = some opened ∧ opened.serverSessionId = accepted.serverSessionId ∧
    opened.packetId = accepted.packetId ∧ now ≤ opened.timestamp + 30 ∧ opened.timestamp ≤ now + 30
  cipher : accepted.slot = .new → codec.chacha = false → ∃ salt key, salt.length = 8 ∧
    beNat salt = accepted.serverSessionId ∧ codec.sessionKey salt = .ok key ∧ accepted.cipher = some key

theorem passes_chacha (hc : codec.chacha = true) (h : acceptChacha codec s packet now = .ok accepted) :
    Passes codec s packet now accepted := by
  revert h
  fun_cases acceptChacha codec s packet now with
  | case4 hl body hop hb =>
    intro h
    obtain ⟨slot, hs, h⟩ := bind_eq_ok.mp h
    obtain ⟨offset, ho, h⟩ := bind_eq_ok.mp h
    obtain ⟨datagram, -, h⟩ := bind_eq_ok.mp h
    cases h
    have hu : unsealed codec packet = some ⟨beAt body 0 8, beAt body 8 8, body.drop 16⟩ := by
      rw [unsealed, if_pos hc, if_neg hl, hop, filter_some, if_pos (by simpa using hb), map_some]
    refine ⟨hs, ?_, ⟨_, hu, rfl, rfl, serverAddressOffset_ok ho⟩, fun _ haes => ?_⟩
    · rw [lookupIds, if_pos hc, hu, map_some]
    · exact nomatch hc.symm.trans haes
  | _ => exact nofun

section

variable (haes : codec.chacha = false) (hkeyed : ∀ session, s.remoteSession = some session ∨ s.previousRemoteSession = some session → Keyed codec session)
include haes hkeyed

theorem slotCipher_ok (hsl : s.serverPacketSlot (beAt header.toList 0 8) (beAt header.toList 8 8) now = .ok slot)
    (h : slotCipher codec s header slot = .ok (cipher, fresh)) :
    codec.sessionKey (header.toList.take 8) = .ok cipher ∧ (slot = .new → fresh = some cipher) := by
  have ht : ∀ session, s.remoteSession = some session ∨ s.previousRemoteSession = some session →
      session.id = beAt header.toList 0 8 → session.cipher = some cipher → codec.sessionKey (header.toList.take 8) = .ok cipher := by
    intro session hs hid hc
    obtain ⟨salt, key, hl, hsa, hk, hso⟩ := hkeyed session hs haes
    obtain rfl := some.inj (hso.symm.trans hc)
    have he : header.toList.take 8 = salt := beNat_injective _ _ (by simp [hl]) (by rw [hsa, hid]; rfl)
    rw [he]
    exact hk
  cases finds_of_serverPacketSlot hsl with
  | current session hr hid =>
    rw [slotCipher, hr, bind_some] at h
    split at h
    · rename_i known hc
      cases h
      exact ⟨ht session (.inl hr) hid hc, nofun⟩
    · cases h
  | previous session hpr hid =>
    rw [slotCipher, hpr, bind_some] at h
    split at h
    · rename_i known hc
      cases h
      exact ⟨ht session (.inr hpr) hid hc, nofun⟩
    · cases h
  | new =>
    rw [slotCipher] at h
    split at h
    · rename_i known hk
      cases h
      exact ⟨hk, fun _ => rfl⟩
    · cases h

theorem passes_aes (h : acceptAes codec s packet now = .ok accepted) : Passes codec s packet now accepted := by
  revert h
  fun_cases acceptAes codec s packet now with
  | case3 hl header hh =>
    intro h
    obtain ⟨slot, hs, h⟩ := bind_eq_ok.mp h
    obtain ⟨⟨cipher, fresh⟩, hc, h⟩ := bind_eq_ok.mp h
    dsimp only at h
    obtain ⟨hk, hf⟩ := slotCipher_ok haes hkeyed hs hc
    split at h
    · cases h
    rename_i body hop
    obtain ⟨offset, ho, h⟩ := bind_eq_ok.mp h
    obtain ⟨datagram, -, h⟩ := bind_eq_ok.mp h
    cases h
    have hn : ¬ codec.chacha = true := by simp [haes]
    have hu : unsealed codec packet = some ⟨beAt header.toList 0 8, beAt header.toList 8 8, body⟩ := by
      rw [unsealed, if_neg hn, dif_neg hl, hh]
      simp [Except.toOption, hk, hop]
    refine ⟨hs, ?_, ⟨_, hu, rfl, rfl, serverAddressOffset_ok ho⟩, fun hne _ => ?_⟩
    · rw [lookupIds, if_neg hn, dif_neg hl, hh]
      rfl
    · exact ⟨header.toList.take 8, cipher, by simp, rfl, hk, hf hne⟩
  | _ => exact nofun

end

theorem passes_of_accept (hkeyed : ∀ session, s.remoteSession = some session ∨ s.previousRemoteSession = some session → Keyed codec session)
    (h : accept codec s packet now = .ok accepted) : Passes codec s packet now accepted := by
  unfold accept at h
  split at h
  · exact passes_chacha ‹_› h
  · rename_i hn
    exact passes_aes (by simpa using hn) hkeyed h

end

section

def Covers (session : ServerSession Key) (log : List Delivery) (clock : ℕ) : Prop :=
  ∃ seen, session.window.Tracks seen ∧ (∀ packetId ∈ seen, ∃ d ∈ log, d.serverSessionId = session.id ∧ d.packetId = packetId) ∧
    ∀ d ∈ log, d.serverSessionId = session.id → d.packetId ∈ seen ∨ d.time + 60 < clock

/-- `stamp` is when the sender sealed a packet. -/
structure Inv (codec : Codec Key Peer) (stamp : ℕ → ℕ → ℕ) (s : UdpSession Key) (log : List Delivery) (clock : ℕ) : Prop where
  keyed : ∀ session, s.remoteSession = some session ∨ s.previousRemoteSession = some session → Keyed codec session
  times : ∀ d ∈ log, d.time ≤ clock ∧ d.time ≤ stamp d.serverSessionId d.packetId + 30 ∧
    stamp d.serverSessionId d.packetId ≤ d.time + 30
  unique : log.Pairwise fun d d' => (d.serverSessionId, d.packetId) ≠ (d'.serverSessionId, d'.packetId)
  seen : s.previousRemoteSeen ≤ clock
  current : ∀ session, s.remoteSession = some session → Covers session log clock
  previous : ∀ session, s.previousRemoteSession = some session → Covers session log clock ∧
    ∀ d ∈ log, d.serverSessionId = session.id → d.time ≤ s.previousRemoteSeen
  distinct : ∀ session session', s.remoteSession = some session → s.previousRemoteSession = some session' → session.id ≠ session'.id
  forgotten : ∀ d ∈ log, (∀ session, s.remoteSession = some session → session.id ≠ d.serverSessionId) →
    (∀ session, s.previousRemoteSession = some session → session.id ≠ d.serverSessionId) →
    s.previousRemoteSession.isSome ∧ d.time + 60 ≤ s.previousRemoteSeen

variable {codec : Codec Key Peer} {stamp : ℕ → ℕ → ℕ} {s : UdpSession Key} {log : List Delivery} {clock now : ℕ}
variable {session : ServerSession Key} {sid pid : ℕ}

section

variable (h : Covers session log clock)
include h

theorem Covers.later (hle : clock ≤ now) : Covers session log now := by
  obtain ⟨seen, ht, hl, hc⟩ := h
  exact ⟨seen, ht, hl, fun d hd hid => (hc d hd hid).imp_right fun hlt => by omega⟩

theorem Covers.other (hid : session.id ≠ sid) : Covers session (log ++ [⟨sid, pid, now⟩]) clock := by
  obtain ⟨seen, ht, hl, hc⟩ := h
  refine ⟨seen, ht, fun p hp => ?_, fun d hd hs => ?_⟩
  · obtain ⟨d, hd, hde⟩ := hl p hp
    exact ⟨d, mem_append_left _ hd, hde⟩
  rcases mem_append.mp hd with hd | hd
  · exact hc d hd hs
  · obtain rfl := mem_singleton.mp hd
    exact absurd hs.symm hid

theorem Covers.add (hc : session.window.check pid = true) :
    Covers (ServerSession.add session pid) (log ++ [⟨session.id, pid, now⟩]) clock := by
  obtain ⟨seen, ht, hl, hco⟩ := h
  refine ⟨insert pid seen, ht.add hc, fun p hp => ?_, fun d hd hs => ?_⟩
  · rcases hp with rfl | hp
    · exact ⟨_, mem_append_right _ (mem_singleton_self _), rfl, rfl⟩
    · obtain ⟨d, hd, hde⟩ := hl p hp
      exact ⟨d, mem_append_left _ hd, hde⟩
  rcases mem_append.mp hd with hd | hd
  · exact (hco d hd hs).imp_left fun hm => Set.mem_insert_of_mem _ hm
  · obtain rfl := mem_singleton.mp hd
    exact .inl (Set.mem_insert _ _)

end

theorem Inv.later (h : Inv codec stamp s log clock) (hl : clock ≤ now) : Inv codec stamp s log now :=
  ⟨h.keyed, fun d hd => ⟨(h.times d hd).1.trans hl, (h.times d hd).2⟩, h.unique, h.seen.trans hl,
    fun session hs => (h.current session hs).later hl,
    fun session hs => ⟨(h.previous session hs).1.later hl, (h.previous session hs).2⟩, h.distinct, h.forgotten⟩

theorem Inv.logged (h : Inv codec stamp s log now) (hstamp : now ≤ stamp sid pid + 30 ∧ stamp sid pid ≤ now + 30)
    (hf : ∀ d ∈ log, d.serverSessionId = sid → d.packetId = pid → d.time + 60 < now) :
    (∀ d ∈ log ++ [(⟨sid, pid, now⟩ : Delivery)], d.time ≤ now ∧ d.time ≤ stamp d.serverSessionId d.packetId + 30 ∧
      stamp d.serverSessionId d.packetId ≤ d.time + 30) ∧ (log ++ [(⟨sid, pid, now⟩ : Delivery)]).Pairwise fun d d' =>
      (d.serverSessionId, d.packetId) ≠ (d'.serverSessionId, d'.packetId) := by
  constructor
  · intro d hd
    rcases mem_append.mp hd with hd | hd
    · exact h.times d hd
    · obtain rfl := mem_singleton.mp hd
      exact ⟨le_rfl, hstamp⟩
  rw [pairwise_append]
  refine ⟨h.unique, pairwise_singleton _ _, fun d hd d' hd' he => ?_⟩
  obtain rfl := mem_singleton.mp hd'
  obtain ⟨hs, hpi⟩ := Prod.mk.inj he
  have hlt := hf d hd hs hpi
  obtain ⟨-, -, hl⟩ := h.times d hd
  rw [hs, hpi] at hl
  dsimp only at hl
  omega

theorem Covers.fresh (h : Covers session log now) (hc : session.window.check pid = true) :
    ∀ d ∈ log, d.serverSessionId = session.id → d.packetId = pid → d.time + 60 < now := by
  obtain ⟨seen, ht, -, hco⟩ := h
  rintro d hd hid rfl
  exact (hco d hd hid).resolve_left (SlidingWindow.notMem_of_check ht hc)

section

variable (h : Inv codec stamp s log now) (hstamp : now ≤ stamp session.id pid + 30 ∧ stamp session.id pid ≤ now + 30)
include h hstamp

theorem Inv.addCurrent (hr : s.remoteSession = some session) (hch : session.window.check pid = true) :
    Inv codec stamp { s with remoteSession := some (ServerSession.add session pid) } (log ++ [⟨session.id, pid, now⟩]) now := by
  have hc := h.current session hr
  obtain ⟨ht, hu⟩ := h.logged hstamp (hc.fresh hch)
  refine ⟨?_, ht, hu, h.seen, ?_, ?_, ?_, ?_⟩
  · rintro other (ho | ho)
    · obtain rfl := some.inj ho
      exact h.keyed session (.inl hr)
    · exact h.keyed other (.inr ho)
  · intro other ho
    obtain rfl := some.inj ho
    exact hc.add hch
  · intro other ho
    have hn := h.distinct session other hr ho
    obtain ⟨hc', hl⟩ := h.previous other ho
    refine ⟨hc'.other hn.symm, fun d hd hid => ?_⟩
    rcases mem_append.mp hd with hd | hd
    · exact hl d hd hid
    · obtain rfl := mem_singleton.mp hd
      exact absurd hid hn
  · intro other other' ho ho'
    obtain rfl := some.inj ho
    exact h.distinct session other' hr ho'
  intro d hd hcu hpr
  have hn := hcu (ServerSession.add session pid) rfl
  rcases mem_append.mp hd with hd | hd
  · refine h.forgotten d hd (fun other ho => ?_) hpr
    obtain rfl := some.inj (hr.symm.trans ho)
    exact hn
  · obtain rfl := mem_singleton.mp hd
    exact absurd rfl hn

theorem Inv.addPrevious (hpr : s.previousRemoteSession = some session) (hc : session.window.check pid = true) :
    Inv codec stamp { s with previousRemoteSession := some (ServerSession.add session pid), previousRemoteSeen := now }
      (log ++ [⟨session.id, pid, now⟩]) now := by
  obtain ⟨hco, -⟩ := h.previous session hpr
  obtain ⟨ht, hu⟩ := h.logged hstamp (hco.fresh hc)
  refine ⟨?_, ht, hu, le_rfl, ?_, ?_, ?_, ?_⟩
  · rintro other (ho | ho)
    · exact h.keyed other (.inl ho)
    · obtain rfl := some.inj ho
      exact h.keyed session (.inr hpr)
  · intro other ho
    exact (h.current other ho).other (h.distinct other session ho hpr)
  · intro other ho
    obtain rfl := some.inj ho
    exact ⟨hco.add hc, fun d hd _ => (ht d hd).1⟩
  · intro other other' ho ho'
    obtain rfl := some.inj ho'
    exact h.distinct other session ho hpr
  intro d hd hcu ho
  have hn := ho (ServerSession.add session pid) rfl
  rcases mem_append.mp hd with hd | hd
  · obtain ⟨-, hl⟩ := h.forgotten d hd hcu fun other ho => by
      obtain rfl := some.inj (hpr.symm.trans ho)
      exact hn
    exact ⟨rfl, hl.trans h.seen⟩
  · obtain rfl := mem_singleton.mp hd
    exact absurd rfl hn

end

theorem covers_new (hf : ∀ d ∈ log, d.serverSessionId = sid → d.time + 60 < now) (pid : ℕ) (cipher : Option Key) :
    Covers ⟨sid, cipher, ({} : SlidingWindow).add pid⟩ (log ++ [⟨sid, pid, now⟩]) now := by
  have hc : Covers (⟨sid, cipher, {}⟩ : ServerSession Key) log now :=
    ⟨∅, SlidingWindow.tracks_new, fun _ hp => absurd hp (Set.notMem_empty _), fun d hd hid => .inr (hf d hd hid)⟩
  refine hc.add ((SlidingWindow.check_iff SlidingWindow.tracks_new).mpr ?_)
  rcases Nat.eq_zero_or_pos pid with hz | hpo
  · exact .inr ⟨by show 0 - pid ≤ 8128; omega, Set.notMem_empty _⟩
  · exact .inl hpo

theorem Inv.fresh_new (h : Inv codec stamp s log now) (hc : ∀ current, s.remoteSession = some current → current.id ≠ sid)
    (hpr : ∀ previous, s.previousRemoteSession = some previous → previous.id ≠ sid)
    (hh : s.previousRemoteSession.isSome → s.previousRemoteSeen + 60 ≤ now) :
    ∀ d ∈ log, d.serverSessionId = sid → d.time + 60 < now := by
  rintro d hd rfl
  obtain ⟨hs, hl⟩ := h.forgotten d hd hc hpr
  have hh := hh hs
  omega

theorem Inv.addNew (h : Inv codec stamp s log now) (hstamp : now ≤ stamp sid pid + 30 ∧ stamp sid pid ≤ now + 30)
    (hc : ∀ current, s.remoteSession = some current → current.id ≠ sid)
    (hpr : ∀ previous, s.previousRemoteSession = some previous → previous.id ≠ sid)
    (hh : s.previousRemoteSession.isSome → s.previousRemoteSeen + 60 ≤ now)
    (hkeyed : Keyed codec (⟨sid, cipher, ({} : SlidingWindow).add pid⟩ : ServerSession Key))
    (hco : s.commitServerPacket .new sid pid cipher now = some s') : Inv codec stamp s' (log ++ [⟨sid, pid, now⟩]) now := by
  have hf := h.fresh_new hc hpr hh
  obtain ⟨ht, hu⟩ := h.logged hstamp fun d hd hsi _ => hf d hd hsi
  have hcovers := covers_new hf pid cipher
  have hs : ∀ other : ServerSession Key, some ⟨sid, cipher, ({} : SlidingWindow).add pid⟩ = some other →
      other = ⟨sid, cipher, ({} : SlidingWindow).add pid⟩ := fun other ho => (some.inj ho).symm
  unfold commitServerPacket at hco
  dsimp only at hco
  split at hco
  · rename_i current hr
    obtain rfl := some.inj hco
    have hne := hc current hr
    refine ⟨?_, ht, hu, le_rfl, ?_, ?_, ?_, ?_⟩
    · rintro other (ho | ho)
      · rw [hs other ho]
        exact hkeyed
      · obtain rfl := some.inj ho
        exact h.keyed current (.inl hr)
    · intro other ho
      rw [hs other ho]
      exact hcovers
    · intro other ho
      obtain rfl := some.inj ho
      exact ⟨(h.current current hr).other hne, fun d hd _ => (ht d hd).1⟩
    · intro other other' ho ho'
      obtain rfl := some.inj ho'
      rw [hs other ho]
      exact hne.symm
    intro d hd hc' hpr'
    have hn : sid ≠ d.serverSessionId := hc' _ rfl
    have hno := hpr' _ rfl
    refine ⟨rfl, ?_⟩
    rcases mem_append.mp hd with hd | hd
    · -- what the table forgets now is what was the previous session, silent for a minute
      have hold : ∀ other, s.remoteSession = some other → other.id ≠ d.serverSessionId := fun other ho => by
        obtain rfl := some.inj (hr.symm.trans ho)
        exact hno
      by_cases htr : ∃ previous, s.previousRemoteSession = some previous ∧ previous.id = d.serverSessionId
      · obtain ⟨previous, hso, hid⟩ := htr
        have hl := (h.previous previous hso).2 d hd hid.symm
        have hh := hh (by simp [hso])
        show d.time + 60 ≤ now
        omega
      · obtain ⟨-, hl⟩ := h.forgotten d hd hold fun previous hso hid => htr ⟨previous, hso, hid⟩
        exact hl.trans h.seen
    · obtain rfl := mem_singleton.mp hd
      exact absurd rfl hn
  rename_i hr
  obtain rfl := some.inj hco
  refine ⟨?_, ht, hu, h.seen, ?_, ?_, ?_, ?_⟩
  · rintro other (ho | ho)
    · rw [hs other ho]
      exact hkeyed
    · exact h.keyed other (.inr ho)
  · intro other ho
    rw [hs other ho]
    exact hcovers
  · intro other ho
    obtain ⟨hcovers', hl⟩ := h.previous other ho
    refine ⟨hcovers'.other (hpr other ho), fun d hd hid => ?_⟩
    rcases mem_append.mp hd with hd | hd
    · exact hl d hd hid
    · obtain rfl := mem_singleton.mp hd
      exact absurd hid.symm (hpr other ho)
  · intro other other' ho ho'
    rw [hs other ho]
    exact (hpr other' ho').symm
  intro d hd hc' hpr'
  have hn : sid ≠ d.serverSessionId := hc' _ rfl
  rcases mem_append.mp hd with hd | hd
  · exact h.forgotten d hd (fun other ho => nomatch hr.symm.trans ho) hpr'
  · obtain rfl := mem_singleton.mp hd
    exact absurd rfl hn

/-- The AEAD cannot be forged: what opens was sealed by the sender, once for each packet id. -/
def SealedBy (codec : Codec Key Peer) (stamp : ℕ → ℕ → ℕ) : Prop :=
  ∀ packet opened, unsealed codec packet = some opened → opened.timestamp = stamp opened.serverSessionId opened.packetId

theorem Inv.commit (h : Inv codec stamp s log now) (hs : SealedBy codec stamp) (hpa : Passes codec s packet now accepted) :
    ∃ s', s.commitServerPacket accepted.slot accepted.serverSessionId accepted.packetId accepted.cipher now = some s' ∧
      Inv codec stamp s' (log ++ [⟨accepted.serverSessionId, accepted.packetId, now⟩]) now := by
  obtain ⟨opened, ho, hsi, hpi, hstamp⟩ := hpa.genuine
  rw [hs packet opened ho, hsi, hpi] at hstamp
  have hci := hpa.cipher
  have hsl := hpa.slot
  generalize accepted.slot = slot at hsl hci
  cases finds_of_serverPacketSlot hsl with
  | current session hr hid hc =>
    rw [← hid] at hstamp ⊢
    exact ⟨_, by rw [commitServerPacket, hr, map_some], h.addCurrent hstamp hr hc⟩
  | previous session hpr hid hc =>
    rw [← hid] at hstamp ⊢
    exact ⟨_, by rw [commitServerPacket, hpr, map_some], h.addPrevious hstamp hpr hc⟩
  | new hcu hpr hh => exact ⟨_, rfl, h.addNew hstamp hcu hpr hh (hci rfl) rfl⟩

theorem Inv.receive (h : Inv codec stamp s log clock) (hs : SealedBy codec stamp) (hle : clock ≤ now) :
    Inv codec stamp (receive codec (s, log) (packet, now)).1 (receive codec (s, log) (packet, now)).2 now := by
  have hl := h.later hle
  unfold UdpSession.receive openPacketAt
  dsimp only
  cases ha : accept codec s packet now with
  | error refusal => exact hl
  | ok accepted =>
    have hpa := passes_of_accept h.keyed ha
    obtain ⟨s', hc, hin⟩ := hl.commit hs hpa
    dsimp only
    rw [hc, hpa.ids]
    exact hin

theorem inv_start (codec : Codec Key Peer) (stamp : ℕ → ℕ → ℕ) (sessionId : ℕ) :
    Inv codec stamp ({ sessionId := sessionId } : UdpSession Key) [] 0 :=
  ⟨fun _ h => by simp at h, nofun, List.Pairwise.nil, le_rfl, nofun, nofun, nofun, nofun⟩

theorem inv_run (hs : SealedBy codec stamp) (sessionId : ℕ) (hc : (inputs.map Prod.snd).Pairwise (· ≤ ·)) :
    ∃ clock, Inv codec stamp (run codec sessionId inputs).1 (run codec sessionId inputs).2 clock ∧
      ∀ now ∈ (inputs.map Prod.snd).getLast?, clock ≤ now := by
  induction inputs using List.reverseRecOn with
  | nil => exact ⟨0, inv_start codec stamp sessionId, nofun⟩
  | append_singleton inputs input ih =>
    rw [map_append, pairwise_append] at hc
    obtain ⟨clock, hin, hl⟩ := ih hc.1
    have hle : clock ≤ input.2 ∨ inputs = [] := by
      cases hca : (inputs.map Prod.snd).getLast? with
      | none => exact .inr (by simpa using hca)
      | some last => exact .inl ((hl last hca).trans (hc.2.2 last (mem_of_getLast? hca) input.2 (by simp)))
    refine ⟨input.2, ?_, by simp⟩
    rw [run, foldl_append]
    rcases hle with hle | rfl
    · exact hin.receive hs hle
    · exact (inv_start codec stamp sessionId).receive hs (Nat.zero_le _)

end

variable {codec : Codec Key Peer} {s : UdpSession Key} {packet : List Byte} {now : ℕ}

def Refusal.Late : Refusal → Prop
  | .replayed | .panic | .rotated => False
  | _ => True

theorem late_of_serverAddressOffset (h : s.serverAddressOffset body now = .error refusal) : Refusal.Late refusal := by
  revert h
  fun_cases serverAddressOffset s body now <;> rintro ⟨⟩ <;> trivial

theorem late_of_datagram (h : datagram codec body offset = .error refusal) : Refusal.Late refusal := by
  unfold datagram at h
  split at h
  · cases h; trivial
  · cases h

theorem refusal_of_accept (hkeyed : ∀ session, s.remoteSession = some session ∨
      s.previousRemoteSession = some session → Keyed codec session) (h : accept codec s packet now = .error refusal) :
    Refusal.Late refusal ∨ ∃ sid pid, lookupIds codec packet = some (sid, pid) ∧ s.serverPacketSlot sid pid now = .error refusal := by
  unfold accept at h
  split at h
  · rename_i hch
    revert h
    fun_cases acceptChacha codec s packet now with
    | case4 hl body hop hb =>
      intro h
      rcases bind_eq_error.mp h with hsl | ⟨slot, -, h⟩
      · refine .inr ⟨_, _, ?_, hsl⟩
        rw [lookupIds, if_pos hch, unsealed, if_pos hch, if_neg hl, hop, filter_some, if_pos (by simpa using hb), map_some, map_some]
      rcases bind_eq_error.mp h with ho | ⟨offset, -, h⟩
      · exact .inl (late_of_serverAddressOffset ho)
      rcases bind_eq_error.mp h with hd | ⟨datagram, -, h⟩
      · exact .inl (late_of_datagram hd)
      · cases h
    | _ =>
      rintro ⟨⟩
      exact .inl trivial
  rename_i hno
  have haes : codec.chacha = false := by simpa using hno
  revert h
  fun_cases acceptAes codec s packet now with
  | case3 hl header hh =>
    intro h
    rcases bind_eq_error.mp h with hsl | ⟨slot, hsl, h⟩
    · refine .inr ⟨_, _, ?_, hsl⟩
      rw [lookupIds, if_neg hno, dif_neg hl, hh]
      rfl
    rcases bind_eq_error.mp h with hc | ⟨⟨cipher, fresh⟩, -, h⟩
    · refine .inl ?_
      have hso : ∀ session, s.remoteSession = some session ∨ s.previousRemoteSession = some session →
          session.cipher ≠ none := fun session hs hn => by
        obtain ⟨_, _, -, -, -, hc⟩ := hkeyed session hs haes
        exact nomatch hn.symm.trans hc
      cases finds_of_serverPacketSlot hsl with
      | current session hr =>
        rw [slotCipher, hr, bind_some] at hc
        split at hc
        · cases hc
        · exact absurd ‹_› (hso session (.inl hr))
      | previous session hpr =>
        rw [slotCipher, hpr, bind_some] at hc
        split at hc
        · cases hc
        · exact absurd ‹_› (hso session (.inr hpr))
      | new =>
        rw [slotCipher] at hc
        split at hc
        · cases hc
        · cases hc; trivial
    dsimp only at h
    split at h
    · cases h; exact .inl trivial
    rcases bind_eq_error.mp h with ho | ⟨offset, -, h⟩
    · exact .inl (late_of_serverAddressOffset ho)
    rcases bind_eq_error.mp h with hd | ⟨datagram, -, h⟩
    · exact .inl (late_of_datagram hd)
    · cases h
  | _ =>
    rintro ⟨⟩
    exact .inl trivial

variable {stamp : ℕ → ℕ → ℕ} {log : List Delivery} {clock : ℕ}

theorem Inv.not_replayed (h : Inv codec stamp s log clock) {session : ServerSession Key} {pid : ℕ} {refusal : Refusal}
    (hs : s.remoteSession = some session ∨ s.previousRemoteSession = some session)
    (hw : session.window.last ≤ pid + 8128) (hne : ∀ d ∈ log, d.serverSessionId = session.id → d.packetId ≠ pid) :
    s.serverPacketSlot session.id pid now ≠ .error refusal := by
  have hc : ∀ other, s.remoteSession = some other ∨ s.previousRemoteSession = some other → other.id = session.id → other = session := by
    intro other ho hid
    rcases ho with ho | ho <;> rcases hs with hs | hs
    · exact some.inj (ho.symm.trans hs)
    · exact absurd hid (h.distinct other session ho hs)
    · exact absurd hid.symm (h.distinct session other hs ho)
    · exact some.inj (ho.symm.trans hs)
  have hco : Covers session log clock := hs.elim (h.current session) fun hpr => (h.previous session hpr).1
  obtain ⟨seen, ht, hl, -⟩ := hco
  have hpa : session.window.check pid = true := by
    rw [SlidingWindow.check_iff ht]
    by_cases hlt : session.window.last < pid
    · exact .inl hlt
    refine .inr ⟨by omega, fun hm => ?_⟩
    obtain ⟨d, hd, hid, hpi⟩ := hl pid hm
    exact hne d hd hid hpi
  intro hr
  unfold serverPacketSlot at hr
  split at hr
  · rename_i found hf
    obtain ⟨hre, hid⟩ := filter_eq_some_iff.mp hf
    rw [hc found (.inl hre) (by simpa using hid), if_pos hpa] at hr
    cases hr
  · rename_i found _ hf
    obtain ⟨hpr, hid⟩ := filter_eq_some_iff.mp hf
    rw [hc found (.inr hpr) (by simpa using hid), if_pos hpa] at hr
    cases hr
  rename_i hn hn'
  exact hs.elim (fun hre => filter_eq_none hn session hre rfl) fun hpr => filter_eq_none hn' session hpr rfl

theorem slot_ne_panic : s.serverPacketSlot sid pid now ≠ .error .panic := by
  unfold serverPacketSlot
  split
  · split <;> nofun
  · split <;> nofun
  · split <;> nofun

theorem exists_commit (h : s.serverPacketSlot sid pid now = .ok slot) (cipher : Option Key) :
    ∃ s', s.commitServerPacket slot sid pid cipher now = some s' := by
  cases finds_of_serverPacketSlot h with
  | current session hr => exact ⟨_, by rw [commitServerPacket, hr, map_some]⟩
  | previous session hpr => exact ⟨_, by rw [commitServerPacket, hpr, map_some]⟩
  | new => exact ⟨_, rfl⟩

theorem Inv.refused (h : Inv codec stamp s log clock) (hr : (openPacketAt codec s packet now).1 = .error refusal) :
    accept codec s packet now = .error refusal ∧ (openPacketAt codec s packet now).2 = s := by
  unfold openPacketAt at hr ⊢
  cases ha : accept codec s packet now with
  | error refusal' =>
    rw [ha] at hr
    exact ⟨congrArg _ (Except.error.inj hr), rfl⟩
  | ok accepted =>
    obtain ⟨s', hc⟩ := exists_commit (passes_of_accept h.keyed ha).slot accepted.cipher
    rw [ha] at hr
    dsimp only at hr
    rw [hc] at hr
    cases hr

/-- However datagrams arrive, none is delivered twice, none is taken for a replay that is not one, and one that is
refused changes nothing. -/
theorem udp_replay_free (codec : Codec Key Peer) (stamp : ℕ → ℕ → ℕ) (hsender : SealedBy codec stamp) (sessionId : ℕ)
    (inputs : List (List Byte × ℕ)) (hclock : (inputs.map Prod.snd).Pairwise (· ≤ ·)) :
    ((run codec sessionId inputs).2.map fun d => (d.serverSessionId, d.packetId)).Nodup ∧
      (∀ packet now session pid, lookupIds codec packet = some (session.id, pid) →
        ((run codec sessionId inputs).1.remoteSession = some session ∨
          (run codec sessionId inputs).1.previousRemoteSession = some session) → session.window.last ≤ pid + 8128 →
        (∀ d ∈ (run codec sessionId inputs).2, d.serverSessionId = session.id → d.packetId ≠ pid) →
        (openPacketAt codec (run codec sessionId inputs).1 packet now).1 ≠ .error .replayed) ∧
      ∀ packet now refusal, (openPacketAt codec (run codec sessionId inputs).1 packet now).1 = .error refusal →
        refusal ≠ .panic ∧ (openPacketAt codec (run codec sessionId inputs).1 packet now).2 = (run codec sessionId inputs).1 := by
  obtain ⟨clock, hin, -⟩ := inv_run hsender sessionId hclock
  generalize run codec sessionId inputs = history at hin ⊢
  refine ⟨pairwise_map.mpr hin.unique, ?_, ?_⟩
  · intro packet now session pid hid hs hw hn hr
    rcases refusal_of_accept hin.keyed (hin.refused hr).1 with hl | ⟨sid, pid', hid', hsl⟩
    · exact hl
    · obtain ⟨rfl, rfl⟩ := Prod.mk.inj (some.inj (hid'.symm.trans hid))
      exact hin.not_replayed hs hw hn hsl
  intro packet now refusal hre
  obtain ⟨ha, hsa⟩ := hin.refused hre
  refine ⟨?_, hsa⟩
  rintro rfl
  rcases refusal_of_accept hin.keyed ha with hl | ⟨sid, pid, -, hsl⟩
  · exact hl
  · exact slot_ne_panic hsl

def echo : Codec Unit Unit where
  chacha := true
  decryptHeader := .ok
  sessionKey _ := .ok ()
  aeadOpen _ _ _ := none
  xchachaOpen _ _ := some (leBytes 15 0 ++ [7] ++ [1] ++ leBytes 6 0 ++ [3, 232] ++ leBytes 7 0 ++ [5] ++ leBytes 2 0)
  decodeAddress rest := .ok ((), rest)

def echoed : List Byte := leBytes 54 0

theorem udp_replay_free_echo : SealedBy echo (fun _ _ => 1000) ∧
    ((run echo 5 [(echoed, 1000), (echoed, 1001)]).2.map fun d => (d.serverSessionId, d.packetId)).Nodup ∧
    (run echo 5 [(echoed, 1000), (echoed, 1001)]).2.length = 1 := by
  have hs : SealedBy echo fun _ _ => 1000 := by
    intro packet opened ho
    unfold unsealed at ho
    rw [if_pos (show echo.chacha = true from rfl)] at ho
    split at ho
    · cases ho
    · obtain rfl := some.inj ho
      decide
  exact ⟨hs, (udp_replay_free echo (fun _ _ => 1000) hs 5 _ (by decide)).1, by decide +kernel⟩

end UdpSession

end Honk.Shadowsocks
