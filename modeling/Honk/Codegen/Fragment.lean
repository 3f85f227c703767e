import Honk.Codegen.Evaluate
import Honk.Codegen.Invariant

namespace Honk.Codegen

open Honk.Lib Honk.Lib.Bpf Honk.Routing AsmM
open Function (update update_of_ne update_self)
open List hiding Vector

abbrev Holds {fds : RoutingMapFds} (z : Assembler) (host : MapHost fds) (input : RoutingInput) (on : Bool) :=
  Inv z.traceLayout.isSome host input on

abbrev Runs {fds : RoutingMapFds} (host : MapHost fds) (prog : List Insn) (Q : State Block → Prop) (pc : ℕ)
    (regs : ℕ → Value Block) (mem : Mem Block) : Prop := Leads host.env prog ⟨pc, regs, mem⟩ Q

variable {fds : RoutingMapFds} {z : Assembler} {prog : List Insn} {host : MapHost fds} {input : RoutingInput}
  {on : Bool} {mask : BitVec 32} {held : FactKind → Bool} {out : ℕ → BitVec 32} {regs : ℕ → Value Block} {mem : Mem Block}
  {a b : Assembler} {u : Unit} {Q : State Block → Prop}

theorem valid_input (o : ℤ) (n : ℕ) (h : 0 ≤ o ∧ o + n ≤ 128) : host.env.Valid .input o n := h

theorem valid_output (o : ℤ) (n : ℕ) (h : 0 ≤ o ∧ o + n ≤ 272) : host.env.Valid .output o n := h

theorem valid_stack (o : ℤ) (n : ℕ) (h : -512 ≤ o ∧ o + n ≤ 0) : host.env.Valid .stack o n := h

theorem leads_stOutput (hz : Linked z prog) (h : Emit z (stImm 7 offset imm) a u b)
    (hi : Inv layout host input on mask held out regs mem) (k : ℕ) (hk : offset = 4 * (k : ℤ)) (hk' : k < 68)
    (cont : ∀ mem', Inv layout host input on mask held (update out k imm) regs mem' → Runs host prog Q b.pc regs mem') :
    Runs host prog Q a.pc regs mem := by
  subst hk
  apply leads_stImm hz h hi.r7 (valid_output _ _ (by omega))
  apply cont
  have := hi.store_output k imm.toNat
  rwa [BitVec.ofNat_toNat, BitVec.setWidth_eq, ← zero_add (4 * (k : ℤ))] at this

section

variable (hz : Linked z prog) (hi : Holds z host input on mask held out regs mem)
include hz hi

theorem leads_emitTraceOr_cases (h : Emit z (emitTraceOr offset bits) a u b) (k : ℕ)
    (hk : offset = 4 * (k : ℤ)) (hk' : k < 68) (koff : on = false → Runs host prog Q b.pc regs mem)
    (kon : on = true → ∀ v : ℕ, BitVec.ofNat 32 v = word mem .output (4 * (k : ℤ)) ||| bits → ∀ regs',
      (∀ r, r ≠ 1 → regs' r = regs r) → Runs host prog Q b.pc regs' (writeMem mem .output (4 * (k : ℤ)) (leBytes 4 v))) :
    Runs host prog Q a.pc regs mem := by
  subst hk
  rcases emit_whenTraced h with ⟨hn, rfl⟩ | ⟨hs, h⟩
  · apply koff
    by_contra hon
    rw [hi.traced (by simpa using hon)] at hn
    cases hn
  simp only [emit_bind_iff] at h
  obtain ⟨disabled, _, h1, _, _, h2, _, _, h3, _, _, h4, _, _, h5, h6⟩ := h
  have hv : host.env.Valid .output (0 + 4 * (k : ℤ)) 4 := valid_output _ _ (by omega)
  apply leads_label h1
  have hte : (regs 9).test .eq 0 = some (!on) := by
    rw [hi.r9 hs]
    cases on <;> rfl
  apply leads_jump hz h2 .eq rfl hte
  · intro ho t ht
    exact leads_at_label hz h6 ht (koff (by simpa using ho))
  intro hon
  apply leads_ldxW hz h3 hi.r7 hv
  apply leads_orImm hz h4 (update_self ..)
  apply leads_stxW hz h5 (update_self ..)
  · rw [update_of_ne (by decide), update_of_ne (by decide), hi.r7]
  · exact hv
  apply leads_bind hz h6
  rw [zero_add]
  apply kon (by simpa using hon) _ (leBytes_or_signExtend _ _)
  intro r hr
  rw [update_of_ne hr, update_of_ne hr]

theorem leads_emitTraceOr (h : Emit z (emitTraceOr offset bits) a u b) (k : ℕ)
    (hk : offset = 4 * (k : ℤ)) (ht : Tracked k)
    (cont : ∀ regs' mem', Holds z host input on mask held (traceOr on k bits out) regs' mem' → Runs host prog Q b.pc regs' mem') :
    Runs host prog Q a.pc regs mem := by
  apply leads_emitTraceOr_cases hz hi h k hk (by rcases ht with ht | ht <;> omega)
  · rintro rfl
    exact cont _ _ hi
  rintro rfl v hv regs' hr
  apply cont
  have hw := (hi.of_regs regs' fun r h6 => hr r (by omega)).store_output k v
  rwa [hv, hi.words k ht] at hw

theorem leads_emitTraceOr_factState (h : Emit z (emitTraceOr traceFactState bits) a u b)
    (cont : ∀ regs' mem', Holds z host input on mask held out regs' mem' → Runs host prog Q b.pc regs' mem') :
    Runs host prog Q a.pc regs mem := by
  apply leads_emitTraceOr_cases hz hi h 11 rfl (by omega)
  · exact fun _ => cont _ _ hi
  intro _ v _ regs' hr
  apply cont
  exact (hi.of_regs regs' fun r h6 => hr r (by omega)).store_untracked _ _ (by decide) (by rw [leBytes_length]; decide)

theorem leads_emitTraceDomain (h : Emit z emitTraceDomain a u b)
    (cont : ∀ regs' mem', Holds z host input on mask held out regs' mem' →
      Runs host prog Q b.pc regs' mem') : Runs host prog Q a.pc regs mem := by
  rcases emit_whenTraced h with ⟨-, rfl⟩ | ⟨hs, h⟩
  · exact cont _ _ hi
  simp only [emit_bind_iff] at h
  obtain ⟨disabled, _, h1, _, _, h2, _, _, h3, h4⟩ := h
  apply leads_label h1
  have hte : (regs 9).test .eq 0 = some (!on) := by
    rw [hi.r9 hs]
    cases on <;> rfl
  apply leads_jump hz h2 .eq rfl hte
  · intro _ t ht
    exact leads_at_label hz h4 ht (cont _ _ hi)
  intro _
  apply leads_forEach_range _ (fun _ regs' mem' => Holds z host input on mask held out regs' mem') 4 _ h3 hi
  · exact fun regs' mem' hi' => leads_bind hz h4 (cont _ _ hi')
  intro i hi4 a u b regs mem h hi k
  obtain ⟨_, _, h1, h2⟩ := emit_bind_iff.mp h
  have ha : FactKind.domain.area = -32 := by decide
  apply leads_ldxDw hz h1 hi.r10 (valid_stack _ _ (by omega))
  apply leads_stxDw hz h2 (update_self ..) (by rw [update_of_ne (by decide), hi.r7])
    (valid_output _ _ (by simp only [traceDomain]; omega))
  apply k
  apply (hi.scratch 1 _ (by omega)).store_untracked
  · simp only [traceDomain]
    omega
  rw [leBytes_length]
  simp only [traceDomain]
  omega

end

theorem area_bounds (kind : FactKind) : -128 ≤ kind.area ∧ kind.area + 32 ≤ 0 := by
  cases kind <;> decide

variable {inputOffset : ℤ} {fd : BitVec 32} {absent lookup : Label} {kind : FactKind}

theorem Inv.read_value (hi : Holds z host input on mask held out regs mem) (hf : host.find fd key = some routing) :
    readMem mem (.value fd key) 0 32 = bitmapBytes routing := by
  have hfi : host.fixed input (.value fd key) = bitmapBytes routing := by rw [MapHost.fixed, hf]; rfl
  have hl := bitmapBytes_length routing
  have := readMem_getD mem (.value fd key) (bitmapBytes routing)
    (fun o => by rw [hi.fixed _ (by simp) (by simp), hfi]) 0 32 (by omega)
  rwa [drop_zero, take_of_length_le (by omega)] at this

section

variable (hz : Linked z prog)
include hz

theorem leads_copyInput {words : ℕ} {head : List Byte} (h : Emit z (forEach (fun index : ℕ => do
      ldxW 3 6 (inputOffset + (index * 4 : ℕ))
      stxW 10 3 (stackKey + 4 + (index * 4 : ℕ))) (List.range words)) a u b) (h6 : regs 6 = .ptr .input 0)
    (h10 : regs 10 = .ptr .stack 0) (ho : 0 ≤ inputOffset) (ho' : inputOffset + 4 * words ≤ 128) (hw : words ≤ 4)
    (hh : head.length = 4) (cont : ∀ regs', (∀ r, r ≠ 3 → regs' r = regs r) → Leads host.env prog
      ⟨b.pc, regs', writeMem mem .stack stackKey (head ++ readMem mem .input inputOffset (4 * words))⟩ Q) :
    Runs host prog Q a.pc regs (writeMem mem .stack stackKey head) := by
  apply leads_forEach_range _ (fun i regs' mem' => (∀ r, r ≠ 3 → regs' r = regs r) ∧
    mem' = writeMem mem .stack stackKey (head ++ readMem mem .input inputOffset (4 * i))) words _ h
  · exact ⟨fun _ _ => rfl, by simp [readMem]⟩
  · rintro regs' _ ⟨hr, rfl⟩
    exact cont regs' hr
  rintro i hiw a u b regs' _ h ⟨hr, rfl⟩ k
  simp only [emit_bind_iff] at h
  obtain ⟨_, _, h1, h2⟩ := h
  apply leads_ldxW hz h1 ((hr 6 (by decide)).trans h6) (valid_input _ _ (by omega))
  apply leads_stxW hz h2 (update_self ..)
  · rw [update_of_ne (by decide), hr 10 (by decide), h10]
  · exact valid_stack _ _ (by simp only [stackKey, factBytes]; omega)
  apply k
  refine ⟨fun r hr3 => by rw [update_of_ne hr3, hr r hr3], ?_⟩
  have hs : 4 * (i + 1) = 4 * i + 4 := rfl
  have hsr : 0 + (inputOffset + ((i * 4 : ℕ) : ℤ)) = inputOffset + ((4 * i : ℕ) : ℤ) := by omega
  rw [toNat_setWidth64, leBytes_word, readMem_write_of_disjoint _ _ _ _ _ _ _ (.inl (by simp)), hs,
    readMem_append, ← append_assoc, hsr]
  apply writeMem_extend
  simp only [length_append, hh, readMem_length]
  omega

theorem leads_loadFd (h : Emit z (loadMapFd fd) a u b) (k : Runs host prog Q b.pc (update regs 1 (.map fd)) mem) :
    Runs host prog Q a.pc regs mem := by
  obtain ⟨_, _, h1, h2⟩ := emit_bind_iff.mp h
  exact leads_loadMapFd hz h1 h2 k

theorem leads_copyValue (h : Emit z (forEach (fun word : ℕ => do
      ldxDw 1 0 (word * 8 : ℕ)
      stxDw 10 1 (kind.area + (word * 8 : ℕ))) (List.range 4)) a u b) (h0 : regs 0 = .ptr block 0)
    (h10 : regs 10 = .ptr .stack 0) (hn : block ≠ .stack) (hv : ∀ i : ℕ, i + 8 ≤ 32 → host.env.Valid block i 8)
    (cont : ∀ regs', (∀ r, r ≠ 1 → regs' r = regs r) → Leads host.env prog
      ⟨b.pc, regs', writeMem mem .stack kind.area (readMem mem block 0 32)⟩ Q) :
    Runs host prog Q a.pc regs mem := by
  apply leads_forEach_range _ (fun i regs' mem' => (∀ r, r ≠ 1 → regs' r = regs r) ∧
    mem' = writeMem mem .stack kind.area (readMem mem block 0 (8 * i))) 4 _ h
  · refine ⟨fun _ _ => rfl, ?_⟩
    funext b' o'
    rw [writeMem, if_neg (by simp [readMem])]
  · rintro regs' _ ⟨hr, rfl⟩
    exact cont regs' hr
  rintro i hi4 a u b regs' _ h ⟨hr, rfl⟩ k
  obtain ⟨_, _, h1, h2⟩ := emit_bind_iff.mp h
  have hsr : 0 + ((i * 8 : ℕ) : ℤ) = 0 + ((8 * i : ℕ) : ℤ) := by omega
  have hb := area_bounds kind
  apply leads_ldxDw hz h1 ((hr 0 (by decide)).trans h0) (by rw [zero_add]; exact hv _ (by omega))
  apply leads_stxDw hz h2 (update_self ..)
    (by rw [update_of_ne (by decide), hr 10 (by decide), h10]) (valid_stack _ _ (by omega))
  apply k
  refine ⟨fun r h1 => by rw [update_of_ne h1, hr r h1], ?_⟩
  have hs : 8 * (i + 1) = 8 * i + 8 := rfl
  rw [leBytes_dword, readMem_write_of_disjoint _ _ _ _ _ _ _ (.inl hn), hs, readMem_append, hsr]
  apply writeMem_extend
  rw [readMem_length]
  omega

theorem leads_clearArea (h : Emit z (forEach (fun word : ℕ => stxDw 10 1 (kind.area + (word * 8 : ℕ))) (List.range 4)) a u b)
    (h1 : regs 1 = .scalar 0) (h10 : regs 10 = .ptr .stack 0)
    (cont : Runs host prog Q b.pc regs (writeMem mem .stack kind.area (List.replicate 32 0))) : Runs host prog Q a.pc regs mem := by
  apply leads_forEach_range _ (fun i regs' mem' => regs' = regs ∧ mem' = writeMem mem .stack kind.area (List.replicate (8 * i) 0)) 4 _ h
  · refine ⟨rfl, ?_⟩
    funext b' o'
    rw [writeMem, if_neg (by simp)]
  · rintro _ _ ⟨rfl, rfl⟩
    exact cont
  rintro i hi4 a u b _ _ h ⟨rfl, rfl⟩ k
  have hb := area_bounds kind
  apply leads_stxDw hz h h1 h10 (valid_stack _ _ (by omega))
  apply k
  refine ⟨rfl, ?_⟩
  have hs : 8 * (i + 1) = 8 * i + 8 := rfl
  have hze : leBytes 8 (0 : BitVec 64).toNat = List.replicate 8 0 := by decide
  rw [hze, hs, replicate_add]
  apply writeMem_extend
  rw [length_replicate]
  omega

variable (hi : Holds z host input on mask held out regs mem)
include hi

theorem leads_writeKeyFromInput {prefixLen : ℕ} (words : ℕ) (h : Emit z (writeKeyFromInput inputOffset prefixLen) a u b)
    (hwo : (if prefixLen = 32 then 1 else 4) = words) (hl : prefixLen < 2 ^ 32) (ho : 0 ≤ inputOffset)
    (ho' : inputOffset + 4 * words ≤ 128)
    (cont : ∀ regs' mem', (∀ r, r ≠ 3 → regs' r = regs r) → Holds z host input on mask held out regs' mem' →
      readMem mem' .stack stackKey 20 = leBytes 4 prefixLen ++ readMem mem .input inputOffset (4 * words) ++
        List.replicate (16 - 4 * words) 0 → Runs host prog Q b.pc regs' mem') :
    Runs host prog Q a.pc regs mem := by
  have hw : words ≤ 4 := by
    rw [← hwo]
    split <;> omega
  simp only [writeKeyFromInput, emit_bind_iff, hwo] at h
  obtain ⟨_, _, h1, _, _, h2, h3⟩ := h
  apply leads_stImm hz h1 hi.r10 (valid_stack _ _ (by decide))
  rw [zero_add, BitVec.toNat_ofNat, Nat.mod_eq_of_lt hl]
  apply leads_copyInput hz h2 hi.r6 hi.r10 ho ho' hw (leBytes_length 4 prefixLen)
  intro regs' hr
  apply leads_forEach_range' _ (fun i regs'' mem' => regs'' = regs' ∧ mem' = writeMem mem .stack stackKey
    (leBytes 4 prefixLen ++ readMem mem .input inputOffset (4 * words) ++ List.replicate (4 * (i - words)) 0))
    words (4 - words) _ h3
  · exact ⟨rfl, by simp⟩
  · rintro _ _ ⟨rfl, rfl⟩
    have hwi : 4 * (words + (4 - words) - words) = 16 - 4 * words := by omega
    rw [hwi]
    apply cont _ _ hr
    · apply (hi.of_regs _ fun r h6 => hr r (by omega)).store_stack
      intro kind _
      right
      have := (area_bounds kind).1
      simp only [length_append, leBytes_length, readMem_length, length_replicate, stackKey, factBytes]
      omega
    have := readMem_write_self mem .stack stackKey
      (leBytes 4 prefixLen ++ readMem mem .input inputOffset (4 * words) ++ List.replicate (16 - 4 * words) 0)
    simp only [length_append, leBytes_length, readMem_length, length_replicate] at this
    rwa [show 4 + 4 * words + (16 - 4 * words) = 20 by omega] at this
  rintro i hi1 hi2 a u b _ _ h ⟨rfl, rfl⟩ k
  apply leads_stImm hz h ((hr 10 (by decide)).trans hi.r10)
  · exact valid_stack _ _ (by simp only [stackKey, factBytes]; omega)
  apply k
  refine ⟨rfl, ?_⟩
  have hs : 4 * (i + 1 - words) = 4 * (i - words) + 4 := by omega
  have hze : leBytes 4 (0 : BitVec 32).toNat = List.replicate 4 0 := by decide
  rw [hs, replicate_add, ← append_assoc, hze]
  apply writeMem_extend
  simp only [length_append, leBytes_length, readMem_length, length_replicate]
  omega

theorem leads_emitAddressKey (h : Emit z (emitAddressKey inputOffset v4Fd v6Fd absent lookup) a u b)
    (ip : Vector Byte 16)
    (hip : readMem mem .input inputOffset 16 = ip.toList) (ho : 0 ≤ inputOffset) (ho' : inputOffset + 16 ≤ 128)
    (kabsent : host.address input v4Fd v6Fd ip = none → ∀ t, z.addr absent = some t → ∀ regs' mem',
      Holds z host input on mask held out regs' mem' → Runs host prog Q t regs' mem')
    (klookup : ∀ pc, pc = b.pc ∨ z.addr lookup = some pc → ∀ regs' mem' fd,
      Holds z host input on mask held out regs' mem' → regs' 1 = .map fd → fd = v4Fd ∨ fd = v6Fd →
      host.find fd (readMem mem' .stack stackKey 20) = host.address input v4Fd v6Fd ip → Runs host prog Q pc regs' mem') :
    Runs host prog Q a.pc regs mem := by
  simp only [emitAddressKey, emit_bind_iff] at h
  obtain ⟨v6, _, h1, _, _, h2, _, _, h3, _, _, h4, _, _, h5, _, _, h6, _, _, h7, _, _, h8, _, _, h9, h10⟩ := h
  have hv : word mem .input (0 + inputVersion) = input.ipVersion := hi.scalar 3 (by omega)
  apply leads_label h1
  apply leads_ldxW hz h2 hi.r6 (valid_input _ _ (by decide))
  rw [hv]
  have hi0 := hi.scratch 0 (.scalar (input.ipVersion.setWidth 64)) (by omega)
  apply leads_jump hz h3 .ne rfl (by rw [update_self]; exact congrArg some (eval_ne_small input.ipVersion 1 (by decide)))
  · intro hn t ht
    have hn : input.ipVersion ≠ 1 := by simpa using hn
    apply leads_at_label hz h7 ht
    apply leads_jump hz h8 .ne rfl (by rw [update_self]; exact congrArg some (eval_ne_small input.ipVersion 2 (by decide)))
    · intro hn' t ht
      have hn' : input.ipVersion ≠ 2 := by simpa using hn'
      apply kabsent _ t ht _ _ hi0
      rw [MapHost.address, if_neg hn, if_neg hn']
    intro he
    have he : input.ipVersion = 2 := by simpa using he
    apply leads_writeKeyFromInput hz hi0 4 h9 rfl (by decide) ho (by omega)
    intro regs' mem' hr hi' hk
    apply leads_loadFd hz h10
    apply klookup _ (.inl rfl) _ _ v6Fd (hi'.scratch 1 _ (by omega)) (update_self ..) (.inr rfl)
    rw [hk, MapHost.address, if_neg hn, if_pos he, wideKey, ← hip]
    exact congrArg _ (append_nil _)
  intro he
  have he : input.ipVersion = 1 := by simpa using he
  apply leads_writeKeyFromInput hz hi0 1 h4 rfl (by decide) (by omega) (by omega)
  intro regs' mem' hr hi' hk
  apply leads_loadFd hz h5
  apply leads_ja hz h6
  intro t ht
  apply klookup t (.inr ht) _ _ v4Fd (hi'.scratch 1 _ (by omega)) (update_self ..) (.inl rfl)
  have hl := readMem_sub mem .input inputOffset 16 12 4 (by omega)
  rw [hip, take_of_length_le (by simp)] at hl
  rw [hk, MapHost.address, if_pos he, v4Key, ← hl]
  rfl

theorem leads_emitFactKey (h : Emit z (emitFactKey kind fds absent lookup) a u b)
    (kabsent : host.fact input kind = none → ∀ t, z.addr absent = some t → ∀ regs' mem',
      Holds z host input on mask held out regs' mem' → Runs host prog Q t regs' mem')
    (klookup : ∀ pc, pc = b.pc ∨ z.addr lookup = some pc → ∀ regs' mem' fd,
      Holds z host input on mask held out regs' mem' → regs' 1 = .map fd → host.keySize fd ≤ 20 →
      host.find fd (readMem mem' .stack kind.key (host.keySize fd)) = host.fact input kind → Runs host prog Q pc regs' mem') :
    Runs host prog Q a.pc regs mem := by
  cases kind with
  | domain =>
    simp only [emitFactKey, writeDomainKeyFromInput, emit_bind_iff] at h
    obtain ⟨_, _, ⟨_, _, h1, _, _, h2, _, _, h3, h4⟩, h5⟩ := h
    apply leads_ldxDw hz h1 hi.r6 (valid_input _ _ (by decide))
    apply leads_stxDw hz h2 (update_self ..) (by rw [update_of_ne (by decide), hi.r10]) (valid_stack _ _ (by decide))
    apply leads_ldxDw hz h3 (by rw [update_of_ne (by decide), hi.r6]) (valid_input _ _ (by decide))
    apply leads_stxDw hz h4 (update_self ..) (by rw [update_of_ne (by decide), update_of_ne (by decide), hi.r10]) (valid_stack _ _ (by decide))
    apply leads_loadFd hz h5
    have hlo := leBytes_dword mem .input (0 + inputDstIp)
    have hh := leBytes_dword mem .input (0 + (inputDstIp + 8))
    rw [hlo, readMem_write_of_disjoint _ _ _ _ _ _ _ (.inl (by simp)), hh,
      writeMem_extend _ _ _ _ _ _ (by rw [readMem_length]; decide)]
    have hk : readMem mem .input (0 + inputDstIp) 8 ++ readMem mem .input (0 + (inputDstIp + 8)) 8 = input.dstIp.toList := by
      rw [← hi.read_dstIp]
      exact (readMem_append mem .input inputDstIp 8 8).symm
    rw [hk]
    have hl : input.dstIp.toList.length = 16 := Vector.length_toList
    apply klookup _ (.inl rfl) _ _ fds.domain _ (update_self ..) (by rw [host.keySize_domain]; omega)
    · have := readMem_write_self mem .stack stackDomainKey input.dstIp.toList
      rw [hl] at this
      rw [host.keySize_domain, MapHost.fact]
      exact congrArg _ this
    apply (hi.of_regs _ _).store_stack
    · intro kind _
      right
      have := (area_bounds kind).1
      rw [hl]
      simp only [stackDomainKey, stackKey, factBytes]
      omega
    · intro r hr
      rw [update_of_ne (by omega), update_of_ne (by omega), update_of_ne (by omega)]
  | mac =>
    simp only [emitFactKey, emit_bind_iff] at h
    obtain ⟨_, _, h1, _, _, h2, _, _, h3, _, _, h4, h5⟩ := h
    have hf : word mem .input (0 + inputFlags) = input.flags := hi.scalar 7 (by omega)
    apply leads_ldxW hz h1 hi.r6 (valid_input _ _ (by decide))
    rw [hf]
    apply leads_andImm hz h2 (update_self ..)
    rw [setWidth_and_signExtend]
    apply leads_jump hz h3 .eq rfl (by rw [update_self]; exact congrArg some (eval_eq_small _ 0 (by decide)))
    · intro he t ht
      have he : input.flags &&& routingInputMacPresent = 0 := by simpa using he
      apply kabsent _ t ht _ _ ((hi.scratch 0 _ (by omega)).scratch 0 _ (by omega))
      rw [MapHost.fact, if_pos he]
    intro hn
    have hn : ¬ input.flags &&& routingInputMacPresent = 0 := by simpa using hn
    apply leads_writeKeyFromInput hz ((hi.scratch 0 _ (by omega)).scratch 0 _ (by omega)) 4 h4 rfl (by decide) (by decide) (by decide)
    intro regs' mem' hr hi' hk
    apply leads_loadFd hz h5
    apply klookup _ (.inl rfl) _ _ fds.mac (hi'.scratch 1 _ (by omega)) (update_self ..) host.keySize_mac.le
    rw [host.keySize_mac, MapHost.fact, if_neg hn, wideKey, ← hi.read_mac]
    refine congrArg _ (hk.trans ?_)
    exact append_nil _
  | destination =>
    apply leads_emitAddressKey hz hi h input.dstIp hi.read_dstIp (by decide) (by decide) kabsent
    intro pc hpc regs' mem' fd hi' h1 hfd hfi
    have hs : host.keySize fd = 20 := by
      rcases hfd with rfl | rfl
      · exact host.keySize_destinationV4
      · exact host.keySize_destinationV6
    apply klookup pc hpc regs' mem' fd hi' h1 hs.le
    rw [hs]
    exact hfi
  | source =>
    apply leads_emitAddressKey hz hi h input.srcIp hi.read_srcIp (by decide) (by decide) kabsent
    intro pc hpc regs' mem' fd hi' h1 hfd hfi
    have hs : host.keySize fd = 20 := by
      rcases hfd with rfl | rfl
      · exact host.keySize_sourceV4
      · exact host.keySize_sourceV6
    apply klookup pc hpc regs' mem' fd hi' h1 hs.le
    rw [hs]
    exact hfi

theorem leads_mapLookup (h1 : Emit z (movReg 2 10) a u1 a1)
    (h2 : Emit z (addImm 2 (BitVec.ofInt 32 kind.key)) a1 u2 a2) (h3 : Emit z (call mapLookupElem) a2 u b)
    (hm : regs 1 = .map fd)
    (hs : host.keySize fd ≤ 20) (cont : ∀ regs', Holds z host input on mask held out regs' mem →
      (∀ key, key = readMem mem .stack kind.key (host.keySize fd) →
        regs' 0 = (host.find fd key).elim (.scalar 0) fun _ => .ptr (.value fd key) 0) → Runs host prog Q b.pc regs' mem) :
    Runs host prog Q a.pc regs mem := by
  have ho : (0 : ℤ) + (BitVec.ofInt 32 kind.key).toInt = kind.key := by
    cases kind <;> decide
  have hk : -176 ≤ kind.key ∧ kind.key ≤ -160 := by
    cases kind <;> decide
  apply leads_movReg hz h1
  apply leads_addImm hz h2 (by rw [update_self, hi.r10])
  rw [ho]
  apply leads_call hz h3 (by rw [update_of_ne (by decide), update_of_ne (by decide), hm])
    (update_self ..) rfl (valid_stack _ _ (by dsimp only; omega))
  apply cont _ (((hi.scratch 2 _ (by omega)).scratch 2 _ (by omega)).clobber _)
  rintro key rfl
  cases hf : host.find fd (readMem mem .stack kind.key (host.keySize fd)) <;>
    simp [Bpf.clobber, MapDef.lookup, hf]

theorem leads_emitFactLookup (h : Emit z (emitFactLookup kind fds) a u b)
    (hk : held kind = false)
    (cont : ∀ regs' mem', Holds z host input on mask (update held kind true)
      (finalIfPresent kind (host.fact input kind) out) regs' mem' → Runs host prog Q b.pc regs' mem') :
    Runs host prog Q a.pc regs mem := by
  simp only [emitFactLookup, emit_bind_iff] at h
  obtain ⟨absent, _, h1, lookup, _, h2, done, _, h3, _, _, h4, _, c, h5, h⟩ := h
  obtain ⟨_, _, h6, _, _, h7, _, _, h8, _, _, h9, _, e, h10, h⟩ := h
  obtain ⟨_, _, h11, _, _, h12, _, _, h13, _, _, h14, h⟩ := h
  obtain ⟨_, _, h15, _, _, h16, _, d, h17, _, _, h18, h19⟩ := h
  -- both ways end by recording that the fact is resolved
  have kdone : ∀ regs' mem', Holds z host input on mask (update held kind true)
      (finalIfPresent kind (host.fact input kind) out) regs' mem' → Runs host prog Q d.pc regs' mem' := by
    intro regs' mem' hi'
    apply leads_emitTraceOr_factState hz hi' h18
    intro regs' mem' hi'
    rcases emit_when h19 with ⟨-, rfl⟩ | ⟨-, h19⟩
    · exact cont _ _ hi'
    · exact leads_emitTraceDomain hz hi' h19 cont
  have kabsent : host.fact input kind = none → ∀ t, z.addr absent = some t → ∀ regs' mem',
      Holds z host input on mask held out regs' mem' → Runs host prog Q t regs' mem' := by
    intro hn t ht regs' mem' hi'
    apply leads_at_label hz h14 ht
    apply leads_movImm hz h15
    apply leads_clearArea hz h16 (update_self ..) (by rw [update_of_ne (by decide), hi'.r10])
    apply leads_bind hz h17
    apply kdone
    have hfi := (hi'.scratch 1 (.scalar 0) (by omega)).fill_area kind hk
    rw [hn] at hfi ⊢
    rw [finalIfPresent, if_neg (by simp)]
    rwa [Option.getD_none, bitmapBytes_zero] at hfi
  apply leads_label h1
  apply leads_label h2
  apply leads_label h3
  apply leads_emitFactKey hz hi h4 kabsent
  intro pc hpc regs' mem' fd hi' hmap hsi hfind
  have hs : Runs host prog Q c.pc regs' mem' := by
    apply leads_mapLookup hz hi' h6 h7 h8 hmap hsi
    intro regs2 hi2 hr0
    have hr0 := hr0 _ rfl
    rw [hfind] at hr0
    cases hfa : host.fact input kind with
    | none =>
      rw [hfa] at hr0
      apply leads_jump hz h9 .eq rfl (by rw [hr0]; rfl)
      · intro _ t ht
        exact kabsent hfa t ht _ _ hi2
      · intro hf
        cases hf
    | some routing =>
      rw [hfa] at hfind hr0
      apply leads_jump hz h9 .eq rfl (by rw [hr0]; rfl)
      · intro hf
        cases hf
      intro _
      -- past the domain store the value is still where the helper found it
      have hco : ∀ mem3, Holds z host input on mask held (finalIfPresent kind (host.fact input kind) out) regs2 mem3 →
          Runs host prog Q e.pc regs2 mem3 := by
        intro mem3 hi3
        apply leads_copyValue hz h11 hr0 hi3.r10 (by simp) (fun i hi32 => ⟨by simp [MapHost.env], by simp [MapHost.env]; omega⟩)
        intro regs4 hr4
        have hfi := (hi3.of_regs regs4 fun r h6 => hr4 r (by omega)).fill_area kind hk
        rw [hfa, Option.getD_some, ← hi3.read_value hfind] at hfi
        apply leads_emitTraceOr_factState hz hfi h12
        intro regs5 mem5 hi5
        apply leads_ja hz h13
        intro t ht
        exact leads_at_label hz h17 ht (kdone _ _ (by rw [hfa]; exact hi5))
      rcases emit_when h10 with ⟨hd, rfl⟩ | ⟨hd, h10⟩
      · apply hco
        have hd : kind ≠ .domain := by simpa using hd
        rwa [finalIfPresent, if_neg (fun hc => hd hc.1)]
      apply leads_stOutput hz h10 hi2 3 rfl (by omega)
      intro mem3 hi3
      apply hco
      have hd : kind = .domain := by simpa using hd
      rwa [finalIfPresent, if_pos ⟨hd, by rw [hfa]; rfl⟩]
  rcases hpc with rfl | hpc
  · exact leads_bind hz h5 hs
  · exact leads_at_label hz h5 hpc hs

end

end Honk.Codegen
