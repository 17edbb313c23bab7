import Rvvk.Exec.Coherence

/-!
# The instruction buffer

`new_block` hands out the pointer into the instruction buffer, and `translate` moves it
on behind what it has written. As long as nothing disturbs the emulator and the code to
translate fits, the arrays lie in the buffer and apart, and each record stays as it was
stored. Nothing compares the pointer with the end of the buffer.
-/

namespace Rvvk

def Block.InArray (c : Setup) (b : Block) (a : Word) : Prop :=
  Span.Mem (h2g c b.insn) (insnSize * b.insns.length) a

/-- The arrays lie in the buffer and apart, and hold the instructions of their blocks. -/
structure Binary.Laid (x : Binary) (c : Setup) (s : Vm) : Prop where
  inside : ∀ b ∈ s.cache.heap, ∀ a, b.InArray c a → InBuffer c a
  apart : s.cache.heap.Pairwise fun b b' => ∀ a, b.InArray c a → ¬ b'.InArray c a
  intact : ∀ (p : Nat) b, s.cache.heap[p]? = some b → ∀ i insn, b.insns[i]? = some insn →
    x.loadInsn s.m.mem (b.slot c i) = .ok insn

theorem Vm.step_sameArray {s s' : Vm} (h : s.step = .ok s') {p : Nat} {b : Block}
    (hb : s.cache.heap[p]? = some b) :
    ∃ b', s'.cache.heap[p]? = some b' ∧ b'.insn = b.insn ∧ b'.insns = b.insns := by
  have hget : s.cache.arrays[p]? = some (b.insn, b.insns) := by
    rw [Cache.arrays, List.getElem?_map, hb]
    rfl
  have hget' : s'.cache.arrays[p]? = some (b.insn, b.insns) := by
    rcases step_arrays h with ⟨_, ha, _⟩ | ⟨pc, t, _, _, ha, _⟩
    · rwa [ha]
    · rw [ha, Cache.insert_arrays,
        List.getElem?_append_left (List.getElem?_eq_some_iff.mp hget).1, hget]
  rw [Cache.arrays, List.getElem?_map] at hget'
  obtain ⟨b', hb', he⟩ := Option.map_eq_some_iff.mp hget'
  exact ⟨b', hb', congrArg Prod.fst he, congrArg Prod.snd he⟩

namespace Binary

variable {x : Binary} {c : Setup} {s s' : Vm}

theorem Sound.laid (hs : x.Sound c s) : x.Laid c s where
  inside b hb a ha := hs.packed.inBuffer_of_array
    (List.mem_map_of_mem (f := fun b : Block => (b.insn, b.insns)) hb) ha
  apart := by
    have hp := hs.packed.placed.pairwise Cache.le_arrayRoom
    unfold Cache.arrays at hp
    rw [List.map_map] at hp
    refine (List.pairwise_map.mp hp).imp_of_mem fun {b b'} hb hb' hle a ha ha' => ?_
    have hat := (hs.packed.array_iff (List.mem_map_of_mem hb)).mp ha
    have hat' := (hs.packed.array_iff (List.mem_map_of_mem hb')).mp ha'
    dsimp only [Function.comp_apply] at hle hat hat'
    omega
  intact _ _ hb _ _ hi := hs.loadInsn hb hi

theorem Sound.step_intact (hs : x.Sound c s) (hk : x.KeepsOff c s) (h : x.step c s = .ok s')
    {p i : Nat} {b : Block} (hb : s.cache.heap[p]? = some b) (hi : i < b.insns.length) :
    x.loadInsn s'.m.mem (b.slot c i) = x.loadInsn s.m.mem (b.slot c i) := by
  have hs' : x.Sound c s' := hs.step hk h
  obtain ⟨s₁, h₁, rfl⟩ := step_cases hs hk h
  obtain ⟨b', hb', hinsn, hins⟩ := Vm.step_sameArray h₁ hb
  have hslot : b'.slot c i = b.slot c i := by
    unfold Block.slot
    rw [hinsn]
  have hget : b.insns[i]? = some b.insns[i] := List.getElem?_eq_getElem hi
  rw [hs.loadInsn hb hget, ← hslot]
  exact hs'.loadInsn hb' (by rw [hins, hget])

end Binary

/-- In every undisturbed run in which the code to translate fits, all arrays lie in the
buffer, no two overlap and each holds its instructions, and no translation changes a record
of another block. -/
theorem insn_arrays_laid {x : Binary} {c : Setup} {s : Vm} (h : x.AnyReach c s) :
    x.Laid c s ∧ ∀ s', x.KeepsOff c s → x.step c s = .ok s' → ∀ (p : Nat) b,
      s.cache.heap[p]? = some b → ∀ i < b.insns.length,
        x.loadInsn s'.m.mem (b.slot c i) = x.loadInsn s.m.mem (b.slot c i) := by
  have hs : x.Sound c s := h.sound fun _ _ hk => hk
  exact ⟨hs.laid, fun s' hk hstep p b hb i hi => hs.step_intact hk hstep hb hi⟩

/-- The guest that counts to three, when it leaves its loop: the block behind the loop is
translated now. -/
theorem counter_laid : ∃ s s' b,
    Binary.static.run .default 12 (.start (Counter.machine 0x00000073)) = .ok s ∧
      Binary.static.step .default s = .ok s' ∧ s.cache.heap.length = 1 ∧
      s'.cache.heap.length = 2 ∧ s.cache.heap[0]? = some b ∧ Binary.static.Laid .default s ∧
      Binary.static.Laid .default s' ∧ ∀ i < b.insns.length,
        Binary.static.loadInsn s'.m.mem (b.slot .default i) =
          Binary.static.loadInsn s.m.mem (b.slot .default i) := by
  have hoff := Counter.apart.mono fun _ h => h.keepsOff
  have hat : (((Vm.start (Counter.machine 0x00000073)).hide .default).run 12).toOption.map
      (fun t => t.cache.heap.length) = some 1 := by decide +kernel
  have hat' : (((Vm.start (Counter.machine 0x00000073)).hide .default).run 13).toOption.map
      (fun t => t.cache.heap.length) = some 2 := by decide +kernel
  obtain ⟨s, hr, -, hl⟩ :=
    Binary.run_shows (Counter.sound _) (Counter.apart.take (m := 12) (by decide)) hat
  obtain ⟨s', hr', -, hl'⟩ :=
    Binary.run_shows (Counter.sound _) (Counter.apart.take (m := 13) (by decide)) hat'
  rw [Vm.cache_hide] at hl hl'
  have hreach : ∀ {k t}, k ≤ 15 → Binary.static.run .default k
      (.start (Counter.machine 0x00000073)) = .ok t → Binary.static.AnyReach .default t :=
    fun hk ht => .run (.start _ trivial (Counter.fresh _)) (hoff.take hk).along ht
  have hone : Binary.static.run .default 1 s = .ok s' := (Run.run_add hr).symm.trans hr'
  obtain ⟨t, ht, hz⟩ := Run.run_succ_eq_ok.mp hone
  cases hz
  have hb : s.cache.heap[0]? = some s.cache.heap[0] := List.getElem?_eq_getElem (by omega)
  exact ⟨s, s', _, hr, ht, hl, hl', hb, (insn_arrays_laid (hreach (by decide) hr)).1,
    (insn_arrays_laid (hreach (by decide) hr')).1,
    (insn_arrays_laid (hreach (by decide) hr)).2 s' (hoff.at (by decide) hr) ht 0 _ hb⟩

/-! ## A guest that needs more than the buffer -/

namespace Hops

def addr (k : Nat) : Word := BitVec.ofNat 64 (2 * k)

def hop (k : Nat) : Insn := ⟨0, 0, 0, 2, addr k, .doCJal⟩

theorem addr_succ (k : Nat) : addr (k + 1) = addr k + 2 := by
  unfold addr
  rw [Nat.mul_succ, BitVec.ofNat_add]
  rfl

theorem toNat_addr {k i : Nat} (hk : k ≤ 2 ^ 24) (hi : i < 4) :
    (addr k + BitVec.ofNat 64 i).toNat = 2 * k + i := by
  unfold addr
  rw [BitVec.toNat_add, BitVec.toNat_ofNat, BitVec.toNat_ofNat]
  omega

theorem addr_ne {j k : Nat} (hj : j < k) (hk : k ≤ 2 ^ 24) : addr j ≠ addr k := by
  intro h
  have hn := congrArg BitVec.toNat h
  unfold addr at hn
  rw [BitVec.toNat_ofNat, BitVec.toNat_ofNat] at hn
  omega

theorem exec_hop (k : Nat) {m : Machine} (h0 : m.gpr 0 = 0) :
    (hop k).exec m = .ok (m.setPc (addr (k + 1))) := by
  rw [addr_succ]
  exact if_pos h0

section

variable {mem : Memory} {k : Nat}

theorem translate_hop (h : cpuLduw mem (addr k) 0 = .ok 0xa009a009) :
    translate mem (addr k) = .ok ⟨[hop k], addr (k + 1), 0⟩ := by
  refine translate_eq_ok.mpr ⟨(Ctx.start (addr k)).after (hop k), ?_, ?_, rfl⟩
  · rw [transMax, decode_succ mem 511 rfl]
    show cpuLduw mem (addr k) 0 >>= _ = _
    rw [h]
    rfl
  · rw [addr_succ]
    rfl

theorem lineLength_hop (h : cpuLduw mem (addr k) 0 = .ok 0xa009a009) :
    lineLength mem transMax (addr k) = 1 :=
  (translate_length (translate_hop h)).symm

/-- The emulator has translated `k` instructions, one a block, and is about to run
instruction `k`, which it has just translated. -/
structure At (mem : Memory) (k : Nat) (s : Vm) : Prop where
  inv : s.Inv
  ctl : s.ctl = .body k 0
  m : s.m = (Machine.boot mem).setPc (addr k)
  length : s.cache.heap.length = k + 1
  pcOf : ∀ p ≤ k, s.cache.pcOf p = some (addr p)
  ptr : s.cache.insnBufferPtr = insnBufferMapStart + BitVec.ofNat 64 (64 * (k + 1))
  last : s.cache.heap[k]? = some ⟨addr k, insnBufferMapStart + BitVec.ofNat 64 (64 * k),
    [hop k], ⟨addr (k + 1), none⟩, ⟨0, none⟩, none⟩

/-- The jump has been made, and its target is yet to be translated. -/
def At.jumped (s : Vm) (k : Nat) : Vm := ⟨s.m.setPc (addr (k + 1)), s.cache, .body k 1⟩

variable {s : Vm}

theorem At.step (h : At mem k s) : s.step = .ok (jumped s k) := by
  have hx : (hop k).exec s.m = .ok (s.m.setPc (addr (k + 1))) :=
    exec_hop k (by rw [h.m]; rfl)
  simp only [Vm.step, h.ctl, h.last, List.getElem?_cons_zero, hx]
  rfl

theorem At.findBlock (h : At mem k s) (hk : k < 2 ^ 24) : s.cache.findBlock (addr (k + 1)) = none := by
  refine (Cache.findBlock_eq_none h.inv.cache.wf).mpr fun (p : Nat) hp => ?_
  by_cases hpk : p ≤ k
  · rw [h.pcOf p hpk] at hp
    exact addr_ne (by omega) hk (Option.some.inj hp)
  · rw [Cache.pcOf_eq_none.mpr (by rw [h.length]; omega)] at hp
    cases hp

theorem At.next (h : At mem k s) (hk : k < 2 ^ 24)
    (hcode : cpuLduw mem (addr (k + 1)) 0 = .ok 0xa009a009) :
    ∃ s', (jumped s k).step = .ok s' ∧ At mem (k + 1) s' := by
  let t : Translation := ⟨[hop (k + 1)], addr (k + 2), 0⟩
  let c : Cache := s.cache.insert (addr (k + 1)) t
  have hstep : (jumped s k).step =
      .ok ⟨s.m.setPc (addr (k + 1)), c.patchBlock k (k + 1), .body (k + 1) 0⟩ := by
    have hl : Vm.lookup s.cache s.m.mem (addr (k + 1)) = .ok (c, k + 1) := by
      have hl := Vm.lookup_of_translate (h.findBlock hk) (translate_hop hcode)
      rw [h.m]
      rwa [h.length] at hl
    have he : Vm.enter (some k) (s.m.setPc (addr (k + 1))) s.cache =
        .ok ⟨s.m.setPc (addr (k + 1)), c.patchBlock k (k + 1), .body (k + 1) 0⟩ := by
      have hnone : (s.m.setPc (addr (k + 1))).exception = .none := by rw [h.m]; rfl
      unfold Vm.enter
      rw [if_pos hnone, Machine.mem_setPc, Machine.pc_setPc, hl]
      rfl
    have hn : [hop k][1]? = none := rfl
    have hj : Vm.jmpNext ⟨addr k, insnBufferMapStart + BitVec.ofNat 64 (64 * k), [hop k],
        ⟨addr (k + 1), none⟩, ⟨0, none⟩, none⟩ (addr (k + 1)) = none := if_pos rfl
    simp only [Vm.step, jumped, h.last, hn, Machine.pc_setPc, hj]
    exact he
  have hlen : c.heap.length = k + 2 := by rw [Cache.insert_length, h.length]
  have hnew : c.pcOf (k + 1) = some (addr (k + 1)) := by
    rw [Cache.insert_pcOf, if_pos h.length.symm]
  have hsame := Cache.patchBlock_sameTable c k (k + 1)
  refine ⟨_, hstep, (h.inv.step h.step).step hstep, rfl, ?_, ?_, fun p hp => ?_, ?_, ?_⟩
  · rw [h.m]
    rfl
  · show (c.patchBlock k (k + 1)).heap.length = _
    rw [hsame.length, hlen]
  · show (c.patchBlock k (k + 1)).pcOf p = _
    rw [hsame.pcOf, Cache.insert_pcOf, h.length]
    split
    · rename_i hp'
      rw [hp']
    · exact h.pcOf p (by omega)
  · have hr : roundUp (BitVec.ofNat 64 1 * 32) 64 = 64 := by decide
    have hp : c.insnBufferPtr = s.cache.insnBufferPtr + 64 :=
      (s.cache.insert_insnBufferPtr (addr (k + 1)) t).trans (congrArg _ hr)
    show (c.patchBlock k (k + 1)).insnBufferPtr = _
    rw [Cache.patchBlock_insnBufferPtr, hp, h.ptr, Nat.mul_succ 64 (k + 1), BitVec.ofNat_add,
      ← BitVec.add_assoc]
    rfl
  · show (c.patchBlock k (k + 1)).heap[k + 1]? = _
    rw [Cache.patchBlock_getElem? hnew, Cache.insert_getElem?, h.length, if_pos rfl, h.ptr]
    simp [t]

theorem At.clear (h : At mem k s) : Binary.static.Clear .default s := by
  have hin : s.insn? = some (hop k) := by
    simp only [Vm.insn?, h.ctl, h.last, Option.bind_some, List.getElem?_cons_zero]
  have hen : s.enters = false := by
    simp only [Vm.enters, h.ctl, h.last, List.getElem?_cons_zero, Option.isNone_some,
      Bool.false_and]
  refine ⟨fun insn hi => ?_, fun pc hpc => ?_⟩
  · cases hin.symm.trans hi
    exact ⟨fun r hr => (by cases hr), fun r hr => (by cases hr)⟩
  · unfold Vm.translates? at hpc
    rw [if_neg (by simp [hen])] at hpc
    cases hpc

theorem At.jumped_clear (h : At mem k s) (hk : k + 1 < 2 ^ 24)
    (hcode : cpuLduw mem (addr (k + 1)) 0 = .ok 0xa009a009) :
    Binary.static.Clear .default (jumped s k) := by
  have hin : (jumped s k).insn? = none := by
    simp only [Vm.insn?, jumped, h.last, Option.bind_some, List.getElem?_cons_succ,
      List.getElem?_nil]
  refine ⟨fun insn hi => ?_, fun pc hpc => ?_⟩
  · rw [hin] at hi
    cases hi
  · have hmem : (jumped s k).m.mem = mem := by
      unfold jumped
      rw [h.m]
      rfl
    obtain rfl : addr (k + 1) = pc := by
      unfold Vm.translates? at hpc
      split at hpc
      · exact Option.some.inj hpc
      · cases hpc
    rw [hmem, lineLength_hop hcode]
    refine ⟨?_, fun j hj i hi => Binary.static_low ?_⟩
    · show s.cache.Fits 1
      have hlo : insnBufferMapStart.toNat = 0x500000000000 := rfl
      unfold Cache.Fits insnSize insnBufferSize
      rw [h.ptr, BitVec.toNat_add, BitVec.toNat_ofNat, hlo]
      omega
    · obtain rfl : j = 0 := by omega
      show (addr (k + 1) + BitVec.ofNat 64 i).toNat < 2 ^ 32
      rw [toNat_addr (by omega) hi]
      omega

theorem at_zero (hcode : cpuLduw mem (addr 0) 0 = .ok 0xa009a009) :
    ∃ s, (Vm.start (.boot mem)).step = .ok s ∧ At mem 0 s := by
  have hs := Vm.start_step (m := .boot mem) rfl (translate_hop (k := 0) hcode)
  refine ⟨_, hs, (Vm.Inv.start _).step hs, rfl, rfl, rfl, ?_, rfl, rfl⟩
  intro p hp
  obtain rfl : p = 0 := by omega
  rfl

theorem start_clear (hcode : cpuLduw mem (addr 0) 0 = .ok 0xa009a009) :
    Binary.static.Clear .default (.start (.boot mem)) := by
  refine ⟨nofun, fun pc hpc => ?_⟩
  obtain rfl : addr 0 = pc := Option.some.inj hpc
  show Cache.init.Fits (lineLength mem transMax (addr 0)) ∧ ∀ j < lineLength mem transMax (addr 0), _
  rw [lineLength_hop hcode]
  refine ⟨by decide, fun j hj i hi => Binary.static_low ?_⟩
  obtain rfl : j = 0 := by omega
  show (addr 0 + BitVec.ofNat 64 i).toNat < 2 ^ 32
  rw [toNat_addr (by omega) hi]
  omega

theorem run (hcode : ∀ k ≤ 2 ^ 24, cpuLduw mem (addr k) 0 = .ok 0xa009a009) (hk : k < 2 ^ 24) :
    Run.Throughout Vm.step (Binary.static.Clear .default) (2 * k + 1) (.start (.boot mem)) ∧
      ∃ s, (Vm.start (.boot mem)).run (2 * k + 1) = .ok s ∧ At mem k s := by
  induction k with
  | zero =>
      obtain ⟨s, hs, h⟩ := at_zero (hcode 0 (by omega))
      exact ⟨⟨start_clear (hcode 0 (by omega)), fun _ _ => trivial⟩, s,
        Run.run_succ_eq_ok.mpr ⟨s, hs, rfl⟩, h⟩
  | succ k ih =>
      obtain ⟨hclear, s, hs, h⟩ := ih (by omega)
      obtain ⟨s', hs', h'⟩ := h.next (by omega) (hcode _ (by omega))
      have hjump := h.jumped_clear hk (hcode _ (by omega))
      refine ⟨hclear.append hs (n := 2) ⟨h.clear, fun t ht => ?_⟩, s', ?_, h'⟩
      · cases h.step.symm.trans ht
        exact ⟨hjump, fun _ _ => trivial⟩
      · exact (Run.run_add hs (n := 2)).trans (Run.run_succ_eq_ok.mpr ⟨_, h.step,
          Run.run_succ_eq_ok.mpr ⟨_, hs', rfl⟩⟩)

/-- Where the page behind the buffer begins, for the guest. -/
def page : Word := 0x100040000000

theorem At.overflow {r : Vm} (h : At mem k s) (hk : k + 1 = 2 ^ 24)
    (hr : r.hide .default = jumped s k) (hcode : cpuLduw r.m.mem (addr (k + 1)) 0 = .ok 0xa009a009)
    (hpage : r.m.mem.Shows page (List.replicate insnSize 0)) :
    ∃ r', Binary.static.step .default r = .ok r' ∧ ∃ b ∈ r'.cache.heap, b.InArray .default page := by
  let t : Translation := ⟨[hop (k + 1)], addr (k + 2), 0⟩
  have hctl : r.ctl = .body k 1 := by
    rw [← Vm.ctl_hide (c := .default), hr]
    rfl
  have hcache : r.cache = s.cache := by
    rw [← Vm.cache_hide (c := .default), hr]
    rfl
  have hm : r.m.without (InBuffer .default) = s.m.setPc (addr (k + 1)) := by
    rw [← Vm.m_hide, hr]
    rfl
  have hpc : r.m.pc = addr (k + 1) := by
    rw [← Machine.pc_without (p := InBuffer .default), hm]
    rfl
  have hexc : r.m.exception = .none := by
    rw [← Machine.exception_without (p := InBuffer .default), hm, h.m]
    rfl
  have hslot : h2g .default s.cache.insnBufferPtr = page := by
    rw [h.ptr, hk]
    decide
  have hline := lineLength_hop hcode
  have ht : Binary.static.translate r.m.mem page (addr (k + 1)) =
      .ok (t, r.m.mem.fill page (Binary.static.records t.insns)) := by
    rw [Binary.translate_eq (by rwa [hline]) fun j hj i hi hspan => ?_, translate_hop hcode]
    · rfl
    · rw [hline] at hj hspan
      obtain rfl : j = 0 := by omega
      have hat : (addr (k + 1) + BitVec.ofNat 64 i).toNat = 2 * (k + 1) + i :=
        toNat_addr (by omega) hi
      have hspan' : Span.Mem page 32 (addr (k + 1) + BitVec.ofNat 64 i) := hspan
      rw [Span.mem_iff (by decide), hat, show page.toNat = 0x100040000000 from rfl] at hspan'
      omega
  have hl : Binary.static.lookup .default s.cache r.m.mem (addr (k + 1)) =
      .ok (s.cache.insert (addr (k + 1)) t, k + 1,
        r.m.mem.fill page (Binary.static.records t.insns)) := by
    unfold Binary.lookup
    simp only [h.findBlock (by omega), Cache.newBlock_insnBufferPtr, hslot, ht]
    have hlen : (s.cache.newBlock (addr (k + 1))).2 = k + 1 := by
      rw [Cache.newBlock_snd, h.length]
    simp only [bind, Except.bind, Cache.insert, hlen, h.length]
  have hj : Vm.jmpNext ⟨addr k, insnBufferMapStart + BitVec.ofNat 64 (64 * k), [hop k],
      ⟨addr (k + 1), none⟩, ⟨0, none⟩, none⟩ (addr (k + 1)) = none := if_pos rfl
  have hlen : ¬ 1 < [hop k].length := Nat.lt_irrefl 1
  refine ⟨⟨r.m.setMem (r.m.mem.fill page (Binary.static.records t.insns)),
    (s.cache.insert (addr (k + 1)) t).patchBlock k (k + 1), .body (k + 1) 0⟩, ?_, ⟨addr (k + 1), s.cache.insnBufferPtr, t.insns, ⟨t.next0, none⟩, ⟨t.next1, none⟩,
    none⟩, ?_, ?_⟩
  · simp only [Binary.step, hctl, hcache, h.last, hlen, if_false, hpc, hj, Binary.enter, hexc,
      if_true, hl]
    rfl
  · refine List.mem_of_getElem? (i := k + 1) ?_
    show ((s.cache.insert (addr (k + 1)) t).patchBlock k (k + 1)).heap[k + 1]? = _
    have hnew : (s.cache.insert (addr (k + 1)) t).pcOf (k + 1) = some (addr (k + 1)) := by
      rw [Cache.insert_pcOf, if_pos h.length.symm]
    rw [Cache.patchBlock_getElem? hnew, Cache.insert_getElem?, h.length, if_pos rfl]
    simp
  · unfold Block.InArray
    rw [hslot]
    have hfirst : Span.Mem page 32 page := by decide
    exact hfirst

end

/-- 32 MiB of `c.j 2`, a jump to the next halfword, and a page behind the buffer. -/
def code : Memory := fun a =>
  if a.toNat < 2 ^ 25 + 4 then some ⟨if a.getLsbD 0 then 0xa0 else 0x09, true, true⟩
  else if Span.Mem page 0x1000 a then some ⟨0, true, true⟩
  else none

def machine : Machine := (Machine.boot code).buffered .default

theorem fetch_code {k : Nat} (hk : k ≤ 2 ^ 24) : cpuLduw code (addr k) 0 = .ok 0xa009a009 := by
  refine Memory.cpuLduw_eq_ok.mpr fun i hi => ?_
  have ha : (addr k + BitVec.ofNat 64 i).toNat = 2 * k + i := toNat_addr hk hi
  have hbit : (addr k + BitVec.ofNat 64 i).getLsbD 0 = decide (i % 2 = 1) := by
    rw [BitVec.getLsbD, ha, Nat.testBit_zero]
    congr 1
    simp only [eq_iff_iff]
    omega
  unfold Memory.byte? code
  rw [ha, if_pos (by omega), hbit]
  match i, hi with
  | 0, _ | 1, _ | 2, _ | 3, _ => rfl

theorem fetch_without {p : Word → Prop} [DecidablePred p] (hp : ∀ a : Word, a.toNat < 2 ^ 32 → ¬ p a)
    {k : Nat} (hk : k ≤ 2 ^ 24) : cpuLduw (code.without p) (addr k) 0 = .ok 0xa009a009 := by
  rw [Memory.cpuLduw_without fun a ha => hp a ?_, fetch_code hk]
  obtain ⟨i, hi, rfl⟩ := Span.exists_offset ha
  rw [toNat_addr hk hi]
  omega

theorem page_without {a : Word} (ha : Span.Mem page 32 a) :
    code.without (InBuffer .default) a = some ⟨0, true, true⟩ := by
  have hat := ha
  rw [Span.mem_iff (by decide), show page.toNat = 0x100040000000 from rfl] at hat
  have hg : (g2h .default a).toNat = a.toNat + 0x400000000000 := by
    show (a + 0x400000000000#64).toNat = _
    rw [BitVec.toNat_add, BitVec.toNat_ofNat]
    omega
  have hbuf : ¬ InBuffer .default a := by
    have hlo : insnBufferMapStart.toNat = 0x500000000000 := rfl
    rw [inBuffer_iff, hg, hlo]
    unfold insnBufferSize
    omega
  rw [Memory.without_other hbuf]
  unfold code
  rw [if_neg (by omega), if_pos (ha.mono (by decide))]

theorem hide_machine : machine.without (InBuffer .default) =
    .boot (code.without (InBuffer .default)) :=
  congrArg Machine.boot (Memory.without_congr fun _ ha => if_neg ha)

end Hops

/-- A guest that jumps through 32 MiB of code, a halfword at a time, has its last
block behind the end of the buffer. -/
theorem insn_buffer_overflow :
    ∃ s, Binary.static.run .default (2 ^ 25 + 1) (.start Hops.machine) = .ok s ∧
      ¬ Binary.static.Laid .default s := by
  have hs : Binary.static.Sound .default (.start Hops.machine) := .start (buffered_fresh _ _)
  have hfetch : ∀ k ≤ 2 ^ 24,
      cpuLduw (Hops.code.without (InBuffer .default)) (Hops.addr k) 0 = .ok 0xa009a009 :=
    fun k hk => Hops.fetch_without (fun a ha => (Binary.static_low ha).1) hk
  obtain ⟨hclear, t, ht, hat⟩ := Hops.run hfetch (k := 2 ^ 24 - 1) (by decide)
  have hjump : Run.run Vm.step (2 * (2 ^ 24 - 1) + 2) (.start (.boot (Hops.code.without _))) =
      .ok (Hops.At.jumped t (2 ^ 24 - 1)) :=
    (Run.run_add ht (n := 1)).trans (Run.run_succ_eq_ok.mpr ⟨_, hat.step, rfl⟩)
  have hall := hclear.append ht (n := 1) ⟨hat.clear, fun _ _ => trivial⟩
  rw [← Hops.hide_machine, ← Vm.hide_start] at hall hjump
  obtain ⟨r, hr, hh⟩ := Binary.run_of_hide hs (Binary.throughout_of_clear hs hall) hjump
  have hmem : r.m.mem.without (InBuffer .default) = Hops.code.without (InBuffer .default) := by
    rw [← Machine.mem_without, ← Vm.m_hide, hh]
    show t.m.mem = _
    rw [hat.m]
    rfl
  have hcode : cpuLduw r.m.mem (Hops.addr (2 ^ 24 - 1 + 1)) 0 = .ok 0xa009a009 := by
    refine Memory.cpuLduw_eq_ok.mpr fun i hi => ?_
    have hbyte := Memory.cpuLduw_eq_ok.mp (hfetch (2 ^ 24) (Nat.le_refl _)) i hi
    rw [← hmem] at hbyte
    exact Memory.byte?_without hbyte
  have hpage : r.m.mem.Shows Hops.page (List.replicate insnSize 0) := by
    intro i v hv
    have hi := (List.getElem?_eq_some_iff.mp hv).1
    rw [List.length_replicate] at hi
    rw [List.getElem?_replicate, if_pos hi] at hv
    cases hv
    have hcell := Hops.page_without (Span.mem_offset Hops.page hi)
    rw [← hmem] at hcell
    exact Memory.of_without hcell
  obtain ⟨s, hstep, b, hb, hin⟩ := hat.overflow (by decide) hh hcode hpage
  refine ⟨s, ?_, fun hl => ?_⟩
  · exact (Run.run_add hr (n := 1)).trans (Run.run_succ_eq_ok.mpr ⟨s, hstep, rfl⟩)
  · exact absurd (hl.inside b hb _ hin) (by decide)

end Rvvk
