import Rvvk.Exec.Packing
import Rvvk.Exec.Emulator

/-!
# Undisturbed runs

As long as nothing disturbs the emulator's memory, the records in the instruction buffer
are those that `translate` has stored there, and a step of the emulator is a step of the
machine that keeps its arrays apart from memory.
-/

namespace Rvvk

/-! ## What would disturb the emulator -/

/-- The part of the buffer that is not handed out yet. -/
def Cache.Free (c : Setup) (cache : Cache) (a : Word) : Prop :=
  Span.Mem (h2g c cache.insnBufferPtr)
    (insnBufferMapStart.toNat + insnBufferSize - cache.insnBufferPtr.toNat) a

/-- The next step translates code, and the address is one of those it reads for that. -/
def Vm.Fetches (s : Vm) (a : Word) : Prop :=
  ∃ pc, s.translates? = some pc ∧ ∃ j < lineLength s.m.mem transMax pc, ∃ k < 4,
    a = pcAt s.m.mem pc j + BitVec.ofNat 64 k

namespace Binary

variable (x : Binary) (c : Setup)

def Stores (s : Vm) (a : Word) : Prop := ∃ insn, x.insn? c s = some insn ∧ insn.Stores s.m a

def Loads (s : Vm) (a : Word) : Prop := ∃ insn, x.insn? c s = some insn ∧ insn.Loads s.m a

/-- The next step leaves the records in the buffer alone and finds room for the code it
translates, and it does not meet the emulator's own memory. -/
structure KeepsOff (s : Vm) : Prop where
  stores : ∀ a, x.Stores c s a → ¬ InBuffer c a ∧ ¬ x.Own c a
  loads : ∀ a, x.Loads c s a → ¬ x.Own c a
  fetches : ∀ a, s.Fetches a → ¬ s.cache.Free c a ∧ ¬ x.Own c a
  room : s.Room

/-- The records in memory are those of the table, and the rest of the buffer is fresh. -/
structure Sound (s : Vm) : Prop where
  inv : s.Inv
  packed : s.cache.Packed
  arrays : ∀ y ∈ s.cache.arrays, s.m.mem.Shows (h2g c y.1) (x.records y.2)
  free : ∀ a, s.cache.Free c a → s.m.mem a = some ⟨0, true, true⟩

end Binary

/-! ## Addresses of the buffer -/

theorem mem_h2g {c : Setup} {base a : Word} {n : Nat} :
    Span.Mem (h2g c base) n a ↔ Span.Mem base n (g2h c a) := by
  have h := Span.mem_add_right (h2g c base) a c.guestBase n
  rw [show h2g c base + c.guestBase = base from g2h_h2g c base] at h
  exact h.symm

section

variable {x : Binary} {c : Setup} {cache : Cache} {a : Word}

theorem inBuffer_iff : InBuffer c a ↔
    insnBufferMapStart.toNat ≤ (g2h c a).toNat ∧
      (g2h c a).toNat < insnBufferMapStart.toNat + insnBufferSize := by
  unfold InBuffer
  rw [mem_h2g, Span.mem_iff (by decide)]

/-- While the arrays are packed, the free part is what lies behind the pointer. -/
theorem Cache.Packed.free_iff (h : cache.Packed) : cache.Free c a ↔
    cache.insnBufferPtr.toNat ≤ (g2h c a).toNat ∧
      (g2h c a).toNat < insnBufferMapStart.toNat + insnBufferSize := by
  have hle := h.le
  have hend := bufferEnd
  unfold Free
  rw [mem_h2g, Span.mem_iff (by omega)]
  omega

theorem Cache.Packed.inBuffer_of_free (h : cache.Packed) (ha : cache.Free c a) :
    InBuffer c a := by
  have hlo := h.placed.le
  rw [h.free_iff] at ha
  rw [inBuffer_iff]
  omega

theorem Cache.Packed.array_iff (h : cache.Packed) {y : Word × List Insn} (hy : y ∈ cache.arrays) :
    Span.Mem (h2g c y.1) (insnSize * y.2.length) a ↔
      y.1.toNat ≤ (g2h c a).toNat ∧ (g2h c a).toNat < y.1.toNat + insnSize * y.2.length := by
  have hbound := (h.bounds hy).2
  have hend := bufferEnd
  rw [mem_h2g, Span.mem_iff (by omega)]

theorem Cache.Packed.inBuffer_of_array (h : cache.Packed) {y : Word × List Insn}
    (hy : y ∈ cache.arrays) (ha : Span.Mem (h2g c y.1) (insnSize * y.2.length) a) :
    InBuffer c a := by
  have hbound := h.bounds hy
  rw [h.array_iff hy] at ha
  rw [inBuffer_iff]
  omega

theorem Cache.Packed.not_free_of_array (h : cache.Packed) {y : Word × List Insn}
    (hy : y ∈ cache.arrays) (ha : Span.Mem (h2g c y.1) (insnSize * y.2.length) a) :
    ¬ cache.Free c a := by
  have hbound := h.placed.bounds (List.mem_map_of_mem hy)
  have hroom := Cache.le_arrayRoom (insnSize * y.2.length)
  dsimp only at hbound
  rw [h.array_iff hy] at ha
  rw [h.free_iff]
  omega

theorem Block.slot_mem {b : Block} {i k : Nat} (hi : i < b.insns.length) (hk : k < insnSize) :
    Span.Mem (h2g c b.insn) (insnSize * b.insns.length) (b.slot c i + BitVec.ofNat 64 k) := by
  have he : b.slot c i + BitVec.ofNat 64 k =
      h2g c b.insn + BitVec.ofNat 64 (insnSize * i + k) := by
    rw [Block.slot, BitVec.ofNat_add, BitVec.add_assoc]
  rw [he]
  refine Span.mem_offset _ ?_
  unfold insnSize at hk ⊢
  omega

end

/-! ## Translating into the buffer -/

section

variable {x : Binary} {mem mem₀ : Memory}

/-- One turn of the loop, with a fresh slot for the record. -/
theorem Binary.decode_succ {room : Nat} {ctx : Ctx} {slot : Word} (hx : ctx.exit = false)
    (hfresh : mem.Shows slot (List.replicate insnSize 0)) :
    x.decode (room + 1) ctx slot mem = cpuLduw mem ctx.pc 0 >>= fun opcode =>
      if (insnAt ctx.pc opcode).op.transfers then
        .ok (ctx.after (insnAt ctx.pc opcode), [insnAt ctx.pc opcode],
          mem.fill slot (x.record (insnAt ctx.pc opcode)))
      else if room = 0 then
        .ok (ctx.cut opcode, [insnAt ctx.pc opcode],
          mem.fill slot (x.record (insnAt ctx.pc opcode)))
      else (x.decode room (ctx.next opcode) (slot + BitVec.ofNat 64 insnSize)
        (mem.fill slot (x.record (insnAt ctx.pc opcode)))).map fun r =>
          (r.1, insnAt ctx.pc opcode :: r.2.1, r.2.2) := by
  have hstore : ∀ insn, mem.storeBytes slot (x.record insn) = .ok (mem.fill slot (x.record insn)) := by
    intro insn
    refine Memory.storeBytes_eq_fill (fun i hi => hfresh.writable ?_) ?_
    · rwa [List.length_replicate, ← x.length_record insn]
    · rw [x.length_record]
      decide
  rw [decode]
  congr 1
  funext opcode
  rw [loadOperands_fresh hfresh]
  simp only [bind, Except.bind, decodeInsn_eq, hstore]
  cases ht : (insnAt ctx.pc opcode).op.transfers with
  | true => simp [Ctx.after_exit, ht]
  | false =>
      rw [Ctx.after_of_straight ctx ht, if_neg (by simp [hx]), if_neg Bool.false_ne_true]
      split
      · rfl
      · simp only [Ctx.next, Except.map]

/-- With a fresh array for the records and the code elsewhere, the decoder does as the one
that keeps the array apart. -/
theorem Binary.decode_eq {room : Nat} {ctx : Ctx} {slot : Word} (hx : ctx.exit = false)
    (hroom : insnSize * room ≤ 2 ^ 64)
    (hfresh : mem.Shows slot (List.replicate (insnSize * lineLength mem₀ room ctx.pc) 0))
    (hcode : ∀ j < lineLength mem₀ room ctx.pc, ∀ k < 4,
      mem (pcAt mem₀ ctx.pc j + BitVec.ofNat 64 k) =
          mem₀ (pcAt mem₀ ctx.pc j + BitVec.ofNat 64 k) ∧
        ¬ Span.Mem slot (insnSize * lineLength mem₀ room ctx.pc)
          (pcAt mem₀ ctx.pc j + BitVec.ofNat 64 k)) :
    x.decode room ctx slot mem = (Rvvk.decode mem₀ room ctx).map fun r =>
      (r.1, r.2, mem.fill slot (x.records r.2)) := by
  induction room generalizing ctx slot mem with
  | zero => exact congrArg (fun m => Except.ok (ctx, [], m)) (Memory.fill_nil mem slot).symm
  | succ room ih =>
      have hone (insn : Insn) : x.records [insn] = x.record insn := List.flatMap_singleton ..
      have hpos := lineLength_pos mem₀ room ctx.pc
      have hsplit {n : Nat} : List.replicate (insnSize * (n + 1)) (0 : BitVec 8) =
          List.replicate insnSize 0 ++ List.replicate (insnSize * n) 0 := by
        rw [List.replicate_append_replicate, Nat.mul_succ, Nat.add_comm]
      have hlow : mem.Shows slot (List.replicate insnSize 0) := by
        obtain ⟨n, hn⟩ := Nat.exists_eq_succ_of_ne_zero (Nat.ne_of_gt hpos)
        rw [hn, hsplit, Memory.shows_append] at hfresh
        exact hfresh.1
      have hword : cpuLduw mem ctx.pc 0 = cpuLduw mem₀ ctx.pc 0 :=
        Memory.cpuLduw_congr fun k hk => (hcode 0 hpos k hk).1
      rw [decode_succ hx hlow, Rvvk.decode_succ mem₀ room hx, hword]
      cases ho : cpuLduw mem₀ ctx.pc 0 with
      | error e => rfl
      | ok opcode =>
          simp only [bind, Except.bind]
          rw [lineLength, fetch_eq ho] at hfresh hcode
          cases ht : (insnAt ctx.pc opcode).op.transfers with
          | true =>
              simp only [if_true, Except.map, hone]
          | false =>
              rw [ht] at hfresh hcode
              simp only [Bool.false_eq_true, if_false] at hfresh hcode ⊢
              split
              · simp only [Except.map, hone]
              · rw [← Ctx.next_pc ho] at hfresh hcode
                have hle := lineLength_le mem₀ room (ctx.next opcode).pc
                have hbound : insnSize + insnSize * lineLength mem₀ room (ctx.next opcode).pc ≤
                    2 ^ 64 := by
                  unfold insnSize at *
                  omega
                have hshift : ∀ a, Span.Mem (slot + BitVec.ofNat 64 insnSize)
                    (insnSize * lineLength mem₀ room (ctx.next opcode).pc) a ↔ _ := fun a =>
                  Span.mem_shift (by decide) hbound
                have hrec : x.decode room (ctx.next opcode) (slot + BitVec.ofNat 64 insnSize)
                    (mem.fill slot (x.record (insnAt ctx.pc opcode))) =
                      (Rvvk.decode mem₀ room (ctx.next opcode)).map fun r => (r.1, r.2,
                        (mem.fill slot (x.record (insnAt ctx.pc opcode))).fill
                          (slot + BitVec.ofNat 64 insnSize) (x.records r.2)) := by
                  refine ih (Ctx.next_exit hx) (by unfold insnSize at *; omega) ?_ fun j hj k hk => ?_
                  · rw [hsplit, Memory.shows_append, List.length_replicate] at hfresh
                    refine hfresh.2.congr fun a ha => Memory.fill_other ?_
                    rw [List.length_replicate, hshift] at ha
                    rw [x.length_record]
                    exact Nat.not_lt.mpr ha.1
                  · obtain ⟨hsame, hout⟩ := hcode (j + 1) (Nat.succ_lt_succ hj) k hk
                    rw [pcAt_succ, ← Ctx.next_pc ho] at hsame hout
                    rw [Nat.mul_succ] at hout
                    unfold Span.Mem at hout
                    refine ⟨(Memory.fill_other ?_).trans hsame, ?_⟩
                    · rw [x.length_record]
                      unfold Span.Mem
                      omega
                    · rw [hshift]
                      omega
                rw [hrec]
                cases hd : Rvvk.decode mem₀ room (ctx.next opcode) with
                | error e => rfl
                | ok r =>
                    obtain ⟨ctx', insns⟩ := r
                    have hle := decode_length_le (Ctx.next_exit hx) hd
                    have hl := x.length_record (insnAt ctx.pc opcode)
                    have hfits : (x.record (insnAt ctx.pc opcode)).length +
                        (x.records insns).length ≤ 2 ^ 64 := by
                      rw [hl, x.length_records]
                      unfold insnSize at *
                      omega
                    have hmem := Memory.fill_append mem slot hfits
                    rw [hl] at hmem
                    simp only [Except.map, hmem]
                    rfl

/-- With a fresh array for the records and the code elsewhere, a translation is the one that
keeps the array apart, with the records stored. -/
theorem Binary.translate_eq {slot pc : Word}
    (hfresh : mem.Shows slot (List.replicate (insnSize * lineLength mem transMax pc) 0))
    (hcode : ∀ j < lineLength mem transMax pc, ∀ k < 4,
      ¬ Span.Mem slot (insnSize * lineLength mem transMax pc)
        (pcAt mem pc j + BitVec.ofNat 64 k)) :
    x.translate mem slot pc = (Rvvk.translate mem pc).map fun t =>
      (t, mem.fill slot (x.records t.insns)) := by
  have hd : x.decode transMax (.start pc) slot mem =
      (Rvvk.decode mem transMax (.start pc)).map fun r =>
        (r.1, r.2, mem.fill slot (x.records r.2)) :=
    decode_eq rfl (by decide) hfresh fun j hj k hk => ⟨rfl, hcode j hj k hk⟩
  unfold translate Rvvk.translate
  rw [hd]
  cases Rvvk.decode mem transMax (.start pc) <;> rfl

end

/-! ## A step of the emulator -/

namespace Binary

variable (x : Binary) (c : Setup)

/-- The memory with the array that has been added to the table. -/
def stored (before after : Cache) (mem : Memory) : Memory :=
  match after.arrays[before.arrays.length]? with
  | some y => mem.fill (h2g c y.1) (x.records y.2)
  | none => mem

/-- The state that a step leaves which has stored what it has translated. -/
def commit (before : Cache) (s : Vm) : Vm :=
  { s with m := s.m.setMem (x.stored c before s.cache s.m.mem) }

end Binary

section

variable {x : Binary} {c : Setup} {s s₁ : Vm}

theorem Binary.stored_of_arrays {before after : Cache} (h : after.arrays = before.arrays)
    (mem : Memory) : x.stored c before after mem = mem := by
  unfold stored
  rw [h, List.getElem?_eq_none (Nat.le_refl _)]

theorem Binary.commit_of_arrays {before : Cache} (h : s.cache.arrays = before.arrays) :
    x.commit c before s = s := by
  unfold commit
  rw [stored_of_arrays h]
  rfl

theorem Binary.stored_insert {before after : Cache} {pc : Word} {t : Translation}
    (h : after.arrays = (before.insert pc t).arrays) (mem : Memory) :
    x.stored c before after mem = mem.fill (h2g c before.insnBufferPtr) (x.records t.insns) := by
  unfold stored
  rw [h, Cache.insert_arrays, List.getElem?_concat_length]

theorem Cache.Fits.free {cache : Cache} {n : Nat} {a : Word} (h : cache.Fits n)
    (ha : Span.Mem (h2g c cache.insnBufferPtr) (insnSize * n) a) : cache.Free c a := by
  unfold Fits at h
  exact ha.mono (by omega)

theorem Cache.newBlock_insnBufferPtr (cache : Cache) (pc : Word) :
    (cache.newBlock pc).1.insnBufferPtr = cache.insnBufferPtr := by
  unfold newBlock
  dsimp only
  split <;> rfl

theorem Binary.lookup_eq {cache : Cache} {mem : Memory} {pc : Word}
    (hfree : ∀ a, cache.Free c a → mem a = some ⟨0, true, true⟩)
    (hnew : cache.findBlock pc = none → cache.Fits (lineLength mem transMax pc) ∧
      ∀ j < lineLength mem transMax pc, ∀ k < 4,
        ¬ cache.Free c (pcAt mem pc j + BitVec.ofNat 64 k)) :
    x.lookup c cache mem pc = (Vm.lookup cache mem pc).map fun r =>
      (r.1, r.2, x.stored c cache r.1 mem) := by
  unfold lookup Vm.lookup
  cases hf : cache.findBlock pc with
  | some b => exact congrArg (fun m => Except.ok (cache, b, m)) (stored_of_arrays rfl mem).symm
  | none =>
      obtain ⟨hfits, hcode⟩ := hnew hf
      have ht : x.translate mem (h2g c cache.insnBufferPtr) pc =
          (Rvvk.translate mem pc).map fun t =>
            (t, mem.fill (h2g c cache.insnBufferPtr) (x.records t.insns)) := by
        refine translate_eq (fun i b hb => ?_) fun j hj k hk hm => hcode j hj k hk (hfits.free hm)
        have hi := (List.getElem?_eq_some_iff.mp hb).1
        rw [List.length_replicate] at hi
        rw [List.getElem?_replicate, if_pos hi] at hb
        cases hb
        exact hfree _ (hfits.free (Span.mem_offset _ hi))
      simp only [Cache.newBlock_insnBufferPtr, ht]
      cases Rvvk.translate mem pc with
      | error e => rfl
      | ok t =>
          have hst : x.stored c cache (cache.insert pc t) mem =
              mem.fill (h2g c cache.insnBufferPtr) (x.records t.insns) := stored_insert rfl mem
          rw [Cache.insert, ← Cache.newBlock_snd cache pc] at hst
          simp only [bind, Except.bind, Except.map, hst]

/-- The turn of the loop that the next step makes is one of the emulator's. -/
theorem Binary.enter_eq (hs : x.Sound c s) (hk : x.KeepsOff c s) (hen : s.enters = true)
    (prev : Option Ptr) :
    x.enter c prev s.m s.cache = (Vm.enter prev s.m s.cache).map (x.commit c s.cache) := by
  unfold enter Vm.enter
  by_cases he : s.m.exception = .none
  · rw [if_pos he, if_pos he, lookup_eq hs.free fun hf => ?_]
    · cases Vm.lookup s.cache s.m.mem s.m.pc with
      | error e => rfl
      | ok r =>
          have hpatch : (Vm.patchPrev r.1 prev r.2).arrays = r.1.arrays := by
            cases prev with
            | none => rfl
            | some q => exact r.1.patchBlock_arrays q r.2
          simp only [bind, Except.bind, Except.map, commit, stored, hpatch]
    · have ht : s.translates? = some s.m.pc := if_pos ⟨hen, he, hf⟩
      exact ⟨hk.room _ ht, fun j hj k hk' => (hk.fetches _ ⟨_, ht, j, hj, k, hk', rfl⟩).1⟩
  · rw [if_neg he, if_neg he]
    exact congrArg Except.ok (commit_of_arrays rfl).symm

theorem Binary.Sound.loadInsn (hs : x.Sound c s) {p i : Nat} {b : Block} {insn : Insn}
    (hb : s.cache.heap[p]? = some b) (hi : b.insns[i]? = some insn) :
    x.loadInsn s.m.mem (b.slot c i) = .ok insn := by
  have hy : (b.insn, b.insns) ∈ s.cache.arrays :=
    List.mem_map_of_mem (f := fun b : Block => (b.insn, b.insns)) (List.mem_of_getElem? hb)
  exact loadInsn_records (hs.arrays _ hy) hi

theorem Binary.Sound.insn?_eq (hs : x.Sound c s) : x.insn? c s = s.insn? := by
  unfold insn? Vm.insn?
  cases hc : s.ctl with
  | start => rfl
  | returned => rfl
  | body p i =>
      cases hb : s.cache.heap[p]? with
      | none => simp only [hb, Option.bind_none]
      | some b =>
          simp only [hb, Option.bind_some]
          cases hi : b.insns[i]? with
          | none => rw [if_neg (Nat.not_lt.mpr (List.getElem?_eq_none_iff.mp hi))]
          | some insn =>
              rw [if_pos (List.getElem?_eq_some_iff.mp hi).1, hs.loadInsn hb hi]
              rfl

/-- A handler that stores nothing in the buffer does not store over its record. -/
theorem Insn.clobbers_eq_false {insn : Insn} {m : Machine} {slot : Word}
    (hslot : ∀ k < insnSize, ¬ insn.Stores m (slot + BitVec.ofNat 64 k)) :
    insn.clobbers m slot = false := by
  have hmem (a : Word) (ha : Span.Mem slot insnSize a) : ¬ insn.Stores m a := by
    obtain ⟨k, hk, rfl⟩ := Span.exists_offset ha
    exact hslot k hk
  have hself : ∀ {base : Word} {n : Nat}, 0 < n → Span.Mem base n base := fun {base} _ hn => by
    unfold Span.Mem
    rwa [BitVec.sub_self]
  unfold clobbers
  split
  · rfl
  · rename_i base n ht _
    refine decide_eq_false ?_
    rintro (h | h)
    · exact hmem base h ⟨base, n, ht, hself (target?_pos ht)⟩
    · exact hmem slot (hself (by decide)) ⟨base, n, ht, h⟩
  · rfl

/-- As long as nothing disturbs the emulator, a step is one of the machine that keeps its
arrays apart, with the records of what it translates stored in memory. -/
theorem Binary.step_eq (hs : x.Sound c s) (hk : x.KeepsOff c s) :
    x.step c s = s.step.map (x.commit c s.cache) := by
  have hstay : ∀ m ctl, x.commit c s.cache ⟨m, s.cache, ctl⟩ = ⟨m, s.cache, ctl⟩ :=
    fun _ _ => commit_of_arrays rfl
  have henter : ∀ prev, s.enters = true →
      x.enter c prev s.m s.cache = (Vm.enter prev s.m s.cache).map (x.commit c s.cache) :=
    fun prev hen => enter_eq hs hk hen prev
  unfold step Vm.step
  cases hc : s.ctl with
  | start => exact henter none (by simp only [Vm.enters, hc])
  | returned => exact congrArg Except.ok (commit_of_arrays rfl).symm
  | body p i =>
      cases hb : s.cache.heap[p]? with
      | none => simp only [hb, Except.map]
      | some b =>
          simp only [hb]
          cases hi : b.insns[i]? with
          | some insn =>
              have hlt := (List.getElem?_eq_some_iff.mp hi).1
              have hload := hs.loadInsn hb hi
              have hin : x.insn? c s = some insn := by
                rw [hs.insn?_eq]
                simp only [Vm.insn?, hc, hb, Option.bind_some, hi]
              have hcl : insn.clobbers s.m (b.slot c i) = false := by
                refine Insn.clobbers_eq_false fun k hk' hst => (hk.stores _ ⟨insn, hin, hst⟩).1 ?_
                exact hs.packed.inBuffer_of_array (List.mem_map_of_mem
                  (f := fun b : Block => (b.insn, b.insns)) (List.mem_of_getElem? hb))
                  (Block.slot_mem hlt hk')
              rw [if_pos hlt, hload]
              simp only [bind, Except.bind, hcl, Bool.false_eq_true, if_false]
              cases insn.exec s.m with
              | error e => rfl
              | ok m => exact congrArg Except.ok (hstay m _).symm
          | none =>
              rw [if_neg (Nat.not_lt.mpr (List.getElem?_eq_none_iff.mp hi))]
              cases hn : Vm.jmpNext b s.m.pc with
              | some next => exact congrArg Except.ok (hstay _ _).symm
              | none => exact henter (some p) (by simp only [Vm.enters, hc, hb, hi, hn]; rfl)

/-! ## The records stay as they are -/

theorem Vm.step_other {a : Word} (h : s.step = .ok s₁)
    (ha : ∀ insn, s.insn? = some insn → ¬ insn.Stores s.m a) : s₁.m.mem a = s.m.mem a := by
  cases step_move h with
  | returned _ h' => rw [h']
  | call _ h' => rw [enter_m h']
  | chain _ _ _ _ h' => rw [h']
  | reenter _ _ _ _ h' => rw [enter_m h']
  | exec hc hb hi hx h' =>
      subst h'
      exact Insn.run_other (Insn.exec_eq_ok hx).1
        (ha _ (by simp only [Vm.insn?, hc, hb, Option.bind_some, hi]))

theorem Binary.KeepsOff.step_buffer {a : Word} (hs : x.Sound c s) (hk : x.KeepsOff c s)
    (h : s.step = .ok s₁) (ha : InBuffer c a) : s₁.m.mem a = s.m.mem a :=
  Vm.step_other h fun insn hi hst => (hk.stores a ⟨insn, hs.insn?_eq.trans hi, hst⟩).1 ha

theorem Binary.Sound.congr {s' : Vm} (hs : x.Sound c s) (hi : s'.Inv) (ha : s'.cache.arrays = s.cache.arrays)
    (hp : s'.cache.insnBufferPtr = s.cache.insnBufferPtr)
    (hm : ∀ a, InBuffer c a → s'.m.mem a = s.m.mem a) : x.Sound c s' where
  inv := hi
  packed := hs.packed.congr ha hp
  arrays y hy := by
    rw [ha] at hy
    refine (hs.arrays y hy).congr fun a hmem => hm a ?_
    rw [x.length_records] at hmem
    exact hs.packed.inBuffer_of_array hy hmem
  free a hf := by
    have hf' : s.cache.Free c a := by
      unfold Cache.Free at hf ⊢
      rwa [hp] at hf
    rw [hm a (hs.packed.inBuffer_of_free hf')]
    exact hs.free a hf'

theorem Binary.Sound.insert (hs : x.Sound c s) {s' : Vm} {pc : Word} {t : Translation}
    (hi : s'.Inv) (ha : s'.cache.arrays = (s.cache.insert pc t).arrays)
    (hp : s'.cache.insnBufferPtr = (s.cache.insert pc t).insnBufferPtr)
    (hlen : t.insns.length ≤ transMax) (hfits : s.cache.Fits t.insns.length)
    (hm : ∀ a, InBuffer c a →
      s'.m.mem a = s.m.mem.fill (h2g c s.cache.insnBufferPtr) (x.records t.insns) a) :
    x.Sound c s' := by
  have hpacked := (Cache.insert_packed hs.packed pc hlen hfits).congr ha hp
  have hother : ∀ a, InBuffer c a →
      ¬ Span.Mem (h2g c s.cache.insnBufferPtr) (insnSize * t.insns.length) a →
        s'.m.mem a = s.m.mem a := fun a hin hout => by
    rw [hm a hin, Memory.fill_other (by rwa [x.length_records])]
  refine ⟨hi, hpacked, fun y hy => ?_, fun a hf => ?_⟩
  · have hy' := hy
    rw [ha, Cache.insert_arrays] at hy'
    rcases List.mem_append.mp hy' with hold | hnew
    · refine (hs.arrays y hold).congr fun a hmem => ?_
      rw [x.length_records] at hmem
      exact hother a (hs.packed.inBuffer_of_array hold hmem) fun hin =>
        hs.packed.not_free_of_array hold hmem (hfits.free hin)
    · obtain rfl := List.mem_singleton.mp hnew
      have hfresh : s.m.mem.Shows (h2g c s.cache.insnBufferPtr)
          (List.replicate (insnSize * t.insns.length) 0) := fun i b hb => by
        have hi := (List.getElem?_eq_some_iff.mp hb).1
        rw [List.length_replicate] at hi
        rw [List.getElem?_replicate, if_pos hi] at hb
        cases hb
        exact hs.free _ (hfits.free (Span.mem_offset _ hi))
      have hbound : insnSize * t.insns.length ≤ 2 ^ 64 := by
        unfold transMax insnSize at *
        omega
      refine (hfresh.fill (by rw [List.length_replicate, x.length_records])
        (by rwa [x.length_records])).congr fun a hmem => hm a ?_
      rw [x.length_records] at hmem
      exact hs.packed.inBuffer_of_free (hfits.free hmem)
  · have hroom := Cache.le_arrayRoom (insnSize * t.insns.length)
    have hptr := hs.packed.toNat_insert_ptr pc hlen
    rw [hpacked.free_iff, hp, hptr] at hf
    have hf' : s.cache.Free c a := hs.packed.free_iff.mpr ⟨by omega, hf.2⟩
    rw [hother a (hs.packed.inBuffer_of_free hf') ?_]
    · exact hs.free a hf'
    · rw [mem_h2g, Span.mem_iff (by unfold Cache.Fits at hfits; have := Cache.bufferEnd; omega)]
      omega

theorem Vm.Inv.setMem (h : s.Inv) (mem : Memory) : Vm.Inv { s with m := s.m.setMem mem } where
  cache := h.cache
  body p i hc := by
    obtain ⟨b, hb, ha⟩ := h.body p i hc
    exact ⟨b, hb, ha.le, ha.exception, ha.pc⟩

theorem Binary.Sound.start {m : Machine} (hb : FreshBuffer c m.mem) : x.Sound c (.start m) where
  inv := .start m
  packed := Cache.init_packed
  arrays := nofun
  free a hf := hb a (Cache.init_packed.inBuffer_of_free hf)

theorem Binary.Sound.commit (hs : x.Sound c s) (hk : x.KeepsOff c s) (h : s.step = .ok s₁) :
    x.Sound c (x.commit c s.cache s₁) := by
  have hi : (x.commit c s.cache s₁).Inv := (hs.inv.step h).setMem _
  have hbuf : ∀ a, InBuffer c a → s₁.m.mem a = s.m.mem a := fun a ha => hk.step_buffer hs h ha
  rcases Vm.step_arrays h with ⟨_, ha, hp⟩ | ⟨pc, t, hpc, ht, ha, hp⟩
  · rw [commit_of_arrays ha] at hi ⊢
    exact hs.congr hi ha hp hbuf
  · have hlen := translate_length ht
    refine hs.insert hi ha hp ?_ ?_ fun a hin => ?_
    · rw [hlen]
      exact lineLength_le _ _ _
    · rw [hlen]
      exact hk.room pc hpc
    · have hst := stored_insert (x := x) (c := c) ha s₁.m.mem
      show x.stored c s.cache s₁.cache s₁.m.mem a = _
      rw [hst]
      unfold Memory.fill
      rw [hbuf a hin]

theorem Binary.step_cases {s' : Vm} (hs : x.Sound c s) (hk : x.KeepsOff c s)
    (h : x.step c s = .ok s') : ∃ s₁, s.step = .ok s₁ ∧ s' = x.commit c s.cache s₁ := by
  rw [step_eq hs hk] at h
  obtain ⟨s₁, h₁, rfl⟩ := map_eq_ok h
  exact ⟨s₁, h₁, rfl⟩

theorem Binary.Sound.step {s' : Vm} (hs : x.Sound c s) (hk : x.KeepsOff c s)
    (h : x.step c s = .ok s') : x.Sound c s' := by
  obtain ⟨s₁, h₁, rfl⟩ := step_cases hs hk h
  exact hs.commit hk h₁

theorem Binary.Reach.sound {init : Machine → Prop} {good : Vm → Vm → Prop}
    (hg : ∀ s s', good s s' → x.KeepsOff c s) (h : x.Reach c init good s) : x.Sound c s := by
  induction h with
  | start m _ hb => exact .start hb
  | step _ hs hk ih => exact ih.step (hg _ _ hk) hs
  | call _ _ m _ hb _ ih => exact ih.congr (ih.inv.call m) rfl rfl fun a ha => hb a (.inl ha)

end

end Rvvk
