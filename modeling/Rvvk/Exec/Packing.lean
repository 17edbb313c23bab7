import Rvvk.Lib.Bump
import Rvvk.Lib.Span
import Rvvk.Exec.Invariant
import Rvvk.Exec.Record
import Rvvk.Mmap.InsnBuffer

/-!
# Instruction arrays, one behind the other

A new block gets the place `insn_buffer_ptr` points to, and `translate` moves the
pointer behind the array it has filled. Nothing compares the pointer with the end
of the buffer.
-/

namespace Rvvk

namespace Cache

/-- The instruction arrays of the blocks, oldest first, each with its address. -/
def arrays (c : Cache) : List (Word × List Insn) := c.heap.map fun b => (b.insn, b.insns)

end Cache

/-! ## The layout while the pointer is in the buffer -/

/-- The room `translate` leaves for an array of `n` bytes. -/
def arrayRoom (n : Nat) : Nat := (n + 63) / 64 * 64

namespace Cache

/-- The arrays lie one behind the other, and the pointer has not left the buffer. -/
structure Packed (c : Cache) : Prop where
  placed : Bump.Placed arrayRoom insnBufferMapStart.toNat
    (c.arrays.map fun x => (x.1.toNat, insnSize * x.2.length)) c.insnBufferPtr.toNat
  le : c.insnBufferPtr.toNat ≤ insnBufferMapStart.toNat + insnBufferSize

theorem le_arrayRoom (n : Nat) : n ≤ arrayRoom n := by
  unfold arrayRoom
  omega

theorem bufferEnd : insnBufferMapStart.toNat + insnBufferSize = 0x500040000000 := rfl

theorem Packed.bounds {c : Cache} (h : c.Packed) {x : Word × List Insn} (hx : x ∈ c.arrays) :
    insnBufferMapStart.toNat ≤ x.1.toNat ∧
      x.1.toNat + insnSize * x.2.length ≤ insnBufferMapStart.toNat + insnBufferSize := by
  have hb := h.placed.bounds (List.mem_map_of_mem hx)
  have hr := le_arrayRoom (insnSize * x.2.length)
  have hle := h.le
  dsimp only at hb
  omega

theorem init_packed : init.Packed := ⟨.nil, by decide⟩

theorem insert_arrays (c : Cache) (pc : Word) (t : Translation) :
    (c.insert pc t).arrays = c.arrays ++ [(c.insnBufferPtr, t.insns)] := by
  refine List.ext_getElem? fun p => ?_
  unfold arrays
  rw [List.getElem?_map, insert_getElem?]
  rcases Nat.lt_trichotomy p c.heap.length with hp | rfl | hp
  · rw [if_neg (by omega), List.getElem?_append_left (by simpa using hp), List.getElem?_map,
      Option.map_map]
    congr 1
    funext b
    simp only [Function.comp_apply]
    split <;> rfl
  · rw [if_pos rfl, List.getElem?_append_right (by simp)]
    simp
  · rw [if_neg (by omega), List.getElem?_eq_none (by omega),
      List.getElem?_eq_none (by simp; omega)]
    rfl

theorem patchBlock_arrays (c : Cache) (prev now : Ptr) :
    (c.patchBlock prev now).arrays = c.arrays := by
  have hpatch : ∀ pc b, ((Block.patch now pc b).insn, (Block.patch now pc b).insns) =
      (b.insn, b.insns) := by
    intro pc b
    unfold Block.patch
    split
    · rfl
    · split <;> rfl
  unfold patchBlock arrays
  split
  · refine List.ext_getElem? fun p => ?_
    rw [List.getElem?_map, List.getElem?_modify, List.getElem?_map]
    cases c.heap[p]? with
    | none => rfl
    | some b =>
        dsimp only [Option.map_eq_map, Option.map_some]
        split
        · exact congrArg some (hpatch _ b)
        · rfl
  · rfl

theorem patchBlock_insnBufferPtr (c : Cache) (prev now : Ptr) :
    (c.patchBlock prev now).insnBufferPtr = c.insnBufferPtr := by
  unfold patchBlock
  split <;> rfl

theorem insert_insnBufferPtr (c : Cache) (pc : Word) (t : Translation) :
    (c.insert pc t).insnBufferPtr =
      c.insnBufferPtr + roundUp (BitVec.ofNat 64 t.insns.length * 32) 64 := by
  unfold insert fill newBlock
  dsimp only
  split <;> rfl

theorem Packed.toNat_insert_ptr {c : Cache} (hc : c.Packed) (pc : Word) {t : Translation}
    (hlen : t.insns.length ≤ transMax) : (c.insert pc t).insnBufferPtr.toNat =
      c.insnBufferPtr.toNat + arrayRoom (insnSize * t.insns.length) := by
  have hmul : (BitVec.ofNat 64 t.insns.length * 32).toNat = insnSize * t.insns.length := by
    have h32 : (32 : BitVec 64).toNat = 32 := rfl
    rw [BitVec.toNat_mul, BitVec.toNat_ofNat, h32]
    unfold insnSize
    unfold transMax at hlen
    omega
  have hle := hc.le
  have hend := bufferEnd
  rw [insert_insnBufferPtr, BitVec.toNat_add, toNat_roundUp_line, hmul]
  unfold arrayRoom insnSize
  unfold transMax at hlen
  omega

/-- So much of the buffer is left. -/
def Fits (c : Cache) (n : Nat) : Prop :=
  c.insnBufferPtr.toNat + insnSize * n ≤ insnBufferMapStart.toNat + insnBufferSize

theorem insert_packed {c : Cache} (hc : c.Packed) (pc : Word) {t : Translation}
    (hlen : t.insns.length ≤ transMax) (hfits : c.Fits t.insns.length) :
    (c.insert pc t).Packed := by
  have hptr := hc.toNat_insert_ptr pc hlen
  refine ⟨?_, ?_⟩
  · rw [insert_arrays, hptr, List.map_append]
    exact hc.placed.snoc _
  · -- the pointer and the end of the buffer are multiples of 64
    have hal : 64 ∣ c.insnBufferPtr.toNat :=
      hc.placed.aligned (fun n => Nat.dvd_mul_left _ _) (by decide)
    have hend := bufferEnd
    unfold Fits at hfits
    rw [hptr]
    unfold arrayRoom
    omega

end Cache

/-! ## The straight line of guest code -/

/-- The number of instructions from `pc` up to the first that transfers control, or
`room` if that is farther. -/
def lineLength (mem : Memory) : Nat → Word → Nat
  | 0, _ => 0
  | room + 1, pc =>
      if (insnAt pc (fetch mem pc)).op.transfers then 1
      else lineLength mem room (nextPc mem pc) + 1

theorem decode_length {mem : Memory} {room : Nat} {ctx ctx' : Ctx} {insns : List Insn}
    (hx : ctx.exit = false) (h : decode mem room ctx = .ok (ctx', insns)) :
    insns.length = lineLength mem room ctx.pc := by
  induction room generalizing ctx insns with
  | zero =>
      cases h
      rfl
  | succ room ih =>
      obtain ⟨opcode, ho, hcases⟩ := decode_cases hx h
      rw [lineLength, fetch_eq ho]
      rcases hcases with ⟨ht, h⟩ | ⟨ht, h0, h⟩ | ⟨ht, _, rest, hd, h⟩
      · cases h
        rw [if_pos ht]
        rfl
      · cases h
        subst h0
        rw [if_neg (by simp [ht])]
        rfl
      · dsimp only at h hd
        subst h
        rw [if_neg (by simp [ht]), List.length_cons, ih (Ctx.next_exit hx) hd, Ctx.next_pc ho]

theorem translate_length {mem : Memory} {pc : Word} {t : Translation}
    (h : translate mem pc = .ok t) : t.insns.length = lineLength mem transMax pc := by
  obtain ⟨ctx, hd, _⟩ := translate_eq_ok.mp h
  exact decode_length rfl hd

theorem lineLength_le (mem : Memory) (room : Nat) (pc : Word) : lineLength mem room pc ≤ room := by
  induction room generalizing pc with
  | zero => exact Nat.le_refl _
  | succ room ih =>
      rw [lineLength]
      split
      · omega
      · exact Nat.succ_le_succ (ih _)

theorem lineLength_pos (mem : Memory) (room : Nat) (pc : Word) :
    0 < lineLength mem (room + 1) pc := by
  rw [lineLength]
  split <;> omega

/-! ## Runs -/

theorem Cache.Packed.congr {c c' : Cache} (h : c.Packed) (ha : c'.arrays = c.arrays)
    (hp : c'.insnBufferPtr = c.insnBufferPtr) : c'.Packed := by
  refine ⟨?_, ?_⟩
  · rw [ha, hp]
    exact h.placed
  · rw [hp]
    exact h.le

namespace Vm

/-- The next step is a turn of the loop of `cpu_exec`. -/
def enters (s : Vm) : Bool :=
  match s.ctl with
  | .start => true
  | .returned => false
  | .body p i =>
      match s.cache.heap[p]? with
      | none => false
      | some b => (b.insns[i]?).isNone && (jmpNext b s.m.pc).isNone

/-- Where the guest code begins that the next step translates. -/
def translates? (s : Vm) : Option Word :=
  if s.enters = true ∧ s.m.exception = .none ∧ s.cache.findBlock s.m.pc = none then some s.m.pc
  else none

/-- The buffer has room for the guest code that the next step translates. -/
def Room (s : Vm) : Prop :=
  ∀ pc, s.translates? = some pc → s.cache.Fits (lineLength s.m.mem transMax pc)

theorem enter_arrays {prev : Option Ptr} {m : Machine} {c : Cache} {s s' : Vm}
    (hs : s.m = m ∧ s.cache = c) (hen : s.enters = true) (h : enter prev m c = .ok s') :
    (s.translates? = none ∧ s'.cache.arrays = c.arrays ∧
        s'.cache.insnBufferPtr = c.insnBufferPtr) ∨
      ∃ pc t, s.translates? = some pc ∧ translate m.mem pc = .ok t ∧
        s'.cache.arrays = (c.insert pc t).arrays ∧
        s'.cache.insnBufferPtr = (c.insert pc t).insnBufferPtr := by
  have hpatch : ∀ c₁ p, (patchPrev c₁ prev p).arrays = c₁.arrays ∧
      (patchPrev c₁ prev p).insnBufferPtr = c₁.insnBufferPtr := by
    intro c₁ p
    cases prev with
    | none => exact ⟨rfl, rfl⟩
    | some q => exact ⟨c₁.patchBlock_arrays q p, c₁.patchBlock_insnBufferPtr q p⟩
  unfold translates?
  rw [hs.1, hs.2, hen]
  rcases enter_cases h with ⟨he, rfl⟩ | ⟨he, c₁, p, hl, rfl⟩
  · exact .inl ⟨if_neg (by simp [he]), rfl, rfl⟩
  · rcases lookup_cases hl with ⟨hf, rfl⟩ | ⟨hf, _, t, ht, rfl⟩
    · exact .inl ⟨if_neg (by simp [hf]), hpatch _ p⟩
    · exact .inr ⟨m.pc, t, if_pos ⟨rfl, he, hf⟩, ht, hpatch _ p⟩

/-- A step leaves the arrays alone or adds one for the code it translates. -/
theorem step_arrays {s s' : Vm} (h : s.step = .ok s') :
    (s.translates? = none ∧ s'.cache.arrays = s.cache.arrays ∧
        s'.cache.insnBufferPtr = s.cache.insnBufferPtr) ∨
      ∃ pc t, s.translates? = some pc ∧ translate s.m.mem pc = .ok t ∧
        s'.cache.arrays = (s.cache.insert pc t).arrays ∧
        s'.cache.insnBufferPtr = (s.cache.insert pc t).insnBufferPtr := by
  have hstay : s.enters = false → s.translates? = none := by
    intro hen
    unfold translates?
    rw [if_neg (by simp [hen])]
  cases step_move h with
  | returned hc h' =>
      subst h'
      exact .inl ⟨hstay (by simp [enters, hc]), rfl, rfl⟩
  | call hc h' => exact enter_arrays ⟨rfl, rfl⟩ (by simp [enters, hc]) h'
  | exec hc hb hi _ h' =>
      subst h'
      exact .inl ⟨hstay (by simp [enters, hc, hb, hi]), rfl, rfl⟩
  | chain hc hb hi hn h' =>
      subst h'
      exact .inl ⟨hstay (by simp [enters, hc, hb, hn]), rfl, rfl⟩
  | reenter hc hb hi hn h' =>
      exact enter_arrays ⟨rfl, rfl⟩ (by simp only [enters, hc, hb, hi, hn]; rfl) h'

theorem step_packed {s s' : Vm} (hp : s.cache.Packed) (hr : s.Room) (h : s.step = .ok s') :
    s'.cache.Packed := by
  rcases step_arrays h with ⟨_, ha, hptr⟩ | ⟨pc, t, hpc, ht, ha, hptr⟩
  · exact hp.congr ha hptr
  · have hlen := translate_length ht
    refine Cache.Packed.congr ?_ ha hptr
    refine Cache.insert_packed hp pc ?_ ?_
    · rw [hlen]
      exact lineLength_le _ _ _
    · rw [hlen]
      exact hr pc hpc

end Vm

end Rvvk
