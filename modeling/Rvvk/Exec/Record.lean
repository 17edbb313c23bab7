import Rvvk.Cpu.Footprint

/-!
# Translated instructions in memory

An `insn_t` is 32 bytes of ordinary memory: three register numbers, the immediate, the
address of the instruction and the address of its handler. `block_exec` goes by what it
finds there.
-/

namespace Rvvk

namespace Memory

/-- The bytes from an address on are replaced wherever there is memory. -/
def fill (m : Memory) (base : Word) (bs : List (BitVec 8)) : Memory := fun a =>
  (m a).map fun c => { c with val := (bs[(a - base).toNat]?).getD c.val }

/-- The bytes lie from the address on, on pages that can be read and written. -/
def Shows (m : Memory) (a : Word) (bs : List (BitVec 8)) : Prop :=
  ∀ i b, bs[i]? = some b → m (a + BitVec.ofNat 64 i) = some ⟨b, true, true⟩

variable {m m' : Memory} {a base : Word} {bs bs' : List (BitVec 8)}

theorem Shows.congr (h : m.Shows a bs) (he : ∀ x, Span.Mem a bs.length x → m' x = m x) :
    m'.Shows a bs := by
  intro i b hb
  rw [he _ (Span.mem_offset a (List.getElem?_eq_some_iff.mp hb).1)]
  exact h i b hb

theorem shows_append : m.Shows a (bs ++ bs') ↔
    m.Shows a bs ∧ m.Shows (a + BitVec.ofNat 64 bs.length) bs' := by
  have hadd : ∀ i, a + BitVec.ofNat 64 bs.length + BitVec.ofNat 64 i =
      a + BitVec.ofNat 64 (bs.length + i) := fun i => by
    rw [BitVec.ofNat_add, BitVec.add_assoc]
  constructor
  · intro h
    refine ⟨fun i b hb => h i b ?_, fun i b hb => ?_⟩
    · rw [List.getElem?_append_left (List.getElem?_eq_some_iff.mp hb).1, hb]
    · rw [hadd]
      refine h _ b ?_
      rw [List.getElem?_append_right (Nat.le_add_right _ _), Nat.add_sub_cancel_left, hb]
  · rintro ⟨h, h'⟩ i b hb
    by_cases hi : i < bs.length
    · rw [List.getElem?_append_left hi] at hb
      exact h i b hb
    · have hle := Nat.le_of_not_lt hi
      rw [List.getElem?_append_right hle] at hb
      have hat := h' _ b hb
      rwa [hadd, Nat.add_sub_cancel' hle] at hat

theorem Shows.writable (h : m.Shows a bs) {i : Nat} (hi : i < bs.length) :
    m.Writable (a + BitVec.ofNat 64 i) :=
  ⟨_, h i _ (List.getElem?_eq_getElem hi), rfl⟩

theorem Shows.byte? (h : m.Shows a bs) {i : Nat} {b : BitVec 8} (hb : bs[i]? = some b) :
    m.byte? (a + BitVec.ofNat 64 i) = some b := by
  unfold Memory.byte?
  rw [h i b hb]
  rfl

/-- Where it can be written, a store is nothing but a replacement. -/
theorem storeBytes_eq_fill (hw : ∀ i < bs.length, m.Writable (a + BitVec.ofNat 64 i))
    (hl : bs.length ≤ 2 ^ 64) : m.storeBytes a bs = .ok (m.fill a bs) := by
  obtain ⟨m', hm⟩ := storeBytes_eq_ok.mpr hw
  rw [hm]
  exact congrArg Except.ok (funext fun x => storeBytes_apply hm hl x)

theorem fill_other (ha : ¬ Span.Mem base bs.length a) : m.fill base bs a = m a := by
  have hnone : bs[(a - base).toNat]? = none := List.getElem?_eq_none (Nat.le_of_not_lt ha)
  unfold fill
  rw [hnone]
  exact Option.map_id'

theorem fill_nil (m : Memory) (base : Word) : m.fill base [] = m :=
  funext fun _ => Option.map_id'

theorem toNat_offset (a : Word) {i : Nat} (hi : i < 2 ^ 64) :
    (a + BitVec.ofNat 64 i - a).toNat = i := by
  rw [BitVec.add_comm, BitVec.add_sub_cancel, BitVec.toNat_ofNat, Nat.mod_eq_of_lt hi]

theorem Shows.fill {old : List (BitVec 8)} (h : m.Shows base old) (hlen : old.length = bs.length)
    (hl : bs.length ≤ 2 ^ 64) : (m.fill base bs).Shows base bs := by
  intro i b hb
  have hi := (List.getElem?_eq_some_iff.mp hb).1
  unfold Memory.fill
  rw [h i _ (List.getElem?_eq_getElem (hlen ▸ hi)), toNat_offset base (by omega), hb]
  rfl

theorem fill_append (m : Memory) (base : Word) {bs bs' : List (BitVec 8)}
    (hl : bs.length + bs'.length ≤ 2 ^ 64) :
    (m.fill base bs).fill (base + BitVec.ofNat 64 bs.length) bs' = m.fill base (bs ++ bs') := by
  funext a
  unfold fill
  rw [Option.map_map]
  congr 1
  funext c
  have hlt := (a - base).isLt
  have hsub : a - (base + BitVec.ofNat 64 bs.length) = a - base - BitVec.ofNat 64 bs.length := by
    grind
  have hoff := BitVec.toNat_sub (a - base) (BitVec.ofNat 64 bs.length)
  rw [← hsub, BitVec.toNat_ofNat] at hoff
  simp only [Function.comp_apply]
  by_cases hi : (a - base).toNat < bs.length
  · have hnone : bs'[(a - (base + BitVec.ofNat 64 bs.length)).toNat]? = none :=
      List.getElem?_eq_none (by omega)
    rw [hnone, List.getElem?_append_left hi]
    rfl
  · have hnone : bs[(a - base).toNat]? = none := List.getElem?_eq_none (by omega)
    have hidx : (a - (base + BitVec.ofNat 64 bs.length)).toNat = (a - base).toNat - bs.length := by
      omega
    rw [hnone, hidx, List.getElem?_append_right (Nat.le_of_not_lt hi)]
    rfl

theorem Shows.cpuLduw {v : BitVec 32} (h : m.Shows a (LittleEndian.bytes v 4)) :
    cpuLduw m a 0 = .ok v :=
  cpuLduw_eq_ok.mpr fun _ hi => h.byte? (LittleEndian.getElem?_bytes v hi)

theorem cpuLdud_eq_ok {v : Word} : cpuLdud m a 0 = .ok v ↔
    ∀ i < 8, m.byte? (a + BitVec.ofNat 64 i) = some (v.extractLsb' (8 * i) 8) := by
  have ha : a + 0 = a := BitVec.add_zero a
  unfold Rvvk.cpuLdud
  rw [ha]
  exact value_loadBytes_eq_ok (n := 8)

theorem Shows.cpuLdud {v : Word} (h : m.Shows a (LittleEndian.bytes v 8)) :
    cpuLdud m a 0 = .ok v :=
  cpuLdud_eq_ok.mpr fun _ hi => h.byte? (LittleEndian.getElem?_bytes v hi)

end Memory

/-! ## The layout of a record -/

/-- What the linker and the host's memory layout fix. -/
structure Binary where
  handler : Handler → Word
  /-- The handler at an address, if one begins there. -/
  handlerAt : Word → Option Handler
  handlerAt_handler : ∀ h, handlerAt (handler h) = some h
  /-- The host addresses of the emulator's own code, data, heap and stack. -/
  own : Word → Bool

/-- `sizeof (insn_t)`. -/
def insnSize : Nat := 32

/-- The bytes of an `insn_t` before its handler. -/
def Insn.operands (insn : Insn) : List (BitVec 8) :=
  LittleEndian.bytes (insn.rs1.setWidth 32 : BitVec 32) 4 ++
    LittleEndian.bytes (insn.rs2.setWidth 32 : BitVec 32) 4 ++
    LittleEndian.bytes (insn.rd.setWidth 32 : BitVec 32) 4 ++ LittleEndian.bytes insn.imm 4 ++
    LittleEndian.bytes insn.pc 8

/-- An `int` that indexes `gpr`. Any other reaches into what lies around the registers. -/
def loadReg (mem : Memory) (a : Word) : Except Fault Reg := do
  let r ← cpuLduw mem a 0
  if r.toNat < 32 then .ok (r.setWidth 5) else .error .wild

/-- The fields of the `insn_t` at an address, without the handler. -/
def loadOperands (mem : Memory) (a : Word) : Except Fault Insn := do
  let rs1 ← loadReg mem a
  let rs2 ← loadReg mem (a + 4)
  let rd ← loadReg mem (a + 8)
  let imm ← cpuLduw mem (a + 12) 0
  let pc ← cpuLdud mem (a + 16) 0
  .ok ⟨rs1, rs2, rd, imm, pc, .doEmpty⟩

namespace Binary

variable (x : Binary)

/-- The bytes of an `insn_t`. -/
def record (insn : Insn) : List (BitVec 8) :=
  insn.operands ++ LittleEndian.bytes (x.handler insn.handler) 8

/-- The bytes of an array of them. -/
def records (insns : List Insn) : List (BitVec 8) := insns.flatMap x.record

/-- The `insn_t` at an address. A call of anything but a handler is not followed. -/
def loadInsn (mem : Memory) (a : Word) : Except Fault Insn := do
  let insn ← loadOperands mem a
  let p ← cpuLdud mem (a + 24) 0
  match x.handlerAt p with
  | some h => .ok { insn with handler := h }
  | none => .error .wild

end Binary

/-! ## Reading a record back -/

theorem Insn.length_operands (insn : Insn) : insn.operands.length = 24 := by
  simp [Insn.operands]

section

variable {x : Binary} {mem : Memory} {a : Word} {insn : Insn}

theorem loadReg_of_shows {r : Reg}
    (h : mem.Shows a (LittleEndian.bytes (r.setWidth 32 : BitVec 32) 4)) :
    loadReg mem a = .ok r := by
  have hlt : (r.setWidth 32 : BitVec 32).toNat < 32 := by
    rw [BitVec.toNat_setWidth_of_le (by decide)]
    exact r.isLt
  have hr : (r.setWidth 32 : BitVec 32).setWidth 5 = r := by
    rw [BitVec.setWidth_setWidth_of_le _ (by decide), BitVec.setWidth_eq]
  unfold loadReg
  rw [h.cpuLduw]
  simp only [bind, Except.bind, if_pos hlt, hr]

theorem loadOperands_of_shows (h : mem.Shows a insn.operands) :
    loadOperands mem a = .ok { insn with handler := .doEmpty } := by
  unfold Insn.operands at h
  simp only [Memory.shows_append, List.length_append, LittleEndian.length_bytes] at h
  obtain ⟨⟨⟨⟨h1, h2⟩, h3⟩, h4⟩, h5⟩ := h
  have e2 : loadReg mem (a + 4) = .ok insn.rs2 := loadReg_of_shows h2
  have e3 : loadReg mem (a + 8) = .ok insn.rd := loadReg_of_shows h3
  have e4 : cpuLduw mem (a + 12) 0 = .ok insn.imm := h4.cpuLduw
  have e5 : cpuLdud mem (a + 16) 0 = .ok insn.pc := h5.cpuLdud
  unfold loadOperands
  rw [loadReg_of_shows h1, e2, e3, e4, e5]
  rfl

theorem Binary.length_record (x : Binary) (insn : Insn) : (x.record insn).length = insnSize := by
  simp [record, Insn.length_operands, insnSize]

theorem Binary.length_records (x : Binary) (insns : List Insn) :
    (x.records insns).length = insnSize * insns.length := by
  induction insns with
  | nil => rfl
  | cons insn insns ih =>
      rw [records, List.flatMap_cons, List.length_append, x.length_record, ← records, ih,
        List.length_cons, Nat.mul_succ, Nat.add_comm]

theorem Binary.loadInsn_of_shows (h : mem.Shows a (x.record insn)) :
    x.loadInsn mem a = .ok insn := by
  unfold record at h
  rw [Memory.shows_append, Insn.length_operands] at h
  have e : cpuLdud mem (a + 24) 0 = .ok (x.handler insn.handler) := h.2.cpuLdud
  unfold loadInsn
  rw [loadOperands_of_shows h.1, e]
  simp only [bind, Except.bind, x.handlerAt_handler]

theorem loadOperands_fresh (h : mem.Shows a (List.replicate insnSize 0)) :
    loadOperands mem a = .ok .fresh := by
  have hsplit : List.replicate insnSize (0 : BitVec 8) =
      Insn.fresh.operands ++ List.replicate 8 0 := by decide
  rw [hsplit, Memory.shows_append] at h
  exact loadOperands_of_shows h.1

theorem Binary.loadInsn_records {insns : List Insn} (h : mem.Shows a (x.records insns)) {i : Nat}
    (hi : insns[i]? = some insn) :
    x.loadInsn mem (a + BitVec.ofNat 64 (insnSize * i)) = .ok insn := by
  induction insns generalizing a i with
  | nil => cases hi
  | cons head rest ih =>
      rw [records, List.flatMap_cons, Memory.shows_append, x.length_record] at h
      cases i with
      | zero =>
          cases hi
          rw [Nat.mul_zero, BitVec.add_zero]
          exact loadInsn_of_shows h.1
      | succ i =>
          have hr := ih h.2 hi
          rwa [BitVec.add_assoc, ← BitVec.ofNat_add, Nat.add_comm insnSize, ← Nat.mul_succ] at hr

end

end Rvvk
