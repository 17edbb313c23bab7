import Rvvk.Elf.Stack
import Rvvk.Cpu.State

/-!
# The stack pointer at entry

`target_cpu_copy_regs` gives the guest the stack pointer that `create_elf_tables`
leaves. It is rounded in the middle, to eight bytes, and the entries of the table
come below.
-/

namespace Rvvk

structure Task where
  stackBase : Word
  heapBase : Word
  heapLimit : Word
deriving DecidableEq, Repr

def targetCpuCopyRegs (env : State) (info : ImageInfo) (regs : PtRegs) : State × Task :=
  ({ env.setGpr Reg.sp regs.sp with pc := regs.sepc }, ⟨info.startStack, info.brk, 0⟩)

namespace Binprm

/-- The bytes of all strings, terminators included. -/
def stringBytes (bprm : Binprm) : Nat := (bprm.strings.map List.length).sum

/-- The eightbytes between the stack's end and the rounded pointer, the strings and the
entries of both tables together are even in number. -/
def EvenStack (bprm : Binprm) (stackSize : Word) : Prop :=
  ((stackSize - 8 - BitVec.ofNat 64 bprm.stringBytes).toNat / 8 + (bprm.argv.tail.length + 1) +
    bprm.envc) % 2 = 0

instance (bprm : Binprm) (stackSize : Word) : Decidable (bprm.EvenStack stackSize) :=
  inferInstanceAs (Decidable (_ = _))

end Binprm

theorem startStack_eq (bprm : Binprm) (p : Word) :
    bprm.startStack p = roundDown (p - BitVec.ofNat 64 bprm.stringBytes) 8 - 24 -
      BitVec.ofNat 64 (8 * (bprm.argv.tail.length + bprm.envc + 4)) := by
  unfold Binprm.startStack Binprm.tableTop Binprm.stringBytes Binprm.slots
  rw [endBelow_words, length_ptrs, endBelow, Descend.bottom]
  grind

/-- From a page the pointer is aligned when the eightbytes come out even. -/
theorem startStack_aligned_iff {limit : Word} (hl : limit.toNat % 4096 = 0) (bprm : Binprm)
    (stackSize : Word) :
    (bprm.startStack (limit + stackSize - 8)).toNat % 16 = 0 ↔ bprm.EvenStack stackSize := by
  have he : limit + stackSize - 8 - BitVec.ofNat 64 bprm.stringBytes =
      limit + (stackSize - 8 - BitVec.ofNat 64 bprm.stringBytes) := by
    grind
  have h24 : (24 : Word).toNat = 24 := rfl
  unfold Binprm.EvenStack
  rw [startStack_eq, he]
  generalize stackSize - 8 - BitVec.ofNat 64 bprm.stringBytes = x
  rw [BitVec.toNat_sub, BitVec.toNat_sub, toNat_roundDown_word, BitVec.toNat_add, h24,
    BitVec.toNat_ofNat]
  omega

theorem prepareBinprm_ok {h : Host} {s s' : Space} {prog : Program} {bprm : Binprm}
    (hp : prepareBinprm h s prog = .ok (s', bprm)) :
    s' = { s with calls := s.calls + 1 } ∧ bprm = prog.binprm h := by
  unfold prepareBinprm at hp
  split at hp
  · cases hp
    exact ⟨rfl, rfl⟩
  · cases hp

theorem elfLoad_ok {h : Host} {c : Setup} {s s' : Space} {prog : Program} {info : ImageInfo}
    {regs : PtRegs} (hl : elfLoad h c s prog = .ok (s', info, regs)) :
    loadElfBinary h c { s with calls := s.calls + 1 } (prog.binprm h) = .ok (s', info) ∧
      regs = ⟨info.entry, info.startStack⟩ := by
  obtain ⟨⟨s₁, bprm⟩, h₁, hl⟩ := bind_eq_ok hl
  obtain ⟨⟨s₂, info₂⟩, h₂, hl⟩ := bind_eq_ok hl
  cases hl
  obtain ⟨rfl, rfl⟩ := prepareBinprm_ok h₁
  exact ⟨h₂, rfl⟩

/-- After a load the stack pointer of the guest is `start_stack`, and it is a multiple
of 16 if and only if the eightbytes of the stack come out even. -/
theorem start_stack_aligned_iff {h : Host} {c : Setup} {s' : Space} {prog : Program}
    {info : ImageInfo} {regs : PtRegs} (hl : elfLoad h c .start prog = .ok (s', info, regs))
    (env : State) :
    (targetCpuCopyRegs env info regs).1.gpr Reg.sp = info.startStack ∧
      (info.startStack.toNat % 16 = 0 ↔ (prog.binprm h).EvenStack c.guestStackSize) := by
  obtain ⟨hb, rfl⟩ := elfLoad_ok hl
  rw [loadElfBinary_stack] at hb
  obtain ⟨⟨s₄, info₂, limit⟩, hs, hb⟩ := bind_eq_ok hb
  obtain ⟨⟨s₅, p⟩, ht, hb⟩ := map_eq_ok hb
  obtain ⟨s₃, hm⟩ := loadStack_ok hs ((Space.start_anchored c).congr rfl)
  have hp : info.startStack = (prog.binprm h).startStack (limit + c.guestStackSize - 8) := by
    have hc := makeTables_ok ht
    rw [createElfTables_eq] at hc
    obtain ⟨mem, _, hc⟩ := map_eq_ok hc
    cases hb
    exact (congrArg Prod.snd hc).symm
  refine ⟨by simp [targetCpuCopyRegs, State.setGpr], ?_⟩
  rw [hp]
  exact startStack_aligned_iff hm.limit_aligned _ _

/-- The program `/a`, without arguments in an empty environment. -/
def commandRootA : Program := { commandA with filename := ⟨[0x2f, 0x61], by decide⟩ }

theorem textAndBss_rootA : ∃ s' info regs,
    elfLoad (fileHost (execFile textAndBss)) .default .start commandRootA = .ok (s', info, regs) ∧
    ((targetCpuCopyRegs .zero info regs).1.gpr Reg.sp = info.startStack ∧
      (info.startStack.toNat % 16 = 0 ↔
        (commandRootA.binprm (fileHost (execFile textAndBss))).EvenStack 0x800000)) := by
  obtain ⟨⟨s', info, regs⟩, hl, _⟩ := exists_of_any
    (show (elfLoad (fileHost (execFile textAndBss)) .default .start commandRootA).toOption.any
      (fun _ => true) = true by decide +kernel)
  exact ⟨s', info, regs, hl, start_stack_aligned_iff hl .zero⟩

theorem rootA_stack_not_aligned : ∃ s' info regs,
    elfLoad (fileHost (execFile textAndBss)) .default .start commandRootA = .ok (s', info, regs) ∧
    info.startStack.toNat % 16 ≠ 0 := by
  obtain ⟨⟨s', info, regs⟩, hl, hp⟩ := exists_of_any
    (show (elfLoad (fileHost (execFile textAndBss)) .default .start commandRootA).toOption.any
      (fun r => r.2.1.startStack.toNat % 16 != 0) = true by decide +kernel)
  exact ⟨s', info, regs, hl, bne_iff_ne.mp hp⟩

end Rvvk
