import Rvvk.Cpu.Footprint
import Rvvk.Exec.Syscall

/-!
# What a system call does

One inversion lemma for `do_syscall`, and from it what every call that returns keeps
of the guest.
-/

namespace Rvvk

variable {h : Host} {y : HostCalls} {c : Setup} {k k' : Kernel} {nr : BitVec 32}
  {arg1 arg2 arg3 arg4 arg5 arg6 ret : Word}

/-- The cases of `do_syscall` that return. -/
inductive Answers (h : Host) (y : HostCalls) (c : Setup) (k : Kernel) (nr : BitVec 32)
    (arg1 arg2 arg3 arg4 arg5 arg6 : Word) : Kernel → Word → Prop
  | faccessat (hn : nr = TargetNr.faccessat) :
      Answers h y c k nr arg1 arg2 arg3 arg4 arg5 arg6 k.called
        ((libc (hostFaccessat y c k.space arg1 arg2 arg3)).signExtend 64)
  | fstat {k' : Kernel} {ret : Word} (hn : nr = TargetNr.fstat)
      (hs : doFstat y k arg1 arg2 = .ok (k', ret)) :
      Answers h y c k nr arg1 arg2 arg3 arg4 arg5 arg6 k' ret
  | write (hn : nr = TargetNr.write) :
      Answers h y c k nr arg1 arg2 arg3 arg4 arg5 arg6 k.called
        (libc (y.write k.space (arg1.setWidth 32) (g2h c arg2) arg3))
  | close (hn : nr = TargetNr.close) :
      Answers h y c k nr arg1 arg2 arg3 arg4 arg5 arg6 k 0
  | brk (hn : nr = TargetNr.brk) :
      Answers h y c k nr arg1 arg2 arg3 arg4 arg5 arg6 { k with brk := (doBrk k.brk arg1).1 }
        (doBrk k.brk arg1).2
  | mmap (hn : nr = TargetNr.mmap) :
      Answers h y c k nr arg1 arg2 arg3 arg4 arg5 arg6
        { k with space := (targetMmap h c k.space (mmapArgs arg1 arg2 arg3 arg4 arg5 arg6)).1 }
        (targetMmap h c k.space (mmapArgs arg1 arg2 arg3 arg4 arg5 arg6)).2

/-- A call that returns is one of these, and each of these returns so. -/
theorem doSyscall_eq_ok : doSyscall h y c k nr arg1 arg2 arg3 arg4 arg5 arg6 = .ok (k', ret) ↔
    Answers h y c k nr arg1 arg2 arg3 arg4 arg5 arg6 k' ret := by
  constructor
  · intro hs
    unfold doSyscall at hs
    by_cases h₁ : nr = TargetNr.faccessat
    · rw [if_pos h₁] at hs
      cases hs
      exact .faccessat h₁
    rw [if_neg h₁] at hs
    by_cases h₂ : nr = TargetNr.fstat
    · rw [if_pos h₂] at hs
      exact .fstat h₂ hs
    rw [if_neg h₂] at hs
    by_cases h₃ : nr = TargetNr.write
    · rw [if_pos h₃] at hs
      cases hs
      exact .write h₃
    rw [if_neg h₃] at hs
    by_cases h₄ : nr = TargetNr.close
    · rw [if_pos h₄] at hs
      cases hs
      exact .close h₄
    rw [if_neg h₄] at hs
    by_cases h₅ : nr = TargetNr.exit
    · rw [if_pos h₅] at hs
      cases hs
    rw [if_neg h₅] at hs
    by_cases h₆ : nr = TargetNr.brk
    · rw [if_pos h₆] at hs
      cases hs
      exact .brk h₆
    rw [if_neg h₆] at hs
    by_cases h₇ : nr = TargetNr.mmap
    · rw [if_pos h₇] at hs
      cases hs
      exact .mmap h₇
    · rw [if_neg h₇] at hs
      cases hs
  · intro ha
    unfold doSyscall
    cases ha with
    | faccessat hn => rw [if_pos hn]
    | fstat hn hs => rw [hn, if_neg (by decide), if_pos rfl, hs]
    | write hn => rw [hn, if_neg (by decide), if_neg (by decide), if_pos rfl]
    | close hn => rw [hn, if_neg (by decide), if_neg (by decide), if_neg (by decide), if_pos rfl]
    | brk hn =>
        rw [hn, if_neg (by decide), if_neg (by decide), if_neg (by decide), if_neg (by decide),
          if_neg (by decide), if_pos rfl]
    | mmap hn =>
        rw [hn, if_neg (by decide), if_neg (by decide), if_neg (by decide), if_neg (by decide),
          if_neg (by decide), if_neg (by decide), if_pos rfl]

theorem doFstat_error {e : Stop} (hs : doFstat y k arg1 arg2 = .error e) :
    e = .fault .sigsegv := by
  unfold doFstat at hs
  dsimp only at hs
  split at hs
  · cases hs
  · rename_i f hf
    cases hs
    exact congrArg Stop.fault (Memory.storeBytes_error hf)

def TargetNr.known : List (BitVec 32) := [faccessat, fstat, write, close, exit, brk, mmap]

/-- The cases of `do_syscall` that do not return. -/
inductive Ends (y : HostCalls) (k : Kernel) (nr : BitVec 32) (arg1 arg2 : Word) : Stop → Prop
  | fstat (hn : nr = TargetNr.fstat) (hs : doFstat y k arg1 arg2 = .error (.fault .sigsegv)) :
      Ends y k nr arg1 arg2 (.fault .sigsegv)
  | exit (hn : nr = TargetNr.exit) : Ends y k nr arg1 arg2 (.exit (arg1.setWidth 32))
  | unknown (hn : nr ∉ TargetNr.known) : Ends y k nr arg1 arg2 (.exit 1)

/-- A call that does not return ends the emulator in one of these ways. -/
theorem doSyscall_eq_error {e : Stop} :
    doSyscall h y c k nr arg1 arg2 arg3 arg4 arg5 arg6 = .error e ↔ Ends y k nr arg1 arg2 e := by
  constructor
  · intro hs
    unfold doSyscall at hs
    by_cases h₁ : nr = TargetNr.faccessat
    · rw [if_pos h₁] at hs
      cases hs
    rw [if_neg h₁] at hs
    by_cases h₂ : nr = TargetNr.fstat
    · rw [if_pos h₂] at hs
      obtain rfl := doFstat_error hs
      exact .fstat h₂ hs
    rw [if_neg h₂] at hs
    by_cases h₃ : nr = TargetNr.write
    · rw [if_pos h₃] at hs
      cases hs
    rw [if_neg h₃] at hs
    by_cases h₄ : nr = TargetNr.close
    · rw [if_pos h₄] at hs
      cases hs
    rw [if_neg h₄] at hs
    by_cases h₅ : nr = TargetNr.exit
    · rw [if_pos h₅] at hs
      cases hs
      exact .exit h₅
    rw [if_neg h₅] at hs
    by_cases h₆ : nr = TargetNr.brk
    · rw [if_pos h₆] at hs
      cases hs
    rw [if_neg h₆] at hs
    by_cases h₇ : nr = TargetNr.mmap
    · rw [if_pos h₇] at hs
      cases hs
    · rw [if_neg h₇] at hs
      cases hs
      refine .unknown ?_
      simp only [TargetNr.known, List.mem_cons, List.not_mem_nil, or_false]
      simp only [h₁, h₂, h₃, h₄, h₅, h₆, h₇, or_false, not_false_eq_true]
  · intro he
    unfold doSyscall
    cases he with
    | fstat hn hs => rw [hn, if_neg (by decide), if_pos rfl, hs]
    | exit hn =>
        rw [hn, if_neg (by decide), if_neg (by decide), if_neg (by decide), if_neg (by decide),
          if_pos rfl]
    | unknown hn =>
        simp only [TargetNr.known, List.mem_cons, List.not_mem_nil, or_false, not_or] at hn
        obtain ⟨h₁, h₂, h₃, h₄, h₅, h₆, h₇⟩ := hn
        rw [if_neg h₁, if_neg h₂, if_neg h₃, if_neg h₄, if_neg h₅, if_neg h₆, if_neg h₇]

/-! ## What a call keeps -/

def MmapArgs.placed (s : Space) (r : MmapArgs) : Word :=
  if r.flags &&& mapFixed = 0 then s.place r.addr else r.addr

theorem targetMmapAt_other {s : Space} {r : MmapArgs} {a : Word}
    (ha : ¬ Span.Mem r.addr (pageUp r.length.toNat) a) :
    (targetMmapAt h c s r).1.mem a = s.mem a := by
  by_cases hg : h.Grants c s.calls { r with addr := g2h c r.addr }
  · obtain ⟨_, b, _, hm⟩ := targetMmapAt_granted hg
    rw [hm]
    exact if_neg ha
  · rw [(targetMmapAt_refused hg).2]

/-- `mmap` changes nothing outside of the pages it places, whatever comes of it. -/
theorem targetMmap_other {s : Space} {r : MmapArgs} {a : Word}
    (ha : ¬ Span.Mem (r.placed s) (pageUp r.length.toNat) a) :
    (targetMmap h c s r).1.mem a = s.mem a := by
  unfold MmapArgs.placed at ha
  by_cases hf : r.flags &&& mapFixed = 0
  · rw [if_pos hf] at ha
    rcases mmapFindVma_cases h c s r.addr r.length with ⟨hfail, _, hm⟩ | ⟨hplace, hres⟩
    · rw [targetMmap_refused hf hfail]
      exact congrFun hm a
    · have hm : (mmapFindVma h c s r.addr r.length).1.mem a = s.mem a := by
        rw [hres.mem]
        exact if_neg ha
      by_cases hp : s.place r.addr = failed
      · rw [targetMmap_refused hf (hplace.trans hp)]
        exact hm
      · have hat := targetMmapAt_other (h := h) (c := c) (s := (mmapFindVma h c s r.addr r.length).1)
          (r := r.settle c (s.place r.addr)) ha
        rw [targetMmap_settled hf hplace hp]
        exact hat.trans hm
  · rw [if_neg hf] at ha
    rw [targetMmap_fixed hf]
    exact targetMmapAt_other ha

/-- `fstat` writes its buffer only, and only where the pages are writable. -/
theorem doFstat_ok (hs : doFstat y k arg1 arg2 = .ok (k', ret)) :
    ∃ mem, k' = { k.called with space := { k.called.space with mem := mem } } ∧
      (∀ a, ¬ Span.Mem arg2 128 a → mem a = k.space.mem a) ∧
      ∀ a, ¬ k.space.mem.Writable a → mem a = k.space.mem a := by
  have hlen (st : Stat) : st.target.length ≤ 2 ^ 64 := st.target_length ▸ by decide
  unfold doFstat at hs
  dsimp only at hs
  split at hs
  · rename_i mem hm
    cases hs
    refine ⟨mem, rfl, fun a ha => ?_, fun a ha => Memory.storeBytes_readOnly hm (hlen _) ha⟩
    refine Memory.storeBytes_other hm (hlen _) ?_
    rwa [Stat.target_length]
  · cases hs

namespace Kernel

/-- The addresses a call may write: the buffer of `fstat`, and the pages of `mmap`. -/
def Touches (k : Kernel) (nr : BitVec 32) (arg1 arg2 arg3 arg4 arg5 arg6 a : Word) : Prop :=
  (nr = TargetNr.fstat ∧ Span.Mem arg2 128 a) ∨
    (nr = TargetNr.mmap ∧
      Span.Mem ((mmapArgs arg1 arg2 arg3 arg4 arg5 arg6).placed k.space) (pageUp arg2.toNat) a)

end Kernel

namespace Answers

variable (ha : Answers h y c k nr arg1 arg2 arg3 arg4 arg5 arg6 k' ret)

include ha

theorem frame {a : Word} (hn : ¬ k.Touches nr arg1 arg2 arg3 arg4 arg5 arg6 a) :
    k'.space.mem a = k.space.mem a := by
  cases ha with
  | faccessat _ | write _ | close _ | brk _ => rfl
  | fstat hf hs =>
      obtain ⟨mem, rfl, hm, _⟩ := doFstat_ok hs
      exact hm a fun ha => hn (.inl ⟨hf, ha⟩)
  | mmap hf => exact targetMmap_other fun ha => hn (.inr ⟨hf, ha⟩)

/-- `mmap` alone changes what is not writable. -/
theorem readOnly {a : Word} (hw : ¬ k.space.mem.Writable a)
    (hn : nr = TargetNr.mmap →
      ¬ Span.Mem ((mmapArgs arg1 arg2 arg3 arg4 arg5 arg6).placed k.space) (pageUp arg2.toNat) a) :
    k'.space.mem a = k.space.mem a := by
  cases ha with
  | faccessat _ | write _ | close _ | brk _ => rfl
  | fstat _ hs =>
      obtain ⟨mem, rfl, _, hm⟩ := doFstat_ok hs
      exact hm a hw
  | mmap hf => exact targetMmap_other (hn hf)

/-- `mmap` alone moves the allocator. -/
theorem next (hn : nr ≠ TargetNr.mmap) : k'.space.mmapNextStart = k.space.mmapNextStart := by
  cases ha with
  | faccessat _ | write _ | close _ | brk _ => rfl
  | fstat _ hs =>
      obtain ⟨mem, rfl, _⟩ := doFstat_ok hs
      rfl
  | mmap hf => exact (hn hf).elim

theorem anchored (hk : k.space.Anchored c) : k'.space.Anchored c := by
  cases ha with
  | faccessat _ | write _ | close _ | brk _ => exact hk.congr rfl
  | fstat _ hs =>
      obtain ⟨mem, rfl, _⟩ := doFstat_ok hs
      exact hk.congr rfl
  | mmap _ => exact targetMmap_anchored hk _

theorem initial : k'.brk.initial = k.brk.initial := by
  cases ha with
  | faccessat _ | write _ | close _ | brk _ | mmap _ => rfl
  | fstat _ hs =>
      obtain ⟨mem, rfl, _⟩ := doFstat_ok hs
      rfl

theorem brk_le (hk : k.brk.initial ≤ k.brk.target) : k'.brk.initial ≤ k'.brk.target := by
  cases ha with
  | faccessat _ | write _ | close _ | mmap _ => exact hk
  | fstat _ hs =>
      obtain ⟨mem, rfl, _⟩ := doFstat_ok hs
      exact hk
  | brk _ =>
      show k.brk.initial ≤ if arg1 < k.brk.initial then k.brk.initial else arg1
      split
      · exact BitVec.le_refl _
      · exact BitVec.not_lt.mp ‹_›

end Answers

/-! ## The call of a guest -/

namespace Guest

variable {g g' : Guest}

/-- The address is one that the call in the registers of the guest may write. -/
def Touches (g : Guest) (a : Word) : Prop :=
  g.kernel.Touches g.nr (g.arg 0) (g.arg 1) (g.arg 2) (g.arg 3) (g.arg 4) (g.arg 5) a

/-- What the kernel makes of the call in the registers of the guest. -/
abbrev Answered (h : Host) (y : HostCalls) (c : Setup) (g : Guest) (k : Kernel) (ret : Word) :
    Prop :=
  Answers h y c g.kernel g.nr (g.arg 0) (g.arg 1) (g.arg 2) (g.arg 3) (g.arg 4) (g.arg 5) k ret

/-- A call that returns resumes the guest with the answer of the kernel. -/
theorem ecall_answered (hg : g.ecall h y c = .ok g') :
    ∃ ret, g.Answered h y c g'.kernel ret ∧ g.Resumed g' ret := by
  obtain ⟨⟨k, ret⟩, hs, _⟩ := bind_eq_ok hg
  obtain ⟨g'', hg'', hres, rfl⟩ := resumed_ecall hs
  rw [hg] at hg''
  cases hg''
  exact ⟨ret, doSyscall_eq_ok.mp hs, hres⟩

theorem ecall_eq_error {e : Stop} :
    g.ecall h y c = .error e ↔ Ends y g.kernel g.nr (g.arg 0) (g.arg 1) e := by
  have hends : doSyscall h y c g.kernel g.nr (g.arg 0) (g.arg 1) (g.arg 2) (g.arg 3) (g.arg 4)
      (g.arg 5) = .error e ↔ Ends y g.kernel g.nr (g.arg 0) (g.arg 1) e := doSyscall_eq_error
  rw [← hends]
  unfold ecall
  cases doSyscall h y c g.kernel g.nr (g.arg 0) (g.arg 1) (g.arg 2) (g.arg 3) (g.arg 4)
      (g.arg 5) with
  | ok r => exact ⟨nofun, nofun⟩
  | error e' => exact ⟨fun h => by cases h; rfl, fun h => by cases h; rfl⟩

end Guest

end Rvvk
