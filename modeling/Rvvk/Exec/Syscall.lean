import Rvvk.Exec.Vm
import Rvvk.Mmap.Brk
import Rvvk.Mmap.Failure

/-!
# System calls

`do_syscall` and the `ecall` branch of `cpu_loop`. Every host call returns a
result or an error number; the C library turns an error into -1 and puts the
number into `errno`, which nothing here reads.
-/

namespace Rvvk

abbrev Errno := BitVec 32

/-- The fields of the host's `struct stat` that `do_syscall` reads. -/
structure Stat where
  dev : BitVec 64
  ino : BitVec 64
  mode : BitVec 32
  nlink : BitVec 64
  uid : BitVec 32
  gid : BitVec 32
  rdev : BitVec 64
  size : BitVec 64
  blksize : BitVec 64
  blocks : BitVec 64
  atime : BitVec 64
  atimeNsec : BitVec 64
  mtime : BitVec 64
  mtimeNsec : BitVec 64
  ctime : BitVec 64
  ctimeNsec : BitVec 64

/-- The host's calls under `do_syscall` beside the mappings. What one returns may
depend on everything the guest has done so far. -/
structure HostCalls where
  access : Space → Word → BitVec 32 → Except Errno (BitVec 32)
  faccessat : Space → BitVec 32 → Word → BitVec 32 → BitVec 32 → Except Errno (BitVec 32)
  fstat : Space → BitVec 32 → Except Errno Stat
  write : Space → BitVec 32 → Word → Word → Except Errno Word
  /-- The error number of a mapping that is refused, by the number of the call. -/
  mmapErrno : Nat → Errno
  /-- What `struct stat st` holds before the host fills it in. -/
  stale : Space → Stat

/-- How a call into the C library reports an error. -/
def libc {w : Nat} (r : Except Errno (BitVec w)) : BitVec w :=
  match r with
  | .ok v => v
  | .error _ => -1

inductive Stop
  | fault (f : Fault)
  | exit (status : BitVec 32)
deriving DecidableEq, Repr

namespace TargetNr

def faccessat : BitVec 32 := 48

def close : BitVec 32 := 57

def write : BitVec 32 := 64

def fstat : BitVec 32 := 80

def exit : BitVec 32 := 93

def brk : BitVec 32 := 214

def mmap : BitVec 32 := 222

end TargetNr

/-- The bytes of `struct target_stat`. -/
def Stat.target (st : Stat) : List (BitVec 8) :=
  LittleEndian.bytes st.dev 8 ++ LittleEndian.bytes st.ino 8 ++ LittleEndian.bytes st.mode 4 ++
    LittleEndian.bytes st.nlink 4 ++ LittleEndian.bytes st.uid 4 ++ LittleEndian.bytes st.gid 4 ++
    LittleEndian.bytes st.rdev 8 ++ List.replicate 8 0 ++ LittleEndian.bytes st.size 8 ++
    LittleEndian.bytes st.blksize 4 ++ List.replicate 4 0 ++ LittleEndian.bytes st.blocks 8 ++
    LittleEndian.bytes st.atime 8 ++ LittleEndian.bytes st.atimeNsec 8 ++
    LittleEndian.bytes st.mtime 8 ++ LittleEndian.bytes st.mtimeNsec 8 ++
    LittleEndian.bytes st.ctime 8 ++ LittleEndian.bytes st.ctimeNsec 8 ++ List.replicate 8 0

/-- What the guest has beside its registers. -/
structure Kernel where
  space : Space
  brk : Brk

def Kernel.called (k : Kernel) : Kernel :=
  { k with space := { k.space with calls := k.space.calls + 1 } }

variable (h : Host) (y : HostCalls) (c : Setup)

/-- The host call of `faccessat`: a strict build has `access` only, and forgets the
directory. -/
def hostFaccessat (s : Space) (arg1 arg2 arg3 : Word) : Except Errno (BitVec 32) :=
  if c.strictAnsi then y.access s (g2h c arg2) (arg3.setWidth 32)
  else y.faccessat s (arg1.setWidth 32) (g2h c arg2) (arg3.setWidth 32) 0

/-- `case TARGET_NR_fstat`: the copy to the guest comes before a look at the result. -/
def doFstat (k : Kernel) (arg1 arg2 : Word) : Except Stop (Kernel × Word) :=
  let (st, ret) : Stat × BitVec 32 :=
    match y.fstat k.space (arg1.setWidth 32) with
    | .ok st => (st, 0)
    | .error _ => (y.stale k.space, -1)
  match targetMemoryCopy k.space.mem arg2 st.target with
  | .ok mem =>
      .ok ({ k.called with space := { k.called.space with mem := mem } }, ret.signExtend 64)
  | .error f => .error (.fault f)

/-- The arguments `do_syscall` hands to `target_mmap`. -/
def mmapArgs (arg1 arg2 arg3 arg4 arg5 arg6 : Word) : MmapArgs :=
  ⟨arg1, arg2, arg3.setWidth 32, arg4.setWidth 32, arg5.setWidth 32, arg6⟩

def doSyscall (k : Kernel) (nr : BitVec 32) (arg1 arg2 arg3 arg4 arg5 arg6 : Word) :
    Except Stop (Kernel × Word) :=
  if nr = TargetNr.faccessat then
    .ok (k.called, (libc (hostFaccessat y c k.space arg1 arg2 arg3)).signExtend 64)
  else if nr = TargetNr.fstat then doFstat y k arg1 arg2
  else if nr = TargetNr.write then
    .ok (k.called, libc (y.write k.space (arg1.setWidth 32) (g2h c arg2) arg3))
  else if nr = TargetNr.close then .ok (k, 0)
  else if nr = TargetNr.exit then .error (.exit (arg1.setWidth 32))
  else if nr = TargetNr.brk then
    let (brk, ret) := doBrk k.brk arg1
    .ok ({ k with brk := brk }, ret)
  else if nr = TargetNr.mmap then
    let (space, ret) := targetMmap h c k.space (mmapArgs arg1 arg2 arg3 arg4 arg5 arg6)
    .ok ({ k with space := space }, ret)
  else .error (.exit 1)

/-- The guest between two runs of `cpu_exec`. -/
structure Guest where
  env : State
  kernel : Kernel

namespace Guest

def machine (g : Guest) : Machine := ⟨g.env, g.kernel.space.mem⟩

def space (g : Guest) : Space := g.kernel.space

/-- The number of the system call, in an `int`. -/
def nr (g : Guest) : BitVec 32 := (g.env.gpr Reg.a7).setWidth 32

/-- The argument registers, from 0 on. -/
def arg (g : Guest) (i : Reg) : Word := g.env.gpr (Reg.a0 + i)

def mmapArgs (g : Guest) : MmapArgs :=
  Rvvk.mmapArgs (g.arg 0) (g.arg 1) (g.arg 2) (g.arg 3) (g.arg 4) (g.arg 5)

/-- `case RISCV_EXCP_U_ECALL` of `cpu_loop`. -/
def ecall (g : Guest) : Except Stop Guest := do
  let (k, ret) ← doSyscall h y c g.kernel g.nr (g.arg 0) (g.arg 1) (g.arg 2) (g.arg 3) (g.arg 4)
    (g.arg 5)
  .ok ⟨(g.machine.resume ret k.space.mem).env, k⟩

end Guest

theorem Stat.target_length (st : Stat) : st.target.length = 128 := by
  unfold Stat.target
  simp only [List.length_append, LittleEndian.length_bytes, List.length_replicate]

/-! ## Calls that fail -/

variable {h y c}

/-- The host call of `target_mmap` that is refused, and its error number. -/
inductive MmapFails (h : Host) (y : HostCalls) (c : Setup) (s : Space) (r : MmapArgs) : Errno → Prop
  | fixed (hf : r.flags &&& mapFixed ≠ 0) (hg : ¬ h.Grants c s.calls (r.onHost c)) :
      MmapFails h y c s r (y.mmapErrno s.calls)
  | reservation (hf : r.flags &&& mapFixed = 0)
      (hg : ¬ h.Grants c s.calls (reservation c (s.place r.addr) r.length)) :
      MmapFails h y c s r (y.mmapErrno s.calls)
  | mapping (hf : r.flags &&& mapFixed = 0)
      (hr : h.Grants c s.calls (reservation c (s.place r.addr) r.length))
      (hp : s.place r.addr ≠ failed)
      (hg : ¬ h.Grants c (s.calls + 1) ((r.settle c (s.place r.addr)).onHost c)) :
      MmapFails h y c s r (y.mmapErrno (s.calls + 1))

/-- The pages that `mmap` has reserved when the mapping itself is refused. -/
def Replaced (h : Host) (c : Setup) (s : Space) (r : MmapArgs) (a : Word) : Prop :=
  r.flags &&& mapFixed = 0 ∧ h.Grants c s.calls (reservation c (s.place r.addr) r.length) ∧
    Span.Mem (s.place r.addr) (pageUp r.length.toNat) a

theorem targetMmap_fails {s : Space} {r : MmapArgs} {e : Errno} (hf : MmapFails h y c s r e) :
    (targetMmap h c s r).2 = failed ∧
      ∀ a, ¬ Replaced h c s r a → (targetMmap h c s r).1.mem a = s.mem a := by
  cases hf with
  | fixed hf hg =>
      obtain ⟨hfail, hm⟩ := targetMmapAt_refused hg
      rw [targetMmap_fixed hf, hm]
      exact ⟨hfail, fun _ _ => rfl⟩
  | reservation hf hg =>
      obtain ⟨hfail, _, hm⟩ := mmapFindVma_refused hg
      rw [targetMmap_refused hf hfail]
      exact ⟨rfl, fun a _ => congrFun hm a⟩
  | mapping hf hr hp hg =>
      obtain ⟨hplace, hres⟩ := mmapFindVma_granted hr
      rw [← mmapFindVma_calls h c s r.addr r.length] at hg
      obtain ⟨hfail, hm⟩ := targetMmapAt_refused hg
      rw [targetMmap_settled hf hplace hp]
      refine ⟨hfail, fun a ha => ?_⟩
      rw [hm, hres.mem]
      exact if_neg fun hmem => ha ⟨hf, hr, hmem⟩

namespace Guest

/-- The system call's host call fails. -/
inductive Fails (h : Host) (y : HostCalls) (c : Setup) (g : Guest) : Errno → Prop
  | faccessat {e : Errno} (hn : g.nr = TargetNr.faccessat)
      (he : hostFaccessat y c g.space (g.arg 0) (g.arg 1) (g.arg 2) = .error e) : Fails h y c g e
  | fstat {e : Errno} (hn : g.nr = TargetNr.fstat)
      (he : y.fstat g.space ((g.arg 0).setWidth 32) = .error e) : Fails h y c g e
  | write {e : Errno} (hn : g.nr = TargetNr.write)
      (he : y.write g.space ((g.arg 0).setWidth 32) (g2h c (g.arg 1)) (g.arg 2) = .error e) :
      Fails h y c g e
  | mmap {e : Errno} (hn : g.nr = TargetNr.mmap) (he : MmapFails h y c g.space g.mmapArgs e) :
      Fails h y c g e

/-- The guest is resumed behind the `ecall` with the result in `a0`, and with every
other register as it was. -/
structure Resumed (g g' : Guest) (ret : Word) : Prop where
  a0 : g'.env.gpr Reg.a0 = ret
  pc : g'.env.pc = g.env.pc + 4
  gpr : ∀ r, r ≠ Reg.a0 → g'.env.gpr r = g.env.gpr r
  rest : g'.env = { g.env with gpr := g'.env.gpr, pc := g'.env.pc, exception := .none }

/-- The error number in `a0`, and nothing else has changed. -/
def Faithful (h : Host) (y : HostCalls) (c : Setup) (g : Guest) (e : Errno) : Prop :=
  ∃ g', g.ecall h y c = .ok g' ∧ g.Resumed g' (-(e.signExtend 64)) ∧ g'.space.mem = g.space.mem

/-- The addresses in reach of the two calls that write before they know the result:
the buffer of `fstat`, and the pages of a reservation whose mapping is refused. -/
def Scratch (h : Host) (c : Setup) (g : Guest) (a : Word) : Prop :=
  (g.nr = TargetNr.fstat ∧ Span.Mem (g.arg 1) 128 a) ∨
    (g.nr = TargetNr.mmap ∧ Replaced h c g.space g.mmapArgs a)

theorem resumed_ecall {g : Guest} {k : Kernel} {ret : Word}
    (hs : doSyscall h y c g.kernel g.nr (g.arg 0) (g.arg 1) (g.arg 2) (g.arg 3) (g.arg 4)
      (g.arg 5) = .ok (k, ret)) :
    ∃ g', g.ecall h y c = .ok g' ∧ g.Resumed g' ret ∧ g'.kernel = k := by
  unfold ecall
  rw [hs]
  refine ⟨_, rfl, ⟨?_, rfl, fun r hr => ?_, rfl⟩, rfl⟩
  · show (if Reg.a0 = Reg.a0 then ret else g.env.gpr Reg.a0) = ret
    exact if_pos rfl
  · show (if r = Reg.a0 then ret else g.env.gpr r) = g.env.gpr r
    exact if_neg hr

theorem doFstat_fails {k : Kernel} {arg1 arg2 : Word} {e : Errno}
    (he : y.fstat k.space (arg1.setWidth 32) = .error e)
    (hw : ∀ i < 128, k.space.mem.Writable (arg2 + BitVec.ofNat 64 i)) :
    ∃ k', doFstat y k arg1 arg2 = .ok (k', failed) ∧
      ∀ a, ¬ Span.Mem arg2 128 a → k'.space.mem a = k.space.mem a := by
  have hlen : (y.stale k.space).target.length = 128 := Stat.target_length _
  obtain ⟨m, hm⟩ := Memory.storeBytes_eq_ok.mpr (hlen.symm ▸ hw)
  unfold doFstat targetMemoryCopy
  rw [he]
  dsimp only
  rw [hm]
  refine ⟨_, rfl, fun a ha => ?_⟩
  have hnone : (y.stale k.space).target[(a - arg2).toNat]? = none :=
    List.getElem?_eq_none (hlen ▸ Nat.le_of_not_lt ha)
  have hat := Memory.storeBytes_apply hm (hlen ▸ by decide) a
  rw [hnone] at hat
  exact hat.trans Option.map_id'

theorem doSyscall_fstat (k : Kernel) (arg1 arg2 arg3 arg4 arg5 arg6 : Word) :
    doSyscall h y c k TargetNr.fstat arg1 arg2 arg3 arg4 arg5 arg6 = doFstat y k arg1 arg2 := by
  unfold doSyscall
  rw [if_neg (by decide), if_pos rfl]

theorem writable_of_doFstat {k k' : Kernel} {arg1 arg2 ret : Word}
    (hs : doFstat y k arg1 arg2 = .ok (k', ret)) {i : Nat} (hi : i < 128) :
    k.space.mem.Writable (arg2 + BitVec.ofNat 64 i) := by
  unfold doFstat at hs
  dsimp only at hs
  split at hs
  · rename_i m hm
    exact Memory.storeBytes_eq_ok.mp ⟨m, hm⟩ i (by rwa [Stat.target_length])
  · cases hs

/-- The guest can be resumed: the host takes the copy of `fstat`. -/
def Resumes (g : Guest) : Prop :=
  g.nr = TargetNr.fstat → ∀ i < 128, g.space.mem.Writable (g.arg 1 + BitVec.ofNat 64 i)

theorem resumes_of_ecall {g g' : Guest} (hg : g.ecall h y c = .ok g') : g.Resumes := by
  intro hn i hi
  obtain ⟨⟨k, ret⟩, hs, _⟩ := bind_eq_ok hg
  rw [hn, doSyscall_fstat] at hs
  exact writable_of_doFstat hs hi

theorem doSyscall_fails {g : Guest} {e : Errno} (hf : g.Fails h y c e) (hw : g.Resumes) :
    ∃ k, doSyscall h y c g.kernel g.nr (g.arg 0) (g.arg 1) (g.arg 2) (g.arg 3) (g.arg 4)
        (g.arg 5) = .ok (k, failed) ∧
      ∀ a, ¬ g.Scratch h c a → k.space.mem a = g.space.mem a := by
  unfold doSyscall
  cases hf with
  | faccessat hn he =>
      rw [if_pos hn]
      have hfail : libc (hostFaccessat y c g.kernel.space (g.arg 0) (g.arg 1) (g.arg 2)) = -1 := by
        rw [show hostFaccessat y c g.kernel.space _ _ _ = _ from he]
        rfl
      rw [hfail]
      exact ⟨_, rfl, fun _ _ => rfl⟩
  | fstat hn he =>
      obtain ⟨k, hk, hm⟩ := doFstat_fails he (hw hn)
      rw [hn, if_neg (by decide), if_pos rfl]
      exact ⟨k, hk, fun a ha => hm a fun hs => ha (.inl ⟨hn, hs⟩)⟩
  | write hn he =>
      rw [hn, if_neg (by decide), if_neg (by decide), if_pos rfl]
      have hfail : libc (y.write g.kernel.space ((g.arg 0).setWidth 32) (g2h c (g.arg 1))
          (g.arg 2)) = failed := by
        rw [show y.write g.kernel.space _ _ _ = _ from he]
        rfl
      rw [hfail]
      exact ⟨_, rfl, fun _ _ => rfl⟩
  | mmap hn he =>
      obtain ⟨hfail, hm⟩ := targetMmap_fails he
      rw [hn, if_neg (by decide), if_neg (by decide), if_neg (by decide), if_neg (by decide),
        if_neg (by decide), if_neg (by decide), if_pos rfl]
      exact ⟨⟨_, _⟩, congrArg (fun v => Except.ok (_, v)) hfail,
        fun a ha => hm a fun hs => ha (.inr ⟨hn, hs⟩)⟩

theorem ecall_eq_ok {g : Guest} {e : Errno} (hf : g.Fails h y c e) (hw : g.Resumes) :
    ∃ g', g.ecall h y c = .ok g' ∧ g.Resumed g' failed ∧
      ∀ a, ¬ g.Scratch h c a → g'.space.mem a = g.space.mem a := by
  obtain ⟨k, hk, hm⟩ := doSyscall_fails hf hw
  obtain ⟨g', hg', hres, rfl⟩ := resumed_ecall hk
  exact ⟨g', hg', hres, hm⟩

/-- A call whose host call fails returns -1 whatever the error, and leaves the other
registers and, off the scratch addresses, the memory. -/
theorem ecall_fails {h : Host} {y : HostCalls} {c : Setup} {g : Guest} {e : Errno}
    (hf : g.Fails h y c e) :
    (g.Resumes → ∃ g', g.ecall h y c = .ok g') ∧
      ∀ g', g.ecall h y c = .ok g' → g.Resumed g' failed ∧
        ∀ a, ¬ g.Scratch h c a → g'.space.mem a = g.space.mem a := by
  constructor
  · intro hw
    obtain ⟨g', hg', _⟩ := ecall_eq_ok hf hw
    exact ⟨g', hg'⟩
  · intro g' hg
    obtain ⟨g'', hg', hres, hm⟩ := ecall_eq_ok hf (resumes_of_ecall hg)
    rw [hg] at hg'
    cases hg'
    exact ⟨hres, hm⟩

/-- A host on which no descriptor is open. -/
def noDescriptors : HostCalls where
  access _ _ _ := .ok 0
  faccessat _ _ _ _ _ := .ok 0
  fstat _ _ := .error 9
  write _ _ _ _ := .error 9
  mmapErrno _ := 12
  stale _ := ⟨0, 0, 0, 0, 0, 0, 0, 0, 0, 0, 0, 0, 0, 0, 0, 0⟩

/-- A guest with writable memory everywhere that makes a system call. -/
def calling (nr : Word) : Guest :=
  ⟨State.zero.setGpr Reg.a7 nr, ⟨{ Space.start with mem := Memory.filled 0 }, targetSetBrk 0⟩⟩

theorem fstat_noDescriptors :
    ((calling 80).Resumes → ∃ g', (calling 80).ecall Layout.host47 noDescriptors .default = .ok g') ∧
      ∀ g', (calling 80).ecall Layout.host47 noDescriptors .default = .ok g' →
        (calling 80).Resumed g' failed ∧
        ∀ a, ¬ (calling 80).Scratch Layout.host47 .default a →
          g'.space.mem a = (calling 80).space.mem a :=
  ecall_fails (.fstat (by decide) rfl : (calling 80).Fails _ noDescriptors _ 9)

/-- `write` to a descriptor that is not open: the guest reads -1, not the number of
the error. -/
theorem write_not_faithful :
    (calling 64).Fails Layout.host47 noDescriptors .default 9 ∧
      ¬ (calling 64).Faithful Layout.host47 noDescriptors .default 9 := by
  refine ⟨.write (by decide) rfl, ?_⟩
  rintro ⟨g', hg', hres, _⟩
  cases hg'
  exact absurd hres.a0 (by decide)

end Guest

end Rvvk
