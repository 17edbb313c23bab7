import Rvvk.Elf.ProcessStack
import Rvvk.Exec.LoopInvariant
import Rvvk.Options
import Rvvk.Path.RealPath

/-!
# The emulator

`main` reads the command line, resolves the path of the program, opens the program,
loads it and runs `cpu_loop` on it.
-/

namespace Rvvk

/-- The emulator that is started, and what `main` finds. -/
structure Environment where
  binary : Binary
  host : Host
  calls : HostCalls
  /-- `__STRICT_ANSI__`. -/
  strictAnsi : Bool
  /-- The current directory, and whether `malloc` finds memory. -/
  paths : PathContext
  /-- The array `prog_real_path` is not initialized. -/
  progRealPath : Nat → BitVec 8
  /-- The host's `open`; a descriptor is not negative. -/
  openFile : CString → Except Errno {fd : BitVec 32 // fd.slt 0 = false}

/-- The settings that the options change. -/
def Environment.settings (e : Environment) : Settings :=
  ⟨{ Setup.default with strictAnsi := e.strictAnsi }, false⟩

/-- How `main` ends without a guest. -/
inductive MainEnd
  | options (e : OptionsEnd)
  | path (e : PathError)
  /-- The text of the error number is printed. -/
  | notOpened (e : Errno)
  /-- An array of strings that no NULL ends is left. -/
  | overrun
  | load (e : Failure)
  /-- `cpu_loop` returns. -/
  | noBuffer
deriving DecidableEq, Repr

/-! ## Strings -/

theorem CharArray.zero_notMem_text {b : CharArray} {n : Nat} (h : b.strlen = .ok n) :
    0 ∉ b.text n := by
  intro hmem
  obtain ⟨i, hi, h0⟩ := List.mem_map.mp hmem
  exact (strlen_ok.mp h).2.2 i (List.mem_range.mp hi) h0

/-- The array as the string that the host's `open` reads. -/
def CharArray.toCString (b : CharArray) : Except PathError CString :=
  match h : b.strlen with
  | .ok n => .ok ⟨b.text n, zero_notMem_text h⟩
  | .error e => .error e

def count : List (Option CString) → Except MainEnd Nat
  | [] => .error .overrun
  | none :: _ => .ok 0
  | some _ :: ptrs => (count ptrs).map (· + 1)

/-- The strings that `elf_load` counts. -/
def counted (ptrs : List (Option CString)) : Except MainEnd (List CString) :=
  (count ptrs).map fun n => (ptrs.take n).reduceOption

/-! ## From the command line to the guest -/

/-- What is loaded, with the settings of the command line. -/
structure Loaded where
  settings : Settings
  prog : Program
  space : Space
  info : ImageInfo
  regs : PtRegs

/-- `main` up to the load; `opts` is what lies from `argv` on. -/
def loadProgram (e : Environment) (argv : List (Option CString)) : Except MainEnd Loaded := do
  let p ← (parseOptions e.paths.malloc e.settings argv.tail).mapError .options
  let progRealPath ← (getRealPath e.paths (some p.progPath) (some e.progRealPath)).mapError .path
  let progPath ← progRealPath.toCString.mapError .path
  let progfd ← (e.openFile progPath).mapError .notOpened
  let argv ← counted p.progArgv
  let envp ← counted p.progEnvp
  let prog : Program := ⟨progfd, progfd.2, progPath, argv, envp⟩
  let (space, info, regs) ← (elfLoad e.host p.settings.toSetup .start prog).mapError .load
  .ok ⟨p.settings, prog, space, info, regs⟩

/-- The guest with the registers and the break of the loaded program. -/
def Loaded.guest (l : Loaded) (space : Space) : Guest :=
  ⟨(targetCpuCopyRegs .zero l.info l.regs).1, ⟨space, targetSetBrk l.info.brk⟩⟩

/-- `main` up to the loop in `cpu_loop`. -/
def main (e : Environment) (argv envp : List CString) : Except MainEnd (Setup × Guest) := do
  let l ← loadProgram e (pointers argv envp)
  let (space, done) := allocInsnBuffer e.host l.settings.toSetup l.space
  if done then .ok (l.settings.toSetup, l.guest space) else .error .noBuffer

inductive End
  | main (e : MainEnd)
  | guest (e : Stop)
deriving DecidableEq, Repr

/-- The emulator after `n` steps of the loop. -/
def emulate (e : Environment) (argv envp : List CString) (n : Nat) :
    Except End (Loop e.binary.executor) := do
  let (c, g) ← (main e argv envp).mapError .main
  ((Loop.start e.binary g).run e.host e.calls c n).mapError .guest

/-- In none of the first `n` steps does the guest disturb the emulator. -/
def Undisturbed (e : Environment) (argv envp : List CString) (n : Nat) : Prop :=
  ∀ c g, main e argv envp = .ok (c, g) →
    Run.Throughout (Loop.step e.host e.calls c) (Loop.KeepsOff c) n (.start e.binary g)

/-! ## Exit statuses

The parent of the emulator sees the low byte of what is passed to `exit`; nothing behind
a signal, or where it is not known what happens. -/

def OptionsEnd.status : OptionsEnd → Option (BitVec 8)
  | .returned _ => some 1
  | .exit _ status => some (status.setWidth 8)
  | .signal _ => none
  | .overrun => none

def PathError.status : PathError → Option (BitVec 8)
  | .returned _ => some 1
  | .overrun => none
  | .null => none

def Failure.status : Failure → Option (BitVec 8)
  | .errinfo _ => some 1
  | .syserr => some 1
  | .signal _ => none

def MainEnd.status : MainEnd → Option (BitVec 8)
  | .options e => e.status
  | .path e => e.status
  | .notOpened _ => some 1
  | .overrun => none
  | .load e => e.status
  | .noBuffer => some 0

def Stop.status : Stop → Option (BitVec 8)
  | .fault _ => none
  | .exit status => some (status.setWidth 8)

def End.status : End → Option (BitVec 8)
  | .main e => e.status
  | .guest e => e.status

/-! ## The strings of the command line -/

theorem mapError_eq_ok {ε ε' α : Type} {x : Except ε α} {f : ε → ε'} {a : α} :
    x.mapError f = .ok a ↔ x = .ok a := by
  cases x <;> simp [Except.mapError]

theorem count_words (words : List CString) (rest : List (Option CString)) :
    count (words.map some ++ none :: rest) = .ok words.length := by
  induction words with
  | nil => rfl
  | cons word words ih => simp [count, ih, Except.map]

theorem counted_words (words : List CString) (rest : List (Option CString)) :
    counted (words.map some ++ none :: rest) = .ok words := by
  have htake : (words.map some ++ none :: rest).take words.length = words.map some :=
    List.take_left' (List.length_map ..)
  have hall : (words.map some).reduceOption = words := by
    show (words.map some).filterMap id = words
    rw [List.filterMap_map]
    exact List.filterMap_some
  rw [counted, count_words, Except.map, htake, hall]

theorem counted_pointers (words envp : List CString) : counted (pointers words envp) = .ok words := by
  have he : pointers words envp = words.map some ++ none :: nullTerminated envp := by
    simp [pointers, nullTerminated]
  rw [he, counted_words]

theorem CharArray.cString_of_toCString {b : CharArray} {str : CString} (h : b.toCString = .ok str) :
    b.cString = .ok str.bytes := by
  unfold toCString at h
  split at h
  · rename_i n hn
    cases h
    exact cString_ok hn
  · cases h

/-! ## What is loaded -/

section

variable {e : Environment} {name : CString} {words envp front rest : List CString} {prog : CString}
  {l : Loaded} {c : Setup} {g : Guest}

/-- The program is the first word behind the options, and gets the words from there on. -/
structure Loads (e : Environment) (words envp front rest : List CString) (prog : CString)
    (l : Loaded) : Prop where
  words : words = front ++ prog :: rest
  front : OptionWords e.settings front l.settings
  notOption : prog.isOption = false
  path : ∃ b, getRealPath e.paths (some prog) (some e.progRealPath) = .ok b ∧
    b.cString = .ok l.prog.filename.bytes
  opened : e.openFile l.prog.filename = .ok ⟨l.prog.fd, l.prog.opened⟩
  argv : l.prog.argv = prog :: rest
  envp : l.prog.envp = envp
  load : elfLoad e.host l.settings.toSetup .start l.prog = .ok (l.space, l.info, l.regs)

theorem loadProgram_ok (h : loadProgram e (pointers (name :: words) envp) = .ok l) :
    ∃ front rest prog, Loads e words envp front rest prog l := by
  obtain ⟨p, hp, h⟩ := bind_eq_ok h
  obtain ⟨b, hb, h⟩ := bind_eq_ok h
  obtain ⟨path, hpath, h⟩ := bind_eq_ok h
  obtain ⟨fd, hfd, h⟩ := bind_eq_ok h
  obtain ⟨argv, hargv, h⟩ := bind_eq_ok h
  obtain ⟨env, henv, h⟩ := bind_eq_ok h
  obtain ⟨⟨space, info, regs⟩, hload, h⟩ := bind_eq_ok h
  cases h
  obtain ⟨front, rest, prog, hs⟩ := splits_of_parseOptions (mapError_eq_ok.mp hp)
  rw [hs.progArgv, counted_pointers] at hargv
  rw [hs.progEnvp, nullTerminated, counted_words] at henv
  cases hargv
  cases henv
  rw [mapError_eq_ok, hs.progPath] at hb
  exact ⟨front, rest, prog, hs.argv, hs.front, hs.notOption,
    ⟨b, hb, CharArray.cString_of_toCString (mapError_eq_ok.mp hpath)⟩, mapError_eq_ok.mp hfd, rfl,
    rfl, mapError_eq_ok.mp hload⟩

theorem Loads.regs (hl : Loads e words envp front rest prog l) :
    l.regs = ⟨l.info.entry, l.info.startStack⟩ := (elfLoad_ok hl.load).2

/-- The guest starts at the entry, with nothing in its registers but the stack pointer. -/
theorem Loads.guest_env (hl : Loads e words envp front rest prog l) (space : Space) :
    (l.guest space).env.pc = l.info.entry ∧
      ∀ r, (l.guest space).env.gpr r = if r = Reg.sp then l.info.startStack else 0 := by
  unfold Loaded.guest targetCpuCopyRegs
  rw [hl.regs]
  exact ⟨rfl, fun r => rfl⟩

theorem Loads.anchored (hl : Loads e words envp front rest prog l) :
    l.space.Anchored l.settings.toSetup :=
  loadElfBinary_anchored (elfLoad_ok hl.load).1 ((Space.start_anchored _).congr rfl)

/-! ## The guest -/

def Loaded.started (e : Environment) (l : Loaded) : Guest :=
  l.guest (allocInsnBuffer e.host l.settings.toSetup l.space).1

theorem main_eq_ok (h : main e (name :: words) envp = .ok (c, g)) :
    ∃ front rest prog l, Loads e words envp front rest prog l ∧ c = l.settings.toSetup ∧
      (allocInsnBuffer e.host c l.space).2 = true ∧ g = l.started e := by
  obtain ⟨l, hl, h⟩ := bind_eq_ok h
  obtain ⟨front, rest, prog, hloads⟩ := loadProgram_ok hl
  dsimp only at h
  split at h
  · cases h
    exact ⟨front, rest, prog, l, hloads, rfl, ‹_›, rfl⟩
  · cases h

theorem emulate_eq_ok {n : Nat} {s : Loop e.binary.executor} :
    emulate e (name :: words) envp n = .ok s ↔
      ∃ c g, main e (name :: words) envp = .ok (c, g) ∧
        (Loop.start e.binary g).run e.host e.calls c n = .ok s := by
  constructor
  · intro h
    obtain ⟨⟨c, g⟩, hm, hr⟩ := bind_eq_ok h
    exact ⟨c, g, mapError_eq_ok.mp hm, mapError_eq_ok.mp hr⟩
  · rintro ⟨c, g, hm, hr⟩
    unfold emulate
    rw [hm]
    exact mapError_eq_ok.mpr hr

/-! ## Every run of the emulator -/

theorem Loads.startable (hl : Loads e words envp front rest prog l)
    (hd : (allocInsnBuffer e.host l.settings.toSetup l.space).2 = true) :
    Loop.Startable l.settings.toSetup (l.started e) where
  fresh := allocInsnBuffer_fresh hd
  zero := (hl.guest_env _).2 0
  anchored := hl.anchored.congr (allocInsnBuffer_next _ _ _)
  brk := BitVec.le_refl _

theorem main_startable (hm : main e (name :: words) envp = .ok (c, g)) : Loop.Startable c g := by
  obtain ⟨front, rest, prog, l, hl, rfl, hd, rfl⟩ := main_eq_ok hm
  exact hl.startable hd

/-! A run that is clear without the instruction buffer is one of the emulator. -/

theorem main_apart {n : Nat} (hm : main e (name :: words) envp = .ok (c, g))
    (hy : e.calls.Blind (InBuffer c))
    (hc : Run.Throughout (Loop.step e.host e.calls c) (Loop.Clear e.binary c) n
      (.startVm (g.without (InBuffer c)))) :
    Run.Throughout (Loop.step e.host e.calls c) (Loop.Apart c) n (.start e.binary g) := by
  rw [← Loop.hide_start (x := e.binary)] at hc
  exact Loop.throughout_of_clear hy (.start (main_startable hm).fresh) hc

theorem main_shows {n : Nat} {α : Type} {f : Loop Vm.executor → α} {v : α}
    (hm : main e (name :: words) envp = .ok (c, g)) (hy : e.calls.Blind (InBuffer c))
    (ha : Run.Throughout (Loop.step e.host e.calls c) (Loop.Apart c) n (.start e.binary g))
    (hv : ((Loop.startVm (g.without (InBuffer c))).run e.host e.calls c n).toOption.map f =
      some v) :
    ∃ s, (Loop.start e.binary g).run e.host e.calls c n = .ok s ∧ f (s.hide c) = v := by
  rw [← Loop.hide_start (x := e.binary)] at hv
  exact Loop.run_shows hy (.start (main_startable hm).fresh) ha hv

theorem main_fails {n : Nat} {α : Type} {f : Stop → α} {v : α}
    (hm : main e (name :: words) envp = .ok (c, g)) (hy : e.calls.Blind (InBuffer c))
    (ha : Run.Throughout (Loop.step e.host e.calls c) (Loop.Apart c) n (.start e.binary g))
    (hv : (Run.failure ((Loop.startVm (g.without (InBuffer c))).run e.host e.calls c n)).map f =
      some v) :
    ∃ stop, (Loop.start e.binary g).run e.host e.calls c n = .error stop ∧ f stop = v := by
  rw [← Loop.hide_start (x := e.binary)] at hv
  have hmap := Loop.run_hide hy (.start (main_startable hm).fresh) ha
  obtain ⟨stop, hstop, hv⟩ := Option.map_eq_some_iff.mp hv
  rw [Run.failure_eq_some.mp hstop] at hmap
  exact ⟨stop, map_eq_error hmap, hv⟩

/-- Whatever is on the command line and whatever the host answers: a state of an undisturbed
run belongs to the program behind the options, and the invariant of the loop holds in it.
It was reached from a guest at the entry, whose only register that is not zero is the
stack pointer. The loop has no other ends than `Stops` names, and `cpu_exec` does not fail in
other ways than `Faults` names. -/
theorem emulate_inv {n : Nat} {s : Loop e.binary.executor}
    (hk : Undisturbed e (name :: words) envp n)
    (hr : emulate e (name :: words) envp n = .ok s) :
    ∃ front rest prog l, Loads e words envp front rest prog l ∧
      (Loop.start e.binary (l.started e)).run e.host e.calls l.settings.toSetup n = .ok s ∧
      (l.started e).env.pc = l.info.entry ∧
      (∀ r, (l.started e).env.gpr r = if r = Reg.sp then l.info.startStack else 0) ∧
      Loop.Inv l.settings.toSetup s ∧ s.brk.initial = targetPageAlign l.info.brk ∧
      (∀ stop, s.step e.host e.calls l.settings.toSetup = .error stop ↔
        Loop.Stops e.calls l.settings.toSetup s stop) ∧
      (s.KeepsOff l.settings.toSetup → ∀ f, e.binary.step l.settings.toSetup s.cpu = .error f ↔
        Vm.Faults s.cpu (e.binary.insn? l.settings.toSetup s.cpu) f) := by
  obtain ⟨c, g, hm, hr⟩ := emulate_eq_ok.mp hr
  obtain ⟨front, rest, prog, l, hl, rfl, hd, rfl⟩ := main_eq_ok hm
  obtain ⟨hi, hb⟩ := Loop.reach_inv (hl.startable hd) (hk _ _ hm) hr
  obtain ⟨hpc, hregs⟩ := hl.guest_env (allocInsnBuffer e.host l.settings.toSetup l.space).1
  exact ⟨front, rest, prog, l, hl, hr, hpc, hregs, hi, hb, fun _ => hi.stops,
    fun hk _ => hi.sound.step_eq_error hk.cpu hi.zero⟩

end

/-! ## A program that is started -/

/-- The current directory is not needed, and every path is the one file. -/
def oneFile : Environment where
  binary := .static
  host := fileHost (execFile textAndBss)
  calls := Guest.noDescriptors
  strictAnsi := true
  paths := ⟨none, fun _ => 0, true⟩
  progRealPath := fun _ => 0
  openFile := fun _ => .ok ⟨commandA.fd, commandA.opened⟩

def rvvk : CString := ⟨ascii "rvvk", by decide⟩

def pathA : CString := ⟨ascii "/a", by decide⟩

/-- `lui a1, 1; li a2, 3; li a3, 34; li a4, -1; li s1, 2; li a7, 222`, then twice
`li a0, 0; ecall; sw a1, 0(a0); addi s0, s0, 1; bne s0, s1, -16`, then
`li a7, 93; li a0, 0; ecall`: two pages of zeros are asked for and written to. -/
def twoPagesCode : List (BitVec 8) :=
  [0x000015b7, 0x00300613, 0x02200693, 0xfff00713, 0x00200493, 0x0de00893, 0x00000513, 0x00000073,
    0x00b52023, 0x00140413, 0xfe9418e3, 0x05d00893, 0x00000513, 0x00000073].flatMap
      fun word : BitVec 32 => LittleEndian.bytes word 4

/-- One segment: the headers and the code behind them. -/
def twoPagesFile : File :=
  let file := execFile [⟨ptLoad, pfR ||| pfX, 0, 0x10000, 176, 176, 4096⟩]
  ⟨file.size + twoPagesCode.length, fun i =>
    if i < file.size then file.byte i else twoPagesCode.getD (i - file.size) 0⟩

def twoPages : Environment := { oneFile with host := fileHost twoPagesFile }

/-- The guest that allocates twice never comes near the emulator, and exits. -/
theorem twoPages_clear : ∃ c g, main twoPages [rvvk, pathA] [] = .ok (c, g) ∧
    Run.Throughout (Loop.step twoPages.host twoPages.calls c) (Loop.Clear .static c) 30
      (.startVm (g.without (InBuffer c))) ∧
    ((Loop.startVm (g.without (InBuffer c))).run twoPages.host twoPages.calls c 29).toOption.map
      (fun s => s.guest.nr) = some TargetNr.exit ∧
    (Run.failure ((Loop.startVm (g.without (InBuffer c))).run twoPages.host twoPages.calls c
      30)).map Stop.status = some (some 0) := by
  obtain ⟨⟨c, g⟩, hm, hp⟩ := exists_of_any (show (main twoPages [rvvk, pathA] []).toOption.any
    (fun x => decide (Run.Throughout (Loop.step twoPages.host twoPages.calls x.1)
        (Loop.Clear .static x.1) 30 (.startVm (x.2.without (InBuffer x.1))) ∧
      ((Loop.startVm (x.2.without (InBuffer x.1))).run twoPages.host twoPages.calls x.1
        29).toOption.map (fun s => s.guest.nr) = some TargetNr.exit ∧
      (Run.failure ((Loop.startVm (x.2.without (InBuffer x.1))).run twoPages.host twoPages.calls
        x.1 30)).map Stop.status = some (some 0))) = true by
    decide +kernel)
  exact ⟨c, g, hm, of_decide_eq_true hp⟩

theorem twoPages_exits : ∃ c g, main twoPages [rvvk, pathA] [] = .ok (c, g) ∧
    Run.Throughout (Loop.step twoPages.host twoPages.calls c) (Loop.Apart c) 30
      (.start twoPages.binary g) ∧
    (∃ s, (Loop.start twoPages.binary g).run twoPages.host twoPages.calls c 29 = .ok s ∧
      s.guest.nr = TargetNr.exit) ∧
    ∃ stop, (Loop.start twoPages.binary g).run twoPages.host twoPages.calls c 30 = .error stop ∧
      stop.status = some 0 := by
  obtain ⟨c, g, hm, hc, hnr, hf⟩ := twoPages_clear
  have hy : twoPages.calls.Blind (InBuffer c) := Caller.blind _
  have ha := main_apart hm hy hc
  obtain ⟨s, hr, hnr⟩ := main_shows hm hy (ha.take (by decide)) hnr
  exact ⟨c, g, hm, ha, ⟨s, hr, Loop.nr_hide.symm.trans hnr⟩, main_fails hm hy ha hf⟩

theorem twoPages_undisturbed (n : Nat) : Undisturbed twoPages [rvvk, pathA] [] n := by
  intro c g hm
  obtain ⟨c', g', hm', ha, _, _, hr, _⟩ := twoPages_exits
  obtain ⟨rfl, rfl⟩ := Prod.mk.inj (Except.ok.inj (hm'.symm.trans hm))
  exact (ha.mono fun _ ha => ha.keepsOff).of_run_error hr n

theorem twoPages_inv : ∃ s front rest prog l, emulate twoPages [rvvk, pathA] [] 29 = .ok s ∧
    s.guest.nr = TargetNr.exit ∧ Loads twoPages [pathA] [] front rest prog l ∧
    Loop.Inv l.settings.toSetup s ∧ s.brk.initial = targetPageAlign l.info.brk ∧
    ∀ stop, s.step twoPages.host twoPages.calls l.settings.toSetup = .error stop ↔
      Loop.Stops twoPages.calls l.settings.toSetup s stop := by
  obtain ⟨c, g, hm, _, ⟨s, hr, hnr⟩, _⟩ := twoPages_exits
  have hs : emulate twoPages [rvvk, pathA] [] 29 = .ok s := emulate_eq_ok.mpr ⟨c, g, hm, hr⟩
  obtain ⟨front, rest, prog, l, hl, _, _, _, hi, hb, hstops, _⟩ :=
    emulate_inv (twoPages_undisturbed 29) hs
  exact ⟨s, front, rest, prog, l, hs, hnr, hl, hi, hb, hstops⟩

section

variable {e : Environment} {name : CString} {words envp front rest : List CString} {prog : CString}
  {l : Loaded} {c : Setup} {g : Guest}

/-! ## Success -/

theorem mapError_eq_error {ε ε' α : Type} {x : Except ε α} {f : ε → ε'} {err : ε'}
    (h : x.mapError f = .error err) : ∃ err₀, x = .error err₀ ∧ f err₀ = err := by
  cases x with
  | error err₀ => exact ⟨err₀, rfl, Except.error.inj h⟩
  | ok a => cases h

theorem counted_eq_error {ptrs : List (Option CString)} {m : MainEnd}
    (h : counted ptrs = .error m) : m = .overrun := by
  have hcount : ∀ ptrs m, count ptrs = .error m → m = .overrun := by
    intro ptrs m h
    induction ptrs with
    | nil => exact (Except.error.inj h).symm
    | cons p ptrs ih =>
        cases p with
        | none => cases h
        | some str =>
            refine ih ?_
            unfold count at h
            cases hc : count ptrs with
            | error m' =>
                rw [hc] at h
                exact h
            | ok n =>
                rw [hc] at h
                cases h
  unfold counted at h
  cases hc : count ptrs with
  | error m' =>
      rw [hc] at h
      exact (Except.error.inj h) ▸ hcount ptrs m' hc
  | ok n =>
      rw [hc] at h
      cases h

theorem PathError.status_ne (err : PathError) : err.status ≠ some 0 := by
  cases err <;> simp [status]

theorem Failure.status_ne (err : Failure) : err.status ≠ some 0 := by
  cases err <;> simp [status]

/-- Without a guest and an instruction buffer only the options can succeed. -/
theorem loadProgram_succeeds {argv : List (Option CString)} {m : MainEnd}
    (h : loadProgram e argv = .error m) (h0 : m.status = some 0) :
    ∃ out status,
      parseOptions e.paths.malloc e.settings argv.tail = .error (.exit out status) := by
  rcases bind_eq_error h with hp | ⟨p, _, h⟩
  · obtain ⟨err, hparse, rfl⟩ := mapError_eq_error hp
    cases err with
    | exit out status => exact ⟨out, status, hparse⟩
    | _ => simp [MainEnd.status, OptionsEnd.status] at h0
  rcases bind_eq_error h with hb | ⟨b, _, h⟩
  · obtain ⟨err, _, rfl⟩ := mapError_eq_error hb
    exact (err.status_ne h0).elim
  rcases bind_eq_error h with hs | ⟨path, _, h⟩
  · obtain ⟨err, _, rfl⟩ := mapError_eq_error hs
    exact (err.status_ne h0).elim
  rcases bind_eq_error h with hf | ⟨fd, _, h⟩
  · obtain ⟨err, _, rfl⟩ := mapError_eq_error hf
    simp [MainEnd.status] at h0
  rcases bind_eq_error h with ha | ⟨argv, _, h⟩
  · rw [counted_eq_error ha] at h0
    cases h0
  rcases bind_eq_error h with hv | ⟨env, _, h⟩
  · rw [counted_eq_error hv] at h0
    cases h0
  rcases bind_eq_error h with hl | ⟨_, _, h⟩
  · obtain ⟨err, _, rfl⟩ := mapError_eq_error hl
    exact (err.status_ne h0).elim
  · cases h

inductive Succeeds (e : Environment) (name : CString) (words envp : List CString) : Prop
  /-- Help is asked for. -/
  | help {front rest : List CString} {opt : CString} {g : Settings}
      (ha : words = front ++ opt :: rest) (hw : OptionWords e.settings front g)
      (ho : opt.bytes = ascii "--help" ∨ opt.bytes = ascii "-h")
  /-- The program is loaded, but there is no room for the instruction buffer. -/
  | noBuffer {l : Loaded} (hl : loadProgram e (pointers (name :: words) envp) = .ok l)
      (hb : (allocInsnBuffer e.host l.settings.toSetup l.space).2 = false)
  /-- The guest exits with a multiple of 256. -/
  | exit {n : Nat} {s : Loop e.binary.executor} (hr : emulate e (name :: words) envp n = .ok s)
      (hc : e.binary.executor.returned s.cpu = true) (hx : s.machine.exception = .uEcall)
      (hn : s.guest.nr = TargetNr.exit) (h0 : (s.guest.arg 0).setWidth 8 = (0 : BitVec 8))

theorem main_error_succeeds {m : MainEnd} (hm : main e (name :: words) envp = .error m)
    (h0 : m.status = some 0) : Succeeds e name words envp := by
  rcases bind_eq_error hm with hl | ⟨l, hl, hm⟩
  · obtain ⟨out, status, hp⟩ := loadProgram_succeeds hl h0
    have hp : parseOptions e.paths.malloc e.settings (pointers words envp) =
        .error (.exit out status) := hp
    obtain ⟨front, rest, opt, g', ha, hw, ho⟩ := help_of_exit hp
    exact .help ha hw ho
  · dsimp only at hm
    split at hm
    · cases hm
    · exact .noBuffer hl (Bool.eq_false_iff.mpr ‹_›)

theorem guest_succeeds {n : Nat} (hk : Undisturbed e (name :: words) envp n)
    (hm : main e (name :: words) envp = .ok (c, g)) {stop : Stop}
    (hr : (Loop.start e.binary g).run e.host e.calls c n = .error stop)
    (h0 : stop.status = some 0) : Succeeds e name words envp := by
  obtain ⟨k, s, hlt, hrun, hs⟩ := Run.run_eq_error hr
  have hreach := emulate_eq_ok.mpr ⟨_, _, hm, hrun⟩
  have hthrough := (hk c g hm).take (Nat.le_of_lt hlt)
  have hi := (Loop.reach_inv (main_startable hm) hthrough hrun).1
  cases hi.stops.mp hs with
  | illegal => simp [Stop.status] at h0
  | fault => cases h0
  | call hc hx he =>
      cases he with
      | fstat => cases h0
      | unknown => simp [Stop.status] at h0
      | exit hn =>
          refine .exit hreach hc hx hn ?_
          simpa [Stop.status] using h0

theorem emulate_of_main_error {m : MainEnd} (hm : main e (name :: words) envp = .error m)
    (n : Nat) : emulate e (name :: words) envp n = .error (.main m) := by
  unfold emulate
  rw [hm]
  rfl

theorem emulate_of_run_error (hm : main e (name :: words) envp = .ok (c, g)) {n : Nat}
    {stop : Stop} (hr : (Loop.start e.binary g).run e.host e.calls c n = .error stop) :
    emulate e (name :: words) envp n = .error (.guest stop) := by
  unfold emulate
  rw [hm]
  show Except.mapError _ _ = _
  rw [hr]
  rfl

theorem main_help {opt : CString} {s : Settings} (ha : words = front ++ opt :: rest)
    (hw : OptionWords e.settings front s)
    (ho : opt.bytes = ascii "--help" ∨ opt.bytes = ascii "-h") :
    main e (name :: words) envp = .error (.options (.exit printUsage 0)) := by
  have hp : parseOptions e.paths.malloc e.settings (pointers (name :: words) envp).tail =
      .error (.exit printUsage 0) := by
    show parseOptions e.paths.malloc e.settings (pointers words envp) = _
    rw [ha, parseOptions_front hw, parseOptions_help ho]
  unfold main loadProgram
  rw [hp]
  rfl

theorem main_noBuffer (hl : loadProgram e (pointers (name :: words) envp) = .ok l)
    (hb : (allocInsnBuffer e.host l.settings.toSetup l.space).2 = false) :
    main e (name :: words) envp = .error .noBuffer := by
  unfold main
  rw [hl]
  show (if (allocInsnBuffer e.host l.settings.toSetup l.space).2 then _ else _) = _
  rw [hb]
  rfl

theorem emulate_exit {n : Nat} {s : Loop e.binary.executor}
    (hk : Undisturbed e (name :: words) envp n) (hr : emulate e (name :: words) envp n = .ok s)
    (hc : e.binary.executor.returned s.cpu = true) (hx : s.machine.exception = .uEcall)
    (hn : s.guest.nr = TargetNr.exit) :
    emulate e (name :: words) envp (n + 1) =
      .error (.guest (.exit ((s.guest.arg 0).setWidth 32))) := by
  obtain ⟨c, g, hm, hr⟩ := emulate_eq_ok.mp hr
  refine emulate_of_run_error hm ((Run.run_add hr).trans ?_)
  have hi := (Loop.reach_inv (main_startable hm) (hk c g hm) hr).1
  have hstop : s.step e.host e.calls c = .error (.exit ((s.guest.arg 0).setWidth 32)) :=
    hi.stops.mpr (.call hc hx (.exit hn))
  simp only [Run.run, hstop]

/-- The emulator reports success in these cases and no others, if the guest does not disturb
it. -/
theorem emulate_succeeds_iff (hk : ∀ n, Undisturbed e (name :: words) envp n) :
    (∃ n x, emulate e (name :: words) envp n = .error x ∧ x.status = some 0) ↔
      Succeeds e name words envp := by
  constructor
  · rintro ⟨n, x, hx, h0⟩
    rcases bind_eq_error hx with hm | ⟨⟨c, g⟩, hm, hr⟩
    · obtain ⟨m, hmain, rfl⟩ := mapError_eq_error hm
      exact main_error_succeeds hmain h0
    · obtain ⟨stop, hrun, rfl⟩ := mapError_eq_error hr
      exact guest_succeeds (hk n) (mapError_eq_ok.mp hm) hrun h0
  · intro hs
    cases hs with
    | help ha hw ho => exact ⟨0, _, emulate_of_main_error (main_help ha hw ho) 0, rfl⟩
    | noBuffer hl hb => exact ⟨0, _, emulate_of_main_error (main_noBuffer hl hb) 0, rfl⟩
    | @exit n s hr hc hx hn h0 =>
        refine ⟨n + 1, _, emulate_exit (hk n) hr hc hx hn, ?_⟩
        simpa [End.status, Stop.status] using h0

end

/-- The guest that allocates twice is the third case. -/
theorem twoPages_succeeds : Succeeds twoPages rvvk [pathA] [] := by
  obtain ⟨c, g, hm, _, _, stop, hr, h0⟩ := twoPages_exits
  exact (emulate_succeeds_iff twoPages_undisturbed).mp ⟨30, _, emulate_of_run_error hm hr, h0⟩

end Rvvk
