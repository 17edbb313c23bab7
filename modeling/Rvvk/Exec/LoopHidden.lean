import Rvvk.Exec.Loop
import Rvvk.Exec.Transparent

/-!
# The loop without the emulator's memory

What `cpu_loop` does for a guest that keeps clear of the instruction buffer can be told
from a loop whose memory lacks the buffer. A host call may not see the difference either.
-/

namespace Rvvk

/-! ## System calls without a part of memory -/

def Space.without (s : Space) (p : Word → Prop) [DecidablePred p] : Space :=
  { s with mem := s.mem.without p }

def Kernel.without (k : Kernel) (p : Word → Prop) [DecidablePred p] : Kernel :=
  { k with space := k.space.without p }

def Guest.without (g : Guest) (p : Word → Prop) [DecidablePred p] : Guest :=
  { g with kernel := g.kernel.without p }

/-- The host's answers do not depend on what lies at the addresses. -/
structure HostCalls.Blind (y : HostCalls) (p : Word → Prop) [DecidablePred p] : Prop where
  access : ∀ s path mode, y.access (s.without p) path mode = y.access s path mode
  faccessat : ∀ s fd path mode flags,
    y.faccessat (s.without p) fd path mode flags = y.faccessat s fd path mode flags
  fstat : ∀ s fd, y.fstat (s.without p) fd = y.fstat s fd
  write : ∀ s fd buf n, y.write (s.without p) fd buf n = y.write s fd buf n
  stale : ∀ s, y.stale (s.without p) = y.stale s

section

variable {h : Host} {y : HostCalls} {c : Setup} {s : Space} {r : MmapArgs} {k : Kernel}
  {nr : BitVec 32} {arg1 arg2 arg3 arg4 arg5 arg6 : Word} {p : Word → Prop} [DecidablePred p]

theorem mapPages_without {m : Memory} {base : Word} {len : Nat} {b : Backing} {prot : Prot}
    {offset : Nat} (hp : ∀ a, Span.Mem base len a → ¬ p a) :
    (m.without p).mapPages base len b prot offset = (m.mapPages base len b prot offset).without p := by
  funext a
  unfold Memory.mapPages Memory.without
  by_cases ha : Span.Mem base len a
  · simp only [if_pos ha, if_neg (hp a ha)]
  · simp only [if_neg ha]

theorem hostMmap_without (hp : ∀ a, Span.Mem (h2g c r.addr) (pageUp r.length.toNat) a → ¬ p a) :
    hostMmap h c (s.without p) r =
      ((hostMmap h c s r).1.without p, (hostMmap h c s r).2) := by
  unfold hostMmap
  cases h.backing? c r with
  | none => rfl
  | some b =>
      unfold Host.mmap
      by_cases hg : h.Accepts r ∧ h.grants s.calls
      · have hg' : h.Accepts r ∧ h.grants (s.without p).calls := hg
        simp only [if_pos hg, if_pos hg']
        simp only [Space.without, mapPages_without hp]
      · have hg' : ¬ (h.Accepts r ∧ h.grants (s.without p).calls) := hg
        simp only [if_neg hg, if_neg hg']
        rfl

theorem targetMmapAt_without (hp : ∀ a, Span.Mem r.addr (pageUp r.length.toNat) a → ¬ p a) :
    targetMmapAt h c (s.without p) r =
      ((targetMmapAt h c s r).1.without p, (targetMmapAt h c s r).2) := by
  unfold targetMmapAt
  rw [hostMmap_without (r := { r with addr := g2h c r.addr }) (by simpa only [h2g_g2h] using hp)]
  dsimp only
  split <;> rfl

theorem pageUp_hostPageAlign_le (x : Word) :
    pageUp (hostPageAlign x).toNat ≤ pageUp x.toNat := by
  by_cases hz : hostPageAlign x = 0
  · rw [hz]
    exact Nat.zero_le _
  · exact Nat.le_of_eq (pageUp_hostPageAlign hz).1

theorem mmapFindVma_without {addr length : Word}
    (hp : ∀ a, Span.Mem (s.place addr) (pageUp length.toNat) a → ¬ p a) :
    mmapFindVma h c (s.without p) addr length =
      ((mmapFindVma h c s addr length).1.without p, (mmapFindVma h c s addr length).2) := by
  have hplace : (s.without p).place addr = s.place addr := rfl
  have hnext : ∀ s : Space, (s.without p).mmapNextStart = s.mmapNextStart := fun _ => rfl
  have hhost := hostMmap_without (h := h) (c := c) (s := s) (p := p)
    (r := reservation c (s.place addr) length) fun a ha => hp a (by
      have hat : h2g c (reservation c (s.place addr) length).addr = s.place addr := h2g_g2h _ _
      rw [hat] at ha
      exact ha.mono (pageUp_hostPageAlign_le length))
  unfold mmapFindVma
  simp only [hplace, hhost, hnext]
  split
  · rfl
  · split <;> rfl

theorem targetMmap_without (hp : ∀ a, Span.Mem (r.placed s) (pageUp r.length.toNat) a → ¬ p a) :
    targetMmap h c (s.without p) r =
      ((targetMmap h c s r).1.without p, (targetMmap h c s r).2) := by
  unfold MmapArgs.placed at hp
  by_cases hf : r.flags &&& mapFixed = 0
  · rw [if_pos hf] at hp
    have hv := mmapFindVma_without (h := h) (c := c) hp
    unfold targetMmap
    simp only [if_pos hf, hv]
    rcases mmapFindVma_cases h c s r.addr r.length with ⟨hfail, _⟩ | ⟨hplace, _⟩
    · simp only [if_pos hfail]
    · rw [hplace]
      by_cases hp' : s.place r.addr = failed
      · simp only [if_pos hp']
      · simp only [if_neg hp']
        exact targetMmapAt_without hp
  · rw [if_neg hf] at hp
    rw [targetMmap_fixed hf, targetMmap_fixed hf, targetMmapAt_without hp]

/-- A call that does not write to the addresses is answered without them. -/
theorem doSyscall_without (hy : y.Blind p)
    (ht : ∀ a, k.Touches nr arg1 arg2 arg3 arg4 arg5 arg6 a → ¬ p a) :
    doSyscall h y c (k.without p) nr arg1 arg2 arg3 arg4 arg5 arg6 =
      (doSyscall h y c k nr arg1 arg2 arg3 arg4 arg5 arg6).map fun x => (x.1.without p, x.2) := by
  have hspace : (k.without p).space = k.space.without p := rfl
  unfold doSyscall
  by_cases h₁ : nr = TargetNr.faccessat
  · have hacc : hostFaccessat y c (k.space.without p) arg1 arg2 arg3 =
        hostFaccessat y c k.space arg1 arg2 arg3 := by
      unfold hostFaccessat
      rw [hy.access, hy.faccessat]
    rw [if_pos h₁, if_pos h₁, hspace, hacc]
    rfl
  rw [if_neg h₁, if_neg h₁]
  by_cases h₂ : nr = TargetNr.fstat
  · have hstore (st : Stat) : targetMemoryCopy (k.space.mem.without p) arg2 st.target =
        (targetMemoryCopy k.space.mem arg2 st.target).map (·.without p) := by
      refine Memory.storeBytes_without fun a ha => ht a (.inl ⟨h₂, ?_⟩)
      rwa [Stat.target_length] at ha
    have hmem : (k.space.without p).mem = k.space.mem.without p := rfl
    rw [if_pos h₂, if_pos h₂]
    unfold doFstat
    rw [hspace, hy.fstat, hy.stale, hmem]
    cases y.fstat k.space (arg1.setWidth 32) with
    | ok st =>
        simp only [hstore]
        cases targetMemoryCopy k.space.mem arg2 st.target <;> rfl
    | error e =>
        simp only [hstore]
        cases targetMemoryCopy k.space.mem arg2 (y.stale k.space).target <;> rfl
  rw [if_neg h₂, if_neg h₂]
  by_cases h₃ : nr = TargetNr.write
  · rw [if_pos h₃, if_pos h₃, hspace, hy.write]
    rfl
  rw [if_neg h₃, if_neg h₃]
  by_cases h₄ : nr = TargetNr.close
  · rw [if_pos h₄, if_pos h₄]
    rfl
  rw [if_neg h₄, if_neg h₄]
  by_cases h₅ : nr = TargetNr.exit
  · rw [if_pos h₅, if_pos h₅]
    rfl
  rw [if_neg h₅, if_neg h₅]
  by_cases h₆ : nr = TargetNr.brk
  · rw [if_pos h₆, if_pos h₆]
    rfl
  rw [if_neg h₆, if_neg h₆]
  by_cases h₇ : nr = TargetNr.mmap
  · rw [if_pos h₇, if_pos h₇, hspace, targetMmap_without fun a ha => ht a (.inr ⟨h₇, ha⟩)]
    rfl
  · rw [if_neg h₇, if_neg h₇]
    rfl

theorem ecall_without {g : Guest} (hy : y.Blind p) (ht : ∀ a, g.Touches a → ¬ p a) :
    (g.without p).ecall h y c = (g.ecall h y c).map (·.without p) := by
  have hs := doSyscall_without (h := h) (c := c) hy ht
  unfold Guest.ecall
  show (doSyscall h y c (g.kernel.without p) g.nr (g.arg 0) (g.arg 1) (g.arg 2) (g.arg 3) (g.arg 4)
    (g.arg 5) >>= _) = _
  rw [hs]
  cases doSyscall h y c g.kernel g.nr (g.arg 0) (g.arg 1) (g.arg 2) (g.arg 3) (g.arg 4)
    (g.arg 5) <;> rfl

theorem Guest.env_without (g : Guest) : (g.without p).env = g.env := rfl

theorem Guest.nr_without (g : Guest) : (g.without p).nr = g.nr := rfl

theorem guest_without (m : Machine) (next : Word) (calls : Nat) (brk : Brk) :
    (⟨(m.without p).env, ⟨⟨(m.without p).mem, next, calls⟩, brk⟩⟩ : Guest) =
      (⟨m.env, ⟨⟨m.mem, next, calls⟩, brk⟩⟩ : Guest).without p := rfl

/-- The call of `cpu_exec` for a guest, from a table. -/
theorem enter_without {g : Guest} {v : Vm} {cache : Cache}
    (hv : v = (⟨g.machine, cache, .start⟩ : Vm).without p) {cpu : Vm} (hc : cpu.cache = cache) :
    (⟨v, g.space.mmapNextStart, g.space.calls, g.kernel.brk⟩ : Loop Vm.executor) =
      Loop.enter (E := Vm.executor) cpu (g.without p) := by
  subst hv hc
  rfl

end

/-! ## What would disturb the loop -/

namespace Loop

variable {x : Binary} {h : Host} {y : HostCalls} {c : Setup} {s s' : Loop x.executor}

/-- Neither the next step of `cpu_exec` nor the system call that is answered next disturbs
the emulator. -/
structure KeepsOff (c : Setup) (s : Loop x.executor) : Prop where
  cpu : x.KeepsOff c s.cpu
  call : x.executor.returned s.cpu = true → s.machine.exception = .uEcall →
    ∀ a, s.guest.Touches a → ¬ InBuffer c a ∧ ¬ x.Own c a

/-- The next step meets neither the instruction buffer nor the emulator's own memory. -/
structure Apart (c : Setup) (s : Loop x.executor) : Prop where
  cpu : x.Apart c s.cpu
  call : x.executor.returned s.cpu = true → s.machine.exception = .uEcall →
    ∀ a, s.guest.Touches a → ¬ InBuffer c a ∧ ¬ x.Own c a

theorem Apart.keepsOff (ha : s.Apart c) : s.KeepsOff c := ⟨ha.cpu.keepsOff, ha.call⟩

theorem step_sound (hs : x.Sound c s.cpu) (hk : s.KeepsOff c) (h : s.step h y c = .ok s') :
    x.Sound c s'.cpu := by
  cases step_move h with
  | exec _ hc he =>
      subst he
      exact hs.step hk.cpu hc
  | @call hr hx g hg he =>
      subst he
      obtain ⟨ret, hans, _⟩ := Guest.ecall_answered hg
      exact hs.congr (hs.inv.call g.machine) rfl rfl fun a ha =>
        hans.frame fun ht => (hk.call hr hx a ht).1 ha

theorem run_sound {n : Nat} (hs : x.Sound c s.cpu)
    (hk : Run.Throughout (step h y c) (KeepsOff c) n s) (hr : s.run h y c n = .ok s') :
    x.Sound c s'.cpu := by
  have hstep : ∀ t t' : Loop x.executor, x.Sound c t.cpu → t.step h y c = .ok t' →
      t.KeepsOff c → x.Sound c t'.cpu := fun _ _ hs h hk => step_sound hs hk h
  have hsound := Run.invariant hstep hs hk.along hr
  exact hsound

/-! ## Without the buffer -/

/-- The state with the buffer unmapped. -/
def hide (c : Setup) (s : Loop x.executor) : Loop Vm.executor :=
  ⟨Vm.hide c s.cpu, s.mmapNextStart, s.calls, s.brk⟩

theorem machine_hide : (s.hide c).machine = s.machine.without (InBuffer c) :=
  Vm.m_hide (s := s.cpu)

theorem returned_hide : Vm.executor.returned (s.hide c).cpu = x.executor.returned s.cpu := by
  have hctl (cpu : Vm) : decide ((cpu.hide c).ctl = .returned) = decide (cpu.ctl = .returned) := by
    rw [Vm.ctl_hide]
  exact hctl s.cpu

theorem guest_hide : (s.hide c).guest = s.guest.without (InBuffer c) := by
  unfold guest kernel
  rw [machine_hide]
  exact guest_without s.machine s.mmapNextStart s.calls s.brk

theorem nr_hide : (s.hide c).guest.nr = s.guest.nr := by
  rw [guest_hide, Guest.nr_without]

theorem enter_hide (cpu : Vm) (g : Guest) :
    hide c (enter (E := x.executor) cpu g) =
      enter (E := Vm.executor) (Vm.hide c cpu) (g.without (InBuffer c)) := by
  have henter : hide c (enter (E := x.executor) cpu g) =
      ⟨Vm.hide c ⟨g.machine, cpu.cache, .start⟩, g.space.mmapNextStart, g.space.calls,
        g.kernel.brk⟩ := rfl
  exact henter.trans (enter_without Vm.hide_eq Vm.cache_hide)

/-- A guest that keeps clear of the buffer takes the steps of the loop without it. -/
theorem step_hide (hy : y.Blind (InBuffer c)) (hs : x.Sound c s.cpu) (ha : s.Apart c) :
    (s.step h y c).map (hide c) = (s.hide c).step h y c := by
  have hexc : (s.hide c).machine.exception = s.machine.exception := by
    rw [machine_hide, Machine.exception_without]
  unfold step
  rw [returned_hide, hexc, guest_hide]
  cases hr : x.executor.returned s.cpu with
  | true =>
      rw [if_pos rfl, if_pos rfl]
      cases hx : s.machine.exception with
      | uEcall =>
          simp only [ecall_without hy fun a ht => (ha.call hr hx a ht).1]
          cases s.guest.ecall h y c with
          | ok g => exact congrArg Except.ok (enter_hide s.cpu g)
          | error e => rfl
      | illegalInst => rfl
      | none => rfl
  | false =>
      rw [if_neg Bool.false_ne_true, if_neg Bool.false_ne_true]
      have hstep : (x.executor.step c s.cpu).map (Vm.hide c) = Vm.executor.step c (s.hide c).cpu :=
        Binary.step_hide hs ha.cpu
      rw [← hstep]
      cases x.executor.step c s.cpu <;> rfl

theorem run_hide {n : Nat} (hy : y.Blind (InBuffer c)) (hs : x.Sound c s.cpu)
    (ha : Run.Throughout (step h y c) (Apart c) n s) :
    (s.run h y c n).map (hide c) = (s.hide c).run h y c n := by
  have hstep : ∀ s : Loop x.executor, x.Sound c s.cpu → s.Apart c →
      (s.step h y c).map (hide c) = (s.hide c).step h y c := fun _ hs ha => step_hide hy hs ha
  have hany : Run.Along (step h y c) (fun _ _ => True) n s := ha.along.mono fun _ _ _ => trivial
  exact Run.run_map hstep (fun _ _ hs ha h _ => step_sound hs ha.keepsOff h) hs ha hany

end Loop

/-! ## Telling without the buffer -/

/-- Where the call in the registers of the guest may write. -/
def Guest.touched? (g : Guest) : Option (Word × Nat) :=
  if g.nr = TargetNr.fstat then some (g.arg 1, 128)
  else if g.nr = TargetNr.mmap then some (g.mmapArgs.placed g.space, pageUp (g.arg 1).toNat)
  else none

theorem Guest.touched_of_touches {g : Guest} {a : Word} (h : g.Touches a) :
    ∃ base n, g.touched? = some (base, n) ∧ Span.Mem base n a := by
  unfold touched?
  rcases h with ⟨hn, ha⟩ | ⟨hn, ha⟩
  · exact ⟨_, _, if_pos hn, ha⟩
  · rw [if_neg (by rw [hn]; decide), if_pos hn]
    exact ⟨_, _, rfl, ha⟩

/-- A range that has no byte of the buffer or of the emulator's own memory. -/
def Binary.Spares (x : Binary) (c : Setup) (r : Word × Nat) : Prop :=
  ∀ i < r.2, ¬ InBuffer c (r.1 + BitVec.ofNat 64 i) ∧ ¬ x.Own c (r.1 + BitVec.ofNat 64 i)

/-- A range between the code of the static binary and the buffer. -/
theorem Binary.static_spares {c : Setup} {r : Word × Nat} (hlo : 0x500000 ≤ (g2h c r.1).toNat)
    (hhi : (g2h c r.1).toNat + r.2 ≤ insnBufferMapStart.toNat) : Binary.static.Spares c r := by
  intro i hi
  have hmap : insnBufferMapStart.toNat = 0x500000000000 := rfl
  have hg : (g2h c (r.1 + BitVec.ofNat 64 i)).toNat = (g2h c r.1).toNat + i := by
    have hshift : g2h c (r.1 + BitVec.ofNat 64 i) = g2h c r.1 + BitVec.ofNat 64 i := by
      unfold g2h
      grind
    rw [hshift, BitVec.toNat_add, BitVec.toNat_ofNat]
    omega
  constructor
  · rw [inBuffer_iff, hg]
    omega
  · intro ho
    simp only [Binary.Own, Binary.static, Bool.and_eq_true, decide_eq_true_eq, BitVec.lt_def,
      hg] at ho
    exact absurd ho.2 (Nat.not_lt.mpr (Nat.le_trans hlo (Nat.le_add_right _ _)))

instance (c : Setup) (r : Word × Nat) : Decidable (Binary.static.Spares c r) :=
  if h : 0x500000 ≤ (g2h c r.1).toNat ∧ (g2h c r.1).toNat + r.2 ≤ insnBufferMapStart.toNat then
    .isTrue (Binary.static_spares h.1 h.2)
  else inferInstanceAs (Decidable (∀ i < r.2, _))

theorem touched?_without {p : Word → Prop} [DecidablePred p] (g : Guest) :
    (g.without p).touched? = g.touched? := rfl

/-- The loop over a table whose instructions are apart. -/
def Loop.startVm (g : Guest) : Loop Vm.executor :=
  ⟨.start g.cleared.machine, g.space.mmapNextStart, g.space.calls, g.kernel.brk⟩

theorem startVm_without {p : Word → Prop} [DecidablePred p] {v : Vm} {g : Guest}
    (hv : v = (Vm.start g.cleared.machine).without p) :
    (⟨v, g.space.mmapNextStart, g.space.calls, g.kernel.brk⟩ : Loop Vm.executor) =
      .startVm (g.without p) := by
  subst hv
  rfl

namespace Loop

theorem hide_start {x : Binary} {c : Setup} (g : Guest) :
    (start x g).hide c = .startVm (g.without (InBuffer c)) := by
  have hstart : (start x g).hide c = ⟨Vm.hide c (.start g.cleared.machine),
    g.space.mmapNextStart, g.space.calls, g.kernel.brk⟩ := rfl
  exact hstart.trans (startVm_without Vm.hide_eq)

/-- The condition on a state of the loop without the buffer, address by address. -/
def Clear (x : Binary) (c : Setup) (s : Loop Vm.executor) : Prop :=
  x.Clear c s.cpu ∧ (Vm.executor.returned s.cpu = true → s.machine.exception = .uEcall →
    ∀ r ∈ s.guest.touched?, x.Spares c r)

variable {x : Binary} {h : Host} {y : HostCalls} {c : Setup} {s s' : Loop x.executor}

instance : DecidablePred (Clear .static c) := fun _ => inferInstanceAs (Decidable (_ ∧ _))

theorem apart_of_clear (hs : x.Sound c s.cpu) (h : (s.hide c).Clear x c) : s.Apart c := by
  obtain ⟨hcpu, hcall⟩ := h
  have hcpu' : x.Clear c (Vm.without s.cpu (InBuffer c)) := by
    rw [← Vm.hide_eq]
    exact hcpu
  refine ⟨Binary.apart_of_clear (fun _ => Iff.rfl) hs hcpu', fun hr hx a ha => ?_⟩
  rw [returned_hide, machine_hide, Machine.exception_without, guest_hide, touched?_without] at hcall
  obtain ⟨base, n, ht, hmem⟩ := Guest.touched_of_touches ha
  obtain ⟨i, hi, rfl⟩ := Span.exists_offset hmem
  exact hcall hr hx (base, n) ht i hi

/-- A run that is clear without the buffer is one apart from it. -/
theorem throughout_of_clear {n : Nat} (hy : y.Blind (InBuffer c)) (hs : x.Sound c s.cpu)
    (hc : Run.Throughout (step h y c) (Clear x c) n (s.hide c)) :
    Run.Throughout (step h y c) (Apart c) n s := by
  have hstep : ∀ s : Loop x.executor, x.Sound c s.cpu → s.Apart c →
      (s.step h y c).map (hide c) = (s.hide c).step h y c := fun _ hs ha => step_hide hy hs ha
  exact Run.Throughout.of_map hstep (fun _ hs h => apart_of_clear hs h)
    (fun _ _ hs ha h => step_sound hs ha.keepsOff h) hs hc

/-- What holds of the states without the buffer tells of the states themselves. -/
theorem throughout_hide {n : Nat} {q : Loop Vm.executor → Prop} {p : Loop x.executor → Prop}
    (hy : y.Blind (InBuffer c)) (hs : x.Sound c s.cpu)
    (ha : Run.Throughout (step h y c) (Apart c) n s)
    (hq : ∀ s : Loop x.executor, x.Sound c s.cpu → s.Apart c → q (s.hide c) → p s)
    (hall : Run.Throughout (step h y c) q n (s.hide c)) :
    Run.Throughout (step h y c) p n s := by
  have hstep : ∀ s : Loop x.executor, x.Sound c s.cpu → s.Apart c →
      (s.step h y c).map (hide c) = (s.hide c).step h y c := fun _ hs ha => step_hide hy hs ha
  exact Run.Throughout.pull hstep (fun _ _ hs ha h => step_sound hs ha.keepsOff h) hq hs ha hall

theorem run_shows {α : Type} {f : Loop Vm.executor → α} {v : α} {n : Nat}
    (hy : y.Blind (InBuffer c)) (hs : x.Sound c s.cpu)
    (ha : Run.Throughout (step h y c) (Apart c) n s)
    (hv : ((s.hide c).run h y c n).toOption.map f = some v) :
    ∃ s', s.run h y c n = .ok s' ∧ f (s'.hide c) = v := by
  have hmap := run_hide hy hs ha
  cases ht : (s.hide c).run h y c n with
  | error e =>
      rw [ht] at hv
      cases hv
  | ok t =>
      rw [ht] at hv hmap
      obtain ⟨s', hr, rfl⟩ := map_eq_ok hmap
      exact ⟨s', hr, Option.some.inj hv⟩

end Loop

/-! ## A guest that counts, asks for its break and exits -/

namespace Caller

/-- `sw t0, 0x100(t2); addi t0, t0, 1; bne t0, t1, -8; addi a7, x0, 214; ecall; addi a7, x0, 93;
addi a0, x0, 0; ecall` -/
def code : List (BitVec 32) :=
  [0x1053a023, 0x00128293, 0xfe629ce3, 0x0d600893, 0x00000073, 0x05d00893, 0x00000513, 0x00000073]

/-- A page of code that is not writable, and a page of data. -/
def memory : Memory := fun a =>
  if a < 0x1000 then (Memory.ofWords code a).map fun b => { b with prot := ⟨true, false⟩ }
  else if a < 0x2000 then some ⟨0, true, true⟩
  else none

def guest : Guest :=
  let m := (((Machine.boot memory).setGpr 6 3).setGpr 7 0x1000).buffered .default
  ⟨m.env, ⟨⟨m.mem, taskUnmappedBase, 0⟩, targetSetBrk 0x2000⟩⟩

theorem fresh : FreshBuffer .default guest.space.mem := buffered_fresh _ _

theorem sound : Binary.static.Sound .default (Loop.start Binary.static guest).cpu := .start fresh

theorem blind (p : Word → Prop) [DecidablePred p] : Guest.noDescriptors.Blind p where
  access _ _ _ := rfl
  faccessat _ _ _ _ _ := rfl
  fstat _ _ := rfl
  write _ _ _ _ := rfl
  stale _ := rfl

theorem clear : Run.Throughout (Loop.step Layout.host47 Guest.noDescriptors .default)
    (Loop.Clear Binary.static .default) 23 ((Loop.start Binary.static guest).hide .default) := by
  decide +kernel

theorem apart : Run.Throughout (Loop.step Layout.host47 Guest.noDescriptors .default)
    (Loop.Apart .default) 23 (Loop.start Binary.static guest) :=
  Loop.throughout_of_clear (blind _) sound clear

theorem exits : ∃ s, (Loop.start Binary.static guest).run Layout.host47 Guest.noDescriptors
    .default 22 = .ok s ∧ s.guest.nr = TargetNr.exit := by
  have hend : (((Loop.start Binary.static guest).hide .default).run Layout.host47
      Guest.noDescriptors .default 22).toOption.map (fun t => t.guest.nr) = some TargetNr.exit := by
    decide +kernel
  obtain ⟨s, hr, hnr⟩ := Loop.run_shows (blind _) sound (apart.take (m := 22) (by decide)) hend
  rw [Loop.nr_hide] at hnr
  exact ⟨s, hr, hnr⟩

end Caller

end Rvvk
