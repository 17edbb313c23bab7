import Rvvk.Elf.Stack
import Rvvk.Main
import Rvvk.Mmap.Placement

/-!
# Allocations of the guest

What `mmap` hands out when it is left the choice, over whole runs of the emulator. The
pointer `mmap_next_start` starts above the stack and never goes back, whatever else the
guest does.
-/

namespace Rvvk

section

variable {h : Host} {y : HostCalls} {c : Setup}

/-- The pages of a request that is served at `mmap_next_start`. -/
def handed (h : Host) (c : Setup) (s : Space) (r : MmapArgs) : List Range :=
  if r.flags &&& mapFixed = 0 ∧ s.place r.addr = s.mmapNextStart ∧
      (targetMmap h c s r).2 ≠ failed then
    [⟨(targetMmap h c s r).2, pageUp r.length.toNat⟩]
  else []

theorem targetMmap_next (s : Space) {r : MmapArgs} (hf : r.flags &&& mapFixed = 0) :
    (targetMmap h c s r).1.mmapNextStart =
      (mmapFindVma h c s r.addr r.length).1.mmapNextStart := by
  by_cases hp : (mmapFindVma h c s r.addr r.length).2 = failed
  · rw [targetMmap_refused hf hp]
  · rw [targetMmap_settled hf rfl hp]
    exact targetMmapAt_mmapNextStart h c _ _

theorem targetMmap_next_le {s : Space} (ha : s.Anchored c) (r : MmapArgs) :
    s.mmapNextStart.toNat ≤ (targetMmap h c s r).1.mmapNextStart.toNat := by
  by_cases hf : r.flags &&& mapFixed = 0
  · rw [targetMmap_next s hf]
    rcases mmapFindVma_cases h c s r.addr r.length with ⟨_, hnext, _⟩ | ⟨_, hres⟩
    · exact Nat.le_of_eq (congrArg BitVec.toNat hnext).symm
    · have hnext := hres.next
      split at hnext
      · rename_i hmove
        have hfits := hres.fits
        rw [hmove.1] at hfits
        rw [hnext, (next_advance ha.host hres.size hfits).1]
        exact Nat.le_add_right _ _
      · exact Nat.le_of_eq (congrArg BitVec.toNat hnext).symm
  · rw [targetMmap_fixed hf, targetMmapAt_mmapNextStart]

theorem handed_between {s : Space} (ha : s.Anchored c) {r : MmapArgs} {q : Range}
    (hq : q ∈ handed h c s r) : q.addr = s.mmapNextStart ∧
      q.addr.toNat + q.size ≤ (targetMmap h c s r).1.mmapNextStart.toNat := by
  unfold handed at hq
  split at hq
  · rename_i hok
    obtain ⟨hf, hat, hne⟩ := hok
    obtain rfl := List.mem_singleton.mp hq
    have haddr := (freeMapped hf hne).addr
    have hres := (targetMmap_reserved hf hne).2
    rw [hat] at haddr hres
    have hnext := hres.next
    rw [if_pos ⟨rfl, ha.base⟩] at hnext
    rw [targetMmap_next s hf, hnext, (next_advance ha.host hres.size hres.fits).1]
    exact ⟨haddr, Nat.le_of_eq (congrArg (·.toNat + _) haddr)⟩
  · cases hq

variable {E : Executor}

/-- What a step of the loop hands out to the guest. -/
def allocated (h : Host) (c : Setup) (s : Loop E) : List Range :=
  if E.returned s.cpu ∧ s.machine.exception = .uEcall ∧ s.guest.nr = TargetNr.mmap then
    handed h c s.guest.space s.guest.mmapArgs
  else []

theorem handed_pairwise {s : Space} {r : MmapArgs} {R : Range → Range → Prop} :
    (handed h c s r).Pairwise R := by
  unfold handed
  split
  · exact List.pairwise_singleton _ _
  · exact List.Pairwise.nil

theorem allocated_pairwise {s : Loop E} {R : Range → Range → Prop} :
    (allocated h c s).Pairwise R := by
  unfold allocated
  split
  · exact handed_pairwise
  · exact List.Pairwise.nil

theorem allocated_exec {s : Loop E} (hr : E.returned s.cpu = false) :
    allocated h c s = [] := by
  unfold allocated
  rw [hr]
  exact if_neg fun hn => Bool.false_ne_true hn.1

/-- A step of the loop moves the pointer over what it hands out. -/
theorem allocated_between {s s' : Loop E} (ha : s.kernel.space.Anchored c)
    (hs : s.step h y c = .ok s') : s.mmapNextStart.toNat ≤ s'.mmapNextStart.toNat ∧
      ∀ q ∈ allocated h c s, q.addr = s.mmapNextStart ∧
        q.addr.toNat + q.size ≤ s'.mmapNextStart.toNat := by
  cases Loop.step_move hs with
  | exec hr _ he =>
      subst he
      rw [allocated_exec hr]
      exact ⟨Nat.le_refl _, fun q hq => (List.not_mem_nil hq).elim⟩
  | @call hr hx g hg he =>
      subst he
      obtain ⟨ret, hans, _⟩ := Guest.ecall_answered hg
      unfold allocated
      by_cases hn : s.guest.nr = TargetNr.mmap
      · have hspace : g.space = (targetMmap h c s.guest.space s.guest.mmapArgs).1 := by
          have hk := Except.ok.inj ((doSyscall_eq_ok.mpr hans).symm.trans
            (doSyscall_eq_ok.mpr (.mmap hn)))
          exact congrArg Kernel.space (Prod.mk.inj hk).1
        have hle := targetMmap_next_le (h := h) (s := s.guest.space) ha s.guest.mmapArgs
        have hb := fun q => handed_between (h := h) (s := s.guest.space) ha
          (r := s.guest.mmapArgs) (q := q)
        rw [← hspace] at hle hb
        rw [if_pos ⟨hr, hx, hn⟩]
        exact ⟨hle, hb⟩
      · rw [if_neg fun ha => hn ha.2.2]
        exact ⟨Nat.le_of_eq (congrArg BitVec.toNat (hans.next hn)).symm,
          fun q hq => (List.not_mem_nil hq).elim⟩

/-- Over an undisturbed run the ranges that are handed out follow each other. -/
theorem Loop.run_allocated {x : Binary} {g : Guest} {n : Nat} {s : Loop x.executor}
    (hg : Startable c g) (hk : Run.Throughout (step h y c) (KeepsOff c) n (start x g))
    (hr : (start x g).run h y c n = .ok s) :
    (∀ q ∈ Run.log (step h y c) (allocated h c) n (start x g),
      g.space.mmapNextStart.toNat ≤ q.addr.toNat ∧
        q.addr.toNat + q.size ≤ s.mmapNextStart.toNat) ∧
    (Run.log (step h y c) (allocated h c) n (start x g)).Pairwise fun p q =>
      p.addr.toNat + p.size ≤ q.addr.toNat := by
  have hstep : ∀ t t' : Loop x.executor, Inv c t → t.step h y c = .ok t' → t.KeepsOff c →
      Inv c t' ∧ t.mmapNextStart.toNat ≤ t'.mmapNextStart.toNat ∧
        (∀ q ∈ allocated h c t, t.mmapNextStart.toNat ≤ q.addr.toNat ∧
          q.addr.toNat + q.size ≤ t'.mmapNextStart.toNat) ∧
        (allocated h c t).Pairwise fun p q => p.addr.toNat + p.size ≤ q.addr.toNat := by
    intro t t' hi hs hk
    obtain ⟨hle, hq⟩ := allocated_between hi.anchored hs
    refine ⟨(hi.step hk hs).1, hle, fun q hm => ?_, allocated_pairwise⟩
    exact ⟨Nat.le_of_eq (congrArg BitVec.toNat (hq q hm).1).symm, (hq q hm).2⟩
  exact (Run.log_ascending hstep (.start hg) hk.along hr).2

/-! ## Above the stack -/

theorem mapStack_between {s s' : Space} {execStack : BitVec 32} {limit : Word}
    (hm : mapStack h c s execStack = .ok (s', limit)) (ha : s.Anchored c) :
    s.mmapNextStart.toNat + pageUp (c.guestStackSize + guard).toNat ≤ s'.mmapNextStart.toNat := by
  obtain ⟨⟨s₁, addr⟩, h₁, hm⟩ := bind_eq_ok hm
  obtain ⟨hne, hr⟩ := granted_eq_ok h₁
  have hq : (⟨(targetMmap h c s (stackArgs c execStack)).2,
      pageUp (stackArgs c execStack).length.toNat⟩ : Range) ∈
        handed h c s (stackArgs c execStack) := by
    unfold handed
    rw [if_pos ⟨stackArgs_not_fixed c execStack, rfl, hne⟩]
    exact List.mem_singleton_self _
  obtain ⟨haddr, hle⟩ := handed_between ha hq
  rw [haddr, ← show s₁ = _ from congrArg Prod.fst hr] at hle
  have hnext : s'.mmapNextStart = s₁.mmapNextStart := by
    dsimp only at hm
    split at hm
    · cases hm
      unfold targetMprotect Host.mprotect
      dsimp only
      split <;> rfl
    · cases hm
  rw [hnext]
  exact hle

end

section

variable {e : Environment} {name : CString} {words envp front rest : List CString} {prog : CString}
  {l : Loaded}

/-- The stack with its guard page, as it is mapped. -/
def Loaded.stackRange (l : Loaded) : Range :=
  ⟨l.info.stackLimit - guard, pageUp (l.settings.guestStackSize + guard).toNat⟩

theorem Loads.stack_below (hl : Loads e words envp front rest prog l) :
    l.stackRange.addr.toNat + l.stackRange.size ≤ l.space.mmapNextStart.toNat := by
  obtain ⟨s₀, s₁, s₂, s₃, s₄, loadAddr, heapAddr, stackLimit, p, info, st⟩ :=
    loadElfBinary_stages (elfLoad_ok hl.load).1
  have ha := st.anchored ((Space.start_anchored l.settings.toSetup).congr rfl)
  have hlimit := (mapStack_ok st.stack).limit
  have haddr : l.stackRange.addr = s₃.mmapNextStart := by
    show l.info.stackLimit - guard = _
    rw [st.result, hlimit]
    exact BitVec.add_sub_cancel _ _
  rw [haddr, makeTables_next st.tables]
  exact mapStack_between st.stack ha

/-- In every run that does not disturb the emulator: the ranges that `mmap` hands out where
it is left the choice lie above the stack, each above the ones before it. -/
theorem emulate_allocated {n : Nat} {s : Loop e.binary.executor}
    (hk : Undisturbed e (name :: words) envp n) (hr : emulate e (name :: words) envp n = .ok s) :
    ∃ front rest prog l, Loads e words envp front rest prog l ∧
      (l.stackRange :: Run.log (Loop.step e.host e.calls l.settings.toSetup)
        (allocated e.host l.settings.toSetup) n (.start e.binary (l.started e))).Pairwise
          fun p q => p.addr.toNat + p.size ≤ q.addr.toNat := by
  obtain ⟨c, g, hm, hr⟩ := emulate_eq_ok.mp hr
  have hthrough := hk c g hm
  obtain ⟨front, rest, prog, l, hl, rfl, hd, rfl⟩ := main_eq_ok hm
  have hnext : (l.started e).space.mmapNextStart = l.space.mmapNextStart :=
    allocInsnBuffer_next _ _ _
  obtain ⟨habove, hpair⟩ := Loop.run_allocated (hl.startable hd) hthrough hr
  refine ⟨front, rest, prog, l, hl, List.pairwise_cons.mpr ⟨fun q hq => ?_, hpair⟩⟩
  have hstack := hl.stack_below
  rw [← hnext] at hstack
  exact Nat.le_trans hstack (habove q hq).1

end

/-- The guest that allocates twice, when it is about to exit. -/
theorem twoPages_allocated : ∃ s front rest prog l, emulate twoPages [rvvk, pathA] [] 29 = .ok s ∧
    s.guest.nr = TargetNr.exit ∧ Loads twoPages [pathA] [] front rest prog l ∧
    (l.stackRange :: Run.log (Loop.step twoPages.host twoPages.calls l.settings.toSetup)
      (allocated twoPages.host l.settings.toSetup) 29
        (.start twoPages.binary (l.started twoPages))).Pairwise
          fun p q => p.addr.toNat + p.size ≤ q.addr.toNat := by
  obtain ⟨c, g, hm, _, ⟨s, hr, hnr⟩, _⟩ := twoPages_exits
  have hs : emulate twoPages [rvvk, pathA] [] 29 = .ok s := emulate_eq_ok.mpr ⟨c, g, hm, hr⟩
  obtain ⟨front, rest, prog, l, hl, hp⟩ := emulate_allocated (twoPages_undisturbed 29) hs
  exact ⟨s, front, rest, prog, l, hs, hnr, hl, hp⟩

example : (main twoPages [rvvk, pathA] []).toOption.any (fun x =>
    Run.log (Loop.step twoPages.host twoPages.calls x.1) (allocated twoPages.host x.1) 29
      (.startVm (x.2.without (InBuffer x.1))) ==
        [⟨0x4000801000, 4096⟩, ⟨0x4000802000, 4096⟩]) = true := by decide +kernel

end Rvvk
