import Rvvk.Isa.Process

/-!
# The loop goes on with its process

Between two events of the process the loop takes at most three silent steps: out of an
exception, into a block or over a link. It does not spin on its table.
-/

namespace Rvvk.Isa

/-- How many silent steps are left before the next event, at most. -/
def wait (s : Loop Vm.executor) : Nat :=
  match Vm.ctl s.cpu with
  | .returned => 0
  | .start => 3
  | .body _ _ =>
      match Vm.insn? s.cpu with
      -- behind an exception the block ends and `cpu_exec` returns
      | some insn => if insn.raises then 2 else 0
      | none => if s.machine.exception = .none then 3 else 1

section

variable {s : Loop Vm.executor} {insn : Insn} {q : Ptr} {i : Nat}

theorem wait_returned (hc : Vm.ctl s.cpu = .returned) : wait s = 0 := by
  unfold wait
  rw [hc]

theorem wait_start (hc : Vm.ctl s.cpu = .start) : wait s = 3 := by
  unfold wait
  rw [hc]

theorem wait_insn (hc : Vm.ctl s.cpu = .body q i) (hx : Vm.insn? s.cpu = some insn) :
    wait s = if insn.raises then 2 else 0 := by
  unfold wait
  rw [hc, hx]

theorem wait_end (hc : Vm.ctl s.cpu = .body q i) (hx : Vm.insn? s.cpu = none) :
    wait s = if s.machine.exception = .none then 3 else 1 := by
  unfold wait
  rw [hc, hx]

theorem wait_le : wait s ≤ 3 := by
  unfold wait
  split
  · omega
  · omega
  · split <;> split <;> omega

theorem wait_zero (hi : Vm.Inv s.cpu) (hc : Vm.ctl s.cpu = .body q 0) : wait s ≤ 2 := by
  obtain ⟨b, hb, _⟩ := hi.body q 0 hc
  have hpos := (hi.cache.translated b (List.mem_of_getElem? hb)).length_pos
  have hx : Vm.insn? s.cpu = some b.insns[0] := by
    simp only [Vm.insn?, hc, hb, Option.bind_some]
    exact List.getElem?_eq_getElem hpos
  rw [wait_insn hc hx]
  split <;> omega

/-- A turn of the loop of `cpu_exec` returns at once or is before an instruction. -/
theorem wait_enter {prev : Option Ptr} {cpu cpu' : Vm} (s' : Loop Vm.executor)
    (hi : Vm.Inv s'.cpu) (hs : s'.cpu = cpu') (he : Vm.enter prev cpu.m cpu.cache = .ok cpu') :
    wait s' + 1 ≤ if cpu.m.exception = .none then 3 else 1 := by
  rcases Vm.enter_cases he with ⟨hx, hcpu⟩ | ⟨hx, c, q, _, hcpu⟩
  · rw [if_neg hx, wait_returned (by rw [hs, hcpu])]
  · rw [if_pos hx]
    have hle : wait s' ≤ 2 := wait_zero hi (q := q) (by rw [hs, hcpu])
    omega

end

section

variable {h : Host} {y : HostCalls} {c : Setup} {p : Process} {s s' : Loop Vm.executor}

/-- Behind a handler that raises an exception the block is at its end. -/
theorem wait_raised (hcov : p.core.Covered) (hi : Ready s) (hp : p.Shown s) {cpu : Vm}
    (hs : Vm.step s.cpu = .ok cpu) (hg : Whole s.cpu cpu) {insn : Insn}
    (hin : Vm.insn? s.cpu = some insn) (hra : insn.raises = true) {q : Ptr} {i : Nat}
    (hc : cpu.ctl = .body q i) : wait { s with cpu := cpu } = 1 := by
  rcases hp.core with hsh | htr
  · have hknown := (flat_of_whole hi.vm hi.current hcov hsh hg).known
    have hne : cpu.m.exception ≠ .none := fun hn => by
      have hno := ((raises_iff hs hin).mp hn).2
      rw [hra] at hno
      cases hno
    have hend := insn?_of_raised hi.vm hknown hs hin hsh.exception hne
    exact (wait_end hc hend).trans (if_neg hne)
  · cases htr.1.symm.trans hin

theorem wait_exec (hcov : p.core.Covered) (hi : Ready s) (hp : p.Shown s)
    (hr : Vm.executor.returned s.cpu = false) {cpu : Vm} (hs : Vm.step s.cpu = .ok cpu)
    (hg : Whole s.cpu cpu) :
    wait { s with cpu := cpu } + 1 ≤ wait s + 4 * (events h y c s).length := by
  have hvm : Vm.Inv cpu := hi.vm.step hs
  cases Vm.step_move hs with
  | returned hc _ =>
      rw [returned_iff.mpr hc] at hr
      cases hr
  | call hc he =>
      have hle := wait_enter { s with cpu := cpu } hvm rfl he
      rw [wait_start hc]
      split at hle <;> omega
  | @chain q i b next hc hb hi' hn he =>
      obtain ⟨b', hb', ha⟩ := hi.vm.body q i hc
      cases hb.symm.trans hb'
      have hx : s.machine.exception = .none :=
        (Vm.jmpNext_spec hi.vm.cache hb ha hi' hn).1
      have hend : Vm.insn? s.cpu = none := by
        simp only [Vm.insn?, hc, hb, Option.bind_some, hi']
      have hle : wait { s with cpu := cpu } ≤ 2 := wait_zero hvm (q := next) (by rw [he])
      rw [wait_end hc hend, if_pos hx]
      omega
  | @reenter q i b hc hb hi' _ he =>
      have hend : Vm.insn? s.cpu = none := by
        simp only [Vm.insn?, hc, hb, Option.bind_some, hi']
      have hle := wait_enter { s with cpu := cpu } hvm rfl he
      rw [wait_end hc hend]
      exact Nat.le_trans hle (Nat.le_add_right _ _)
  | @exec q i b insn m hc hb hi' hx he =>
      have hin : Vm.insn? s.cpu = some insn := by
        simp only [Vm.insn?, hc, hb, Option.bind_some, hi']
      rw [wait_insn hc hin, events_exec hr, hin]
      cases hra : insn.raises with
      | false =>
          have hle : wait { s with cpu := cpu } ≤ 3 := wait_le
          simp only [hra, Bool.false_eq_true, if_false, List.length_singleton]
          omega
      | true =>
          have hw := wait_raised hcov hi hp hs hg hin hra (q := q) (i := i + 1) (by rw [he])
          simp only [hw, hra, if_true]
          exact Nat.le_refl _

theorem wait_step (hcov : p.core.Covered) (hi : Ready s) (hp : p.Shown s)
    (hs : s.step h y c = .ok s') (hg : WholeLoop s s') :
    wait s' + 1 ≤ wait s + 4 * (events h y c s).length := by
  cases Loop.step_move hs with
  | exec hr hc he =>
      subst he
      exact wait_exec hcov hi hp hr hc hg
  | call hr hx hg' he =>
      have hle : wait s' ≤ 3 := wait_le
      rw [events_call hr hx hg', List.length_singleton]
      omega

/-- The loop is at a state that the process shows, wherever the process has been led. -/
def Led (h : Host) (y : HostCalls) (c : Setup) (p₀ : Process) (s : Loop Vm.executor) : Prop :=
  Ready s ∧ ∃ es p, Feed.Reaches (Process.Step h y c) p₀ es p ∧ p.Shown s

theorem Led.step {p₀ : Process}
    (hcov : ∀ es p, Feed.Reaches (Process.Step h y c) p₀ es p → p.core.Covered)
    (hl : Led h y c p₀ s) (hs : s.step h y c = .ok s') (hg : WholeLoop s s') :
    Led h y c p₀ s' ∧ wait s' + 1 ≤ wait s + 4 * (events h y c s).length := by
  obtain ⟨hi, es, p, hr, hp⟩ := hl
  have hc := hcov es p hr
  refine ⟨⟨hi.step hs hg, ?_⟩, wait_step hc hi hp hs hg⟩
  rcases Process.shown_step hc hi hp hs hg with ⟨_, hp'⟩ | ⟨e, p', _, hstep, hp'⟩
  · exact ⟨es, p, hr, hp'⟩
  · exact ⟨es ++ [e], p', hr.append (.cons hstep (.nil p')), hp'⟩

/-- The loop over its table shows an event in any four steps. -/
theorem vm_progresses {g : Guest} {m n : Nat} (h0 : g.env.gpr 0 = 0) (hco : Coherent g.env)
    (hcov : ∀ es p, Feed.Reaches (Process.Step h y c) (.ofGuest g h0) es p → p.core.Covered)
    (hg : Run.Along (Loop.step h y c) WholeLoop (m + n) (.startVm g))
    (hm : (Loop.startVm g).run h y c m = .ok s) (hn : s.run h y c n = .ok s') :
    n ≤ 3 + 4 * (Run.log (Loop.step h y c) (events h y c) n s).length := by
  have hstart : Led h y c (.ofGuest g h0) (Loop.startVm g) :=
    ⟨.start g, [], _, .nil _, shown_start h0 hco⟩
  have hstep : ∀ t t' : Loop Vm.executor, Led h y c (.ofGuest g h0) t → t.step h y c = .ok t' →
      WholeLoop t t' → Led h y c (.ofGuest g h0) t' ∧
        wait t' + 1 ≤ wait t + 4 * (events h y c t).length :=
    fun _ _ hl hs hg => hl.step hcov hs hg
  have hled := Run.invariant (fun t t' hl hs hg => (hstep t t' hl hs hg).1) hstart
    (hg.take (Nat.le_add_right m n)) hm
  have hpace := Run.paced hstep hled (hg.drop hm) hn
  have hw : wait s ≤ 3 := wait_le
  omega

end

/-- Wherever an undisturbed loop has come, any four steps of it that follow show an event of
the process: a loop that runs on without end is a process that runs on without end. -/
theorem process_progresses {x : Binary} {h : Host} {y : HostCalls} {c : Setup} {g : Guest}
    {s s' : Loop x.executor} {m n : Nat} (hy : y.Blind (InBuffer c))
    (hb : FreshBuffer c g.space.mem) (h0 : (g.without (InBuffer c)).env.gpr 0 = 0)
    (hco : Coherent g.env)
    (hcov : ∀ es p, Feed.Reaches (Process.Step h y c) (.ofGuest (g.without (InBuffer c)) h0) es p →
      p.core.Covered)
    (ha : Run.Throughout (Loop.step h y c) (Loop.Apart c) (m + n) (.start x g))
    (hg : Run.Along (Loop.step h y c) (fun s s' => WholeLoop (s.hide c) (s'.hide c)) (m + n)
      (.start x g))
    (hm : (Loop.start x g).run h y c m = .ok s) (hn : s.run h y c n = .ok s') :
    n ≤ 3 + 4 * (Run.log (Loop.step h y c) (fun s => events h y c (s.hide c)) n s).length := by
  have hs : x.Sound c (Loop.start x g).cpu := .start hb
  have hgood := along_hide hy hs ha hg
  have hco' : Coherent (g.without (InBuffer c)).env := by rwa [Guest.env_without]
  rw [Loop.hide_start] at hgood
  have hrest := ha.drop hm
  have ha' := ha.take (Nat.le_add_right m n)
  have hsound := Loop.run_sound hs (ha'.mono fun _ h => h.keepsOff) hm
  have hn' : (s.hide c).run h y c n = .ok (s'.hide c) := by
    rw [← Loop.run_hide hy hsound hrest, hn]
    rfl
  have hpace := vm_progresses h0 hco' hcov hgood (run_hidden hy hb ha' hm) hn'
  rwa [log_hide hy hsound hrest] at hpace

/-- The guest that counts, asks for its break and exits, from its tenth step on. -/
theorem caller_progresses : ∃ s s', (Loop.start Binary.static Rvvk.Caller.guest).run Layout.host47
      Guest.noDescriptors .default 10 = .ok s ∧
    s.run Layout.host47 Guest.noDescriptors .default 12 = .ok s' ∧
    12 ≤ 3 + 4 * (Run.log (Loop.step Layout.host47 Guest.noDescriptors .default)
      (fun s => events Layout.host47 Guest.noDescriptors .default (s.hide .default)) 12 s).length := by
  obtain ⟨s', hr, _⟩ := Rvvk.Caller.exits
  obtain ⟨s, hm, hn⟩ := Run.run_split (m := 10) (n := 12) hr
  exact ⟨s, s', hm, hn, process_progresses (Rvvk.Caller.blind _) Rvvk.Caller.fresh rfl
    (Cleared.coherent ⟨rfl, rfl, rfl, rfl, rfl, rfl⟩) (fun _ _ h => Caller.covered h)
    (Rvvk.Caller.apart.take (m := 22) (by decide)) Caller.whole hm hn⟩

end Rvvk.Isa
