import Rvvk.Exec.Hidden
import Rvvk.Exec.Plain

/-!
# Translating once is as good as translating each time

The emulator looks blocks up and follows links, with its instructions in memory. As long as
the guest keeps clear of that memory and translated code is not changed, it does what an
executor does that translates a fresh block each time.
-/

namespace Rvvk

namespace Binary

variable {x : Binary} {c : Setup} {s s' : Vm}

/-- The guest keeps clear of the emulator's memory, and translated code is not changed. -/
structure Steady (x : Binary) (c : Setup) (s s' : Vm) : Prop where
  apart : x.Apart c s
  keeps : (s.hide c).KeepsCode (s'.hide c)

theorem Sound.step_current (hs : x.Sound c s) (hcur : (s.hide c).Current)
    (h : x.step c s = .ok s') (hg : x.Steady c s s') : (s'.hide c).Current := by
  have hstep : (s.hide c).step = .ok (s'.hide c) := by
    rw [← step_hide hs hg.apart, h]
    rfl
  exact hcur.step hs.inv.hide hstep hg.keeps

theorem Reach.current {init : Machine → Prop} {good : Vm → Vm → Prop}
    (hg : ∀ s s', good s s' → x.Steady c s s') (h : x.Reach c init good s) :
    (s.hide c).Current := by
  induction h with
  | start m _ _ =>
      rw [Vm.hide_start]
      exact .start _
  | step h hs hk ih =>
      exact (h.sound fun _ _ hk => (hg _ _ hk).apart.keepsOff).step_current ih hs (hg _ _ hk)
  | call _ _ m _ _ hk ih => exact ih.of_keepsCode (hg _ _ hk).keeps (by simp)

theorem Sound.along_hide {good : Vm → Vm → Prop} {n : Nat} (hs : x.Sound c s)
    (ha : Run.Throughout (x.step c) (x.Apart c) n s)
    (hg : Run.Along (x.step c) (fun s s' => good (s.hide c) (s'.hide c)) n s) :
    Run.Along Vm.step good n (s.hide c) :=
  Run.Along.map (fun _ hs ha => step_hide hs ha) (fun _ _ hs ha h => hs.step ha.keepsOff h) hs ha hg

theorem Sound.along_of_hide {good : Vm → Vm → Prop} {n : Nat} (hs : x.Sound c s)
    (ha : Run.Throughout (x.step c) (x.Apart c) n s)
    (hg : Run.Along Vm.step good n (s.hide c)) :
    Run.Along (x.step c) (fun s s' => good (s.hide c) (s'.hide c)) n s :=
  Run.Along.of_map (fun _ hs ha => step_hide hs ha) (fun _ _ hs ha h _ => hs.step ha.keepsOff h)
    hs ha hg

/-- From every state that a steady history of calls has led to, the cached executor and the
plain one pass through the same machines and blocks, stop alike and fail alike, as long as
the run stays steady. -/
theorem run_view (h : x.Reach c (fun _ => True) (x.Steady c) s) (n : Nat)
    (ha : Run.Throughout (x.step c) (x.Apart c) n s)
    (hk : Run.Along (x.step c) (fun s s' => (s.hide c).KeepsCode (s'.hide c)) n s) :
    (x.run c n s).map (fun t => (t.hide c).view) = Plain.run n (s.hide c).view := by
  have hs : x.Sound c s := h.sound fun _ _ hg => hg.apart.keepsOff
  have hplain := Vm.run_plain hs.inv.hide (h.current fun _ _ hg => hg) (hs.along_hide ha hk)
  rw [← hplain, ← run_hide hs ha]
  cases x.run c n s <;> simp only [Except.map]

end Binary

theorem Counter.keeps : Run.Along Vm.step Vm.KeepsCode 15
    (Vm.hide .default (.start (machine 0x00000073))) := by
  decide +kernel

/-- The guest that counts to three, up to its system call. -/
theorem counter_view :
    (Binary.static.run .default 15 (.start (Counter.machine 0x00000073))).map
        (fun t => (t.hide .default).view) =
      Plain.run 15 ((Vm.start (Counter.machine 0x00000073)).hide .default).view :=
  Binary.run_view (.start _ trivial (Counter.fresh _)) 15 Counter.apart
    ((Counter.sound _).along_of_hide Counter.apart Counter.keeps)

/-- `sw t1, 44(t2); addi t0, x0, 1; ecall` at address 0. The store goes to the immediate of
the record of the `addi`. -/
def Overwriter.machine : Machine :=
  ((Machine.ofWords [0x0263a623, 0x00100293, 0x00000073]).setGpr 6 5).setGpr 7
    (h2g .default insnBufferMapStart)

/-- The cached run leaves 5 in `t0` and the plain one 1, while the code stays what it is. -/
theorem overwriter_not_transparent :
    ((Binary.static.run .default 3 (.start Overwriter.machine)).toOption.map
        fun s => (s.m.pc, s.m.gpr 5)) = some (0, 5) ∧
      ((Plain.run 3 ⟨Overwriter.machine, .start⟩).toOption.map
        fun s => (s.m.pc, s.m.gpr 5)) = some (0, 1) ∧
      Run.Along (Binary.static.step .default) Vm.KeepsCode 3 (.start Overwriter.machine) := by
  refine ⟨?_, ?_, ?_⟩
  all_goals decide +kernel

end Rvvk
