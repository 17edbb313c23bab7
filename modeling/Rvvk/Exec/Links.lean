import Rvvk.Exec.Coherence

/-!
# Links lead to the block for the current pc

`block_exec` compares `env->pc` with the first link of a block only, and takes the
second on trust. The invariant of the table is what it may trust: a link is set
behind a block that raises nothing, and where such a block ends is fixed by its
last instruction. A guest that stores over the record of that instruction breaks it.
-/

namespace Rvvk

namespace Vm

/-- The links of the table lead to blocks for the pcs recorded beside them. -/
def Linked (s : Vm) : Prop :=
  ∀ (p : Ptr) b, s.cache.heap[p]? = some b → ∀ link ∈ [b.jmpNext0, b.jmpNext1], ∀ q,
    link.blk = some q → s.cache.pcOf q = some link.pc

theorem Inv.linked {s : Vm} (h : s.Inv) : s.Linked := by
  intro p b hb link hl q hq
  have hok := h.cache.links b (List.mem_of_getElem? hb)
  rcases List.mem_cons.mp hl with rfl | hl
  · exact (hok.link0 q hq).1
  · obtain rfl := List.mem_singleton.mp hl
    exact (hok.link1 q hq).1

end Vm

/-- In every run that does not disturb the emulator, every link leads to a block for its pc,
and every block that starts to run, found by a lookup or chosen behind another block, is the
block for `env->pc`. -/
theorem links_lead_to_pc {x : Binary} {c : Setup} {s : Vm} (h : x.AnyReach c s) :
    s.Linked ∧ s.AtPc := by
  have hs : x.Sound c s := h.sound fun _ _ hk => hk
  exact ⟨hs.inv.linked, hs.inv.atPc⟩

/-- The loop of the guest that counts to three, entered by its link to itself. -/
theorem counter_linked : ∃ s,
    Binary.static.run .default 9 (.start (Counter.machine 0x00000073)) = .ok s ∧
      (s.cache.heap[0]?).map Block.jmpNext0 = some ⟨0, some 0⟩ ∧ s.ctl = .body 0 0 ∧
      s.Linked ∧ s.AtPc := by
  have hapart := Counter.apart.take (m := 9) (by decide)
  have hend : (((Vm.start (Counter.machine 0x00000073)).hide .default).run 9).toOption.map
      (fun s => ((s.cache.heap[0]?).map Block.jmpNext0, s.ctl)) =
        some (some ⟨0, some 0⟩, .body 0 0) := by decide +kernel
  obtain ⟨s, hr, -, hv⟩ := Binary.run_shows (Counter.sound _) hapart hend
  obtain ⟨hlink, hctl⟩ := Prod.mk.inj hv
  rw [Vm.cache_hide] at hlink
  rw [Vm.ctl_hide] at hctl
  have hreach : Binary.static.AnyReach .default s := Binary.Reach.run
    (.start _ trivial (Counter.fresh _)) (hapart.mono fun _ h => h.keepsOff).along hr
  exact ⟨s, hr, hlink, hctl, links_lead_to_pc hreach⟩

/-- `sw t1, 44(t2); bne t0, x0, 8; addi t0, x0, 1; j -12` at address 0. The store goes to the
immediate of the record of the branch. -/
def Diverter.machine : Machine :=
  ((Machine.ofWords [0x0263a623, 0x00029463, 0x00100293, 0xff5ff06f]).setGpr 6 16).setGpr 7
    (h2g .default insnBufferMapStart)

/-- Behind the branch, which is taken with the new immediate, the second link is followed to
the block for 8 while `env->pc` is 20. -/
theorem diverted_link :
    (Binary.static.run .default 10 (.start Diverter.machine)).toOption.map
      (fun s => (s.ctl, s.cache.pcOf 1, s.m.pc)) = some (.body 1 0, some 8, 20) := by
  decide +kernel

end Rvvk
