import Rvvk.Exec.Hidden

/-!
# Register x0

`block_exec` asserts after every handler that `gpr[0]` is 0. The decoder drops
most instructions with `rd = x0`, jumps do not link to `x0`, and a store
conditional writes 0. The other handlers write `gpr[rd]` whatever `rd` is, so the
assertion holds exactly when what they write to `x0` happens to be 0.
-/

namespace Rvvk

/-- What a handler that does not look at `rd` writes to `gpr[rd]`, for the handlers
that the decoder keeps when `rd` is `x0`. -/
def Insn.blindValue (insn : Insn) (m : Machine) : Option Word :=
  match insn.op with
  | .auipc => some (insn.pc + insn.immLong)
  | .lui => some insn.immLong
  | .csr _ _ => readCsr m.env insn.csr
  | .lrW | .amoW _ | .amoSelW _ =>
      (cpuLduw m.mem (m.gpr insn.rs1) 0).toOption.map fun v => v.signExtend 64
  | .lrD | .amoD _ | .amoSelD _ => (cpuLdud m.mem (m.gpr insn.rs1) 0).toOption
  | _ => none

/-- The handler is about to write something other than 0 to `x0`. -/
def Insn.DirtiesX0 (insn : Insn) (m : Machine) : Prop :=
  insn.rd = 0 ∧ ∃ v, insn.blindValue m = some v ∧ v ≠ 0

/-! ## One handler -/

variable {insn : Insn} {m m' : Machine}

theorem gpr_zero_setGpr (h0 : m.gpr 0 = 0) (rd : Reg) (v : Word) :
    (m.setGpr rd v).gpr 0 = 0 ↔ ¬ (rd = 0 ∧ v ≠ 0) := by
  rw [Machine.gpr_setGpr]
  by_cases hr : rd = 0
  · subst hr
    simp
  · rw [if_neg (Ne.symm hr)]
    exact iff_of_true h0 fun hc => hr hc.1

/-- A handler that writes `v` to `gpr[rd]` without looking at `rd`, after what else it does. -/
theorem gpr_zero_blind {m₁ : Machine} (h0 : m₁.gpr 0 = 0) {v : Word}
    (hv : insn.blindValue m = some v) :
    (m₁.setGpr insn.rd v).gpr 0 = 0 ↔ ¬ insn.DirtiesX0 m := by
  rw [gpr_zero_setGpr h0, Insn.DirtiesX0, hv]
  simp

/-- A handler that leaves `x0` alone. -/
theorem gpr_zero_kept (hk : m'.gpr 0 = 0) (hv : insn.rd = 0 → insn.blindValue m = none) :
    m'.gpr 0 = 0 ↔ ¬ insn.DirtiesX0 m := by
  refine iff_of_true hk ?_
  rintro ⟨hr, v, hs, _⟩
  rw [hv hr] at hs
  cases hs

theorem gpr_zero_link (size : Word) (h0 : m.gpr 0 = 0) : (link size insn m).gpr 0 = 0 := by
  unfold link
  split
  · rename_i hr
    rw [Machine.gpr_setGpr, if_neg (Ne.symm hr), h0]
  · exact h0

/-- After a handler, `x0` is still 0 unless the handler dirties it. -/
theorem Insn.gpr_zero (h0 : m.gpr 0 = 0) (hx : insn.op.dropsX0 = true → insn.rd ≠ 0)
    (h : insn.run m = .ok m') : m'.gpr 0 = 0 ↔ ¬ insn.DirtiesX0 m := by
  have hr : insn.op.run insn m = .ok m' := h
  have hsetMem : ∀ mem, (m.setMem mem).gpr 0 = 0 := fun _ => h0
  -- a register other than `x0` is written
  have hother : insn.op.dropsX0 = true → ∀ v, (m.setGpr insn.rd v).gpr 0 = 0 := fun hd v => by
    rw [Machine.gpr_setGpr, if_neg (Ne.symm (hx hd)), h0]
  cases hop : insn.op with
  | empty | illegal | ecall | branch =>
      rw [hop] at hr
      cases hr
      exact gpr_zero_kept h0 fun _ => by rw [blindValue, hop]
  | auipc | lui =>
      rw [hop] at hr
      cases hr
      exact gpr_zero_blind h0 (by rw [blindValue, hop])
  | jal size | jalr size =>
      rw [hop] at hr
      cases hr
      exact gpr_zero_kept (gpr_zero_link size h0) fun _ => by rw [blindValue, hop]
  | aluR f | aluI f =>
      rw [hop] at hr
      cases hr
      exact gpr_zero_kept (hother (by rw [hop]; rfl) _) fun _ => by rw [blindValue, hop]
  | aluDiv fault f =>
      rw [hop] at hr
      simp only [Op.run] at hr
      split at hr
      · cases hr
      · cases hr
        exact gpr_zero_kept (hother (by rw [hop]; rfl) _) fun _ => by rw [blindValue, hop]
  | load ld ext =>
      rw [hop] at hr
      obtain ⟨v, _, hr⟩ := bind_eq_ok hr
      cases hr
      exact gpr_zero_kept (hother (by rw [hop]; rfl) _) fun _ => by rw [blindValue, hop]
  | store n =>
      rw [hop] at hr
      obtain ⟨mem, _, hr⟩ := bind_eq_ok hr
      cases hr
      exact gpr_zero_kept h0 fun _ => by rw [blindValue, hop]
  | csr newValue wrMask =>
      rw [hop] at hr
      cases hk : csrKnown insn.csr with
      | true =>
          obtain ⟨env, value, hc, hrun⟩ := csr_known newValue wrMask insn m hk
          rw [hrun] at hr
          cases hr
          have h0' : ({ m with env := env } : Machine).gpr 0 = 0 :=
            (congrFun (rmwCsr_frame hc).1 0).trans h0
          exact gpr_zero_blind h0' (by rw [blindValue, hop, rmwCsr_value hc])
      | false =>
          rw [csr_unknown newValue wrMask insn m hk] at hr
          cases hr
          refine gpr_zero_kept h0 fun _ => ?_
          have hs := readCsr_isSome m.env insn.csr
          rw [hk, Option.isSome_eq_false_iff, Option.isNone_iff_eq_none] at hs
          rw [blindValue, hop]
          exact hs
  | lrW | lrD =>
      rw [hop] at hr
      obtain ⟨v, hv, hr⟩ := bind_eq_ok hr
      cases hr
      exact gpr_zero_blind h0 (by rw [blindValue, hop, hv]; rfl)
  | scW | scD =>
      rw [hop] at hr
      obtain ⟨mem, _, hr⟩ := bind_eq_ok hr
      cases hr
      refine gpr_zero_kept ?_ fun _ => by rw [blindValue, hop]
      exact (gpr_zero_setGpr (hsetMem mem) insn.rd 0).mpr (by simp)
  | amoW f | amoD f =>
      rw [hop] at hr
      obtain ⟨v, hv, hr⟩ := bind_eq_ok hr
      obtain ⟨mem, _, hr⟩ := bind_eq_ok hr
      cases hr
      exact gpr_zero_blind (hsetMem mem) (by rw [blindValue, hop, hv]; rfl)
  | amoSelW f =>
      rw [hop, amoSelW_run] at hr
      obtain ⟨v, hv, hr⟩ := bind_eq_ok hr
      obtain ⟨mem, _, hr⟩ := bind_eq_ok hr
      cases hr
      exact gpr_zero_blind (hsetMem mem) (by rw [blindValue, hop, hv]; rfl)
  | amoSelD f =>
      rw [hop, amoSelD_run] at hr
      obtain ⟨v, hv, hr⟩ := bind_eq_ok hr
      obtain ⟨mem, _, hr⟩ := bind_eq_ok hr
      cases hr
      exact gpr_zero_blind (hsetMem mem) (by rw [blindValue, hop, hv]; rfl)

/-! ## Other ways to fail -/

theorem bind_ne_sigabrt {α β : Type} {x : Except Fault α} {f : α → Except Fault β}
    (hx : x ≠ .error .sigabrt) (hf : ∀ a, f a ≠ .error .sigabrt) :
    (x >>= f) ≠ .error .sigabrt := by
  cases x with
  | error e => exact fun h => hx (by cases h; rfl)
  | ok a => exact hf a

theorem cpuLduw_ne_sigabrt (mem : Memory) (a off : Word) : cpuLduw mem a off ≠ .error .sigabrt :=
  fun h => absurd (Memory.value_loadBytes_error h) (by decide)

theorem cpuLdud_ne_sigabrt (mem : Memory) (a off : Word) : cpuLdud mem a off ≠ .error .sigabrt :=
  fun h => absurd (Memory.value_loadBytes_error h) (by decide)

theorem storeBytes_ne_sigabrt (mem : Memory) (a : Word) (bs : List (BitVec 8)) :
    mem.storeBytes a bs ≠ .error .sigabrt :=
  fun h => absurd (Memory.storeBytes_error h) (by decide)

theorem cpuSt_ne_sigabrt (n : Nat) (mem : Memory) (a off v : Word) :
    cpuSt n mem a off v ≠ .error .sigabrt := by
  unfold cpuSt
  split <;> exact storeBytes_ne_sigabrt _ _ _

theorem ok_ne_sigabrt {α : Type} (a : α) : (Except.ok a : Except Fault α) ≠ .error .sigabrt := nofun

theorem Op.run_ne_sigabrt {op : Op} (insn : Insn) (m : Machine)
    (hld : ∀ {w : Nat} {ld : Memory → Word → Word → Except Fault (BitVec w)}
      {ext : BitVec w → Word}, op = .load ld ext → ∀ mem a off, ld mem a off ≠ .error .sigabrt) :
    op.run insn m ≠ .error .sigabrt := by
  cases op with
  | aluDiv fault f =>
      simp only [run]
      split
      · exact fun h => by cases h
      · exact ok_ne_sigabrt _
  | load ld ext => exact bind_ne_sigabrt (hld rfl _ _ _) fun _ => ok_ne_sigabrt _
  | store n => exact bind_ne_sigabrt (cpuSt_ne_sigabrt _ _ _ _ _) fun _ => ok_ne_sigabrt _
  | csr newValue wrMask =>
      simp only [run]
      split <;> exact ok_ne_sigabrt _
  | lrW => exact bind_ne_sigabrt (cpuLduw_ne_sigabrt _ _ _) fun _ => ok_ne_sigabrt _
  | lrD => exact bind_ne_sigabrt (cpuLdud_ne_sigabrt _ _ _) fun _ => ok_ne_sigabrt _
  | scW => exact bind_ne_sigabrt (storeBytes_ne_sigabrt _ _ _) fun _ => ok_ne_sigabrt _
  | scD => exact bind_ne_sigabrt (storeBytes_ne_sigabrt _ _ _) fun _ => ok_ne_sigabrt _
  | amoW f =>
      exact bind_ne_sigabrt (cpuLduw_ne_sigabrt _ _ _) fun _ =>
        bind_ne_sigabrt (storeBytes_ne_sigabrt _ _ _) fun _ => ok_ne_sigabrt _
  | amoD f =>
      exact bind_ne_sigabrt (cpuLdud_ne_sigabrt _ _ _) fun _ =>
        bind_ne_sigabrt (storeBytes_ne_sigabrt _ _ _) fun _ => ok_ne_sigabrt _
  | amoSelW f =>
      rw [amoSelW_run]
      exact bind_ne_sigabrt (cpuLduw_ne_sigabrt _ _ _) fun _ =>
        bind_ne_sigabrt (storeBytes_ne_sigabrt _ _ _) fun _ => ok_ne_sigabrt _
  | amoSelD f =>
      rw [amoSelD_run]
      exact bind_ne_sigabrt (cpuLdud_ne_sigabrt _ _ _) fun _ =>
        bind_ne_sigabrt (storeBytes_ne_sigabrt _ _ _) fun _ => ok_ne_sigabrt _
  | _ => exact ok_ne_sigabrt _

theorem Insn.run_ne_sigabrt (insn : Insn) (m : Machine) : insn.run m ≠ .error .sigabrt := by
  refine Op.run_ne_sigabrt insn m fun hop mem a off => ?_
  cases hh : insn.handler <;> rw [hh] at hop <;> cases hop
  all_goals exact fun h => absurd (Memory.value_loadBytes_error h) (by decide)

theorem decode_ne_sigabrt (mem : Memory) (room : Nat) {ctx : Ctx} (hx : ctx.exit = false) :
    decode mem room ctx ≠ .error .sigabrt := by
  induction room generalizing ctx with
  | zero => exact ok_ne_sigabrt _
  | succ room ih =>
      rw [decode_succ mem room hx]
      refine bind_ne_sigabrt (cpuLduw_ne_sigabrt _ _ _) fun opcode => ?_
      split
      · exact ok_ne_sigabrt _
      · split
        · exact ok_ne_sigabrt _
        · have hrec : decode mem room (ctx.next opcode) ≠ .error .sigabrt :=
            ih (Ctx.next_exit hx)
          cases hd : decode mem room (ctx.next opcode) with
          | error e => exact fun h => hrec (by rw [hd]; cases h; rfl)
          | ok r => exact ok_ne_sigabrt _

namespace Vm

theorem enter_ne_sigabrt (prev : Option Ptr) (m : Machine) (c : Cache) :
    enter prev m c ≠ .error .sigabrt := by
  unfold enter
  split
  · refine bind_ne_sigabrt ?_ fun _ => ok_ne_sigabrt _
    unfold lookup
    split
    · exact ok_ne_sigabrt _
    · exact bind_ne_sigabrt (bind_ne_sigabrt (decode_ne_sigabrt _ _ rfl) fun _ => ok_ne_sigabrt _)
        fun _ => ok_ne_sigabrt _
  · exact ok_ne_sigabrt _

/-- The emulator aborts exactly after a handler that leaves `x0` non-zero. -/
theorem step_sigabrt {s : Vm} (hi : s.Inv) : s.step = .error .sigabrt ↔
    ∃ insn m, s.insn? = some insn ∧ insn.run s.m = .ok m ∧ m.gpr 0 ≠ 0 := by
  cases hc : s.ctl with
  | start =>
      simp only [step, insn?, hc]
      exact iff_of_false (enter_ne_sigabrt _ _ _) (by simp)
  | returned =>
      simp only [step, insn?, hc]
      exact iff_of_false (ok_ne_sigabrt _) (by simp)
  | body p i =>
      obtain ⟨b, hb, _⟩ := hi.body p i hc
      simp only [step, insn?, hc, hb, Option.bind_some]
      cases hins : b.insns[i]? with
      | none =>
          simp only [reduceCtorEq, false_and, exists_false, iff_false]
          split
          · exact ok_ne_sigabrt _
          · exact enter_ne_sigabrt _ _ _
      | some insn =>
          simp only [Insn.exec]
          cases hr : insn.run s.m with
          | error e =>
              refine iff_of_false (fun h => insn.run_ne_sigabrt s.m ?_) ?_
              · rw [hr]
                cases h
                rfl
              · rintro ⟨insn', m, hi', hr', _⟩
                cases hi'
                rw [hr] at hr'
                cases hr'
          | ok m =>
              by_cases hz : m.gpr 0 = 0
              · refine iff_of_false ?_ ?_
                · simp only [bind, Except.bind, hz, if_true]
                  exact ok_ne_sigabrt _
                · rintro ⟨insn', m', hi', hr', hne⟩
                  cases hi'
                  rw [hr] at hr'
                  cases hr'
                  exact hne hz
              · refine iff_of_true ?_ ⟨insn, m, rfl, hr, hz⟩
                simp only [bind, Except.bind, if_neg hz]

theorem step_gpr_zero {s s' : Vm} (h : s.step = .ok s') (h0 : s.m.gpr 0 = 0) :
    s'.m.gpr 0 = 0 := by
  cases step_move h with
  | returned _ h' => rw [h', h0]
  | call _ h' => rw [enter_m h', h0]
  | chain _ _ _ _ h' => rw [h', h0]
  | reenter _ _ _ _ h' => rw [enter_m h', h0]
  | exec _ _ _ hx h' =>
      rw [h']
      exact (Insn.exec_eq_ok hx).2

end Vm

namespace Binary

variable {x : Binary} {c : Setup} {s s' : Vm}

/-- A run starts with `x0` zero, also when `cpu_exec` is called again, and nothing disturbs
the emulator. -/
abbrev ZeroReach (x : Binary) (c : Setup) : Vm → Prop :=
  x.Reach c (fun m => m.gpr 0 = 0) fun s _ => x.KeepsOff c s

theorem Sound.step_gpr_zero (hs : x.Sound c s) (hk : x.KeepsOff c s) (h : x.step c s = .ok s')
    (h0 : s.m.gpr 0 = 0) : s'.m.gpr 0 = 0 := by
  obtain ⟨s₁, h₁, rfl⟩ := step_cases hs hk h
  have hgpr : s₁.m.gpr 0 = 0 := Vm.step_gpr_zero h₁ h0
  exact hgpr

theorem Reach.gpr_zero {good : Vm → Vm → Prop} (hg : ∀ s s', good s s' → x.KeepsOff c s)
    (h : x.Reach c (fun m => m.gpr 0 = 0) good s) : s.m.gpr 0 = 0 := by
  induction h with
  | start m hm _ => exact hm
  | call _ _ m hm _ _ _ => exact hm
  | step h hs hk ih => exact (h.sound hg).step_gpr_zero (hg _ _ hk) hs ih

/-- The assertion of `block_exec` fails exactly behind a handler that dirties `x0`. -/
theorem Sound.step_sigabrt (hs : x.Sound c s) (hk : x.KeepsOff c s) (h0 : s.m.gpr 0 = 0) :
    x.step c s = .error .sigabrt ↔
      ∃ insn m, x.insn? c s = some insn ∧ insn.run s.m = .ok m ∧ insn.DirtiesX0 s.m := by
  have hmap : x.step c s = .error .sigabrt ↔ s.step = .error .sigabrt := by
    rw [step_eq hs hk]
    cases s.step <;> simp [Except.map]
  rw [hmap, Vm.step_sigabrt hs.inv, hs.insn?_eq]
  refine exists_congr fun insn => exists_congr fun m => and_congr_right fun hi =>
    and_congr_right fun hr => ?_
  obtain ⟨p, i, b, _, _, _, mem, opcode, _, rfl⟩ := hs.inv.insn? hi
  rw [Ne, Insn.gpr_zero h0 insnAt_x0 hr, not_not]

end Binary

/-- For every instruction word, `x0` is zero after the handler exactly unless the
handler dirties it. In every undisturbed run in which no handler does, the assertion of
`block_exec` holds each time. -/
theorem x0_stays_zero {x : Binary} {c : Setup} {s : Vm} (hs : x.ZeroReach c s) (n : Nat) :
    (∀ pc opcode m m', m.gpr 0 = 0 → (insnAt pc opcode).run m = .ok m' →
      (m'.gpr 0 = 0 ↔ ¬ (insnAt pc opcode).DirtiesX0 m)) ∧
    (Run.Throughout (x.step c) (x.KeepsOff c) n s →
      Run.Throughout (x.step c)
        (fun t => ∀ insn, x.insn? c t = some insn → ¬ insn.DirtiesX0 t.m) n s →
      x.run c n s ≠ .error .sigabrt ∧ ∀ t, x.run c n s = .ok t → t.m.gpr 0 = 0) := by
  refine ⟨fun pc opcode m m' h0 hr => Insn.gpr_zero h0 insnAt_x0 hr, fun hoff hclean => ?_⟩
  have hreach : ∀ {k t}, k ≤ n → x.run c k s = .ok t → x.ZeroReach c t := fun hk ht =>
    hs.run (hoff.take hk).along ht
  refine ⟨fun hr => ?_, fun t ht => (hreach (Nat.le_refl n) ht).gpr_zero fun _ _ h => h⟩
  obtain ⟨k, t, hk, ht, he⟩ := Run.run_eq_error hr
  have ht' := hreach (Nat.le_of_lt hk) ht
  obtain ⟨insn, m, hi, _, hd⟩ :=
    ((ht'.sound fun _ _ h => h).step_sigabrt (hoff.at hk ht) (ht'.gpr_zero fun _ _ h => h)).mp he
  exact hclean.at hk ht insn hi hd

/-- Whether a handler dirties `x0` can be told without memory it does not load from. -/
theorem Insn.dirtiesX0_without {p : Word → Prop} [DecidablePred p]
    (hl : ∀ a, insn.Loads m a → ¬ p a) : insn.DirtiesX0 (m.without p) ↔ insn.DirtiesX0 m := by
  have hload : ∀ base n, insn.source? m = some (base, n) → ∀ a, Span.Mem base n a → ¬ p a :=
    fun base n ht a ha => hl a ⟨base, n, ht, ha⟩
  have hv : insn.blindValue (m.without p) = insn.blindValue m := by
    unfold source? at hload
    unfold blindValue
    cases hop : insn.op with
    | lrW | amoW | amoSelW =>
        rw [hop] at hload
        simp only [Machine.mem_without, Machine.gpr_without, Memory.cpuLduw_without (hload _ _ rfl)]
    | lrD | amoD | amoSelD =>
        rw [hop] at hload
        simp only [Machine.mem_without, Machine.gpr_without, Memory.cpuLdud_without (hload _ _ rfl)]
    | _ => rfl
  unfold DirtiesX0
  rw [hv]

instance (insn : Insn) (m : Machine) : Decidable (insn.DirtiesX0 m) :=
  @instDecidableAnd _ _ inferInstance
    (Option.decidableExistsMem (insn.blindValue m))

theorem Counter.clean : Run.Throughout Vm.step
    (fun t => ∀ insn ∈ t.insn?, ¬ insn.DirtiesX0 t.m) 15
    (Vm.hide .default (.start (machine 0x00000073))) := by
  decide +kernel

/-- `addi t0, x0, 1`, and the guest that counts to three. -/
theorem counter_x0 :
    (((Machine.boot (.filled 0)).setGpr 5 1).gpr 0 = 0 ↔
      ¬ (insnAt 0 0x00100293).DirtiesX0 (.boot (.filled 0))) ∧
    ∃ t, Binary.static.run .default 15 (.start (Counter.machine 0x00000073)) = .ok t ∧
      t.ctl = .returned ∧ t.m.gpr 0 = 0 := by
  have hend : (((Vm.start (Counter.machine 0x00000073)).hide .default).run 15).toOption.map
      (fun t => t.ctl) = some .returned := by decide +kernel
  obtain ⟨t, ht, -, hc⟩ := Binary.run_shows (Counter.sound _) Counter.apart hend
  have hx := x0_stays_zero (x := Binary.static) (c := .default)
    (.start (Counter.machine 0x00000073) rfl (Counter.fresh _)) 15
  refine ⟨hx.1 0 0x00100293 (.boot (.filled 0)) _ rfl rfl, t, ht, Vm.ctl_hide ▸ hc,
    (hx.2 (Counter.apart.mono fun _ h => h.keepsOff) ?_).2 t ht⟩
  refine Run.Throughout.pull (fun _ hs ha => Binary.step_hide hs ha)
    (fun _ _ hs ha h => hs.step ha.keepsOff h) (fun s hs ha hq insn hi => ?_) (Counter.sound _)
    Counter.apart Counter.clean
  rw [← Insn.dirtiesX0_without fun a hl => ha.loads a ⟨insn, hi, hl⟩, ← Vm.m_hide]
  exact hq insn (Vm.insn?_hide.trans (hs.insn?_eq.symm.trans hi))

/-- `lui x0, 1` leaves 0x1000 in `x0`, and the emulator aborts on it. -/
theorem lui_x0_aborts :
    (∃ m, (insnAt 0 0x00001037).run (.boot (.ofWords [])) = .ok m ∧ m.gpr 0 = 0x1000) ∧
      Binary.static.run .default 2 (.start (.ofWords [0x00001037])) = .error .sigabrt := by
  refine ⟨⟨_, rfl, by decide⟩, Run.failure_eq_some.mp ?_⟩
  decide +kernel

end Rvvk
