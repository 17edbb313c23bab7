import Rvvk.Exec.Invariant

/-!
# The table and the links are transparent

While the code of the translated blocks stays the same, every block in the table
is what translating its pc again would give. The executor without table and links
then takes the same steps, failures included.
-/

namespace Rvvk

namespace Vm

/-- Every block in the table is the translation of the memory as it is now. -/
def Current (s : Vm) : Prop :=
  ∀ b ∈ s.cache.heap, translate s.m.mem b.pc = .ok b.translation

def view (s : Vm) : Plain :=
  ⟨s.m,
    match s.ctl with
    | .start => .start
    | .returned => .stopped
    | .body p i =>
        match s.cache.heap[p]? with
        | some b => .body b.pc b.insns i
        | none => .stopped⟩

theorem view_body {s : Vm} {p i : Nat} {b : Block} (hc : s.ctl = .body p i)
    (hb : s.cache.heap[p]? = some b) : s.view = ⟨s.m, .body b.pc b.insns i⟩ := by
  simp only [view, hc, hb]

/-! ## The table stays current -/

theorem lookup_current {c c' : Cache} {mem : Memory} {pc : Word} {p : Ptr}
    (hcur : ∀ b ∈ c.heap, translate mem b.pc = .ok b.translation)
    (h : lookup c mem pc = .ok (c', p)) :
    ∀ b ∈ c'.heap, translate mem b.pc = .ok b.translation := by
  rcases lookup_cases h with ⟨_, rfl⟩ | ⟨_, _, t, ht, rfl⟩
  · exact hcur
  · exact Cache.forall_insert hcur (fun _ _ h => h) ht

theorem patchPrev_current {c : Cache} {mem : Memory} {prev : Option Ptr} {now : Ptr} {pc : Word}
    (hnow : c.pcOf now = some pc) (hcur : ∀ b ∈ c.heap, translate mem b.pc = .ok b.translation) :
    ∀ b ∈ (patchPrev c prev now).heap, translate mem b.pc = .ok b.translation := by
  cases prev with
  | none => exact hcur
  | some q =>
      refine Cache.forall_patchBlock hnow hcur fun b _ h => ?_
      rwa [(Cache.patch_eq now pc b).1, (Cache.patch_eq now pc b).2]

theorem enter_current {prev : Option Ptr} {m : Machine} {c : Cache} {s' : Vm} (hc : c.Good)
    (hcur : ∀ b ∈ c.heap, translate m.mem b.pc = .ok b.translation)
    (h : enter prev m c = .ok s') : s'.Current := by
  rcases enter_cases h with ⟨_, rfl⟩ | ⟨_, c₁, p, hl, rfl⟩
  · exact hcur
  · exact patchPrev_current (lookup_good hc hl).2 (lookup_current hcur hl)

theorem Current.start (m : Machine) : Current (.start m) := nofun

theorem Current.of_keepsCode {s s' : Vm} (h : s.Current) (hk : s.KeepsCode s')
    (hc : s'.cache = s.cache) : s'.Current := by
  intro b hb
  rw [hc] at hb
  exact translate_congr (h b hb) (hk b hb)

theorem Current.step {s s' : Vm} (hi : s.Inv) (h : s.Current) (hs : s.step = .ok s')
    (hk : s.KeepsCode s') : s'.Current := by
  cases step_move hs with
  | returned _ h' => exact h' ▸ h
  | call _ he => exact enter_current hi.cache h he
  | exec _ _ _ _ h' => exact h.of_keepsCode hk (by rw [h'])
  | chain _ _ _ _ h' => exact h.of_keepsCode hk (by rw [h'])
  | reenter _ _ _ _ he => exact enter_current hi.cache h he

theorem Current.fetched {s : Vm} (h : s.Current) {b : Block} (hb : b ∈ s.cache.heap) {j : Nat}
    (hj : j < b.insns.length) : ∃ opcode, cpuLduw s.m.mem (pcAt s.m.mem b.pc j) 0 = .ok opcode := by
  have hget : b.translation.insns[j]? = some b.insns[j] := List.getElem?_eq_getElem hj
  obtain ⟨opcode, ho, _⟩ := translate_getElem? (h b hb) hget
  exact ⟨opcode, ho⟩

/-- Where no page is changed, only the bytes of the instructions matter. -/
theorem Current.keepsCode {s s' : Vm} (h : s.Current) (hp : s.m.mem.SamePages s'.m.mem)
    (hb : ∀ b ∈ s.cache.heap, ∀ j < b.insns.length,
      ∀ i < (insnLen (fetch s.m.mem (pcAt s.m.mem b.pc j))).toNat,
        s'.m.mem.byte? (pcAt s.m.mem b.pc j + BitVec.ofNat 64 i) =
          s.m.mem.byte? (pcAt s.m.mem b.pc j + BitVec.ofNat 64 i)) : s.KeepsCode s' := by
  intro b hmem j hj
  refine ⟨fun i hi => ?_, hb b hmem j hj⟩
  obtain ⟨opcode, ho⟩ := h.fetched hmem hj
  rw [hp.isSome_byte?, Memory.cpuLduw_eq_ok.mp ho i hi]
  rfl

theorem Current.keepsCode_of_mem {s s' : Vm} (h : s.Current) (hm : s'.m.mem = s.m.mem) :
    s.KeepsCode s' :=
  h.keepsCode (hm ▸ .refl _) fun _ _ _ _ _ _ => by rw [hm]

theorem step_mem {s s' : Vm} (hs : s.step = .ok s')
    (hins : ∀ insn, s.insn? = some insn → ∀ m m', insn.run m = .ok m' → m'.mem = m.mem) :
    s'.m.mem = s.m.mem := by
  cases step_move hs with
  | returned _ h => rw [h]
  | call _ h => rw [enter_m h]
  | chain _ _ _ _ h => rw [h]
  | reenter _ _ _ _ h => rw [enter_m h]
  | exec hc hb hi hx h =>
      subst h
      exact hins _ (by simp only [insn?, hc, hb, Option.bind_some, hi]) _ _ (Insn.exec_eq_ok hx).1

/-- The next handler comes from the translation of the memory as it is now. -/
theorem Current.insn?_mem {s : Vm} (hi : s.Inv) (h : s.Current) {insn : Insn}
    (hx : s.insn? = some insn) :
    ∃ pc t, translate s.m.mem pc = .ok t ∧ insn ∈ t.insns := by
  cases hc : s.ctl with
  | start => simp [insn?, hc] at hx
  | returned => simp [insn?, hc] at hx
  | body p i =>
      obtain ⟨b, hb, _⟩ := hi.body p i hc
      simp only [insn?, hc, hb, Option.bind_some] at hx
      exact ⟨b.pc, b.translation, h b (List.mem_of_getElem? hb), List.mem_of_getElem? hx⟩

/-- A memory whose instructions do not write memory stays as it is. -/
theorem step_readOnly {s s' : Vm} {code : Memory}
    (hcode : ∀ pc t, translate code pc = .ok t → ∀ insn ∈ t.insns, ∀ m m',
      insn.run m = .ok m' → m'.mem = m.mem)
    (h : s.Inv ∧ s.Current ∧ s.m.mem = code) (hs : s.step = .ok s') :
    (s'.Inv ∧ s'.Current ∧ s'.m.mem = code) ∧ s.KeepsCode s' := by
  obtain ⟨hi, hcur, rfl⟩ := h
  have hm : s'.m.mem = s.m.mem := by
    refine step_mem hs fun insn hx => ?_
    obtain ⟨pc, t, ht, hmem⟩ := hcur.insn?_mem hi hx
    exact hcode pc t ht insn hmem
  have hk := hcur.keepsCode_of_mem hm
  exact ⟨⟨hi.step hs, hcur.step hi hs hk, hm⟩, hk⟩

/-! ## One step -/

/-- A lookup succeeds and fails with the translation, and finds what it gives. -/
theorem lookup_translate {c : Cache} {mem : Memory} (hc : c.Good)
    (hcur : ∀ b ∈ c.heap, translate mem b.pc = .ok b.translation) (pc : Word) :
    (∀ e, lookup c mem pc = .error e ↔ translate mem pc = .error e) ∧
      ∀ c' p, lookup c mem pc = .ok (c', p) →
        ∃ b, c'.heap[p]? = some b ∧ b.pc = pc ∧ translate mem pc = .ok b.translation := by
  constructor
  · intro e
    unfold lookup
    cases hf : c.findBlock pc with
    | some p =>
        obtain ⟨b, hb, rfl⟩ := Option.map_eq_some_iff.mp ((Cache.findBlock_eq_some hc.wf).mp hf)
        simp [hcur b (List.mem_of_getElem? hb)]
    | none =>
        simp only [bind, Except.bind]
        cases translate mem pc <;> simp
  · intro c' p h
    obtain ⟨hc', hpc⟩ := lookup_good hc h
    obtain ⟨b, hb, rfl⟩ := Option.map_eq_some_iff.mp hpc
    exact ⟨b, hb, rfl, lookup_current hcur h b (List.mem_of_getElem? hb)⟩

theorem patchPrev_getElem? {c : Cache} (prev : Option Ptr) {now : Ptr} {pc : Word}
    (hnow : c.pcOf now = some pc) {p : Nat} {b : Block} (hb : c.heap[p]? = some b) :
    ∃ b', (patchPrev c prev now).heap[p]? = some b' ∧ b'.pc = b.pc ∧
      b'.translation = b.translation := by
  cases prev with
  | none => exact ⟨b, hb, rfl, rfl⟩
  | some q =>
      refine ⟨_, (Cache.patchBlock_getElem? hnow q p).trans (by rw [hb]; rfl), ?_⟩
      split
      · exact Cache.patch_eq now pc b
      · exact ⟨rfl, rfl⟩

theorem patchPrev_length (c : Cache) (prev : Option Ptr) (now : Ptr) :
    (patchPrev c prev now).heap.length = c.heap.length := by
  cases prev with
  | none => rfl
  | some q => exact (Cache.patchBlock_sameTable c q now).length

theorem enter_view {prev : Option Ptr} {m : Machine} {c : Cache} (hc : c.Good)
    (hcur : ∀ b ∈ c.heap, translate m.mem b.pc = .ok b.translation) :
    (enter prev m c).map view = Plain.enter m := by
  obtain ⟨herr, hok⟩ := lookup_translate hc hcur m.pc
  unfold enter Plain.enter
  split
  · cases hl : lookup c m.mem m.pc with
    | error e => rw [(herr e).mp hl]; rfl
    | ok r =>
        obtain ⟨c₁, p⟩ := r
        obtain ⟨b, hb, hpc, ht⟩ := hok c₁ p hl
        obtain ⟨b', hb', hpc', ht'⟩ :=
          patchPrev_getElem? prev (lookup_good hc hl).2 hb
        rw [ht]
        have hins : b'.insns = b.insns := congrArg Translation.insns ht'
        simp only [bind, Except.bind, Except.map, view, hb', hpc', hpc, hins, Block.translation]
  · rfl

theorem step_view {s : Vm} (hi : s.Inv) (hcur : s.Current) :
    s.step.map view = Plain.step s.view := by
  cases hc : s.ctl with
  | start =>
      simp only [step, view, Plain.step, hc]
      exact enter_view hi.cache hcur
  | returned => simp only [step, view, Plain.step, hc, Except.map]
  | body p i =>
      obtain ⟨b, hb, ha⟩ := hi.body p i hc
      rw [view_body hc hb]
      simp only [step, Plain.step, hc, hb]
      cases hins : b.insns[i]? with
      | some insn =>
          simp only [bind, Except.bind]
          cases insn.exec s.m with
          | error e => rfl
          | ok m => simp only [Except.map, view, hb]
      | none =>
          cases hn : jmpNext b s.m.pc with
          | none =>
              simp only
              exact enter_view hi.cache hcur
          | some next =>
              obtain ⟨he, hpc⟩ := jmpNext_spec hi.cache hb ha hins hn
              obtain ⟨b₁, hb₁, hpc₁⟩ := Option.map_eq_some_iff.mp hpc
              have ht := hcur b₁ (List.mem_of_getElem? hb₁)
              rw [hpc₁] at ht
              simp only [Except.map, view, hb₁, Plain.enter, he, if_true, ht, bind, Except.bind,
                hpc₁, Block.translation]

/-! ## Every run -/

/-- As long as translated code is not changed, the machine with table and links and the one
without pass through the same machines and blocks, stop alike and fail alike. -/
theorem run_plain {s : Vm} (hi : s.Inv) (hcur : s.Current) {n : Nat}
    (hk : Run.Along step KeepsCode n s) : (s.run n).map view = Plain.run n s.view := by
  have hstep : ∀ t : Vm, (t.Inv ∧ t.Current) → True → t.step.map view = Plain.step t.view :=
    fun t h _ => step_view h.1 h.2
  have hinv : ∀ t t' : Vm, (t.Inv ∧ t.Current) → True → t.step = .ok t' → t.KeepsCode t' →
      t'.Inv ∧ t'.Current := fun t t' h _ hs hk => ⟨h.1.step hs, h.2.step h.1 hs hk⟩
  exact Run.run_map hstep hinv ⟨hi, hcur⟩ (Run.throughout_of_forall fun _ => trivial) hk

end Vm

end Rvvk
