import Rvvk.Elf.Confined
import Rvvk.Elf.Image
import Rvvk.Main

/-!
# What the guest finds

At its first instruction the guest finds the process stack of its command line and the
segments of its file, unless the instruction buffer has come to lie over them.
-/

namespace Rvvk

/-! ## The process stack -/

namespace Memory

variable {m m' : Memory}

theorem Words.congr {a : Word} {vs : List Word} (h : m.Words a vs)
    (he : ∀ i < 8 * vs.length, m' (a + BitVec.ofNat 64 i) = m (a + BitVec.ofNat 64 i)) :
    m'.Words a vs := by
  induction vs generalizing a with
  | nil => trivial
  | cons v vs ih =>
      rw [List.length_cons] at he
      refine ⟨cpuLdud_eq_ok.mpr fun i hi => ?_, ih h.2 fun i hi => ?_⟩
      · rw [← cpuLdud_eq_ok.mp h.1 i hi]
        unfold byte?
        rw [he i (by omega)]
      · have hoff : a + 8 + BitVec.ofNat 64 i = a + BitVec.ofNat 64 (8 + i) := by
          rw [BitVec.ofNat_add]
          grind
        rw [hoff]
        exact he (8 + i) (by omega)

end Memory

section

variable {m m' m'' : Memory} {bprm : Binprm} {p : Word} {room : Nat}

/-- The copies of `create_elf_tables` in a fresh stack are the process stack, also in a
memory that has changed elsewhere. -/
theorem FreshStack.leaves (hf : FreshStack m p room) (hargc : 1 ≤ bprm.argc)
    (hfit : bprm.stackBytes p ≤ room) (hm : m.storeAll (bprm.copies p) = .ok m')
    (he : ∀ a, Span.Mem (bprm.startStack p) (bprm.stackBytes p) a → m'' a = m' a) :
    ∃ file args envs, ProcessStack m'' bprm (bprm.startStack p) file args envs := by
  have hp := hf.placed hfit
  have hsmall := hf.small
  have hlen : (bprm.ptrs p).length = bprm.argc + bprm.envc + 3 := by
    have hargc : 1 ≤ bprm.argv.length := hargc
    rw [length_ptrs, List.length_tail, Binprm.argc]
    omega
  have hh := Memory.storeAll_holds hm hp.apart hp.length fun c hc a ha => by
    unfold Memory.byte?
    rw [hp.fresh c hc a ha]
    rfl
  have hwords : m''.Words (bprm.startStack p) ((bprm.ptrs p).reverse ++ [0, 0]) := by
    refine (hp.words hm hh).congr fun i hi => he _ (Span.mem_offset _ ?_)
    rw [List.length_append, List.length_reverse] at hi
    unfold Binprm.stackBytes Binprm.gap
    simp only [List.length_cons, List.length_nil] at hi
    omega
  have hstrs : ∀ c ∈ copiesBelow p bprm.strings, m''.Spells c.addr c.bytes := fun c hc =>
    (hh c (List.mem_append_left _ hc)).congr fun x hx =>
      he x (hp.inside c (List.mem_append_left _ hc) x hx)
  have hsplit : copiesBelow p bprm.strings = copiesBelow p bprm.envStrings ++
      copiesBelow (endBelow p bprm.envStrings) bprm.argStrings ++
        [⟨endBelow p bprm.strings, bprm.filename.terminated⟩] := by
    simp [Binprm.strings, copiesBelow_append, copiesBelow, endBelow_append, endBelow_cons]
  rw [hsplit] at hstrs
  obtain ⟨hapart, htable⟩ := strings_apart bprm p (by omega)
  rw [hlen, ← addrs_reverse] at htable
  rw [← addrs_reverse] at hapart
  rw [ptrs_reverse] at hwords
  have hargs := forall₂_below fun c hc =>
    hstrs c (List.mem_append_left _ (List.mem_append_right _ hc))
  have henvs := forall₂_below fun c hc =>
    hstrs c (List.mem_append_left _ (List.mem_append_left _ hc))
  refine ⟨endBelow p bprm.strings, _, _, hwords,
    hstrs _ (List.mem_append_right _ List.mem_cons_self), ?_, ?_, hapart, htable⟩
  · have hrev := List.forall₂_reverse_iff.mpr hargs
    rwa [List.reverse_reverse] at hrev
  · have hrev := List.forall₂_reverse_iff.mpr henvs
    rwa [List.reverse_reverse] at hrev

end

/-- A stack whose size does not wrap is fresh up to its top. -/
theorem StackMade.freshStack {h : Host} {c : Setup} {s s' : Space} {limit : Word}
    (hm : StackMade h c s s' limit) (hsize : c.guestStackSize.toNat + 4096 < 2 ^ 64)
    (h8 : 8 ≤ c.guestStackSize.toNat) :
    FreshStack s'.mem (limit + c.guestStackSize - 8) (c.guestStackSize.toNat - 8) := by
  have hbase : limit + c.guestStackSize - 8 - BitVec.ofNat 64 (c.guestStackSize.toNat - 8) = limit := by
    have hsub : BitVec.ofNat 64 (c.guestStackSize.toNat - 8) = c.guestStackSize - 8 := by
      refine BitVec.eq_of_toNat_eq ?_
      have h8' : (8 : Word).toNat = 8 := rfl
      rw [BitVec.toNat_ofNat, BitVec.toNat_sub, h8']
      omega
    rw [hsub]
    grind
  refine ⟨by omega, fun a ha => ?_⟩
  rw [hbase] at ha
  have hguard : guard.toNat = 4096 := rfl
  have hoff : (a - s.mmapNextStart).toNat = (a - limit).toNat + 4096 := by
    have he : a - s.mmapNextStart = a - limit + guard := by
      rw [hm.mapped.limit]
      grind
    unfold Span.Mem at ha
    rw [he, BitVec.toNat_add, hguard, Nat.mod_eq_of_lt (by omega)]
  have hlen : (c.guestStackSize + guard).toNat = c.guestStackSize.toNat + 4096 := by
    rw [BitVec.toNat_add, hguard, Nat.mod_eq_of_lt (by omega)]
  have hup := le_pageUp (c.guestStackSize + guard).toNat
  unfold Span.Mem at ha
  refine hm.fresh.fresh a (by omega) ?_
  unfold Span.Mem
  omega

section

variable {e : Environment} {words envp front rest : List CString} {prog : CString} {l : Loaded}

/-- Where `create_elf_tables` starts: below the end of the stack. -/
def Loaded.stackTop (l : Loaded) : Word := l.info.stackLimit + l.settings.guestStackSize - 8

def Loaded.stackBytes (e : Environment) (l : Loaded) : Nat :=
  (l.prog.binprm e.host).stackBytes l.stackTop

/-- The guest finds the words of the command line from the program on, with the resolved
path for the program itself, and the environment, if the stack has room for them, its
size does not wrap, and the instruction buffer lies elsewhere. -/
theorem started_processStack (hl : Loads e words envp front rest prog l)
    (hsize : l.settings.guestStackSize.toNat + 4096 < 2 ^ 64)
    (hfit : l.stackBytes e + 8 ≤ l.settings.guestStackSize.toNat)
    (hbuf : Span.Disjoint l.info.startStack (l.stackBytes e)
      (h2g l.settings.toSetup insnBufferMapStart) insnBufferSize) :
    (l.started e).env.gpr Reg.sp = l.info.startStack ∧
      (l.prog.binprm e.host).argv = prog :: rest ∧ (l.prog.binprm e.host).envp = envp ∧
      ∃ file args envs, ProcessStack (l.started e).space.mem (l.prog.binprm e.host)
        l.info.startStack file args envs := by
  have hb := (elfLoad_ok hl.load).1
  rw [loadElfBinary_stack] at hb
  obtain ⟨⟨s₄, info₂, limit⟩, hs, hb⟩ := bind_eq_ok hb
  obtain ⟨⟨s₅, p⟩, ht, hb⟩ := map_eq_ok hb
  obtain ⟨s₃, hm⟩ := loadStack_ok hs ((Space.start_anchored _).congr rfl)
  have hc := makeTables_ok ht
  rw [createElfTables_eq] at hc
  obtain ⟨mem, hstore, hc⟩ := map_eq_ok hc
  obtain ⟨hmem, hp⟩ := Prod.mk.injEq .. ▸ hc
  have hspace : l.space = s₅ := (congrArg Prod.fst hb).symm
  have hinfo : l.info = { info₂ with stackLimit := limit, startStack := p } :=
    (congrArg Prod.snd hb).symm
  have htop : l.stackTop = limit + l.settings.guestStackSize - 8 := by
    unfold Loaded.stackTop
    rw [hinfo]
  have hstart : l.info.startStack = (l.prog.binprm e.host).startStack l.stackTop := by
    rw [htop, hp, hinfo]
  have hfresh : FreshStack s₄.mem l.stackTop (l.settings.guestStackSize.toNat - 8) := by
    rw [htop]
    exact hm.freshStack hsize (by omega)
  rw [← htop] at hstore
  rw [hstart] at hbuf ⊢
  have hargc : 1 ≤ (l.prog.binprm e.host).argc := by
    show 1 ≤ l.prog.argv.length
    rw [hl.argv]
    exact Nat.succ_pos _
  refine ⟨hstart ▸ (hl.guest_env _).2 Reg.sp, hl.argv, hl.envp, ?_⟩
  refine hfresh.leaves hargc (by unfold Loaded.stackBytes at hfit; omega) hstore fun a ha => ?_
  show (allocInsnBuffer e.host l.settings.toSetup l.space).1.mem a = mem a
  rw [allocInsnBuffer_other (hbuf a ha), hspace, hmem]

end

theorem oneFile_loaded : ∃ l front rest prog, Loads oneFile [pathA, pathA] [] front rest prog l ∧
    l.settings.toSetup = .default ∧ l.prog.fd = 3 ∧
    l.stackBytes oneFile + 8 ≤ 0x800000 ∧
    l.info.startStack.toNat + l.stackBytes oneFile ≤ 0x100000000000 := by
  obtain ⟨l, hl, hp⟩ := exists_of_any
    (show (loadProgram oneFile (pointers [rvvk, pathA, pathA] [])).toOption.any (fun l =>
      decide (l.settings.strictAnsi = true ∧ l.settings.guestBase = 0x400000000000 ∧
        l.settings.guestStackSize = 0x800000 ∧ l.prog.fd = 3 ∧
        l.stackBytes oneFile + 8 ≤ 0x800000 ∧
        l.info.startStack.toNat + l.stackBytes oneFile ≤ 0x100000000000)) = true by decide +kernel)
  obtain ⟨hstrict, hbase, hsize, hfd, hfit, hend⟩ := of_decide_eq_true hp
  obtain ⟨front, rest, prog, hloads⟩ := loadProgram_ok hl
  have hsetup : l.settings.toSetup = .default := by
    unfold Setup.default
    rw [← hstrict, ← hbase, show (8 * 0x100000 : Word) = l.settings.guestStackSize from hsize.symm]
  exact ⟨l, front, rest, prog, hloads, hsetup, hfd, hfit, hend⟩

theorem toNat_insnBuffer_default : (h2g .default insnBufferMapStart).toNat = 0x100000000000 := by
  decide

theorem oneFile_processStack : ∃ l front rest prog,
    Loads oneFile [pathA, pathA] [] front rest prog l ∧
      ((l.started oneFile).env.gpr Reg.sp = l.info.startStack ∧
        (l.prog.binprm oneFile.host).argv = prog :: rest ∧
        (l.prog.binprm oneFile.host).envp = [] ∧
        ∃ file args envs, ProcessStack (l.started oneFile).space.mem (l.prog.binprm oneFile.host)
          l.info.startStack file args envs) := by
  obtain ⟨l, front, rest, prog, hl, hsetup, _, hfit, hend⟩ := oneFile_loaded
  have hsize : l.settings.guestStackSize.toNat = 0x800000 := by
    rw [hsetup]
    decide
  have hbuf : Span.Disjoint l.info.startStack (l.stackBytes oneFile)
      (h2g l.settings.toSetup insnBufferMapStart) insnBufferSize := by
    rw [hsetup]
    refine Span.disjoint_of_le ?_ ?_
    · rw [toNat_insnBuffer_default]
      exact hend
    · rw [toNat_insnBuffer_default]
      decide
  exact ⟨l, front, rest, prog, hl,
    started_processStack hl (by rw [hsize]; decide) (by rw [hsize]; exact hfit) hbuf⟩

section

variable {e : Environment} {words envp front rest : List CString} {prog : CString} {l : Loaded}

/-! ## The image -/

/-- The guest finds a file with fixed addresses exact in memory, if the heap, the stack and
the instruction buffer leave its segments alone and no bss passes the last host address. -/
theorem started_exact (hl : Loads e words envp front rest prog l)
    (hs : Static e.host l.settings.toSetup (l.prog.binprm e.host))
    (hheap : HeapClear e.host l.settings.toSetup (l.prog.binprm e.host))
    (hstack : StackClear e.host l.settings.toSetup (l.prog.binprm e.host))
    (hbss : ∀ eppnt ∈ loads (e.host.phdrs (l.prog.binprm e.host)),
      eppnt.BssFits l.settings.toSetup)
    (hbuf : ∀ eppnt ∈ loads (e.host.phdrs (l.prog.binprm e.host)), ∀ i < eppnt.pMemsz.toNat,
      ¬ Span.Mem (h2g l.settings.toSetup insnBufferMapStart) insnBufferSize
        (eppnt.pVaddr + BitVec.ofNat 64 i)) :
    (l.started e).env.pc = l.info.entry ∧
      Exact (loads (e.host.phdrs (l.prog.binprm e.host))) (e.host.file l.prog.fd)
        (l.started e).space.mem l.info.brk := by
  obtain ⟨m, hi⟩ := imageLoaded hs.exec hs.fits hs.apart (elfLoad_ok hl.load).1
  have hx := hi.exactImage hs hheap hstack hbss
  have hbyte : ∀ eppnt ∈ loads (e.host.phdrs (l.prog.binprm e.host)), ∀ i < eppnt.pMemsz.toNat,
      (l.started e).space.mem.byte? (eppnt.pVaddr + BitVec.ofNat 64 i) =
        l.space.mem.byte? (eppnt.pVaddr + BitVec.ofNat 64 i) := by
    intro eppnt he i hlt
    unfold Memory.byte?
    show ((allocInsnBuffer e.host l.settings.toSetup l.space).1.mem _).bind _ = _
    rw [allocInsnBuffer_other (hbuf eppnt he i hlt)]
  refine ⟨(hl.guest_env _).1, fun eppnt he i hlt => ?_, fun eppnt he i h1 h2 => ?_, hx.brkLe,
    hx.brkEq⟩
  · have hle := (hs.fits eppnt he).filesz
    rw [hbyte eppnt he i (by omega)]
    exact hx.file eppnt he i hlt
  · rw [hbyte eppnt he i h2]
    exact hx.bss eppnt he i h1 h2

end

theorem oneFile_phdrs (prog : Program) :
    loads (oneFile.host.phdrs (prog.binprm oneFile.host)) = textAndBss := textAndBss_loads

theorem oneFile_exact : ∃ l front rest prog, Loads oneFile [pathA, pathA] [] front rest prog l ∧
    ((l.started oneFile).env.pc = l.info.entry ∧
      Exact (loads (oneFile.host.phdrs (l.prog.binprm oneFile.host)))
        (oneFile.host.file l.prog.fd) (l.started oneFile).space.mem l.info.brk) := by
  obtain ⟨l, front, rest, prog, hl, hsetup, _⟩ := oneFile_loaded
  have hst := textAndBss_static
  have hs : Static oneFile.host l.settings.toSetup (l.prog.binprm oneFile.host) := by
    rw [hsetup]
    exact ⟨hst.exec, hst.fits, hst.apart, hst.stack, hst.heap⟩
  have hheap : HeapClear oneFile.host l.settings.toSetup (l.prog.binprm oneFile.host) :=
    heapClear_of_le hs.fits textAndBss_heap.1 textAndBss_heap.2
  have hstack := stackClear_of_lt hs (elfLoad_ok hl.load).1 (by rw [hsetup]; decide +kernel)
  refine ⟨l, front, rest, prog, hl, started_exact hl hs hheap hstack ?_ ?_⟩
  · rw [hsetup, oneFile_phdrs]
    simp only [textAndBss, List.forall_mem_cons]
    exact ⟨fun _ h => absurd h (by decide +kernel), fun h => absurd rfl h,
      fun _ h => absurd h List.not_mem_nil⟩
  · rw [hsetup, oneFile_phdrs]
    have hlow : ∀ base : Word, base.toNat ≤ 0x20000 → ∀ i < 200,
        ¬ Span.Mem (h2g .default insnBufferMapStart) insnBufferSize (base + BitVec.ofNat 64 i) := by
      intro base hb i hi hin
      rw [Span.mem_iff (by rw [toNat_insnBuffer_default]; decide), toNat_insnBuffer_default,
        BitVec.toNat_add, BitVec.toNat_ofNat] at hin
      omega
    simp only [textAndBss, List.forall_mem_cons]
    exact ⟨fun i hi => hlow _ (by decide) i (Nat.lt_trans hi (by decide)),
      fun i hi => hlow _ (by decide) i hi, fun _ h => absurd h List.not_mem_nil⟩

end Rvvk
