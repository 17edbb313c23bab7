import Rvvk.Elf.Entry

/-!
# What start-up writes

`create_elf_tables` compares its pointer with nothing. What keeps it in the stack is
the guard page below, as long as a copy starts in the guard page when it leaves the
stack. A copy stores from its lowest byte on, and what it has stored when it faults
stays stored.
-/

namespace Rvvk

/-! ## Bytes one after the other -/

/-- The addresses that stores reach when they end or fault. That `memcpy` goes upwards is
an assumption on the C library. -/
def Memory.written (m : Memory) : List (Word × BitVec 8) → List Word
  | [] => []
  | (a, b) :: rest =>
      match m.writeByte a b with
      | .ok m => a :: m.written rest
      | .error _ => []

/-- Whether the first address outside can be written decides where the stores end. -/
theorem written_iff {m : Memory} {inside : Word → Bool}
    (hin : ∀ a, inside a = true → m.Writable a) (stores : List (Word × BitVec 8)) :
    (∀ a ∈ m.written stores, inside a = true) ↔
      ∀ a, (stores.map Prod.fst).find? (fun a => !inside a) = some a → ¬ m.Writable a := by
  induction stores generalizing m with
  | nil => simp [Memory.written]
  | cons x rest ih =>
      obtain ⟨a, b⟩ := x
      rw [List.map_cons, Memory.written]
      cases hi : inside a with
      | true =>
          rw [List.find?_cons_of_neg (by simp [hi])]
          obtain ⟨m₁, h₁⟩ := Memory.writeByte_eq_ok (b := b) (hin a hi)
          have hp : m.SamePages m₁ := Memory.writeByte_samePages h₁
          rw [h₁]
          dsimp only
          rw [List.forall_mem_cons, ih fun a ha => hp.writable.mpr (hin a ha)]
          simp only [hi, true_and, hp.writable]
      | false =>
          rw [List.find?_cons_of_pos (by simp [hi])]
          constructor
          · intro h a' ha' hw
            cases ha'
            obtain ⟨m₁, h₁⟩ := Memory.writeByte_eq_ok (b := b) hw
            rw [h₁] at h
            have hmem := h a List.mem_cons_self
            rw [hi] at hmem
            cases hmem
          · intro h
            cases hw : m.writeByte a b with
            | ok m₁ =>
                obtain ⟨c, hc, hcw, _⟩ := Memory.writeByte_spec hw
                exact absurd ⟨c, hc, hcw⟩ (h a rfl)
            | error e => exact fun a' ha' => absurd ha' List.not_mem_nil

/-! ## The stack and its guard -/

/-- The address is in the stack, as the emulator's own arithmetic has it. -/
def insideStack (limit size a : Word) : Bool := limit ≤ a && a < limit + size

theorem insideStack_iff {limit size a : Word} : insideStack limit size a = true ↔
    limit.toNat ≤ a.toNat ∧ a.toNat < (limit + size).toNat := by
  unfold insideStack
  rw [Bool.and_eq_true, decide_eq_true_iff, decide_eq_true_iff]
  exact Iff.rfl

theorem toNat_end_of_inside {limit size a : Word} (h : insideStack limit size a = true) :
    (limit + size).toNat = limit.toNat + size.toNat := by
  obtain ⟨h1, h2⟩ := insideStack_iff.mp h
  rw [BitVec.toNat_add] at h2 ⊢
  have hl := limit.isLt
  have hs := size.isLt
  omega

variable {h : Host} {c : Setup} {s s' : Space} {limit : Word}

theorem StackMade.toNat_limit (hm : StackMade h c s s' limit) :
    limit.toNat = s.mmapNextStart.toNat + 4096 := by
  have hhost := hm.anchored.host
  have hfits := hm.fresh.fits
  have htask := h.taskSize_le
  have hval : taskUnmappedBase.toNat = 0x4000000000 := rfl
  have hguard : guard.toNat = 4096 := rfl
  rw [hm.mapped.limit, BitVec.toNat_add, hguard, Nat.mod_eq_of_lt (by omega)]

theorem StackMade.writable (hm : StackMade h c s s' limit) {a : Word}
    (ha : insideStack limit c.guestStackSize a = true) : s'.mem.Writable a := by
  obtain ⟨h1, h2⟩ := insideStack_iff.mp ha
  have hlimit := hm.toNat_limit
  have hend := toNat_end_of_inside ha
  have hguard : guard.toNat = 4096 := rfl
  have hlt := (limit + c.guestStackSize).isLt
  have hle : s.mmapNextStart ≤ a := by
    show s.mmapNextStart.toNat ≤ a.toNat
    omega
  have hoff : (a - s.mmapNextStart).toNat = a.toNat - s.mmapNextStart.toNat :=
    BitVec.toNat_sub_of_le hle
  have hlen : (c.guestStackSize + guard).toNat = c.guestStackSize.toNat + 4096 := by
    rw [BitVec.toNat_add, hguard, Nat.mod_eq_of_lt (by omega)]
  have hup := le_pageUp (c.guestStackSize + guard).toNat
  refine ⟨_, hm.fresh.fresh a (by omega) ?_, rfl⟩
  unfold Span.Mem
  omega

/-- The page below `stack_limit` cannot. -/
theorem StackMade.guarded (hm : StackMade h c s s' limit) {a : Word}
    (h1 : limit.toNat ≤ a.toNat + 4096) (h2 : a.toNat < limit.toNat) : ¬ s'.mem.Writable a := by
  have hlimit := hm.toNat_limit
  have hg := hm.mapped.guardPage (a.toNat - s.mmapNextStart.toNat) (by omega)
  have he : s.mmapNextStart + BitVec.ofNat 64 (a.toNat - s.mmapNextStart.toNat) = a := by
    refine BitVec.eq_of_toNat_eq ?_
    have ha := a.isLt
    rw [BitVec.toNat_add, BitVec.toNat_ofNat]
    omega
  rwa [he] at hg

/-! ## Where the copies leave the stack -/

/-- Pieces of at most `k` bytes leave the stack for the guard page, if they are close to it
when they do. -/
theorem copies_escape {size : Word} (hend : (limit + size).toNat = limit.toNat + size.toNat)
    (h0 : 4096 ≤ limit.toNat) {k : Nat} (hk : k ≤ 4096) {strs : List (List (BitVec 8))}
    (hs : ∀ bs ∈ strs, 0 < bs.length ∧ bs.length ≤ k) {top a : Word}
    (h1 : limit.toNat + k ≤ top.toNat + 4096) (h2 : top.toNat ≤ limit.toNat + size.toNat)
    (ha : (((copiesBelow top strs).flatMap Copy.stores).map Prod.fst).find?
      (fun a => !insideStack limit size a) = some a) :
    limit.toNat ≤ a.toNat + 4096 ∧ a.toNat < limit.toNat := by
  induction strs generalizing top with
  | nil => cases ha
  | cons bs rest ih =>
      rw [List.forall_mem_cons] at hs
      obtain ⟨⟨hpos, hle⟩, hrest⟩ := hs
      have hlen : (BitVec.ofNat 64 bs.length).toNat = bs.length := by
        rw [BitVec.toNat_ofNat, Nat.mod_eq_of_lt (by omega)]
      have hsub : BitVec.ofNat 64 bs.length ≤ top := by
        show (BitVec.ofNat 64 bs.length).toNat ≤ top.toNat
        omega
      have htop : (top - BitVec.ofNat 64 bs.length).toNat = top.toNat - bs.length := by
        rw [BitVec.toNat_sub_of_le hsub, hlen]
      rw [copiesBelow, List.flatMap_cons, List.map_append, List.find?_append] at ha
      rcases Nat.lt_or_ge top.toNat (limit.toNat + bs.length) with hlt | hge
      · -- the piece starts below the stack
        have hout : (!insideStack limit size (top - BitVec.ofNat 64 bs.length)) = true := by
          refine (Bool.not_eq_true' _).mpr (Bool.eq_false_iff.mpr fun hi => ?_)
          have hi1 := (insideStack_iff.mp hi).1
          omega
        obtain ⟨b, bs', rfl⟩ := List.exists_cons_of_length_pos hpos
        rw [Copy.stores, storesFrom, List.map_cons,
          List.find?_cons_of_pos (p := fun a => !insideStack limit size a) hout] at ha
        cases ha
        omega
      · have hnone : ((Copy.stores ⟨top - BitVec.ofNat 64 bs.length, bs⟩).map Prod.fst).find?
            (fun a => !insideStack limit size a) = none := by
          refine List.find?_eq_none.mpr fun x hx => ?_
          obtain ⟨i, hi, rfl⟩ := mem_storesFrom.mp hx
          have hi' : i < bs.length := hi
          have hx : (top - BitVec.ofNat 64 bs.length + BitVec.ofNat 64 i).toNat =
              top.toNat - bs.length + i := by
            rw [BitVec.toNat_add, htop, BitVec.toNat_ofNat]
            omega
          have hin : insideStack limit size
              (top - BitVec.ofNat 64 bs.length + BitVec.ofNat 64 i) = true :=
            insideStack_iff.mpr (by omega)
          simp [hin]
        rw [hnone, Option.none_or] at ha
        exact ih hrest (by omega) (by omega) ha

/-! ## Start-up -/

/-- `elf_load` up to `create_elf_tables`, with `stack_limit`. -/
def startup (h : Host) (c : Setup) (prog : Program) : Except Failure (Space × ImageInfo × Word) := do
  let (s, bprm) ← prepareBinprm h .start prog
  loadStack h c s bprm

theorem elfLoad_startup (h : Host) (c : Setup) (prog : Program) :
    elfLoad h c .start prog = startup h c prog >>= fun r =>
      (makeTables h r.1 (prog.binprm h) (stackTop c r.2.2)).map fun q =>
        (q.1, { r.2.1 with stackLimit := r.2.2, startStack := q.2 },
          ⟨r.2.1.entry, q.2⟩) := by
  unfold elfLoad startup
  cases hp : prepareBinprm h .start prog with
  | error e => rfl
  | ok r =>
      obtain ⟨s, bprm⟩ := r
      obtain ⟨_, rfl⟩ := prepareBinprm_ok hp
      simp only [bind, Except.bind, loadElfBinary_stack]
      cases loadStack h c s (prog.binprm h) with
      | error e => rfl
      | ok r =>
          dsimp only [stackTop]
          cases makeTables h r.1 (prog.binprm h) (r.2.2 + c.guestStackSize - 8) <;> rfl

/-- `elf_load` fails before it enters `create_elf_tables` or has no array for it, or every
byte that `create_elf_tables` writes lies in the stack. -/
def Confined (h : Host) (c : Setup) (prog : Program) : Prop :=
  ∀ s info limit, startup h c prog = .ok (s, info, limit) → (h.malloc s).2 = true →
    ∀ a ∈ s.mem.written ((prog.binprm h).tableStores (stackTop c limit)),
      insideStack limit c.guestStackSize a = true

/-- The first byte of the strings that would lie outside the stack, if there is one, cannot
be written. -/
def StopsOutside (h : Host) (c : Setup) (prog : Program) : Prop :=
  ∀ s info limit, startup h c prog = .ok (s, info, limit) → (h.malloc s).2 = true →
    ∀ a, (((prog.binprm h).stringStores (stackTop c limit)).map Prod.fst).find?
      (fun a => !insideStack limit c.guestStackSize a) = some a → ¬ s.mem.Writable a

theorem endBelow_mem_stringStores (bprm : Binprm) (p : Word) :
    endBelow p bprm.strings ∈ (bprm.stringStores p).map Prod.fst := by
  unfold Binprm.stringStores Binprm.strings
  rw [endBelow_append p (bprm.envStrings ++ bprm.argStrings), endBelow_cons, endBelow_nil,
    copiesBelow_append, List.flatMap_append, List.map_append]
  refine List.mem_append_right _ ?_
  rw [copiesBelow, copiesBelow, List.flatMap_cons, List.flatMap_nil, List.append_nil]
  refine mem_storesFrom.mpr ⟨0, ?_, by simp⟩
  simp [CString.terminated]

/-- Only the strings can leave the stack for a place that can be written. -/
theorem StackMade.escape_iff (hm : StackMade h c s s' limit) (bprm : Binprm) :
    (∀ a, ((bprm.tableStores (stackTop c limit)).map Prod.fst).find?
        (fun a => !insideStack limit c.guestStackSize a) = some a → ¬ s'.mem.Writable a) ↔
      ∀ a, ((bprm.stringStores (stackTop c limit)).map Prod.fst).find?
        (fun a => !insideStack limit c.guestStackSize a) = some a → ¬ s'.mem.Writable a := by
  unfold Binprm.tableStores Binprm.copies
  rw [List.flatMap_append, List.map_append, List.find?_append]
  change (∀ a, (((bprm.stringStores (stackTop c limit)).map Prod.fst).find? _).or _ = some a → _) ↔ _
  cases hf : ((bprm.stringStores (stackTop c limit)).map Prod.fst).find?
      (fun a => !insideStack limit c.guestStackSize a) with
  | some x => exact Iff.rfl
  | none =>
      refine iff_of_true (fun a ha => ?_) (fun a ha => by cases ha)
      rw [Option.none_or] at ha
      -- all strings lie in the stack, so the table begins close to it
      have hi := List.find?_eq_none.mp hf _ (endBelow_mem_stringStores bprm (stackTop c limit))
      rw [Bool.not_eq_true', Bool.not_eq_false] at hi
      obtain ⟨h1, h2⟩ := insideStack_iff.mp hi
      have hend := toNat_end_of_inside hi
      have hlimit := hm.toNat_limit
      have hround := toNat_roundDown_word (endBelow (stackTop c limit) bprm.strings)
      have hval : taskUnmappedBase.toNat = 0x4000000000 := rfl
      have hbase := hm.anchored.base
      have htop : (bprm.tableTop (stackTop c limit)).toNat =
          (endBelow (stackTop c limit) bprm.strings).toNat / 8 * 8 - 24 := by
        have h8 : (8 : Word).toNat = 8 := rfl
        have h16 : (16 : Word).toNat = 16 := rfl
        unfold Binprm.tableTop
        rw [BitVec.toNat_sub, BitVec.toNat_sub, hround, h8, h16]
        omega
      have hslots : ∀ bs ∈ bprm.slots (stackTop c limit), 0 < bs.length ∧ bs.length ≤ 8 := by
        intro bs hbs
        obtain ⟨v, _, rfl⟩ := List.mem_map.mp hbs
        rw [LittleEndian.length_bytes]
        omega
      obtain ⟨hg1, hg2⟩ := copies_escape hend (by omega) (by decide) hslots (by omega) (by omega) ha
      exact hm.guarded hg1 hg2

/-- Start-up is confined to the stack if and only if the strings do not leave it for a
place that can be written. -/
theorem confined_iff (h : Host) (c : Setup) (prog : Program) :
    Confined h c prog ↔ StopsOutside h c prog := by
  have hone : ∀ s info limit, startup h c prog = .ok (s, info, limit) →
      ((∀ a ∈ s.mem.written ((prog.binprm h).tableStores (stackTop c limit)),
          insideStack limit c.guestStackSize a = true) ↔
        ∀ a, (((prog.binprm h).stringStores (stackTop c limit)).map Prod.fst).find?
          (fun a => !insideStack limit c.guestStackSize a) = some a → ¬ s.mem.Writable a) := by
    intro s info limit hs
    obtain ⟨⟨s₁, bprm⟩, h₁, hs⟩ := bind_eq_ok hs
    obtain ⟨rfl, rfl⟩ := prepareBinprm_ok h₁
    obtain ⟨s₃, hm⟩ := loadStack_ok hs ((Space.start_anchored c).congr rfl)
    rw [written_iff fun a ha => hm.writable ha]
    exact hm.escape_iff _
  unfold Confined StopsOutside
  constructor
  · intro hc s info limit hs hmal
    exact (hone s info limit hs).mp (hc s info limit hs hmal)
  · intro hc s info limit hs hmal
    exact (hone s info limit hs).mpr (hc s info limit hs hmal)

/-- The first string that begins below the stack, if there is one, begins in its guard page. -/
def BeginsInGuard (h : Host) (c : Setup) (prog : Program) : Prop :=
  ∀ s info limit, startup h c prog = .ok (s, info, limit) →
    ∀ a, (((prog.binprm h).stringStores (stackTop c limit)).map Prod.fst).find?
      (fun a => !insideStack limit c.guestStackSize a) = some a →
        limit.toNat ≤ a.toNat + 4096 ∧ a.toNat < limit.toNat

theorem BeginsInGuard.confined {h : Host} {c : Setup} {prog : Program}
    (hb : BeginsInGuard h c prog) : Confined h c prog := by
  refine (confined_iff h c prog).mpr fun s info limit hs _ a ha => ?_
  obtain ⟨hlow, hhigh⟩ := hb s info limit hs a ha
  obtain ⟨⟨s₁, bprm⟩, h₁, hs⟩ := bind_eq_ok hs
  obtain ⟨rfl, rfl⟩ := prepareBinprm_ok h₁
  obtain ⟨s₃, hm⟩ := loadStack_ok hs ((Space.start_anchored c).congr rfl)
  exact hm.guarded hlow hhigh

/-- Where the size and the guard do not wrap and no string is much longer than a page, a
string that does not fit begins in the guard page. -/
theorem beginsInGuard_of_short (h : Host) (c : Setup) (prog : Program)
    (hsize : c.guestStackSize.toNat + 4096 < 2 ^ 64)
    (hshort : ∀ bs ∈ (prog.binprm h).strings, bs.length ≤ 4088) : BeginsInGuard h c prog := by
  intro s info limit hs a ha
  obtain ⟨⟨s₁, bprm⟩, h₁, hs⟩ := bind_eq_ok hs
  obtain ⟨rfl, rfl⟩ := prepareBinprm_ok h₁
  obtain ⟨s₃, hm⟩ := loadStack_ok hs ((Space.start_anchored c).congr rfl)
  have hlimit := hm.toNat_limit
  have hval : taskUnmappedBase.toNat = 0x4000000000 := rfl
  have hbase := hm.anchored.base
  have hguard : guard.toNat = 4096 := rfl
  have hhost := hm.anchored.host
  have hfits := hm.fresh.fits
  have htask := h.taskSize_le
  have hup := le_pageUp (c.guestStackSize + guard).toNat
  rw [BitVec.toNat_add, hguard, Nat.mod_eq_of_lt hsize] at hup hfits
  have hend : (limit + c.guestStackSize).toNat = limit.toNat + c.guestStackSize.toNat := by
    rw [BitVec.toNat_add, Nat.mod_eq_of_lt (by omega)]
  have htop : (stackTop c limit).toNat = limit.toNat + c.guestStackSize.toNat - 8 := by
    have h8 : (8 : Word).toNat = 8 := rfl
    unfold stackTop
    rw [BitVec.toNat_sub, hend, h8]
    omega
  have hstrs : ∀ bs ∈ (prog.binprm h).strings, 0 < bs.length ∧ bs.length ≤ 4088 := by
    intro bs hbs
    refine ⟨?_, hshort bs hbs⟩
    rw [Binprm.strings_eq] at hbs
    obtain ⟨str, _, rfl⟩ := List.mem_map.mp hbs
    simp [CString.terminated]
  exact copies_escape hend (by omega) (by decide) hstrs (by omega) (by omega) ha

theorem confined_of_short (h : Host) (c : Setup) (prog : Program)
    (hsize : c.guestStackSize.toNat + 4096 < 2 ^ 64)
    (hshort : ∀ bs ∈ (prog.binprm h).strings, bs.length ≤ 4088) : Confined h c prog :=
  (beginsInGuard_of_short h c prog hsize hshort).confined

/-! ## A size that wraps -/

/-- The default build with `-s 0xfffffffffffff008`: with the guard page 8 bytes are left. -/
def wrappedStack : Setup := { Setup.default with guestStackSize := 0xfffffffffffff008 }

/-- A text segment, and zeros whose heap ends where the stack begins. -/
def heapBelowStack : List Phdr :=
  [⟨ptLoad, pfR ||| pfX, 0, 0x10000, 120, 120, 4096⟩,
    ⟨ptLoad, pfR ||| pfW, 0, 0x3ffdff0000, 0, 0x10000, 4096⟩]

/-- The load succeeds, and the strings and the table are in the heap. -/
theorem wrappedStack_not_confined :
    ¬ Confined (fileHost (execFile heapBelowStack)) wrappedStack commandRootA := by
  intro hc
  obtain ⟨⟨s, info, limit⟩, hs, hp⟩ := exists_of_any
    (show (startup (fileHost (execFile heapBelowStack)) wrappedStack commandRootA).toOption.any
      (fun r => ((fileHost (execFile heapBelowStack)).malloc r.1).2 &&
        !(r.1.mem.written ((commandRootA.binprm (fileHost (execFile heapBelowStack))).tableStores
          (stackTop wrappedStack r.2.2))).all (insideStack r.2.2 wrappedStack.guestStackSize)) =
        true by decide +kernel)
  rw [Bool.and_eq_true, Bool.not_eq_true'] at hp
  have hall := List.all_eq_true.mpr (hc s info limit hs hp.1)
  rw [hp.2] at hall
  cases hall

end Rvvk
