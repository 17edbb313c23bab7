import Rvvk.Exec.Syscall

/-!
# The two builds

`__STRICT_ANSI__` decides whether `host_mmap` opens `/dev/zero` for a negative
descriptor, whether `MAP_ANONYMOUS` is added to the requests of the emulator and to
those of the guest without `MAP_FIXED`, and which host call serves `faccessat`. Both
builds run on one host, where `/dev/zero` can be mapped and memory runs out at the same
call in both.
-/

namespace Rvvk

/-- The build with `__STRICT_ANSI__`. -/
def Setup.strict (c : Setup) : Setup := { c with strictAnsi := true }

/-- The build without it. -/
def Setup.plain (c : Setup) : Setup := { c with strictAnsi := false }

/-- What the guest sees of a mapping call: the memory and the result. -/
def shown (x : Space × Word) : Memory × Word := (x.1.mem, x.2)

/-- What the host looks at beside the descriptor. -/
def Host.Serves (h : Host) (calls : Nat) (r : MmapArgs) : Prop :=
  h.Accepts r ∧ h.grants calls = true

/-- A request without `MAP_FIXED` gets as far as its mapping, and the host serves it. -/
structure Arrives (h : Host) (c : Setup) (s : Space) (r : MmapArgs) : Prop where
  reserved : h.Serves s.calls (reservation c (s.place r.addr) r.length)
  placed : s.place r.addr ≠ failed
  served : h.Serves (s.calls + 1) ((r.settle c (s.place r.addr)).onHost c)

/-- The pages of a file have nothing but zeros in a range. -/
structure File.Zeros (f : File) (offset len : Nat) : Prop where
  inside : ∀ i < len, offset + i < pageUp f.size
  zero : ∀ i < len, offset + i < f.size → f.byte (offset + i) = 0

/-- The mapping is the same in both builds: it is anonymous, or its descriptor stands for
zeros, or it never comes to be; a request without `MAP_FIXED` for a file is, if the file
can be mapped and has zeros only, and one with `MAP_FIXED` for a negative descriptor, if
it maps zeros over zeros at the address that means failure. -/
def MmapAlike (h : Host) (c : Setup) (s : Space) (r : MmapArgs) : Prop :=
  r.flags &&& mapAnonymous ≠ 0 ∨
    if r.flags &&& mapFixed = 0 then
      r.fd.slt 0 = true ∨ (Arrives h c s r →
        h.opened r.fd r.prot (r.flags ||| mapFixed) = true ∧
          (h.file r.fd).Zeros r.offset.toNat (pageUp r.length.toNat))
    else
      r.fd.slt 0 = false ∨ (h.Serves s.calls (r.onHost c) →
        r.addr = failed ∧ ShowsAlready s.mem r.addr r.length .zero r.prot r.offset)

/-! ## Directories -/

/-- `AT_FDCWD`: paths are relative to the working directory. -/
def atFdcwd : BitVec 32 := -100

/-- The host can copy the path, and it does not begin with `/`. A path of 4096 bytes or more
is refused unread. -/
def Relative (m : Memory) (path : Word) : Prop :=
  m.byte? path ≠ some 0x2f ∧
    ∃ n < 4096, 0 < n ∧ m.byte? (path + BitVec.ofNat 64 n) = some 0 ∧
      ∀ i < n, m.byte? (path + BitVec.ofNat 64 i) ≠ none ∧
        m.byte? (path + BitVec.ofNat 64 i) ≠ some 0

/-- The host gets to the directory: it refuses a mode with other bits than `R_OK`, `W_OK`
and `X_OK` first. -/
def UsesDirectory (m : Memory) (path : Word) (mode : BitVec 32) : Prop :=
  mode &&& ~~~7 = 0 ∧ Relative m path

instance (m : Memory) (path : Word) : Decidable (Relative m path) :=
  inferInstanceAs (Decidable (_ ∧ _))

instance (m : Memory) (path : Word) (mode : BitVec 32) : Decidable (UsesDirectory m path mode) :=
  inferInstanceAs (Decidable (_ ∧ _))

/-- What the host promises of `access` and `faccessat`. -/
structure HostCalls.Posix (y : HostCalls) (c : Setup) : Prop where
  access : ∀ s path mode, y.access s path mode = y.faccessat s atFdcwd path mode 0
  directory : ∀ s fd path mode, ¬ UsesDirectory s.mem (h2g c path) mode →
    y.faccessat s fd path mode 0 = y.faccessat s atFdcwd path mode 0

/-- The answer is the same in both builds: the directory is the working directory, or
the host does not get to it. -/
def AccessAlike (m : Memory) (arg1 arg2 arg3 : Word) : Prop :=
  arg1.setWidth 32 = atFdcwd ∨ ¬ UsesDirectory m arg2 (arg3.setWidth 32)

/-! ## System calls -/

def seen (x : Except Stop (Kernel × Word)) : Except Stop (Memory × Word) :=
  x.map fun y => (y.1.space.mem, y.2)

/-- The two builds do the same with a system call, on every host. -/
def BuildsAgree (h : Host) (c : Setup) (k : Kernel) (nr : BitVec 32)
    (arg1 arg2 arg3 arg4 arg5 arg6 : Word) : Prop :=
  ∀ y : HostCalls, y.Posix c →
    seen (doSyscall h y c.strict k nr arg1 arg2 arg3 arg4 arg5 arg6) =
      seen (doSyscall h y c.plain k nr arg1 arg2 arg3 arg4 arg5 arg6)

/-! ## Mappings -/

section

variable {h : Host} {c : Setup} {s : Space} {r : MmapArgs}

theorem grants_of_serves {b : Backing} {n : Nat} (hs : h.Serves n r)
    (hb : h.backing? c r = some b) : h.Grants c n r :=
  ⟨hs.1, hs.2, by rw [hb]; rfl⟩

theorem Host.Grants.serves {n : Nat} (hg : h.Grants c n r) : h.Serves n r :=
  ⟨hg.1, hg.2.1⟩

theorem shown_refused (hs : ¬ h.Serves s.calls (r.onHost c)) :
    shown (targetMmapAt h c s r) = (s.mem, failed) := by
  have hg : ¬ h.Grants c s.calls (r.onHost c) := fun hg => hs hg.serves
  obtain ⟨hfail, hm⟩ := targetMmapAt_refused hg
  rw [shown, hm, hfail]

theorem shown_none (hb : h.backing? c r = none) :
    shown (targetMmapAt h c s r) = (s.mem, failed) := by
  have hg : ¬ h.Grants c s.calls (r.onHost c) := by
    intro hg
    have hsome := hg.2.2
    rw [show h.backing? c (r.onHost c) = h.backing? c r from rfl, hb] at hsome
    cases hsome
  obtain ⟨hfail, hm⟩ := targetMmapAt_refused hg
  rw [shown, hm, hfail]

theorem shown_some {b : Backing} (hs : h.Serves s.calls (r.onHost c))
    (hb : h.backing? c r = some b) :
    shown (targetMmapAt h c s r) =
      (s.mem.mapPages r.addr (pageUp r.length.toNat) b (.ofBits r.prot) r.offset.toNat,
        r.addr) := by
  obtain ⟨ha, b', hb', hm⟩ := targetMmapAt_granted (grants_of_serves hs hb)
  rw [hb] at hb'
  cases hb'
  rw [shown, ha, hm]

/-! ### Requests that are the same in both builds -/

theorem backing_anonymous (ha : r.flags &&& mapAnonymous ≠ 0) : h.backing? c r = some .zero := by
  unfold Host.backing?
  exact if_pos (by simpa using ha)

theorem backing_negative_strict (hfd : r.fd.slt 0 = true) :
    h.backing? c.strict r = some .zero := by
  unfold Host.backing?
  rw [if_pos hfd]
  split <;> rfl

theorem backing_negative_plain (ha : r.flags &&& mapAnonymous = 0) (hfd : r.fd.slt 0 = true) :
    h.backing? c.plain r = none := by
  unfold Host.backing?
  rw [if_neg (by simp [ha]), if_pos hfd]
  rfl

structure SamePages (r r' : MmapArgs) : Prop where
  addr : r.addr = r'.addr
  length : r.length = r'.length
  prot : r.prot = r'.prot
  offset : r.offset = r'.offset

theorem SamePages.symm {r r' : MmapArgs} (hp : SamePages r r') : SamePages r' r :=
  ⟨hp.addr.symm, hp.length.symm, hp.prot.symm, hp.offset.symm⟩

theorem SamePages.accepts {r r' : MmapArgs} (hp : SamePages r r') (hacc : h.Accepts r) :
    h.Accepts r' := by
  refine ⟨hp.addr ▸ hacc.addr, hp.length ▸ hacc.length, ?_, hp.offset ▸ hacc.offset⟩
  rw [← hp.addr, ← hp.length]
  exact hacc.fits

theorem Host.Serves.congr {n : Nat} {r r' : MmapArgs} (hs : h.Serves n r) (hp : SamePages r r') :
    h.Serves n r' :=
  ⟨hp.accepts hs.1, hs.2⟩

theorem hostMmap_alike {r r' : MmapArgs} (hp : SamePages r r')
    (hb : h.backing? c.strict r = h.backing? c.plain r') :
    hostMmap h c.strict s r = hostMmap h c.plain s r' := by
  unfold hostMmap
  rw [hb]
  cases h.backing? c.plain r' with
  | none => rfl
  | some b =>
      show h.mmap c.strict s r b = h.mmap c.plain s r' b
      unfold Host.mmap
      by_cases hs : h.Accepts r ∧ h.grants s.calls = true
      · rw [if_pos hs, if_pos ⟨hp.accepts hs.1, hs.2⟩, hp.addr, hp.length, hp.prot, hp.offset]
        rfl
      · rw [if_neg hs, if_neg fun hs' => hs ⟨hp.symm.accepts hs'.1, hs'.2⟩]

theorem targetMmapAt_alike {r r' : MmapArgs} (hp : SamePages r r')
    (hb : h.backing? c.strict r = h.backing? c.plain r') :
    targetMmapAt h c.strict s r = targetMmapAt h c.plain s r' := by
  have hhost : SamePages (r.onHost c.strict) (r'.onHost c.plain) :=
    ⟨congrArg (g2h c) hp.addr, hp.length, hp.prot, hp.offset⟩
  have hsame : hostMmap h c.strict s (r.onHost c.strict) =
      hostMmap h c.plain s (r'.onHost c.plain) := hostMmap_alike hhost hb
  unfold MmapArgs.onHost at hsame
  unfold targetMmapAt
  rw [hsame, hp.addr]

theorem mmapFindVma_alike (addr length : Word) :
    mmapFindVma h c.strict s addr length = mmapFindVma h c.plain s addr length := by
  have hsame : hostMmap h c.strict s (reservation c.strict (s.place addr) length) =
      hostMmap h c.plain s (reservation c.plain (s.place addr) length) :=
    hostMmap_alike ⟨rfl, rfl, rfl, rfl⟩
      ((backing_reservation _ _).trans (backing_reservation _ _).symm)
  unfold mmapFindVma
  dsimp only
  rw [hsame]
  rfl

/-! ### The two kinds that are not -/

theorem fixed_alike_iff (hf : r.flags &&& mapFixed ≠ 0) :
    shown (targetMmap h c.strict s r) = shown (targetMmap h c.plain s r) ↔ MmapAlike h c s r := by
  rw [targetMmap_fixed hf, targetMmap_fixed hf]
  unfold MmapAlike
  rw [if_neg hf]
  by_cases ha : r.flags &&& mapAnonymous = 0
  · cases hfd : r.fd.slt 0 with
    | false =>
        have hsame : h.backing? c.strict r = h.backing? c.plain r := by
          rw [backing_file ha hfd, backing_file ha hfd]
        rw [targetMmapAt_alike ⟨rfl, rfl, rfl, rfl⟩ hsame]
        exact iff_of_true rfl (.inr (.inl rfl))
    | true =>
        rw [shown_none (backing_negative_plain ha hfd)]
        by_cases hs : h.Serves s.calls (r.onHost c)
        · rw [shown_some (c := c.strict) hs (backing_negative_strict hfd), Prod.mk.injEq,
            mapPages_eq_self]
          constructor
          · rintro ⟨hm, hr⟩
            exact .inr (.inr fun _ => ⟨hr, hm⟩)
          · rintro (hne | hc | hk)
            · exact absurd ha hne
            · cases hc
            · exact (hk hs).symm
        · rw [shown_refused (c := c.strict) hs]
          exact iff_of_true rfl (.inr (.inr fun hs' => absurd hs' hs))
  · have hsame : h.backing? c.strict r = h.backing? c.plain r := by
      rw [backing_anonymous ha, backing_anonymous ha]
    rw [targetMmapAt_alike ⟨rfl, rfl, rfl, rfl⟩ hsame]
    exact iff_of_true rfl (.inl ha)

theorem settle_anonymous_strict (place : Word) :
    (r.settle c.strict place).flags &&& mapAnonymous = r.flags &&& mapAnonymous := by
  show (r.flags ||| 0 ||| mapFixed) &&& mapAnonymous = r.flags &&& mapAnonymous
  have hd : mapFixed &&& mapAnonymous = 0 := by decide
  rw [BitVec.and_or_distrib_right, hd]
  simp

theorem settle_anonymous_plain (place : Word) :
    (r.settle c.plain place).flags &&& mapAnonymous ≠ 0 := by
  show (r.flags ||| mapAnonymous ||| mapFixed) &&& mapAnonymous ≠ 0
  rw [BitVec.and_or_distrib_right, BitVec.and_or_distrib_right]
  intro h0
  exact absurd (BitVec.or_eq_zero_iff.mp (BitVec.or_eq_zero_iff.mp h0).1).2 (by decide)

/-- Where a file's page and a page of zeros are the same. -/
theorem cell_zero_iff {f : File} {prot : Prot} {o : Nat} :
    (Backing.file f).cell? prot o = Backing.zero.cell? prot o ↔
      o < pageUp f.size ∧ (o < f.size → f.byte o = 0) := by
  have hle := le_pageUp f.size
  unfold Backing.cell?
  dsimp only
  split
  · rename_i ho
    simp [ho, Nat.lt_of_lt_of_le ho hle]
  · rename_i ho
    split <;> simp_all

theorem mapPages_zeros_iff {m : Memory} {f : File} {base : Word} {len offset : Nat} {prot : Prot}
    (hlen : len ≤ 2 ^ 64) :
    m.mapPages base len (.file f) prot offset = m.mapPages base len .zero prot offset ↔
      f.Zeros offset len := by
  constructor
  · intro he
    have hcell : ∀ i < len, offset + i < pageUp f.size ∧
        (offset + i < f.size → f.byte (offset + i) = 0) := by
      intro i hi
      have hat := congrFun he (base + BitVec.ofNat 64 i)
      unfold Memory.mapPages at hat
      have hoff : (base + BitVec.ofNat 64 i - base).toNat = i := by
        rw [BitVec.add_comm, BitVec.add_sub_cancel, BitVec.toNat_ofNat]
        exact Nat.mod_eq_of_lt (by omega)
      rw [if_pos (Span.mem_offset base hi), if_pos (Span.mem_offset base hi), hoff] at hat
      exact cell_zero_iff.mp hat
    exact ⟨fun i hi => (hcell i hi).1, fun i hi => (hcell i hi).2⟩
  · intro hz
    funext a
    unfold Memory.mapPages
    split
    · rename_i ha
      exact cell_zero_iff.mpr ⟨hz.inside _ ha, hz.zero _ ha⟩
    · rfl

section

variable {place : Word}

theorem settle_samePages (c' : Setup) (hb : c'.guestBase = c.guestBase) :
    SamePages ((r.settle c place).onHost c) ((r.settle c' place).onHost c') :=
  ⟨congrArg (place + ·) hb.symm, rfl, rfl, rfl⟩

theorem settled_alike_iff (ha : r.flags &&& mapAnonymous = 0)
    (hfd : r.fd.slt 0 = false) (hp : place ≠ failed)
    (hs : h.Serves s.calls ((r.settle c place).onHost c)) :
    shown (targetMmapAt h c.strict s (r.settle c.strict place)) =
        shown (targetMmapAt h c.plain s (r.settle c.plain place)) ↔
      h.opened r.fd r.prot (r.flags ||| mapFixed) = true ∧
        (h.file r.fd).Zeros r.offset.toNat (pageUp r.length.toNat) := by
  have hstrict : h.Serves s.calls ((r.settle c.strict place).onHost c.strict) :=
    hs.congr (settle_samePages _ rfl)
  have hplain : h.Serves s.calls ((r.settle c.plain place).onHost c.plain) :=
    hs.congr (settle_samePages _ rfl)
  have hlen : pageUp r.length.toNat ≤ 2 ^ 64 := by
    have hfits : (g2h c place).toNat + pageUp r.length.toNat ≤ h.taskSize := hs.1.fits
    have htask := h.taskSize_le
    omega
  have hflags : (r.settle c.strict place).flags = r.flags ||| mapFixed := by
    show r.flags ||| 0 ||| mapFixed = r.flags ||| mapFixed
    simp
  have hback := backing_file (h := h) (c := c.strict) (r := r.settle c.strict place)
    ((settle_anonymous_strict place).trans ha) hfd
  rw [hflags] at hback
  rw [shown_some hplain (backing_anonymous (settle_anonymous_plain place))]
  by_cases ho : h.opened r.fd r.prot (r.flags ||| mapFixed) = true
  · rw [shown_some hstrict (hback.trans (if_pos ho)), Prod.mk.injEq]
    constructor
    · exact fun he => ⟨ho, (mapPages_zeros_iff hlen).mp he.1⟩
    · exact fun hz => ⟨(mapPages_zeros_iff hlen).mpr hz.2, rfl⟩
  · rw [shown_none (hback.trans (if_neg ho)), Prod.mk.injEq]
    exact iff_of_false (fun he => hp he.2.symm) (fun hz => ho hz.1)

theorem settled_alike (hr : r.flags &&& mapAnonymous ≠ 0 ∨ r.fd.slt 0 = true) :
    targetMmapAt h c.strict s (r.settle c.strict place) =
      targetMmapAt h c.plain s (r.settle c.plain place) := by
  have hzero : h.backing? c.strict (r.settle c.strict place) = some .zero := by
    rcases hr with ha | hfd
    · exact backing_anonymous ((settle_anonymous_strict place).trans_ne ha)
    · exact backing_negative_strict hfd
  refine targetMmapAt_alike ⟨rfl, rfl, rfl, rfl⟩ ?_
  rw [hzero, backing_anonymous (settle_anonymous_plain place)]

theorem settled_refused (hs : ¬ h.Serves s.calls ((r.settle c place).onHost c)) :
    shown (targetMmapAt h c.strict s (r.settle c.strict place)) =
      shown (targetMmapAt h c.plain s (r.settle c.plain place)) := by
  have hstrict : ¬ h.Serves s.calls ((r.settle c.strict place).onHost c.strict) :=
    fun hs' => hs (hs'.congr (settle_samePages c rfl))
  have hplain : ¬ h.Serves s.calls ((r.settle c.plain place).onHost c.plain) :=
    fun hs' => hs (hs'.congr (settle_samePages c rfl))
  rw [shown_refused hstrict, shown_refused hplain]

end

theorem nonfixed_alike_iff (hf : r.flags &&& mapFixed = 0) :
    shown (targetMmap h c.strict s r) = shown (targetMmap h c.plain s r) ↔ MmapAlike h c s r := by
  have hsame : mmapFindVma h c.strict s r.addr r.length = mmapFindVma h c.plain s r.addr r.length :=
    mmapFindVma_alike r.addr r.length
  have hcalls := mmapFindVma_calls h c.plain s r.addr r.length
  unfold MmapAlike
  rw [if_pos hf]
  by_cases hg : h.Serves s.calls (reservation c (s.place r.addr) r.length)
  · have hgp : h.Grants c.plain s.calls (reservation c.plain (s.place r.addr) r.length) :=
      grants_of_serves (hg.congr ⟨rfl, rfl, rfl, rfl⟩) (backing_reservation _ _)
    have hplace := (mmapFindVma_granted hgp).1
    by_cases hp : s.place r.addr = failed
    · rw [targetMmap_refused hf (hplace.trans hp), targetMmap_refused hf
        ((congrArg Prod.snd hsame).trans (hplace.trans hp)), hsame]
      exact iff_of_true rfl (.inr (.inr fun harr => absurd hp harr.placed))
    · rw [targetMmap_settled hf hplace hp, targetMmap_settled hf
        ((congrArg Prod.snd hsame).trans hplace) hp, hsame]
      by_cases hr : r.flags &&& mapAnonymous ≠ 0 ∨ r.fd.slt 0 = true
      · rw [settled_alike hr]
        exact iff_of_true rfl (hr.imp_right .inl)
      · obtain ⟨ha, hfd⟩ := not_or.mp hr
        by_cases hs : h.Serves (s.calls + 1) ((r.settle c (s.place r.addr)).onHost c)
        · rw [settled_alike_iff (not_not.mp ha) (by simpa using hfd) hp (hcalls ▸ hs)]
          exact ⟨fun hz => .inr (.inr fun _ => hz),
            fun hk => (hk.resolve_left ha).resolve_left hfd ⟨hg, hp, hs⟩⟩
        · rw [settled_refused (hcalls ▸ hs)]
          exact iff_of_true rfl (.inr (.inr fun harr => absurd harr.served hs))
  · have hgp : ¬ h.Grants c.plain s.calls (reservation c.plain (s.place r.addr) r.length) :=
      fun hgp => hg (hgp.serves.congr ⟨rfl, rfl, rfl, rfl⟩)
    have hfail := (mmapFindVma_refused hgp).1
    rw [targetMmap_refused hf hfail, targetMmap_refused hf
      ((congrArg Prod.snd hsame).trans hfail), hsame]
    exact iff_of_true rfl (.inr (.inr fun harr => absurd harr.reserved hg))

theorem mmap_alike_iff (h : Host) (c : Setup) (s : Space) (r : MmapArgs) :
    shown (targetMmap h c.strict s r) = shown (targetMmap h c.plain s r) ↔ MmapAlike h c s r := by
  by_cases hf : r.flags &&& mapFixed = 0
  · exact nonfixed_alike_iff hf
  · exact fixed_alike_iff hf

end

/-! ## Answers -/

section

variable {h : Host} {y : HostCalls} {c : Setup} {k : Kernel}

theorem seen_mmap (arg1 arg2 arg3 arg4 arg5 arg6 : Word) :
    seen (doSyscall h y c k TargetNr.mmap arg1 arg2 arg3 arg4 arg5 arg6) =
      .ok (shown (targetMmap h c k.space (mmapArgs arg1 arg2 arg3 arg4 arg5 arg6))) := by
  unfold doSyscall
  rw [if_neg (by decide), if_neg (by decide), if_neg (by decide), if_neg (by decide),
    if_neg (by decide), if_neg (by decide), if_pos rfl]
  rfl

theorem seen_faccessat (arg1 arg2 arg3 arg4 arg5 arg6 : Word) :
    seen (doSyscall h y c k TargetNr.faccessat arg1 arg2 arg3 arg4 arg5 arg6) =
      .ok (k.space.mem, (libc (hostFaccessat y c k.space arg1 arg2 arg3)).signExtend 64) := by
  unfold doSyscall
  rw [if_pos rfl]
  rfl

/-- A host whose working directory has every name; no other directory is open. -/
def workingDirectory (c : Setup) : HostCalls where
  access _ _ _ := .ok 0
  faccessat s fd path mode _ :=
    if UsesDirectory s.mem (h2g c path) mode ∧ fd ≠ atFdcwd then .error 9 else .ok 0
  fstat _ _ := .error 9
  write _ _ _ _ := .error 9
  mmapErrno _ := 12
  stale _ := ⟨0, 0, 0, 0, 0, 0, 0, 0, 0, 0, 0, 0, 0, 0, 0, 0⟩

theorem workingDirectory_posix (c : Setup) : (workingDirectory c).Posix c where
  access _ _ _ := (if_neg fun hu => hu.2 rfl).symm
  directory _ _ _ _ hn := (if_neg fun hu => hn hu.1).trans (if_neg fun hu => hu.2 rfl).symm

theorem faccessat_alike (hy : y.Posix c) {s : Space} {arg1 arg2 arg3 : Word}
    (ha : AccessAlike s.mem arg1 arg2 arg3) :
    hostFaccessat y c.strict s arg1 arg2 arg3 = hostFaccessat y c.plain s arg1 arg2 arg3 := by
  show y.access s (g2h c arg2) (arg3.setWidth 32) =
    y.faccessat s (arg1.setWidth 32) (g2h c arg2) (arg3.setWidth 32) 0
  rw [hy.access]
  rcases ha with hcwd | hnot
  · rw [hcwd]
  · rw [hy.directory s (arg1.setWidth 32) _ _ (by rwa [h2g_g2h])]

theorem faccessat_not_alike {s : Space} {arg1 arg2 arg3 : Word}
    (ha : ¬ AccessAlike s.mem arg1 arg2 arg3) :
    hostFaccessat (workingDirectory c) c.strict s arg1 arg2 arg3 = .ok 0 ∧
      hostFaccessat (workingDirectory c) c.plain s arg1 arg2 arg3 = .error 9 := by
  obtain ⟨hcwd, huses⟩ := not_or.mp ha
  have hpath : h2g c (g2h c.plain arg2) = arg2 := h2g_g2h c arg2
  refine ⟨rfl, ?_⟩
  show (workingDirectory c).faccessat s (arg1.setWidth 32) (g2h c.plain arg2) (arg3.setWidth 32) 0 =
    .error 9
  unfold workingDirectory
  dsimp only
  rw [hpath]
  exact if_pos ⟨not_not.mp huses, hcwd⟩

end

/-- Which calls of `mmap` and of `faccessat` the two builds treat alike. -/
theorem builds_agree_iff (h : Host) (c : Setup) (k : Kernel)
    (arg1 arg2 arg3 arg4 arg5 arg6 : Word) :
    (BuildsAgree h c k TargetNr.mmap arg1 arg2 arg3 arg4 arg5 arg6 ↔
      MmapAlike h c k.space (mmapArgs arg1 arg2 arg3 arg4 arg5 arg6)) ∧
    (BuildsAgree h c k TargetNr.faccessat arg1 arg2 arg3 arg4 arg5 arg6 ↔
      AccessAlike k.space.mem arg1 arg2 arg3) := by
  constructor
  · rw [← mmap_alike_iff]
    constructor
    · intro hb
      have hsame := hb (workingDirectory c) (workingDirectory_posix c)
      rw [seen_mmap, seen_mmap] at hsame
      exact Except.ok.inj hsame
    · intro hsame y _
      rw [seen_mmap, seen_mmap, hsame]
  · constructor
    · intro hb
      by_contra ha
      have hsame := hb (workingDirectory c) (workingDirectory_posix c)
      obtain ⟨hstrict, hplain⟩ := faccessat_not_alike (c := c) ha
      rw [seen_faccessat, seen_faccessat, hstrict, hplain] at hsame
      have hret := congrArg Prod.snd (Except.ok.inj hsame)
      exact absurd hret (show (0 : Word) ≠ -1 by decide)
    · intro ha y hy
      rw [seen_faccessat, seen_faccessat, faccessat_alike hy ha]

/-- A host whose files are full of ones. -/
def onesHost : Host := { Layout.host47 with file := fun _ => ⟨4096, fun _ => 1⟩ }

/-- The path `a`, relative to descriptor 3. -/
def relativePath : Kernel :=
  ⟨{ Space.start with mem := fun a => if a = 0x10000 then some ⟨0x61, ⟨true, true⟩⟩
      else if a = 0x10001 then some ⟨0, ⟨true, true⟩⟩ else none }, targetSetBrk 0⟩

/-- One page of a file, for reading and private, where there is room: ones in one build
and zeros in the other. A name below descriptor 3: the one build looks for it in the
working directory. -/
theorem builds_disagree :
    ¬ BuildsAgree onesHost .default ⟨.start, targetSetBrk 0⟩ TargetNr.mmap 0 4096 1 2 3 0 ∧
      ¬ BuildsAgree onesHost .default relativePath TargetNr.faccessat 3 0x10000 0 0 0 0 := by
  constructor
  · intro hb
    have hsame := hb (workingDirectory .default) (workingDirectory_posix .default)
    rw [seen_mmap, seen_mmap] at hsame
    have hat := congrFun (congrArg Prod.fst (Except.ok.inj hsame)) 0x4000000000
    exact absurd hat (by decide +kernel)
  · intro hb
    have huses : UsesDirectory relativePath.space.mem 0x10000 ((0 : Word).setWidth 32) := by
      refine ⟨by decide, by decide, 1, by decide, by decide, by decide, fun i hi => ?_⟩
      rw [Nat.lt_one_iff.mp hi]
      decide
    have ha : ¬ AccessAlike relativePath.space.mem 3 0x10000 0 :=
      not_or.mpr ⟨by decide, not_not.mpr huses⟩
    have hsame := hb (workingDirectory .default) (workingDirectory_posix .default)
    obtain ⟨hstrict, hplain⟩ := faccessat_not_alike (c := .default) ha
    rw [seen_faccessat, seen_faccessat, hstrict, hplain] at hsame
    have hret := congrArg Prod.snd (Except.ok.inj hsame)
    exact absurd hret (show (0 : Word) ≠ -1 by decide)

end Rvvk
