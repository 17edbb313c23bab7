import Rvvk.Elf.Image

/-!
# What the loader leaves to `create_elf_tables`

The stack and its guard page, and the allocator's state.
-/

namespace Rvvk

theorem zeroBss_next {h : Host} {c : Setup} {s s' : Space} {elfBss elfBrk : Word}
    {prot : BitVec 32} (hz : zeroBss h c s elfBss elfBrk prot = .ok s') :
    s'.mmapNextStart = s.mmapNextStart := by
  obtain ⟨s₁, h₁, hz⟩ := bind_eq_ok hz
  have hnext : s₁.mmapNextStart = s.mmapNextStart := by
    unfold mapBss at h₁
    split at h₁
    · obtain ⟨r, hr, rfl⟩ := map_eq_ok h₁
      obtain ⟨_, rfl⟩ := granted_eq_ok hr
      exact hostMmap_mmapNextStart h c s _
    · cases h₁
      rfl
  split at hz
  · obtain ⟨_, _, rfl⟩ := Space.write_eq_ok hz
    exact hnext
  · cases hz
    exact hnext

theorem mapSegment_next {h : Host} {c : Setup} {s s' : Space} {fd : BitVec 32} {eppnt : Phdr}
    {vaddr : Word} (hm : mapSegment h c s fd eppnt vaddr = .ok s') :
    s'.mmapNextStart = s.mmapNextStart := by
  unfold mapSegment at hm
  split at hm
  · obtain ⟨s₁, h₁, hm⟩ := bind_eq_ok hm
    obtain ⟨r, hr, rfl⟩ := map_eq_ok h₁
    obtain ⟨_, rfl⟩ := granted_eq_ok hr
    have hnext : (targetMmap h c s (fileArgs eppnt vaddr fd)).1.mmapNextStart =
        s.mmapNextStart := by
      rw [targetMmap_fixed (by decide : (mapPrivate ||| mapFixed) &&& mapFixed ≠ 0)]
      exact targetMmapAt_mmapNextStart h c s _
    split at hm
    · exact (zeroBss_next hm).trans hnext
    · cases hm
      exact hnext
  · split at hm
    · obtain ⟨r, hr, rfl⟩ := map_eq_ok hm
      obtain ⟨_, rfl⟩ := granted_eq_ok hr
      rw [targetMmap_fixed (emptyArgs_fixed c eppnt vaddr)]
      exact targetMmapAt_mmapNextStart h c s _
    · cases hm
      rfl

theorem segments_next {h : Host} {c : Setup} {fd : BitVec 32} {loadBias : Word}
    {segments : List Phdr} {st st' : Space × ImageInfo}
    (hr : Feed.Reaches (SegmentStep h c fd loadBias) st segments st') :
    st'.1.mmapNextStart = st.1.mmapNextStart := by
  induction hr with
  | nil st => rfl
  | cons hs _ ih => exact ih.trans (mapSegment_next hs.mapped)

/-- `load_elf_binary` up to the stack, with `stack_limit`. -/
def loadStack (h : Host) (c : Setup) (s : Space) (bprm : Binprm) :
    Except Failure (Space × ImageInfo × Word) := do
  let ehdr := Ehdr.parse bprm.buf
  elfCheckEhdr ehdr
  let (phdr, s) ← loadElfPhdrs h s ehdr bprm.execfd
  let loaddr := (scan phdr).loaddr
  let hiaddr := (scan phdr).hiaddr + reserveBrk
  let (s, loadAddr) ← granted .syserr (targetMmap h c s (imageArgs c ehdr loaddr hiaddr))
  let loadBias := loadAddr - loaddr
  let info := (scan phdr).info.locate ehdr loadAddr loadBias
  let (s, info) ← phdr.foldlM (loadSegment h c bprm.execfd loadBias) (s, info)
  let (s, _) ← granted .syserr (targetMmap h c s (heapArgs c ehdr hiaddr info.brk))
  let (s, stackLimit) ← mapStack h c s info.execStack
  .ok (s, info, stackLimit)

theorem loadElfBinary_stack (h : Host) (c : Setup) (s : Space) (bprm : Binprm) :
    loadElfBinary h c s bprm = loadStack h c s bprm >>= fun r =>
      (makeTables h r.1 bprm (r.2.2 + c.guestStackSize - 8)).map fun q =>
        (q.1, { r.2.1 with stackLimit := r.2.2, startStack := q.2 }) := by
  simp only [loadElfBinary, loadStack, bind_assoc]
  rfl

/-- What `create_elf_tables` finds. -/
structure StackMade (h : Host) (c : Setup) (s s' : Space) (limit : Word) : Prop where
  anchored : s.Anchored c
  mapped : StackMapped c s s' limit
  fresh : StackFresh h c s s'

theorem loadStack_ok {h : Host} {c : Setup} {s s' : Space} {bprm : Binprm} {info : ImageInfo}
    {limit : Word} (hl : loadStack h c s bprm = .ok (s', info, limit)) (ha : s.Anchored c) :
    ∃ s₃, StackMade h c s₃ s' limit := by
  obtain ⟨_, _, hl⟩ := bind_eq_ok hl
  obtain ⟨⟨phdr, s₀⟩, h₀, hl⟩ := bind_eq_ok hl
  obtain ⟨⟨s₁, loadAddr⟩, h₁, hl⟩ := bind_eq_ok hl
  obtain ⟨⟨s₂, info₂⟩, h₂, hl⟩ := bind_eq_ok hl
  obtain ⟨⟨s₃, heapAddr⟩, h₃, hl⟩ := bind_eq_ok hl
  obtain ⟨⟨s₄, stackLimit⟩, h₄, hl⟩ := bind_eq_ok hl
  cases hl
  have ha₀ : s₀.Anchored c := ha.congr (loadElfPhdrs_ok h₀).2.2
  have ha₁ : s₁.Anchored c := by
    rw [show s₁ = _ from congrArg Prod.fst (granted_eq_ok h₁).2]
    exact targetMmap_anchored ha₀ _
  have ha₂ : s₂.Anchored c := ha₁.congr (segments_next (loads_reached h₂))
  have ha₃ : s₃.Anchored c := by
    rw [show s₃ = _ from congrArg Prod.fst (granted_eq_ok h₃).2]
    exact targetMmap_anchored ha₂ _
  exact ⟨s₃, ha₃, mapStack_ok h₄, mapStack_fresh h₄⟩

theorem mapStack_anchored {h : Host} {c : Setup} {s s' : Space} {execStack : BitVec 32}
    {limit : Word} (hm : mapStack h c s execStack = .ok (s', limit)) (ha : s.Anchored c) :
    s'.Anchored c := by
  obtain ⟨⟨s₁, addr⟩, h₁, hm⟩ := bind_eq_ok hm
  have ha₁ : s₁.Anchored c := by
    rw [show s₁ = _ from congrArg Prod.fst (granted_eq_ok h₁).2]
    exact targetMmap_anchored ha _
  refine ha₁.congr ?_
  dsimp only at hm
  split at hm
  · cases hm
    unfold targetMprotect Host.mprotect
    dsimp only
    split <;> rfl
  · cases hm

theorem makeTables_next {h : Host} {s s' : Space} {bprm : Binprm} {p p' : Word}
    (hm : makeTables h s bprm p = .ok (s', p')) : s'.mmapNextStart = s.mmapNextStart := by
  unfold makeTables Host.malloc at hm
  dsimp only at hm
  split at hm
  · cases hm
  · split at hm
    · cases hm
      rfl
    · cases hm

/-- Before the stack is mapped the allocator is where the image and the heap have left it. -/
theorem Stages.anchored {h : Host} {c : Setup} {s s' s₀ s₁ s₂ s₃ s₄ : Space} {bprm : Binprm}
    {info info' : ImageInfo} {loadAddr heapAddr stackLimit p : Word}
    (st : Stages h c s bprm s' info' s₀ s₁ s₂ s₃ s₄ loadAddr heapAddr stackLimit p info)
    (ha : s.Anchored c) : s₃.Anchored c := by
  have ha₁ : s₁.Anchored c := by
    rw [show s₁ = _ from congrArg Prod.fst (granted_eq_ok st.image).2]
    exact targetMmap_anchored (ha.congr (loadElfPhdrs_ok st.headers).2.2) _
  rw [show s₃ = _ from congrArg Prod.fst (granted_eq_ok st.heap).2]
  exact targetMmap_anchored (ha₁.congr (segments_next (loads_reached st.segments))) _

theorem loadElfBinary_anchored {h : Host} {c : Setup} {s s' : Space} {bprm : Binprm}
    {info : ImageInfo} (hl : loadElfBinary h c s bprm = .ok (s', info)) (ha : s.Anchored c) :
    s'.Anchored c := by
  obtain ⟨s₀, s₁, s₂, s₃, s₄, loadAddr, heapAddr, stackLimit, p, info₂, st⟩ :=
    loadElfBinary_stages hl
  exact (mapStack_anchored st.stack (st.anchored ha)).congr (makeTables_next st.tables)

theorem StackMade.limit_aligned {h : Host} {c : Setup} {s s' : Space} {limit : Word}
    (hm : StackMade h c s s' limit) : limit.toNat % 4096 = 0 := by
  have hal := hm.anchored.aligned
  have hguard : guard.toNat = 4096 := rfl
  rw [hm.mapped.limit, BitVec.toNat_add, hguard]
  omega

end Rvvk
