import Rvvk.Mmap.Placement

/-!
# Mappings that fail

`target_mmap` reports failure by the address `-1`. Without `MAP_FIXED` it makes two
requests of the host: the reservation of `mmap_find_vma`, which replaces the pages at
the place and may move `mmap_next_start`, and the mapping itself. Nothing takes the
first one back when the second is refused.
-/

namespace Rvvk

/-- If the call returns `-1`, the guest's pages and the allocator are what they were. -/
def FailureKeeps (h : Host) (c : Setup) (s : Space) (r : MmapArgs) : Prop :=
  (targetMmap h c s r).2 = failed →
    (targetMmap h c s r).1.mem = s.mem ∧ (targetMmap h c s r).1.mmapNextStart = s.mmapNextStart

def ShowsAlready (m : Memory) (base length : Word) (b : Backing) (prot : BitVec 32)
    (offset : Word) : Prop :=
  ∀ a, Span.Mem base (pageUp length.toNat) a →
    m a = b.cell? (.ofBits prot) (offset.toNat + (a - base).toNat)

/-- A reservation leaves everything as it is: the pages are reserved already, and
`mmap_next_start` is elsewhere. -/
structure Reserves (s : Space) (place length : Word) : Prop where
  pages : ShowsAlready s.mem place length .zero protNone 0
  next : ¬ (place = s.mmapNextStart ∧ taskUnmappedBase ≤ place)

/-- A call that fails has changed nothing before it does. -/
def FailsClean (h : Host) (c : Setup) (s : Space) (r : MmapArgs) : Prop :=
  if r.flags &&& mapFixed = 0 then
    h.Grants c s.calls (reservation c (s.place r.addr) r.length) →
      Reserves s (s.place r.addr) r.length ∨
        s.place r.addr ≠ failed ∧ h.Grants c (s.calls + 1) ((r.settle c (s.place r.addr)).onHost c)
  else
    r.addr = failed → h.Grants c s.calls (r.onHost c) →
      ∀ b, h.backing? c r = some b → ShowsAlready s.mem r.addr r.length b r.prot r.offset

theorem mapPages_eq_self {m : Memory} {base length offset : Word} {b : Backing}
    {prot : BitVec 32} :
    m.mapPages base (pageUp length.toNat) b (.ofBits prot) offset.toNat = m ↔
      ShowsAlready m base length b prot offset := by
  constructor
  · intro h a ha
    have hm := congrFun h a
    unfold Memory.mapPages at hm
    rw [if_pos ha] at hm
    exact hm.symm
  · intro h
    funext a
    unfold Memory.mapPages
    split
    · rename_i ha
      exact (h a ha).symm
    · rfl

theorem Reserved.keeps_iff {h : Host} {c : Setup} {s s' : Space} {place length : Word}
    (hr : Reserved h c s place length s') :
    s'.mem = s.mem ∧ s'.mmapNextStart = s.mmapNextStart ↔ Reserves s place length := by
  have hlen : hostPageAlign length ≠ 0 := by
    intro he
    have hpos := Nat.lt_of_lt_of_le (Nat.pos_of_ne_zero fun h0 => hr.nonzero
      (BitVec.eq_of_toNat_eq h0)) (le_pageUp length.toNat)
    rw [← hr.size, he] at hpos
    exact absurd hpos (by decide)
  have hmove : ∀ x : Word, x + hostPageAlign length ≠ x := fun x he =>
    hlen (BitVec.add_right_eq_self.mp he)
  rw [hr.mem, hr.next]
  constructor
  · rintro ⟨hm, hn⟩
    refine ⟨mapPages_eq_self.mp hm, fun hp => ?_⟩
    rw [if_pos hp] at hn
    exact hmove _ hn
  · rintro ⟨hm, hn⟩
    exact ⟨mapPages_eq_self.mpr hm, if_neg hn⟩

theorem failureKeeps_fixed_iff {h : Host} {c : Setup} {s : Space} {r : MmapArgs}
    (hf : ¬ r.flags &&& mapFixed = 0) :
    FailureKeeps h c s r ↔
      (r.addr = failed → h.Grants c s.calls (r.onHost c) →
        ∀ b, h.backing? c r = some b → ShowsAlready s.mem r.addr r.length b r.prot r.offset) := by
  unfold FailureKeeps
  rw [targetMmap_fixed hf, targetMmapAt_mmapNextStart]
  by_cases hg : h.Grants c s.calls (r.onHost c)
  · obtain ⟨ha, b, hb, hm⟩ := targetMmapAt_granted hg
    rw [ha, hm]
    constructor
    · intro hk hr _ b' hb'
      rw [hb] at hb'
      cases hb'
      exact mapPages_eq_self.mp (hk hr).1
    · intro hk hr
      exact ⟨mapPages_eq_self.mpr (hk hr hg b hb), rfl⟩
  · obtain ⟨_, hm⟩ := targetMmapAt_refused hg
    exact iff_of_true (fun _ => ⟨hm, rfl⟩) (fun _ hg' => absurd hg' hg)

theorem failureKeeps_nonfixed_iff {h : Host} {c : Setup} {s : Space} {r : MmapArgs}
    (hf : r.flags &&& mapFixed = 0) :
    FailureKeeps h c s r ↔
      (h.Grants c s.calls (reservation c (s.place r.addr) r.length) →
        Reserves s (s.place r.addr) r.length ∨
          s.place r.addr ≠ failed ∧
            h.Grants c (s.calls + 1) ((r.settle c (s.place r.addr)).onHost c)) := by
  unfold FailureKeeps
  by_cases hg : h.Grants c s.calls (reservation c (s.place r.addr) r.length)
  · obtain ⟨hp, hres⟩ := mmapFindVma_granted hg
    rw [← hres.keeps_iff]
    by_cases hplace : s.place r.addr = failed
    · rw [targetMmap_refused hf (hp.trans hplace)]
      constructor
      · intro hk _
        exact .inl (hk rfl)
      · intro hk _
        exact (hk hg).resolve_right fun h2 => h2.1 hplace
    · rw [targetMmap_settled hf hp hplace, targetMmapAt_mmapNextStart,
        ← mmapFindVma_calls h c s r.addr r.length]
      by_cases hg2 : h.Grants c (mmapFindVma h c s r.addr r.length).1.calls
          ((r.settle c (s.place r.addr)).onHost c)
      · refine iff_of_true (fun hfail => ?_) (fun _ => .inr ⟨hplace, hg2⟩)
        exact absurd ((targetMmapAt_granted hg2).1.symm.trans hfail) hplace
      · obtain ⟨hfail, hm⟩ := targetMmapAt_refused hg2
        rw [hfail, hm]
        constructor
        · intro hk _
          exact .inl (hk rfl)
        · intro hk _
          exact (hk hg).resolve_right fun h2 => hg2 h2.2
  · obtain ⟨hfail, hn, hm⟩ := mmapFindVma_refused hg
    rw [targetMmap_refused hf hfail]
    exact iff_of_true (fun _ => ⟨hm, hn⟩) (fun hg' => absurd hg' hg)

/-- When a call that fails changes nothing. -/
theorem failureKeeps_iff (h : Host) (c : Setup) (s : Space) (r : MmapArgs) :
    FailureKeeps h c s r ↔ FailsClean h c s r := by
  unfold FailsClean
  by_cases hf : r.flags &&& mapFixed = 0
  · rw [if_pos hf]
    exact failureKeeps_nonfixed_iff hf
  · rw [if_neg hf]
    exact failureKeeps_fixed_iff hf

/-- A page that is mapped, and a hint at it with an offset that no file mapping can have. -/
theorem failure_loses_page :
    ¬ FailureKeeps Layout.host47 .default
      (targetMmap Layout.host47 .default .start (Layout.onePage 0x10000 mapFixed)).1
      { Layout.onePage 0x10000 0 with offset := 1 } := by
  intro hk
  have hm := congrFun (hk (by decide +kernel)).1 0x10000
  exact absurd hm (by decide +kernel)

end Rvvk
