import Rvvk.Lib.Feed
import Rvvk.Mmap.Target

/-!
# Placement of mappings

The ranges that `target_mmap` has handed out, over any sequence of calls. There
is no `munmap`, so a range stays live. The single pointer `mmap_next_start`
keeps new ranges apart as long as nothing lies above it.
-/

namespace Rvvk

/-- A range of guest pages: its first address and its length in bytes. -/
structure Range where
  addr : Word
  size : Nat
deriving DecidableEq

/-- The address space, and the ranges its successful calls have returned. -/
structure Layout where
  space : Space
  live : List Range

namespace Layout

def start : Layout := ⟨Space.start, []⟩

/-- A call of `target_mmap`, by the loader or by the guest. -/
def call (h : Host) (c : Setup) (l : Layout) (r : MmapArgs) : Layout :=
  let (s, addr) := targetMmap h c l.space r
  ⟨s, if addr = failed then l.live else ⟨addr, pageUp r.length.toNat⟩ :: l.live⟩

def step (h : Host) (c : Setup) : Layout → MmapArgs → Layout → Prop :=
  fun l r l' => l' = l.call h c r

/-- A call without `MAP_FIXED` that succeeds returns pages that are not live. -/
def Fresh (h : Host) (c : Setup) (l : Layout) (r : MmapArgs) : Prop :=
  r.flags &&& mapFixed = 0 → (targetMmap h c l.space r).2 ≠ failed →
    ∀ q ∈ l.live,
      Span.Disjoint (targetMmap h c l.space r).2 (pageUp r.length.toNat) q.addr q.size

/-- The request leaves everything above `mmap_next_start` to the allocator: a
fixed range ends below it, and a hint names no other page than the one there. -/
def Tame (l : Layout) (r : MmapArgs) : Prop :=
  if r.flags &&& mapFixed = 0 then
    r.addr = 0 ∨ r.addr &&& hostPageMask = l.space.mmapNextStart
  else r.addr.toNat + pageUp r.length.toNat ≤ l.space.mmapNextStart.toNat

instance (l : Layout) (r : MmapArgs) : Decidable (Tame l r) :=
  inferInstanceAs (Decidable (if r.flags &&& mapFixed = 0 then
    r.addr = 0 ∨ r.addr &&& hostPageMask = l.space.mmapNextStart
  else r.addr.toNat + pageUp r.length.toNat ≤ l.space.mmapNextStart.toNat))

/-- Every live range lies below `mmap_next_start`, which has moved up from
`TASK_UNMAPPED_BASE` together with the host address behind it. -/
structure Packed (c : Setup) (l : Layout) : Prop where
  base : taskUnmappedBase.toNat ≤ l.space.mmapNextStart.toNat
  host : (g2h c l.space.mmapNextStart).toNat + taskUnmappedBase.toNat =
    l.space.mmapNextStart.toNat + (g2h c taskUnmappedBase).toNat
  below : ∀ q ∈ l.live, q.addr.toNat + q.size ≤ l.space.mmapNextStart.toNat

theorem start_packed (c : Setup) : Packed c start :=
  ⟨Nat.le_refl _, Nat.add_comm _ _, fun _ h => nomatch h⟩

/-! ## One call -/

variable {h : Host} {c : Setup} {l : Layout} {r : MmapArgs}

theorem Tame.place (ht : Tame l r) (hf : r.flags &&& mapFixed = 0) :
    l.space.place r.addr = l.space.mmapNextStart := by
  unfold Tame at ht
  rw [if_pos hf] at ht
  unfold Space.place
  split
  · rfl
  · exact ht.resolve_left ‹_›

/-- A granted reservation at `mmap_next_start` moves it up by whole pages. -/
theorem Packed.advance (hp : Packed c l) {len : Nat} {n : Word} (hn : n.toNat = len)
    (hfit : (g2h c l.space.mmapNextStart).toNat + len ≤ h.taskSize) :
    (l.space.mmapNextStart + n).toNat = l.space.mmapNextStart.toNat + len ∧
      (g2h c (l.space.mmapNextStart + n)).toNat =
        (g2h c l.space.mmapNextStart).toNat + len :=
  next_advance hp.host hn hfit

theorem Packed.call_fixed (hp : Packed c l) (ht : Tame l r) (hf : ¬ r.flags &&& mapFixed = 0) :
    Packed c (l.call h c r) := by
  have hnext := targetMmapAt_mmapNextStart h c l.space r
  unfold Tame at ht
  rw [if_neg hf] at ht
  unfold call
  rw [targetMmap_fixed hf]
  refine ⟨hnext ▸ hp.base, hnext ▸ hp.host, fun q hq => ?_⟩
  dsimp only at hq ⊢
  rw [hnext]
  split at hq
  · exact hp.below q hq
  · rename_i hok
    cases hq with
    | head => rwa [(targetMmapAt_ok hok).2.1]
    | tail _ hq => exact hp.below q hq

/-- A tame call without `MAP_FIXED` that succeeds is at `mmap_next_start`. -/
theorem Packed.nonfixed (hp : Packed c l) (ht : Tame l r) (hf : r.flags &&& mapFixed = 0) :
    ((targetMmap h c l.space r).2 = failed ∨
      (targetMmap h c l.space r).2 = l.space.mmapNextStart) ∧
    ((targetMmap h c l.space r).1.mmapNextStart = l.space.mmapNextStart ∧
        (targetMmap h c l.space r).2 = failed ∨
      (targetMmap h c l.space r).1.mmapNextStart =
          l.space.mmapNextStart + hostPageAlign r.length ∧
        (hostPageAlign r.length).toNat = pageUp r.length.toNat ∧
        (g2h c l.space.mmapNextStart).toNat + pageUp r.length.toNat ≤ h.taskSize) := by
  have hplace := ht.place hf
  have hbase : taskUnmappedBase ≤ l.space.mmapNextStart := hp.base
  rcases mmapFindVma_cases h c l.space r.addr r.length with ⟨hfail, hnext, _⟩ | ⟨hok, hres⟩
  · rw [targetMmap_refused hf hfail]
    exact ⟨.inl rfl, .inl ⟨hnext, rfl⟩⟩
  · rw [hplace] at hok hres
    have hmove := hres.next
    rw [if_pos ⟨rfl, hbase⟩] at hmove
    by_cases hp : l.space.mmapNextStart = failed
    · rw [targetMmap_refused hf (hok.trans hp)]
      exact ⟨.inl rfl, .inr ⟨hmove, hres.size, hres.fits⟩⟩
    · rw [targetMmap_settled hf hok hp]
      refine ⟨?_, .inr ⟨(targetMmapAt_mmapNextStart h c _ _).trans hmove, hres.size, hres.fits⟩⟩
      by_cases hne : (targetMmapAt h c (mmapFindVma h c l.space r.addr r.length).1
          (r.settle c l.space.mmapNextStart)).2 = failed
      · exact .inl hne
      · exact .inr (targetMmapAt_ok hne).2.1

theorem Packed.call_nonfixed (hp : Packed c l) (ht : Tame l r) (hf : r.flags &&& mapFixed = 0) :
    Packed c (l.call h c r) := by
  obtain ⟨hres, ⟨hnext, hfail⟩ | ⟨hnext, hlen, hfit⟩⟩ := hp.nonfixed ht hf (h := h)
  · unfold call
    dsimp only
    rw [if_pos hfail]
    exact ⟨hnext ▸ hp.base, hnext ▸ hp.host, fun q hq => hnext ▸ hp.below q hq⟩
  · obtain ⟨hguest, hhost⟩ := hp.advance hlen hfit
    have hb := hp.base
    have hh := hp.host
    unfold call
    dsimp only
    refine ⟨?_, ?_, fun q hq => ?_⟩
    · rw [hnext, hguest]
      omega
    · rw [hnext, hguest, hhost]
      omega
    · have hlive : q ∈ l.live ∨ q = ⟨l.space.mmapNextStart, pageUp r.length.toNat⟩ := by
        dsimp only at hq
        split at hq
        · exact .inl hq
        · rename_i hok
          rw [hres.resolve_left hok] at hq
          exact (List.mem_cons.mp hq).symm
      dsimp only
      rw [hnext, hguest]
      rcases hlive with hq | rfl
      · have := hp.below q hq
        omega
      · exact Nat.le_refl _

theorem Packed.call (hp : Packed c l) (ht : Tame l r) : Packed c (l.call h c r) := by
  by_cases hf : r.flags &&& mapFixed = 0
  · exact hp.call_nonfixed ht hf
  · exact hp.call_fixed ht hf

theorem Packed.fresh (hp : Packed c l) (ht : Tame l r) : Fresh h c l r := by
  intro hf hok q hq
  obtain ⟨hres, ⟨_, hfail⟩ | ⟨_, hlen, hfit⟩⟩ := hp.nonfixed ht hf (h := h)
  · exact absurd hfail hok
  · rw [hres.resolve_left hok]
    have hguest := (hp.advance hlen hfit).1
    have hlt := (l.space.mmapNextStart + hostPageAlign r.length).isLt
    exact (Span.disjoint_of_le (hp.below q hq) (by omega)).symm

/-! ## Every sequence of calls -/

/-- In every sequence of tame calls, what a call without `MAP_FIXED` returns
meets no range that is live by then. -/
theorem nonfixed_fresh (h : Host) (c : Setup) (rs : List MmapArgs)
    (ht : Feed.Each (step h c) Tame start rs) :
    Feed.Each (step h c) (Fresh h c) start rs := by
  have hstep : ∀ l r l', Packed c l → Tame l r → step h c l r l' → Packed c l' := by
    intro l r l' hp hg hs
    rw [show l' = l.call h c r from hs]
    exact hp.call hg
  have hfresh : ∀ l r, Packed c l → Tame l r → Fresh h c l r := fun _ _ hp hg => hp.fresh hg
  exact ht.of_invariant hstep hfresh (start_packed c)

/-! ## An image, a stack and a hint -/

/-- A 64-bit Linux host that serves every call. -/
def host47 : Host :=
  ⟨2 ^ 47, by decide, fun _ => true, fun _ _ _ => true, fun _ => ⟨0, fun _ => 0⟩⟩

def onePage (addr : Word) (flags : BitVec 32) : MmapArgs :=
  ⟨addr, 4096, protRead ||| protWrite, mapPrivate ||| mapAnonymous ||| flags, -1, 0⟩

theorem image_stack_fresh :
    Feed.Each (step host47 .default) (Fresh host47 .default) start
      [onePage 0x10000 mapFixed, onePage 0 0] := by
  refine nonfixed_fresh host47 .default _ ⟨by decide +kernel, fun l hl => ?_⟩
  rw [show l = _ from hl]
  exact ⟨by decide +kernel, fun _ _ => trivial⟩

/-- A hint at the first range handed out gets that range again. -/
theorem hint_not_fresh :
    ¬ Feed.Each (step host47 .default) (Fresh host47 .default) start
      [onePage 0 0, onePage 0x4000000000 0] := by
  intro he
  have h2 := (he.2 _ rfl).1 (by decide +kernel) (by decide +kernel)
    ⟨0x4000000000, 4096⟩ (by decide +kernel) 0x4000000000
  exact h2 (by decide +kernel) (by decide +kernel)

end Layout

end Rvvk
