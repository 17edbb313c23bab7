import Rvvk.Elf.Bias

/-!
# What the loader maps

The ranges that the loop over the segments maps and clears, against the pages that
were reserved for the image. The reservation is sized from `p_memsz`, the mappings
from `p_filesz` and `p_memsz`, and all three are any words.
-/

namespace Rvvk

/-! ## The ranges of a segment -/

abbrev Extent := Word × Nat

/-- What `zero_bss` maps, and what it clears. -/
def bssRanges (c : Setup) (elfBss elfBrk : Word) : List Extent :=
  let hostStart := g2h c elfBss
  let hostEnd := g2h c (targetPageAlign elfBrk)
  let hostStartAligned := hostPageAlign hostStart
  (if hostStartAligned < hostEnd then
    [(h2g c hostStartAligned, pageUp (hostEnd - hostStartAligned).toNat)] else []) ++
  (if hostStart < hostStartAligned then
    [(h2g c hostStart, (hostStartAligned - hostStart).toNat)] else [])

/-- The pages that are mapped for a segment, and the bytes that are cleared. -/
def Phdr.ranges (eppnt : Phdr) (c : Setup) (vaddr : Word) : List Extent :=
  if eppnt.pFilesz ≠ 0 then
    (targetElfPagestart vaddr, pageUp (fileArgs eppnt vaddr 0).length.toNat) ::
      (if eppnt.pFilesz < eppnt.pMemsz then
        bssRanges c (vaddr + eppnt.pFilesz) (vaddr + eppnt.pMemsz) else [])
  else if eppnt.pMemsz ≠ 0 then
    [(targetElfPagestart vaddr, pageUp (emptyArgs c eppnt vaddr).length.toNat)]
  else []

def Outside (ranges : List Extent) (a : Word) : Prop := ∀ r ∈ ranges, ¬ Span.Mem r.1 r.2 a

theorem mapBss_frame {h : Host} {c : Setup} {s s' : Space} {x y : Word} {prot : BitVec 32}
    (hm : mapBss h c s x y prot = .ok s') {a : Word}
    (ha : x < y → ¬ Span.Mem (h2g c x) (pageUp (y - x).toNat) a) : s'.mem a = s.mem a := by
  unfold mapBss at hm
  split at hm
  · rename_i hlt
    obtain ⟨r, hr, rfl⟩ := map_eq_ok hm
    obtain ⟨hne, rfl⟩ := granted_eq_ok hr
    obtain ⟨_, _, b, _, hmem⟩ := hostMmap_ok hne
    rw [hmem]
    exact mapPages_other (ha hlt)
  · cases hm
    rfl

theorem storeBytes_frame {m m' : Memory} {base : Word} {bs : List (BitVec 8)}
    (hs : m.storeBytes base bs = .ok m') (hl : bs.length ≤ 2 ^ 64) {a : Word}
    (ha : ¬ Span.Mem base bs.length a) : m' a = m a := by
  have hat := Memory.storeBytes_apply hs hl a
  rw [List.getElem?_eq_none (Nat.le_of_not_lt ha)] at hat
  exact hat.trans Option.map_id'

theorem zeroBss_frame {h : Host} {c : Setup} {s s' : Space} {elfBss elfBrk : Word}
    {prot : BitVec 32} (hz : zeroBss h c s elfBss elfBrk prot = .ok s') {a : Word}
    (ha : Outside (bssRanges c elfBss elfBrk) a) : s'.mem a = s.mem a := by
  obtain ⟨s₁, h₁, hz⟩ := bind_eq_ok hz
  have hmap : s₁.mem a = s.mem a := by
    refine mapBss_frame h₁ fun hlt => ha (_, _) ?_
    unfold bssRanges
    dsimp only
    rw [if_pos hlt]
    exact List.mem_cons_self
  rw [← hmap]
  split at hz
  · rename_i hlt
    obtain ⟨mem, hst, rfl⟩ := Space.write_eq_ok hz
    have hlen := List.length_replicate (n := (hostPageAlign (g2h c elfBss) - g2h c elfBss).toNat)
      (a := (0 : BitVec 8))
    refine storeBytes_frame hst (by rw [hlen]; exact Nat.le_of_lt (BitVec.isLt _)) ?_
    rw [hlen]
    refine ha (_, _) ?_
    unfold bssRanges
    dsimp only
    rw [if_pos hlt]
    exact List.mem_append_right _ List.mem_cons_self
  · cases hz
    rfl

theorem targetMmap_frame {h : Host} {c : Setup} {s : Space} {r : MmapArgs}
    (hfix : r.flags &&& mapFixed ≠ 0) (hne : (targetMmap h c s r).2 ≠ failed) {a : Word}
    (ha : ¬ Span.Mem r.addr (pageUp r.length.toNat) a) :
    (targetMmap h c s r).1.mem a = s.mem a := by
  rw [targetMmap_fixed hfix] at hne ⊢
  obtain ⟨_, _, _, b, _, hm⟩ := targetMmapAt_ok hne
  rw [hm]
  exact mapPages_other ha

theorem mapSegment_frame {h : Host} {c : Setup} {s s' : Space} {fd : BitVec 32} {eppnt : Phdr}
    {vaddr : Word} (hm : mapSegment h c s fd eppnt vaddr = .ok s') {a : Word}
    (ha : Outside (eppnt.ranges c vaddr) a) : s'.mem a = s.mem a := by
  unfold mapSegment at hm
  unfold Phdr.ranges at ha
  split at hm
  · rename_i hf
    rw [if_pos hf] at ha
    obtain ⟨s₁, h₁, hm⟩ := bind_eq_ok hm
    obtain ⟨r, hr, rfl⟩ := map_eq_ok h₁
    obtain ⟨hne, rfl⟩ := granted_eq_ok hr
    have hout := ha _ List.mem_cons_self
    have hlen : (fileArgs eppnt vaddr 0).length = (fileArgs eppnt vaddr fd).length := rfl
    rw [hlen] at hout
    rw [← targetMmap_frame (by decide : (mapPrivate ||| mapFixed) &&& mapFixed ≠ 0) hne hout]
    split at hm
    · rename_i hlt
      refine zeroBss_frame hm fun r hr => ha r (List.mem_cons_of_mem _ ?_)
      rw [if_pos hlt]
      exact hr
    · cases hm
      rfl
  · rename_i hf
    rw [if_neg hf] at ha
    split at hm
    · rename_i hM
      rw [if_pos hM] at ha
      obtain ⟨r, hr, rfl⟩ := map_eq_ok hm
      obtain ⟨hne, rfl⟩ := granted_eq_ok hr
      have hout := ha _ List.mem_cons_self
      exact targetMmap_frame (emptyArgs_fixed c eppnt vaddr) hne hout
    · cases hm
      rfl

/-! ## The segments a load gets to -/

/-- The loader has returned an error; a host signal is none. -/
def ReturnsError {α : Type} (r : Except Failure α) : Prop :=
  ∃ e, r = .error e ∧ ∀ f, e ≠ .signal f

/-- The segments that are mapped: all, or those up to the one at which a host signal
ends the emulator. -/
def reachedSegments (h : Host) (c : Setup) (fd : BitVec 32) (loadBias : Word) :
    Space × ImageInfo → List Phdr → List Phdr
  | _, [] => []
  | st, eppnt :: phdr =>
      match loadSegment h c fd loadBias st eppnt with
      | .ok st' =>
          if eppnt.pType = ptLoad then eppnt :: reachedSegments h c fd loadBias st' phdr
          else reachedSegments h c fd loadBias st' phdr
      | .error (.signal _) => [eppnt]
      | .error _ => []

theorem reachedSegments_ok {h : Host} {c : Setup} {fd : BitVec 32} {loadBias : Word}
    {phdr : List Phdr} {st st' : Space × ImageInfo}
    (hm : phdr.foldlM (loadSegment h c fd loadBias) st = .ok st') :
    reachedSegments h c fd loadBias st phdr = loads phdr := by
  induction phdr generalizing st with
  | nil => rfl
  | cons eppnt phdr ih =>
      rw [List.foldlM_cons] at hm
      obtain ⟨st₁, h₁, hm⟩ := bind_eq_ok hm
      rw [reachedSegments, h₁, loads_cons]
      dsimp only
      rw [ih hm]

/-- The host has granted what mapping a segment asks for. -/
structure SegmentGranted (h : Host) (c : Setup) (eppnt : Phdr) (vaddr : Word) : Prop where
  file : eppnt.pFilesz ≠ 0 →
    h.Accepts { fileArgs eppnt vaddr 0 with addr := g2h c (targetElfPagestart vaddr) }
  bss : eppnt.pFilesz ≠ 0 → eppnt.pFilesz < eppnt.pMemsz →
    hostPageAlign (g2h c (vaddr + eppnt.pFilesz)) <
      g2h c (targetPageAlign (vaddr + eppnt.pMemsz)) →
    (hostPageAlign (g2h c (vaddr + eppnt.pFilesz))).toNat +
      pageUp (g2h c (targetPageAlign (vaddr + eppnt.pMemsz)) -
        hostPageAlign (g2h c (vaddr + eppnt.pFilesz))).toNat ≤ h.taskSize
  empty : eppnt.pFilesz = 0 → eppnt.pMemsz ≠ 0 →
    h.Accepts { emptyArgs c eppnt vaddr with addr := g2h c (targetElfPagestart vaddr) }

/-- A result that is no error return. -/
def Proceeds {α : Type} (r : Except Failure α) : Prop := ¬ ReturnsError r

theorem proceeds_bind {α β : Type} {x : Except Failure α} {f : α → Except Failure β}
    (hp : Proceeds (x >>= f)) : Proceeds x := by
  rintro ⟨e, rfl, he⟩
  exact hp ⟨e, rfl, he⟩

theorem syserr_ne_signal (f : Fault) : Failure.syserr ≠ .signal f := by
  intro he
  cases he

theorem granted_of_proceeds {e : Failure} {r : Space × Word} (he : ∀ f, e ≠ .signal f)
    (hp : Proceeds (granted e r)) : r.2 ≠ failed := by
  intro hf
  exact hp ⟨e, if_pos hf, he⟩

theorem proceeds_ok {α : Type} (a : α) : Proceeds (.ok a : Except Failure α) := by
  rintro ⟨e, he, _⟩
  cases he

theorem proceeds_signal {α : Type} (f : Fault) :
    Proceeds (.error (.signal f) : Except Failure α) := by
  rintro ⟨e, he, hs⟩
  cases he
  exact hs f rfl

/-- A segment that is reached is one to load, and mapping it has not returned an error. -/
theorem mapped_of_reached {h : Host} {c : Setup} {fd : BitVec 32} {loadBias : Word}
    {phdr : List Phdr} {st : Space × ImageInfo} {eppnt : Phdr}
    (he : eppnt ∈ reachedSegments h c fd loadBias st phdr) :
    eppnt ∈ loads phdr ∧ ∃ s, Proceeds (mapSegment h c s fd eppnt (loadBias + eppnt.pVaddr)) := by
  have hmap : ∀ {st : Space × ImageInfo} {e : Phdr}, e.pType = ptLoad →
      Proceeds (loadSegment h c fd loadBias st e) →
      ∃ s, Proceeds (mapSegment h c s fd e (loadBias + e.pVaddr)) := by
    intro st e hl hp
    unfold loadSegment at hp
    rw [if_neg (not_not_intro hl)] at hp
    exact ⟨st.1, proceeds_bind hp⟩
  induction phdr generalizing st with
  | nil => exact absurd he List.not_mem_nil
  | cons e phdr ih =>
      rw [reachedSegments] at he
      rw [loads_cons]
      split at he
      · rename_i st' hs
        split at he
        · rename_i hl
          rw [if_pos hl]
          rcases List.mem_cons.mp he with rfl | he
          · exact ⟨List.mem_cons_self, hmap hl (hs ▸ proceeds_ok _)⟩
          · exact ⟨List.mem_cons_of_mem _ (ih he).1, (ih he).2⟩
        · rename_i hl
          rw [if_neg hl]
          exact ih he
      · rename_i f hs
        cases List.mem_singleton.mp he
        by_cases hl : eppnt.pType = ptLoad
        · rw [if_pos hl]
          exact ⟨List.mem_cons_self, hmap hl (hs ▸ proceeds_signal f)⟩
        · unfold loadSegment at hs
          rw [if_pos hl] at hs
          cases hs
      · exact absurd he List.not_mem_nil

theorem bss_fits {h : Host} {c : Setup} {s : Space} {elfBss elfBrk : Word} {prot : BitVec 32}
    (hp : Proceeds (zeroBss h c s elfBss elfBrk prot))
    (hlt : hostPageAlign (g2h c elfBss) < g2h c (targetPageAlign elfBrk)) :
    (hostPageAlign (g2h c elfBss)).toNat +
      pageUp (g2h c (targetPageAlign elfBrk) - hostPageAlign (g2h c elfBss)).toNat ≤
        h.taskSize := by
  have hmap := proceeds_bind hp
  unfold mapBss at hmap
  rw [if_pos hlt] at hmap
  exact (hostMmap_ok (granted_of_proceeds syserr_ne_signal (proceeds_bind hmap))).1.fits

theorem segmentGranted {h : Host} {c : Setup} {s : Space} {fd : BitVec 32} {eppnt : Phdr}
    {vaddr : Word} (hp : Proceeds (mapSegment h c s fd eppnt vaddr)) :
    SegmentGranted h c eppnt vaddr := by
  unfold mapSegment at hp
  split at hp
  · rename_i hf
    have hfile := granted_of_proceeds syserr_ne_signal (proceeds_bind (proceeds_bind hp))
    rw [granted, if_neg hfile] at hp
    rw [targetMmap_fixed (by decide : (mapPrivate ||| mapFixed) &&& mapFixed ≠ 0)] at hfile
    obtain ⟨hacc, _⟩ := targetMmapAt_ok hfile
    refine ⟨fun _ => ⟨hacc.addr, hacc.length, hacc.fits, hacc.offset⟩, fun _ hlt hmap => ?_,
      fun hz => absurd hz hf⟩
    have hz : Proceeds (if eppnt.pFilesz < eppnt.pMemsz then zeroBss h c
        (targetMmap h c s (fileArgs eppnt vaddr fd)).1 (vaddr + eppnt.pFilesz)
        (vaddr + eppnt.pMemsz) eppnt.prot else .ok _) := hp
    rw [if_pos hlt] at hz
    exact bss_fits hz hmap
  · rename_i hf
    have hz : eppnt.pFilesz = 0 := Decidable.not_not.mp hf
    refine ⟨fun hf' => absurd hz hf', fun hf' => absurd hz hf', fun _ hM => ?_⟩
    rw [if_pos hM] at hp
    have hne := granted_of_proceeds syserr_ne_signal (proceeds_bind hp)
    rw [targetMmap_fixed (emptyArgs_fixed c eppnt vaddr)] at hne
    exact (targetMmapAt_ok hne).1

/-! ## Distances -/

/-- The pages of that many bytes from the address on. -/
def pagesFrom (v size : Word) : Nat := pageUp (size + targetElfPageoffset v).toNat

/-- The segment's pages, counted from the first address of the image, end within `limit`:
those of the file part, and those of the whole segment where they are mapped. -/
structure Phdr.StaysInside (eppnt : Phdr) (loaddr : Word) (limit : Nat) : Prop where
  file : eppnt.pFilesz ≠ 0 →
    (eppnt.pVaddr - loaddr).toNat / 4096 * 4096 +
      pagesFrom (eppnt.pVaddr - loaddr) eppnt.pFilesz ≤ limit
  memory : eppnt.pFilesz < eppnt.pMemsz →
    pagesFrom (eppnt.pVaddr - loaddr) eppnt.pMemsz ≤ 2 ^ 63 →
      (eppnt.pVaddr - loaddr).toNat / 4096 * 4096 +
        pagesFrom (eppnt.pVaddr - loaddr) eppnt.pMemsz ≤ limit

def Phdr.Contained (eppnt : Phdr) (c : Setup) (vaddr base : Word) (limit : Nat) : Prop :=
  ∀ r ∈ eppnt.ranges c vaddr, ∀ a, Span.Mem r.1 r.2 a → Span.Mem base limit a

theorem pagestart_add_pageoffset (v : Word) : targetElfPagestart v + targetElfPageoffset v = v := by
  refine BitVec.eq_of_toNat_eq ?_
  have hv := v.isLt
  rw [BitVec.toNat_add, toNat_pagestart, toNat_pageoffset]
  omega

/-- A segment at a place that the host has granted: where it begins in the host and at
what distance from the image, and what lies that many bytes behind. -/
structure Located (c : Setup) (vaddr base : Word) (d : Nat) : Prop where
  guest : c.guestBase.toNat % 4096 = 0
  host : (g2h c (targetElfPagestart vaddr)).toNat % 4096 = 0
  distance : (targetElfPagestart vaddr - base).toNat = d

section

variable {c : Setup} {vaddr base size : Word} {d : Nat}

theorem toNat_bssStart
    (hfit : (g2h c (targetElfPagestart vaddr)).toNat + pagesFrom vaddr size ≤ 2 ^ 63) :
    (g2h c (vaddr + size)).toNat =
      (g2h c (targetElfPagestart vaddr)).toNat + (size + targetElfPageoffset vaddr).toNat := by
  have hsum : g2h c (vaddr + size) =
      g2h c (targetElfPagestart vaddr) + (size + targetElfPageoffset vaddr) := by
    have hv := pagestart_add_pageoffset vaddr
    unfold g2h
    grind
  have hup := le_pageUp (size + targetElfPageoffset vaddr).toNat
  unfold pagesFrom at hfit
  rw [hsum, BitVec.toNat_add, Nat.mod_eq_of_lt (by omega)]

theorem Located.toNat_aligned (hl : Located c vaddr base d)
    (hfit : (g2h c (targetElfPagestart vaddr)).toNat + pagesFrom vaddr size ≤ 2 ^ 63) :
    (hostPageAlign (g2h c (vaddr + size))).toNat =
      (g2h c (targetElfPagestart vaddr)).toNat + pagesFrom vaddr size := by
  have hal := hl.host
  rw [toNat_hostPageAlign, toNat_bssStart hfit]
  unfold pagesFrom pageUp at hfit ⊢
  omega

theorem Located.toNat_stop (hl : Located c vaddr base d) (size : Word) :
    (g2h c (targetPageAlign (vaddr + size))).toNat =
      ((g2h c (targetElfPagestart vaddr)).toNat + pagesFrom vaddr size) % 2 ^ 64 := by
  obtain ⟨g, hg⟩ : ∃ g, c.guestBase.toNat = 4096 * g :=
    ⟨c.guestBase.toNat / 4096, by have := hl.guest; omega⟩
  have hsum : vaddr + size = targetElfPagestart vaddr + (size + targetElfPageoffset vaddr) := by
    have hv := pagestart_add_pageoffset vaddr
    grind
  rw [hsum, toNat_g2h, toNat_g2h, toNat_targetPageAlign, BitVec.toNat_add, toNat_pagestart, hg]
  unfold pagesFrom pageUp
  omega

/-- The distance of a host address that lies behind the segment's first page. -/
theorem Located.toNat_distance (hl : Located c vaddr base d) {x : Word} {y : Nat}
    (hx : x.toNat = (g2h c (targetElfPagestart vaddr)).toNat + y) :
    (h2g c x - base).toNat = (d + y) % 2 ^ 64 := by
  have hd := hl.distance
  have hlt := c.guestBase.isLt
  rw [toNat_g2h] at hx
  rw [BitVec.toNat_sub] at hd
  unfold h2g
  rw [BitVec.toNat_sub, BitVec.toNat_sub]
  omega

/-- The pages of the bss, if they are mapped: they end where the whole segment does. -/
theorem Located.bss_mapped (hl : Located c vaddr base d) {m : Word}
    (hfit : (g2h c (targetElfPagestart vaddr)).toNat + pagesFrom vaddr size ≤ 2 ^ 63) :
    hostPageAlign (g2h c (vaddr + size)) < g2h c (targetPageAlign (vaddr + m)) ↔
      pagesFrom vaddr size < pagesFrom vaddr m ∧
        (g2h c (targetElfPagestart vaddr)).toNat + pagesFrom vaddr m < 2 ^ 64 := by
  have hstart := hl.toNat_aligned hfit
  have hstop := hl.toNat_stop m
  have htop : pagesFrom vaddr m ≤ 2 ^ 64 := by
    have hlt := (m + targetElfPageoffset vaddr).isLt
    unfold pagesFrom pageUp
    omega
  show (hostPageAlign (g2h c (vaddr + size))).toNat <
    (g2h c (targetPageAlign (vaddr + m))).toNat ↔ _
  rw [hstart, hstop]
  omega

theorem Located.bss_contained (hl : Located c vaddr base d) {m : Word} {limit : Nat}
    (hfit : (g2h c (targetElfPagestart vaddr)).toNat + pagesFrom vaddr size ≤ 2 ^ 63)
    (hpos : 0 < pagesFrom vaddr size) (hlimit : limit < 2 ^ 64)
    (hfile : d + pagesFrom vaddr size ≤ limit)
    (hgrant : hostPageAlign (g2h c (vaddr + size)) < g2h c (targetPageAlign (vaddr + m)) →
      (hostPageAlign (g2h c (vaddr + size))).toNat +
        pageUp (g2h c (targetPageAlign (vaddr + m)) -
          hostPageAlign (g2h c (vaddr + size))).toNat ≤ 2 ^ 63) :
    (∀ r ∈ bssRanges c (vaddr + size) (vaddr + m), ∀ a,
        Span.Mem r.1 r.2 a → Span.Mem base limit a) ↔
      (pagesFrom vaddr m ≤ 2 ^ 63 → d + pagesFrom vaddr m ≤ limit) := by
  have hmapped := hl.bss_mapped (m := m) hfit
  have hstart := hl.toNat_aligned hfit
  have hstop := hl.toNat_stop m
  have hsize := toNat_bssStart hfit
  have hdist := hl.toNat_distance hstart
  have hclear := hl.toNat_distance hsize
  have hup := le_pageUp (size + targetElfPageoffset vaddr).toNat
  have hF : pagesFrom vaddr size = pageUp (size + targetElfPageoffset vaddr).toNat := rfl
  -- the bytes that are cleared are in the last page of the file part
  have hlast : ∀ a, g2h c (vaddr + size) < hostPageAlign (g2h c (vaddr + size)) →
      Span.Mem (h2g c (g2h c (vaddr + size)))
        (hostPageAlign (g2h c (vaddr + size)) - g2h c (vaddr + size)).toNat a →
      Span.Mem base limit a := by
    intro a hlt
    have hn : (g2h c (vaddr + size)).toNat < (hostPageAlign (g2h c (vaddr + size))).toNat := hlt
    refine (Span.subset_iff _ _ ?_ hlimit).mpr ?_ a
    · rw [BitVec.toNat_sub_of_le (BitVec.le_of_lt hlt)]
      omega
    · rw [BitVec.toNat_sub_of_le (BitVec.le_of_lt hlt), hclear]
      omega
  have hpages : hostPageAlign (g2h c (vaddr + size)) < g2h c (targetPageAlign (vaddr + m)) →
      pageUp (g2h c (targetPageAlign (vaddr + m)) - hostPageAlign (g2h c (vaddr + size))).toNat =
        pagesFrom vaddr m - pagesFrom vaddr size := by
    intro hlt
    obtain ⟨h1, h2⟩ := hmapped.mp hlt
    have hm1 := pageUp_mod (m + targetElfPageoffset vaddr).toNat
    have hm2 := pageUp_mod (size + targetElfPageoffset vaddr).toNat
    unfold pagesFrom at h1 h2 hstart hstop ⊢
    rw [BitVec.toNat_sub_of_le (BitVec.le_of_lt hlt), hstart, hstop, Nat.mod_eq_of_lt h2]
    exact (pageUp_of_dvd (by omega)).trans (by omega)
  unfold bssRanges
  dsimp only
  by_cases hlt : hostPageAlign (g2h c (vaddr + size)) < g2h c (targetPageAlign (vaddr + m))
  · obtain ⟨h1, h2⟩ := hmapped.mp hlt
    have hgr := hgrant hlt
    rw [hpages hlt, hstart] at hgr
    rw [if_pos hlt, hpages hlt]
    have hpos' : 0 < pagesFrom vaddr m - pagesFrom vaddr size := by omega
    have hsub := Span.subset_iff base (h2g c (hostPageAlign (g2h c (vaddr + size)))) hpos' hlimit
    rw [hdist] at hsub
    constructor
    · intro hall _
      have hfirst := hall _ List.mem_cons_self
      have hb := hsub.mp hfirst
      omega
    · intro hle r hr
      have hin := hle (by omega)
      rcases List.mem_cons.mp hr with rfl | hr
      · exact hsub.mpr (by omega)
      · split at hr
        · rename_i hc
          cases List.mem_singleton.mp hr
          exact fun a => hlast a hc
        · exact absurd hr List.not_mem_nil
  · rw [if_neg hlt]
    have hnot := mt hmapped.mpr hlt
    refine iff_of_true (fun r hr => ?_) (fun hle => by omega)
    rw [List.nil_append] at hr
    split at hr
    · rename_i hc
      cases List.mem_singleton.mp hr
      exact fun a => hlast a hc
    · exact absurd hr List.not_mem_nil

end

/-- The place of a segment, once a mapping at its first page is granted. -/
theorem located_of_aligned {c : Setup} {loaddr loadAddr v : Word}
    (hal : (g2h c loadAddr).toNat % 4096 = 0)
    (hp : (g2h c (targetElfPagestart (loadAddr - loaddr + v))).toNat % 4096 = 0) :
    Located c (loadAddr - loaddr + v) loadAddr ((v - loaddr).toNat / 4096 * 4096) ∧
      ∀ size, pagesFrom (loadAddr - loaddr + v) size = pagesFrom (v - loaddr) size := by
  have hd : loadAddr - loaddr + v - loadAddr = v - loaddr := by grind
  generalize loadAddr - loaddr + v = vaddr at hp hd ⊢
  have hps := toNat_pagestart vaddr
  have hp' := hp
  rw [toNat_g2h] at hp' hal
  have hd := congrArg BitVec.toNat hd
  rw [BitVec.toNat_sub] at hd
  have hgb : c.guestBase.toNat % 4096 = 0 := by omega
  have hbase : loadAddr.toNat % 4096 = 0 := by omega
  refine ⟨⟨hgb, hp, ?_⟩, fun size => ?_⟩
  · rw [BitVec.toNat_sub, hps]
    omega
  · have hoff : targetElfPageoffset vaddr = targetElfPageoffset (v - loaddr) := by
      refine BitVec.eq_of_toNat_eq ?_
      rw [toNat_pageoffset, toNat_pageoffset]
      omega
    unfold pagesFrom
    rw [hoff]

theorem pages_granted {h : Host} {r : MmapArgs} (v size : Word) (hacc : h.Accepts r)
    (hlen : r.length = targetElfPagelength (size + targetElfPageoffset v)) :
    pageUp r.length.toNat = pagesFrom v size ∧ 0 < pagesFrom v size ∧
      r.addr.toNat + pagesFrom v size ≤ 2 ^ 63 := by
  have hne := hacc.length
  have hfits := hacc.fits
  rw [hlen] at hne hfits ⊢
  obtain ⟨hup, hsize⟩ := pageUp_hostPageAlign (x := size + targetElfPageoffset v) hne
  have hpages : pageUp (targetElfPagelength (size + targetElfPageoffset v)).toNat =
      pagesFrom v size := hup
  rw [hpages] at hfits
  refine ⟨hpages, Nat.pos_of_ne_zero fun h0 => hne (BitVec.eq_of_toNat_eq ?_),
    Nat.le_trans hfits h.taskSize_le⟩
  exact hsize.trans h0

/-- The ranges of a granted segment lie inside if and only if its pages do. -/
theorem contained_iff {h : Host} {c : Setup} {eppnt : Phdr} {loaddr loadAddr : Word} {limit : Nat}
    (hg : SegmentGranted h c eppnt (loadAddr - loaddr + eppnt.pVaddr))
    (hal : (g2h c loadAddr).toNat % 4096 = 0) (hlimit : limit < 2 ^ 64) :
    eppnt.Contained c (loadAddr - loaddr + eppnt.pVaddr) loadAddr limit ↔
      eppnt.StaysInside loaddr limit := by
  unfold Phdr.Contained Phdr.ranges
  by_cases hf : eppnt.pFilesz = 0
  · rw [if_neg (not_not_intro hf)]
    by_cases hM : eppnt.pMemsz = 0
    · rw [if_neg (not_not_intro hM)]
      refine iff_of_true (fun _ hr => absurd hr List.not_mem_nil)
        ⟨fun h0 => absurd hf h0, fun hlt => ?_⟩
      rw [hf, hM] at hlt
      exact absurd hlt (by decide)
    · have hacc := hg.empty hf hM
      obtain ⟨hl, hsame⟩ := located_of_aligned hal hacc.addr
      obtain ⟨hlen, hpos, hfit⟩ := pages_granted (loadAddr - loaddr + eppnt.pVaddr) eppnt.pMemsz
        hacc rfl
      have hlt : eppnt.pFilesz < eppnt.pMemsz := by
        rw [hf]
        exact Nat.pos_of_ne_zero fun h0 => hM (BitVec.eq_of_toNat_eq h0)
      have hsub := Span.subset_iff loadAddr
        (targetElfPagestart (loadAddr - loaddr + eppnt.pVaddr)) hpos hlimit
      rw [hl.distance] at hsub
      dsimp only at hlen
      rw [if_pos hM, List.forall_mem_singleton, hlen, hsub, hsame]
      rw [hsame] at hfit
      constructor
      · exact fun hle => ⟨fun h0 => absurd hf h0, fun _ _ => hle⟩
      · exact fun hs => hs.memory hlt (Nat.le_trans (Nat.le_add_left _ _) hfit)
  · rw [if_pos hf]
    have hacc := hg.file hf
    obtain ⟨hl, hsame⟩ := located_of_aligned hal hacc.addr
    obtain ⟨hlen, hpos, hfit⟩ := pages_granted (loadAddr - loaddr + eppnt.pVaddr) eppnt.pFilesz hacc rfl
    have hsub := Span.subset_iff loadAddr
      (targetElfPagestart (loadAddr - loaddr + eppnt.pVaddr)) hpos hlimit
    rw [hl.distance] at hsub
    dsimp only at hlen hfit
    rw [List.forall_mem_cons, hlen, hsub]
    by_cases hlt : eppnt.pFilesz < eppnt.pMemsz
    · rw [if_pos hlt]
      have hbss := fun hfile => hl.bss_contained (m := eppnt.pMemsz) hfit hpos hlimit hfile
        fun hmap => Nat.le_trans (hg.bss hf hlt hmap) h.taskSize_le
      constructor
      · rintro ⟨hfile, hrest⟩
        have hmem := (hbss hfile).mp hrest
        rw [hsame] at hfile hmem
        exact ⟨fun _ => hfile, fun _ => hmem⟩
      · intro hs
        have hfile := hs.file hf
        have hmem := hs.memory hlt
        rw [← hsame] at hfile hmem
        exact ⟨hfile, (hbss hfile).mpr hmem⟩
    · rw [if_neg hlt, hsame]
      constructor
      · exact fun hle => ⟨fun _ => hle.1, fun h0 => absurd h0 hlt⟩
      · exact fun hs => ⟨hs.file hf, fun _ hr => absurd hr List.not_mem_nil⟩

/-! ## Whole loads -/

/-- The size of the pages that are reserved for an image. -/
def imagePages (phdr : List Phdr) : Nat :=
  pageUp ((scan phdr).hiaddr + reserveBrk - (scan phdr).loaddr + 1).toNat

/-- The segments a load gets to after its reservation. -/
def reached (h : Host) (c : Setup) (bprm : Binprm) (r : List Phdr × Space × Word) : List Phdr :=
  let loadBias := r.2.2 - (scan r.1).loaddr
  reachedSegments h c bprm.execfd loadBias
    (r.2.1, (scan r.1).info.locate bprm.ehdr r.2.2 loadBias) r.1

/-- The load returns an error, or all it maps and clears for the segments lies in the pages
that it has reserved. -/
def LoadContained (h : Host) (c : Setup) (s : Space) (bprm : Binprm) : Prop :=
  ReturnsError (loadElfBinary h c s bprm) ∨
    ∀ r, reserveImage h c s bprm = .ok r → ∀ eppnt ∈ reached h c bprm r,
      eppnt.Contained c (r.2.2 - (scan r.1).loaddr + eppnt.pVaddr) r.2.2 (imagePages r.1)

/-- The load returns an error, or the headers of the segments it gets to stay inside. -/
def HeadersInside (h : Host) (c : Setup) (s : Space) (bprm : Binprm) : Prop :=
  ReturnsError (loadElfBinary h c s bprm) ∨
    ∀ r, reserveImage h c s bprm = .ok r → ∀ eppnt ∈ reached h c bprm r,
      eppnt.StaysInside (scan r.1).loaddr (imagePages r.1)

theorem ImageReserved.contained_iff {h : Host} {c : Setup} {s : Space} {bprm : Binprm}
    {r : List Phdr × Space × Word} (hr : ImageReserved h c s bprm r.1 r.2.2) {eppnt : Phdr}
    (he : eppnt ∈ reached h c bprm r) :
    eppnt.Contained c (r.2.2 - (scan r.1).loaddr + eppnt.pVaddr) r.2.2 (imagePages r.1) ↔
      eppnt.StaysInside (scan r.1).loaddr (imagePages r.1) := by
  obtain ⟨_, s₁, hp⟩ := mapped_of_reached he
  have hfits := hr.fits
  have hts := h.taskSize_le
  exact Rvvk.contained_iff (segmentGranted hp) hr.aligned (by unfold imagePages; omega)

/-- For every table of program headers: the loader maps and clears inside of its
reservation if and only if the headers stay inside. -/
theorem loadContained_iff (h : Host) (c : Setup) (s : Space) (bprm : Binprm) :
    LoadContained h c s bprm ↔ HeadersInside h c s bprm := by
  refine or_congr_right (forall_congr' fun r => ?_)
  refine imp_congr_right fun hr => ?_
  have hres := reserveImage_ok hr
  refine forall_congr' fun eppnt => ?_
  exact imp_congr_right fun he => hres.contained_iff he

theorem reached_of_ok {h : Host} {c : Setup} {s s' : Space} {bprm : Binprm} {info : ImageInfo}
    (hl : loadElfBinary h c s bprm = .ok (s', info)) {r : List Phdr × Space × Word}
    (hr : reserveImage h c s bprm = .ok r) : reached h c bprm r = loads r.1 := by
  rw [loadElfBinary_mapImage] at hl
  obtain ⟨⟨phdr, s₂, info₂⟩, hm, _⟩ := bind_eq_ok hl
  rw [mapImage, hr] at hm
  obtain ⟨r', hr', hm⟩ := bind_eq_ok hm
  cases hr'
  obtain ⟨⟨s₃, info₃⟩, hf, _⟩ := bind_eq_ok hm
  exact reachedSegments_ok hf

/-- Segments of a well-formed image with no more file than memory stay inside. -/
theorem WellFormed.staysInside {phdr : List Phdr} (hw : WellFormed phdr)
    (htop : imageTop phdr + reserveBrk.toNat < 2 ^ 64)
    (hsize : (scan phdr).hiaddr + reserveBrk - (scan phdr).loaddr + 1 ≠ 0) {eppnt : Phdr}
    (he : eppnt ∈ loads phdr) (hf : eppnt.pFilesz.toNat ≤ eppnt.pMemsz.toNat) :
    eppnt.StaysInside (scan phdr).loaddr (imagePages phdr) := by
  have hlo := hw.loaddr_le he
  have hend := hw.imageTop_spec.2 eppnt he
  have hR : reserveBrk.toNat = 0x2000000 := rfl
  have hd : (eppnt.pVaddr - (scan phdr).loaddr).toNat =
      eppnt.pVaddr.toNat - (scan phdr).loaddr.toNat := BitVec.toNat_sub_of_le hlo
  have hlimit : imagePages phdr =
      pageUp (imageTop phdr + 0x2000000 + 1 - (scan phdr).loaddr.toNat) := by
    unfold imagePages
    rw [toNat_imageSize hw.loaddr_le_top htop hsize, hR]
  have hpages : ∀ size : Word, size.toNat ≤ eppnt.pMemsz.toNat →
      (eppnt.pVaddr - (scan phdr).loaddr).toNat / 4096 * 4096 +
        pagesFrom (eppnt.pVaddr - (scan phdr).loaddr) size ≤ imagePages phdr := by
    intro size hs
    rw [hlimit]
    unfold pagesFrom
    rw [BitVec.toNat_add, toNat_pageoffset, hd, Nat.mod_eq_of_lt (by omega)]
    unfold pageUp
    omega
  exact ⟨fun _ => hpages _ hf, fun _ _ => hpages _ (Nat.le_refl _)⟩

/-- A well-formed image with no more file than memory in any segment is loaded inside of
its reservation. -/
theorem loadContained_of_wellFormed {h : Host} {c : Setup} {s : Space} {bprm : Binprm}
    (hw : WellFormed (h.phdrs bprm))
    (hf : ∀ eppnt ∈ loads (h.phdrs bprm), eppnt.pFilesz.toNat ≤ eppnt.pMemsz.toNat)
    (htop : imageTop (h.phdrs bprm) + reserveBrk.toNat < 2 ^ 64) : LoadContained h c s bprm := by
  refine .inr fun r hr eppnt he => ?_
  have hres := reserveImage_ok hr
  have hin := (mapped_of_reached he).1
  rw [← hres.phdrs] at hw hf htop
  exact (hres.contained_iff he).mpr (hw.staysInside htop hres.size hin (hf eppnt hin))

/-! ## More file than memory -/

/-- 64 MiB of the file for 120 bytes of memory. -/
def longSegment : Phdr := ⟨ptLoad, pfR ||| pfX, 0, 0x10000, 0x4000000, 120, 4096⟩

abbrev longText : List Phdr := [longSegment]

/-- The file part is mapped past the end of the reservation. -/
theorem longText_not_contained :
    ¬ LoadContained (fileHost (execFile longText)) .default (.unmapped 1)
      (execBinprm longText) := by
  rintro (⟨e, he, _⟩ | hall)
  · obtain ⟨r, hr, _⟩ := exists_of_any
      (show (loadElfBinary (fileHost (execFile longText)) .default (.unmapped 1)
        (execBinprm longText)).toOption.any (fun _ => true) = true by decide +kernel)
    rw [hr] at he
    cases he
  · obtain ⟨r, hr, hp⟩ := exists_of_any
      (show (reserveImage (fileHost (execFile longText)) .default (.unmapped 1)
        (execBinprm longText)).toOption.any (fun r => r.1 == longText && r.2.2 == 0x10000 &&
          reached (fileHost (execFile longText)) .default (execBinprm longText) r == longText) =
            true by decide +kernel)
    simp only [Bool.and_eq_true, beq_iff_eq] at hp
    obtain ⟨⟨hphdr, haddr⟩, hreached⟩ := hp
    have hmem : longSegment ∈ reached (fileHost (execFile longText)) .default
        (execBinprm longText) r := by
      rw [hreached]
      exact List.mem_cons_self
    have hin := hall r hr _ hmem _ List.mem_cons_self 0x3000000
    rw [hphdr, haddr] at hin
    exact absurd (hin (by decide +kernel)) (by decide +kernel)

end Rvvk
