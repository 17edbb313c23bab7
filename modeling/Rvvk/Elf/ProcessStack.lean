import Mathlib.Data.List.Forall2
import Rvvk.Elf.Entry

/-!
# The stack a program finds

The copies of `create_elf_tables` grow down from the top of the stack and do not
meet. Read from the final stack pointer upwards they are the process stack.
-/

namespace Rvvk

namespace Copy

def span (c : Copy) : Word × Nat := (c.addr, c.bytes.length)

end Copy

theorem span_copiesBelow (top : Word) (strs : List (List (BitVec 8))) :
    (copiesBelow top strs).map Copy.span = Descend.pieces top (strs.map List.length) := by
  induction strs generalizing top with
  | nil => rfl
  | cons bs rest ih => rw [copiesBelow, List.map_cons, ih, List.map_cons, Descend.pieces, Copy.span]

/-! ## Copies that do not meet -/

namespace Memory

theorem storeAll_eq_ok {m : Memory} {copies : List Copy}
    (hw : ∀ c ∈ copies, ∀ i < c.bytes.length, m.Writable (c.addr + BitVec.ofNat 64 i)) :
    ∃ m', m.storeAll copies = .ok m' := by
  induction copies generalizing m with
  | nil => exact ⟨m, rfl⟩
  | cons c copies ih =>
      obtain ⟨m₁, h₁⟩ := storeBytes_eq_ok.mpr (hw c List.mem_cons_self)
      have hp : SamePages m m₁ := storeBytes_samePages h₁
      obtain ⟨m', h'⟩ := ih fun c' hc i hi =>
        hp.writable.mpr (hw c' (List.mem_cons_of_mem c hc) i hi)
      rw [storeAll_cons, h₁]
      exact ⟨m', h'⟩

theorem storeAll_other {m m' : Memory} {copies : List Copy} (h : m.storeAll copies = .ok m')
    {a : Word} (ha : ∀ c ∈ copies, c.bytes.length ≤ 2 ^ 64 ∧ ¬ Span.Mem c.addr c.bytes.length a) :
    m' a = m a := by
  induction copies generalizing m with
  | nil =>
      cases h
      rfl
  | cons c copies ih =>
      rw [storeAll_cons] at h
      obtain ⟨m₁, h₁, h⟩ := bind_eq_ok h
      obtain ⟨hlen, hout⟩ := ha c List.mem_cons_self
      rw [ih h fun c' hc => ha c' (List.mem_cons_of_mem c hc), storeBytes_apply h₁ hlen,
        List.getElem?_eq_none (Nat.le_of_not_lt hout)]
      cases m a <;> rfl

/-- The bytes at an address, as the guest reads them. -/
def Spells (m : Memory) (a : Word) (bs : List (BitVec 8)) : Prop := m.loadBytes a bs.length = .ok bs

theorem byte?_of_isSome {m : Memory} {a : Word} (h : (m.byte? a).isSome = true) :
    ∃ cell, m a = some cell ∧ cell.prot.read = true := by
  unfold byte? at h
  cases hm : m a with
  | none =>
      rw [hm] at h
      cases h
  | some cell =>
      refine ⟨cell, rfl, ?_⟩
      cases hr : cell.prot.read with
      | true => rfl
      | false =>
          rw [hm, Option.bind_some, if_neg (by rw [hr]; decide)] at h
          cases h

theorem storeBytes_holds {m m' : Memory} {a : Word} {bs : List (BitVec 8)}
    (h : m.storeBytes a bs = .ok m') (hl : bs.length ≤ 2 ^ 64)
    (hr : ∀ x, Span.Mem a bs.length x → (m.byte? x).isSome = true) : m'.Spells a bs := by
  refine loadBytes_eq_ok.mpr ⟨rfl, fun i hi => ?_⟩
  obtain ⟨cell, hc, hread⟩ := byte?_of_isSome (hr _ (Span.mem_offset a hi))
  have hoff : (a + BitVec.ofNat 64 i - a).toNat = i := by
    rw [BitVec.add_comm, BitVec.add_sub_cancel, BitVec.toNat_ofNat]
    omega
  unfold byte?
  rw [storeBytes_apply h hl, hc, hoff, Option.map_some, Option.bind_some, if_pos hread,
    List.getElem?_eq_getElem hi, Option.getD_some]

theorem Spells.congr {m m' : Memory} {a : Word} {bs : List (BitVec 8)} (h : m.Spells a bs)
    (he : ∀ x, Span.Mem a bs.length x → m' x = m x) : m'.Spells a bs := by
  obtain ⟨hlen, hb⟩ := loadBytes_eq_ok.mp h
  refine loadBytes_eq_ok.mpr ⟨hlen, fun i hi => ?_⟩
  rw [← hb i hi]
  unfold byte?
  rw [he _ (Span.mem_offset a hi)]

/-- After copies that do not meet each of them is in place. -/
theorem storeAll_holds {m m' : Memory} {copies : List Copy} (h : m.storeAll copies = .ok m')
    (hd : (copies.map Copy.span).Pairwise fun x y => Span.Disjoint x.1 x.2 y.1 y.2)
    (hl : ∀ c ∈ copies, c.bytes.length ≤ 2 ^ 64)
    (hr : ∀ c ∈ copies, ∀ a, Span.Mem c.addr c.bytes.length a → (m.byte? a).isSome = true) :
    ∀ c ∈ copies, m'.Spells c.addr c.bytes := by
  induction copies generalizing m with
  | nil => exact fun c hc => absurd hc List.not_mem_nil
  | cons c copies ih =>
      rw [storeAll_cons] at h
      obtain ⟨m₁, h₁, h⟩ := bind_eq_ok h
      have hp : SamePages m m₁ := storeBytes_samePages h₁
      rw [List.map_cons, List.pairwise_cons] at hd
      rw [List.forall_mem_cons] at hl hr ⊢
      refine ⟨(storeBytes_holds h₁ hl.1 hr.1).congr fun x hx => ?_, ?_⟩
      · exact storeAll_other h fun c' hc =>
          ⟨hl.2 c' hc, hd.1 c'.span (List.mem_map_of_mem hc) x hx⟩
      · refine ih h hd.2 hl.2 fun c' hc a ha => ?_
        rw [hp.isSome_byte?]
        exact hr.2 c' hc a ha

def Words (m : Memory) (a : Word) : List Word → Prop
  | [] => True
  | v :: vs => cpuLdud m a 0 = .ok v ∧ Words m (a + 8) vs

theorem words_append {m : Memory} {a : Word} {vs vs' : List Word} :
    m.Words a (vs ++ vs') ↔ m.Words a vs ∧ m.Words (a + BitVec.ofNat 64 (8 * vs.length)) vs' := by
  induction vs generalizing a with
  | nil => simp [Words]
  | cons v vs ih =>
      have he : a + 8 + BitVec.ofNat 64 (8 * vs.length) =
          a + BitVec.ofNat 64 (8 * (v :: vs).length) := by
        rw [List.length_cons, Nat.mul_add, BitVec.ofNat_add]
        grind
      rw [List.cons_append, Words, ih, he, Words, and_assoc]

theorem Spells.word {m : Memory} {a v : Word} (h : m.Spells a (LittleEndian.bytes v 8)) :
    cpuLdud m a 0 = .ok v := by
  have ha : a + 0 = a := BitVec.add_zero a
  unfold Spells at h
  rw [LittleEndian.length_bytes] at h
  unfold cpuLdud
  rw [ha, h]
  exact congrArg Except.ok (LittleEndian.value_bytes v 8 (Nat.le_refl _))

end Memory

/-- Words pushed one below the other come out in reverse, read upwards. -/
theorem words_below {m : Memory} {top : Word} {vs : List Word}
    (h : ∀ c ∈ copiesBelow top (vs.map fun v => LittleEndian.bytes v 8), m.Spells c.addr c.bytes) :
    m.Words (top - BitVec.ofNat 64 (8 * vs.length)) vs.reverse := by
  induction vs generalizing top with
  | nil => trivial
  | cons v vs ih =>
      rw [List.map_cons, copiesBelow, List.forall_mem_cons, LittleEndian.length_bytes] at h
      have hend : top - BitVec.ofNat 64 8 - BitVec.ofNat 64 (8 * vs.length) =
          top - BitVec.ofNat 64 (8 * (v :: vs).length) := by
        rw [List.length_cons, Nat.mul_add, BitVec.ofNat_add]
        grind
      have hlast : top - BitVec.ofNat 64 (8 * (v :: vs).length) +
          BitVec.ofNat 64 (8 * vs.reverse.length) = top - BitVec.ofNat 64 8 := by
        rw [List.length_reverse, ← hend]
        grind
      rw [List.reverse_cons, Memory.words_append, hlast, ← hend]
      exact ⟨ih h.2, h.1.word, trivial⟩

/-! ## The pieces of the stack -/

namespace Binprm

/-- The bytes between the lowest string and the table. -/
def gap (bprm : Binprm) (p : Word) : Nat := (endBelow p bprm.strings).toNat % 8 + 24

/-- The bytes from the final stack pointer to the top. -/
def stackBytes (bprm : Binprm) (p : Word) : Nat :=
  bprm.stringBytes + bprm.gap p + 8 * (bprm.ptrs p).length

theorem tableTop_eq (bprm : Binprm) (p : Word) :
    bprm.tableTop p = endBelow p bprm.strings - BitVec.ofNat 64 (bprm.gap p) := by
  have h8 : (8 : Word).toNat = 8 := rfl
  have h16 : (16 : Word).toNat = 16 := rfl
  refine BitVec.eq_of_toNat_eq ?_
  unfold tableTop gap
  generalize endBelow p bprm.strings = e
  rw [BitVec.toNat_sub, BitVec.toNat_sub, BitVec.toNat_sub, toNat_roundDown_word, h8, h16,
    BitVec.toNat_ofNat]
  omega

theorem startStack_eq_sub (bprm : Binprm) (p : Word) :
    bprm.startStack p = p - BitVec.ofNat 64 (bprm.stackBytes p) := by
  unfold startStack stackBytes stringBytes
  rw [slots, endBelow_words, tableTop_eq, endBelow, Descend.bottom, BitVec.ofNat_add, BitVec.ofNat_add]
  grind

/-- The copies and the gap between them are pieces one below the other. -/
theorem span_copies (bprm : Binprm) (p : Word) :
    Descend.pieces p (bprm.strings.map List.length ++
        bprm.gap p :: List.replicate (bprm.ptrs p).length 8) =
      (copiesBelow p bprm.strings).map Copy.span ++
        (bprm.tableTop p, bprm.gap p) ::
          (copiesBelow (bprm.tableTop p) (bprm.slots p)).map Copy.span := by
  have hlen : (bprm.slots p).map List.length = List.replicate (bprm.ptrs p).length 8 := by
    rw [slots, List.map_map]
    exact List.map_eq_replicate_iff.mpr fun v _ => LittleEndian.length_bytes v 8
  rw [Descend.pieces_append, Descend.pieces, span_copiesBelow, span_copiesBelow, hlen, tableTop_eq,
    endBelow]

theorem sum_pieces (bprm : Binprm) (p : Word) :
    (bprm.strings.map List.length ++
      bprm.gap p :: List.replicate (bprm.ptrs p).length 8).sum = bprm.stackBytes p := by
  rw [List.sum_append, List.sum_cons, List.sum_replicate_nat, stackBytes, stringBytes]
  omega

end Binprm

/-! ## The process stack -/

/-- The `room` bytes below the top are fresh pages of zeros. -/
structure FreshStack (m : Memory) (p : Word) (room : Nat) : Prop where
  small : room < 2 ^ 64
  fresh : ∀ a, Span.Mem (p - BitVec.ofNat 64 room) room a → m a = some ⟨0, ⟨true, true⟩⟩

/-- The strings as spans, from the lowest to the highest. -/
def stringSpans (bprm : Binprm) (addrs : List Word) : List (Word × Nat) :=
  addrs.zip (bprm.stringsUp.map fun str => str.terminated.length)

/-- The process stack at `sp`, with the file name's copy at `file` and the other strings'
at `args` and `envs`. -/
structure ProcessStack (m : Memory) (bprm : Binprm) (sp file : Word) (args envs : List Word) :
    Prop where
  /-- The table, and the empty auxiliary vector of two words behind it. -/
  words : m.Words sp (BitVec.ofNat 64 bprm.argc :: file :: args ++ 0 :: envs ++ [0] ++ [0, 0])
  name : m.Spells file bprm.filename.terminated
  argCopies : List.Forall₂ (fun a str => m.Spells a str.terminated) args bprm.argv.tail
  envCopies : List.Forall₂ (fun a str => m.Spells a str.terminated) envs bprm.envp
  apart : (stringSpans bprm (file :: args ++ envs)).Pairwise fun x y =>
    Span.Disjoint x.1 x.2 y.1 y.2
  table : ∀ x ∈ stringSpans bprm (file :: args ++ envs),
    Span.Disjoint sp (8 * (bprm.argc + bprm.envc + 3) + 16) x.1 x.2

variable {m m' : Memory} {bprm : Binprm} {p : Word} {room : Nat}

/-- The copies lie in the fresh room, apart from each other and from the gap. -/
structure CopiesPlaced (m : Memory) (bprm : Binprm) (p : Word) : Prop where
  fresh : ∀ c ∈ bprm.copies p, ∀ a, Span.Mem c.addr c.bytes.length a →
    m a = some ⟨0, ⟨true, true⟩⟩
  length : ∀ c ∈ bprm.copies p, c.bytes.length ≤ 2 ^ 64
  inside : ∀ c ∈ bprm.copies p, ∀ a, Span.Mem c.addr c.bytes.length a →
    Span.Mem (bprm.startStack p) (bprm.stackBytes p) a
  apart : ((bprm.copies p).map Copy.span).Pairwise fun x y => Span.Disjoint x.1 x.2 y.1 y.2
  gapFresh : ∀ a, Span.Mem (bprm.tableTop p) (bprm.gap p) a → m a = some ⟨0, ⟨true, true⟩⟩
  gapApart : ∀ c ∈ bprm.copies p, Span.Disjoint (bprm.tableTop p) (bprm.gap p) c.addr c.bytes.length

theorem FreshStack.placed (hf : FreshStack m p room) (hfit : bprm.stackBytes p ≤ room) :
    CopiesPlaced m bprm p := by
  have hsmall := hf.small
  have hsum := bprm.sum_pieces p
  have hspans := bprm.span_copies p
  have hle : (bprm.strings.map List.length ++
      bprm.gap p :: List.replicate (bprm.ptrs p).length 8).sum ≤ 2 ^ 64 := by omega
  have hpair := Descend.pieces_pairwise p hle
  have hdepth : ∀ x ∈ Descend.pieces p (bprm.strings.map List.length ++
      bprm.gap p :: List.replicate (bprm.ptrs p).length 8), ∀ a, Span.Mem x.1 x.2 a →
        Descend.depth p a < bprm.stackBytes p := by
    intro x hx a ha
    rw [← hsum]
    exact Descend.depth_of_mem hle hx ha
  have hsize : ∀ x ∈ Descend.pieces p (bprm.strings.map List.length ++
      bprm.gap p :: List.replicate (bprm.ptrs p).length 8), x.2 ≤ 2 ^ 64 := fun x hx =>
    Nat.le_trans (Descend.size_le_sum hx) hle
  rw [hspans] at hpair hdepth hsize
  have hfresh : ∀ a, Descend.depth p a < bprm.stackBytes p → m a = some ⟨0, ⟨true, true⟩⟩ :=
    fun a ha => hf.fresh a ((Descend.mem_below (by omega)).mpr (by omega))
  have hcopies : (bprm.copies p).map Copy.span =
      (copiesBelow p bprm.strings).map Copy.span ++
        (copiesBelow (bprm.tableTop p) (bprm.slots p)).map Copy.span := by
    rw [Binprm.copies, List.map_append]
  obtain ⟨hstrs, hrest, hcross⟩ := List.pairwise_append.mp hpair
  obtain ⟨hgap, hslots⟩ := List.pairwise_cons.mp hrest
  have hmem : ∀ c ∈ bprm.copies p, c.span ∈ (copiesBelow p bprm.strings).map Copy.span ∨
      c.span ∈ (copiesBelow (bprm.tableTop p) (bprm.slots p)).map Copy.span := by
    intro c hc
    rw [← List.mem_append, ← hcopies]
    exact List.mem_map_of_mem hc
  have hin : ∀ c ∈ bprm.copies p, c.span ∈ (copiesBelow p bprm.strings).map Copy.span ++
      (bprm.tableTop p, bprm.gap p) ::
        (copiesBelow (bprm.tableTop p) (bprm.slots p)).map Copy.span := by
    intro c hc
    rcases hmem c hc with h | h
    · exact List.mem_append_left _ h
    · exact List.mem_append_right _ (List.mem_cons_of_mem _ h)
  refine ⟨fun c hc a ha => hfresh a (hdepth c.span (hin c hc) a ha),
    fun c hc => hsize c.span (hin c hc), fun c hc a ha => ?_, ?_, fun a ha => ?_, fun c hc => ?_⟩
  · rw [Binprm.startStack_eq_sub]
    exact (Descend.mem_below (by omega)).mpr (hdepth c.span (hin c hc) a ha)
  · rw [hcopies]
    exact List.pairwise_append.mpr ⟨hstrs, hslots, fun x hx y hy =>
      hcross x hx y (List.mem_cons_of_mem _ hy)⟩
  · exact hfresh a (hdepth (bprm.tableTop p, bprm.gap p)
      (List.mem_append_right _ List.mem_cons_self) a ha)
  · rcases hmem c hc with h | h
    · exact (hcross c.span h _ List.mem_cons_self).symm
    · exact hgap c.span h

/-! ## What the copies spell -/

theorem ptrs_reverse (bprm : Binprm) (p : Word) :
    (bprm.ptrs p).reverse = BitVec.ofNat 64 bprm.argc :: endBelow p bprm.strings ::
      (addrsBelow (endBelow p bprm.envStrings) bprm.argStrings).reverse ++
        0 :: (addrsBelow p bprm.envStrings).reverse ++ [0] := by
  simp [Binprm.ptrs]

theorem addrs_reverse (bprm : Binprm) (p : Word) :
    endBelow p bprm.strings ::
      (addrsBelow (endBelow p bprm.envStrings) bprm.argStrings).reverse ++
        (addrsBelow p bprm.envStrings).reverse = (addrsBelow p bprm.strings).reverse := by
  simp [Binprm.strings, addrsBelow, copiesBelow_append, copiesBelow, endBelow_append, endBelow_cons]

theorem map_bytes_copiesBelow (top : Word) (strs : List (List (BitVec 8))) :
    (copiesBelow top strs).map Copy.bytes = strs := by
  induction strs generalizing top with
  | nil => rfl
  | cons bs rest ih => rw [copiesBelow, List.map_cons, ih]

theorem stringSpans_eq (bprm : Binprm) (p : Word) :
    stringSpans bprm (addrsBelow p bprm.strings).reverse =
      ((copiesBelow p bprm.strings).map Copy.span).reverse := by
  have hlen : (bprm.stringsUp.map fun str => str.terminated.length) =
      ((copiesBelow p bprm.strings).map fun c => c.bytes.length).reverse := by
    rw [show (fun c : Copy => c.bytes.length) = List.length ∘ Copy.bytes from rfl,
      ← List.map_map, map_bytes_copiesBelow, Binprm.strings_eq, List.map_map, ← List.map_reverse,
      List.reverse_reverse]
    rfl
  unfold stringSpans addrsBelow
  rw [hlen, ← List.map_reverse, ← List.map_reverse, List.zip_map', ← List.map_reverse]
  rfl

theorem forall₂_below {m : Memory} {top : Word} {strs : List CString}
    (h : ∀ c ∈ copiesBelow top (strs.map CString.terminated), m.Spells c.addr c.bytes) :
    List.Forall₂ (fun a str => m.Spells a str.terminated)
      (addrsBelow top (strs.map CString.terminated)) strs := by
  induction strs generalizing top with
  | nil => exact .nil
  | cons str rest ih =>
      rw [List.map_cons, copiesBelow, List.forall_mem_cons] at h
      exact .cons h.1 (ih h.2)

theorem cpuLdud_zero {m : Memory} {a : Word}
    (h : ∀ i < 8, m.byte? (a + BitVec.ofNat 64 i) = some 0) : cpuLdud m a 0 = .ok 0 := by
  have ha : a + 0 = a := BitVec.add_zero a
  unfold cpuLdud
  rw [ha]
  refine (Memory.value_loadBytes_eq_ok (n := 8)).mpr fun i hi => ?_
  rw [h i hi]
  simp

theorem CopiesPlaced.words (hp : CopiesPlaced m bprm p) (hm : m.storeAll (bprm.copies p) = .ok m')
    (hh : ∀ c ∈ bprm.copies p, m'.Spells c.addr c.bytes) :
    m'.Words (bprm.startStack p) ((bprm.ptrs p).reverse ++ [0, 0]) := by
  have hstart : bprm.startStack p =
      bprm.tableTop p - BitVec.ofNat 64 (8 * (bprm.ptrs p).length) := endBelow_words _ _
  have hend : bprm.startStack p + BitVec.ofNat 64 (8 * (bprm.ptrs p).reverse.length) =
      bprm.tableTop p := by
    rw [hstart, List.length_reverse]
    exact BitVec.sub_add_cancel _ _
  -- no copy reaches into the gap
  have hzero : ∀ i < 24, m'.byte? (bprm.tableTop p + BitVec.ofNat 64 i) = some 0 := by
    intro i hi
    have hin : Span.Mem (bprm.tableTop p) (bprm.gap p) (bprm.tableTop p + BitVec.ofNat 64 i) :=
      Span.mem_offset _ (Nat.lt_of_lt_of_le hi (Nat.le_add_left _ _))
    unfold Memory.byte?
    rw [Memory.storeAll_other hm fun c hc => ⟨hp.length c hc, hp.gapApart c hc _ hin⟩,
      hp.gapFresh _ hin]
    rfl
  refine Memory.words_append.mpr ⟨?_, ?_⟩
  · rw [hstart]
    exact words_below fun c hc => hh c (List.mem_append_right _ hc)
  · rw [hend]
    refine ⟨cpuLdud_zero fun i hi => hzero i (by omega), cpuLdud_zero fun i hi => ?_, trivial⟩
    have he : bprm.tableTop p + 8 + BitVec.ofNat 64 i =
        bprm.tableTop p + BitVec.ofNat 64 (8 + i) := by
      rw [BitVec.ofNat_add]
      grind
    rw [he]
    exact hzero (8 + i) (by omega)

theorem strings_apart (bprm : Binprm) (p : Word) (hs : bprm.stackBytes p ≤ 2 ^ 64) :
    (stringSpans bprm (addrsBelow p bprm.strings).reverse).Pairwise
        (fun x y => Span.Disjoint x.1 x.2 y.1 y.2) ∧
      ∀ x ∈ stringSpans bprm (addrsBelow p bprm.strings).reverse,
        Span.Disjoint (bprm.startStack p) (8 * (bprm.ptrs p).length + 16) x.1 x.2 := by
  have hgap : 24 ≤ bprm.gap p := Nat.le_add_left _ _
  have hsum : (bprm.strings.map List.length ++
      [bprm.gap p - 16, 8 * (bprm.ptrs p).length + 16]).sum = bprm.stackBytes p := by
    rw [List.sum_append, List.sum_cons, List.sum_cons, List.sum_nil, Binprm.stackBytes,
      Binprm.stringBytes]
    omega
  have hpair := Descend.pieces_pairwise p (Nat.le_trans (Nat.le_of_eq hsum) hs)
  rw [Descend.pieces_append, ← span_copiesBelow] at hpair
  obtain ⟨hstrs, _, hcross⟩ := List.pairwise_append.mp hpair
  have hbase : Descend.bottom p (bprm.strings.map List.length) - BitVec.ofNat 64 (bprm.gap p - 16) -
      BitVec.ofNat 64 (8 * (bprm.ptrs p).length + 16) = bprm.startStack p := by
    have hsub : BitVec.ofNat 64 (bprm.gap p - 16) = BitVec.ofNat 64 (bprm.gap p) - 16#64 :=
      (BitVec.ofNat_sub_ofNat_of_le _ _ (by decide) (by omega)).symm
    rw [Binprm.startStack, Binprm.slots, endBelow_words, Binprm.tableTop_eq, endBelow, hsub,
      BitVec.ofNat_add]
    grind
  rw [stringSpans_eq]
  refine ⟨List.pairwise_reverse.mpr (hstrs.imp Span.Disjoint.symm), fun x hx => ?_⟩
  have hd := hcross x (List.mem_reverse.mp hx) _ (List.mem_cons_of_mem _ List.mem_cons_self)
  rw [hbase] at hd
  exact hd.symm

/-- In a fresh stack with room for the strings and the tables `create_elf_tables` leaves
the process stack. Its array has an entry for each string and the terminators, and
only the bytes from the new stack pointer to the old one have changed. -/
theorem createElfTables_processStack (hf : FreshStack m p room) (hargc : 1 ≤ bprm.argc)
    (hfit : bprm.stackBytes p ≤ room) :
    ∃ t m' sp file args envs, collectElfTables m bprm p = .ok t ∧
      t.ptrs.length = bprm.argc + bprm.envc + 3 ∧ createElfTables m bprm p = .ok (m', sp) ∧
      ProcessStack m' bprm sp file args envs ∧
      ∀ a, ¬ Span.Mem sp (p - sp).toNat a → m' a = m a := by
  have hp := hf.placed hfit
  have hsmall := hf.small
  have hlen : (bprm.ptrs p).length = bprm.argc + bprm.envc + 3 := by
    have hargc : 1 ≤ bprm.argv.length := hargc
    rw [length_ptrs, List.length_tail, Binprm.argc]
    omega
  obtain ⟨m', hm⟩ := Memory.storeAll_eq_ok fun c hc i hi =>
    ⟨_, hp.fresh c hc _ (Span.mem_offset c.addr hi), rfl⟩
  have hh := Memory.storeAll_holds hm hp.apart hp.length fun c hc a ha => by
    unfold Memory.byte?
    rw [hp.fresh c hc a ha]
    rfl
  have hsub : (p - bprm.startStack p).toNat = bprm.stackBytes p := by
    have he : p - (p - BitVec.ofNat 64 (bprm.stackBytes p)) =
        BitVec.ofNat 64 (bprm.stackBytes p) := by grind
    rw [Binprm.startStack_eq_sub, he, BitVec.toNat_ofNat, Nat.mod_eq_of_lt (by omega)]
  obtain ⟨hapart, htable⟩ := strings_apart bprm p (by omega)
  rw [hlen, ← addrs_reverse] at htable
  rw [← addrs_reverse] at hapart
  obtain ⟨m₁, hm₁, _⟩ := bind_eq_ok ((Memory.storeAll_append m _ _).symm.trans hm)
  have hstrs : ∀ c ∈ copiesBelow p bprm.strings, m'.Spells c.addr c.bytes := fun c hc =>
    hh c (List.mem_append_left _ hc)
  have hsplit : copiesBelow p bprm.strings = copiesBelow p bprm.envStrings ++
      copiesBelow (endBelow p bprm.envStrings) bprm.argStrings ++
        [⟨endBelow p bprm.strings, bprm.filename.terminated⟩] := by
    simp [Binprm.strings, copiesBelow_append, copiesBelow, endBelow_append, endBelow_cons]
  rw [hsplit] at hstrs
  refine ⟨⟨m₁, endBelow p bprm.strings, bprm.ptrs p⟩, m', bprm.startStack p,
    endBelow p bprm.strings, _, _, ?_, hlen, ?_, ⟨?_, ?_, ?_, ?_, hapart, htable⟩, fun a ha => ?_⟩
  · rw [collectElfTables_eq, hm₁]
    rfl
  · rw [createElfTables_eq, hm]
    rfl
  · rw [← ptrs_reverse]
    exact hp.words hm hh
  · exact hstrs _ (List.mem_append_right _ List.mem_cons_self)
  · have hargs := forall₂_below fun c hc =>
      hstrs c (List.mem_append_left _ (List.mem_append_right _ hc))
    have hrev := List.forall₂_reverse_iff.mpr hargs
    rwa [List.reverse_reverse] at hrev
  · have henvs := forall₂_below fun c hc =>
      hstrs c (List.mem_append_left _ (List.mem_append_left _ hc))
    have hrev := List.forall₂_reverse_iff.mpr henvs
    rwa [List.reverse_reverse] at hrev
  · rw [hsub] at ha
    exact Memory.storeAll_other hm fun c hc =>
      ⟨hp.length c hc, fun hin => ha (hp.inside c hc a hin)⟩

/-- The command line `/a b` with one variable, an empty one. -/
def commandRootAB : Binprm :=
  { execBinprm [] with
    filename := commandRootA.filename
    argv := commandRootA.argv ++ [⟨[0x62], by decide⟩]
    envp := [⟨[], by decide⟩] }

theorem commandRootAB_processStack :
    ∃ t m' sp file args envs,
      collectElfTables (Memory.filled 0) commandRootAB 0x4000801ff8 = .ok t ∧
      t.ptrs.length = 6 ∧
      createElfTables (Memory.filled 0) commandRootAB 0x4000801ff8 = .ok (m', sp) ∧
      ProcessStack m' commandRootAB sp file args envs ∧
      ∀ a, ¬ Span.Mem sp (0x4000801ff8 - sp).toNat a → m' a = Memory.filled 0 a := by
  have hf : FreshStack (Memory.filled 0) 0x4000801ff8 8184 := ⟨by decide, fun _ _ => rfl⟩
  exact createElfTables_processStack hf (by decide) (by decide +kernel)

end Rvvk
