import Rvvk.Lib.Descend
import Rvvk.Elf.Tables

/-!
# The copies to the stack

`create_elf_tables` is a sequence of calls of `target_memory_copy`. Their addresses
follow from the lengths of the strings, whatever the memory holds.
-/

namespace Rvvk

/-- A call of `target_memory_copy`. -/
structure Copy where
  addr : Word
  bytes : List (BitVec 8)

namespace Memory

/-- Calls of `target_memory_copy`, until one of them faults. -/
def storeAll (m : Memory) (copies : List Copy) : Except Fault Memory :=
  copies.foldlM (fun m c => m.storeBytes c.addr c.bytes) m

theorem storeAll_cons (m : Memory) (c : Copy) (copies : List Copy) :
    m.storeAll (c :: copies) = m.storeBytes c.addr c.bytes >>= fun m => m.storeAll copies :=
  List.foldlM_cons

theorem storeAll_append (m : Memory) (copies copies' : List Copy) :
    m.storeAll (copies ++ copies') = m.storeAll copies >>= fun m => m.storeAll copies' :=
  List.foldlM_append

end Memory

/-- The copies of some byte strings, each right below the one before. -/
def copiesBelow (top : Word) : List (List (BitVec 8)) → List Copy
  | [] => []
  | bs :: rest =>
      ⟨top - BitVec.ofNat 64 bs.length, bs⟩ :: copiesBelow (top - BitVec.ofNat 64 bs.length) rest

def endBelow (top : Word) (strs : List (List (BitVec 8))) : Word :=
  Descend.bottom top (strs.map List.length)

def addrsBelow (top : Word) (strs : List (List (BitVec 8))) : List Word :=
  (copiesBelow top strs).map Copy.addr

@[simp] theorem endBelow_nil (top : Word) : endBelow top [] = top := by
  simp [endBelow, Descend.bottom]

theorem endBelow_cons (top : Word) (bs : List (BitVec 8)) (rest : List (List (BitVec 8))) :
    endBelow top (bs :: rest) = endBelow (top - BitVec.ofNat 64 bs.length) rest :=
  (Descend.bottom_cons top bs.length (rest.map List.length)).symm

theorem copiesBelow_append (top : Word) (strs strs' : List (List (BitVec 8))) :
    copiesBelow top (strs ++ strs') = copiesBelow top strs ++ copiesBelow (endBelow top strs) strs' := by
  induction strs generalizing top with
  | nil => simp [copiesBelow]
  | cons bs rest ih => rw [List.cons_append, copiesBelow, ih, endBelow_cons, copiesBelow, List.cons_append]

theorem endBelow_append (top : Word) (strs strs' : List (List (BitVec 8))) :
    endBelow top (strs ++ strs') = endBelow (endBelow top strs) strs' := by
  induction strs generalizing top with
  | nil => simp
  | cons bs rest ih => rw [List.cons_append, endBelow_cons, ih, endBelow_cons]

@[simp] theorem length_addrsBelow (top : Word) (strs : List (List (BitVec 8))) :
    (addrsBelow top strs).length = strs.length := by
  unfold addrsBelow
  rw [List.length_map]
  induction strs generalizing top with
  | nil => rfl
  | cons bs rest ih => rw [copiesBelow, List.length_cons, ih, List.length_cons]

/-! ## The loops -/

theorem foldlM_push (strs : List CString) (t : Tables) :
    strs.foldlM Tables.push t =
      (t.mem.storeAll (copiesBelow t.top (strs.map CString.terminated))).map fun mem =>
        ⟨mem, endBelow t.top (strs.map CString.terminated),
          t.ptrs ++ addrsBelow t.top (strs.map CString.terminated)⟩ := by
  induction strs generalizing t with
  | nil => simp [Memory.storeAll, copiesBelow, addrsBelow, pure, Except.pure, Except.map]
  | cons str rest ih =>
      rw [List.foldlM_cons, List.map_cons, copiesBelow, Memory.storeAll_cons, endBelow_cons]
      simp only [Tables.push, targetMemoryCopy, bind, Except.bind]
      cases t.mem.storeBytes (t.top - BitVec.ofNat 64 str.terminated.length) str.terminated with
      | error e => rfl
      | ok mem =>
          dsimp only
          rw [ih]
          simp [addrsBelow, copiesBelow]

theorem foldlM_put (values : List Word) (t : Memory × Word) :
    values.foldlM Tables.put t =
      (t.1.storeAll (copiesBelow t.2 (values.map fun v => LittleEndian.bytes v 8))).map fun mem =>
        (mem, endBelow t.2 (values.map fun v => LittleEndian.bytes v 8)) := by
  induction values generalizing t with
  | nil => simp [Memory.storeAll, copiesBelow, pure, Except.pure, Except.map]
  | cons value rest ih =>
      rw [List.foldlM_cons, List.map_cons, copiesBelow, Memory.storeAll_cons, endBelow_cons,
        LittleEndian.length_bytes]
      simp only [Tables.put, targetMemoryCopy, bind, Except.bind, BitVec.ofNat_eq_ofNat]
      cases t.1.storeBytes (t.2 - 8#64) (LittleEndian.bytes value 8) with
      | error e => rfl
      | ok mem =>
          dsimp only
          rw [ih]

/-! ## The whole -/

namespace Binprm

def envc (bprm : Binprm) : Nat := bprm.envp.length

def envStrings (bprm : Binprm) : List (List (BitVec 8)) :=
  bprm.envp.reverse.map CString.terminated

def argStrings (bprm : Binprm) : List (List (BitVec 8)) :=
  bprm.argv.tail.reverse.map CString.terminated

/-- The strings in the order in which they are copied. -/
def strings (bprm : Binprm) : List (List (BitVec 8)) :=
  bprm.envStrings ++ bprm.argStrings ++ [bprm.filename.terminated]

def stringsUp (bprm : Binprm) : List CString := bprm.filename :: bprm.argv.tail ++ bprm.envp

theorem strings_eq (bprm : Binprm) :
    bprm.strings = bprm.stringsUp.reverse.map CString.terminated := by
  simp [strings, stringsUp, envStrings, argStrings]

/-- The array `ptrs`, once it is filled. -/
def ptrs (bprm : Binprm) (p : Word) : List Word :=
  0 :: addrsBelow p bprm.envStrings ++ 0 :: addrsBelow (endBelow p bprm.envStrings) bprm.argStrings ++
    [endBelow p bprm.strings, BitVec.ofNat 64 bprm.argc]

/-- The top of the table, below the empty auxiliary vector. -/
def tableTop (bprm : Binprm) (p : Word) : Word := roundDown (endBelow p bprm.strings) 8 - 8 - 16

def slots (bprm : Binprm) (p : Word) : List (List (BitVec 8)) :=
  (bprm.ptrs p).map fun v => LittleEndian.bytes v 8

/-- What `create_elf_tables` asks `target_memory_copy` for. -/
def copies (bprm : Binprm) (p : Word) : List Copy :=
  copiesBelow p bprm.strings ++ copiesBelow (bprm.tableTop p) (bprm.slots p)

/-- The stack pointer that `create_elf_tables` leaves. -/
def startStack (bprm : Binprm) (p : Word) : Word := endBelow (bprm.tableTop p) (bprm.slots p)

end Binprm

/-- `create_elf_tables` up to the loop that copies the table. -/
def collectElfTables (mem : Memory) (bprm : Binprm) (p : Word) : Except Fault Tables := do
  let t : Tables := ⟨mem, p, [0]⟩
  let t ← bprm.envp.reverse.foldlM Tables.push t
  let t ← bprm.argv.tail.reverse.foldlM Tables.push (t.note 0)
  let t ← t.push bprm.filename
  .ok (t.note (BitVec.ofNat 64 bprm.argc))

theorem createElfTables_collect (mem : Memory) (bprm : Binprm) (p : Word) :
    createElfTables mem bprm p = collectElfTables mem bprm p >>= fun t =>
      t.ptrs.foldlM Tables.put (t.mem, roundDown t.top 8 - 8 - 16) := by
  simp only [createElfTables, collectElfTables, bind_assoc]
  rfl

theorem collectElfTables_eq (mem : Memory) (bprm : Binprm) (p : Word) :
    collectElfTables mem bprm p = (mem.storeAll (copiesBelow p bprm.strings)).map fun mem =>
      ⟨mem, endBelow p bprm.strings, bprm.ptrs p⟩ := by
  unfold collectElfTables Binprm.ptrs Binprm.strings Binprm.envStrings Binprm.argStrings
  simp only [copiesBelow_append, Memory.storeAll_append, endBelow_append, foldlM_push,
    Tables.note, bind, Except.bind]
  cases mem.storeAll (copiesBelow p (bprm.envp.reverse.map CString.terminated)) with
  | error e => rfl
  | ok mem₁ =>
      simp only [Except.map]
      cases mem₁.storeAll (copiesBelow (endBelow p (bprm.envp.reverse.map CString.terminated))
        (bprm.argv.tail.reverse.map CString.terminated)) with
      | error e => rfl
      | ok mem₂ =>
          simp only [Tables.push, targetMemoryCopy, copiesBelow, Memory.storeAll_cons, endBelow_cons,
            endBelow_nil, bind, Except.bind]
          cases mem₂.storeBytes _ bprm.filename.terminated with
          | error e => rfl
          | ok mem₃ => simp [Memory.storeAll, pure, Except.pure]

theorem createElfTables_eq (mem : Memory) (bprm : Binprm) (p : Word) :
    createElfTables mem bprm p =
      (mem.storeAll (bprm.copies p)).map fun mem => (mem, bprm.startStack p) := by
  rw [createElfTables_collect, collectElfTables_eq, Binprm.copies, Memory.storeAll_append]
  cases mem.storeAll (copiesBelow p bprm.strings) with
  | error e => rfl
  | ok mem => exact foldlM_put _ _

theorem length_ptrs (bprm : Binprm) (p : Word) :
    (bprm.ptrs p).length = bprm.argv.tail.length + bprm.envc + 4 := by
  simp only [Binprm.ptrs, Binprm.envStrings, Binprm.argStrings, Binprm.envc, List.length_append,
    List.length_cons, length_addrsBelow, List.length_map, List.length_reverse, List.length_nil]
  omega

theorem endBelow_words (top : Word) (vs : List Word) :
    endBelow top (vs.map fun v => LittleEndian.bytes v 8) =
      top - BitVec.ofNat 64 (8 * vs.length) := by
  have hlen : (vs.map fun v => LittleEndian.bytes v 8).map List.length =
      List.replicate vs.length 8 := by
    rw [List.map_map]
    exact List.map_eq_replicate_iff.mpr fun v _ => LittleEndian.length_bytes v 8
  rw [endBelow, Descend.bottom, hlen, List.sum_replicate_nat, Nat.mul_comm]

/-! ## Byte by byte -/

/-- The stores of a `memcpy`, lowest address first. -/
def storesFrom (a : Word) : List (BitVec 8) → List (Word × BitVec 8)
  | [] => []
  | b :: bs => (a, b) :: storesFrom (a + 1) bs

def Copy.stores (c : Copy) : List (Word × BitVec 8) := storesFrom c.addr c.bytes

theorem mem_storesFrom {a x : Word} {bs : List (BitVec 8)} :
    x ∈ (storesFrom a bs).map Prod.fst ↔ ∃ i < bs.length, x = a + BitVec.ofNat 64 i := by
  induction bs generalizing a with
  | nil => simp [storesFrom]
  | cons b bs ih =>
      rw [storesFrom, List.map_cons, List.mem_cons, ih]
      constructor
      · rintro (rfl | ⟨i, hi, rfl⟩)
        · exact ⟨0, by simp, by simp⟩
        · exact ⟨i + 1, by simpa using hi, Memory.add_one_add_ofNat a i⟩
      · rintro ⟨i, hi, rfl⟩
        cases i with
        | zero => exact .inl (by simp)
        | succ i => exact .inr ⟨i, by simpa using hi, (Memory.add_one_add_ofNat a i).symm⟩

theorem storeAll_eq_stores (m : Memory) (copies : List Copy) :
    m.storeAll copies =
      (copies.flatMap Copy.stores).foldlM (fun m x => m.writeByte x.1 x.2) m := by
  have hone : ∀ (m : Memory) (a : Word) (bs : List (BitVec 8)), m.storeBytes a bs =
      (storesFrom a bs).foldlM (fun m x => m.writeByte x.1 x.2) m := by
    intro m a bs
    induction bs generalizing m a with
    | nil => rfl
    | cons b bs ih =>
        rw [storesFrom, List.foldlM_cons, Memory.storeBytes]
        congr 1
        funext m
        exact ih m (a + 1)
  induction copies generalizing m with
  | nil => rfl
  | cons c copies ih =>
      rw [Memory.storeAll_cons, List.flatMap_cons, List.foldlM_append, hone]
      congr 1
      funext m
      exact ih m

/-- The bytes of the strings, in the order in which they are stored. -/
def Binprm.stringStores (bprm : Binprm) (p : Word) : List (Word × BitVec 8) :=
  (copiesBelow p bprm.strings).flatMap Copy.stores

/-- All that `create_elf_tables` stores, if nothing faults. -/
def Binprm.tableStores (bprm : Binprm) (p : Word) : List (Word × BitVec 8) :=
  (bprm.copies p).flatMap Copy.stores

theorem createElfTables_stores (m : Memory) (bprm : Binprm) (p : Word) :
    createElfTables m bprm p =
      ((bprm.tableStores p).foldlM (fun (m : Memory) x => m.writeByte x.1 x.2) m).map fun m =>
        (m, bprm.startStack p) := by
  rw [createElfTables_eq, storeAll_eq_stores]
  rfl

/-! ## What the copies leave -/

/-- The byte that `create_elf_tables` leaves at an address it stores to. -/
def Binprm.tableByte? (bprm : Binprm) (p a : Word) : Option (BitVec 8) :=
  (bprm.tableStores p).reverse.lookup a

theorem stores_apply {stores : List (Word × BitVec 8)} {m m' : Memory}
    (h : stores.foldlM (fun (m : Memory) x => m.writeByte x.1 x.2) m = .ok m') (a : Word) :
    m' a = (m a).map fun c => { c with val := (stores.reverse.lookup a).getD c.val } := by
  induction stores generalizing m with
  | nil =>
      cases h
      exact Option.map_id'.symm
  | cons x rest ih =>
      rw [List.foldlM_cons] at h
      obtain ⟨m₁, h₁, h⟩ := bind_eq_ok h
      rw [ih h, Memory.writeByte_apply h₁, Option.map_map, List.reverse_cons, List.lookup_append]
      obtain ⟨at', b'⟩ := x
      congr 1
      funext c
      cases rest.reverse.lookup a with
      | some b => by_cases ha : a = at' <;> simp [ha]
      | none => by_cases ha : a = at' <;> simp [ha, List.lookup_cons, beq_eq_false_iff_ne.mpr]

theorem createElfTables_apply {m m' : Memory} {bprm : Binprm} {p p' : Word}
    (h : createElfTables m bprm p = .ok (m', p')) (a : Word) :
    m' a = (m a).map fun c => { c with val := (bprm.tableByte? p a).getD c.val } := by
  rw [createElfTables_eq, storeAll_eq_stores] at h
  obtain ⟨m₁, h₁, h⟩ := map_eq_ok h
  cases h
  exact stores_apply h₁ a

/-! ## Copies above a guard page -/

/-- Where a run of copies is that ends above the page it is copied towards. -/
structure CopiedAbove (start top : Word) (m m' : Memory) (strs : List (List (BitVec 8))) :
    Prop where
  pages : m.SamePages m'
  pos : 1 ≤ (endBelow top strs - start).toNat
  room : strs ≠ [] → 4096 ≤ (endBelow top strs - start).toNat
  le : (endBelow top strs - start).toNat ≤ (top - start).toNat
  stores : ∀ x ∈ (copiesBelow top strs).flatMap Copy.stores,
    (x.1 - start).toNat < (top - start).toNat

theorem copiedAbove {start top : Word} {m m' : Memory} (hg : GuardPage m start)
    (ht : 1 ≤ (top - start).toNat) {strs : List (List (BitVec 8))}
    (hpos : ∀ bs ∈ strs, 1 ≤ bs.length) (h : m.storeAll (copiesBelow top strs) = .ok m') :
    CopiedAbove start top m m' strs := by
  induction strs generalizing top m with
  | nil =>
      cases h
      refine ⟨.refl _, by simpa using ht, fun hn => absurd rfl hn, by simp, ?_⟩
      exact fun x hx => absurd hx List.not_mem_nil
  | cons bs rest ih =>
      rw [copiesBelow, Memory.storeAll_cons] at h
      obtain ⟨m₁, h₁, h⟩ := bind_eq_ok h
      rw [List.forall_mem_cons] at hpos
      have hpages := Memory.storeBytes_samePages h₁
      have hn := length_le_of_guard hg hpos.1 ht h₁
      have hlt := (top - start).isLt
      have hoff : (top - BitVec.ofNat 64 bs.length - start).toNat =
          (top - start).toNat - bs.length := by
        rw [BitVec.sub_sub, BitVec.add_comm, ← BitVec.sub_sub, BitVec.toNat_sub, BitVec.toNat_ofNat]
        omega
      have hrest := ih (hg.congr hpages) (by omega) hpos.2 h
      have hle := hrest.le
      refine ⟨hpages.trans hrest.pages, ?_, fun _ => ?_, ?_, fun x hx => ?_⟩
      · rw [endBelow_cons]
        exact hrest.pos
      · rw [endBelow_cons]
        by_cases hr : rest = []
        · rw [hr, endBelow_nil]
          omega
        · exact hrest.room hr
      · rw [endBelow_cons]
        omega
      · rw [copiesBelow, List.flatMap_cons] at hx
        rcases List.mem_append.mp hx with hx | hx
        · obtain ⟨i, hi, hxi⟩ := mem_storesFrom.mp (List.mem_map_of_mem (f := Prod.fst) hx)
          have hi' : i < bs.length := hi
          have hadd : (x.1 - start).toNat = (top - start).toNat - bs.length + i := by
            rw [hxi, BitVec.sub_eq_add_neg, BitVec.add_assoc,
              BitVec.add_comm (BitVec.ofNat 64 i), ← BitVec.add_assoc, ← BitVec.sub_eq_add_neg,
              BitVec.toNat_add, hoff, BitVec.toNat_ofNat]
            omega
          omega
        · have := hrest.stores x hx
          omega

/-- What `create_elf_tables` stores lies below its first pointer and above the guard page,
if it does not fault. -/
theorem tableByte_below {m m' : Memory} {start p p' a : Word} {bprm : Binprm} {b : BitVec 8}
    (hg : GuardPage m start) (hpos : 1 ≤ (p - start).toNat)
    (h : createElfTables m bprm p = .ok (m', p')) (hb : bprm.tableByte? p a = some b) :
    (a - start).toNat < (p - start).toNat := by
  rw [createElfTables_eq] at h
  obtain ⟨m₂, h, _⟩ := map_eq_ok h
  rw [Binprm.copies, Memory.storeAll_append] at h
  obtain ⟨m₁, h₁, h₂⟩ := bind_eq_ok h
  have hstrs : ∀ bs ∈ bprm.strings, 1 ≤ bs.length := by
    intro bs hbs
    rw [Binprm.strings_eq] at hbs
    obtain ⟨str, _, rfl⟩ := List.mem_map.mp hbs
    simp [CString.terminated]
  have hslots : ∀ bs ∈ bprm.slots p, 1 ≤ bs.length := by
    intro bs hbs
    obtain ⟨v, _, rfl⟩ := List.mem_map.mp hbs
    rw [LittleEndian.length_bytes]
    decide
  have hup := copiedAbove hg hpos hstrs h₁
  have hroom := hup.room (by simp [Binprm.strings])
  -- rounding and the gap for the auxiliary vector take at most 31 bytes
  have htop : (bprm.tableTop p - start).toNat =
      (endBelow p bprm.strings - start).toNat - (endBelow p bprm.strings).toNat % 8 - 24 := by
    have hround := toNat_roundDown_word (endBelow p bprm.strings)
    have hlt := (endBelow p bprm.strings).isLt
    have hlts := start.isLt
    have h8 : (8 : BitVec 64).toNat = 8 := rfl
    have h16 : (16 : BitVec 64).toNat = 16 := rfl
    unfold Binprm.tableTop
    simp only [BitVec.toNat_sub, hround, h8, h16] at hroom ⊢
    omega
  have hle := hup.le
  have hdown := copiedAbove (hg.congr hup.pages) (by omega) hslots h₂
  have hmem : (a, b) ∈ bprm.tableStores p := by
    obtain ⟨l₁, l₂, hl, _⟩ := List.lookup_eq_some_iff.mp hb
    exact List.mem_reverse.mp (hl ▸ by simp)
  unfold Binprm.tableStores Binprm.copies at hmem
  rw [List.flatMap_append] at hmem
  rcases List.mem_append.mp hmem with hx | hx
  · exact hup.stores _ hx
  · have := hdown.stores _ hx
    dsimp only at this
    omega

end Rvvk
