import Rvvk.Lib.Chain
import Rvvk.Translate.Code

/-!
# The table of translated blocks

`trans_block_t`, `block_hash_table` and the functions on them. Blocks come from
`malloc` and are never freed, so a pointer is the number of the allocation. The
instruction array of a block is a list; its place in the instruction buffer is
kept as an address.
-/

namespace Rvvk

abbrev Ptr := Nat

/-- An entry of `jmp_next`. -/
structure Link where
  pc : Word
  blk : Option Ptr
deriving DecidableEq, Repr

/-- `trans_block_t`; `count` is the length of `insns`, and the fields `self` and
`last_jmp_next` are never used. -/
structure Block where
  pc : Word
  /-- Where `insns` begins. -/
  insn : Word
  insns : List Insn
  jmpNext0 : Link
  jmpNext1 : Link
  hashNext : Option Ptr
deriving DecidableEq, Repr

def Block.setHashNext (p : Ptr) (b : Block) : Block := { b with hashNext := some p }

/-- What `translate` wrote to the block. -/
def Block.translation (b : Block) : Translation := ⟨b.insns, b.jmpNext0.pc, b.jmpNext1.pc⟩

/-- The fields `translate` writes. -/
def Block.setTranslation (t : Translation) (b : Block) : Block :=
  { b with
    insns := t.insns
    jmpNext0 := { b.jmpNext0 with pc := t.next0 }
    jmpNext1 := { b.jmpNext1 with pc := t.next1 } }

/-- What `patch_block` does to `prev`, where `now` points to a block for `pc`. -/
def Block.patch (now : Ptr) (pc : Word) (prev : Block) : Block :=
  if prev.jmpNext0.pc = pc then { prev with jmpNext0 := { prev.jmpNext0 with blk := some now } }
  else if prev.jmpNext1.pc = pc then
    { prev with jmpNext1 := { prev.jmpNext1 with blk := some now } }
  else prev

structure Cache where
  heap : List Block
  /-- `block_hash_table`. -/
  table : Word → Option Ptr
  insnBufferPtr : Word

/-- `fibhash`, with `LOG2_FAST_TABLE_SIZE` 12. -/
def fibhash (k : Word) : Word :=
  let k := k ^^^ (k >>> 52)
  (11400714819323198485#64 * k) >>> 52

namespace Cache

/-- The table of a fresh process, and the buffer `alloc_insn_buffer` maps. -/
def init : Cache := ⟨[], fun _ => none, 0x500000000000⟩

def next (c : Cache) (p : Ptr) : Option Ptr := (c.heap[p]?).bind Block.hashNext

def pcOf (c : Cache) (p : Ptr) : Option Word := (c.heap[p]?).map Block.pc

/-- No chain is longer than the number of blocks, which bounds the search. -/
def findBlock (c : Cache) (pc : Word) : Option Ptr :=
  Chain.find c.next (fun p => c.pcOf p == some pc) c.heap.length (c.table (fibhash pc))

def newBlock (c : Cache) (pc : Word) : Cache × Ptr :=
  let block : Block := ⟨pc, c.insnBufferPtr, [], ⟨0, none⟩, ⟨0, none⟩, none⟩
  let p := c.heap.length
  let hash := fibhash pc
  match c.table hash with
  | none =>
      ({ c with
          heap := c.heap ++ [block]
          table := fun h => if h = hash then some p else c.table h }, p)
  | some head =>
      let last := Chain.last c.next c.heap.length head
      ({ c with heap := c.heap.modify last (.setHashNext p) ++ [block] }, p)

/-- What `translate` does to the block and to `insn_buffer_ptr`; an `insn_t` has
32 bytes. -/
def fill (c : Cache) (p : Ptr) (t : Translation) : Cache :=
  { c with
    heap := c.heap.modify p (.setTranslation t)
    insnBufferPtr := c.insnBufferPtr + roundUp (BitVec.ofNat 64 t.insns.length * 32) 64 }

def patchBlock (c : Cache) (prev now : Ptr) : Cache :=
  match c.pcOf now with
  | some pc => { c with heap := c.heap.modify prev (.patch now pc) }
  | none => c

/-! ## Pointers and pcs -/

theorem pcOf_eq_none {c : Cache} {p : Ptr} : c.pcOf p = none ↔ c.heap.length ≤ p := by
  simp [pcOf]

/-- The pcs and the chains of two caches are the same. -/
structure SameTable (c c' : Cache) : Prop where
  length : c'.heap.length = c.heap.length
  table : c'.table = c.table
  next : c'.next = c.next
  pcOf : c'.pcOf = c.pcOf

theorem modify_sameTable (c : Cache) (p : Ptr) {f : Block → Block} (hpc : ∀ b, (f b).pc = b.pc)
    (hnext : ∀ b, (f b).hashNext = b.hashNext) (ptr : Word) :
    SameTable c { c with heap := c.heap.modify p f, insnBufferPtr := ptr } where
  length := by simp
  table := rfl
  next := by
    funext q
    simp only [Cache.next, List.getElem?_modify]
    cases c.heap[q]? with
    | none => rfl
    | some b =>
        dsimp only [Option.map_eq_map, Option.map_some, Option.bind_some]
        split
        · exact hnext b
        · rfl
  pcOf := by
    funext q
    simp only [Cache.pcOf, List.getElem?_modify]
    cases c.heap[q]? with
    | none => rfl
    | some b =>
        dsimp only [Option.map_eq_map, Option.map_some]
        split
        · exact congrArg some (hpc b)
        · rfl

theorem fill_sameTable (c : Cache) (p : Ptr) (t : Translation) : SameTable c (c.fill p t) :=
  modify_sameTable c p (f := .setTranslation t) (fun _ => rfl) (fun _ => rfl) _

theorem patch_pc (now : Ptr) (pc : Word) (b : Block) : (b.patch now pc).pc = b.pc := by
  unfold Block.patch
  split
  · rfl
  · split <;> rfl

theorem patch_hashNext (now : Ptr) (pc : Word) (b : Block) :
    (b.patch now pc).hashNext = b.hashNext := by
  unfold Block.patch
  split
  · rfl
  · split <;> rfl

theorem patchBlock_sameTable (c : Cache) (prev now : Ptr) :
    SameTable c (c.patchBlock prev now) := by
  unfold patchBlock
  split
  · exact modify_sameTable c prev (patch_pc now _) (patch_hashNext now _) c.insnBufferPtr
  · exact ⟨rfl, rfl, rfl, rfl⟩

/-! ## The buckets -/

/-- The blocks whose pc hashes to `hash`, oldest first. -/
def bucket (c : Cache) (hash : Word) : List Ptr :=
  (List.range c.heap.length).filter fun p => (c.pcOf p).map fibhash == some hash

/-- Each bucket chains the blocks of its hash in the order of their creation, and
no two blocks have the same pc. -/
structure Wf (c : Cache) : Prop where
  chain : ∀ hash, Chain.IsChain c.next (c.table hash) (c.bucket hash)
  unique : ∀ {p q pc}, c.pcOf p = some pc → c.pcOf q = some pc → p = q

theorem SameTable.wf {c c' : Cache} (h : SameTable c c') (hc : Wf c) : Wf c' where
  chain hash := by
    have hb : c'.bucket hash = c.bucket hash := by
      simp only [bucket, h.length, h.pcOf]
    rw [hb, h.table, h.next]
    exact hc.chain hash
  unique := by
    rw [h.pcOf]
    exact hc.unique

theorem init_wf : Wf init where
  chain _ := .nil
  unique h := by simp [pcOf, init] at h

theorem bucket_nodup (c : Cache) (hash : Word) : (c.bucket hash).Nodup :=
  List.nodup_range.filter _

theorem length_bucket_le (c : Cache) (hash : Word) : (c.bucket hash).length ≤ c.heap.length := by
  have h := List.length_filter_le (fun p => (c.pcOf p).map fibhash == some hash)
    (List.range c.heap.length)
  rwa [List.length_range] at h

theorem mem_bucket {c : Cache} {hash : Word} {p : Ptr} :
    p ∈ c.bucket hash ↔ ∃ pc, c.pcOf p = some pc ∧ fibhash pc = hash := by
  simp only [bucket, List.mem_filter, List.mem_range, beq_iff_eq, Option.map_eq_some_iff,
    and_iff_right_iff_imp]
  rintro ⟨pc, hp, _⟩
  have hn : c.pcOf p ≠ none := by simp [hp]
  rw [Ne, pcOf_eq_none] at hn
  omega

/-- The search of a bucket looks at every block of the table. -/
theorem findBlock_eq {c : Cache} (hc : Wf c) (pc : Word) :
    c.findBlock pc = (c.bucket (fibhash pc)).find? fun p => c.pcOf p == some pc :=
  Chain.find_eq (hc.chain _) (c.length_bucket_le _)

theorem findBlock_eq_some {c : Cache} (hc : Wf c) {pc : Word} {p : Ptr} :
    c.findBlock pc = some p ↔ c.pcOf p = some pc := by
  rw [findBlock_eq hc]
  constructor
  · intro h
    simpa using List.find?_some h
  · intro h
    cases hf : (c.bucket (fibhash pc)).find? fun p => c.pcOf p == some pc with
    | none =>
        have hn := List.find?_eq_none.mp hf p (mem_bucket.mpr ⟨pc, h, rfl⟩)
        simp [h] at hn
    | some q =>
        have hq : c.pcOf q = some pc := by simpa using List.find?_some hf
        rw [hc.unique hq h]

theorem findBlock_eq_none {c : Cache} (hc : Wf c) {pc : Word} :
    c.findBlock pc = none ↔ ∀ p, c.pcOf p ≠ some pc := by
  constructor
  · intro h p hp
    rw [(findBlock_eq_some hc).mpr hp] at h
    cases h
  · intro h
    cases hf : c.findBlock pc with
    | none => rfl
    | some p => exact (h p ((findBlock_eq_some hc).mp hf)).elim

/-! ## Inserting a block -/

theorem newBlock_snd (c : Cache) (pc : Word) : (c.newBlock pc).2 = c.heap.length := by
  unfold newBlock
  dsimp only
  split <;> rfl

/-- The block a new block is linked behind. -/
def tail (c : Cache) (hash : Word) : Option Ptr :=
  (c.table hash).map (Chain.last c.next c.heap.length)

theorem tail_eq {c : Cache} (hc : Wf c) (hash : Word) :
    c.tail hash = (c.bucket hash).getLast? := by
  have h := hc.chain hash
  unfold tail
  cases ht : c.table hash with
  | none =>
      rw [ht] at h
      rw [h.eq_nil]
      rfl
  | some head =>
      rw [ht] at h
      cases hb : c.bucket hash with
      | nil =>
          rw [hb] at h
          cases h
      | cons q l =>
          rw [hb] at h
          cases h.head_eq
          have hl : l.length ≤ c.heap.length := by
            have := c.length_bucket_le hash
            simp only [hb, List.length_cons] at this
            omega
          exact (Chain.last_eq h hl).symm

/-- The new block is empty and the others keep all but `hash_next`. -/
theorem newBlock_getElem? (c : Cache) (pc : Word) (p : Nat) :
    (c.newBlock pc).1.heap[p]? =
      if p = c.heap.length then some ⟨pc, c.insnBufferPtr, [], ⟨0, none⟩, ⟨0, none⟩, none⟩
      else (c.heap[p]?).map fun b =>
        if c.tail (fibhash pc) = some p then b.setHashNext c.heap.length else b := by
  unfold newBlock tail
  dsimp only
  cases c.table (fibhash pc) with
  | none =>
      simp only [Option.map_none, reduceCtorEq, if_false, Option.map_id']
      rcases Nat.lt_trichotomy p c.heap.length with h | h | h
      · rw [List.getElem?_append_left h, if_neg (by omega)]
      · subst h
        simp
      · rw [if_neg (by omega), List.getElem?_eq_none (by simp; omega),
          List.getElem?_eq_none (by omega)]
  | some head =>
      simp only [Option.map_some, Option.some.injEq]
      rcases Nat.lt_trichotomy p c.heap.length with h | h | h
      · rw [List.getElem?_append_left (by simpa using h), if_neg (by omega), List.getElem?_modify]
        rfl
      · subst h
        simp
      · rw [if_neg (by omega), List.getElem?_eq_none (by simp; omega),
          List.getElem?_eq_none (by omega)]
        rfl

theorem newBlock_length (c : Cache) (pc : Word) :
    (c.newBlock pc).1.heap.length = c.heap.length + 1 := by
  unfold newBlock
  dsimp only
  split <;> simp

theorem newBlock_pcOf (c : Cache) (pc : Word) (p : Nat) :
    (c.newBlock pc).1.pcOf p = if p = c.heap.length then some pc else c.pcOf p := by
  unfold pcOf
  rw [newBlock_getElem?]
  split
  · rfl
  · rw [Option.map_map]
    congr 1
    funext b
    simp only [Function.comp_apply]
    split <;> rfl

theorem newBlock_next (c : Cache) (pc : Word) (p : Nat) :
    (c.newBlock pc).1.next p =
      if p = c.heap.length then none
      else if c.tail (fibhash pc) = some p ∧ p < c.heap.length then some c.heap.length
      else c.next p := by
  unfold next
  rw [newBlock_getElem?]
  split
  · rfl
  · cases hp : c.heap[p]? with
    | none => simp [List.getElem?_eq_none_iff.mp hp]
    | some b =>
        have hlt : p < c.heap.length := (List.getElem?_eq_some_iff.mp hp).1
        by_cases ht : c.tail (fibhash pc) = some p
        · simp [ht, hlt, Block.setHashNext]
        · simp [ht]

theorem newBlock_table (c : Cache) (pc hash : Word) :
    (c.newBlock pc).1.table hash =
      if hash = fibhash pc ∧ c.table hash = none then some c.heap.length else c.table hash := by
  unfold newBlock
  dsimp only
  cases ht : c.table (fibhash pc) with
  | none =>
      by_cases hh : hash = fibhash pc
      · subst hh
        simp [ht]
      · simp [hh]
  | some head =>
      by_cases hh : hash = fibhash pc
      · subst hh
        simp [ht]
      · simp [hh]

theorem newBlock_bucket (c : Cache) (pc hash : Word) :
    (c.newBlock pc).1.bucket hash =
      c.bucket hash ++ if fibhash pc = hash then [c.heap.length] else [] := by
  unfold bucket
  rw [newBlock_length, List.range_succ, List.filter_append]
  congr 1
  · refine List.filter_congr fun p hp => ?_
    rw [newBlock_pcOf, if_neg (Nat.ne_of_lt (List.mem_range.mp hp))]
  · simp only [List.filter_cons, newBlock_pcOf, if_true, Option.map_some, beq_iff_eq,
      Option.some.injEq, List.filter_nil]

theorem newBlock_wf {c : Cache} (hc : Wf c) {pc : Word} (hpc : ∀ p, c.pcOf p ≠ some pc) :
    Wf (c.newBlock pc).1 where
  chain hash := by
    have hlt : ∀ {h p}, p ∈ c.bucket h → p < c.heap.length := fun hp =>
      List.mem_range.mp (List.mem_filter.mp hp).1
    have hne : ∀ {h p}, p ∈ c.bucket h → p ≠ c.heap.length := fun hp => Nat.ne_of_lt (hlt hp)
    rw [newBlock_bucket, newBlock_table]
    by_cases hh : fibhash pc = hash
    · subst hh
      rw [if_pos rfl]
      have ht := tail_eq hc (fibhash pc)
      cases hl : (c.bucket (fibhash pc)).getLast? with
      | none =>
          -- the bucket was empty: the new block becomes its head
          have hnil := List.getLast?_eq_none_iff.mp hl
          have hch := hc.chain (fibhash pc)
          rw [hnil] at hch ⊢
          have hhead : c.table (fibhash pc) = none := by
            cases htab : c.table (fibhash pc) with
            | none => rfl
            | some q =>
                rw [htab] at hch
                cases hch
          rw [if_pos ⟨rfl, hhead⟩]
          refine .cons ?_
          rw [newBlock_next, if_pos rfl]
          exact .nil
      | some z =>
          have hz := List.mem_of_getLast? hl
          rw [hl] at ht
          have hhead : c.table (fibhash pc) ≠ none := by
            intro hn
            simp [tail, hn] at ht
          rw [if_neg (by simp [hhead])]
          refine (hc.chain (fibhash pc)).append hl (c.bucket_nodup _) ?_ ?_ ?_
          · rw [newBlock_next, if_neg (hne hz), if_pos ⟨ht, hlt hz⟩]
          · rw [newBlock_next, if_pos rfl]
          · intro p hp hpz
            rw [newBlock_next, if_neg (hne hp), if_neg]
            rintro ⟨htp, _⟩
            rw [ht] at htp
            exact hpz (Option.some.inj htp).symm
    · rw [if_neg hh, List.append_nil, if_neg (by simp [Ne.symm hh])]
      refine (hc.chain hash).congr fun p hp => ?_
      rw [newBlock_next, if_neg (hne hp), if_neg]
      -- the relinked block hashes elsewhere
      rintro ⟨htp, _⟩
      rw [tail_eq hc] at htp
      obtain ⟨pc₁, h1, h1'⟩ := mem_bucket.mp (List.mem_of_getLast? htp)
      obtain ⟨pc₂, h2, h2'⟩ := mem_bucket.mp hp
      rw [h1] at h2
      cases h2
      exact hh (h1'.symm.trans h2')
  unique {p q x} hp hq := by
    rw [newBlock_pcOf] at hp hq
    split at hp <;> split at hq
    · exact Eq.trans ‹p = _› (Eq.symm ‹q = _›)
    · cases hp
      exact (hpc q hq).elim
    · cases hq
      exact (hpc p hp).elim
    · exact hc.unique hp hq

end Cache

end Rvvk
