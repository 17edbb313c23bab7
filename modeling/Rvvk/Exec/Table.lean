import Rvvk.Exec.Emulator
import Mathlib.Data.List.Nodup

/-!
# The block table as a map

`cpu_exec` looks a pc up, inserts a block if there is none, fills the block and
links it. Over any sequence of these the table represents the list of the pcs in
the order in which their blocks were created: the number of a block is the place
of its pc in the list.
-/

namespace Rvvk

/-- What `cpu_exec` does to the table. -/
inductive TableOp
  /-- `find_block`, and `new_block` if it has returned NULL. -/
  | visit (pc : Word)
  /-- `translate`. -/
  | fill (p : Ptr) (t : Translation)
  /-- `patch_block`. -/
  | patch (prev now : Ptr)

def TableOp.record (created : List Word) : TableOp → List Word
  | .visit pc => if pc ∈ created then created else created ++ [pc]
  | _ => created

/-- The pcs of the blocks that the operations create, oldest first. -/
def history (ops : List TableOp) : List Word := ops.foldl TableOp.record []

namespace Cache

def visit (c : Cache) (pc : Word) : Cache × Ptr :=
  match c.findBlock pc with
  | some p => (c, p)
  | none => c.newBlock pc

def apply (c : Cache) : TableOp → Cache
  | .visit pc => (c.visit pc).1
  | .fill p t => c.fill p t
  | .patch prev now => c.patchBlock prev now

/-! ## One operation -/

/-- The block table represents a list of pcs. -/
structure Represents (c : Cache) (created : List Word) : Prop where
  wf : Wf c
  pcOf : ∀ p, c.pcOf p = created[p]?

variable {c : Cache} {created : List Word}

theorem init_represents : Represents init [] := ⟨init_wf, fun _ => rfl⟩

theorem Represents.length (h : Represents c created) : c.heap.length = created.length := by
  have hle : ∀ p, c.heap.length ≤ p ↔ created.length ≤ p := fun p => by
    rw [← pcOf_eq_none, h.pcOf, List.getElem?_eq_none_iff]
  exact Nat.le_antisymm ((hle _).mpr (Nat.le_refl _)) ((hle _).mp (Nat.le_refl _))

theorem Represents.find (h : Represents c created) {pc : Word} {p : Ptr} :
    c.findBlock pc = some p ↔ created[p]? = some pc := by
  rw [findBlock_eq_some h.wf, h.pcOf]

theorem Represents.find_none (h : Represents c created) {pc : Word} :
    c.findBlock pc = none ↔ pc ∉ created := by
  rw [findBlock_eq_none h.wf, List.mem_iff_getElem?, not_exists]
  exact forall_congr' fun p => by rw [h.pcOf]

theorem Represents.sameTable {c' : Cache} (h : Represents c created) (hs : SameTable c c') :
    Represents c' created :=
  ⟨hs.wf h.wf, fun p => by rw [hs.pcOf, h.pcOf]⟩

theorem Represents.visit (h : Represents c created) (pc : Word) :
    Represents (c.visit pc).1 (TableOp.record created (.visit pc)) := by
  unfold Cache.visit TableOp.record
  dsimp only
  cases hf : c.findBlock pc with
  | some p =>
      rw [if_pos (List.mem_of_getElem? (h.find.mp hf))]
      exact h
  | none =>
      rw [if_neg (h.find_none.mp hf)]
      refine ⟨newBlock_wf h.wf ((findBlock_eq_none h.wf).mp hf), fun p => ?_⟩
      rw [newBlock_pcOf, h.pcOf, h.length, List.getElem?_append]
      rcases Nat.lt_trichotomy p created.length with hlt | rfl | hgt
      · rw [if_neg (Nat.ne_of_lt hlt), if_pos hlt]
      · simp
      · rw [if_neg (Nat.ne_of_gt hgt), if_neg (Nat.not_lt_of_gt hgt),
          List.getElem?_eq_none (Nat.le_of_lt hgt), List.getElem?_eq_none]
        simp only [List.length_cons, List.length_nil]
        omega

theorem Represents.apply (h : Represents c created) (op : TableOp) :
    Represents (c.apply op) (op.record created) := by
  cases op with
  | visit pc => exact h.visit pc
  | fill p t => exact h.sameTable (fill_sameTable c p t)
  | patch prev now => exact h.sameTable (patchBlock_sameTable c prev now)

/-- The block that a visit finds or creates is the block for its pc. -/
theorem Represents.visit_snd (h : Represents c created) (pc : Word) :
    (TableOp.record created (.visit pc))[(c.visit pc).2]? = some pc := by
  unfold Cache.visit TableOp.record
  dsimp only
  cases hf : c.findBlock pc with
  | some p =>
      have hp := h.find.mp hf
      rw [if_pos (List.mem_of_getElem? hp)]
      exact hp
  | none =>
      rw [if_neg (h.find_none.mp hf), newBlock_snd, h.length]
      simp

/-! ## Every sequence of operations -/

theorem Represents.run (h : Represents c created) (ops : List TableOp) :
    Represents (ops.foldl Cache.apply c) (ops.foldl TableOp.record created) := by
  induction ops generalizing c created with
  | nil => exact h
  | cons op ops ih => exact ih (h.apply op)

theorem record_extends (created : List Word) (op : TableOp) : created <+: op.record created := by
  cases op with
  | visit pc =>
      dsimp only [TableOp.record]
      split
      · exact List.prefix_refl _
      · exact List.prefix_append _ _
  | fill | patch => exact List.prefix_refl _

theorem foldl_record_extends (ops : List TableOp) (created : List Word) :
    created <+: ops.foldl TableOp.record created := by
  induction ops generalizing created with
  | nil => exact List.prefix_refl _
  | cons op ops ih => exact (record_extends created op).trans (ih _)

theorem Represents.visit_run (h : Represents c created) (pc : Word) (ops : List TableOp) :
    (ops.foldl Cache.apply (c.visit pc).1).findBlock pc = some (c.visit pc).2 := by
  obtain ⟨hlt, heq⟩ := List.getElem?_eq_some_iff.mp (h.visit_snd pc)
  rw [((h.visit pc).run ops).find,
    List.prefix_iff_getElem?.mp (foldl_record_extends ops _) _ hlt, heq]

/-- The blocks differ in `hash_next` at most. -/
def SameBlock (b b' : Block) : Prop := b' = { b with hashNext := b'.hashNext }

theorem visit_keeps (c : Cache) (pc : Word) {p : Ptr} {b : Block} (hb : c.heap[p]? = some b) :
    ∃ b', (c.visit pc).1.heap[p]? = some b' ∧ SameBlock b b' := by
  unfold Cache.visit
  cases c.findBlock pc with
  | some q => exact ⟨b, hb, rfl⟩
  | none =>
      have hlt : p < c.heap.length := (List.getElem?_eq_some_iff.mp hb).1
      dsimp only
      rw [newBlock_getElem?, if_neg (Nat.ne_of_lt hlt), hb]
      refine ⟨_, rfl, ?_⟩
      split <;> rfl

theorem fibhash_lt (pc : Word) : (fibhash pc).toNat < 4096 := by
  have hlt := (11400714819323198485#64 * (pc ^^^ pc >>> 52)).isLt
  unfold fibhash
  rw [BitVec.toNat_ushiftRight, Nat.shiftRight_eq_div_pow]
  omega

/-- The table is a map from the created pcs to their blocks. -/
structure Faithful (c : Cache) (created : List Word) : Prop where
  nodup : created.Nodup
  block : ∀ p, c.pcOf p = created[p]?
  hashLt : ∀ pc, (fibhash pc).toNat < 4096
  chain : ∀ hash, ∃ l, Chain.IsChain c.next (c.table hash) l ∧ l.Nodup ∧
    ∀ p, p ∈ l ↔ ∃ pc, created[p]? = some pc ∧ fibhash pc = hash
  /-- The loop of `find_block` ends by itself. -/
  search : ∀ pc fuel, c.heap.length ≤ fuel →
    Chain.find c.next (fun p => c.pcOf p == some pc) fuel (c.table (fibhash pc)) = c.findBlock pc
  find : ∀ pc p, c.findBlock pc = some p ↔ created[p]? = some pc
  null : ∀ pc, c.findBlock pc = none ↔ pc ∉ created

theorem Represents.faithful (h : Represents c created) : Faithful c created where
  nodup := by
    refine List.nodup_iff_getElem?_ne_getElem?.mpr ?_
    intro i j hij hj heq
    have hpc := h.pcOf j
    rw [List.getElem?_eq_getElem hj] at hpc heq
    have hpc' := h.pcOf i
    rw [heq] at hpc'
    exact Nat.ne_of_lt hij (h.wf.unique hpc' hpc)
  block := h.pcOf
  hashLt := fibhash_lt
  chain hash := by
    refine ⟨c.bucket hash, h.wf.chain hash, c.bucket_nodup hash, fun p => ?_⟩
    rw [mem_bucket, h.pcOf]
  search pc fuel hf := by
    rw [findBlock_eq h.wf]
    exact Chain.find_eq (h.wf.chain _) (Nat.le_trans (c.length_bucket_le _) hf)
  find _ _ := h.find
  null _ := h.find_none

/-- After every sequence of operations the table is a map from the pcs visited to the
blocks created for them; a further visit changes no other block, and the block it
returns is the one that is found from then on. -/
theorem table_faithful (ops : List TableOp) :
    Faithful (ops.foldl Cache.apply init) (history ops) ∧
      ∀ pc : Word,
        (∀ (p : Ptr) (b : Block), (ops.foldl Cache.apply init).heap[p]? = some b →
          ∃ b', ((ops.foldl Cache.apply init).visit pc).1.heap[p]? = some b' ∧ SameBlock b b') ∧
        ∀ later : List TableOp,
          (later.foldl Cache.apply ((ops.foldl Cache.apply init).visit pc).1).findBlock pc =
            some ((ops.foldl Cache.apply init).visit pc).2 := by
  have h : Represents (ops.foldl Cache.apply init) (history ops) := init_represents.run ops
  exact ⟨h.faithful, fun pc => ⟨fun _ _ hb => visit_keeps _ pc hb, h.visit_run pc⟩⟩

end Cache

/-! ## The table of the emulator -/

namespace Binary

variable {x : Binary} {cfg : Setup}

theorem lookup_ops {c c' : Cache} {mem mem' : Memory} {pc : Word} {p : Ptr}
    (h : x.lookup cfg c mem pc = .ok (c', p, mem')) :
    ∃ ops : List TableOp, c' = ops.foldl Cache.apply c := by
  unfold lookup at h
  split at h
  · cases h
    exact ⟨[], rfl⟩
  · rename_i hf
    dsimp only at h
    obtain ⟨t, _, h⟩ := bind_eq_ok h
    cases h
    refine ⟨[.visit pc, .fill (c.newBlock pc).2 t.1], ?_⟩
    simp only [List.foldl_cons, List.foldl_nil, Cache.apply, Cache.visit, hf]

theorem enter_ops {prev : Option Ptr} {m : Machine} {c : Cache} {s : Vm}
    (h : x.enter cfg prev m c = .ok s) : ∃ ops : List TableOp, s.cache = ops.foldl Cache.apply c := by
  unfold enter at h
  split at h
  · obtain ⟨⟨c', p, mem⟩, hl, h⟩ := bind_eq_ok h
    cases h
    obtain ⟨ops, rfl⟩ := lookup_ops hl
    cases prev with
    | none => exact ⟨ops, rfl⟩
    | some prev =>
        refine ⟨ops ++ [.patch prev p], ?_⟩
        rw [List.foldl_append]
        rfl
  · cases h
    exact ⟨[], rfl⟩

theorem step_ops {s s' : Vm} (h : x.step cfg s = .ok s') :
    ∃ ops : List TableOp, s'.cache = ops.foldl Cache.apply s.cache := by
  unfold step at h
  split at h
  · cases h
    exact ⟨[], rfl⟩
  · exact enter_ops h
  · split at h
    · cases h
    · split at h
      · obtain ⟨insn, _, h⟩ := bind_eq_ok h
        split at h
        · cases h
        · obtain ⟨m, _, h⟩ := bind_eq_ok h
          cases h
          exact ⟨[], rfl⟩
      · split at h
        · cases h
          exact ⟨[], rfl⟩
        · exact enter_ops h

/-- In every reachable state the table has come about by these operations. -/
theorem Reach.table {init : Machine → Prop} {good : Vm → Vm → Prop} {s : Vm}
    (h : x.Reach cfg init good s) : ∃ ops : List TableOp, s.cache = ops.foldl Cache.apply .init := by
  induction h with
  | start m hm _ => exact ⟨[], rfl⟩
  | step _ hs _ ih =>
      obtain ⟨ops, hops⟩ := ih
      obtain ⟨ops', hops'⟩ := step_ops hs
      exact ⟨ops ++ ops', by rw [List.foldl_append, hops', hops]⟩
  | call _ _ _ _ _ _ ih => exact ih

end Binary

end Rvvk
