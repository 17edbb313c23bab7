import Rvvk.Exec.Vm

/-!
# The invariant of the block table and its links

A link is only ever set behind a block that raises nothing, and it leads to a
block for the pc recorded beside it. While a block runs, `env->pc` is still the
address of the block; where it ends is one of the places its last instruction
allows. Nothing here depends on what happens to the bytes of the code.
-/

namespace Rvvk

namespace Block

def Quiet (b : Block) : Prop := ∀ insn ∈ b.insns, insn.raises = false

/-- The contents of the block come from its pc and some memory. -/
def Translated (b : Block) : Prop := ∃ mem, translate mem b.pc = .ok b.translation

/-- Where `env->pc` can be when a quiet block has run. -/
def Ends (b : Block) (pc : Word) : Prop :=
  ∃ last, b.insns.getLast? = some last ∧
    match last.op with
    | .branch _ _ => pc = b.jmpNext0.pc ∨ pc = b.jmpNext1.pc
    | .jal _ => pc = b.jmpNext0.pc
    | .jalr _ | .illegal | .ecall => True
    | _ => pc = b.pc

end Block

/-! ## What the last instruction says about the links -/

theorem Ctx.after_next (ctx : Ctx) (insn : Insn) :
    (match insn.op with
      | .branch _ size => (ctx.after insn).pcNext0 = ctx.pc + insn.immLong ∧
          (ctx.after insn).pcNext1 = ctx.pc + size
      | .jal _ => (ctx.after insn).pcNext0 = ctx.pc + insn.immLong
      | _ => (ctx.after insn).pcNext0 = ctx.pcNext0 ∧ (ctx.after insn).pcNext1 = ctx.pcNext1) := by
  unfold Ctx.after
  cases insn.op <;> simp

structure Block.Split (b : Block) (init : List Insn) (last : Insn) : Prop where
  insns : b.insns = init ++ [last]
  straight : ∀ insn ∈ init, insn.op.transfers = false
  next : match last.op with
    | .branch _ size => b.jmpNext0.pc = last.pc + last.immLong ∧ b.jmpNext1.pc = last.pc + size
    | .jal _ => b.jmpNext0.pc = last.pc + last.immLong
    | .jalr _ | .illegal | .ecall => b.jmpNext0.pc = 0 ∧ b.jmpNext1.pc = 0
    | _ => True

theorem Block.Translated.split {b : Block} (h : b.Translated) : ∃ init last, b.Split init last := by
  obtain ⟨mem, h⟩ := h
  obtain ⟨ctx, hd, h0, h1⟩ := translate_eq_ok.mp h
  obtain ⟨init, last, hi, hs, he⟩ := decode_end rfl (by decide) hd
  have hi' : b.insns = init ++ [last] := hi
  refine ⟨init, last, hi', hs, ?_⟩
  have h0' : ctx.pcNext0 = b.jmpNext0.pc := h0
  have h1' : ctx.pcNext1 = b.jmpNext1.pc := h1
  rcases he with ⟨ht, rfl⟩ | ⟨ht, -⟩
  · obtain ⟨opcode, _, hl'⟩ := translate_getElem? (j := init.length) h
      (by rw [hi, List.getElem?_concat_length])
    have hpc : last.pc = pcAt mem b.pc init.length := by
      rw [hl']
      refine insnAt_pc ?_
      rw [← hl']
      cases hop : last.op <;> simp_all [Op.readsPc]
    have hn := Ctx.after_next { Ctx.start b.pc with pc := pcAt mem b.pc init.length } last
    rw [← h0', ← h1', hpc]
    cases hop : last.op <;> rw [hop] at hn <;> first
      | exact hn
      | trivial
  · cases hop : last.op <;> rw [hop] at ht <;> trivial

theorem Block.Split.getLast? {b : Block} {init : List Insn} {last : Insn} (h : b.Split init last) :
    b.insns.getLast? = some last := by
  simp [h.insns]

/-- If the second link of a block is right for one end, it is right for every end
that the first link does not serve. -/
theorem Block.Ends.second {b : Block} (hb : b.Translated) {pc pc' : Word} (h : b.Ends pc)
    (hn : pc ≠ b.jmpNext0.pc) (he : pc = b.jmpNext1.pc) (h' : b.Ends pc')
    (hn' : pc' ≠ b.jmpNext0.pc) : pc' = b.jmpNext1.pc := by
  obtain ⟨init, last, hs⟩ := hb.split
  obtain ⟨_, hl, h⟩ := h
  obtain ⟨_, hl', h'⟩ := h'
  rw [hs.getLast?] at hl hl'
  cases hl
  cases hl'
  have hnext := hs.next
  cases hop : last.op <;> simp only [hop] at h h' hnext
  case branch => exact h'.resolve_left hn'
  case jal => exact (hn h).elim
  case jalr => exact (hn (he.trans (hnext.2.trans hnext.1.symm))).elim
  case illegal => exact (hn (he.trans (hnext.2.trans hnext.1.symm))).elim
  case ecall => exact (hn (he.trans (hnext.2.trans hnext.1.symm))).elim
  all_goals exact h'.trans (h.symm.trans he)

/-! ## Running a block -/

/-- The state in which the handlers before slot `i` of a block have run. -/
structure AtBody (b : Block) (i : Nat) (m : Machine) : Prop where
  le : i ≤ b.insns.length
  exception : m.exception = .none ↔ ∀ insn ∈ b.insns.take i, insn.raises = false
  pc : m.exception = .none → if i < b.insns.length then m.pc = b.pc else b.Ends m.pc

theorem Block.Translated.length_pos {b : Block} (h : b.Translated) : 0 < b.insns.length := by
  obtain ⟨init, last, hs⟩ := h.split
  simp [hs.insns]

theorem AtBody.zero {b : Block} (hb : b.Translated) {m : Machine} (he : m.exception = .none)
    (hpc : m.pc = b.pc) : AtBody b 0 m where
  le := Nat.zero_le _
  exception := by simp [he]
  pc _ := by rwa [if_pos hb.length_pos]

theorem Block.Split.ends {b : Block} {init : List Insn} {last : Insn} (hs : b.Split init last)
    {m m' : Machine} (h : last.run m = .ok m') (hq : last.raises = false) (hpc : m.pc = b.pc) :
    b.Ends m'.pc := by
  refine ⟨last, hs.getLast?, ?_⟩
  have hnext := hs.next
  cases hop : last.op with
  | branch cond size =>
      simp only [hop] at hnext
      have hr : (Op.branch cond size).run last m = .ok m' := by rwa [← hop]
      cases hr
      simp only [Machine.pc_setPc]
      split
      · exact .inl hnext.1.symm
      · exact .inr hnext.2.symm
  | jal size =>
      simp only [hop] at hnext
      have hr : (Op.jal size).run last m = .ok m' := by rwa [← hop]
      cases hr
      exact hnext.symm
  | jalr | illegal | ecall => trivial
  | _ =>
      have hu : last.unknownCsr = false := by
        simp only [Insn.raises, Bool.or_eq_false_iff] at hq
        exact hq.2
      exact ((Insn.straight (by rw [hop]; rfl) hu).pc h).trans hpc

theorem AtBody.step {b : Block} (hb : b.Translated) {i : Nat} {m m' : Machine} {insn : Insn}
    (ha : AtBody b i m) (hi : b.insns[i]? = some insn) (h : insn.run m = .ok m') :
    AtBody b (i + 1) m' := by
  have hlt : i < b.insns.length := (List.getElem?_eq_some_iff.mp hi).1
  have htake : b.insns.take (i + 1) = b.insns.take i ++ [insn] := by
    rw [List.take_add_one, hi]
    rfl
  have hexc := Insn.exception_eq_none h
  refine ⟨hlt, ?_, fun he => ?_⟩
  · rw [hexc, ha.exception, htake]
    simp only [List.mem_append, List.mem_singleton]
    constructor
    · rintro ⟨hp, hr⟩ j (hj | rfl)
      · exact hp j hj
      · exact hr
    · exact fun hp => ⟨fun j hj => hp j (.inl hj), hp insn (.inr rfl)⟩
  · obtain ⟨he', hq⟩ := hexc.mp he
    have hpc := ha.pc he'
    rw [if_pos hlt] at hpc
    obtain ⟨init, last, hs⟩ := hb.split
    rw [hs.insns, List.length_append, List.length_singleton] at hlt
    by_cases hlast : i = init.length
    · have hl : insn = last := by
        rw [hs.insns, hlast] at hi
        simpa using hi.symm
      rw [if_neg (by simp [hs.insns, hlast])]
      exact hs.ends (hl ▸ h) (hl ▸ hq) hpc
    · rw [if_pos (by simp [hs.insns]; omega)]
      have hmem : insn ∈ init := by
        rw [hs.insns, List.getElem?_append_left (by omega)] at hi
        exact List.mem_of_getElem? hi
      have hu : insn.unknownCsr = false := by
        simp only [Insn.raises, Bool.or_eq_false_iff] at hq
        exact hq.2
      exact ((Insn.straight (hs.straight insn hmem) hu).pc h).trans hpc

/-- A block that has run without an exception is quiet and has ended properly. -/
theorem AtBody.finished {b : Block} {i : Nat} {m : Machine} (ha : AtBody b i m)
    (hi : b.insns[i]? = none) (he : m.exception = .none) : b.Quiet ∧ b.Ends m.pc := by
  have hle := List.getElem?_eq_none_iff.mp hi
  have hpc := ha.pc he
  rw [if_neg (by omega)] at hpc
  refine ⟨?_, hpc⟩
  have hq := ha.exception.mp he
  rwa [List.take_of_length_le hle] at hq

/-! ## The table -/

/-- The links of a block lead to blocks for the recorded pcs, and only from a
block that raises nothing. -/
structure LinkOk (c : Cache) (b : Block) : Prop where
  link0 : ∀ p, b.jmpNext0.blk = some p → c.pcOf p = some b.jmpNext0.pc ∧ b.Quiet
  link1 : ∀ p, b.jmpNext1.blk = some p → c.pcOf p = some b.jmpNext1.pc ∧ b.Quiet ∧
    ∀ pc, b.Ends pc → pc ≠ b.jmpNext0.pc → pc = b.jmpNext1.pc

theorem LinkOk.mono {c c' : Cache} {b : Block}
    (hp : ∀ p pc, c.pcOf p = some pc → c'.pcOf p = some pc) (h : LinkOk c b) : LinkOk c' b where
  link0 p hb := ⟨hp _ _ (h.link0 p hb).1, (h.link0 p hb).2⟩
  link1 p hb := ⟨hp _ _ (h.link1 p hb).1, (h.link1 p hb).2⟩

/-- What holds of the table between any two steps. -/
structure Cache.Good (c : Cache) : Prop where
  wf : c.Wf
  translated : ∀ b ∈ c.heap, b.Translated
  links : ∀ b ∈ c.heap, LinkOk c b

namespace Cache

theorem init_good : Good init where
  wf := init_wf
  translated := nofun
  links := nofun

/-- The table after `new_block` and `translate`. -/
def insert (c : Cache) (pc : Word) (t : Translation) : Cache :=
  (c.newBlock pc).1.fill c.heap.length t

theorem insert_getElem? (c : Cache) (pc : Word) (t : Translation) (p : Nat) :
    (c.insert pc t).heap[p]? =
      if p = c.heap.length then
        some ⟨pc, c.insnBufferPtr, t.insns, ⟨t.next0, none⟩, ⟨t.next1, none⟩, none⟩
      else (c.heap[p]?).map fun b =>
        if c.tail (fibhash pc) = some p then b.setHashNext c.heap.length else b := by
  unfold insert fill
  rw [List.getElem?_modify, newBlock_getElem?]
  by_cases hp : p = c.heap.length
  · simp [hp, Block.setTranslation]
  · rw [if_neg hp, if_neg hp]
    simp [Ne.symm hp]

theorem init_insert_getElem? (pc : Word) (t : Translation) : (init.insert pc t).heap[0]? =
    some ⟨pc, init.insnBufferPtr, t.insns, ⟨t.next0, none⟩, ⟨t.next1, none⟩, none⟩ := rfl

theorem insert_pcOf (c : Cache) (pc : Word) (t : Translation) (p : Nat) :
    (c.insert pc t).pcOf p = if p = c.heap.length then some pc else c.pcOf p := by
  rw [insert, (fill_sameTable _ _ t).pcOf]
  exact newBlock_pcOf c pc p

theorem insert_length (c : Cache) (pc : Word) (t : Translation) :
    (c.insert pc t).heap.length = c.heap.length + 1 := by
  rw [insert, (fill_sameTable _ _ t).length, newBlock_length]

/-- A property that does not look at `hash_next` holds of every block after an
insertion if it holds of the old blocks and of the new one. -/
theorem forall_insert {c : Cache} {pc : Word} {t : Translation} {P : Block → Prop}
    (h : ∀ b ∈ c.heap, P b) (hn : ∀ b p, P b → P (b.setHashNext p))
    (hnew : P ⟨pc, c.insnBufferPtr, t.insns, ⟨t.next0, none⟩, ⟨t.next1, none⟩, none⟩) :
    ∀ b ∈ (c.insert pc t).heap, P b := by
  intro b hb
  obtain ⟨p, hp⟩ := List.getElem?_of_mem hb
  rw [insert_getElem?] at hp
  split at hp
  · cases hp
    exact hnew
  · obtain ⟨b₀, hb₀, rfl⟩ := Option.map_eq_some_iff.mp hp
    have h₀ := h b₀ (List.mem_of_getElem? hb₀)
    split
    · exact hn b₀ _ h₀
    · exact h₀

theorem insert_good {c : Cache} (hc : c.Good) {mem : Memory} {pc : Word} {t : Translation}
    (ht : translate mem pc = .ok t) (hpc : ∀ p, c.pcOf p ≠ some pc) : (c.insert pc t).Good := by
  have hmono : ∀ p x, c.pcOf p = some x → (c.insert pc t).pcOf p = some x := by
    intro p x hp
    rw [insert_pcOf, if_neg, hp]
    rintro rfl
    rw [pcOf_eq_none.mpr (Nat.le_refl _)] at hp
    cases hp
  refine ⟨(fill_sameTable _ _ t).wf (newBlock_wf hc.wf hpc), ?_, ?_⟩
  · exact forall_insert hc.translated (fun _ _ h => h) ⟨mem, ht⟩
  · refine forall_insert (fun b hb => (hc.links b hb).mono hmono) (fun _ _ h => ⟨h.1, h.2⟩) ?_
    exact ⟨nofun, nofun⟩

/-- The fields of a block that `patch_block` keeps. -/
theorem patch_eq (now : Ptr) (pc : Word) (b : Block) :
    (b.patch now pc).pc = b.pc ∧ (b.patch now pc).translation = b.translation := by
  unfold Block.patch
  split
  · exact ⟨rfl, rfl⟩
  · split <;> exact ⟨rfl, rfl⟩

theorem patchBlock_getElem? {c : Cache} {now : Ptr} {pc : Word} (hnow : c.pcOf now = some pc)
    (prev p : Nat) : (c.patchBlock prev now).heap[p]? =
      (c.heap[p]?).map fun b => if prev = p then b.patch now pc else b := by
  unfold patchBlock
  rw [hnow]
  exact List.getElem?_modify ..

theorem forall_patchBlock {c : Cache} {prev now : Ptr} {pc : Word} (hnow : c.pcOf now = some pc)
    {P : Block → Prop} (h : ∀ b ∈ c.heap, P b)
    (hp : ∀ b, c.heap[prev]? = some b → P b → P (b.patch now pc)) :
    ∀ b ∈ (c.patchBlock prev now).heap, P b := by
  intro b hb
  obtain ⟨p, hb⟩ := List.getElem?_of_mem hb
  rw [patchBlock_getElem? hnow] at hb
  obtain ⟨b₀, hb₀, rfl⟩ := Option.map_eq_some_iff.mp hb
  have h₀ := h b₀ (List.mem_of_getElem? hb₀)
  split
  · rename_i hpp
    exact hp b₀ (hpp ▸ hb₀) h₀
  · exact h₀

theorem patch_linkOk {c : Cache} {b : Block} {now : Ptr} {pc : Word}
    (hnow : c.pcOf now = some pc) (ht : b.Translated) (hq : b.Quiet) (he : b.Ends pc)
    (h : LinkOk c b) : LinkOk c (b.patch now pc) := by
  unfold Block.patch
  split
  · rename_i h0
    refine ⟨fun p hp => ?_, fun p hp => ⟨(h.link1 p hp).1, (h.link1 p hp).2⟩⟩
    cases hp
    exact ⟨h0.symm ▸ hnow, hq⟩
  · rename_i h0
    split
    · rename_i h1
      refine ⟨fun p hp => ⟨(h.link0 p hp).1, (h.link0 p hp).2⟩, fun p hp => ?_⟩
      cases hp
      exact ⟨h1.symm ▸ hnow, hq, fun pc' he' hn' =>
        he.second ht (Ne.symm h0) h1.symm he' hn'⟩
    · exact h

theorem patchBlock_good {c : Cache} (hc : c.Good) {prev now : Ptr} {pc : Word}
    (hnow : c.pcOf now = some pc)
    (hprev : ∀ b, c.heap[prev]? = some b → b.Quiet ∧ b.Ends pc) : (c.patchBlock prev now).Good := by
  have hs := patchBlock_sameTable c prev now
  refine ⟨hs.wf hc.wf, ?_, ?_⟩
  · refine forall_patchBlock hnow hc.translated fun b _ h => ?_
    obtain ⟨mem, h⟩ := h
    refine ⟨mem, ?_⟩
    rwa [(patch_eq now pc b).1, (patch_eq now pc b).2]
  · have hmono : ∀ p x, c.pcOf p = some x → (c.patchBlock prev now).pcOf p = some x := by
      intro p x hp
      rwa [hs.pcOf]
    intro b hb
    refine LinkOk.mono hmono ?_
    refine (forall_patchBlock (P := fun b => b.Translated ∧ LinkOk c b) hnow
      (fun b hb => ⟨hc.translated b hb, hc.links b hb⟩) (fun b hb h => ⟨?_, ?_⟩) b hb).2
    · obtain ⟨⟨mem, ht⟩, _⟩ := h
      refine ⟨mem, ?_⟩
      rwa [(patch_eq now pc b).1, (patch_eq now pc b).2]
    · exact patch_linkOk hnow h.1 (hprev b hb).1 (hprev b hb).2 h.2

end Cache

/-! ## The invariant -/

namespace Vm

/-- What holds in every reachable state. -/
structure Inv (s : Vm) : Prop where
  cache : s.cache.Good
  body : ∀ p i, s.ctl = .body p i → ∃ b, s.cache.heap[p]? = some b ∧ AtBody b i s.m

/-- `lookup` finds a block for the pc or inserts one. -/
theorem lookup_cases {c c' : Cache} {mem : Memory} {pc : Word} {p : Ptr}
    (h : lookup c mem pc = .ok (c', p)) :
    (c.findBlock pc = some p ∧ c' = c) ∨
      (c.findBlock pc = none ∧ p = c.heap.length ∧
        ∃ t, translate mem pc = .ok t ∧ c' = c.insert pc t) := by
  unfold lookup at h
  cases hf : c.findBlock pc with
  | some b =>
      simp only [hf] at h
      cases h
      exact .inl ⟨rfl, rfl⟩
  | none =>
      simp only [hf] at h
      obtain ⟨t, ht, h⟩ := bind_eq_ok h
      rw [Cache.newBlock_snd] at h
      cases h
      exact .inr ⟨rfl, rfl, t, ht, rfl⟩

theorem lookup_of_translate {c : Cache} {mem : Memory} {pc : Word} {t : Translation}
    (hf : c.findBlock pc = none) (ht : translate mem pc = .ok t) :
    lookup c mem pc = .ok (c.insert pc t, c.heap.length) := by
  unfold lookup
  rw [hf, ht, Cache.insert, ← Cache.newBlock_snd c pc]
  rfl

theorem start_step {m : Machine} {t : Translation} (he : m.exception = .none)
    (ht : translate m.mem m.pc = .ok t) :
    (start m).step = .ok ⟨m, Cache.init.insert m.pc t, .body 0 0⟩ := by
  have hl : lookup .init m.mem m.pc = .ok (Cache.init.insert m.pc t, 0) :=
    lookup_of_translate rfl ht
  simp only [step, start, enter, he, if_true, hl]
  rfl

theorem lookup_good {c c' : Cache} (hc : c.Good) {mem : Memory} {pc : Word} {p : Ptr}
    (h : lookup c mem pc = .ok (c', p)) : c'.Good ∧ c'.pcOf p = some pc := by
  rcases lookup_cases h with ⟨hf, rfl⟩ | ⟨hf, rfl, t, ht, rfl⟩
  · exact ⟨hc, (Cache.findBlock_eq_some hc.wf).mp hf⟩
  · refine ⟨Cache.insert_good hc ht ((Cache.findBlock_eq_none hc.wf).mp hf), ?_⟩
    rw [Cache.insert_pcOf, if_pos rfl]

/-- A lookup keeps every block but for its `hash_next`. -/
theorem lookup_keeps {c c' : Cache} {mem : Memory} {pc : Word} {p : Ptr}
    (h : lookup c mem pc = .ok (c', p)) {q : Nat} {b : Block} (hb : c.heap[q]? = some b) :
    ∃ next, c'.heap[q]? = some { b with hashNext := next } := by
  rcases lookup_cases h with ⟨_, rfl⟩ | ⟨_, _, t, _, rfl⟩
  · exact ⟨b.hashNext, hb⟩
  · have hq : q ≠ c.heap.length := by
      have := (List.getElem?_eq_some_iff.mp hb).1
      omega
    rw [Cache.insert_getElem?, if_neg hq, hb]
    simp only [Option.map_some, Option.some.injEq]
    split
    · exact ⟨_, rfl⟩
    · exact ⟨_, rfl⟩

/-- What one turn of the loop of `cpu_exec` does. -/
theorem enter_cases {prev : Option Ptr} {m : Machine} {c : Cache} {s' : Vm}
    (h : enter prev m c = .ok s') :
    (m.exception ≠ .none ∧ s' = ⟨m, c, .returned⟩) ∨
      (m.exception = .none ∧ ∃ c₁ p, lookup c m.mem m.pc = .ok (c₁, p) ∧
        s' = ⟨m, patchPrev c₁ prev p, .body p 0⟩) := by
  unfold enter at h
  split at h
  · rename_i he
    obtain ⟨⟨c₁, p⟩, hl, h⟩ := bind_eq_ok h
    cases h
    exact .inr ⟨he, c₁, p, hl, rfl⟩
  · rename_i he
    cases h
    exact .inl ⟨he, rfl⟩

theorem enter_m {prev : Option Ptr} {m : Machine} {c : Cache} {s' : Vm}
    (h : enter prev m c = .ok s') : s'.m = m := by
  rcases enter_cases h with ⟨_, rfl⟩ | ⟨_, c₁, p, _, rfl⟩ <;> rfl

inductive Move (s s' : Vm) : Prop
  | returned (hc : s.ctl = .returned) (h : s' = s)
  | call (hc : s.ctl = .start) (h : enter none s.m s.cache = .ok s')
  | exec {p : Ptr} {i : Nat} {b : Block} {insn : Insn} {m : Machine} (hc : s.ctl = .body p i)
      (hb : s.cache.heap[p]? = some b) (hi : b.insns[i]? = some insn)
      (hx : insn.exec s.m = .ok m) (h : s' = ⟨m, s.cache, .body p (i + 1)⟩)
  | chain {p : Ptr} {i : Nat} {b : Block} {next : Ptr} (hc : s.ctl = .body p i)
      (hb : s.cache.heap[p]? = some b) (hi : b.insns[i]? = none)
      (hn : jmpNext b s.m.pc = some next) (h : s' = { s with ctl := .body next 0 })
  | reenter {p : Ptr} {i : Nat} {b : Block} (hc : s.ctl = .body p i)
      (hb : s.cache.heap[p]? = some b) (hi : b.insns[i]? = none)
      (hn : jmpNext b s.m.pc = none) (h : enter (some p) s.m s.cache = .ok s')

theorem step_move {s s' : Vm} (h : s.step = .ok s') : Move s s' := by
  unfold step at h
  cases hc : s.ctl with
  | start =>
      simp only [hc] at h
      exact .call hc h
  | returned =>
      simp only [hc] at h
      cases h
      exact .returned hc rfl
  | body p i =>
      simp only [hc] at h
      cases hb : s.cache.heap[p]? with
      | none =>
          simp only [hb] at h
          cases h
      | some b =>
          simp only [hb] at h
          cases hi : b.insns[i]? with
          | some insn =>
              simp only [hi] at h
              obtain ⟨m, hx, h⟩ := bind_eq_ok h
              cases h
              exact .exec hc hb hi hx rfl
          | none =>
              simp only [hi] at h
              cases hn : jmpNext b s.m.pc with
              | some next =>
                  simp only [hn] at h
                  cases h
                  exact .chain hc hb hi hn rfl
              | none =>
                  simp only [hn] at h
                  exact .reenter hc hb hi hn h

end Vm

theorem Insn.exec_eq_ok {insn : Insn} {m m' : Machine} (h : insn.exec m = .ok m') :
    insn.run m = .ok m' ∧ m'.gpr 0 = 0 := by
  unfold exec at h
  obtain ⟨m₁, hr, h⟩ := bind_eq_ok h
  split at h
  · rename_i hz
    cases h
    exact ⟨hr, hz⟩
  · cases h

namespace Vm

theorem Inv.start (m : Machine) : Inv (.start m) where
  cache := Cache.init_good
  body _ _ h := by cases h

theorem Inv.call {s : Vm} (h : Inv s) (m : Machine) : Inv ⟨m, s.cache, .start⟩ where
  cache := h.cache
  body _ _ h := by cases h

/-- Entering a block keeps the invariant, if the previous block has run. -/
theorem enter_inv {prev : Option Ptr} {m : Machine} {c : Cache} {s' : Vm} (hc : c.Good)
    (hp : m.exception = .none → ∀ p, prev = some p →
      ∃ b, c.heap[p]? = some b ∧ b.Quiet ∧ b.Ends m.pc)
    (h : enter prev m c = .ok s') : Inv s' := by
  rcases enter_cases h with ⟨_, rfl⟩ | ⟨he, c₁, p, hl, rfl⟩
  · exact ⟨hc, fun _ _ h => by cases h⟩
  · obtain ⟨hc₁, hpc⟩ := lookup_good hc hl
    have hgood : (patchPrev c₁ prev p).Good ∧ (patchPrev c₁ prev p).pcOf p = some m.pc := by
      cases prev with
      | none => exact ⟨hc₁, hpc⟩
      | some q =>
          refine ⟨Cache.patchBlock_good hc₁ hpc fun b hb => ?_, ?_⟩
          · obtain ⟨b₀, hb₀, hq, hend⟩ := hp he q rfl
            obtain ⟨next, hk⟩ := lookup_keeps hl hb₀
            rw [hk] at hb
            cases hb
            exact ⟨hq, hend⟩
          · exact (congrFun (Cache.patchBlock_sameTable c₁ q p).pcOf p).trans hpc
    refine ⟨hgood.1, fun _ _ h => ?_⟩
    cases h
    obtain ⟨b, hb, hbpc⟩ := Option.map_eq_some_iff.mp hgood.2
    have ht := hgood.1.translated b (List.mem_of_getElem? hb)
    exact ⟨b, hb, .zero ht he hbpc.symm⟩

/-- A link out of a block that has run leads to the block for `env->pc`, and no
exception is pending. -/
theorem jmpNext_spec {c : Cache} (hc : c.Good) {p next : Ptr} {b : Block} {i : Nat} {m : Machine}
    (hb : c.heap[p]? = some b) (ha : AtBody b i m) (hi : b.insns[i]? = none)
    (hn : jmpNext b m.pc = some next) : m.exception = .none ∧ c.pcOf next = some m.pc := by
  have hlink := hc.links b (List.mem_of_getElem? hb)
  have hlen := List.getElem?_eq_none_iff.mp hi
  have hquiet : b.Quiet → m.exception = .none := by
    intro hq
    rw [ha.exception, List.take_of_length_le hlen]
    exact hq
  unfold jmpNext at hn
  split at hn
  · rename_i h0
    obtain ⟨hpc, hq⟩ := hlink.link0 next hn
    exact ⟨hquiet hq, h0.symm ▸ hpc⟩
  · rename_i h0
    obtain ⟨hpc, hq, hend⟩ := hlink.link1 next hn
    have he := hquiet hq
    exact ⟨he, hend m.pc (ha.finished hi he).2 h0 ▸ hpc⟩

theorem Inv.step {s s' : Vm} (h : Inv s) (hs : s.step = .ok s') : Inv s' := by
  cases step_move hs with
  | returned _ h' =>
      subst h'
      exact h
  | call _ he => exact enter_inv h.cache (fun _ _ hp => by cases hp) he
  | @exec p i b insn m hc hb hi hx h' =>
      subst h'
      obtain ⟨b', hb', ha⟩ := h.body p i hc
      rw [hb] at hb'
      cases hb'
      refine ⟨h.cache, fun _ _ h => ?_⟩
      cases h
      have ht := h.cache.translated b (List.mem_of_getElem? hb)
      exact ⟨b, hb, ha.step ht hi (Insn.exec_eq_ok hx).1⟩
  | @chain p i b next hc hb hi hn h' =>
      subst h'
      obtain ⟨b', hb', ha⟩ := h.body p i hc
      rw [hb] at hb'
      cases hb'
      obtain ⟨he, hpc⟩ := jmpNext_spec h.cache hb ha hi hn
      refine ⟨h.cache, fun _ _ h => ?_⟩
      cases h
      obtain ⟨b₁, hb₁, hpc₁⟩ := Option.map_eq_some_iff.mp hpc
      have ht := h.cache.translated b₁ (List.mem_of_getElem? hb₁)
      exact ⟨b₁, hb₁, .zero ht he hpc₁.symm⟩
  | @reenter p i b hc hb hi _ he =>
      obtain ⟨b', hb', ha⟩ := h.body p i hc
      rw [hb] at hb'
      cases hb'
      refine enter_inv h.cache (fun hexc q hq => ?_) he
      cases hq
      exact ⟨b, hb, ha.finished hi hexc⟩

/-- The next handler belongs to an instruction decoded from memory, at the time its
block was translated. -/
theorem Inv.insn? {s : Vm} (h : Inv s) {insn : Insn} (hx : s.insn? = some insn) :
    ∃ p i b, s.ctl = .body p i ∧ s.cache.heap[p]? = some b ∧ b.insns[i]? = some insn ∧
      ∃ mem opcode, translate mem b.pc = .ok b.translation ∧
        insn = insnAt (pcAt mem b.pc i) opcode := by
  cases hc : s.ctl with
  | start => simp [Vm.insn?, hc] at hx
  | returned => simp [Vm.insn?, hc] at hx
  | body p i =>
      obtain ⟨b, hb, _⟩ := h.body p i hc
      simp only [Vm.insn?, hc, hb, Option.bind_some] at hx
      obtain ⟨mem, ht⟩ := h.cache.translated b (List.mem_of_getElem? hb)
      obtain ⟨opcode, _, hi⟩ := translate_getElem? ht hx
      exact ⟨p, i, b, rfl, hb, hx, mem, opcode, ht, hi⟩

/-- A block that is about to run is the one for `env->pc`. -/
def AtPc (s : Vm) : Prop := ∀ p, s.ctl = .body p 0 → s.cache.pcOf p = some s.m.pc

theorem Inv.atPc {s : Vm} (h : s.Inv) : s.AtPc := by
  intro p hc
  obtain ⟨b, hb, ha⟩ := h.body p 0 hc
  have ht := h.cache.translated b (List.mem_of_getElem? hb)
  have hpc := ha.pc (ha.exception.mpr (by simp))
  rw [if_pos ht.length_pos] at hpc
  rw [Cache.pcOf, hb, hpc]
  rfl

end Vm

end Rvvk
