import Mathlib.Logic.Function.Iterate
import Rvvk.Translate.Spec

/-!
# Translating a block

`decode` and `translate`: instructions are decoded one after the other until one
ends the block or the block is full. The slots of the instruction buffer are kept
by value; where the buffer places them is the business of the block table.
-/

namespace Rvvk

def transMax : Nat := 512

def insnLen (opcode : BitVec 32) : Word := if opcode &&& 3 = 3 then 4 else 2

/-- The `switch` of `decode`. -/
def decodeInsn (ctx : Ctx) (insn : Insn) (opcode : BitVec 32) : Ctx × Insn :=
  if insnLen opcode = 2 then decodeInsn16 ctx insn (opcode.setWidth 16)
  else decodeInsn32 ctx insn opcode

/-- The loop of `decode`, with `room` instructions to go to `TRANS_MAX`. -/
def decode (mem : Memory) : Nat → Ctx → Except Fault (Ctx × List Insn)
  | 0, ctx => .ok (ctx, [])
  | room + 1, ctx => do
      let opcode ← cpuLduw mem ctx.pc 0
      let len := insnLen opcode
      let (ctx, insn) := decodeInsn ctx .fresh opcode
      if ctx.exit then .ok (ctx, [insn])
      else if room = 0 then .ok ({ ctx with link := true, pcNext0 := ctx.pc + len }, [insn])
      else do
        let (ctx, insns) ← decode mem room { ctx with pc := ctx.pc + len }
        .ok (ctx, insn :: insns)

/-- What `translate` leaves in a block. Its result, which nothing uses, is dropped. -/
structure Translation where
  insns : List Insn
  /-- `jmp_next[0].pc` and `jmp_next[1].pc`. -/
  next0 : Word
  next1 : Word
deriving DecidableEq, Repr

def translate (mem : Memory) (pc : Word) : Except Fault Translation := do
  let (ctx, insns) ← decode mem transMax (.start pc)
  .ok { insns := insns, next0 := ctx.pcNext0, next1 := ctx.pcNext1 }

/-! ## One instruction -/

/-- The instruction an opcode at an address is decoded to. -/
def insnAt (pc : Word) (opcode : BitVec 32) : Insn := (decodeInsn (.start pc) .fresh opcode).2

theorem decodeInsn_decoded (ctx : Ctx) (insn : Insn) (opcode : BitVec 32) :
    Decoded ctx (decodeInsn ctx insn opcode) := by
  unfold decodeInsn
  split
  · exact decodeInsn16_decoded _
  · exact decodeInsn32_decoded _

theorem Sel16.trans_insn (s : Sel16) (ctx : Ctx) (insn : Insn) (op : BitVec 16) :
    (s.trans ctx insn op).2 = (s.trans (.start ctx.pc) insn op).2 := by
  cases s with
  | cAddi =>
      simp only [trans, transCAddi]
      split <;> rfl
  | cAddiw | cLi | cLui | cMv | cLdsp | cSlli | cLwsp | cAdd | cJr | cJalr =>
      simp only [trans, transCAddiw, transCLi, transCLui, transCMv, transCLdsp, transCSlli,
        transCLwsp, transCAdd, transCJr, transCJalr, guardOperands]
      split <;> rfl
  | _ => rfl

theorem transRd_insn (h : Handler) (ctx : Ctx) (insn : Insn) :
    (transRd h ctx insn).2 = (transRd h (.start ctx.pc) insn).2 := by
  unfold transRd
  split <;> rfl

theorem Sel32.trans_insn (s : Sel32) (ctx : Ctx) (insn : Insn) (op : BitVec 32) :
    (s.trans ctx insn op).2 = (s.trans (.start ctx.pc) insn op).2 := by
  cases s <;> first
    | rfl
    | exact transRd_insn _ ctx _

theorem decodeInsn_insn (ctx : Ctx) (opcode : BitVec 32) :
    (decodeInsn ctx .fresh opcode).2 = insnAt ctx.pc opcode := by
  unfold insnAt decodeInsn
  split
  · exact Sel16.trans_insn _ _ _ _
  · exact Sel32.trans_insn _ _ _ _

theorem decodeInsn_eq (ctx : Ctx) (opcode : BitVec 32) :
    decodeInsn ctx .fresh opcode = (ctx.after (insnAt ctx.pc opcode), insnAt ctx.pc opcode) := by
  have ha := (decodeInsn_decoded ctx .fresh opcode).after
  rw [decodeInsn_insn] at ha
  exact Prod.ext ha (decodeInsn_insn ctx opcode)

theorem insnAt_pc {pc : Word} {opcode : BitVec 32} (h : (insnAt pc opcode).op.readsPc = true) :
    (insnAt pc opcode).pc = pc :=
  (decodeInsn_decoded (.start pc) .fresh opcode).pc h

theorem insnAt_x0 {pc : Word} {opcode : BitVec 32} :
    (insnAt pc opcode).op.dropsX0 = true → (insnAt pc opcode).rd ≠ 0 :=
  (decodeInsn_decoded (.start pc) .fresh opcode).x0

theorem Ctx.after_exit (ctx : Ctx) (insn : Insn) :
    (ctx.after insn).exit = (ctx.exit || insn.op.transfers) := by
  unfold Ctx.after
  cases insn.op <;> simp [Op.transfers, Op.isBranch, Op.isJal, Op.isJalr, Op.isTrap]

theorem Ctx.after_of_straight (ctx : Ctx) {insn : Insn} (h : insn.op.transfers = false) :
    ctx.after insn = ctx := by
  unfold Ctx.after
  cases hop : insn.op with
  | branch | jal | jalr | illegal | ecall => rw [hop] at h; cases h
  | _ => rfl

/-! ## The loop -/

def Ctx.next (ctx : Ctx) (opcode : BitVec 32) : Ctx :=
  { ctx with pc := ctx.pc + insnLen opcode }

/-- The context of a block that is full. -/
def Ctx.cut (ctx : Ctx) (opcode : BitVec 32) : Ctx :=
  { ctx with link := true, pcNext0 := ctx.pc + insnLen opcode }

theorem Ctx.next_exit {ctx : Ctx} {opcode : BitVec 32} (hx : ctx.exit = false) :
    (ctx.next opcode).exit = false := hx

theorem decode_succ (mem : Memory) (room : Nat) {ctx : Ctx} (hx : ctx.exit = false) :
    decode mem (room + 1) ctx = cpuLduw mem ctx.pc 0 >>= fun opcode =>
      if (insnAt ctx.pc opcode).op.transfers then
        .ok (ctx.after (insnAt ctx.pc opcode), [insnAt ctx.pc opcode])
      else if room = 0 then .ok (ctx.cut opcode, [insnAt ctx.pc opcode])
      else (decode mem room (ctx.next opcode)).map fun r => (r.1, insnAt ctx.pc opcode :: r.2) := by
  rw [decode]
  congr 1
  funext opcode
  rw [decodeInsn_eq]
  cases ht : (insnAt ctx.pc opcode).op.transfers with
  | true => simp [Ctx.after_exit, ht]
  | false =>
      rw [Ctx.after_of_straight ctx ht]
      dsimp only
      rw [if_neg (by simp [hx])]
      split
      · rfl
      · simp only [Ctx.next, bind, Except.bind, Except.map]
        cases decode mem room { ctx with pc := ctx.pc + insnLen opcode } <;> rfl

theorem decode_cases {mem : Memory} {room : Nat} {ctx : Ctx} {r : Ctx × List Insn}
    (hx : ctx.exit = false) (h : decode mem (room + 1) ctx = .ok r) :
    ∃ opcode, cpuLduw mem ctx.pc 0 = .ok opcode ∧
      (((insnAt ctx.pc opcode).op.transfers = true ∧
          r = (ctx.after (insnAt ctx.pc opcode), [insnAt ctx.pc opcode])) ∨
        ((insnAt ctx.pc opcode).op.transfers = false ∧ room = 0 ∧
          r = (ctx.cut opcode, [insnAt ctx.pc opcode])) ∨
        ((insnAt ctx.pc opcode).op.transfers = false ∧ room ≠ 0 ∧
          ∃ insns, decode mem room (ctx.next opcode) = .ok (r.1, insns) ∧
            r.2 = insnAt ctx.pc opcode :: insns)) := by
  rw [decode_succ mem room hx] at h
  obtain ⟨opcode, ho, h⟩ := bind_eq_ok h
  refine ⟨opcode, ho, ?_⟩
  split at h
  · rename_i ht
    cases h
    exact .inl ⟨ht, rfl⟩
  · rename_i ht
    simp only [Bool.not_eq_true] at ht
    split at h
    · rename_i hr
      cases h
      exact .inr (.inl ⟨ht, hr, rfl⟩)
    · rename_i hr
      obtain ⟨⟨c, insns⟩, hd, rfl⟩ := map_eq_ok h
      exact .inr (.inr ⟨ht, hr, insns, hd, rfl⟩)

/-! ## Where the instructions are -/

/-- The opcode at an address, if it can be read. -/
def fetch (mem : Memory) (pc : Word) : BitVec 32 :=
  match cpuLduw mem pc 0 with
  | .ok opcode => opcode
  | .error _ => 0

theorem fetch_eq {mem : Memory} {pc : Word} {opcode : BitVec 32}
    (h : cpuLduw mem pc 0 = .ok opcode) : fetch mem pc = opcode := by
  rw [fetch, h]

/-- The address after the instruction at `pc`. -/
def nextPc (mem : Memory) (pc : Word) : Word := pc + insnLen (fetch mem pc)

/-- The address of instruction `j` of the straight line from `pc`. -/
def pcAt (mem : Memory) (pc : Word) (j : Nat) : Word := (nextPc mem)^[j] pc

@[simp] theorem pcAt_zero (mem : Memory) (pc : Word) : pcAt mem pc 0 = pc := rfl

theorem pcAt_succ (mem : Memory) (pc : Word) (j : Nat) :
    pcAt mem pc (j + 1) = pcAt mem (nextPc mem pc) j := rfl

theorem pcAt_succ' (mem : Memory) (pc : Word) (j : Nat) :
    pcAt mem pc (j + 1) = nextPc mem (pcAt mem pc j) :=
  Function.iterate_succ_apply' _ _ _

theorem Ctx.next_pc {mem : Memory} {ctx : Ctx} {opcode : BitVec 32}
    (h : cpuLduw mem ctx.pc 0 = .ok opcode) : (ctx.next opcode).pc = nextPc mem ctx.pc := by
  simp [Ctx.next, nextPc, fetch_eq h]

/-- Slot `j` holds the decoding of the instruction at `pcAt j`. -/
theorem decode_getElem? {mem : Memory} {room : Nat} {ctx ctx' : Ctx} {insns : List Insn}
    (hx : ctx.exit = false) (h : decode mem room ctx = .ok (ctx', insns)) {j : Nat}
    (hj : j < insns.length) :
    ∃ opcode, cpuLduw mem (pcAt mem ctx.pc j) 0 = .ok opcode ∧
      insns[j]? = some (insnAt (pcAt mem ctx.pc j) opcode) := by
  induction room generalizing ctx insns j with
  | zero =>
      cases h
      simp at hj
  | succ room ih =>
      obtain ⟨opcode, ho, ⟨_, h⟩ | ⟨_, _, h⟩ | ⟨_, _, rest, hd, h⟩⟩ := decode_cases hx h
      · cases h
        obtain rfl : j = 0 := by simpa using hj
        exact ⟨opcode, ho, rfl⟩
      · cases h
        obtain rfl : j = 0 := by simpa using hj
        exact ⟨opcode, ho, rfl⟩
      · dsimp only at h hd
        subst h
        cases j with
        | zero => exact ⟨opcode, ho, rfl⟩
        | succ j =>
            have hr := ih (Ctx.next_exit hx) hd (by simpa using hj)
            rw [Ctx.next_pc ho] at hr
            exact hr

theorem decode_length_le {mem : Memory} {room : Nat} {ctx ctx' : Ctx} {insns : List Insn}
    (hx : ctx.exit = false) (h : decode mem room ctx = .ok (ctx', insns)) :
    insns.length ≤ room := by
  induction room generalizing ctx insns with
  | zero =>
      cases h
      simp
  | succ room ih =>
      obtain ⟨opcode, _, ⟨_, h⟩ | ⟨_, _, h⟩ | ⟨_, _, rest, hd, h⟩⟩ := decode_cases hx h
      · cases h
        simp
      · cases h
        simp
      · dsimp only at h hd
        subst h
        simpa using ih (Ctx.next_exit hx) hd

/-- How a block ends: its last instruction transfers control and leaves the
context, or the block is full. -/
def DecodeEnd (mem : Memory) (room : Nat) (ctx ctx' : Ctx) (init : List Insn) (last : Insn) :
    Prop :=
  (last.op.transfers = true ∧ ctx' = { ctx with pc := pcAt mem ctx.pc init.length }.after last) ∨
    (last.op.transfers = false ∧ init.length + 1 = room ∧ ctx'.pcNext1 = ctx.pcNext1 ∧
      ctx'.pcNext0 = pcAt mem ctx.pc room)

theorem decode_end {mem : Memory} {room : Nat} {ctx ctx' : Ctx} {insns : List Insn}
    (hx : ctx.exit = false) (hr : room ≠ 0) (h : decode mem room ctx = .ok (ctx', insns)) :
    ∃ init last, insns = init ++ [last] ∧ (∀ i ∈ init, i.op.transfers = false) ∧
      DecodeEnd mem room ctx ctx' init last := by
  induction room generalizing ctx insns with
  | zero => exact (hr rfl).elim
  | succ room ih =>
      obtain ⟨opcode, ho, ⟨ht, h⟩ | ⟨ht, h0, h⟩ | ⟨ht, h0, rest, hd, h⟩⟩ := decode_cases hx h
      · cases h
        exact ⟨[], _, rfl, by simp, .inl ⟨ht, rfl⟩⟩
      · cases h
        subst h0
        exact ⟨[], _, rfl, by simp, .inr ⟨ht, rfl, rfl, Ctx.next_pc ho⟩⟩
      · dsimp only at h hd
        subst h
        obtain ⟨init, last, rfl, hs, he⟩ := ih (Ctx.next_exit hx) h0 hd
        have hp := Ctx.next_pc ho
        refine ⟨insnAt ctx.pc opcode :: init, last, rfl, ?_, ?_⟩
        · intro i hi
          rcases List.mem_cons.mp hi with rfl | hi
          · exact ht
          · exact hs i hi
        · rcases he with ⟨hl, rfl⟩ | ⟨hl, hn, h1, h2⟩
          · refine .inl ⟨hl, ?_⟩
            rw [hp, ← pcAt_succ]
            rfl
          · refine .inr ⟨hl, by simp only [List.length_cons, hn], h1, ?_⟩
            rw [h2, hp, ← pcAt_succ]

end Rvvk
