/-!
# Singly linked chains

Nodes linked by a `next` pointer, over any type of pointers. `IsChain` ties a
head pointer to the list of nodes it leads to; the loops that search a chain and
that look for its last node are then functions of that list.
-/

namespace Chain

variable {α : Type}

/-- Following `next` from the pointer visits exactly these nodes and stops. -/
inductive IsChain (next : α → Option α) : Option α → List α → Prop
  | nil : IsChain next none []
  | cons {a : α} {l : List α} (h : IsChain next (next a) l) : IsChain next (some a) (a :: l)

/-- The first node that satisfies `p`, searching at most `fuel` nodes. -/
def find (next : α → Option α) (p : α → Bool) : Nat → Option α → Option α
  | 0, _ => none
  | _ + 1, none => none
  | fuel + 1, some a => if p a then some a else find next p fuel (next a)

/-- The last node of the chain from `a`, following `next` at most `fuel` times. -/
def last (next : α → Option α) : Nat → α → α
  | 0, a => a
  | fuel + 1, a =>
      match next a with
      | none => a
      | some b => last next fuel b

theorem find_eq {next : α → Option α} {p : α → Bool} {fuel : Nat} {head : Option α} {l : List α}
    (h : IsChain next head l) (hl : l.length ≤ fuel) : find next p fuel head = l.find? p := by
  induction h generalizing fuel with
  | nil => cases fuel <;> rfl
  | @cons a l _ ih =>
      cases fuel with
      | zero => simp at hl
      | succ fuel =>
          simp only [find, List.find?_cons]
          cases p a with
          | true => rfl
          | false => exact ih (by simpa using hl)

theorem last_eq {next : α → Option α} {fuel : Nat} {a : α} {l : List α}
    (h : IsChain next (some a) (a :: l)) (hl : l.length ≤ fuel) :
    (a :: l).getLast? = some (last next fuel a) := by
  induction l generalizing fuel a with
  | nil =>
      cases h with
      | cons h =>
          cases hn : next a with
          | none => cases fuel <;> simp [last, hn]
          | some b =>
              rw [hn] at h
              cases h
  | cons b l ih =>
      cases h with
      | cons h =>
          have hn : next a = some b := by
            cases hn : next a with
            | none =>
                rw [hn] at h
                cases h
            | some c =>
                rw [hn] at h
                cases h
                rfl
          rw [hn] at h
          cases fuel with
          | zero => simp at hl
          | succ fuel =>
              rw [List.getLast?_cons_cons, ih h (by simpa using hl)]
              simp [last, hn]

theorem IsChain.congr {next next' : α → Option α} {head : Option α} {l : List α}
    (h : IsChain next head l) (hn : ∀ a ∈ l, next' a = next a) : IsChain next' head l := by
  induction h with
  | nil => exact .nil
  | @cons a l _ ih =>
      refine .cons ?_
      rw [hn a (by simp)]
      exact ih fun b hb => hn b (List.mem_cons_of_mem _ hb)

theorem IsChain.append {next next' : α → Option α} {head : Option α} {l : List α} {z b : α}
    (h : IsChain next head l) (hz : l.getLast? = some z) (hnd : l.Nodup)
    (hlink : next' z = some b) (hfresh : next' b = none)
    (hkeep : ∀ a ∈ l, a ≠ z → next' a = next a) : IsChain next' head (l ++ [b]) := by
  induction h with
  | nil => cases hz
  | @cons a l h ih =>
      rw [List.nodup_cons] at hnd
      refine .cons ?_
      cases l with
      | nil =>
          obtain rfl : a = z := by simpa using hz
          rw [hlink]
          refine .cons ?_
          rw [hfresh]
          exact .nil
      | cons c l =>
          have hz' : (c :: l).getLast? = some z := by rwa [List.getLast?_cons_cons] at hz
          have hne : a ≠ z := by
            rintro rfl
            exact hnd.1 (List.mem_of_getLast? hz')
          rw [hkeep a (by simp) hne]
          exact ih hz' hnd.2 fun d hd => hkeep d (List.mem_cons_of_mem _ hd)

theorem IsChain.eq_nil {next : α → Option α} {l : List α} (h : IsChain next none l) : l = [] := by
  cases h
  rfl

theorem IsChain.head_eq {next : α → Option α} {a b : α} {l : List α}
    (h : IsChain next (some a) (b :: l)) : a = b := by
  cases h
  rfl

end Chain
