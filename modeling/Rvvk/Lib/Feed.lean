/-!
# Machines fed with inputs

A machine is a step relation between a state, an input and the next state; a
function and a function that may fail are both of this kind. The rules below
carry an invariant along a list of inputs, and turn a condition on single steps
into a condition on whole lists. Nothing here names a particular program.
-/

namespace Feed

variable {σ ι : Type} {step : σ → ι → σ → Prop}

/-- The list of inputs leads from one state to another. -/
inductive Reaches (step : σ → ι → σ → Prop) : σ → List ι → σ → Prop
  | nil (s : σ) : Reaches step s [] s
  | cons {s s' t : σ} {i : ι} {is : List ι} (hs : step s i s') (ht : Reaches step s' is t) :
      Reaches step s (i :: is) t

/-- Every input meets the condition in the state that it finds. -/
def Each (step : σ → ι → σ → Prop) (P : σ → ι → Prop) : σ → List ι → Prop
  | _, [] => True
  | s, i :: is => P s i ∧ ∀ s', step s i s' → Each step P s' is

theorem Reaches.append {s t u : σ} {is js : List ι} (h₁ : Reaches step s is t)
    (h₂ : Reaches step t js u) : Reaches step s (is ++ js) u := by
  induction h₁ with
  | nil s => exact h₂
  | cons hs _ ih => exact .cons hs (ih h₂)

theorem Reaches.invariant {inv : σ → Prop} {good : σ → ι → Prop}
    (hstep : ∀ s i s', inv s → good s i → step s i s' → inv s') {s t : σ} {is : List ι}
    (hr : Reaches step s is t) (h0 : inv s) (hg : Each step good s is) : inv t := by
  induction hr with
  | nil s => exact h0
  | cons hs _ ih => exact ih (hstep _ _ _ h0 hg.1 hs) (hg.2 _ hs)

/-- Under an invariant that good steps keep, what follows from a good input
follows for every input of a good list. -/
theorem Each.of_invariant {inv : σ → Prop} {good P : σ → ι → Prop}
    (hstep : ∀ s i s', inv s → good s i → step s i s' → inv s')
    (hP : ∀ s i, inv s → good s i → P s i) {s : σ} {is : List ι} (h0 : inv s)
    (hg : Each step good s is) : Each step P s is := by
  induction is generalizing s with
  | nil => trivial
  | cons i is ih =>
      exact ⟨hP s i h0 hg.1, fun s' hs => ih (hstep s i s' h0 hg.1 hs) (hg.2 s' hs)⟩

/-- Two conditions that agree under an invariant kept by either agree on lists. -/
theorem each_iff {inv : σ → Prop} {good P : σ → ι → Prop}
    (hstep : ∀ s i s', inv s → good s i → step s i s' → inv s')
    (hP : ∀ s i, inv s → (P s i ↔ good s i)) {s : σ} {is : List ι} (h0 : inv s) :
    Each step P s is ↔ Each step good s is := by
  constructor
  · intro h
    exact h.of_invariant (fun s i s' hi hp hs => hstep s i s' hi ((hP s i hi).mp hp) hs)
      (fun s i hi hp => (hP s i hi).mp hp) h0
  · intro h
    exact h.of_invariant hstep (fun s i hi hg => (hP s i hi).mpr hg) h0

theorem each_congr {P Q : σ → ι → Prop} (h : ∀ s i, P s i ↔ Q s i) {s : σ} {is : List ι} :
    Each step P s is ↔ Each step Q s is := by
  have hpq : P = Q := funext fun s => funext fun i => propext (h s i)
  rw [hpq]

theorem each_const {P : ι → Prop} (ht : ∀ s i, ∃ s', step s i s') {s : σ} {is : List ι} :
    Each step (fun _ i => P i) s is ↔ ∀ i ∈ is, P i := by
  induction is generalizing s with
  | nil => exact ⟨fun _ _ h => absurd h List.not_mem_nil, fun _ => trivial⟩
  | cons i is ih =>
      rw [List.forall_mem_cons]
      constructor
      · rintro ⟨hi, h⟩
        obtain ⟨s', hs⟩ := ht s i
        exact ⟨hi, ih.mp (h s' hs)⟩
      · rintro ⟨hi, h⟩
        exact ⟨hi, fun _ _ => ih.mpr h⟩

/-- The last input of a list finds the state that the others lead to. -/
theorem Each.last {P : σ → ι → Prop} {s t : σ} {is : List ι} {i : ι}
    (h : Each step P s (is ++ [i])) (hr : Reaches step s is t) : P t i := by
  induction hr with
  | nil s => exact h.1
  | cons hs _ ih => exact ih (h.2 _ hs)

/-- Every input meets a condition on the inputs before it. -/
def Along (P : List ι → ι → Prop) (before is : List ι) : Prop :=
  ∀ mid i after, is = mid ++ i :: after → P (before ++ mid) i

theorem along_nil {P : List ι → ι → Prop} {before : List ι} : Along P before [] :=
  fun _ _ _ h => absurd h.symm (by simp)

theorem along_cons {P : List ι → ι → Prop} {before is : List ι} {i : ι} :
    Along P before (i :: is) ↔ P before i ∧ Along P (before ++ [i]) is := by
  constructor
  · intro h
    refine ⟨?_, fun mid j after hs => ?_⟩
    · simpa using h [] i is rfl
    · simpa using h (i :: mid) j after (by rw [hs, List.cons_append])
  · rintro ⟨hi, h⟩ mid j after hs
    cases mid with
    | nil =>
        obtain ⟨rfl, -⟩ := List.cons.inj hs
        simpa using hi
    | cons k mid =>
        obtain ⟨rfl, ht⟩ := List.cons.inj hs
        simpa using h mid j after ht

/-- A fold that may fail gets to its end, with the invariant, if every input meets its
condition. -/
theorem Along.foldlM_ok {ε τ : Type} {P : List ι → ι → Prop} {inv : List ι → τ → Prop}
    {f : τ → ι → Except ε τ} {before is : List ι} {s : τ} (h : Along P before is)
    (hstep : ∀ before s, inv before s → ∀ i ∈ is, P before i →
      ∃ s', f s i = .ok s' ∧ inv (before ++ [i]) s')
    (h0 : inv before s) : ∃ s', is.foldlM f s = .ok s' ∧ inv (before ++ is) s' := by
  induction is generalizing before s with
  | nil => exact ⟨s, rfl, by rwa [List.append_nil]⟩
  | cons i is ih =>
      obtain ⟨hi, hrest⟩ := along_cons.mp h
      obtain ⟨s', hs, h'⟩ := hstep before s h0 i List.mem_cons_self hi
      obtain ⟨t, ht, h''⟩ :=
        ih hrest (fun before s hb j hj => hstep before s hb j (List.mem_cons_of_mem _ hj)) h'
      refine ⟨t, ?_, by rwa [List.append_cons]⟩
      rw [List.foldlM_cons, hs]
      exact ht

end Feed
