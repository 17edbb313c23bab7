import Rvvk.Lib.Feed
import Rvvk.Lib.Run

/-!
# Runs that refine a step relation

A machine that may fail, next to a step relation that says what it is for. A step
of the machine is silent or does one input of the relation; a last one may stop,
and from then on the machine is silent.
-/

namespace Run

variable {α σ ι γ ε : Type} {step : α → Except ε α} {out : α → List γ} {astep : σ → ι → σ → Prop}
  {R T : σ → α → Prop} {inv : α → Prop} {good : α → α → Prop} {P : σ → Prop}

theorem stopped (hstop : ∀ a s s', inv s → T a s → step s = .ok s' → good s s' →
      out s = [] ∧ T a s')
    (hinv : ∀ s s', inv s → step s = .ok s' → good s s' → inv s') {n : Nat} {a : σ} {s s' : α}
    (h0 : inv s) (hT : T a s) (hg : Along step good n s) (hr : run step n s = .ok s') :
    log step out n s = [] ∧ T a s' := by
  induction n generalizing s with
  | zero =>
      cases hr
      exact ⟨rfl, hT⟩
  | succ n ih =>
      obtain ⟨t, ht, hr⟩ := run_succ_eq_ok.mp hr
      obtain ⟨ho, hT'⟩ := hstop a s t h0 hT ht (hg t ht).1
      obtain ⟨hl, hT''⟩ := ih (hinv s t h0 ht (hg t ht).1) hT' (hg t ht).2 hr
      refine ⟨?_, hT''⟩
      simp only [log, ho, ht, hl, List.nil_append]

/-- If each good step is silent, or does an input, or stops, then a good run does as
many inputs as it puts out, but for the one at which it may have stopped. The
condition `P` is asked for wherever the relation leads. -/
theorem refines (hstep : ∀ a s s', P a → inv s → R a s → step s = .ok s' → good s s' →
      (out s = [] ∧ R a s') ∨
        ∃ x, out s = [x] ∧ ((∃ i a', astep a i a' ∧ R a' s') ∨ T a s'))
    (hstop : ∀ a s s', inv s → T a s → step s = .ok s' → good s s' → out s = [] ∧ T a s')
    (hinv : ∀ s s', inv s → step s = .ok s' → good s s' → inv s') {n : Nat} {a : σ} {s s' : α}
    (hP : ∀ is a', Feed.Reaches astep a is a' → P a') (h0 : inv s) (hR : R a s)
    (hg : Along step good n s) (hr : run step n s = .ok s') :
    ∃ is a', Feed.Reaches astep a is a' ∧
      ((is.length = (log step out n s).length ∧ R a' s') ∨
        (is.length + 1 = (log step out n s).length ∧ T a' s')) := by
  induction n generalizing a s with
  | zero =>
      cases hr
      exact ⟨[], a, .nil a, .inl ⟨rfl, hR⟩⟩
  | succ n ih =>
      obtain ⟨t, ht, hr⟩ := run_succ_eq_ok.mp hr
      have ht0 := hinv s t h0 ht (hg t ht).1
      have hlog : log step out (n + 1) s = out s ++ log step out n t := by simp only [log, ht]
      rw [hlog]
      rcases hstep a s t (hP [] a (.nil a)) h0 hR ht (hg t ht).1 with
        ⟨ho, hR'⟩ | ⟨x, ho, ⟨i, a₁, ha, hR'⟩ | hT⟩
      · rw [ho]
        exact ih hP ht0 hR' (hg t ht).2 hr
      · obtain ⟨is, a', hrs, hlen⟩ :=
          ih (fun is a' h => hP (i :: is) a' (.cons ha h)) ht0 hR' (hg t ht).2 hr
        refine ⟨i :: is, a', .cons ha hrs, ?_⟩
        rw [ho, List.length_cons, List.singleton_append, List.length_cons, Nat.add_right_cancel_iff,
          Nat.add_right_cancel_iff]
        exact hlen
      · obtain ⟨hl, hT'⟩ := stopped hstop hinv ht0 hT (hg t ht).2 hr
        refine ⟨[], a, .nil a, .inr ⟨?_, hT'⟩⟩
        rw [ho, hl]
        rfl

theorem run_of_reaches {step : σ → Except ε σ} (hstep : ∀ a i a', astep a i a' → step a = .ok a')
    {a a' : σ} {is : List ι} (h : Feed.Reaches astep a is a') : run step is.length a = .ok a' := by
  induction h with
  | nil a => rfl
  | cons hs _ ih => exact run_succ_eq_ok.mpr ⟨_, hstep _ _ _ hs, ih⟩

/-- If each good step is silent, or puts out one input and does it, then what a good run
puts out is what the relation does. -/
theorem traces {out : α → List ι} (hstep : ∀ a s s', P a → inv s → R a s → step s = .ok s' →
      good s s' → (out s = [] ∧ R a s') ∨ ∃ i a', out s = [i] ∧ astep a i a' ∧ R a' s')
    (hinv : ∀ s s', inv s → step s = .ok s' → good s s' → inv s') {n : Nat} {a : σ} {s s' : α}
    (hP : ∀ is a', Feed.Reaches astep a is a' → P a') (h0 : inv s) (hR : R a s)
    (hg : Along step good n s) (hr : run step n s = .ok s') :
    ∃ a', Feed.Reaches astep a (log step out n s) a' ∧ R a' s' := by
  induction n generalizing a s with
  | zero =>
      cases hr
      exact ⟨a, .nil a, hR⟩
  | succ n ih =>
      obtain ⟨t, ht, hr⟩ := run_succ_eq_ok.mp hr
      have ht0 := hinv s t h0 ht (hg t ht).1
      have hlog : log step out (n + 1) s = out s ++ log step out n t := by simp only [log, ht]
      rw [hlog]
      rcases hstep a s t (hP [] a (.nil a)) h0 hR ht (hg t ht).1 with
        ⟨ho, hR'⟩ | ⟨i, a₁, ho, ha, hR'⟩
      · rw [ho]
        exact ih hP ht0 hR' (hg t ht).2 hr
      · obtain ⟨a', hrs, hR''⟩ :=
          ih (fun is a' h => hP (i :: is) a' (.cons ha h)) ht0 hR' (hg t ht).2 hr
        rw [ho]
        exact ⟨a', .cons ha hrs, hR''⟩

end Run
