/-!
# Runs of a machine that may fail

A machine is a step function into `Except`. A run iterates it, a log collects
what each state of the run puts out. The rules below carry an invariant, an
abstraction function or a simulation from one step to every run; a side
condition on the steps taken may be assumed along the run.
-/

namespace Run

variable {α β γ ε : Type}

/-- The state after `n` steps. -/
def run (step : α → Except ε α) : Nat → α → Except ε α
  | 0, s => .ok s
  | n + 1, s =>
      match step s with
      | .ok s' => run step n s'
      | .error e => .error e

/-- What the states of the first `n` steps put out, up to a failure. -/
def log (step : α → Except ε α) (out : α → List γ) : Nat → α → List γ
  | 0, _ => []
  | n + 1, s =>
      out s ++
        match step s with
        | .ok s' => log step out n s'
        | .error _ => []

/-- Each of the first `n` steps meets the condition. -/
def Along (step : α → Except ε α) (good : α → α → Prop) : Nat → α → Prop
  | 0, _ => True
  | n + 1, s => ∀ s', step s = .ok s' → good s s' ∧ Along step good n s'

/-- Each of the first `n` states meets the condition. -/
def Throughout (step : α → Except ε α) (p : α → Prop) : Nat → α → Prop
  | 0, _ => True
  | n + 1, s => p s ∧ ∀ s', step s = .ok s' → Throughout step p n s'

theorem forall_ok_iff {a : α} {p : α → Prop} :
    p a ↔ ∀ b, (Except.ok a : Except ε α) = .ok b → p b :=
  ⟨fun h _ hb => Except.ok.inj hb ▸ h, fun h => h a rfl⟩

theorem forall_error {e : ε} {p : α → Prop} (b : α) (h : Except.error e = .ok b) : p b := by
  cases h

instance decidableForallOk {p : α → Prop} [DecidablePred p] :
    (r : Except ε α) → Decidable (∀ a, r = .ok a → p a)
  | .ok _ => decidable_of_iff _ forall_ok_iff
  | .error _ => .isTrue forall_error

instance decidableAlong {step : α → Except ε α} {good : α → α → Prop}
    [∀ s s', Decidable (good s s')] : (n : Nat) → (s : α) → Decidable (Along step good n s)
  | 0, _ => .isTrue trivial
  | n + 1, s =>
      have : DecidablePred (Along step good n) := decidableAlong n
      inferInstanceAs (Decidable (∀ s', step s = .ok s' → good s s' ∧ Along step good n s'))

instance decidableThroughout {step : α → Except ε α} {p : α → Prop} [DecidablePred p] :
    (n : Nat) → (s : α) → Decidable (Throughout step p n s)
  | 0, _ => .isTrue trivial
  | n + 1, s =>
      have : DecidablePred (Throughout step p n) := decidableThroughout n
      inferInstanceAs (Decidable (p s ∧ ∀ s', step s = .ok s' → Throughout step p n s'))

/-- The error of a run, as data to compare. -/
def failure : Except ε α → Option ε
  | .error e => some e
  | .ok _ => none

theorem failure_eq_some {r : Except ε α} {e : ε} : failure r = some e ↔ r = .error e := by
  cases r <;> simp [failure]

section

variable {step : α → Except ε α} {s s' : α} {n : Nat}

theorem run_succ_eq_ok {r : α} :
    run step (n + 1) s = .ok r ↔ ∃ s', step s = .ok s' ∧ run step n s' = .ok r := by
  simp only [run]
  cases step s <;> simp

theorem run_add {m : Nat} (h : run step m s = .ok s') : run step (m + n) s = run step n s' := by
  induction m generalizing s with
  | zero =>
      cases h
      rw [Nat.zero_add]
  | succ m ih =>
      obtain ⟨t, ht, h⟩ := run_succ_eq_ok.mp h
      rw [Nat.succ_add]
      simp only [run, ht]
      exact ih h

theorem run_split {m : Nat} {t : α} (h : run step (m + n) s = .ok t) :
    ∃ s', run step m s = .ok s' ∧ run step n s' = .ok t := by
  induction m generalizing s with
  | zero => exact ⟨s, rfl, Nat.zero_add n ▸ h⟩
  | succ m ih =>
      rw [Nat.succ_add] at h
      obtain ⟨u, hu, h⟩ := run_succ_eq_ok.mp h
      obtain ⟨s', hm, hn⟩ := ih h
      exact ⟨s', run_succ_eq_ok.mpr ⟨u, hu, hm⟩, hn⟩

theorem Along.mono {good good' : α → α → Prop} (hg : ∀ s s', good s s' → good' s s')
    (h : Along step good n s) : Along step good' n s := by
  induction n generalizing s with
  | zero => trivial
  | succ n ih => exact fun s' hs => ⟨hg _ _ (h s' hs).1, ih (h s' hs).2⟩

theorem Throughout.along {p : α → Prop} (h : Throughout step p n s) :
    Along step (fun s _ => p s) n s := by
  induction n generalizing s with
  | zero => trivial
  | succ n ih => exact fun s' hs => ⟨h.1, ih (h.2 s' hs)⟩

theorem Throughout.mono {p p' : α → Prop} (hp : ∀ s, p s → p' s) (h : Throughout step p n s) :
    Throughout step p' n s := by
  induction n generalizing s with
  | zero => trivial
  | succ n ih => exact ⟨hp s h.1, fun s' hs => ih (h.2 s' hs)⟩

theorem throughout_of_forall {p : α → Prop} (hp : ∀ s, p s) : Throughout step p n s := by
  induction n generalizing s with
  | zero => trivial
  | succ n ih => exact ⟨hp s, fun s' _ => ih⟩

theorem Throughout.take {p : α → Prop} {m : Nat} (h : Throughout step p n s) (hm : m ≤ n) :
    Throughout step p m s := by
  induction m generalizing s n with
  | zero => trivial
  | succ m ih =>
      cases n with
      | zero => omega
      | succ n => exact ⟨h.1, fun s' hs => ih (h.2 s' hs) (by omega)⟩

theorem Throughout.drop {p : α → Prop} {m : Nat} (h : Throughout step p (m + n) s)
    (hr : run step m s = .ok s') : Throughout step p n s' := by
  induction m generalizing s with
  | zero =>
      cases hr
      rwa [Nat.zero_add] at h
  | succ m ih =>
      obtain ⟨t, ht, hr⟩ := run_succ_eq_ok.mp hr
      rw [Nat.succ_add] at h
      exact ih (h.2 t ht) hr

theorem Throughout.append {p : α → Prop} {m : Nat} (h : Throughout step p m s)
    (hr : run step m s = .ok s') (h' : Throughout step p n s') : Throughout step p (m + n) s := by
  induction m generalizing s with
  | zero =>
      cases hr
      rwa [Nat.zero_add]
  | succ m ih =>
      obtain ⟨t, ht, hr⟩ := run_succ_eq_ok.mp hr
      rw [Nat.succ_add]
      refine ⟨h.1, fun t' ht' => ?_⟩
      cases ht.symm.trans ht'
      exact ih (h.2 t ht) hr

theorem Throughout.of_run_error {p : α → Prop} {m : Nat} {e : ε} (h : Throughout step p m s)
    (hr : run step m s = .error e) (n : Nat) : Throughout step p n s := by
  induction m generalizing s n with
  | zero => cases hr
  | succ m ih =>
      cases n with
      | zero => trivial
      | succ n =>
          refine ⟨h.1, fun s' hs => ih (h.2 s' hs) ?_ n⟩
          simpa only [run, hs] using hr

/-- The condition holds of every state that is reached before the last. -/
theorem Throughout.at {p : α → Prop} {m : Nat} (h : Throughout step p n s) (hm : m < n)
    (hr : run step m s = .ok s') : p s' := by
  induction m generalizing s n with
  | zero =>
      cases hr
      cases n with
      | zero => omega
      | succ n => exact h.1
  | succ m ih =>
      obtain ⟨t, ht, hr⟩ := run_succ_eq_ok.mp hr
      cases n with
      | zero => omega
      | succ n => exact ih (h.2 t ht) (by omega) hr

theorem Along.and {good good' : α → α → Prop} (h : Along step good n s)
    (h' : Along step good' n s) : Along step (fun s s' => good s s' ∧ good' s s') n s := by
  induction n generalizing s with
  | zero => trivial
  | succ n ih => exact fun s' hs => ⟨⟨(h s' hs).1, (h' s' hs).1⟩, ih (h s' hs).2 (h' s' hs).2⟩

theorem invariant {inv : α → Prop} {good : α → α → Prop}
    (hstep : ∀ s s', inv s → step s = .ok s' → good s s' → inv s') (h0 : inv s)
    (hg : Along step good n s) (hr : run step n s = .ok s') : inv s' := by
  induction n generalizing s with
  | zero =>
      cases hr
      exact h0
  | succ n ih =>
      obtain ⟨t, ht, hr⟩ := run_succ_eq_ok.mp hr
      exact ih (hstep s t h0 ht (hg t ht).1) (hg t ht).2 hr

/-- Steps that keep an invariant under which every step is good make a good run. -/
theorem along_of_invariant {inv : α → Prop} {good : α → α → Prop}
    (hstep : ∀ s s', inv s → step s = .ok s' → inv s' ∧ good s s') (h0 : inv s) (n : Nat) :
    Along step good n s := by
  induction n generalizing s with
  | zero => trivial
  | succ n ih => exact fun s' hs => ⟨(hstep s s' h0 hs).2, ih (hstep s s' h0 hs).1⟩

/-- Under an invariant that good steps keep, they may be good in another sense. -/
theorem Along.imp {inv : α → Prop} {good good' : α → α → Prop}
    (hstep : ∀ s s', inv s → step s = .ok s' → good s s' → inv s' ∧ good' s s') (h0 : inv s)
    (hg : Along step good n s) : Along step good' n s := by
  induction n generalizing s with
  | zero => trivial
  | succ n ih =>
      intro s' hs
      obtain ⟨hi, hg'⟩ := hstep s s' h0 hs (hg s' hs).1
      exact ⟨hg', ih hi (hg s' hs).2⟩

theorem always {inv : α → Prop} (hstep : ∀ s s', inv s → step s = .ok s' → inv s') (h0 : inv s)
    (hr : run step n s = .ok s') : inv s' := by
  have hg : Along step (fun _ _ => True) n s :=
    along_of_invariant (fun s s' hs h => ⟨hstep s s' hs h, trivial⟩) h0 n
  exact invariant (fun s s' hs h _ => hstep s s' hs h) h0 hg hr

/-- A run ends with an error exactly at a state whose step fails. -/
theorem run_eq_error {e : ε} (h : run step n s = .error e) :
    ∃ m t, m < n ∧ run step m s = .ok t ∧ step t = .error e := by
  induction n generalizing s with
  | zero => cases h
  | succ n ih =>
      cases hs : step s with
      | error e' =>
          simp only [run, hs, Except.error.injEq] at h
          exact ⟨0, s, by omega, rfl, by rw [hs, h]⟩
      | ok s₁ =>
          simp only [run, hs] at h
          obtain ⟨m, t, hm, hr, ht⟩ := ih h
          exact ⟨m + 1, t, by omega, run_succ_eq_ok.mpr ⟨s₁, hs, hr⟩, ht⟩

theorem Along.take {good : α → α → Prop} {m : Nat} (h : Along step good n s) (hm : m ≤ n) :
    Along step good m s := by
  induction m generalizing s n with
  | zero => trivial
  | succ m ih =>
      cases n with
      | zero => omega
      | succ n => exact fun s' hs => ⟨(h s' hs).1, ih (h s' hs).2 (by omega)⟩

theorem Along.drop {good : α → α → Prop} {m : Nat} (h : Along step good (m + n) s)
    (hr : run step m s = .ok s') : Along step good n s' := by
  induction m generalizing s with
  | zero =>
      cases hr
      rwa [Nat.zero_add] at h
  | succ m ih =>
      obtain ⟨t, ht, hr⟩ := run_succ_eq_ok.mp hr
      rw [Nat.succ_add] at h
      exact ih (h t ht).2 hr

/-- If each good step lets a rank fall, but for what it puts out, then a good run puts
something out ever again. -/
theorem paced {out : α → List γ} {rank : α → Nat} {k : Nat} {inv : α → Prop}
    {good : α → α → Prop} (hstep : ∀ s s', inv s → step s = .ok s' → good s s' →
      inv s' ∧ rank s' + 1 ≤ rank s + k * (out s).length) (h0 : inv s)
    (hg : Along step good n s) (hr : run step n s = .ok s') :
    n + rank s' ≤ rank s + k * (log step out n s).length := by
  induction n generalizing s with
  | zero =>
      cases hr
      omega
  | succ n ih =>
      obtain ⟨t, ht, hr⟩ := run_succ_eq_ok.mp hr
      obtain ⟨hi, hone⟩ := hstep s t h0 ht (hg t ht).1
      have hrest := ih hi (hg t ht).2 hr
      have hlog : log step out (n + 1) s = out s ++ log step out n t := by simp only [log, ht]
      rw [hlog, List.length_append, Nat.mul_add]
      omega

/-- If what a step puts out lies between the values of a measure before and after it, in
order, then so does what a run puts out. -/
theorem log_ascending {out : α → List γ} {f : α → Nat} {lo hi : γ → Nat} {inv : α → Prop}
    {good : α → α → Prop} (hstep : ∀ s s', inv s → step s = .ok s' → good s s' →
      inv s' ∧ f s ≤ f s' ∧ (∀ q ∈ out s, f s ≤ lo q ∧ hi q ≤ f s') ∧
        (out s).Pairwise fun p q => hi p ≤ lo q)
    (h0 : inv s) (hg : Along step good n s) (hr : run step n s = .ok s') :
    f s ≤ f s' ∧ (∀ q ∈ log step out n s, f s ≤ lo q ∧ hi q ≤ f s') ∧
      (log step out n s).Pairwise fun p q => hi p ≤ lo q := by
  induction n generalizing s with
  | zero =>
      cases hr
      exact ⟨Nat.le_refl _, fun _ h => (List.not_mem_nil h).elim, List.Pairwise.nil⟩
  | succ n ih =>
      obtain ⟨t, ht, hr⟩ := run_succ_eq_ok.mp hr
      obtain ⟨hi', hle, hout, hpair⟩ := hstep s t h0 ht (hg t ht).1
      obtain ⟨hle', hlog, hpairs⟩ := ih hi' (hg t ht).2 hr
      have he : log step out (n + 1) s = out s ++ log step out n t := by simp only [log, ht]
      rw [he]
      refine ⟨Nat.le_trans hle hle', fun q hq => ?_, List.pairwise_append.mpr
        ⟨hpair, hpairs, fun p hp q hq => Nat.le_trans (hout p hp).2 (hlog q hq).1⟩⟩
      rcases List.mem_append.mp hq with hq | hq
      · exact ⟨(hout q hq).1, Nat.le_trans (hout q hq).2 hle'⟩
      · exact ⟨Nat.le_trans hle (hlog q hq).1, (hlog q hq).2⟩

end

/-- Two machines over the same states pass through the same ones, failures included, as
long as they take the same step in each. -/
theorem run_eq_iff {step step' : α → Except ε α} {alike : α → Prop}
    (hstep : ∀ s, step s = step' s ↔ alike s) {n : Nat} {s : α} :
    (∀ k ≤ n, run step k s = run step' k s) ↔
      ∀ m < n, ∀ t, run step m s = .ok t → alike t := by
  constructor
  · intro h m hm t ht
    have ht' : run step' m s = .ok t := (h m (by omega)).symm.trans ht
    have hone := h (m + 1) hm
    rw [run_add ht, run_add ht'] at hone
    refine (hstep t).mp ?_
    simp only [run] at hone
    cases hs : step t <;> cases hs' : step' t <;> simp_all
  · intro h k hk
    induction k generalizing s n with
    | zero => rfl
    | succ k ih =>
        have hone : step s = step' s := (hstep s).mpr (h 0 (by omega) s rfl)
        cases hs : step s with
        | error e => simp only [run, ← hone, hs]
        | ok s₁ =>
            simp only [run, ← hone, hs]
            refine ih (n := n - 1) (fun m hm t ht => ?_) (by omega)
            exact h (m + 1) (by omega) t (run_succ_eq_ok.mpr ⟨s₁, hs, ht⟩)

/-- If an abstraction function commutes with each step of a run, under an invariant that
good steps keep, then it commutes with the run, failures included. -/
theorem run_map {step : α → Except ε α} {step' : β → Except ε β} {f : α → β} {inv p : α → Prop}
    {good : α → α → Prop} (hstep : ∀ s, inv s → p s → (step s).map f = step' (f s))
    (hinv : ∀ s s', inv s → p s → step s = .ok s' → good s s' → inv s') {n : Nat} {s : α}
    (h0 : inv s) (hp : Throughout step p n s) (hg : Along step good n s) :
    (run step n s).map f = run step' n (f s) := by
  induction n generalizing s with
  | zero => rfl
  | succ n ih =>
      have hf := hstep s h0 hp.1
      cases hs : step s with
      | error e =>
          rw [hs] at hf
          simp only [run, hs, ← hf, Except.map]
      | ok t =>
          rw [hs] at hf
          simp only [run, hs, ← hf, Except.map]
          exact ih (hinv s t h0 hp.1 hs (hg t hs).1) (hp.2 t hs) (hg t hs).2

/-- Then the logs are the same where each state puts out what its image does. -/
theorem log_map {step : α → Except ε α} {step' : β → Except ε β} {f : α → β} {inv p : α → Prop}
    {out : α → List γ} {out' : β → List γ} (hstep : ∀ s, inv s → p s → (step s).map f = step' (f s))
    (hinv : ∀ s s', inv s → p s → step s = .ok s' → inv s')
    (hout : ∀ s, inv s → p s → out' (f s) = out s) {n : Nat} {s : α} (h0 : inv s)
    (hp : Throughout step p n s) : log step' out' n (f s) = log step out n s := by
  induction n generalizing s with
  | zero => rfl
  | succ n ih =>
      have hf := hstep s h0 hp.1
      cases hs : step s with
      | error e =>
          rw [hs] at hf
          simp only [log, hout s h0 hp.1, hs, ← hf, Except.map]
      | ok t =>
          rw [hs] at hf
          simp only [log, hout s h0 hp.1, hs, ← hf, Except.map]
          rw [ih (hinv s t h0 hp.1 hs) (hp.2 t hs)]

/-- A condition on the states of the image is one on the states themselves. -/
theorem Throughout.of_map {step : α → Except ε α} {step' : β → Except ε β} {f : α → β}
    {inv p : α → Prop} {q : β → Prop} (hstep : ∀ s, inv s → p s → (step s).map f = step' (f s))
    (hp : ∀ s, inv s → q (f s) → p s) (hinv : ∀ s s', inv s → p s → step s = .ok s' → inv s')
    {n : Nat} {s : α} (h0 : inv s) (h : Throughout step' q n (f s)) : Throughout step p n s := by
  induction n generalizing s with
  | zero => trivial
  | succ n ih =>
      have hps := hp s h0 h.1
      refine ⟨hps, fun s' hs => ih (hinv s s' h0 hps hs) (h.2 _ ?_)⟩
      rw [← hstep s h0 hps, hs]
      rfl

theorem Throughout.pull {step : α → Except ε α} {step' : β → Except ε β} {f : α → β}
    {inv p p' : α → Prop} {q : β → Prop} (hstep : ∀ s, inv s → p s → (step s).map f = step' (f s))
    (hinv : ∀ s s', inv s → p s → step s = .ok s' → inv s')
    (hq : ∀ s, inv s → p s → q (f s) → p' s) {n : Nat} {s : α} (h0 : inv s)
    (hp : Throughout step p n s) (h : Throughout step' q n (f s)) : Throughout step p' n s := by
  have hall : Throughout step (fun s => p s ∧ p' s) n s := by
    induction n generalizing s with
    | zero => trivial
    | succ n ih =>
        refine ⟨⟨hp.1, hq s h0 hp.1 h.1⟩, fun s' hs => ih (hinv s s' h0 hp.1 hs) (hp.2 s' hs)
          (h.2 _ ?_)⟩
        rw [← hstep s h0 hp.1, hs]
        rfl
  exact hall.mono fun _ h => h.2

/-- A condition on the steps of the image is one on the steps themselves. -/
theorem Along.of_map {step : α → Except ε α} {step' : β → Except ε β} {f : α → β}
    {inv p : α → Prop} {good : β → β → Prop} (hstep : ∀ s, inv s → p s → (step s).map f = step' (f s))
    (hinv : ∀ s s', inv s → p s → step s = .ok s' → good (f s) (f s') → inv s') {n : Nat} {s : α}
    (h0 : inv s) (hp : Throughout step p n s) (hg : Along step' good n (f s)) :
    Along step (fun s s' => good (f s) (f s')) n s := by
  induction n generalizing s with
  | zero => trivial
  | succ n ih =>
      intro s' hs
      have hf : step' (f s) = .ok (f s') := by
        rw [← hstep s h0 hp.1, hs]
        rfl
      exact ⟨(hg _ hf).1, ih (hinv s s' h0 hp.1 hs (hg _ hf).1) (hp.2 s' hs) (hg _ hf).2⟩

theorem Along.map {step : α → Except ε α} {step' : β → Except ε β} {f : α → β}
    {inv p : α → Prop} {good : β → β → Prop} (hstep : ∀ s, inv s → p s → (step s).map f = step' (f s))
    (hinv : ∀ s s', inv s → p s → step s = .ok s' → inv s') {n : Nat} {s : α} (h0 : inv s)
    (hp : Throughout step p n s) (hg : Along step (fun s s' => good (f s) (f s')) n s) :
    Along step' good n (f s) := by
  induction n generalizing s with
  | zero => trivial
  | succ n ih =>
      intro t ht
      rw [← hstep s h0 hp.1] at ht
      cases hs : step s with
      | error e =>
          rw [hs] at ht
          cases ht
      | ok s' =>
          rw [hs] at ht
          cases ht
          exact ⟨(hg s' hs).1, ih (hinv s s' h0 hp.1 hs) (hp.2 s' hs) (hg s' hs).2⟩

/-- If each good step is matched by no step or by one step with the same output,
then each good run is matched by a run with the same log. -/
theorem simulates {step : α → Except ε α} {step' : β → Except ε β} {out : α → List γ}
    {out' : β → List γ} {f : α → β} {inv : α → Prop} {good : α → α → Prop}
    (hstep : ∀ s s', inv s → step s = .ok s' → good s s' →
      (out s = [] ∧ f s' = f s) ∨ (out' (f s) = out s ∧ step' (f s) = .ok (f s')))
    (hinv : ∀ s s', inv s → step s = .ok s' → good s s' → inv s') {n : Nat} {s s' : α}
    (h0 : inv s) (hg : Along step good n s) (hr : run step n s = .ok s') :
    ∃ k, run step' k (f s) = .ok (f s') ∧ log step' out' k (f s) = log step out n s := by
  induction n generalizing s with
  | zero =>
      cases hr
      exact ⟨0, rfl, rfl⟩
  | succ n ih =>
      obtain ⟨t, ht, hr⟩ := run_succ_eq_ok.mp hr
      obtain ⟨k, hk, hl⟩ := ih (hinv s t h0 ht (hg t ht).1) (hg t ht).2 hr
      rcases hstep s t h0 ht (hg t ht).1 with ⟨ho, hf⟩ | ⟨ho, hf⟩
      · refine ⟨k, hf ▸ hk, ?_⟩
        simp only [log, ho, ht, List.nil_append, ← hl, hf]
      · refine ⟨k + 1, run_succ_eq_ok.mpr ⟨_, hf, hk⟩, ?_⟩
        simp only [log, ho, ht, hf, hl]

end Run
