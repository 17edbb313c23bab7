/-!
# Switch statements

A C `switch` whose every case leaves the statement: the first case with the
scrutinee's value, or the default.
-/

/-- The result of the case labelled `x`, or the default. -/
def switch {α β : Type} [DecidableEq α] (x : α) (cases : List (α × β)) (default : β) : β :=
  match cases with
  | [] => default
  | (label, result) :: rest => if x = label then result else switch x rest default

section

variable {α β : Type} [DecidableEq α]

@[simp] theorem switch_nil (x : α) (default : β) : switch x [] default = default := rfl

@[simp] theorem switch_hit (x : α) (result : β) (rest : List (α × β)) (default : β) :
    switch x ((x, result) :: rest) default = result := if_pos rfl

theorem switch_miss {x label : α} (h : x ≠ label) (result : β) (rest : List (α × β))
    (default : β) : switch x ((label, result) :: rest) default = switch x rest default := if_neg h

theorem switch_mem (x : α) (cases : List (α × β)) (default : β) :
    (x, switch x cases default) ∈ cases ∨ switch x cases default = default := by
  induction cases with
  | nil => exact .inr rfl
  | cons c rest ih =>
      obtain ⟨label, result⟩ := c
      by_cases h : x = label
      · subst h
        exact .inl (by simp)
      · rw [switch_miss h]
        exact ih.imp_left (List.mem_cons_of_mem _)

/-- A switch that does not yield its default takes a labelled case. -/
theorem exists_case {x : α} {cases : List (α × β)} {default : β}
    (h : switch x cases default ≠ default) :
    ∃ label result, (label, result) ∈ cases ∧ x = label ∧ switch x cases default = result :=
  ⟨x, _, (switch_mem x cases default).resolve_right h, rfl, rfl⟩

end
