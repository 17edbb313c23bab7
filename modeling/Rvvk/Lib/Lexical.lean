import Mathlib.Data.List.Basic

/-!
# Lexical paths

A path is a list of characters, and a separator cuts it into components. A single
dot and an empty component stand for nothing, two dots for the removal of the
name before, everything else is a name. A stack of names is written with a
separator before each. Nothing here names a particular program.
-/

namespace Lexical

variable {α : Type}

def push [DecidableEq α] (dot : α) (stack : List (List α)) (comp : List α) : List (List α) :=
  if comp = [] ∨ comp = [dot] then stack
  else if comp = [dot, dot] then stack.dropLast
  else stack ++ [comp]

/-- The names a path leaves, from those of the directory it is read in. -/
def resolve [DecidableEq α] (slash dot : α) (stack : List (List α)) (path : List α) : List (List α) :=
  (path.splitOn slash).foldl (push dot) stack

def joined (slash : α) (stack : List (List α)) : List α := stack.flatMap fun name => slash :: name

/-- The path of a stack of names; the root is a separator alone. -/
def render (slash : α) (stack : List (List α)) : List α :=
  if stack = [] then [slash] else joined slash stack

/-- A component that stands for itself. -/
structure IsName (slash dot : α) (comp : List α) : Prop where
  nonempty : comp ≠ []
  notDot : comp ≠ [dot]
  notDots : comp ≠ [dot, dot]
  noSlash : slash ∉ comp

variable {slash dot : α} {stack : List (List α)} {comp : List α}

theorem push_name [DecidableEq α] (h : IsName slash dot comp) : push dot stack comp = stack ++ [comp] := by
  unfold push
  rw [if_neg (not_or.mpr ⟨h.nonempty, h.notDot⟩), if_neg h.notDots]

theorem push_skip [DecidableEq α] (h : comp = [] ∨ comp = [dot]) : push dot stack comp = stack :=
  if_pos h

theorem component_cases [DecidableEq α] (h : slash ∉ comp) :
    IsName slash dot comp ∨ comp = [dot, dot] ∨ comp = [] ∨ comp = [dot] := by
  by_cases hn : IsName slash dot comp
  · exact .inl hn
  · refine .inr ?_
    by_contra hs
    obtain ⟨hdots, hs⟩ := not_or.mp hs
    obtain ⟨hempty, hdot⟩ := not_or.mp hs
    exact hn ⟨hempty, hdot, hdots, h⟩

@[simp] theorem joined_nil : joined slash ([] : List (List α)) = [] := rfl

@[simp] theorem joined_concat (stack : List (List α)) (comp : List α) :
    joined slash (stack ++ [comp]) = joined slash stack ++ slash :: comp := by
  simp [joined]

theorem joined_append (front back : List (List α)) :
    joined slash (front ++ back) = joined slash front ++ joined slash back := by
  simp [joined]

theorem joined_eq_nil : joined slash stack = [] ↔ stack = [] := by
  cases stack with
  | nil => exact iff_of_true rfl rfl
  | cons name stack => exact iff_of_false (fun h => by simp [joined] at h) (by simp)

theorem render_of_ne_nil (h : stack ≠ []) : render slash stack = joined slash stack :=
  if_neg h

theorem render_ne_nil (stack : List (List α)) : render slash stack ≠ [] := by
  unfold render
  split
  · exact List.cons_ne_nil _ _
  · rename_i h
    exact fun hj => h (joined_eq_nil.mp hj)

theorem render_second (hs : ∀ name ∈ stack, IsName slash dot name) :
    (render slash stack)[1]? ≠ some slash := by
  cases stack with
  | nil => exact fun h => by simp [render] at h
  | cons name stack =>
      have hn := hs name List.mem_cons_self
      cases name with
      | nil => exact absurd rfl hn.nonempty
      | cons a name =>
          have ha : a ≠ slash := fun h => hn.noSlash (h ▸ List.mem_cons_self)
          simpa [render, joined] using ha

theorem mem_joined {a : α} : a ∈ joined slash stack → a = slash ∨ ∃ name ∈ stack, a ∈ name := by
  intro h
  obtain ⟨name, hn, ha⟩ := List.mem_flatMap.mp h
  rcases List.mem_cons.mp ha with rfl | ha
  · exact .inl rfl
  · exact .inr ⟨name, hn, ha⟩

/-- A component is made of characters of the path other than the separator. -/
theorem mem_of_mem_splitOn [DecidableEq α] {path : List α} (h : comp ∈ path.splitOn slash) :
    ∀ a ∈ comp, a ∈ path ∧ a ≠ slash := by
  induction path generalizing comp with
  | nil =>
      rw [List.splitOn_nil] at h
      rw [List.mem_singleton.mp h]
      exact fun _ hm => absurd hm List.not_mem_nil
  | cons c path ih =>
      have htail : ∀ comp ∈ path.splitOn slash, ∀ a ∈ comp, a ∈ c :: path ∧ a ≠ slash := by
        intro comp hc a ha
        exact ⟨List.mem_cons_of_mem _ (ih hc a ha).1, (ih hc a ha).2⟩
      rw [List.splitOn_cons_eq_if_modifyHead] at h
      split at h
      · rcases List.mem_cons.mp h with rfl | h
        · exact fun _ hm => absurd hm List.not_mem_nil
        · exact htail comp h
      · rename_i hne
        cases hs : path.splitOn slash with
        | nil =>
            rw [hs] at h
            exact absurd h List.not_mem_nil
        | cons first rest =>
            rw [hs, List.modifyHead_cons] at h
            rw [hs] at htail
            rcases List.mem_cons.mp h with rfl | h
            · intro a ha
              rcases List.mem_cons.mp ha with rfl | ha
              · exact ⟨List.mem_cons_self, fun he => hne (by simp [he])⟩
              · exact htail first List.mem_cons_self a ha
            · exact htail comp (List.mem_cons_of_mem _ h)

theorem splitOn_cons_self [DecidableEq α] (path : List α) :
    (slash :: path).splitOn slash = [] :: path.splitOn slash := by
  simp [List.splitOn_cons_eq_if_modifyHead]

/-- Components other than names leave no name behind, so a stack of names stays one. -/
theorem push_names [DecidableEq α] (hs : ∀ name ∈ stack, IsName slash dot name) (hc : slash ∉ comp) :
    ∀ name ∈ push dot stack comp, IsName slash dot name := by
  intro name hn
  unfold push at hn
  split at hn
  · exact hs name hn
  · rename_i h1
    split at hn
    · exact hs name (List.dropLast_subset _ hn)
    · rename_i h2
      rcases List.mem_append.mp hn with hn | hn
      · exact hs name hn
      · rw [List.mem_singleton.mp hn]
        exact ⟨fun h => h1 (.inl h), fun h => h1 (.inr h), h2, hc⟩

theorem resolve_names [DecidableEq α] {path : List α} (hs : ∀ name ∈ stack, IsName slash dot name) :
    ∀ name ∈ resolve slash dot stack path, IsName slash dot name := by
  have hall : ∀ comps : List (List α), (∀ comp ∈ comps, slash ∉ comp) →
      ∀ stack : List (List α), (∀ name ∈ stack, IsName slash dot name) →
        ∀ name ∈ comps.foldl (push dot) stack, IsName slash dot name := by
    intro comps
    induction comps with
    | nil => exact fun _ _ hs => hs
    | cons comp comps ih =>
        intro hc stack hs
        exact ih (fun c hm => hc c (List.mem_cons_of_mem _ hm)) _
          (push_names hs (hc comp List.mem_cons_self))
  exact hall _ (fun comp hc hm => (mem_of_mem_splitOn hc slash hm).2 rfl) stack hs

theorem foldl_push_names [DecidableEq α] {names : List (List α)} (hn : ∀ name ∈ names, IsName slash dot name)
    (stack : List (List α)) : names.foldl (push dot) stack = stack ++ names := by
  induction names generalizing stack with
  | nil => exact (List.append_nil stack).symm
  | cons name names ih =>
      rw [List.foldl_cons, push_name (hn name List.mem_cons_self),
        ih (fun n hm => hn n (List.mem_cons_of_mem _ hm)), List.append_assoc]
      rfl

theorem joined_eq_intercalate (stack : List (List α)) (first : List α) :
    first ++ joined slash stack = [slash].intercalate (first :: stack) := by
  induction stack generalizing first with
  | nil => simp
  | cons name stack ih =>
      rw [List.intercalate_cons_cons, ← ih name]
      simp [joined]

/-- The components of a rendered stack are an empty one and its names. -/
theorem splitOn_joined [DecidableEq α] (hs : ∀ name ∈ stack, slash ∉ name) :
    (joined slash stack).splitOn slash = [] :: stack := by
  have hj : [] ++ joined slash stack = [slash].intercalate ([] :: stack) :=
    joined_eq_intercalate stack []
  rw [List.nil_append] at hj
  rw [hj]
  exact List.splitOn_intercalate slash (by simpa using hs) (List.cons_ne_nil _ _)

theorem splitOn_render [DecidableEq α] (hs : ∀ name ∈ stack, slash ∉ name) :
    (render slash stack).splitOn slash = [] :: if stack = [] then [[]] else stack := by
  unfold render
  split
  · rw [splitOn_cons_self, List.splitOn_nil]
  · exact splitOn_joined hs

theorem resolve_render [DecidableEq α] (hs : ∀ name ∈ stack, IsName slash dot name) :
    resolve slash dot [] (render slash stack) = stack := by
  rw [resolve, splitOn_render fun name hn => (hs name hn).noSlash]
  split
  · rename_i h
    rw [h]
    rfl
  · exact foldl_push_names hs []

end Lexical
