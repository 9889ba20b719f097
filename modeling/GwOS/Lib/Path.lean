import Mathlib.Data.List.Basic

/-!
# Paths as strings

A path is a list of symbols in which one symbol separates the components. `components`
reads a path and does not see empty components; `join` writes the absolute path of a list
of components, and the two are inverse to each other on components that are not empty and
do not hold the separator.
-/

namespace Pathname

variable {α : Type*} [DecidableEq α] {sep : α}

/-- The components of a path. -/
def components (sep : α) (p : List α) : List (List α) := (p.splitOn sep).filter (· ≠ [])

/-- The absolute path with these components. -/
def join (sep : α) : List (List α) → List α
  | [] => [sep]
  | c :: cs => (c :: cs).flatMap (sep :: ·)

/-- A component that can be read back. -/
def Proper (sep : α) (c : List α) : Prop := c ≠ [] ∧ sep ∉ c

@[simp] theorem components_nil : components sep [] = [] := by
  simp [components]

@[simp] theorem components_sep (p : List α) : components sep (sep :: p) = components sep p := by
  have hsplit := List.splitOn_append_cons_self (a := sep) [] p
  rw [List.nil_append, List.splitOn_nil] at hsplit
  simp [components, hsplit]

theorem components_append (p q : List α) :
    components sep (p ++ sep :: q) = components sep p ++ components sep q := by
  rw [components, List.splitOn_append_cons_self, List.filter_append]
  rfl

theorem components_single {c : List α} (h : Proper sep c) : components sep c = [c] := by
  rw [components, List.splitOn_eq_singleton h.2]
  simp [h.1]

theorem components_cons {c : List α} (h : Proper sep c) (p : List α) :
    components sep (c ++ sep :: p) = c :: components sep p := by
  rw [components, List.splitOn_append_cons_self, List.splitOn_eq_singleton h.2]
  simp [components, h.1]

/-- A component is a piece of the path. -/
theorem components_sublist {c p : List α} (h : c ∈ components sep p) : c.Sublist p := by
  suffices hsplit : ∀ {p c : List α}, c ∈ p.splitOn sep → c.Sublist p from
    hsplit (List.mem_filter.mp h).1
  intro p
  induction p with
  | nil =>
    intro c hc
    rw [List.splitOn_nil, List.mem_singleton] at hc
    rw [hc]
  | cons x p ih =>
    intro c hc
    rw [List.splitOn_cons_eq_if_modifyHead] at hc
    split at hc
    · rcases List.mem_cons.mp hc with rfl | hc
      · exact List.nil_sublist _
      · exact (ih hc).cons x
    · obtain ⟨d, ds, hds⟩ := List.exists_cons_of_ne_nil (List.splitOn_ne_nil sep p)
      rw [hds, List.modifyHead_cons] at hc
      rcases List.mem_cons.mp hc with rfl | hc
      · exact (ih (hds ▸ List.mem_cons_self)).cons_cons x
      · exact (ih (hds ▸ List.mem_cons_of_mem _ hc)).cons x

/-- Reading back the path of a list of components. -/
theorem components_join {cs : List (List α)} (h : ∀ c ∈ cs, Proper sep c) :
    components sep (join sep cs) = cs := by
  have hflat : ∀ cs : List (List α), (∀ c ∈ cs, Proper sep c) →
      components sep (cs.flatMap (sep :: ·)) = cs := by
    intro cs hcs
    induction cs with
    | nil => simp
    | cons c cs ih =>
      have hc := hcs c List.mem_cons_self
      have htail := ih fun x hx => hcs x (List.mem_cons_of_mem _ hx)
      rw [List.flatMap_cons, List.cons_append, components_sep]
      cases cs with
      | nil => simpa using components_single hc
      | cons d ds =>
        rw [List.flatMap_cons, List.cons_append, components_cons hc]
        rw [List.flatMap_cons, List.cons_append, components_sep] at htail
        rw [htail]
  cases cs with
  | nil => simp [join]
  | cons c cs => exact hflat _ h

omit [DecidableEq α] in
/-- One component more. -/
theorem join_concat (cs : List (List α)) (c : List α) :
    join sep (cs ++ [c]) = cs.flatMap (sep :: ·) ++ sep :: c := by
  cases cs with
  | nil => simp [join]
  | cons d ds => simp [join]

theorem join_eq_sep {cs : List (List α)} (h : ∀ c ∈ cs, Proper sep c) : join sep cs = [sep] ↔ cs = [] := by
  constructor
  · intro hj
    have hcomp := components_join h
    rw [hj] at hcomp
    simpa using hcomp.symm
  · rintro rfl
    rfl

end Pathname
