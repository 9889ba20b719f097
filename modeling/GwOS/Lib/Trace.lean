import Mathlib.Data.List.Basic

/-!
# Traces of memory accesses

A trace allocates, frees and touches blocks of memory. A block is *freed* after a trace that
frees it and does not allocate it again; a touch of a freed block is *stale*.

- `freed_snoc`, `neverStale_snoc`: what one more access does.
- `NeverStale.append_touches`: touching blocks that are not freed is no stale access.
- `not_neverStale`: touching a block right after it is freed is one.
-/

namespace GwOS

/-- Where an element of a list with one more element at the end is. -/
theorem snoc_split {α : Type*} {l before after : List α} {a b : α}
    (h : l ++ [a] = before ++ b :: after) :
    (before = l ∧ b = a ∧ after = []) ∨
      ∃ after', after = after' ++ [a] ∧ l = before ++ b :: after' := by
  rcases List.eq_nil_or_concat after with rfl | ⟨after', c, rfl⟩
  · obtain ⟨hl, ha⟩ := List.append_inj' h rfl
    cases ha
    exact .inl ⟨hl.symm, rfl, rfl⟩
  · rw [List.concat_eq_append, ← List.cons_append, ← List.append_assoc] at h
    obtain ⟨hl, ha⟩ := List.append_inj' h rfl
    cases ha
    exact .inr ⟨after', List.concat_eq_append, hl⟩

/-- An access to a block of memory. -/
inductive Access (B : Type*) where
  | alloc (b : B)
  | free (b : B)
  | touch (b : B)
  deriving DecidableEq

namespace Access

variable {B : Type*} {trace l : List (Access B)} {a : Access B} {b : B}

/-- The block has been freed, and not been allocated again. -/
def Freed (trace : List (Access B)) (b : B) : Prop :=
  ∃ before after, trace = before ++ .free b :: after ∧ .alloc b ∉ after

/-- No access of the trace touches a block that is freed. -/
def NeverStale (trace : List (Access B)) : Prop :=
  ∀ before b after, trace = before ++ .touch b :: after → ¬ Freed before b

theorem freed_nil : ¬ Freed [] b := by
  rintro ⟨before, after, h, -⟩
  cases before <;> cases h

theorem freed_snoc : Freed (trace ++ [a]) b ↔ a = .free b ∨ (Freed trace b ∧ a ≠ .alloc b) := by
  constructor
  · rintro ⟨before, after, h, hno⟩
    rcases snoc_split h with ⟨-, ha, -⟩ | ⟨after', rfl, htrace⟩
    · exact .inl ha.symm
    · refine .inr ⟨⟨before, after', htrace, fun hm => hno ?_⟩, fun ha => hno ?_⟩
      · exact List.mem_append_left _ hm
      · rw [ha]
        exact List.mem_append_right _ (List.mem_singleton_self _)
  · rintro (rfl | ⟨⟨before, after, rfl, hno⟩, ha⟩)
    · exact ⟨trace, [], rfl, List.not_mem_nil⟩
    · refine ⟨before, after ++ [a], by rw [List.append_assoc, List.cons_append], ?_⟩
      rw [List.mem_append, List.mem_singleton]
      rintro (hm | he)
      · exact hno hm
      · exact ha he.symm

theorem neverStale_nil : NeverStale ([] : List (Access B)) := by
  intro before b after h
  cases before <;> cases h

theorem neverStale_snoc : NeverStale (trace ++ [a]) ↔
    NeverStale trace ∧ ∀ b, a = .touch b → ¬ Freed trace b := by
  constructor
  · intro h
    constructor
    · intro before b after htrace
      exact h before b (after ++ [a]) (by rw [htrace, List.append_assoc, List.cons_append])
    · rintro b rfl
      exact h trace b [] rfl
  · rintro ⟨h, ha⟩ before b after heq
    rcases snoc_split heq with ⟨rfl, hb, -⟩ | ⟨after', -, htrace⟩
    · exact ha b hb.symm
    · exact h before b after' htrace

/-- A trace that goes on is stale if it was. -/
theorem NeverStale.of_append (h : NeverStale (trace ++ l)) : NeverStale trace := by
  intro before b after htrace
  exact h before b (after ++ l) (by rw [htrace, List.append_assoc, List.cons_append])

/-- Touches free nothing. -/
theorem freed_append_touches (bs : List B) :
    Freed (trace ++ bs.map .touch) b ↔ Freed trace b := by
  induction bs generalizing trace with
  | nil => rw [List.map_nil, List.append_nil]
  | cons c bs ih =>
    rw [List.map_cons, List.append_cons, ih, freed_snoc]
    simp

theorem NeverStale.append_touches (h : NeverStale trace) {bs : List B}
    (hbs : ∀ b ∈ bs, ¬ Freed trace b) : NeverStale (trace ++ bs.map .touch) := by
  induction bs generalizing trace with
  | nil => rwa [List.map_nil, List.append_nil]
  | cons c bs ih =>
    rw [List.map_cons, List.append_cons]
    have hsnoc : NeverStale (trace ++ [.touch c]) := by
      refine neverStale_snoc.mpr ⟨h, fun b hb => ?_⟩
      cases hb
      exact hbs c List.mem_cons_self
    refine ih hsnoc fun b hb hf => ?_
    rw [freed_snoc] at hf
    rcases hf with hf | ⟨hf, -⟩
    · cases hf
    · exact hbs b (List.mem_cons_of_mem c hb) hf

/-- A block that is touched right after it is freed. -/
theorem not_neverStale (rest : List (Access B)) :
    ¬ NeverStale (trace ++ .free b :: .touch b :: rest) := by
  intro h
  refine h (trace ++ [.free b]) b rest (by simp) ?_
  exact freed_snoc.mpr (.inl rfl)

end Access

end GwOS
