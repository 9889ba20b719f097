import Mathlib.Data.List.Basic

/-!
# Runs of a step function

A step may fail, and a run is the list of its actions. `Always step P` says that `P` holds in every
state of a run, `Meets step C` that each of its actions meets `C` in the state before it.

- `always_iff_meets`: if the actions that keep `P` are those that meet `C`, the runs that keep
  `P` are those whose actions meet `C`.
-/

namespace GwOS

section Runs

variable {σ α ε : Type*} {step : σ → α → Except ε σ} {P : σ → Prop} {C : σ → α → Prop}
  {acts : List α} {s : σ}

/-- The property holds in every state of the run. -/
def Always (step : σ → α → Except ε σ) (P : σ → Prop) : List α → σ → Prop
  | [], s => P s
  | a :: acts, s => P s ∧ ∀ s', step s a = .ok s' → Always step P acts s'

/-- Every action of the run meets the condition. -/
def Meets (step : σ → α → Except ε σ) (C : σ → α → Prop) : List α → σ → Prop
  | [], _ => True
  | a :: acts, s => C s a ∧ ∀ s', step s a = .ok s' → Meets step C acts s'

theorem Always.head (h : Always step P acts s) : P s := by
  cases acts with
  | nil => exact h
  | cons a acts => exact h.1

/-- A property that is kept exactly by the actions that meet the condition. -/
theorem always_iff_meets (hstep : ∀ s a, P s → (C s a ↔ ∀ s', step s a = .ok s' → P s'))
    (acts : List α) (s : σ) (hs : P s) : Always step P acts s ↔ Meets step C acts s := by
  induction acts generalizing s with
  | nil => exact iff_of_true hs trivial
  | cons a acts ih =>
    constructor
    · rintro ⟨-, h⟩
      exact ⟨(hstep s a hs).mpr fun s' hs' => (h s' hs').head,
        fun s' hs' => (ih s' (h s' hs').head).mp (h s' hs')⟩
    · rintro ⟨hc, h⟩
      exact ⟨hs, fun s' hs' => (ih s' ((hstep s a hs).mp hc s' hs')).mpr (h s' hs')⟩

end Runs

end GwOS
