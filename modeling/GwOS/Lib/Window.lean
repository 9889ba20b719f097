import Mathlib.Logic.Function.Basic
import Mathlib.Tactic.Common

/-!
# Windows of an array

An array is a function of the position. `overwrite f start len g` is the array `f` with the
`len` cells from `start` on replaced by the first `len` cells of `g`; a copy loop writes such a
window cell by cell, and two copies that meet write one longer window.
-/

namespace Window

variable {α : Type*} {f g : Nat → α} {start len n m p : Nat}

/-- The array `f` with the window of `len` cells at `start` taken from `g`. -/
def overwrite (f : Nat → α) (start len : Nat) (g : Nat → α) : Nat → α :=
  fun p => if start ≤ p ∧ p < start + len then g (p - start) else f p

theorem overwrite_of_mem (h : start ≤ p) (h' : p < start + len) :
    overwrite f start len g p = g (p - start) := if_pos ⟨h, h'⟩

theorem overwrite_of_not_mem (h : p < start ∨ start + len ≤ p) : overwrite f start len g p = f p :=
  if_neg fun hp => by omega

@[simp] theorem overwrite_zero : overwrite f start 0 g = f := by
  funext p
  exact overwrite_of_not_mem (by omega)

/-- Two windows that meet. -/
theorem overwrite_append :
    overwrite (overwrite f start n g) (start + n) m (fun i => g (n + i)) =
      overwrite f start (n + m) g := by
  funext p
  by_cases h1 : p < start
  · rw [overwrite_of_not_mem (by omega), overwrite_of_not_mem (by omega),
      overwrite_of_not_mem (by omega)]
  · by_cases h2 : p < start + n
    · rw [overwrite_of_not_mem (by omega), overwrite_of_mem (by omega) h2,
        overwrite_of_mem (by omega) (by omega)]
    · by_cases h3 : p < start + n + m
      · rw [overwrite_of_mem (by omega) h3, overwrite_of_mem (by omega) (by omega)]
        congr 1
        omega
      · rw [overwrite_of_not_mem (by omega), overwrite_of_not_mem (by omega),
          overwrite_of_not_mem (by omega)]

/-- Two cells written one after the other are a window. -/
theorem update_update (a b : α) :
    Function.update (Function.update f start a) (start + 1) b =
      overwrite f start 2 (fun i => if i = 0 then a else b) := by
  funext p
  by_cases h0 : p = start
  · subst h0
    rw [Function.update_of_ne (by omega), Function.update_self, overwrite_of_mem (by omega) (by omega),
      if_pos (by omega)]
  · by_cases h1 : p = start + 1
    · subst h1
      rw [Function.update_self, overwrite_of_mem (by omega) (by omega), if_neg (by omega)]
    · rw [Function.update_of_ne h1, Function.update_of_ne h0, overwrite_of_not_mem (by omega)]

/-- Only the part of the source behind the window counts. -/
theorem overwrite_congr {g' : Nat → α} (h : ∀ i, i < len → g i = g' i) :
    overwrite f start len g = overwrite f start len g' := by
  funext p
  by_cases hp : start ≤ p ∧ p < start + len
  · rw [overwrite_of_mem hp.1 hp.2, overwrite_of_mem hp.1 hp.2, h _ (by omega)]
  · rw [overwrite_of_not_mem (by omega), overwrite_of_not_mem (by omega)]

end Window
