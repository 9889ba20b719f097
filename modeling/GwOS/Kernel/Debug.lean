import Mathlib.Algebra.Group.Int.Defs
import Mathlib.Algebra.GroupWithZero.Nat
import Mathlib.Tactic.Common

/-!
# Calls that do not return (`kernel/debug.c`)

The kernel stops for good at a failed `ASSERT` (`panic_spin` disables the
interrupts and spins), at a null dereference, at an access outside of an array and at a
page fault; each of them is a `Fault` of the model.
-/

namespace GwOS

/-- How a call can fail to return. -/
inductive Fault where
  /-- A failed `ASSERT` (`panic_spin`). -/
  | assert
  /-- A member access through a null pointer. -/
  | nullDeref
  /-- A read or a write past the end of an array. -/
  | outOfBounds
  /-- A loop of the source that never ends. -/
  | outOfFuel
  /-- An access to a page that is not mapped. -/
  | pageFault
  deriving DecidableEq, Repr

universe u v

/-- A sequence of calls returns when each of them does. -/
theorem bind_eq_ok {ε : Type u} {α β : Type v} {x : Except ε α} {g : α → Except ε β} {b : β} :
    (x >>= g) = .ok b ↔ ∃ a, x = .ok a ∧ g a = .ok b := by
  constructor
  · intro h
    cases x with
    | error e => cases h
    | ok a => exact ⟨a, rfl, h⟩
  · rintro ⟨a, rfl, h⟩
    exact h

/-- Whatever the call returns satisfies `P`. -/
def Returns {ε : Type u} {α : Type v} (x : Except ε α) (P : α → Prop) : Prop :=
  ∀ a, x = .ok a → P a

namespace Returns

variable {ε : Type u} {α β : Type v} {x : Except ε α} {P : α → Prop} {Q : β → Prop}

theorem ok {a : α} (h : P a) : Returns (.ok a : Except ε α) P := by
  rintro _ ⟨⟩
  exact h

theorem error (e : ε) : Returns (.error e : Except ε α) P := nofun

theorem bind {g : α → Except ε β} (hx : Returns x P) (hg : ∀ a, P a → Returns (g a) Q) :
    Returns (x >>= g) Q := by
  intro b hb
  obtain ⟨a, ha, hb⟩ := bind_eq_ok.mp hb
  exact hg a (hx a ha) b hb

theorem map {g : α → β} (hx : Returns x P) (hg : ∀ a, P a → Q (g a)) : Returns (g <$> x) Q := by
  cases x with
  | error e => exact .error e
  | ok a => exact .ok (hg a (hx a rfl))

theorem mono {P' : α → Prop} (hx : Returns x P) (h : ∀ a, P a → P' a) : Returns x P' :=
  fun a ha => h a (hx a ha)

/-- Nothing is known of the result. -/
theorem any : Returns x fun a => x = .ok a := fun _ h => h

end Returns

/-- The call returns, and the result passes the test. -/
def returnsWith {ε : Type u} {α : Type v} (x : Except ε α) (test : α → Bool) : Bool :=
  match x with
  | .ok a => test a
  | .error _ => false

theorem returnsWith_iff {ε : Type u} {α : Type v} {x : Except ε α} {test : α → Bool} :
    returnsWith x test = true ↔ ∃ a, x = .ok a ∧ test a = true := by
  cases x with
  | ok a => exact ⟨fun h => ⟨a, rfl, h⟩, fun ⟨_, ha, h⟩ => Except.ok.inj ha ▸ h⟩
  | error e => exact ⟨nofun, fun ⟨_, ha, _⟩ => nomatch ha⟩

end GwOS
