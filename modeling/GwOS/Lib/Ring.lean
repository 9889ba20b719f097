import Mathlib.Data.List.Basic
import Mathlib.Data.Nat.ModEq

/-!
# Ring buffers

A ring of `n` cells with two positions: items are written at `head` and read at `tail`, and
both positions go up by one modulo `n`. One cell is kept empty, so that equal positions mean
an empty ring and never a full one.

`Holds n buf tail head l` says that the ring holds the list `l`, the oldest item first. The
cells are a function of the position, and the rules say how the list follows when an item is
written or read.
-/

namespace Ring

variable {α : Type*} {n tail head : ℕ} {buf buf' : ℕ → α} {l : List α} {x : α}

/-- The ring holds the items of `l`, the oldest at `tail`. -/
structure Holds (n : ℕ) (buf : ℕ → α) (tail head : ℕ) (l : List α) : Prop where
  tail_lt : tail < n
  length_lt : l.length < n
  head_eq : head = (tail + l.length) % n
  get : ∀ i, l[i]? = if i < l.length then some (buf ((tail + i) % n)) else none

/-- Two offsets below the size of the ring lead to different cells. -/
theorem offset_inj {i j : ℕ} (hi : i < n) (hj : j < n) (h : (tail + i) % n = (tail + j) % n) :
    i = j := by
  have hmod : i ≡ j [MOD n] := Nat.ModEq.add_left_cancel' tail h
  exact Nat.ModEq.eq_of_lt_of_lt hmod hi hj

theorem Holds.nil (h : tail < n) : Holds n buf tail tail [] := by
  refine ⟨h, Nat.zero_lt_of_lt h, ?_, fun i => ?_⟩
  · exact (Nat.mod_eq_of_lt h).symm
  · simp

namespace Holds

theorem head_lt (h : Holds n buf tail head l) : head < n := by
  rw [h.head_eq]
  exact Nat.mod_lt _ (Nat.zero_lt_of_lt h.tail_lt)

/-- The offset of the tail from itself is zero. -/
theorem tail_eq (h : Holds n buf tail head l) : tail = (tail + 0) % n :=
  (Nat.mod_eq_of_lt h.tail_lt).symm

theorem next_head (h : Holds n buf tail head l) : (head + 1) % n = (tail + (l.length + 1)) % n := by
  rw [h.head_eq, Nat.mod_add_mod, Nat.add_assoc]

/-- The positions are equal when the ring is empty. -/
theorem empty_iff (h : Holds n buf tail head l) : head = tail ↔ l = [] := by
  rw [← List.length_eq_zero_iff]
  constructor
  · intro he
    have hoff : (tail + l.length) % n = (tail + 0) % n := by
      rw [← h.head_eq, he]
      exact h.tail_eq
    exact offset_inj h.length_lt (Nat.zero_lt_of_lt h.tail_lt) hoff
  · intro hl
    rw [h.head_eq, hl]
    exact h.tail_eq.symm

/-- The next position of the head is the tail when all cells but one are in use. -/
theorem full_iff (h : Holds n buf tail head l) : (head + 1) % n = tail ↔ l.length + 1 = n := by
  rw [h.next_head]
  constructor
  · intro he
    by_contra hne
    have hlt : l.length + 1 < n := by
      have := h.length_lt
      omega
    have h0 := offset_inj hlt (Nat.zero_lt_of_lt h.tail_lt) (he.trans h.tail_eq)
    exact absurd h0 (Nat.succ_ne_zero _)
  · intro hl
    rw [hl, Nat.add_mod_right]
    exact Nat.mod_eq_of_lt h.tail_lt

/-- An item is written at the head. -/
theorem push (h : Holds n buf tail head l) (hl : l.length + 1 < n) (hx : buf' head = x)
    (hframe : ∀ p, p ≠ head → buf' p = buf p) :
    Holds n buf' tail ((head + 1) % n) (l ++ [x]) := by
  refine ⟨h.tail_lt, ?_, ?_, fun i => ?_⟩
  · simpa using hl
  · simpa using h.next_head
  · rcases Nat.lt_trichotomy i l.length with hi | hi | hi
    · -- the cells before the head are as they were
      have hne : (tail + i) % n ≠ head := by
        rw [h.head_eq]
        intro he
        exact absurd (offset_inj (Nat.lt_trans hi h.length_lt) h.length_lt he) (Nat.ne_of_lt hi)
      have hi' : i < (l ++ [x]).length := by simp; omega
      rw [List.getElem?_append_left hi, h.get i, if_pos hi, if_pos hi', hframe _ hne]
    · subst hi
      rw [if_pos (by simp), ← h.head_eq, hx]
      simp
    · rw [if_neg (by simp; omega), List.getElem?_eq_none (by simp; omega)]

/-- The oldest item is read at the tail. -/
theorem pop (h : Holds n buf tail head (x :: l)) :
    buf tail = x ∧ Holds n buf ((tail + 1) % n) head l := by
  have h0 := h.get 0
  simp only [List.getElem?_cons_zero, List.length_cons, Nat.zero_lt_succ, if_true,
    ← h.tail_eq] at h0
  refine ⟨(Option.some.inj h0).symm, ?_, ?_, ?_, fun i => ?_⟩
  · exact Nat.mod_lt _ (Nat.zero_lt_of_lt h.tail_lt)
  · exact Nat.lt_of_succ_lt h.length_lt
  · rw [h.head_eq, Nat.mod_add_mod, List.length_cons, Nat.add_right_comm, Nat.add_assoc]
  · have hi := h.get (i + 1)
    rw [List.getElem?_cons_succ] at hi
    rw [hi, Nat.mod_add_mod, Nat.add_right_comm tail 1 i, ← Nat.add_assoc]
    simp

end Holds

end Ring
