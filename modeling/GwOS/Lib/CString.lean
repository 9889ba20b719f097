import GwOS.Lib.Bytes

/-!
# Strings in byte buffers

Where a list of bytes lies in a buffer, and where a string with its end mark does.

- `Bytes.HasAt`: the bytes from `st` on are those of the list. It splits along `++`, and a
  write elsewhere keeps it.
- `Bytes.StringAt`: the same with a zero behind the last byte and none before. From its first
  byte on, `strlen` counts the string.
-/

namespace Bytes

variable {n : Nat} {b b' : Bytes n} {st i : Nat} {u v : List UInt8}

/-- The bytes of `u` lie in the buffer from `st` on. -/
def HasAt (b : Bytes n) (st : Nat) (u : List UInt8) : Prop :=
  ∀ i (h : i < u.length), b.get (st + i) = u[i]

/-- A string with its end mark lies in the buffer from `st` on. -/
structure StringAt (b : Bytes n) (st : Nat) (u : List UInt8) : Prop where
  fits : st + u.length < n
  nonzero : 0 ∉ u
  bytes : b.HasAt st u
  mark : b.get (st + u.length) = 0

theorem hasAt_nil : b.HasAt st [] := fun _ h => absurd h (Nat.not_lt_zero _)

theorem hasAt_append : b.HasAt st (u ++ v) ↔ b.HasAt st u ∧ b.HasAt (st + u.length) v := by
  constructor
  · intro h
    constructor
    · intro i hi
      rw [h i (by rw [List.length_append]; omega), List.getElem_append_left hi]
    · intro i hi
      rw [Nat.add_assoc, h (u.length + i) (by rw [List.length_append]; omega),
        List.getElem_append_right (Nat.le_add_right ..)]
      simp only [Nat.add_sub_cancel_left]
  · rintro ⟨hu, hv⟩ i hi
    rw [List.length_append] at hi
    by_cases hiu : i < u.length
    · rw [hu i hiu, List.getElem_append_left hiu]
    · have hget := hv (i - u.length) (by omega)
      rw [show st + u.length + (i - u.length) = st + i by omega] at hget
      rw [hget, List.getElem_append_right (by omega)]

theorem hasAt_singleton {c : UInt8} : b.HasAt st [c] ↔ b.get st = c := by
  constructor
  · exact fun h => h 0 Nat.one_pos
  · intro h i hi
    obtain rfl : i = 0 := Nat.lt_one_iff.mp hi
    exact h

theorem hasAt_cons {c : UInt8} : b.HasAt st (c :: u) ↔ b.get st = c ∧ b.HasAt (st + 1) u := by
  rw [← List.singleton_append, hasAt_append, hasAt_singleton]
  rfl

/-- What lies in a range that does not change stays there. -/
theorem HasAt.congr (h : b.HasAt st u) (hsame : ∀ i, st ≤ i → i < st + u.length → b'.get i = b.get i) :
    b'.HasAt st u := by
  intro i hi
  rw [hsame _ (Nat.le_add_right ..) (Nat.add_lt_add_left hi st), h i hi]

theorem HasAt.set_outside (h : b.HasAt st u) {c : UInt8} (hi : i < st ∨ st + u.length ≤ i) :
    (b.set i c).HasAt st u :=
  h.congr fun j _ _ => get_set_ne _ _ (by omega)

/-- One more character behind those at the start of the buffer. -/
theorem HasAt.push (h : b.HasAt 0 u) {c : UInt8} (hfit : u.length < n) :
    (b.set u.length c).HasAt 0 (u ++ [c]) := by
  refine hasAt_append.mpr ⟨h.set_outside (.inr (Nat.zero_add _).le), ?_⟩
  rw [Nat.zero_add]
  exact hasAt_singleton.mpr (get_set_self _ _ hfit)

/-- There is room for a character if there is room for it and what follows. -/
theorem length_lt_of_append {c : UInt8} (h : (u ++ [c] ++ v).length ≤ n) : u.length < n := by
  rw [List.length_append, List.length_append, List.length_singleton] at h
  omega

theorem HasAt.map_range (h : b.HasAt 0 u) : (List.range u.length).map b.get = u := by
  refine List.ext_getElem (by simp) fun i _ hi => ?_
  have hget := h i hi
  rw [Nat.zero_add] at hget
  rw [List.getElem_map, List.getElem_range, hget]

namespace StringAt

/-- The part of a string behind its first bytes is a string. -/
theorem suffix (h : b.StringAt st (u ++ v)) : b.StringAt (st + u.length) v := by
  have hfits := h.fits
  have hmark := h.mark
  rw [List.length_append, ← Nat.add_assoc] at hfits hmark
  exact ⟨hfits, fun h0 => h.nonzero (List.mem_append_right _ h0), (hasAt_append.mp h.bytes).2, hmark⟩

/-- A string behind other characters makes a longer string. -/
theorem prepend (hv : b.StringAt (st + u.length) v) (hu : b.HasAt st u) (h0 : 0 ∉ u) :
    b.StringAt st (u ++ v) := by
  have hfits := hv.fits
  have hmark := hv.mark
  rw [Nat.add_assoc, ← List.length_append] at hfits hmark
  refine ⟨hfits, fun hm => ?_, hasAt_append.mpr ⟨hu, hv.bytes⟩, hmark⟩
  rcases List.mem_append.mp hm with hm | hm
  · exact h0 hm
  · exact hv.nonzero hm

/-- `strlen` counts a string that the buffer starts with. -/
theorem strlen (h : b.StringAt 0 u) : b.strlen? = some u.length := by
  have hfits := h.fits
  have hmark := h.mark
  rw [Nat.zero_add] at hfits hmark
  refine strlen?_eq hfits hmark fun j hj => ?_
  have hget := h.bytes j hj
  rw [Nat.zero_add] at hget
  rw [hget]
  exact fun h0 => h.nonzero (h0 ▸ List.getElem_mem hj)

/-- There is one string at a place. -/
theorem unique (hu : b.StringAt st u) (hv : b.StringAt st v) : u = v := by
  -- the end mark of one is no byte of the other
  have hle : ∀ {x y : List UInt8}, b.StringAt st x → b.StringAt st y → x.length ≤ y.length := by
    intro x y hx hy
    by_contra hlt
    have hget := hx.bytes y.length (by omega)
    rw [hy.mark] at hget
    exact hx.nonzero (hget ▸ List.getElem_mem _)
  refine List.ext_getElem (le_antisymm (hle hu hv) (hle hv hu)) fun i hi hi' => ?_
  rw [← hu.bytes i hi, ← hv.bytes i hi']

end StringAt

end Bytes
