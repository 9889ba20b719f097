import Mathlib.Data.Nat.Digits.Lemmas

/-!
# Numerals

The numeral of a number in a base up to 36, as a string with its highest digit first: the
characters `0` to `9` and `A` to `Z`.

- `IsNumeral b x u` says that `u` is a numeral of `x`: digits below the base, the right
  positional value, no leading zero. `isNumeral_numeral`: `numeral b x` is one.
- `numeral_length_le`: a number below `b ^ k` takes at most `k` digits.
- `value_numeral_eq_iff`: read in a lower base, a numeral keeps its value only if it has one
  digit.
-/

namespace Numeral

/-- The character of a digit. -/
def digitChar (d : Nat) : UInt8 :=
  if d ≤ 9 then UInt8.ofNat (d + 0x30) else UInt8.ofNat (d - 10 + 0x41)

/-- The digit that a character stands for. -/
def digitValue (c : UInt8) : Option Nat :=
  if 0x30 ≤ c ∧ c ≤ 0x39 then some (c.toNat - 0x30)
  else if 0x41 ≤ c ∧ c ≤ 0x5A then some (c.toNat - 0x41 + 10)
  else none

/-- The positional value of a string of digits. -/
def value (b : Nat) (u : List UInt8) : Nat :=
  u.foldl (fun v c => v * b + (digitValue c).getD 0) 0

/-- `u` is the canonical numeral of `x` in base `b`. -/
structure IsNumeral (b x : Nat) (u : List UInt8) : Prop where
  digits : ∀ c ∈ u, ∃ d < b, digitValue c = some d
  value : value b u = x
  nonempty : u ≠ []
  leading : u.head? = some 0x30 → u = [0x30]

/-- The digits of `x`, the highest first. -/
def digits (b x : Nat) : List Nat := if x = 0 then [0] else (Nat.digits b x).reverse

/-- The numeral of `x`. -/
def numeral (b x : Nat) : List UInt8 := (digits b x).map digitChar

/-! ## Digits and characters -/

theorem digitValue_digitChar {d : Nat} (h : d < 36) : digitValue (digitChar d) = some d := by
  have hall : ∀ d : Fin 36, digitValue (digitChar d) = some d.val := by decide
  exact hall ⟨d, h⟩

theorem digitChar_ne_zero {d : Nat} (h : d < 36) : digitChar d ≠ 0 := by
  have hall : ∀ d : Fin 36, digitChar d ≠ 0 := by decide
  exact hall ⟨d, h⟩

/-- Horner's scheme, from any value on. -/
theorem foldl_horner (b : Nat) (ds : List Nat) (v : Nat) :
    ds.foldl (fun v d => v * b + d) v = v * b ^ ds.length + Nat.ofDigits b ds.reverse := by
  induction ds generalizing v with
  | nil => simp
  | cons d ds ih =>
    rw [List.foldl_cons, ih, List.reverse_cons, Nat.ofDigits_append, Nat.ofDigits_singleton,
      List.length_reverse, List.length_cons, pow_succ]
    ring

theorem value_map {b : Nat} {ds : List Nat} (h : ∀ d ∈ ds, d < 36) :
    value b (ds.map digitChar) = Nat.ofDigits b ds.reverse := by
  have hfold : ∀ v, (ds.map digitChar).foldl (fun v c => v * b + (digitValue c).getD 0) v =
      ds.foldl (fun v d => v * b + d) v := by
    intro v
    induction ds generalizing v with
    | nil => rfl
    | cons d ds ih =>
      rw [List.map_cons, List.foldl_cons, List.foldl_cons, digitValue_digitChar (h d List.mem_cons_self)]
      exact ih (fun d hd => h d (List.mem_cons_of_mem _ hd)) _
  rw [value, hfold, foldl_horner, Nat.zero_mul, Nat.zero_add]

/-! ## The numeral -/

variable {b x : Nat}

theorem digits_lt (hb : 1 < b) {d : Nat} (hd : d ∈ digits b x) : d < b := by
  rw [digits] at hd
  split at hd
  · rw [List.mem_singleton.mp hd]
    omega
  · exact Nat.digits_lt_base hb (List.mem_reverse.mp hd)

theorem ofDigits_digits (b x : Nat) : Nat.ofDigits b (digits b x).reverse = x := by
  rw [digits]
  split
  · next h => simp [h]
  · rw [List.reverse_reverse, Nat.ofDigits_digits]

theorem digits_ne_nil (b x : Nat) : digits b x ≠ [] := by
  rw [digits]
  split
  · exact List.cons_ne_nil _ _
  · next h =>
    rw [ne_eq, List.reverse_eq_nil_iff]
    exact Nat.digits_ne_nil_iff_ne_zero.mpr h

/-- A leading zero stands alone. -/
theorem digits_head (b x : Nat) (h : (digits b x).head? = some 0) : digits b x = [0] := by
  rw [digits] at h ⊢
  split
  · rfl
  · next hx =>
    rw [if_neg hx, List.head?_reverse, List.getLast?_eq_getLast_of_ne_nil
      (Nat.digits_ne_nil_iff_ne_zero.mpr hx)] at h
    exact absurd (Option.some.inj h) (Nat.getLast_digit_ne_zero b hx)

/-- **The numeral is canonical.** -/
theorem isNumeral_numeral (hb : 1 < b) (hb36 : b ≤ 36) : IsNumeral b x (numeral b x) := by
  have hlt : ∀ d ∈ digits b x, d < 36 := fun d hd => lt_of_lt_of_le (digits_lt hb hd) hb36
  constructor
  · intro c hc
    obtain ⟨d, hd, rfl⟩ := List.mem_map.mp hc
    exact ⟨d, digits_lt hb hd, digitValue_digitChar (hlt d hd)⟩
  · rw [numeral, value_map hlt, ofDigits_digits]
  · rw [numeral, ne_eq, List.map_eq_nil_iff]
    exact digits_ne_nil b x
  · intro hhead
    rw [numeral, List.head?_map] at hhead
    obtain ⟨d, hd, hchar⟩ := Option.map_eq_some_iff.mp hhead
    have hzero : d = 0 := by
      have hvalue := digitValue_digitChar (hlt d (List.mem_of_mem_head? hd))
      rw [hchar] at hvalue
      exact (Option.some.inj hvalue).symm
    rw [numeral, digits_head b x (hzero ▸ hd)]
    rfl

theorem zero_not_mem_numeral (hb : 1 < b) (hb36 : b ≤ 36) : 0 ∉ numeral b x := by
  intro h
  obtain ⟨d, hd, hchar⟩ := List.mem_map.mp h
  exact digitChar_ne_zero (lt_of_lt_of_le (digits_lt hb hd) hb36) hchar

/-- A number below `b ^ k` takes at most `k` digits. -/
theorem numeral_length_le {k : Nat} (hb : 1 < b) (hk : 0 < k) (h : x < b ^ k) :
    (numeral b x).length ≤ k := by
  rw [numeral, List.length_map, digits]
  split
  · exact hk
  · rw [List.length_reverse]
    exact (Nat.digits_length_le_iff hb x).mpr h

/-- The digits of `x` read in a lower base make a smaller number, unless there is only one. -/
theorem ofDigits_lower {a : Nat} (hab : a < b) (hb : 1 < b) :
    Nat.ofDigits a (Nat.digits b x) ≤ x ∧ (Nat.ofDigits a (Nat.digits b x) = x ↔ x < b) := by
  have hle : ∀ y, Nat.ofDigits a (Nat.digits b y) ≤ y := fun y =>
    (Nat.ofDigits_monotone _ hab.le).trans_eq (Nat.ofDigits_digits b y)
  refine ⟨hle x, ?_⟩
  by_cases hx : x = 0
  · subst hx
    simp only [Nat.digits_zero, Nat.ofDigits_nil, true_iff]
    omega
  · rw [Nat.digits_def' hb (Nat.pos_of_ne_zero hx), Nat.ofDigits_cons]
    have hdiv := Nat.mod_add_div x b
    have htop := hle (x / b)
    constructor
    · intro he
      -- the digits behind the lowest have lost weight
      by_contra hbx
      have hpos : 0 < x / b := Nat.div_pos (not_lt.mp hbx) (by omega)
      have h1 : a * Nat.ofDigits a (Nat.digits b (x / b)) ≤ a * (x / b) := Nat.mul_le_mul_left a htop
      have h2 : a * (x / b) < b * (x / b) := Nat.mul_lt_mul_of_pos_right hab hpos
      omega
    · intro hxb
      rw [Nat.div_eq_of_lt hxb, Nat.mod_eq_of_lt hxb]
      simp

/-- **A numeral read in a lower base** keeps its value only if it has one digit. -/
theorem value_numeral_eq_iff {a : Nat} (hab : a < b) (hb : 1 < b) (hb36 : b ≤ 36) :
    value a (numeral b x) ≤ x ∧ (value a (numeral b x) = x ↔ x < b) := by
  have hlt : ∀ d ∈ digits b x, d < 36 := fun d hd => lt_of_lt_of_le (digits_lt hb hd) hb36
  have hdigits : Nat.ofDigits a (digits b x).reverse = Nat.ofDigits a (Nat.digits b x) := by
    rw [digits]
    split
    · next h => simp [h]
    · rw [List.reverse_reverse]
  rw [numeral, value_map hlt, hdigits]
  exact ofDigits_lower hab hb

end Numeral
