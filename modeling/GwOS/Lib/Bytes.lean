import Mathlib.Data.Fintype.Pi

/-!
# Byte buffers

A fixed-size byte buffer as a function on its index type, with reads and writes
at natural-number indices the way C code writes them. Two buffers are equal iff
they agree at every index below their size, so "this buffer did not change" is
plain equality and there is no junk beyond the end to reason about.

A read past the end yields `0` and a write past the end changes nothing: the
overrunning store of a C program lands outside the buffer, hence outside the
state this library describes.

The last section relates the mask-and-shift idioms on bytes to division and
remainder, which is the form in which `omega` can finish codec proofs.
-/

/-- A byte buffer of `n` cells. -/
def Bytes (n : Nat) : Type := Fin n → UInt8

namespace Bytes

variable {n : Nat}

instance : DecidableEq (Bytes n) := inferInstanceAs (DecidableEq (Fin n → UInt8))

/-- `buff[i]`. -/
def get (b : Bytes n) (i : Nat) : UInt8 :=
  if h : i < n then b ⟨i, h⟩ else 0

/-- `buff[i] = v`. -/
def set (b : Bytes n) (i : Nat) (v : UInt8) : Bytes n :=
  fun j => if j.val = i then v else b j

/-- The all-zero buffer (`memset(buff, 0, sizeof(buff))`). -/
def zero (n : Nat) : Bytes n := fun _ => 0

/-- The buffer holding `f i` at index `i`. -/
def ofFn (f : Nat → UInt8) : Bytes n := fun j => f j.val

theorem ext_get {a b : Bytes n} (h : ∀ i, i < n → a.get i = b.get i) : a = b := by
  funext j
  have hj := h j.val j.isLt
  simpa [get, j.isLt] using hj

@[simp] theorem get_zero (i : Nat) : (zero n).get i = 0 := by
  unfold get zero
  split <;> rfl

theorem get_ofFn (f : Nat → UInt8) {i : Nat} (h : i < n) :
    (ofFn f : Bytes n).get i = f i := by
  simp [get, ofFn, h]

theorem get_set (b : Bytes n) {i j : Nat} (v : UInt8) (hi : i < n) :
    (b.set i v).get j = if j = i then v else b.get j := by
  unfold get set
  by_cases hj : j < n
  · simp [hj]
  · have hne : j ≠ i := fun h => hj (h ▸ hi)
    simp [hj, hne]

@[simp] theorem get_set_self (b : Bytes n) {i : Nat} (v : UInt8) (hi : i < n) :
    (b.set i v).get i = v := by
  rw [get_set b v hi, if_pos rfl]

@[simp] theorem get_set_ne (b : Bytes n) {i j : Nat} (v : UInt8) (h : j ≠ i) :
    (b.set i v).get j = b.get j := by
  unfold get set
  by_cases hj : j < n
  · simp [hj, h]
  · simp [hj]

/-! ## Copying a run of bytes -/

/-- `for (j = 0; j < k; j++) buff[st + j] = f(j)`. -/
def setRange (b : Bytes n) (st : Nat) (f : Nat → UInt8) : Nat → Bytes n
  | 0 => b
  | k + 1 => (setRange b st f k).set (st + k) (f k)

theorem get_setRange_of_lt (b : Bytes n) (st : Nat) (f : Nat → UInt8) :
    ∀ {k j : Nat}, j < k → st + k ≤ n → (b.setRange st f k).get (st + j) = f j
  | 0, _, hj, _ => absurd hj (Nat.not_lt_zero _)
  | k + 1, j, hj, hk => by
    unfold setRange
    by_cases h : j = k
    · subst h
      exact get_set_self _ _ (by omega)
    · rw [get_set_ne _ _ (by omega : st + j ≠ st + k)]
      exact get_setRange_of_lt b st f (by omega) (by omega)

theorem get_setRange_of_not_mem (b : Bytes n) (st : Nat) (f : Nat → UInt8) {i : Nat} :
    ∀ {k : Nat}, (i < st ∨ st + k ≤ i) → (b.setRange st f k).get i = b.get i
  | 0, _ => rfl
  | k + 1, h => by
    unfold setRange
    rw [get_set_ne _ _ (by omega : i ≠ st + k)]
    exact get_setRange_of_not_mem b st f (by omega)

/-! ## Checked accesses

`read?` and `write?` are the accesses that the C code means: there is no result for an index
behind the end. -/

/-- `buff[i]`, when `i` is inside the buffer. -/
def read? (b : Bytes n) (i : Nat) : Option UInt8 := if i < n then some (b.get i) else none

/-- `buff[i] = v`, when `i` is inside the buffer. -/
def write? (b : Bytes n) (i : Nat) (v : UInt8) : Option (Bytes n) :=
  if i < n then some (b.set i v) else none

theorem read?_of_lt (b : Bytes n) {i : Nat} (h : i < n) : b.read? i = some (b.get i) := if_pos h

theorem write?_of_lt (b : Bytes n) {i : Nat} (v : UInt8) (h : i < n) :
    b.write? i v = some (b.set i v) := if_pos h

theorem write?_of_le (b : Bytes n) {i : Nat} (v : UInt8) (h : n ≤ i) : b.write? i v = none :=
  if_neg (Nat.not_lt.mpr h)

/-- The position of the first zero byte (`strlen`). -/
def strlen? (b : Bytes n) : Option Nat := (List.range n).find? fun i => b.get i = 0

theorem strlen?_eq {b : Bytes n} {len : Nat} (hlen : len < n) (hend : b.get len = 0)
    (hne : ∀ j < len, b.get j ≠ 0) : b.strlen? = some len := by
  refine List.find?_range_eq_some.mpr ⟨by simpa using hend, List.mem_range.mpr hlen, fun j hj => ?_⟩
  simpa using hne j hj

/-- `for (; k > 0; k--) dst[len++] = f(src[i++])`. -/
def copy? {m : Nat} (f : UInt8 → UInt8) (src : Bytes m) : Nat → Nat → Bytes n → Nat → Option (Bytes n)
  | 0, _, dst, _ => some dst
  | k + 1, i, dst, len => do
    let v ← src.read? i
    let dst ← dst.write? len (f v)
    copy? f src k (i + 1) dst (len + 1)

/-- A copy inside both buffers. -/
theorem copy?_ok {m : Nat} (f : UInt8 → UInt8) (src : Bytes m) : ∀ (k i : Nat) (dst : Bytes n)
    (len : Nat), i + k ≤ m → len + k ≤ n → ∃ dst', copy? f src k i dst len = some dst' ∧
      (∀ j < k, dst'.get (len + j) = f (src.get (i + j))) ∧
      ∀ j, (j < len ∨ len + k ≤ j) → dst'.get j = dst.get j
  | 0, _, dst, _, _, _ => ⟨dst, rfl, fun _ hj => absurd hj (Nat.not_lt_zero _), fun _ _ => rfl⟩
  | k + 1, i, dst, len, hi, hlen => by
    obtain ⟨dst', hcopy, hin, hout⟩ := copy?_ok f src k (i + 1) (dst.set len (f (src.get i)))
      (len + 1) (by omega) (by omega)
    refine ⟨dst', ?_, fun j hj => ?_, fun j hj => ?_⟩
    · rw [copy?, read?_of_lt src (by omega)]
      show (dst.write? len (f (src.get i)) >>= _) = _
      rw [write?_of_lt dst _ (by omega)]
      exact hcopy
    · cases j with
      | zero =>
        rw [Nat.add_zero, Nat.add_zero, hout len (.inl (Nat.lt_succ_self len)),
          get_set_self _ _ (by omega)]
      | succ j =>
        have hnext := hin j (by omega)
        rw [show len + (j + 1) = len + 1 + j by omega, hnext, show i + 1 + j = i + (j + 1) by omega]
    · rw [hout j (by omega), get_set_ne _ _ (by omega)]

/-- `for (; k > 0; k--) dst[len++] = v`. -/
def fill? (v : UInt8) : Nat → Bytes n → Nat → Option (Bytes n)
  | 0, dst, _ => some dst
  | k + 1, dst, len => dst.write? len v >>= fun dst => fill? v k dst (len + 1)

theorem fill?_ok (v : UInt8) : ∀ (k : Nat) (dst : Bytes n) (len : Nat), len + k ≤ n →
    ∃ dst', fill? v k dst len = some dst' ∧
      ∀ j, dst'.get j = if len ≤ j ∧ j < len + k then v else dst.get j
  | 0, dst, len, _ => ⟨dst, rfl, fun j => (if_neg (by omega)).symm⟩
  | k + 1, dst, len, hlen => by
    obtain ⟨dst', hfill, hget⟩ := fill?_ok v k (dst.set len v) (len + 1) (by omega)
    refine ⟨dst', ?_, fun j => ?_⟩
    · rw [fill?, write?_of_lt dst _ (by omega)]
      exact hfill
    · rw [hget, get_set _ _ (by omega)]
      by_cases hj : j = len
      · rw [if_neg (by omega), if_pos hj, if_pos (by omega)]
      · rw [if_neg hj]
        by_cases hin : len + 1 ≤ j ∧ j < len + 1 + k
        · rw [if_pos hin, if_pos (by omega)]
        · rw [if_neg hin, if_neg (by omega)]

end Bytes

/-! ## Nibbles -/

namespace Nibble

/-- The low nibble is the remainder by 16. -/
theorem and_low (x : Nat) : x &&& 0b00001111 = x % 16 :=
  Nat.and_two_pow_sub_one_eq_mod x 4

/-- The high nibble of a byte, left in place. -/
theorem and_high (x : UInt8) : x.toNat &&& 0b11110000 = x.toNat / 16 * 16 := by
  have h : ∀ y : Fin 256, y.val &&& 0b11110000 = y.val / 16 * 16 := by decide +kernel
  exact h ⟨x.toNat, x.toNat_lt⟩

theorem shiftLeft_four (x : Nat) : x <<< 4 = x * 16 := by
  rw [Nat.shiftLeft_eq]

theorem shiftLeft_eight (x : Nat) : x <<< 8 = x * 256 := by
  rw [Nat.shiftLeft_eq]

theorem shiftRight_four (x : Nat) : x >>> 4 = x / 16 := by
  rw [Nat.shiftRight_eq_div_pow]

theorem shiftRight_eight (x : Nat) : x >>> 8 = x / 256 := by
  rw [Nat.shiftRight_eq_div_pow]

end Nibble
