import GwOS.Kernel.Debug
import Mathlib.Data.List.Basic

/-!
# Bitmaps (`lib/kernel/bitmap.c`)

A bitmap is an array of `len` bytes, and bit `i` is bit `i % 8` of byte `i / 8`. The
pools, the virtual addresses and the pids are all given out through one.

- `bit` is what a bitmap means: a predicate on indices.
- `bitmapSetIdx_ok` and `bitmapApplyCnt_ok` say what the two operations do to it. The
  search compares the index with `len - cnt`, a number of *bytes*, so it looks at the
  first eighth of the bits only.
-/

namespace GwOS

/-- `struct bitmap`. -/
structure Bitmap where
  bits : List UInt8
  deriving DecidableEq, Repr

namespace Bitmap

/-- The field `len`, in bytes. -/
def len (mp : Bitmap) : Nat := mp.bits.length

/-- The bit at `idx`. -/
def bit (mp : Bitmap) (idx : Nat) : Bool :=
  match mp.bits[idx / 8]? with
  | none => false
  | some b => b.toBitVec.getLsbD (idx % 8)

end Bitmap

/-! ## The operations -/

/-- `1 << idx_bit`. -/
def bitMask (idx : Nat) : UInt8 := 1 <<< UInt8.ofNat (idx % 8)

/-- `bitmap_init`, on an array of `len` bytes. -/
def bitmapInit (len : Nat) : Bitmap := ⟨List.replicate len 0⟩

/-- `bitmap_check_idx`. -/
def bitmapCheckIdx (mp : Bitmap) (idx : Nat) : Except Fault Bool :=
  match mp.bits[idx / 8]? with
  | none => .error .outOfBounds
  | some b => .ok (b &&& bitMask idx != 0)

/-- `bitmap_set_idx`. The source does not look at `len`; an index behind the bitmap is reported. -/
def bitmapSetIdx (mp : Bitmap) (idx : Nat) (value : UInt8) : Except Fault Bitmap :=
  if value = 0 ∨ value = 1 then
    match mp.bits[idx / 8]? with
    | none => .error .outOfBounds
    | some b =>
      .ok ⟨mp.bits.set (idx / 8) (if value = 0 then b &&& ~~~bitMask idx else b ||| bitMask idx)⟩
  else .error .assert

/-- The inner loop of `bitmap_apply_cnt`: whether the `n` bits from `idx` on are all zero. -/
def bitmapFreeRun (mp : Bitmap) : (n idx : Nat) → Except Fault Bool
  | 0, _ => .ok true
  | n + 1, idx => do
    if ← bitmapCheckIdx mp idx then .ok false
    else bitmapFreeRun mp n (idx + 1)

/-- The outer loop of `bitmap_apply_cnt`, with `n` rounds to go from `i` on. -/
def bitmapApplyFrom (mp : Bitmap) (cnt : Nat) : (n i : Nat) → Except Fault (Option Nat)
  | 0, _ => .ok none
  | n + 1, i => do
    if ← bitmapCheckIdx mp i then bitmapApplyFrom mp cnt n (i + 1)
    else if ← bitmapFreeRun mp (cnt - 1) (i + 1) then .ok (some i)
    else bitmapApplyFrom mp cnt n (i + 1)

/-- `bitmap_apply_cnt`; the result `-1` is `none`. The bound `mp->len - cnt` of the loop is
a `uint32_t`. -/
def bitmapApplyCnt (mp : Bitmap) (cnt : Nat) : Except Fault (Option Nat) :=
  bitmapApplyFrom mp cnt ((mp.len + 2 ^ 32 - cnt) % 2 ^ 32) 0

/-! ## One bit -/

theorem bitMask_toBitVec (idx : Nat) : (bitMask idx).toBitVec = BitVec.twoPow 8 (idx % 8) := by
  have h : ∀ k < 8, (1 <<< UInt8.ofNat k : UInt8).toBitVec = BitVec.twoPow 8 k := by decide
  exact h _ (Nat.mod_lt _ (by decide))

theorem and_bitMask (b : UInt8) (idx : Nat) :
    (b &&& bitMask idx != 0) = b.toBitVec.getLsbD (idx % 8) := by
  have hk : idx % 8 < 8 := Nat.mod_lt _ (by decide)
  have hne : (BitVec.twoPow 8 (idx % 8)) ≠ 0#8 := by
    intro h
    have hbit : (BitVec.twoPow 8 (idx % 8)).getLsbD (idx % 8) = true := by simp [hk]
    rw [h] at hbit
    simp at hbit
  have hmask : (b &&& bitMask idx = 0) ↔ b.toBitVec.getLsbD (idx % 8) = false := by
    rw [← UInt8.toBitVec_inj, UInt8.toBitVec_and, bitMask_toBitVec, BitVec.and_twoPow]
    split
    · next h => simp [h, hne]
    · next h => simp [h]
  cases hb : b.toBitVec.getLsbD (idx % 8) with
  | false => simp [hmask.mpr hb]
  | true =>
    have h0 : b &&& bitMask idx ≠ 0 := fun h => by simp [hmask.mp h] at hb
    simp [h0]

namespace Bitmap

theorem bit_of_ge {mp : Bitmap} {idx : Nat} (h : 8 * mp.len ≤ idx) : mp.bit idx = false := by
  have hnone : mp.bits[idx / 8]? = none := List.getElem?_eq_none (by
    rw [Nat.le_div_iff_mul_le (by decide)]
    have : mp.bits.length = mp.len := rfl
    omega)
  simp only [bit, hnone]

@[simp] theorem bit_init (len idx : Nat) : (bitmapInit len).bit idx = false := by
  simp only [bit, bitmapInit, List.getElem?_replicate]
  split
  · rfl
  · next h =>
    split at h
    · cases h
      simp
    · cases h

@[simp] theorem len_init (len : Nat) : (bitmapInit len).len = len := by
  simp [bitmapInit, Bitmap.len]

theorem getElem?_byte {mp : Bitmap} {idx : Nat} (h : idx < 8 * mp.len) :
    ∃ b, mp.bits[idx / 8]? = some b := by
  have hlt : idx / 8 < mp.bits.length := by
    rw [Nat.div_lt_iff_lt_mul (by decide), Nat.mul_comm]
    exact h
  exact ⟨_, List.getElem?_eq_getElem hlt⟩

end Bitmap

theorem bitmapCheckIdx_ok {mp : Bitmap} {idx : Nat} (h : idx < 8 * mp.len) :
    bitmapCheckIdx mp idx = .ok (mp.bit idx) := by
  obtain ⟨b, hb⟩ := Bitmap.getElem?_byte h
  simp only [bitmapCheckIdx, Bitmap.bit, hb, and_bitMask]

/-- `bitmap_set_idx` sets the bit at `idx` and no other. -/
theorem bitmapSetIdx_ok {mp : Bitmap} {idx : Nat} (h : idx < 8 * mp.len) (v : Bool) :
    ∃ mp', bitmapSetIdx mp idx (if v then 1 else 0) = .ok mp' ∧ mp'.len = mp.len ∧
      ∀ j, mp'.bit j = if j = idx then v else mp.bit j := by
  obtain ⟨b, hb⟩ := Bitmap.getElem?_byte h
  have hlt : idx / 8 < mp.bits.length := by
    rw [Nat.div_lt_iff_lt_mul (by decide), Nat.mul_comm]
    exact h
  have hk : idx % 8 < 8 := Nat.mod_lt _ (by decide)
  refine ⟨⟨mp.bits.set (idx / 8) (if v then b ||| bitMask idx else b &&& ~~~bitMask idx)⟩, ?_, ?_,
    fun j => ?_⟩
  · cases v <;> simp [bitmapSetIdx, hb]
  · simp [Bitmap.len]
  · have hj : j % 8 < 8 := Nat.mod_lt _ (by decide)
    by_cases hbyte : j / 8 = idx / 8
    · -- the byte that is written: the mask decides which of its bits changes
      have hsame : (idx % 8 = j % 8) ↔ j = idx := by omega
      have hold : mp.bit j = b.toBitVec.getLsbD (j % 8) := by
        simp only [Bitmap.bit, hbyte, hb]
      rw [hold]
      simp only [Bitmap.bit, hbyte, List.getElem?_set_self hlt]
      cases v with
      | true =>
        simp only [if_true, UInt8.toBitVec_or, bitMask_toBitVec, BitVec.getLsbD_or,
          BitVec.getLsbD_twoPow, hk, hsame, decide_true, Bool.true_and]
        by_cases he : j = idx <;> simp [he]
      | false =>
        simp only [Bool.false_eq_true, if_false, UInt8.toBitVec_and, UInt8.toBitVec_not,
          bitMask_toBitVec, BitVec.getLsbD_and, BitVec.getLsbD_not, BitVec.getLsbD_twoPow, hk, hj,
          hsame, decide_true, Bool.true_and]
        by_cases he : j = idx <;> simp [he]
    · have hne : j ≠ idx := fun he => hbyte (by rw [he])
      simp only [Bitmap.bit, List.getElem?_set_ne fun he => hbyte he.symm, hne, if_false]

/-- A `bitmap_set_idx` that returns has found the bit. -/
theorem bitmapSetIdx_returns (mp : Bitmap) (idx : Nat) (v : Bool) :
    Returns (bitmapSetIdx mp idx (if v then 1 else 0)) fun mp' =>
      idx < 8 * mp.len ∧ mp'.len = mp.len ∧ ∀ j, mp'.bit j = if j = idx then v else mp.bit j := by
  intro mp' h
  have hidx : idx < 8 * mp.len := by
    by_contra hge
    have hnone : mp.bits[idx / 8]? = none := List.getElem?_eq_none (by
      have hlen : mp.bits.length = mp.len := rfl
      omega)
    rw [bitmapSetIdx, hnone] at h
    split at h <;> cases h
  obtain ⟨mp1, h1, hlen, hbit⟩ := bitmapSetIdx_ok hidx v
  cases h1.symm.trans h
  exact ⟨hidx, hlen, hbit⟩

/-! ## The search -/

/-- The `cnt` bits from `idx` on are zero. -/
def Bitmap.FreeAt (mp : Bitmap) (idx cnt : Nat) : Prop := ∀ k < cnt, mp.bit (idx + k) = false

theorem Bitmap.freeAt_succ {mp : Bitmap} {idx n : Nat} :
    mp.FreeAt idx (n + 1) ↔ mp.bit idx = false ∧ mp.FreeAt (idx + 1) n := by
  constructor
  · intro h
    refine ⟨h 0 (Nat.succ_pos n), fun k hk => ?_⟩
    rw [Nat.add_assoc, Nat.add_comm 1 k]
    exact h (k + 1) (Nat.succ_lt_succ hk)
  · rintro ⟨h0, h⟩ k hk
    cases k with
    | zero => exact h0
    | succ k =>
      rw [Nat.add_comm k 1, ← Nat.add_assoc]
      exact h k (Nat.lt_of_succ_lt_succ hk)

theorem bitmapFreeRun_ok {mp : Bitmap} : ∀ {n idx : Nat}, idx + n ≤ 8 * mp.len →
    ∃ r, bitmapFreeRun mp n idx = .ok r ∧ (r = true ↔ mp.FreeAt idx n)
  | 0, idx, _ => ⟨true, rfl, ⟨fun _ k hk => absurd hk (Nat.not_lt_zero k), fun _ => rfl⟩⟩
  | n + 1, idx, h => by
    have hcheck : bitmapCheckIdx mp idx = .ok (mp.bit idx) := bitmapCheckIdx_ok (by omega)
    cases hb : mp.bit idx with
    | true =>
      refine ⟨false, ?_, ?_⟩
      · rw [bitmapFreeRun, hcheck, hb]
        rfl
      · simp [Bitmap.freeAt_succ, hb]
    | false =>
      obtain ⟨r, hr, hiff⟩ : ∃ r, bitmapFreeRun mp n (idx + 1) = .ok r ∧
          (r = true ↔ mp.FreeAt (idx + 1) n) := bitmapFreeRun_ok (by omega)
      refine ⟨r, ?_, ?_⟩
      · rw [bitmapFreeRun, hcheck, hb]
        exact hr
      · simp [Bitmap.freeAt_succ, hb, hiff]

/-- What the search may answer when it looks at the indices of `[i, i + n)`. -/
def Bitmap.Found (mp : Bitmap) (cnt i n : Nat) : Option Nat → Prop
  | some j => i ≤ j ∧ j < i + n ∧ mp.FreeAt j cnt
  | none => ∀ j, i ≤ j → j < i + n → ¬ mp.FreeAt j cnt

theorem Bitmap.Found.step {mp : Bitmap} {cnt i n : Nat} {r : Option Nat}
    (h : mp.Found cnt (i + 1) n r) (hi : ¬ mp.FreeAt i cnt) : mp.Found cnt i (n + 1) r := by
  cases r with
  | some j => exact ⟨by have := h.1; omega, by have := h.2.1; omega, h.2.2⟩
  | none =>
    intro j hij hj
    by_cases he : j = i
    · rw [he]
      exact hi
    · exact h j (by omega) (by omega)

theorem bitmapApplyFrom_ok {mp : Bitmap} {cnt : Nat} (hcnt : 1 ≤ cnt) : ∀ {n i : Nat},
    i + n + cnt ≤ 8 * mp.len + 1 →
    ∃ r, bitmapApplyFrom mp cnt n i = .ok r ∧ mp.Found cnt i n r
  | 0, i, _ => ⟨none, rfl, fun j hj hlt => absurd hlt (by omega)⟩
  | n + 1, i, h => by
    obtain ⟨c, rfl⟩ : ∃ c, cnt = c + 1 := ⟨cnt - 1, by omega⟩
    obtain ⟨r, hr, hfound⟩ : ∃ r, bitmapApplyFrom mp (c + 1) n (i + 1) = .ok r ∧
        mp.Found (c + 1) (i + 1) n r := bitmapApplyFrom_ok hcnt (by omega)
    have hcheck : bitmapCheckIdx mp i = .ok (mp.bit i) := bitmapCheckIdx_ok (by omega)
    cases hb : mp.bit i with
    | true =>
      refine ⟨r, ?_, hfound.step ?_⟩
      · rw [bitmapApplyFrom, hcheck, hb]
        exact hr
      · rw [Bitmap.freeAt_succ, hb]
        exact fun hfree => absurd hfree.1 (by decide)
    | false =>
      obtain ⟨f, hf, hiff⟩ : ∃ f, bitmapFreeRun mp c (i + 1) = .ok f ∧
          (f = true ↔ mp.FreeAt (i + 1) c) := bitmapFreeRun_ok (by omega)
      cases f with
      | true =>
        refine ⟨some i, ?_, Nat.le_refl i, by omega, ?_⟩
        · rw [bitmapApplyFrom, hcheck, hb]
          simp only [Nat.add_sub_cancel]
          rw [hf]
          rfl
        · exact Bitmap.freeAt_succ.mpr ⟨hb, hiff.mp rfl⟩
      | false =>
        refine ⟨r, ?_, hfound.step ?_⟩
        · rw [bitmapApplyFrom, hcheck, hb]
          simp only [Nat.add_sub_cancel]
          rw [hf]
          exact hr
        · rw [Bitmap.freeAt_succ]
          exact fun hfree => absurd (hiff.mpr hfree.2) (by decide)

/-- `bitmap_apply_cnt` finds a free run among those that start below `len - cnt`, when there
is one, and answers `-1` when there is none. -/
theorem bitmapApplyCnt_ok {mp : Bitmap} {cnt : Nat} (hcnt : 1 ≤ cnt) (hle : cnt ≤ mp.len)
    (hlen : mp.len < 2 ^ 32) :
    ∃ r, bitmapApplyCnt mp cnt = .ok r ∧ mp.Found cnt 0 (mp.len - cnt) r := by
  have hbound : (mp.len + 2 ^ 32 - cnt) % 2 ^ 32 = mp.len - cnt := by
    have hsub : mp.len + 2 ^ 32 - cnt = (mp.len - cnt) + 2 ^ 32 := by omega
    rw [hsub, Nat.add_mod_right]
    exact Nat.mod_eq_of_lt (by omega)
  rw [bitmapApplyCnt, hbound]
  exact bitmapApplyFrom_ok hcnt (by omega)

end GwOS
