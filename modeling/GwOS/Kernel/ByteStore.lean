import GwOS.Kernel.Frames

/-!
# Bytes in memory

The tables and the pages are handled by words. A program is copied into its pages byte by
byte, so this module has the bytes of a word, the lowest first, and the store of one byte and
of several in a row.
-/

namespace GwOS

/-! ## The bytes of a word -/

/-- Byte `i` of a word, from the lowest on. -/
def wordByte (w : Addr) (i : Nat) : UInt8 := ⟨w.extractLsb' (8 * i) 8⟩

/-- The word with byte `i` replaced. -/
def setWordByte (w : Addr) (i : Nat) (b : UInt8) : Addr :=
  (w &&& ~~~((0xff : Addr) <<< (8 * i))) ||| (b.toBitVec.zeroExtend 32 <<< (8 * i))

theorem getLsbD_setWordByte (w : Addr) (i : Nat) (b : UInt8) {j : Nat} (hj : j < 32) :
    (setWordByte w i b).getLsbD j =
      if 8 * i ≤ j ∧ j < 8 * i + 8 then b.toBitVec.getLsbD (j - 8 * i) else w.getLsbD j := by
  have hmask : ∀ k, k < 32 → (0xff : Addr).getLsbD k = decide (k < 8) := by decide
  rw [setWordByte, BitVec.getLsbD_or, BitVec.getLsbD_and, BitVec.getLsbD_not, BitVec.getLsbD_shiftLeft,
    BitVec.getLsbD_shiftLeft]
  by_cases hlow : j < 8 * i
  · rw [if_neg (by omega)]
    simp [hj, hlow]
  · rw [hmask _ (by omega)]
    by_cases hhigh : j < 8 * i + 8
    · rw [if_pos (by omega)]
      simp [hj, hlow, show j - 8 * i < 8 by omega, show j - 8 * i < 32 by omega]
    · rw [if_neg (by omega)]
      have hnone : b.toBitVec.getLsbD (j - 8 * i) = false := BitVec.getLsbD_of_ge _ _ (by omega)
      simp [hj, hlow, hnone, show ¬ j - 8 * i < 8 by omega]

theorem wordByte_setWordByte (w : Addr) {j : Nat} (hj : j < 4) (i : Nat) (b : UInt8) :
    wordByte (setWordByte w i b) j = if j = i then b else wordByte w j := by
  apply UInt8.toBitVec_inj.mp
  apply BitVec.eq_of_getLsbD_eq
  intro k hk
  have hbit : (wordByte (setWordByte w i b) j).toBitVec.getLsbD k =
      (setWordByte w i b).getLsbD (8 * j + k) := by
    simp [wordByte, hk]
  rw [hbit, getLsbD_setWordByte w i b (by omega)]
  by_cases he : j = i
  · rw [if_pos he, if_pos (by omega), he, Nat.add_sub_cancel_left]
  · rw [if_neg he, if_neg (by omega)]
    simp [wordByte, hk]

/-! ## The bytes of a page -/

/-- The byte at the offset of `v` in a page. -/
def pageByte (p : Page) (v : Addr) : UInt8 := wordByte (p (wordIdx v)) (v.toNat % 4)

/-- The page with the byte at the offset of `v` replaced. -/
def setPageByte (p : Page) (v : Addr) (b : UInt8) : Page :=
  Function.update p (wordIdx v) (setWordByte (p (wordIdx v)) (v.toNat % 4) b)

theorem wordIdx_toNat (v : Addr) : (wordIdx v).toNat = v.toNat % 4096 / 4 := by
  rw [wordIdx, BitVec.extractLsb'_toNat, Nat.shiftRight_eq_div_pow]
  omega

/-- Two addresses that differ in the page and in the offset alike are one. -/
theorem addr_ext {v w : Addr} (hp : pageOf w = pageOf v) (ho : offsetOf w = offsetOf v) : w = v := by
  rw [← addrOf_pageOf w, hp, ho, addrOf_pageOf]

theorem pageByte_setPageByte (p : Page) (v w : Addr) (b : UInt8) :
    pageByte (setPageByte p v b) w = if offsetOf w = offsetOf v then b else pageByte p w := by
  have hoff : offsetOf w = offsetOf v ↔ w.toNat % 4096 = v.toNat % 4096 := by
    rw [← BitVec.toNat_inj, offsetOf_toNat, offsetOf_toNat]
  have hidx : wordIdx w = wordIdx v ↔ w.toNat % 4096 / 4 = v.toNat % 4096 / 4 := by
    rw [← BitVec.toNat_inj, wordIdx_toNat, wordIdx_toNat]
  rw [pageByte, setPageByte]
  by_cases hword : wordIdx w = wordIdx v
  · have hsame := hidx.mp hword
    rw [hword, Function.update_self, wordByte_setWordByte _ (by omega), pageByte, hword]
    refine if_congr ?_ rfl rfl
    rw [hoff]
    omega
  · have hdiff := mt hidx.mpr hword
    rw [Function.update_of_ne hword, if_neg (mt hoff.mp (by omega)), pageByte]

/-! ## Stores -/

namespace Machine

/-- The byte at `v`, if its page is mapped. -/
def byteAt (s : Machine) (v : Addr) : Option UInt8 := (s.walk v).map fun f => pageByte (s.mem f) v

/-- Writes the byte at `v`. -/
def storeByte (s : Machine) (v : Addr) (b : UInt8) : Except Fault Machine :=
  match s.walk v with
  | none => .error .pageFault
  | some f => .ok (s.setFrame f (setPageByte (s.mem f) v b))

/-- Writes the bytes from `v` on, one after the other. -/
def storeBytes (s : Machine) (v : Addr) : List UInt8 → Except Fault Machine
  | [] => .ok s
  | b :: bs => do
    let s ← s.storeByte v b
    s.storeBytes (v + 1) bs

end Machine

end GwOS
