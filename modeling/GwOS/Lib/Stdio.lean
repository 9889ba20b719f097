import GwOS.Lib.CString
import GwOS.Lib.Numeral

/-!
# Numbers and formats (`lib/stdio.c`, `lib/kernel/print_c.c`)

`itoa` stores the digits of a number from the lowest to the highest and then swaps them in
place; `put_uint` does the same in a buffer of its own. A store behind the end of a buffer has
no result, and neither has a division by zero.

- `itoa_ok`: what is stored is the numeral, whatever the buffer held before.
-/

namespace GwOS

variable {n : Nat}

/-! ## `itoa` -/

/-- The character of the digit `x % b`. -/
def digitByte (d : UInt32) : UInt8 :=
  if 0 ≤ d ∧ d ≤ 9 then (d + 0x30).toUInt8 else (d - 10 + 0x41).toUInt8

/-- The first loop of `itoa`, for the string that starts at `st`. A 32-bit number has at most
32 digits; in base 1 the loop never ends. -/
def digitLoop (b : UInt32) (st : Nat) : Nat → Bytes n → Nat → UInt32 → Option (Bytes n × Nat)
  | 0, _, _, _ => none
  | k + 1, s, len, x =>
    if x = 0 then some (s, len)
    else if b = 0 then none
    else do
      let s ← s.write? (st + len) (digitByte (x % b))
      digitLoop b st k s (len + 1) (x / b)

/-- The second loop of `itoa`, with `k` swaps left. -/
def swapLoop (st len : Nat) : Nat → Nat → Bytes n → Option (Bytes n)
  | 0, _, s => some s
  | k + 1, i, s => do
    let tmp ← s.read? (st + i)
    let c ← s.read? (st + (len - 1 - i))
    let s ← s.write? (st + i) c
    let s ← s.write? (st + (len - 1 - i)) tmp
    swapLoop st len k (i + 1) s

/-- The digits of `x` from `st` on, the lowest first, and their number. -/
def storeDigits (s : Bytes n) (st : Nat) (x b : UInt32) : Option (Bytes n × Nat) :=
  if x = 0 then do
    let s ← s.write? st 0x30
    digitLoop b st 33 s 1 x
  else digitLoop b st 33 s 0 x

/-- The statements that `itoa` and `put_uint` have in common. -/
def storeNumeral (s : Bytes n) (st : Nat) (x b : UInt32) : Option (Bytes n) := do
  let (s, len) ← storeDigits s st x b
  let s ← s.write? (st + len) 0x00
  swapLoop st len (len / 2) 0 s

/-- `itoa(&s[st], x, b)`. -/
def itoa (s : Bytes n) (st : Nat) (x b : UInt32) : Option (Bytes n) := storeNumeral s st x b

/-- `put_uint`: the string and the attribute that it hands to `put_str`. -/
def putUint (s : Bytes 20) (x b : UInt32) (attr : UInt8) : Option (Bytes 20 × UInt8) := do
  let s ← storeNumeral s 0 x b
  some (s, attr)

theorem digitByte_eq {d : UInt32} (h : d.toNat < 36) : digitByte d = Numeral.digitChar d.toNat := by
  have hall : ∀ d : Fin 36, digitByte (UInt32.ofNat d.val) = Numeral.digitChar d.val := by decide
  have hd := hall ⟨d.toNat, h⟩
  rwa [UInt32.ofNat_toNat] at hd

/-- The first loop stores the digits, the lowest first. -/
theorem digitLoop_ok {b : UInt32} (hb : 1 < b.toNat) (hb36 : b.toNat ≤ 36) (st k : Nat)
    (s : Bytes n) (len : Nat) (x : UInt32) (hk : (Nat.digits b.toNat x.toNat).length < k)
    (hfit : st + len + (Nat.digits b.toNat x.toNat).length ≤ n) :
    ∃ s', digitLoop b st k s len x = some (s', len + (Nat.digits b.toNat x.toNat).length) ∧
      s'.HasAt (st + len) ((Nat.digits b.toNat x.toNat).map Numeral.digitChar) ∧
      ∀ i, (i < st + len ∨ st + len + (Nat.digits b.toNat x.toNat).length ≤ i) →
        s'.get i = s.get i := by
  induction k generalizing s len x with
  | zero => exact absurd hk (Nat.not_lt_zero _)
  | succ k ih =>
    by_cases hx : x = 0
    · subst hx
      refine ⟨s, ?_, ?_, fun _ _ => rfl⟩
      · rw [digitLoop, if_pos rfl]
        simp
      · simpa using Bytes.hasAt_nil
    · have hpos : 0 < x.toNat := by
        rw [Nat.pos_iff_ne_zero]
        exact fun h => hx (UInt32.toNat_inj.mp h)
      have hb0 : b ≠ 0 := by
        rintro rfl
        exact absurd hb (by decide)
      have hmod : (x % b).toNat = x.toNat % b.toNat := UInt32.toNat_mod ..
      have hdiv : (x / b).toNat = x.toNat / b.toNat := UInt32.toNat_div ..
      have hdigit : digitByte (x % b) = Numeral.digitChar (x.toNat % b.toNat) := by
        rw [← hmod]
        refine digitByte_eq ?_
        have := Nat.mod_lt x.toNat (by omega : 0 < b.toNat)
        omega
      have hcons := Nat.digits_def' hb hpos
      rw [← hdiv] at hcons
      rw [hcons, List.length_cons] at hk hfit
      obtain ⟨s', hloop, hdigits, hother⟩ := ih (s.set (st + len) (digitByte (x % b))) (len + 1)
        (x / b) (by omega) (by omega)
      refine ⟨s', ?_, ?_, ?_⟩
      · rw [digitLoop, if_neg hx, if_neg hb0, Bytes.write?_of_lt _ _ (by omega), hcons,
          List.length_cons, ← Nat.add_assoc, Nat.add_right_comm]
        exact hloop
      · rw [hcons, List.map_cons, Bytes.hasAt_cons, hother _ (.inl (by omega)),
          Bytes.get_set_self _ _ (by omega), hdigit]
        exact ⟨rfl, hdigits⟩
      · intro i hi
        rw [hcons, List.length_cons] at hi
        rw [hother i (by omega), Bytes.get_set_ne _ _ (by omega)]

/-- The second loop turns `len` bytes around. After `i` swaps the first and the last `i` of them
are in their new places, and those between are where they were. -/
theorem swapLoop_ok {f : Nat → UInt8} {st len : Nat} (hfit : st + len ≤ n) (k i : Nat)
    (s : Bytes n) (hk : i + k = len / 2)
    (hs : ∀ j < len, s.get (st + j) = f (if j < i ∨ len - i ≤ j then len - 1 - j else j)) :
    ∃ s', swapLoop st len k i s = some s' ∧ (∀ j < len, s'.get (st + j) = f (len - 1 - j)) ∧
      ∀ j, (j < st ∨ st + len ≤ j) → s'.get j = s.get j := by
  induction k generalizing i s with
  | zero =>
    refine ⟨s, rfl, fun j hj => ?_, fun _ _ => rfl⟩
    rw [hs j hj]
    split
    · rfl
    · -- only the middle one of an odd number is left
      rw [show j = len - 1 - j by omega]
      congr 1
      omega
  | succ k ih =>
    have hi : i < len - 1 - i := by omega
    have hleft : s.get (st + i) = f i := by
      rw [hs i (by omega), if_neg (by omega)]
    have hright : s.get (st + (len - 1 - i)) = f (len - 1 - i) := by
      rw [hs _ (by omega), if_neg (by omega)]
    obtain ⟨s', hloop, hturned, hother⟩ := ih (i + 1)
      ((s.set (st + i) (f (len - 1 - i))).set (st + (len - 1 - i)) (f i)) (by omega) (by
        intro j hj
        by_cases hji : j = i
        · subst hji
          rw [Bytes.get_set_ne _ _ (by omega), Bytes.get_set_self _ _ (by omega), if_pos (by omega)]
        · by_cases hjr : j = len - 1 - i
          · subst hjr
            rw [Bytes.get_set_self _ _ (by omega), if_pos (by omega)]
            congr 1
            omega
          · rw [Bytes.get_set_ne _ _ (by omega), Bytes.get_set_ne _ _ (by omega), hs j hj]
            congr 1
            by_cases hout : j < i ∨ len - i ≤ j
            · rw [if_pos hout, if_pos (by omega)]
            · rw [if_neg hout, if_neg (by omega)])
    refine ⟨s', ?_, hturned, fun j hj => ?_⟩
    · rw [swapLoop, Bytes.read?_of_lt _ (by omega), Bytes.read?_of_lt _ (by omega), hleft, hright]
      show ((s.write? (st + i) (f (len - 1 - i))) >>= _) = _
      rw [Bytes.write?_of_lt _ _ (by omega)]
      show (((s.set (st + i) (f (len - 1 - i))).write? (st + (len - 1 - i)) (f i)) >>= _) = _
      rw [Bytes.write?_of_lt _ _ (by omega)]
      exact hloop
    · rw [hother j hj, Bytes.get_set_ne _ _ (by omega), Bytes.get_set_ne _ _ (by omega)]

/-- Up to the end mark, the numeral stands in the buffer the wrong way round. -/
theorem storeDigits_ok {b : UInt32} (hb : 1 < b.toNat) (hb36 : b.toNat ≤ 36) (x : UInt32)
    (s : Bytes n) (st : Nat) (hfit : st + (Numeral.numeral b.toNat x.toNat).length < n) :
    ∃ s', storeDigits s st x b = some (s', (Numeral.numeral b.toNat x.toNat).length) ∧
      s'.HasAt st (Numeral.numeral b.toNat x.toNat).reverse ∧
      ∀ i, (i < st ∨ st + (Numeral.numeral b.toNat x.toNat).length ≤ i) → s'.get i = s.get i := by
  by_cases hx : x = 0
  · subst hx
    have hu : Numeral.numeral b.toNat (0 : UInt32).toNat = [0x30] := rfl
    rw [hu] at hfit ⊢
    rw [List.length_singleton] at hfit
    refine ⟨s.set st 0x30, ?_, ?_, fun i hi => Bytes.get_set_ne _ _ ?_⟩
    · rw [storeDigits, if_pos rfl, Bytes.write?_of_lt _ _ (by omega)]
      show digitLoop b st 33 _ 1 0 = _
      rw [digitLoop, if_pos rfl]
      rfl
    · exact Bytes.hasAt_singleton.mpr (Bytes.get_set_self _ _ (by omega))
    · rw [List.length_singleton] at hi
      omega
  · have hx0 : x.toNat ≠ 0 := fun h => hx (UInt32.toNat_inj.mp h)
    set u := Numeral.numeral b.toNat x.toNat with hu
    have hrev : u.reverse = (Nat.digits b.toNat x.toNat).map Numeral.digitChar := by
      rw [hu, Numeral.numeral, Numeral.digits, if_neg hx0, List.map_reverse, List.reverse_reverse]
    have hlen : u.length = (Nat.digits b.toNat x.toNat).length := by
      rw [← List.length_reverse, hrev, List.length_map]
    have hmax : (Nat.digits b.toNat x.toNat).length ≤ 32 := by
      refine (Nat.digits_length_le_iff hb x.toNat).mpr (lt_of_lt_of_le x.toNat_lt ?_)
      exact Nat.pow_le_pow_left hb 32
    obtain ⟨s', hloop, hbytes, hother⟩ := digitLoop_ok hb hb36 st 33 s 0 x (by omega) (by omega)
    rw [Nat.zero_add, ← hlen] at hloop
    rw [Nat.add_zero, ← hrev] at hbytes
    refine ⟨s', ?_, hbytes, fun i hi => hother i (by omega)⟩
    rw [storeDigits, if_neg hx]
    exact hloop

/-- The swaps turn a list of bytes around. -/
theorem swapLoop_hasAt {u : List UInt8} {st : Nat} {s : Bytes n} (hfit : st + u.length ≤ n)
    (hs : s.HasAt st u.reverse) :
    ∃ s', swapLoop st u.length (u.length / 2) 0 s = some s' ∧ s'.HasAt st u ∧
      ∀ j, (j < st ∨ st + u.length ≤ j) → s'.get j = s.get j := by
  obtain ⟨s', hswap, hturned, hkept⟩ := swapLoop_ok (f := fun j => (u.reverse[j]?).getD 0) hfit
    (u.length / 2) 0 s (Nat.zero_add _) (by
      intro j hj
      have hj' : j < u.reverse.length := by rwa [List.length_reverse]
      rw [if_neg (by omega), List.getElem?_eq_getElem hj', Option.getD_some]
      exact hs j hj')
  refine ⟨s', hswap, fun j hj => ?_, hkept⟩
  have hlast : u.length - 1 - j < u.reverse.length := by
    rw [List.length_reverse]
    omega
  rw [hturned j hj, List.getElem?_eq_getElem hlast, Option.getD_some, List.getElem_reverse]
  congr 1
  omega

/-- **The numeral is stored**, with its end mark, and nothing else changes. -/
theorem storeNumeral_ok {b : UInt32} (hb : 1 < b.toNat) (hb36 : b.toNat ≤ 36) (x : UInt32)
    (s : Bytes n) (st : Nat) (hfit : st + (Numeral.numeral b.toNat x.toNat).length < n) :
    ∃ s', storeNumeral s st x b = some s' ∧ s'.StringAt st (Numeral.numeral b.toNat x.toNat) ∧
      ∀ i, (i < st ∨ st + (Numeral.numeral b.toNat x.toNat).length < i) → s'.get i = s.get i := by
  obtain ⟨s1, hdigits, hbytes, hother⟩ := storeDigits_ok hb hb36 x s st hfit
  set u := Numeral.numeral b.toNat x.toNat
  obtain ⟨s2, hswap, hturned, hkept⟩ := swapLoop_hasAt (s := s1.set (st + u.length) 0x00) hfit.le
    (hbytes.set_outside (.inr (by rw [List.length_reverse])))
  refine ⟨s2, ?_, ⟨hfit, Numeral.zero_not_mem_numeral hb hb36, hturned, ?_⟩, fun i hi => ?_⟩
  · rw [storeNumeral, hdigits]
    show (s1.write? (st + u.length) 0x00 >>= _) = _
    rw [Bytes.write?_of_lt _ _ hfit]
    exact hswap
  · rw [hkept _ (.inr (le_refl _)), Bytes.get_set_self _ _ hfit]
  · rw [hkept i (by omega), Bytes.get_set_ne _ _ (by omega), hother i (by omega)]

/-- **Canonical numerals.** In each base from 2 to 36, `itoa` stores the canonical numeral of `x`,
and `put_uint` hands the same string to `put_str` if it fits in 20 bytes with its end mark, which
it does from base 4 on. -/
theorem itoa_canonical (x b : UInt32) (hb : 2 ≤ b) (hb36 : b ≤ 36) :
    ∃ u, Numeral.IsNumeral b.toNat x.toNat u ∧ u.length ≤ 32 ∧
      (∀ (n : Nat) (s : Bytes n) (st : Nat), st + u.length < n →
        ∃ s', itoa s st x b = some s' ∧ s'.StringAt st u ∧
          ∀ i, (i < st ∨ st + u.length < i) → s'.get i = s.get i) ∧
      (u.length < 20 → ∀ (s : Bytes 20) (attr : UInt8),
        ∃ s', putUint s x b attr = some (s', attr) ∧ s'.StringAt 0 u) ∧
      (4 ≤ b → u.length < 20) := by
  have hb1 : 1 < b.toNat := UInt32.le_iff_toNat_le.mp hb
  have hb2 : b.toNat ≤ 36 := UInt32.le_iff_toNat_le.mp hb36
  have hlt := x.toNat_lt
  refine ⟨_, Numeral.isNumeral_numeral hb1 hb2, ?_, ?_, ?_, ?_⟩
  · refine Numeral.numeral_length_le hb1 (by decide) (lt_of_lt_of_le hlt ?_)
    exact Nat.pow_le_pow_left hb1 32
  · exact fun n s st hfit => storeNumeral_ok hb1 hb2 x s st hfit
  · intro hfit s attr
    obtain ⟨s', hstore, hstring, -⟩ := storeNumeral_ok hb1 hb2 x s 0 (by omega)
    refine ⟨s', ?_, hstring⟩
    rw [putUint, hstore]
    rfl
  · intro h4
    have hb4 : 4 ≤ b.toNat := UInt32.le_iff_toNat_le.mp h4
    have hlen : (Numeral.numeral b.toNat x.toNat).length ≤ 16 := by
      refine Numeral.numeral_length_le hb1 (by decide) (lt_of_lt_of_le hlt ?_)
      exact Nat.pow_le_pow_left hb4 16
    omega

/-- The numeral of 255 in base 16. -/
theorem itoa_canonical_ff : (2 : UInt32) ≤ 16 ∧ (16 : UInt32) ≤ 36 ∧
    ∃ u, Numeral.IsNumeral 16 255 u ∧ ∃ s', itoa (Bytes.zero 20) 0 255 16 = some s' ∧ s'.StringAt 0 u := by
  obtain ⟨u, hu, -, hitoa, -, hfit⟩ := itoa_canonical 255 16 (by decide) (by decide)
  have hlen := hfit (by decide)
  obtain ⟨s', hs, hstring, -⟩ := hitoa 20 (Bytes.zero 20) 0 (by omega)
  exact ⟨by decide, by decide, u, hu, s', hs, hstring⟩

end GwOS
