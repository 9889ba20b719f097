import GwOS.Kernel.Vaddr
import Mathlib.Data.Nat.Find

/-!
# Which free runs the search finds

`bitmap_apply_cnt` compares its index with `len - cnt`, a `uint32_t`. Two things follow from
the bound, and they pull in opposite directions.

- For `cnt ≤ len` it is a number of bytes used as a number of bits: the search stops after
  the first eighth of the bitmap, and a free run behind that is not found
  (`bitmapApplyCnt_first_iff`).
- For `len < cnt` it wraps and is beyond the last bit: the search runs out of the array
  unless a free run stops it before (`bitmapApplyCnt_inside_iff`).

`bitmapApplyFrom_run` and `bitmapApplyFrom_leaves` are the search with any bound that is large
enough; the free run that matters is the first one (`Bitmap.FirstRun`).
-/

namespace GwOS

namespace Bitmap

variable {mp : Bitmap} {cnt i : Nat}

/-- A free run of `cnt` bits at `idx` that lies within the bitmap. -/
def RunAt (mp : Bitmap) (idx cnt : Nat) : Prop := idx + cnt ≤ 8 * mp.len ∧ mp.FreeAt idx cnt

/-- `r` is the smallest start of a free run within the bitmap, or `none` when there is none. -/
def FirstRun (mp : Bitmap) (cnt : Nat) : Option Nat → Prop
  | some i => mp.RunAt i cnt ∧ ∀ j < i, ¬ mp.RunAt j cnt
  | none => ∀ i, ¬ mp.RunAt i cnt

theorem exists_firstRun (h : ∃ i, mp.RunAt i cnt) : ∃ i, mp.FirstRun cnt (some i) := by
  classical
  exact ⟨Nat.find h, Nat.find_spec h, fun j hj => Nat.find_min h hj⟩

theorem FirstRun.eq {r : Option Nat} (h : mp.FirstRun cnt r) (hi : mp.FirstRun cnt (some i)) :
    r = some i := by
  cases r with
  | none => exact absurd hi.1 (h i)
  | some j =>
    have hji : ¬ j < i := fun hlt => hi.2 j hlt h.1
    have hij : ¬ i < j := fun hlt => h.2 i hlt hi.1
    exact congrArg some (by omega)

end Bitmap

/-! ## The loops with any bound -/

section Search

variable {mp : Bitmap} {cnt i n idx : Nat}

theorem bitmapCheckIdx_leaves (h : 8 * mp.len ≤ idx) : bitmapCheckIdx mp idx = .error .outOfBounds := by
  have hnone : mp.bits[idx / 8]? = none := List.getElem?_eq_none (by
    have hlen : mp.bits.length = mp.len := rfl
    omega)
  rw [bitmapCheckIdx, hnone]

/-- The inner loop leaves the array, meets a bit that is set, or has seen a free run. -/
theorem bitmapFreeRun_cases (n idx : Nat) (hidx : idx ≤ 8 * mp.len) :
    bitmapFreeRun mp n idx = .error .outOfBounds ∨ bitmapFreeRun mp n idx = .ok false ∨
      bitmapFreeRun mp n idx = .ok true ∧ mp.RunAt idx n := by
  induction n generalizing idx with
  | zero => exact .inr (.inr ⟨rfl, hidx, fun k hk => absurd hk (Nat.not_lt_zero k)⟩)
  | succ n ih =>
    rcases Nat.lt_or_ge idx (8 * mp.len) with hlt | hge
    · rw [bitmapFreeRun, bitmapCheckIdx_ok hlt]
      cases hb : mp.bit idx with
      | true => exact .inr (.inl rfl)
      | false =>
        rcases ih (idx + 1) hlt with h | h | ⟨h, hend, hfree⟩
        · exact .inl h
        · exact .inr (.inl h)
        · exact .inr (.inr ⟨h, by omega, Bitmap.freeAt_succ.mpr ⟨hb, hfree⟩⟩)
    · rw [bitmapFreeRun, bitmapCheckIdx_leaves hge]
      exact .inl rfl

/-- The search stops at the first free run, when its bound lets it come that far. -/
theorem bitmapApplyFrom_run {j : Nat} (hcnt : 1 ≤ cnt) (hj : mp.FirstRun cnt (some j)) (n i : Nat)
    (hij : i ≤ j) (hlt : j < i + n) : bitmapApplyFrom mp cnt n i = .ok (some j) := by
  obtain ⟨c, rfl⟩ : ∃ c, cnt = c + 1 := ⟨cnt - 1, by omega⟩
  obtain ⟨⟨hend, hfree⟩, hfirst⟩ := hj
  induction n generalizing i with
  | zero => omega
  | succ n ih =>
    have hcheck : bitmapCheckIdx mp i = .ok (mp.bit i) := bitmapCheckIdx_ok (by omega)
    obtain ⟨f, hf, hiff⟩ : ∃ f, bitmapFreeRun mp c (i + 1) = .ok f ∧
        (f = true ↔ mp.FreeAt (i + 1) c) := bitmapFreeRun_ok (by omega)
    rw [bitmapApplyFrom, hcheck]
    by_cases he : i = j
    · subst he
      obtain ⟨hbit, htail⟩ := Bitmap.freeAt_succ.mp hfree
      rw [hbit]
      show (bitmapFreeRun mp c (i + 1) >>= _) = _
      rw [hf, hiff.mpr htail]
      rfl
    · have hnext := ih (i + 1) (by omega) (by omega)
      have hno : ¬ mp.FreeAt i (c + 1) := fun h => hfirst i (by omega) ⟨by omega, h⟩
      cases hb : mp.bit i with
      | true => exact hnext
      | false =>
        -- the run at `i` is cut off, so the inner loop says no
        have hff : f = false := by
          by_contra hne
          rw [Bool.not_eq_false] at hne
          exact hno (Bitmap.freeAt_succ.mpr ⟨hb, hiff.mp hne⟩)
        show (bitmapFreeRun mp c (i + 1) >>= _) = _
        rw [hf, hff]
        exact hnext

/-- Without a free run, and with a bound behind the last bit, the search leaves the array. -/
theorem bitmapApplyFrom_leaves (hcnt : 1 ≤ cnt) (hno : ∀ j, ¬ mp.RunAt j cnt) (n i : Nat)
    (hi : i ≤ 8 * mp.len) (hlt : 8 * mp.len < i + n) :
    bitmapApplyFrom mp cnt n i = .error .outOfBounds := by
  obtain ⟨c, rfl⟩ : ∃ c, cnt = c + 1 := ⟨cnt - 1, by omega⟩
  induction n generalizing i with
  | zero => omega
  | succ n ih =>
    rw [bitmapApplyFrom]
    rcases Nat.lt_or_ge i (8 * mp.len) with hin | hout
    · have hnext := ih (i + 1) hin (by omega)
      rw [bitmapCheckIdx_ok hin]
      cases hb : mp.bit i with
      | true => exact hnext
      | false =>
        show (bitmapFreeRun mp c (i + 1) >>= _) = _
        rcases bitmapFreeRun_cases c (i + 1) hin with h | h | ⟨-, hend, hfree⟩
        · rw [h]
          rfl
        · rw [h]
          exact hnext
        · exact absurd ⟨by omega, Bitmap.freeAt_succ.mpr ⟨hb, hfree⟩⟩ (hno i)
    · rw [bitmapCheckIdx_leaves hout]
      rfl

/-- The bound of `bitmap_apply_cnt` when it does not wrap. -/
theorem bitmapApplyCnt_of_le (hle : cnt ≤ mp.len) (hlen : mp.len < 2 ^ 32) :
    bitmapApplyCnt mp cnt = bitmapApplyFrom mp cnt (mp.len - cnt) 0 := by
  by_cases h0 : cnt = 0
  · rw [bitmapApplyCnt, h0, Nat.sub_zero, Nat.add_mod_right, Nat.mod_eq_of_lt hlen, Nat.sub_zero]
  · have hbound : mp.len + 2 ^ 32 - cnt = (mp.len - cnt) + 2 ^ 32 := by omega
    rw [bitmapApplyCnt, hbound, Nat.add_mod_right, Nat.mod_eq_of_lt (by omega)]

/-- The bound when it wraps. -/
theorem bitmapApplyCnt_of_gt (hgt : mp.len < cnt) :
    bitmapApplyCnt mp cnt = bitmapApplyFrom mp cnt (mp.len + 2 ^ 32 - cnt) 0 := by
  rw [bitmapApplyCnt, Nat.mod_eq_of_lt (by omega)]

/-! ## Finding the first run -/

/-- **The search finds the first free run** exactly when there is none in the bitmap, or one
that starts below `len - cnt`: the number of bytes bounds the index of a bit. -/
theorem bitmapApplyCnt_first_iff (hlen : mp.len < 2 ^ 32) (hcnt : 1 ≤ cnt) (hle : cnt ≤ mp.len) :
    (∃ r, bitmapApplyCnt mp cnt = .ok r ∧ mp.FirstRun cnt r) ↔
      ((∃ i, mp.RunAt i cnt) → ∃ i < mp.len - cnt, mp.FreeAt i cnt) := by
  have hbound : 0 + (mp.len - cnt) + cnt ≤ 8 * mp.len + 1 := by omega
  obtain ⟨r, hr, hfound⟩ := bitmapApplyFrom_ok hcnt hbound
  rw [bitmapApplyCnt_of_le hle hlen]
  constructor
  · rintro ⟨r', hr', hfirst⟩ hrun
    obtain ⟨j, hj⟩ := Bitmap.exists_firstRun hrun
    cases hfirst.eq hj
    cases hr'.symm.trans hr
    obtain ⟨-, hlt, hfree⟩ := hfound
    exact ⟨j, by omega, hfree⟩
  · intro himp
    by_cases hrun : ∃ i, mp.RunAt i cnt
    · obtain ⟨j, hj⟩ := Bitmap.exists_firstRun hrun
      obtain ⟨i, hi, hfree⟩ := himp hrun
      have hji : ¬ i < j := fun hlt => hj.2 i hlt ⟨by omega, hfree⟩
      exact ⟨some j, bitmapApplyFrom_run hcnt hj _ 0 (Nat.zero_le j) (by omega), hj⟩
    · have hnone : ∀ i, ¬ mp.RunAt i cnt := fun i hi => hrun ⟨i, hi⟩
      cases r with
      | none => exact ⟨none, hr, hnone⟩
      | some j =>
        obtain ⟨-, hlt, hfree⟩ := hfound
        exact absurd ⟨by omega, hfree⟩ (hnone j)

theorem bitmapApplyCnt_first_iff_three :
    (∃ r, bitmapApplyCnt ⟨[1, 0, 0]⟩ 2 = .ok r ∧ Bitmap.FirstRun ⟨[1, 0, 0]⟩ 2 r) ↔
      ((∃ i, Bitmap.RunAt ⟨[1, 0, 0]⟩ i 2) →
        ∃ i < Bitmap.len ⟨[1, 0, 0]⟩ - 2, Bitmap.FreeAt ⟨[1, 0, 0]⟩ i 2) :=
  bitmapApplyCnt_first_iff (by decide) (by decide) (by decide)

/-- In a bitmap of one byte nothing is ever found. -/
theorem bitmapApplyCnt_misses : ¬ ∀ (mp : Bitmap) (cnt : Nat), mp.len < 2 ^ 32 → 1 ≤ cnt →
    cnt ≤ mp.len → ∃ r, bitmapApplyCnt mp cnt = .ok r ∧ mp.FirstRun cnt r := by
  intro h
  obtain ⟨r, hr, hfirst⟩ := h (bitmapInit 1) 1 (by decide) (by decide) (by decide)
  have hnone : bitmapApplyCnt (bitmapInit 1) 1 = .ok none := bitmapApplyCnt_of_le (by decide) (by decide)
  cases hr.symm.trans hnone
  exact hfirst 0 ⟨by decide, fun k _ => Bitmap.bit_init 1 _⟩

/-! ## Staying in the bitmap -/

/-- The search examines no bit behind the last one, and what it answers lies within. -/
structure Bitmap.Inside (mp : Bitmap) (cnt : Nat) : Prop where
  bounds : bitmapApplyCnt mp cnt ≠ .error .outOfBounds
  run : ∀ i, bitmapApplyCnt mp cnt = .ok (some i) → mp.RunAt i cnt

/-- `vaddr_get` marks and returns pages of the region that the bitmap describes, and no others. -/
structure VaddrInside (s : Memory) (pf : PoolFlag) (cnt : Nat) : Prop where
  bounds : vaddrGet s pf cnt ≠ .error .outOfBounds
  none : ∀ s', vaddrGet s pf cnt = .ok (none, s') → s' = s
  pages : ∀ v s', vaddrGet s pf cnt = .ok (some v, s') → ∃ idx, (s.vaddrBitmap pf).RunAt idx cnt ∧
    v = s.vaddrStart pf + BitVec.ofNat 32 (idx * pgSize) ∧
    ∃ mp, (s.vaddrBitmap pf).SetRange mp true idx cnt ∧ s' = s.setVaddrBitmap pf mp

theorem bitmapApplyCnt_inside (hcnt : 0 < cnt) (hmax : cnt < 3840) (hlen : mp.len < 2 ^ 32)
    (h : cnt ≤ mp.len ∨ ∃ i, mp.RunAt i cnt) :
    ∃ r, bitmapApplyCnt mp cnt = .ok r ∧ ∀ i, r = some i → mp.RunAt i cnt := by
  rcases Nat.lt_or_ge mp.len cnt with hlt | hle
  · obtain ⟨j, hj⟩ := Bitmap.exists_firstRun (h.resolve_left (Nat.not_le.mpr hlt))
    have hend := hj.1.1
    refine ⟨some j, ?_, fun i hi => ?_⟩
    · rw [bitmapApplyCnt_of_gt hlt]
      exact bitmapApplyFrom_run hcnt hj _ 0 (Nat.zero_le j) (by omega)
    · cases hi
      exact hj.1
  · obtain ⟨r, hr, hfound⟩ := bitmapApplyCnt_ok hcnt hle hlen
    refine ⟨r, hr, fun i hi => ?_⟩
    subst hi
    obtain ⟨-, hlt, hfree⟩ := hfound
    exact ⟨by omega, hfree⟩

theorem bitmapApplyCnt_outside (hcnt : 0 < cnt) (hmax : cnt < 3840)
    (h : ¬ (cnt ≤ mp.len ∨ ∃ i, mp.RunAt i cnt)) : bitmapApplyCnt mp cnt = .error .outOfBounds := by
  obtain ⟨hgt, hno⟩ := not_or.mp h
  rw [bitmapApplyCnt_of_gt (Nat.not_le.mp hgt)]
  exact bitmapApplyFrom_leaves hcnt (fun j hj => hno ⟨j, hj⟩) _ 0 (Nat.zero_le _) (by omega)

/-- `vaddr_get` on a bitmap that the search stays in. -/
theorem vaddrInside_of_found {s : Memory} {pf : PoolFlag} {r : Option Nat}
    (hr : bitmapApplyCnt (s.vaddrBitmap pf) cnt = .ok r)
    (hrun : ∀ i, r = some i → (s.vaddrBitmap pf).RunAt i cnt) : VaddrInside s pf cnt := by
  cases r with
  | none =>
    have hget : vaddrGet s pf cnt = .ok (none, s) := by
      rw [vaddrGet, hr]
      rfl
    refine ⟨?_, fun s' h => ?_, fun v s' h => ?_⟩
    · rw [hget]
      nofun
    · cases hget.symm.trans h
      rfl
    · cases hget.symm.trans h
  | some idx =>
    have hidx := hrun idx rfl
    obtain ⟨mp, hmp⟩ := setBits_ok true cnt (s.vaddrBitmap pf) idx hidx.1
    have hset := setBits_returns true cnt (s.vaddrBitmap pf) idx mp hmp
    rw [if_pos rfl] at hmp
    -- the `ASSERT` of the user pool is all that can stop the call now
    have hget : vaddrGet s pf cnt = .error .assert ∨ vaddrGet s pf cnt =
        .ok (some (s.vaddrStart pf + BitVec.ofNat 32 (idx * pgSize)), s.setVaddrBitmap pf mp) := by
      unfold vaddrGet
      rw [hr]
      simp only [hmp, bind, Except.bind]
      split
      · exact .inl rfl
      · exact .inr rfl
    rcases hget with hget | hget
    · refine ⟨?_, fun s' h => ?_, fun v s' h => ?_⟩
      · rw [hget]
        nofun
      · cases hget.symm.trans h
      · cases hget.symm.trans h
    · refine ⟨?_, fun s' h => ?_, fun v s' h => ?_⟩
      · rw [hget]
        nofun
      · cases hget.symm.trans h
      · cases hget.symm.trans h
        exact ⟨idx, hidx, rfl, mp, hset, rfl⟩

/-- **The search and `vaddr_get` stay in the bitmap** exactly when the request is not longer
than the bitmap is in bytes, or a free run stops the search before the end. -/
theorem bitmapApplyCnt_inside_iff (hcnt : 0 < cnt) (hmax : cnt < 3840) (hlen : mp.len < 2 ^ 32) :
    (mp.Inside cnt ∧ ∀ s pf, s.vaddrBitmap pf = mp → VaddrInside s pf cnt) ↔
      cnt ≤ mp.len ∨ ∃ i, mp.RunAt i cnt := by
  constructor
  · rintro ⟨hin, -⟩
    by_contra hno
    exact hin.bounds (bitmapApplyCnt_outside hcnt hmax hno)
  · intro h
    obtain ⟨r, hr, hrun⟩ := bitmapApplyCnt_inside hcnt hmax hlen h
    constructor
    · constructor
      · rw [hr]
        nofun
      · intro i hi
        cases hr.symm.trans hi
        exact hrun i rfl
    · rintro s pf rfl
      exact vaddrInside_of_found hr hrun

theorem bitmapApplyCnt_inside_iff_byte :
    (Bitmap.Inside ⟨[1]⟩ 7 ∧ ∀ s pf, s.vaddrBitmap pf = ⟨[1]⟩ → VaddrInside s pf 7) ↔
      7 ≤ Bitmap.len ⟨[1]⟩ ∨ ∃ i, Bitmap.RunAt ⟨[1]⟩ i 7 :=
  bitmapApplyCnt_inside_iff (by decide) (by decide) (by decide)

/-- The bitmap of the kernel with its first two pages taken, and a request for 3839 pages. -/
theorem bitmapApplyCnt_wraps : ¬ ∀ (mp : Bitmap) (cnt : Nat), 0 < cnt → cnt < 3840 →
    mp.len < 2 ^ 32 → mp.Inside cnt ∧ ∀ s pf, s.vaddrBitmap pf = mp → VaddrInside s pf cnt := by
  intro h
  generalize hmp : (⟨3 :: List.replicate 479 0⟩ : Bitmap) = mp
  have hlen : mp.len = 480 := by
    rw [← hmp, Bitmap.len, List.length_cons, List.length_replicate]
  have hbits : mp.bit 0 = true ∧ mp.bit 1 = true := by
    rw [← hmp]
    constructor
    · rfl
    · rfl
  refine (h mp 3839 (by decide) (by decide) (by rw [hlen]; decide)).1.bounds
    (bitmapApplyCnt_outside (by decide) (by decide) ?_)
  rintro (hle | ⟨i, hend, hfree⟩)
  · rw [hlen] at hle
    exact absurd hle (by decide)
  · rw [hlen] at hend
    have hbit := hfree 0 (by decide)
    rw [Nat.add_zero] at hbit
    obtain rfl | rfl : i = 0 ∨ i = 1 := by omega
    · rw [hbits.1] at hbit
      cases hbit
    · rw [hbits.2] at hbit
      cases hbit

end Search

end GwOS
