import GwOS.Kernel.Exhaustion
import GwOS.Kernel.Supply

/-!
# Releasing what has just been allocated

`mfree_page` right after `malloc_page` is its inverse on the pool, on the bitmap of the virtual
pages and on all translations (`mallocPage_undone`). The loops are followed in terms of entries
and of sets of frames; two bitmaps with the same bits are the same (`Bitmap.ext_bit`).
-/

namespace GwOS

/-! ## Bitmaps with the same bits -/

theorem Bitmap.ext_bit {mp mp' : Bitmap} (hlen : mp'.len = mp.len) (h : ∀ i, mp'.bit i = mp.bit i) :
    mp' = mp := by
  obtain ⟨bits⟩ := mp
  obtain ⟨bits'⟩ := mp'
  congr 1
  refine List.ext_getElem hlen fun n hn' hn => ?_
  apply UInt8.toBitVec_inj.mp
  apply BitVec.eq_of_getLsbD_eq
  intro j hj
  have hbit := h (8 * n + j)
  have hdiv : (8 * n + j) / 8 = n := by omega
  have hmod : (8 * n + j) % 8 = j := by omega
  simp only [Bitmap.bit, hdiv, hmod, List.getElem?_eq_getElem hn', List.getElem?_eq_getElem hn] at hbit
  exact hbit

/-- Setting a free range and clearing it. -/
theorem Bitmap.SetRange.undo {mp mp1 mp2 : Bitmap} {idx cnt : Nat} (h : mp.SetRange mp1 true idx cnt)
    (h' : mp1.SetRange mp2 false idx cnt) (hfree : mp.FreeAt idx cnt) : mp2 = mp := by
  refine Bitmap.ext_bit (h'.1.trans h.1) fun j => ?_
  rw [h'.2 j]
  by_cases hj : idx ≤ j ∧ j < idx + cnt
  · have hzero := hfree (j - idx) (by omega)
    rw [Nat.add_sub_cancel' hj.1] at hzero
    rw [if_pos hj, hzero]
  · rw [if_neg hj, h.2 j, if_neg hj]

/-- Pools that have given out the same frames. -/
theorem Pool.SameRange.bitmap_eq {p p' : Pool} (hp : p.Ok) (hr : p.SameRange p')
    (h : ∀ f, p'.Taken f ↔ p.Taken f) : p'.poolBitmap = p.poolBitmap := by
  have hp' := hr.ok hp
  refine Bitmap.ext_bit hr.len fun i => ?_
  rcases Nat.lt_or_ge i (8 * p.poolBitmap.len) with hlt | hge
  · have hframe : p'.frame i = p.frame i := by rw [Pool.frame, Pool.frame, hr.first]
    have hiff : p'.poolBitmap.bit i = true ↔ p.poolBitmap.bit i = true := by
      rw [hp'.bit_iff (hr.len ▸ hlt), hp.bit_iff hlt, hframe]
      exact h _
    exact Bool.eq_iff_iff.mpr hiff
  · rw [Bitmap.bit_of_ge hge, Bitmap.bit_of_ge (hr.len ▸ hge)]

/-! ## `malloc_page` and `mfree_page` -/

section Undo

variable {s s1 s2 : Memory} {D : Frame → Prop} {g : VPage → Frame} {L H : List VPage} {v : Addr}
  {pf : PoolFlag} {cnt : Nat} {P : Addr → Prop}

/-- The pages that `vaddr_get` returns, however many are asked for. -/
theorem vaddrGet_pages (hcnt : 0 < cnt) (hmax : cnt < 3840) (hlen : (s.vaddrBitmap pf).len < 2 ^ 32)
    (h : vaddrGet s pf cnt = .ok (some v, s1)) : ∃ idx, (s.vaddrBitmap pf).RunAt idx cnt ∧
      v = s.vaddrStart pf + BitVec.ofNat 32 (idx * pgSize) ∧
      ∃ mp, (s.vaddrBitmap pf).SetRange mp true idx cnt ∧ s1 = s.setVaddrBitmap pf mp := by
  by_cases hin : cnt ≤ (s.vaddrBitmap pf).len ∨ ∃ i, (s.vaddrBitmap pf).RunAt i cnt
  · obtain ⟨r, hr, hrun⟩ := bitmapApplyCnt_inside hcnt hmax hlen hin
    exact (vaddrInside_of_found hr hrun).pages v s1 h
  · rw [vaddrGet, bitmapApplyCnt_outside hcnt hmax hin] at h
    cases h

/-- The pages that `vaddr_get` returns lie below the window of the page tables. -/
theorem vaddrGet_window (hva : VaddrsOk s P) (hrun : P s.running) (hcnt : 0 < cnt) (hmax : cnt < 3840)
    (h : vaddrGet s pf cnt = .ok (some v, s1)) : OnlyBitmaps s s1 ∧
      (s.vaddrStart pf).toNat ≤ v.toNat ∧ v.toNat + cnt * pgSize ≤ 0xffc00000 ∧
      ∃ idx mp, (s.vaddrBitmap pf).RunAt idx cnt ∧
        v = s.vaddrStart pf + BitVec.ofNat 32 (idx * pgSize) ∧
        (s.vaddrBitmap pf).SetRange mp true idx cnt ∧ s1 = s.setVaddrBitmap pf mp := by
  have hrange := hva.range hrun pf
  have hlen : (s.vaddrBitmap pf).len < 2 ^ 32 := by
    unfold pgSize at hrange
    omega
  obtain ⟨idx, hidx, hv, mp, hmp, hs1⟩ := vaddrGet_pages hcnt hmax hlen h
  have hend := hidx.1
  have hnat : v.toNat = (s.vaddrStart pf).toNat + idx * pgSize := by
    rw [hv, BitVec.toNat_add, BitVec.toNat_ofNat]
    unfold pgSize at *
    omega
  refine ⟨hs1 ▸ onlyBitmaps_set s pf hmp.1, by omega, ?_, idx, mp, hidx, hv, hmp, hs1⟩
  unfold pgSize at *
  omega

theorem vaddrGet_none (h : vaddrGet s pf cnt = .ok (none, s1)) : s1 = s := by
  unfold vaddrGet at h
  obtain ⟨found, -, h⟩ := bind_eq_ok.mp h
  cases found with
  | none =>
    cases h
    rfl
  | some idx =>
    obtain ⟨mp, -, h⟩ := bind_eq_ok.mp h
    dsimp only at h
    split at h
    · cases h
    · cases h

/-- **`malloc_page`**, however many pages are asked for: those that it returns are owned. -/
theorem mallocPage_owned (hl : Layout s D) (ho : Owned s D g L H) (hcr : D s.cr3)
    (hva : VaddrsOk s P) (hrun : P s.running) (htab : MallocTablesFound s pf cnt) :
    Returns (mallocPage s pf cnt) fun r => Layout r.2 D ∧ Steady s r.2 ∧
      match r.1 with
      | none => Owned r.2 D g L H
      | some v => Owned r.2 D g (vpages s.cr3 cnt v ++ L) H := by
  intro r hr
  have hcnt : 0 < cnt ∧ cnt < 3840 := by
    by_contra hno
    rw [mallocPage, if_neg hno] at hr
    cases hr
  obtain ⟨w, s'⟩ := r
  rcases mallocPage_cases s pf cnt _ hr with ⟨hnone, hw⟩ | ⟨v, s1, done, hget, hloop, hw⟩
  · cases hw
    rw [show s' = s from vaddrGet_none hnone]
    exact ⟨hl, .refl s, ho⟩
  · obtain ⟨hb, -, hend, -⟩ := vaddrGet_window hva hrun hcnt.1 hcnt.2 hget
    obtain ⟨hl2, hst2, ho2⟩ := mallocLoop_keeps cnt (hb.layout hl) (hb.owned ho) (hb.cr3 ▸ hcr) hend
      (htab v s1 hget) _ hloop
    rw [hb.cr3] at ho2
    refine ⟨hl2, hb.toSteady.trans hst2, ?_⟩
    cases done with
    | false =>
      cases hw
      exact ho2
    | true =>
      cases hw
      exact ho2

/-- The state after `malloc_page` and `mfree_page` of the pages `N`, compared with the one before:
the pool and the bitmap are the same, the pages are not mapped, and all others are where they were.
What is left are the page tables. -/
structure Undone (s s2 : Memory) (pf : PoolFlag) (D : Frame → Prop) (N : List VPage) : Prop where
  layout : Layout s2 D
  steady : Steady s s2
  pool : (s2.pool pf).poolBitmap = (s.pool pf).poolBitmap
  vaddr : s2.vaddrBitmap pf = s.vaddrBitmap pf
  gone : ∀ k ∈ N, s2.frameAt k = none
  others : ∀ k, Mappable D k → s2.frameAt k = s.frameAt k
  dirs : ∀ k, Mappable D k → Present (s.pdeAt k) → s2.pdeAt k = s.pdeAt k
  tables : pf = .user → ∀ f, (s.kernelPool.Taken f → s2.kernelPool.Taken f) ∧
    (s2.kernelPool.Taken f → s.kernelPool.Taken f ∨ IsTable s2.toMachine (fun d => d = s.cr3) f)

/-- A call of `malloc_page` that returns has filled in the pages. -/
theorem mallocPage_filled (hl : Layout s D) (ho : Owned s D g L H) (hcr : D s.cr3)
    (hva : VaddrsOk s P) (hrun : P s.running) (htab : MallocTablesFound s pf cnt)
    (h : mallocPage s pf cnt = .ok (some v, s1)) : ∃ idx mp, 0 < cnt ∧
      (s.vaddrBitmap pf).RunAt idx cnt ∧ v = s.vaddrStart pf + BitVec.ofNat 32 (idx * pgSize) ∧
      (s.vaddrBitmap pf).SetRange mp true idx cnt ∧ SameRecords (s.setVaddrBitmap pf mp) s1 ∧
      PagesFilled s s1 pf D g L H (vpages s.cr3 cnt v) := by
  have hcnt : 0 < cnt ∧ cnt < 3840 := by
    by_contra hno
    rw [mallocPage, if_neg hno] at h
    cases h
  rcases mallocPage_cases s pf cnt _ h with ⟨-, hno⟩ | ⟨w, s0, done, hget, hloop, hw⟩
  · cases hno
  · cases done with
    | false => cases hw
    | true =>
      cases hw
      obtain ⟨hb, hlow, hend, idx, mp, hidx, hv, hmp, rfl⟩ := vaddrGet_window hva hrun hcnt.1 hcnt.2 hget
      have hhigh : pf = .kernel → 0xc0000000 ≤ v.toNat := by
        rintro rfl
        have hstart : 0xc0000000 ≤ (s.vaddrStart .kernel).toNat := hva.high
        omega
      have hfilled := mallocLoop_filled cnt (hb.layout hl) (hb.owned ho) (hb.cr3 ▸ hcr) hend hhigh
        (htab v _ hget) _ hloop rfl
      have hpool : (s.setVaddrBitmap pf mp).pool pf = s.pool pf := by cases pf <;> rfl
      refine ⟨idx, mp, hcnt.1, hidx, hv, hmp, mallocLoop_same _ pf cnt v _ hloop, hfilled.layout, ?_,
        hb.toSteady.trans hfilled.steady, ?_, ?_, ?_, ?_, ?_⟩
      · rw [← hb.cr3]
        exact hfilled.owned
      · rw [← hb.cr3]
        exact hfilled.entered.of_machine hb.machine
      · rw [← hpool]
        exact hfilled.range
      · rw [← hpool, ← hb.cr3]
        exact hfilled.frames
      · rw [← hpool, ← hb.cr3]
        exact hfilled.fresh
      · rw [← hb.kernelPool, ← hb.cr3]
        exact hfilled.tables

/-- **`mfree_page`** undoes the `malloc_page` before it. -/
theorem mallocPage_undone (hl : Layout s D) (ho : Owned s D g L H) (hcr : D s.cr3)
    (hva : VaddrsOk s P) (hrun : P s.running) (halign : (s.vaddrStart pf).toNat % pgSize = 0)
    (htab : MallocTablesFound s pf cnt) (h : mallocPage s pf cnt = .ok (some v, s1)) :
    ∃ s2, mfreePage s1 pf v cnt = .ok s2 ∧ Undone s s2 pf D (vpages s.cr3 cnt v) := by
  obtain ⟨idx, mp, hcnt, hidx, hv, hmp, hsame, hfilled⟩ := mallocPage_filled hl ho hcr hva hrun htab h
  have hcr1 := hfilled.steady.cr3
  have hbitmap : s1.vaddrBitmap pf = mp := by
    rw [hsame.vaddrBitmap, Memory.vaddrBitmap_set]
  have hstart : s1.vaddrStart pf = s.vaddrStart pf := by
    rw [hsame.vaddrStart]
    cases pf <;> rfl
  have hrange := hva.range hrun pf
  have ho1 := hfilled.owned
  have hpool : ∀ k ∈ vpages s1.cr3 cnt v, ∀ f, s1.frameAt k = some f → (s1.pool pf).Contains f := by
    intro k hk f hf
    rw [hcr1] at hk
    exact ((hfilled.frames f).mpr (.inr ⟨k, hk, hf⟩)).1
  rw [← hcr1] at ho1
  have hwin : (s1.vaddrStart pf).toNat + 8 * (s1.vaddrBitmap pf).len * pgSize ≤ 0xffc00000 := by
    rw [hstart, hbitmap, hmp.1]
    exact hrange
  have hin : idx + cnt ≤ 8 * (s1.vaddrBitmap pf).len := by
    rw [hbitmap, hmp.1]
    exact hidx.1
  obtain ⟨s2, hfree, s3, mp2, hsame3, hemptied, hmp2, rfl⟩ := mfreePage_emptied hfilled.layout ho1
    (hcr1 ▸ hcr) hwin (hstart ▸ halign) hcnt hin (hstart ▸ hv) hpool
  have hbitmap3 : s3.vaddrBitmap pf = mp := (hsame3.vaddrBitmap pf).trans hbitmap
  rw [hbitmap] at hmp2
  rw [hcr1] at hemptied
  have hlen : mp2.len = (s3.vaddrBitmap pf).len := by rw [hbitmap3, hmp2.1]
  have hb := onlyBitmaps_set s3 pf hlen
  have hframe : ∀ k, (s3.setVaddrBitmap pf mp2).frameAt k = s3.frameAt k := fun k => by
    rw [Memory.frameAt, hb.machine]
    rfl
  have hpools : ∀ pf', (s3.setVaddrBitmap pf mp2).pool pf' = s3.pool pf' := fun pf' => by
    cases pf <;> cases pf' <;> rfl
  refine ⟨_, hfree, hb.layout hemptied.layout,
    hfilled.steady.trans (hemptied.steady.trans hb.toSteady), ?_, ?_, fun k hk => ?_, fun k hk => ?_,
    fun k hk hp => ?_, fun hpf f => ?_⟩
  · -- the frames that were taken are those that have been given back
    have hranges : (s.pool pf).SameRange (s3.pool pf) := ⟨hemptied.range.start.trans hfilled.range.start,
      hemptied.range.size.trans hfilled.range.size, hemptied.range.len.trans hfilled.range.len⟩
    rw [hpools]
    refine hranges.bitmap_eq (hl.poolOk pf) fun f => ?_
    rw [hemptied.frames f, hfilled.frames f]
    constructor
    · rintro ⟨ht | ⟨k, hk, hf⟩, hall⟩
      · exact ht
      · exact absurd hf (hall k hk)
    · intro ht
      exact ⟨.inl ht, fun k hk hf => hfilled.fresh k hk f hf ht⟩
  · rw [Memory.vaddrBitmap_set]
    exact hmp.undo hmp2 hidx.2
  · have hmem := List.mem_append_left H (List.mem_append_left L hk)
    obtain ⟨f, hf, -⟩ := hfilled.owned.mapped k hmem
    rw [hframe]
    exact hemptied.emptied.gone k (hfilled.owned.page k hmem)
      ⟨k, hk, (Memory.present_of_frameAt hf).1, rfl⟩
  · rw [hframe]
    exact hfilled.entered.emptied hemptied.emptied hk
  · have hpde : (s3.setVaddrBitmap pf mp2).pdeAt k = s3.pdeAt k := by
      rw [Memory.pdeAt, hb.machine]
      rfl
    have hsame : s3.pdeAt k = s1.pdeAt k := congrFun (hemptied.emptied.dirs _ hk.1) _
    rw [hpde, hsame]
    exact hfilled.entered.pde k hk hp
  · have hk : (s3.setVaddrBitmap pf mp2).kernelPool = s1.kernelPool :=
      (hpools .kernel).trans (hemptied.kernel hpf)
    have htable : ∀ t, IsTable s1.toMachine (fun d => d = s.cr3) t →
        IsTable (s3.setVaddrBitmap pf mp2).toMachine (fun d => d = s.cr3) t := by
      intro t ht
      rw [hb.machine]
      exact (isTable_congr (D := fun d => d = s.cr3) fun d hd =>
        hemptied.emptied.dirs d (hd.symm ▸ hcr)).mpr ht
    obtain ⟨hmono, htab'⟩ := hfilled.tables hpf f
    rw [hk]
    exact ⟨hmono, fun ht => (htab' ht).imp_right (htable f)⟩

end Undo

end GwOS
