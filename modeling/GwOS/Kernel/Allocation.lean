import GwOS.Kernel.Frames

/-!
# The operations of the page allocator

What one operation of `memory.c` on pages does to the owners of the frames: `mallocPage_keeps`,
`getOnePage_keeps` and `mfreePage_keeps`. The bitmaps of the virtual pages play no part in
this. What keeps the pages apart is the `ASSERT` of `page_table_add`, and what keeps the
frames apart is the bitmap of each pool.
-/

namespace GwOS

/-! ## Bitmaps -/

/-- The loops over a bitmap set or clear exactly the bits of the range. -/
theorem setBits_returns (v : Bool) (cnt : Nat) (mp : Bitmap) (idx : Nat) :
    Returns (setBits mp (if v then 1 else 0) cnt idx) fun mp' => mp'.len = mp.len ∧
      ∀ j, mp'.bit j = if idx ≤ j ∧ j < idx + cnt then v else mp.bit j := by
  induction cnt generalizing mp idx with
  | zero =>
    refine .ok ⟨rfl, fun j => ?_⟩
    rw [if_neg (by omega)]
  | succ cnt ih =>
    refine .bind (bitmapSetIdx_returns mp idx v) fun mp1 h1 => ?_
    obtain ⟨-, hlen1, hbit1⟩ := h1
    refine (ih mp1 (idx + 1)).mono fun mp2 h2 => ⟨h2.1.trans hlen1, fun j => ?_⟩
    rw [h2.2 j, hbit1 j]
    by_cases hj : j = idx
    · rw [if_pos hj, if_pos (by omega : idx ≤ j ∧ j < idx + (cnt + 1))]
      split <;> rfl
    · rw [if_neg hj]
      exact if_congr (by omega) rfl rfl

/-- Nothing but the bitmaps of the virtual pages differs, and they have their sizes. -/
structure OnlyBitmaps (s s' : Memory) : Prop extends Steady s s' where
  machine : s'.toMachine = s.toMachine
  kernelPool : s'.kernelPool = s.kernelPool
  userPool : s'.userPool = s.userPool

theorem OnlyBitmaps.refl (s : Memory) : OnlyBitmaps s s := ⟨.refl s, rfl, rfl, rfl⟩

theorem onlyBitmaps_set (s : Memory) (pf : PoolFlag) {mp : Bitmap}
    (h : mp.len = (s.vaddrBitmap pf).len) : OnlyBitmaps s (s.setVaddrBitmap pf mp) := by
  cases pf with
  | kernel => exact ⟨⟨rfl, rfl, rfl, rfl, h, fun _ => rfl⟩, rfl, rfl, rfl⟩
  | user =>
    refine ⟨⟨rfl, rfl, rfl, rfl, rfl, fun a => ?_⟩, rfl, rfl, rfl⟩
    show (Function.update s.btmp (s.pcb s.running).bits mp a).len = _
    by_cases ha : a = (s.pcb s.running).bits
    · rw [ha, Function.update_self]
      exact h
    · rw [Function.update_of_ne ha]

/-- The pages that `vaddr_get` finds lie in the range of the bitmap. -/
theorem vaddrGet_returns {s : Memory} {pf : PoolFlag} {cnt : Nat} (hcnt : 1 ≤ cnt)
    (hlt : cnt < (s.vaddrBitmap pf).len) (hlen : (s.vaddrBitmap pf).len < 2 ^ 32) :
    Returns (vaddrGet s pf cnt) fun r => OnlyBitmaps s r.2 ∧
      ∀ v, r.1 = some v → ∃ idx, idx + cnt ≤ (s.vaddrBitmap pf).len ∧
        v = s.vaddrStart pf + BitVec.ofNat 32 (idx * pgSize) := by
  obtain ⟨found, hfound, hspec⟩ := bitmapApplyCnt_ok hcnt (Nat.le_of_lt hlt) hlen
  unfold vaddrGet
  rw [hfound]
  cases found with
  | none =>
    refine .ok ⟨.refl s, fun v hv => ?_⟩
    cases hv
  | some idx =>
    obtain ⟨-, hidx, -⟩ := hspec
    show Returns (setBits (s.vaddrBitmap pf) (if true then 1 else 0) cnt idx >>= _) _
    refine .bind (setBits_returns true cnt _ idx) fun mp hmp => ?_
    dsimp only
    split
    · exact .error _
    · refine .ok ⟨onlyBitmaps_set s pf hmp.1, fun v hv => ⟨idx, by omega, ?_⟩⟩
      exact (Option.some.inj hv).symm

theorem vaddrRemove_returns (s : Memory) (pf : PoolFlag) (v : Addr) (cnt : Nat) :
    Returns (vaddrRemove s pf v cnt) (OnlyBitmaps s) := by
  unfold vaddrRemove
  exact .bind (setBits_returns false cnt _ _) fun mp hmp => .ok (onlyBitmaps_set s pf hmp.1)

theorem markPage_returns (s : Memory) (pf : PoolFlag) (v : Addr) :
    Returns (markPage s pf v) fun s' => OnlyBitmaps s s' ∧
      pageIdx v (s.vaddrStart pf) < 8 * (s.vaddrBitmap pf).len := by
  unfold markPage
  refine .bind (bitmapSetIdx_returns _ _ true) fun mp hmp => .ok ⟨?_, hmp.1⟩
  exact onlyBitmaps_set s pf hmp.2.1

section Keep

variable {s s' : Memory} {D : Frame → Prop} {g : VPage → Frame} {L H : List VPage} {v : Addr}
  {pf : PoolFlag}

theorem OnlyBitmaps.layout (h : OnlyBitmaps s s') (hl : Layout s D) : Layout s' D :=
  hl.congr (fun d _ => by rw [h.machine]) h.kernelPool h.userPool

theorem OnlyBitmaps.owned (h : OnlyBitmaps s s') (ho : Owned s D g L H) : Owned s' D g L H := by
  refine ho.congr (fun d _ => by rw [h.machine]) (fun k _ => ?_) fun k _ f _ ht => ?_
  · rw [Memory.frameAt, h.machine]
    rfl
  · rw [Memory.Taken, h.kernelPool, h.userPool]
    exact ht

theorem Owned.perm {L' : List VPage} (h : Owned s D g L H) (hp : L.Perm L') : Owned s D g L' H := by
  have happ : ∀ k, k ∈ L' ++ H ↔ k ∈ L ++ H := fun k => (hp.symm.append_right H).mem_iff
  exact ⟨fun k hk => h.page k ((happ k).mp hk), fun k hk => h.mapped k ((happ k).mp hk),
    fun k hk k' hk' => h.inj k ((happ k).mp hk) k' ((happ k').mp hk'),
    (hp.append_right H).nodup_iff.mp h.nodup, fun k hk => h.loose k (hp.mem_iff.mpr hk), h.held⟩

/-! ## Loops over pages -/

/-- The `cnt` pages from `v` on. -/
def vpages (d : Frame) : (cnt : Nat) → Addr → List VPage
  | 0, _ => []
  | cnt + 1, v => vpage d v :: vpages d cnt (v + 0x1000)

/-- No `palloc(&kernel_pool)` for a page table fails in the loop of `malloc_page`. -/
def LoopTablesFound (pf : PoolFlag) : (cnt : Nat) → Addr → Memory → Prop
  | 0, _, _ => True
  | cnt + 1, v, s => ∀ page p', palloc (s.pool pf) = .ok (some page, p') →
      TableFound (s.setPool pf p') v ∧
        ∀ s', pageTableAdd (s.setPool pf p') v page = .ok s' → LoopTablesFound pf cnt (v + 0x1000) s'

theorem dirIdx_ne_of_le (h : v.toNat < 0xffc00000) : dirIdx v ≠ 1023 :=
  dirIdx_ne_window (BitVec.lt_def.mpr h)

theorem next_toNat {cnt : Nat} (h : v.toNat + (cnt + 1) * pgSize ≤ 0xffc00000) :
    (v + 0x1000).toNat + cnt * pgSize ≤ 0xffc00000 := by
  unfold pgSize at *
  rw [BitVec.toNat_add]
  have h1 : (0x1000 : Addr).toNat = 0x1000 := rfl
  omega

theorem vpage_kernel (hv : 0xc0000000 ≤ v.toNat) (d : Frame) : vpage d v = vpage kernelDir v := by
  have hidx : 768 ≤ dirIdx v := by
    show 768 ≤ (dirIdx v).toNat
    rw [dirIdx_toNat]
    omega
  rw [vpage, vpage, if_pos hidx, if_pos hidx]

/-- Pages of the kernel belong to all directories. -/
theorem vpages_kernel (d : Frame) (cnt : Nat) (hv : 0xc0000000 ≤ v.toNat)
    (hend : v.toNat + cnt * pgSize ≤ 0xffc00000) : vpages d cnt v = vpages kernelDir cnt v := by
  induction cnt generalizing v with
  | zero => rfl
  | succ cnt ih =>
    have hnext : 0xc0000000 ≤ (v + 0x1000).toNat := by
      have h1 : (0x1000 : Addr).toNat = 0x1000 := rfl
      unfold pgSize at hend
      rw [BitVec.toNat_add]
      omega
    rw [vpages, vpages, vpage_kernel hv d, ih hnext (next_toNat hend)]

/-- One page: a frame is taken and entered for `v`. -/
theorem Owned.addPage (hl : Layout s D) (ho : Owned s D g L H) (hcr : D s.cr3)
    (hv : dirIdx v ≠ 1023) {page : Addr} {p' : Pool}
    (hpage : palloc (s.pool pf) = .ok (some page, p')) (htab : TableFound (s.setPool pf p') v) :
    Returns (GwOS.pageTableAdd (s.setPool pf p') v page) fun s' =>
      Layout s' D ∧ Owned s' D g (vpage s.cr3 v :: L) H ∧ Steady s s' := by
  obtain ⟨-, ht⟩ := palloc_took (hl.poolOk pf) hpage
  obtain ⟨hl1, ho1, hsp⟩ := hl.took ho ht
  have hsteady := Steady.setPool s pf p'
  rw [← hsteady.cr3] at hcr ⊢
  refine (Owned.pageTableAdd hl1 ho1 hcr hv hsp htab).mono fun s' h => ?_
  exact ⟨h.1, h.2.1, hsteady.trans h.2.2⟩

/-- **The loop of `malloc_page`**: when it ends, all its pages are owned. -/
theorem mallocLoop_keeps (cnt : Nat) (hl : Layout s D) (ho : Owned s D g L H) (hcr : D s.cr3)
    (hend : v.toNat + cnt * pgSize ≤ 0xffc00000) (htab : LoopTablesFound pf cnt v s) :
    Returns (mallocLoop pf cnt v s) fun r => Layout r.2 D ∧ Steady s r.2 ∧
      (if r.1 then Owned r.2 D g (vpages s.cr3 cnt v ++ L) H else Owned r.2 D g L H) := by
  induction cnt generalizing s L v with
  | zero => exact .ok ⟨hl, .refl s, ho⟩
  | succ cnt ih =>
    unfold mallocLoop
    obtain ⟨r, p', hpal, hr⟩ := palloc_ok (hl.poolOk pf)
    rw [hpal]
    rcases hr with ⟨rfl, rfl⟩ | ⟨page, rfl, -, ht⟩
    · have hsame : s.setPool pf (s.pool pf) = s := by cases pf <;> rfl
      show Returns (.ok (false, s.setPool pf (s.pool pf))) _
      rw [hsame]
      exact .ok ⟨hl, .refl s, ho⟩
    · obtain ⟨htab1, hrest⟩ := htab page p' hpal
      have hlow : v.toNat < 0xffc00000 := by
        unfold pgSize at hend
        omega
      show Returns (GwOS.pageTableAdd (s.setPool pf p') v page >>= fun s => _) _
      refine .bind (P := fun s1 => GwOS.pageTableAdd (s.setPool pf p') v page = .ok s1 ∧
        Layout s1 D ∧ Owned s1 D g (vpage s.cr3 v :: L) H ∧ Steady s s1)
        (fun s1 h1 => ⟨h1, Owned.addPage hl ho hcr (dirIdx_ne_of_le hlow) hpal htab1 s1 h1⟩)
        fun s1 h1 => ?_
      obtain ⟨hadd, hl1, ho1, hst1⟩ := h1
      refine (ih hl1 ho1 (hst1.cr3 ▸ hcr) (next_toNat hend) (hrest s1 hadd)).mono
        fun r2 h2 => ?_
      obtain ⟨hl2, hst2, ho2⟩ := h2
      refine ⟨hl2, hst1.trans hst2, ?_⟩
      rw [hst1.cr3] at ho2
      split
      · next hr =>
        rw [if_pos hr] at ho2
        exact ho2.perm List.perm_middle
      · next hr =>
        rw [if_neg hr] at ho2
        exact ho2.mono (List.sublist_cons_self _ _)

/-- One page of the loops of `mfree_page`, which a live allocation owns. -/
theorem Owned.removePage (hl : Layout s D) (ho : Owned s D g (vpage s.cr3 v :: L) H) (hcr : D s.cr3)
    (hv : dirIdx v ≠ 1023) {a : Addr} (ha : addrVir2phy s.toMachine v = .ok a)
    (hal : a.toNat % pgSize = 0) :
    Returns (pfree s a >>= fun s => pageTablePteRemove s v) fun s' =>
      Layout s' D ∧ Owned s' D g L H ∧ Steady s s' := by
  have hmem : vpage s.cr3 v ∈ (vpage s.cr3 v :: L) ++ H := List.mem_cons_self ..
  obtain ⟨f, hf, hft, hftab⟩ := ho.mapped _ hmem
  have hfD := ho.loose _ (List.mem_cons_self ..) f hf
  have hself := hl.selfMapped hcr
  have hwalk : s.walk v = some f := by
    rw [← hf, hl.frameAt_vpage hcr hv]
    rfl
  -- the address that is released is the frame of the page
  have hfa : pageOf a = f ∧ offsetOf a = 0 := by
    have htr : s.translate v = some (addrOf f (offsetOf v)) := by
      rw [Machine.translate, hwalk]
      rfl
    cases ha.symm.trans (hself.addrVir2phy_eq htr)
    refine ⟨pageOf_addrOf .., ?_⟩
    apply BitVec.eq_of_toNat_eq
    rw [offsetOf_toNat]
    exact hal
  obtain ⟨rfl, hoff⟩ := hfa
  obtain ⟨pf, p', hpf, hgave⟩ := hl.pfree_ok hoff hft
  have ho0 : Owned s D g L H := ho.mono (List.sublist_cons_self _ _)
  have hne : ∀ k ∈ L ++ H, k ≠ vpage s.cr3 v := fun k hk he =>
    (List.nodup_cons.mp ho.nodup).1 (he ▸ hk)
  have hun : ∀ k ∈ L ++ H, s.frameAt k ≠ some (pageOf a) := fun k hk he =>
    hne k hk (ho.inj k (List.mem_cons_of_mem _ hk) _ hmem (he.trans hf.symm))
  obtain ⟨hl1, ho1⟩ := hl.gave ho0 hgave hfD hftab hun
  rw [hpf]
  show Returns (pageTablePteRemove (s.setPool pf p') v) _
  have hsteady := Steady.setPool s pf p'
  have hm1 : (s.setPool pf p').toMachine = s.toMachine := by cases pf <;> rfl
  generalize hs1 : s.setPool pf p' = s1 at hl1 ho1 hsteady hm1
  have hcr1 : D s1.cr3 := hsteady.cr3 ▸ hcr
  have hself1 := hl1.selfMapped hcr1
  have hpres : Present (s1.pde v) ∧ Present (s1.pte v) := by
    rw [hm1]
    rw [Machine.walk] at hwalk
    by_contra hno
    rw [if_neg hno] at hwalk
    cases hwalk
  rw [pageTablePteRemove]
  simp only [hself1.load_ptePtr hpres.1, hself1.store_ptePtr hpres.1, bind, Except.bind]
  obtain ⟨hpde, htab⟩ := hl1.pdeAt hcr1 hv
  have hslot : s1.slotAt (vpage s.cr3 v) = (s1.tableOf v, tabIdx v) := by
    rw [← hsteady.cr3, Memory.slotAt, htab, tabIdx_vpage]
    rfl
  have htable : IsTable s1.toMachine D (s1.tableOf v) := by
    refine ⟨s1.cr3, hcr1, dirIdx v, hv, hpres.1, rfl⟩
  have hnotD := (hl1.isTable htable).2
  obtain ⟨hl2, hkeep⟩ := hl1.setWord hnotD (tabIdx v) (s1.pte v &&& ~~~1)
  refine .ok ⟨hl2, ho1.congr (fun d hd => s1.setFrame_mem_ne _ fun he => hnotD (he ▸ hd))
    (fun k hk => ?_) (fun k _ f _ ht => ht), hsteady.trans ⟨rfl, rfl, rfl, rfl, rfl, fun _ => rfl⟩⟩
  -- another page with the same slot would have the same frame
  refine hkeep k (ho1.page k hk).1 fun _ hsl => ?_
  obtain ⟨f', hf', -⟩ := ho1.mapped k hk
  obtain ⟨-, -, hframe⟩ := Memory.present_of_frameAt hf'
  have hk0 : s.frameAt k = some f' := by
    rw [← hf', Memory.frameAt, Memory.frameAt, hm1]
  refine hun k hk (hk0.trans ?_)
  obtain ⟨-, -, hframe0⟩ := Memory.present_of_frameAt hf
  rw [hsl, hm1] at hframe
  have hslot0 : s.slotAt (vpage s.cr3 v) = (s.tableOf v, tabIdx v) := by
    have h1 := hslot
    rw [Memory.slotAt, Memory.pdeAt, hm1] at h1
    exact h1
  rw [hslot0] at hframe0
  rw [← hframe, ← hframe0]

/-- **The loops of `mfree_page`**: all pages of the allocation are given back. -/
theorem mfreeLoop_keeps (cnt : Nat) (hl : Layout s D)
    (ho : Owned s D g (vpages s.cr3 cnt v ++ L) H) (hcr : D s.cr3)
    (hv : ∀ k ∈ vpages s.cr3 cnt v, dirIdx (addrOf k.2 0) ≠ 1023) :
    Returns (mfreeLoop pf cnt v s) fun s' => Layout s' D ∧ Owned s' D g L H ∧ Steady s s' := by
  induction cnt generalizing s v with
  | zero => exact .ok ⟨hl, ho, .refl s⟩
  | succ cnt ih =>
    have hv0 : dirIdx v ≠ 1023 := by
      have h0 := hv _ (List.mem_cons_self ..)
      rwa [dirIdx_vpage] at h0
    unfold mfreeLoop
    refine .bind .any fun a ha => ?_
    split
    · next hcheck =>
      rw [← bind_assoc]
      refine .bind (Owned.removePage hl ho hcr hv0 ha hcheck.1) fun s1 h1 => ?_
      obtain ⟨hl1, ho1, hst1⟩ := h1
      rw [← hst1.cr3] at ho1
      refine (ih hl1 ho1 (hst1.cr3 ▸ hcr) fun k hk => ?_).mono fun s2 h2 => ?_
      · rw [hst1.cr3] at hk
        exact hv k (List.mem_cons_of_mem _ hk)
      · exact ⟨h2.1, h2.2.1, hst1.trans h2.2.2⟩
    · exact .error _

/-! ## The operations -/

/-- The virtual pages that the bitmaps describe lie below the window, those of the kernel in
the upper quarter. -/
structure VaddrsOk (s : Memory) (P : Addr → Prop) : Prop where
  high : 0xc0000000 ≤ s.kernelVaddr.vaddrStart.toNat
  aligned : s.kernelVaddr.vaddrStart.toNat % pgSize = 0
  kernel : s.kernelVaddr.vaddrStart.toNat + 8 * s.kernelVaddr.vaddrBitmap.len * pgSize ≤ 0xffc00000
  user : ∀ t, P t →
    (s.pcb t).vaddrStart.toNat + 8 * (s.btmp (s.pcb t).bits).len * pgSize ≤ 0xffc00000

variable {P : Addr → Prop} {cnt : Nat}

theorem Steady.vaddrsOk (h : Steady s s') (hs : VaddrsOk s P) : VaddrsOk s' P := by
  refine ⟨?_, ?_, ?_, fun t ht => ?_⟩
  · rw [h.start]
    exact hs.high
  · rw [h.start]
    exact hs.aligned
  · rw [h.start, h.len]
    exact hs.kernel
  · rw [h.pcb, h.btmp]
    exact hs.user t ht

theorem VaddrsOk.range (h : VaddrsOk s P) (hrun : P s.running) (pf : PoolFlag) :
    (s.vaddrStart pf).toNat + 8 * (s.vaddrBitmap pf).len * pgSize ≤ 0xffc00000 := by
  cases pf with
  | kernel => exact h.kernel
  | user => exact h.user _ hrun

/-- No `palloc(&kernel_pool)` for a page table fails in `malloc_page`. -/
def MallocTablesFound (s : Memory) (pf : PoolFlag) (cnt : Nat) : Prop :=
  ∀ v s1, vaddrGet s pf cnt = .ok (some v, s1) → LoopTablesFound pf cnt v s1

/-- **`malloc_page`**. -/
theorem mallocPage_keeps (hl : Layout s D) (ho : Owned s D g L H) (hcr : D s.cr3)
    (hva : VaddrsOk s P) (hrun : P s.running) (hcnt : 1 ≤ cnt) (hlt : cnt < (s.vaddrBitmap pf).len)
    (htab : MallocTablesFound s pf cnt) :
    Returns (mallocPage s pf cnt) fun r => Layout r.2 D ∧ Steady s r.2 ∧
      match r.1 with
      | none => Owned r.2 D g L H
      | some v => Owned r.2 D g (vpages s.cr3 cnt v ++ L) H ∧
          (s.vaddrStart pf).toNat ≤ v.toNat ∧
          v.toNat % pgSize = (s.vaddrStart pf).toNat % pgSize ∧
          v.toNat + cnt * pgSize ≤
            (s.vaddrStart pf).toNat + (s.vaddrBitmap pf).len * pgSize := by
  have hrange := hva.range hrun pf
  unfold mallocPage
  split
  · have hlen : (s.vaddrBitmap pf).len < 2 ^ 32 := by
      unfold pgSize at hrange
      omega
    refine .bind (P := fun r => vaddrGet s pf cnt = .ok r ∧ OnlyBitmaps s r.2 ∧
        ∀ v, r.1 = some v → ∃ idx, idx + cnt ≤ (s.vaddrBitmap pf).len ∧
          v = s.vaddrStart pf + BitVec.ofNat 32 (idx * pgSize))
      (fun r hr => ⟨hr, vaddrGet_returns hcnt hlt hlen r hr⟩) fun r hr => ?_
    obtain ⟨v, s1⟩ := r
    obtain ⟨hget, hb, hpos⟩ := hr
    cases v with
    | none => exact .ok ⟨hb.layout hl, hb.toSteady, hb.owned ho⟩
    | some v =>
      obtain ⟨idx, hidx, hv⟩ := hpos v rfl
      have hnat : v.toNat = (s.vaddrStart pf).toNat + idx * pgSize := by
        rw [hv, BitVec.toNat_add, BitVec.toNat_ofNat]
        unfold pgSize at *
        omega
      have hend : v.toNat + cnt * pgSize ≤
          (s.vaddrStart pf).toNat + (s.vaddrBitmap pf).len * pgSize := by
        unfold pgSize at *
        omega
      have hwin : v.toNat + cnt * pgSize ≤ 0xffc00000 := by
        unfold pgSize at *
        omega
      refine .bind (mallocLoop_keeps cnt (hb.layout hl) (hb.owned ho) (hb.cr3 ▸ hcr) hwin
        (htab v s1 hget)) fun r2 h2 => ?_
      obtain ⟨hl2, hst2, ho2⟩ := h2
      rw [hb.cr3] at ho2
      refine .ok ⟨hl2, hb.toSteady.trans hst2, ?_⟩
      cases hdone : r2.1 with
      | false =>
        rw [hdone] at ho2
        exact ho2
      | true =>
        rw [hdone] at ho2
        have hmod : v.toNat % pgSize = (s.vaddrStart pf).toNat % pgSize := by
          rw [hnat, Nat.add_mul_mod_self_right]
        exact ⟨ho2, by omega, hmod, hend⟩
  · exact .error _

/-- The pages of the kernel have their tables. -/
theorem loopTablesFound_kernel (hl : Layout s D) (ho : Owned s D g L H) (hcr : D s.cr3)
    (hhigh : 0xc0000000 ≤ v.toNat) (hend : v.toNat + cnt * pgSize ≤ 0xffc00000) :
    LoopTablesFound .kernel cnt v s := by
  induction cnt generalizing s L v with
  | zero => trivial
  | succ cnt ih =>
    intro page p' hpal
    have hlt : v.toNat < 0xffc00000 := by
      unfold pgSize at hend
      omega
    have hidx : 768 ≤ dirIdx v := by
      show 768 ≤ (dirIdx v).toNat
      rw [dirIdx_toNat]
      omega
    have hv := dirIdx_ne_of_le hlt
    have hfound : TableFound (s.setPool .kernel p') v := .inl (hl.shared _ hcr _ hidx hv).1
    refine ⟨hfound, fun s1 hadd => ?_⟩
    obtain ⟨hl1, ho1, hst1⟩ := Owned.addPage hl ho hcr hv hpal hfound s1 hadd
    refine ih hl1 ho1 (hst1.cr3 ▸ hcr) ?_ (next_toNat hend)
    rw [BitVec.toNat_add]
    have h1 : (0x1000 : Addr).toNat = 0x1000 := rfl
    unfold pgSize at hend
    omega

theorem mallocTablesFound_kernel (hl : Layout s D) (ho : Owned s D g L H) (hcr : D s.cr3)
    (hva : VaddrsOk s P) (hcnt : 1 ≤ cnt) (hlt : cnt < s.kernelVaddr.vaddrBitmap.len) :
    MallocTablesFound s .kernel cnt := by
  intro v s1 hget
  have hk := hva.kernel
  have hh := hva.high
  have hlen : s.kernelVaddr.vaddrBitmap.len < 2 ^ 32 := by
    unfold pgSize at hk
    omega
  have hlt' : cnt < (s.vaddrBitmap .kernel).len := hlt
  obtain ⟨hb, hpos⟩ := vaddrGet_returns hcnt hlt' hlen _ hget
  obtain ⟨idx, hidx, hv⟩ := hpos v rfl
  have hidx' : idx + cnt ≤ s.kernelVaddr.vaddrBitmap.len := hidx
  have hnat : v.toNat = s.kernelVaddr.vaddrStart.toNat + idx * pgSize := by
    rw [hv, BitVec.toNat_add, BitVec.toNat_ofNat]
    show (s.kernelVaddr.vaddrStart.toNat + _) % _ = _
    unfold pgSize at *
    omega
  refine loopTablesFound_kernel (hb.layout hl) (hb.owned ho) (hb.cr3 ▸ hcr) (by omega) ?_
  unfold pgSize at *
  omega

/-- **`get_one_page_no_bitmap`**. -/
theorem getOnePageNoBitmap_keeps (hl : Layout s D) (ho : Owned s D g L H) (hcr : D s.cr3)
    (hv : dirIdx v ≠ 1023) (htab : LoopTablesFound pf 1 v s) :
    Returns (getOnePageNoBitmap s pf v) fun r => Layout r.2 D ∧ Steady s r.2 ∧
      match r.1 with
      | none => Owned r.2 D g L H
      | some w => w = v ∧ Owned r.2 D g (vpage s.cr3 v :: L) H := by
  unfold getOnePageNoBitmap
  obtain ⟨r, p', hpal, hr⟩ := palloc_ok (hl.poolOk pf)
  rw [hpal]
  rcases hr with ⟨rfl, rfl⟩ | ⟨page, rfl, -, ht⟩
  · have hsame : s.setPool pf (s.pool pf) = s := by cases pf <;> rfl
    show Returns (.ok (none, s.setPool pf (s.pool pf))) _
    rw [hsame]
    exact .ok ⟨hl, .refl s, ho⟩
  · show Returns (pageTableAdd (s.setPool pf p') v page >>= fun s => .ok (some v, s)) _
    refine .bind (Owned.addPage hl ho hcr hv hpal (htab page p' hpal).1) fun s1 h1 => ?_
    exact .ok ⟨h1.1, h1.2.2, rfl, h1.2.1⟩

/-- **`get_one_page`**. -/
theorem getOnePage_keeps (hl : Layout s D) (ho : Owned s D g L H) (hcr : D s.cr3)
    (hva : VaddrsOk s P) (hrun : P s.running)
    (htab : ∀ s1, markPage s pf v = .ok s1 → LoopTablesFound pf 1 v s1) :
    Returns (getOnePage s pf v) fun r => Layout r.2 D ∧ Steady s r.2 ∧
      match r.1 with
      | none => Owned r.2 D g L H
      | some w => w = v ∧ Owned r.2 D g (vpage s.cr3 v :: L) H := by
  -- both branches that are allowed
  have hbranch : (s.vaddrStart pf).toNat ≤ v.toNat →
      Returns (markPage s pf v >>= fun s => getOnePageNoBitmap s pf v) fun r =>
        Layout r.2 D ∧ Steady s r.2 ∧ match r.1 with
          | none => Owned r.2 D g L H
          | some w => w = v ∧ Owned r.2 D g (vpage s.cr3 v :: L) H := by
    intro hle
    refine .bind (P := fun s1 => markPage s pf v = .ok s1 ∧ OnlyBitmaps s s1 ∧
        pageIdx v (s.vaddrStart pf) < 8 * (s.vaddrBitmap pf).len)
      (fun s1 h1 => ⟨h1, markPage_returns s pf v s1 h1⟩) fun s1 h1 => ?_
    obtain ⟨hmark, hb, hidx⟩ := h1
    have hlt : v.toNat < 0xffc00000 := by
      have hrange := hva.range hrun pf
      rw [pageIdx, BitVec.toNat_sub_of_le (BitVec.le_def.mpr hle)] at hidx
      unfold pgSize at *
      omega
    refine (getOnePageNoBitmap_keeps (hb.layout hl) (hb.owned ho) (hb.cr3 ▸ hcr)
      (dirIdx_ne_of_le hlt) (htab s1 hmark)).mono fun r h2 => ?_
    rw [hb.cr3] at h2
    exact ⟨h2.1, hb.toSteady.trans h2.2.1, h2.2.2⟩
  unfold getOnePage
  cases pf with
  | kernel =>
    cases (s.pcb s.running).pgDir with
    | none =>
      by_cases hlt : s.vaddrStart .kernel < v
      · simp only [if_pos hlt]
        exact hbranch (Nat.le_of_lt (BitVec.lt_def.mp hlt))
      · simp only [if_neg hlt]
        exact .error _
    | some d => exact .error _
  | user =>
    cases (s.pcb s.running).pgDir with
    | none => exact .error _
    | some d =>
      by_cases hle : s.vaddrStart .user ≤ v
      · simp only [if_pos hle]
        exact hbranch (BitVec.le_def.mp hle)
      · simp only [if_neg hle]
        exact .error _

/-- **`mfree_page`** of pages that are owned. -/
theorem mfreePage_keeps (hl : Layout s D) (ho : Owned s D g (vpages s.cr3 cnt v ++ L) H)
    (hcr : D s.cr3) :
    Returns (mfreePage s pf v cnt) fun s' => Layout s' D ∧ Owned s' D g L H ∧ Steady s s' := by
  unfold mfreePage
  split
  · refine .bind .any fun a _ => ?_
    split
    · refine .bind (mfreeLoop_keeps cnt hl ho hcr fun k hk => ?_) fun s1 h1 => ?_
      · exact (ho.page k (List.mem_append_left _ (List.mem_append_left _ hk))).2
      · refine (vaddrRemove_returns s1 pf v cnt).mono fun s2 hb => ?_
        exact ⟨hb.layout h1.1, hb.owned h1.2.1, h1.2.2.trans hb.toSteady⟩
    · exact .error _
  · exact .error _

/-! ## Data -/

/-- The contents of a frame that is neither a directory nor a table do not matter. -/
theorem Layout.setData (hl : Layout s D) {f : Frame} (hD : ¬ D f)
    (htab : ¬ IsTable s.toMachine D f) (page : Page) :
    Layout { s with toMachine := s.setFrame f page } D ∧
      ∀ k, D k.1 → dirIdx (addrOf k.2 0) ≠ 1023 →
        ({ s with toMachine := s.setFrame f page } : Memory).frameAt k = s.frameAt k := by
  have hdir : ∀ d, D d → (s.setFrame f page).mem d = s.mem d := fun d hd =>
    s.setFrame_mem_ne page fun he => hD (he ▸ hd)
  refine ⟨hl.congr hdir rfl rfl, fun k hk hne => ?_⟩
  have hdir' : ∀ d, D d → ({ s with toMachine := s.setFrame f page } : Memory).mem d = s.mem d := hdir
  refine frameAt_eq_of_dirs hdir' hk fun hp => ?_
  have hslot : (s.slotAt k).1 ≠ f := fun he => htab (he ▸ isTable_slotAt hk hne hp)
  exact congrFun (s.setFrame_mem_ne page hslot) _

theorem Owned.setData (hl : Layout s D) (ho : Owned s D g L H) {f : Frame} (hD : ¬ D f)
    (htab : ¬ IsTable s.toMachine D f) (page : Page) :
    Owned { s with toMachine := s.setFrame f page } D g L H := by
  obtain ⟨-, hframe⟩ := hl.setData hD htab page
  refine ho.congr (fun d hd => s.setFrame_mem_ne page fun he => hD (he ▸ hd)) (fun k hk => ?_)
    fun _ _ _ _ ht => ht
  exact hframe k (ho.page k hk).1 (ho.page k hk).2

/-- `memset` of owned pages. -/
theorem clearPages_ok (cnt : Nat) (hl : Layout s D) (ho : Owned s D g L H) (hcr : D s.cr3)
    (hmem : ∀ k ∈ vpages s.cr3 cnt v, k ∈ L) :
    ∃ m, clearPages cnt v s.toMachine = .ok m ∧ m.cr3 = s.cr3 ∧
      Layout { s with toMachine := m } D ∧ Owned { s with toMachine := m } D g L H ∧
      (∀ k ∈ L ++ H, ({ s with toMachine := m } : Memory).frameAt k = s.frameAt k) ∧
      (∀ k ∈ vpages s.cr3 cnt v, ∀ f, s.frameAt k = some f → m.mem f = fun _ => 0) ∧
      (∀ f, (s.mem f = fun _ => 0) → m.mem f = fun _ => 0) ∧
      ∀ f, (∀ k ∈ vpages s.cr3 cnt v, s.frameAt k ≠ some f) → m.mem f = s.mem f := by
  induction cnt generalizing s v with
  | zero =>
    exact ⟨s.toMachine, rfl, rfl, hl, ho, fun _ _ => rfl, fun k hk => absurd hk List.not_mem_nil,
      fun _ h => h, fun _ _ => rfl⟩
  | succ cnt ih =>
    have hk : vpage s.cr3 v ∈ L := hmem _ (List.mem_cons_self ..)
    have hkH := List.mem_append_left H hk
    obtain ⟨f, hf, -, htab⟩ := ho.mapped _ hkH
    have hD := ho.loose _ hk f hf
    have hv : dirIdx v ≠ 1023 := by
      have h0 := (ho.page _ hkH).2
      rwa [dirIdx_vpage] at h0
    have hwalk : s.walk v = some f := by
      rw [← hf, hl.frameAt_vpage hcr hv]
      rfl
    have hclear : s.clearPage v = .ok (s.setFrame f fun _ => 0) := by
      rw [Machine.clearPage, hwalk]
    obtain ⟨hl1, hframe1⟩ := hl.setData hD htab fun _ => 0
    have ho1 := Owned.setData hl ho hD htab fun _ => 0
    generalize hs1 : ({ s with toMachine := s.setFrame f fun _ => 0 } : Memory) = s1 at hl1 hframe1 ho1
    have hm1 : s1.toMachine = s.setFrame f fun _ => 0 := by rw [← hs1]
    have hcr1 : s1.cr3 = s.cr3 := by rw [hm1]; rfl
    have hrest : ∀ k ∈ vpages s.cr3 cnt (v + 0x1000), k ∈ L := fun k hk =>
      hmem k (List.mem_cons_of_mem _ hk)
    have hsame : ∀ k ∈ L ++ H, s1.frameAt k = s.frameAt k := fun k hk =>
      hframe1 k (ho.page k hk).1 (ho.page k hk).2
    obtain ⟨m, hm, hcr', hl', ho', hfr, hzero, hstay, hother⟩ := ih (s := s1) (v := v + 0x1000) hl1
      ho1 (hcr1 ▸ hcr) (hcr1 ▸ hrest)
    rw [hcr1] at hzero hother
    have hs2 : ({ s1 with toMachine := m } : Memory) = { s with toMachine := m } := by rw [← hs1]
    rw [hs2] at hl' ho' hfr
    have hfzero : s1.mem f = fun _ => 0 := by
      rw [hm1]
      exact s.setFrame_mem_self ..
    refine ⟨m, ?_, hcr'.trans hcr1, hl', ho', fun k hk => (hfr k hk).trans (hsame k hk), ?_, ?_, ?_⟩
    · rw [clearPages, hclear]
      show clearPages cnt (v + 0x1000) (s.setFrame f fun _ => 0) = _
      rw [← hm1]
      exact hm
    · intro k hk f' hf'
      rcases List.mem_cons.mp hk with rfl | hk
      · cases hf.symm.trans hf'
        exact hstay f hfzero
      · rw [← hsame k (List.mem_append_left _ (hrest k hk))] at hf'
        exact hzero k hk f' hf'
    · intro f' hf'
      refine hstay f' ?_
      by_cases he : f' = f
      · rw [he]
        exact hfzero
      · rw [hm1, s.setFrame_mem_ne _ he]
        exact hf'
    · intro f' hf'
      have hne : f' ≠ f := by
        rintro rfl
        exact hf' _ (List.mem_cons_self ..) hf
      have h1 := hother f' fun k hk => by
        rw [hsame k (List.mem_append_left _ (hrest k hk))]
        exact hf' k (List.mem_cons_of_mem _ hk)
      rw [h1, hm1, s.setFrame_mem_ne _ hne]

/-- **`get_kernel_pages`**: the pages that it returns are owned and empty. -/
theorem getKernelPages_keeps (hl : Layout s D) (ho : Owned s D g L H) (hcr : D s.cr3)
    (hva : VaddrsOk s P) (hrun : P s.running) (hcnt : 1 ≤ cnt)
    (hlt : cnt < s.kernelVaddr.vaddrBitmap.len) :
    Returns (getKernelPages s cnt) fun r => Layout r.2 D ∧ Steady s r.2 ∧
      match r.1 with
      | none => Owned r.2 D g L H
      | some v => Owned r.2 D g (vpages s.cr3 cnt v ++ L) H ∧
          (∀ k ∈ vpages s.cr3 cnt v, ∀ f, r.2.frameAt k = some f → r.2.mem f = fun _ => 0) ∧
          s.kernelVaddr.vaddrStart.toNat ≤ v.toNat ∧ v.toNat % pgSize = 0 ∧
          v.toNat + cnt * pgSize ≤
            s.kernelVaddr.vaddrStart.toNat + s.kernelVaddr.vaddrBitmap.len * pgSize := by
  unfold getKernelPages getPages
  have hlt' : cnt < (s.vaddrBitmap .kernel).len := hlt
  refine .bind (mallocPage_keeps hl ho hcr hva hrun hcnt hlt'
    (mallocTablesFound_kernel hl ho hcr hva hcnt hlt)) fun r hr => ?_
  obtain ⟨v, s1⟩ := r
  obtain ⟨hl1, hst1, ho1⟩ := hr
  cases v with
  | none => exact .ok ⟨hl1, hst1, ho1⟩
  | some v =>
    obtain ⟨ho1, hlow, hmod, hend⟩ := ho1
    rw [← hst1.cr3] at ho1
    obtain ⟨m, hm, hcr', hl2, ho2, hfr, hzero, -, -⟩ := clearPages_ok cnt hl1 ho1 (hst1.cr3 ▸ hcr)
      fun k hk => List.mem_append_left _ hk
    show Returns (clearPages cnt v s1.toMachine >>= fun m => .ok (some v, { s1 with toMachine := m })) _
    rw [hm]
    rw [hst1.cr3] at ho2 hfr hzero
    refine .ok ⟨hl2, hst1.trans ⟨hcr', rfl, rfl, rfl, rfl, fun _ => rfl⟩, ho2, ?_, hlow,
      hmod.trans hva.aligned, hend⟩
    intro k hk f hf
    rw [hfr k (List.mem_append_left _ (List.mem_append_left _ hk))] at hf
    exact hzero k hk f hf

end Keep

end GwOS
