import GwOS.Userprog.Spans

/-!
# The calls of the heap

`HeapInv` is the invariant of the heap of the kernel: its spans fit, and each arena has a live block.
Both calls keep it, and neither of them fails an `ASSERT` or ends in a page fault.

- `HeapInv.sysMalloc`: the block is new, its words are zero, and the other blocks read as before.
- `HeapInv.sysFree`: the pages of the block are given back with the last live block in them.
-/

namespace GwOS

/-! ## `sys_malloc` -/

section Calls

variable {s s' : Memory} {h h' : Heap} {spans : List Span} {threads : List Addr}
  {D : Frame → Prop} {g : VPage → Frame} {L H N R : List VPage} {live : Addr → Option (BitVec 32)}
  {b : Addr} {size : BitVec 32} {i : Fin descCnt} {r : Option Addr}

/-- The heap and the memory, where `R` are the pages that others have got from the kernel. -/
def HeapInv (s : Memory) (h : Heap) (threads : List Addr) (D : Frame → Prop) (g : VPage → Frame)
    (R H : List VPage) (live : Addr → Option (BitVec 32)) : Prop :=
  ∃ spans L, Grounded s threads D g (spanPages spans ++ (R ++ L)) H ∧ HeapOk s h spans live ∧
    ∀ x ∈ spans, Busy h x

/-- What the callers of `get_kernel_pages` notice of a call of the heap. -/
structure Kept (s s' : Memory) (R : List VPage) : Prop where
  ranges : SameRanges s s'
  steady : Steady s s'
  frame : ∀ k ∈ R, s'.frameAt k = s.frameAt k
  load : Loads s s' R

theorem Kept.refl (s : Memory) (R : List VPage) : Kept s s R :=
  ⟨.refl s, .refl s, fun _ _ => rfl, .refl s R⟩

theorem Kept.trans {s1 s2 s3 : Memory} (h : Kept s1 s2 R) (h' : Kept s2 s3 R) : Kept s1 s3 R :=
  ⟨h.ranges.trans h'.ranges, h.steady.trans h'.steady, fun k hk => (h'.frame k hk).trans (h.frame k hk),
    h.load.trans h'.load⟩

theorem Provided.kept (h : Provided s s' threads D g (spanPages spans ++ (R ++ L)) H N)
    (hloads : Loads s s' (R ++ L)) : Kept s s' R :=
  ⟨h.ranges, h.steady, fun k hk => h.frame k (List.mem_append_left H
    (List.mem_append_right _ (List.mem_append_left L hk))), hloads.mono (List.subset_append_left ..)⟩

/-- What `sys_malloc` has done. -/
structure MallocAnswer (s s' : Memory) (h' : Heap) (threads : List Addr) (D : Frame → Prop)
    (g : VPage → Frame) (R H : List VPage) (live : Addr → Option (BitVec 32)) (size : BitVec 32)
    (r : Option Addr) : Prop where
  kept : Kept s s' R
  blocks : SameBlocks s s' live
  none : r = none → HeapInv s' h' threads D g R H live
  some : ∀ b, r = some b → live b = Option.none ∧ Zeroed s' b size ∧
    HeapInv s' h' threads D g R H (Function.update live b (Option.some size))

/-- There is no page: what has been entered is lost. -/
theorem HeapOk.lost (hok : HeapOk s h spans live) (hbusy : ∀ x ∈ spans, Busy h x)
    (hprov : Provided s s' threads D g (spanPages spans ++ (R ++ L)) H N) :
    HeapInv s' h threads D g R H live := by
  have hperm : (N ++ (spanPages spans ++ (R ++ L))).Perm (spanPages spans ++ (R ++ (N ++ L))) := by
    refine List.perm_append_comm_assoc .. |>.trans (List.Perm.append_left _ ?_)
    exact List.perm_append_comm_assoc ..
  refine ⟨spans, N ++ L, hprov.grounded.perm hperm, hok.moved ?_, hbusy⟩
  exact HeapOk.frames hok.own hprov.ranges hprov.steady fun k hk =>
    hprov.frame k (List.mem_append_left H (List.mem_append_left _ hk))

theorem HeapOk.takeAnswer (hok : HeapOk s h spans live)
    (hg : Grounded s threads D g (spanPages spans ++ (R ++ L)) H) {l : List Addr}
    (hlist : h.kernelBlockDescs i = b :: l) (hbusy : ∀ x ∈ spans, x.page ≠ pageOf b → Busy h x)
    (hsize : size.toNat ≤ blockSize i) :
    ∃ r s' h', GwOS.takeBlock s h .kernel i = .ok (r, s', h') ∧
      MallocAnswer s s' h' threads D g R H live size r := by
  obtain ⟨m, h', htake, hprov, hok', hbusy', hfree, hzero, hsame, hloads⟩ :=
    hok.takeBlock hg hlist hbusy hsize
  refine ⟨some b, _, h', htake, hprov.kept hloads, hsame, nofun, fun c hc => ?_⟩
  cases hc
  exact ⟨hfree, hzero, spans, L, hprov.grounded, hok', hbusy'⟩

/-- The arenas beside a new one are as busy as before. -/
theorem Busy.grow {x : Span} {p : BitVec 20} (hbusy : Busy h x) (hne : x.page ≠ p) (r : Arena) :
    Busy (h.relist i (h.kernelBlockDescs i ++ (heapSlab i).blocks p) p r) x := by
  intro k hk
  have hold := hbusy k hk
  by_cases hki : k = i
  · subst hki
    rwa [Heap.relist_self, Slab.freeOf_append, Slab.freeOf_blocks_ne hne, Nat.add_zero]
  · rwa [Heap.relist_ne hki]

/-- **`sys_malloc`** of 1024 bytes or less. -/
theorem HeapInv.mallocSmall (hi : HeapInv s h threads D g R H live)
    (hlt : 1 < s.kernelVaddr.vaddrBitmap.len) (hsize : size.toNat ≤ blockSize i) :
    ∃ r s' h', GwOS.mallocSmall s h .kernel i = .ok (r, s', h') ∧
      MallocAnswer s s' h' threads D g R H live size r := by
  obtain ⟨spans, L, hg, hok, hbusy⟩ := hi
  have hlists : h.freeList s .kernel i = h.kernelBlockDescs i := rfl
  rw [GwOS.mallocSmall, hlists]
  by_cases hempty : h.kernelBlockDescs i = []
  · rw [if_pos hempty]
    rcases hok.newArena hg hempty hlt with ⟨s', N, hnew, hprov, hloads⟩ |
      ⟨s1, h1, p, hnew, rfl, hother, hprov, hloads, hok1⟩
    · refine ⟨none, s', h, ?_, hprov.kept (hloads.mono (List.subset_append_right ..)),
        hok.same_blocks hg.vaddrs (hloads.mono (List.subset_append_left ..)),
        fun _ => hok.lost hbusy hprov, by rintro _ ⟨⟩⟩
      rw [hnew]
      rfl
    · -- the first block of the new arena is taken
      have hlist : (h.relist i (h.kernelBlockDescs i ++ (heapSlab i).blocks p) p
          ⟨some i, BitVec.ofNat 32 (blocksPerArena i), false⟩).kernelBlockDescs i =
            (heapSlab i).blocks p := by
        rw [Heap.relist_self, hempty, List.nil_append]
      cases hblocks : (heapSlab i).blocks p with
      | nil =>
        have hlen := length_blocks i p
        rw [hblocks] at hlen
        exact absurd hlen.symm (Nat.ne_of_gt (blocksPerArena_pos i))
      | cons b l =>
        have hpage : pageOf b = p := (heapSlab i).owner_eq p b (hblocks ▸ List.mem_cons_self ..)
        have hg1 : Grounded s1 threads D g (spanPages (⟨p, 1, some i⟩ :: spans) ++ (R ++ L)) H := by
          rw [spanPages, List.flatMap_cons, List.append_assoc]
          exact hprov.grounded
        have hbusy1 : ∀ x ∈ (⟨p, 1, some i⟩ : Span) :: spans, x.page ≠ pageOf b →
            Busy (h.relist i (h.kernelBlockDescs i ++ (heapSlab i).blocks p) p
              ⟨some i, BitVec.ofNat 32 (blocksPerArena i), false⟩) x := by
          intro x hx hne
          rw [hpage] at hne
          exact (hbusy x ((List.mem_cons.mp hx).resolve_left fun he => hne (he ▸ rfl))).grow hne _
        obtain ⟨r, s', h', htake, hans⟩ := hok1.takeAnswer hg1 (hlist.trans hblocks) hbusy1 hsize
        have hsame := hok.same_blocks hg.vaddrs (hloads.mono (List.subset_append_left ..))
        refine ⟨r, s', h', ?_, (hprov.kept (hloads.mono (List.subset_append_right ..))).trans hans.kept,
          fun c n hc k hk => (hans.blocks c n hc k hk).trans (hsame c n hc k hk), hans.none, hans.some⟩
        rw [hnew]
        exact htake
  · rw [if_neg hempty]
    cases hlist : h.kernelBlockDescs i with
    | nil => exact absurd hlist hempty
    | cons b l => exact hok.takeAnswer hg hlist (fun x hx _ => hbusy x hx) hsize

/-- A large block is live. -/
theorem LiveBlock.growLarge {x : Span} (hd : x.desc = none) {k : VPage} {a : Arena} {c : Nat} :
    LiveBlock (h.setArena k a) (x :: spans) b c ↔
      LiveBlock h spans b c ∨ (b = x.block ∧ c = x.cnt * pgSize - arenaSize) := by
  have harenas : ∀ j, arenasOf (x :: spans) j = arenasOf spans j := fun j =>
    arenasOf_cons_ne (by rw [hd]; nofun)
  constructor
  · intro hb
    cases hb with
    | small j b hb => exact .inl (.small j b (harenas j ▸ hb))
    | large y hy hyd =>
      rcases List.mem_cons.mp hy with rfl | hy
      · exact .inr ⟨rfl, rfl⟩
      · exact .inl (.large y hy hyd)
  · rintro (hb | ⟨rfl, rfl⟩)
    · cases hb with
      | small j b hb => exact .small j b ((harenas j).symm ▸ hb)
      | large y hy hyd => exact .large y (List.mem_cons_of_mem _ hy) hyd
    · exact .large x (List.mem_cons_self ..) hd

/-- No live block lies in a page that no span has. -/
theorem HeapOk.not_live (hok : HeapOk s h spans live) (hva : VaddrsOk s (· ∈ threads))
    (hnew : ∀ y ∈ spans, y.page ≠ pageOf b) : live b = none := by
  cases hlive : live b with
  | none => rfl
  | some size =>
    obtain ⟨c, hb, -⟩ := hok.fits b size hlive
    obtain ⟨y, hy, hpage, -⟩ := hb.span hva hok.own
    exact absurd hpage (hnew y hy)

/-- **The pages of a large block** join the spans. -/
theorem HeapOk.growLarge (hok : HeapOk s h spans live) {x : Span} (hd : x.desc = none)
    (hnew : ∀ y ∈ spans, y.page ≠ x.page) (hsize : size.toNat ≤ x.cnt * pgSize - arenaSize)
    (hown : ∀ y ∈ x :: spans, 1 ≤ y.cnt ∧ s'.OwnRun y.cnt y.vaddr) :
    HeapOk s' (h.setArena (kernelDir, x.page) ⟨none, BitVec.ofNat 32 x.cnt, true⟩) (x :: spans)
      (Function.update live x.block (some size)) := by
  obtain ⟨hfits, hall⟩ := hok.live_add hsize fun b c => LiveBlock.growLarge (b := b) (c := c) hd
    (k := (kernelDir, x.page)) (a := ⟨none, BitVec.ofNat 32 x.cnt, true⟩)
  refine ⟨hown, fun j => ?_, fun y hy => ?_, hfits, hall⟩
  · rw [arenasOf_cons_ne (by rw [hd]; nofun)]
    exact hok.holds j
  · rcases List.mem_cons.mp hy with rfl | hold
    · unfold HeaderOk
      rw [hd]
      exact Function.update_self ..
    · refine (hok.header y hold).congr ?_ fun _ _ => rfl
      exact Function.update_of_ne (fun hk => hnew y hold (congrArg Prod.snd hk)) ..

/-- The words of fresh pages are zero. -/
theorem Grounded.zeroed {L : List VPage} {x : Span} (hg : Grounded s threads D g L H)
    (hsub : x.pages ⊆ L) (hend : x.page.toNat * 4096 + x.cnt * 4096 ≤ 0xffc00000)
    (hhigh : 0xc0000000 ≤ x.vaddr.toNat)
    (hzero : ∀ k ∈ x.pages, ∀ f, s.frameAt k = some f → s.mem f = fun _ => 0)
    (hsize : size.toNat ≤ x.cnt * pgSize - arenaSize) : Zeroed s x.block size := by
  intro k hk
  have hb := x.block_toNat
  have hv := x.vaddr_toNat
  unfold pgSize arenaSize at *
  have hnat : (x.block + BitVec.ofNat 32 (k * 4)).toNat = x.page.toNat * 4096 + 12 + k * 4 := by
    rw [BitVec.toNat_add, BitVec.toNat_ofNat, hb]
    omega
  have hmem : vpage kernelDir (x.block + BitVec.ofNat 32 (k * 4)) ∈ x.pages := by
    rw [vpage, ite_self]
    refine (Span.mem_pages hend).mpr ?_
    rw [pageOf_toNat, hnat]
    omega
  obtain ⟨f, hf, hwalk, -⟩ := hg.walk_page (by rw [hnat]; omega) (hsub hmem)
  rw [Machine.load, hwalk]
  exact congrArg _ (congrFun (hzero _ hmem f hf) _)

/-- **`sys_malloc`** of more than 1024 bytes. -/
theorem HeapInv.mallocLarge (hi : HeapInv s h threads D g R H live)
    (hmax : (size.toNat + 4107) / 4096 < 3840)
    (hlt : (size.toNat + 4107) / 4096 < s.kernelVaddr.vaddrBitmap.len) :
    ∃ r s' h', GwOS.mallocLarge s h .kernel size = .ok (r, s', h') ∧
      MallocAnswer s s' h' threads D g R H live size r := by
  obtain ⟨spans, L, hg, hok, hbusy⟩ := hi
  have hcnt : (pageCnt size).toNat = (size.toNat + 4107) / 4096 := pageCnt_toNat (by omega)
  obtain ⟨r, s1, hr, hnone, hsome⟩ := hg.mallocPage
    (show 1 ≤ (pageCnt size).toNat by omega) (hcnt ▸ hmax) (hcnt ▸ hlt)
  cases r with
  | none =>
    obtain ⟨⟨N, hprov⟩, hloads⟩ := hnone rfl
    refine ⟨none, s1, h, ?_, hprov.kept (hloads.mono (List.subset_append_right ..)),
      hok.same_blocks hg.vaddrs (hloads.mono (List.subset_append_left ..)),
      fun _ => hok.lost hbusy hprov, by rintro _ ⟨⟩⟩
    rw [GwOS.mallocLarge, hr]
    rfl
  | some v =>
    obtain ⟨m, hm, hprov, hloads, hrun, hzero⟩ := hsome v rfl
    have hpos : 1 ≤ (pageCnt size).toNat := by omega
    obtain ⟨hhigh, -, hal⟩ := hrun.bounds hprov.grounded.vaddrs hpos
    have hv := addrOf_of_aligned hal
    -- the span of the block
    generalize hx : (⟨pageOf v, (pageCnt size).toNat, none⟩ : Span) = x
    have hxv : x.vaddr = v := by
      rw [← hx]
      exact hv
    have hxp : x.page = pageOf v := by rw [← hx]
    have hxc : x.cnt = (pageCnt size).toNat := by rw [← hx]
    have hxd : x.desc = none := by rw [← hx]
    have hpages : vpages kernelDir (pageCnt size).toNat v = x.pages := by rw [Span.pages, hxv, hxc]
    rw [hpages] at hprov hzero
    rw [← hxv, ← hxc] at hrun
    have hnew : ∀ y ∈ spans, y.page ≠ x.page := fun y hy =>
      hprov.grounded.new_page (hxc ▸ hpos) hy (hok.own y hy).1
    have hown : ∀ y ∈ x :: spans,
        1 ≤ y.cnt ∧ ({ s1 with toMachine := m } : Memory).OwnRun y.cnt y.vaddr := by
      intro y hy
      rcases List.mem_cons.mp hy with rfl | hold
      · exact ⟨hxc ▸ hpos, hrun⟩
      · exact HeapOk.frames hok.own hprov.ranges hprov.steady (fun k hk => hprov.frame k
          (List.mem_append_left H (List.mem_append_left _ hk))) y hold
    have hsize : size.toNat ≤ x.cnt * pgSize - arenaSize := by
      rw [hxc, hcnt]
      unfold pgSize arenaSize
      omega
    have hfree : live x.block = none := by
      refine hok.not_live hg.vaddrs fun y hy => ?_
      rw [x.pageOf_block]
      exact hnew y hy
    have hbounds := Span.end_le hprov.grounded.vaddrs hrun (hxc ▸ hpos)
    have hcleared := hprov.grounded.zeroed (List.subset_append_left ..) hbounds.2 hbounds.1 hzero hsize
    refine ⟨some x.block, { s1 with toMachine := m },
      h.setArena (kernelDir, x.page) ⟨none, BitVec.ofNat 32 x.cnt, true⟩, ?_,
      hprov.kept (hloads.mono (List.subset_append_right ..)),
      hok.same_blocks hg.vaddrs (hloads.mono (List.subset_append_left ..)), by rintro ⟨⟩, fun b hb => ?_⟩
    · rw [GwOS.mallocLarge, hr]
      show (clearPages (pageCnt size).toNat v s1.toMachine >>= _) = _
      rw [hm]
      have hkey : vpage s1.cr3 v = (kernelDir, x.page) := by
        rw [vpage_kernel hhigh, vpage, ite_self, hxp]
      have hblock : v + BitVec.ofNat 32 arenaSize = x.block := by rw [Span.block, hxv]
      show Except.ok (some (v + BitVec.ofNat 32 arenaSize), _, h.setArena (vpage s1.cr3 v) _) = _
      rw [hkey, hblock, hxc, BitVec.ofNat_toNat, BitVec.setWidth_eq]
    · cases hb
      refine ⟨hfree, hcleared, x :: spans, L, ?_, hok.growLarge hxd hnew hsize hown, fun y hy => ?_⟩
      · rw [spanPages, List.flatMap_cons, List.append_assoc]
        exact hprov.grounded
      · rcases List.mem_cons.mp hy with rfl | hold
        · intro j hj
          rw [hxd] at hj
          cases hj
        · exact hbusy y hold

/-- A request that the heap can search pages for: `bitmap_apply_cnt` looks at as many bits as the
bitmap has bytes. -/
def Searchable (s : Memory) (size : BitVec 32) : Prop :=
  (size.toNat + 4107) / 4096 < 3840 ∧ (size.toNat + 4107) / 4096 < s.kernelVaddr.vaddrBitmap.len

/-- **`sys_malloc`.** -/
theorem HeapInv.sysMalloc (hi : HeapInv s h threads D g R H live)
    (hreq : 0 < size → size < s.kernelPool.poolSize → Searchable s size) :
    ∃ r s' h', GwOS.sysMalloc s h size = .ok (r, s', h') ∧
      MallocAnswer s s' h' threads D g R H live size r := by
  have hflag : s.heapFlag = .kernel := by
    obtain ⟨_, _, hg, -⟩ := hi
    exact hg.heapFlag
  have hpool : s.pool .kernel = s.kernelPool := rfl
  rw [GwOS.sysMalloc, hflag, hpool]
  by_cases hsize : 0 < size ∧ size < s.kernelPool.poolSize
  · obtain ⟨hmax, hlt⟩ := hreq hsize.1 hsize.2
    have hpos : 0 < size.toNat := hsize.1
    rw [if_neg (not_not.mpr hsize)]
    by_cases hlarge : 1024 < size
    · rw [if_pos hlarge]
      exact hi.mallocLarge hmax hlt
    · rw [if_neg hlarge]
      exact hi.mallocSmall (by omega) (findDesc_fits (BitVec.not_lt.mp hlarge))
  · rw [if_pos hsize]
    exact ⟨none, s, h, rfl, .refl s R, fun _ _ _ _ _ => rfl, fun _ => hi, nofun⟩

end Calls

/-! ## `sys_free` -/

section Free

variable {s s' : Memory} {h h' : Heap} {spans : List Span} {threads : List Addr}
  {D : Frame → Prop} {g : VPage → Frame} {L H R : List VPage} {live : Addr → Option (BitVec 32)}
  {b b' : Addr} {c : Nat} {i : Fin descCnt} {x y : Span} {p : BitVec 20} {l : List Addr}

/-- The spans are different ones. -/
theorem HeapOk.nodup (hok : HeapOk s h spans live) (hnd : (spanPages spans).Nodup) : spans.Nodup := by
  have hpair := (List.nodup_flatMap.mp hnd).2
  refine hpair.imp_of_mem fun {x y} hx _ hdisj he => ?_
  exact hdisj (Span.first_mem (hok.own x hx).1) (he ▸ Span.first_mem (hok.own x hx).1)

/-- The arenas after one has been given up. -/
theorem arenasOf_erase (hnd : spans.Nodup) :
    arenasOf (spans.erase ⟨p, 1, some i⟩) i = arenasOf spans i \ {p} := by
  ext q
  have hq : q ∈ arenasOf (spans.erase ⟨p, 1, some i⟩) i ↔
      (⟨q, 1, some i⟩ : Span) ≠ ⟨p, 1, some i⟩ ∧ (⟨q, 1, some i⟩ : Span) ∈ spans :=
    hnd.mem_erase_iff
  rw [hq, Ne, Span.mk.injEq]
  simp only [and_true, Set.mem_sdiff, Set.mem_singleton_iff]
  exact And.comm

theorem arenasOf_erase_ne (hnd : spans.Nodup) (hx : x.desc ≠ some i) :
    arenasOf (spans.erase x) i = arenasOf spans i := by
  ext q
  have hq : q ∈ arenasOf (spans.erase x) i ↔ (⟨q, 1, some i⟩ : Span) ≠ x ∧ (⟨q, 1, some i⟩ : Span) ∈ spans :=
    hnd.mem_erase_iff
  rw [hq]
  refine and_iff_right_of_imp fun _ he => hx ?_
  rw [← he]

/-- **`mfree_page`** of a span. -/
theorem HeapOk.freeSpan (hok : HeapOk s h spans live)
    (hg : Grounded s threads D g (spanPages spans ++ (R ++ L)) H) (hx : x ∈ spans) :
    ∃ s', GwOS.mfreePage s .kernel x.vaddr x.cnt = .ok s' ∧
      Grounded s' threads D g (spanPages (spans.erase x) ++ (R ++ L)) H ∧ Kept s s' R ∧
      Loads s s' (spanPages (spans.erase x)) ∧ (∀ y ∈ spans.erase x, 1 ≤ y.cnt ∧ s'.OwnRun y.cnt y.vaddr) ∧
      ∀ k ∈ x.pages, s'.frameAt k = none := by
  obtain ⟨hcnt, hrun⟩ := hok.own x hx
  have hperm : (spanPages spans ++ (R ++ L)).Perm
      (vpages kernelDir x.cnt x.vaddr ++ (spanPages (spans.erase x) ++ (R ++ L))) := by
    have hpages := ((List.perm_cons_erase hx).flatMap_right Span.pages).append_right (R ++ L)
    rwa [List.flatMap_cons, List.append_assoc] at hpages
  obtain ⟨s', hfree, hg', hr, hrem⟩ := (hg.perm hperm).mfreePage hrun hcnt
  have hframe : ∀ k ∈ spanPages (spans.erase x) ++ (R ++ L), s'.frameAt k = s.frameAt k := fun k hk =>
    hrem.keeps.frame k (List.mem_append_left H hk)
  have hsub := List.subset_append_right (vpages kernelDir x.cnt x.vaddr)
    (spanPages (spans.erase x) ++ (R ++ L))
  have hloads : Loads s s' (spanPages (spans.erase x) ++ (R ++ L)) :=
    (hg.perm hperm).loads hg' hsub (List.Subset.refl _) hframe fun k hk f hf =>
      hrem.keeps.data k (List.mem_append_left H hk) f hf ((hg.perm hperm).owned.loose k (hsub hk) f hf)
  refine ⟨s', hfree, hg', ⟨hr, hrem.steady, fun k hk => ?_, ?_⟩, ?_, ?_, hrem.gone⟩
  · exact hframe k (List.mem_append_right _ (List.mem_append_left L hk))
  · refine hloads.mono ?_
    exact List.Subset.trans (List.subset_append_left R L) (List.subset_append_right ..)
  · exact hloads.mono (List.subset_append_left ..)
  · exact HeapOk.frames (fun y hy => hok.own y (List.mem_of_mem_erase hy)) hr hrem.steady fun k hk =>
      hframe k (List.mem_append_left _ hk)

/-- An arena that is given up has no live block. -/
theorem LiveBlock.shrink (hnd : spans.Nodup) (hfull : ∀ b ∈ (heapSlab i).blocks p, b ∈ h.kernelBlockDescs i)
    (r : Arena) :
    LiveBlock (h.relist i ((heapSlab i).retire (h.kernelBlockDescs i) p) p r)
      (spans.erase ⟨p, 1, some i⟩) b c ↔ LiveBlock h spans b c := by
  constructor
  · intro hb
    cases hb with
    | small j b hb =>
      refine .small j b ?_
      by_cases hj : j = i
      · subst hj
        rw [arenasOf_erase hnd, Heap.relist_self] at hb
        exact (Slab.live_retire hfull).mp hb
      · rwa [arenasOf_erase_ne hnd (by simpa using Ne.symm hj), Heap.relist_ne hj] at hb
    | large x hx hd => exact .large x (List.mem_of_mem_erase hx) hd
  · intro hb
    cases hb with
    | small j b hb =>
      refine .small j b ?_
      by_cases hj : j = i
      · subst hj
        rw [arenasOf_erase hnd, Heap.relist_self]
        exact (Slab.live_retire hfull).mpr hb
      · rwa [arenasOf_erase_ne hnd (by simpa using Ne.symm hj), Heap.relist_ne hj]
    | large x hx hd =>
      refine .large x (hnd.mem_erase_iff.mpr ⟨?_, hx⟩) hd
      rintro rfl
      cases hd

/-- **An arena is given up** when all of its blocks are free. -/
theorem HeapOk.shrink (hok : HeapOk s h spans live) (hnd : (spanPages spans).Nodup)
    (hp : ⟨p, 1, some i⟩ ∈ spans) (hfull : ∀ b ∈ (heapSlab i).blocks p, b ∈ h.kernelBlockDescs i)
    (hown : ∀ y ∈ spans.erase ⟨p, 1, some i⟩, 1 ≤ y.cnt ∧ s'.OwnRun y.cnt y.vaddr) (r : Arena) :
    HeapOk s' (h.relist i ((heapSlab i).retire (h.kernelBlockDescs i) p) p r)
      (spans.erase ⟨p, 1, some i⟩) live := by
  have hspans := hok.nodup hnd
  refine ⟨hown, fun k => ?_, fun x hx => ?_, fun b n hb => ?_, fun b c hb => ?_⟩
  · by_cases hk : k = i
    · subst hk
      rw [arenasOf_erase hspans, Heap.relist_self]
      exact (hok.holds k).retire
    · rw [arenasOf_erase_ne hspans (by simpa using Ne.symm hk), Heap.relist_ne hk]
      exact hok.holds k
  · obtain ⟨hne, hold⟩ := hspans.mem_erase_iff.mp hx
    have hpage : x.page ≠ p := fun he => hne (hok.span_eq hnd hold hp he)
    refine (hok.header x hold).congr (Heap.relist_arena_ne hpage _) fun j _ => ?_
    by_cases hj : j = i
    · subst hj
      rw [Heap.relist_self, Slab.freeOf_retire_ne _ hpage]
    · rw [Heap.relist_ne hj]
  · obtain ⟨c, hc, hle⟩ := hok.fits b n hb
    exact ⟨c, (LiveBlock.shrink hspans hfull _).mpr hc, hle⟩
  · exact hok.all b c ((LiveBlock.shrink hspans hfull _).mp hb)

/-- A large block is live no more. -/
theorem HeapOk.shrinkLarge (hok : HeapOk s h spans live) (hnd : (spanPages spans).Nodup)
    (hx : x ∈ spans) (hd : x.desc = none)
    (hown : ∀ y ∈ spans.erase x, 1 ≤ y.cnt ∧ s'.OwnRun y.cnt y.vaddr) :
    HeapOk s' h (spans.erase x) (Function.update live x.block none) := by
  have hspans := hok.nodup hnd
  have harenas : ∀ j, arenasOf (spans.erase x) j = arenasOf spans j := fun j =>
    arenasOf_erase_ne hspans (by rw [hd]; nofun)
  have hiff : ∀ b c, LiveBlock h (spans.erase x) b c ↔ LiveBlock h spans b c ∧ b ≠ x.block := by
    intro b c
    constructor
    · intro hb
      cases hb with
      | small j b hb =>
        rw [harenas] at hb
        refine ⟨.small j b hb, ?_⟩
        rintro rfl
        have he := hok.span_eq hnd hb.arena hx x.pageOf_block
        rw [← he] at hd
        cases hd
      | large y hy hyd =>
        obtain ⟨hne, hold⟩ := hspans.mem_erase_iff.mp hy
        refine ⟨.large y hold hyd, fun he => hne (hok.span_eq hnd hold hx ?_)⟩
        rw [← y.pageOf_block, he, x.pageOf_block]
    · rintro ⟨hb, hne⟩
      cases hb with
      | small j b hb => exact .small j b ((harenas j).symm ▸ hb)
      | large y hy hyd =>
        refine .large y (hspans.mem_erase_iff.mpr ⟨?_, hy⟩) hyd
        rintro rfl
        exact hne rfl
  obtain ⟨hfits, hall⟩ := hok.live_remove hiff
  exact ⟨hown, fun j => harenas j ▸ hok.holds j, fun y hy => hok.header y (List.mem_of_mem_erase hy),
    hfits, hall⟩

/-- The heap after a block has been put back and counted. -/
def Heap.putBack (h : Heap) (i : Fin descCnt) (b : Addr) : Heap :=
  h.relist i (h.kernelBlockDescs i ++ [b]) (pageOf b)
    ⟨some i, BitVec.ofNat 32 ((heapSlab i).freeOf (h.kernelBlockDescs i ++ [b]) (pageOf b)), false⟩

@[simp] theorem Heap.putBack_self (h : Heap) (i : Fin descCnt) (b : Addr) :
    (h.putBack i b).kernelBlockDescs i = h.kernelBlockDescs i ++ [b] := Heap.relist_self ..

/-- **A block is put back.** -/
theorem HeapOk.put (hok : HeapOk s h spans live) (hnd : (spanPages spans).Nodup)
    (hb : (heapSlab i).Live (arenasOf spans i) (h.kernelBlockDescs i) b) :
    HeapOk s (h.putBack i b) spans (Function.update live b none) := by
  have howner : (heapSlab i).owner b = pageOf b := rfl
  obtain ⟨hfits, hall⟩ := hok.live_remove fun b' c => hok.relist_put hnd (b := b') (c := c) (p := pageOf b)
    (fun _ => Slab.live_put) hb.arena
    ⟨some i, BitVec.ofNat 32 ((heapSlab i).freeOf (h.kernelBlockDescs i ++ [b]) (pageOf b)), false⟩
  refine ⟨hok.own, fun k => ?_, ?_, hfits, hall⟩
  · by_cases hk : k = i
    · subst hk
      rw [Heap.putBack_self]
      exact (hok.holds k).put hb
    · rw [Heap.putBack, Heap.relist_ne hk]
      exact hok.holds k
  · refine hok.relist_header hnd hb.arena fun q hq => ?_
    rw [Slab.freeOf_put, howner, if_neg fun he => hq he.symm, Nat.add_zero]

theorem HeapOk.live_iff (hok : HeapOk s h spans live) : live b ≠ none ↔ ∃ c, LiveBlock h spans b c := by
  constructor
  · intro hlive
    obtain ⟨size, hsize⟩ := Option.ne_none_iff_exists'.mp hlive
    obtain ⟨c, hc, -⟩ := hok.fits b size hsize
    exact ⟨c, hc⟩
  · rintro ⟨c, hc⟩
    exact hok.all b c hc

/-- What `sys_free` has done with the block of `c` bytes at `b`. -/
structure FreeAnswer (s s' : Memory) (h' : Heap) (threads : List Addr) (D : Frame → Prop)
    (g : VPage → Frame) (R H : List VPage) (live : Addr → Option (BitVec 32)) (b : Addr) (c : Nat) :
    Prop where
  kept : Kept s s' R
  blocks : SameBlocks s s' live
  inv : HeapInv s' h' threads D g R H live
  pages : ∀ j < c, s'.frameAt (vpage kernelDir (b + BitVec.ofNat 32 j)) = none ↔
    ∀ b', live b' ≠ none → pageOf b' ≠ pageOf b

/-- The arena of the block stays: another block of it is live. -/
theorem HeapOk.stays (hok : HeapOk s h spans live) (hbusy : Busy h ⟨p, 1, some i⟩)
    (hp : ⟨p, 1, some i⟩ ∈ spans) : ∃ b', live b' ≠ none ∧ pageOf b' = p := by
  have hlt := hbusy i rfl
  have hlt' : (heapSlab i).freeOf (h.kernelBlockDescs i) p < ((heapSlab i).blocks p).length := by
    rw [length_blocks]
    exact hlt
  obtain ⟨b', hmem, hb'⟩ := (hok.holds i).exists_live hp hlt'
  exact ⟨b', hok.all b' _ (.small i b' hb'), (heapSlab i).owner_eq p b' hmem⟩

/-- The span of the block is given up: no other block of its page is live. -/
theorem HeapOk.given_up (hok : HeapOk s' h' (spans.erase x) live) (hva : VaddrsOk s' (· ∈ threads))
    (hne : ∀ y ∈ spans.erase x, y.page ≠ x.page) (hlive : live b' ≠ none) : pageOf b' ≠ x.page := by
  obtain ⟨c, hc⟩ := hok.live_iff.mp hlive
  obtain ⟨y, hy, hpage, -⟩ := hc.span hva hok.own
  exact hpage ▸ hne y hy

/-- The span of a block is given up. -/
theorem FreeAnswer.of_gone (hok : HeapOk s h spans live) (hg : Grounded s threads D g (spanPages spans ++ (R ++ L)) H)
    (hx : x ∈ spans) (he : x.page = pageOf b) (hb : LiveBlock h spans b c) {live' : Addr → Option (BitVec 32)}
    (hok' : HeapOk s' h' (spans.erase x) live')
    (hg' : Grounded s' threads D g (spanPages (spans.erase x) ++ (R ++ L)) H) (hkept : Kept s s' R)
    (hloads : Loads s s' (spanPages (spans.erase x))) (hbusy : ∀ y ∈ spans.erase x, Busy h' y) (hgone : ∀ k ∈ x.pages, s'.frameAt k = none) :
    FreeAnswer s s' h' threads D g R H live' b c := by
  have hnd := hg.spans_nodup
  refine ⟨hkept, hok'.same_blocks hg'.vaddrs hloads, ⟨spans.erase x, L, hg', hok', hbusy⟩,
    fun j hj => ⟨fun _ b' hlive => ?_, fun _ => ?_⟩⟩
  · refine he ▸ hok'.given_up hg'.vaddrs (fun y hy hpage => ?_) hlive
    obtain ⟨hne, hold⟩ := (hok.nodup hnd).mem_erase_iff.mp hy
    exact hne (hok.span_eq hnd hold hx hpage)
  · obtain ⟨y, hy, hpage, hbytes⟩ := hb.byte_mem hg.vaddrs hok.own
    have hyx := hok.span_eq hnd hy hx (hpage.trans he.symm)
    exact hgone _ (hyx ▸ (hbytes j hj).2.2)

/-- The arenas of other pages are as busy as before. -/
theorem Busy.putBack (hbusy : Busy h x) (hne : x.page ≠ pageOf b) : Busy (h.putBack i b) x := by
  intro k hk
  have hold := hbusy k hk
  by_cases hki : k = i
  · subst hki
    have howner : (heapSlab k).owner b ≠ x.page := fun he => hne (Eq.symm he)
    rwa [Heap.putBack_self, Slab.freeOf_put, if_neg howner, Nat.add_zero]
  · rwa [Heap.putBack, Heap.relist_ne hki]

/-- The counter of the arena decides what happens to its page. -/
theorem HeapOk.freeSmall_eq (hok : HeapOk s h spans live) (hva : VaddrsOk s (· ∈ threads))
    (hb : (heapSlab i).Live (arenasOf spans i) (h.kernelBlockDescs i) b) :
    GwOS.freeSmall s h .kernel i (block2arena b) b =
      if (heapSlab i).freeOf (h.kernelBlockDescs i ++ [b]) (pageOf b) = blocksPerArena i then do
        let l ← removeBlocks (addrOf (pageOf b) 0) i (blocksPerArena i) 0 (h.kernelBlockDescs i ++ [b])
        let s ← GwOS.mfreePage s .kernel (addrOf (pageOf b) 0) 1
        .ok (s, (h.putBack i b).setFreeList s .kernel i l)
      else .ok (s, h.putBack i b) := by
  obtain ⟨-, hkey, hheader⟩ := hok.arena_eq hb.arena hva s.cr3
  have hcnt : BitVec.ofNat 32 ((heapSlab i).freeOf (h.kernelBlockDescs i) (pageOf b)) + 1 =
      BitVec.ofNat 32 ((heapSlab i).freeOf (h.kernelBlockDescs i ++ [b]) (pageOf b)) := by
    have howner : (heapSlab i).owner b = pageOf b := rfl
    rw [Slab.freeOf_put, if_pos howner, BitVec.ofNat_add]
    rfl
  have hnat : (BitVec.ofNat 32 ((heapSlab i).freeOf (h.kernelBlockDescs i ++ [b]) (pageOf b))).toNat =
      (heapSlab i).freeOf (h.kernelBlockDescs i ++ [b]) (pageOf b) := by
    have hle := ((hok.holds i).put hb).freeOf_le (pageOf b)
    rw [length_blocks] at hle
    have hper := blocksPerArena_le i
    rw [BitVec.toNat_ofNat]
    omega
  have hset : (h.setFreeList s .kernel i (h.freeList s .kernel i ++ [b])).setArena
      (kernelDir, pageOf b) ⟨some i, BitVec.ofNat 32
        ((heapSlab i).freeOf (h.kernelBlockDescs i ++ [b]) (pageOf b)), false⟩ = h.putBack i b := rfl
  have harena : (h.setFreeList s .kernel i (h.freeList s .kernel i ++ [b])).arena (kernelDir, pageOf b) =
      ⟨some i, BitVec.ofNat 32 ((heapSlab i).freeOf (h.kernelBlockDescs i) (pageOf b)), false⟩ := hheader
  have hlist : (h.putBack i b).freeList s .kernel i = h.kernelBlockDescs i ++ [b] := Heap.putBack_self ..
  rw [GwOS.freeSmall, hkey]
  simp only [harena, hcnt, hset, hnat, hlist]
  rw [block2arena_eq]

/-- **`sys_free`** of a block of an arena. -/
theorem HeapOk.freeSmall (hok : HeapOk s h spans live)
    (hg : Grounded s threads D g (spanPages spans ++ (R ++ L)) H) (hbusy : ∀ x ∈ spans, Busy h x)
    (hb : (heapSlab i).Live (arenasOf spans i) (h.kernelBlockDescs i) b) :
    ∃ s' h', GwOS.freeSmall s h .kernel i (block2arena b) b = .ok (s', h') ∧
      FreeAnswer s s' h' threads D g R H (Function.update live b none) b (blockSize i) := by
  have hnd := hg.spans_nodup
  have hp : ⟨pageOf b, 1, some i⟩ ∈ spans := hb.arena
  have hok1 := hok.put hnd hb
  have hblock : LiveBlock h spans b (blockSize i) := .small i b hb
  rw [hok.freeSmall_eq hg.vaddrs hb]
  by_cases hfull : (heapSlab i).freeOf (h.kernelBlockDescs i ++ [b]) (pageOf b) = blocksPerArena i
  · -- the last block has come back, and the page is given up
    rw [if_pos hfull]
    have hall := ((hok.holds i).put hb).full_iff.mp (hfull.trans (length_blocks i (pageOf b)).symm)
    have hremove := removeBlocks_eq ((hok.holds i).put hb) hall
    obtain ⟨s', hfree, hg', hkept, hloads, hown, hgone⟩ := hok1.freeSpan hg hp
    have hok2 := hok1.shrink hnd hp (by rw [Heap.putBack_self]; exact hall) hown
      ((h.putBack i b).arena (kernelDir, pageOf b))
    have hset : ∀ l, (h.putBack i b).setFreeList s' .kernel i l =
        (h.putBack i b).relist i l (pageOf b) ((h.putBack i b).arena (kernelDir, pageOf b)) := by
      intro l
      rw [Heap.relist, Function.update_eq_self]
      rfl
    refine ⟨s', _, ?_, .of_gone hok hg hp rfl hblock hok2 hg' hkept hloads (fun y hy => ?_) hgone⟩
    · rw [hremove]
      show (GwOS.mfreePage s .kernel (addrOf (pageOf b) 0) 1 >>= _) = _
      have hfree' : GwOS.mfreePage s .kernel (addrOf (pageOf b) 0) 1 = .ok s' := hfree
      rw [hfree', Heap.putBack_self]
      exact congrArg (fun h => Except.ok (s', h)) (hset _)
    · obtain ⟨hne, hold⟩ := (hok.nodup hnd).mem_erase_iff.mp hy
      have hpage : y.page ≠ pageOf b := fun he => hne (hok.span_eq hnd hold hp he)
      intro k hk
      have hlt := (hbusy y hold).putBack (i := i) hpage k hk
      by_cases hki : k = i
      · subst hki
        rwa [Heap.relist_self, Slab.freeOf_retire_ne _ hpage]
      · rwa [Heap.relist_ne hki]
  · rw [if_neg hfull]
    have hstay : Busy (h.putBack i b) ⟨pageOf b, 1, some i⟩ := by
      intro k hk
      cases hk
      have hle := ((hok.holds i).put hb).freeOf_le (pageOf b)
      rw [length_blocks] at hle
      rw [Heap.putBack_self]
      exact Nat.lt_of_le_of_ne hle hfull
    have hbusy' : ∀ x ∈ spans, Busy (h.putBack i b) x := by
      intro x hx
      by_cases he : x.page = pageOf b
      · exact hok.span_eq hnd hx hp he ▸ hstay
      · exact (hbusy x hx).putBack he
    refine ⟨s, _, rfl, .refl s R, fun _ _ _ _ _ => rfl, ⟨spans, L, hg, hok1, hbusy'⟩, fun j hj => ?_⟩
    obtain ⟨y, hy, hyp, hbytes⟩ := hblock.byte_mem hg.vaddrs hok.own
    have hmem := hok.span_eq hnd hy hp hyp ▸ (hbytes j hj).2.2
    obtain ⟨f, hf, -⟩ := hg.owned.mapped _
      (List.mem_append_left H (List.mem_append_left _ (mem_spanPages hp hmem)))
    obtain ⟨b', hlive, hpage⟩ := hok1.stays hstay hp
    refine ⟨fun hnone => ?_, fun hall => absurd hpage (hall b' hlive)⟩
    rw [hf] at hnone
    cases hnone

/-- The header that `sys_free` reads. -/
theorem HeapOk.header_page (hok : HeapOk s h spans live)
    (hg : Grounded s threads D g (spanPages spans ++ (R ++ L)) H) (hx : x ∈ spans)
    (he : x.page = pageOf b) : (∃ w, s.load (block2arena b) = .ok w) ∧ block2arena b = x.vaddr ∧
      vpage s.cr3 (block2arena b) = (kernelDir, x.page) := by
  obtain ⟨hhigh, -⟩ := Span.end_le hg.vaddrs (hok.own x hx).2 (hok.own x hx).1
  have ha : block2arena b = x.vaddr := by rw [block2arena_eq, Span.vaddr, he]
  have hmem : vpage kernelDir x.vaddr ∈ spanPages spans ++ (R ++ L) := by
    rw [x.vpage_vaddr]
    exact List.mem_append_left _ (mem_spanPages hx (Span.first_mem (hok.own x hx).1))
  obtain ⟨f, -, hwalk, -⟩ := hg.walk_page hhigh hmem
  refine ⟨⟨s.mem f (wordIdx x.vaddr), ?_⟩, ha, ?_⟩
  · rw [ha, Machine.load, hwalk]
  · rw [ha, vpage_kernel hhigh, x.vpage_vaddr]

/-- A block of the heap is no null pointer, and it lies in the heap of the kernel. -/
theorem LiveBlock.in_heap (hb : LiveBlock h spans b c) (hok : HeapOk s h spans live)
    (hg : Grounded s threads D g (spanPages spans ++ (R ++ L)) H) : b ≠ 0 ∧ kernelHeapStart ≤ b := by
  obtain ⟨x, hx, -, -, hlo, -⟩ := hb.span hg.vaddrs hok.own
  obtain ⟨idx, hidx, hv⟩ := (hok.own x hx).2.place
  have hcnt := (hok.own x hx).1
  obtain ⟨hnat, -⟩ := hg.vaddrs.kernelPage_toNat
    (show idx < 8 * s.kernelVaddr.vaddrBitmap.len by omega)
  rw [← hv, x.vaddr_toNat] at hnat
  have hstart : kernelHeapStart.toNat ≤ s.kernelVaddr.vaddrStart.toNat := hg.start
  have hval : kernelHeapStart.toNat = 0xc0100000 := rfl
  refine ⟨?_, BitVec.le_def.mpr (by omega)⟩
  rintro rfl
  have hzero : (0 : Addr).toNat = 0 := rfl
  omega

/-- The two ways through `sys_free`. -/
theorem sysFree_small {w : Addr} (hflag : s.heapFlag = .kernel) (hnull : b ≠ 0) (hlow : kernelHeapStart ≤ b)
    (hload : s.load (block2arena b) = .ok w) (hdesc : (h.arena (vpage s.cr3 (block2arena b))).desc = some i) :
    GwOS.sysFree s h b = GwOS.freeSmall s h .kernel i (block2arena b) b := by
  unfold GwOS.sysFree
  rw [if_neg hnull, if_neg fun hg => hg.2 hlow]
  dsimp only [bind, Except.bind]
  rw [hload]
  dsimp only
  rw [hdesc, hflag]

theorem sysFree_large {w : Addr} (hflag : s.heapFlag = .kernel) (hnull : b ≠ 0) (hlow : kernelHeapStart ≤ b)
    (hload : s.load (block2arena b) = .ok w) {cnt : BitVec 32}
    (hdesc : h.arena (vpage s.cr3 (block2arena b)) = ⟨none, cnt, true⟩)
    (hfree : GwOS.mfreePage s .kernel (block2arena b) cnt.toNat = .ok s') :
    GwOS.sysFree s h b = .ok (s', h) := by
  unfold GwOS.sysFree
  rw [if_neg hnull, if_neg fun hg => hg.2 hlow]
  dsimp only [bind, Except.bind]
  rw [hload]
  dsimp only
  rw [hdesc, hflag]
  dsimp only [bind, Except.bind]
  rw [if_pos rfl, hfree]

/-- **`sys_free`** of a live block. -/
theorem HeapInv.sysFree (hi : HeapInv s h threads D g R H live) (hlive : live b ≠ none) :
    ∃ s' h' c, GwOS.sysFree s h b = .ok (s', h') ∧ (∀ size, live b = some size → size.toNat ≤ c) ∧
      FreeAnswer s s' h' threads D g R H (Function.update live b none) b c := by
  obtain ⟨spans, L, hg, hok, hbusy⟩ := hi
  obtain ⟨size, hsize⟩ := Option.ne_none_iff_exists'.mp hlive
  obtain ⟨c, hb, hle⟩ := hok.fits b size hsize
  obtain ⟨hnull, hlow⟩ := hb.in_heap hok hg
  have hfit : ∀ n, live b = some n → n.toNat ≤ c := by
    intro n hn
    cases hsize.symm.trans hn
    exact hle
  have hflag := hg.heapFlag
  cases hb with
  | small i b hb =>
    obtain ⟨⟨w, hw⟩, -, hkey⟩ := hok.header_page hg hb.arena (b := b) rfl
    obtain ⟨-, -, hheader⟩ := hok.arena_eq hb.arena hg.vaddrs s.cr3
    obtain ⟨s', h', hfree, hans⟩ := hok.freeSmall hg hbusy hb
    refine ⟨s', h', _, ?_, hfit, hans⟩
    rw [sysFree_small hflag hnull hlow hw (i := i), hfree]
    rw [hkey]
    exact congrArg Arena.desc hheader
  | large x hx hd =>
    obtain ⟨⟨w, hw⟩, ha, hkey⟩ := hok.header_page hg hx x.pageOf_block.symm
    have hheader := hok.header x hx
    unfold HeaderOk at hheader
    rw [hd] at hheader
    obtain ⟨s', hfree, hg', hkept, hloads, hown, hgone⟩ := hok.freeSpan hg hx
    have hcnt : (BitVec.ofNat 32 x.cnt).toNat = x.cnt := by
      have hend := (Span.end_le hg.vaddrs (hok.own x hx).2 (hok.own x hx).1).2
      rw [BitVec.toNat_ofNat]
      omega
    refine ⟨s', h, _, ?_, hfit, .of_gone hok hg hx x.pageOf_block.symm (.large x hx hd)
      (hok.shrinkLarge hg.spans_nodup hx hd hown) hg' hkept hloads
      (fun y hy => hbusy y (List.mem_of_mem_erase hy)) hgone⟩
    refine sysFree_large hflag hnull hlow hw (hkey ▸ hheader) ?_
    rw [ha, hcnt]
    exact hfree

end Free

end GwOS
