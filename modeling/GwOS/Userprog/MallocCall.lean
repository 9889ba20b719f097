import GwOS.Device.Timer
import GwOS.Kernel.Blocks
import GwOS.Userprog.Marks

/-!
# The arguments of `sys_malloc` and `ms_sleep`

Both are entries of the table of system calls, so that a process passes any 32-bit value.
`sys_malloc` lets through what is smaller than the pool, and `malloc_page` below it wants fewer than
3840 pages, the `struct arena` included: `sysMalloc_noAssert_iff`. `ms_sleep` wants a tick at least,
after a sum that wraps: `sleepReturns_of_left`.

- `Marked.mallocPage_noAssert`: in a run whose callers keep to their bitmaps, neither the ceiling of
  `vaddr_get` nor the check of `page_table_add` stops `malloc_page`.
- `argumentsAnswered_iff`: both calls together.
-/

namespace GwOS

section Malloc

variable {s s' s1 : Memory} {threads : List Addr} {D : Frame → Prop} {g : VPage → Frame}
  {L H : List VPage} {v : Addr} {cnt : Nat} {pf : PoolFlag}

/-- The loop of `malloc_page` comes to its end over pages that are not mapped. -/
theorem mallocLoop_returns (cnt : Nat) (hl : Layout s D) (ho : Owned s D g L H) (hcr : D s.cr3)
    (hend : v.toNat + cnt * pgSize ≤ 0xffc00000) (hlow : s.cr3 ≠ kernelDir)
    (hnone : ∀ k ∈ vpages s.cr3 cnt v, s.frameAt k = none) (htab : LoopTablesFound pf cnt v s) :
    ∃ r, mallocLoop pf cnt v s = .ok r :=
  mallocLoop_total cnt hl ho hcr hend (fun he => absurd he hlow) hnone htab

/-- The search for the pages of a process ends in the lower part of its bitmap: the loop of
`bitmap_apply_cnt` is as long as the bitmap is in bytes. -/
theorem bitmapApplyCnt_low {mp : Bitmap} (hcnt : 0 < cnt ∧ cnt < 3840) (hlen : mp.len ≤ userBitmapLen) :
    bitmapApplyCnt mp cnt = .error .outOfBounds ∨ ∃ r, bitmapApplyCnt mp cnt = .ok r ∧
      ∀ i, r = some i → mp.RunAt i cnt ∧ i < userBitmapLen := by
  have hval : userBitmapLen = 94199 := by decide
  by_cases hin : cnt ≤ mp.len ∨ ∃ i, mp.RunAt i cnt
  · right
    rcases Nat.lt_or_ge mp.len cnt with hlt | hle
    · obtain ⟨r, hr, hrun⟩ := bitmapApplyCnt_inside hcnt.1 hcnt.2 (by omega) hin
      refine ⟨r, hr, fun i hi => ⟨hrun i hi, ?_⟩⟩
      have hend := (hrun i hi).1
      omega
    · obtain ⟨r, hr, hfound⟩ := bitmapApplyCnt_ok hcnt.1 hle (by omega)
      refine ⟨r, hr, fun i hi => ?_⟩
      subst hi
      obtain ⟨-, hlt, hfree⟩ := hfound
      exact ⟨⟨by omega, hfree⟩, by omega⟩
  · exact .inl (bitmapApplyCnt_outside hcnt.1 hcnt.2 hin)

/-- The ceiling of `vaddr_get` is out of reach. -/
theorem Managed.vaddrGet_noAssert (h : Managed s threads D g L H) (hcnt : 0 < cnt ∧ cnt < 3840) :
    NoAssert (vaddrGet s .user cnt) := by
  have hval : userBitmapLen = 94199 := by decide
  have hlen : (s.vaddrBitmap .user).len ≤ userBitmapLen := (h.records.user _ h.running).len
  have hstart : (s.vaddrStart .user).toNat ≤ userVaddrStart.toNat := (h.records.user _ h.running).start
  have hstart' : userVaddrStart.toNat = 0x8048000 := rfl
  unfold vaddrGet
  rcases bitmapApplyCnt_low hcnt hlen with hr | ⟨r, hr, hrun⟩
  · rw [hr]
    nofun
  · rw [hr]
    cases r with
    | none => exact .ok _
    | some idx =>
      obtain ⟨hidx, hlow⟩ := hrun idx rfl
      obtain ⟨mp, hmp⟩ := setBits_ok true cnt (s.vaddrBitmap .user) idx hidx.1
      rw [if_pos rfl] at hmp
      have hceil : s.vaddrStart .user + BitVec.ofNat 32 (idx * pgSize) < 0xc0000000 - 0x1000 := by
        have hnat := nextPage_toNat (v := s.vaddrStart .user) (i := idx) (by unfold pgSize; omega)
        show (s.vaddrStart .user + BitVec.ofNat 32 (idx * pgSize)).toNat <
          (0xc0000000 - 0x1000 : Addr).toNat
        have hmax : (0xc0000000 - 0x1000 : Addr).toNat = 0xbffff000 := rfl
        rw [hnat, hmax]
        unfold pgSize
        omega
      show NoAssert (setBits (s.vaddrBitmap .user) 1 cnt idx >>= _)
      rw [hmp]
      show NoAssert (if PoolFlag.user = .user ∧ ¬ _ then _ else _)
      rw [if_neg fun hno => hno.2 hceil]
      exact .ok _

/-- **`malloc_page`** for a process stops at no `ASSERT`: the pages whose bits are not set are not
mapped. -/
theorem Marked.mallocPage_noAssert (hm : Marked s threads g) (h : Managed s threads D g L H)
    (hproc : s.IsProcess s.running) (hcnt : 0 < cnt ∧ cnt < 3840)
    (htab : MallocTablesFound s .user cnt) : NoAssert (GwOS.mallocPage s .user cnt) := by
  unfold GwOS.mallocPage
  rw [if_pos hcnt]
  refine .bind (h.vaddrGet_noAssert hcnt) fun r hr => ?_
  obtain ⟨v, s1⟩ := r
  cases v with
  | none => exact .ok _
  | some v =>
    obtain ⟨hb, -, hend, idx, mp, hrunAt, hv, -, -⟩ := vaddrGet_window h.vaddrsOk h.running hcnt.1 hcnt.2 hr
    have hne : s.cr3 ≠ kernelDir := h.records.current ▸ h.dirFrame_ne h.running hproc
    have hnone : ∀ k ∈ vpages s1.cr3 cnt v, s1.frameAt k = none := by
      intro k hk
      rw [hb.cr3] at hk
      obtain ⟨j, hj, rfl⟩ := mem_vpages hk
      have hlen : idx + cnt ≤ 8 * (s.progBitmap s.running).len := hrunAt.1
      have hidx : pageIdx v (s.vaddrStart .user) = idx := hv ▸ h.pageIdx_start (by omega)
      have hbit : (s.progBitmap s.running).bit (idx + j) = false := hrunAt.2 j hj
      rw [h.vpage_progPage (by omega), hidx, Memory.frameAt, hb.machine]
      exact hm.clean _ h.running hproc _ (by omega) hbit
    obtain ⟨r, hloop⟩ := mallocLoop_returns cnt (hb.layout h.layout) (hb.owned h.owned)
      (hb.cr3 ▸ h.active) hend (hb.cr3 ▸ hne) hnone (htab v s1 hr)
    dsimp only
    rw [hloop]
    exact .ok _

end Malloc

/-! ## The sizes of the pools -/

section Ranges

variable {s : Memory} {pf : PoolFlag} {cnt : Nat}

theorem mallocLoop_ranges (pf : PoolFlag) (cnt : Nat) (s : Memory) (v : Addr) :
    Returns (mallocLoop pf cnt v s) fun r => SameRanges s r.2 := by
  induction cnt generalizing s v with
  | zero => exact .ok (.refl s)
  | succ cnt ih =>
    unfold mallocLoop
    refine .bind (palloc_range _) fun r hr => ?_
    obtain ⟨page, p⟩ := r
    have hpool : SameRanges s (s.setPool pf p) := .setPool hr.1 hr.2
    cases page with
    | none => exact .ok hpool
    | some page =>
      refine .bind (pageTableAdd_pools _ v page) fun s1 h1 => ?_
      exact (ih s1 _).mono fun r h => (hpool.trans h1.1).trans h

theorem mallocPage_ranges (s : Memory) (pf : PoolFlag) (cnt : Nat) :
    Returns (mallocPage s pf cnt) fun r => SameRanges s r.2 := by
  have hget : ∀ r, vaddrGet s pf cnt = .ok r → SameRanges s r.2 := fun r hr =>
    .of_pools (vaddrGet_pools hr).1 (vaddrGet_pools hr).2
  intro r hr
  rcases mallocPage_cases s pf cnt r hr with ⟨h, -⟩ | ⟨v, s1, done, h, hloop, -⟩
  · exact hget (none, r.2) h
  · exact (hget (some v, s1) h).trans (mallocLoop_ranges pf cnt s1 v _ hloop)

theorem getOnePage_ranges (s : Memory) (pf : PoolFlag) (v : Addr) :
    Returns (getOnePage s pf v) fun r => SameRanges s r.2 := by
  have hbranch : ∀ pf, Returns (markPage s pf v >>= fun s => getOnePageNoBitmap s pf v)
      fun r => SameRanges s r.2 := fun pf =>
    .bind (markPage_returns s pf v) fun s1 h1 => (getOnePageNoBitmap_pools s1 pf v).mono fun r hr =>
      (SameRanges.of_pools h1.1.kernelPool h1.1.userPool).trans hr
  unfold getOnePage
  cases (s.pcb s.running).pgDir with
  | none =>
    cases pf with
    | kernel =>
      dsimp only
      split
      · exact hbranch .kernel
      · exact .error _
    | user => exact .error _
  | some p =>
    cases pf with
    | kernel => exact .error _
    | user =>
      dsimp only
      split
      · exact hbranch .user
      · exact .error _

theorem createPageDir_ranges (s : Memory) : Returns (createPageDir s) fun r => SameRanges s r.2 := by
  unfold createPageDir
  refine .bind (getKernelPages_pools s 1) fun r hr => ?_
  obtain ⟨v, s1⟩ := r
  cases v with
  | none => exact .ok hr.1
  | some v =>
    refine .bind .any fun m1 _ => .bind .any fun a _ => .bind .any fun m2 _ => .ok ?_
    exact hr.1.trans ⟨rfl, rfl, rfl, rfl⟩

theorem processExecute_ranges (s : Memory) (name : String) :
    Returns (processExecute s name) fun r => SameRanges s r.2 := by
  unfold processExecute
  refine .bind (getKernelPages_pools s 1) fun r hr => ?_
  obtain ⟨thread, s1⟩ := r
  cases thread with
  | none => exact .error _
  | some thread =>
    refine .bind (P := SameRanges s1) ?_ fun s2 h2 => ?_
    · unfold createUserVaddrBitmap
      refine .bind (getKernelPages_pools s1 userBitmapPages) fun r hr => ?_
      obtain ⟨bits, s2⟩ := r
      cases bits with
      | none => exact .error _
      | some bits => exact .ok (hr.1.trans ⟨rfl, rfl, rfl, rfl⟩)
    · refine .bind (createPageDir_ranges s2) fun r h3 => .ok ?_
      exact ((hr.1.trans h2).trans h3).trans ⟨rfl, rfl, rfl, rfl⟩

end Ranges

namespace PageState

/-- **One move** leaves the pools where they are. -/
theorem move_ranges (st : PageState) (m : PageMove) :
    Returns (st.move m) fun st' => SameRanges st.mem st'.mem := by
  have henter : ∀ pf cnt (r : Option Addr × Memory), SameRanges st.mem r.2 →
      SameRanges st.mem (st.enter pf cnt r).mem := fun pf cnt r hr => (st.enter_mem pf cnt r).symm ▸ hr
  cases m with
  | op op =>
    cases op with
    | mallocPage pf cnt =>
      exact .bind (mallocPage_ranges st.mem pf cnt) fun r hr => .ok (henter pf cnt r hr)
    | getOnePage pf v =>
      exact .bind (getOnePage_ranges st.mem pf v) fun r hr => .ok (henter pf 1 r hr)
    | getOnePageNoBitmap pf v =>
      exact .bind (getOnePageNoBitmap_pools st.mem pf v) fun r hr => .ok (henter pf 1 r hr)
    | mfreePage a => exact .bind (mfreePage_range st.mem a.pf a.vaddr a.cnt) fun s hs => .ok hs
    | activate t =>
      refine .bind (P := SameRanges st.mem) ?_ fun s hs => .ok (hs.trans ⟨rfl, rfl, rfl, rfl⟩)
      unfold pageDirActivate
      split
      · exact .ok ⟨rfl, rfl, rfl, rfl⟩
      · exact .bind .any fun a _ => .ok ⟨rfl, rfl, rfl, rfl⟩
    | processExecute name =>
      exact .bind (processExecute_ranges st.mem name) fun r hr => .ok hr
  | release pf vaddr cnt rest => exact .bind (mfreePage_range st.mem pf vaddr cnt) fun s hs => .ok hs
  | store vaddr w => exact .bind .any fun m' _ => .ok ⟨rfl, rfl, rfl, rfl⟩
  | setBitmap thread mp => exact .ok ⟨rfl, rfl, rfl, rfl⟩

/-- `user_pool.pool_size` in every run. -/
theorem Runs.poolSize {C : PageState → PageMove → Prop} {st : PageState} (h : Runs C st) :
    st.mem.userPool.poolSize = 0xf00000 := by
  induction h with
  | boot => exact congrArg Pool.poolSize boot_pools.2.1
  | move m _ _ _ hmove ih => exact (move_ranges _ m _ hmove).userSize.trans ih

end PageState

/-! ## Both calls -/

namespace PageState

/-- The kernel's pool has a frame for every page table that the call of `sys_malloc` needs. -/
def HeapSupplied (st : PageState) (h : Heap) (size : BitVec 32) : Prop :=
  0 < size → size < st.mem.userPool.poolSize →
    if 1024 < size then (pageCnt size).toNat < 3840 → st.mem.MallocSupplied .user (pageCnt size).toNat
    else h.freeList st.mem .user (findDesc size) = [] → st.mem.MallocSupplied .user 1

/-- What a process may expect of `sys_malloc(size)` and `ms_sleep(ms)`: no `ASSERT` fails, a size
that is none of the pool gives `NULL` and changes nothing, and the sleep comes back. -/
structure ArgumentsAnswered (R : Nat) (st : PageState) (h : Heap) (size : BitVec 32) (c : Clock)
    (ms : UInt32) : Prop where
  malloc : NoAssert (sysMalloc st.mem h size)
  impossible : size = 0 ∨ st.mem.userPool.poolSize ≤ size →
    sysMalloc st.mem h size = .ok (none, st.mem, h)
  sleep : SleepReturns R ms c

section Calls

variable {st : PageState} {D : Frame → Prop} {g : VPage → Frame} {size : BitVec 32} {h : Heap}
  {cnt : Nat} {i : Fin descCnt}

theorem heapFlag_user (hproc : st.mem.IsProcess st.mem.running) : st.mem.heapFlag = .user := by
  obtain ⟨p, hp⟩ := Option.ne_none_iff_exists'.mp hproc
  rw [Memory.heapFlag, hp]

/-- The pool ends below the end of memory, with room for the sum in `DIV_ROUND_UP`. -/
theorem Valid.poolSize_lt (hv : st.Valid D g) :
    st.mem.userPool.poolSize.toNat < 2 ^ 32 - 0x2000 := by
  have hfits := hv.layout.userOk.fits
  have hlow := hv.layout.low
  have horder := hv.layout.order
  unfold Pool.first pgSize at hlow
  omega

/-- What is no size for the pool. -/
theorem sysMalloc_impossible (hproc : st.mem.IsProcess st.mem.running)
    (hsize : size = 0 ∨ st.mem.userPool.poolSize ≤ size) :
    sysMalloc st.mem h size = .ok (none, st.mem, h) := by
  rw [sysMalloc, heapFlag_user hproc, if_pos]
  rintro ⟨hpos, hlt⟩
  rcases hsize with rfl | hle
  · exact absurd hpos (by decide)
  · exact absurd hlt (BitVec.not_lt.mpr hle)

theorem Valid.mallocPage_noAssert (hv : st.Valid D g) (hm : Marked st.mem st.threads g)
    (hproc : st.mem.IsProcess st.mem.running) (hcnt : 0 < cnt ∧ cnt < 3840)
    (hfound : st.mem.MallocSupplied .user cnt) : NoAssert (GwOS.mallocPage st.mem .user cnt) :=
  hm.mallocPage_noAssert hv.managed hproc hcnt
    (hfound.found hv.layout hv.owned hv.active hv.vaddrsOk hv.running hcnt)

/-- Whole pages, fewer than `malloc_page` refuses. -/
theorem Valid.mallocLarge_noAssert (hv : st.Valid D g) (hm : Marked st.mem st.threads g)
    (hproc : st.mem.IsProcess st.mem.running) (hcnt : 0 < (pageCnt size).toNat ∧ (pageCnt size).toNat < 3840)
    (hfound : st.mem.MallocSupplied .user (pageCnt size).toNat) :
    NoAssert (mallocLarge st.mem h .user size) := by
  refine .bind (hv.mallocPage_noAssert hm hproc hcnt hfound) fun r _ => ?_
  obtain ⟨a, s⟩ := r
  cases a with
  | none => exact .ok _
  | some a => exact .bind (clearPages_noAssert _ _ _) fun m _ => .ok _

/-- A block, with or without a new page. -/
theorem Valid.mallocSmall_noAssert (hv : st.Valid D g) (hm : Marked st.mem st.threads g)
    (hproc : st.mem.IsProcess st.mem.running)
    (hfound : h.freeList st.mem .user i = [] → st.mem.MallocSupplied .user 1) :
    NoAssert (mallocSmall st.mem h .user i) := by
  unfold mallocSmall
  split
  · next hempty =>
    refine .bind ?_ fun r _ => ?_
    · refine .bind (hv.mallocPage_noAssert hm hproc (by decide) (hfound hempty)) fun r hr => ?_
      obtain ⟨a, s⟩ := r
      cases a with
      | none => exact .ok _
      | some a =>
        refine .bind (clearPages_noAssert _ _ _) fun m _ => ?_
        have hsup := hfound hempty
        have htab := hsup.found hv.layout hv.owned hv.active hv.vaddrsOk hv.running (by decide)
        obtain ⟨-, hst, -⟩ := mallocPage_owned hv.layout hv.owned hv.active hv.vaddrsOk hv.running htab _ hr
        have hlist : h.freeList s .user i = [] := by
          rw [Heap.freeList, hst.running]
          exact hempty
        rw [hlist]
        obtain ⟨l, hl⟩ := appendBlocks_ok (a := a) (i := i) (Nat.zero_add _).le
          fun b hb => absurd hb List.not_mem_nil
        rw [hl]
        exact .ok _
    · obtain ⟨done, s, h'⟩ := r
      cases done with
      | false => exact .ok _
      | true => exact takeBlock_noAssert s h' .user i
  · exact takeBlock_noAssert st.mem h .user i

/-- **Which sizes reach the `ASSERT`** of `malloc_page`: those that are smaller than the pool and
need 3840 pages or more. -/
theorem Tidy.sysMalloc_noAssert_iff (ht : st.Tidy) (hproc : st.mem.IsProcess st.mem.running)
    (hfound : st.HeapSupplied h size) : NoAssert (sysMalloc st.mem h size) ↔
      ¬ (15724533 ≤ size.toNat ∧ size.toNat < st.mem.userPool.poolSize.toNat) := by
  obtain ⟨-, D, g, hv, hm⟩ := ht
  have hpool := hv.poolSize_lt
  have hflag := heapFlag_user hproc
  by_cases hin : 0 < size ∧ size < st.mem.userPool.poolSize
  · have hlt : size.toNat < st.mem.userPool.poolSize.toNat := hin.2
    have hcnt : (pageCnt size).toNat = (size.toNat + 4107) / 4096 := pageCnt_toNat (by omega)
    have hfound' := hfound hin.1 hin.2
    have hcall : sysMalloc st.mem h size = if 1024 < size then mallocLarge st.mem h .user size
        else mallocSmall st.mem h .user (findDesc size) := by
      rw [sysMalloc, hflag]
      exact if_neg (not_not_intro hin)
    rw [hcall]
    by_cases hlarge : 1024 < size
    · rw [if_pos hlarge] at hfound' ⊢
      have hlarge' : 1024 < size.toNat := hlarge
      constructor
      · rintro hno ⟨hge, -⟩
        refine hno ?_
        have hmany : ¬ (0 < (pageCnt size).toNat ∧ (pageCnt size).toNat < 3840) := by omega
        rw [mallocLarge, mallocPage, if_neg hmany]
        rfl
      · intro hsize
        exact hv.mallocLarge_noAssert hm hproc (by omega) (hfound' (by omega))
    · rw [if_neg hlarge] at hfound' ⊢
      have hsmall : size.toNat ≤ 1024 := BitVec.not_lt.mp hlarge
      refine iff_of_true (hv.mallocSmall_noAssert hm hproc hfound') ?_
      omega
  · have hsize : size = 0 ∨ st.mem.userPool.poolSize ≤ size := by
      by_contra hno
      obtain ⟨hne, hle⟩ := not_or.mp hno
      refine hin ⟨?_, BitVec.not_le.mp hle⟩
      show 0 < size.toNat
      exact Nat.pos_of_ne_zero fun hz => hne (BitVec.eq_of_toNat_eq hz)
    rw [sysMalloc_impossible hproc hsize]
    refine iff_of_true (.ok _) ?_
    rintro ⟨hge, hlt⟩
    rcases hsize with rfl | hle
    · exact absurd hge (by decide)
    · have hle' : st.mem.userPool.poolSize.toNat ≤ size.toNat := hle
      omega

/-- **Both calls**, in every run whose callers keep to their bitmaps and in which the kernel's pool
has had a frame for every page table: they answer unless the size lies in the last pages of the
pool, or the time is 0 or one of the last nine. -/
theorem argumentsAnswered_iff {R : Nat} {c : Clock}
    (hrun : Runs (fun st m => st.Supplied m ∧ st.Orderly m) st)
    (hproc : st.mem.IsProcess st.mem.running) (hfound : st.HeapSupplied h size)
    (hleft : 0 < c.left ∧ c.left ≤ R) (ms : UInt32) : st.ArgumentsAnswered R h size c ms ↔
      ¬ (15724533 ≤ size.toNat ∧ size.toNat < 15728640) ∧ 0 < ms.toNat ∧ ms.toNat < 2 ^ 32 - 9 := by
  have hmalloc := (hrun.tidy fun _ _ h => h).sysMalloc_noAssert_iff hproc hfound
  have hpool : st.mem.userPool.poolSize.toNat = 15728640 := congrArg BitVec.toNat hrun.poolSize
  rw [hpool] at hmalloc
  have hsleep : SleepReturns R ms c ↔ _ := sleepReturns_of_left hleft
  constructor
  · intro ha
    exact ⟨hmalloc.mp ha.malloc, hsleep.mp ha.sleep⟩
  · rintro ⟨hsize, hms⟩
    exact ⟨hmalloc.mpr hsize, sysMalloc_impossible hproc, hsleep.mpr hms⟩

/-- One page needs one table at most. -/
theorem mallocSupplied_one {s : Memory} (hk : 0 < s.kernelPool.spare.card) (pf : PoolFlag) :
    s.MallocSupplied pf 1 := by
  intro _ idx _
  refine Nat.le_trans ?_ hk
  refine Nat.le_trans (Finset.card_filter_le _ _) (Nat.le_trans Finset.card_image_le ?_)
  rw [Finset.card_range]
  exact Nat.min_le_left ..

/-- The first process, a block of 100 bytes and 20 ms. -/
theorem argumentsAnswered_iff_first : ∃ st : PageState,
    st.ArgumentsAnswered reload .init 100 ⟨0, reload, false, 0⟩ 20 := by
  obtain ⟨st, D, g, hrun, hfill, -, hk⟩ := filling_start
    (C := fun st m => st.Supplied m ∧ st.Orderly m) (fun _ _ => ⟨trivial, trivial⟩)
    fun _ _ => ⟨trivial, trivial⟩
  have hfound : st.HeapSupplied .init 100 := fun _ _ => fun _ => mallocSupplied_one hk .user
  exact ⟨st, (argumentsAnswered_iff hrun hfill.isProcess hfound (by decide) 20).mpr (by decide)⟩

/-- The smallest size that stops the kernel, and a time that does. -/
theorem argumentsAnswered_fails :
    (¬ ∀ st : PageState, Runs (fun st m => st.Supplied m ∧ st.Orderly m) st →
      st.mem.IsProcess st.mem.running → ∀ h size, NoAssert (sysMalloc st.mem h size)) ∧
    ¬ ∀ c : Clock, 0 < c.left ∧ c.left ≤ reload → ∀ ms, SleepReturns reload ms c := by
  constructor
  · intro hall
    obtain ⟨st, D, g, hrun, hfill, -⟩ := filling_start
      (C := fun st m => st.Supplied m ∧ st.Orderly m) (fun _ _ => ⟨trivial, trivial⟩)
      fun _ _ => ⟨trivial, trivial⟩
    have hpool : st.mem.userPool.poolSize.toNat = 15728640 := congrArg BitVec.toNat hrun.poolSize
    have hpages : ¬ (pageCnt 15724533).toNat < 3840 := by decide
    have hfound : st.HeapSupplied .init 15724533 := fun _ _ => fun hlt => absurd hlt hpages
    refine ((hrun.tidy fun _ _ h => h).sysMalloc_noAssert_iff hfill.isProcess hfound).mp
      (hall st hrun hfill.isProcess .init 15724533) ?_
    rw [hpool]
    decide
  · intro hall
    have hms := (sleepReturns_of_left (by decide)).mp (hall ⟨0, reload, false, 0⟩ (by decide) 0)
    exact absurd hms (by decide)

end Calls

end PageState

end GwOS
