import GwOS.Kernel.Heap
import GwOS.Kernel.Supply
import GwOS.Lib.Slab

/-!
# The blocks of the heap

The pages of one block size are slabs: the owner of a block is the page that it lies in, which is
what `block2arena` computes, and the loops of `sys_malloc` and `sys_free` over the blocks of a page
add a slab to the free list and take one out.

- `appendBlocks_eq`, `removeBlocks_eq`: the two loops.
- `mallocPage_kernel`: `malloc_page` for the kernel always returns, with pages or without.
- `clearWords_ok`: `memset` of a block.
-/

namespace GwOS

section Blocks

variable {i : Fin descCnt} {p : BitVec 20} {idx cnt : Nat} {l : List Addr} {a b : Addr}

/-! ## Addresses -/

theorem pageStart_toNat (p : BitVec 20) : (addrOf p 0).toNat = p.toNat * 4096 := by
  have h := addrOf_toNat p 0
  have h0 : (0 : BitVec 12).toNat = 0 := rfl
  rw [h, h0, Nat.add_zero]

theorem addrOf_of_aligned (h : a.toNat % pgSize = 0) : addrOf (pageOf a) 0 = a := by
  have hoff : offsetOf a = 0 := by
    apply BitVec.eq_of_toNat_eq
    rw [offsetOf_toNat]
    exact h
  have hsum := addrOf_pageOf a
  rwa [hoff] at hsum

/-- `block2arena` is the start of the page. -/
theorem block2arena_eq (b : Addr) : block2arena b = addrOf (pageOf b) 0 := by
  apply BitVec.eq_of_getLsbD_eq
  intro j hj
  rw [block2arena, getLsbD_and_mask 12 32 (by decide), getLsbD_addrOf]
  by_cases h : j < 12
  · simp [h]
  · have h' : j - 12 < 20 := by omega
    have h2 : 12 + (j - 12) = j := by omega
    simp [pageOf, h, h', h2]
    omega

theorem blockSize_pos (i : Fin descCnt) : 0 < blockSize i := by
  rw [blockSize_eq]
  exact Nat.mul_pos (by decide) (Nat.two_pow_pos _)

/-- A block is a number of words. -/
theorem blockSize_dvd (i : Fin descCnt) : 4 ∣ blockSize i := by
  rw [blockSize_eq]
  exact ⟨4 * 2 ^ i.val, by omega⟩

theorem blocksPerArena_pos (i : Fin descCnt) : 0 < blocksPerArena i := by
  revert i
  decide

theorem blocksPerArena_le (i : Fin descCnt) : blocksPerArena i ≤ 255 := by
  revert i
  decide

/-- A block ends inside of its page. -/
theorem block_fits (h : idx < blocksPerArena i) :
    arenaSize + idx * blockSize i + blockSize i ≤ pgSize := by
  have hmul := Nat.mul_le_mul_right (blockSize i) (Nat.succ_le_of_lt h)
  have hfit := blocks_fit i
  rw [Nat.succ_mul] at hmul
  omega

/-- The address of a block, which does not wrap. -/
theorem arena2block_toNat (h : idx < blocksPerArena i) :
    (arena2block (addrOf p 0) i idx).toNat = p.toNat * 4096 + (arenaSize + idx * blockSize i) := by
  have hfit := block_fits h
  have hpos := blockSize_pos i
  have hp := p.isLt
  unfold pgSize at hfit
  have hoff : (BitVec.ofNat 32 arenaSize + BitVec.ofNat 32 (idx * blockSize i)).toNat =
      arenaSize + idx * blockSize i := by
    rw [BitVec.toNat_add, BitVec.toNat_ofNat, BitVec.toNat_ofNat, ← Nat.add_mod, Nat.mod_eq_of_lt]
    omega
  rw [arena2block, BitVec.add_assoc, BitVec.toNat_add, hoff, pageStart_toNat, Nat.mod_eq_of_lt]
  omega

theorem pageOf_arena2block (h : idx < blocksPerArena i) :
    pageOf (arena2block (addrOf p 0) i idx) = p := by
  apply BitVec.eq_of_toNat_eq
  have hfit := block_fits h
  have hpos := blockSize_pos i
  rw [pageOf_toNat, arena2block_toNat h]
  unfold pgSize at hfit
  omega

/-! ## The slabs -/

/-- The blocks of a page from the index `idx` on. -/
def blocksFrom (p : BitVec 20) (i : Fin descCnt) (idx cnt : Nat) : List Addr :=
  (List.range' idx cnt).map (arena2block (addrOf p 0) i)

theorem mem_blocksFrom : b ∈ blocksFrom p i idx cnt ↔
    ∃ j, idx ≤ j ∧ j < idx + cnt ∧ arena2block (addrOf p 0) i j = b := by
  rw [blocksFrom, List.mem_map]
  constructor
  · rintro ⟨j, hj, he⟩
    obtain ⟨hle, hlt⟩ := List.mem_range'_1.mp hj
    exact ⟨j, hle, hlt, he⟩
  · rintro ⟨j, hle, hlt, he⟩
    exact ⟨j, List.mem_range'_1.mpr ⟨hle, hlt⟩, he⟩

theorem blocksFrom_succ (p : BitVec 20) (i : Fin descCnt) (idx cnt : Nat) :
    blocksFrom p i idx (cnt + 1) =
      arena2block (addrOf p 0) i idx :: blocksFrom p i (idx + 1) cnt := rfl

theorem blocksFrom_nodup (h : idx + cnt ≤ blocksPerArena i) : (blocksFrom p i idx cnt).Nodup := by
  refine List.Nodup.map_on (fun x hx y hy he => ?_) List.nodup_range'
  obtain ⟨-, hx⟩ := List.mem_range'_1.mp hx
  obtain ⟨-, hy⟩ := List.mem_range'_1.mp hy
  exact arena2block_inj (by omega) (by omega) he

/-- The pages with blocks of one size. -/
def heapSlab (i : Fin descCnt) : Slab (BitVec 20) Addr where
  owner := pageOf
  blocks p := blocksFrom p i 0 (blocksPerArena i)
  nodup p := blocksFrom_nodup (Nat.le_of_eq (Nat.zero_add _))
  owner_eq p b hb := by
    obtain ⟨j, -, hj, rfl⟩ := mem_blocksFrom.mp hb
    exact pageOf_arena2block (Nat.zero_add (blocksPerArena i) ▸ hj)

theorem length_blocks (i : Fin descCnt) (p : BitVec 20) :
    ((heapSlab i).blocks p).length = blocksPerArena i := by
  show ((List.range' 0 (blocksPerArena i)).map _).length = _
  rw [List.length_map, List.length_range']

theorem mem_blocks : b ∈ (heapSlab i).blocks p ↔
    ∃ j < blocksPerArena i, arena2block (addrOf p 0) i j = b := by
  show b ∈ blocksFrom p i 0 (blocksPerArena i) ↔ _
  rw [mem_blocksFrom]
  constructor
  · rintro ⟨j, -, hj, he⟩
    exact ⟨j, by omega, he⟩
  · rintro ⟨j, hj, he⟩
    exact ⟨j, Nat.zero_le j, by omega, he⟩

/-! ## The loops over the blocks of a page -/

theorem appendBlocks_from (hcnt : idx + cnt ≤ blocksPerArena i)
    (hl : ∀ b ∈ blocksFrom p i idx cnt, b ∉ l) :
    appendBlocks (addrOf p 0) i cnt idx l = .ok (l ++ blocksFrom p i idx cnt) := by
  induction cnt generalizing idx l with
  | zero =>
    rw [appendBlocks, blocksFrom, List.range'_zero, List.map_nil, List.append_nil]
  | succ cnt ih =>
    rw [blocksFrom_succ] at hl ⊢
    have hnd := blocksFrom_nodup (p := p) hcnt
    rw [blocksFrom_succ] at hnd
    rw [appendBlocks, if_neg (hl _ (List.mem_cons_self ..)), ih (by omega) ?_, List.append_assoc]
    · rfl
    · intro b hb hmem
      rcases List.mem_append.mp hmem with hold | hnew
      · exact hl b (List.mem_cons_of_mem _ hb) hold
      · exact (List.nodup_cons.mp hnd).1 (List.mem_singleton.mp hnew ▸ hb)

/-- **A page is cut into blocks**: they all join the list at its end. -/
theorem appendBlocks_eq (hl : ∀ b ∈ (heapSlab i).blocks p, b ∉ l) :
    appendBlocks (addrOf p 0) i (blocksPerArena i) 0 l = .ok (l ++ (heapSlab i).blocks p) :=
  appendBlocks_from (Nat.le_of_eq (Nat.zero_add _)) hl

theorem removeBlocks_from (hcnt : idx + cnt ≤ blocksPerArena i)
    (hl : ∀ b ∈ blocksFrom p i idx cnt, b ∈ l) :
    removeBlocks (addrOf p 0) i cnt idx l = .ok (l.diff (blocksFrom p i idx cnt)) := by
  induction cnt generalizing idx l with
  | zero => rfl
  | succ cnt ih =>
    rw [blocksFrom_succ] at hl ⊢
    have hnd := blocksFrom_nodup (p := p) hcnt
    rw [blocksFrom_succ] at hnd
    rw [removeBlocks, if_pos (hl _ (List.mem_cons_self ..)), ih (by omega) ?_, List.diff_cons]
    intro b hb
    have hne : b ≠ arena2block (addrOf p 0) i idx := by
      rintro rfl
      exact (List.nodup_cons.mp hnd).1 hb
    exact (List.mem_erase_of_ne hne).mpr (hl b (List.mem_cons_of_mem _ hb))

/-- **A page is taken out of the list**: no `ASSERT` fails when its blocks are all free. -/
theorem removeBlocks_eq {arenas : Set (BitVec 20)} (h : (heapSlab i).Holds arenas l)
    (hl : ∀ b ∈ (heapSlab i).blocks p, b ∈ l) :
    removeBlocks (addrOf p 0) i (blocksPerArena i) 0 l = .ok ((heapSlab i).retire l p) := by
  rw [← h.diff_blocks p]
  exact removeBlocks_from (Nat.le_of_eq (Nat.zero_add _)) hl

end Blocks

/-! ## Pages for the kernel -/

section Pages

variable {s s' : Memory} {D : Frame → Prop} {g : VPage → Frame} {L H : List VPage} {v : Addr}
  {cnt : Nat} {pf : PoolFlag} {P : Addr → Prop}

/-- The loop of `malloc_page` comes to its end over pages that are not mapped. -/
theorem mallocLoop_total (cnt : Nat) (hl : Layout s D) (ho : Owned s D g L H) (hcr : D s.cr3)
    (hend : v.toNat + cnt * pgSize ≤ 0xffc00000) (hlow : s.cr3 = kernelDir → 0xc0000000 ≤ v.toNat)
    (hnone : ∀ k ∈ vpages s.cr3 cnt v, s.frameAt k = none) (htab : LoopTablesFound pf cnt v s) :
    ∃ r, mallocLoop pf cnt v s = .ok r := by
  induction cnt generalizing s L v with
  | zero => exact ⟨_, rfl⟩
  | succ cnt ih =>
    have hlt : v.toNat < 0xffc00000 := by
      unfold pgSize at hend
      omega
    have hv := dirIdx_ne_of_le hlt
    have hdir : ∀ w : Addr, v.toNat ≤ w.toNat → dirIdx w < 768 → s.cr3 ≠ kernelDir := by
      intro w hw hidx he
      have hhigh := hlow he
      exact absurd (dirIdx_high (Nat.le_trans hhigh hw)) (BitVec.not_le.mpr hidx)
    obtain ⟨r, p', hpal, hr⟩ := palloc_ok (hl.poolOk pf)
    rcases hr with ⟨rfl, rfl⟩ | ⟨page, rfl, -, ht⟩
    · refine ⟨(false, s.setPool pf (s.pool pf)), ?_⟩
      rw [mallocLoop, hpal]
      rfl
    · obtain ⟨hl1, -, -⟩ := hl.took ho ht
      have hm1 : (s.setPool pf p').toMachine = s.toMachine := by cases pf <;> rfl
      have hnone1 : (s.setPool pf p').frameAt (vpage (s.setPool pf p').cr3 v) = none := by
        have hk := hnone _ (List.mem_cons_self ..)
        cases pf <;> exact hk
      obtain ⟨s1, h1⟩ := pageTableAdd_ok hl1 (hm1 ▸ hcr) hv hnone1 (htab page p' hpal).1 page
      obtain ⟨hadd, -, -⟩ := Owned.addPage_added hl ho hcr hv (hdir v (Nat.le_refl _)) hpal
        (htab page p' hpal).1 s1 h1
      have hcr1 := hadd.steady.cr3
      have hnext := next_toNat hend
      have hstep := nextPage_step hend
      -- the pages behind are as before
      have hrest : ∀ k ∈ vpages s1.cr3 cnt (v + 0x1000), s1.frameAt k = none := by
        intro k hk
        rw [hcr1] at hk
        have hne : k ∉ [vpage s.cr3 v] := by
          intro hmem
          rw [List.mem_singleton.mp hmem] at hk
          exact vpage_not_mem s.cr3 hend hk
        rw [hadd.grew.proper k ?_ hne]
        · exact hnone k (List.mem_cons_of_mem _ hk)
        · obtain ⟨i, hi, rfl⟩ := mem_vpages hk
          have hw : ((v + 0x1000) + BitVec.ofNat 32 (i * pgSize)).toNat =
              (v + 0x1000).toNat + i * pgSize := by
            refine nextPage_toNat ?_
            unfold pgSize at *
            omega
          refine hl.proper_vpage hcr (dirIdx_ne_of_le ?_) (hdir _ (by omega))
          unfold pgSize at *
          omega
      obtain ⟨r, hr⟩ := ih hadd.layout hadd.owned (hcr1 ▸ hcr) hnext
        (fun he => Nat.le_trans (hlow (hcr1 ▸ he)) (by omega)) hrest ((htab page p' hpal).2 s1 h1)
      refine ⟨r, ?_⟩
      rw [mallocLoop, hpal]
      show (pageTableAdd (s.setPool pf p') v page >>= fun s => _) = _
      rw [h1]
      exact hr

/-- What `malloc_page` has done for the kernel when it returns, with pages or without: it may have
entered some of the pages before it ran out of frames. -/
structure KernelAnswer (s s' : Memory) (D : Frame → Prop) (g : VPage → Frame) (L H : List VPage)
    (cnt : Nat) (r : Option Addr) : Prop where
  ranges : SameRanges s s'
  clear : s'.Clear
  none : r = none → ∃ N, PagesAdded s s' D g L H N
  some : ∀ v, r = some v → PagesAdded s s' D g L H (vpages kernelDir cnt v) ∧ s'.OwnRun cnt v

/-- The pages that `vaddr_get` finds for the kernel are not mapped, and it has marked them. -/
theorem Memory.Clear.vaddrGot (hc : s.Clear) (hl : Layout s D) (ho : Owned s D g L H)
    (hva : VaddrsOk s P) (hcnt : 1 ≤ cnt) {idx : Nat} (hgot : VaddrGot s s' .kernel cnt idx v) :
    OnlyBitmaps s s' ∧ 0xc0000000 ≤ v.toNat ∧ v.toNat + cnt * pgSize ≤ 0xffc00000 ∧
      ∀ k ∈ vpages kernelDir cnt v, s'.frameAt k = none := by
  obtain ⟨hrange, hv, hfree, -, mp, hset, rfl⟩ := hgot
  have hrange' : idx + cnt ≤ s.kernelVaddr.vaddrBitmap.len := hrange
  have hplace : v = s.kernelVaddr.vaddrStart + BitVec.ofNat 32 (idx * pgSize) := hv
  have hkernel := hva.kernel
  have hhigh := hva.high
  have hb := onlyBitmaps_set s .kernel hset.1
  have hnat : v.toNat = s.kernelVaddr.vaddrStart.toNat + idx * pgSize := by
    rw [hplace]
    exact (hva.kernelPage_toNat (by omega)).1
  refine ⟨hb, by omega, ?_, fun k hk => ?_⟩
  · unfold pgSize at *
    omega
  · rw [hplace] at hk
    obtain ⟨i, hi, rfl⟩ := mem_kernelPages hk
    have hin : idx + i < 8 * s.kernelVaddr.vaddrBitmap.len := by omega
    rw [(hb.added hl ho).grew.proper _ (hva.proper_kernelPage hl hin) nofun]
    exact hc _ hin (hfree i hi)

/-- The kernel has marked whatever it has entered. -/
theorem Memory.Clear.marked (hc : s.Clear) (hl : Layout s D) (hva : VaddrsOk s P) {s1 : Memory}
    {N : List VPage} {idx : Nat} (hgot : VaddrGot s s1 .kernel cnt idx v)
    (hadd : PagesAdded s s' D g L H N) (hsub : N ⊆ vpages kernelDir cnt v)
    (hsame : SameRecords s1 s') : s'.Clear := by
  obtain ⟨hrange, hv, -, -, mp, hset, rfl⟩ := hgot
  have hrange' : idx + cnt ≤ s.kernelVaddr.vaddrBitmap.len := hrange
  have hbitmap : s'.kernelVaddr = { s.kernelVaddr with vaddrBitmap := mp } := hsame.kernelVaddr
  refine hc.added hl hva hadd (by rw [hbitmap]) fun i hi hbit => ?_
  rw [hbitmap, hset.2 i] at hbit
  split at hbit
  · cases hbit
  · next hout =>
    refine ⟨hbit, fun hmem => hout ?_⟩
    have hmem' := hsub hmem
    rw [hv] at hmem'
    obtain ⟨j, hj, he⟩ := mem_kernelPages hmem'
    have hij := hva.kernelPage_inj hi (by omega) he
    omega

/-- **`malloc_page`** for the kernel: no `ASSERT` fails. -/
theorem mallocPage_kernel (hl : Layout s D) (ho : Owned s D g L H) (hcr : D s.cr3)
    (hva : VaddrsOk s P) (hrun : P s.running) (hc : s.Clear) (hcnt : 1 ≤ cnt) (hmax : cnt < 3840)
    (hlt : cnt < s.kernelVaddr.vaddrBitmap.len) :
    ∃ r s', mallocPage s .kernel cnt = .ok (r, s') ∧ KernelAnswer s s' D g L H cnt r := by
  have hlt' : cnt < (s.vaddrBitmap .kernel).len := hlt
  have hlen : (s.vaddrBitmap .kernel).len < 2 ^ 32 := by
    have hkernel : s.kernelVaddr.vaddrStart.toNat + 8 * (s.vaddrBitmap .kernel).len * pgSize ≤
      0xffc00000 := hva.kernel
    unfold pgSize at hkernel
    omega
  have htab := mallocTablesFound_kernel hl ho hcr hva hcnt hlt
  -- the call returns
  obtain ⟨r, s', hr⟩ : ∃ r s', mallocPage s .kernel cnt = .ok (r, s') := by
    obtain ⟨found, hfound, hbits⟩ := bitmapApplyCnt_ok hcnt (Nat.le_of_lt hlt') hlen
    rw [mallocPage, if_pos ⟨hcnt, hmax⟩]
    cases found with
    | none =>
      refine ⟨none, s, ?_⟩
      rw [vaddrGet, hfound]
      rfl
    | some idx =>
      obtain ⟨-, hidx, hfree⟩ := hbits
      obtain ⟨v, s1, hget⟩ := vaddrGet_ok .kernel (by rintro ⟨⟩) hcnt hlt' hlen (by omega) hfree
      obtain ⟨j, hgot⟩ := vaddrGet_spec hcnt hlt' hlen _ hget
      obtain ⟨hb, hhigh, hend, hnone⟩ := hc.vaddrGot hl ho hva hcnt hgot
      rw [← vpages_kernel s1.cr3 cnt hhigh hend] at hnone
      obtain ⟨r, hloop⟩ := mallocLoop_total cnt (hb.layout hl) (hb.owned ho) (hb.cr3 ▸ hcr) hend
        (fun _ => hhigh) hnone (htab v s1 hget)
      refine ⟨if r.1 then some v else none, r.2, ?_⟩
      rw [hget]
      show (mallocLoop .kernel cnt v s1 >>= _) = _
      rw [hloop]
      rfl
  obtain ⟨N, hadd, hcases, hN⟩ := mallocPage_added hl ho hcr hva hrun hcnt hlt' htab (by rintro ⟨⟩) _ hr
  rcases mallocPage_cases s .kernel cnt _ hr with ⟨hget, hnone⟩ | ⟨v, s1, done, hget, hloop, hdone⟩
  · obtain ⟨he, -⟩ := vaddrGet_spec hcnt hlt' hlen _ hget
    have hsame : s' = s := he
    refine ⟨r, s', hr, hsame ▸ .refl s, hsame ▸ hc, fun _ => ⟨N, hadd⟩, fun v hv => ?_⟩
    exact absurd (hnone.symm.trans hv) (by rintro ⟨⟩)
  · obtain ⟨hk, hu⟩ := vaddrGet_pools hget
    obtain ⟨hranges, hu'⟩ := mallocLoop_pools cnt s1 v _ hloop
    obtain ⟨idx, hgot⟩ := vaddrGet_spec hcnt hlt' hlen _ hget
    obtain ⟨-, hhigh, hend, -⟩ := hc.vaddrGot hl ho hva hcnt hgot
    have hpages := vpages_kernel s.cr3 cnt hhigh hend
    refine ⟨r, s', hr, (SameRanges.of_pools hk hu).trans hranges, ?_, fun _ => ⟨N, hadd⟩, fun w hw => ?_⟩
    · rcases hcases with ⟨hget', -⟩ | ⟨w, s2, hget', hsub, hsame⟩
      · cases hget.symm.trans hget'
      · cases hget.symm.trans hget'
        rw [hpages] at hsub
        exact hc.marked hl hva hgot hadd hsub hsame
    · have hv : v = w := by
        rw [show r = _ from hdone] at hw
        cases done with
        | false => cases hw
        | true => exact Option.some.inj hw
      subst hv
      rw [hN v hw, hpages] at hadd
      refine ⟨hadd, ⟨idx, ?_, ?_⟩, hadd.kernelPool (hu'.trans hu)⟩
      · rw [hadd.steady.len]
        exact hgot.range
      · rw [hadd.steady.start]
        exact hgot.vaddr

/-! ## `memset` of a block -/

/-- The words that `clearWords` writes, in a page whose frame holds data. -/
theorem clearWords_ok {a : Addr} {f : Frame} (hal : a.toNat % pgSize = 0) {m : Machine}
    (hwalk : m.walk a = some f) (hcr : m.cr3 ≠ f) (htab : m.tableOf a ≠ f) {n j : Nat}
    (hfit : j + n ≤ 1024) :
    ∃ m', clearWords n (a + BitVec.ofNat 32 (j * 4)) m = .ok m' ∧ m'.cr3 = m.cr3 ∧
      (∀ f', f' ≠ f → m'.mem f' = m.mem f') ∧
      (∀ w, (∀ k < n, w ≠ BitVec.ofNat 10 (j + k)) → m'.mem f w = m.mem f w) ∧
      ∀ k < n, m'.mem f (BitVec.ofNat 10 (j + k)) = 0 := by
  induction n generalizing m j with
  | zero =>
    exact ⟨m, rfl, rfl, fun _ _ => rfl, fun _ _ => rfl, fun k hk => absurd hk (Nat.not_lt_zero k)⟩
  | succ n ih =>
    obtain ⟨hpage, hword⟩ := word_of_page hal (i := j) (by omega)
    have hstore : m.store (a + BitVec.ofNat 32 (j * 4)) 0 = .ok (m.setWord f (BitVec.ofNat 10 j) 0) := by
      rw [Machine.store, m.walk_eq_of_pageOf hpage, hwalk, hword]
    generalize hm1 : m.setWord f (BitVec.ofNat 10 j) 0 = m1 at hstore
    have hother : ∀ f', f' ≠ f → m1.mem f' = m.mem f' := fun f' hf' => by
      funext k
      rw [← hm1]
      exact m.setWord_mem_ne 0 (.inl hf')
    have hcr1 : m1.cr3 = m.cr3 := by rw [← hm1, Machine.setWord_cr3]
    have hpde : m1.pde a = m.pde a := by rw [Machine.pde, Machine.pde, hcr1, hother _ hcr]
    have htab1 : m1.tableOf a = m.tableOf a := by rw [Machine.tableOf, Machine.tableOf, hpde]
    have hwalk1 : m1.walk a = some f := by
      rw [← hwalk]
      refine Machine.walk_congr hpde fun _ => ?_
      rw [Machine.pte, Machine.pte, htab1, hother _ htab]
    have hnext : a + BitVec.ofNat 32 (j * 4) + 4 = a + BitVec.ofNat 32 ((j + 1) * 4) := by
      rw [BitVec.add_assoc, Nat.succ_mul, BitVec.ofNat_add]
      rfl
    have hself : m1.mem f (BitVec.ofNat 10 j) = 0 := by
      rw [← hm1]
      exact m.setWord_mem_self ..
    have hstay : ∀ w, w ≠ BitVec.ofNat 10 j → m1.mem f w = m.mem f w := by
      intro w hw
      rw [← hm1]
      exact m.setWord_mem_ne 0 (.inr hw)
    obtain ⟨m', hm', hcr', hrest, hkeep, hzero⟩ := ih hwalk1 (hcr1 ▸ hcr) (htab1 ▸ htab) (j := j + 1) (by omega)
    have hsucc : ∀ k, j + 1 + k = j + (k + 1) := fun k => by omega
    refine ⟨m', ?_, hcr'.trans hcr1, fun f' hf' => (hrest f' hf').trans (hother f' hf'),
      fun w hw => ?_, fun k hk => ?_⟩
    · rw [clearWords, hstore, ← hm']
      exact congrArg (fun v => clearWords n v m1) hnext
    · rw [hkeep w fun k hk => hsucc k ▸ hw (k + 1) (Nat.succ_lt_succ hk)]
      exact hstay w (hw 0 (Nat.succ_pos n))
    · cases k with
      | zero =>
        rw [hkeep _ fun k hk he => ?_]
        · exact hself
        · have hnat := congrArg BitVec.toNat he
          rw [BitVec.toNat_ofNat, BitVec.toNat_ofNat] at hnat
          omega
      | succ k =>
        rw [← hsucc k]
        exact hzero k (by omega)

end Pages

end GwOS
