import GwOS.Kernel.Slots
import Mathlib.Data.Finset.Card

/-!
# When an allocation succeeds

The search of a pool looks at the bits below `len - 1`, so what it can still give out is a
number of zero bits there (`Pool.spare`). With enough of them, and with a free run in the
bitmap of the kernel, `get_kernel_pages` and `get_one_page_no_bitmap` return pages. What has
to be known besides is that a free virtual page of the kernel is not mapped
(`Memory.Clear`): `page_table_add` has an `ASSERT` for it.
-/

namespace GwOS

/-! ## Pools -/

namespace Pool

variable {p p' : Pool} {f : Frame} {i : Nat}

/-- The indices that the search can still give out. -/
def spare (p : Pool) : Finset Nat :=
  (Finset.range (p.poolBitmap.len - 1)).filter fun i => p.poolBitmap.bit i = false

/-- The frame that an index stands for. -/
def frame (p : Pool) (i : Nat) : Frame := BitVec.ofNat 20 (p.first + i)

theorem Ok.frame_idx (hp : p.Ok) (hi : i < 8 * p.poolBitmap.len) :
    p.Contains (p.frame i) ∧ (p.frame i).toNat - p.first = i := by
  have hsize := hp.size
  have hfits := hp.fits
  have hal := hp.aligned
  have hnat : (p.frame i).toNat = p.first + i := by
    rw [frame, BitVec.toNat_ofNat]
    refine Nat.mod_eq_of_lt ?_
    unfold first
    unfold pgSize at *
    omega
  refine ⟨?_, by omega⟩
  rw [Contains, hnat]
  unfold first
  unfold pgSize at *
  omega

theorem Ok.bit_iff (hp : p.Ok) (hi : i < 8 * p.poolBitmap.len) :
    p.poolBitmap.bit i = true ↔ p.Taken (p.frame i) := by
  obtain ⟨hc, hidx⟩ := hp.frame_idx hi
  rw [Taken, hidx]
  exact ⟨fun h => ⟨hc, h⟩, fun h => h.2⟩

/-- Giving out a frame takes one index at most. -/
theorem Took.card_spare (hp : p.Ok) (h : p.Took p' f) : p.spare.card ≤ p'.spare.card + 1 := by
  have hp' := h.toSameRange.ok hp
  have hsub : p.spare.erase (f.toNat - p.first) ⊆ p'.spare := by
    intro i hi
    obtain ⟨hne, hmem⟩ := Finset.mem_erase.mp hi
    obtain ⟨hrange, hbit⟩ := Finset.mem_filter.mp hmem
    have hlt := Finset.mem_range.mp hrange
    refine Finset.mem_filter.mpr ⟨Finset.mem_range.mpr (h.len ▸ hlt), ?_⟩
    have hin : i < 8 * p.poolBitmap.len := by omega
    have hframe : p'.frame i = p.frame i := by rw [frame, frame, h.first]
    by_contra hset
    have htaken := (hp'.bit_iff (h.len ▸ hin)).mp (Bool.not_eq_false _ ▸ hset)
    rw [hframe] at htaken
    rcases (h.taken _).mp htaken with ht | he
    · rw [(hp.bit_iff hin).mpr ht] at hbit
      cases hbit
    · rw [← he, (hp.frame_idx hin).2] at hne
      exact hne rfl
  have hcard := Finset.card_le_card hsub
  have herase := Finset.pred_card_le_card_erase (s := p.spare) (a := f.toNat - p.first)
  omega

end Pool

/-- `palloc` fails only when nothing is left. -/
theorem palloc_supply {p : Pool} (hp : p.Ok) (hs : 0 < p.spare.card) :
    ∃ a p', palloc p = .ok (some a, p') ∧ offsetOf a = 0 ∧ p.Took p' (pageOf a) ∧
      p.spare.card ≤ p'.spare.card + 1 := by
  obtain ⟨r, p', hpal, hr⟩ := palloc_ok hp
  rcases hr with ⟨rfl, rfl⟩ | ⟨a, rfl, hoff, ht⟩
  · obtain ⟨i, hi⟩ := Finset.card_pos.mp hs
    obtain ⟨hrange, hbit⟩ := Finset.mem_filter.mp hi
    have hlt := Finset.mem_range.mp hrange
    have hsize := hp.size
    have hfits := hp.fits
    have hlen := hp.len
    unfold pgSize at *
    obtain ⟨found, hfound, hspec⟩ := bitmapApplyCnt_ok (Nat.le_refl 1) hlen (by omega)
    rw [palloc, hfound] at hpal
    cases found with
    | none =>
      refine absurd ?_ (hspec i (Nat.zero_le i) (by omega))
      intro k hk
      rw [Nat.lt_one_iff.mp hk, Nat.add_zero]
      exact hbit
    | some idx =>
      change (bitmapSetIdx p'.poolBitmap idx 1 >>= _) = _ at hpal
      obtain ⟨mp, -, hpal⟩ := bind_eq_ok.mp hpal
      cases hpal
  · exact ⟨a, p', hpal, hoff, ht, ht.card_spare hp⟩

/-- A frame that has been given out is one less. -/
theorem palloc_card {p p' : Pool} {a : Addr} (hp : p.Ok) (h : palloc p = .ok (some a, p')) :
    p'.spare.card + 1 = p.spare.card := by
  have hsize := hp.size
  have hfits := hp.fits
  have hlen := hp.len
  unfold pgSize at *
  obtain ⟨found, hfound, hspec⟩ := bitmapApplyCnt_ok (Nat.le_refl 1) hlen (by omega)
  rw [palloc, hfound] at h
  cases found with
  | none => cases h
  | some idx =>
    obtain ⟨-, hlt, hfree⟩ := hspec
    obtain ⟨mp, hmp, hmplen, hbit⟩ := bitmapSetIdx_ok (show idx < 8 * p.poolBitmap.len by omega) true
    change (bitmapSetIdx p.poolBitmap idx 1 >>= _) = _ at h
    rw [show bitmapSetIdx p.poolBitmap idx 1 = .ok mp from hmp] at h
    cases h
    have hzero := hfree 0 (by omega)
    rw [Nat.add_zero] at hzero
    have hmem : idx ∈ p.spare := Finset.mem_filter.mpr ⟨Finset.mem_range.mpr (by omega), hzero⟩
    have herase : ({ p with poolBitmap := mp } : Pool).spare = p.spare.erase idx := by
      ext i
      rw [Finset.mem_erase, Pool.spare, Pool.spare, Finset.mem_filter, Finset.mem_filter, hbit, hmplen]
      by_cases he : i = idx
      · simp [he]
      · simp [he]
    rw [herase, Finset.card_erase_add_one hmem]

/-- `palloc` of an empty pool. -/
theorem palloc_none {p : Pool} (hp : p.Ok) (h : p.spare.card = 0) : palloc p = .ok (none, p) := by
  obtain ⟨r, p', hpal, hr⟩ := palloc_ok hp
  rcases hr with ⟨rfl, rfl⟩ | ⟨a, rfl, -, -⟩
  · exact hpal
  · have hcard := palloc_card hp hpal
    omega

section Supply

variable {s s' s1 : Memory} {D : Frame → Prop} {g : VPage → Frame} {L H N : List VPage} {v : Addr}
  {pf : PoolFlag} {cnt : Nat} {P : Addr → Prop}

/-! ## One page -/

theorem tableFound_of_spare (hl : Layout s D) (h : 0 < s.kernelPool.spare.card) : TableFound s v := by
  obtain ⟨a, p', hpal, -⟩ := palloc_supply hl.kernelOk h
  exact .inr ⟨a, p', hpal⟩

/-- `page_table_add` succeeds on a page that is not mapped. -/
theorem pageTableAdd_ok (hl : Layout s D) (hcr : D s.cr3) (hv : dirIdx v ≠ 1023)
    (hnone : s.frameAt (vpage s.cr3 v) = none) (htab : TableFound s v) (page : Addr) :
    ∃ s', pageTableAdd s v page = .ok s' := by
  have hself := hl.selfMapped hcr
  rw [hl.frameAt_vpage hcr hv] at hnone
  by_cases hp : Present (s.pde v)
  · rw [pageTableAdd_table hself hp, if_neg]
    · exact ⟨_, rfl⟩
    · intro hpte
      rw [Machine.walk, if_pos ⟨hp, hpte⟩] at hnone
      cases hnone
  · obtain ⟨pt, p', hpt⟩ := htab.resolve_left hp
    obtain ⟨-, ht⟩ := palloc_took hl.kernelOk hpt
    have htook : (s.pool .kernel).Took p' (pageOf pt) := ht
    have hspare := hl.spare (hl.not_taken htook) (hl.contains_ge htook.contains)
    have hne : pageOf pt ≠ s.cr3 := fun he => hspare.1 (he ▸ hcr)
    exact ⟨_, pageTableAdd_newTable hself hp hpt hne page⟩

/-! ## `get_kernel_pages` -/

/-- A page of the kernel is on its side. -/
theorem Layout.proper_kernel (hl : Layout s D) (hhigh : 0xc0000000 ≤ v.toNat)
    (hlt : v.toNat < 0xffc00000) : ProperPage D (vpage kernelDir v) := by
  refine hl.proper_vpage hl.root (dirIdx_ne_of_le hlt) fun hidx => ?_
  have hidx' : (dirIdx v).toNat < 768 := hidx
  rw [dirIdx_toNat] at hidx'
  omega

theorem nextPage_toNat {i : Nat} (h : v.toNat + i * pgSize < 2 ^ 32) :
    (v + BitVec.ofNat 32 (i * pgSize)).toNat = v.toNat + i * pgSize := by
  rw [BitVec.toNat_add, BitVec.toNat_ofNat]
  omega

/-- A page is not among those behind it. -/
theorem vpage_not_mem (d : Frame) (hend : v.toNat + (cnt + 1) * pgSize ≤ 0xffc00000) :
    vpage d v ∉ vpages d cnt (v + 0x1000) := by
  intro hmem
  obtain ⟨i, hi, he⟩ := mem_vpages hmem
  have hpage : pageOf v = pageOf (v + 0x1000 + BitVec.ofNat 32 (i * pgSize)) := congrArg Prod.snd he
  have hnat := congrArg BitVec.toNat hpage
  have h1 : (0x1000 : Addr).toNat = 0x1000 := rfl
  unfold pgSize at *
  rw [pageOf_toNat, pageOf_toNat, BitVec.toNat_add, BitVec.toNat_add, BitVec.toNat_ofNat, h1] at hnat
  omega

/-- The loop of `malloc_page` over pages of the kernel that are not mapped. -/
theorem mallocLoop_ok (cnt : Nat) (hl : Layout s D) (ho : Owned s D g L H) (hcr : D s.cr3)
    (hhigh : 0xc0000000 ≤ v.toNat) (hend : v.toNat + cnt * pgSize ≤ 0xffc00000)
    (hnone : ∀ k ∈ vpages kernelDir cnt v, s.frameAt k = none)
    (hsupply : cnt ≤ s.kernelPool.spare.card) :
    ∃ s', mallocLoop .kernel cnt v s = .ok (true, s') ∧ s'.userPool = s.userPool ∧
      s.kernelPool.spare.card ≤ s'.kernelPool.spare.card + cnt := by
  induction cnt generalizing s L v with
  | zero => exact ⟨s, rfl, rfl, Nat.le_refl _⟩
  | succ cnt ih =>
    obtain ⟨page, p', hpal, -, ht, hspare⟩ := palloc_supply hl.kernelOk (by omega)
    have htook : (s.pool .kernel).Took p' (pageOf page) := ht
    have hpage : palloc (s.pool .kernel) = .ok (some page, p') := hpal
    have hlt : v.toNat < 0xffc00000 := by
      unfold pgSize at hend
      omega
    have hidx : 768 ≤ dirIdx v := by
      show 768 ≤ (dirIdx v).toNat
      rw [dirIdx_toNat]
      omega
    have hv := dirIdx_ne_of_le hlt
    have hkey := vpage_kernel hhigh s.cr3
    obtain ⟨hl1, -, -⟩ := hl.took ho htook
    have hpres : Present ((s.setPool .kernel p').pde v) := (hl.shared _ hcr _ hidx hv).1
    have hfound : TableFound (s.setPool .kernel p') v := .inl hpres
    have hnone1 : (s.setPool .kernel p').frameAt (vpage s.cr3 v) = none := by
      rw [hkey]
      exact hnone _ (List.mem_cons_self ..)
    obtain ⟨s1, h1⟩ := pageTableAdd_ok hl1 hcr hv hnone1 hfound page
    have hlow : dirIdx v < 768 → s.cr3 ≠ kernelDir := fun h => absurd hidx (BitVec.not_le.mpr h)
    obtain ⟨hadd, htabled, -⟩ := Owned.addPage_added hl ho hcr hv hlow hpage hfound s1 h1
    obtain ⟨hpool, -⟩ := htabled.here hpres
    have hpool1 : s1.kernelPool = p' := hpool
    have huser1 : s1.userPool = s.userPool := htabled.userPool
    have hnext : 0xc0000000 ≤ (v + 0x1000).toNat := by
      have h1 : (0x1000 : Addr).toNat = 0x1000 := rfl
      unfold pgSize at hend
      rw [BitVec.toNat_add]
      omega
    -- the pages behind are as before
    have hrest : ∀ k ∈ vpages kernelDir cnt (v + 0x1000), s1.frameAt k = none := by
      intro k hk
      rw [hadd.grew.proper k ?_ ?_]
      · exact hnone k (List.mem_cons_of_mem _ hk)
      · obtain ⟨i, hi, rfl⟩ := mem_vpages hk
        have hstep := next_toNat hend
        have hw : ((v + 0x1000) + BitVec.ofNat 32 (i * pgSize)).toNat =
            (v + 0x1000).toNat + i * pgSize := by
          refine nextPage_toNat ?_
          unfold pgSize at *
          omega
        refine hl.proper_kernel ?_ ?_
        · omega
        · unfold pgSize at *
          omega
      · intro hmem
        rw [List.mem_singleton.mp hmem, hkey] at hk
        exact vpage_not_mem kernelDir hend hk
    obtain ⟨s', h', huser, hcard⟩ := ih hadd.layout hadd.owned (hadd.steady.cr3 ▸ hcr) hnext
      (next_toNat hend) hrest (by rw [hpool1]; omega)
    refine ⟨s', ?_, huser.trans huser1, ?_⟩
    · rw [mallocLoop, hpage]
      show (pageTableAdd (s.setPool .kernel p') v page >>= fun s => _) = _
      rw [h1]
      exact h'
    · rw [hpool1] at hcard
      omega

/-! ## Free virtual pages of the kernel -/

/-- The page of the kernel at an index of its bitmap. -/
def Memory.kernelPage (s : Memory) (idx : Nat) : VPage :=
  vpage kernelDir (s.kernelVaddr.vaddrStart + BitVec.ofNat 32 (idx * pgSize))

/-- A virtual page of the kernel whose bit is clear is not mapped. -/
def Memory.Clear (s : Memory) : Prop :=
  ∀ idx < 8 * s.kernelVaddr.vaddrBitmap.len, s.kernelVaddr.vaddrBitmap.bit idx = false →
    s.frameAt (s.kernelPage idx) = none

/-- The address of the page at an index. -/
theorem VaddrsOk.kernelPage_toNat (h : VaddrsOk s P) {idx : Nat}
    (hidx : idx < 8 * s.kernelVaddr.vaddrBitmap.len) :
    (s.kernelVaddr.vaddrStart + BitVec.ofNat 32 (idx * pgSize)).toNat =
      s.kernelVaddr.vaddrStart.toNat + idx * pgSize ∧
    s.kernelVaddr.vaddrStart.toNat + idx * pgSize < 0xffc00000 := by
  have hk := h.kernel
  have hlt : s.kernelVaddr.vaddrStart.toNat + idx * pgSize < 0xffc00000 := by
    unfold pgSize at *
    omega
  exact ⟨nextPage_toNat (by omega), hlt⟩

theorem VaddrsOk.proper_kernelPage (h : VaddrsOk s P) (hl : Layout s D) {idx : Nat}
    (hidx : idx < 8 * s.kernelVaddr.vaddrBitmap.len) : ProperPage D (s.kernelPage idx) := by
  obtain ⟨hnat, hlt⟩ := h.kernelPage_toNat hidx
  have hhigh := h.high
  exact hl.proper_kernel (by omega) (by omega)

theorem VaddrsOk.kernelPage_inj (h : VaddrsOk s P) {i j : Nat}
    (hi : i < 8 * s.kernelVaddr.vaddrBitmap.len) (hj : j < 8 * s.kernelVaddr.vaddrBitmap.len)
    (he : s.kernelPage i = s.kernelPage j) : i = j := by
  have hnat := congrArg BitVec.toNat (congrArg Prod.snd he)
  obtain ⟨h1, -⟩ := h.kernelPage_toNat hi
  obtain ⟨h2, -⟩ := h.kernelPage_toNat hj
  have hi' : (pageOf (s.kernelVaddr.vaddrStart + BitVec.ofNat 32 (i * pgSize))).toNat =
      (pageOf (s.kernelVaddr.vaddrStart + BitVec.ofNat 32 (j * pgSize))).toNat := hnat
  have hal := h.aligned
  rw [pageOf_toNat, pageOf_toNat, h1, h2] at hi'
  unfold pgSize at *
  omega

/-- The pages from the one at `idx` on are those at the indices from `idx` on. -/
theorem mem_kernelPages {idx : Nat} {k : VPage}
    (hk : k ∈ vpages kernelDir cnt (s.kernelVaddr.vaddrStart + BitVec.ofNat 32 (idx * pgSize))) :
    ∃ i < cnt, k = s.kernelPage (idx + i) := by
  obtain ⟨i, hi, rfl⟩ := mem_vpages hk
  refine ⟨i, hi, congrArg (vpage kernelDir) ?_⟩
  apply BitVec.eq_of_toNat_eq
  unfold pgSize
  simp only [BitVec.toNat_add, BitVec.toNat_ofNat]
  omega

/-- The kernel has marked the new pages of its own. -/
theorem Memory.Clear.added (hc : s.Clear) (hl : Layout s D) (hva : VaddrsOk s P)
    (hadd : PagesAdded s s' D g L H N) (hstart : s'.kernelVaddr.vaddrStart = s.kernelVaddr.vaddrStart)
    (hbits : ∀ idx < 8 * s.kernelVaddr.vaddrBitmap.len, s'.kernelVaddr.vaddrBitmap.bit idx = false →
      s.kernelVaddr.vaddrBitmap.bit idx = false ∧ s.kernelPage idx ∉ N) : s'.Clear := by
  intro idx hidx hbit
  rw [hadd.steady.len] at hidx
  obtain ⟨hold, hN⟩ := hbits idx hidx hbit
  have hkey : s'.kernelPage idx = s.kernelPage idx := by
    rw [Memory.kernelPage, Memory.kernelPage, hstart]
  rw [hkey, hadd.grew.proper _ (hva.proper_kernelPage hl hidx) hN]
  exact hc idx hidx hold

/-- **`get_kernel_pages`** returns pages when there is a free run for them and the pool has
enough frames. -/
theorem getKernelPages_ok (hl : Layout s D) (ho : Owned s D g L H) (hcr : D s.cr3)
    (hva : VaddrsOk s P) (hrun : P s.running) (hc : s.Clear) (hcnt : 1 ≤ cnt) (hmax : cnt < 3840)
    (hlt : cnt < s.kernelVaddr.vaddrBitmap.len) {j : Nat}
    (hj : j < s.kernelVaddr.vaddrBitmap.len - cnt) (hfree : s.kernelVaddr.vaddrBitmap.FreeAt j cnt)
    (hsupply : cnt ≤ s.kernelPool.spare.card) :
    ∃ v s', getKernelPages s cnt = .ok (some v, s') ∧ s'.userPool = s.userPool ∧
      s.kernelPool.spare.card ≤ s'.kernelPool.spare.card + cnt := by
  have hkernel := hva.kernel
  have hhigh := hva.high
  have hlen : s.kernelVaddr.vaddrBitmap.len < 2 ^ 32 := by
    unfold pgSize at hkernel
    omega
  have hlt' : cnt < (s.vaddrBitmap .kernel).len := hlt
  obtain ⟨v, s1, hget⟩ := vaddrGet_ok .kernel nofun hcnt hlt' hlen hj hfree
  obtain ⟨idx, hgot⟩ := vaddrGet_spec hcnt hlt' hlen _ hget
  obtain ⟨hb, -⟩ := vaddrGet_returns hcnt hlt' hlen _ hget
  have hrange : idx + cnt ≤ s.kernelVaddr.vaddrBitmap.len := hgot.range
  have hv : v = s.kernelVaddr.vaddrStart + BitVec.ofNat 32 (idx * pgSize) := hgot.vaddr
  have hnat : v.toNat = s.kernelVaddr.vaddrStart.toNat + idx * pgSize := by
    rw [hv]
    exact (hva.kernelPage_toNat (by omega)).1
  have hend : v.toNat + cnt * pgSize ≤ 0xffc00000 := by
    unfold pgSize at *
    omega
  have hadd := hb.added hl ho
  have hnone : ∀ k ∈ vpages kernelDir cnt v, s1.frameAt k = none := by
    intro k hk
    rw [hv] at hk
    obtain ⟨i, hi, rfl⟩ := mem_kernelPages hk
    have hin : idx + i < 8 * s.kernelVaddr.vaddrBitmap.len := by omega
    rw [hadd.grew.proper _ (hva.proper_kernelPage hl hin) nofun]
    exact hc _ hin (hgot.free i hi)
  obtain ⟨s2, hloop, huser, hcard⟩ := mallocLoop_ok cnt hadd.layout hadd.owned (hb.cr3 ▸ hcr)
    (by omega) hend hnone (hb.kernelPool ▸ hsupply)
  have htab := mallocTablesFound_kernel hl ho hcr hva hcnt hlt
  have hmalloc : mallocPage s .kernel cnt = .ok (some v, s2) := by
    rw [mallocPage, if_pos ⟨hcnt, hmax⟩, hget]
    show (mallocLoop .kernel cnt v s1 >>= _) = _
    rw [hloop]
    rfl
  obtain ⟨hl2, hst2, ho2, -⟩ := mallocPage_keeps hl ho hcr hva hrun hcnt hlt' htab _ hmalloc
  obtain ⟨m, hm, -⟩ := clearPages_ok cnt hl2 ho2 (hst2.cr3 ▸ hcr) fun k hk =>
    List.mem_append_left _ (hst2.cr3 ▸ hk)
  refine ⟨v, { s2 with toMachine := m }, ?_, huser.trans hb.userPool, ?_⟩
  · rw [getKernelPages, getPages, hmalloc]
    show (clearPages cnt v s2.toMachine >>= _) = _
    rw [hm]
    rfl
  · rw [hb.kernelPool] at hcard
    exact hcard

/-- What `get_kernel_pages` has done when it has returned the pages at the index `idx`. -/
structure KernelGot (s s' : Memory) (D : Frame → Prop) (g : VPage → Frame) (L H : List VPage)
    (cnt idx : Nat) (v : Addr) : Prop where
  added : PagesAdded s s' D g L H (vpages kernelDir cnt v)
  zero : ∀ k ∈ vpages kernelDir cnt v, ∀ f, s'.frameAt k = some f → s'.mem f = fun _ => 0
  low : s.kernelVaddr.vaddrStart.toNat ≤ v.toNat
  aligned : v.toNat % pgSize = 0
  fits : v.toNat + cnt * pgSize ≤ 0xffc00000
  range : idx + cnt ≤ s.kernelVaddr.vaddrBitmap.len
  vaddr : v = s.kernelVaddr.vaddrStart + BitVec.ofNat 32 (idx * pgSize)
  free : s.kernelVaddr.vaddrBitmap.FreeAt idx cnt
  first : ∀ j < idx, ¬ s.kernelVaddr.vaddrBitmap.FreeAt j cnt
  marked : s.kernelVaddr.vaddrBitmap.SetRange s'.kernelVaddr.vaddrBitmap true idx cnt
  pcb : s'.pcb = s.pcb
  btmp : s'.btmp = s.btmp
  running : s'.running = s.running
  clear : s.Clear → s'.Clear

/-- **`get_kernel_pages`**, when it succeeds. -/
theorem getKernelPages_got (hl : Layout s D) (ho : Owned s D g L H) (hcr : D s.cr3)
    (hva : VaddrsOk s P) (hrun : P s.running) (hcnt : 1 ≤ cnt)
    (hlt : cnt < s.kernelVaddr.vaddrBitmap.len) :
    Returns (getKernelPages s cnt) fun r => ∀ v, r.1 = some v →
      ∃ idx, KernelGot s r.2 D g L H cnt idx v := by
  have hkernel := hva.kernel
  have hlen : s.kernelVaddr.vaddrBitmap.len < 2 ^ 32 := by
    unfold pgSize at hkernel
    omega
  intro r hr v hv
  have hadd := getKernelPages_added hl ho hcr hva hrun hcnt hlt r hr v hv
  obtain ⟨-, -, hkeeps⟩ := getKernelPages_keeps hl ho hcr hva hrun hcnt hlt r hr
  rw [hv] at hkeeps
  obtain ⟨-, hzero, hlow, hal, hend⟩ := hkeeps
  have hfits : v.toNat + cnt * pgSize ≤ 0xffc00000 := by
    unfold pgSize at *
    omega
  obtain ⟨idx, s1, hgot, hsame⟩ := getKernelPages_vaddr hcnt hlt hlen r hr v hv
  obtain ⟨mp, hmp, rfl⟩ := hgot.marked
  have hbitmap : r.2.kernelVaddr = { s.kernelVaddr with vaddrBitmap := mp } := hsame.kernelVaddr
  have hrange : idx + cnt ≤ s.kernelVaddr.vaddrBitmap.len := hgot.range
  have hvaddr : v = s.kernelVaddr.vaddrStart + BitVec.ofNat 32 (idx * pgSize) := hgot.vaddr
  have hset : s.kernelVaddr.vaddrBitmap.SetRange mp true idx cnt := hmp
  rw [vpages_kernel s.cr3 cnt (Nat.le_trans hva.high hlow) hfits] at hzero
  refine ⟨idx, hadd, hzero, hlow, hal, hfits, hrange, hvaddr, hgot.free, hgot.first, ?_, hsame.pcb,
    hsame.btmp, hsame.running, fun hc => hc.added hl hva hadd ?_ ?_⟩
  · rw [hbitmap]
    exact hset
  · rw [hbitmap]
  · intro i hi hbit
    rw [hbitmap] at hbit
    have hbit' : (if idx ≤ i ∧ i < idx + cnt then true else s.kernelVaddr.vaddrBitmap.bit i) = false := by
      rw [← hset.2 i]
      exact hbit
    split at hbit'
    · cases hbit'
    · next hout =>
      refine ⟨hbit', fun hmem => ?_⟩
      rw [hvaddr] at hmem
      obtain ⟨j, hj, he⟩ := mem_kernelPages hmem
      have hij := hva.kernelPage_inj hi (by omega) he
      omega

/-! ## `get_one_page_no_bitmap` -/

/-- **`get_one_page_no_bitmap`** for a process: a frame is taken from the pool of the user, and
one for the table if there is none. -/
theorem getOnePageNoBitmap_ok (hl : Layout s D) (ho : Owned s D g L H) (hcr : D s.cr3)
    (hv : dirIdx v < 768) (hdir : s.cr3 ≠ kernelDir) (hnone : s.frameAt (vpage s.cr3 v) = none)
    (huser : 0 < s.userPool.spare.card)
    (hkernel : ¬ Present (s.pde v) → 0 < s.kernelPool.spare.card) :
    ∃ s', getOnePageNoBitmap s .user v = .ok (some v, s') ∧
      PagesAdded s s' D g L H [vpage s.cr3 v] ∧ SameRecords s s' ∧
      s.userPool.spare.card ≤ s'.userPool.spare.card + 1 ∧
      (Present (s.pde v) → s'.kernelPool = s.kernelPool ∧ ∀ d, D d → s'.mem d = s.mem d) ∧
      (¬ Present (s.pde v) → s.kernelPool.spare.card ≤ s'.kernelPool.spare.card + 1 ∧
        ∃ pt, ¬ s.Taken (pageOf pt) ∧ ∀ d, D d → ∀ i,
          s'.mem d i = if d = s.cr3 ∧ i = dirIdx v then tableEntry pt else s.mem d i) := by
  have hwin : dirIdx v ≠ 1023 := fun he => absurd (he ▸ hv) (by decide)
  obtain ⟨page, p', hpal, -, ht, hspare⟩ := palloc_supply hl.userOk huser
  have htook : (s.pool .user).Took p' (pageOf page) := ht
  have hpage : palloc (s.pool .user) = .ok (some page, p') := hpal
  obtain ⟨hl1, -, -⟩ := hl.took ho htook
  have hfound : TableFound (s.setPool .user p') v := by
    by_cases hp : Present (s.pde v)
    · exact .inl hp
    · exact tableFound_of_spare hl1 (hkernel hp)
  obtain ⟨s', h'⟩ := pageTableAdd_ok hl1 hcr hwin hnone hfound page
  obtain ⟨hadd, htabled, -⟩ := Owned.addPage_added hl ho hcr hwin (fun _ => hdir) hpage hfound s' h'
  have hcall : getOnePageNoBitmap s .user v = .ok (some v, s') := by
    rw [getOnePageNoBitmap, hpage]
    show (pageTableAdd (s.setPool .user p') v page >>= _) = _
    rw [h']
    rfl
  refine ⟨s', hcall, hadd, getOnePageNoBitmap_same s .user v _ hcall, ?_, htabled.here, fun hp => ?_⟩
  · have huser' : s'.userPool = p' := htabled.userPool
    rw [huser']
    exact hspare
  · obtain ⟨pt, htook', hmem⟩ := htabled.new hp
    have hkernel' : (s.pool .kernel).Took s'.kernelPool (pageOf pt) := htook'
    exact ⟨htook'.card_spare hl.kernelOk, pt, hl.not_taken hkernel', hmem⟩

/-! ## The ranges of the pools -/

/-- The pools describe the same frames. -/
structure SameRanges (s s' : Memory) : Prop where
  kernelStart : s'.kernelPool.phyAddrStart = s.kernelPool.phyAddrStart
  kernelSize : s'.kernelPool.poolSize = s.kernelPool.poolSize
  userStart : s'.userPool.phyAddrStart = s.userPool.phyAddrStart
  userSize : s'.userPool.poolSize = s.userPool.poolSize

theorem SameRanges.refl (s : Memory) : SameRanges s s := ⟨rfl, rfl, rfl, rfl⟩

theorem SameRanges.trans {s1 s2 s3 : Memory} (h : SameRanges s1 s2) (h' : SameRanges s2 s3) :
    SameRanges s1 s3 :=
  ⟨h'.kernelStart.trans h.kernelStart, h'.kernelSize.trans h.kernelSize,
    h'.userStart.trans h.userStart, h'.userSize.trans h.userSize⟩

theorem SameRanges.of_pools (hk : s'.kernelPool = s.kernelPool) (hu : s'.userPool = s.userPool) :
    SameRanges s s' := by
  refine ⟨?_, ?_, ?_, ?_⟩
  · rw [hk]
  · rw [hk]
  · rw [hu]
  · rw [hu]

theorem SameRanges.setPool {pf : PoolFlag} {p : Pool} (hstart : p.phyAddrStart = (s.pool pf).phyAddrStart)
    (hsize : p.poolSize = (s.pool pf).poolSize) : SameRanges s (s.setPool pf p) := by
  cases pf with
  | kernel => exact ⟨hstart, hsize, rfl, rfl⟩
  | user => exact ⟨rfl, rfl, hstart, hsize⟩

theorem SameRanges.contains (h : SameRanges s s') (pf : PoolFlag) (f : Frame) :
    (s'.pool pf).Contains f ↔ (s.pool pf).Contains f := by
  cases pf with
  | kernel =>
    show s'.kernelPool.Contains f ↔ s.kernelPool.Contains f
    rw [Pool.Contains, Pool.Contains, h.kernelStart, h.kernelSize]
  | user =>
    show s'.userPool.Contains f ↔ s.userPool.Contains f
    rw [Pool.Contains, Pool.Contains, h.userStart, h.userSize]

theorem palloc_range (p : Pool) : Returns (palloc p) fun r =>
    r.2.phyAddrStart = p.phyAddrStart ∧ r.2.poolSize = p.poolSize := by
  unfold palloc
  refine .bind .any fun found _ => ?_
  cases found with
  | none => exact .ok ⟨rfl, rfl⟩
  | some idx => exact .bind .any fun mp _ => .ok ⟨rfl, rfl⟩

theorem setPte_pools (s : Memory) (pte page : Addr) : Returns (setPte s pte page) fun s' =>
    s'.kernelPool = s.kernelPool ∧ s'.userPool = s.userPool := by
  unfold setPte
  refine .bind .any fun entry _ => ?_
  split
  · exact .error _
  · exact .bind .any fun m _ => .ok ⟨rfl, rfl⟩

theorem pageTableAdd_pools (s : Memory) (v page : Addr) : Returns (pageTableAdd s v page) fun s' =>
    SameRanges s s' ∧ s'.userPool = s.userPool := by
  unfold pageTableAdd
  refine .bind .any fun entry _ => ?_
  split
  · exact (setPte_pools _ _ _).mono fun s' h' => ⟨.of_pools h'.1 h'.2, h'.2⟩
  · refine .bind (palloc_range _) fun r hr => .bind .any fun m1 _ => .bind .any fun m2 _ => ?_
    refine (setPte_pools _ _ _).mono fun s' h' => ⟨⟨?_, ?_, ?_, ?_⟩, h'.2⟩
    · rw [h'.1]
      exact hr.1
    · rw [h'.1]
      exact hr.2
    · rw [h'.2]
    · rw [h'.2]

theorem mallocLoop_pools (cnt : Nat) (s : Memory) (v : Addr) :
    Returns (mallocLoop .kernel cnt v s) fun r => SameRanges s r.2 ∧ r.2.userPool = s.userPool := by
  induction cnt generalizing s v with
  | zero => exact .ok ⟨.refl s, rfl⟩
  | succ cnt ih =>
    unfold mallocLoop
    refine .bind (palloc_range _) fun r hr => ?_
    obtain ⟨page, p⟩ := r
    have hpool : SameRanges s (s.setPool .kernel p) := .setPool hr.1 hr.2
    cases page with
    | none => exact .ok ⟨hpool, rfl⟩
    | some page =>
      refine .bind (pageTableAdd_pools _ v page) fun s1 h1 => ?_
      exact (ih s1 _).mono fun r h => ⟨(hpool.trans h1.1).trans h.1, h.2.trans h1.2⟩

/-- `vaddr_get` leaves the pools alone. -/
theorem vaddrGet_pools {r : Option Addr × Memory} (h : vaddrGet s pf cnt = .ok r) :
    r.2.kernelPool = s.kernelPool ∧ r.2.userPool = s.userPool := by
  unfold vaddrGet at h
  obtain ⟨found, -, h⟩ := bind_eq_ok.mp h
  cases found with
  | none =>
    cases h
    exact ⟨rfl, rfl⟩
  | some idx =>
    obtain ⟨mp, -, h⟩ := bind_eq_ok.mp h
    dsimp only at h
    split at h
    · cases h
    · cases h
      cases pf <;> exact ⟨rfl, rfl⟩

theorem getKernelPages_pools (s : Memory) (cnt : Nat) : Returns (getKernelPages s cnt) fun r =>
    SameRanges s r.2 ∧ r.2.userPool = s.userPool := by
  have hget : ∀ r, vaddrGet s .kernel cnt = .ok r → SameRanges s r.2 ∧ r.2.userPool = s.userPool := by
    intro r hr
    obtain ⟨hk, hu⟩ := vaddrGet_pools hr
    exact ⟨.of_pools hk hu, hu⟩
  unfold getKernelPages getPages
  refine .bind (P := fun r => SameRanges s r.2 ∧ r.2.userPool = s.userPool) (fun r hr => ?_)
    fun r hr => ?_
  · rcases mallocPage_cases s .kernel cnt r hr with ⟨h, -⟩ | ⟨v, s1, done, h, hloop, -⟩
    · exact hget (none, r.2) h
    · have h1 := hget (some v, s1) h
      have h2 := mallocLoop_pools cnt s1 v _ hloop
      exact ⟨h1.1.trans h2.1, h2.2.trans h1.2⟩
  · obtain ⟨v, s1⟩ := r
    cases v with
    | none => exact .ok hr
    | some v =>
      refine .bind .any fun m _ => .ok ⟨hr.1.trans ⟨rfl, rfl, rfl, rfl⟩, hr.2⟩

theorem getOnePageNoBitmap_pools (s : Memory) (pf : PoolFlag) (v : Addr) :
    Returns (getOnePageNoBitmap s pf v) fun r => SameRanges s r.2 := by
  unfold getOnePageNoBitmap
  refine .bind (palloc_range _) fun r hr => ?_
  obtain ⟨page, p⟩ := r
  have hpool : SameRanges s (s.setPool pf p) := .setPool hr.1 hr.2
  cases page with
  | none => exact .ok hpool
  | some page => exact .bind (pageTableAdd_pools _ v page) fun s1 h1 => .ok (hpool.trans h1.1)

/-! ## What is left in the kernel's pool -/

/-- `page_table_add` takes one frame at most, for a table. -/
theorem pageTableAdd_kernel (s : Memory) (v page : Addr) : Returns (pageTableAdd s v page) fun s' =>
    s'.kernelPool = s.kernelPool ∨ ∃ pt, palloc s.kernelPool = .ok (pt, s'.kernelPool) := by
  unfold pageTableAdd
  refine .bind .any fun entry _ => ?_
  split
  · exact (setPte_pools _ _ _).mono fun s' h' => .inl h'.1
  · refine .bind .any fun r hr => .bind .any fun m1 _ => .bind .any fun m2 _ => ?_
    refine (setPte_pools _ _ _).mono fun s' h' => .inr ⟨r.1, ?_⟩
    rw [h'.1]
    exact hr

/-- A frame more has been given out, or none was left. -/
theorem palloc_spare {p p' : Pool} {r : Option Addr} (hp : p.Ok) (h : palloc p = .ok (r, p')) :
    p'.Ok ∧ p'.spare.card ≤ p.spare.card ∧ (r ≠ none → p'.spare.card + 1 = p.spare.card) := by
  cases r with
  | none =>
    obtain ⟨r, p1, hpal, hr⟩ := palloc_ok hp
    cases hpal.symm.trans h
    rcases hr with ⟨-, rfl⟩ | ⟨a, ha, -⟩
    · exact ⟨hp, Nat.le_refl _, fun hne => absurd rfl hne⟩
    · cases ha
  | some a =>
    have hcard := palloc_card hp h
    exact ⟨(palloc_took hp h).2.toSameRange.ok hp, by omega, fun _ => hcard⟩

/-- The loop of `malloc_page` takes a frame for each page. -/
theorem mallocLoop_card (cnt : Nat) (s : Memory) (v : Addr) (hk : s.kernelPool.Ok) :
    Returns (mallocLoop .kernel cnt v s) fun r => r.2.kernelPool.Ok ∧
      r.2.kernelPool.spare.card ≤ s.kernelPool.spare.card ∧
      (r.1 = true → r.2.kernelPool.spare.card + cnt ≤ s.kernelPool.spare.card) := by
  induction cnt generalizing s v with
  | zero => exact .ok ⟨hk, Nat.le_refl _, fun _ => Nat.le_refl _⟩
  | succ cnt ih =>
    unfold mallocLoop
    refine .bind .any fun r hr => ?_
    obtain ⟨page, p⟩ := r
    obtain ⟨hp, hle, hone⟩ := palloc_spare hk hr
    cases page with
    | none => exact .ok ⟨hp, hle, by rintro ⟨⟩⟩
    | some page =>
      have hlt := hone (Option.some_ne_none page)
      refine .bind (pageTableAdd_kernel _ v page) fun s1 h1 => ?_
      -- the table may have taken another one
      have h1' : s1.kernelPool.Ok ∧ s1.kernelPool.spare.card ≤ p.spare.card := by
        rcases h1 with he | ⟨pt, hpt⟩
        · rw [he]
          exact ⟨hp, Nat.le_refl _⟩
        · obtain ⟨hok, hle1, -⟩ := palloc_spare hp hpt
          exact ⟨hok, hle1⟩
      refine (ih s1 _ h1'.1).mono fun r h2 => ⟨h2.1, ?_, fun hdone => ?_⟩
      · omega
      · have hrest := h2.2.2 hdone
        omega

/-- `get_kernel_pages` takes a frame for each page that it returns. -/
theorem getKernelPages_card (s : Memory) (cnt : Nat) (hk : s.kernelPool.Ok) :
    Returns (getKernelPages s cnt) fun r => r.2.kernelPool.Ok ∧
      r.2.kernelPool.spare.card ≤ s.kernelPool.spare.card ∧
      (r.1 ≠ none → r.2.kernelPool.spare.card + cnt ≤ s.kernelPool.spare.card) := by
  unfold getKernelPages getPages
  refine .bind (P := fun r => r.2.kernelPool.Ok ∧ r.2.kernelPool.spare.card ≤ s.kernelPool.spare.card ∧
    (r.1 ≠ none → r.2.kernelPool.spare.card + cnt ≤ s.kernelPool.spare.card)) (fun r hr => ?_)
    fun r hr => ?_
  · rcases mallocPage_cases s .kernel cnt r hr with ⟨hget, hnone⟩ | ⟨v, s1, done, hget, hloop, hv⟩
    · have hpool := vaddrGet_pools hget
      rw [hnone, hpool.1]
      exact ⟨hk, Nat.le_refl _, fun hne => absurd rfl hne⟩
    · have hpool := vaddrGet_pools hget
      obtain ⟨hok, hle, hdone⟩ := mallocLoop_card cnt s1 v (hpool.1 ▸ hk) _ hloop
      rw [hpool.1] at hle hdone
      refine ⟨hok, hle, fun hne => hdone ?_⟩
      cases done with
      | false => exact absurd hv hne
      | true => rfl
  · obtain ⟨v, s1⟩ := r
    cases v with
    | none => exact .ok hr
    | some v => exact .bind .any fun m _ => .ok ⟨hr.1, hr.2.1, fun _ => hr.2.2 (Option.some_ne_none v)⟩

/-! ## Pages of its own -/

/-- The pages that the kernel has added lie in frames of the kernel's pool. -/
theorem PagesAdded.kernelPool (h : PagesAdded s s' D g L H N)
    (huser : s'.userPool = s.userPool) :
    ∀ k ∈ N, ∀ f, s'.frameAt k = some f → s'.kernelPool.Contains f := by
  intro k hk f hf
  obtain ⟨f', hf', ht, -⟩ := h.owned.mapped k (List.mem_append_left H (List.mem_append_left L hk))
  cases hf.symm.trans hf'
  rcases ht with ht | ht
  · exact ht.1
  · rw [huser] at ht
    exact absurd (.inr ht) (h.grew.fresh k hk f hf)

/-- The pages of `get_kernel_pages` lie in frames of the kernel pool. -/
theorem KernelGot.pool {idx : Nat} (h : KernelGot s s' D g L H cnt idx v)
    (huser : s'.userPool = s.userPool) :
    ∀ k ∈ vpages kernelDir cnt v, ∀ f, s'.frameAt k = some f → s'.kernelPool.Contains f :=
  h.added.kernelPool huser

/-- Pages of the kernel from `v` on, in frames of its own pool. -/
structure Memory.OwnRun (s : Memory) (cnt : Nat) (v : Addr) : Prop where
  place : ∃ idx, idx + cnt ≤ s.kernelVaddr.vaddrBitmap.len ∧
    v = s.kernelVaddr.vaddrStart + BitVec.ofNat 32 (idx * pgSize)
  pool : ∀ k ∈ vpages kernelDir cnt v, ∀ f, s.frameAt k = some f → s.kernelPool.Contains f

theorem KernelGot.ownRun {idx : Nat} (h : KernelGot s s' D g L H cnt idx v)
    (huser : s'.userPool = s.userPool) : s'.OwnRun cnt v := by
  refine ⟨⟨idx, ?_, ?_⟩, h.pool huser⟩
  · rw [h.added.steady.len]
    exact h.range
  · rw [h.added.steady.start]
    exact h.vaddr

theorem Memory.OwnRun.congr (h : s.OwnRun cnt v) (hr : SameRanges s s')
    (hstart : s'.kernelVaddr.vaddrStart = s.kernelVaddr.vaddrStart)
    (hlen : s'.kernelVaddr.vaddrBitmap.len = s.kernelVaddr.vaddrBitmap.len)
    (hframe : ∀ k ∈ vpages kernelDir cnt v, s'.frameAt k = s.frameAt k) : s'.OwnRun cnt v := by
  refine ⟨?_, fun k hk f hf => ?_⟩
  · rw [hstart, hlen]
    exact h.place
  · rw [hframe k hk] at hf
    rw [Pool.Contains, hr.kernelStart, hr.kernelSize]
    exact h.pool k hk f hf

/-- Where the pages lie. -/
theorem Memory.OwnRun.bounds (h : s.OwnRun cnt v) (hva : VaddrsOk s P) (hcnt : 1 ≤ cnt) :
    0xc0000000 ≤ v.toNat ∧ v.toNat + cnt * pgSize ≤ 0xffc00000 ∧ v.toNat % pgSize = 0 := by
  obtain ⟨idx, hidx, rfl⟩ := h.place
  have hlt : idx < 8 * s.kernelVaddr.vaddrBitmap.len := by omega
  obtain ⟨hnat, -⟩ := hva.kernelPage_toNat hlt
  have hkernel := hva.kernel
  have hhigh := hva.high
  have hal := hva.aligned
  rw [hnat]
  unfold pgSize at *
  omega

/-! ## `mfree_page` -/

theorem pfree_range (s : Memory) (a : Addr) : Returns (pfree s a) (SameRanges s) := by
  unfold pfree
  exact .bind .any fun mp _ => .ok (.setPool rfl rfl)

theorem pageTablePteRemove_range (s : Memory) (v : Addr) :
    Returns (pageTablePteRemove s v) (SameRanges s) := by
  unfold pageTablePteRemove
  exact .bind .any fun entry _ => .bind .any fun m _ => .ok ⟨rfl, rfl, rfl, rfl⟩

theorem mfreeLoop_range (s : Memory) (pf : PoolFlag) (cnt : Nat) (v : Addr) :
    Returns (mfreeLoop pf cnt v s) (SameRanges s) := by
  induction cnt generalizing s v with
  | zero => exact .ok (.refl s)
  | succ cnt ih =>
    unfold mfreeLoop
    refine .bind .any fun a _ => ?_
    split
    · refine .bind (pfree_range s a) fun s1 h1 => .bind (pageTablePteRemove_range s1 v) fun s2 h2 => ?_
      exact (ih s2 _).mono fun s3 h3 => (h1.trans h2).trans h3
    · exact .error _

theorem mfreePage_range (s : Memory) (pf : PoolFlag) (v : Addr) (cnt : Nat) :
    Returns (mfreePage s pf v cnt) (SameRanges s) := by
  unfold mfreePage
  split
  · refine .bind .any fun a _ => ?_
    split
    · refine .bind (mfreeLoop_range s _ cnt v) fun s1 h1 => ?_
      refine (vaddrRemove_returns s1 pf v cnt).mono fun s2 h2 => ?_
      exact h1.trans (.of_pools h2.kernelPool h2.userPool)
    · exact .error _
  · exact .error _

/-- **`mfree_page`** of pages that the kernel owns. -/
theorem Memory.OwnRun.mfreePage (h : s.OwnRun cnt v) (hl : Layout s D)
    (ho : Owned s D g (vpages kernelDir cnt v ++ L) H) (hcr : D s.cr3) (hva : VaddrsOk s P)
    (hcnt : 1 ≤ cnt) :
    ∃ s', GwOS.mfreePage s .kernel v cnt = .ok s' ∧ SameRanges s s' ∧
      PagesRemoved s s' D g L H (vpages kernelDir cnt v) := by
  obtain ⟨hhigh, hend, -⟩ := h.bounds hva hcnt
  obtain ⟨idx, hidx, hv⟩ := h.place
  have hkey := vpages_kernel s.cr3 cnt hhigh hend
  have hpool := h.pool
  rw [← hkey] at ho hpool
  have hin : idx + cnt ≤ 8 * (s.vaddrBitmap .kernel).len := by
    show idx + cnt ≤ 8 * s.kernelVaddr.vaddrBitmap.len
    omega
  have hrange : (s.vaddrStart .kernel).toNat + 8 * (s.vaddrBitmap .kernel).len * pgSize ≤ 0xffc00000 :=
    hva.kernel
  have hal : (s.vaddrStart .kernel).toNat % pgSize = 0 := hva.aligned
  have hplace : v = s.vaddrStart .kernel + BitVec.ofNat 32 (idx * pgSize) := hv
  have hpool' : ∀ k ∈ vpages s.cr3 cnt v, ∀ f, s.frameAt k = some f → (s.pool .kernel).Contains f := hpool
  obtain ⟨s', h', -⟩ := mfreePage_emptied hl ho hcr hrange hal hcnt hin hplace hpool'
  have hrem := mfreePage_removed hl ho hcr hend (fun _ => hhigh) s' h'
  rw [hkey] at hrem
  exact ⟨s', h', mfreePage_range s .kernel v cnt s' h', hrem⟩

/-- The bits of pages that have been released may be clear. -/
theorem Memory.Clear.removed (hc : s.Clear) (hl : Layout s D) (hva : VaddrsOk s P)
    (hrem : PagesRemoved s s' D g L H N)
    (hbits : ∀ idx < 8 * s.kernelVaddr.vaddrBitmap.len, s'.kernelVaddr.vaddrBitmap.bit idx = false →
      s.kernelVaddr.vaddrBitmap.bit idx = false ∨ s.kernelPage idx ∈ N) : s'.Clear := by
  intro idx hidx hbit
  rw [hrem.steady.len] at hidx
  have hkey : s'.kernelPage idx = s.kernelPage idx := by
    rw [Memory.kernelPage, Memory.kernelPage, hrem.steady.start]
  rw [hkey]
  by_cases hN : s.kernelPage idx ∈ N
  · exact hrem.gone _ hN
  · rw [hrem.keeps.proper _ (hva.proper_kernelPage hl hidx) hN]
    exact hc idx hidx ((hbits idx hidx hbit).resolve_right hN)

end Supply

end GwOS
