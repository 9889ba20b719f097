import GwOS.Kernel.Blocks
import GwOS.Kernel.ByteStore
import GwOS.Userprog.RoundTrip
import Mathlib.Data.List.Pairwise

/-!
# The spans of the heap

A `Span` is what one `malloc_page` of the heap of the kernel has returned: the arena of a block size,
or the pages of one large block. `HeapOk` says how the spans, the headers and the free lists fit: the
spans of one block size are the arenas of a `Slab`, and the header of an arena counts its free
blocks.

- `LiveBlock.disjoint`: live blocks do not overlap.
- `HeapOk.takeBlock`, `HeapOk.newArena`: the two steps of `sys_malloc` for a small block.
-/

namespace GwOS

/-! ## The memory of the kernel -/

/-- The memory while a kernel thread runs. -/
structure Grounded (s : Memory) (threads : List Addr) (D : Frame → Prop) (g : VPage → Frame)
    (L H : List VPage) : Prop where
  layout : Layout s D
  owned : Owned s D g L H
  active : D s.cr3
  vaddrs : VaddrsOk s (· ∈ threads)
  running : s.running ∈ threads
  kernel : ∀ t ∈ threads, (s.pcb t).pgDir = none
  start : kernelHeapStart ≤ s.kernelVaddr.vaddrStart
  clear : s.Clear

section Grounded

variable {s s' : Memory} {threads : List Addr} {D : Frame → Prop} {g : VPage → Frame}
  {L L' H N : List VPage} {v : Addr} {cnt : Nat}

theorem Grounded.perm (h : Grounded s threads D g L H) (hp : L.Perm L') :
    Grounded s threads D g L' H :=
  ⟨h.layout, h.owned.perm hp, h.active, h.vaddrs, h.running, h.kernel, h.start, h.clear⟩

/-- What stays when pages are allocated or released. -/
theorem Grounded.steady (h : Grounded s threads D g L H) (hst : Steady s s') (hl : Layout s' D)
    (ho : Owned s' D g L' H) (hc : s'.Clear) : Grounded s' threads D g L' H := by
  refine ⟨hl, ho, hst.cr3 ▸ h.active, hst.vaddrsOk h.vaddrs, hst.running ▸ h.running, fun t ht => ?_,
    hst.start ▸ h.start, hc⟩
  rw [hst.pcb]
  exact h.kernel t ht

theorem Grounded.heapFlag (h : Grounded s threads D g L H) : s.heapFlag = .kernel := by
  rw [Memory.heapFlag, h.kernel _ h.running]

/-- Pages that hold data are written. -/
theorem Grounded.write (h : Grounded s threads D g L H) (hN : N ⊆ L) {m : Machine}
    (hcr : m.cr3 = s.cr3) (hm : ∀ f, (∀ k ∈ N, s.frameAt k ≠ some f) → m.mem f = s.mem f) :
    Grounded { s with toMachine := m } threads D g L H ∧
      ∀ k, D k.1 → dirIdx (addrOf k.2 0) ≠ 1023 →
        ({ s with toMachine := m } : Memory).frameAt k = s.frameAt k := by
  obtain ⟨hl, ho, hframe⟩ := Owned.write h.layout h.owned hN hm
  refine ⟨h.steady ⟨hcr, rfl, rfl, rfl, rfl, fun _ => rfl⟩ hl ho fun idx hidx hbit => ?_, hframe⟩
  have hk := h.vaddrs.proper_kernelPage h.layout hidx
  exact (hframe _ hk.dir hk.window).trans (h.clear idx hidx hbit)

/-- A page of the kernel as the processor sees it: its frame holds data. -/
theorem Grounded.walk_page (hg : Grounded s threads D g L H) (hhigh : 0xc0000000 ≤ v.toNat)
    (hmem : vpage kernelDir v ∈ L) : ∃ f, s.frameAt (vpage kernelDir v) = some f ∧
      s.walk v = some f ∧ s.cr3 ≠ f ∧ s.tableOf v ≠ f := by
  have hk := List.mem_append_left H hmem
  obtain ⟨f, hf, -, htab⟩ := hg.owned.mapped _ hk
  have hne : dirIdx v ≠ 1023 := by
    have hpage := (hg.owned.page _ hk).2
    rwa [dirIdx_vpage] at hpage
  have hwalk : s.walk v = some f := by
    rw [hg.layout.walk_eq hg.active hne, vpage_kernel hhigh]
    exact hf
  refine ⟨f, hf, hwalk, fun he => ?_, fun he => htab ?_⟩
  · exact hg.owned.loose _ hmem f hf (he ▸ hg.active)
  · have hpres := (hg.layout.shared _ hg.active _ (dirIdx_high hhigh) hne).1
    exact ⟨s.cr3, hg.active, dirIdx v, hne, hpres, he⟩

/-- The words of the pages `K` read as before. -/
def Loads (s s' : Memory) (K : List VPage) : Prop :=
  ∀ a : Addr, 0xc0000000 ≤ a.toNat → vpage kernelDir a ∈ K → s'.load a = s.load a

theorem Loads.refl (s : Memory) (K : List VPage) : Loads s s K := fun _ _ _ => rfl

theorem Loads.trans {s1 s2 s3 : Memory} {K : List VPage} (h : Loads s1 s2 K) (h' : Loads s2 s3 K) :
    Loads s1 s3 K := fun a ha hk => (h' a ha hk).trans (h a ha hk)

theorem Loads.mono {K K' : List VPage} (h : Loads s s' K) (hsub : K' ⊆ K) : Loads s s' K' :=
  fun a ha hk => h a ha (hsub hk)

/-- The words of the pages `K` read as before, but for the `c` bytes from `b` on. -/
def LoadsBut (s s' : Memory) (K : List VPage) (b : Addr) (c : Nat) : Prop :=
  ∀ a : Addr, 0xc0000000 ≤ a.toNat → vpage kernelDir a ∈ K →
    a.toNat < b.toNat ∨ b.toNat + c ≤ a.toNat → s'.load a = s.load a

/-- The words of one page are written. -/
theorem Grounded.loadsBut (h : Grounded s threads D g L H) (h' : Grounded s' threads D g L H)
    (hframe : ∀ k ∈ L ++ H, s'.frameAt k = s.frameAt k) {p : BitVec 20} (hp : (kernelDir, p) ∈ L)
    {f : Frame} (hf : s.frameAt (kernelDir, p) = some f) (hother : ∀ f', f' ≠ f → s'.mem f' = s.mem f')
    {j n : Nat} (hfit : j + n ≤ 1024) {b : Addr} (hb : b.toNat = p.toNat * 4096 + j * 4)
    (hwords : ∀ w, (∀ k < n, w ≠ BitVec.ofNat 10 (j + k)) → s'.mem f w = s.mem f w) :
    LoadsBut s s' L b (n * 4) := by
  intro a ha hk hout
  obtain ⟨fa, hfa, hwalk, -⟩ := h.walk_page ha hk
  obtain ⟨fa', hfa', hwalk', -⟩ := h'.walk_page ha hk
  rw [hframe _ (List.mem_append_left H hk), hfa] at hfa'
  cases hfa'
  rw [Machine.load, Machine.load, hwalk, hwalk']
  by_cases he : fa = f
  · subst he
    have hkey := h.owned.inj _ (List.mem_append_left H hk) _ (List.mem_append_left H hp) (hfa.trans hf.symm)
    rw [vpage, ite_self] at hkey
    have hpage : (pageOf a).toNat = p.toNat := congrArg (fun k : VPage => k.2.toNat) hkey
    rw [pageOf_toNat] at hpage
    refine congrArg Except.ok (hwords _ fun k hkn hw => ?_)
    have hnat := congrArg BitVec.toNat hw
    rw [wordIdx_toNat, BitVec.toNat_ofNat] at hnat
    omega
  · exact congrArg Except.ok (congrFun (hother fa he) _)

theorem Grounded.loads (h : Grounded s threads D g L H) (h' : Grounded s' threads D g L' H)
    {K : List VPage} (hK : K ⊆ L) (hK' : K ⊆ L') (hframe : ∀ k ∈ K, s'.frameAt k = s.frameAt k)
    (hdata : ∀ k ∈ K, ∀ f, s.frameAt k = some f → s'.mem f = s.mem f) : Loads s s' K := by
  intro a ha hk
  obtain ⟨f, hf, hwalk, -⟩ := h.walk_page ha (hK hk)
  obtain ⟨f', hf', hwalk', -⟩ := h'.walk_page ha (hK' hk)
  rw [hframe _ hk, hf] at hf'
  cases hf'
  rw [Machine.load, Machine.load, hwalk, hwalk']
  exact congrArg Except.ok (congrFun (hdata _ hk f hf) _)

/-- **`mfree_page`** of a span: its pages are mapped no more, and the others are where they were. -/
theorem Grounded.mfreePage (h : Grounded s threads D g (vpages kernelDir cnt v ++ L) H)
    (hrun : s.OwnRun cnt v) (hcnt : 1 ≤ cnt) :
    ∃ s', GwOS.mfreePage s .kernel v cnt = .ok s' ∧ Grounded s' threads D g L H ∧ SameRanges s s' ∧
      PagesRemoved s s' D g L H (vpages kernelDir cnt v) := by
  obtain ⟨s', h', hr, hrem⟩ := hrun.mfreePage h.layout h.owned h.active h.vaddrs hcnt
  refine ⟨s', h', h.steady hrem.steady hrem.layout hrem.owned ?_, hr, hrem⟩
  obtain ⟨idx, hidx, rfl⟩ := hrun.place
  obtain ⟨s1, mp, hsame, hset, rfl⟩ := mfreePage_vaddr s .kernel _ cnt s' h'
  have hpos : 0 < cnt := hcnt
  have hin : idx < 8 * s.kernelVaddr.vaddrBitmap.len := by omega
  obtain ⟨hnat, -⟩ := h.vaddrs.kernelPage_toNat hin
  have hpage : pageIdx (s.kernelVaddr.vaddrStart + BitVec.ofNat 32 (idx * pgSize))
      (s.vaddrStart .kernel) = idx := by
    have hstart : s.vaddrStart .kernel = s.kernelVaddr.vaddrStart := rfl
    rw [pageIdx, hstart, BitVec.toNat_sub_of_le (BitVec.le_def.mpr (by omega)), hnat]
    unfold pgSize
    omega
  rw [hpage] at hset
  refine h.clear.removed h.layout h.vaddrs hrem fun j hj hbit => ?_
  have hbit' : mp.bit j = false := hbit
  rw [hset.2 j] at hbit'
  split at hbit'
  · next hout =>
    -- one of the pages that are given back
    obtain ⟨i, rfl⟩ := Nat.exists_eq_add_of_le hout.1
    refine .inr ?_
    have hkey : s.kernelPage (idx + i) = vpage kernelDir
        (s.kernelVaddr.vaddrStart + BitVec.ofNat 32 (idx * pgSize) + BitVec.ofNat 32 (i * pgSize)) := by
      rw [Memory.kernelPage, BitVec.add_assoc, ← BitVec.ofNat_add, ← Nat.add_mul]
    rw [hkey]
    exact vpage_mem_vpages kernelDir (by omega)
  · exact .inl hbit'

/-- What `malloc_page` has done: the pages `N` are new, and the others are where they were. -/
structure Provided (s s' : Memory) (threads : List Addr) (D : Frame → Prop) (g : VPage → Frame)
    (L H N : List VPage) : Prop where
  grounded : Grounded s' threads D g (N ++ L) H
  ranges : SameRanges s s'
  steady : Steady s s'
  frame : ∀ k ∈ L ++ H, s'.frameAt k = s.frameAt k

/-- **`malloc_page`** for the kernel, with the `memset` behind it. -/
theorem Grounded.mallocPage (h : Grounded s threads D g L H) (hcnt : 1 ≤ cnt) (hmax : cnt < 3840)
    (hlt : cnt < s.kernelVaddr.vaddrBitmap.len) :
    ∃ r s', GwOS.mallocPage s .kernel cnt = .ok (r, s') ∧
      (r = none → (∃ N, Provided s s' threads D g L H N) ∧ Loads s s' L) ∧
      ∀ v, r = some v → ∃ m, clearPages cnt v s'.toMachine = .ok m ∧
        Provided s { s' with toMachine := m } threads D g L H (vpages kernelDir cnt v) ∧
        Loads s { s' with toMachine := m } L ∧
        ({ s' with toMachine := m } : Memory).OwnRun cnt v ∧ ∀ k ∈ vpages kernelDir cnt v, ∀ f,
          ({ s' with toMachine := m } : Memory).frameAt k = some f → m.mem f = fun _ => 0 := by
  obtain ⟨r, s', hr, hans⟩ := mallocPage_kernel h.layout h.owned h.active h.vaddrs h.running h.clear
    hcnt hmax hlt
  have hgrew : ∀ N, PagesAdded s s' D g L H N → Provided s s' threads D g L H N := fun N hadd =>
    ⟨h.steady hadd.steady hadd.layout hadd.owned hans.clear, hans.ranges, hadd.steady, hadd.grew.frame⟩
  have hkeep : ∀ N, PagesAdded s s' D g L H N → Loads s s' L := fun N hadd =>
    h.loads (hgrew N hadd).grounded (List.Subset.refl L) (List.subset_append_right ..)
      (fun k hk => hadd.grew.frame k (List.mem_append_left H hk)) fun k hk f hf =>
        hadd.grew.data k (List.mem_append_left H hk) f hf (h.owned.loose k hk f hf)
  refine ⟨r, s', hr, fun hnone => ?_, fun v hv => ?_⟩
  · obtain ⟨N, hadd⟩ := hans.none hnone
    exact ⟨⟨N, hgrew N hadd⟩, hkeep N hadd⟩
  · obtain ⟨hadd, hrun⟩ := hans.some v hv
    have hprov := hgrew _ hadd
    have hloads := hkeep _ hadd
    obtain ⟨hhigh, hend, -⟩ := hrun.bounds hprov.grounded.vaddrs hcnt
    have hkey := vpages_kernel s'.cr3 cnt hhigh hend
    obtain ⟨m, hm, hcr3, -, -, -, hzero, -, hother⟩ := clearPages_ok cnt hadd.layout hadd.owned
      hprov.grounded.active fun k hk => List.mem_append_left L (hkey ▸ hk)
    rw [hkey] at hzero hother
    obtain ⟨hg', hframe⟩ := hprov.grounded.write (List.subset_append_left ..) hcr3 hother
    have hst : Steady s' { s' with toMachine := m } := ⟨hcr3, rfl, rfl, rfl, rfl, fun _ => rfl⟩
    have hsame : ∀ k ∈ (vpages kernelDir cnt v ++ L) ++ H,
        ({ s' with toMachine := m } : Memory).frameAt k = s'.frameAt k := fun k hk =>
      hframe k (hadd.owned.page k hk).1 (hadd.owned.page k hk).2
    refine ⟨m, hm, ⟨hg', hprov.ranges.trans ⟨rfl, rfl, rfl, rfl⟩, hprov.steady.trans hst, ?_⟩,
      hloads.trans ?_, ?_, ?_⟩
    · intro k hk
      rw [hsame k (by rw [List.append_assoc]; exact List.mem_append_right _ hk)]
      exact hprov.frame k hk
    · -- no frame of an old page is cleared
      have hsub : L ⊆ vpages kernelDir cnt v ++ L := List.subset_append_right ..
      refine hprov.grounded.loads hg' hsub hsub (fun k hk => hsame k (List.mem_append_left H (hsub hk)))
        fun k hk f hf => hother f fun k' hk' hf' => ?_
      have he := hadd.owned.inj k (List.mem_append_left H (hsub hk)) k'
        (List.mem_append_left H (List.mem_append_left L hk')) (hf.trans hf'.symm)
      exact (List.nodup_append'.mp (List.nodup_append'.mp hadd.owned.nodup).1).2.2 hk' (he ▸ hk)
    · exact hrun.congr ⟨rfl, rfl, rfl, rfl⟩ rfl rfl fun k hk =>
        hsame k (List.mem_append_left H (List.mem_append_left L hk))
    · intro k hk f hf
      rw [hsame k (List.mem_append_left H (List.mem_append_left L hk))] at hf
      exact hzero k hk f hf

/-- A word of a page that holds data is written. -/
theorem Grounded.storeWord (hg : Grounded s threads D g L H)
    (hhigh : 0xc0000000 ≤ v.toNat) (hal : v.toNat % 4 = 0) (hmem : vpage kernelDir v ∈ L) (w : Addr) :
    ∃ m, s.store v w = .ok m ∧ Provided s { s with toMachine := m } threads D g L H [] ∧
      LoadsBut s { s with toMachine := m } L v 4 ∧
      ({ s with toMachine := m } : Memory).load v = .ok w := by
  obtain ⟨f, hf, hwalk, -⟩ := hg.walk_page hhigh hmem
  have hkey : vpage kernelDir v = (kernelDir, pageOf v) := by rw [vpage, ite_self]
  have hstore : s.store v w = .ok (s.setWord f (wordIdx v) w) := by rw [Machine.store, hwalk]
  have hsub : [vpage kernelDir v] ⊆ L := fun k hk => List.mem_singleton.mp hk ▸ hmem
  have hother : ∀ f', f' ≠ f → (s.setWord f (wordIdx v) w).mem f' = s.mem f' := fun f' hf' =>
    funext fun _ => s.setWord_mem_ne w (.inl hf')
  obtain ⟨hg', hframe⟩ := hg.write hsub (s.setWord_cr3 f (wordIdx v) w) fun f' hf' =>
    hother f' fun he => hf' _ (List.mem_singleton.mpr rfl) (he ▸ hf)
  have hsame : ∀ k ∈ L ++ H, ({ s with toMachine := s.setWord f (wordIdx v) w } : Memory).frameAt k =
      s.frameAt k := fun k hk => hframe k (hg.owned.page k hk).1 (hg.owned.page k hk).2
  have hidx : v.toNat = (pageOf v).toNat * 4096 + v.toNat % 4096 / 4 * 4 := by
    rw [pageOf_toNat]
    omega
  rw [hkey] at hmem hf
  refine ⟨_, hstore, ⟨hg', ⟨rfl, rfl, rfl, rfl⟩, ⟨rfl, rfl, rfl, rfl, rfl, fun _ => rfl⟩, hsame⟩, ?_, ?_⟩
  · refine hg.loadsBut hg' hsame hmem hf hother (n := 1) (by omega) hidx fun i hi => ?_
    refine s.setWord_mem_ne w (.inr fun he => hi 0 Nat.one_pos (BitVec.eq_of_toNat_eq ?_))
    rw [he, wordIdx_toNat, BitVec.toNat_ofNat]
    omega
  · rw [← hkey] at hmem
    obtain ⟨f', hf', hwalk', -⟩ := hg'.walk_page hhigh hmem
    rw [hsame _ (List.mem_append_left H hmem), hkey, hf] at hf'
    cases hf'
    rw [Machine.load, hwalk']
    exact congrArg Except.ok (s.setWord_mem_self f (wordIdx v) w)

end Grounded

/-! ## Spans -/

/-- What one `malloc_page` of the heap has returned: the arena of a block size, or the pages of one
large block. -/
structure Span where
  page : BitVec 20
  cnt : Nat
  desc : Option (Fin descCnt)
  deriving DecidableEq

namespace Span

def vaddr (x : Span) : Addr := addrOf x.page 0

def pages (x : Span) : List VPage := vpages kernelDir x.cnt x.vaddr

/-- `a + 1`, the first address behind the header. -/
def block (x : Span) : Addr := x.vaddr + BitVec.ofNat 32 arenaSize

end Span

/-- The pages with blocks of one size. -/
def arenasOf (spans : List Span) (i : Fin descCnt) : Set (BitVec 20) := {p | ⟨p, 1, some i⟩ ∈ spans}

/-- The pages of all spans. -/
def spanPages (spans : List Span) : List VPage := spans.flatMap Span.pages

/-- The header of a span: an arena counts its free blocks, a large block its pages. -/
def HeaderOk (h : Heap) (x : Span) : Prop :=
  match x.desc with
  | some i => x.cnt = 1 ∧ h.arena (kernelDir, x.page) =
      ⟨some i, BitVec.ofNat 32 ((heapSlab i).freeOf (h.kernelBlockDescs i) x.page), false⟩
  | none => h.arena (kernelDir, x.page) = ⟨none, BitVec.ofNat 32 x.cnt, true⟩

/-- A block that has been returned and not freed, with the number of its bytes. -/
inductive LiveBlock (h : Heap) (spans : List Span) : Addr → Nat → Prop
  | small (i : Fin descCnt) (b : Addr)
      (hb : (heapSlab i).Live (arenasOf spans i) (h.kernelBlockDescs i) b) :
      LiveBlock h spans b (blockSize i)
  | large (x : Span) (hx : x ∈ spans) (hd : x.desc = none) :
      LiveBlock h spans x.block (x.cnt * pgSize - arenaSize)

/-- The spans, the headers, the free lists and the live blocks fit. -/
structure HeapOk (s : Memory) (h : Heap) (spans : List Span) (live : Addr → Option (BitVec 32)) :
    Prop where
  own : ∀ x ∈ spans, 1 ≤ x.cnt ∧ s.OwnRun x.cnt x.vaddr
  holds : ∀ i, (heapSlab i).Holds (arenasOf spans i) (h.kernelBlockDescs i)
  header : ∀ x ∈ spans, HeaderOk h x
  fits : ∀ b size, live b = some size → ∃ c, LiveBlock h spans b c ∧ size.toNat ≤ c
  all : ∀ b c, LiveBlock h spans b c → live b ≠ none

/-- An arena has a live block, and so its free blocks are fewer than its blocks. -/
def Busy (h : Heap) (x : Span) : Prop :=
  ∀ i, x.desc = some i → (heapSlab i).freeOf (h.kernelBlockDescs i) x.page < blocksPerArena i

section Spans

variable {s s' : Memory} {h h' : Heap} {spans : List Span} {threads : List Addr}
  {D : Frame → Prop} {g : VPage → Frame} {L H : List VPage} {live : Addr → Option (BitVec 32)}
  {x y : Span} {b b' a : Addr} {c c' cnt : Nat} {i : Fin descCnt} {p q : BitVec 20} {l : List Addr}

@[simp] theorem Span.pageOf_vaddr (x : Span) : pageOf x.vaddr = x.page := pageOf_addrOf x.page 0

theorem Span.vaddr_toNat (x : Span) : x.vaddr.toNat = x.page.toNat * 4096 := pageStart_toNat x.page

theorem Span.vpage_vaddr (x : Span) : vpage kernelDir x.vaddr = (kernelDir, x.page) := by
  rw [vpage, ite_self, x.pageOf_vaddr]

/-- A span ends below the window. -/
theorem Span.end_le (hva : VaddrsOk s (· ∈ threads)) (hrun : s.OwnRun x.cnt x.vaddr)
    (hcnt : 1 ≤ x.cnt) : 0xc0000000 ≤ x.vaddr.toNat ∧ x.page.toNat * 4096 + x.cnt * 4096 ≤ 0xffc00000 := by
  obtain ⟨hhigh, hend, -⟩ := hrun.bounds hva hcnt
  rw [x.vaddr_toNat] at hend
  exact ⟨hhigh, hend⟩

/-- The numbers of the pages of a span. -/
theorem Span.mem_pages (hend : x.page.toNat * 4096 + x.cnt * 4096 ≤ 0xffc00000) :
    (kernelDir, q) ∈ x.pages ↔ x.page.toNat ≤ q.toNat ∧ q.toNat < x.page.toNat + x.cnt := by
  have hnat : ∀ j < x.cnt, (pageOf (x.vaddr + BitVec.ofNat 32 (j * pgSize))).toNat = x.page.toNat + j := by
    intro j hj
    have hv := x.vaddr_toNat
    rw [pageOf_toNat, nextPage_toNat (by unfold pgSize; omega), hv]
    unfold pgSize
    omega
  constructor
  · intro hmem
    obtain ⟨j, hj, he⟩ := mem_vpages hmem
    have hq : q = pageOf (x.vaddr + BitVec.ofNat 32 (j * pgSize)) := congrArg Prod.snd he
    rw [hq, hnat j hj]
    omega
  · rintro ⟨hle, hlt⟩
    obtain ⟨j, hj⟩ := Nat.exists_eq_add_of_le hle
    have hq : q = pageOf (x.vaddr + BitVec.ofNat 32 (j * pgSize)) :=
      BitVec.eq_of_toNat_eq (by rw [hnat j (by omega), hj])
    have hmem := vpage_mem_vpages (v := x.vaddr) kernelDir (show j < x.cnt by omega)
    rwa [vpage, ite_self, ← hq] at hmem

/-- Different spans have no page in common. -/
theorem span_unique (hnd : (spanPages spans).Nodup) {k : VPage} (hx : x ∈ spans) (hy : y ∈ spans)
    (hkx : k ∈ x.pages) (hky : k ∈ y.pages) : x = y := by
  obtain ⟨-, hpair⟩ := List.nodup_flatMap.mp hnd
  have hsymm : Std.Symm (Function.onFun List.Disjoint Span.pages) := ⟨fun _ _ hd => hd.symm⟩
  by_contra hne
  exact hpair.forall hx hy hne hkx hky

/-- Where a live block lies in its span: it is the large block, or one of the small ones. -/
def PlacedIn (x : Span) (b : Addr) (c : Nat) : Prop :=
  match x.desc with
  | none => b.toNat = x.page.toNat * 4096 + arenaSize ∧ c = x.cnt * pgSize - arenaSize
  | some i => c = blockSize i ∧ ∃ j < blocksPerArena i,
      b.toNat = x.page.toNat * 4096 + (arenaSize + j * blockSize i)

theorem Span.block_toNat (x : Span) : x.block.toNat = x.page.toNat * 4096 + arenaSize := by
  have hp := x.page.isLt
  have hv := x.vaddr_toNat
  have hsize : (BitVec.ofNat 32 arenaSize).toNat = 12 := rfl
  rw [Span.block, BitVec.toNat_add, hsize, hv]
  unfold arenaSize
  omega

@[simp] theorem Span.pageOf_block (x : Span) : pageOf x.block = x.page := by
  apply BitVec.eq_of_toNat_eq
  rw [pageOf_toNat, x.block_toNat]
  unfold arenaSize
  omega

/-- The span that a live block lies in, behind the header. -/
theorem LiveBlock.span (hb : LiveBlock h spans b c) (hva : VaddrsOk s (· ∈ threads))
    (hown : ∀ x ∈ spans, 1 ≤ x.cnt ∧ s.OwnRun x.cnt x.vaddr) : ∃ x ∈ spans, x.page = pageOf b ∧
      PlacedIn x b c ∧ x.page.toNat * 4096 + arenaSize ≤ b.toNat ∧
      b.toNat + c ≤ x.page.toNat * 4096 + x.cnt * 4096 := by
  cases hb with
  | small i b hb =>
    obtain ⟨j, hj, hjb⟩ := mem_blocks.mp hb.block
    have hpage : (heapSlab i).owner b = pageOf b := rfl
    have hnat := arena2block_toNat (p := pageOf b) hj
    rw [hpage] at hjb
    rw [hjb] at hnat
    have hfit := block_fits hj
    unfold pgSize at hfit
    refine ⟨⟨pageOf b, 1, some i⟩, hb.arena, rfl, ⟨rfl, j, hj, hnat⟩, ?_⟩
    dsimp only
    omega
  | large x hx hd =>
    obtain ⟨hcnt, hrun⟩ := hown x hx
    obtain ⟨-, hend⟩ := Span.end_le hva hrun hcnt
    have hnat := x.block_toNat
    refine ⟨x, hx, x.pageOf_block.symm, ?_, ?_⟩
    · rw [PlacedIn, hd]
      exact ⟨hnat, rfl⟩
    · rw [hnat]
      unfold arenaSize pgSize
      omega

theorem LiveBlock.aligned (hb : LiveBlock h spans b c) (hva : VaddrsOk s (· ∈ threads))
    (hown : ∀ x ∈ spans, 1 ≤ x.cnt ∧ s.OwnRun x.cnt x.vaddr) : b.toNat % 4 = 0 := by
  obtain ⟨x, -, -, hplace, -⟩ := hb.span hva hown
  have harena : arenaSize = 12 := rfl
  unfold PlacedIn at hplace
  split at hplace
  · omega
  · next i _ =>
    obtain ⟨-, j, -, hnat⟩ := hplace
    obtain ⟨n, hn⟩ := blockSize_dvd i
    have hmul : j * blockSize i = 4 * (j * n) := by rw [hn, Nat.mul_left_comm]
    omega

/-- **Live blocks do not overlap.** -/
theorem LiveBlock.disjoint (hb : LiveBlock h spans b c) (hb' : LiveBlock h spans b' c')
    (hva : VaddrsOk s (· ∈ threads)) (hown : ∀ x ∈ spans, 1 ≤ x.cnt ∧ s.OwnRun x.cnt x.vaddr)
    (hnd : (spanPages spans).Nodup) (hne : b ≠ b') :
    b.toNat + c ≤ b'.toNat ∨ b'.toNat + c' ≤ b.toNat := by
  obtain ⟨x, hx, -, hplace, hlo, hhi⟩ := hb.span hva hown
  obtain ⟨y, hy, -, hplace', hlo', hhi'⟩ := hb'.span hva hown
  by_cases hxy : x = y
  · subst hxy
    have hnat : b.toNat ≠ b'.toNat := fun he => hne (BitVec.eq_of_toNat_eq he)
    unfold PlacedIn at hplace hplace'
    split at hplace
    · next hd =>
      simp only [hd] at hplace'
      omega
    · next i hd =>
      simp only [hd] at hplace'
      obtain ⟨rfl, j, -, hj⟩ := hplace
      obtain ⟨rfl, j', -, hj'⟩ := hplace'
      -- the one with the smaller index ends before the other
      rcases Nat.lt_trichotomy j j' with hlt | rfl | hlt
      · have hmul := Nat.mul_le_mul_right (blockSize i) (Nat.succ_le_of_lt hlt)
        rw [Nat.succ_mul] at hmul
        omega
      · omega
      · have hmul := Nat.mul_le_mul_right (blockSize i) (Nat.succ_le_of_lt hlt)
        rw [Nat.succ_mul] at hmul
        omega
  · obtain ⟨-, hend⟩ := Span.end_le hva (hown x hx).2 (hown x hx).1
    obtain ⟨-, hend'⟩ := Span.end_le hva (hown y hy).2 (hown y hy).1
    by_contra hover
    have hcase : (x.page.toNat ≤ y.page.toNat ∧ y.page.toNat < x.page.toNat + x.cnt) ∨
        (y.page.toNat ≤ x.page.toNat ∧ x.page.toNat < y.page.toNat + y.cnt) := by
      omega
    have hx1 := (hown x hx).1
    have hy1 := (hown y hy).1
    rcases hcase with hc | hc
    · refine hxy (span_unique hnd hx hy (Span.mem_pages (q := y.page) hend |>.mpr hc) ?_)
      exact (Span.mem_pages hend').mpr (by omega)
    · refine hxy (span_unique hnd hx hy ?_ (Span.mem_pages (q := x.page) hend' |>.mpr hc))
      exact (Span.mem_pages hend).mpr (by omega)

theorem Span.first_mem (hcnt : 1 ≤ x.cnt) : (kernelDir, x.page) ∈ x.pages := by
  obtain ⟨n, hn⟩ := Nat.exists_eq_add_of_le' hcnt
  rw [Span.pages, hn, vpages, x.vpage_vaddr]
  exact List.mem_cons_self ..

/-- A span is known by its first page. -/
theorem HeapOk.span_eq (hok : HeapOk s h spans live) (hnd : (spanPages spans).Nodup) (hx : x ∈ spans)
    (hy : y ∈ spans) (he : x.page = y.page) : x = y :=
  span_unique hnd hx hy (Span.first_mem (hok.own x hx).1) (he ▸ Span.first_mem (hok.own y hy).1)

/-! ## One list changes -/

/-- The heap after the list of one block size and the header of one page have changed. -/
def Heap.relist (h : Heap) (i : Fin descCnt) (l : List Addr) (p : BitVec 20) (r : Arena) : Heap :=
  { h with
    kernelBlockDescs := Function.update h.kernelBlockDescs i l
    arena := Function.update h.arena (kernelDir, p) r }

@[simp] theorem Heap.relist_self (h : Heap) (i : Fin descCnt) (l : List Addr) (p : BitVec 20)
    (r : Arena) : (h.relist i l p r).kernelBlockDescs i = l := Function.update_self ..

theorem Heap.relist_ne {j : Fin descCnt} (hj : j ≠ i) (r : Arena) :
    (h.relist i l p r).kernelBlockDescs j = h.kernelBlockDescs j := Function.update_of_ne hj ..

@[simp] theorem Heap.relist_arena (h : Heap) (i : Fin descCnt) (l : List Addr) (p : BitVec 20)
    (r : Arena) : (h.relist i l p r).arena (kernelDir, p) = r := Function.update_self ..

theorem Heap.relist_arena_ne (hq : q ≠ p) (r : Arena) :
    (h.relist i l p r).arena (kernelDir, q) = h.arena (kernelDir, q) :=
  Function.update_of_ne (fun hk => hq (congrArg Prod.snd hk)) ..

/-- The header of another page is written. -/
theorem HeaderOk.congr (hold : HeaderOk h x) (harena : h'.arena (kernelDir, x.page) =
      h.arena (kernelDir, x.page)) (hcount : ∀ i, x.desc = some i →
      (heapSlab i).freeOf (h'.kernelBlockDescs i) x.page =
        (heapSlab i).freeOf (h.kernelBlockDescs i) x.page) : HeaderOk h' x := by
  unfold HeaderOk at hold ⊢
  rw [harena]
  split
  · next i hd =>
    simp only [hd] at hold
    rw [hcount i hd]
    exact hold
  · next hd =>
    simpa only [hd] using hold

/-- The headers after the free blocks of one arena have changed. -/
theorem HeapOk.relist_header (hok : HeapOk s h spans live) (hnd : (spanPages spans).Nodup)
    (hp : ⟨p, 1, some i⟩ ∈ spans)
    (hother : ∀ q, q ≠ p → (heapSlab i).freeOf l q = (heapSlab i).freeOf (h.kernelBlockDescs i) q) :
    ∀ x ∈ spans, HeaderOk (h.relist i l p
      ⟨some i, BitVec.ofNat 32 ((heapSlab i).freeOf l p), false⟩) x := by
  intro x hx
  by_cases he : x.page = p
  · have hxp : x = ⟨p, 1, some i⟩ := hok.span_eq hnd hx hp he
    subst hxp
    refine ⟨rfl, ?_⟩
    dsimp only
    rw [Heap.relist_arena, Heap.relist_self]
  · refine (hok.header x hx).congr (Heap.relist_arena_ne he _) fun j _ => ?_
    by_cases hj : j = i
    · subst hj
      rw [Heap.relist_self, hother x.page he]
    · rw [Heap.relist_ne hj]

/-- A block that is taken off the list is live. -/
theorem LiveBlock.relist_take (hl : ∀ b, (heapSlab i).Live (arenasOf spans i) l b ↔
      (heapSlab i).Live (arenasOf spans i) (h.kernelBlockDescs i) b ∨ b = a) (r : Arena) :
    LiveBlock (h.relist i l p r) spans b c ↔ LiveBlock h spans b c ∨ (b = a ∧ c = blockSize i) := by
  constructor
  · intro hb
    cases hb with
    | small j b hb =>
      by_cases hj : j = i
      · subst hj
        rw [Heap.relist_self] at hb
        rcases (hl b).mp hb with hold | rfl
        · exact .inl (.small j b hold)
        · exact .inr ⟨rfl, rfl⟩
      · rw [Heap.relist_ne hj] at hb
        exact .inl (.small j b hb)
    | large x hx hd => exact .inl (.large x hx hd)
  · rintro (hb | ⟨rfl, rfl⟩)
    · cases hb with
      | small j b hb =>
        refine .small j b ?_
        by_cases hj : j = i
        · subst hj
          rw [Heap.relist_self]
          exact (hl b).mpr (.inl hb)
        · rw [Heap.relist_ne hj]
          exact hb
      | large x hx hd => exact .large x hx hd
    · refine .small i b ?_
      rw [Heap.relist_self]
      exact (hl b).mpr (.inr rfl)

/-- The block `a` of an arena is no live block in another way. -/
theorem HeapOk.small_only (hok : HeapOk s h spans live) (hnd : (spanPages spans).Nodup)
    (ha : ⟨pageOf a, 1, some i⟩ ∈ spans) (hb : LiveBlock h' spans a c) :
    (heapSlab i).Live (arenasOf spans i) (h'.kernelBlockDescs i) a := by
  cases hb with
  | small j b hb =>
    have hj : (⟨pageOf a, 1, some j⟩ : Span) = ⟨pageOf a, 1, some i⟩ :=
      hok.span_eq hnd hb.arena ha rfl
    cases hj
    exact hb
  | large x hx hd =>
    have hxa := hok.span_eq hnd hx ha x.pageOf_block.symm
    rw [hxa] at hd
    cases hd

/-- A block that is put back is live no more. -/
theorem HeapOk.relist_put (hok : HeapOk s h spans live) (hnd : (spanPages spans).Nodup)
    (hl : ∀ b, (heapSlab i).Live (arenasOf spans i) l b ↔
      (heapSlab i).Live (arenasOf spans i) (h.kernelBlockDescs i) b ∧ b ≠ a)
    (ha : ⟨pageOf a, 1, some i⟩ ∈ spans) (r : Arena) :
    LiveBlock (h.relist i l p r) spans b c ↔ LiveBlock h spans b c ∧ b ≠ a := by
  constructor
  · intro hb
    have hne : b ≠ a := by
      rintro rfl
      have hlive := hok.small_only hnd ha hb
      rw [Heap.relist_self] at hlive
      exact ((hl b).mp hlive).2 rfl
    refine ⟨?_, hne⟩
    cases hb with
    | small j b hb =>
      refine .small j b ?_
      by_cases hj : j = i
      · subst hj
        rw [Heap.relist_self] at hb
        exact ((hl b).mp hb).1
      · rwa [Heap.relist_ne hj] at hb
    | large x hx hd => exact .large x hx hd
  · rintro ⟨hb, hne⟩
    cases hb with
    | small j b hb =>
      refine .small j b ?_
      by_cases hj : j = i
      · subst hj
        rw [Heap.relist_self]
        exact (hl b).mpr ⟨hb, hne⟩
      · rw [Heap.relist_ne hj]
        exact hb
    | large x hx hd => exact .large x hx hd

/-! ## `sys_malloc` -/

/-- The bytes of a block are zero. -/
def Zeroed (s : Memory) (b : Addr) (size : BitVec 32) : Prop :=
  ∀ k, k * 4 < size.toNat → s.load (b + BitVec.ofNat 32 (k * 4)) = .ok 0

/-- A block as the words of its page. -/
theorem arena2block_words (a : Addr) (i : Fin descCnt) (j : Nat) :
    arena2block a i j = a + BitVec.ofNat 32 ((3 + j * (blockSize i / 4)) * 4) := by
  have hsize := (Nat.div_mul_cancel (blockSize_dvd i)).symm
  have hwords : (3 + j * (blockSize i / 4)) * 4 = arenaSize + j * blockSize i := by
    have hmul : j * blockSize i = j * (blockSize i / 4) * 4 := by
      rw [Nat.mul_assoc, ← hsize]
    unfold arenaSize
    omega
  rw [arena2block, hwords, BitVec.ofNat_add, BitVec.add_assoc]

theorem mem_spanPages (hx : x ∈ spans) : x.pages ⊆ spanPages spans := fun _ hk =>
  List.mem_flatMap.mpr ⟨x, hx, hk⟩

/-- `memset` of a block. -/
theorem Grounded.clearBlock (hg : Grounded s threads D g L H) (hmem : (kernelDir, p) ∈ L)
    (hhigh : 0xc0000000 ≤ (addrOf p 0).toNat) {j : Nat} (hj : j < blocksPerArena i) :
    ∃ m, clearWords (blockSize i / 4) (arena2block (addrOf p 0) i j) s.toMachine = .ok m ∧
      Grounded { s with toMachine := m } threads D g L H ∧
      (∀ k ∈ L ++ H, ({ s with toMachine := m } : Memory).frameAt k = s.frameAt k) ∧ m.cr3 = s.cr3 ∧
      LoadsBut s { s with toMachine := m } L (arena2block (addrOf p 0) i j) (blockSize i) ∧
      ∀ size : BitVec 32, size.toNat ≤ blockSize i →
        Zeroed { s with toMachine := m } (arena2block (addrOf p 0) i j) size := by
  have hkey : vpage kernelDir (addrOf p 0) = (kernelDir, p) := by
    rw [vpage, ite_self, pageOf_addrOf]
  have hal : (addrOf p 0).toNat % pgSize = 0 := by
    rw [pageStart_toNat]
    exact Nat.mul_mod_left ..
  have hfit := block_fits hj
  have hdvd := blockSize_dvd i
  have hmul : j * blockSize i = j * (blockSize i / 4) * 4 := by
    rw [Nat.mul_assoc, Nat.div_mul_cancel hdvd]
  have hwords : 3 + j * (blockSize i / 4) + blockSize i / 4 ≤ 1024 := by
    unfold arenaSize pgSize at hfit
    omega
  have hnat := arena2block_toNat (p := p) hj
  have harena : arenaSize = 12 := rfl
  obtain ⟨f, hf, hwalk, hcr, htab⟩ := hg.walk_page hhigh (hkey.symm ▸ hmem)
  rw [hkey] at hf
  rw [arena2block_words] at hnat ⊢
  obtain ⟨m, hm, hcr3, hother, hstay, hzero⟩ := clearWords_ok hal hwalk hcr htab hwords
  have hsub : [((kernelDir, p) : VPage)] ⊆ L := fun k hk => List.mem_singleton.mp hk ▸ hmem
  obtain ⟨hg', hframe⟩ := hg.write hsub hcr3 fun f' hf' =>
    hother f' fun he => hf' _ (List.mem_singleton.mpr rfl) (he ▸ hf)
  have hsame : ∀ k ∈ L ++ H, ({ s with toMachine := m } : Memory).frameAt k = s.frameAt k :=
    fun k hk => hframe k (hg.owned.page k hk).1 (hg.owned.page k hk).2
  have hbut : LoadsBut s { s with toMachine := m } L _ (blockSize i / 4 * 4) :=
    hg.loadsBut hg' hsame hmem hf hother hwords (by rw [hnat, harena]; omega) hstay
  rw [Nat.div_mul_cancel hdvd] at hbut
  refine ⟨m, hm, hg', hsame, hcr3, hbut, fun size hsize k hk => ?_⟩
  obtain ⟨f', hf', hwalk', -⟩ := hg'.walk_page hhigh (hkey.symm ▸ hmem)
  rw [hkey, hsame _ (List.mem_append_left H hmem), hf] at hf'
  cases hf'
  have hlt : k < blockSize i / 4 := by omega
  have haddr : addrOf p 0 + BitVec.ofNat 32 ((3 + j * (blockSize i / 4)) * 4) + BitVec.ofNat 32 (k * 4) =
      addrOf p 0 + BitVec.ofNat 32 ((3 + j * (blockSize i / 4) + k) * 4) := by
    rw [BitVec.add_assoc, ← BitVec.ofNat_add, ← Nat.add_mul]
  rw [haddr, load_word hal hwalk' (by omega)]
  exact congrArg _ (hzero k hlt)

/-- A free block is not live. -/
theorem HeapOk.free_not_live (hok : HeapOk s h spans live) (hnd : (spanPages spans).Nodup)
    (hb : b ∈ h.kernelBlockDescs i) : live b = none := by
  cases hlive : live b with
  | none => rfl
  | some size =>
    obtain ⟨c, hblock, -⟩ := hok.fits b size hlive
    exact absurd hb (hok.small_only hnd ((hok.holds i).arena b hb) hblock).taken

/-- The spans are where they were. -/
theorem HeapOk.frames (hown : ∀ x ∈ spans, 1 ≤ x.cnt ∧ s.OwnRun x.cnt x.vaddr)
    (hr : SameRanges s s') (hst : Steady s s')
    (hframe : ∀ k ∈ spanPages spans, s'.frameAt k = s.frameAt k) :
    ∀ x ∈ spans, 1 ≤ x.cnt ∧ s'.OwnRun x.cnt x.vaddr := fun x hx =>
  ⟨(hown x hx).1, (hown x hx).2.congr hr hst.start hst.len fun k hk => hframe k (mem_spanPages hx hk)⟩

theorem Grounded.spans_nodup (hg : Grounded s threads D g (spanPages spans ++ L) H) :
    (spanPages spans).Nodup :=
  (List.nodup_append'.mp (List.nodup_append'.mp hg.owned.nodup).1).1

/-- The header of the arena that a block lies in. -/
theorem HeapOk.arena_eq (hok : HeapOk s h spans live) (hb : ⟨pageOf b, 1, some i⟩ ∈ spans)
    (hva : VaddrsOk s (· ∈ threads)) (d : Frame) :
    0xc0000000 ≤ (addrOf (pageOf b) 0).toNat ∧ vpage d (block2arena b) = (kernelDir, pageOf b) ∧
      h.arena (kernelDir, pageOf b) =
        ⟨some i, BitVec.ofNat 32 ((heapSlab i).freeOf (h.kernelBlockDescs i) (pageOf b)), false⟩ := by
  obtain ⟨hcnt, hrun⟩ := hok.own _ hb
  obtain ⟨hhigh, -⟩ := Span.end_le hva hrun hcnt
  have hstart : 0xc0000000 ≤ (addrOf (pageOf b) 0).toNat := hhigh
  refine ⟨hstart, ?_, (hok.header _ hb).2⟩
  rw [block2arena_eq, vpage_kernel hstart, vpage, ite_self, pageOf_addrOf]

/-- The words of the live blocks read as before. -/
def SameBlocks (s s' : Memory) (live : Addr → Option (BitVec 32)) : Prop :=
  ∀ b size, live b = some size → ∀ k, k * 4 < size.toNat →
    s'.load (b + BitVec.ofNat 32 (k * 4)) = s.load (b + BitVec.ofNat 32 (k * 4))

/-- A word of a live block lies in the pages of its span. -/
theorem LiveBlock.byte_mem (hb : LiveBlock h spans b c) (hva : VaddrsOk s (· ∈ threads))
    (hown : ∀ x ∈ spans, 1 ≤ x.cnt ∧ s.OwnRun x.cnt x.vaddr) : ∃ x ∈ spans, x.page = pageOf b ∧
      ∀ j < c, (b + BitVec.ofNat 32 j).toNat = b.toNat + j ∧
        0xc0000000 ≤ (b + BitVec.ofNat 32 j).toNat ∧
        vpage kernelDir (b + BitVec.ofNat 32 j) ∈ x.pages := by
  obtain ⟨x, hx, hpage, -, hlo, hhi⟩ := hb.span hva hown
  obtain ⟨hhigh, hend⟩ := Span.end_le hva (hown x hx).2 (hown x hx).1
  rw [x.vaddr_toNat] at hhigh
  refine ⟨x, hx, hpage, fun j hj => ?_⟩
  have hnat : (b + BitVec.ofNat 32 j).toNat = b.toNat + j := by
    rw [BitVec.toNat_add, BitVec.toNat_ofNat]
    omega
  unfold arenaSize at hlo
  refine ⟨hnat, by omega, ?_⟩
  rw [vpage, ite_self]
  refine (Span.mem_pages hend).mpr ?_
  rw [pageOf_toNat, hnat]
  omega

theorem HeapOk.moved (hok : HeapOk s h spans live)
    (hown : ∀ x ∈ spans, 1 ≤ x.cnt ∧ s'.OwnRun x.cnt x.vaddr) : HeapOk s' h spans live :=
  ⟨hown, hok.holds, hok.header, hok.fits, hok.all⟩

theorem HeapOk.same_blocks {s1 : Memory} (hok : HeapOk s h spans live) (hva : VaddrsOk s (· ∈ threads))
    (hloads : Loads s1 s' (spanPages spans)) : SameBlocks s1 s' live := by
  intro b size hb k hk
  obtain ⟨c, hc, hle⟩ := hok.fits b size hb
  obtain ⟨x, hx, -, hbytes⟩ := hc.byte_mem hva hok.own
  obtain ⟨-, hhigh, hmem⟩ := hbytes (k * 4) (by omega)
  exact hloads _ hhigh (mem_spanPages hx hmem)

/-- The other live blocks read as before when one of them is written. -/
theorem HeapOk.same_blocks_but (hok : HeapOk s h spans live) (hva : VaddrsOk s (· ∈ threads))
    (hnd : (spanPages spans).Nodup) {s1 : Memory} (hb : LiveBlock h spans b c)
    (hbut : LoadsBut s1 s' (spanPages spans ++ L) b c) :
    SameBlocks s1 s' (Function.update live b none) := by
  intro b' size hb' k hk
  have hne : b' ≠ b := by
    rintro rfl
    rw [Function.update_self] at hb'
    cases hb'
  rw [Function.update_of_ne hne] at hb'
  obtain ⟨c', hc', hle⟩ := hok.fits b' size hb'
  obtain ⟨x, hx, -, hbytes⟩ := hc'.byte_mem hva hok.own
  obtain ⟨hnat, hhigh, hmem⟩ := hbytes (k * 4) (by omega)
  have hdisj := hc'.disjoint hb hva hok.own hnd hne
  exact hbut _ hhigh (List.mem_append_left L (mem_spanPages hx hmem)) (by omega)

/-- The pages of others read as before when a live block is written. -/
theorem Grounded.rest (hg : Grounded s threads D g (spanPages spans ++ L) H)
    (hown : ∀ x ∈ spans, 1 ≤ x.cnt ∧ s.OwnRun x.cnt x.vaddr) {s1 : Memory} (hb : LiveBlock h spans b c)
    (hbut : LoadsBut s1 s' (spanPages spans ++ L) b c) : Loads s1 s' L := by
  intro a ha hk
  refine hbut a ha (List.mem_append_right _ hk) ?_
  by_contra hin
  obtain ⟨x, hx, -, -, hlo, hhi⟩ := hb.span hg.vaddrs hown
  obtain ⟨-, hend⟩ := Span.end_le hg.vaddrs (hown x hx).2 (hown x hx).1
  have hmem : vpage kernelDir a ∈ x.pages := by
    rw [vpage, ite_self]
    refine (Span.mem_pages hend).mpr ?_
    rw [pageOf_toNat]
    omega
  exact (List.nodup_append'.mp (List.nodup_append'.mp hg.owned.nodup).1).2.2 (mem_spanPages hx hmem) hk

/-- One more block is live. -/
theorem HeapOk.live_add (hok : HeapOk s h spans live) {spans' : List Span} {cap : Nat}
    {size : BitVec 32} (hsize : size.toNat ≤ cap)
    (hiff : ∀ b c, LiveBlock h' spans' b c ↔ LiveBlock h spans b c ∨ (b = a ∧ c = cap)) :
    (∀ b n, Function.update live a (some size) b = some n →
        ∃ c, LiveBlock h' spans' b c ∧ n.toNat ≤ c) ∧
      ∀ b c, LiveBlock h' spans' b c → Function.update live a (some size) b ≠ none := by
  constructor
  · intro b n hb
    by_cases he : b = a
    · subst he
      rw [Function.update_self] at hb
      cases hb
      exact ⟨cap, (hiff _ _).mpr (.inr ⟨rfl, rfl⟩), hsize⟩
    · rw [Function.update_of_ne he] at hb
      obtain ⟨c, hc, hle⟩ := hok.fits b n hb
      exact ⟨c, (hiff _ _).mpr (.inl hc), hle⟩
  · intro b c hb
    by_cases he : b = a
    · subst he
      rw [Function.update_self]
      exact Option.some_ne_none size
    · rw [Function.update_of_ne he]
      exact hok.all b c (((hiff b c).mp hb).resolve_right fun h => he h.1)

/-- One block is live no more. -/
theorem HeapOk.live_remove (hok : HeapOk s h spans live) {spans' : List Span}
    (hiff : ∀ b c, LiveBlock h' spans' b c ↔ LiveBlock h spans b c ∧ b ≠ a) :
    (∀ b n, Function.update live a none b = some n → ∃ c, LiveBlock h' spans' b c ∧ n.toNat ≤ c) ∧
      ∀ b c, LiveBlock h' spans' b c → Function.update live a none b ≠ none := by
  constructor
  · intro b n hb
    by_cases he : b = a
    · subst he
      rw [Function.update_self] at hb
      cases hb
    · rw [Function.update_of_ne he] at hb
      obtain ⟨c, hc, hle⟩ := hok.fits b n hb
      exact ⟨c, (hiff b c).mpr ⟨hc, he⟩, hle⟩
  · intro b c hb
    obtain ⟨hold, hne⟩ := (hiff b c).mp hb
    rw [Function.update_of_ne hne]
    exact hok.all b c hold

/-- **The first free block is taken.** -/
theorem HeapOk.takeBlock (hok : HeapOk s h spans live)
    (hg : Grounded s threads D g (spanPages spans ++ L) H) (hlist : h.kernelBlockDescs i = b :: l)
    (hbusy : ∀ x ∈ spans, x.page ≠ pageOf b → Busy h x) {size : BitVec 32}
    (hsize : size.toNat ≤ blockSize i) :
    ∃ m h', GwOS.takeBlock s h .kernel i = .ok (some b, { s with toMachine := m }, h') ∧
      Provided s { s with toMachine := m } threads D g (spanPages spans ++ L) H [] ∧
      HeapOk { s with toMachine := m } h' spans (Function.update live b (some size)) ∧
      (∀ x ∈ spans, Busy h' x) ∧ live b = none ∧ Zeroed { s with toMachine := m } b size ∧
      SameBlocks s { s with toMachine := m } live ∧ Loads s { s with toMachine := m } L := by
  have hnd := hg.spans_nodup
  have hholds := hok.holds i
  have hnone := hok.free_not_live hnd (hlist ▸ List.mem_cons_self (a := b) (l := l))
  rw [hlist] at hholds
  have harena : ⟨pageOf b, 1, some i⟩ ∈ spans := hholds.arena b (List.mem_cons_self ..)
  have howner : (heapSlab i).owner b = pageOf b := rfl
  obtain ⟨hhigh, hkey, hheader⟩ := hok.arena_eq harena hg.vaddrs s.cr3
  obtain ⟨j, hj, hjb⟩ := mem_blocks.mp (hholds.block b (List.mem_cons_self ..))
  rw [howner] at hjb
  have hfirst : (kernelDir, pageOf b) ∈ spanPages spans ++ L :=
    List.mem_append_left L (mem_spanPages harena ((Span.mem_pages (x := ⟨pageOf b, 1, some i⟩)
      (Span.end_le hg.vaddrs (hok.own _ harena).2 (hok.own _ harena).1).2).mpr (by dsimp only; omega)))
  obtain ⟨m, hm, hg', hframe, hcr3, hbut, hzero⟩ := hg.clearBlock hfirst hhigh hj
  rw [hjb] at hm hzero hbut
  -- the counter of the arena
  have hcount : (heapSlab i).freeOf (h.kernelBlockDescs i) (pageOf b) =
      (heapSlab i).freeOf l (pageOf b) + 1 := by
    rw [hlist, Slab.freeOf_cons, if_pos howner]
  have hsub : BitVec.ofNat 32 ((heapSlab i).freeOf l (pageOf b) + 1) - 1 =
      BitVec.ofNat 32 ((heapSlab i).freeOf l (pageOf b)) := by
    rw [BitVec.ofNat_add]
    exact BitVec.add_sub_cancel ..
  have hlive : ∀ c, (heapSlab i).Live (arenasOf spans i) l c ↔
      (heapSlab i).Live (arenasOf spans i) (h.kernelBlockDescs i) c ∨ c = b := fun c => by
    rw [hlist]
    exact hholds.live_take
  have hlive' := fun c n => LiveBlock.relist_take hlive (p := pageOf b) (b := c) (c := n)
    ⟨some i, BitVec.ofNat 32 ((heapSlab i).freeOf l (pageOf b)), false⟩
  obtain ⟨hfits, hall⟩ := hok.live_add hsize hlive'
  have hst : Steady s { s with toMachine := m } := ⟨hcr3, rfl, rfl, rfl, rfl, fun _ => rfl⟩
  generalize hh' : h.relist i l (pageOf b)
    ⟨some i, BitVec.ofNat 32 ((heapSlab i).freeOf l (pageOf b)), false⟩ = h' at hfits hall hlive'
  have hok' : HeapOk { s with toMachine := m } h' spans (Function.update live b (some size)) := by
    refine ⟨?_, fun k => ?_, ?_, hfits, hall⟩
    · exact HeapOk.frames hok.own ⟨rfl, rfl, rfl, rfl⟩ hst fun k hk =>
        hframe k (List.mem_append_left H (List.mem_append_left L hk))
    · rw [← hh']
      by_cases hk : k = i
      · subst hk
        rw [Heap.relist_self]
        exact hholds.take
      · rw [Heap.relist_ne hk]
        exact hok.holds k
    · rw [← hh']
      refine hok.relist_header hnd harena fun q hq => ?_
      rw [hlist, Slab.freeOf_cons, if_neg fun he => hq (he.symm.trans howner), Nat.add_zero]
  have hnew : LiveBlock h' spans b (blockSize i) := (hlive' b _).mpr (.inr ⟨rfl, rfl⟩)
  refine ⟨m, h', ?_, ⟨hg', ⟨rfl, rfl, rfl, rfl⟩, hst, hframe⟩, hok', fun x hx => ?_, hnone,
    hzero size hsize, ?_, hg.rest hok.own hnew hbut⟩
  · rw [GwOS.takeBlock, Heap.freeList]
    dsimp only
    rw [hlist]
    dsimp only
    rw [hm, ← hh']
    show Except.ok (some b, _, _) = _
    rw [hkey, hheader, hcount, hsub]
    rfl
  · intro k hk
    rw [← hh']
    by_cases he : x.page = pageOf b
    · have hxb : x = ⟨pageOf b, 1, some i⟩ := hok.span_eq hnd hx harena he
      subst hxb
      cases hk
      rw [Heap.relist_self]
      have hb := (hlive b).mpr (.inr rfl)
      have hlt := hb.not_full hholds.take
      rwa [length_blocks] at hlt
    · have hold := hbusy x hx he k hk
      by_cases hki : k = i
      · subst hki
        rw [Heap.relist_self]
        rwa [hlist, Slab.freeOf_cons, if_neg fun h => he (h.symm.trans howner), Nat.add_zero] at hold
      · rwa [Heap.relist_ne hki]
  · have hsame := hok'.same_blocks_but hg'.vaddrs hnd hnew hbut
    rwa [Function.update_idem, ← hnone, Function.update_eq_self] at hsame

theorem arenasOf_cons (spans : List Span) (i : Fin descCnt) (p : BitVec 20) :
    arenasOf (⟨p, 1, some i⟩ :: spans) i = insert p (arenasOf spans i) := by
  ext q
  simp only [arenasOf, List.mem_cons, Span.mk.injEq, and_true, Set.mem_ofPred_eq, Set.mem_insert_iff]

theorem arenasOf_cons_ne (hx : x.desc ≠ some i) : arenasOf (x :: spans) i = arenasOf spans i := by
  ext q
  refine ⟨fun hq => (List.mem_cons.mp hq).resolve_left ?_, List.mem_cons_of_mem x⟩
  rintro rfl
  exact hx rfl

/-- The pages of a new span are in no other one. -/
theorem Grounded.new_page (hg : Grounded s threads D g (x.pages ++ (spanPages spans ++ L)) H)
    (hcnt : 1 ≤ x.cnt) (hy : y ∈ spans) (hy1 : 1 ≤ y.cnt) : y.page ≠ x.page := by
  intro he
  obtain ⟨-, -, hdisj⟩ := List.nodup_append'.mp (List.nodup_append'.mp hg.owned.nodup).1
  refine hdisj (Span.first_mem hcnt) (List.mem_append_left L (mem_spanPages hy ?_))
  exact he ▸ Span.first_mem hy1

/-- The blocks of a new arena are free. -/
theorem LiveBlock.grow (hnew : p ∉ arenasOf spans i) (r : Arena) :
    LiveBlock (h.relist i (h.kernelBlockDescs i ++ (heapSlab i).blocks p) p r)
      (⟨p, 1, some i⟩ :: spans) b c ↔ LiveBlock h spans b c := by
  constructor
  · intro hb
    cases hb with
    | small j b hb =>
      refine .small j b ?_
      by_cases hj : j = i
      · subst hj
        rw [arenasOf_cons, Heap.relist_self] at hb
        exact (Slab.live_grow hnew).mp hb
      · rwa [arenasOf_cons_ne (by simpa using Ne.symm hj), Heap.relist_ne hj] at hb
    | large x hx hd =>
      refine .large x ((List.mem_cons.mp hx).resolve_left ?_) hd
      rintro rfl
      cases hd
  · intro hb
    cases hb with
    | small j b hb =>
      refine .small j b ?_
      by_cases hj : j = i
      · subst hj
        rw [arenasOf_cons, Heap.relist_self]
        exact (Slab.live_grow hnew).mpr hb
      · rwa [arenasOf_cons_ne (by simpa using Ne.symm hj), Heap.relist_ne hj]
    | large x hx hd => exact .large x (List.mem_cons_of_mem _ hx) hd

/-- **A new arena** joins the others, with all of its blocks free. -/
theorem HeapOk.grow (hok : HeapOk s h spans live) (hnew : ∀ y ∈ spans, y.page ≠ p)
    (hown : ∀ x ∈ ⟨p, 1, some i⟩ :: spans, 1 ≤ x.cnt ∧ s'.OwnRun x.cnt x.vaddr) :
    HeapOk s' (h.relist i (h.kernelBlockDescs i ++ (heapSlab i).blocks p) p
      ⟨some i, BitVec.ofNat 32 (blocksPerArena i), false⟩) (⟨p, 1, some i⟩ :: spans) live := by
  have habsent : p ∉ arenasOf spans i := fun hp => hnew _ hp rfl
  refine ⟨hown, fun k => ?_, fun x hx => ?_, fun b n hb => ?_, fun b c hb => ?_⟩
  · by_cases hk : k = i
    · subst hk
      rw [arenasOf_cons, Heap.relist_self]
      exact (hok.holds k).grow habsent
    · rw [arenasOf_cons_ne (by simpa using Ne.symm hk), Heap.relist_ne hk]
      exact hok.holds k
  · rcases List.mem_cons.mp hx with rfl | hold
    · refine ⟨rfl, ?_⟩
      rw [Heap.relist_arena, Heap.relist_self, Slab.freeOf_append, (hok.holds i).freeOf_absent habsent,
        Slab.freeOf_blocks, length_blocks, Nat.zero_add]
    · refine (hok.header x hold).congr (Heap.relist_arena_ne (hnew x hold) _) fun j _ => ?_
      by_cases hj : j = i
      · subst hj
        rw [Heap.relist_self, Slab.freeOf_append, Slab.freeOf_blocks_ne (hnew x hold), Nat.add_zero]
      · rw [Heap.relist_ne hj]
  · obtain ⟨c, hc, hle⟩ := hok.fits b n hb
    exact ⟨c, (LiveBlock.grow habsent _).mpr hc, hle⟩
  · exact hok.all b c ((LiveBlock.grow habsent _).mp hb)

/-- **An empty list is filled**, or there is no page. -/
theorem HeapOk.newArena (hok : HeapOk s h spans live)
    (hg : Grounded s threads D g (spanPages spans ++ L) H) (hempty : h.kernelBlockDescs i = [])
    (hlt : 1 < s.kernelVaddr.vaddrBitmap.len) :
    (∃ s' N, GwOS.newArena s h .kernel i = .ok (false, s', h) ∧
      Provided s s' threads D g (spanPages spans ++ L) H N ∧ Loads s s' (spanPages spans ++ L)) ∨
    ∃ s' h' p, GwOS.newArena s h .kernel i = .ok (true, s', h') ∧
      h' = h.relist i (h.kernelBlockDescs i ++ (heapSlab i).blocks p) p
        ⟨some i, BitVec.ofNat 32 (blocksPerArena i), false⟩ ∧ (∀ y ∈ spans, y.page ≠ p) ∧
      Provided s s' threads D g (spanPages spans ++ L) H (Span.pages ⟨p, 1, some i⟩) ∧
      Loads s s' (spanPages spans ++ L) ∧
      HeapOk s' h' (⟨p, 1, some i⟩ :: spans) live := by
  obtain ⟨r, s1, hr, hnone, hsome⟩ := hg.mallocPage (Nat.le_refl 1) (by decide) hlt
  cases r with
  | none =>
    obtain ⟨⟨N, hprov⟩, hloads⟩ := hnone rfl
    refine .inl ⟨s1, N, ?_, hprov, hloads⟩
    rw [GwOS.newArena, hr]
    rfl
  | some v =>
    obtain ⟨m, hm, hprov, hloads, hrun, -⟩ := hsome v rfl
    obtain ⟨hhigh, -, hal⟩ := hrun.bounds hprov.grounded.vaddrs (Nat.le_refl 1)
    have hv := addrOf_of_aligned hal
    have hpages : vpages kernelDir 1 v = Span.pages ⟨pageOf v, 1, some i⟩ := by
      rw [Span.pages, Span.vaddr, hv]
    rw [hpages] at hprov
    have hnew : ∀ y ∈ spans, y.page ≠ pageOf v := fun y hy =>
      hprov.grounded.new_page (Nat.le_refl 1) hy (hok.own y hy).1
    have hown : ∀ x ∈ (⟨pageOf v, 1, some i⟩ : Span) :: spans,
        1 ≤ x.cnt ∧ ({ s1 with toMachine := m } : Memory).OwnRun x.cnt x.vaddr := by
      intro x hx
      rcases List.mem_cons.mp hx with rfl | hx
      · refine ⟨Nat.le_refl 1, ?_⟩
        rw [Span.vaddr, hv]
        exact hrun
      · exact HeapOk.frames hok.own hprov.ranges hprov.steady (fun k hk => hprov.frame k
          (List.mem_append_left H (List.mem_append_left L hk))) x hx
    have hkey : vpage s1.cr3 v = (kernelDir, pageOf v) := by
      rw [vpage_kernel hhigh, vpage, ite_self]
    have happend := appendBlocks_eq (i := i) (p := pageOf v) (l := h.kernelBlockDescs i)
      (by rw [hempty]; exact fun _ _ => List.not_mem_nil)
    rw [hv] at happend
    refine .inr ⟨{ s1 with toMachine := m }, _, pageOf v, ?_, rfl, hnew, hprov, hloads,
      hok.grow hnew hown⟩
    rw [GwOS.newArena, hr]
    show (clearPages 1 v s1.toMachine >>= _) = _
    rw [hm]
    show (appendBlocks v i (blocksPerArena i) 0 (h.kernelBlockDescs i) >>= _) = _
    rw [happend, hkey]
    rfl

end Spans

end GwOS
