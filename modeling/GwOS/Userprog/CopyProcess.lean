import GwOS.Userprog.NewProcess

/-!
# Forking a process

The calls of `copy_process` one after the other: the transfer page, the record and the bitmap
of the child, its directory, the pages, and the release of the transfer page.

- `Memory.ForkReady`: a process whose bitmap marks exactly its mapped pages, and enough memory.
- `copyProcess_duplicates`: the child's pages are the parent's, byte by byte, in frames that were
  free, and the parent has not changed.
-/

namespace GwOS

/-! ## The record of the child -/

section Call

variable {s s' : Memory} {threads : List Addr} {D : Frame → Prop} {g : VPage → Frame}
  {L H N : List VPage} {child parent v : Addr} {dc f : Frame}

/-- What `copy_pcb_vaddrbitmap_stack0` has done. -/
structure RecordCopied (s s' : Memory) (threads : List Addr) (D : Frame → Prop) (g : VPage → Frame)
    (L H : List VPage) (child parent bits : Addr) (idx : Nat) : Prop where
  managed : Managed s' threads D g (vpages kernelDir userBitmapPages bits ++ L) H
  grew : Grew s s' D (L ++ H) (vpages kernelDir userBitmapPages bits)
  pcb : s'.pcb = Function.update s.pcb child
    { s.pcb parent with bits, name := (s.pcb parent).name ++ "_fork" }
  btmp : s'.btmp = Function.update s.btmp bits (s.btmp (s.pcb parent).bits)
  running : s'.running = s.running
  cr3 : s'.cr3 = s.cr3
  high : 0xc0000000 ≤ bits.toNat
  fits : bits.toNat + userBitmapPages * pgSize ≤ 0xffc00000
  userPool : s'.userPool = s.userPool
  kernelPool : s.kernelPool.spare.card ≤ s'.kernelPool.spare.card + userBitmapPages
  ranges : SameRanges s s'
  clear : s'.Clear
  marked : s.kernelVaddr.vaddrBitmap.SetRange s'.kernelVaddr.vaddrBitmap true idx userBitmapPages
  first : ∀ j < idx, ¬ s.kernelVaddr.vaddrBitmap.FreeAt j userBitmapPages
  start : s'.kernelVaddr.vaddrStart = s.kernelVaddr.vaddrStart
  run : s'.OwnRun userBitmapPages bits

/-- **`copy_pcb_vaddrbitmap_stack0`** with enough memory. -/
theorem Managed.copyPcb (h : Managed s threads D g L H) (hnew : child ∉ threads)
    (hparent : parent ∈ threads) (hname : (s.pcb parent).name.length < 11) (hc : s.Clear) {j : Nat}
    (hj : j < s.kernelVaddr.vaddrBitmap.len - userBitmapPages)
    (hfree : s.kernelVaddr.vaddrBitmap.FreeAt j userBitmapPages)
    (hsupply : userBitmapPages ≤ s.kernelPool.spare.card) :
    ∃ s' bits idx, copyPcbVaddrbitmapStack0 s child parent = .ok (true, s') ∧
      RecordCopied s s' threads D g L H child parent bits idx := by
  have hlenp := (h.records.user _ hparent).len
  have h1 := h.record hnew (s.pcb parent) s.btmp fun _ ha => ha
  generalize hs1 : ({ s with pcb := Function.update s.pcb child (s.pcb parent), btmp := s.btmp } :
    Memory) = s1 at h1
  have hva1 : s1.kernelVaddr = s.kernelVaddr := by rw [← hs1]
  have hpool1 : s1.kernelPool = s.kernelPool := by rw [← hs1]
  have hc1 : s1.Clear := by
    rw [← hs1]
    exact hc
  rw [← hva1] at hj hfree
  rw [← hpool1] at hsupply
  obtain ⟨bits, s2, idx, hget, hgot, huser, hcard⟩ := h1.kernelPages hc1 (by decide) (by decide) hj hfree
    hsupply
  have hpcb2 : s2.pcb = Function.update s.pcb child (s.pcb parent) := by
    rw [hgot.pcb, ← hs1]
  have hbtmp2 : s2.btmp = s.btmp := by rw [hgot.btmp, ← hs1]
  have hchild : s2.pcb child = s.pcb parent := by rw [hpcb2, Function.update_self]
  have h2 := h1.added hgot.added
  have h3 := h2.record hnew { s2.pcb child with bits, name := (s2.pcb child).name ++ "_fork" }
    (Function.update s2.btmp bits (s2.btmp (s2.pcb child).bits)) fun a ha => by
      by_cases he : a = bits
      · rw [he, Function.update_self, hchild, hbtmp2]
        exact hlenp
      · rw [Function.update_of_ne he]
        exact ha
  have hgrew := hgot.added.grew
  have hmem1 : s1.toMachine = s.toMachine ∧ s1.userPool = s.userPool := by
    rw [← hs1]
    exact ⟨rfl, rfl⟩
  refine ⟨_, bits, idx, ?_, h3, ?_, ?_, ?_, ?_, ?_, ?_, hgot.fits, huser.trans hmem1.2, ?_, ?_, ?_, ?_, ?_, ?_,
    (hgot.ownRun huser).congr ⟨rfl, rfl, rfl, rfl⟩ rfl rfl fun _ _ => rfl⟩
  · unfold copyPcbVaddrbitmapStack0
    refine bind_eq_ok.mpr ⟨(some bits, s2), ?_, ?_⟩
    · rw [← hget, ← hs1]
    · dsimp only
      rw [if_pos (by rw [hchild]; exact hname)]
  · rw [← hs1] at hgrew
    exact ⟨⟨hgrew.frame, hgrew.data, hgrew.proper⟩, hgrew.taken, hgrew.fresh⟩
  · show Function.update s2.pcb child _ = _
    rw [hchild, hpcb2, Function.update_idem]
  · show Function.update s2.btmp bits (s2.btmp (s2.pcb child).bits) = _
    rw [hchild, hbtmp2]
  · show s2.running = s.running
    rw [hgot.running, ← hs1]
  · show s2.cr3 = s.cr3
    rw [hgot.added.steady.cr3, ← hs1]
  · exact Nat.le_trans h1.records.high hgot.low
  · rw [← hpool1]
    exact hcard
  · have hr := (getKernelPages_pools s1 _ _ hget).1
    exact (SameRanges.of_pools hpool1 hmem1.2).trans ⟨hr.kernelStart, hr.kernelSize, hr.userStart, hr.userSize⟩
  · exact hgot.clear hc1
  · rw [← hva1]
    exact hgot.marked
  · rw [← hva1]
    exact hgot.first
  · rw [← hva1]
    exact hgot.added.steady.start

end Call

/-! ## The whole call -/

/-- What `copy_process` takes: one page of the kernel for the transfer, 23 for the bitmap and one
for the directory, a table for every four megabytes in which a page is marked, and a frame for
each such page. -/
structure Memory.EnoughToFork (s : Memory) : Prop where
  run : ∃ j, j + 25 < s.kernelVaddr.vaddrBitmap.len ∧ s.kernelVaddr.vaddrBitmap.FreeAt j 25
  kernel : 25 + (tablesFrom (s.vaddrBitmap .user) (s.vaddrStart .user) 0).card ≤ s.kernelPool.spare.card
  user : (markedFrom (s.vaddrBitmap .user) 0).card ≤ s.userPool.spare.card

section Whole

variable {s s' : Memory} {threads : List Addr} {D : Frame → Prop} {g : VPage → Frame}
  {L H : List VPage} {child v : Addr} {dc f : Frame}

/-- The pages that the bitmap of the running process marks, in the order of the loop. -/
def Memory.userPages (s : Memory) : List Addr :=
  markedBelow (s.vaddrBitmap .user) (s.vaddrStart .user) (8 * (s.vaddrBitmap .user).len)

/-- A process that can be forked: its bitmap marks what it has mapped, and there is memory. -/
structure ForkReady (s : Memory) (threads : List Addr) (D : Frame → Prop) (g : VPage → Frame)
    (L H : List VPage) (child : Addr) : Prop extends Tracked s threads D g L H where
  name : (s.pcb s.running).name.length < 11
  enough : s.EnoughToFork
  new : child ∉ threads

namespace ForkReady

theorem progVaddr_toNat (h : ForkReady s threads D g L H child) {i : Nat}
    (hi : (s.vaddrBitmap .user).bit i = true) :
    (progVaddr (s.vaddrStart .user) i).toNat = (s.vaddrStart .user).toNat + i * pgSize ∧
      (s.vaddrStart .user).toNat + i * pgSize < 0xc0000000 :=
  (h.managed.records.user _ h.managed.running).progVaddr_toNat (lt_of_bit hi)

theorem low (h : ForkReady s threads D g L H child) {i : Nat}
    (hi : (s.vaddrBitmap .user).bit i = true) :
    progVaddr (s.vaddrStart .user) i < 0xc0000000 ∧
      dirIdx (progVaddr (s.vaddrStart .user) i) < 768 := by
  obtain ⟨h1, h2⟩ := h.progVaddr_toNat hi
  have h0 : (0xc0000000 : Addr).toNat = 0xc0000000 := rfl
  constructor
  · show (progVaddr _ i).toNat < (0xc0000000 : Addr).toNat
    omega
  · show (dirIdx _).toNat < 768
    rw [dirIdx_toNat]
    omega

/-- The pages that the bitmap marks, as the loop needs them. -/
theorem markedPages (h : ForkReady s threads D g L H child) :
    MarkedPages s L (s.vaddrBitmap .user) (s.vaddrStart .user) := by
  have hrange := h.managed.records.user _ h.managed.running
  have hwalk : ∀ i, (s.vaddrBitmap .user).bit i = true →
      s.walk (progVaddr (s.vaddrStart .user) i) ≠ none := fun i hi =>
    (h.marks _ (h.low hi).1).mpr ⟨i, hi, rfl⟩
  refine ⟨fun i hi => (h.low hi).2, fun i hi => ?_, fun i hi => h.covered _ (h.low hi).2 (hwalk i hi),
    fun i j hi hj he => ?_⟩
  · have hw := hwalk i hi
    rw [h.managed.layout.walk_eq h.managed.active (dirIdx_ne_of_low (h.low hi).2)] at hw
    exact Option.ne_none_iff_exists'.mp hw
  · obtain ⟨h1, -⟩ := h.progVaddr_toNat hi
    obtain ⟨h2, -⟩ := h.progVaddr_toNat hj
    have hpage := congrArg BitVec.toNat he
    have hal : (s.vaddrStart .user).toNat % pgSize = 0 := hrange.aligned
    rw [pageOf_toNat, pageOf_toNat, h1, h2] at hpage
    unfold pgSize at *
    omega

end ForkReady

/-- The new pages of the kernel: the directory at `p`, the bitmap at `bits`, and the transfer
page. -/
def forkPages (p bits tran : Addr) : List VPage :=
  [vpage kernelDir p] ++ (vpages kernelDir userBitmapPages bits ++ vpages kernelDir 1 tran)

/-- What has been done when `copy_body_stack3` is called. -/
structure ForkBase (s base : Memory) (threads : List Addr) (D : Frame → Prop) (g : VPage → Frame)
    (L H : List VPage) (child tran bits p : Addr) (dc : Frame) : Prop where
  copy : CopyBase base threads (fun d => D d ∨ d = dc) (Function.update g (vpage kernelDir p) dc)
    (vpages kernelDir userBitmapPages bits ++ (vpages kernelDir 1 tran ++ L)) (vpage kernelDir p :: H)
    child tran dc
  grew : Grew s base D (L ++ H) (forkPages p bits tran)
  ranges : SameRanges s base
  held : base.frameAt (vpage kernelDir p) = some dc
  running : base.running = s.running
  cr3 : base.cr3 = s.cr3
  parent : base.pcb s.running = s.pcb s.running
  record : base.pcb child = { s.pcb s.running with
    bits, name := (s.pcb s.running).name ++ "_fork", pgDir := some p }
  btmp : base.btmp = Function.update s.btmp bits (s.btmp (s.pcb s.running).bits)
  userPool : base.userPool = s.userPool
  kernelPool : s.kernelPool.spare.card ≤ base.kernelPool.spare.card + 25
  isNew : ¬ D dc
  tranRun : base.OwnRun 1 tran
  bitsRun : base.OwnRun userBitmapPages bits
  dirRun : base.OwnRun 1 p
  start : base.kernelVaddr.vaddrStart = s.kernelVaddr.vaddrStart
  len : base.kernelVaddr.vaddrBitmap.len = s.kernelVaddr.vaddrBitmap.len

/-- A process whose record and directory can be copied; the frames of its pages do not matter
yet. -/
structure ForkStart (s : Memory) (threads : List Addr) (D : Frame → Prop) (g : VPage → Frame)
    (L H : List VPage) (child : Addr) : Prop extends Tracked s threads D g L H where
  name : (s.pcb s.running).name.length < 11
  run : ∃ j, j + 25 < s.kernelVaddr.vaddrBitmap.len ∧ s.kernelVaddr.vaddrBitmap.FreeAt j 25
  kernel : 25 ≤ s.kernelPool.spare.card
  new : child ∉ threads

theorem ForkReady.start (h : ForkReady s threads D g L H child) : ForkStart s threads D g L H child :=
  ⟨h.toTracked, h.name, h.enough.run, Nat.le_trans (Nat.le_add_right 25 _) h.enough.kernel, h.new⟩

/-- **The calls before `copy_body_stack3`.** -/
theorem ForkStart.base (h : ForkStart s threads D g L H child) :
    ∃ tran s1 s2 p s3 bits dc, getKernelPages s 1 = .ok (some tran, s1) ∧
      copyPcbVaddrbitmapStack0 s1 child s.running = .ok (true, s2) ∧
      createPageDir s2 = .ok (some p, s3) ∧
      ForkBase s { s3 with pcb := Function.update s3.pcb child { s3.pcb child with pgDir := some p } }
        threads D g L H child tran bits p dc := by
  obtain ⟨j, hj, hrun⟩ := h.run
  have hsupply := h.kernel
  have hpages : userBitmapPages = 23 := by decide
  have hne : s.running ≠ child := fun he => h.new (he ▸ h.managed.running)
  -- the transfer page
  have hrun1 : s.kernelVaddr.vaddrBitmap.FreeAt j 1 := fun k hk => hrun k (by omega)
  obtain ⟨tran, s1, i1, hget1, hgot1, huser1, hcard1⟩ := h.managed.kernelPages h.clear (Nat.le_refl 1)
    (by decide) (by omega) hrun1 (by omega)
  have hm1 := h.managed.added hgot1.added
  have hlen1 := hgot1.added.steady.len
  have hrun24 : s1.kernelVaddr.vaddrBitmap.FreeAt (j + 1) (23 + 1) := hrun.rest hgot1.marked hgot1.first
  -- the record and the bitmap
  have hrun2 : s1.kernelVaddr.vaddrBitmap.FreeAt (j + 1) userBitmapPages := fun k hk =>
    hrun24 k (by omega)
  obtain ⟨s2, bits, i2, hcopy, hrec⟩ := hm1.copyPcb h.new h.managed.running
    (by rw [hgot1.pcb]; exact h.name) (hgot1.clear h.clear) (by omega) hrun2 (by omega)
  have hlen2 : s2.kernelVaddr.vaddrBitmap.len = s1.kernelVaddr.vaddrBitmap.len := hrec.marked.1
  have hcard2 := hrec.kernelPool
  -- the directory
  have hrun3 : s2.kernelVaddr.vaddrBitmap.FreeAt (j + 1 + 23) 1 :=
    hrun24.rest (hpages ▸ hrec.marked) (hpages ▸ hrec.first)
  obtain ⟨p, s3, dc, hdir, hnew⟩ := hrec.managed.createPageDir hrec.clear (by omega) hrun3 (by omega)
  obtain ⟨idx3, hmark3, -⟩ := hnew.bits
  have hcard3 := hnew.kernelPool
  have hpcb1 := hgot1.pcb
  have hparent : s3.pcb s.running = s.pcb s.running := by
    rw [hnew.pcb, hrec.pcb, Function.update_of_ne hne, hpcb1]
  have hrecord : s3.pcb child = { s.pcb s.running with
      bits, name := (s.pcb s.running).name ++ "_fork" } := by
    rw [hnew.pcb, hrec.pcb, Function.update_self, hpcb1]
  have hrunning : s3.running = s.running := by rw [hnew.running, hrec.running, hgot1.running]
  have hcr3 : s3.cr3 = s.cr3 := by rw [hnew.cr3, hrec.cr3, hgot1.added.steady.cr3]
  have hm3 := hnew.managed.record h.new { s3.pcb child with pgDir := some p } s3.btmp fun _ ha => ha
  have hactive := h.managed.active
  have htranHigh : 0xc0000000 ≤ tran.toNat := Nat.le_trans h.managed.records.high hgot1.low
  have hfits := hgot1.fits
  have hgrew2 := hrec.grew
  rw [List.append_assoc] at hgrew2
  have hgrew3 := hnew.grew
  rw [List.append_assoc, List.append_assoc, ← List.append_assoc] at hgrew3
  have hgrew := (hgot1.added.grew.trans hgrew2).trans hgrew3
  have hranges1 := (getKernelPages_pools s 1 _ hget1).1
  have hranges := hrec.ranges.trans hnew.ranges
  have hstart3 : s3.kernelVaddr.vaddrStart = s1.kernelVaddr.vaddrStart := hnew.start.trans hrec.start
  have hlen3 : s3.kernelVaddr.vaddrBitmap.len = s1.kernelVaddr.vaddrBitmap.len := hmark3.1.trans hlen2
  have htran1 : ∀ k ∈ vpages kernelDir 1 tran, s3.frameAt k = s1.frameAt k := fun k hk => by
    rw [hgrew3.frame k (List.mem_append_left _ (List.mem_append_right _ hk)),
      hgrew2.frame k (List.mem_append_left _ hk)]
  have hbits2 : ∀ k ∈ vpages kernelDir userBitmapPages bits, s3.frameAt k = s2.frameAt k := fun k hk =>
    hgrew3.frame k (List.mem_append_left _ (List.mem_append_left _ hk))
  refine ⟨tran, s1, s2, p, s3, bits, dc, hget1, hcopy, hdir, ⟨⟨hm3, ?_, ?_, ?_, .inr rfl, ?_, ?_, ?_, htranHigh,
    ?_, ?_⟩, ?_, ?_, ?_, hrunning, hcr3, ?_, ?_, ?_, ?_, ?_, hnew.isNew, ?_, ?_, ?_, ?_, ?_⟩⟩
  · rw [show ({ s3 with pcb := _ } : Memory).running = s.running from hrunning]
    show (Function.update s3.pcb child _ s.running).pgDir ≠ none
    rw [Function.update_of_ne hne, hparent]
    exact h.process
  · rw [show ({ s3 with pcb := _ } : Memory).cr3 = s.cr3 from hcr3]
    exact h.managed.parentDir h.process
  · refine ⟨p, ?_, hnew.high, hnew.low, List.mem_cons_self .., Function.update_self ..⟩
    show (Function.update s3.pcb child _ child).pgDir = some p
    rw [Function.update_self]
  · exact fun he => hnew.isNew (he ▸ h.managed.layout.root)
  · rw [show ({ s3 with pcb := _ } : Memory).cr3 = s.cr3 from hcr3]
    exact fun he => hnew.isNew (he ▸ hactive)
  · intro i hi hp
    rw [show ({ s3 with pcb := _ } : Memory).mem dc i = 0 from hnew.empty i hi] at hp
    exact absurd hp (by simp [Present])
  · unfold pgSize at hfits
    omega
  · exact List.mem_append_right _ (List.mem_append_left _ (List.mem_cons_self ..))
  · exact ⟨⟨hgrew.frame, hgrew.data, hgrew.proper⟩, hgrew.taken, hgrew.fresh⟩
  · exact hranges1.trans (hranges.trans ⟨rfl, rfl, rfl, rfl⟩)
  · exact hnew.held
  · show Function.update s3.pcb child _ s.running = _
    rw [Function.update_of_ne hne, hparent]
  · show Function.update s3.pcb child _ child = _
    rw [Function.update_self, hrecord]
  · show s3.btmp = _
    rw [hnew.btmp, hrec.btmp, hgot1.btmp, hpcb1]
  · show s3.userPool = _
    rw [hnew.userPool, hrec.userPool, huser1]
  · show s.kernelPool.spare.card ≤ s3.kernelPool.spare.card + 25
    omega
  · exact (hgot1.ownRun huser1).congr (hranges.trans ⟨rfl, rfl, rfl, rfl⟩) hstart3 hlen3 htran1
  · exact hrec.run.congr (hnew.ranges.trans ⟨rfl, rfl, rfl, rfl⟩) hnew.start hmark3.1 hbits2
  · exact hnew.run.congr ⟨rfl, rfl, rfl, rfl⟩ rfl rfl fun _ _ => rfl
  · show s3.kernelVaddr.vaddrStart = _
    rw [hstart3, hgot1.added.steady.start]
  · show s3.kernelVaddr.vaddrBitmap.len = _
    rw [hlen3, hlen1]

/-- The pages are where they were, and perhaps more of them are owned. -/
theorem MarkedPages.congr {base : Memory} {L' : List VPage} {mp : Bitmap} {start : Addr}
    (h : MarkedPages s L mp start) (hcr : base.cr3 = s.cr3)
    (hframe : ∀ k ∈ L, base.frameAt k = s.frameAt k) (hsub : L ⊆ L') :
    MarkedPages base L' mp start := by
  refine ⟨h.low, fun i hi => ?_, fun i hi => ?_, h.inj⟩
  · rw [hcr, hframe _ (h.owned i hi)]
    exact h.mapped i hi
  · rw [hcr]
    exact hsub (h.owned i hi)

section Duplicate

variable {base : Memory} {tran bits p : Addr}

/-- The bitmap of the parent is as before, wherever that of the child lies. -/
theorem ForkBase.parentBitmap (hb : ForkBase s base threads D g L H child tran bits p dc) :
    base.btmp (s.pcb s.running).bits = s.vaddrBitmap .user := by
  rw [hb.btmp]
  by_cases he : (s.pcb s.running).bits = bits
  · rw [he, Function.update_self, ← he]
    rfl
  · rw [Function.update_of_ne he]
    rfl

/-- **The copy of the pages.** -/
theorem ForkReady.copied (h : ForkReady s threads D g L H child)
    (hb : ForkBase s base threads D g L H child tran bits p dc) :
    ∃ s', copyBodyStack3 base child s.running tran = .ok s' ∧
      Copied base s' threads (fun d => D d ∨ d = dc) (Function.update g (vpage kernelDir p) dc)
        (vpages kernelDir userBitmapPages bits ++ (vpages kernelDir 1 tran ++ L)) (vpage kernelDir p :: H)
        tran dc s.userPages := by
  have hbits : base.btmp (base.pcb base.running).bits = s.vaddrBitmap .user := by
    rw [hb.running, hb.parent]
    exact hb.parentBitmap
  have hstart : (base.pcb base.running).vaddrStart = s.vaddrStart .user := by
    rw [hb.running, hb.parent]
    rfl
  have hsub : L ⊆ vpages kernelDir userBitmapPages bits ++ (vpages kernelDir 1 tran ++ L) := fun k hk =>
    List.mem_append_right _ (List.mem_append_right _ hk)
  have hmarked := h.markedPages.congr hb.cr3
    (fun k hk => hb.grew.frame k (List.mem_append_left H hk)) hsub
  have hkernel := h.enough.kernel
  have hcard := hb.kernelPool
  rw [← hbits, ← hstart] at hmarked
  obtain ⟨s', hs', hcopied⟩ := copyBodyStack3_ok hb.copy hmarked
    (by rw [hbits, hb.userPool]; exact h.enough.user) (by rw [hbits, hstart]; omega)
  rw [hb.running] at hs'
  rw [hbits, hstart] at hcopied
  exact ⟨s', hs', hcopied⟩

/-- **The release of the transfer page.** -/
theorem ForkBase.released (hb : ForkBase s base threads D g L H child tran bits p dc)
    {s5 : Memory} {D' : Frame → Prop} {g' : VPage → Frame} {H' : List VPage} {done : List Addr}
    (hc : Copied base s5 threads D' g' (vpages kernelDir userBitmapPages bits ++ (vpages kernelDir 1 tran ++ L))
      H' tran dc done) :
    ∃ s6, mfreePage s5 .kernel tran 1 = .ok s6 ∧ SameRanges s5 s6 ∧
      PagesRemoved s5 s6 D' g' ((done.map (vpage dc) ++ vpages kernelDir userBitmapPages bits) ++ L) H'
        (vpages kernelDir 1 tran) ∧ s6.btmp = s5.btmp := by
  have hm := hc.managed
  have howned : Owned s5 D' g' (vpages kernelDir 1 tran ++
      ((done.map (vpage dc) ++ vpages kernelDir userBitmapPages bits) ++ L)) H' := by
    refine hm.owned.perm ?_
    rw [← List.append_assoc]
    exact List.perm_append_comm_assoc ..
  have htran : ∀ k ∈ vpages kernelDir 1 tran, s5.frameAt k = base.frameAt k := fun k hk =>
    hc.frame k (List.mem_append_left _ (List.mem_append_right _ (List.mem_append_left _ hk)))
  have hrun : s5.OwnRun 1 tran := hb.tranRun.congr hc.ranges (by rw [hc.same.kernelVaddr])
    (by rw [hc.same.kernelVaddr]) htran
  obtain ⟨s6, h6, hranges, hrem⟩ := hrun.mfreePage hm.layout howned hm.active hm.vaddrsOk (Nat.le_refl 1)
  refine ⟨s6, h6, hranges, hrem, ?_⟩
  obtain ⟨s5', mp, hsame, -, rfl⟩ := mfreePage_vaddr s5 .kernel tran 1 s6 h6
  exact hsame.btmp

/-- What a process uses besides the tables of the kernel: its directory `dc`, its pages, its page
tables, and the pages of its bitmap. -/
def UsesFrame (s : Memory) (dc : Frame) (bits : Addr) (f : Frame) : Prop :=
  f = dc ∨ (∃ v : Addr, v < 0xc0000000 ∧ (s.under dc).walk v = some f) ∨
    (∃ i : BitVec 10, i < 768 ∧ Present (s.mem dc i) ∧ pageOf (s.mem dc i) = f) ∨
    ∃ k ∈ vpages kernelDir userBitmapPages bits, s.frameAt k = some f

/-- The child has the same pages as its parent with the same contents, in frames that were free,
and a bitmap of its own. The parent is as before, and its directory is active. -/
structure Duplicated (s s' : Memory) (child p bits : Addr) (dc : Frame) : Prop where
  record : s'.pcb child = { s.pcb s.running with
    bits, name := (s.pcb s.running).name ++ "_fork", pgDir := some p }
  directory : s'.walk p = some dc
  pages : ∀ v : Addr, v < 0xc0000000 → ((s'.under dc).walk v ≠ none ↔ s.walk v ≠ none)
  contents : ∀ v : Addr, v < 0xc0000000 → ∀ f f', s.walk v = some f → (s'.under dc).walk v = some f' →
    s'.mem f' = s.mem f
  fresh : ∀ f, UsesFrame s' dc bits f → ¬ s.Taken f
  bitmap : bits ≠ (s.pcb s.running).bits ∧ s'.btmp bits = s.vaddrBitmap .user
  running : s'.running = s.running
  active : s'.cr3 = s.cr3
  parent : s'.pcb s.running = s.pcb s.running
  parentBitmap : s'.vaddrBitmap .user = s.vaddrBitmap .user
  parentPages : ∀ v : Addr, v < 0xc0000000 → s'.walk v = s.walk v
  parentContents : ∀ v : Addr, v < 0xc0000000 → ∀ f, s.walk v = some f → s'.mem f = s.mem f

/-- A page of the parent has been copied. -/
theorem ForkReady.mem_done (h : ForkReady s threads D g L H child) (hv : v < 0xc0000000)
    (hw : s.walk v ≠ none) : ∃ w ∈ s.userPages, ∀ d, vpage d w = vpage d v := by
  obtain ⟨i, hi, hpage⟩ := (h.marks v hv).mp hw
  refine ⟨_, mem_markedBelow.mpr ⟨i, lt_of_bit hi, hi, rfl⟩, fun d => ?_⟩
  rw [vpage_low d (h.low hi).2, vpage_low d (dirIdx_lt_of_low hv), hpage]

/-- And nothing else has. -/
theorem ForkReady.walk_of_done (h : ForkReady s threads D g L H child) {d : Frame} (hv : v < 0xc0000000)
    {w : Addr} (hw : w ∈ s.userPages) (he : vpage d w = vpage d v) : s.walk v ≠ none := by
  obtain ⟨i, -, hi, rfl⟩ := mem_markedBelow.mp hw
  exact (h.marks v hv).mpr ⟨i, hi, (congrArg Prod.snd he).symm⟩

theorem fst_of_mem_forkPages {k : VPage} (hk : k ∈ forkPages p bits tran) : k.1 = kernelDir := by
  have hp : vpages kernelDir 1 p = [vpage kernelDir p] := rfl
  rw [forkPages, ← hp, List.mem_append, List.mem_append] at hk
  rcases hk with hk | hk | hk
  · exact fst_of_mem_vpages hk
  · exact fst_of_mem_vpages hk
  · exact fst_of_mem_vpages hk

/-- The states in between: `base` when the loops start, `s5` behind them, and `s6` at the end. -/
structure ForkSteps (s base s5 s6 : Memory) (threads : List Addr) (D : Frame → Prop)
    (g : VPage → Frame) (L H : List VPage) (child tran bits p : Addr) (dc : Frame) :
    Prop where
  ready : ForkReady s threads D g L H child
  start : ForkBase s base threads D g L H child tran bits p dc
  copied : Copied base s5 threads (fun d => D d ∨ d = dc) (Function.update g (vpage kernelDir p) dc)
    (vpages kernelDir userBitmapPages bits ++ (vpages kernelDir 1 tran ++ L)) (vpage kernelDir p :: H)
    tran dc s.userPages
  removed : PagesRemoved s5 s6 (fun d => D d ∨ d = dc) (Function.update g (vpage kernelDir p) dc)
    ((s.userPages.map (vpage dc) ++ vpages kernelDir userBitmapPages bits) ++ L)
    (vpage kernelDir p :: H) (vpages kernelDir 1 tran)
  ranges : SameRanges s5 s6
  btmp : s6.btmp = s5.btmp

namespace ForkSteps

variable {s5 s6 : Memory} (hf : ForkSteps s base s5 s6 threads D g L H child tran bits p dc)

include hf

theorem cr3 : s6.cr3 = s.cr3 :=
  hf.removed.steady.cr3.trans ((hf.copied.cr3 hf.start.copy).trans hf.start.cr3)

theorem pcb : s6.pcb = base.pcb := hf.removed.steady.pcb.trans hf.copied.same.pcb

theorem running : s6.running = s.running :=
  hf.removed.steady.running.trans (hf.copied.same.running.trans hf.start.running)

theorem parentDir : s.cr3 ≠ kernelDir := hf.ready.managed.parentDir hf.ready.process

theorem active : D s.cr3 := hf.ready.managed.active

/-- The page under the directory of the parent that an address is in. -/
theorem proper {d : Frame} (hd : D d ∨ d = dc) (hroot : d ≠ kernelDir) (hv : v < 0xc0000000) :
    ProperPage (fun d => D d ∨ d = dc) (vpage d v) :=
  hf.removed.layout.proper_vpage hd (dirIdx_ne_of_low (dirIdx_lt_of_low hv)) fun _ => hroot

theorem childPage_fst {k : VPage} (hk : k ∈ s.userPages.map (vpage dc)) : k.1 = dc := by
  obtain ⟨w, hw, rfl⟩ := List.mem_map.mp hk
  obtain ⟨i, -, hi, rfl⟩ := mem_markedBelow.mp hw
  rw [vpage_low dc (hf.ready.low hi).2]

theorem childDir : dc ≠ s.cr3 := hf.start.cr3 ▸ hf.start.copy.other

/-- **The mappings of the parent.** -/
theorem parentPages (hv : v < 0xc0000000) : s6.walk v = s.walk v := by
  have hwin := dirIdx_ne_of_low (dirIdx_lt_of_low hv)
  have hne := hf.parentDir
  have hproper := hf.proper (.inl hf.active) hne hv
  rw [hf.removed.layout.walk_eq (hf.cr3 ▸ .inl hf.active) hwin, hf.cr3,
    hf.ready.managed.layout.walk_eq hf.active hwin]
  rw [hf.removed.keeps.proper _ hproper, hf.copied.proper _ hproper, hf.start.grew.proper]
  · exact hf.ready.managed.layout.proper_vpage hf.active hwin fun _ => hne
  · exact fun hk => vpage_ne_kernel hne hv (fst_of_mem_forkPages hk) rfl
  · intro hk
    have he := hf.childPage_fst hk
    rw [vpage_low _ (dirIdx_lt_of_low hv)] at he
    exact hf.childDir he.symm
  · exact fun hk => vpage_ne_kernel hne hv (fst_of_mem_vpages hk) rfl

/-- A page that the parent owns is as before. -/
theorem data {k : VPage} (hk : k ∈ L) {f : Frame} (hkf : s.frameAt k = some f) :
    s6.frameAt k = some f ∧ s6.mem f = s.mem f := by
  have hL := List.mem_append_left H hk
  have hD := hf.ready.managed.owned.loose k hk f hkf
  have hL2 : k ∈ vpages kernelDir userBitmapPages bits ++ (vpages kernelDir 1 tran ++ L) :=
    List.mem_append_right _ (List.mem_append_right _ hk)
  have hL6 : k ∈ ((s.userPages.map (vpage dc) ++ vpages kernelDir userBitmapPages bits) ++ L) ++
      vpage kernelDir p :: H := List.mem_append_left _ (List.mem_append_right _ hk)
  have hbase : base.frameAt k = some f := (hf.start.grew.frame k hL).trans hkf
  have h5 : s5.frameAt k = some f := (hf.copied.frame k (List.mem_append_left _ hL2)).trans hbase
  have hloose := hf.copied.managed.owned.loose k (List.mem_append_right _ hL2) f h5
  have hne : k ≠ vpage kernelDir tran := by
    rintro rfl
    have hnd := hf.start.copy.managed.owned.nodup
    rw [List.append_assoc, List.append_assoc] at hnd
    have hnd2 := (List.nodup_append'.mp hnd).2.1
    exact (List.nodup_cons.mp hnd2).1 (List.mem_append_right _ (List.mem_append_left _ hk))
  refine ⟨(hf.removed.keeps.frame k hL6).trans h5, ?_⟩
  rw [hf.removed.keeps.data k hL6 f h5 hloose, hf.copied.data k hL2 hne f hbase,
    hf.start.grew.data k hL f hkf hD]

theorem parentContents (hv : v < 0xc0000000) (hw : s.walk v = some f) : s6.mem f = s.mem f := by
  have hlow := dirIdx_lt_of_low hv
  have hk := hf.ready.covered v hlow (by rw [hw]; exact Option.some_ne_none f)
  rw [hf.ready.managed.layout.walk_eq hf.active (dirIdx_ne_of_low hlow)] at hw
  exact (hf.data hk hw).2

/-- What the child sees under its directory. -/
theorem childWalk (hv : v < 0xc0000000) : (s6.under dc).walk v = s6.frameAt (vpage dc v) :=
  (hf.removed.layout.frameAt_vpage (.inr rfl) (dirIdx_ne_of_low (dirIdx_lt_of_low hv))).symm

/-- **A page that has been copied.** -/
theorem childPage (hv : v < 0xc0000000) (hw : s.walk v = some f) : ∃ f',
    (s6.under dc).walk v = some f' ∧ ¬ s.Taken f' ∧ s6.mem f' = s.mem f := by
  have hlow := dirIdx_lt_of_low hv
  obtain ⟨w, hdone, hkey⟩ := hf.ready.mem_done hv (by rw [hw]; exact Option.some_ne_none f)
  have hk := hf.ready.covered v hlow (by rw [hw]; exact Option.some_ne_none f)
  rw [hf.ready.managed.layout.walk_eq hf.active (dirIdx_ne_of_low hlow)] at hw
  obtain ⟨f0, f', h0, h', hfree, hmem⟩ := hf.copied.copy w hdone
  rw [hkey, hf.start.cr3, hf.start.grew.frame _ (List.mem_append_left H hk), hw] at h0
  cases h0
  have hmemk : vpage dc w ∈ s.userPages.map (vpage dc) := List.mem_map_of_mem hdone
  have hL6 : vpage dc w ∈ ((s.userPages.map (vpage dc) ++ vpages kernelDir userBitmapPages bits) ++ L) ++
      vpage kernelDir p :: H := List.mem_append_left _ (List.mem_append_left _ (List.mem_append_left _ hmemk))
  have hloose := hf.copied.managed.owned.loose _ (List.mem_append_left _ hmemk) f' h'
  refine ⟨f', ?_, fun ht => hfree (hf.start.grew.taken f' ht), ?_⟩
  · rw [hf.childWalk hv, ← hkey, hf.removed.keeps.frame _ hL6, h']
  · rw [hf.removed.keeps.data _ hL6 f' h' hloose, hmem,
      hf.start.grew.data _ (List.mem_append_left H hk) f hw (hf.ready.managed.owned.loose _ hk f hw)]

/-- **No other page has been copied.** -/
theorem child_unmapped (hv : v < 0xc0000000) (hw : s.walk v = none) : (s6.under dc).walk v = none := by
  have hroot := hf.start.copy.childDir
  have hproper := hf.proper (.inr rfl) hroot hv
  rw [hf.childWalk hv, hf.removed.keeps.proper _ hproper, hf.copied.proper _ hproper]
  · exact hf.start.copy.unmapped (dirIdx_lt_of_low hv)
  · intro hk
    obtain ⟨w, hdone, he⟩ := List.mem_map.mp hk
    exact hf.ready.walk_of_done hv hdone he hw
  · exact fun hk => vpage_ne_kernel hroot hv (fst_of_mem_vpages hk) rfl

/-- **The frames of the child were free.** -/
theorem fresh (hu : UsesFrame s6 dc bits f) : ¬ s.Taken f := by
  have hgrew := hf.start.grew
  rcases hu with rfl | ⟨v, hv, hw⟩ | ⟨i, hi, hp, rfl⟩ | ⟨k, hk, hkf⟩
  · have hmem : vpage kernelDir p ∈ forkPages p bits tran :=
      List.mem_append_left _ (List.mem_singleton_self _)
    exact hgrew.fresh _ hmem _ hf.start.held
  · cases hw0 : s.walk v with
    | none =>
      rw [hf.child_unmapped hv hw0] at hw
      cases hw
    | some f0 =>
      obtain ⟨f', hf', hfree, -⟩ := hf.childPage hv hw0
      cases hw.symm.trans hf'
      exact hfree
  · have hmem : s6.mem dc = s5.mem dc := hf.removed.dirs dc (.inr rfl)
    rw [hmem] at hp ⊢
    exact fun ht => hf.copied.tables i hi hp (hgrew.taken _ ht)
  · have hL6 : k ∈ ((s.userPages.map (vpage dc) ++ vpages kernelDir userBitmapPages bits) ++ L) ++
        vpage kernelDir p :: H := List.mem_append_left _ (List.mem_append_left _ (List.mem_append_right _ hk))
    have hL2 : k ∈ (vpages kernelDir userBitmapPages bits ++ (vpages kernelDir 1 tran ++ L)) ++
        vpage kernelDir p :: H := List.mem_append_left _ (List.mem_append_left _ hk)
    rw [hf.removed.keeps.frame k hL6, hf.copied.frame k hL2] at hkf
    exact hgrew.fresh k (List.mem_append_right _ (List.mem_append_left _ hk)) f hkf

/-- The bitmap of the child is another one. -/
theorem bits_ne : bits ≠ (s.pcb s.running).bits := by
  rintro rfl
  obtain ⟨q, hq⟩ := Option.ne_none_iff_exists'.mp hf.ready.process
  have hproc := hf.ready.managed.records.procs _ hf.ready.managed.running q hq
  have hhead : vpage kernelDir (s.pcb s.running).bits ∈
      vpages kernelDir userBitmapPages (s.pcb s.running).bits := List.mem_cons_self ..
  have hH := hproc.bits _ hhead
  have hnd := hf.start.copy.managed.owned.nodup
  exact (List.nodup_append'.mp hnd).2.2 (List.mem_append_left _ hhead) (List.mem_cons_of_mem _ hH)

/-- **The end of `copy_process`.** -/
theorem duplicated : Duplicated s s6 child p bits dc := by
  have hbtmp : s6.btmp = base.btmp := hf.btmp.trans hf.copied.same.btmp
  have hheld : vpage kernelDir p ∈ vpage kernelDir p :: H := List.mem_cons_self ..
  refine ⟨?_, ?_, fun v hv => ⟨fun hne hw => hne (hf.child_unmapped hv hw), fun hne hw => ?_⟩,
    fun v hv f f' hw hw' => ?_, fun f hu => hf.fresh hu, ⟨hf.bits_ne, ?_⟩, hf.running, hf.cr3, ?_, ?_,
    fun v hv => hf.parentPages hv, fun v hv f hw => hf.parentContents hv hw⟩
  · rw [hf.pcb]
    exact hf.start.record
  · obtain ⟨q, hq, hhigh, hlow, -⟩ := hf.start.copy.child
    rw [hf.start.record] at hq
    cases hq
    rw [hf.removed.layout.walk_eq (hf.cr3 ▸ .inl hf.active) (dirIdx_ne_of_le hlow), vpage_kernel hhigh,
      hf.removed.keeps.frame _ (List.mem_append_right _ hheld),
      hf.copied.frame _ (List.mem_append_right _ hheld)]
    exact hf.start.held
  · obtain ⟨f, hf0⟩ := Option.ne_none_iff_exists'.mp hne
    obtain ⟨f', hf', -⟩ := hf.childPage hv hf0
    rw [hw] at hf'
    cases hf'
  · obtain ⟨f0, hf0, -, hmem⟩ := hf.childPage hv hw
    cases hw'.symm.trans hf0
    exact hmem
  · rw [hbtmp, hf.start.btmp, Function.update_self]
    rfl
  · rw [hf.pcb]
    exact hf.start.parent
  · show s6.btmp (s6.pcb s6.running).bits = _
    rw [hf.running, hf.pcb, hf.start.parent, hbtmp]
    exact hf.start.parentBitmap

end ForkSteps

/-- **`copy_process`** with enough memory. -/
theorem ForkReady.steps (h : ForkReady s threads D g L H child) : ∃ base s5 s6 tran bits p dc,
    copyProcess s child s.running = .ok (true, s6) ∧
      ForkSteps s base s5 s6 threads D g L H child tran bits p dc := by
  obtain ⟨tran, s1, s2, p, s3, bits, dc, h1, h2, h3, hb⟩ := h.start.base
  obtain ⟨s5, h5, hc⟩ := h.copied hb
  obtain ⟨s6, h6, hranges, hrem, hbtmp⟩ := hb.released hc
  refine ⟨_, s5, s6, tran, bits, p, dc, ?_, h, hb, hc, hrem, hranges, hbtmp⟩
  unfold copyProcess
  refine bind_eq_ok.mpr ⟨_, h1, bind_eq_ok.mpr ⟨_, h2, bind_eq_ok.mpr ⟨_, h3, ?_⟩⟩⟩
  show (copyBodyStack3 _ child s.running tran >>= _) = _
  rw [h5]
  show (mfreePage s5 .kernel tran 1 >>= _) = _
  rw [h6]
  rfl

end Duplicate

/-- **`copy_process` duplicates the address space.** -/
theorem copyProcess_duplicates (h : ForkReady s threads D g L H child) :
    ∃ s' p bits dc, copyProcess s child s.running = .ok (true, s') ∧ Duplicated s s' child p bits dc := by
  obtain ⟨base, s5, s6, tran, bits, p, dc, hcall, hf⟩ := h.steps
  exact ⟨s6, p, bits, dc, hcall, hf.duplicated⟩

/-- **The record of the child** has been taken, and what `sys_fork` needs for itself is there. -/
theorem Tracked.startFork (h : Tracked s threads D g L H) (hname : (s.pcb s.running).name.length < 11)
    {j : Nat} (hj : j + 26 < s.kernelVaddr.vaddrBitmap.len) (hfree : s.kernelVaddr.vaddrBitmap.FreeAt j 26)
    (hkernel : 26 ≤ s.kernelPool.spare.card) :
    ∃ child s1 c, getKernelPages s 1 = .ok (some child, s1) ∧ KernelGot s s1 D g L H 1 c child ∧
      s1.userPool = s.userPool ∧ s1.vaddrBitmap .user = s.vaddrBitmap .user ∧
      s.kernelPool.spare.card ≤ s1.kernelPool.spare.card + 1 ∧
      (∀ v : Addr, v < 0xc0000000 → s1.walk v = s.walk v) ∧
      ForkStart s1 threads D g (vpages kernelDir 1 child ++ L) H child := by
  obtain ⟨child, s1, c, hget, hgot, hu1, hk1⟩ := h.managed.kernelPages h.clear (Nat.le_refl 1) (by decide)
    (by omega) (fun k hk => hfree k (by omega)) (by omega)
  obtain ⟨ht1, hwalk1⟩ := h.grow hgot.added (fun k hk => fst_of_mem_vpages hk) hgot.btmp
    (hgot.clear h.clear)
  have hfree26 : s.kernelVaddr.vaddrBitmap.FreeAt j (1 + 25) := hfree
  have hfree1 := hfree26.rest hgot.marked hgot.first
  have hlen1 : s1.kernelVaddr.vaddrBitmap.len = s.kernelVaddr.vaddrBitmap.len := hgot.added.steady.len
  have hpcb1 : s1.pcb s1.running = s.pcb s.running := by rw [hgot.pcb, hgot.running]
  have hbits1 : s1.vaddrBitmap .user = s.vaddrBitmap .user := by
    show s1.btmp (s1.pcb s1.running).bits = s.btmp (s.pcb s.running).bits
    rw [hpcb1, hgot.btmp]
  refine ⟨child, s1, c, hget, hgot, hu1, hbits1, hk1, hwalk1, ht1, by rw [hpcb1]; exact hname, ?_, by omega,
    h.managed.newThread hgot⟩
  exact ⟨j + 1, by omega, hfree1⟩

/-- The same with frames for the pages, so that the whole fork may begin. -/
theorem Tracked.readyToFork (h : Tracked s threads D g L H) (hname : (s.pcb s.running).name.length < 11)
    {j : Nat} (hj : j + 26 < s.kernelVaddr.vaddrBitmap.len) (hfree : s.kernelVaddr.vaddrBitmap.FreeAt j 26)
    (hkernel : 26 + (tablesFrom (s.vaddrBitmap .user) (s.vaddrStart .user) 0).card ≤ s.kernelPool.spare.card)
    (huser : (markedFrom (s.vaddrBitmap .user) 0).card ≤ s.userPool.spare.card) :
    ∃ child s1 c, getKernelPages s 1 = .ok (some child, s1) ∧ KernelGot s s1 D g L H 1 c child ∧
      s1.userPool = s.userPool ∧ s1.vaddrBitmap .user = s.vaddrBitmap .user ∧
      (∀ v : Addr, v < 0xc0000000 → s1.walk v = s.walk v) ∧
      ForkReady s1 threads D g (vpages kernelDir 1 child ++ L) H child := by
  obtain ⟨child, s1, c, hget, hgot, hu1, hbits1, hk1, hwalk1, hstart⟩ := h.startFork hname hj hfree (by omega)
  have hpcb1 : s1.pcb s1.running = s.pcb s.running := by rw [hgot.pcb, hgot.running]
  have hstart1 : s1.vaddrStart .user = s.vaddrStart .user := by
    show (s1.pcb s1.running).vaddrStart = (s.pcb s.running).vaddrStart
    rw [hpcb1]
  refine ⟨child, s1, c, hget, hgot, hu1, hbits1, hwalk1, hstart.toTracked, hstart.name, ?_, hstart.new⟩
  exact ⟨hstart.run, by rw [hbits1, hstart1]; omega, by rw [hbits1, hu1]; exact huser⟩

/-- A process that has one page of stack, and the child that the kernel has a page for. -/
theorem copyProcess_duplicates_stack : ∃ s s' child p bits dc, s.walk 0xbffff000 ≠ none ∧
    copyProcess s child s.running = .ok (true, s') ∧ Duplicated s s' child p bits dc := by
  obtain ⟨s, -, threads, D, g, L, H, h⟩ := init_tracked
  have hlen := h.len
  have hk := h.kernelPool
  have hu := h.userPool
  have hmarked := h.marked
  have htables : (tablesFrom (s.vaddrBitmap .user) (s.vaddrStart .user) 0).card ≤ 1 :=
    Nat.le_trans Finset.card_image_le hmarked
  obtain ⟨child, s1, -, -, -, -, -, hwalk, hready⟩ := h.toTracked.readyToFork (by rw [h.name]; decide)
    (j := 25) (by omega) (h.rest 26) (by omega) (by omega)
  obtain ⟨s', p, bits, dc, hcopy, hdup⟩ := copyProcess_duplicates hready
  exact ⟨s1, s', child, p, bits, dc, by rw [hwalk _ (by decide)]; exact h.stack, hcopy, hdup⟩

end Whole

end GwOS
