import GwOS.Userprog.CopyProcess

/-!
# The end of a process (`userprog/wait.c`, `thread_exit` of `thread/thread.c`)

A process that exits gives back its pages, their tables and its bitmap; its directory and its
record are given back by the parent that reaps it.

- Of `sys_exit` and `sys_wait` only what concerns pages is here, in the order in which it happens.
- `forkExitWait_keepsLast`: `release_prog_resource` rounds the pages of the bitmap down where
  `copy_pcb_vaddrbitmap_stack0` has rounded them up, so the last one is never given back.
-/

namespace GwOS

/-! ## The model -/

/-- The inner loop of `release_prog_resource`: `n` entries to go, from `pteIdx` on. -/
def releasePtes (firstPteVaddrInPde : Addr) : (n pteIdx : Nat) → Memory → Except Fault Memory
  | 0, _, s => .ok s
  | n + 1, pteIdx, s => do
    let pte ← s.load (firstPteVaddrInPde + BitVec.ofNat 32 (pteIdx * 4))
    if Present pte then
      let s ← freeOnePhyPage s (pte &&& 0xfffff000)
      releasePtes firstPteVaddrInPde n (pteIdx + 1) s
    else releasePtes firstPteVaddrInPde n (pteIdx + 1) s

/-- The outer loop of `release_prog_resource`: `n` entries to go, from `pdeIdx` on. -/
def releasePdes (pgdirVaddr : Addr) : (n pdeIdx : Nat) → Memory → Except Fault Memory
  | 0, _, s => .ok s
  | n + 1, pdeIdx, s => do
    let pde ← s.load (pgdirVaddr + BitVec.ofNat 32 (pdeIdx * 4))
    if Present pde then
      let s ← releasePtes (ptePtr (BitVec.ofNat 32 (pdeIdx * 0x400000))) 1024 0 s
      let s ← freeOnePhyPage s (pde &&& 0xfffff000)
      releasePdes pgdirVaddr n (pdeIdx + 1) s
    else releasePdes pgdirVaddr n (pdeIdx + 1) s

/-- `release_prog_resource`. -/
def releaseProgResource (s : Memory) (thread : Addr) : Except Fault Memory := do
  let s ← releasePdes ((s.pcb thread).pgDir.getD 0) 768 0 s
  let userVaddrPoolBitmap := (s.pcb thread).bits
  let cnt := (s.btmp userVaddrPoolBitmap).len / pgSize
  mfreePage s .kernel userVaddrPoolBitmap cnt

namespace Memory

/-- The pages that `thread_exit` gives back. -/
def threadExit (s : Memory) (mainThread thread : Addr) : Except Fault Memory := do
  let s ← match (s.pcb thread).pgDir with
    | some pgDir => mfreePage s .kernel pgDir 1
    | none => .ok s
  if thread ≠ mainThread then mfreePage s .kernel thread 1 else .ok s

/-- The running process forks, the child runs `sys_exit`, and the parent reaps it with
`sys_wait`; `none` if the fork fails. -/
def forkExitWait (s : Memory) (mainThread : Addr) : Except Fault (Option Memory) := do
  let parent := s.running
  match ← s.sysFork with
  | (none, _) => .ok none
  | (some child, s) =>
    let s ← s.switchTo child
    let s ← releaseProgResource s child
    let s ← s.switchTo parent
    let s ← s.threadExit mainThread child
    .ok (some s)

end Memory

/-! ## The virtual pages of the kernel -/

section Bits

variable {s s' s1 : Memory} {cnt idx : Nat} {v child parent thread : Addr}

/-- The range of the kernel's bitmap, and its length. -/
structure Memory.KernelSpace (s : Memory) : Prop where
  fits : s.kernelVaddr.vaddrStart.toNat + 8 * s.kernelVaddr.vaddrBitmap.len * pgSize ≤ 0xffc00000
  len : userBitmapPages < s.kernelVaddr.vaddrBitmap.len

/-- The address of the page of the kernel at `idx`. -/
def Memory.kernelAddr (s : Memory) (idx : Nat) : Addr :=
  s.kernelVaddr.vaddrStart + BitVec.ofNat 32 (idx * pgSize)

theorem Memory.KernelSpace.congr (h : s.KernelSpace)
    (hstart : s'.kernelVaddr.vaddrStart = s.kernelVaddr.vaddrStart)
    (hlen : s'.kernelVaddr.vaddrBitmap.len = s.kernelVaddr.vaddrBitmap.len) : s'.KernelSpace := by
  refine ⟨?_, ?_⟩
  · rw [hstart, hlen]
    exact h.fits
  · rw [hlen]
    exact h.len

theorem Memory.KernelSpace.pageIdx (h : s.KernelSpace) (hidx : idx < s.kernelVaddr.vaddrBitmap.len) :
    pageIdx (s.kernelAddr idx) s.kernelVaddr.vaddrStart = idx := by
  have hfits := h.fits
  rw [GwOS.pageIdx, Memory.kernelAddr, BitVec.add_comm, BitVec.add_sub_cancel, BitVec.toNat_ofNat]
  unfold pgSize at *
  omega

/-- The kernel has taken a run of virtual pages that was free. -/
structure KernelTook (s s' : Memory) (cnt idx : Nat) (v : Addr) : Prop where
  range : idx + cnt ≤ s.kernelVaddr.vaddrBitmap.len
  vaddr : v = s.kernelAddr idx
  free : s.kernelVaddr.vaddrBitmap.FreeAt idx cnt
  marked : s.kernelVaddr.vaddrBitmap.SetRange s'.kernelVaddr.vaddrBitmap true idx cnt
  start : s'.kernelVaddr.vaddrStart = s.kernelVaddr.vaddrStart
  pcb : s'.pcb = s.pcb
  btmp : s'.btmp = s.btmp
  running : s'.running = s.running

theorem KernelTook.space (h : KernelTook s s' cnt idx v) (hk : s.KernelSpace) : s'.KernelSpace :=
  hk.congr h.start h.marked.1

/-- A bit outside the run, or one that was clear. -/
theorem KernelTook.other (h : KernelTook s s' cnt idx v) {j : Nat}
    (hj : s'.kernelVaddr.vaddrBitmap.bit j = false) :
    s.kernelVaddr.vaddrBitmap.bit j = false ∧ ¬ (idx ≤ j ∧ j < idx + cnt) := by
  rw [h.marked.2] at hj
  split at hj
  · cases hj
  · next hout => exact ⟨hj, hout⟩

theorem getKernelPages_took (hk : s.KernelSpace) (hcnt : 1 ≤ cnt) (hle : cnt ≤ userBitmapPages) :
    Returns (getKernelPages s cnt) fun r => ∀ v, r.1 = some v → ∃ idx, KernelTook s r.2 cnt idx v := by
  have hfits := hk.fits
  have hlen := hk.len
  refine (getKernelPages_vaddr hcnt (by omega) (by unfold pgSize at hfits; omega)).mono
    fun r hr v hv => ?_
  obtain ⟨idx, s1, hgot, hsame⟩ := hr v hv
  obtain ⟨mp, hmp, rfl⟩ := hgot.marked
  refine ⟨idx, hgot.range, hgot.vaddr, hgot.free, ?_, ?_, hsame.pcb, hsame.btmp, hsame.running⟩
  · rw [hsame.kernelVaddr]
    exact hmp
  · rw [hsame.kernelVaddr]
    rfl

/-- The kernel has given a run back. -/
structure KernelGave (s s' : Memory) (cnt idx : Nat) : Prop where
  marked : s.kernelVaddr.vaddrBitmap.SetRange s'.kernelVaddr.vaddrBitmap false idx cnt
  start : s'.kernelVaddr.vaddrStart = s.kernelVaddr.vaddrStart
  pcb : s'.pcb = s.pcb
  btmp : s'.btmp = s.btmp
  running : s'.running = s.running

/-- The bit of a page of the kernel that is not among those given back stays. -/
theorem KernelGave.keeps (h : KernelGave s s' cnt idx) {j : Nat} (hj : ¬ (idx ≤ j ∧ j < idx + cnt)) :
    s'.kernelVaddr.vaddrBitmap.bit j = s.kernelVaddr.vaddrBitmap.bit j := by
  rw [h.marked.2, if_neg hj]

theorem KernelGave.space (h : KernelGave s s' cnt idx) (hk : s.KernelSpace) : s'.KernelSpace :=
  hk.congr h.start h.marked.1

theorem mfreePage_gave (hk : s.KernelSpace) (hidx : idx < s.kernelVaddr.vaddrBitmap.len) (cnt : Nat) :
    Returns (mfreePage s .kernel (s.kernelAddr idx) cnt) fun s' => KernelGave s s' cnt idx := by
  refine (mfreePage_vaddr s .kernel (s.kernelAddr idx) cnt).mono fun s' hs' => ?_
  obtain ⟨s1, mp, hsame, hmp, rfl⟩ := hs'
  have hpage : GwOS.pageIdx (s.kernelAddr idx) (s.vaddrStart .kernel) = idx := hk.pageIdx hidx
  rw [hpage] at hmp
  refine ⟨hmp, ?_, hsame.pcb, hsame.btmp, hsame.running⟩
  show s1.kernelVaddr.vaddrStart = _
  rw [hsame.kernelVaddr]

/-! ## What a fork takes -/

theorem pageDirActivate_same (s : Memory) (thread : Addr) :
    Returns (pageDirActivate s thread) (SameRecords s) := by
  unfold pageDirActivate
  split
  · exact .ok ⟨rfl, rfl, rfl, rfl⟩
  · exact .bind .any fun a _ => .ok ⟨rfl, rfl, rfl, rfl⟩

theorem copyBodyPage_same (s : Memory) (child parent tranPage progVaddr : Addr) :
    Returns (copyBodyPage s child parent tranPage progVaddr) (SameRecords s) := by
  unfold copyBodyPage
  refine .bind .any fun m1 _ => .bind (pageDirActivate_same _ child) fun s1 h1 => ?_
  have h1' : SameRecords s s1 := ⟨h1.kernelVaddr, h1.pcb, h1.btmp, h1.running⟩
  refine .bind (getOnePageNoBitmap_same s1 .user progVaddr) fun r hr => .bind .any fun m2 _ => ?_
  exact (pageDirActivate_same _ parent).mono fun s3 h3 =>
    (h1'.trans hr).trans ⟨h3.kernelVaddr, h3.pcb, h3.btmp, h3.running⟩

theorem copyBodyBits_same (child parent tranPage vaddrBtmp vaddrStart : Addr) (idxByte n idxBit : Nat)
    (s : Memory) :
    Returns (copyBodyBits child parent tranPage vaddrBtmp vaddrStart idxByte n idxBit s)
      (SameRecords s) := by
  induction n generalizing idxBit s with
  | zero => exact .ok (.refl s)
  | succ n ih =>
    unfold copyBodyBits
    split
    · exact .error _
    · dsimp only
      split
      · refine .bind (copyBodyPage_same s child parent tranPage _) fun s1 h1 => ?_
        exact (ih _ s1).mono fun s2 h2 => h1.trans h2
      · exact ih _ s

theorem copyBodyBytes_same (child parent tranPage vaddrBtmp vaddrStart : Addr) (n idxByte : Nat)
    (s : Memory) :
    Returns (copyBodyBytes child parent tranPage vaddrBtmp vaddrStart n idxByte s) (SameRecords s) := by
  induction n generalizing idxByte s with
  | zero => exact .ok (.refl s)
  | succ n ih =>
    unfold copyBodyBytes
    split
    · exact .error _
    · split
      · refine .bind (copyBodyBits_same child parent tranPage vaddrBtmp vaddrStart idxByte 8 0 s)
          fun s1 h1 => ?_
        exact (ih _ s1).mono fun s2 h2 => h1.trans h2
      · exact ih _ s

theorem createPageDir_took (hk : s.KernelSpace) :
    Returns (createPageDir s) fun r => ∀ v, r.1 = some v → ∃ idx, KernelTook s r.2 1 idx v := by
  unfold createPageDir
  refine .bind (getKernelPages_took hk (Nat.le_refl 1) (by decide)) fun r hr => ?_
  obtain ⟨v, s1⟩ := r
  cases v with
  | none => exact .ok nofun
  | some v =>
    refine .bind .any fun m1 _ => .bind .any fun a _ => .bind .any fun m2 _ => .ok fun w hw => ?_
    cases hw
    obtain ⟨idx, h⟩ := hr v rfl
    exact ⟨idx, h.range, h.vaddr, h.free, h.marked, h.start, h.pcb, h.btmp, h.running⟩

/-- The record and the bitmap of the child. -/
theorem copyPcbVaddrbitmapStack0_took (hk : s.KernelSpace) :
    Returns (copyPcbVaddrbitmapStack0 s child parent) fun r => r.1 = true →
      ∃ b, b + userBitmapPages ≤ s.kernelVaddr.vaddrBitmap.len ∧
        s.kernelVaddr.vaddrBitmap.FreeAt b userBitmapPages ∧
        s.kernelVaddr.vaddrBitmap.SetRange r.2.kernelVaddr.vaddrBitmap true b userBitmapPages ∧
        r.2.kernelVaddr.vaddrStart = s.kernelVaddr.vaddrStart ∧ r.2.running = s.running ∧
        (r.2.pcb child).bits = s.kernelAddr b ∧
        (r.2.btmp (s.kernelAddr b)).len = (s.btmp (s.pcb parent).bits).len := by
  unfold copyPcbVaddrbitmapStack0
  have hk' : Memory.KernelSpace { s with pcb := Function.update s.pcb child (s.pcb parent) } :=
    ⟨hk.fits, hk.len⟩
  refine .bind (getKernelPages_took hk' (by decide) (Nat.le_refl _)) fun r hr => ?_
  obtain ⟨v, s1⟩ := r
  cases v with
  | none => exact .ok nofun
  | some v =>
    dsimp only
    split
    · refine .ok fun _ => ?_
      obtain ⟨b, h⟩ := hr v rfl
      have hpcb : s1.pcb child = s.pcb parent := by
        rw [h.pcb]
        exact Function.update_self ..
      have hv : v = s.kernelAddr b := h.vaddr
      have hlen : (s1.btmp (s1.pcb child).bits).len = (s.btmp (s.pcb parent).bits).len := by
        rw [hpcb, h.btmp]
      refine ⟨b, h.range, h.free, h.marked, h.start, h.running, ?_, ?_⟩
      · show (Function.update s1.pcb child _ child).bits = _
        rw [Function.update_self, hv]
      · show (Function.update s1.btmp v _ (s.kernelAddr b)).len = _
        rw [hv, Function.update_self]
        exact hlen
    · exact .error _

/-- What a fork has left in the bitmap of the kernel: the directory of the child is the page `d`, and
its bitmap the pages from `b` on. The last of them was free. -/
structure CopyTook (s s' : Memory) (child parent : Addr) (b d : Nat) : Prop where
  space : s'.KernelSpace
  sameStart : s'.kernelVaddr.vaddrStart = s.kernelVaddr.vaddrStart
  sameLen : s'.kernelVaddr.vaddrBitmap.len = s.kernelVaddr.vaddrBitmap.len
  running : s'.running = s.running
  dir : (s'.pcb child).pgDir = some (s'.kernelAddr d)
  bits : (s'.pcb child).bits = s'.kernelAddr b
  len : (s'.btmp (s'.pcb child).bits).len = (s.btmp (s.pcb parent).bits).len
  b_lt : b < s'.kernelVaddr.vaddrBitmap.len
  d_lt : d < s'.kernelVaddr.vaddrBitmap.len
  d_ne : d ≠ b + 22
  before : s.kernelVaddr.vaddrBitmap.bit (b + 22) = false
  after : s'.kernelVaddr.vaddrBitmap.bit (b + 22) = true

theorem copyProcess_took (hk : s.KernelSpace) :
    Returns (copyProcess s child parent) fun r => r.1 = true → ∃ b d, CopyTook s r.2 child parent b d := by
  have hpages : userBitmapPages = 23 := by decide
  unfold copyProcess
  refine .bind (getKernelPages_took hk (Nat.le_refl 1) (by decide)) fun r1 hr1 => ?_
  obtain ⟨tran, s1⟩ := r1
  cases tran with
  | none => exact .ok nofun
  | some tran =>
    obtain ⟨t, ht⟩ := hr1 tran rfl
    refine .bind (copyPcbVaddrbitmapStack0_took (ht.space hk)) fun r2 hr2 => ?_
    obtain ⟨done, s2⟩ := r2
    cases done with
    | false => exact .ok nofun
    | true =>
      obtain ⟨b, hrange, hfree, hmark, hstart2, hrun2, hbits2, hlen2⟩ := hr2 rfl
      have hlen12 : s2.kernelVaddr.vaddrBitmap.len = s1.kernelVaddr.vaddrBitmap.len := hmark.1
      have hk2 : s2.KernelSpace := (ht.space hk).congr hstart2 hlen12
      refine .bind (createPageDir_took hk2) fun r3 hr3 => ?_
      obtain ⟨p, s3⟩ := r3
      cases p with
      | none => exact .ok nofun
      | some p =>
        obtain ⟨d, hd⟩ := hr3 p rfl
        have hk3 := hd.space hk2
        have hlen01 : s1.kernelVaddr.vaddrBitmap.len = s.kernelVaddr.vaddrBitmap.len := ht.marked.1
        have hlen23 : s3.kernelVaddr.vaddrBitmap.len = s2.kernelVaddr.vaddrBitmap.len := hd.marked.1
        have hstart1 := ht.start
        have hstart3 := hd.start
        -- the last page of the bitmap
        have hlast1 : s1.kernelVaddr.vaddrBitmap.bit (b + 22) = false := hfree 22 (by omega)
        have hlast2 : s2.kernelVaddr.vaddrBitmap.bit (b + 22) = true := by
          rw [hmark.2, if_pos (by omega)]
        obtain ⟨hlast0, htran⟩ := ht.other hlast1
        have hdir : d ≠ b + 22 := by
          intro he
          have hclear := hd.free 0 (by omega)
          rw [Nat.add_zero, he, hlast2] at hclear
          cases hclear
        have hlast3 : s3.kernelVaddr.vaddrBitmap.bit (b + 22) = true := by
          rw [hd.marked.2, hlast2, ite_self]
        dsimp only
        rw [if_neg (Option.some_ne_none p)]
        refine .bind (copyBodyBytes_same child parent tran _ _ _ 0 _) fun s4 h4 => ?_
        have hkvaddr4 : s4.kernelVaddr = s3.kernelVaddr := h4.kernelVaddr
        have hk4 : s4.KernelSpace := hk3.congr (by rw [hkvaddr4]) (by rw [hkvaddr4])
        have haddr : ∀ i, s4.kernelAddr i = s.kernelAddr i ∧ s2.kernelAddr i = s.kernelAddr i ∧
            s1.kernelAddr i = s.kernelAddr i := by
          intro i
          unfold Memory.kernelAddr
          rw [hkvaddr4, hstart3, hstart2, hstart1]
          exact ⟨rfl, rfl, rfl⟩
        have htrange := ht.range
        have hdrange := hd.range
        have hlen4 : s4.kernelVaddr.vaddrBitmap.len = s.kernelVaddr.vaddrBitmap.len := by
          rw [hkvaddr4]
          omega
        rw [ht.vaddr, ← (haddr t).1]
        refine .bind (mfreePage_gave hk4 (by omega) 1) fun s5 h5 => .ok fun _ => ⟨b, d, ?_⟩
        have hlen5 : s5.kernelVaddr.vaddrBitmap.len = s4.kernelVaddr.vaddrBitmap.len := h5.marked.1
        have haddr5 : ∀ i, s5.kernelAddr i = s4.kernelAddr i := fun i => by
          unfold Memory.kernelAddr
          rw [h5.start]
        have hrecord : s5.pcb child = { s2.pcb child with pgDir := some p } := by
          rw [h5.pcb, h4.pcb]
          show Function.update s3.pcb child _ child = _
          rw [Function.update_self, hd.pcb]
        refine ⟨h5.space hk4, ?_, ?_, ?_, ?_, ?_, ?_, ?_, ?_, hdir, hlast0, ?_⟩
        · rw [h5.start, hkvaddr4, hstart3, hstart2, hstart1]
        · rw [hlen5, hlen4]
        · rw [h5.running, h4.running]
          show s3.running = s.running
          rw [hd.running, hrun2, ht.running]
        · rw [hrecord, haddr5, (haddr d).1, ← (haddr d).2.1, ← hd.vaddr]
        · rw [hrecord, haddr5, (haddr b).1, ← (haddr b).2.2]
          exact hbits2
        · rw [hrecord]
          dsimp only
          rw [hbits2, h5.btmp, h4.btmp]
          show (s3.btmp _).len = _
          rw [hd.btmp, hlen2, ht.btmp, ht.pcb]
        · show b < s5.kernelVaddr.vaddrBitmap.len
          omega
        · show d < s5.kernelVaddr.vaddrBitmap.len
          omega
        · rw [h5.marked.2, if_neg (by omega), hkvaddr4]
          exact hlast3

/-- A fork that has succeeded; the record of the child is the page `c`. -/
theorem sysFork_took (hk : s.KernelSpace) :
    Returns s.sysFork fun r => ∀ child, r.1 = some child → ∃ s1 b c d,
      KernelTook s s1 1 c child ∧ CopyTook s1 r.2 child s.running b d := by
  unfold Memory.sysFork
  refine .bind (getKernelPages_took hk (Nat.le_refl 1) (by decide)) fun r1 hr1 => ?_
  obtain ⟨child, s1⟩ := r1
  cases child with
  | none => exact .ok nofun
  | some child =>
    obtain ⟨c, hc⟩ := hr1 child rfl
    dsimp only
    split
    · exact .error _
    · refine .bind (copyProcess_took (hc.space hk)) fun r2 hr2 => ?_
      obtain ⟨done, s2⟩ := r2
      cases done with
      | false => exact .ok nofun
      | true =>
        obtain ⟨b, d, hcopy⟩ := hr2 rfl
        refine .ok fun w hw => ?_
        cases hw
        exact ⟨s1, b, c, d, hc, hcopy⟩

/-! ## What is given back -/

theorem releasePtes_same (firstPteVaddrInPde : Addr) (n pteIdx : Nat) (s : Memory) :
    Returns (releasePtes firstPteVaddrInPde n pteIdx s) (SameRecords s) := by
  induction n generalizing pteIdx s with
  | zero => exact .ok (.refl s)
  | succ n ih =>
    unfold releasePtes
    refine .bind .any fun pte _ => ?_
    split
    · exact .bind (pfree_same s _) fun s1 h1 => (ih _ s1).mono fun s2 h2 => h1.trans h2
    · exact ih _ s

theorem releasePdes_same (pgdirVaddr : Addr) (n pdeIdx : Nat) (s : Memory) :
    Returns (releasePdes pgdirVaddr n pdeIdx s) (SameRecords s) := by
  induction n generalizing pdeIdx s with
  | zero => exact .ok (.refl s)
  | succ n ih =>
    unfold releasePdes
    refine .bind .any fun pde _ => ?_
    split
    · refine .bind (releasePtes_same _ 1024 0 s) fun s1 h1 => .bind (pfree_same s1 _) fun s2 h2 => ?_
      exact (ih _ s2).mono fun s3 h3 => (h1.trans h2).trans h3
    · exact ih _ s

theorem switchTo_same (s : Memory) (thread : Addr) :
    Returns (s.switchTo thread) fun s' => s'.kernelVaddr = s.kernelVaddr ∧ s'.pcb = s.pcb ∧
      s'.btmp = s.btmp := by
  unfold Memory.switchTo
  exact .bind (pageDirActivate_same s thread) fun s1 h1 => .ok ⟨h1.kernelVaddr, h1.pcb, h1.btmp⟩

/-- **`release_prog_resource`** gives back at most 22 pages of the bitmap. -/
theorem releaseProgResource_gave (hk : s.KernelSpace) {b : Nat} (hb : b < s.kernelVaddr.vaddrBitmap.len)
    (hbits : (s.pcb thread).bits = s.kernelAddr b)
    (hlen : (s.btmp (s.pcb thread).bits).len ≤ userBitmapLen) :
    Returns (releaseProgResource s thread) fun s' => ∃ cnt ≤ 22, KernelGave s s' cnt b := by
  unfold releaseProgResource
  refine .bind (releasePdes_same _ 768 0 s) fun s1 h1 => ?_
  have hk1 : s1.KernelSpace := hk.congr (by rw [h1.kernelVaddr]) (by rw [h1.kernelVaddr])
  have haddr : s.kernelAddr b = s1.kernelAddr b := by rw [Memory.kernelAddr, Memory.kernelAddr, h1.kernelVaddr]
  have hcnt : (s1.btmp (s1.pcb thread).bits).len / pgSize ≤ 22 := by
    have hmax : userBitmapLen = 94199 := by decide
    rw [h1.btmp, h1.pcb]
    unfold pgSize
    omega
  dsimp only
  generalize (s1.btmp (s1.pcb thread).bits).len / pgSize = cnt at hcnt
  rw [h1.pcb, hbits, haddr]
  refine (mfreePage_gave hk1 (by rw [h1.kernelVaddr]; exact hb) cnt).mono fun s2 h2 => ⟨cnt, hcnt, ?_⟩
  obtain ⟨hmark, hstart, hpcb, hbtmp, hrunning⟩ := h2
  rw [h1.kernelVaddr] at hmark hstart
  exact ⟨hmark, hstart, hpcb.trans h1.pcb, hbtmp.trans h1.btmp, hrunning.trans h1.running⟩

/-- **`thread_exit`** gives back the page of the directory and that of the record. -/
theorem threadExit_keeps (hk : s.KernelSpace) {c d j : Nat} (hc : c < s.kernelVaddr.vaddrBitmap.len)
    (hd : d < s.kernelVaddr.vaddrBitmap.len) (hthread : thread = s.kernelAddr c)
    (hdir : (s.pcb thread).pgDir = some (s.kernelAddr d)) (hjc : c ≠ j) (hjd : d ≠ j) (main : Addr) :
    Returns (s.threadExit main thread) fun s' =>
      s'.kernelVaddr.vaddrBitmap.bit j = s.kernelVaddr.vaddrBitmap.bit j := by
  unfold Memory.threadExit
  rw [hdir]
  refine .bind (mfreePage_gave hk hd 1) fun s1 h1 => ?_
  have hlen1 : s1.kernelVaddr.vaddrBitmap.len = s.kernelVaddr.vaddrBitmap.len := h1.marked.1
  have haddr : s.kernelAddr c = s1.kernelAddr c := by rw [Memory.kernelAddr, Memory.kernelAddr, h1.start]
  split
  · rw [hthread, haddr]
    refine (mfreePage_gave (h1.space hk) (by omega) 1).mono fun s2 h2 => ?_
    rw [h2.keeps (by omega), h1.keeps (by omega)]
  · exact .ok (h1.keeps (by omega))

/-- **A process loses a page.** Whatever a parent is, when it has reaped a child, a virtual page of
the kernel that was free before the fork is not free. -/
theorem forkExitWait_keepsLast (hk : s.KernelSpace)
    (hu : (s.btmp (s.pcb s.running).bits).len ≤ userBitmapLen) (main : Addr) :
    Returns (s.forkExitWait main) fun r => ∀ s', r = some s' → ∃ idx,
      s.kernelVaddr.vaddrBitmap.bit idx = false ∧ s'.kernelVaddr.vaddrBitmap.bit idx = true := by
  unfold Memory.forkExitWait
  refine .bind (sysFork_took hk) fun r hr => ?_
  obtain ⟨child, s2⟩ := r
  cases child with
  | none => exact .ok nofun
  | some child =>
    obtain ⟨s1, b, c, d, hc, h2⟩ := hr child rfl
    have hlen1 : s1.kernelVaddr.vaddrBitmap.len = s.kernelVaddr.vaddrBitmap.len := hc.marked.1
    have hsame2 : s2.kernelVaddr.vaddrBitmap.len = s1.kernelVaddr.vaddrBitmap.len := h2.sameLen
    have hstart2 : s2.kernelVaddr.vaddrStart = s1.kernelVaddr.vaddrStart := h2.sameStart
    have hcrange := hc.range
    obtain ⟨hlast, hout⟩ := hc.other h2.before
    refine .bind (switchTo_same s2 child) fun s3 h3 => ?_
    obtain ⟨hkvaddr3, hpcb3, hbtmp3⟩ := h3
    have hk3 : s3.KernelSpace := h2.space.congr (by rw [hkvaddr3]) (by rw [hkvaddr3])
    have haddr3 : ∀ i, s3.kernelAddr i = s2.kernelAddr i := fun i => by
      rw [Memory.kernelAddr, Memory.kernelAddr, hkvaddr3]
    have hb : b < s3.kernelVaddr.vaddrBitmap.len := by
      rw [hkvaddr3]
      exact h2.b_lt
    have hlen3 : (s3.btmp (s3.pcb child).bits).len ≤ userBitmapLen := by
      rw [hbtmp3, hpcb3]
      refine Nat.le_trans (Nat.le_of_eq h2.len) ?_
      rw [hc.btmp, hc.pcb]
      exact hu
    have hbits3 : (s3.pcb child).bits = s3.kernelAddr b := by
      rw [hpcb3, haddr3]
      exact h2.bits
    refine .bind (releaseProgResource_gave hk3 hb hbits3 hlen3) fun s4 h4 => ?_
    obtain ⟨cnt, hcnt, h4⟩ := h4
    refine .bind (switchTo_same s4 s.running) fun s5 h5 => ?_
    obtain ⟨hkvaddr5, hpcb5, -⟩ := h5
    have hlen4 : s4.kernelVaddr.vaddrBitmap.len = s3.kernelVaddr.vaddrBitmap.len := h4.marked.1
    have hk5 : s5.KernelSpace := (h4.space hk3).congr (by rw [hkvaddr5]) (by rw [hkvaddr5])
    have haddr5 : ∀ i, s5.kernelAddr i = s2.kernelAddr i := fun i => by
      rw [Memory.kernelAddr, Memory.kernelAddr, hkvaddr5, h4.start, hkvaddr3]
    have hlen5 : s5.kernelVaddr.vaddrBitmap.len = s2.kernelVaddr.vaddrBitmap.len := by
      rw [hkvaddr5, hlen4, hkvaddr3]
    have hdir5 : (s5.pcb child).pgDir = some (s5.kernelAddr d) := by
      rw [hpcb5, h4.pcb, hpcb3, haddr5]
      exact h2.dir
    have hchild : child = s5.kernelAddr c := by
      rw [hc.vaddr, haddr5, Memory.kernelAddr, Memory.kernelAddr, hstart2, hc.start]
    have hd : d < s2.kernelVaddr.vaddrBitmap.len := h2.d_lt
    have hcne : c ≠ b + 22 := by omega
    refine .bind (threadExit_keeps hk5 (by omega) (by omega) hchild hdir5 hcne h2.d_ne main) fun s6 h6 => .ok fun s' hs' => ?_
    cases hs'
    -- the last page of the bitmap was free and is not now
    refine ⟨b + 22, hlast, ?_⟩
    rw [h6, hkvaddr5, h4.keeps (by omega), hkvaddr3]
    exact h2.after

end Bits

end GwOS
