import GwOS.Kernel.Supply
import GwOS.Userprog.AddressSpace
import Mathlib.Data.Finset.Image

/-!
# Copying a process (`userprog/fork.c`)

`copy_process` gives the child a record, a bitmap and a directory of its own, and copies every
page that the bitmap of the parent marks. The two address spaces are never active together,
so a page goes through a page of the kernel, which both of them see.

- Of the two `struct pcb`s only what concerns pages is copied here; the stack that
  `build_child_stack` prepares lies in the page of the child's record.
- `copyBodyStack3_ok`: with enough memory the loops copy every page that is marked, byte by byte,
  into frames of their own, and leave the parent as it was.
-/

namespace GwOS

/-! ## The model -/

/-- `copy_pcb_vaddrbitmap_stack0`; `false` is the result `-1`. -/
def copyPcbVaddrbitmapStack0 (s : Memory) (child parent : Addr) : Except Fault (Bool × Memory) := do
  let s := { s with pcb := Function.update s.pcb child (s.pcb parent) }
  match ← getKernelPages s userBitmapPages with
  | (none, s) => .ok (false, s)
  | (some vaddrBtmp, s) =>
    let pages := s.pcb child
    if pages.name.length < 11 then
      .ok (true, { s with
        btmp := Function.update s.btmp vaddrBtmp (s.btmp pages.bits)
        pcb := Function.update s.pcb child
          { pages with bits := vaddrBtmp, name := pages.name ++ "_fork" } })
    else .error .assert

/-- The body of the inner loop of `copy_body_stack3`. What `get_one_page_no_bitmap` returns is
not looked at. -/
def copyBodyPage (s : Memory) (child parent tranPage progVaddr : Addr) : Except Fault Memory := do
  let m ← s.copyPage tranPage progVaddr
  let s ← pageDirActivate { s with toMachine := m } child
  let (_, s) ← getOnePageNoBitmap s .user progVaddr
  let m ← s.copyPage progVaddr tranPage
  pageDirActivate { s with toMachine := m } parent

/-- The inner loop of `copy_body_stack3`, with `n` bits to go from `idxBit` on. -/
def copyBodyBits (child parent tranPage vaddrBtmp vaddrStart : Addr) (idxByte : Nat) :
    (n idxBit : Nat) → Memory → Except Fault Memory
  | 0, _, s => .ok s
  | n + 1, idxBit, s => do
    match (s.btmp vaddrBtmp).bits[idxByte]? with
    | none => .error .outOfBounds
    | some byte =>
      if bitMask idxBit &&& byte != 0 then
        let progVaddr := BitVec.ofNat 32 ((idxByte * 8 + idxBit) * pgSize) + vaddrStart
        let s ← copyBodyPage s child parent tranPage progVaddr
        copyBodyBits child parent tranPage vaddrBtmp vaddrStart idxByte n (idxBit + 1) s
      else copyBodyBits child parent tranPage vaddrBtmp vaddrStart idxByte n (idxBit + 1) s

/-- The outer loop of `copy_body_stack3`, with `n` bytes to go from `idxByte` on. -/
def copyBodyBytes (child parent tranPage vaddrBtmp vaddrStart : Addr) :
    (n idxByte : Nat) → Memory → Except Fault Memory
  | 0, _, s => .ok s
  | n + 1, idxByte, s => do
    match (s.btmp vaddrBtmp).bits[idxByte]? with
    | none => .error .outOfBounds
    | some byte =>
      if byte != 0 then
        let s ← copyBodyBits child parent tranPage vaddrBtmp vaddrStart idxByte 8 0 s
        copyBodyBytes child parent tranPage vaddrBtmp vaddrStart n (idxByte + 1) s
      else copyBodyBytes child parent tranPage vaddrBtmp vaddrStart n (idxByte + 1) s

/-- `copy_body_stack3`. -/
def copyBodyStack3 (s : Memory) (child parent tranPage : Addr) : Except Fault Memory :=
  let vaddrBtmp := (s.pcb parent).bits
  copyBodyBytes child parent tranPage vaddrBtmp (s.pcb parent).vaddrStart (s.btmp vaddrBtmp).len 0 s

/-- `copy_process`; `false` is the result `-1`. -/
def copyProcess (s : Memory) (child parent : Addr) : Except Fault (Bool × Memory) := do
  match ← getKernelPages s 1 with
  | (none, s) => .ok (false, s)
  | (some tranPage, s) =>
    match ← copyPcbVaddrbitmapStack0 s child parent with
    | (false, s) => .ok (false, s)
    | (true, s) =>
      let (pgDir, s) ← createPageDir s
      let s := { s with pcb := Function.update s.pcb child { s.pcb child with pgDir } }
      if pgDir = none then .ok (false, s)
      else
        let s ← copyBodyStack3 s child parent tranPage
        let s ← mfreePage s .kernel tranPage 1
        .ok (true, s)

/-- `sys_fork`, up to the lists of the scheduler. The result is the record of the child, or
`-1`. -/
def Memory.sysFork (s : Memory) : Except Fault (Option Addr × Memory) := do
  let parent := s.running
  match ← getKernelPages s 1 with
  | (none, s) => .ok (none, s)
  | (some child, s) =>
    if (s.pcb parent).pgDir = none then .error .assert
    else
      match ← copyProcess s child parent with
      | (false, s) => .ok (none, s)
      | (true, s) => .ok (some child, s)

/-! ## The loops over the bitmap -/

section Loops

variable {child parent tranPage vaddrBtmp vaddrStart : Addr} {mp : Bitmap} {I : Nat → Memory → Prop}

/-- The address of the page that a bit stands for. -/
def progVaddr (vaddrStart : Addr) (idx : Nat) : Addr := BitVec.ofNat 32 (idx * pgSize) + vaddrStart

theorem bit_of_byte {byte : UInt8} {idxByte idxBit : Nat} (h : mp.bits[idxByte]? = some byte)
    (hlt : idxBit < 8) : (bitMask idxBit &&& byte != 0) = mp.bit (idxByte * 8 + idxBit) := by
  have hdiv : (idxByte * 8 + idxBit) / 8 = idxByte := by omega
  have hmod : (idxByte * 8 + idxBit) % 8 = idxBit % 8 := by omega
  rw [UInt8.and_comm, and_bitMask, Bitmap.bit, hdiv, h, hmod]

/-- What holds of the bits that the loops have gone through: `I idx` is for the bits below
`idx`. A step of the inner loop either copies a page or has none to copy. -/
structure CopyRule (child parent tranPage vaddrBtmp vaddrStart : Addr) (mp : Bitmap)
    (I : Nat → Memory → Prop) : Prop where
  btmp : ∀ idx s, I idx s → s.btmp vaddrBtmp = mp
  skip : ∀ idx s, I idx s → mp.bit idx = false → I (idx + 1) s
  copy : ∀ idx s, I idx s → mp.bit idx = true → ∃ s',
    copyBodyPage s child parent tranPage (progVaddr vaddrStart idx) = .ok s' ∧ I (idx + 1) s'

/-- One byte. -/
theorem copyBodyBits_rule (h : CopyRule child parent tranPage vaddrBtmp vaddrStart mp I)
    {idxByte : Nat} (hbyte : idxByte < mp.len) (n idxBit : Nat) (hn : idxBit + n = 8) (s : Memory)
    (hs : I (idxByte * 8 + idxBit) s) : ∃ s',
      copyBodyBits child parent tranPage vaddrBtmp vaddrStart idxByte n idxBit s = .ok s' ∧
        I (idxByte * 8 + 8) s' := by
  induction n generalizing idxBit s with
  | zero =>
    obtain rfl : idxBit = 8 := by omega
    exact ⟨s, rfl, hs⟩
  | succ n ih =>
    have hget : mp.bits[idxByte]? = some mp.bits[idxByte] := List.getElem?_eq_getElem hbyte
    have hbit := bit_of_byte hget (by omega : idxBit < 8)
    rw [copyBodyBits, h.btmp _ s hs, hget]
    cases hb : mp.bit (idxByte * 8 + idxBit) with
    | false =>
      dsimp only
      rw [hbit, hb]
      exact ih (idxBit + 1) (by omega) s (h.skip _ s hs hb)
    | true =>
      obtain ⟨s1, h1, hs1⟩ := h.copy _ s hs hb
      obtain ⟨s', h', hI⟩ := ih (idxBit + 1) (by omega) s1 hs1
      refine ⟨s', ?_, hI⟩
      dsimp only
      rw [hbit, hb, if_pos rfl]
      show (copyBodyPage s child parent tranPage (progVaddr vaddrStart (idxByte * 8 + idxBit)) >>= _) = _
      rw [h1]
      exact h'

/-- A byte of zeros has nothing to copy. -/
theorem CopyRule.skipByte (h : CopyRule child parent tranPage vaddrBtmp vaddrStart mp I)
    {idxByte : Nat} (hzero : mp.bits[idxByte]? = some 0) (n : Nat) (hn : n ≤ 8) {s : Memory}
    (hs : I (idxByte * 8) s) : I (idxByte * 8 + n) s := by
  induction n with
  | zero => exact hs
  | succ n ih =>
    refine h.skip _ s (ih (by omega)) ?_
    show mp.bit (idxByte * 8 + n) = false
    rw [← bit_of_byte hzero (by omega : n < 8)]
    simp

/-- **The loops of `copy_body_stack3`** go through all bits. -/
theorem copyBodyBytes_rule (h : CopyRule child parent tranPage vaddrBtmp vaddrStart mp I)
    (n idxByte : Nat) (hn : idxByte + n = mp.len) (s : Memory) (hs : I (idxByte * 8) s) : ∃ s',
      copyBodyBytes child parent tranPage vaddrBtmp vaddrStart n idxByte s = .ok s' ∧
        I (8 * mp.len) s' := by
  induction n generalizing idxByte s with
  | zero =>
    refine ⟨s, rfl, ?_⟩
    rw [← hn, Nat.add_zero, Nat.mul_comm]
    exact hs
  | succ n ih =>
    have hbyte : idxByte < mp.len := by omega
    have hget : mp.bits[idxByte]? = some mp.bits[idxByte] := List.getElem?_eq_getElem hbyte
    have hnext : idxByte * 8 + 8 = (idxByte + 1) * 8 := by omega
    rw [copyBodyBytes, h.btmp _ s hs, hget]
    by_cases hz : mp.bits[idxByte] = 0
    · rw [hz] at hget
      have hskip := h.skipByte hget 8 (Nat.le_refl 8) hs
      rw [hnext] at hskip
      dsimp only
      rw [hz]
      exact ih (idxByte + 1) (by omega) s hskip
    · obtain ⟨s1, h1, hs1⟩ := copyBodyBits_rule h hbyte 8 0 rfl s hs
      rw [hnext] at hs1
      obtain ⟨s', h', hI⟩ := ih (idxByte + 1) (by omega) s1 hs1
      refine ⟨s', ?_, hI⟩
      have hne : (mp.bits[idxByte] != 0) = true := by simpa using hz
      dsimp only
      rw [hne, if_pos rfl, h1]
      exact h'

end Loops

/-! ## Memory under management -/

/-- The invariant of the page tables, the pages that are owned, and the records. -/
structure Managed (s : Memory) (threads : List Addr) (D : Frame → Prop) (g : VPage → Frame)
    (L H : List VPage) : Prop where
  layout : Layout s D
  owned : Owned s D g L H
  records : Records s threads H D g

section Managed

variable {s s' s1 : Memory} {threads : List Addr} {D : Frame → Prop} {g : VPage → Frame}
  {L L' H N : List VPage} {v thread : Addr} {cnt : Nat} {f : Frame}

namespace Managed

theorem active (h : Managed s threads D g L H) : D s.cr3 := h.records.active h.layout.root

theorem vaddrsOk (h : Managed s threads D g L H) : VaddrsOk s (· ∈ threads) := h.records.vaddrsOk

theorem running (h : Managed s threads D g L H) : s.running ∈ threads := h.records.running

theorem steady (h : Managed s threads D g L H) (hl : Layout s' D) (ho : Owned s' D g L' H)
    (hst : Steady s s') : Managed s' threads D g L' H := ⟨hl, ho, h.records.steady hst⟩

theorem added (h : Managed s threads D g L H) (hadd : PagesAdded s s' D g L H N) :
    Managed s' threads D g (N ++ L) H := h.steady hadd.layout hadd.owned hadd.steady

/-- A record that belongs to no thread is filled in, and the bitmaps stay in their bounds. -/
theorem record (h : Managed s threads D g L H) (hnew : thread ∉ threads) (r : ProcPages)
    (btmp : Addr → Bitmap) (hlen : ∀ a, (s.btmp a).len ≤ userBitmapLen → (btmp a).len ≤ userBitmapLen) :
    Managed { s with pcb := Function.update s.pcb thread r, btmp } threads D g L H := by
  refine ⟨h.layout.congr (fun _ _ => rfl) rfl rfl, h.owned.congr (fun _ _ => rfl) (fun _ _ => rfl)
    (fun _ _ _ _ h => h), h.records.update hnew r _ fun t ht => ?_⟩
  have hne : t ≠ thread := fun he => hnew (he ▸ ht)
  have hpcb : Function.update s.pcb thread r t = s.pcb t := Function.update_of_ne hne ..
  obtain ⟨hstart, hal, hold⟩ := h.records.user t ht
  refine ⟨?_, ?_, ?_⟩
  · dsimp only
    rw [hpcb]
    exact hstart
  · dsimp only
    rw [hpcb]
    exact hal
  · dsimp only
    rw [hpcb]
    exact hlen _ hold

/-- **`get_kernel_pages`** with enough memory. -/
theorem kernelPages (h : Managed s threads D g L H) (hc : s.Clear) (hcnt : 1 ≤ cnt)
    (hmax : cnt < 3840) {j : Nat} (hj : j < s.kernelVaddr.vaddrBitmap.len - cnt)
    (hfree : s.kernelVaddr.vaddrBitmap.FreeAt j cnt) (hsupply : cnt ≤ s.kernelPool.spare.card) :
    ∃ v s' idx, getKernelPages s cnt = .ok (some v, s') ∧ KernelGot s s' D g L H cnt idx v ∧
      s'.userPool = s.userPool ∧ s.kernelPool.spare.card ≤ s'.kernelPool.spare.card + cnt := by
  have hlt : cnt < s.kernelVaddr.vaddrBitmap.len := by omega
  obtain ⟨v, s', hget, huser, hcard⟩ := getKernelPages_ok h.layout h.owned h.active h.vaddrsOk h.running
    hc hcnt hmax hlt hj hfree hsupply
  obtain ⟨idx, hgot⟩ := getKernelPages_got h.layout h.owned h.active h.vaddrsOk h.running hcnt hlt _ hget
    v rfl
  exact ⟨v, s', idx, hget, hgot, huser, hcard⟩

end Managed

/-! ## `create_page_dir` -/

/-- The new directory `f` at `v`: it has no pages of its own yet, and what was owned is as it was. -/
structure DirCreated (s s' : Memory) (threads : List Addr) (D : Frame → Prop) (g : VPage → Frame)
    (L H : List VPage) (v : Addr) (f : Frame) : Prop where
  high : 0xc0000000 ≤ v.toNat
  low : v.toNat < 0xffc00000
  managed : Managed s' threads (fun d => D d ∨ d = f) (Function.update g (vpage kernelDir v) f) L
    (vpage kernelDir v :: H)
  grew : Grew s s' D (L ++ H) [vpage kernelDir v]
  held : s'.frameAt (vpage kernelDir v) = some f
  isNew : ¬ D f
  empty : ∀ i : BitVec 10, i < 768 → s'.mem f i = 0
  pcb : s'.pcb = s.pcb
  btmp : s'.btmp = s.btmp
  running : s'.running = s.running
  userPool : s'.userPool = s.userPool
  kernelPool : s.kernelPool.spare.card ≤ s'.kernelPool.spare.card + 1
  clear : s'.Clear
  ranges : SameRanges s s'
  bits : ∃ idx, s.kernelVaddr.vaddrBitmap.SetRange s'.kernelVaddr.vaddrBitmap true idx 1 ∧
    ∀ j < idx, ¬ s.kernelVaddr.vaddrBitmap.FreeAt j 1
  start : s'.kernelVaddr.vaddrStart = s.kernelVaddr.vaddrStart
  cr3 : s'.cr3 = s.cr3
  run : s'.OwnRun 1 v

/-- **`create_page_dir`** with enough memory. -/
theorem Managed.createPageDir (h : Managed s threads D g L H) (hc : s.Clear) {j : Nat}
    (hj : j < s.kernelVaddr.vaddrBitmap.len - 1) (hfree : s.kernelVaddr.vaddrBitmap.FreeAt j 1)
    (hsupply : 1 ≤ s.kernelPool.spare.card) :
    ∃ v s' f, GwOS.createPageDir s = .ok (some v, s') ∧ DirCreated s s' threads D g L H v f := by
  obtain ⟨v, s1, idx, hget, hgot, huser, hcard⟩ := h.kernelPages hc (Nat.le_refl 1) (by decide) hj hfree
    hsupply
  have hhigh : 0xc0000000 ≤ v.toNat := Nat.le_trans h.records.high hgot.low
  have hlow : v.toNat < 0xffc00000 := by
    have hfits := hgot.fits
    unfold pgSize at hfits
    omega
  have hm1 := h.added hgot.added
  have hkey : vpage s1.cr3 v = vpage kernelDir v := vpage_kernel hhigh _
  have hk1 : vpage s1.cr3 v ∈ vpages kernelDir 1 v ++ L := by
    rw [hkey]
    exact List.mem_cons_self ..
  obtain ⟨f, hf, -⟩ := hm1.owned.mapped (vpage kernelDir v) (List.mem_cons_self ..)
  have hz := hgot.zero _ (List.mem_cons_self ..) f hf
  have hfD := hm1.owned.loose _ (List.mem_cons_self ..) f hf
  have hfill := fillDir_ok hm1.layout hm1.owned hm1.active hk1 hgot.aligned hlow (hkey ▸ hf) hz
  obtain ⟨hself, hshared, hlow'⟩ := dirPage_spec (s1.mem s1.cr3) f
  obtain ⟨hl2, ho2⟩ := Owned.newDir hm1.layout hm1.owned hm1.active hf hself hshared hlow'
  generalize hpage : dirPage (s1.mem s1.cr3) f = page at hfill hl2 ho2 hlow'
  have hwrite := hgot.added.write (m := s1.setFrame f page) rfl fun f' hf' => by
    refine s1.setFrame_mem_ne _ ?_
    rintro rfl
    exact hf' _ (List.mem_cons_self ..) hf
  have hheld := ho2.held _ (List.mem_cons_self ..)
  rw [Function.update_self] at hheld
  refine ⟨v, { s1 with toMachine := s1.setFrame f page }, f, ?_, hhigh, hlow, ⟨hl2, ho2, ?_⟩, hwrite.grew,
    ?_, hfD, fun i hi => ?_, hgot.pcb, hgot.btmp, hgot.running, huser, hcard, ?_, ?_, ⟨idx, hgot.marked, hgot.first⟩,
    hgot.added.steady.start, hgot.added.steady.cr3, (hgot.ownRun huser).congr ⟨rfl, rfl, rfl, rfl⟩ rfl rfl fun k hk => ?_⟩
  · rw [GwOS.createPageDir, hget]
    exact hfill
  · have hrec := (hm1.steady hwrite.layout hwrite.owned ⟨rfl, rfl, rfl, rfl, rfl, fun _ => rfl⟩).records
    refine hrec.grow (fun k hk => List.mem_cons_of_mem _ hk) (fun k hk => ?_) fun _ => .inl
    -- the page is a new one
    have hne : k ≠ vpage kernelDir v := by
      rintro rfl
      have hnd := (List.nodup_append'.mp ho2.nodup).2.1
      exact (List.nodup_cons.mp hnd).1 hk
    exact Function.update_of_ne hne ..
  · exact hheld
  · show (s1.setFrame f page).mem f i = 0
    rw [Machine.setFrame_mem_self]
    exact hlow' i hi
  · intro i hi hbit
    have hold := hgot.clear hc i hi hbit
    have hi' : i < 8 * s.kernelVaddr.vaddrBitmap.len := by
      rw [← hgot.added.steady.len]
      exact hi
    have hproper := h.vaddrsOk.proper_kernelPage h.layout hi'
    obtain ⟨-, -, hframe⟩ := Owned.write hm1.layout hm1.owned (N := [vpage kernelDir v])
      (fun k hk => List.mem_append_left _ hk) (m := s1.setFrame f page) fun f' hf' => by
        refine s1.setFrame_mem_ne _ ?_
        rintro rfl
        exact hf' _ (List.mem_cons_self ..) hf
    have hkeyi : s1.kernelPage i = s.kernelPage i := by
      rw [Memory.kernelPage, Memory.kernelPage, hgot.added.steady.start]
    rw [← hkeyi] at hproper
    exact (hframe _ hproper.dir hproper.window).trans hold
  · exact (getKernelPages_pools s 1 _ hget).1.trans ⟨rfl, rfl, rfl, rfl⟩
  · rw [List.mem_singleton.mp hk, hf]
    exact hheld

end Managed

/-! ## One page -/

/-- The situation in which the pages are copied: the parent runs, the child has a directory
`dc` of its own in which no page is entered, and `tranPage` is seen by both. -/
structure CopyBase (base : Memory) (threads : List Addr) (D : Frame → Prop) (g : VPage → Frame)
    (L H : List VPage) (child tranPage : Addr) (dc : Frame) : Prop where
  managed : Managed base threads D g L H
  parent : (base.pcb base.running).pgDir ≠ none
  parentDir : base.cr3 ≠ kernelDir
  child : ∃ p, (base.pcb child).pgDir = some p ∧ 0xc0000000 ≤ p.toNat ∧ p.toNat < 0xffc00000 ∧
    vpage kernelDir p ∈ H ∧ g (vpage kernelDir p) = dc
  isDir : D dc
  childDir : dc ≠ kernelDir
  other : dc ≠ base.cr3
  empty : ∀ i : BitVec 10, i < 768 → ¬ Present (base.mem dc i)
  tranHigh : 0xc0000000 ≤ tranPage.toNat
  tranLow : tranPage.toNat < 0xffc00000
  tranOwned : vpage kernelDir tranPage ∈ L

/-- The pages at `done` have been copied. -/
structure Copied (base s : Memory) (threads : List Addr) (D : Frame → Prop) (g : VPage → Frame)
    (L H : List VPage) (tranPage : Addr) (dc : Frame) (done : List Addr) : Prop where
  managed : Managed s threads D g (done.map (vpage dc) ++ L) H
  same : SameRecords base s
  ranges : SameRanges base s
  frame : ∀ k ∈ L ++ H, s.frameAt k = base.frameAt k
  data : ∀ k ∈ L, k ≠ vpage kernelDir tranPage → ∀ f, base.frameAt k = some f → s.mem f = base.mem f
  proper : ∀ k, ProperPage D k → k ∉ done.map (vpage dc) → s.frameAt k = base.frameAt k
  taken : ∀ f, base.Taken f → s.Taken f
  tables : ∀ i : BitVec 10, i < 768 → Present (s.mem dc i) → ¬ base.Taken (pageOf (s.mem dc i))
  copy : ∀ v ∈ done, ∃ f f', base.frameAt (vpage base.cr3 v) = some f ∧
    s.frameAt (vpage dc v) = some f' ∧ ¬ base.Taken f' ∧ s.mem f' = base.mem f

section Copy

variable {base s : Memory} {threads : List Addr} {D : Frame → Prop} {g : VPage → Frame}
  {L H : List VPage} {child tranPage v : Addr} {dc f : Frame} {done : List Addr}

theorem dirIdx_ne_of_low (hv : dirIdx v < 768) : dirIdx v ≠ 1023 := fun he =>
  absurd (he ▸ hv) (by decide)

/-- A page below the kernel. -/
theorem vpage_low (d : Frame) (hv : dirIdx v < 768) : vpage d v = (d, pageOf v) := by
  rw [vpage, if_neg (BitVec.not_le.mpr hv)]

/-- Nothing has been copied yet. -/
theorem CopyBase.start (hb : CopyBase base threads D g L H child tranPage dc) :
    Copied base base threads D g L H tranPage dc [] :=
  ⟨hb.managed, .refl base, .refl base, fun _ _ => rfl, fun _ _ _ _ _ => rfl, fun _ _ _ => rfl, fun _ h => h,
    fun i hi hp => absurd hp (hb.empty i hi), nofun⟩

/-- No page is entered in the new directory. -/
theorem CopyBase.unmapped (hb : CopyBase base threads D g L H child tranPage dc) (hv : dirIdx v < 768) :
    base.frameAt (vpage dc v) = none := by
  rw [Memory.frameAt_eq, if_neg]
  rintro ⟨hp, -⟩
  rw [Memory.pdeAt, dirIdx_vpage, vpage_low dc hv] at hp
  exact hb.empty _ hv hp

theorem Copied.cr3 (hb : CopyBase base threads D g L H child tranPage dc)
    (h : Copied base s threads D g L H tranPage dc done) : s.cr3 = base.cr3 := by
  rw [h.managed.records.current, hb.managed.records.current, Memory.dirFrame, Memory.dirFrame,
    h.same.running, h.same.pcb]

/-- The contents of the frame `src` are in the frame `dst` of a page that is owned, and the
directory `dir` is active. -/
structure PageMoved (s s' : Memory) (D : Frame → Prop) (g : VPage → Frame) (L H : List VPage)
    (src dst dir : Frame) : Prop where
  layout : Layout s' D
  owned : Owned s' D g L H
  cr3 : s'.cr3 = dir
  same : SameRecords s s'
  frame : ∀ k, D k.1 → dirIdx (addrOf k.2 0) ≠ 1023 → s'.frameAt k = s.frameAt k
  other : ∀ f, f ≠ dst → s'.mem f = s.mem f
  here : s'.mem dst = s.mem src
  kernelPool : s'.kernelPool = s.kernelPool
  userPool : s'.userPool = s.userPool

/-- `memcpy` into a page that is owned. -/
theorem copyPage_moved (hl : Layout s D) (ho : Owned s D g L H) (src : Frame) {dst : Frame} {k : VPage}
    (hk : k ∈ L) (hdst : s.frameAt k = some dst) (dir : Frame) :
    PageMoved s { s with toMachine := { s.setFrame dst (s.mem src) with cr3 := dir } } D g L H src dst
      dir := by
  obtain ⟨f, hf, -, htab⟩ := ho.mapped k (List.mem_append_left H hk)
  cases hdst.symm.trans hf
  have hD := ho.loose k hk dst hdst
  obtain ⟨hl', hframe⟩ := hl.setData hD htab (s.mem src)
  have ho' := Owned.setData hl ho hD htab (s.mem src)
  exact ⟨hl'.congr (fun _ _ => rfl) rfl rfl, ho'.congr (fun _ _ => rfl) (fun _ _ => rfl)
    fun _ _ _ _ h => h, rfl, ⟨rfl, rfl, rfl, rfl⟩, hframe, fun f hne => s.setFrame_mem_ne _ hne,
    s.setFrame_mem_self .., rfl, rfl⟩

theorem CopyBase.activateChild (hb : CopyBase base threads D g L H child tranPage dc) (hl : Layout s D)
    (hheld : ∀ k ∈ H, s.frameAt k = some (g k)) (hcr : D s.cr3) (hpcb : s.pcb = base.pcb) :
    pageDirActivate s child = .ok { s with cr3 := dc } := by
  obtain ⟨p, hp, hhigh, hlow, hH, hdir⟩ := hb.child
  rw [← hpcb] at hp
  rw [Records.pageDirActivate_ok hl hheld hcr fun p' hp' => by
    cases hp.symm.trans hp'
    exact ⟨hhigh, hlow, hH⟩]
  rw [Memory.dirFrame, hp]
  dsimp only
  rw [hdir]

theorem CopyBase.activateParent (hb : CopyBase base threads D g L H child tranPage dc)
    (hl : Layout s D) (hheld : ∀ k ∈ H, s.frameAt k = some (g k)) (hcr : D s.cr3)
    (hpcb : s.pcb = base.pcb) : pageDirActivate s base.running = .ok { s with cr3 := base.cr3 } := by
  have hrec := hb.managed.records
  rw [Records.pageDirActivate_ok hl hheld hcr fun p hp => by
    rw [hpcb] at hp
    have hproc := hrec.procs _ hrec.running p hp
    exact ⟨hproc.high, hproc.low, hproc.dir⟩]
  rw [hrec.current, Memory.dirFrame, Memory.dirFrame, hpcb]

/-- The call, put together from its parts. -/
theorem copyBodyPage_eq {child parent : Addr} {sa sb sc sd se : Memory} {m1 m2 : Machine}
    {r : Option Addr} (h1 : s.copyPage tranPage v = .ok m1) (ha : { s with toMachine := m1 } = sa)
    (h2 : pageDirActivate sa child = .ok sb) (h3 : getOnePageNoBitmap sb .user v = .ok (r, sc))
    (h4 : sc.copyPage v tranPage = .ok m2) (hd : { sc with toMachine := m2 } = sd)
    (h5 : pageDirActivate sd parent = .ok se) : copyBodyPage s child parent tranPage v = .ok se := by
  subst ha hd
  unfold copyBodyPage
  refine bind_eq_ok.mpr ⟨m1, h1, bind_eq_ok.mpr ⟨sb, h2, bind_eq_ok.mpr ⟨(r, sc), h3, ?_⟩⟩⟩
  exact bind_eq_ok.mpr ⟨m2, h4, h5⟩

/-- What the body of the loop has done with the page at `v`, whose frame is `f`: its contents
have gone to the transfer page in `ft` and from there to a new page of the child in `fn`. -/
structure PageCopied (s s' : Memory) (D : Frame → Prop) (g : VPage → Frame) (L H : List VPage)
    (dir dc : Frame) (v : Addr) (f ft : Frame) : Prop where
  copied : ∃ sb sc fn, PageMoved s sb D g L H f ft dc ∧ PagesAdded sb sc D g L H [vpage dc v] ∧
    SameRecords sb sc ∧ SameRanges sb sc ∧ sc.frameAt (vpage dc v) = some fn ∧
    PageMoved sc s' D g ([vpage dc v] ++ L) H ft fn dir
  user : s.userPool.spare.card ≤ s'.userPool.spare.card + 1
  here : Present (s.mem dc (dirIdx v)) → s'.kernelPool = s.kernelPool ∧ s'.mem dc = s.mem dc
  absent : ¬ Present (s.mem dc (dirIdx v)) → s.kernelPool.spare.card ≤ s'.kernelPool.spare.card + 1 ∧
    ∃ pt, ¬ s.Taken (pageOf pt) ∧
      ∀ i, s'.mem dc i = if i = dirIdx v then tableEntry pt else s.mem dc i

/-- **The body of the loop** returns when there are frames for the page and its table. -/
theorem copyBodyPage_ok (hb : CopyBase base threads D g L H child tranPage dc)
    (h : Copied base s threads D g L H tranPage dc done) (hv : dirIdx v < 768)
    (hsrc : s.frameAt (vpage base.cr3 v) = some f) (hnew : vpage dc v ∉ done.map (vpage dc)) {ft : Frame}
    (hft : s.frameAt (vpage kernelDir tranPage) = some ft) (huser : 0 < s.userPool.spare.card)
    (hkernel : ¬ Present (s.mem dc (dirIdx v)) → 0 < s.kernelPool.spare.card) :
    ∃ s', copyBodyPage s child base.running tranPage v = .ok s' ∧
      PageCopied s s' D g (done.map (vpage dc) ++ L) H base.cr3 dc v f ft := by
  have hvwin := dirIdx_ne_of_low hv
  have htwin := dirIdx_ne_of_le hb.tranLow
  have htkey := fun d => vpage_kernel hb.tranHigh d
  have htmem : vpage kernelDir tranPage ∈ done.map (vpage dc) ++ L := List.mem_append_right _ hb.tranOwned
  have hftD := h.managed.owned.loose _ htmem ft hft
  -- into the transfer page
  have hD := h.managed.active
  have hcopy1 : s.copyPage tranPage v = .ok (s.setFrame ft (s.mem f)) := by
    have hwv : s.walk v = some f := by rw [h.managed.layout.walk_eq hD hvwin, h.cr3 hb, hsrc]
    have hwt : s.walk tranPage = some ft := by rw [h.managed.layout.walk_eq hD htwin, htkey, hft]
    rw [Machine.copyPage, hwv, hwt]
  have hin := copyPage_moved h.managed.layout h.managed.owned f htmem hft s.cr3
  generalize hsa : ({ s with toMachine := s.setFrame ft (s.mem f) } : Memory) = sa
  have hina : PageMoved s sa D g (done.map (vpage dc) ++ L) H f ft s.cr3 := hsa ▸ hin
  have hact := hb.activateChild hina.layout hina.owned.held (hina.cr3 ▸ hD)
    (hina.same.pcb.trans h.same.pcb)
  have hinb := copyPage_moved h.managed.layout h.managed.owned f htmem hft dc
  have hsb : ({ sa with cr3 := dc } : Memory) =
      { s with toMachine := { s.setFrame ft (s.mem f) with cr3 := dc } } := by rw [← hsa]
  rw [← hsb] at hinb
  generalize ({ sa with cr3 := dc } : Memory) = sb at hact hinb
  -- a page of the child
  have hdcb : sb.mem dc = s.mem dc := hinb.other dc fun he => hftD (he ▸ hb.isDir)
  have hpde : sb.pde v = s.mem dc (dirIdx v) := by rw [Machine.pde, hinb.cr3, hdcb]
  have hproperv : ProperPage D (vpage dc v) :=
    h.managed.layout.proper_vpage hb.isDir hvwin fun _ => hb.childDir
  have hnone : sb.frameAt (vpage sb.cr3 v) = none := by
    rw [hinb.cr3, hinb.frame _ hproperv.dir hproperv.window, h.proper _ hproperv hnew]
    exact hb.unmapped hv
  obtain ⟨sc, hget, hadd, hsamec, huserc, hpresc, habsc⟩ := getOnePageNoBitmap_ok hinb.layout hinb.owned
    (hinb.cr3 ▸ hb.isDir) hv (hinb.cr3 ▸ hb.childDir) hnone (by rw [hinb.userPool]; exact huser)
    (by rw [hpde, hinb.kernelPool]; exact hkernel)
  rw [hinb.cr3] at hadd
  rw [hpde, hinb.kernelPool] at hpresc habsc
  rw [hinb.userPool] at huserc
  have hcr3c : sc.cr3 = dc := hadd.steady.cr3.trans hinb.cr3
  have hDc : D sc.cr3 := hcr3c ▸ hb.isDir
  have hpg := h.managed.owned.page _ (List.mem_append_left H htmem)
  have hftc : sc.frameAt (vpage kernelDir tranPage) = some ft := by
    rw [hadd.grew.frame _ (List.mem_append_left H htmem), hinb.frame _ hpg.1 hpg.2, hft]
  -- out of the transfer page
  obtain ⟨fn, hfn, -⟩ := hadd.owned.mapped (vpage dc v) (List.mem_cons_self ..)
  have hfnD := hadd.owned.loose _ (List.mem_cons_self ..) fn hfn
  have hcopy2 : sc.copyPage v tranPage = .ok (sc.setFrame fn (sc.mem ft)) := by
    have hwv : sc.walk v = some fn := by rw [hadd.layout.walk_eq hDc hvwin, hcr3c, hfn]
    have hwt : sc.walk tranPage = some ft := by rw [hadd.layout.walk_eq hDc htwin, htkey, hftc]
    rw [Machine.copyPage, hwv, hwt]
  have hout := copyPage_moved hadd.layout hadd.owned ft (List.mem_cons_self ..) hfn sc.cr3
  generalize hsd : ({ sc with toMachine := sc.setFrame fn (sc.mem ft) } : Memory) = sd
  have houtd : PageMoved sc sd D g ([vpage dc v] ++ (done.map (vpage dc) ++ L)) H ft fn sc.cr3 :=
    hsd ▸ hout
  have hactd := hb.activateParent houtd.layout houtd.owned.held (houtd.cr3 ▸ hDc)
    (houtd.same.pcb.trans (hsamec.pcb.trans (hinb.same.pcb.trans h.same.pcb)))
  have houte := copyPage_moved hadd.layout hadd.owned ft (List.mem_cons_self ..) hfn base.cr3
  have hse : ({ sd with cr3 := base.cr3 } : Memory) =
      { sc with toMachine := { sc.setFrame fn (sc.mem ft) with cr3 := base.cr3 } } := by rw [← hsd]
  rw [← hse] at houte
  generalize ({ sd with cr3 := base.cr3 } : Memory) = se at hactd houte
  have hdce : se.mem dc = sc.mem dc := houte.other dc fun he => hfnD (he ▸ hb.isDir)
  refine ⟨se, copyBodyPage_eq hcopy1 hsa hact hget hcopy2 hsd hactd,
    ⟨sb, sc, fn, hinb, hadd, hsamec, getOnePageNoBitmap_pools sb .user v _ hget, hfn, houte⟩, ?_, fun hp => ?_, fun hp => ?_⟩
  · rw [houte.userPool]
    exact huserc
  · obtain ⟨hk, hmem⟩ := hpresc hp
    exact ⟨houte.kernelPool.trans hk, by rw [hdce, hmem dc hb.isDir, hdcb]⟩
  · obtain ⟨hk, pt, hpt, hmem⟩ := habsc hp
    refine ⟨?_, pt, ?_, fun i => ?_⟩
    · rw [houte.kernelPool]
      exact hk
    · rw [Memory.Taken, hinb.kernelPool, hinb.userPool] at hpt
      exact hpt
    · rw [hdce, hmem dc hb.isDir i, hdcb, hinb.cr3]
      simp only [true_and]

/-- The pages that were owned before are not touched by the copy of another one. -/
theorem PageCopied.data {s' : Memory} {dir ft : Frame} (hc : PageCopied s s' D g L H dir dc v f ft)
    (hl : Owned s D g L H) {t : VPage} (ht : t ∈ L) (hft : s.frameAt t = some ft) :
    ∀ k ∈ L, k ≠ t → ∀ f', s.frameAt k = some f' → s'.mem f' = s.mem f' := by
  intro k hk hne f' hf'
  obtain ⟨sb, sc, fn, hin, hadd, -, -, hfn, hout⟩ := hc.copied
  have hkH := List.mem_append_left H hk
  have hpg := hl.page k hkH
  have hfb : sb.frameAt k = some f' := (hin.frame k hpg.1 hpg.2).trans hf'
  have hfc : sc.frameAt k = some f' := (hadd.grew.frame k hkH).trans hfb
  rw [hout.other f' ?_, hadd.grew.data k hkH f' hfb (hl.loose k hk f' hf'), hin.other f' ?_]
  · rintro rfl
    exact hne (hl.inj k hkH t (List.mem_append_left H ht) (hf'.trans hft.symm))
  · -- the frame of the new page is a new one
    rintro rfl
    have hkc : k ∈ ([vpage dc v] ++ L) ++ H := List.mem_cons_of_mem _ hkH
    have he := hadd.owned.inj k hkc _ (List.mem_cons_self ..) (hfc.trans hfn.symm)
    exact (List.nodup_cons.mp hadd.owned.nodup).1 (he ▸ hkH)

theorem PageCopied.frame {s' : Memory} {dir ft : Frame} (hc : PageCopied s s' D g L H dir dc v f ft)
    (hl : Owned s D g L H) : ∀ k ∈ L ++ H, s'.frameAt k = s.frameAt k := by
  intro k hk
  obtain ⟨sb, sc, fn, hin, hadd, -, -, hfn, hout⟩ := hc.copied
  have hpg := hl.page k hk
  rw [hout.frame k hpg.1 hpg.2, hadd.grew.frame k hk, hin.frame k hpg.1 hpg.2]

/-- **One page more** has been copied. -/
theorem Copied.step (hb : CopyBase base threads D g L H child tranPage dc)
    (h : Copied base s threads D g L H tranPage dc done) (hv : dirIdx v < 768)
    (hsrc : base.frameAt (vpage base.cr3 v) = some f) (hown : vpage base.cr3 v ∈ L) {s' : Memory}
    {ft : Frame} (hft : s.frameAt (vpage kernelDir tranPage) = some ft)
    (hc : PageCopied s s' D g (done.map (vpage dc) ++ L) H base.cr3 dc v f ft) :
    Copied base s' threads D g L H tranPage dc (done ++ [v]) := by
  have htmem : vpage kernelDir tranPage ∈ done.map (vpage dc) ++ L := List.mem_append_right _ hb.tranOwned
  have hdata := hc.data h.managed.owned htmem hft
  have hframe := hc.frame h.managed.owned
  have hpage : ∀ k ∈ L ++ H, k ∈ (done.map (vpage dc) ++ L) ++ H := fun k hk => by
    rw [List.append_assoc]
    exact List.mem_append_right _ hk
  have hproperv : ProperPage D (vpage dc v) :=
    h.managed.layout.proper_vpage hb.isDir (dirIdx_ne_of_low hv) fun _ => hb.childDir
  obtain ⟨sb, sc, fn, hin, hadd, hsame, hrange, hfn, hout⟩ := hc.copied
  have hsames : SameRecords s s' := (hin.same.trans hsame).trans hout.same
  have htaken : ∀ f', s.Taken f' ↔ sb.Taken f' := fun f' => by
    rw [Memory.Taken, Memory.Taken, hin.kernelPool, hin.userPool]
  have hperm : ([vpage dc v] ++ (done.map (vpage dc) ++ L)).Perm
      ((done ++ [v]).map (vpage dc) ++ L) := by
    rw [List.map_append, List.append_assoc]
    have hmid := @List.perm_middle _ (vpage dc v) (done.map (vpage dc)) L
    exact hmid.symm
  have hrec : Records s' threads H D g := by
    refine h.managed.records.steady ⟨hout.cr3.trans (h.cr3 hb).symm, hsames.pcb, hsames.running, ?_, ?_,
      fun a => ?_⟩
    · rw [hsames.kernelVaddr]
    · rw [hsames.kernelVaddr]
    · rw [hsames.btmp]
  have hranges : SameRanges s s' :=
    ((SameRanges.of_pools hin.kernelPool hin.userPool).trans hrange).trans
      (.of_pools hout.kernelPool hout.userPool)
  refine ⟨⟨hout.layout, hout.owned.perm hperm, hrec⟩, h.same.trans hsames, h.ranges.trans hranges,
    fun k hk => ?_,
    fun k hk hne f' hf' => ?_, fun k hk hN => ?_, fun f' hf' => ?_, fun i hi hp => ?_, fun w hw => ?_⟩
  · exact (hframe k (hpage k hk)).trans (h.frame k hk)
  · rw [← h.data k hk hne f' hf']
    exact hdata k (List.mem_append_right _ hk) hne f' ((h.frame k (List.mem_append_left H hk)).trans hf')
  · rw [List.map_append, List.mem_append, not_or] at hN
    rw [hout.frame k hk.dir hk.window, hadd.grew.proper k hk hN.2, hin.frame k hk.dir hk.window]
    exact h.proper k hk hN.1
  · have ht := hadd.grew.taken f' ((htaken f').mp (h.taken f' hf'))
    rw [Memory.Taken, hout.kernelPool, hout.userPool]
    exact ht
  · by_cases hhere : Present (s.mem dc (dirIdx v))
    · rw [(hc.here hhere).2] at hp ⊢
      exact h.tables i hi hp
    · obtain ⟨-, pt, hpt, hmem⟩ := hc.absent hhere
      rw [hmem] at hp ⊢
      split
      · -- the new table
        rw [pageOf_tableEntry]
        exact fun ht => hpt (h.taken _ ht)
      · next hne =>
        rw [if_neg hne] at hp
        exact h.tables i hi hp
  · rcases List.mem_append.mp hw with hw | hw
    · obtain ⟨f0, f1, h0, h1, hfree, hmem⟩ := h.copy w hw
      have hkw : vpage dc w ∈ done.map (vpage dc) := List.mem_map_of_mem hw
      have hkw' := List.mem_append_left L hkw
      refine ⟨f0, f1, h0, (hframe _ (List.mem_append_left H hkw')).trans h1, hfree, ?_⟩
      rw [← hmem]
      refine hdata _ hkw' (fun he => ?_) f1 h1
      -- the transfer page is not one of the child's
      have hnd := h.managed.owned.nodup
      rw [List.append_assoc] at hnd
      exact (List.nodup_append'.mp hnd).2.2 hkw (he ▸ List.mem_append_left H hb.tranOwned)
    · rw [List.mem_singleton.mp hw]
      refine ⟨f, fn, hsrc, ?_, fun ht => ?_, ?_⟩
      · rw [hout.frame _ hproperv.dir hproperv.window, hfn]
      · exact hadd.grew.fresh _ (List.mem_cons_self ..) fn hfn ((htaken fn).mp (h.taken fn ht))
      · have htH := List.mem_append_left H htmem
        have hpg := h.managed.owned.page _ htH
        have hftb : sb.frameAt (vpage kernelDir tranPage) = some ft :=
          (hin.frame _ hpg.1 hpg.2).trans hft
        rw [hout.here, hadd.grew.data _ htH ft hftb (h.managed.owned.loose _ htmem ft hft), hin.here]
        refine h.data _ hown (fun he => hb.parentDir ?_) f hsrc
        have hfst := congrArg Prod.fst he
        rw [vpage_low base.cr3 hv] at hfst
        rw [show base.cr3 = (vpage kernelDir tranPage).1 from hfst, vpage]
        split <;> rfl

end Copy

/-! ## The loop -/

section Loop

variable {base s : Memory} {threads : List Addr} {D : Frame → Prop} {g : VPage → Frame}
  {L H : List VPage} {child tranPage v start : Addr} {dc f : Frame} {mp : Bitmap} {idx : Nat}

/-- The bits that are set, from `idx` on. -/
def markedFrom (mp : Bitmap) (idx : Nat) : Finset Nat :=
  (Finset.range (8 * mp.len)).filter fun i => idx ≤ i ∧ mp.bit i = true

/-- The entries of the directory that the pages from `idx` on need. -/
def tablesFrom (mp : Bitmap) (start : Addr) (idx : Nat) : Finset (BitVec 10) :=
  (markedFrom mp idx).image fun i => dirIdx (progVaddr start i)

/-- Those that are not there yet. -/
def missingTables (mp : Bitmap) (start : Addr) (idx : Nat) (dir : Page) : Finset (BitVec 10) :=
  (tablesFrom mp start idx).filter fun i => ¬ Present (dir i)

/-- The pages that are marked below `idx`, in the order of the loop. -/
def markedBelow (mp : Bitmap) (start : Addr) (idx : Nat) : List Addr :=
  ((List.range idx).filter fun i => mp.bit i).map (progVaddr start)

theorem mem_markedBelow : v ∈ markedBelow mp start idx ↔
    ∃ i < idx, mp.bit i = true ∧ progVaddr start i = v := by
  simp only [markedBelow, List.mem_map, List.mem_filter, List.mem_range, and_assoc]

theorem markedBelow_succ (mp : Bitmap) (start : Addr) (idx : Nat) : markedBelow mp start (idx + 1) =
    if mp.bit idx = true then markedBelow mp start idx ++ [progVaddr start idx]
    else markedBelow mp start idx := by
  rw [markedBelow, List.range_succ, List.filter_append, List.map_append]
  split
  · next hb =>
    rw [List.filter_cons_of_pos hb]
    rfl
  · next hb =>
    rw [List.filter_cons_of_neg hb, List.filter_nil, List.map_nil, List.append_nil]
    rfl

theorem lt_of_bit (h : mp.bit idx = true) : idx < 8 * mp.len := by
  by_contra hge
  rw [Bitmap.bit_of_ge (Nat.not_lt.mp hge)] at h
  cases h

theorem markedFrom_subset (mp : Bitmap) (idx : Nat) : markedFrom mp (idx + 1) ⊆ markedFrom mp idx := by
  intro i hi
  obtain ⟨hrange, hle, hb⟩ := Finset.mem_filter.mp hi
  exact Finset.mem_filter.mpr ⟨hrange, by omega, hb⟩

theorem markedFrom_succ (h : mp.bit idx = true) :
    (markedFrom mp idx).card = (markedFrom mp (idx + 1)).card + 1 := by
  have hnot : idx ∉ markedFrom mp (idx + 1) := fun hi => by
    have hle := (Finset.mem_filter.mp hi).2.1
    omega
  have hins : markedFrom mp idx = insert idx (markedFrom mp (idx + 1)) := by
    ext i
    rw [Finset.mem_insert, markedFrom, markedFrom, Finset.mem_filter, Finset.mem_filter]
    constructor
    · rintro ⟨hrange, hle, hb⟩
      by_cases he : i = idx
      · exact .inl he
      · exact .inr ⟨hrange, by omega, hb⟩
    · rintro (rfl | ⟨hrange, hle, hb⟩)
      · exact ⟨Finset.mem_range.mpr (lt_of_bit h), Nat.le_refl _, h⟩
      · exact ⟨hrange, by omega, hb⟩
  rw [hins, Finset.card_insert_of_notMem hnot]

theorem missingTables_subset (mp : Bitmap) (start : Addr) (idx : Nat) {dir dir' : Page}
    (hdir : ∀ i, Present (dir i) → Present (dir' i)) :
    missingTables mp start (idx + 1) dir' ⊆ missingTables mp start idx dir := by
  intro i hi
  obtain ⟨hmem, hp⟩ := Finset.mem_filter.mp hi
  refine Finset.mem_filter.mpr ⟨?_, fun h => hp (hdir i h)⟩
  exact Finset.image_subset_image (markedFrom_subset mp idx) hmem

/-- The table of the page at `idx` is among those that are needed. -/
theorem mem_missingTables (h : mp.bit idx = true) {dir : Page}
    (hp : ¬ Present (dir (dirIdx (progVaddr start idx)))) :
    dirIdx (progVaddr start idx) ∈ missingTables mp start idx dir := by
  refine Finset.mem_filter.mpr ⟨Finset.mem_image_of_mem _ ?_, hp⟩
  exact Finset.mem_filter.mpr ⟨Finset.mem_range.mpr (lt_of_bit h), Nat.le_refl _, h⟩

/-- The pages that the bitmap of the parent marks are mapped, owned, and apart from each other. -/
structure MarkedPages (base : Memory) (L : List VPage) (mp : Bitmap) (start : Addr) : Prop where
  low : ∀ i, mp.bit i = true → dirIdx (progVaddr start i) < 768
  mapped : ∀ i, mp.bit i = true → ∃ f, base.frameAt (vpage base.cr3 (progVaddr start i)) = some f
  owned : ∀ i, mp.bit i = true → vpage base.cr3 (progVaddr start i) ∈ L
  inj : ∀ i j, mp.bit i = true → mp.bit j = true →
    pageOf (progVaddr start i) = pageOf (progVaddr start j) → i = j

/-- The invariant of the loop: the pages below `idx` have been copied, and there are frames
enough for the rest. -/
structure CopyLoop (base s : Memory) (threads : List Addr) (D : Frame → Prop) (g : VPage → Frame)
    (L H : List VPage) (tranPage : Addr) (dc : Frame) (mp : Bitmap) (start : Addr) (idx : Nat) :
    Prop where
  copied : Copied base s threads D g L H tranPage dc (markedBelow mp start idx)
  user : (markedFrom mp idx).card ≤ s.userPool.spare.card
  kernel : (missingTables mp start idx (s.mem dc)).card ≤ s.kernelPool.spare.card

theorem CopyLoop.skip (h : CopyLoop base s threads D g L H tranPage dc mp start idx)
    (hb : mp.bit idx = false) : CopyLoop base s threads D g L H tranPage dc mp start (idx + 1) := by
  refine ⟨?_, Nat.le_trans (Finset.card_le_card (markedFrom_subset mp idx)) h.user,
    Nat.le_trans (Finset.card_le_card (missingTables_subset mp start idx fun _ h => h)) h.kernel⟩
  rw [markedBelow_succ, hb, if_neg Bool.false_ne_true]
  exact h.copied

/-- **One round of the loop.** -/
theorem CopyLoop.copy (hb : CopyBase base threads D g L H child tranPage dc)
    (hm : MarkedPages base L mp start) (h : CopyLoop base s threads D g L H tranPage dc mp start idx)
    (hbit : mp.bit idx = true) : ∃ s',
      copyBodyPage s child base.running tranPage (progVaddr start idx) = .ok s' ∧
        CopyLoop base s' threads D g L H tranPage dc mp start (idx + 1) := by
  have hv := hm.low idx hbit
  obtain ⟨f, hsrc⟩ := hm.mapped idx hbit
  have hown := hm.owned idx hbit
  obtain ⟨ft, hft, -⟩ := h.copied.managed.owned.mapped _
    (List.mem_append_left H (List.mem_append_right _ hb.tranOwned))
  have hnew : vpage dc (progVaddr start idx) ∉ (markedBelow mp start idx).map (vpage dc) := by
    intro hmem
    obtain ⟨w, hw, he⟩ := List.mem_map.mp hmem
    obtain ⟨i, hi, hbi, rfl⟩ := mem_markedBelow.mp hw
    have hpage : pageOf (progVaddr start i) = pageOf (progVaddr start idx) := congrArg Prod.snd he
    have heq := hm.inj i idx hbi hbit hpage
    omega
  have hcard := markedFrom_succ hbit
  have huser := h.user
  obtain ⟨s', hcall, hc⟩ := copyBodyPage_ok hb h.copied hv
    ((h.copied.frame _ (List.mem_append_left H hown)).trans hsrc) hnew hft (by omega) fun hp =>
      Nat.lt_of_lt_of_le (Finset.card_pos.mpr ⟨_, mem_missingTables hbit hp⟩) h.kernel
  have huser' := hc.user
  refine ⟨s', hcall, ?_, by omega, ?_⟩
  · rw [markedBelow_succ, if_pos hbit]
    exact h.copied.step hb hv hsrc hown hft hc
  · by_cases hp : Present (s.mem dc (dirIdx (progVaddr start idx)))
    · obtain ⟨hpool, hmem⟩ := hc.here hp
      rw [hpool, hmem]
      exact Nat.le_trans (Finset.card_le_card (missingTables_subset mp start idx fun _ h => h)) h.kernel
    · -- the table that has been added is not needed any more
      obtain ⟨hpool, pt, -, hmem⟩ := hc.absent hp
      have hpres : ∀ i, Present (s.mem dc i) ∨ i = dirIdx (progVaddr start idx) →
          Present (s'.mem dc i) := by
        intro i hi
        rw [hmem]
        split
        · exact tableEntry_present pt
        · next hne => exact hi.resolve_right hne
      have hsub : missingTables mp start (idx + 1) (s'.mem dc) ⊆
          (missingTables mp start idx (s.mem dc)).erase (dirIdx (progVaddr start idx)) := by
        intro i hi
        refine Finset.mem_erase.mpr ⟨?_, missingTables_subset mp start idx (fun i h => ?_) hi⟩
        · rintro rfl
          exact (Finset.mem_filter.mp hi).2 (hpres _ (.inr rfl))
        · exact hpres i (.inl h)
      have hle := Finset.card_le_card hsub
      rw [Finset.card_erase_of_mem (mem_missingTables hbit hp)] at hle
      have hmiss : _ ∈ missingTables mp start idx (s.mem dc) := mem_missingTables hbit hp
      have hpos := Finset.card_pos.mpr ⟨_, hmiss⟩
      have hkernel := h.kernel
      omega

/-- **`copy_body_stack3`** copies all pages that the bitmap marks. -/
theorem copyBodyStack3_ok (hb : CopyBase base threads D g L H child tranPage dc)
    (hm : MarkedPages base L (base.btmp (base.pcb base.running).bits) (base.pcb base.running).vaddrStart)
    (huser : (markedFrom (base.btmp (base.pcb base.running).bits) 0).card ≤ base.userPool.spare.card)
    (hkernel : (tablesFrom (base.btmp (base.pcb base.running).bits)
      (base.pcb base.running).vaddrStart 0).card ≤ base.kernelPool.spare.card) :
    ∃ s', copyBodyStack3 base child base.running tranPage = .ok s' ∧
      Copied base s' threads D g L H tranPage dc (markedBelow (base.btmp (base.pcb base.running).bits)
        (base.pcb base.running).vaddrStart (8 * (base.btmp (base.pcb base.running).bits).len)) := by
  generalize hstart : (base.pcb base.running).vaddrStart = start at *
  generalize hbits : (base.pcb base.running).bits = bits at *
  generalize hmp : base.btmp bits = mp at *
  have hrule : CopyRule child base.running tranPage bits start mp fun idx s =>
      CopyLoop base s threads D g L H tranPage dc mp start idx := by
    refine ⟨fun idx s hs => ?_, fun idx s hs hbit => hs.skip hbit,
      fun idx s hs hbit => CopyLoop.copy hb hm hs hbit⟩
    rw [hs.copied.same.btmp, hmp]
  have h0 : CopyLoop base base threads D g L H tranPage dc mp start (0 * 8) := by
    refine ⟨hb.start, huser, Nat.le_trans (Finset.card_le_card ?_) hkernel⟩
    exact Finset.filter_subset _ _
  obtain ⟨s', hs', hI⟩ := copyBodyBytes_rule hrule mp.len 0 (Nat.zero_add _) base h0
  refine ⟨s', ?_, hI.copied⟩
  rw [copyBodyStack3, hbits, hstart, hmp]
  exact hs'

end Loop

end GwOS
