import GwOS.Kernel.Allocation
import GwOS.Userprog.Process
import Mathlib.Data.List.Nodup

/-!
# Processes and their page directories

`create_page_dir` adds a directory to the layout (`Owned.newDir`), and with it
`process_execute` adds a process. `PageState.Valid` is the invariant of runs from boot, in which the kernel
and the processes take pages and give them back in any order: `boot_valid` and `Valid.step`.
-/

namespace GwOS

section Keep

variable {s s' : Memory} {D : Frame → Prop} {g : VPage → Frame} {L H K : List VPage} {v : Addr}
  {k : VPage} {f : Frame} {P : Addr → Prop} {cnt : Nat}

/-- Pages that are owned are put aside. -/
theorem Owned.hold (h : Owned s D g (K ++ L) H) :
    ∃ g', (∀ k ∈ H, g' k = g k) ∧ Owned s D g' L (K ++ H) := by
  have hperm : (L ++ (K ++ H)).Perm ((K ++ L) ++ H) := by
    rw [← List.append_assoc]
    exact List.perm_append_comm.append_right H
  have hmem : ∀ k, k ∈ L ++ (K ++ H) ↔ k ∈ (K ++ L) ++ H := fun k => hperm.mem_iff
  have hdisj : ∀ k ∈ H, k ∉ K := fun k hk hK =>
    (List.nodup_append'.mp h.nodup).2.2 (List.mem_append_left _ hK) hk
  refine ⟨fun k => if k ∈ K then (s.frameAt k).getD 0 else g k, fun k hk => if_neg (hdisj k hk), ?_⟩
  refine ⟨fun k hk => h.page k ((hmem k).mp hk), fun k hk => h.mapped k ((hmem k).mp hk),
    fun k hk k' hk' => h.inj k ((hmem k).mp hk) k' ((hmem k').mp hk'), hperm.nodup_iff.mpr h.nodup,
    fun k hk => h.loose k (List.mem_append_right _ hk), fun k hk => ?_⟩
  rcases List.mem_append.mp hk with hK | hH
  · obtain ⟨f, hf, -⟩ := h.mapped k (List.mem_append_left _ (List.mem_append_left _ hK))
    rw [if_pos hK, hf]
    rfl
  · rw [if_neg (hdisj k hH)]
    exact h.held k hH

/-- A page is filled in as a directory: the upper quarter is that of a directory, the last
entry names the frame itself, and the rest is empty. -/
theorem Owned.newDir (hl : Layout s D) (ho : Owned s D g (k :: L) H) (hcr : D s.cr3)
    (hf : s.frameAt k = some f) {page : Page} (hself : Present (page 1023) ∧ pageOf (page 1023) = f)
    (hshared : ∀ i : BitVec 10, 768 ≤ i → i ≠ 1023 → page i = s.mem s.cr3 i)
    (hlow : ∀ i : BitVec 10, i < 768 → page i = 0) :
    Layout { s with toMachine := s.setFrame f page } (fun d => D d ∨ d = f) ∧
      Owned { s with toMachine := s.setFrame f page } (fun d => D d ∨ d = f)
        (Function.update g k f) L (k :: H) := by
  have hk : k ∈ (k :: L) ++ H := List.mem_cons_self ..
  obtain ⟨f0, hf0, htaken, htab⟩ := ho.mapped k hk
  cases hf.symm.trans hf0
  have hD := ho.loose k (List.mem_cons_self ..) f hf
  obtain ⟨hl1, hframe⟩ := hl.setData hD htab page
  generalize hs' : ({ s with toMachine := s.setFrame f page } : Memory) = s' at hl1 hframe
  have hdir : ∀ d, D d → s'.mem d = s.mem d := fun d hd => by
    rw [← hs']
    exact s.setFrame_mem_ne page fun he => hD (he ▸ hd)
  have hnew : s'.mem f = page := by
    rw [← hs']
    exact s.setFrame_mem_self ..
  have habsent : ∀ i : BitVec 10, i < 768 → ¬ Present (s'.mem f i) := fun i hi => by
    rw [hnew, hlow i hi]
    simp [Present]
  -- the new directory names no new tables
  have htabs : ∀ f', IsTable s'.toMachine (fun d => D d ∨ d = f) f' → IsTable s.toMachine D f' := by
    rintro f' ⟨d, hd | rfl, i, hi, hp, he⟩
    · rw [hdir d hd] at hp he
      exact ⟨d, hd, i, hi, hp, he⟩
    · by_cases hlt : i < 768
      · exact absurd hp (habsent i hlt)
      · rw [hnew, hshared i (BitVec.not_lt.mp hlt) hi] at hp he
        exact ⟨s.cr3, hcr, i, hi, hp, he⟩
  have hperm : (L ++ k :: H).Perm ((k :: L) ++ H) := List.perm_middle
  have hmem : ∀ k', k' ∈ L ++ k :: H ↔ k' ∈ (k :: L) ++ H := fun k' => hperm.mem_iff
  have hsame : ∀ k' ∈ (k :: L) ++ H, s'.frameAt k' = s.frameAt k' := fun k' hk' =>
    hframe k' (ho.page k' hk').1 (ho.page k' hk').2
  have hkL : k ∉ L ++ H := (List.nodup_cons.mp ho.nodup).1
  have htk : s'.Taken = s.Taken := by rw [← hs']; rfl
  constructor
  · refine ⟨hl1.kernelOk, hl1.userOk, hl1.low, hl1.order, .inl hl.root, ?_, ?_, ?_, ?_, ?_⟩
    · rintro d (hd | rfl)
      · exact hl1.dirs d hd
      · exact .inr (htk ▸ htaken)
    · rintro d (hd | rfl)
      · exact hl1.self d hd
      · rw [hnew]
        exact hself
    · rintro d (hd | rfl) i hi hi'
      · exact hl1.shared d hd i hi hi'
      · rw [hnew, hshared i hi hi']
        exact hl.shared _ hcr i hi hi'
    · rintro d (hd | rfl) i hi hp
      · have hT : IsTable s'.toMachine (fun d => D d ∨ d = f) (pageOf (s'.mem d i)) :=
          ⟨d, .inl hd, i, fun he => absurd (he ▸ hi) (by decide), hp, rfl⟩
        refine (hl1.tables d hd i hi hp).imp id fun h => ⟨h.1, ?_⟩
        rintro (hDt | he)
        · exact h.2 hDt
        · exact htab (he ▸ htabs _ hT)
      · exact absurd hp (habsent i hi)
    · rintro d d' (hd | rfl) (hd' | rfl) i i' hi hi' hp hp'
      · exact hl1.inj d d' hd hd' i i' hi hi' hp hp'
      · exact absurd hp' (habsent i' hi')
      · exact absurd hp (habsent i hi)
      · exact absurd hp (habsent i hi)
  · refine ⟨fun k' hk' => ?_, fun k' hk' => ?_, fun k' hk' k'' hk'' he => ?_,
      hperm.nodup_iff.mpr ho.nodup, fun k' hk' f' hf' => ?_, fun k' hk' => ?_⟩
    · exact ⟨.inl (ho.page k' ((hmem k').mp hk')).1, (ho.page k' ((hmem k').mp hk')).2⟩
    · obtain ⟨f', hf', ht', htab'⟩ := ho.mapped k' ((hmem k').mp hk')
      exact ⟨f', (hsame k' ((hmem k').mp hk')).trans hf', htk ▸ ht', fun hT => htab' (htabs f' hT)⟩
    · rw [hsame k' ((hmem k').mp hk'), hsame k'' ((hmem k'').mp hk'')] at he
      exact ho.inj k' ((hmem k').mp hk') k'' ((hmem k'').mp hk'') he
    · have hk'' := List.mem_append_left H (List.mem_cons_of_mem k hk')
      rw [hsame k' hk''] at hf'
      rintro (hd | rfl)
      · exact ho.loose k' (List.mem_cons_of_mem _ hk') f' hf' hd
      · have he := ho.inj k' hk'' k hk (hf'.trans hf.symm)
        exact hkL (he ▸ List.mem_append_left _ hk')
    · rcases List.mem_cons.mp hk' with rfl | hk'
      · rw [hsame k' hk, hf, Function.update_self]
      · have hne : k' ≠ k := fun he => hkL (he ▸ List.mem_append_right _ hk')
        rw [hsame k' (List.mem_append_right _ hk'), Function.update_of_ne hne]
        exact ho.held k' hk'

/-- The contents of a new directory. -/
def dirPage (kernel : Page) (f : Frame) : Page :=
  Function.update (fun i => if 768 ≤ i then kernel i else 0) 1023 (tableEntry (addrOf f 0))

/-- The last word of a page. -/
theorem lastWord (hal : v.toNat % pgSize = 0) (hv : v.toNat < 0xffc00000) :
    pageOf (v + 1023 * 4) = pageOf v ∧ wordIdx (v + 1023 * 4) = 1023 := by
  have hnat : (v + 1023 * 4).toNat = v.toNat + 4092 := by
    rw [BitVec.toNat_add]
    have h4 : (1023 * 4 : Addr).toNat = 4092 := rfl
    omega
  unfold pgSize at hal
  refine ⟨?_, ?_⟩
  · apply BitVec.eq_of_toNat_eq
    rw [pageOf_toNat, pageOf_toNat, hnat]
    omega
  · apply BitVec.eq_of_toNat_eq
    rw [wordIdx, BitVec.extractLsb'_toNat, Nat.shiftRight_eq_div_pow, hnat]
    show _ = 1023
    omega

/-- The stores of `create_page_dir` into an empty page. -/
theorem fillDir_ok (hl : Layout s D) (ho : Owned s D g L H) (hcr : D s.cr3)
    (hk : vpage s.cr3 v ∈ L) (hal : v.toNat % pgSize = 0) (hv : v.toNat < 0xffc00000)
    (hf : s.frameAt (vpage s.cr3 v) = some f) (hz : s.mem f = fun _ => 0) :
    (do
      let m ← s.copyKernelEntries v
      let newPageDirPhyAddr ← addrVir2phy m v
      let m ← m.store (v + 1023 * 4) (tableEntry newPageDirPhyAddr)
      .ok (some v, { s with toMachine := m }) : Except Fault (Option Addr × Memory)) =
      .ok (some v, { s with toMachine := s.setFrame f (dirPage (s.mem s.cr3) f) }) := by
  have hne := dirIdx_ne_of_le hv
  obtain ⟨f0, hf0, -, htab⟩ := ho.mapped _ (List.mem_append_left H hk)
  cases hf.symm.trans hf0
  have hD := ho.loose _ hk f hf
  have hwalk : s.walk v = some f := by
    rw [← hf, hl.frameAt_vpage hcr hne]
    rfl
  have hdirwalk : s.walk 0xfffff000 = some s.cr3 := (hl.selfMapped hcr).walk_pdePtr 0
  generalize hp1 : (fun i : BitVec 10 => if 768 ≤ i then s.mem s.cr3 i else s.mem f i) = p1
  have hcopy : s.copyKernelEntries v = .ok (s.setFrame f p1) := by
    rw [Machine.copyKernelEntries, hdirwalk, hwalk, ← hp1]
  obtain ⟨hl1, hframe1⟩ := hl.setData hD htab p1
  generalize hs1 : ({ s with toMachine := s.setFrame f p1 } : Memory) = s1 at hl1 hframe1
  have hm1 : s1.toMachine = s.setFrame f p1 := by rw [← hs1]
  have hcr1 : s1.cr3 = s.cr3 := by rw [hm1]; rfl
  have hwalk1 : s1.walk v = some f := by
    have hpage := ho.page _ (List.mem_append_left H hk)
    rw [← hf, ← hframe1 _ hpage.1 hpage.2, ← hcr1, hl1.frameAt_vpage (hcr1 ▸ hcr) hne]
    rfl
  have hself1 := hl1.selfMapped (hcr1 ▸ hcr)
  have htr : s1.translate v = some (addrOf f (offsetOf v)) := by
    rw [Machine.translate, hwalk1]
    rfl
  have hoff : offsetOf v = 0 := by
    apply BitVec.eq_of_toNat_eq
    rw [offsetOf_toNat]
    exact hal
  have hphy : addrVir2phy (s.setFrame f p1) v = .ok (addrOf f 0) := by
    rw [← hm1, ← hoff]
    exact hself1.addrVir2phy_eq htr
  obtain ⟨hpage, hword⟩ := lastWord hal hv
  have hstore : (s.setFrame f p1).store (v + 1023 * 4) (tableEntry (addrOf f 0)) =
      .ok ((s.setFrame f p1).setWord f 1023 (tableEntry (addrOf f 0))) := by
    rw [Machine.store, Machine.walk_eq_of_pageOf _ hpage, ← hm1, hwalk1, hword]
  have hend : (s.setFrame f p1).setWord f 1023 (tableEntry (addrOf f 0)) =
      s.setFrame f (dirPage (s.mem s.cr3) f) := by
    rw [Machine.setWord, Machine.setFrame_mem_self, Machine.setFrame, Machine.setFrame,
      Function.update_idem, dirPage, ← hp1, hz]
    rfl
  simp only [hcopy, hphy, hstore, hend, bind, Except.bind]

theorem dirPage_spec (kernel : Page) (f : Frame) :
    (Present (dirPage kernel f 1023) ∧ pageOf (dirPage kernel f 1023) = f) ∧
    (∀ i : BitVec 10, 768 ≤ i → i ≠ 1023 → dirPage kernel f i = kernel i) ∧
    ∀ i : BitVec 10, i < 768 → dirPage kernel f i = 0 := by
  refine ⟨?_, fun i hi hne => ?_, fun i hi => ?_⟩
  · rw [dirPage, Function.update_self]
    refine ⟨tableEntry_present _, ?_⟩
    rw [pageOf_tableEntry, pageOf_addrOf]
  · rw [dirPage, Function.update_of_ne hne, if_pos hi]
  · have hne : i ≠ 1023 := fun he => absurd (he ▸ hi) (by decide)
    rw [dirPage, Function.update_of_ne hne, if_neg (BitVec.not_le.mpr hi)]

/-- **`create_page_dir`**: one more directory. -/
theorem createPageDir_keeps (hl : Layout s D) (ho : Owned s D g L H) (hcr : D s.cr3)
    (hva : VaddrsOk s P) (hrun : P s.running) (hlt : 1 < s.kernelVaddr.vaddrBitmap.len) :
    Returns (createPageDir s) fun r => Steady s r.2 ∧
      match r.1 with
      | none => Layout r.2 D ∧ Owned r.2 D g L H
      | some v => 0xc0000000 ≤ v.toNat ∧ v.toNat < 0xffc00000 ∧
          ∃ f, r.2.frameAt (vpage kernelDir v) = some f ∧
            r.2.mem f = dirPage (r.2.mem s.cr3) f ∧ Layout r.2 (fun d => D d ∨ d = f) ∧
            Owned r.2 (fun d => D d ∨ d = f) (Function.update g (vpage kernelDir v) f) L
              (vpage kernelDir v :: H) := by
  unfold createPageDir
  refine .bind (getKernelPages_keeps hl ho hcr hva hrun (Nat.le_refl 1) hlt) fun r hr => ?_
  obtain ⟨v, s1⟩ := r
  obtain ⟨hl1, hst1, hr⟩ := hr
  cases v with
  | none => exact .ok ⟨hst1, hl1, hr⟩
  | some v =>
    obtain ⟨ho1, hzero, hlow, hal, hend⟩ := hr
    have hhigh : 0xc0000000 ≤ v.toNat := Nat.le_trans hva.high hlow
    have hwin : v.toNat < 0xffc00000 := by
      have hk := hva.kernel
      unfold pgSize at *
      omega
    have hkey := vpage_kernel hhigh s.cr3
    have ho1' : Owned s1 D g (vpage s1.cr3 v :: L) H := hst1.cr3 ▸ ho1
    have hcr1 : D s1.cr3 := hst1.cr3 ▸ hcr
    obtain ⟨f, hf, -⟩ := ho1'.mapped _ (List.mem_cons_self ..)
    have hz := hzero _ (List.mem_cons_self ..) f (hst1.cr3 ▸ hf)
    have hfill := fillDir_ok hl1 ho1' hcr1 (List.mem_cons_self ..) hal hwin hf hz
    obtain ⟨hself, hshared, hlow'⟩ := dirPage_spec (s1.mem s1.cr3) f
    obtain ⟨hl2, ho2⟩ := Owned.newDir hl1 ho1' hcr1 hf hself hshared hlow'
    have hfne : s.cr3 ≠ f := fun he => ho1'.loose _ (List.mem_cons_self ..) f hf (he ▸ hcr)
    dsimp only
    rw [hfill]
    rw [hst1.cr3, hkey] at ho2
    refine .ok ⟨hst1.trans ⟨rfl, rfl, rfl, rfl, rfl, fun _ => rfl⟩, hhigh, hwin, f, ?_, ?_, ?_, ?_⟩
    · have hheld := ho2.held _ (List.mem_cons_self ..)
      rw [Function.update_self] at hheld
      rw [← hst1.cr3] at hheld
      exact hheld
    · show (s1.setFrame f _).mem f = dirPage ((s1.setFrame f _).mem s.cr3) f
      rw [Machine.setFrame_mem_self, Machine.setFrame_mem_ne _ _ hfne, hst1.cr3]
    · exact hl2
    · rw [← hst1.cr3] at ho2
      exact ho2

end Keep

/-! ## Runs -/

/-- A live allocation: `cnt` pages from `vaddr` on, made while `dir` was active. -/
structure Alloc where
  dir : Frame
  pf : PoolFlag
  vaddr : Addr
  cnt : Nat
  deriving DecidableEq

/-- The pages of an allocation. -/
def Alloc.pages (a : Alloc) : List VPage := vpages a.dir a.cnt a.vaddr

/-- An allocation of the kernel. -/
def kernelAlloc (vaddr : Addr) (cnt : Nat) : Alloc := ⟨kernelDir, .kernel, vaddr, cnt⟩

/-- The memory, the threads that there are, and the allocations that have been made. Those
that a process consists of are kept apart from those that may be released. -/
structure PageState where
  mem : Memory
  threads : List Addr
  live : List Alloc
  held : List Alloc

/-- What the kernel and the processes do with pages. -/
inductive PageOp where
  | mallocPage (pf : PoolFlag) (cnt : Nat)
  | getOnePage (pf : PoolFlag) (vaddr : Addr)
  | getOnePageNoBitmap (pf : PoolFlag) (vaddr : Addr)
  | mfreePage (a : Alloc)
  /-- The scheduler switches to another thread. -/
  | activate (thread : Addr)
  | processExecute (name : String)

namespace PageState

/-- The pages of all allocations. -/
def livePages (st : PageState) : List VPage := st.live.flatMap Alloc.pages

def heldPages (st : PageState) : List VPage := st.held.flatMap Alloc.pages

/-- The pages from `vaddr` on have been returned, or `NULL`. -/
def enter (st : PageState) (pf : PoolFlag) (cnt : Nat) : Option Addr × Memory → PageState
  | (none, s) => { st with mem := s }
  | (some vaddr, s) => { st with mem := s, live := ⟨st.mem.cr3, pf, vaddr, cnt⟩ :: st.live }

/-- What a process consists of, apart from the pages that it uses. -/
def processAllocs (s : Memory) (thread : Addr) : List Alloc :=
  (match (s.pcb thread).pgDir with
    | none => []
    | some pgDir => [kernelAlloc pgDir 1]) ++
  [kernelAlloc (s.pcb thread).bits userBitmapPages, kernelAlloc thread 1]

/-- One operation. -/
def step (st : PageState) : PageOp → Except Fault PageState
  | .mallocPage pf cnt => do .ok (st.enter pf cnt (← GwOS.mallocPage st.mem pf cnt))
  | .getOnePage pf vaddr => do .ok (st.enter pf 1 (← GwOS.getOnePage st.mem pf vaddr))
  | .getOnePageNoBitmap pf vaddr => do
    .ok (st.enter pf 1 (← GwOS.getOnePageNoBitmap st.mem pf vaddr))
  | .mfreePage a => do
    let s ← GwOS.mfreePage st.mem a.pf a.vaddr a.cnt
    .ok { st with mem := s, live := st.live.erase a }
  | .activate thread => do
    let s ← pageDirActivate st.mem thread
    .ok { st with mem := { s with running := thread } }
  | .processExecute name => do
    let (thread, s) ← GwOS.processExecute st.mem name
    .ok { st with
      mem := s
      threads := thread :: st.threads
      held := processAllocs s thread ++ st.held }

/-- The operations that are considered: the number of pages is smaller than the length of the
bitmap in bytes, what is released is live and visible, and the kernel pool has a frame
whenever a page table is needed. -/
def Allowed (st : PageState) : PageOp → Prop
  | .mallocPage pf cnt => 1 ≤ cnt ∧ cnt < (st.mem.vaddrBitmap pf).len ∧
      MallocTablesFound st.mem pf cnt
  | .getOnePage pf vaddr => ∀ s, markPage st.mem pf vaddr = .ok s → LoopTablesFound pf 1 vaddr s
  -- the only caller takes the address from the bitmap of a process
  | .getOnePageNoBitmap pf vaddr => vaddr < 0xffc00000 ∧ LoopTablesFound pf 1 vaddr st.mem
  | .mfreePage a => a ∈ st.live ∧ vpages st.mem.cr3 a.cnt a.vaddr = a.pages
  | .activate thread => thread ∈ st.threads
  | .processExecute _ => userBitmapPages < st.mem.kernelVaddr.vaddrBitmap.len

/-- After `mem_init`, one thread of the kernel runs. -/
def boot : PageState := { mem := bootMemory, threads := [bootMemory.running], live := [], held := [] }

end PageState

/-! ## The invariant of runs -/

/-- The virtual pages that a process may have. -/
structure Memory.UserRange (s : Memory) (t : Addr) : Prop where
  start : (s.pcb t).vaddrStart.toNat ≤ userVaddrStart.toNat
  aligned : (s.pcb t).vaddrStart.toNat % pgSize = 0
  len : (s.btmp (s.pcb t).bits).len ≤ userBitmapLen

/-- It depends on these fields only. -/
theorem Memory.UserRange.congr {s s' : Memory} {t : Addr} (h : s.UserRange t)
    (hstart : (s'.pcb t).vaddrStart = (s.pcb t).vaddrStart)
    (hlen : (s'.btmp (s'.pcb t).bits).len = (s.btmp (s.pcb t).bits).len) : s'.UserRange t :=
  ⟨hstart ▸ h.start, hstart ▸ h.aligned, hlen ▸ h.len⟩

theorem Steady.userRange {s s' : Memory} (h : Steady s s') {t : Addr} (ht : s.UserRange t) :
    s'.UserRange t :=
  ht.congr (by rw [h.pcb]) (by rw [h.pcb, h.btmp])

/-- A process `t` with its directory at `p`: the pages `K` are there for the directory and for
the bitmap. -/
structure Memory.Process (s : Memory) (K : List VPage) (D : Frame → Prop) (g : VPage → Frame)
    (t p : Addr) : Prop where
  high : 0xc0000000 ≤ p.toNat
  low : p.toNat < 0xffc00000
  dir : vpage kernelDir p ∈ K
  frame : D (g (vpage kernelDir p))
  bits : ∀ k ∈ vpages kernelDir userBitmapPages (s.pcb t).bits, k ∈ K

/-- The frame of the directory of a thread. -/
def Memory.dirFrame (s : Memory) (g : VPage → Frame) (t : Addr) : Frame :=
  match (s.pcb t).pgDir with
  | none => kernelDir
  | some p => g (vpage kernelDir p)

/-- What the records of the threads say: their directories are among `D`, in pages of `K`, and
that of the running thread is active. -/
structure Records (s : Memory) (threads : List Addr) (K : List VPage) (D : Frame → Prop)
    (g : VPage → Frame) : Prop where
  running : s.running ∈ threads
  current : s.cr3 = s.dirFrame g s.running
  high : 0xc0000000 ≤ s.kernelVaddr.vaddrStart.toNat
  aligned : s.kernelVaddr.vaddrStart.toNat % pgSize = 0
  kernel : s.kernelVaddr.vaddrStart.toNat + 8 * s.kernelVaddr.vaddrBitmap.len * pgSize ≤ 0xffc00000
  user : ∀ t ∈ threads, s.UserRange t
  pcbs : ∀ t ∈ threads, t.toNat < s.kernelVaddr.vaddrStart.toNat ∨ vpage kernelDir t ∈ K
  procs : ∀ t ∈ threads, ∀ p, (s.pcb t).pgDir = some p → s.Process K D g t p

/-- The invariant of runs. -/
structure PageState.Valid (st : PageState) (D : Frame → Prop) (g : VPage → Frame) : Prop where
  layout : Layout st.mem D
  owned : Owned st.mem D g st.livePages st.heldPages
  records : Records st.mem st.threads st.heldPages D g

namespace Records

variable {s s' : Memory} {threads : List Addr} {K K' : List VPage} {D D' : Frame → Prop}
  {g g' : VPage → Frame} {t p : Addr}

theorem vaddrsOk (h : Records s threads K D g) : VaddrsOk s (· ∈ threads) := by
  refine ⟨h.high, h.aligned, h.kernel, fun t ht => ?_⟩
  obtain ⟨hstart, -, hlen⟩ := h.user t ht
  have hend : userVaddrStart.toNat + 8 * userBitmapLen * pgSize ≤ 0xffc00000 := by decide
  refine Nat.le_trans (Nat.add_le_add hstart ?_) hend
  exact Nat.mul_le_mul_right pgSize (Nat.mul_le_mul_left 8 hlen)

theorem dirFrame_mem (h : Records s threads K D g) (hroot : D kernelDir) (ht : t ∈ threads) :
    D (s.dirFrame g t) := by
  rw [Memory.dirFrame]
  cases hp : (s.pcb t).pgDir with
  | none => exact hroot
  | some p => exact (h.procs t ht p hp).frame

theorem active (h : Records s threads K D g) (hroot : D kernelDir) : D s.cr3 :=
  h.current ▸ h.dirFrame_mem hroot h.running

/-- An allocation or a release changes nothing in them. -/
theorem steady (h : Records s threads K D g) (hst : Steady s s') : Records s' threads K D g := by
  refine ⟨?_, ?_, ?_, ?_, ?_, fun t ht => hst.userRange (h.user t ht), fun t ht => ?_,
    fun t ht p hp => ?_⟩
  · rw [hst.running]
    exact h.running
  · rw [Memory.dirFrame, hst.cr3, hst.running, hst.pcb]
    exact h.current
  · rw [hst.start]
    exact h.high
  · rw [hst.start]
    exact h.aligned
  · rw [hst.start, hst.len]
    exact h.kernel
  · rw [hst.start]
    exact h.pcbs t ht
  · rw [hst.pcb] at hp
    obtain ⟨hhigh, hlow, hdir, hframe, hbits⟩ := h.procs t ht p hp
    exact ⟨hhigh, hlow, hdir, hframe, hst.pcb ▸ hbits⟩

/-- More pages may be held, and there may be more directories. -/
theorem grow (h : Records s threads K D g) (hK : ∀ k ∈ K, k ∈ K') (hg : ∀ k ∈ K, g' k = g k)
    (hD : ∀ d, D d → D' d) : Records s threads K' D' g' := by
  refine ⟨h.running, ?_, h.high, h.aligned, h.kernel, h.user, fun t ht => (h.pcbs t ht).imp_right (hK _),
    fun t ht p hp => ?_⟩
  · rw [h.current, Memory.dirFrame, Memory.dirFrame]
    cases hp : (s.pcb s.running).pgDir with
    | none => rfl
    | some p => exact (hg _ (h.procs _ h.running p hp).dir).symm
  · obtain ⟨hhigh, hlow, hdir, hframe, hbits⟩ := h.procs t ht p hp
    exact ⟨hhigh, hlow, hK _ hdir, hg _ hdir ▸ hD _ hframe, fun k hk => hK _ (hbits k hk)⟩

/-- A record that belongs to no thread yet is filled in. -/
theorem update (h : Records s threads K D g) {thread : Addr} (hnew : thread ∉ threads)
    (r : ProcPages) (btmp : Addr → Bitmap) (huser : ∀ t ∈ threads,
      ({ s with pcb := Function.update s.pcb thread r, btmp } : Memory).UserRange t) :
    Records { s with pcb := Function.update s.pcb thread r, btmp } threads K D g := by
  have hpcb : ∀ t ∈ threads, Function.update s.pcb thread r t = s.pcb t := by
    intro t ht
    refine Function.update_of_ne ?_ ..
    rintro rfl
    exact hnew ht
  refine ⟨h.running, ?_, h.high, h.aligned, h.kernel, huser, h.pcbs, fun t ht p hp => ?_⟩
  · rw [h.current, Memory.dirFrame, Memory.dirFrame]
    dsimp only
    rw [hpcb _ h.running]
  · dsimp only at hp
    rw [hpcb t ht] at hp
    obtain ⟨hhigh, hlow, hdir, hframe, hbits⟩ := h.procs t ht p hp
    refine ⟨hhigh, hlow, hdir, hframe, ?_⟩
    dsimp only
    rw [hpcb t ht]
    exact hbits

/-- A thread more. -/
theorem add (h : Records s threads K D g) {thread : Addr} (hrange : s.UserRange thread)
    (hpcb : vpage kernelDir thread ∈ K)
    (hproc : ∀ p, (s.pcb thread).pgDir = some p → s.Process K D g thread p) :
    Records s (thread :: threads) K D g := by
  refine ⟨List.mem_cons_of_mem _ h.running, h.current, h.high, h.aligned, h.kernel, fun t ht => ?_,
    fun t ht => ?_, fun t ht => ?_⟩
  · rcases List.mem_cons.mp ht with rfl | ht
    · exact hrange
    · exact h.user t ht
  · rcases List.mem_cons.mp ht with rfl | ht
    · exact .inr hpcb
    · exact h.pcbs t ht
  · rcases List.mem_cons.mp ht with rfl | ht
    · exact hproc
    · exact h.procs t ht

/-- The directory that a thread activates. -/
theorem pageDirActivate_ok (hl : Layout s D)
    (hheld : ∀ k ∈ K, s.frameAt k = some (g k)) (hcr : D s.cr3)
    (hp : ∀ p, (s.pcb t).pgDir = some p → 0xc0000000 ≤ p.toNat ∧ p.toNat < 0xffc00000 ∧
      vpage kernelDir p ∈ K) :
    pageDirActivate s t = .ok { s with cr3 := s.dirFrame g t } := by
  rw [pageDirActivate, Memory.dirFrame]
  cases hpg : (s.pcb t).pgDir with
  | none => rfl
  | some p =>
    obtain ⟨hhigh, hlow, hmem⟩ := hp p hpg
    have hframe := hheld _ hmem
    rw [← vpage_kernel hhigh s.cr3, hl.frameAt_vpage hcr (dirIdx_ne_of_le hlow)] at hframe
    rw [vpage_kernel hhigh s.cr3] at hframe
    have htr : s.translate p = some (addrOf (g (vpage kernelDir p)) (offsetOf p)) := by
      rw [Machine.translate, show s.walk p = _ from hframe]
      rfl
    dsimp only
    rw [(hl.selfMapped hcr).addrVir2phy_eq htr]
    show Except.ok { s with cr3 := pageOf (addrOf (g (vpage kernelDir p)) (offsetOf p)) } = _
    rw [pageOf_addrOf]

end Records

namespace PageState

section Run

variable {st st' : PageState} {D : Frame → Prop} {g : VPage → Frame} {s : Memory} {pf : PoolFlag}
  {cnt : Nat} {v : Addr} {op : PageOp}

theorem Valid.active (h : st.Valid D g) : D st.mem.cr3 := h.records.active h.layout.root

theorem Valid.vaddrsOk (h : st.Valid D g) : VaddrsOk st.mem (· ∈ st.threads) := h.records.vaddrsOk

theorem Valid.running (h : st.Valid D g) : st.mem.running ∈ st.threads := h.records.running

/-- What stays valid when pages are allocated or released. -/
theorem Valid.steady (h : st.Valid D g) {live : List Alloc} (hst : Steady st.mem s)
    (hl : Layout s D) (ho : Owned s D g (live.flatMap Alloc.pages) st.heldPages) :
    Valid { st with mem := s, live := live } D g := ⟨hl, ho, h.records.steady hst⟩

/-- The pages that have been returned are live. -/
theorem Valid.enter (h : st.Valid D g) {r : Option Addr × Memory} (hl : Layout r.2 D)
    (hst : Steady st.mem r.2)
    (ho : match r.1 with
      | none => Owned r.2 D g st.livePages st.heldPages
      | some v => Owned r.2 D g (vpages st.mem.cr3 cnt v ++ st.livePages) st.heldPages) :
    (st.enter pf cnt r).Valid D g := by
  obtain ⟨v, s⟩ := r
  cases v with
  | none => exact h.steady hst hl ho
  | some v => exact h.steady hst hl ho

theorem enter_mem (st : PageState) (pf : PoolFlag) (cnt : Nat) (r : Option Addr × Memory) :
    (st.enter pf cnt r).mem = r.2 := by
  obtain ⟨v, s⟩ := r
  cases v <;> rfl

theorem Valid.mallocPage (h : st.Valid D g) (hop : st.Allowed (.mallocPage pf cnt)) :
    Returns (st.step (.mallocPage pf cnt)) fun st' => st'.Valid D g := by
  obtain ⟨hcnt, hlt, htab⟩ := hop
  refine .bind (mallocPage_keeps h.layout h.owned h.active h.vaddrsOk h.running hcnt hlt htab)
    fun r hr => .ok (h.enter hr.1 hr.2.1 ?_)
  obtain ⟨v, s⟩ := r
  cases v with
  | none => exact hr.2.2
  | some v => exact hr.2.2.1

theorem Valid.getOnePage (h : st.Valid D g) (hop : st.Allowed (.getOnePage pf v)) :
    Returns (st.step (.getOnePage pf v)) fun st' =>
      st'.mem.kernelVaddr.vaddrBitmap.len = st.mem.kernelVaddr.vaddrBitmap.len ∧ st'.Valid D g := by
  refine .bind (getOnePage_keeps h.layout h.owned h.active h.vaddrsOk h.running hop)
    fun r hr => .ok ⟨(st.enter_mem pf 1 r).symm ▸ hr.2.1.len, h.enter hr.1 hr.2.1 ?_⟩
  obtain ⟨w, s⟩ := r
  cases w with
  | none => exact hr.2.2
  | some w =>
    obtain ⟨rfl, ho⟩ := hr.2.2
    exact ho

theorem Valid.getOnePageNoBitmap (h : st.Valid D g) (hop : st.Allowed (.getOnePageNoBitmap pf v)) :
    Returns (st.step (.getOnePageNoBitmap pf v)) fun st' =>
      st'.mem.kernelVaddr.vaddrBitmap.len = st.mem.kernelVaddr.vaddrBitmap.len ∧ st'.Valid D g := by
  obtain ⟨hv, htab⟩ := hop
  refine .bind (getOnePageNoBitmap_keeps h.layout h.owned h.active (dirIdx_ne_window hv) htab)
    fun r hr => .ok ⟨(st.enter_mem pf 1 r).symm ▸ hr.2.1.len, h.enter hr.1 hr.2.1 ?_⟩
  obtain ⟨w, s⟩ := r
  cases w with
  | none => exact hr.2.2
  | some w =>
    obtain ⟨rfl, ho⟩ := hr.2.2
    exact ho

/-- Some of the live pages are released. -/
theorem Valid.release (h : st.Valid D g) {rest : List Alloc}
    (hperm : st.livePages.Perm (vpages st.mem.cr3 cnt v ++ rest.flatMap Alloc.pages)) :
    Returns (GwOS.mfreePage st.mem pf v cnt) fun s =>
      s.kernelVaddr.vaddrBitmap.len = st.mem.kernelVaddr.vaddrBitmap.len ∧
        Valid { st with mem := s, live := rest } D g :=
  (mfreePage_keeps h.layout (h.owned.perm hperm) h.active).mono fun _ hs =>
    ⟨hs.2.2.len, h.steady hs.2.2 hs.1 hs.2.1⟩

theorem Valid.mfreePage (h : st.Valid D g) {a : Alloc} (hop : st.Allowed (.mfreePage a)) :
    Returns (st.step (.mfreePage a)) fun st' =>
      st'.mem.kernelVaddr.vaddrBitmap.len = st.mem.kernelVaddr.vaddrBitmap.len ∧ st'.Valid D g := by
  obtain ⟨ha, hvis⟩ := hop
  have hperm : st.livePages.Perm (vpages st.mem.cr3 a.cnt a.vaddr ++
      (st.live.erase a).flatMap Alloc.pages) := by
    rw [hvis]
    exact (List.perm_cons_erase ha).flatMap_right Alloc.pages
  exact .bind (h.release hperm) fun s hs => .ok hs

theorem Valid.activate (h : st.Valid D g) {t : Addr} (ht : st.Allowed (.activate t)) :
    Returns (st.step (.activate t)) fun st' =>
      st'.mem.kernelVaddr.vaddrBitmap.len = st.mem.kernelVaddr.vaddrBitmap.len ∧ st'.Valid D g := by
  have hd := Records.pageDirActivate_ok h.layout h.owned.held h.active (t := t) fun p hp =>
    have hproc := h.records.procs t ht p hp
    ⟨hproc.high, hproc.low, hproc.dir⟩
  rw [PageState.step, hd]
  refine .ok ⟨rfl, h.layout.congr (fun _ _ => rfl) rfl rfl, h.owned.congr (fun _ _ => rfl)
    (fun _ _ => rfl) (fun _ _ _ _ h => h), ht, rfl, h.records.high, h.records.aligned,
    h.records.kernel, fun t ht => (h.records.user t ht).congr rfl rfl, h.records.pcbs, fun t ht p hp => ?_⟩
  obtain ⟨hhigh, hlow, hdir, hframe, hbits⟩ := h.records.procs t ht p hp
  exact ⟨hhigh, hlow, hdir, hframe, hbits⟩

/-- More pages are held. -/
theorem Valid.hold (h : st.Valid D g) (hst : Steady st.mem s) (hl : Layout s D) {a : Alloc}
    (ho : Owned s D g (a.pages ++ st.livePages) st.heldPages) :
    ∃ g', (∀ k ∈ st.heldPages, g' k = g k) ∧
      Valid { st with mem := s, held := a :: st.held } D g' := by
  obtain ⟨g', hsame, ho'⟩ := ho.hold
  refine ⟨g', hsame, hl, ho', (h.records.steady hst).grow (fun k hk => ?_) hsame fun _ hd => hd⟩
  exact List.mem_append_right a.pages hk

/-- `get_kernel_pages` for pages that are held. -/
theorem Valid.getKernelPages (h : st.Valid D g) (hcnt : 1 ≤ cnt)
    (hlt : cnt < st.mem.kernelVaddr.vaddrBitmap.len) :
    Returns (GwOS.getKernelPages st.mem cnt) fun r => Steady st.mem r.2 ∧
      ∀ v, r.1 = some v → st.mem.kernelVaddr.vaddrStart.toNat ≤ v.toNat ∧
        v.toNat + cnt * pgSize ≤ 0xffc00000 ∧
        (∀ k ∈ vpages kernelDir cnt v, k ∉ st.heldPages) ∧
        ∃ g', (∀ k ∈ st.heldPages, g' k = g k) ∧
          Valid { st with mem := r.2, held := kernelAlloc v cnt :: st.held } D g' := by
  refine (getKernelPages_keeps h.layout h.owned h.active h.vaddrsOk h.running hcnt hlt).mono
    fun r hr => ⟨hr.2.1, fun v hv => ?_⟩
  obtain ⟨hl, hst, ho⟩ := hr
  rw [hv] at ho
  obtain ⟨ho, -, hlow, -, hend⟩ := ho
  have hwin : v.toNat + cnt * pgSize ≤ 0xffc00000 := by
    have hk := h.records.kernel
    unfold pgSize at *
    omega
  rw [vpages_kernel st.mem.cr3 cnt (Nat.le_trans h.records.high hlow) hwin] at ho
  refine ⟨hlow, hwin, fun k hk hheld => ?_, h.hold hst hl ho⟩
  exact (List.nodup_append'.mp ho.nodup).2.2 (List.mem_append_left _ hk) hheld

/-- `create_page_dir`. -/
theorem Valid.createPageDir (h : st.Valid D g) (hlt : 1 < st.mem.kernelVaddr.vaddrBitmap.len) :
    Returns (GwOS.createPageDir st.mem) fun r => Steady st.mem r.2 ∧
      match r.1 with
      | none => Valid { st with mem := r.2 } D g
      | some v => 0xc0000000 ≤ v.toNat ∧ v.toNat < 0xffc00000 ∧
          ∃ f, r.2.mem f = dirPage (r.2.mem st.mem.cr3) f ∧
            Valid { st with mem := r.2, held := kernelAlloc v 1 :: st.held } (fun d => D d ∨ d = f)
              (Function.update g (vpage kernelDir v) f) := by
  refine (createPageDir_keeps h.layout h.owned h.active h.vaddrsOk h.running hlt).mono
    fun r hr => ⟨hr.1, ?_⟩
  obtain ⟨v, s⟩ := r
  obtain ⟨hst, hr⟩ := hr
  cases v with
  | none => exact h.steady hst hr.1 hr.2
  | some v =>
    obtain ⟨hhigh, hlow, f, -, hpage, hl, ho⟩ := hr
    refine ⟨hhigh, hlow, f, hpage, hl, ho, (h.records.steady hst).grow
      (fun k hk => List.mem_cons_of_mem _ hk) (fun k hk => ?_) fun _ => .inl⟩
    -- the page is a new one
    have hne : k ≠ vpage kernelDir v := by
      rintro rfl
      have hnd := (List.nodup_append'.mp ho.nodup).2.1
      exact (List.nodup_cons.mp hnd).1 hk
    exact Function.update_of_ne hne ..

/-- The bitmap of a new process is of the right size, wherever it lies. -/
theorem userRange_update {s : Memory} {thread bits t : Addr} {r : ProcPages}
    (hbits : r.bits = bits) (hstart : r.vaddrStart = userVaddrStart)
    (h : t ≠ thread → s.UserRange t) :
    ({ s with
      pcb := Function.update s.pcb thread r
      btmp := Function.update s.btmp bits (bitmapInit userBitmapLen) } : Memory).UserRange t := by
  have hlen : ∀ a, (s.btmp a).len ≤ userBitmapLen →
      (Function.update s.btmp bits (bitmapInit userBitmapLen) a).len ≤ userBitmapLen := by
    intro a ha
    by_cases he : a = bits
    · rw [he, Function.update_self, Bitmap.len_init]
    · rw [Function.update_of_ne he]
      exact ha
  by_cases he : t = thread
  · refine ⟨?_, ?_, ?_⟩
    · show (Function.update s.pcb thread r t).vaddrStart.toNat ≤ _
      rw [he, Function.update_self, hstart]
    · show (Function.update s.pcb thread r t).vaddrStart.toNat % pgSize = 0
      rw [he, Function.update_self, hstart]
      decide
    · show (Function.update s.btmp bits _ (Function.update s.pcb thread r t).bits).len ≤ _
      rw [he, Function.update_self, hbits, Function.update_self, Bitmap.len_init]
  · have hpcb : Function.update s.pcb thread r t = s.pcb t := Function.update_of_ne he ..
    refine ⟨?_, ?_, ?_⟩
    · show (Function.update s.pcb thread r t).vaddrStart.toNat ≤ _
      rw [hpcb]
      exact (h he).start
    · show (Function.update s.pcb thread r t).vaddrStart.toNat % pgSize = 0
      rw [hpcb]
      exact (h he).aligned
    · show (Function.update s.btmp bits _ (Function.update s.pcb thread r t).bits).len ≤ _
      rw [hpcb]
      exact hlen _ (h he).len

/-- `create_user_vaddr_bitmap`. -/
theorem Valid.createUserVaddrBitmap (h : st.Valid D g)
    (hlt : userBitmapPages < st.mem.kernelVaddr.vaddrBitmap.len) {thread : Addr}
    (hnew : thread ∉ st.threads) :
    Returns (GwOS.createUserVaddrBitmap st.mem thread) fun s =>
      s.kernelVaddr.vaddrBitmap.len = st.mem.kernelVaddr.vaddrBitmap.len ∧ s.UserRange thread ∧
        ∃ g', (∀ k ∈ st.heldPages, g' k = g k) ∧ Valid { st with
          mem := s, held := kernelAlloc (s.pcb thread).bits userBitmapPages :: st.held } D g' := by
  have hpages : 1 ≤ userBitmapPages := by decide
  unfold GwOS.createUserVaddrBitmap
  refine .bind (h.getKernelPages hpages hlt) fun r hr => ?_
  obtain ⟨bits, s1⟩ := r
  obtain ⟨hst, hr⟩ := hr
  cases bits with
  | none => exact .error _
  | some bits =>
    obtain ⟨-, -, -, g1, hsame, h1⟩ := hr bits rfl
    dsimp only
    generalize hrec : ({ s1.pcb thread with bits, vaddrStart := userVaddrStart } : ProcPages) = r
    have hbits : r.bits = bits := by rw [← hrec]
    have hstart : r.vaddrStart = userVaddrStart := by rw [← hrec]
    refine .ok ⟨hst.len, userRange_update hbits hstart fun hne => absurd rfl hne, g1, hsame, ?_⟩
    have hsame : (Function.update s1.pcb thread r thread).bits = bits := by
      rw [Function.update_self, hbits]
    show Valid { st with
      mem := _
      held := kernelAlloc (Function.update s1.pcb thread r thread).bits userBitmapPages :: st.held } D g1
    rw [hsame]
    exact ⟨h1.layout.congr (fun _ _ => rfl) rfl rfl, h1.owned.congr (fun _ _ => rfl)
      (fun _ _ => rfl) (fun _ _ _ _ h => h), h1.records.update hnew _ _ fun t ht =>
        userRange_update hbits hstart fun _ => h1.records.user t ht⟩

/-- The record of a thread gets the directory, and the thread is one of the threads. -/
theorem Valid.addThread (h : st.Valid D g) {thread : Addr} (hnew : thread ∉ st.threads)
    {pgDir : Option Addr} {name : String} (hrange : st.mem.UserRange thread)
    (hpcb : vpage kernelDir thread ∈ st.heldPages)
    (hproc : ∀ p, pgDir = some p → st.mem.Process st.heldPages D g thread p) :
    Valid { st with
      mem := { st.mem with
        pcb := Function.update st.mem.pcb thread { st.mem.pcb thread with pgDir, name } }
      threads := thread :: st.threads } D g := by
  have hself : Function.update st.mem.pcb thread { st.mem.pcb thread with pgDir, name } thread =
      { st.mem.pcb thread with pgDir, name } := Function.update_self ..
  have hrec := h.records.update hnew { st.mem.pcb thread with pgDir, name } st.mem.btmp
    fun t ht => ?_
  · refine ⟨h.layout.congr (fun _ _ => rfl) rfl rfl, h.owned.congr (fun _ _ => rfl)
      (fun _ _ => rfl) (fun _ _ _ _ h => h), hrec.add ?_ hpcb fun p hp => ?_⟩
    · exact hrange.congr (by dsimp only; rw [hself]) (by dsimp only; rw [hself])
    · dsimp only at hp
      rw [hself] at hp
      obtain ⟨hhigh, hlow, hdir, hframe, hbits⟩ := hproc p hp
      refine ⟨hhigh, hlow, hdir, hframe, ?_⟩
      dsimp only
      rw [hself]
      exact hbits
  · have hne : t ≠ thread := fun he => hnew (he ▸ ht)
    have hpcb : Function.update st.mem.pcb thread { st.mem.pcb thread with pgDir, name } t =
        st.mem.pcb t := Function.update_of_ne hne ..
    exact (h.records.user t ht).congr (by dsimp only; rw [hpcb]) (by dsimp only; rw [hpcb])

/-- A page that has just been allocated is no thread yet. -/
theorem Valid.notMem_threads (h : st.Valid D g) {thread : Addr} {cnt : Nat}
    (hlow : st.mem.kernelVaddr.vaddrStart.toNat ≤ thread.toNat)
    (hfresh : ∀ k ∈ vpages kernelDir (cnt + 1) thread, k ∉ st.heldPages) : thread ∉ st.threads := by
  intro ht
  rcases h.records.pcbs thread ht with hlt | hheld
  · exact absurd hlow (Nat.not_le.mpr hlt)
  · exact hfresh _ (List.mem_cons_self ..) hheld

/-- The pages of a process that has just got its page directory and its name. -/
theorem processAllocs_update {s s' : Memory} (hpcb : s'.pcb = s.pcb) {thread : Addr}
    {pgDir : Option Addr} {name : String} :
    processAllocs { s' with
        pcb := Function.update s'.pcb thread { s'.pcb thread with pgDir, name } } thread =
      pgDir.elim [] (fun pgDir => [kernelAlloc pgDir 1]) ++
        [kernelAlloc (s.pcb thread).bits userBitmapPages, kernelAlloc thread 1] := by
  rw [processAllocs]
  dsimp only
  rw [Function.update_self, hpcb]
  cases pgDir <;> rfl

/-- **`process_execute`**: a process more. -/
theorem Valid.processExecute (h : st.Valid D g) {name : String}
    (hlt : st.Allowed (.processExecute name)) :
    Returns (st.step (.processExecute name)) fun st' =>
      st'.mem.kernelVaddr.vaddrBitmap.len = st.mem.kernelVaddr.vaddrBitmap.len ∧
        ∃ D g, st'.Valid D g := by
  have hone : 1 < st.mem.kernelVaddr.vaddrBitmap.len := Nat.lt_trans (by decide) hlt
  unfold PageState.step
  dsimp only
  unfold GwOS.processExecute
  rw [bind_assoc]
  refine .bind (h.getKernelPages (Nat.le_refl 1) hone) fun r hr => ?_
  obtain ⟨thread, s1⟩ := r
  obtain ⟨hst1, hr⟩ := hr
  cases thread with
  | none => exact .error _
  | some thread =>
    obtain ⟨hlow, -, hfresh, g1, -, h1⟩ := hr thread rfl
    have hnew : thread ∉ st.threads := h.notMem_threads hlow hfresh
    dsimp only
    rw [bind_assoc]
    refine .bind (h1.createUserVaddrBitmap (hst1.len ▸ hlt) hnew) fun s2 hs2 => ?_
    obtain ⟨hlen2, hrange, g2, hbits, h2⟩ := hs2
    rw [bind_assoc]
    refine .bind (h2.createPageDir (hlen2 ▸ hst1.len ▸ hone)) fun r hr => ?_
    obtain ⟨pgDir, s3⟩ := r
    obtain ⟨hst3, hr⟩ := hr
    have hrange3 : s3.UserRange thread := hst3.userRange hrange
    refine .ok ⟨hst3.len.trans (hlen2.trans hst1.len), ?_⟩
    rw [processAllocs_update hst3.pcb]
    cases pgDir with
    | none =>
      refine ⟨D, g2, hr.addThread hnew hrange3 ?_ nofun⟩
      exact List.mem_append_right _ (List.mem_append_left _ (List.mem_cons_self ..))
    | some pgDir =>
      obtain ⟨hhigh, hlow, f, -, h3⟩ := hr
      refine ⟨_, _, h3.addThread hnew hrange3 ?_ fun p hp => ?_⟩
      · refine List.mem_append_right _ (List.mem_append_right _ (List.mem_append_left _ ?_))
        exact List.mem_cons_self ..
      · cases hp
        refine ⟨hhigh, hlow, List.mem_cons_self .., ?_, fun k hk => ?_⟩
        · rw [Function.update_self]
          exact .inr rfl
        · rw [hst3.pcb] at hk
          exact List.mem_append_right _ (List.mem_append_left _ hk)

/-- **One step** of a run. -/
theorem Valid.step (h : st.Valid D g) (hop : st.Allowed op) :
    Returns (st.step op) fun st' => ∃ D g, st'.Valid D g := by
  cases op with
  | mallocPage pf cnt => exact (h.mallocPage hop).mono fun _ h' => ⟨D, g, h'⟩
  | getOnePage pf v => exact (h.getOnePage hop).mono fun _ h' => ⟨D, g, h'.2⟩
  | getOnePageNoBitmap pf v => exact (h.getOnePageNoBitmap hop).mono fun _ h' => ⟨D, g, h'.2⟩
  | mfreePage a => exact (h.mfreePage hop).mono fun _ h' => ⟨D, g, h'.2⟩
  | activate t => exact (h.activate hop).mono fun _ h' => ⟨D, g, h'.2⟩
  | processExecute name => exact (h.processExecute hop).mono fun _ h' => h'.2

/-- The pools that `mem_pool_init` lays out. -/
theorem boot_pools :
    bootMemory.kernelPool = ⟨bitmapInit 480, 0x200000, 0xf00000⟩ ∧
    bootMemory.userPool = ⟨bitmapInit 480, 0x1100000, 0xf00000⟩ ∧
    bootMemory.kernelVaddr = ⟨bitmapInit 480, 0xc0100000⟩ := by
  refine ⟨rfl, rfl, rfl⟩

theorem boot_dir (i : BitVec 10) : bootMemory.mem kernelDir i =
    if i = 0 then tableEntry 0x101000
    else if i = 1023 then tableEntry 0x100000
    else if 768 ≤ i then tableEntry (0x101000 + (i.zeroExtend 32 - 768) * 0x1000)
    else 0 := rfl

theorem boot_layout : Layout bootMemory (fun d => d = kernelDir) := by
  obtain ⟨hk, hu, -⟩ := boot_pools
  have hok : ∀ a : Addr, a.toNat % pgSize = 0 → a.toNat ≤ 0x1100000 →
      Pool.Ok ⟨bitmapInit 480, a, 0xf00000⟩ := by
    intro a hal hle
    have h0 : (0xf00000 : Addr).toNat = 0xf00000 := rfl
    refine ⟨hal, ?_, ?_, ?_⟩
    · show 8 * (bitmapInit 480).len * pgSize ≤ (0xf00000 : Addr).toNat
      rw [Bitmap.len_init]
      decide
    · show a.toNat + (0xf00000 : Addr).toNat ≤ _
      omega
    · show 1 ≤ (bitmapInit 480).len
      rw [Bitmap.len_init]
      decide
  refine ⟨hk ▸ hok _ (by decide) (by decide), hu ▸ hok _ (by decide) (by decide), ?_, ?_, rfl,
    fun d hd => .inl hd, ?_, ?_, ?_, ?_⟩
  · rw [hk]
    decide
  · rw [hk, hu]
    decide
  · rintro d rfl
    exact ⟨by decide, by decide⟩
  · rintro d rfl i hi hne
    have h0 : i ≠ 0 := fun he => absurd (he ▸ hi) (by decide)
    rw [boot_dir, if_neg h0, if_neg hne, if_pos hi, pageOf_tableEntry]
    refine ⟨tableEntry_present _, BitVec.eq_of_toNat_eq ?_⟩
    have hlt := i.isLt
    have hle : 768 ≤ i.toNat := hi
    rw [pageOf_toNat, kernelTable_toNat hi]
    simp
    omega
  · rintro d rfl i hi hp
    have hne : i ≠ 1023 := fun he => absurd (he ▸ hi) (by decide)
    by_cases h0 : i = 0
    · rw [h0]
      exact .inl ⟨rfl, rfl, by decide⟩
    · rw [boot_dir, if_neg h0, if_neg hne, if_neg (BitVec.not_le.mpr hi)] at hp
      exact absurd hp (by decide)
  · rintro d d' rfl rfl i i' hi hi' hp hp' ht he
    have hbit := ht.2
    rw [hk, Bitmap.bit_init] at hbit
    cases hbit

theorem boot_valid : ∃ D g, boot.Valid D g := by
  obtain ⟨-, -, hv⟩ := boot_pools
  have hv' : boot.mem.kernelVaddr = ⟨bitmapInit 480, 0xc0100000⟩ := hv
  refine ⟨fun d => d = kernelDir, fun _ => 0, boot_layout, ?_, List.mem_cons_self .., rfl, ?_, ?_, ?_,
    fun t _ => ?_, fun t ht => ?_, fun t _ p hp => nomatch hp⟩
  · exact ⟨nofun, nofun, nofun, List.nodup_nil, nofun, nofun⟩
  · rw [hv']
    decide
  · rw [hv']
    decide
  · rw [hv', Bitmap.len_init]
    decide
  · exact ⟨Nat.zero_le _, rfl, Nat.zero_le _⟩
  · refine .inl ?_
    rw [List.mem_singleton.mp ht, hv']
    decide

end Run

/-! ## The directories of a state -/

/-- The directories of the kernel and of the processes. -/
def Directory (st : PageState) (d : Frame) : Prop :=
  d = kernelDir ∨ ∃ t ∈ st.threads, ∃ p, (st.mem.pcb t).pgDir = some p ∧
    st.mem.frameAt (vpage kernelDir p) = some d

/-- They are directories of the layout. -/
theorem Valid.directory {st : PageState} {D : Frame → Prop} {g : VPage → Frame}
    (h : st.Valid D g) {d : Frame} (hd : st.Directory d) : D d := by
  rcases hd with rfl | ⟨t, ht, p, hp, hf⟩
  · exact h.layout.root
  · have hproc := h.records.procs t ht p hp
    cases (h.owned.held _ hproc.dir).symm.trans hf
    exact hproc.frame

end PageState

end GwOS
