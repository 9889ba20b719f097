import GwOS.Kernel.Undo
import GwOS.Userprog.NewProcess

/-!
# Allocation and release in runs

`mallocPage_undone` needs the invariants of the allocator and a frame for every page table.
Both are about runs here: in a run in which the kernel's pool has had a frame for each table,
`mfree_page` undoes `malloc_page` (`mallocPage_roundTrip`), and without that it does not
(`mallocPage_loses`): the second table that falls on frame 0 empties the first.
-/

namespace GwOS

/-! ## The tables that an allocation needs -/

/-- The entries of the directory that the `cnt` pages from `v` on need and that are not there. -/
def Memory.absentTables (s : Memory) (cnt : Nat) (v : Addr) : Finset (BitVec 10) :=
  ((Finset.range cnt).image fun i => dirIdx (v + BitVec.ofNat 32 (i * pgSize))).filter fun i => ¬ Present (s.mem s.cr3 i)

section Tables

variable {s s' : Memory} {D : Frame → Prop} {g : VPage → Frame} {L H : List VPage} {v : Addr}
  {pf : PoolFlag} {cnt : Nat} {P : Addr → Prop}

theorem pageAfter_next (v : Addr) (i : Nat) :
    v + 0x1000 + BitVec.ofNat 32 (i * pgSize) = v + BitVec.ofNat 32 ((i + 1) * pgSize) := by
  apply BitVec.eq_of_toNat_eq
  have h1 : (0x1000 : Addr).toNat = 0x1000 := rfl
  simp only [BitVec.toNat_add, BitVec.toNat_ofNat, h1]
  unfold pgSize
  omega

theorem pageAfter_zero (v : Addr) : v + BitVec.ofNat 32 (0 * pgSize) = v := by
  rw [Nat.zero_mul]
  exact BitVec.add_zero v

theorem vpage_mem_vpages (d : Frame) {i : Nat} (hi : i < cnt) :
    vpage d (v + BitVec.ofNat 32 (i * pgSize)) ∈ vpages d cnt v := by
  induction cnt generalizing v i with
  | zero => exact absurd hi (Nat.not_lt_zero i)
  | succ cnt ih =>
    cases i with
    | zero =>
      rw [pageAfter_zero]
      exact List.mem_cons_self ..
    | succ i =>
      rw [← pageAfter_next]
      exact List.mem_cons_of_mem _ (ih (Nat.lt_of_succ_lt_succ hi))

/-- One page fewer. -/
theorem absentTables_next (hmem : ∀ i, Present (s.mem s.cr3 i) → Present (s'.mem s'.cr3 i)) :
    s'.absentTables cnt (v + 0x1000) ⊆ s.absentTables (cnt + 1) v := by
  intro i hi
  obtain ⟨himg, hp⟩ := Finset.mem_filter.mp hi
  obtain ⟨j, hj, rfl⟩ := Finset.mem_image.mp himg
  refine Finset.mem_filter.mpr ⟨Finset.mem_image.mpr ⟨j + 1, ?_, ?_⟩, fun h => hp (hmem _ h)⟩
  · exact Finset.mem_range.mpr (Nat.succ_lt_succ (Finset.mem_range.mp hj))
  · rw [pageAfter_next]

theorem mem_absentTables (hp : ¬ Present (s.pde v)) (hcnt : 0 < cnt) :
    dirIdx v ∈ s.absentTables cnt v := by
  refine Finset.mem_filter.mpr ⟨Finset.mem_image.mpr ⟨0, Finset.mem_range.mpr hcnt, ?_⟩, hp⟩
  rw [pageAfter_zero]

/-- **The tables are found** when the kernel's pool has a frame for each that is missing. Only
the pages that get a frame themselves need one. -/
theorem loopTablesFound_user (hl : Layout s D) (ho : Owned s D g L H) (hcr : D s.cr3)
    (hend : v.toNat + cnt * pgSize ≤ 0xffc00000)
    (hsupply : (s.absentTables (min cnt s.userPool.spare.card) v).card ≤ s.kernelPool.spare.card) :
    LoopTablesFound .user cnt v s := by
  induction cnt generalizing s L v with
  | zero => trivial
  | succ cnt ih =>
    intro page p' hpage
    have hlt : v.toNat < 0xffc00000 := by
      unfold pgSize at hend
      omega
    have hv := dirIdx_ne_of_le hlt
    obtain ⟨-, ht⟩ := palloc_took hl.userOk hpage
    have htook : (s.pool .user).Took p' (pageOf page) := ht
    have hcard : p'.spare.card + 1 = s.userPool.spare.card := palloc_card hl.userOk hpage
    obtain ⟨hl1, ho1, -⟩ := hl.took ho htook
    have hmin : min (cnt + 1) s.userPool.spare.card = min cnt p'.spare.card + 1 := by omega
    have hpos : 0 < min cnt p'.spare.card + 1 := Nat.succ_pos _
    rw [hmin] at hsupply
    have hfound : TableFound (s.setPool .user p') v := by
      by_cases hp : Present (s.pde v)
      · exact .inl hp
      · refine tableFound_of_spare hl1 ?_
        have hone : 0 < (s.absentTables (min cnt p'.spare.card + 1) v).card :=
          Finset.card_pos.mpr ⟨_, mem_absentTables hp hpos⟩
        show 0 < s.kernelPool.spare.card
        omega
    refine ⟨hfound, fun s1 h1 => ?_⟩
    obtain ⟨hl2, ho2, hst2⟩ := Owned.addPage hl ho hcr hv hpage hfound s1 h1
    obtain ⟨-, -, htabled⟩ := Owned.pageTableAdd_entered hl1 ho1 hcr hv page hfound s1 h1
    have huser : s1.userPool = p' := htabled.userPool
    refine ih hl2 ho2 (hst2.cr3 ▸ hcr) (next_toNat hend) ?_
    rw [huser]
    by_cases hp : Present (s.pde v)
    · obtain ⟨hpool, hmem⟩ := htabled.here hp
      have hpool' : s1.kernelPool = s.kernelPool := hpool
      have hsub : s1.absentTables (min cnt p'.spare.card) (v + 0x1000) ⊆
          s.absentTables (min cnt p'.spare.card + 1) v := by
        refine absentTables_next fun i hi => ?_
        have hsame : s1.mem s.cr3 = s.mem s.cr3 := hmem _ hcr
        rw [hst2.cr3, hsame]
        exact hi
      rw [hpool']
      exact Nat.le_trans (Finset.card_le_card hsub) hsupply
    · obtain ⟨pt, hpt, hmem⟩ := htabled.new hp
      have hpt' : s.kernelPool.Took s1.kernelPool (pageOf pt) := hpt
      have hentry : ∀ i, s1.mem s1.cr3 i =
          if i = dirIdx v then tableEntry pt else s.mem s.cr3 i := by
        intro i
        have hsame : s1.mem s.cr3 i = if s.cr3 = s.cr3 ∧ i = dirIdx v then tableEntry pt else
          s.mem s.cr3 i := hmem _ hcr i
        rw [hst2.cr3, hsame]
        simp only [true_and]
      have hsub : s1.absentTables (min cnt p'.spare.card) (v + 0x1000) ⊆
          (s.absentTables (min cnt p'.spare.card + 1) v).erase (dirIdx v) := by
        intro i hi
        refine Finset.mem_erase.mpr ⟨?_, absentTables_next (fun j hj => ?_) hi⟩
        · rintro rfl
          refine (Finset.mem_filter.mp hi).2 ?_
          rw [hentry, if_pos rfl]
          exact tableEntry_present pt
        · rw [hentry]
          split
          · exact tableEntry_present pt
          · exact hj
      have hle := Finset.card_le_card hsub
      have hone := Finset.card_erase_add_one (mem_absentTables hp hpos)
      have hspare := hpt'.card_spare hl.kernelOk
      omega

/-- The tables of a call of `malloc_page`. -/
def Memory.MallocSupplied (s : Memory) (pf : PoolFlag) (cnt : Nat) : Prop :=
  pf = .user → ∀ idx, bitmapApplyCnt (s.vaddrBitmap .user) cnt = .ok (some idx) →
    (s.absentTables (min cnt s.userPool.spare.card) 
        (s.vaddrStart .user + BitVec.ofNat 32 (idx * pgSize))).card ≤ s.kernelPool.spare.card

theorem Memory.MallocSupplied.found (h : s.MallocSupplied pf cnt) (hl : Layout s D)
    (ho : Owned s D g L H) (hcr : D s.cr3) (hva : VaddrsOk s P) (hrun : P s.running)
    (hcnt : 0 < cnt ∧ cnt < 3840) : MallocTablesFound s pf cnt := by
  intro v s1 hget
  obtain ⟨hb, hlow, hend, -⟩ := vaddrGet_window hva hrun hcnt.1 hcnt.2 hget
  cases pf with
  | kernel =>
    have hhigh : 0xc0000000 ≤ (s.vaddrStart .kernel).toNat := hva.high
    exact loopTablesFound_kernel (hb.layout hl) (hb.owned ho) (hb.cr3 ▸ hcr) (by omega) hend
  | user =>
    refine loopTablesFound_user (hb.layout hl) (hb.owned ho) (hb.cr3 ▸ hcr) hend ?_
    unfold vaddrGet at hget
    obtain ⟨found, hfound, hget⟩ := bind_eq_ok.mp hget
    cases found with
    | none => cases hget
    | some idx =>
      obtain ⟨mp, -, hget⟩ := bind_eq_ok.mp hget
      dsimp only at hget
      split at hget
      · cases hget
      · cases hget
        exact h rfl idx hfound

end Tables

/-- The table of one page, after the frame of the page itself has been taken. -/
def Memory.PageSupplied (s : Memory) (pf : PoolFlag) (v : Addr) : Prop :=
  ∀ page p', palloc (s.pool pf) = .ok (some page, p') → TableFound (s.setPool pf p') v

/-- The bit of the page makes no difference. -/
theorem Memory.PageSupplied.marked {s s1 : Memory} {pf : PoolFlag} {v : Addr}
    (h : s.PageSupplied pf v) (hmark : markPage s pf v = .ok s1) : LoopTablesFound pf 1 v s1 := by
  intro page p' hpal
  refine ⟨?_, fun _ _ => trivial⟩
  obtain ⟨hb, -⟩ := markPage_returns s pf v s1 hmark
  rw [(markPage_pool hmark).1] at hpal
  rcases h page p' hpal with hp | ⟨pt, q, hpt⟩
  · refine .inl ?_
    have hpde : (s1.setPool pf p').pde v = (s.setPool pf p').pde v := by
      have hm1 : ∀ s : Memory, (s.setPool pf p').toMachine = s.toMachine := fun s => by
        cases pf <;> rfl
      rw [hm1, hm1, hb.machine]
    rw [hpde]
    exact hp
  · refine .inr ⟨pt, q, ?_⟩
    cases pf with
    | kernel => exact hpt
    | user =>
      have hk : (s1.setPool .user p').kernelPool = s.kernelPool := hb.kernelPool
      rw [hk]
      exact hpt

/-! ## Runs -/

namespace PageState

/-- What happens to the pages: an operation; the release of some of the pages that are live; a
store into one of them; or a new content for the bitmap of a process. -/
inductive PageMove where
  | op (op : PageOp)
  | release (pf : PoolFlag) (vaddr : Addr) (cnt : Nat) (rest : List Alloc)
  | store (vaddr w : Addr)
  | setBitmap (thread : Addr) (mp : Bitmap)

/-- One move. -/
def move (st : PageState) : PageMove → Except Fault PageState
  | .op op => st.step op
  | .release pf vaddr cnt rest => do
    let s ← GwOS.mfreePage st.mem pf vaddr cnt
    .ok { st with mem := s, live := rest }
  | .store vaddr w => do
    let m ← st.mem.store vaddr w
    .ok { st with mem := { st.mem with toMachine := m } }
  | .setBitmap thread mp =>
    .ok { st with
      mem := { st.mem with btmp := Function.update st.mem.btmp (st.mem.pcb thread).bits mp } }

/-- What the callers see to: only what is live and visible is released or written, and a bitmap
keeps its length. -/
def Proper (st : PageState) : PageMove → Prop
  | .op (.mfreePage a) => a ∈ st.live ∧ vpages st.mem.cr3 a.cnt a.vaddr = a.pages
  | .op (.getOnePageNoBitmap _ vaddr) => vaddr < 0xffc00000
  | .op (.activate thread) => thread ∈ st.threads
  | .op _ => True
  | .release _ vaddr cnt rest =>
    st.livePages.Perm (vpages st.mem.cr3 cnt vaddr ++ rest.flatMap Alloc.pages)
  | .store vaddr _ => vpage st.mem.cr3 vaddr ∈ st.livePages
  | .setBitmap thread mp => mp.len = (st.mem.btmp (st.mem.pcb thread).bits).len

/-- The pool of the kernel has a frame for every page table that the move needs. -/
def Supplied (st : PageState) : PageMove → Prop
  | .op (.mallocPage pf cnt) => st.mem.MallocSupplied pf cnt
  | .op (.getOnePage pf vaddr) => st.mem.PageSupplied pf vaddr
  | .op (.getOnePageNoBitmap pf vaddr) => st.mem.PageSupplied pf vaddr
  | _ => True

/-- The states that are reached from boot by moves that satisfy `C`. -/
inductive Runs (C : PageState → PageMove → Prop) : PageState → Prop
  | boot : Runs C boot
  | move {st st' : PageState} (m : PageMove) : Runs C st → st.Proper m → C st m →
      st.move m = .ok st' → Runs C st'

section Run

variable {st st' : PageState} {D : Frame → Prop} {g : VPage → Frame} {pf : PoolFlag} {v w : Addr}
  {cnt : Nat} {m : PageMove}

theorem Valid.malloc (h : st.Valid D g) (hfound : st.mem.MallocSupplied pf cnt) :
    Returns (st.step (.mallocPage pf cnt)) fun st' =>
      st'.mem.kernelVaddr.vaddrBitmap.len = st.mem.kernelVaddr.vaddrBitmap.len ∧ st'.Valid D g := by
  intro st' hst'
  obtain ⟨r, hr, hst'⟩ := bind_eq_ok.mp hst'
  cases hst'
  have hcnt : 0 < cnt ∧ cnt < 3840 := by
    by_contra hno
    rw [GwOS.mallocPage, if_neg hno] at hr
    cases hr
  have htab := hfound.found h.layout h.owned h.active h.vaddrsOk h.running hcnt
  obtain ⟨hlayout, hsteady, howned⟩ :=
    mallocPage_owned h.layout h.owned h.active h.vaddrsOk h.running htab r hr
  exact ⟨(st.enter_mem pf cnt r).symm ▸ hsteady.len, h.enter hlayout hsteady howned⟩

theorem Valid.store (h : st.Valid D g) (hv : vpage st.mem.cr3 v ∈ st.livePages) :
    Returns (st.mem.store v w) fun m => m.cr3 = st.mem.cr3 ∧
      Valid { st with mem := { st.mem with toMachine := m } } D g := by
  have hmem := List.mem_append_left st.heldPages hv
  obtain ⟨f, hf, -, htab⟩ := h.owned.mapped _ hmem
  have hD := h.owned.loose _ hv f hf
  have hidx : dirIdx v ≠ 1023 := by
    have hpage := (h.owned.page _ hmem).2
    rwa [dirIdx_vpage] at hpage
  have hwalk : st.mem.walk v = some f := by
    rw [h.layout.walk_eq h.active hidx]
    exact hf
  rw [Machine.store, hwalk]
  have ho := Owned.setData h.layout h.owned hD htab (Function.update (st.mem.mem f) (wordIdx v) w)
  obtain ⟨hl, -⟩ := h.layout.setData hD htab (Function.update (st.mem.mem f) (wordIdx v) w)
  exact .ok ⟨rfl, h.steady ⟨rfl, rfl, rfl, rfl, rfl, fun _ => rfl⟩ hl ho⟩

theorem Valid.setBitmap (h : st.Valid D g) {thread : Addr} {mp : Bitmap}
    (hlen : mp.len = (st.mem.btmp (st.mem.pcb thread).bits).len) :
    Valid { st with
      mem := { st.mem with btmp := Function.update st.mem.btmp (st.mem.pcb thread).bits mp } } D g := by
  refine ⟨h.layout.congr (fun _ _ => rfl) rfl rfl, h.owned.congr (fun _ _ => rfl)
    (fun _ _ => rfl) (fun _ _ _ _ h => h), h.records.running, h.records.current, h.records.high,
    h.records.aligned, h.records.kernel, fun t ht => (h.records.user t ht).congr rfl ?_, h.records.pcbs,
    fun t ht p hp => ?_⟩
  · show (Function.update st.mem.btmp _ mp (st.mem.pcb t).bits).len = _
    by_cases he : (st.mem.pcb t).bits = (st.mem.pcb thread).bits
    · rw [he, Function.update_self, hlen]
    · rw [Function.update_of_ne he]
  · obtain ⟨hhigh, hlow, hdir, hframe, hbits⟩ := h.records.procs t ht p hp
    exact ⟨hhigh, hlow, hdir, hframe, hbits⟩

/-- The invariant of runs, with the size of the kernel's heap. -/
def Sound (st : PageState) : Prop :=
  st.mem.kernelVaddr.vaddrBitmap.len = 480 ∧ ∃ D g, st.Valid D g

/-- **One move** keeps the invariant. -/
theorem Sound.move (h : st.Sound) (hm : st.Proper m) (hfound : st.Supplied m) :
    Returns (st.move m) Sound := by
  obtain ⟨hlen, D, g, hv⟩ := h
  cases m with
  | op op =>
    cases op with
    | mallocPage pf cnt =>
      exact (hv.malloc hfound).mono fun st' h' => ⟨h'.1.trans hlen, D, g, h'.2⟩
    | getOnePage pf v =>
      exact (hv.getOnePage fun s hs => Memory.PageSupplied.marked hfound hs).mono
        fun st' h' => ⟨h'.1.trans hlen, D, g, h'.2⟩
    | getOnePageNoBitmap pf v =>
      exact (hv.getOnePageNoBitmap ⟨hm, fun page p' hpal => ⟨hfound page p' hpal, fun _ _ => trivial⟩⟩).mono
        fun st' h' => ⟨h'.1.trans hlen, D, g, h'.2⟩
    | mfreePage a => exact (hv.mfreePage hm).mono fun st' h' => ⟨h'.1.trans hlen, D, g, h'.2⟩
    | activate t => exact (hv.activate hm).mono fun st' h' => ⟨h'.1.trans hlen, D, g, h'.2⟩
    | processExecute name =>
      have hlt : st.Allowed (.processExecute name) := by
        show userBitmapPages < st.mem.kernelVaddr.vaddrBitmap.len
        rw [hlen]
        decide
      exact (hv.processExecute hlt).mono fun st' h' => ⟨h'.1.trans hlen, h'.2⟩
  | release pf vaddr cnt rest =>
    exact .bind (hv.release hm) fun s hs => .ok ⟨hs.1.trans hlen, D, g, hs.2⟩
  | store vaddr w => exact .bind (hv.store hm) fun m' h' => .ok ⟨hlen, D, g, h'.2⟩
  | setBitmap thread mp => exact .ok ⟨hlen, D, g, hv.setBitmap hm⟩

/-- A whole run. -/
theorem Runs.sound (h : Runs Supplied st) : st.Sound := by
  induction h with
  | boot =>
    refine ⟨?_, boot_valid⟩
    show bootMemory.kernelVaddr.vaddrBitmap.len = 480
    rw [boot_pools.2.2, Bitmap.len_init]
  | move m _ hm hfound hmove ih => exact ih.move hm hfound _ hmove

/-! ## The round trip -/

/-- `mfree_page` undoes a `malloc_page` of `cnt` pages: it does not fail, the pool and the bitmap
are those from before, and so is every translation, in the running directory and in all
others. In the window of the page tables nothing that was mapped has changed; the kernel's pool
has given out page tables of the running directory at most. -/
def Undoes (st : PageState) (pf : PoolFlag) (cnt : Nat) : Prop :=
  ∀ v s1, GwOS.mallocPage st.mem pf cnt = .ok (some v, s1) →
    ∃ s2, GwOS.mfreePage s1 pf v cnt = .ok s2 ∧
      (s2.pool pf).poolBitmap = (st.mem.pool pf).poolBitmap ∧
      s2.vaddrBitmap pf = st.mem.vaddrBitmap pf ∧
      (∀ i < cnt, s1.walk (v + BitVec.ofNat 32 (i * pgSize)) ≠ none ∧
        s2.walk (v + BitVec.ofNat 32 (i * pgSize)) = none) ∧
      (∀ d, d = st.mem.cr3 ∨ st.Directory d → ∀ a,
        a < 0xffc00000 ∨ (st.mem.under d).walk a ≠ none →
          (s2.under d).walk a = (st.mem.under d).walk a) ∧
      (pf = .user → ∀ f, (st.mem.kernelPool.Taken f → s2.kernelPool.Taken f) ∧
        (s2.kernelPool.Taken f → st.mem.kernelPool.Taken f ∨
          IsTable s2.toMachine (fun d => d = st.mem.cr3) f))

/-- What is mapped in the window of the page tables stays there. -/
theorem walk_window_keeps {s s2 : Memory} {d : Frame} {a : Addr} (hl : Layout s D) (hl2 : Layout s2 D)
    (hd : D d) (hdirs : ∀ k, Mappable D k → Present (s.pdeAt k) → s2.pdeAt k = s.pdeAt k)
    (ha : dirIdx a = 1023) (hw : (s.under d).walk a ≠ none) :
    (s2.under d).walk a = (s.under d).walk a := by
  have hself : SelfMapped (s.under d) := hl.self d hd
  have hself2 : SelfMapped (s2.under d) := hl2.self d hd
  rw [hself.walk_window ha] at hw ⊢
  rw [hself2.walk_window ha]
  show (if Present (s2.mem d (tabIdx a)) then some (pageOf (s2.mem d (tabIdx a))) else none) =
    if Present (s.mem d (tabIdx a)) then some (pageOf (s.mem d (tabIdx a))) else none
  have hp : Present (s.mem d (tabIdx a)) := by
    by_contra hno
    exact hw (if_neg hno)
  by_cases hi : tabIdx a = 1023
  · rw [hi, if_pos (hl2.self d hd).1, if_pos (hl.self d hd).1, (hl2.self d hd).2, (hl.self d hd).2]
  · have hpde : ∀ s : Memory, s.pdeAt (d, tabIdx a ++ 0#10) = s.mem d (tabIdx a) := fun s => by
      rw [Memory.pdeAt]
      exact congrArg _ (dirIdx_area _)
    have hk : Mappable D (d, tabIdx a ++ 0#10) := ⟨hd, fun he => hi ((dirIdx_area _).symm.trans he)⟩
    have hsame := hdirs _ hk (hpde s ▸ hp)
    rw [hpde, hpde] at hsame
    rw [hsame]

theorem Valid.undoes (h : st.Valid D g) (hfound : st.Supplied (.op (.mallocPage pf cnt))) :
    st.Undoes pf cnt := by
  intro v s1 hmalloc
  have hcnt : 0 < cnt ∧ cnt < 3840 := by
    by_contra hno
    rw [GwOS.mallocPage, if_neg hno] at hmalloc
    cases hmalloc
  have hsupplied : st.mem.MallocSupplied pf cnt := hfound
  have htab := hsupplied.found h.layout h.owned h.active h.vaddrsOk h.running hcnt
  have halign : (st.mem.vaddrStart pf).toNat % pgSize = 0 := by
    cases pf with
    | kernel => exact h.records.aligned
    | user => exact (h.records.user _ h.running).aligned
  obtain ⟨hl1, hst1, ho1⟩ := mallocPage_owned h.layout h.owned h.active h.vaddrsOk h.running htab _
    hmalloc
  obtain ⟨s2, hfree, hundo⟩ := mallocPage_undone h.layout h.owned h.active h.vaddrsOk h.running halign
    htab hmalloc
  have hl2 := hundo.layout
  refine ⟨s2, hfree, hundo.pool, hundo.vaddr, fun i hi => ?_, fun d hd a ha => ?_, hundo.tables⟩
  · have hmem := vpage_mem_vpages (v := v) st.mem.cr3 hi
    have hmem1 := List.mem_append_left st.heldPages (List.mem_append_left st.livePages hmem)
    have hidx : dirIdx (v + BitVec.ofNat 32 (i * pgSize)) ≠ 1023 := by
      have hpage := (ho1.page _ hmem1).2
      rwa [dirIdx_vpage] at hpage
    have hwalk1 : s1.walk (v + BitVec.ofNat 32 (i * pgSize)) = s1.frameAt _ :=
      hl1.walk_eq (hst1.cr3.symm ▸ h.active) hidx
    have hwalk2 : s2.walk (v + BitVec.ofNat 32 (i * pgSize)) = s2.frameAt _ :=
      hl2.walk_eq (hundo.steady.cr3.symm ▸ h.active) hidx
    rw [hst1.cr3] at hwalk1
    rw [hundo.steady.cr3] at hwalk2
    obtain ⟨f, hf, -⟩ := ho1.mapped _ hmem1
    constructor
    · rw [hwalk1]
      exact fun hno => Option.some_ne_none f (hf.symm.trans hno)
    · rw [hwalk2]
      exact hundo.gone _ hmem
  · have hD : D d := hd.elim (fun he => he ▸ h.active) h.directory
    by_cases hidx : dirIdx a = 1023
    · refine walk_window_keeps h.layout hl2 hD hundo.dirs hidx (ha.resolve_left fun hlt => ?_)
      exact dirIdx_ne_window hlt hidx
    · rw [← hl2.frameAt_vpage hD hidx, ← h.layout.frameAt_vpage hD hidx]
      exact hundo.others _ (h.layout.mappable_vpage hD hidx)

/-- **Allocation and release** are inverse in every state of a run in which the kernel's pool has
always had a frame for a page table. -/
theorem mallocPage_roundTrip (h : Runs Supplied st) (pf : PoolFlag) (cnt : Nat)
    (hfound : st.Supplied (.op (.mallocPage pf cnt))) : st.Undoes pf cnt := by
  obtain ⟨-, D, g, hv⟩ := h.sound
  exact hv.undoes hfound

/-- Two pages of the kernel's heap at boot. -/
theorem mallocPage_roundTrip_boot : boot.Undoes .kernel 2 ∧
    ∃ v s1, GwOS.mallocPage boot.mem .kernel 2 = .ok (some v, s1) := by
  have hcheck : returnsWith (GwOS.mallocPage boot.mem .kernel 2) (fun r => r.1.isSome) = true := by
    decide +kernel
  obtain ⟨⟨v, s1⟩, hmalloc, hsome⟩ := returnsWith_iff.mp hcheck
  obtain ⟨w, rfl⟩ := Option.isSome_iff_exists.mp hsome
  exact ⟨mallocPage_roundTrip .boot .kernel 2 nofun, w, s1, hmalloc⟩

/-! ## The pool of the kernel is used up -/

/-- A process takes 24 frames at least. -/
theorem processExecute_card {s s' : Memory} {thread : Addr} {name : String} (hk : s.kernelPool.Ok)
    (h : GwOS.processExecute s name = .ok (thread, s')) :
    s'.kernelPool.spare.card + 24 ≤ s.kernelPool.spare.card := by
  have hpages : userBitmapPages = 23 := by decide
  unfold GwOS.processExecute at h
  obtain ⟨⟨pcb, s1⟩, h1, h⟩ := bind_eq_ok.mp h
  obtain ⟨hk1, -, hone⟩ := getKernelPages_card s 1 hk _ h1
  cases pcb with
  | none => cases h
  | some pcb =>
    have hcard1 := hone (Option.some_ne_none pcb)
    obtain ⟨s2, h2, h⟩ := bind_eq_ok.mp h
    unfold GwOS.createUserVaddrBitmap at h2
    obtain ⟨⟨bits, s3⟩, h3, h2⟩ := bind_eq_ok.mp h2
    obtain ⟨hk3, -, hbits⟩ := getKernelPages_card s1 userBitmapPages hk1 _ h3
    cases bits with
    | none => cases h2
    | some bits =>
      have hcard3 := hbits (Option.some_ne_none bits)
      cases h2
      obtain ⟨⟨dir, s4⟩, h4, h⟩ := bind_eq_ok.mp h
      cases h
      unfold GwOS.createPageDir at h4
      obtain ⟨⟨page, s5⟩, h5, h4⟩ := bind_eq_ok.mp h4
      obtain ⟨-, hcard5, -⟩ := getKernelPages_card _ 1 (by exact hk3) _ h5
      have hlast : s4.kernelPool = s5.kernelPool := by
        cases page with
        | none =>
          cases h4
          rfl
        | some page =>
          obtain ⟨m1, -, h4⟩ := bind_eq_ok.mp h4
          obtain ⟨a, -, h4⟩ := bind_eq_ok.mp h4
          obtain ⟨m2, -, h4⟩ := bind_eq_ok.mp h4
          cases h4
          rfl
      have hcard5' : s5.kernelPool.spare.card ≤ s3.kernelPool.spare.card := hcard5
      have hcard1' : s1.kernelPool.spare.card + 1 ≤ s.kernelPool.spare.card := hcard1
      have hcard3' : s3.kernelPool.spare.card + userBitmapPages ≤ s1.kernelPool.spare.card := hcard3
      show s4.kernelPool.spare.card + 24 ≤ s.kernelPool.spare.card
      rw [hlast]
      omega

/-- The process that runs has pages in the areas below `n` only, and is able to take one page
and its table in each of the next ones. -/
structure Filling (st : PageState) (D : Frame → Prop) (g : VPage → Frame) (n : Nat) : Prop where
  valid : st.Valid D g
  dir : st.mem.cr3 ≠ kernelDir
  empty : ∀ i : BitVec 10, n ≤ i.toNat → i.toNat < 768 → st.mem.mem st.mem.cr3 i = 0
  code : st.mem.mem st.mem.cr3 32 = 0
  start : st.mem.vaddrStart .user = userVaddrStart
  bitmap : st.mem.vaddrBitmap .user = bitmapInit userBitmapLen
  user : st.mem.kernelPool.spare.card + 2 ≤ st.mem.userPool.spare.card

/-- The first page of the area `n`. -/
def areaAddr (n : Nat) : Addr := BitVec.ofNat 32 (n * 2 ^ 22)

theorem dirIdx_areaAddr {n : Nat} (h : n < 1024) : (dirIdx (areaAddr n)).toNat = n := by
  rw [dirIdx_toNat, areaAddr, BitVec.toNat_ofNat]
  omega

/-- A page in the next area. -/
theorem Filling.next {n : Nat} (h : st.Filling D g n) (hn : 33 ≤ n) (hlt : n < 768)
    (hk : 0 < st.mem.kernelPool.spare.card) :
    ∃ st', st.move (.op (.getOnePageNoBitmap .user (areaAddr n))) = .ok st' ∧
      st'.Filling D g (n + 1) ∧ st'.mem.kernelPool.spare.card + 1 = st.mem.kernelPool.spare.card := by
  have hidx := dirIdx_areaAddr (n := n) (by omega)
  generalize areaAddr n = v at hidx ⊢
  have hlow : dirIdx v < 768 := by
    show (dirIdx v).toNat < 768
    omega
  have hv := dirIdx_ne_of_low hlow
  have hv0 := h.valid
  have hpde : st.mem.pde v = 0 := h.empty _ (by omega) (by omega)
  have habsent : ¬ Present (st.mem.pde v) := by
    rw [hpde]
    decide
  have hnone : st.mem.frameAt (vpage st.mem.cr3 v) = none := by
    rw [← hv0.layout.walk_eq hv0.active hv]
    exact Machine.walk_empty hpde
  have huser := h.user
  obtain ⟨s', hcall, hadd, hsame, hu, -, hnew⟩ := getOnePageNoBitmap_ok hv0.layout hv0.owned hv0.active
    hlow h.dir hnone (by omega) fun _ => hk
  obtain ⟨hkle, pt, hpt, hmem⟩ := hnew habsent
  have hst := hadd.steady
  have hentry : ∀ i, s'.mem s'.cr3 i =
      if i = dirIdx v then tableEntry pt else st.mem.mem st.mem.cr3 i := by
    intro i
    rw [hst.cr3, hmem _ hv0.active]
    simp only [true_and]
  -- the frame of the table comes from the pool of the kernel
  have htaken : s'.kernelPool.Taken (pageOf pt) := by
    have hp : Present (s'.mem s'.cr3 (dirIdx v)) ∧ pageOf (s'.mem s'.cr3 (dirIdx v)) = pageOf pt := by
      rw [hentry, if_pos rfl]
      exact ⟨tableEntry_present pt, pageOf_tableEntry pt⟩
    rcases hadd.layout.tables _ (hst.cr3.symm ▸ hv0.active) _ hlow hp.1 with ⟨he, -⟩ | ⟨ht, -⟩
    · exact absurd (hst.cr3.symm.trans he) h.dir
    · exact hp.2 ▸ ht
  have hkeq : s'.kernelPool.spare.card + 1 = st.mem.kernelPool.spare.card := by
    unfold GwOS.getOnePageNoBitmap at hcall
    obtain ⟨⟨page, p⟩, hpal, hcall⟩ := bind_eq_ok.mp hcall
    cases page with
    | none => cases hcall
    | some page =>
      obtain ⟨s2, htab, hcall⟩ := bind_eq_ok.mp hcall
      cases hcall
      rcases pageTableAdd_kernel _ v page _ htab with he | ⟨r, hr⟩
      · have he' : s'.kernelPool = st.mem.kernelPool := he
        exact absurd (.inl (he' ▸ htaken)) hpt
      · have hr' : palloc st.mem.kernelPool = .ok (r, s'.kernelPool) := hr
        cases r with
        | none =>
          have he' := (palloc_eq_none hr').2
          exact absurd (.inl (he' ▸ htaken)) hpt
        | some a => exact palloc_card hv0.layout.kernelOk hr'
  refine ⟨st.enter .user 1 (some v, s'), ?_, ⟨?_, ?_, fun i hi hi' => ?_, ?_, ?_, ?_, ?_⟩, hkeq⟩
  · show (GwOS.getOnePageNoBitmap st.mem .user v >>= _) = _
    rw [hcall]
    rfl
  · exact hv0.enter hadd.layout hst hadd.owned
  · exact fun he => h.dir (hst.cr3.symm.trans he)
  · show s'.mem s'.cr3 i = 0
    have hne : i ≠ dirIdx v := by
      rintro rfl
      omega
    rw [hentry, if_neg hne]
    exact h.empty i (by omega) hi'
  · show s'.mem s'.cr3 32 = 0
    have hne : (32 : BitVec 10) ≠ dirIdx v := by
      intro he
      have h32 : (32 : BitVec 10).toNat = 32 := rfl
      rw [he] at h32
      omega
    rw [hentry, if_neg hne]
    exact h.code
  · show (s'.pcb s'.running).vaddrStart = _
    rw [hst.pcb, hst.running]
    exact h.start
  · show s'.btmp (s'.pcb s'.running).bits = _
    rw [hsame.btmp, hst.pcb, hst.running]
    exact h.bitmap
  · show s'.kernelPool.spare.card + 2 ≤ s'.userPool.spare.card
    omega

/-- The areas are filled in until the kernel's pool is used up. -/
theorem Filling.exhaust {n : Nat} (h : st.Filling D g n) (hrun : Runs (fun _ _ => True) st) (hn : 33 ≤ n)
    (hlt : n + st.mem.kernelPool.spare.card < 768) :
    ∃ st' n', Runs (fun _ _ => True) st' ∧ st'.Filling D g n' ∧ n' < 768 ∧ 33 ≤ n' ∧
      st'.mem.kernelPool.spare.card = 0 := by
  induction hk : st.mem.kernelPool.spare.card generalizing st n with
  | zero => exact ⟨st, n, hrun, h, by omega, hn, hk⟩
  | succ k ih =>
    obtain ⟨st1, hmove, h1, hcard⟩ := h.next hn (by omega) (by omega)
    have hidx := dirIdx_areaAddr (n := n) (by omega)
    have hproper : st.Proper (.op (.getOnePageNoBitmap .user (areaAddr n))) := by
      show (areaAddr n).toNat < (0xffc00000 : Addr).toNat
      have h0 : (0xffc00000 : Addr).toNat = 0xffc00000 := rfl
      rw [dirIdx_toNat] at hidx
      omega
    exact ih h1 (.move _ hrun hproper trivial hmove) (by omega) (by omega) (by omega)

/-- The first process, when it runs for the first time. -/
theorem filling_start {C : PageState → PageMove → Prop}
    (hexecute : ∀ st name, C st (.op (.processExecute name)))
    (hactivate : ∀ st t, C st (.op (.activate t))) :
    ∃ st D g, Runs C st ∧ st.Filling D g 33 ∧ 33 + st.mem.kernelPool.spare.card < 768 ∧
      0 < st.mem.kernelPool.spare.card := by
  obtain ⟨D, g, hboot⟩ := boot_valid
  obtain ⟨hkpool, hupool, hvaddr⟩ := boot_pools
  have hm : Managed bootMemory [bootMemory.running] D g [] [] :=
    ⟨hboot.layout, hboot.owned, hboot.records⟩
  have hkcard : bootMemory.kernelPool.spare.card = 479 := by rw [hkpool, Pool.card_spare_init]
  have hucard : bootMemory.userPool.spare.card = 479 := by rw [hupool, Pool.card_spare_init]
  have hlen : bootMemory.kernelVaddr.vaddrBitmap.len = 480 := by rw [hvaddr, Bitmap.len_init]
  have hfree : ∀ cnt, bootMemory.kernelVaddr.vaddrBitmap.FreeAt 0 cnt := fun cnt k _ => by
    rw [hvaddr, Bitmap.bit_init]
  obtain ⟨thread, s1, bits, p, f, hexec, hs1⟩ := hm.processExecute boot_clear (by omega) (hfree 25)
    (by omega) "init"
  obtain ⟨g2, hswitch, ht⟩ := hs1.tracked
  have hok : bootMemory.kernelPool.Ok := hboot.layout.kernelOk
  have hcard1 := processExecute_card hok hexec
  have hsame : s1.userPool = bootMemory.userPool := hs1.userPool
  -- the process is made, and the scheduler switches to it
  have hstep1 : boot.move (.op (.processExecute "init")) = .ok { boot with
      mem := s1, threads := thread :: boot.threads, held := processAllocs s1 thread ++ boot.held } := by
    show (GwOS.processExecute bootMemory "init" >>= _) = _
    rw [hexec]
    rfl
  have hrun1 : Runs C _ := .move (.op (.processExecute "init")) .boot trivial (hexecute ..) hstep1
  have hsound1 := (Runs.boot (C := Supplied)).sound.move (m := .op (.processExecute "init"))
    trivial trivial _ hstep1
  obtain ⟨s2, hact, hs2⟩ := bind_eq_ok.mp hswitch
  have hs2' : ({ s2 with running := thread } : Memory) = { s1 with cr3 := f, running := thread } :=
    Except.ok.inj hs2
  generalize hst1 : ({ boot with
    mem := s1, threads := thread :: boot.threads, held := processAllocs s1 thread ++ boot.held } :
      PageState) = st1 at hstep1 hrun1 hsound1
  have hstep2 : st1.move (.op (.activate thread)) =
      .ok { st1 with mem := { s1 with cr3 := f, running := thread } } := by
    subst hst1
    show (pageDirActivate s1 thread >>= fun s => _) = _
    rw [hact, ← hs2']
    rfl
  have hin : thread ∈ st1.threads := by
    subst hst1
    exact List.mem_cons_self ..
  have hrun2 : Runs C _ := .move (.op (.activate thread)) hrun1 hin (hactivate ..) hstep2
  obtain ⟨-, D2, g2, hv2⟩ := hsound1.move (m := .op (.activate thread)) hin trivial _ hstep2
  refine ⟨_, D2, g2, hrun2, ⟨hv2, ht.managed.parentDir ht.process, fun i _ hi => hs1.empty i hi,
    hs1.empty 32 (by decide), ?_, ?_, ?_⟩, ?_⟩
  · show (s1.pcb thread).vaddrStart = _
    rw [hs1.record]
  · show s1.btmp (s1.pcb thread).bits = _
    rw [hs1.record]
    exact hs1.btmp
  · show s1.kernelPool.spare.card + 2 ≤ s1.userPool.spare.card
    rw [hsame]
    omega
  · have hleft := hs1.kernelPool
    show 33 + s1.kernelPool.spare.card < 768 ∧ 0 < s1.kernelPool.spare.card
    omega

/-- A page whose table has fallen on frame 0, which is empty apart from its entry. -/
structure OnFrameZero (s s' : Memory) (v page : Addr) (p : Pool) : Prop extends SameRecords s s' where
  cr3 : s'.cr3 = s.cr3
  kernelPool : s'.kernelPool = s.kernelPool
  userPool : s'.userPool = p
  dir : ∀ i, s'.mem s.cr3 i = if i = dirIdx v then tableEntry 0 else s.mem s.cr3 i
  table : ∀ i, s'.mem 0 i = if i = tabIdx v then tableEntry page else 0

/-- `page_table_add` when there is no frame for the table. -/
theorem pageTableAdd_zero {s : Memory} (page : Addr) (hself : SelfMapped s.toMachine)
    (hcr : s.cr3 ≠ 0) (hp : s.pde v = 0) (hk : palloc s.kernelPool = .ok (none, s.kernelPool)) :
    ∃ s', GwOS.pageTableAdd s v page = .ok s' ∧ OnFrameZero s s' v page s.userPool := by
  have habsent : ¬ Present (s.pde v) := by
    rw [hp]
    decide
  have hzero : pageOf ((none : Option Addr).getD 0) = 0 := rfl
  refine ⟨_, pageTableAdd_newTable hself habsent hk (hzero ▸ hcr.symm) page,
    ⟨rfl, rfl, rfl, rfl⟩, rfl, rfl, rfl, fun i => ?_, fun i => ?_⟩
  · show ((s.withTable v 0).setWord 0 (tabIdx v) (tableEntry page)).mem s.cr3 i = _
    rw [Machine.setWord_mem_ne _ _ (.inl hcr), Machine.withTable]
    have hframe := Machine.setFrame_mem_ne (s.setWord s.cr3 (dirIdx v) (tableEntry 0)) (f := pageOf 0)
      (fun _ => 0) hcr
    rw [hframe]
    split
    · next he => rw [he, Machine.setWord_mem_self]
    · next he => exact Machine.setWord_mem_ne _ _ (.inr he)
  · show ((s.withTable v 0).setWord 0 (tabIdx v) (tableEntry page)).mem 0 i = _
    split
    · next he => rw [he, Machine.setWord_mem_self]
    · next he =>
      rw [Machine.setWord_mem_ne _ _ (.inr he), Machine.withTable]
      exact congrFun (Machine.setFrame_mem_self ..) i

theorem OnFrameZero.selfMapped {s s' : Memory} {page : Addr} {p : Pool} (h : OnFrameZero s s' v page p)
    (hself : SelfMapped s.toMachine) (hv : dirIdx v ≠ 1023) : SelfMapped s'.toMachine := by
  rw [SelfMapped, h.cr3, h.dir, if_neg hv.symm]
  exact hself

/-- `mfree_page` of one page writes one word of memory. -/
theorem mfreePage_store {s : Memory} : Returns (GwOS.mfreePage s pf v 1) fun s' =>
    ∃ w, s.store (ptePtr v) w = .ok s'.toMachine := by
  unfold GwOS.mfreePage
  split
  · refine .bind .any fun a _ => ?_
    split
    · generalize (if s.userPool.phyAddrStart ≤ a then PoolFlag.user else .kernel) = pf'
      refine .bind (P := fun s1 => ∃ w, s.store (ptePtr v) w = .ok s1.toMachine) ?_ fun s1 h1 => ?_
      · unfold mfreeLoop
        refine .bind .any fun b _ => ?_
        split
        · refine .bind (P := fun s1 => s1.toMachine = s.toMachine) (.bind .any fun mp _ => .ok ?_)
            fun s1 h1 => ?_
          · split <;> rfl
          · refine .bind (P := fun s2 => ∃ w, s.store (ptePtr v) w = .ok s2.toMachine) ?_
              fun s2 h2 => .ok h2
            refine .bind .any fun entry _ => .bind (P := fun m => ∃ w, s.store (ptePtr v) w = .ok m)
              (fun m hm => ⟨_, h1 ▸ hm⟩) fun m hm => .ok hm
        · exact .error _
      · refine .bind .any fun mp _ => .ok ?_
        cases pf <;> exact h1
    · exact .error _
  · exact .error _

/-- The first page of a process whose bitmap marks none. -/
theorem vaddrGet_first {s : Memory} (hlen : (s.vaddrBitmap .user).len = userBitmapLen)
    (hzero : ∀ i, (s.vaddrBitmap .user).bit i = false) (hstart : s.vaddrStart .user = userVaddrStart) :
    ∃ mp, vaddrGet s .user 1 = .ok (some userVaddrStart, s.setVaddrBitmap .user mp) := by
  have hval : userBitmapLen = 94199 := by decide
  have hfirst : (s.vaddrBitmap .user).FirstRun 1 (some 0) := by
    refine ⟨⟨by omega, fun k _ => hzero _⟩, fun j hj => absurd hj (Nat.not_lt_zero j)⟩
  have hfound : bitmapApplyCnt (s.vaddrBitmap .user) 1 = .ok (some 0) := by
    rw [bitmapApplyCnt_of_le (by omega) (by omega)]
    exact bitmapApplyFrom_run (Nat.le_refl 1) hfirst _ 0 (Nat.le_refl 0) (by omega)
  obtain ⟨mp, hmp⟩ := setBits_ok true 1 (s.vaddrBitmap .user) 0 (by omega)
  rw [if_pos rfl] at hmp
  have haddr : s.vaddrStart .user + BitVec.ofNat 32 (0 * pgSize) = userVaddrStart := by
    rw [hstart]
    decide
  have hlow : userVaddrStart < 0xc0000000 - 0x1000 := by decide
  refine ⟨mp, ?_⟩
  unfold vaddrGet
  rw [hfound]
  show (setBits (s.vaddrBitmap .user) 1 1 0 >>= _) = _
  rw [hmp]
  show (if PoolFlag.user = .user ∧
      ¬ s.vaddrStart .user + BitVec.ofNat 32 (0 * pgSize) < 0xc0000000 - 0x1000 then
    Except.error Fault.assert else .ok (some (s.vaddrStart .user + BitVec.ofNat 32 (0 * pgSize)),
      s.setVaddrBitmap .user mp)) = _
  rw [haddr, if_neg fun hno => hno.2 hlow]

/-- **Without a frame for the table**, `malloc_page` and `mfree_page` lose a page: the table of
the new page is the table of another one, and it is cleared. -/
theorem Filling.loses {n : Nat} (h : st.Filling D g n) (hrun : Runs (fun _ _ => True) st) (hn : 33 ≤ n)
    (hlt : n < 768) (hk : st.mem.kernelPool.spare.card = 0) :
    ∃ st', Runs (fun _ _ => True) st' ∧ 1 < (st'.mem.vaddrBitmap .user).len ∧ ¬ st'.Undoes .user 1 := by
  have hv0 := h.valid
  have hself := hv0.layout.selfMapped hv0.active
  have hnone := palloc_none hv0.layout.kernelOk hk
  have huser := h.user
  have hcr : st.mem.cr3 ≠ 0 := by
    intro he
    rcases hv0.layout.dirs _ hv0.active with hroot | ht
    · exact absurd (he.symm.trans hroot) (by decide)
    · have hge := hv0.layout.taken_ge ht
      rw [he] at hge
      exact absurd hge (by decide)
  -- a page in the next area
  have hA := dirIdx_areaAddr (n := n) (by omega)
  have hAtab : tabIdx (areaAddr n) = 0 := by
    apply BitVec.eq_of_toNat_eq
    rw [tabIdx, BitVec.extractLsb'_toNat, Nat.shiftRight_eq_div_pow, areaAddr, BitVec.toNat_ofNat]
    show _ = 0
    omega
  have hAlt : areaAddr n < 0xffc00000 := by
    show (areaAddr n).toNat < (0xffc00000 : Addr).toNat
    have h0 : (0xffc00000 : Addr).toNat = 0xffc00000 := rfl
    rw [dirIdx_toNat] at hA
    omega
  generalize areaAddr n = A at hA hAtab hAlt
  have hA1 : dirIdx A ≠ 1023 := dirIdx_ne_window hAlt
  have hA32 : (32 : BitVec 10) ≠ dirIdx A := by
    intro he
    have h32 : (32 : BitVec 10).toNat = 32 := rfl
    rw [he] at h32
    omega
  obtain ⟨page, p, hpal, -, ht, hcard⟩ := palloc_supply hv0.layout.userOk (by omega)
  obtain ⟨s1, hadd, hs1⟩ := pageTableAdd_zero (s := st.mem.setPool .user p) (v := A) page hself hcr
    (h.empty _ (by omega) (by omega)) hnone
  have hcall : GwOS.getOnePageNoBitmap st.mem .user A = .ok (some A, s1) := by
    rw [GwOS.getOnePageNoBitmap, show palloc (st.mem.pool .user) = _ from hpal]
    show (pageTableAdd (st.mem.setPool .user p) A page >>= _) = _
    rw [hadd]
    rfl
  have hstep : st.move (.op (.getOnePageNoBitmap .user A)) = .ok (st.enter .user 1 (some A, s1)) := by
    show (GwOS.getOnePageNoBitmap st.mem .user A >>= _) = _
    rw [hcall]
    rfl
  refine ⟨_, .move (.op (.getOnePageNoBitmap .user A)) hrun hAlt trivial hstep, ?_, fun hundo => ?_⟩
  · show 1 < (s1.btmp (s1.pcb s1.running).bits).len
    rw [hs1.btmp, hs1.pcb, hs1.running]
    have hbitmap : (st.mem.btmp (st.mem.pcb st.mem.running).bits) = bitmapInit userBitmapLen := h.bitmap
    show 1 < (st.mem.btmp (st.mem.pcb st.mem.running).bits).len
    have hval : userBitmapLen = 94199 := by decide
    rw [hbitmap, Bitmap.len_init, hval]
    omega
  · -- `malloc_page` takes the first page of the process
    have hbitmap1 : s1.vaddrBitmap .user = bitmapInit userBitmapLen := by
      show s1.btmp (s1.pcb s1.running).bits = _
      rw [hs1.btmp, hs1.pcb, hs1.running]
      exact h.bitmap
    have hstart1 : s1.vaddrStart .user = userVaddrStart := by
      show (s1.pcb s1.running).vaddrStart = _
      rw [hs1.pcb, hs1.running]
      exact h.start
    obtain ⟨mp, hget⟩ := vaddrGet_first (by rw [hbitmap1, Bitmap.len_init])
      (fun i => by rw [hbitmap1, Bitmap.bit_init]) hstart1
    have hself1 := hs1.selfMapped hself hA1
    have hcr1 : s1.cr3 = st.mem.cr3 := hs1.cr3
    have hk1 : s1.kernelPool = st.mem.kernelPool := hs1.kernelPool
    have hu1 : s1.userPool = p := hs1.userPool
    obtain ⟨page2, p2, hpal2, -⟩ := palloc_supply (ht.toSameRange.ok hv0.layout.userOk)
      (show 0 < p.spare.card by omega)
    have hpde1 : s1.pde userVaddrStart = 0 := by
      show s1.mem s1.cr3 32 = 0
      rw [hcr1]
      refine (hs1.dir 32).trans ?_
      rw [if_neg hA32]
      exact h.code
    obtain ⟨s3, hadd3, hs3⟩ := pageTableAdd_zero
      (s := (s1.setVaddrBitmap .user mp).setPool .user p2) (v := userVaddrStart) page2 hself1
      (by rw [← hcr1] at hcr; exact hcr) hpde1 (by rw [← hk1] at hnone; exact hnone)
    have hmalloc : GwOS.mallocPage s1 .user 1 = .ok (some userVaddrStart, s3) := by
      have hpal3 : palloc ((s1.setVaddrBitmap .user mp).pool .user) = .ok (some page2, p2) := by
        show palloc s1.userPool = _
        rw [hu1]
        exact hpal2
      have hloop : mallocLoop .user 1 userVaddrStart (s1.setVaddrBitmap .user mp) = .ok (true, s3) := by
        unfold mallocLoop
        exact bind_eq_ok.mpr ⟨_, hpal3, bind_eq_ok.mpr ⟨_, hadd3, rfl⟩⟩
      rw [GwOS.mallocPage, if_pos (by decide)]
      exact bind_eq_ok.mpr ⟨_, hget, bind_eq_ok.mpr ⟨_, hloop, rfl⟩⟩
    -- which empties the table of the other page
    obtain ⟨s4, hfree, -, -, -, hsame, -⟩ := hundo _ _ hmalloc
    obtain ⟨w, hw⟩ := mfreePage_store _ hfree
    have hself3 := hs3.selfMapped hself1 (by decide)
    have hcr3 : s3.cr3 = st.mem.cr3 := hs3.cr3.trans hcr1
    have hdir3 : ∀ i, s3.mem st.mem.cr3 i =
        if i = 32 then tableEntry 0 else if i = dirIdx A then tableEntry 0 else
          st.mem.mem st.mem.cr3 i := by
      intro i
      rw [← hcr1]
      refine (hs3.dir i).trans ?_
      refine if_congr Iff.rfl rfl ?_
      show s1.mem s1.cr3 i = _
      rw [hcr1]
      exact hs1.dir i
    have hp3 : s3.pde userVaddrStart = tableEntry 0 := by
      show s3.mem s3.cr3 32 = _
      rw [hcr3, hdir3, if_pos rfl]
    have htab3 : s3.tableOf userVaddrStart = 0 := by
      rw [Machine.tableOf, hp3]
      decide
    rw [hself3.store_ptePtr (by rw [hp3]; decide), htab3] at hw
    have hm4 : s4.toMachine = s3.setWord 0 (tabIdx userVaddrStart) w := (Except.ok.inj hw).symm
    have hpde4 : ((s4.under st.mem.cr3).pde A) = tableEntry 0 := by
      show s4.mem st.mem.cr3 (dirIdx A) = _
      rw [hm4, Machine.setWord_mem_ne _ _ (.inl hcr), hdir3, if_neg hA32.symm, if_pos rfl]
    have hpte4 : ((s4.under st.mem.cr3).pte A) = 0 := by
      rw [Machine.pte, Machine.tableOf, hpde4, hAtab]
      show s4.mem 0 0 = 0
      rw [hm4, Machine.setWord_mem_ne _ _ (.inr (by decide)), hs3.table]
      exact if_neg (by decide)
    have hnone4 : (s4.under st.mem.cr3).walk A = none := by
      rw [Machine.walk, hpte4, if_neg]
      rintro ⟨-, hp⟩
      exact absurd hp (by decide)
    have hpde1' : (s1.under st.mem.cr3).pde A = tableEntry 0 := (hs1.dir _).trans (if_pos rfl)
    have hpte1 : (s1.under st.mem.cr3).pte A = tableEntry page := by
      rw [Machine.pte, Machine.tableOf, hpde1']
      exact (hs1.table _).trans (if_pos rfl)
    have hsome1 : (s1.under st.mem.cr3).walk A = some (pageOf (tableEntry page)) := by
      rw [Machine.walk, hpde1', hpte1, if_pos ⟨by decide, tableEntry_present page⟩]
    have hkept := hsame st.mem.cr3 (.inl hcr1.symm) A (.inl hAlt)
    rw [hnone4] at hkept
    exact Option.some_ne_none _ (hsome1.symm.trans hkept.symm)

/-- **`mfree_page` does not undo `malloc_page`** in every state that is reached. -/
theorem mallocPage_loses : ¬ ∀ st, Runs (fun _ _ => True) st → ∀ pf cnt, 1 ≤ cnt →
    cnt < (st.mem.vaddrBitmap pf).len → st.Undoes pf cnt := by
  intro h
  obtain ⟨st, D, g, hrun, hfill, hlt, -⟩ := filling_start (C := fun _ _ => True) (fun _ _ => trivial)
    fun _ _ => trivial
  obtain ⟨st1, n, hrun1, hfill1, hn, hge, hk⟩ := hfill.exhaust hrun (Nat.le_refl 33) hlt
  obtain ⟨st2, hrun2, hlen, hno⟩ := hfill1.loses hrun1 hge hn hk
  exact hno (h st2 hrun2 .user 1 (Nat.le_refl 1) hlen)

end Run

end PageState

end GwOS
