import GwOS.Userprog.HeapCalls
import GwOS.Userprog.NewProcess

/-!
# The heap of the kernel

The kernel threads share one heap, and they share the pages of the kernel with the callers of
`get_kernel_pages`. `KernelHeap` is the state of both, with what the owners of the blocks have written
into them. A step is one of the calls, a store, or a switch to another kernel thread.

- `kernelHeap_answers`: no call of the heap fails an `ASSERT` or ends in a page fault.
- `kernelHeap_reads`: the heap is a store of blocks that do not overlap, and a word is what its owner
  has written last.
- `kernelHeap_returns`: what `sys_free` gives back.
-/

namespace GwOS

/-- The memory and the heap, the sizes of the live blocks, what their owners have written, and the
pages that `get_kernel_pages` has returned. -/
structure KernelHeap where
  mem : Memory
  heap : Heap
  live : Addr → Option (BitVec 32)
  data : Addr → Nat → Addr
  runs : List (Addr × Nat)

/-- A call of the heap or of the pages, a store into one of them, or a switch. -/
inductive HeapCall where
  | malloc (size : BitVec 32)
  | free (b : Addr)
  | store (b : Addr) (k : Nat) (w : Addr)
  | getPages (cnt : Nat)
  | putPages (run : Addr × Nat)
  | write (v w : Addr)
  | switch (thread : Addr)

namespace KernelHeap

/-- The pages that others have got from the kernel. -/
def runPages (runs : List (Addr × Nat)) : List VPage := runs.flatMap fun r => vpages kernelDir r.2 r.1

/-- One step. -/
def call (st : KernelHeap) : HeapCall → Except Fault KernelHeap
  | .malloc size => do
    match ← sysMalloc st.mem st.heap size with
    | (none, s, h) => .ok { st with mem := s, heap := h }
    | (some b, s, h) =>
      .ok { st with
        mem := s
        heap := h
        live := Function.update st.live b (some size)
        data := Function.update st.data b fun _ => 0 }
  | .free b => do
    let (s, h) ← sysFree st.mem st.heap b
    .ok { st with mem := s, heap := h, live := Function.update st.live b none }
  | .store b k w => do
    let m ← st.mem.store (b + BitVec.ofNat 32 (k * 4)) w
    .ok { st with
      mem := { st.mem with toMachine := m }
      data := Function.update st.data b (Function.update (st.data b) k w) }
  | .getPages cnt => do
    match ← getKernelPages st.mem cnt with
    | (none, s) => .ok { st with mem := s }
    | (some v, s) => .ok { st with mem := s, runs := (v, cnt) :: st.runs }
  | .putPages run => do
    let s ← mfreePage st.mem .kernel run.1 run.2
    .ok { st with mem := s, runs := st.runs.erase run }
  | .write v w => do
    let m ← st.mem.store v w
    .ok { st with mem := { st.mem with toMachine := m } }
  | .switch thread => do
    let s ← st.mem.switchTo thread
    .ok { st with mem := s }

/-- What the callers see to: a block is freed or written while it is live, pages are given back as
they came, and no request asks for more pages than are searched. -/
def Proper (threads : List Addr) (st : KernelHeap) : HeapCall → Prop
  | .malloc size => 0 < size → size < st.mem.kernelPool.poolSize → Searchable st.mem size
  | .free b => st.live b ≠ none
  | .store b k _ => ∃ size, st.live b = some size ∧ k * 4 < size.toNat
  | .getPages cnt => 1 ≤ cnt ∧ cnt < 3840 ∧ cnt < st.mem.kernelVaddr.vaddrBitmap.len
  | .putPages run => run ∈ st.runs
  | .write v _ => v.toNat % 4 = 0 ∧ 0xc0000000 ≤ v.toNat ∧ vpage kernelDir v ∈ runPages st.runs
  | .switch thread => thread ∈ threads

/-- A heap that has not been used. -/
def Fresh (threads : List Addr) (st : KernelHeap) : Prop :=
  (∃ D g L H, Grounded st.mem threads D g L H) ∧ st.heap = Heap.init ∧ (∀ b, st.live b = none) ∧
    st.runs = []

/-- The states that are reached from `st`. -/
inductive Reaches (threads : List Addr) (st : KernelHeap) : KernelHeap → Prop
  | refl : Reaches threads st st
  | step {st1 st2 : KernelHeap} (c : HeapCall) : Reaches threads st st1 → st1.Proper threads c →
      st1.call c = .ok st2 → Reaches threads st st2

/-- The invariant. -/
structure Inv (threads : List Addr) (D : Frame → Prop) (g : VPage → Frame) (H : List VPage)
    (st : KernelHeap) : Prop where
  heap : HeapInv st.mem st.heap threads D g (runPages st.runs) H st.live
  runs : ∀ r ∈ st.runs, 1 ≤ r.2 ∧ st.mem.OwnRun r.2 r.1
  reads : ∀ b size, st.live b = some size → ∀ k, k * 4 < size.toNat →
    st.mem.load (b + BitVec.ofNat 32 (k * 4)) = .ok (st.data b k)

section Steps

variable {threads : List Addr} {D : Frame → Prop} {g : VPage → Frame} {L H : List VPage}
  {st st' : KernelHeap} {b v w thread : Addr} {size : BitVec 32} {cnt k : Nat} {run : Addr × Nat}

theorem runPages_cons (run : Addr × Nat) (runs : List (Addr × Nat)) :
    runPages (run :: runs) = vpages kernelDir run.2 run.1 ++ runPages runs := List.flatMap_cons ..

theorem mem_runPages {runs : List (Addr × Nat)} (h : run ∈ runs) :
    vpages kernelDir run.2 run.1 ⊆ runPages runs := fun _ hk => List.mem_flatMap.mpr ⟨run, h, hk⟩

/-- The pages of others stay where they were. -/
theorem runs_congr {s s' : Memory} {runs : List (Addr × Nat)} (h : ∀ r ∈ runs, 1 ≤ r.2 ∧ s.OwnRun r.2 r.1)
    (hr : SameRanges s s') (hst : Steady s s') (hframe : ∀ k ∈ runPages runs, s'.frameAt k = s.frameAt k) :
    ∀ r ∈ runs, 1 ≤ r.2 ∧ s'.OwnRun r.2 r.1 := fun r hmem =>
  ⟨(h r hmem).1, (h r hmem).2.congr hr hst.start hst.len fun _ hk => hframe _ (mem_runPages hmem hk)⟩

theorem Inv.kept (h : st.Inv threads D g H) {s' : Memory} (hk : Kept st.mem s' (runPages st.runs)) :
    ∀ r ∈ st.runs, 1 ≤ r.2 ∧ s'.OwnRun r.2 r.1 := runs_congr h.runs hk.ranges hk.steady hk.frame

/-- The first state. -/
theorem Fresh.inv (h : st.Fresh threads) : ∃ D g H, st.Inv threads D g H := by
  obtain ⟨⟨D, g, L, H, hg⟩, hheap, hlive, hruns⟩ := h
  have hnone : ∀ b c, ¬ LiveBlock st.heap [] b c := by
    intro b c hb
    cases hb with
    | small i b hb => exact List.not_mem_nil hb.arena
    | large x hx _ => exact List.not_mem_nil hx
  refine ⟨D, g, H, ⟨[], L, ?_, ⟨nofun, fun i => ?_, nofun, fun b size hb => ?_, fun b c hb => ?_⟩, nofun⟩,
    fun r hr => ?_, fun b size hb => ?_⟩
  · rw [hruns]
    exact hg
  · rw [hheap]
    exact .nil ..
  · rw [hlive b] at hb
    cases hb
  · exact absurd hb (hnone b c)
  · rw [hruns] at hr
    cases hr
  · rw [hlive b] at hb
    cases hb

theorem Inv.malloc (h : st.Inv threads D g H) (hp : st.Proper threads (.malloc size)) :
    ∃ st', st.call (.malloc size) = .ok st' ∧ st'.Inv threads D g H := by
  obtain ⟨r, s', h', hcall, hans⟩ := h.heap.sysMalloc hp
  have hruns := h.kept hans.kept
  cases r with
  | none =>
    refine ⟨{ st with mem := s', heap := h' }, ?_, hans.none rfl, hruns, fun b n hb k hk => ?_⟩
    · rw [call, hcall]
      rfl
    · exact (hans.blocks b n hb k hk).trans (h.reads b n hb k hk)
  | some a =>
    obtain ⟨-, hzero, hinv⟩ := hans.some a rfl
    refine ⟨{ st with
      mem := s'
      heap := h'
      live := Function.update st.live a (some size)
      data := Function.update st.data a fun _ => 0 }, ?_, hinv, hruns, fun b n hb k hk => ?_⟩
    · rw [call, hcall]
      rfl
    · dsimp only at hb ⊢
      by_cases he : b = a
      · subst he
        rw [Function.update_self] at hb ⊢
        cases hb
        exact hzero k hk
      · rw [Function.update_of_ne he] at hb ⊢
        exact (hans.blocks b n hb k hk).trans (h.reads b n hb k hk)

theorem Inv.free (h : st.Inv threads D g H) (hp : st.Proper threads (.free b)) :
    ∃ st', st.call (.free b) = .ok st' ∧ st'.Inv threads D g H := by
  obtain ⟨s', h', c, hcall, -, hans⟩ := h.heap.sysFree hp
  refine ⟨{ st with mem := s', heap := h', live := Function.update st.live b none }, ?_, hans.inv,
    h.kept hans.kept, fun a n ha k hk => ?_⟩
  · rw [call, hcall]
    rfl
  · dsimp only at ha ⊢
    have hne : a ≠ b := by
      rintro rfl
      rw [Function.update_self] at ha
      cases ha
    have hold := ha
    rw [Function.update_of_ne hne] at hold
    exact (hans.blocks a n ha k hk).trans (h.reads a n hold k hk)

theorem Inv.store (h : st.Inv threads D g H) (hp : st.Proper threads (.store b k w)) :
    ∃ st', st.call (.store b k w) = .ok st' ∧ st'.Inv threads D g H := by
  obtain ⟨spans, L, hg, hok, hbusy⟩ := h.heap
  obtain ⟨size, hsize, hk⟩ := hp
  obtain ⟨c, hc, hle⟩ := hok.fits b size hsize
  obtain ⟨x, hx, -, hbytes⟩ := hc.byte_mem hg.vaddrs hok.own
  have hal := hc.aligned hg.vaddrs hok.own
  obtain ⟨hnat, hhigh, hmem⟩ := hbytes (k * 4) (by omega)
  obtain ⟨m, hm, hprov, hbut, hload⟩ := hg.storeWord hhigh (by omega)
    (List.mem_append_left _ (mem_spanPages hx hmem)) w
  have hframe : ∀ k ∈ spanPages spans ++ (runPages st.runs ++ L),
      ({ st.mem with toMachine := m } : Memory).frameAt k = st.mem.frameAt k := fun k hk =>
    hprov.frame k (List.mem_append_left H hk)
  refine ⟨{ st with
    mem := { st.mem with toMachine := m }
    data := Function.update st.data b (Function.update (st.data b) k w) }, ?_,
    ⟨spans, L, hprov.grounded, hok.moved ?_, hbusy⟩, ?_, fun b' n hb' k' hk' => ?_⟩
  · rw [call, hm]
    rfl
  · exact HeapOk.frames hok.own hprov.ranges hprov.steady fun k hk =>
      hframe k (List.mem_append_left _ hk)
  · exact runs_congr h.runs hprov.ranges hprov.steady fun k hk =>
      hframe k (List.mem_append_right _ (List.mem_append_left L hk))
  · have hold := h.reads b' n hb' k' hk'
    obtain ⟨c', hc', hle'⟩ := hok.fits b' n hb'
    obtain ⟨y, hy, -, hbytes'⟩ := hc'.byte_mem hg.vaddrs hok.own
    obtain ⟨hnat', hhigh', hmem'⟩ := hbytes' (k' * 4) (by omega)
    have hread := hbut _ hhigh' (List.mem_append_left _ (mem_spanPages hy hmem'))
    dsimp only
    by_cases he : b' = b
    · subst he
      rw [Function.update_self]
      by_cases hkk : k' = k
      · subst hkk
        rw [Function.update_self]
        exact hload
      · rw [Function.update_of_ne hkk, ← hold]
        exact hread (by omega)
    · have hdisj := hc'.disjoint hc hg.vaddrs hok.own hg.spans_nodup he
      have hal' := hc'.aligned hg.vaddrs hok.own
      rw [Function.update_of_ne he, ← hold]
      exact hread (by omega)

theorem Inv.write (h : st.Inv threads D g H) (hp : st.Proper threads (.write v w)) :
    ∃ st', st.call (.write v w) = .ok st' ∧ st'.Inv threads D g H := by
  obtain ⟨spans, L, hg, hok, hbusy⟩ := h.heap
  obtain ⟨hal, hhigh, hmem⟩ := hp
  have hmem' : vpage kernelDir v ∈ runPages st.runs ++ L := List.mem_append_left L hmem
  obtain ⟨m, hm, hprov, hbut, -⟩ := hg.storeWord hhigh hal (List.mem_append_right _ hmem') w
  have hframe : ∀ k ∈ spanPages spans ++ (runPages st.runs ++ L),
      ({ st.mem with toMachine := m } : Memory).frameAt k = st.mem.frameAt k := fun k hk =>
    hprov.frame k (List.mem_append_left H hk)
  refine ⟨{ st with mem := { st.mem with toMachine := m } }, ?_,
    ⟨spans, L, hprov.grounded, hok.moved ?_, hbusy⟩, ?_, fun b' n hb' k' hk' => ?_⟩
  · rw [call, hm]
    rfl
  · exact HeapOk.frames hok.own hprov.ranges hprov.steady fun k hk =>
      hframe k (List.mem_append_left _ hk)
  · exact runs_congr h.runs hprov.ranges hprov.steady fun k hk =>
      hframe k (List.mem_append_right _ (List.mem_append_left L hk))
  · -- the page of the word is in no span
    have hloads : Loads st.mem { st.mem with toMachine := m } (spanPages spans) := by
      intro a ha hk
      refine hbut a ha (List.mem_append_left _ hk) ?_
      by_contra hin
      have hpage : vpage kernelDir a = vpage kernelDir v := by
        rw [vpage, vpage, ite_self, ite_self]
        refine congrArg (Prod.mk kernelDir) (BitVec.eq_of_toNat_eq ?_)
        rw [pageOf_toNat, pageOf_toNat]
        omega
      exact (List.nodup_append'.mp (List.nodup_append'.mp hg.owned.nodup).1).2.2 hk (hpage ▸ hmem')
    exact (hok.same_blocks hg.vaddrs hloads b' n hb' k' hk').trans (h.reads b' n hb' k' hk')

/-- **`get_kernel_pages`** beside the heap. -/
theorem Inv.getPages (h : st.Inv threads D g H) (hp : st.Proper threads (.getPages cnt)) :
    ∃ st', st.call (.getPages cnt) = .ok st' ∧ st'.Inv threads D g H := by
  obtain ⟨spans, L, hg, hok, hbusy⟩ := h.heap
  obtain ⟨hcnt, hmax, hlt⟩ := hp
  obtain ⟨r, s1, hr, hnone, hsome⟩ := hg.mallocPage hcnt hmax hlt
  -- whatever has been added, the spans and the runs are as before
  have hkeep : ∀ s' N, Provided st.mem s' threads D g (spanPages spans ++ (runPages st.runs ++ L)) H N →
      Loads st.mem s' (spanPages spans ++ (runPages st.runs ++ L)) →
      (∀ x ∈ spans, 1 ≤ x.cnt ∧ s'.OwnRun x.cnt x.vaddr) ∧ (∀ r ∈ st.runs, 1 ≤ r.2 ∧ s'.OwnRun r.2 r.1) ∧
        SameBlocks st.mem s' st.live := by
    intro s' N hprov hloads
    refine ⟨HeapOk.frames hok.own hprov.ranges hprov.steady fun k hk => hprov.frame k
      (List.mem_append_left H (List.mem_append_left _ hk)), runs_congr h.runs hprov.ranges hprov.steady
      fun k hk => hprov.frame k (List.mem_append_left H (List.mem_append_right _
        (List.mem_append_left L hk))), ?_⟩
    exact hok.same_blocks hg.vaddrs (hloads.mono (List.subset_append_left ..))
  cases r with
  | none =>
    obtain ⟨⟨N, hprov⟩, hloads⟩ := hnone rfl
    obtain ⟨hown, hruns, hsame⟩ := hkeep s1 N hprov hloads
    refine ⟨{ st with mem := s1 }, ?_, hok.lost hbusy hprov, hruns, fun b n hb k hk =>
      (hsame b n hb k hk).trans (h.reads b n hb k hk)⟩
    rw [call, getKernelPages, GwOS.getPages, hr]
    rfl
  | some v =>
    obtain ⟨m, hm, hprov, hloads, hrun, -⟩ := hsome v rfl
    obtain ⟨hown, hruns, hsame⟩ := hkeep _ _ hprov hloads
    have hperm : (vpages kernelDir cnt v ++ (spanPages spans ++ (runPages st.runs ++ L))).Perm
        (spanPages spans ++ (runPages ((v, cnt) :: st.runs) ++ L)) := by
      rw [runPages_cons, List.append_assoc]
      exact List.perm_append_comm_assoc ..
    refine ⟨{ st with mem := { s1 with toMachine := m }, runs := (v, cnt) :: st.runs }, ?_,
      ⟨spans, L, hprov.grounded.perm hperm, hok.moved hown, hbusy⟩, fun r hr => ?_, fun b n hb k hk =>
      (hsame b n hb k hk).trans (h.reads b n hb k hk)⟩
    · rw [call, getKernelPages, GwOS.getPages, hr]
      show ((clearPages cnt v s1.toMachine >>= _) >>= _) = _
      rw [hm]
      rfl
    · rcases List.mem_cons.mp hr with rfl | hold
      · exact ⟨hcnt, hrun⟩
      · exact hruns r hold

/-- **`mfree_page`** of pages that somebody else has got. -/
theorem Inv.putPages (h : st.Inv threads D g H) (hp : st.Proper threads (.putPages run)) :
    ∃ st', st.call (.putPages run) = .ok st' ∧ st'.Inv threads D g H := by
  obtain ⟨spans, L, hg, hok, hbusy⟩ := h.heap
  obtain ⟨hcnt, hrun⟩ := h.runs run hp
  have hpages : (runPages st.runs).Perm (vpages kernelDir run.2 run.1 ++ runPages (st.runs.erase run)) := by
    rw [← runPages_cons]
    exact (List.perm_cons_erase hp).flatMap_right _
  have hperm : (spanPages spans ++ (runPages st.runs ++ L)).Perm
      (vpages kernelDir run.2 run.1 ++ (spanPages spans ++ (runPages (st.runs.erase run) ++ L))) := by
    refine (List.Perm.append_left _ (hpages.append_right L)).trans ?_
    rw [List.append_assoc]
    exact List.perm_append_comm_assoc ..
  obtain ⟨s', hfree, hg', hr, hrem⟩ := (hg.perm hperm).mfreePage hrun hcnt
  have hsub := List.subset_append_right (vpages kernelDir run.2 run.1)
    (spanPages spans ++ (runPages (st.runs.erase run) ++ L))
  have hframe : ∀ k ∈ spanPages spans ++ (runPages (st.runs.erase run) ++ L),
      s'.frameAt k = st.mem.frameAt k := fun k hk => hrem.keeps.frame k (List.mem_append_left H hk)
  have hloads := (hg.perm hperm).loads hg' hsub (List.Subset.refl _) hframe fun k hk f hf =>
    hrem.keeps.data k (List.mem_append_left H hk) f hf ((hg.perm hperm).owned.loose k (hsub hk) f hf)
  refine ⟨{ st with mem := s', runs := st.runs.erase run }, ?_,
    ⟨spans, L, hg', hok.moved ?_, hbusy⟩, ?_, fun b n hb k hk => ?_⟩
  · rw [call, hfree]
    rfl
  · exact HeapOk.frames hok.own hr hrem.steady fun k hk => hframe k (List.mem_append_left _ hk)
  · refine runs_congr (fun r hmem => h.runs r (List.mem_of_mem_erase hmem)) hr hrem.steady fun k hk => ?_
    exact hframe k (List.mem_append_right _ (List.mem_append_left L hk))
  · have hsame := hok.same_blocks hg.vaddrs (hloads.mono (List.subset_append_left ..))
    exact (hsame b n hb k hk).trans (h.reads b n hb k hk)

/-- The scheduler switches to another kernel thread. -/
theorem Inv.switch (h : st.Inv threads D g H) (hp : st.Proper threads (.switch thread)) :
    ∃ st', st.call (.switch thread) = .ok st' ∧ st'.Inv threads D g H := by
  obtain ⟨spans, L, hg, hok, hbusy⟩ := h.heap
  have hdir : (st.mem.pcb thread).pgDir = none := hg.kernel thread hp
  generalize hs : ({ st.mem with cr3 := kernelDir, running := thread } : Memory) = s
  have hswitch : st.mem.switchTo thread = .ok s := by
    rw [Memory.switchTo, pageDirActivate, hdir, ← hs]
    rfl
  have hmem : s.mem = st.mem.mem := by rw [← hs]
  have hpcb : s.pcb = st.mem.pcb := by rw [← hs]
  have hbtmp : s.btmp = st.mem.btmp := by rw [← hs]
  have hvaddr : s.kernelVaddr = st.mem.kernelVaddr := by rw [← hs]
  have hkpool : s.kernelPool = st.mem.kernelPool := by rw [← hs]
  have hupool : s.userPool = st.mem.userPool := by rw [← hs]
  have hframe : ∀ k, s.frameAt k = st.mem.frameAt k := fun k => by rw [← hs]; rfl
  have hranges : SameRanges st.mem s := .of_pools hkpool hupool
  have hlayout : Layout s D := hg.layout.congr (fun _ _ => by rw [hmem]) hkpool hupool
  have hg' : Grounded s threads D g (spanPages spans ++ (runPages st.runs ++ L)) H := by
    refine ⟨hlayout, ?_, ?_, ⟨?_, ?_, ?_, fun t ht => ?_⟩, ?_, fun t ht => ?_, ?_, fun idx hidx hbit => ?_⟩
    · refine hg.owned.congr (fun _ _ => by rw [hmem]) (fun k _ => hframe k) fun k _ f _ ht => ?_
      rwa [Memory.Taken, hkpool, hupool]
    · rw [← hs]
      exact hg.layout.root
    · rw [hvaddr]
      exact hg.vaddrs.high
    · rw [hvaddr]
      exact hg.vaddrs.aligned
    · rw [hvaddr]
      exact hg.vaddrs.kernel
    · rw [hpcb, hbtmp]
      exact hg.vaddrs.user t ht
    · rw [← hs]
      exact hp
    · rw [hpcb]
      exact hg.kernel t ht
    · rw [hvaddr]
      exact hg.start
    · rw [hvaddr] at hidx hbit
      rw [hframe, Memory.kernelPage, hvaddr]
      exact hg.clear idx hidx hbit
  have hloads := hg.loads hg' (List.Subset.refl _) (List.Subset.refl _) (fun k _ => hframe k)
    fun _ _ f _ => by rw [hmem]
  have hown : ∀ cnt v, st.mem.OwnRun cnt v → s.OwnRun cnt v := fun cnt v hrun =>
    hrun.congr hranges (by rw [hvaddr]) (by rw [hvaddr]) fun k _ => hframe k
  refine ⟨{ st with mem := s }, ?_, ⟨spans, L, hg', hok.moved fun x hx => ?_, hbusy⟩, fun r hr => ?_,
    fun b n hb k hk => ?_⟩
  · rw [call, hswitch]
    rfl
  · exact ⟨(hok.own x hx).1, hown _ _ (hok.own x hx).2⟩
  · exact ⟨(h.runs r hr).1, hown _ _ (h.runs r hr).2⟩
  · have hsame := hok.same_blocks hg.vaddrs (hloads.mono (List.subset_append_left ..))
    exact (hsame b n hb k hk).trans (h.reads b n hb k hk)

/-- **Each step returns and keeps the invariant.** -/
theorem Inv.call (h : st.Inv threads D g H) {c : HeapCall} (hp : st.Proper threads c) :
    ∃ st', st.call c = .ok st' ∧ st'.Inv threads D g H := by
  cases c with
  | malloc size => exact h.malloc hp
  | free b => exact h.free hp
  | store b k w => exact h.store hp
  | getPages cnt => exact h.getPages hp
  | putPages run => exact h.putPages hp
  | write v w => exact h.write hp
  | switch thread => exact h.switch hp

theorem Reaches.inv (hr : Reaches threads st st') (hi : st.Inv threads D g H) :
    st'.Inv threads D g H := by
  induction hr with
  | refl => exact hi
  | step c _ hp hc ih =>
    obtain ⟨st2, hst2, hinv⟩ := ih.call hp
    cases hc.symm.trans hst2
    exact hinv

end Steps

/-- The heap after `mem_init`. -/
def boot : KernelHeap := ⟨bootMemory, Heap.init, fun _ => none, fun _ _ => 0, []⟩

theorem boot_fresh : boot.Fresh [bootMemory.running] := by
  obtain ⟨-, -, hvaddr⟩ := PageState.boot_pools
  have hlen : bootMemory.kernelVaddr.vaddrBitmap.len = 480 := by rw [hvaddr, Bitmap.len_init]
  refine ⟨⟨fun d => d = kernelDir, fun _ => 0, [], [], PageState.boot_layout, ?_, rfl, ⟨?_, ?_, ?_, ?_⟩,
    List.mem_cons_self .., fun _ _ => rfl, ?_, boot_clear⟩, rfl, fun _ => rfl, rfl⟩
  · exact ⟨nofun, nofun, nofun, List.nodup_nil, nofun, nofun⟩
  · rw [show boot.mem.kernelVaddr = _ from hvaddr]
    decide
  · rw [show boot.mem.kernelVaddr = _ from hvaddr]
    decide
  · rw [show boot.mem.kernelVaddr = _ from hvaddr, Bitmap.len_init]
    decide
  · intro t ht
    have hbits : (boot.mem.btmp (boot.mem.pcb t).bits).len = 0 := Bitmap.len_init 0
    rw [hbits, Nat.mul_zero, Nat.zero_mul, Nat.add_zero]
    exact Nat.zero_le _
  · rw [show boot.mem.kernelVaddr = _ from hvaddr]
    decide

/-- What can be looked up of `Proper`. -/
def properTest (st : KernelHeap) : HeapCall → Bool
  | .malloc size => decide ((size.toNat + 4107) / 4096 < 3840) &&
      decide ((size.toNat + 4107) / 4096 < st.mem.kernelVaddr.vaddrBitmap.len)
  | .free b => (st.live b).isSome
  | .store b k _ => (st.live b).any fun size => decide (k * 4 < size.toNat)
  | _ => false

theorem proper_of_test {threads : List Addr} {st : KernelHeap} {c : HeapCall}
    (h : st.properTest c = true) : st.Proper threads c := by
  cases c with
  | malloc size =>
    obtain ⟨hmax, hlen⟩ := Bool.and_eq_true_iff.mp h
    exact fun _ _ => ⟨of_decide_eq_true hmax, of_decide_eq_true hlen⟩
  | free b => exact Option.isSome_iff_ne_none.mp h
  | store b k w =>
    obtain ⟨size, hsize, hk⟩ := (Option.any_eq_true _ _).mp h
    exact ⟨size, hsize, of_decide_eq_true hk⟩
  | getPages cnt => cases h
  | putPages run => cases h
  | write v w => cases h
  | switch thread => cases h

/-- The calls one after the other, each of which passes the test. -/
def testCalls (st : KernelHeap) : List HeapCall → Except Fault KernelHeap
  | [] => .ok st
  | c :: cs => do
    if st.properTest c then testCalls (← st.call c) cs
    else .error .assert

theorem testCalls_reaches {threads : List Addr} {st0 st st' : KernelHeap} {cs : List HeapCall}
    (hr : st0.Reaches threads st) (h : st.testCalls cs = .ok st') : st0.Reaches threads st' := by
  induction cs generalizing st with
  | nil =>
    cases h
    exact hr
  | cons c cs ih =>
    rw [testCalls] at h
    split at h
    · next htest =>
      obtain ⟨st1, hcall, hrest⟩ := bind_eq_ok.mp h
      exact ih (hr.step c (proper_of_test htest) hcall) hrest
    · cases h

/-- Two blocks of one page are written to, and the first is freed. -/
def sampleCalls : List HeapCall :=
  [.malloc 100, .malloc 100, .store 0xc010000c 3 0x11111111, .store 0xc010008c 0 0x22222222,
    .free 0xc010000c]

/-- What the state they lead to is like: another request may follow, and the block that has not been freed
has its word. -/
def sampleTest (st : KernelHeap) : Bool :=
  st.properTest (.malloc 1000) && decide (st.live 0xc010008c = some 100) &&
    decide (st.data 0xc010008c 0 = 0x22222222)

theorem sampleCalls_run : returnsWith (boot.testCalls sampleCalls) sampleTest = true := by
  decide +kernel

theorem of_sampleTest {st : KernelHeap} (h : st.sampleTest = true) :
    st.properTest (.malloc 1000) = true ∧ st.live 0xc010008c = some 100 ∧
      st.data 0xc010008c 0 = 0x22222222 := by
  rw [sampleTest, Bool.and_eq_true, Bool.and_eq_true, decide_eq_true_eq, decide_eq_true_eq] at h
  exact ⟨h.1.1, h.1.2, h.2⟩

end KernelHeap

section Results

variable {threads : List Addr} {st st' : KernelHeap} {b : Addr} {size : BitVec 32} {c : HeapCall}

/-- **The heap answers**: no step fails an `ASSERT` or ends in a page fault, and `sys_malloc` returns no
block that is live. -/
theorem kernelHeap_answers (h0 : st.Fresh threads) (hr : st.Reaches threads st')
    (hp : st'.Proper threads c) : ∃ st2, st'.call c = .ok st2 ∧ ∀ size, c = .malloc size →
      st2.live = st'.live ∨
        ∃ b, st'.live b = none ∧ st2.live = Function.update st'.live b (some size) := by
  obtain ⟨D, g, H, hi⟩ := h0.inv
  have hinv := hr.inv hi
  obtain ⟨st2, hcall, -⟩ := hinv.call hp
  refine ⟨st2, hcall, ?_⟩
  rintro size rfl
  obtain ⟨r, s', h', hmalloc, hans⟩ := hinv.heap.sysMalloc hp
  rw [KernelHeap.call, hmalloc] at hcall
  cases r with
  | none =>
    cases hcall
    exact .inl rfl
  | some b =>
    cases hcall
    exact .inr ⟨b, (hans.some b rfl).1, rfl⟩

/-- One more request. -/
theorem kernelHeap_answers_boot : ∃ st st2, KernelHeap.boot.testCalls KernelHeap.sampleCalls = .ok st ∧
    st.call (.malloc 1000) = .ok st2 := by
  obtain ⟨st, hrun, htest⟩ := returnsWith_iff.mp KernelHeap.sampleCalls_run
  have hr : KernelHeap.boot.Reaches [bootMemory.running] st := KernelHeap.testCalls_reaches .refl hrun
  obtain ⟨st2, hcall, -⟩ := kernelHeap_answers KernelHeap.boot_fresh hr (KernelHeap.proper_of_test (KernelHeap.of_sampleTest htest).1)
  exact ⟨st, st2, hrun, hcall⟩

/-- **The heap is a store of blocks**: they do not overlap, they lie in pages of the kernel that nobody
else has got, and a word is what the owner of the block has written last. -/
theorem kernelHeap_reads (h0 : st.Fresh threads) (hr : st.Reaches threads st') :
    (∀ b b' size size', st'.live b = some size → st'.live b' = some size' → b ≠ b' →
      b.toNat + size.toNat ≤ b'.toNat ∨ b'.toNat + size'.toNat ≤ b.toNat) ∧
    (∀ b size, st'.live b = some size → ∀ j < size.toNat, ∃ f,
      st'.mem.walk (b + BitVec.ofNat 32 j) = some f ∧ st'.mem.kernelPool.Contains f ∧
        vpage kernelDir (b + BitVec.ofNat 32 j) ∉ KernelHeap.runPages st'.runs) ∧
    ∀ b size, st'.live b = some size → ∀ k, k * 4 < size.toNat →
      st'.mem.load (b + BitVec.ofNat 32 (k * 4)) = .ok (st'.data b k) := by
  obtain ⟨D, g, H, hi⟩ := h0.inv
  have hinv := hr.inv hi
  obtain ⟨spans, L, hg, hok, -⟩ := hinv.heap
  refine ⟨fun b b' size size' hb hb' hne => ?_, fun b size hb j hj => ?_, hinv.reads⟩
  · obtain ⟨c, hc, hle⟩ := hok.fits b size hb
    obtain ⟨c', hc', hle'⟩ := hok.fits b' size' hb'
    have hdisj := hc.disjoint hc' hg.vaddrs hok.own hg.spans_nodup hne
    omega
  · obtain ⟨c, hc, hle⟩ := hok.fits b size hb
    obtain ⟨x, hx, -, hbytes⟩ := hc.byte_mem hg.vaddrs hok.own
    obtain ⟨-, hhigh, hmem⟩ := hbytes j (by omega)
    have hspan := mem_spanPages hx hmem
    obtain ⟨f, hf, hwalk, -⟩ := hg.walk_page hhigh (List.mem_append_left _ hspan)
    refine ⟨f, hwalk, (hok.own x hx).2.pool _ hmem f hf, fun hrun => ?_⟩
    exact (List.nodup_append'.mp (List.nodup_append'.mp hg.owned.nodup).1).2.2 hspan
      (List.mem_append_left L hrun)

/-- The block that has not been freed still has its word. -/
theorem kernelHeap_reads_boot : ∃ st, KernelHeap.boot.testCalls KernelHeap.sampleCalls = .ok st ∧
    st.mem.load (0xc010008c + BitVec.ofNat 32 (0 * 4)) = .ok 0x22222222 := by
  obtain ⟨st, hrun, htest⟩ := returnsWith_iff.mp KernelHeap.sampleCalls_run
  obtain ⟨-, hlive, hdata⟩ := KernelHeap.of_sampleTest htest
  have hr : KernelHeap.boot.Reaches [bootMemory.running] st := KernelHeap.testCalls_reaches .refl hrun
  refine ⟨st, hrun, ?_⟩
  rw [← hdata]
  exact (kernelHeap_reads KernelHeap.boot_fresh hr).2.2 0xc010008c 100 hlive 0 (by decide)

/-- **`sys_free` gives back what it can**: the pages of the block are mapped no more when no other block
in them is live, a list has only blocks of pages that are mapped, and when the last block has been
freed the lists are empty. -/
theorem kernelHeap_returns (h0 : st.Fresh threads) (hr : st.Reaches threads st')
    (hlive : st'.live b = some size) : ∃ st2, st'.call (.free b) = .ok st2 ∧
      (∀ j < size.toNat, st2.mem.frameAt (vpage kernelDir (b + BitVec.ofNat 32 j)) = none ↔
        ∀ b', st2.live b' ≠ none → pageOf b' ≠ pageOf b) ∧
      (∀ i, ∀ a ∈ st2.heap.kernelBlockDescs i, st2.mem.frameAt (kernelDir, pageOf a) ≠ none) ∧
      ((∀ b', st2.live b' = none) → ∀ i, st2.heap.kernelBlockDescs i = []) := by
  obtain ⟨D, g, H, hi⟩ := h0.inv
  have hinv := hr.inv hi
  obtain ⟨s', h', c, hfree, hle, hans⟩ := hinv.heap.sysFree (b := b) (by rw [hlive]; nofun)
  obtain ⟨spans, L, hg, hok, hbusy⟩ := hans.inv
  refine ⟨{ st' with mem := s', heap := h', live := Function.update st'.live b none }, ?_,
    fun j hj => hans.pages j (Nat.lt_of_lt_of_le hj (hle size hlive)), fun i a ha => ?_, fun hnone i => ?_⟩
  · rw [KernelHeap.call, hfree]
    rfl
  · have hp : ⟨pageOf a, 1, some i⟩ ∈ spans := (hok.holds i).arena a ha
    obtain ⟨f, hf, -⟩ := hg.owned.mapped _ (List.mem_append_left H
      (List.mem_append_left _ (mem_spanPages hp (Span.first_mem (hok.own _ hp).1))))
    dsimp only at hf ⊢
    rw [hf]
    nofun
  · by_contra hlist
    obtain ⟨a, ha⟩ := List.exists_mem_of_ne_nil _ hlist
    have hp : ⟨pageOf a, 1, some i⟩ ∈ spans := (hok.holds i).arena a ha
    obtain ⟨b', hb', -⟩ := hok.stays (hbusy _ hp) hp
    exact hb' (hnone b')

/-- The other block of the page is freed, and the lists name mapped pages only. -/
theorem kernelHeap_returns_boot : ∃ st st2, KernelHeap.boot.testCalls KernelHeap.sampleCalls = .ok st ∧
    st.call (.free 0xc010008c) = .ok st2 ∧ ∀ i, ∀ a ∈ st2.heap.kernelBlockDescs i,
      st2.mem.frameAt (kernelDir, pageOf a) ≠ none := by
  obtain ⟨st, hrun, htest⟩ := returnsWith_iff.mp KernelHeap.sampleCalls_run
  obtain ⟨-, hlive, -⟩ := KernelHeap.of_sampleTest htest
  have hr : KernelHeap.boot.Reaches [bootMemory.running] st := KernelHeap.testCalls_reaches .refl hrun
  obtain ⟨st2, hfree, -, hlists, -⟩ := kernelHeap_returns KernelHeap.boot_fresh hr hlive
  exact ⟨st, st2, hrun, hfree, hlists⟩

end Results

end GwOS
