import GwOS.Kernel.Exhaustion
import GwOS.Thread.Transitions
import GwOS.Userprog.CopyProcess

/-!
# A fork that fails

`sys_fork` with everything it changes: the memory, the pids, and the lists of the scheduler. It
takes a page for the record of the child, one for the transfer, a pid, the pages of the bitmap
and of the directory, and a frame for each page of the parent; when one of them is missing it
returns `-1`, or does not notice, and gives nothing back.

The argument follows one bit: the page that the first call marks in the bitmap of the kernel
stays marked (`Memory.KeepsMarks`) whichever call fails later.
-/

namespace GwOS

/-! ## The model -/

/-- What `sys_fork` changes. -/
structure ForkState where
  mem : Memory
  /-- `pid_pool`. -/
  pids : Bitmap
  /-- The field `pid` of each record. -/
  pid : Addr → Int
  /-- `thread_ready_list`. -/
  ready : List Addr
  /-- `thread_all_list`. -/
  all : List Addr

namespace ForkState

/-- `copy_pcb_vaddrbitmap_stack0`; `false` is the result `-1`. -/
def copyPcbVaddrbitmapStack0 (k : ForkState) (child parent : Addr) : Except Fault (Bool × ForkState) := do
  let (pid, pids) ← allocPid k.pids
  let (done, mem) ← GwOS.copyPcbVaddrbitmapStack0 k.mem child parent
  .ok (done, { k with mem, pids, pid := Function.update k.pid child pid })

/-- `copy_process`; `false` is the result `-1`. -/
def copyProcess (k : ForkState) (child parent : Addr) : Except Fault (Bool × ForkState) := do
  match ← getKernelPages k.mem 1 with
  | (none, mem) => .ok (false, { k with mem })
  | (some tranPage, mem) =>
    match ← copyPcbVaddrbitmapStack0 { k with mem } child parent with
    | (false, k) => .ok (false, k)
    | (true, k) =>
      let (pgDir, mem) ← createPageDir k.mem
      let mem := { mem with pcb := Function.update mem.pcb child { mem.pcb child with pgDir } }
      if pgDir = none then .ok (false, { k with mem })
      else
        let mem ← copyBodyStack3 mem child parent tranPage
        let mem ← mfreePage mem .kernel tranPage 1
        .ok (true, { k with mem })

/-- `sys_fork`; `none` is the result `-1`. -/
def sysFork (k : ForkState) : Except Fault (Option Int × ForkState) := do
  let parent := k.mem.running
  match ← getKernelPages k.mem 1 with
  | (none, mem) => .ok (none, { k with mem })
  | (some child, mem) =>
    if (mem.pcb parent).pgDir = none then .error .assert
    else
      match ← copyProcess { k with mem } child parent with
      | (false, k) => .ok (none, k)
      | (true, k) =>
        if child ∈ k.ready ∨ child ∈ k.all then .error .assert
        else .ok (some (k.pid child), { k with ready := k.ready ++ [child], all := k.all ++ [child] })

/-- The pools, the kernel's bitmap, the pids and the lists are as before. -/
structure NoTrace (k k' : ForkState) : Prop where
  kernelPool : k'.mem.kernelPool = k.mem.kernelPool
  userPool : k'.mem.userPool = k.mem.userPool
  kernelVaddr : k'.mem.kernelVaddr = k.mem.kernelVaddr
  pids : k'.pids = k.pids
  ready : k'.ready = k.ready
  all : k'.all = k.all

/-- The calls of `sys_fork` before `copy_body_stack3` have succeeded, and `k'` is the state in
which the pages are copied. -/
def CopyStarts (k k' : ForkState) : Prop :=
  ∃ child tranPage pgDir s1 s2 k3 s4, getKernelPages k.mem 1 = .ok (some child, s1) ∧
    (s1.pcb k.mem.running).pgDir ≠ none ∧ getKernelPages s1 1 = .ok (some tranPage, s2) ∧
    copyPcbVaddrbitmapStack0 { k with mem := s2 } child k.mem.running = .ok (true, k3) ∧
    createPageDir k3.mem = .ok (some pgDir, s4) ∧ k' = { k3 with
      mem := { s4 with pcb := Function.update s4.pcb child { s4.pcb child with pgDir := some pgDir } } }

/-- The pages are to be copied, and the user's pool has fewer frames than there are pages. -/
def RunsOut (k : ForkState) : Prop :=
  ∃ k', k.CopyStarts k' ∧
    k'.mem.userPool.spare.card < (markedFrom (k'.mem.vaddrBitmap .user) 0).card

end ForkState

/-! ## Marks -/

/-- What is marked in the bitmap of the kernel's pages stays marked. -/
def Memory.KeepsMarks (s s' : Memory) : Prop :=
  ∀ i, s.kernelVaddr.vaddrBitmap.bit i = true → s'.kernelVaddr.vaddrBitmap.bit i = true

section Marks

variable {s s' s1 s2 : Memory} {cnt : Nat}

theorem Memory.KeepsMarks.trans (h : s.KeepsMarks s1) (h' : s1.KeepsMarks s2) : s.KeepsMarks s2 :=
  fun i hi => h' i (h i hi)

/-- `get_kernel_pages` finds no pages and does nothing, or marks those that it finds, whether or
not there are frames for them. -/
theorem getKernelPages_marks (s : Memory) (cnt : Nat) : Returns (getKernelPages s cnt) fun r =>
    (bitmapApplyCnt s.kernelVaddr.vaddrBitmap cnt = .ok none ∧ r = (none, s)) ∨
      ∃ idx, bitmapApplyCnt s.kernelVaddr.vaddrBitmap cnt = .ok (some idx) ∧
        s.kernelVaddr.vaddrBitmap.SetRange r.2.kernelVaddr.vaddrBitmap true idx cnt := by
  unfold getKernelPages getPages
  refine .bind (P := fun r => (bitmapApplyCnt s.kernelVaddr.vaddrBitmap cnt = .ok none ∧ r = (none, s)) ∨
      ∃ idx, bitmapApplyCnt s.kernelVaddr.vaddrBitmap cnt = .ok (some idx) ∧
        s.kernelVaddr.vaddrBitmap.SetRange r.2.kernelVaddr.vaddrBitmap true idx cnt) (fun r hr => ?_)
    fun r hr => ?_
  · have hget : ∀ v s1, vaddrGet s .kernel cnt = .ok (v, s1) →
        (bitmapApplyCnt s.kernelVaddr.vaddrBitmap cnt = .ok none ∧ v = none ∧ s1 = s) ∨
        ∃ idx, bitmapApplyCnt s.kernelVaddr.vaddrBitmap cnt = .ok (some idx) ∧ v ≠ none ∧
          s.kernelVaddr.vaddrBitmap.SetRange s1.kernelVaddr.vaddrBitmap true idx cnt := by
      intro v s1 h
      unfold vaddrGet at h
      obtain ⟨found, hfound, h⟩ := bind_eq_ok.mp h
      cases found with
      | none =>
        cases h
        exact .inl ⟨hfound, rfl, rfl⟩
      | some idx =>
        obtain ⟨mp, hmp, h⟩ := bind_eq_ok.mp h
        dsimp only at h
        rw [if_neg nofun] at h
        cases h
        exact .inr ⟨idx, hfound, Option.some_ne_none _, setBits_returns true cnt _ idx mp hmp⟩
    rcases mallocPage_cases s .kernel cnt r hr with ⟨h, hnone⟩ | ⟨v, s1, done, h, hloop, -⟩
    · obtain ⟨v, s1⟩ := r
      rcases hget _ _ h with ⟨hfound, -, he⟩ | ⟨idx, -, hno, -⟩
      · refine .inl ⟨hfound, ?_⟩
        cases hnone
        exact congrArg _ he
      · exact absurd rfl hno
    · rcases hget _ _ h with ⟨-, hno, -⟩ | ⟨idx, hfound, -, hset⟩
      · cases hno
      · refine .inr ⟨idx, hfound, ?_⟩
        rw [(mallocLoop_same s1 .kernel cnt v _ hloop).kernelVaddr]
        exact hset
  · obtain ⟨v, s1⟩ := r
    cases v with
    | none => exact .ok hr
    | some v =>
      refine .bind .any fun m _ => .ok (hr.imp (fun h => ?_) id)
      cases h.2

theorem getKernelPages_keepsMarks (s : Memory) (cnt : Nat) :
    Returns (getKernelPages s cnt) fun r => s.KeepsMarks r.2 := by
  refine (getKernelPages_marks s cnt).mono fun r h i hi => ?_
  rcases h with ⟨-, rfl⟩ | ⟨idx, -, hset⟩
  · exact hi
  · rw [hset.2, hi, ite_self]

theorem createPageDir_keepsMarks (s : Memory) :
    Returns (createPageDir s) fun r => s.KeepsMarks r.2 := by
  unfold createPageDir
  refine .bind (getKernelPages_keepsMarks s 1) fun r hr => ?_
  obtain ⟨v, s1⟩ := r
  cases v with
  | none => exact .ok hr
  | some v => exact .bind .any fun m _ => .bind .any fun a _ => .bind .any fun m' _ => .ok hr

theorem copyPcbVaddrbitmapStack0_keepsMarks (s : Memory) (child parent : Addr) :
    Returns (copyPcbVaddrbitmapStack0 s child parent) fun r => s.KeepsMarks r.2 := by
  unfold copyPcbVaddrbitmapStack0
  refine .bind (getKernelPages_keepsMarks _ _) fun r hr => ?_
  obtain ⟨v, s1⟩ := r
  cases v with
  | none => exact .ok hr
  | some v =>
    dsimp only
    split
    · exact .ok hr
    · exact .error _

end Marks

namespace ForkState

variable {k k' : ForkState} {child parent : Addr}

/-- **A failing `copy_process`** leaves all marks. -/
theorem copyProcess_keepsMarks (k : ForkState) (child parent : Addr) :
    Returns (k.copyProcess child parent) fun r => r.1 = false → k.mem.KeepsMarks r.2.mem := by
  unfold copyProcess
  refine .bind (getKernelPages_keepsMarks k.mem 1) fun r1 h1 => ?_
  obtain ⟨tran, s1⟩ := r1
  cases tran with
  | none => exact .ok fun _ => h1
  | some tran =>
    dsimp only
    refine .bind (P := fun r => s1.KeepsMarks r.2.mem) ?_ fun r2 h2 => ?_
    · unfold copyPcbVaddrbitmapStack0
      refine .bind .any fun p _ => ?_
      exact .bind (copyPcbVaddrbitmapStack0_keepsMarks s1 child parent) fun r hr => .ok hr
    · obtain ⟨done, k2⟩ := r2
      cases done with
      | false => exact .ok fun _ => h1.trans h2
      | true =>
        dsimp only
        refine .bind (createPageDir_keepsMarks k2.mem) fun r3 h3 => ?_
        split
        · exact .ok fun _ => (h1.trans h2).trans h3
        · exact .bind .any fun s4 _ => .bind .any fun s5 _ => .ok nofun

/-- What a failing `sys_fork` has done: nothing when there is no page for the record, and at least
a mark in the bitmap of the kernel otherwise. -/
theorem sysFork_failed (h : k.sysFork = .ok (none, k')) :
    (bitmapApplyCnt k.mem.kernelVaddr.vaddrBitmap 1 = .ok none ∧ k' = k) ∨
      ∃ idx, bitmapApplyCnt k.mem.kernelVaddr.vaddrBitmap 1 = .ok (some idx) ∧
        k'.mem.kernelVaddr.vaddrBitmap.bit idx = true := by
  unfold sysFork at h
  obtain ⟨⟨c, s1⟩, hget, h⟩ := bind_eq_ok.mp h
  rcases getKernelPages_marks k.mem 1 _ hget with ⟨hnone, he⟩ | ⟨idx, hsome, hset⟩
  · cases he
    cases h
    exact .inl ⟨hnone, rfl⟩
  · have hmark : s1.kernelVaddr.vaddrBitmap.bit idx = true := by
      rw [hset.2, if_pos ⟨Nat.le_refl idx, Nat.lt_succ_self idx⟩]
    refine .inr ⟨idx, hsome, ?_⟩
    cases c with
    | none =>
      cases h
      exact hmark
    | some c =>
      dsimp only at h
      split at h
      · cases h
      · obtain ⟨⟨done, k2⟩, hcopy, h⟩ := bind_eq_ok.mp h
        have hkeep := copyProcess_keepsMarks _ _ _ _ hcopy
        cases done with
        | false =>
          cases h
          exact hkeep rfl idx hmark
        | true =>
          dsimp only at h
          split at h
          · cases h
          · cases h

/-- What `copy_process` does to the memory. -/
theorem copyProcess_mem (k : ForkState) (child parent : Addr) : Returns (k.copyProcess child parent) fun r =>
    GwOS.copyProcess k.mem child parent = .ok (r.1, r.2.mem) := by
  intro r h
  unfold copyProcess at h
  unfold GwOS.copyProcess
  obtain ⟨⟨tran, s1⟩, htran, h⟩ := bind_eq_ok.mp h
  refine bind_eq_ok.mpr ⟨_, htran, ?_⟩
  cases tran with
  | none =>
    cases h
    rfl
  | some tran =>
    obtain ⟨⟨done, k2⟩, hpcb, h⟩ := bind_eq_ok.mp h
    unfold copyPcbVaddrbitmapStack0 at hpcb
    obtain ⟨⟨pid, pids⟩, -, hpcb⟩ := bind_eq_ok.mp hpcb
    obtain ⟨⟨done', s2⟩, hcopy, hpcb⟩ := bind_eq_ok.mp hpcb
    cases hpcb
    refine bind_eq_ok.mpr ⟨_, hcopy, ?_⟩
    cases done with
    | false =>
      cases h
      rfl
    | true =>
      obtain ⟨⟨pgDir, s3⟩, hdir, h⟩ := bind_eq_ok.mp h
      refine bind_eq_ok.mpr ⟨_, hdir, ?_⟩
      cases pgDir with
      | none =>
        cases h
        rfl
      | some pgDir =>
        obtain ⟨s4, hbody, h⟩ := bind_eq_ok.mp h
        obtain ⟨s5, hfree, h⟩ := bind_eq_ok.mp h
        cases h
        exact bind_eq_ok.mpr ⟨_, hbody, bind_eq_ok.mpr ⟨_, hfree, rfl⟩⟩

/-- **The memory part** of `sys_fork`. -/
theorem sysFork_mem (k : ForkState) : Returns k.sysFork fun r =>
    ∃ child, k.mem.sysFork = .ok (child, r.2.mem) ∧ (child = none ↔ r.1 = none) := by
  intro r h
  unfold sysFork at h
  unfold Memory.sysFork
  obtain ⟨⟨child, s1⟩, hget, h⟩ := bind_eq_ok.mp h
  cases child with
  | none =>
    cases h
    exact ⟨none, bind_eq_ok.mpr ⟨_, hget, rfl⟩, iff_of_true rfl rfl⟩
  | some child =>
    dsimp only at h
    split at h
    · cases h
    · next hdir =>
      obtain ⟨⟨done, k2⟩, hcopy, h⟩ := bind_eq_ok.mp h
      have hmem := copyProcess_mem _ _ _ _ hcopy
      cases done with
      | false =>
        cases h
        refine ⟨none, bind_eq_ok.mpr ⟨_, hget, ?_⟩, iff_of_true rfl rfl⟩
        dsimp only
        rw [if_neg hdir]
        exact bind_eq_ok.mpr ⟨_, hmem, rfl⟩
      | true =>
        dsimp only at h
        split at h
        · cases h
        · cases h
          refine ⟨some child, bind_eq_ok.mpr ⟨_, hget, ?_⟩, ⟨nofun, nofun⟩⟩
          dsimp only
          rw [if_neg hdir]
          exact bind_eq_ok.mpr ⟨_, hmem, rfl⟩

/-- Once the pages are copied, the result is no `-1`. -/
theorem CopyStarts.not_failed {k1 : ForkState} (h : k.CopyStarts k1) : k.sysFork ≠ .ok (none, k') := by
  obtain ⟨child, tran, pgDir, s1, s2, k3, s4, hchild, hdir, htran, hpcb, hpg, -⟩ := h
  intro hfork
  unfold sysFork at hfork
  obtain ⟨r, hr, hfork⟩ := bind_eq_ok.mp hfork
  cases hr.symm.trans hchild
  dsimp only at hfork
  rw [if_neg hdir] at hfork
  obtain ⟨⟨done, k5⟩, hcopy, hfork⟩ := bind_eq_ok.mp hfork
  unfold copyProcess at hcopy
  obtain ⟨r, hr, hcopy⟩ := bind_eq_ok.mp hcopy
  cases hr.symm.trans htran
  obtain ⟨r, hr, hcopy⟩ := bind_eq_ok.mp hcopy
  cases hr.symm.trans hpcb
  obtain ⟨r, hr, hcopy⟩ := bind_eq_ok.mp hcopy
  cases hr.symm.trans hpg
  obtain ⟨s5, -, hcopy⟩ := bind_eq_ok.mp hcopy
  obtain ⟨s6, -, hcopy⟩ := bind_eq_ok.mp hcopy
  cases hcopy
  dsimp only at hfork
  split at hfork
  · cases hfork
  · cases hfork

/-- To leave no trace, the fork must have found no page. -/
theorem NoTrace.found (hno : k.NoTrace k') (h : k.sysFork = .ok (none, k')) :
    bitmapApplyCnt k.mem.kernelVaddr.vaddrBitmap 1 = .ok none := by
  rcases sysFork_failed h with ⟨hnone, -⟩ | ⟨idx, hsome, hmark⟩
  · exact hnone
  · have hzero := bitmapApplyFrom_zero _ _ _ _ _ hsome idx rfl
    rw [hno.kernelVaddr, hzero] at hmark
    cases hmark

end ForkState

/-! ## Pools that are used up -/

/-- The pool when all its frames are in use. -/
def Pool.usedUp (p : Pool) : Pool := { p with poolBitmap := fullBitmap p.poolBitmap.len }

section UsedUp

variable {p : Pool} {s s1 : Memory} {threads : List Addr} {D : Frame → Prop} {g : VPage → Frame}
  {L H : List VPage} {cnt : Nat} {v : Addr} {f : Frame}

theorem Pool.sameRange_usedUp (p : Pool) : p.SameRange p.usedUp := ⟨rfl, rfl, len_full _⟩

theorem Pool.taken_usedUp (h : p.Covers f) : p.usedUp.Taken f :=
  ⟨(p.sameRange_usedUp.contains f).mpr h.1, bit_full h.2⟩

theorem Pool.spare_usedUp (p : Pool) : p.usedUp.spare = ∅ := by
  refine Finset.filter_eq_empty_iff.mpr fun i hi hfree => ?_
  have hlt := Finset.mem_range.mp hi
  have hlen := p.sameRange_usedUp.len
  have hbit : p.usedUp.poolBitmap.bit i = true := bit_full (by omega)
  rw [hbit] at hfree
  cases hfree

theorem Pool.empty_usedUp (hpos : 1 ≤ p.poolBitmap.len) (hlen : p.poolBitmap.len < 2 ^ 32) :
    p.usedUp.Empty := empty_full rfl hpos hlen

/-- Pages that have no frame. -/
theorem getKernelPages_usedUp (hpool : s.kernelPool.Empty) (hcnt : 1 ≤ cnt)
    (hlt : cnt < s.kernelVaddr.vaddrBitmap.len) (hlen : s.kernelVaddr.vaddrBitmap.len < 2 ^ 32)
    (hmany : cnt < 3840) {j : Nat} (hj : j < s.kernelVaddr.vaddrBitmap.len - cnt)
    (hfree : s.kernelVaddr.vaddrBitmap.FreeAt j cnt) :
    ∃ s', getKernelPages s cnt = .ok (none, s') := by
  obtain ⟨v, s1, hget⟩ := vaddrGet_ok .kernel nofun hcnt hlt hlen hj hfree
  have hlt' : cnt < (s.vaddrBitmap .kernel).len := hlt
  obtain ⟨hb, -⟩ := vaddrGet_returns hcnt hlt' hlen _ hget
  have hempty : (s1.pool .kernel).Empty := by
    show s1.kernelPool.Empty
    rw [hb.kernelPool]
    exact hpool
  have hloop : mallocLoop .kernel cnt v s1 = .ok (false, s1.setPool .kernel (s1.pool .kernel)) := by
    obtain ⟨n, rfl⟩ : ∃ n, cnt = n + 1 := ⟨cnt - 1, by omega⟩
    exact bind_eq_ok.mpr ⟨_, hempty.palloc, rfl⟩
  have hmalloc : mallocPage s .kernel cnt = .ok (none, s1.setPool .kernel (s1.pool .kernel)) := by
    unfold mallocPage
    rw [if_pos ⟨hcnt, hmany⟩]
    exact bind_eq_ok.mpr ⟨_, hget, bind_eq_ok.mpr ⟨_, hloop, rfl⟩⟩
  exact ⟨_, bind_eq_ok.mpr ⟨_, hmalloc, rfl⟩⟩

/-- The bitmap of the running process is that of before. -/
theorem ForkBase.userBitmap {base : Memory} {child tran bits q : Addr} {dc : Frame}
    (hb : ForkBase s base threads D g L H child tran bits q dc) :
    base.vaddrBitmap .user = s.vaddrBitmap .user := by
  show base.btmp (base.pcb base.running).bits = _
  rw [hb.running, hb.parent, hb.parentBitmap]

/-- The user's pool does not matter to what is owned. -/
theorem Tracked.usedUp (h : Tracked s threads D g L H) :
    Tracked { s with userPool := s.userPool.usedUp } threads D g L H := by
  have htaken : ∀ f, s.Taken f → ({ s with userPool := s.userPool.usedUp } : Memory).Taken f :=
    fun f ht => ht.imp id fun hu => Pool.taken_usedUp hu.covers
  have hl : Layout { s with userPool := s.userPool.usedUp } D :=
    h.managed.layout.pools rfl ⟨rfl, rfl, rfl⟩ s.userPool.sameRange_usedUp (fun d _ => htaken d)
      fun _ _ => Iff.rfl
  have ho : Owned { s with userPool := s.userPool.usedUp } D g L H :=
    h.managed.owned.congr (fun _ _ => rfl) (fun _ _ => rfl) fun _ _ f _ => htaken f
  have hst : Steady s { s with userPool := s.userPool.usedUp } := ⟨rfl, rfl, rfl, rfl, rfl, fun _ => rfl⟩
  exact ⟨⟨hl, ho, h.managed.records.steady hst⟩, h.clear, h.covered, h.process, h.marks⟩

/-- A process without a frame for its pages begins to fork all the same. -/
theorem Tracked.runsOut (h : Tracked s threads D g L H) (hname : (s.pcb s.running).name.length < 11)
    {j : Nat} (hj : j + 26 < s.kernelVaddr.vaddrBitmap.len) (hfree : s.kernelVaddr.vaddrBitmap.FreeAt j 26)
    (hkernel : 26 ≤ s.kernelPool.spare.card) (hmapped : ∃ v : Addr, v < 0xc0000000 ∧ s.walk v ≠ none)
    {pids pids' : Bitmap} {pid : Int} (hpid : allocPid pids = .ok (pid, pids')) (ids : Addr → Int)
    (ready all : List Addr) :
    ForkState.RunsOut ⟨{ s with userPool := s.userPool.usedUp }, pids, ids, ready, all⟩ := by
  obtain ⟨child, s1, c, hget, hgot, hu1, hbits1, -, -, hstart⟩ := h.usedUp.startFork hname hj hfree hkernel
  obtain ⟨tran, s2, s3, p, s4, bits, dc, htran, hpcb, hdir, hb⟩ := hstart.base
  have hrunning : s1.running = s.running := hgot.running
  have hdir1 : (s1.pcb s.running).pgDir ≠ none := by
    rw [← hrunning]
    exact hstart.process
  rw [hrunning] at hpcb
  refine ⟨_, ⟨child, tran, p, s1, s2, _, s4, hget, hdir1, htran,
    bind_eq_ok.mpr ⟨_, hpid, bind_eq_ok.mpr ⟨_, hpcb, rfl⟩⟩, hdir, rfl⟩, ?_⟩
  -- there is a page to copy, and no frame
  obtain ⟨v, hv, hw⟩ := hmapped
  obtain ⟨i, hi, -⟩ := (h.marks v hv).mp hw
  have hmem : i ∈ markedFrom (s.vaddrBitmap .user) 0 :=
    Finset.mem_filter.mpr ⟨Finset.mem_range.mpr (lt_of_bit hi), Nat.zero_le i, hi⟩
  have hpages : 0 < (markedFrom (s1.vaddrBitmap .user) 0).card := by
    rw [hbits1]
    exact Finset.card_pos.mpr ⟨i, hmem⟩
  rw [← hb.userBitmap] at hpages
  have hnone : s4.userPool.spare.card = 0 :=
    (congrArg (fun p => p.spare.card) (hb.userPool.trans hu1)).trans
      (congrArg Finset.card s.userPool.spare_usedUp)
  exact Nat.lt_of_le_of_lt (Nat.le_of_eq hnone) hpages

end UsedUp

/-- A kernel that cannot give `init` a page for a child, and one that has no frames for the pages
of the child. -/
theorem ForkState.init_fails : (∃ k k' : ForkState, k.sysFork = .ok (none, k') ∧
      bitmapApplyCnt k.mem.kernelVaddr.vaddrBitmap 1 ≠ .ok none) ∧ ∃ k : ForkState, k.RunsOut := by
  obtain ⟨s, -, threads, D, g, L, H, h⟩ := init_tracked
  have hlen := h.len
  have hkcard := h.kernelPool
  have hk := h.managed.layout.kernelOk
  constructor
  · have hsize := hk.size
    have hfits := hk.fits
    have hsmall : s.kernelPool.poolBitmap.len < 2 ^ 32 := by
      unfold pgSize at hsize
      omega
    have hmany : 1 < s.kernelVaddr.vaddrBitmap.len := by omega
    have hbound : s.kernelVaddr.vaddrBitmap.len < 2 ^ 32 := by omega
    have hj : 25 < s.kernelVaddr.vaddrBitmap.len - 1 := by omega
    obtain ⟨s', hget⟩ := getKernelPages_usedUp (s := { s with kernelPool := s.kernelPool.usedUp })
      (Pool.empty_usedUp hk.len hsmall) (Nat.le_refl 1) hmany hbound (by decide) hj (h.rest 1)
    refine ⟨⟨{ s with kernelPool := s.kernelPool.usedUp }, bitmapInit 128, fun _ => 0, [], []⟩,
      ⟨s', bitmapInit 128, fun _ => 0, [], []⟩, bind_eq_ok.mpr ⟨_, hget, rfl⟩, fun hnone => ?_⟩
    obtain ⟨found, hfound, hspec⟩ := bitmapApplyCnt_ok (Nat.le_refl 1) (Nat.le_of_lt hmany) hbound
    cases hfound.symm.trans hnone
    exact hspec 25 (Nat.zero_le 25) (by omega) (h.rest 1)
  · exact ⟨_, h.toTracked.runsOut (by rw [h.name]; decide) (j := 25) (by omega) (h.rest 26) (by omega)
      ⟨_, by decide, h.stack⟩ Threads.allocPid_first.2.2 (fun _ => 0) [] []⟩

/-- **A fork that fails** leaves no trace exactly when the search for the page of the record finds
none. That the frames run out while the pages are copied is no failure at all. -/
theorem ForkState.sysFork_noTrace_iff (k : ForkState) :
    (∀ k', k.sysFork = .ok (none, k') →
      (k.NoTrace k' ↔ bitmapApplyCnt k.mem.kernelVaddr.vaddrBitmap 1 = .ok none)) ∧
    (k.RunsOut → ∀ k', k.sysFork ≠ .ok (none, k')) := by
  constructor
  · intro k' h
    constructor
    · exact fun hno => hno.found h
    · intro hnone
      rcases sysFork_failed h with ⟨-, rfl⟩ | ⟨idx, hsome, -⟩
      · exact ⟨rfl, rfl, rfl, rfl, rfl, rfl⟩
      · cases hsome.symm.trans hnone
  · rintro ⟨k1, hstarts, -⟩ k'
    exact hstarts.not_failed

/-- Both happen to `init`. -/
theorem ForkState.sysFork_noTrace_iff_init :
    (∃ k k' : ForkState, k.sysFork = .ok (none, k') ∧
      (k.NoTrace k' ↔ bitmapApplyCnt k.mem.kernelVaddr.vaddrBitmap 1 = .ok none)) ∧
    ∃ k : ForkState, k.RunsOut ∧ ∀ k', k.sysFork ≠ .ok (none, k') := by
  obtain ⟨⟨k, k', hfork, -⟩, k1, hout⟩ := init_fails
  exact ⟨⟨k, k', hfork, (sysFork_noTrace_iff k).1 k' hfork⟩, k1, hout, (sysFork_noTrace_iff k1).2 hout⟩

/-- `init` has no child, and a page of the kernel stays marked; or it has no frames, and the copy
goes on. -/
theorem ForkState.sysFork_trace :
    (¬ ∀ k k' : ForkState, k.sysFork = .ok (none, k') → k.NoTrace k') ∧
    ¬ ∀ k : ForkState, k.RunsOut → ∃ k', k.sysFork = .ok (none, k') := by
  obtain ⟨⟨k, k', hfork, hfound⟩, k1, hout⟩ := init_fails
  constructor
  · exact fun hall => hfound ((hall k k' hfork).found hfork)
  · intro hall
    obtain ⟨k', h⟩ := hall k1 hout
    obtain ⟨k2, hstarts, -⟩ := hout
    exact hstarts.not_failed h

end GwOS
