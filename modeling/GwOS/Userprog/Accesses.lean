import GwOS.Lib.Trace
import GwOS.Userprog.Lifecycle

/-!
# Accesses to a `struct pcb` (`thread/thread.c`, `userprog/wait.c`, `exit.c`, `fork.c`)

For each transition, the pages of PCBs that it allocates, frees and touches, in the order of
the source. The node of an intrusive list lies in a `struct pcb`, so walking a list or
changing it touches the threads that are linked there.

`thread_exit` frees the page of the thread and reads `thread->pid` from it afterwards.

- `accesses_accounts`: every other access is to a thread that the kernel still keeps, or to
  the page that has just been taken.
- `deadPcb_touched`: a run touches a freed PCB if and only if one of its transitions frees one.
-/

namespace GwOS

namespace Threads

variable {T S W : Type} [DecidableEq T] [DecidableEq S] [DecidableEq W]

/-! ## Lists -/

section Lists

/-- `node_find`: the nodes it steps over. -/
def nodeFindTouches (l : List T) (t : T) : List T := l.takeWhile (· ≠ t)

/-- `list_append`: the last node and the new one. -/
def listAppendTouches (l : List T) (t : T) : List T := l.getLast?.toList ++ [t]

/-- `list_push`: the new node and the first one. -/
def listPushTouches (l : List T) (t : T) : List T := t :: l.head?.toList

/-- `list_remove`: the node and its neighbours. -/
def listRemoveTouches (l : List T) (t : T) : List T :=
  t :: ((l.takeWhile (· ≠ t)).getLast?.toList ++ (l.dropWhile (· ≠ t)).tail.head?.toList)

/-- `list_pop`: the first node and the one after it. -/
def listPopTouches (l : List T) : List T := l.take 2

end Lists

/-- `list_traversal(&thread_all_list, ...)`: the threads up to the first one that is found. -/
def traversalTouches (s : Threads T S W) (p : Pcb → Bool) : List T :=
  s.allList.takeWhile (fun t => !(s.pcb t).any p) ++ (s.findThread p).toList

/-! ## Calls -/

/-- `thread_unblock` -/
def threadUnblockTouches (s : Threads T S W) (t : T) : List T :=
  t :: (nodeFindTouches s.readyList t ++ listPushTouches s.readyList t ++ [t])

/-- The first half of `schedule`. -/
def requeueNowTouches (s : Threads T S W) : List T :=
  s.running :: (if s.statusOf s.running = some .running then
    nodeFindTouches s.readyList s.running ++ listAppendTouches s.readyList s.running ++ [s.running]
    else [])

/-- The middle of `schedule`. -/
def reviveIdleTouches (s : Threads T S W) : List T :=
  if s.readyList = [] then s.threadUnblockTouches s.idleThread else []

/-- The end of `schedule`: `list_pop`, the fields of the next thread, and `switch_to`, which saves
the stack pointer of the thread it leaves. -/
def dispatchTouches (s : Threads T S W) : List T :=
  listPopTouches s.readyList ++ s.readyList.head?.toList ++ [s.running]

/-- `schedule` -/
def scheduleTouches (s : Threads T S W) : List T :=
  s.requeueNowTouches ++
    match s.requeueNow with
    | .error _ => []
    | .ok s => s.reviveIdleTouches ++
      match s.reviveIdle with
      | .error _ => []
      | .ok s => s.dispatchTouches

/-- `thread_block` -/
def threadBlockTouches (s : Threads T S W) (status : TaskStatus) : List T :=
  s.running :: ((s.intrSetStatus .off).setStatus s.running status).scheduleTouches

/-- `thread_yield` -/
def threadYieldTouches (s : Threads T S W) : List T :=
  nodeFindTouches s.readyList s.running ++ listAppendTouches s.readyList s.running ++ [s.running] ++
    scheduleTouches { (s.intrSetStatus .off).setStatus s.running .ready with
      readyList := s.readyList ++ [s.running] }

/-- `intr_timer_handler` -/
def intrTimerHandlerTouches (s : Threads T S W) : List T :=
  let s := (s.intrSetStatus .off).modifyPcb s.running fun p =>
    { p with elapsedTicks := p.elapsedTicks + 1 }
  s.running :: (if (s.pcb s.running).any (·.ticks = 0) then s.scheduleTouches else [])

/-- `semaphore_down` -/
def semaDownTouches (s : Threads T S W) (i : S) : List T :=
  match semaphoreDown (s.sema i) s.running with
  | .error _ => nodeFindTouches (s.sema i).waiters s.running
  | .ok (sema, true) => nodeFindTouches (s.sema i).waiters s.running ++
      listAppendTouches (s.sema i).waiters s.running ++ (s.setSema i sema).threadBlockTouches .blocked
  | .ok (_, false) => []

/-- `semaphore_up` -/
def semaUpTouches (s : Threads T S W) (i : S) : List T :=
  let (sema, w) := semaphoreUp (s.sema i)
  match w with
  | none => []
  | some t => listPopTouches (s.sema i).waiters ++ (s.setSema i sema).threadUnblockTouches t

/-- `ioq_wait` -/
def ioqWaitTouches (s : Threads T S W) (w : W) : List T :=
  match s.waiter w with
  | some _ => []
  | none => (s.setWaiter w (some s.running)).threadBlockTouches .blocked

/-- `wakeup` -/
def wakeupTouches (s : Threads T S W) (w : W) : List T :=
  match s.waiter w with
  | none => []
  | some t => s.threadUnblockTouches t

/-- The end of `thread_start` and `sys_fork`. -/
def enlistTouches (s : Threads T S W) (t : T) : List T :=
  nodeFindTouches s.readyList t ++ nodeFindTouches s.allList t ++ listAppendTouches s.readyList t ++
    listAppendTouches s.allList t

/-- `thread_start`: `init_thread`, `thread_create` and the lists. -/
def threadStartAccesses (s : Threads T S W) (t : T) : List (Access T) :=
  .alloc t :: (t :: s.enlistTouches t).map .touch

/-- `sys_fork`: `copy_process` reads the parent and writes the child, and returns early when it
runs out of memory. -/
def sysForkAccesses (s : Threads T S W) (mem : ForkMem T) (page : T) : List (Access T) :=
  match mem with
  | .noPcb => []
  | .noTranPage => [.alloc page, .touch s.running]
  | .noVaddrBitmap | .noPageDir => .alloc page :: [s.running, page].map .touch
  | .enough t => .alloc t :: (s.running :: t :: s.enlistTouches t).map .touch

/-- The end of `sys_exit`. -/
def wakeParentAndHangTouches (s : Threads T S W) : List T :=
  match s.pcb s.running with
  | none => []
  | some child =>
    s.traversalTouches (fun p => p.pid = child.parentPid) ++
      match s.pid2pcb child.parentPid with
      | none => s.threadBlockTouches .hanging
      | some parent => parent ::
        if s.statusOf parent = some .waiting then
          s.threadUnblockTouches parent ++
            match s.threadUnblock parent with
            | .error _ => []
            | .ok s => s.threadBlockTouches .hanging
        else s.threadBlockTouches .hanging

/-- `sys_exit`: `change_parent_to_init` looks at all threads, `release_prog_resource` at the
process itself. -/
def sysExitTouches (s : Threads T S W) (status : Int) : List T :=
  let s := s.intrSetStatus .off
  match s.pcb s.running with
  | none => []
  | some child =>
    if child.parentPid = -1 then [s.running]
    else
      let s := s.modifyPcb s.running fun p => { p with exitStatus := Int8.ofInt status }
      s.running :: s.allList ++ [s.running] ++ (s.changeParentToInit child.pid).wakeParentAndHangTouches

/-- The threads that `thread_exit` leaves behind when it calls `schedule`. -/
def afterExit (s : Threads T S W) (t : T) : Threads T S W :=
  let s := (s.intrSetStatus .off).setStatus t .died
  let s := { s with readyList := s.readyList.erase t, allList := s.allList.erase t }
  if t ≠ s.mainThread then { s with pcb := Function.update s.pcb t none } else s

/-- `thread_exit`, up to the point where it frees the page. -/
def threadExitTouches (s : Threads T S W) (t : T) : List T :=
  t :: (nodeFindTouches s.readyList t ++
    (if t ∈ s.readyList then listRemoveTouches s.readyList t else []) ++
    t :: listRemoveTouches s.allList t)

/-- `thread_exit`: `release_pid(thread->pid)` comes after `mfree_page`, and `schedule` reads
`now->status` of the running thread. -/
def threadExitAccesses (s : Threads T S W) (t : T) (needSchedule : Bool) : List (Access T) :=
  (s.threadExitTouches t).map .touch ++
    (if t ≠ s.mainThread then [.free t] else []) ++
    .touch t :: (if needSchedule then (s.afterExit t).scheduleTouches.map .touch else [])

/-- One round of `sys_wait` and `sys_wait_without_pid`. -/
def waitRoundAccesses (s : Threads T S W) (mine : Pcb → Bool) : List (Access T) :=
  let s := s.intrSetStatus .off
  (s.traversalTouches fun p => mine p && p.status = .hanging).map .touch ++
    match s.findThread fun p => mine p && p.status = .hanging with
    | some child => .touch child :: s.threadExitAccesses child false
    | none => (s.traversalTouches mine).map .touch ++
      match s.findThread mine with
      | none => []
      | some _ => (s.threadBlockTouches .waiting).map .touch

/-- The accesses of a transition; `page` is the page of a child that `sys_fork` gives up on. -/
def accesses (s : Threads T S W) (op : Op T S W) (page : T) : List (Access T) :=
  match op with
  | .tick => s.intrTimerHandlerTouches.map .touch
  | .up i => (s.semaUpTouches i).map .touch
  | .wakeup w => (s.wakeupTouches w).map .touch
  | .intr _ | .semaInit _ _ => []
  | .idle => (s.threadBlockTouches .blocked).map .touch
  | .yield => s.threadYieldTouches.map .touch
  | .down i => (s.semaDownTouches i).map .touch
  | .ioqWait w => (s.ioqWaitTouches w).map .touch
  | .start t _ _ => s.threadStartAccesses t
  | .fork mem => s.sysForkAccesses mem page
  | .exit status => (s.sysExitTouches status).map .touch
  | .wait pid => s.waitRoundAccesses fun p => p.pid = pid
  | .waitWithoutPid =>
    match s.pcb s.running with
    | none => []
    | some parent => .touch s.running :: s.waitRoundAccesses fun p => p.parentPid = parent.pid
  | .threadExit => s.threadExitAccesses s.running true

/-! ## What is touched -/

/-- The threads that the kernel can reach satisfy `P`. -/
structure Within (P : T → Prop) (s : Threads T S W) : Prop where
  running : P s.running
  idle : P s.idleThread
  ready : ∀ u ∈ s.readyList, P u
  all : ∀ u ∈ s.allList, P u
  waiters : ∀ i, ∀ u ∈ (s.sema i).waiters, P u
  slots : ∀ w u, s.waiter w = some u → P u

section Touches

variable {P : T → Prop} {s s' : Threads T S W} {t : T} {l : List T}

omit [DecidableEq S] [DecidableEq W]

theorem nodeFindTouches_forall (hl : ∀ u ∈ l, P u) (t : T) : ∀ u ∈ nodeFindTouches l t, P u :=
  fun u hu => hl u ((List.takeWhile_sublist _).subset hu)

omit [DecidableEq T] in
theorem getLast_forall (hl : ∀ u ∈ l, P u) : ∀ u ∈ l.getLast?.toList, P u := by
  intro u hu
  exact hl u (List.mem_of_getLast? (Option.mem_toList.mp hu))

omit [DecidableEq T] in
theorem head_forall (hl : ∀ u ∈ l, P u) : ∀ u ∈ l.head?.toList, P u := by
  intro u hu
  exact hl u (List.mem_of_head? (Option.mem_toList.mp hu))

omit [DecidableEq T] in
theorem listAppendTouches_forall (hl : ∀ u ∈ l, P u) (ht : P t) :
    ∀ u ∈ listAppendTouches l t, P u :=
  List.forall_mem_append.mpr ⟨getLast_forall hl, List.forall_mem_singleton.mpr ht⟩

omit [DecidableEq T] in
theorem listPushTouches_forall (hl : ∀ u ∈ l, P u) (ht : P t) : ∀ u ∈ listPushTouches l t, P u :=
  List.forall_mem_cons.mpr ⟨ht, head_forall hl⟩

theorem listRemoveTouches_forall (hl : ∀ u ∈ l, P u) (ht : P t) :
    ∀ u ∈ listRemoveTouches l t, P u := by
  refine List.forall_mem_cons.mpr ⟨ht, List.forall_mem_append.mpr ⟨?_, ?_⟩⟩
  · exact getLast_forall fun u hu => hl u ((List.takeWhile_sublist _).subset hu)
  · refine head_forall fun u hu => hl u ?_
    exact (List.dropWhile_sublist _).subset (List.mem_of_mem_tail hu)

omit [DecidableEq T] in
theorem traversalTouches_forall (h : s.Within P) (p : Pcb → Bool) :
    ∀ u ∈ s.traversalTouches p, P u := by
  refine List.forall_mem_append.mpr ⟨fun u hu => ?_, fun u hu => ?_⟩
  · exact h.all u ((List.takeWhile_sublist _).subset hu)
  · exact h.all u (List.mem_of_find?_eq_some (Option.mem_toList.mp hu))

theorem threadUnblockTouches_forall (h : s.Within P) (ht : P t) :
    ∀ u ∈ s.threadUnblockTouches t, P u := by
  refine List.forall_mem_cons.mpr ⟨ht, ?_⟩
  refine List.forall_mem_append.mpr ⟨List.forall_mem_append.mpr ⟨?_, ?_⟩, ?_⟩
  · exact nodeFindTouches_forall h.ready t
  · exact listPushTouches_forall h.ready ht
  · exact List.forall_mem_singleton.mpr ht

/-- Changes of fields that link no thread. -/
theorem Within.modifyPcb (h : s.Within P) (t : T) (f : Pcb → Pcb) (status : IntrStatus) :
    ((s.intrSetStatus status).modifyPcb t f).Within P :=
  ⟨h.running, h.idle, h.ready, h.all, h.waiters, h.slots⟩

omit [DecidableEq T] in
theorem Within.setSema [DecidableEq S] (h : s.Within P) (i : S) {sema : Semaphore T}
    (hsema : ∀ u ∈ sema.waiters, P u) : (s.setSema i sema).Within P := by
  refine ⟨h.running, h.idle, h.ready, h.all, fun j u hu => ?_, h.slots⟩
  by_cases hj : j = i
  · subst hj
    simp only [Threads.setSema, Function.update_self] at hu
    exact hsema u hu
  · simp only [Threads.setSema, Function.update_of_ne hj] at hu
    exact h.waiters j u hu

omit [DecidableEq T] in
theorem Within.setWaiter [DecidableEq W] (h : s.Within P) (w : W) (ht : P t) :
    (s.setWaiter w (some t)).Within P := by
  refine ⟨h.running, h.idle, h.ready, h.all, h.waiters, fun v u hu => ?_⟩
  by_cases hv : v = w
  · subst hv
    simp only [Threads.setWaiter, Function.update_self] at hu
    cases hu
    exact ht
  · simp only [Threads.setWaiter, Function.update_of_ne hv] at hu
    exact h.slots v u hu

/-- `thread_unblock` puts a thread into the ready list. -/
theorem Within.threadUnblock (h : s.Within P) (ht : P t) (hok : s.threadUnblock t = .ok s') :
    s'.Within P := by
  rw [Threads.threadUnblock] at hok
  split at hok
  · split at hok
    · split at hok
      · cases hok
      · cases hok
        exact ⟨h.running, h.idle, List.forall_mem_cons.mpr ⟨ht, h.ready⟩, h.all, h.waiters, h.slots⟩
    · cases hok
      exact h
  · cases hok

theorem Within.requeueNow (h : s.Within P) (hok : s.requeueNow = .ok s') : s'.Within P := by
  rw [Threads.requeueNow] at hok
  split at hok
  · split at hok
    · cases hok
    · cases hok
      refine ⟨h.running, h.idle, List.forall_mem_append.mpr ⟨h.ready, ?_⟩, h.all, h.waiters, h.slots⟩
      exact List.forall_mem_singleton.mpr h.running
  · cases hok
    exact h

theorem scheduleTouches_forall (h : s.Within P) : ∀ u ∈ s.scheduleTouches, P u := by
  refine List.forall_mem_append.mpr ⟨List.forall_mem_cons.mpr ⟨h.running, ?_⟩, ?_⟩
  · split
    · refine List.forall_mem_append.mpr ⟨List.forall_mem_append.mpr ⟨?_, ?_⟩, ?_⟩
      · exact nodeFindTouches_forall h.ready s.running
      · exact listAppendTouches_forall h.ready h.running
      · exact List.forall_mem_singleton.mpr h.running
    · exact nofun
  split
  · exact nofun
  · rename_i s₁ hs₁
    have h₁ := h.requeueNow hs₁
    refine List.forall_mem_append.mpr ⟨?_, ?_⟩
    · rw [reviveIdleTouches]
      split
      · exact threadUnblockTouches_forall h₁ h₁.idle
      · exact nofun
    · split
      · exact nofun
      · rename_i s₂ hs₂
        have h₂ : s₂.Within P := by
          rw [reviveIdle] at hs₂
          split at hs₂
          · exact h₁.threadUnblock h₁.idle hs₂
          · cases hs₂
            exact h₁
        refine List.forall_mem_append.mpr ⟨List.forall_mem_append.mpr ⟨?_, head_forall h₂.ready⟩, ?_⟩
        · exact fun u hu => h₂.ready u (List.mem_of_mem_take hu)
        · exact List.forall_mem_singleton.mpr h₂.running

theorem threadBlockTouches_forall (h : s.Within P) (status : TaskStatus) :
    ∀ u ∈ s.threadBlockTouches status, P u :=
  List.forall_mem_cons.mpr ⟨h.running, scheduleTouches_forall (h.modifyPcb _ _ _)⟩

theorem threadYieldTouches_forall (h : s.Within P) : ∀ u ∈ s.threadYieldTouches, P u := by
  refine List.forall_mem_append.mpr ⟨List.forall_mem_append.mpr
    ⟨List.forall_mem_append.mpr ⟨?_, ?_⟩, ?_⟩, scheduleTouches_forall ?_⟩
  · exact nodeFindTouches_forall h.ready s.running
  · exact listAppendTouches_forall h.ready h.running
  · exact List.forall_mem_singleton.mpr h.running
  · refine ⟨h.running, h.idle, List.forall_mem_append.mpr ⟨h.ready, ?_⟩, h.all, h.waiters, h.slots⟩
    exact List.forall_mem_singleton.mpr h.running

theorem enlistTouches_forall (h : s.Within P) (ht : P t) : ∀ u ∈ s.enlistTouches t, P u := by
  refine List.forall_mem_append.mpr ⟨List.forall_mem_append.mpr
    ⟨List.forall_mem_append.mpr ⟨?_, ?_⟩, ?_⟩, ?_⟩
  · exact nodeFindTouches_forall h.ready t
  · exact nodeFindTouches_forall h.all t
  · exact listAppendTouches_forall h.ready ht
  · exact listAppendTouches_forall h.all ht

theorem threadExitTouches_forall (h : s.Within P) (ht : P t) :
    ∀ u ∈ s.threadExitTouches t, P u := by
  refine List.forall_mem_cons.mpr ⟨ht, List.forall_mem_append.mpr
    ⟨List.forall_mem_append.mpr ⟨?_, ?_⟩, List.forall_mem_cons.mpr ⟨ht, ?_⟩⟩⟩
  · exact nodeFindTouches_forall h.ready t
  · split
    · exact listRemoveTouches_forall h.ready ht
    · exact nofun
  · exact listRemoveTouches_forall h.all ht

theorem semaDownTouches_forall [DecidableEq S] (h : s.Within P) (i : S) :
    ∀ u ∈ s.semaDownTouches i, P u := by
  rw [semaDownTouches]
  split
  · exact nodeFindTouches_forall (h.waiters i) s.running
  · rename_i sema hok
    refine List.forall_mem_append.mpr ⟨List.forall_mem_append.mpr ⟨?_, ?_⟩, ?_⟩
    · exact nodeFindTouches_forall (h.waiters i) s.running
    · exact listAppendTouches_forall (h.waiters i) h.running
    · refine threadBlockTouches_forall (h.setSema i ?_) _
      rw [semaphoreDown] at hok
      split at hok
      · split at hok
        · cases hok
        · cases hok
          exact List.forall_mem_append.mpr ⟨h.waiters i, List.forall_mem_singleton.mpr h.running⟩
      · simp only at hok
        split at hok <;> cases hok
  · exact fun _ hm => absurd hm List.not_mem_nil

theorem semaUpTouches_forall [DecidableEq S] (h : s.Within P) (i : S) :
    ∀ u ∈ s.semaUpTouches i, P u := by
  rw [semaUpTouches]
  cases hw : (s.sema i).waiters with
  | nil => simp [semaphoreUp, hw]
  | cons t ws =>
    have hall := h.waiters i
    rw [hw] at hall
    obtain ⟨ht, hws⟩ := List.forall_mem_cons.mp hall
    simp only [semaphoreUp, hw]
    refine List.forall_mem_append.mpr ⟨fun u hu => hall u (List.mem_of_mem_take hu), ?_⟩
    exact threadUnblockTouches_forall (h.setSema i hws) ht

theorem ioqWaitTouches_forall [DecidableEq W] (h : s.Within P) (w : W) :
    ∀ u ∈ s.ioqWaitTouches w, P u := by
  rw [ioqWaitTouches]
  split
  · exact nofun
  · exact threadBlockTouches_forall (h.setWaiter w h.running) _

theorem wakeupTouches_forall (h : s.Within P) (w : W) : ∀ u ∈ s.wakeupTouches w, P u := by
  rw [wakeupTouches]
  split
  · exact nofun
  · rename_i t ht
    exact threadUnblockTouches_forall h (h.slots w t ht)

theorem intrTimerHandlerTouches_forall (h : s.Within P) :
    ∀ u ∈ s.intrTimerHandlerTouches, P u := by
  refine List.forall_mem_cons.mpr ⟨h.running, ?_⟩
  split
  · exact scheduleTouches_forall (h.modifyPcb _ _ _)
  · exact nofun

theorem wakeParentAndHangTouches_forall (h : s.Within P) :
    ∀ u ∈ s.wakeParentAndHangTouches, P u := by
  rw [wakeParentAndHangTouches]
  split
  · exact nofun
  · refine List.forall_mem_append.mpr ⟨traversalTouches_forall h _, ?_⟩
    split
    · exact threadBlockTouches_forall h _
    · rename_i parent hparent
      have hP : P parent := h.all parent (List.mem_of_find?_eq_some hparent)
      refine List.forall_mem_cons.mpr ⟨hP, ?_⟩
      split
      · refine List.forall_mem_append.mpr ⟨threadUnblockTouches_forall h hP, ?_⟩
        split
        · exact nofun
        · rename_i s₁ hs₁
          exact threadBlockTouches_forall (h.threadUnblock hP hs₁) _
      · exact threadBlockTouches_forall h _

/-- `change_parent_to_init` moves no thread. -/
theorem Within.changeParentToInit (h : s.Within P) (ppid : Int) :
    (s.changeParentToInit ppid).Within P := by
  rw [Threads.changeParentToInit]
  generalize s.allList = l
  induction l generalizing s with
  | nil => exact h
  | cons u l ih => exact ih ⟨h.running, h.idle, h.ready, h.all, h.waiters, h.slots⟩

theorem sysExitTouches_forall (h : s.Within P) (status : Int) :
    ∀ u ∈ s.sysExitTouches status, P u := by
  rw [sysExitTouches]
  simp only
  split
  · exact nofun
  · split
    · exact List.forall_mem_singleton.mpr h.running
    · refine List.forall_mem_append.mpr ⟨List.forall_mem_append.mpr
        ⟨List.forall_mem_cons.mpr ⟨h.running, h.all⟩, List.forall_mem_singleton.mpr h.running⟩, ?_⟩
      exact wakeParentAndHangTouches_forall ((h.modifyPcb _ _ _).changeParentToInit _)

end Touches

/-! ## What is freed -/

/-- The hanging thread that a wait reaps. -/
def reapedThread (s : Threads T S W) (mine : Pcb → Bool) : Option T :=
  s.findThread fun p => mine p && p.status = .hanging

/-- The PCB whose page the transition frees. -/
def dies (s : Threads T S W) : Op T S W → Option T
  | .wait pid => (s.reapedThread fun p => p.pid = pid).filter (· ≠ s.mainThread)
  | .waitWithoutPid =>
    match s.pcb s.running with
    | none => none
    | some parent => (s.reapedThread fun p => p.parentPid = parent.pid).filter (· ≠ s.mainThread)
  | .threadExit => if s.running ≠ s.mainThread then some s.running else none
  | _ => none

/-- The page that the transition takes for a PCB. -/
def born (page : T) : Op T S W → Option T
  | .start t _ _ => some t
  | .fork .noPcb => none
  | .fork (.enough t) => some t
  | .fork _ => some page
  | _ => none

/-- The thread is in the table. -/
def Listed (s : Threads T S W) (t : T) : Prop := s.table.proc t ≠ none

/-- The thread that is freed is touched right after it. -/
def freeTouch (t : Option T) (cs : List T) : List (Access T) :=
  match t with
  | none => []
  | some t => .free t :: .touch t :: cs.map .touch

/-- The accesses take a page, touch it or threads of the table, and free a thread. -/
def Accounts (s : Threads T S W) (born dies : Option T) (l : List (Access T)) : Prop :=
  ∃ bs cs : List T, (∀ u ∈ bs, born = some u ∨ s.Listed u) ∧
    l = born.toList.map .alloc ++ bs.map .touch ++ freeTouch dies cs

section Dies

variable {s s' : Threads T S W} {place : T → Place S W} {t : T} {op : Op T S W} {page : T}

omit [DecidableEq T] [DecidableEq S] [DecidableEq W] in
/-- Between two transitions every thread that the kernel can reach is in the table. -/
theorem Inv.within (h : s.Inv) : s.Within s.Listed := by
  obtain ⟨place, hagrees, hrun⟩ := h
  have halive : ∀ u, (place u).Alive → s.Listed u := fun u hu =>
    hagrees.mem_table.mp ((hagrees.mem_all u).mpr hu)
  constructor
  · exact halive _ (by rw [hrun]; exact ⟨nofun, nofun⟩)
  · refine halive _ ?_
    rcases hagrees.idle with hi | hi | hi <;> rw [hi] <;> exact ⟨nofun, nofun⟩
  · intro u hu
    refine halive u ?_
    rw [(hagrees.mem_queue .ready u).mp hu]
    exact ⟨nofun, nofun⟩
  · exact fun u hu => hagrees.mem_table.mp hu
  · intro i u hu
    refine halive u ?_
    rw [(hagrees.mem_queue (.sema i) u).mp hu]
    exact ⟨nofun, nofun⟩
  · intro w u hu
    refine halive u ?_
    rw [(hagrees.waiter w u).mp hu]
    exact ⟨nofun, nofun⟩

omit [DecidableEq T] [DecidableEq S] [DecidableEq W] in
theorem Accounts.touches {bs : List T} (hbs : ∀ u ∈ bs, s.Listed u) :
    s.Accounts none none (bs.map .touch) :=
  ⟨bs, [], fun u hu => .inr (hbs u hu), by simp [freeTouch]⟩

omit [DecidableEq T] [DecidableEq S] [DecidableEq W] in
theorem Accounts.nothing : s.Accounts none none [] := ⟨[], [], nofun, rfl⟩

omit [DecidableEq T] [DecidableEq S] [DecidableEq W] in
/-- More threads are touched first. -/
theorem Accounts.cons {d : Option T} {l : List (Access T)} (h : s.Accounts none d l) {bs : List T}
    (hbs : ∀ u ∈ bs, s.Listed u) : s.Accounts none d (bs.map .touch ++ l) := by
  obtain ⟨bs', cs, hbs', rfl⟩ := h
  refine ⟨bs ++ bs', cs, List.forall_mem_append.mpr ⟨fun u hu => .inr (hbs u hu), hbs'⟩, ?_⟩
  simp

omit [DecidableEq T] [DecidableEq S] [DecidableEq W] in
/-- A page is taken, and threads are touched. -/
theorem Accounts.alloc {bs : List T} (hbs : ∀ u ∈ bs, u = t ∨ s.Listed u) :
    s.Accounts (some t) none (.alloc t :: bs.map .touch) :=
  ⟨bs, [], fun u hu => (hbs u hu).imp_left fun h => by rw [h], by simp [freeTouch]⟩

omit [DecidableEq S] [DecidableEq W] in
/-- `thread_exit` touches threads of the table, then frees and touches the thread itself. -/
theorem threadExitAccesses_accounts (h : s.Within s.Listed) (ht : s.Listed t) (needSchedule : Bool) :
    s.Accounts none (if t ≠ s.mainThread then some t else none)
      (s.threadExitAccesses t needSchedule) := by
  have hpre := threadExitTouches_forall h ht
  rw [threadExitAccesses]
  by_cases hne : t = s.mainThread
  · -- nothing is freed: the rest touches threads of the table too
    have hafter : ∀ u ∈ (if needSchedule then (s.afterExit t).scheduleTouches else []), s.Listed u := by
      split
      · refine scheduleTouches_forall ?_
        simp only [afterExit]
        split <;> exact ⟨h.running, h.idle, fun u hu => h.ready u (List.mem_of_mem_erase hu),
          fun u hu => h.all u (List.mem_of_mem_erase hu), h.waiters, h.slots⟩
      · exact nofun
    rw [if_neg (not_not.mpr hne), if_neg (not_not.mpr hne)]
    have htail := (Accounts.touches (List.forall_mem_cons.mpr ⟨ht, hafter⟩)).cons hpre
    cases needSchedule <;> simpa using htail
  · refine ⟨s.threadExitTouches t, if needSchedule then (s.afterExit t).scheduleTouches else [],
      fun u hu => .inr (hpre u hu), ?_⟩
    rw [if_pos hne, if_pos hne]
    cases needSchedule <;> simp [freeTouch]

omit [DecidableEq S] [DecidableEq W] in
/-- A round of a wait frees the thread that it reaps, unless that is the main thread. -/
theorem waitRoundAccesses_accounts (h : s.Within s.Listed) (mine : Pcb → Bool) :
    s.Accounts none ((s.reapedThread mine).filter (· ≠ s.mainThread)) (s.waitRoundAccesses mine) := by
  have hoff : (s.intrSetStatus .off).Within s.Listed :=
    ⟨h.running, h.idle, h.ready, h.all, h.waiters, h.slots⟩
  rw [waitRoundAccesses]
  refine Accounts.cons ?_ (traversalTouches_forall hoff _)
  have hfind : (s.intrSetStatus .off).findThread (fun p => mine p && p.status = .hanging) =
      s.reapedThread mine := rfl
  rw [hfind]
  cases hr : s.reapedThread mine with
  | some child =>
    have hchild : s.Listed child := h.all child (List.mem_of_find?_eq_some hr)
    have hexit : s.Accounts none (if child ≠ s.mainThread then some child else none)
        ((s.intrSetStatus .off).threadExitAccesses child false) :=
      threadExitAccesses_accounts (s := s.intrSetStatus .off) hoff hchild false
    have hcons := hexit.cons (List.forall_mem_singleton.mpr hchild)
    by_cases hne : child = s.mainThread
    · rw [if_neg (not_not.mpr hne)] at hcons
      simpa [hne, Option.filter] using hcons
    · rw [if_pos hne] at hcons
      simpa [hne, Option.filter] using hcons
  | none =>
    simp only [Option.filter_none]
    refine Accounts.cons ?_ (traversalTouches_forall hoff mine)
    split
    · exact Accounts.nothing
    · exact Accounts.touches (threadBlockTouches_forall hoff _)

/-- When a transition can happen, with `thread_exit` called by any thread but the idle one. -/
def Callable (s : Threads T S W) : Op T S W → Prop
  | .threadExit => s.running ≠ s.idleThread
  | op => s.Enabled op

omit [DecidableEq T] [DecidableEq S] [DecidableEq W] in
theorem Callable.enabled (h : s.Callable op) (hne : op ≠ .threadExit) : s.Enabled op := by
  cases op <;> first | exact absurd rfl hne | exact h

/-- **What a transition accesses.** -/
theorem accesses_accounts (h : s.Inv) (op : Op T S W) (page : T) :
    s.Accounts (born page op) (s.dies op) (s.accesses op page) := by
  have hin := h.within
  have henlist : ∀ t, ∀ u ∈ s.enlistTouches t, u = t ∨ s.Listed u := by
    intro t
    exact enlistTouches_forall ⟨.inr hin.running, .inr hin.idle, fun u hu => .inr (hin.ready u hu),
      fun u hu => .inr (hin.all u hu), fun i u hu => .inr (hin.waiters i u hu),
      fun w u hu => .inr (hin.slots w u hu)⟩ (.inl rfl)
  cases op with
  | tick => exact .touches (intrTimerHandlerTouches_forall hin)
  | up i => exact .touches (semaUpTouches_forall hin i)
  | wakeup w => exact .touches (wakeupTouches_forall hin w)
  | intr _ | semaInit _ _ => exact Accounts.nothing
  | idle => exact .touches (threadBlockTouches_forall hin _)
  | yield => exact .touches (threadYieldTouches_forall hin)
  | down i => exact .touches (semaDownTouches_forall hin i)
  | ioqWait w => exact .touches (ioqWaitTouches_forall hin w)
  | start t name priority => exact .alloc (List.forall_mem_cons.mpr ⟨.inl rfl, henlist t⟩)
  | fork mem =>
    have hrun : ∀ t, s.running = t ∨ s.Listed s.running := fun _ => .inr hin.running
    cases mem with
    | noPcb => exact Accounts.nothing
    | noTranPage => exact .alloc (List.forall_mem_singleton.mpr (hrun page))
    | noVaddrBitmap | noPageDir =>
      exact .alloc (List.forall_mem_cons.mpr ⟨hrun page, List.forall_mem_singleton.mpr (.inl rfl)⟩)
    | enough t =>
      exact .alloc (List.forall_mem_cons.mpr ⟨hrun t, List.forall_mem_cons.mpr ⟨.inl rfl, henlist t⟩⟩)
  | exit status => exact .touches (sysExitTouches_forall hin status)
  | wait pid => exact waitRoundAccesses_accounts hin _
  | waitWithoutPid =>
    simp only [dies, accesses, born]
    split
    · exact Accounts.nothing
    · exact (waitRoundAccesses_accounts hin _).cons (List.forall_mem_singleton.mpr hin.running)
  | threadExit => exact threadExitAccesses_accounts hin hin.running true

/-! ## The table after a transition -/

omit [DecidableEq S] [DecidableEq W] in
theorem listed_remove {mp : Bitmap} (ht : s'.table = s.table.remove t mp) {u : T} (hu : s'.Listed u) :
    s.Listed u ∧ t ≠ u := by
  rw [Listed, ht] at hu
  by_cases hut : u = t
  · subst hut
    exact absurd (Function.update_self ..) hu
  · refine ⟨?_, fun he => hut he.symm⟩
    simp only [ProcTable.remove, Function.update_of_ne hut] at hu
    exact hu

omit [DecidableEq S] [DecidableEq W] in
/-- A round of a wait adds no thread, and the one it reaps is gone. -/
theorem waitRound_listed (h : s.Inv) (hidle : s.running ≠ s.idleThread) {mine : Pcb → Bool}
    {r : WaitResult} (hok : s.waitRound mine = .ok (s', r)) {u : T} (hu : s'.Listed u) :
    s.Listed u ∧ s.reapedThread mine ≠ some u := by
  cases hfind : s.reapedThread mine with
  | some child =>
    obtain ⟨place, hagrees, hrun⟩ := h
    obtain ⟨pcb, hpcb, -, -, hplace, hidle'⟩ := hagrees.hanging hfind
    have hwait : s.waitRound mine = (s.intrSetStatus .off).threadExit child false >>= fun s =>
        .ok (s, .reaped pcb.pid pcb.exitStatus) := by
      have hf : (s.intrSetStatus .off).findThread (fun p => mine p && p.status = .hanging) =
          some child := hfind
      have hp : (s.intrSetStatus .off).pcb child = some pcb := hpcb
      rw [waitRound]
      simp only [hf, hp]
    rw [hwait] at hok
    obtain ⟨f, hf⟩ | ⟨s₁, p, thread, mp, -, -, -, -, -, htable, hexit⟩ :=
      threadExit_cases (hagrees.intr .off) (.inr (.inr (.inr hplace))) hidle' false
    · rw [hf] at hok
      cases hok
    · rw [hexit] at hok
      cases hok
      obtain ⟨hl, hne⟩ := listed_remove (s := s.intrSetStatus .off) htable hu
      exact ⟨hl, fun he => hne (Option.some.inj he)⟩
  | none =>
    refine ⟨?_, by rintro ⟨⟩⟩
    obtain ⟨f, hf⟩ | ⟨s₁, r₁, hok₁, -, hr⟩ := waitRound_cases h hidle mine
    · rw [hf] at hok
      cases hok
    · rw [hok] at hok₁
      cases hok₁
      cases r with
      | reaped pid exitStatus =>
        obtain ⟨child, p, mp, -, -, -, -, -, -, htable⟩ := hr
        exact (listed_remove htable hu).1
      | noChild | blocked =>
        have htable : s'.table = s.table := hr
        rwa [Listed, htable] at hu

/-- **The table after a transition**: a new thread is on the page that was taken for it, and a
thread that was freed is gone. -/
theorem exec_listed (h : s.Inv) (hop : s.Callable op) (hok : s.exec op = .ok s') (page : T) :
    s'.Inv ∧ ∀ u, s'.Listed u → (born page op = some u ∨ s.Listed u) ∧ s.dies op ≠ some u := by
  have hsame : s'.table = s.table → ∀ u, s'.Listed u → s.Listed u := by
    intro htable u hu
    rwa [Listed, htable] at hu
  have hspawn : ∀ {t : T} {p : Proc} {mp : Bitmap}, s'.table = s.table.spawn t p mp →
      ∀ u, s'.Listed u → t = u ∨ s.Listed u := by
    intro t p mp htable u hu
    rw [Listed, htable] at hu
    by_cases hut : u = t
    · exact .inl hut.symm
    · refine .inr ?_
      simp only [ProcTable.spawn, Function.update_of_ne hut] at hu
      exact hu
  cases op with
  | threadExit =>
    have hfine := threadExit_fine h hop
    rw [exec] at hok
    rw [hok] at hfine
    cases hfine with
    | ok hinv hQ =>
      obtain ⟨p, mp, -, -, htable⟩ := hQ
      refine ⟨hinv, fun u hu => ?_⟩
      obtain ⟨hl, hne⟩ := listed_remove htable hu
      refine ⟨.inr hl, ?_⟩
      simp only [dies]
      split
      · exact fun he => hne (Option.some.inj he)
      · rintro ⟨⟩
  | tick | up _ | wakeup _ | intr _ | semaInit _ _ | idle | yield | down _ | ioqWait _ =>
    obtain ⟨hinv, hchanges⟩ := exec_ok h (hop.enabled (by rintro ⟨⟩)) hok
    exact ⟨hinv, fun u hu => ⟨.inr (hsame hchanges u hu), by rintro ⟨⟩⟩⟩
  | start t name priority =>
    obtain ⟨hinv, pid, mp, -, htable⟩ := exec_ok h (hop.enabled (by rintro ⟨⟩)) hok
    exact ⟨hinv, fun u hu => ⟨(hspawn htable u hu).imp_left (congrArg some), by rintro ⟨⟩⟩⟩
  | fork mem =>
    obtain ⟨hinv, hchanges⟩ := exec_ok h (hop.enabled (by rintro ⟨⟩)) hok
    refine ⟨hinv, fun u hu => ⟨?_, by rintro ⟨⟩⟩⟩
    rcases hchanges with htable | ⟨parent, pid, mp, -, -, -, htable | ⟨t, rfl, htable⟩⟩
    · exact .inr (hsame htable u hu)
    · refine .inr ?_
      rwa [Listed, htable] at hu
    · exact (hspawn htable u hu).imp_left (congrArg some)
  | exit status =>
    obtain ⟨hinv, child, -, -, htable⟩ := exec_ok h (hop.enabled (by rintro ⟨⟩)) hok
    refine ⟨hinv, fun u hu => ⟨.inr ?_, by rintro ⟨⟩⟩⟩
    rw [Listed, htable] at hu
    exact fun hnone => hu (by simp only [ProcTable.exit, hnone, Option.map_none])
  | wait pid =>
    obtain ⟨hinv, r, hwait, -⟩ := exec_ok h (hop.enabled (by rintro ⟨⟩)) hok
    refine ⟨hinv, fun u hu => ?_⟩
    obtain ⟨hl, hne⟩ := waitRound_listed h hop hwait hu
    exact ⟨.inr hl, fun hd => hne (Option.eq_some_of_filter_eq_some hd)⟩
  | waitWithoutPid =>
    obtain ⟨hinv, parent, r, hparent, hwait, -⟩ := exec_ok h (hop.enabled (by rintro ⟨⟩)) hok
    refine ⟨hinv, fun u hu => ?_⟩
    have hround : s.waitRound (fun p => p.parentPid = parent.pid) = .ok (s', r) := by
      rw [sysWaitWithoutPid, hparent] at hwait
      exact hwait
    obtain ⟨hl, hne⟩ := waitRound_listed h hop hround hu
    refine ⟨.inr hl, fun hd => hne ?_⟩
    simp only [dies, hparent] at hd
    exact Option.eq_some_of_filter_eq_some hd

/-! ## Runs -/

/-- The runs of the kernel, with the transitions made, each in the state before it, and the
accesses. A transition that does not return is the last one. -/
inductive PcbRun (init main idle : T) : Option (Threads T S W) → List (Threads T S W × Op T S W) →
    List (Access T) → Prop
  | init {value : S → UInt8} {s : Threads T S W} (h : threadInit init main idle value = .ok s) :
      PcbRun init main idle (some s) [] []
  | step {s : Threads T S W} {steps : List (Threads T S W × Op T S W)} {trace : List (Access T)}
      {op : Op T S W} (h : PcbRun init main idle (some s) steps trace) (hop : s.Callable op)
      (page : T) :
      PcbRun init main idle (s.exec op).toOption (steps ++ [(s, op)]) (trace ++ s.accesses op page)

variable {trace : List (Access T)} {b d : Option T} {l : List (Access T)}

open Access

omit [DecidableEq T] [DecidableEq S] [DecidableEq W] in
theorem freed_alloc {u : T} :
    Freed (trace ++ b.toList.map .alloc) u ↔ Freed trace u ∧ b ≠ some u := by
  cases b with
  | none => simp
  | some t =>
    rw [Option.toList_some, List.map_singleton, freed_snoc]
    simp

omit [DecidableEq T] [DecidableEq S] [DecidableEq W] in
/-- What is freed after the accesses of a transition. -/
theorem Accounts.freed (h : s.Accounts b d l) {u : T} (hu : Freed (trace ++ l) u) :
    (Freed trace u ∧ b ≠ some u) ∨ d = some u := by
  obtain ⟨bs, cs, -, rfl⟩ := h
  rw [← List.append_assoc, ← List.append_assoc] at hu
  cases d with
  | none =>
    rw [freeTouch, List.append_nil, freed_append_touches] at hu
    exact .inl (freed_alloc.mp hu)
  | some t =>
    rw [freeTouch, List.append_cons, List.append_cons, freed_append_touches, freed_snoc,
      freed_snoc, freed_append_touches] at hu
    rcases hu with hu | ⟨hu | ⟨hu, -⟩, -⟩
    · cases hu
    · cases hu
      exact .inr rfl
    · exact .inl (freed_alloc.mp hu)

omit [DecidableEq T] [DecidableEq S] [DecidableEq W] in
/-- The accesses of a transition touch a freed PCB if and only if they free one. -/
theorem Accounts.neverStale_iff (h : s.Accounts b d l) (hfreed : ∀ u, Freed trace u → ¬ s.Listed u) :
    NeverStale (trace ++ l) ↔ NeverStale trace ∧ d = none := by
  obtain ⟨bs, cs, hbs, rfl⟩ := h
  have halloc : NeverStale trace → NeverStale (trace ++ b.toList.map .alloc) := by
    intro hn
    cases b with
    | none => simpa using hn
    | some t => exact neverStale_snoc.mpr ⟨hn, fun _ => nofun⟩
  have htouches : NeverStale trace →
      NeverStale (trace ++ b.toList.map .alloc ++ bs.map .touch) := by
    intro hn
    refine (halloc hn).append_touches fun u hu hf => ?_
    obtain ⟨hf, hb⟩ := freed_alloc.mp hf
    rcases hbs u hu with hbu | hl
    · exact hb hbu
    · exact hfreed u hf hl
  rw [← List.append_assoc, ← List.append_assoc]
  cases d with
  | none =>
    rw [freeTouch, List.append_nil]
    exact ⟨fun hn => ⟨hn.of_append.of_append, rfl⟩, fun hn => htouches hn.1⟩
  | some t => exact iff_of_false (not_neverStale _) fun hn => nomatch hn.2

/-- What holds along a run: the state is a good one and no freed thread is in the table. -/
theorem PcbRun.spec {init main idle : T} (hne : init ≠ main ∧ init ≠ idle ∧ main ≠ idle)
    {o : Option (Threads T S W)} {steps : List (Threads T S W × Op T S W)}
    (hr : PcbRun init main idle o steps trace) :
    (∀ s, o = some s → s.Inv ∧ ∀ u, Freed trace u → ¬ s.Listed u) ∧
      (NeverStale trace ↔ ∀ x ∈ steps, x.1.dies x.2 = none) := by
  induction hr with
  | init h =>
    refine ⟨fun s hs => ?_, iff_of_true neverStale_nil nofun⟩
    cases hs
    exact ⟨threadInit_inv hne h, fun u hu => absurd hu freed_nil⟩
  | @step s steps trace op _ hop page ih =>
    obtain ⟨hinv, hfreed⟩ := ih.1 s rfl
    have hacc := accesses_accounts hinv op page
    constructor
    · intro s' hs'
      have hok : s.exec op = .ok s' := by
        cases he : s.exec op with
        | error e =>
          rw [he] at hs'
          cases hs'
        | ok s₁ =>
          rw [he] at hs'
          cases hs'
          rfl
      obtain ⟨hinv', hlisted⟩ := exec_listed hinv hop hok page
      refine ⟨hinv', fun u hu hl => ?_⟩
      obtain ⟨hold, hdies⟩ := hlisted u hl
      rcases hacc.freed hu with ⟨hf, hb⟩ | hd
      · rcases hold with hb' | hl'
        · exact hb hb'
        · exact hfreed u hf hl'
      · exact hdies hd
    · rw [hacc.neverStale_iff hfreed, ih.2, List.forall_mem_append, List.forall_mem_singleton]

end Dies

/-- **A dead PCB is touched exactly when one dies.** In every run of the kernel, no access touches
a page that has been freed and not allocated again, if and only if no transition frees the page of
a PCB: no wait finds a hanging thread to reap, and no thread but the main one calls
`thread_exit`. -/
theorem deadPcb_touched {init main idle : T} (hne : init ≠ main ∧ init ≠ idle ∧ main ≠ idle)
    {o : Option (Threads T S W)} {steps : List (Threads T S W × Op T S W)}
    {trace : List (Access T)} (hr : PcbRun init main idle o steps trace) :
    Access.NeverStale trace ↔ ∀ x ∈ steps, x.1.dies x.2 = none :=
  (hr.spec hne).2

/-! ## A child and its parent -/

/-- A run of the life cycle is one of these runs. -/
theorem Run.pcbRun {init main idle : T} {C : Threads T S W → Op T S W → Prop}
    {s : Threads T S W} {log : List (Event T)} (hdistinct : init ≠ main ∧ init ≠ idle ∧ main ≠ idle)
    (h : Run init main idle C s log) (page : T) :
    ∃ steps trace, PcbRun init main idle (some s) steps trace ∧ ∀ x ∈ steps, C x.1 x.2 := by
  induction h with
  | init h => exact ⟨[], [], .init h, nofun⟩
  | @step s s' log op hrun hop hC hok ih =>
    obtain ⟨steps, trace, hr, hall⟩ := ih
    have hcall : s.Callable op := by
      cases op with
      | threadExit =>
        intro hidle
        obtain ⟨place, hagrees, -⟩ := hrun.reachable.inv hdistinct
        have hmain : s.running = s.mainThread := hop
        exact hagrees.distinct (hmain.symm.trans hidle)
      | _ => exact hop
    have hnext := hr.step hcall page
    rw [hok] at hnext
    exact ⟨_, _, hnext, List.forall_mem_append.mpr ⟨hall, List.forall_mem_singleton.mpr hC⟩⟩

/-- A state of a run that can be evaluated. -/
theorem run_of_test {init main idle : T} {C : Threads T S W → Op T S W → Prop}
    [∀ s op, Decidable (C s op)] (value : S → UInt8) (ops : List (Op T S W))
    {test : Threads T S W → Bool}
    (h : returnsWith ((threadInit init main idle value : Except SchedFault (Threads T S W)).bind
      fun s => s.play C [] ops) (fun x => test x.1) = true) :
    ∃ s log, Run init main idle C s log ∧ test s = true := by
  obtain ⟨x, hx, htest⟩ := returnsWith_iff.mp h
  obtain ⟨s₀, hs₀, hplay⟩ := bind_eq_ok.mp hx
  exact ⟨x.1, x.2, play_run (.init hs₀) hplay, htest⟩

/-- `init` is switched to and forks. -/
theorem deadPcb_touched_fork :
    ∃ (s : Threads (Fin 4) Unit Unit) (steps : List (Threads (Fin 4) Unit Unit × Op (Fin 4) Unit Unit))
      (trace : List (Access (Fin 4))),
      PcbRun 0 1 2 (s.exec (.fork (.enough 3))).toOption (steps ++ [(s, .fork (.enough 3))])
        (trace ++ s.accesses (.fork (.enough 3)) 3) ∧
      Access.NeverStale (trace ++ s.accesses (.fork (.enough 3)) 3) := by
  have hne : (0 : Fin 4) ≠ 1 ∧ (0 : Fin 4) ≠ 2 ∧ (1 : Fin 4) ≠ 2 := by decide
  obtain ⟨s, log, hrun, htest⟩ : ∃ (s : Threads (Fin 4) Unit Unit) (log : _),
      Run 0 1 2 (fun s op => s.dies op = none) s log ∧
      decide (s.Enabled (.fork (.enough 3))) = true :=
    run_of_test (fun _ => 1) [.yield] (by decide +kernel)
  obtain ⟨steps, trace, hr, hall⟩ := hrun.pcbRun hne 3
  have hop : s.Enabled (.fork (.enough 3)) := of_decide_eq_true htest
  have hcall : s.Callable (.fork (.enough 3)) := hop
  have hnext := hr.step hcall 3
  refine ⟨s, steps, trace, hnext, (deadPcb_touched hne hnext).mpr ?_⟩
  exact List.forall_mem_append.mpr ⟨hall, List.forall_mem_singleton.mpr rfl⟩

/-- `init` forks, the child exits, and `init` waits for it: `thread_exit` reads the pid of the child
from the page that it has freed. -/
theorem deadPcb_touched_reap :
    ∃ (s : Threads (Fin 4) Unit Unit) (steps : List (Threads (Fin 4) Unit Unit × Op (Fin 4) Unit Unit))
      (trace : List (Access (Fin 4))),
      PcbRun 0 1 2 (s.exec (.wait 4)).toOption (steps ++ [(s, .wait 4)])
        (trace ++ s.accesses (.wait 4) 3) ∧
      ¬ Access.NeverStale (trace ++ s.accesses (.wait 4) 3) := by
  have hne : (0 : Fin 4) ≠ 1 ∧ (0 : Fin 4) ≠ 2 ∧ (1 : Fin 4) ≠ 2 := by decide
  obtain ⟨s, log, hrun, htest⟩ : ∃ (s : Threads (Fin 4) Unit Unit) (log : _),
      Run 0 1 2 (fun _ _ => True) s log ∧
      decide (s.Enabled (.wait 4) ∧ s.dies (.wait 4) = some 3) = true :=
    run_of_test (fun _ => 1) [.yield, .fork (.enough 3), .wait 4, .idle, .yield, .exit 7]
      (by decide +kernel)
  obtain ⟨hop, hdies⟩ := of_decide_eq_true htest
  obtain ⟨steps, trace, hr, -⟩ := hrun.pcbRun hne 3
  have hcall : s.Callable (.wait 4) := hop
  have hnext := hr.step hcall 3
  refine ⟨s, steps, trace, hnext, fun hn => ?_⟩
  have hall := (hnext.spec hne).2.mp hn (s, .wait 4)
    (List.mem_append_right _ (List.mem_singleton_self _))
  rw [hdies] at hall
  cases hall

end Threads

end GwOS
