import GwOS.Kernel.Bitmap
import GwOS.Thread.Sync

/-!
# Threads and processes (`thread/thread.c`)

The queues of the scheduler and the calls that move a thread between them: `schedule`
and its callers in `thread.c`, the timer, `semaphore_down` and `semaphore_up`, the two
waiting places of an `ioqueue`, and the life of a process (`userprog/fork.c`, `exit.c`,
`wait.c`).

A thread is the page that holds its `struct pcb`, and an intrusive list is the sequence
of the threads whose node it links. Every call runs with interrupts off and is one
transition, up to the point where it switches to another thread: what stands after
`schedule` in the caller is run when the thread is switched to again, and a loop around
`thread_block` (`semaphore_down`, `sys_wait`) then makes its next round.

The pages of a process (its directory, its address bitmap, its stacks) belong to the
memory model and are left out here.
-/

namespace GwOS

/-- `enum task_status`. -/
inductive TaskStatus where
  | running
  | ready
  | blocked
  | waiting
  | hanging
  | died
  deriving DecidableEq, Repr

/-- `enum intr_status`. -/
inductive IntrStatus where
  | off
  | on
  deriving DecidableEq, Repr

/-- `struct pcb`, as far as the scheduler and the life of a process depend on it. -/
structure Pcb where
  pid : Int
  status : TaskStatus
  name : String
  priority : UInt8
  ticks : UInt8
  elapsedTicks : UInt32
  /-- Whether `pg_dir` is not `NULL`, which makes the thread a user process. -/
  user : Bool
  parentPid : Int
  exitStatus : Int8
  deriving DecidableEq, Repr

/-- How a call of this file can fail to return: at an `ASSERT` of one of the three functions
that move threads, or elsewhere. -/
inductive SchedFault where
  | schedule
  | threadYield
  | threadUnblock
  | other (e : Fault)
  deriving DecidableEq, Repr

/-- The threads of the kernel. `S` are the semaphores and `W` the pointers `producer` and
`consumer` of the `ioqueue`s. -/
structure Threads (T S W : Type) where
  /-- The pages that hold a `struct pcb`. -/
  pcb : T → Option Pcb
  /-- The thread whose stack the processor is on (`running_thread`). -/
  running : T
  /-- The interrupt flag of the processor. -/
  intr : IntrStatus
  readyList : List T
  allList : List T
  mainThread : T
  idleThread : T
  sema : S → Semaphore T
  waiter : W → Option T
  pidBitmap : Bitmap

/-! ## Pids -/

/-- `pid_pool.pid_start`. -/
def pidStart : Int := 1

/-- `alloc_pid`: the pid and the bitmap that remains. The result `-1` of the search is used
as an index like any other. -/
def allocPid (mp : Bitmap) : Except Fault (Int × Bitmap) := do
  let idx ← bitmapApplyCnt mp 1
  let mp ← bitmapSetIdx mp (idx.getD (2 ^ 32 - 1)) 1
  .ok ((match idx with | some i => (i : Int) | none => -1) + pidStart, mp)

/-- `release_pid`. -/
def releasePid (mp : Bitmap) (pid : Int) : Except Fault Bitmap :=
  bitmapSetIdx mp ((pid - pidStart) % 2 ^ 32).toNat 0

namespace Threads

variable {T S W : Type} [DecidableEq T] [DecidableEq S] [DecidableEq W]

/-! ## Fields -/

def statusOf (s : Threads T S W) (t : T) : Option TaskStatus := (s.pcb t).map Pcb.status

/-- Writes fields of the `struct pcb` of `t`. -/
def modifyPcb (s : Threads T S W) (t : T) (f : Pcb → Pcb) : Threads T S W :=
  { s with pcb := Function.update s.pcb t ((s.pcb t).map f) }

def setStatus (s : Threads T S W) (t : T) (status : TaskStatus) : Threads T S W :=
  s.modifyPcb t fun p => { p with status }

def setSema (s : Threads T S W) (i : S) (sema : Semaphore T) : Threads T S W :=
  { s with sema := Function.update s.sema i sema }

def setWaiter (s : Threads T S W) (w : W) (t : Option T) : Threads T S W :=
  { s with waiter := Function.update s.waiter w t }

/-- `intr_set_status`; `intr_disable` is the case `off`. -/
def intrSetStatus (s : Threads T S W) (status : IntrStatus) : Threads T S W :=
  { s with intr := status }

/-- A call from outside of `thread.c`, whose faults are not the scheduler's. -/
def lift {α : Type} (x : Except Fault α) : Except SchedFault α := x.mapError .other

/-! ## `schedule` and its callers -/

/-- `thread_unblock`. -/
def threadUnblock (s : Threads T S W) (t : T) : Except SchedFault (Threads T S W) :=
  if s.statusOf t = some .blocked ∨ s.statusOf t = some .waiting ∨
      s.statusOf t = some .hanging then
    if s.statusOf t ≠ some .ready then
      if t ∈ s.readyList then .error .threadUnblock
      else .ok { s.setStatus t .ready with readyList := t :: s.readyList }
    else .ok s
  else .error .threadUnblock

/-- The first half of `schedule`: a thread whose time slice is used up goes to the end of
the queue. -/
def requeueNow (s : Threads T S W) : Except SchedFault (Threads T S W) :=
  if s.statusOf s.running = some .running then
    if s.running ∈ s.readyList then .error .schedule
    else .ok { s.modifyPcb s.running fun p => { p with ticks := p.priority, status := .ready } with
      readyList := s.readyList ++ [s.running] }
  else .ok s

/-- The middle of `schedule`: the idle thread is there when no other thread is. -/
def reviveIdle (s : Threads T S W) : Except SchedFault (Threads T S W) :=
  if s.readyList = [] then s.threadUnblock s.idleThread else .ok s

/-- The end of `schedule`: the switch to the first thread of the queue. -/
def dispatch (s : Threads T S W) : Except SchedFault (Threads T S W) :=
  match s.readyList with
  | [] => .error .schedule
  | next :: readyList => .ok { s.setStatus next .running with readyList, running := next }

/-- `schedule`. -/
def schedule (s : Threads T S W) : Except SchedFault (Threads T S W) :=
  if s.intr = .off then do
    let s ← s.requeueNow
    let s ← s.reviveIdle
    s.dispatch
  else .error .schedule

/-- `thread_yield`. -/
def threadYield (s : Threads T S W) : Except SchedFault (Threads T S W) :=
  let s := s.intrSetStatus .off
  if s.running ∈ s.readyList then .error .threadYield
  else schedule { s.setStatus s.running .ready with readyList := s.readyList ++ [s.running] }

/-- `thread_block`. -/
def threadBlock (s : Threads T S W) (status : TaskStatus) : Except SchedFault (Threads T S W) :=
  if status = .blocked ∨ status = .waiting ∨ status = .hanging then
    schedule ((s.intrSetStatus .off).setStatus s.running status)
  else .error (.other .assert)

/-- `intr_timer_handler`, entered with interrupts off. -/
def intrTimerHandler (s : Threads T S W) : Except SchedFault (Threads T S W) :=
  let s := (s.intrSetStatus .off).modifyPcb s.running fun p =>
    { p with elapsedTicks := p.elapsedTicks + 1 }
  match s.pcb s.running with
  | none => .error (.other .nullDeref)
  | some now =>
    if now.ticks = 0 then s.schedule
    else .ok ((s.modifyPcb s.running fun p => { p with ticks := p.ticks - 1 }).intrSetStatus .on)

/-- The loop body of `idle`. -/
def idle (s : Threads T S W) : Except SchedFault (Threads T S W) := s.threadBlock .blocked

/-! ## Semaphores and queues -/

/-- `semaphore_down`, up to the switch if it has to block. -/
def semaDown (s : Threads T S W) (i : S) : Except SchedFault (Threads T S W) := do
  let (sema, blocks) ← lift (semaphoreDown (s.sema i) s.running)
  if blocks then (s.setSema i sema).threadBlock .blocked else .ok (s.setSema i sema)

/-- `semaphore_up`. -/
def semaUp (s : Threads T S W) (i : S) : Except SchedFault (Threads T S W) :=
  let (sema, w) := semaphoreUp (s.sema i)
  match w with
  | none => .ok (s.setSema i sema)
  | some t => (s.setSema i sema).threadUnblock t

/-- `ioq_wait`. -/
def ioqWait (s : Threads T S W) (w : W) : Except SchedFault (Threads T S W) :=
  match s.waiter w with
  | some _ => .error (.other .assert)
  | none => (s.setWaiter w (some s.running)).threadBlock .blocked

/-- `wakeup`. -/
def wakeup (s : Threads T S W) (w : W) : Except SchedFault (Threads T S W) :=
  match s.waiter w with
  | none => .error (.other .assert)
  | some t => do
    let s ← s.threadUnblock t
    .ok (s.setWaiter w none)

/-! ## Creation -/

/-- `init_thread`; the page of the main thread is the running one. -/
def initThread (s : Threads T S W) (t : T) (name : String) (priority : UInt8) :
    Except SchedFault (Threads T S W) := do
  let (pid, pidBitmap) ← lift (allocPid s.pidBitmap)
  let pcb : Pcb :=
    { pid, name, priority
      status := if t = s.mainThread then .running else .ready
      ticks := priority
      elapsedTicks := 0
      user := false
      parentPid := -1
      exitStatus := 0 }
  .ok { s with pidBitmap, pcb := Function.update s.pcb t (some pcb) }

/-- The end of `thread_start`, `process_execute` and `sys_fork`: the new thread joins both
lists. -/
def enlist (s : Threads T S W) (t : T) : Except SchedFault (Threads T S W) :=
  if t ∈ s.readyList ∨ t ∈ s.allList then .error (.other .assert)
  else .ok { s with readyList := s.readyList ++ [t], allList := s.allList ++ [t] }

/-- `thread_start`, on the page `t`. -/
def threadStart (s : Threads T S W) (t : T) (name : String) (priority : UInt8) :
    Except SchedFault (Threads T S W) := do
  let s ← s.initThread t name priority
  s.enlist t

/-- `default_priority` of `process.h`. -/
def defaultPriority : UInt8 := 31

/-- `process_execute`, on the page `t`. -/
def processExecute (s : Threads T S W) (t : T) (name : String) :
    Except SchedFault (Threads T S W) := do
  let s ← s.initThread t name defaultPriority
  (s.modifyPcb t fun p => { p with user := true }).enlist t

/-- `make_main_thread`. -/
def makeMainThread (s : Threads T S W) : Except SchedFault (Threads T S W) := do
  let s ← s.initThread s.mainThread "main" 31
  if s.mainThread ∈ s.allList then .error (.other .assert)
  else .ok { s with allList := s.allList ++ [s.mainThread] }

/-- The kernel before the first thread, on the stack of the page `main`: the lists and the
pid pool are as `list_init` and `pid_pool_init` leave them. -/
def beforeThreads (main idle : T) (value : S → UInt8) : Threads T S W where
  pcb := fun _ => none
  running := main
  intr := .off
  readyList := []
  allList := []
  mainThread := main
  idleThread := idle
  sema := fun i => semaphoreInit (value i)
  waiter := fun _ => none
  pidBitmap := bitmapInit 128

/-- `thread_init`; `init` and `idle` are the pages that `get_kernel_pages` returns. -/
def threadInit (init main idle : T) (value : S → UInt8) : Except SchedFault (Threads T S W) := do
  let s ← (beforeThreads main idle value).processExecute init "init"
  let s ← s.makeMainThread
  s.threadStart idle "idle" 10

/-- Which allocation of `sys_fork` fails first; the page of the child when none does. -/
inductive ForkMem (T : Type) where
  | noPcb
  | noTranPage
  | noVaddrBitmap
  | noPageDir
  | enough (child : T)
  deriving DecidableEq

/-- `sys_fork`, with its result. A child that `copy_process` gives up on never becomes a
thread, but keeps the pid it has been given. -/
def sysFork (s : Threads T S W) (mem : ForkMem T) : Except SchedFault (Threads T S W × Int) :=
  let s := s.intrSetStatus .off
  match s.pcb s.running with
  | none => .error (.other .nullDeref)
  | some parent =>
    if mem = .noPcb then .ok (s, -1)
    else if parent.user = false then .error (.other .assert)
    else if mem = .noTranPage then .ok (s, -1)
    else do
      let (pid, pidBitmap) ← lift (allocPid s.pidBitmap)
      let s := { s with pidBitmap }
      let child : Pcb :=
        { parent with
          pid
          elapsedTicks := 0
          status := .ready
          ticks := parent.priority
          parentPid := parent.pid
          name := parent.name ++ "_fork" }
      match mem with
      | .enough t =>
        if parent.name.length < 11 then do
          let s ← enlist { s with pcb := Function.update s.pcb t (some child) } t
          .ok (s, pid)
        else .error (.other .assert)
      | .noPageDir => if parent.name.length < 11 then .ok (s, -1) else .error (.other .assert)
      | _ => .ok (s, -1)

/-! ## The end of a process -/

/-- `list_traversal(&thread_all_list, ...)` with a predicate on the thread. -/
def findThread (s : Threads T S W) (p : Pcb → Bool) : Option T :=
  s.allList.find? fun t => (s.pcb t).any p

/-- `pid2pcb`. -/
def pid2pcb (s : Threads T S W) (pid : Int) : Option T := s.findThread fun p => p.pid = pid

/-- `change_parent_to_init`, on every thread of the list. -/
def changeParentToInit (s : Threads T S W) (ppid : Int) : Threads T S W :=
  s.allList.foldl (fun s t => s.modifyPcb t fun p =>
    if p.parentPid = ppid then { p with parentPid := 1 } else p) s

/-- `thread_exit`. The pid is read from the page after it has been freed; nothing has
written to it since. -/
def threadExit (s : Threads T S W) (t : T) (needSchedule : Bool) :
    Except SchedFault (Threads T S W) :=
  match s.pcb t with
  | none => .error (.other .nullDeref)
  | some thread => do
    let s := (s.intrSetStatus .off).setStatus t .died
    let s := { s with readyList := s.readyList.erase t, allList := s.allList.erase t }
    let s := if t ≠ s.mainThread then { s with pcb := Function.update s.pcb t none } else s
    let pidBitmap ← lift (releasePid s.pidBitmap thread.pid)
    let s := { s with pidBitmap }
    if needSchedule then s.schedule else .ok s

/-- The end of `sys_exit`: wakes a parent that waits, and blocks for good. -/
def wakeParentAndHang (s : Threads T S W) : Except SchedFault (Threads T S W) :=
  match s.pcb s.running with
  | none => .error (.other .nullDeref)
  | some child =>
    match s.pid2pcb child.parentPid with
    | none => s.threadBlock .hanging
    | some parent => do
      let s ← if s.statusOf parent = some .waiting then s.threadUnblock parent else .ok s
      s.threadBlock .hanging

/-- `sys_exit`. -/
def sysExit (s : Threads T S W) (status : Int) : Except SchedFault (Threads T S W) :=
  let s := s.intrSetStatus .off
  match s.pcb s.running with
  | none => .error (.other .nullDeref)
  | some child =>
    if child.parentPid = -1 then .error (.other .assert)
    else
      let s := s.modifyPcb s.running fun p => { p with exitStatus := Int8.ofInt status }
      (s.changeParentToInit child.pid).wakeParentAndHang

/-- What one round of the loop of `sys_wait` comes to. -/
inductive WaitResult where
  /-- A child has been reaped: its pid and its exit status. -/
  | reaped (pid : Int) (exitStatus : Int8)
  /-- There is no child to wait for, `-1`. -/
  | noChild
  /-- The caller is blocked and makes another round when it is switched to. -/
  | blocked
  deriving DecidableEq

/-- One round of `sys_wait` and `sys_wait_without_pid`, for the threads that `mine` picks. -/
def waitRound (s : Threads T S W) (mine : Pcb → Bool) :
    Except SchedFault (Threads T S W × WaitResult) :=
  let s := s.intrSetStatus .off
  match s.findThread fun p => mine p && p.status = .hanging with
  | some child =>
    match s.pcb child with
    | none => .error (.other .nullDeref)
    | some p => do
      let s ← s.threadExit child false
      .ok (s, .reaped p.pid p.exitStatus)
  | none =>
    match s.findThread mine with
    | none => .ok (s, .noChild)
    | some _ => do
      let s ← s.threadBlock .waiting
      .ok (s, .blocked)

/-- `sys_wait`: `check_thread` and `check_hanging_thread` look at the pid only. -/
def sysWait (s : Threads T S W) (pid : Int) : Except SchedFault (Threads T S W × WaitResult) :=
  s.waitRound fun p => p.pid = pid

/-- `sys_wait_without_pid`: `check_child` and `check_hanging_child`. -/
def sysWaitWithoutPid (s : Threads T S W) : Except SchedFault (Threads T S W × WaitResult) :=
  match s.pcb s.running with
  | none => .error (.other .nullDeref)
  | some parent => s.waitRound fun p => p.parentPid = parent.pid

end Threads

end GwOS
