import GwOS.Thread.Schedule

/-!
# Every transition of the kernel keeps the queues

The transitions are the interrupts and the calls of the running thread (`Op`). For each of
them one lemma says that it ends in a state in which the fields agree (`Inv`), or stops at a
fault that is none of the scheduler's, and what it does to the process table.

- `exec_fine`: every transition ends in a good state.
- `threads_queues`: the queues and the statuses agree in every reachable state.
-/

namespace GwOS

namespace Threads

variable {T S W : Type} [DecidableEq T] [DecidableEq S] [DecidableEq W]
variable {s s' : Threads T S W} {place : T → Place S W} {t : T}

/-! ## The transitions -/

/-- What can happen next: an interrupt, or a call of the running thread. -/
inductive Op (T S W : Type) where
  | tick
  | up (i : S)
  | wakeup (w : W)
  | intr (status : IntrStatus)
  | idle
  | yield
  | semaInit (i : S) (value : UInt8)
  | down (i : S)
  | ioqWait (w : W)
  | start (t : T) (name : String) (priority : UInt8)
  | fork (mem : ForkMem T)
  | exit (status : Int)
  | wait (pid : Int)
  | waitWithoutPid
  | threadExit

/-- When it can happen. Interrupt handlers, which may run on any stack, call `semaphore_up`
and `wakeup` only; the idle thread does nothing but block; the main thread ends with
`thread_exit`; and a new thread is put on a page that holds none. -/
def Enabled (s : Threads T S W) : Op T S W → Prop
  | .tick => s.intr = .on
  | .up _ | .wakeup _ | .intr _ => True
  | .idle => s.running = s.idleThread
  | .start t _ _ | .fork (.enough t) => s.running ≠ s.idleThread ∧ s.pcb t = none
  | .yield | .semaInit _ _ | .down _ | .ioqWait _ | .fork _ | .exit _ | .wait _
  | .waitWithoutPid => s.running ≠ s.idleThread
  | .threadExit => s.running = s.mainThread

/-- The transition. -/
def exec (s : Threads T S W) : Op T S W → Except SchedFault (Threads T S W)
  | .tick => s.intrTimerHandler
  | .up i => s.semaUp i
  | .wakeup w => s.wakeup w
  | .intr status => .ok (s.intrSetStatus status)
  | .idle => s.idle
  | .yield => s.threadYield
  | .semaInit i value => .ok (s.setSema i (semaphoreInit value))
  | .down i => s.semaDown i
  | .ioqWait w => s.ioqWait w
  | .start t name priority => s.threadStart t name priority
  | .fork mem => (s.sysFork mem).map Prod.fst
  | .exit status => s.sysExit status
  | .wait pid => (s.sysWait pid).map Prod.fst
  | .waitWithoutPid => s.sysWaitWithoutPid.map Prod.fst
  | .threadExit => s.threadExit s.running true

def Step (s s' : Threads T S W) : Prop := ∃ op, s.Enabled op ∧ s.exec op = .ok s'

/-- The states that the kernel can be in after `thread_init`, between two transitions. -/
def Reachable (init main idle : T) (s : Threads T S W) : Prop :=
  ∃ value s₀, threadInit init main idle value = .ok s₀ ∧ Relation.ReflTransGen Step s₀ s

/-! ## Outcomes -/

/-- The transition ends in a good state, of which `Q` holds, or stops at a fault outside of
the scheduler. -/
inductive Fine (Q : Threads T S W → Prop) : Except SchedFault (Threads T S W) → Prop
  | ok {s' : Threads T S W} (h : s'.Inv) (hQ : Q s') : Fine Q (.ok s')
  | error (f : Fault) : Fine Q (.error (.other f))

/-- The transition does not change the process table. -/
def Keeps (s : Threads T S W) (r : Except SchedFault (Threads T S W)) : Prop :=
  Fine (fun s' => s'.table = s.table) r

omit [DecidableEq T] [DecidableEq S] [DecidableEq W] in
theorem Fine.mono {Q R : Threads T S W → Prop} {r : Except SchedFault (Threads T S W)}
    (h : Fine Q r) (hQR : ∀ s', Q s' → R s') : Fine R r := by
  cases h with
  | ok h hQ => exact .ok h (hQR _ hQ)
  | error f => exact .error f

omit [DecidableEq S] [DecidableEq W] in
theorem schedule_keeps (h : s.Agrees place) (hoff : s.intr = .off) : Keeps s s.schedule := by
  obtain ⟨s', hok, hinv, htable⟩ := schedule_inv h hoff
  rw [hok]
  exact .ok hinv htable

omit [DecidableEq S] [DecidableEq W] in
theorem threadBlock_fine {status : TaskStatus}
    (hstatus : status = .blocked ∨ status = .waiting ∨ status = .hanging)
    (h : ((s.intrSetStatus .off).setStatus s.running status).Agrees place) :
    Fine (fun s' => s'.table = (s.setStatus s.running status).table) (s.threadBlock status) := by
  rw [threadBlock, if_pos hstatus]
  exact schedule_keeps h rfl

omit [DecidableEq S] [DecidableEq W] in
/-- A thread that blocks, but not for good, keeps the table. -/
theorem threadBlock_keeps (hrun : s.statusOf s.running = some .running) {status : TaskStatus}
    (hstatus : status = .blocked ∨ status = .waiting)
    (h : ((s.intrSetStatus .off).setStatus s.running status).Agrees place) :
    Keeps s (s.threadBlock status) := by
  refine (threadBlock_fine (hstatus.imp_right .inl) h).mono fun s' hs' => hs'.trans ?_
  rcases hstatus with rfl | rfl
  · exact table_setStatus hrun ⟨nofun, nofun⟩ ⟨nofun, nofun⟩
  · exact table_setStatus hrun ⟨nofun, nofun⟩ ⟨nofun, nofun⟩

omit [DecidableEq T] [DecidableEq S] [DecidableEq W] in
theorem Agrees.status_running (h : s.Agrees place) (hrun : place s.running = .running) :
    s.statusOf s.running = some .running := by
  rw [h.status, hrun]
  rfl

/-! ## Calls that keep the process table -/

omit [DecidableEq T] [DecidableEq S] [DecidableEq W] in
theorem fine_lift {α : Type} {Q : Threads T S W → Prop} {x : Except Fault α}
    {g : α → Except SchedFault (Threads T S W)} (h : ∀ a, x = .ok a → Fine Q (g a)) :
    Fine Q (lift x >>= g) := by
  cases x with
  | error e => exact .error e
  | ok a => exact h a rfl

omit [DecidableEq S] [DecidableEq W] in
theorem intrTimerHandler_keeps (h : s.Inv) : Keeps s s.intrTimerHandler := by
  obtain ⟨place, hagrees, hrun⟩ := h
  have htick : ((s.intrSetStatus .off).modifyPcb s.running fun p =>
      { p with elapsedTicks := p.elapsedTicks + 1 }).Agrees place :=
    hagrees.congr (statusOf_modifyPcb_same fun p => rfl) (fun _ => rfl) rfl rfl rfl rfl rfl
  have htable : ((s.intrSetStatus .off).modifyPcb s.running fun p =>
      { p with elapsedTicks := p.elapsedTicks + 1 }).table = s.table :=
    table_modifyPcb fun p _ => rfl
  rw [intrTimerHandler]
  split
  · exact .error _
  · split
    · exact (schedule_keeps htick rfl).mono fun s' hs' => hs'.trans htable
    · refine .ok ⟨place, ?_, hrun⟩ ?_
      · exact htick.congr (statusOf_modifyPcb_same fun p => rfl) (fun _ => rfl) rfl rfl rfl rfl rfl
      · refine Eq.trans ?_ htable
        exact table_modifyPcb fun p _ => rfl

omit [DecidableEq S] [DecidableEq W] in
theorem idle_keeps (h : s.Inv) : Keeps s s.idle := by
  obtain ⟨place, hagrees, hrun⟩ := h
  exact threadBlock_keeps (hagrees.status_running hrun) (.inl rfl)
    ((hagrees.intr .off).block hrun (.inl rfl) rfl fun _ => rfl)

omit [DecidableEq S] [DecidableEq W] in
theorem threadYield_keeps (h : s.Inv) : Keeps s s.threadYield := by
  obtain ⟨place, hagrees, hrun⟩ := h
  have hnot : s.running ∉ s.readyList := by
    intro hm
    rw [(hagrees.mem_queue .ready s.running).mp hm] at hrun
    cases hrun
  have hready := (hagrees.intr .off).toReady (t := s.running) (.inl hrun)
    (f := fun p => { p with status := .ready }) (fun p => rfl) (List.perm_append_singleton _ _)
  have hfine := schedule_keeps hready rfl
  have hyield : s.threadYield = schedule { (s.intrSetStatus .off).setStatus s.running .ready with
      readyList := s.readyList ++ [s.running] } := by
    rw [threadYield]
    exact if_neg hnot
  rw [hyield]
  refine hfine.mono fun s' hs' => hs'.trans ?_
  exact table_setStatus (hagrees.status_running hrun) ⟨nofun, nofun⟩ ⟨nofun, nofun⟩

omit [DecidableEq W] in
theorem semaDown_keeps (h : s.Inv) (hidle : s.running ≠ s.idleThread) (i : S) :
    Keeps s (s.semaDown i) := by
  obtain ⟨place, hagrees, hrun⟩ := h
  refine fine_lift fun ⟨sema, blocks⟩ hok => ?_
  rw [semaphoreDown] at hok
  split at hok
  · split at hok
    · cases hok
    · -- the thread joins the waiters and blocks
      cases hok
      exact threadBlock_keeps (s := s.setSema i { s.sema i with
        waiters := (s.sema i).waiters ++ [s.running] }) (hagrees.status_running hrun) (.inl rfl)
        ((hagrees.intr .off).joinSema hrun hidle rfl)
  · simp only at hok
    split at hok
    · cases hok
      refine .ok ⟨place, hagrees.congr (fun _ => rfl) ?_ rfl rfl rfl rfl rfl, hrun⟩ rfl
      rintro (_ | j)
      · rfl
      · simp only [queue, setSema, Function.update_apply]
        split
        · next hj => rw [hj]
        · rfl
    · cases hok

omit [DecidableEq W] in
theorem semaUp_keeps (h : s.Inv) (i : S) : Keeps s (s.semaUp i) := by
  obtain ⟨place, hagrees, hrun⟩ := h
  rw [semaUp, semaphoreUp]
  cases hw : (s.sema i).waiters with
  | nil =>
    refine .ok ⟨place, hagrees.congr (fun _ => rfl) ?_ rfl rfl rfl rfl rfl, hrun⟩ rfl
    rintro (_ | j)
    · rfl
    · simp only [queue, setSema, Function.update_apply]
      split
      · next hj => rw [hj, hw]
      · rfl
  | cons t l =>
    have hpop := hagrees.popSema hw ((s.sema i).value + 1)
    obtain ⟨hok, hready, htable⟩ := threadUnblock_agrees (t := t) hpop (.inl (Function.update_self ..))
    simp only [hok]
    refine .ok ⟨_, hready, ?_⟩ htable
    have hne : s.running ≠ t := by
      intro he
      have hm : t ∈ s.queue (.sema i) := by
        rw [queue, hw]
        exact List.mem_cons_self
      rw [he, (hagrees.mem_queue (.sema i) t).mp hm] at hrun
      cases hrun
    show Function.update (Function.update place t .parked) t (.queued .ready) s.running = .running
    rw [Function.update_of_ne hne, Function.update_of_ne hne, hrun]

omit [DecidableEq S] in
theorem ioqWait_keeps (h : s.Inv) (hidle : s.running ≠ s.idleThread) (w : W) :
    Keeps s (s.ioqWait w) := by
  obtain ⟨place, hagrees, hrun⟩ := h
  rw [ioqWait]
  split
  · exact .error _
  · next hw =>
    exact threadBlock_keeps (s := s.setWaiter w (some s.running)) (hagrees.status_running hrun)
      (.inl rfl) ((hagrees.intr .off).joinSlot hrun hidle hw)

omit [DecidableEq S] in
/-- `wakeup` may as well clear the slot before it unblocks the thread. -/
theorem wakeup_keeps (h : s.Inv) (w : W) : Keeps s (s.wakeup w) := by
  obtain ⟨place, hagrees, hrun⟩ := h
  rw [wakeup]
  split
  · exact .error _
  · next t hw =>
    have ht := (hagrees.waiter w t).mp hw
    have hok := threadUnblock_ok (s := s) (t := t) (by
      intro hm
      rw [(hagrees.mem_queue .ready t).mp hm] at ht
      cases ht) (.inl (by rw [hagrees.status, ht]; rfl))
    obtain ⟨-, hready, htable⟩ := threadUnblock_agrees (t := t) (hagrees.clearSlot hw)
      (.inl (Function.update_self ..))
    have hne : s.running ≠ t := by
      intro he
      rw [he, ht] at hrun
      cases hrun
    rw [hok]
    refine .ok ⟨_, hready, ?_⟩ htable
    show Function.update (Function.update place t .parked) t (.queued .ready) s.running = .running
    rw [Function.update_of_ne hne, Function.update_of_ne hne, hrun]

omit [DecidableEq T] [DecidableEq W] in
theorem semaInit_keeps (h : s.Inv) (i : S) (value : UInt8) :
    Keeps s (.ok (s.setSema i (semaphoreInit value))) := by
  obtain ⟨place, hagrees, hrun⟩ := h
  obtain ⟨place', hagrees', hrun'⟩ := hagrees.semaInit i value
  exact .ok ⟨place', hagrees', hrun' _ hrun⟩ rfl

/-! ## Calls that change the process table -/

/-- The new thread `t`. -/
def ProcTable.spawn (a : ProcTable T) (t : T) (p : Proc) (mp : Bitmap) : ProcTable T :=
  ⟨Function.update a.proc t (some p), mp⟩

/-- The thread `t` is gone. -/
def ProcTable.remove (a : ProcTable T) (t : T) (mp : Bitmap) : ProcTable T :=
  ⟨Function.update a.proc t none, mp⟩

/-- The children of `pid` become children of `init`. -/
def Proc.adopt (pid : Int) (p : Proc) : Proc :=
  if p.parentPid = pid then { p with parentPid := 1 } else p

/-- The thread `t`, whose pid is `pid`, hangs, and its children become children of `init`. -/
def ProcTable.exit (a : ProcTable T) (t : T) (pid : Int) (status : Int) : ProcTable T :=
  ⟨fun u => (a.proc u).map fun p =>
    if u = t then { p.adopt pid with exitStatus := Int8.ofInt status, hanging := true }
    else p.adopt pid, a.pids⟩

omit [DecidableEq T] [DecidableEq S] [DecidableEq W] in
theorem Inv.intr (h : s.Inv) (status : IntrStatus) : (s.intrSetStatus status).Inv := by
  obtain ⟨place, hagrees, hrun⟩ := h
  exact ⟨place, hagrees.intr status, hrun⟩

omit [DecidableEq S] [DecidableEq W] in
/-- A thread on a page that holds none is taken into both lists. -/
theorem enlist_inv (h : s.Inv) (ht : s.pcb t = none) {p : Pcb} (hp : p.status = .ready) (mp : Bitmap) :
    ∃ s', enlist { s with pidBitmap := mp, pcb := Function.update s.pcb t (some p) } t = .ok s' ∧
      s'.Inv ∧ s'.table = s.table.spawn t ⟨p.pid, p.parentPid, p.exitStatus, p.user, false⟩ mp := by
  obtain ⟨place, hagrees, hrun⟩ := h
  have hplace : place t = .absent := by
    rw [← Place.status_none, ← hagrees.status, statusOf, ht]
    rfl
  have hnot : ¬ (t ∈ s.readyList ∨ t ∈ s.allList) := by
    rintro (hm | hm)
    · rw [(hagrees.mem_queue .ready t).mp hm] at hplace
      cases hplace
    · exact ((hagrees.mem_all t).mp hm).1 hplace
  have hne : s.running ≠ t := by
    intro he
    rw [he, hplace] at hrun
    cases hrun
  refine ⟨_, if_neg hnot, ⟨_, hagrees.born ht hp mp, ?_⟩, ?_⟩
  · show Function.update place t (.queued .ready) s.running = .running
    rw [Function.update_of_ne hne, hrun]
  · refine congrArg (ProcTable.mk · mp) (funext fun u => ?_)
    by_cases hu : u = t
    · simp [hu, procOf, hp]
    · simp [hu, table]

omit [DecidableEq T] [DecidableEq S] [DecidableEq W] in
theorem Inv.ne_main (h : s.Inv) (ht : s.pcb t = none) : t ≠ s.mainThread := by
  rintro rfl
  obtain ⟨place, hagrees, -⟩ := h
  refine hagrees.main (Place.status_none.mp ?_)
  rw [← hagrees.status, statusOf, ht]
  rfl

omit [DecidableEq S] [DecidableEq W] in
theorem threadStart_fine (h : s.Inv) (ht : s.pcb t = none) (name : String) (priority : UInt8) :
    Fine (fun s' => ∃ pid mp, allocPid s.pidBitmap = .ok (pid, mp) ∧
      s'.table = s.table.spawn t ⟨pid, -1, 0, false, false⟩ mp) (s.threadStart t name priority) := by
  have hmain := h.ne_main ht
  rw [threadStart, initThread, bind_assoc]
  generalize allocPid s.pidBitmap = x
  refine fine_lift fun a ha => ?_
  obtain ⟨pid, mp⟩ := a
  obtain ⟨s', hok, hinv, htable⟩ := enlist_inv h ht (p := ⟨pid,
    if t = s.mainThread then .running else .ready, name, priority, priority, 0, false, -1, 0⟩)
    (if_neg hmain) mp
  show Fine _ (enlist _ t)
  rw [hok]
  exact .ok hinv ⟨pid, mp, ha, htable⟩

omit [DecidableEq T] [DecidableEq S] [DecidableEq W] in
theorem fine_map_lift {α β : Type} {Q : Threads T S W → Prop} {x : Except Fault α}
    {g : α → Except SchedFault (Threads T S W × β)}
    (h : ∀ a, x = .ok a → Fine Q ((g a).map Prod.fst)) : Fine Q ((lift x >>= g).map Prod.fst) := by
  cases x with
  | error e => exact .error e
  | ok a => exact h a rfl

/-- What `sys_fork` does to the table: nothing, a pid is lost, or there is a new child. -/
def Forked (s : Threads T S W) (mem : ForkMem T) (s' : Threads T S W) : Prop :=
  s'.table = s.table ∨ ∃ parent pid mp, s.pcb s.running = some parent ∧ parent.user = true ∧
    allocPid s.pidBitmap = .ok (pid, mp) ∧ (s'.table = ⟨s.table.proc, mp⟩ ∨
      ∃ t, mem = .enough t ∧
        s'.table = s.table.spawn t ⟨pid, parent.pid, parent.exitStatus, true, false⟩ mp)

omit [DecidableEq S] [DecidableEq W] in
theorem sysFork_fine (h : s.Inv) {mem : ForkMem T} (hmem : ∀ t, mem = .enough t → s.pcb t = none) :
    Fine (s.Forked mem) ((s.sysFork mem).map Prod.fst) := by
  have hoff := h.intr .off
  rw [sysFork]
  split
  · exact .error _
  · next parent hparent =>
    split
    · exact .ok hoff (.inl rfl)
    · split
      · exact .error _
      · next huser =>
        split
        · exact .ok hoff (.inl rfl)
        · have hforked : ∀ {s' pid mp}, allocPid s.pidBitmap = .ok (pid, mp) →
              (s'.table = ⟨s.table.proc, mp⟩ ∨ ∃ t, mem = .enough t ∧ s'.table =
                s.table.spawn t ⟨pid, parent.pid, parent.exitStatus, true, false⟩ mp) →
              s.Forked mem s' := fun ha ht =>
            .inr ⟨parent, _, _, hparent, by simpa using huser, ha, ht⟩
          have halloc : allocPid (s.intrSetStatus .off).pidBitmap = allocPid s.pidBitmap := rfl
          rw [halloc]
          generalize allocPid s.pidBitmap = x at hforked ⊢
          refine fine_map_lift fun a ha => ?_
          obtain ⟨pid, mp⟩ := a
          have hkeep : { s.intrSetStatus .off with pidBitmap := mp : Threads T S W }.Inv := by
            obtain ⟨place, hagrees, hrun⟩ := hoff
            exact ⟨place, hagrees.congr (fun _ => rfl) (fun _ => rfl) rfl rfl rfl rfl rfl, hrun⟩
          have hlost : s.Forked mem { s.intrSetStatus .off with pidBitmap := mp } :=
            hforked ha (.inl rfl)
          cases mem with
          | enough t =>
            simp only
            split
            · obtain ⟨s', hok, hinv, htable⟩ := enlist_inv hoff (hmem t rfl) (p := { parent with
                pid
                elapsedTicks := 0
                status := .ready
                ticks := parent.priority
                parentPid := parent.pid
                name := parent.name ++ "_fork" }) rfl mp
              rw [hok]
              refine .ok hinv (hforked ha (.inr ⟨t, rfl, htable.trans ?_⟩))
              simp only [show parent.user = true by simpa using huser]
              rfl
            · exact .error _
          | noPageDir =>
            simp only
            split
            · exact .ok hkeep hlost
            · exact .error _
          | noPcb => exact .ok hkeep hlost
          | noTranPage => exact .ok hkeep hlost
          | noVaddrBitmap => exact .ok hkeep hlost

omit [DecidableEq S] [DecidableEq W] in
/-- `thread_exit` of a thread that is in no list, up to the call of `schedule`. -/
theorem threadExit_cases (h : s.Agrees place) (ht : (place t).Loose) (hidle : t ≠ s.idleThread)
    (needSchedule : Bool) :
    (∃ f, s.threadExit t needSchedule = .error (.other f)) ∨
      ∃ s' p thread mp, s'.Agrees (Function.update place t p) ∧ s'.running = s.running ∧
        s'.intr = .off ∧ s.pcb t = some thread ∧ releasePid s.pidBitmap thread.pid = .ok mp ∧
        s'.table = s.table.remove t mp ∧
        s.threadExit t needSchedule = if needSchedule then s'.schedule else .ok s' := by
  obtain ⟨thread, hthread⟩ : ∃ p, s.pcb t = some p := by
    cases hp : s.pcb t with
    | none => exact absurd (by rw [statusOf, hp]; rfl) (h.status_ne_none ht.alive)
    | some p => exact ⟨p, rfl⟩
  cases hpid : releasePid s.pidBitmap thread.pid with
  | error e =>
    refine .inl ⟨e, ?_⟩
    simp only [threadExit, hthread]
    split <;> simp only [intrSetStatus, setStatus, modifyPcb, hpid] <;> rfl
  | ok mp =>
    by_cases hmain : t = s.mainThread
    · -- the page of the main thread is not freed
      refine .inr ⟨_, .dead, thread, mp, h.die ht hidle (.inr rfl)
        (f := Function.update s.pcb t (some { thread with status := .died }))
        (by simp [Place.status]) (fun u hu => Function.update_of_ne hu _ _) mp .off, rfl, rfl, hthread,
        hpid, ?_, ?_⟩
      · refine congrArg (ProcTable.mk · mp) (funext fun u => ?_)
        by_cases hu : u = t <;> simp [hu, procOf, table]
      · simp only [threadExit, hthread, intrSetStatus, setStatus, modifyPcb, Option.map_some]
        rw [if_neg (not_not.mpr hmain)]
        simp only [hpid]
        rfl
    · refine .inr ⟨_, .absent, thread, mp, h.die ht hidle (.inl ⟨rfl, hmain⟩)
        (f := Function.update s.pcb t none) (by simp [Place.status])
        (fun u hu => Function.update_of_ne hu _ _) mp .off, rfl, rfl, hthread, hpid, ?_, ?_⟩
      · refine congrArg (ProcTable.mk · mp) (funext fun u => ?_)
        by_cases hu : u = t <;> simp [hu, table]
      · simp only [threadExit, hthread, intrSetStatus, setStatus, modifyPcb, Option.map_some]
        rw [if_pos hmain]
        simp only [hpid, Function.update_idem]
        rfl

omit [DecidableEq T] [DecidableEq S] [DecidableEq W] in
/-- A thread found in the list of all threads satisfies the predicate. -/
theorem findThread_some {p : Pcb → Bool} (h : s.findThread p = some t) :
    ∃ pcb, s.pcb t = some pcb ∧ p pcb = true := by
  have hany := List.find?_some h
  cases hp : s.pcb t with
  | none => simp [hp] at hany
  | some pcb => exact ⟨pcb, rfl, by simpa [hp] using hany⟩

/-- What a round of `sys_wait` does to the table: nothing, or a hanging thread is reaped. -/
def Reaped (s : Threads T S W) (mine : Pcb → Bool) (s' : Threads T S W) : WaitResult → Prop
  | .reaped pid exitStatus => ∃ child p mp, s.pcb child = some p ∧ p.status = .hanging ∧
      mine p = true ∧ p.pid = pid ∧ p.exitStatus = exitStatus ∧
      releasePid s.pidBitmap pid = .ok mp ∧ s'.table = s.table.remove child mp
  | .noChild => s'.table = s.table
  | .blocked => s'.table = s.table

omit [DecidableEq T] [DecidableEq S] [DecidableEq W] in
/-- A hanging thread that is found in the list of all threads. -/
theorem Agrees.hanging (h : s.Agrees place) {mine : Pcb → Bool}
    (hfind : s.findThread (fun p => mine p && p.status = .hanging) = some t) :
    ∃ pcb, s.pcb t = some pcb ∧ mine pcb = true ∧ pcb.status = .hanging ∧ place t = .hanging ∧
      t ≠ s.idleThread := by
  obtain ⟨pcb, hpcb, hp⟩ := findThread_some hfind
  have hstatus : pcb.status = .hanging := of_decide_eq_true (Bool.and_eq_true_iff.mp hp).2
  have hplace : place t = .hanging := by
    rw [← Place.status_hanging, ← h.status, statusOf, hpcb, ← hstatus]
    rfl
  refine ⟨pcb, hpcb, (Bool.and_eq_true_iff.mp hp).1, hstatus, hplace, ?_⟩
  rintro rfl
  rcases h.idle with hi | hi | hi <;> rw [hplace] at hi <;> cases hi

omit [DecidableEq S] [DecidableEq W] in
theorem waitRound_cases (h : s.Inv) (hidle : s.running ≠ s.idleThread) (mine : Pcb → Bool) :
    (∃ f, s.waitRound mine = .error (.other f)) ∨
      ∃ s' r, s.waitRound mine = .ok (s', r) ∧ s'.Inv ∧ s.Reaped mine s' r := by
  obtain ⟨place, hagrees, hrun⟩ := h
  rw [waitRound]
  split
  · next child hfind =>
    obtain ⟨pcb, hpcb, hmine, hstatus, hplace, hidle'⟩ := (hagrees.intr .off).hanging hfind
    have hpcb' : s.pcb child = some pcb := hpcb
    have hne : s.running ≠ child := by
      intro he
      rw [he, hplace] at hrun
      cases hrun
    simp only [hpcb]
    obtain ⟨f, hf⟩ | ⟨s', p, thread, mp, hs', hr, -, hthread, hpid, htable, hok⟩ :=
      threadExit_cases (hagrees.intr .off) (.inr (.inr (.inr hplace))) hidle' false
    · rw [hf]
      exact .inl ⟨f, rfl⟩
    · obtain rfl : pcb = thread := Option.some.inj (hpcb.symm.trans hthread)
      rw [hok]
      refine .inr ⟨s', _, rfl, ⟨_, hs', ?_⟩, child, pcb, mp, hpcb', hstatus, hmine, rfl, rfl, hpid,
        htable⟩
      rw [hr]
      exact (Function.update_of_ne hne _ _).trans hrun
  · split
    · exact .inr ⟨_, _, rfl, ⟨place, hagrees.intr .off, hrun⟩, rfl⟩
    · have hblock := threadBlock_keeps (s := s.intrSetStatus .off) (hagrees.status_running hrun)
        (.inr rfl) (((hagrees.intr .off).intr .off).block hrun (.inr (.inl rfl)) rfl
          fun hi => absurd hi hidle)
      generalize (s.intrSetStatus .off).threadBlock .waiting = r at hblock ⊢
      cases hblock with
      | ok hinv htable => exact .inr ⟨_, _, rfl, hinv, htable⟩
      | error f => exact .inl ⟨f, rfl⟩

omit [DecidableEq S] [DecidableEq W] in
/-- `change_parent_to_init` on a list of threads. -/
theorem changeParent_pcb (ppid : Int) (l : List T) (u : T) :
    (l.foldl (fun s t => s.modifyPcb t fun p =>
      if p.parentPid = ppid then { p with parentPid := 1 } else p) s).pcb u =
      if u ∈ l then (s.pcb u).map fun p =>
        if p.parentPid = ppid then { p with parentPid := 1 } else p
      else s.pcb u := by
  induction l generalizing s with
  | nil => rfl
  | cons t l ih =>
    rw [List.foldl_cons, ih]
    by_cases hut : u = t
    · subst hut
      -- the change is made once or twice, which is the same
      have htwice : ∀ p : Pcb, (if (if p.parentPid = ppid then { p with parentPid := 1 } else p).parentPid
          = ppid then { (if p.parentPid = ppid then { p with parentPid := 1 } else p) with
            parentPid := 1 } else (if p.parentPid = ppid then { p with parentPid := 1 } else p)) =
          if p.parentPid = ppid then { p with parentPid := 1 } else p := by
        intro p
        by_cases hp : p.parentPid = ppid
        · simp [hp]
        · simp [hp]
      have hself : (s.modifyPcb u fun p => if p.parentPid = ppid then { p with parentPid := 1 }
          else p).pcb u = (s.pcb u).map fun p =>
            if p.parentPid = ppid then { p with parentPid := 1 } else p := Function.update_self ..
      rw [hself, if_pos List.mem_cons_self]
      by_cases hl : u ∈ l
      · rw [if_pos hl, Option.map_map]
        exact congrArg (fun f => Option.map f (s.pcb u)) (funext htwice)
      · rw [if_neg hl]
    · have hother : (s.modifyPcb t fun p => if p.parentPid = ppid then { p with parentPid := 1 }
          else p).pcb u = s.pcb u := Function.update_of_ne hut ..
      rw [hother]
      simp only [List.mem_cons, hut, false_or]

omit [DecidableEq T] [DecidableEq S] [DecidableEq W] in
/-- The table holds the threads of the list of all threads. -/
theorem Agrees.mem_table (h : s.Agrees place) : t ∈ s.allList ↔ s.table.proc t ≠ none := by
  rw [h.mem_all, Place.alive_iff, ← h.status]
  simp only [statusOf, table]
  cases s.pcb t with
  | none => simp
  | some p => by_cases hp : p.status = .died <;> simp [hp, procOf]

omit [DecidableEq S] [DecidableEq W] in
theorem changeParentToInit_agrees (h : s.Agrees place) (ppid : Int) :
    (s.changeParentToInit ppid).Agrees place ∧ (s.changeParentToInit ppid).running = s.running ∧
      (s.changeParentToInit ppid).idleThread = s.idleThread := by
  rw [changeParentToInit]
  generalize s.allList = l
  induction l generalizing s with
  | nil => exact ⟨h, rfl, rfl⟩
  | cons u l ih =>
    refine ih (h.congr (statusOf_modifyPcb_same fun p => ?_) (fun _ => rfl) rfl rfl rfl rfl rfl)
    split <;> rfl

omit [DecidableEq S] [DecidableEq W] in
theorem changeParentToInit_pids (ppid : Int) :
    (s.changeParentToInit ppid).pidBitmap = s.pidBitmap := by
  rw [changeParentToInit]
  generalize s.allList = l
  induction l generalizing s with
  | nil => rfl
  | cons u l ih => exact ih

omit [DecidableEq S] [DecidableEq W] in
theorem changeParentToInit_table (h : s.Agrees place) (ppid : Int) :
    (s.changeParentToInit ppid).table =
      ⟨fun u => (s.table.proc u).map (Proc.adopt ppid), s.pidBitmap⟩ := by
  refine congrArg₂ ProcTable.mk (funext fun u => ?_) (changeParentToInit_pids ppid)
  rw [changeParentToInit, changeParent_pcb]
  by_cases hu : u ∈ s.allList
  · rw [if_pos hu]
    simp only [table]
    cases s.pcb u with
    | none => rfl
    | some p =>
      by_cases hp : p.parentPid = ppid
      · by_cases hd : p.status = .died <;> simp [hp, hd, procOf, Proc.adopt]
      · by_cases hd : p.status = .died <;> simp [hp, hd, procOf, Proc.adopt]
  · have hnone : s.table.proc u = none := by
      by_contra hne
      exact hu (h.mem_table.mpr hne)
    rw [if_neg hu, hnone]
    exact hnone

omit [DecidableEq S] [DecidableEq W] in
theorem wakeParentAndHang_fine (h : s.Agrees place) (hrun : place s.running = .running)
    (hidle : s.running ≠ s.idleThread) :
    Fine (fun s' => s'.table = (s.setStatus s.running .hanging).table) s.wakeParentAndHang := by
  -- whatever happens to the parent, the child still runs when it blocks
  have hblock : ∀ {s' : Threads T S W} {place' : T → Place S W}, s'.Agrees place' →
      place' s'.running = .running → s'.running ≠ s'.idleThread →
      Fine (fun s'' => s''.table = (s'.setStatus s'.running .hanging).table)
        (s'.threadBlock .hanging) :=
    fun h' hr hi => threadBlock_fine (.inr (.inr rfl))
      ((h'.intr .off).block hr (.inr (.inr rfl)) rfl fun he => absurd he hi)
  rw [wakeParentAndHang]
  split
  · exact .error _
  · split
    · exact hblock h hrun hidle
    · next parent _ =>
      by_cases hwait : s.statusOf parent = some .waiting
      · have hplace : place parent = .waiting := by
          rw [h.status] at hwait
          exact Place.status_waiting.mp hwait
        obtain ⟨hok, hready, -⟩ := threadUnblock_agrees h (.inr hplace)
        have hne : s.running ≠ parent := by
          intro he
          rw [he, hplace] at hrun
          cases hrun
        rw [if_pos hwait, hok]
        refine (hblock hready ((Function.update_of_ne hne _ _).trans hrun) hidle).mono
          fun s' hs' => hs'.trans ?_
        -- the two threads are different, so the two changes of status commute
        have hcomm : ((s.setStatus parent .ready).setStatus s.running .hanging).pcb =
            ((s.setStatus s.running .hanging).setStatus parent .ready).pcb := by
          simp only [setStatus, modifyPcb, Function.update_of_ne hne, Function.update_of_ne hne.symm]
          exact Function.update_comm hne.symm ..
        calc ((s.setStatus parent .ready).setStatus s.running .hanging).table
            = ((s.setStatus s.running .hanging).setStatus parent .ready).table :=
              congrArg (fun f => ProcTable.mk (fun u => (f u).bind procOf) s.pidBitmap) hcomm
          _ = (s.setStatus s.running .hanging).table := by
              have hwait' : (s.setStatus s.running .hanging).statusOf parent = some .waiting := by
                rw [setStatus, statusOf_modifyPcb, if_neg hne.symm]
                exact hwait
              exact table_setStatus hwait' ⟨by rintro ⟨⟩, by rintro ⟨⟩⟩ ⟨by rintro ⟨⟩, by rintro ⟨⟩⟩
      · rw [if_neg hwait]
        exact hblock h hrun hidle

omit [DecidableEq S] [DecidableEq W] in
theorem sysExit_fine (h : s.Inv) (hidle : s.running ≠ s.idleThread) (status : Int) :
    Fine (fun s' => ∃ child, s.pcb s.running = some child ∧ child.parentPid ≠ -1 ∧
      s'.table = s.table.exit s.running child.pid status) (s.sysExit status) := by
  obtain ⟨place, hagrees, hrun⟩ := h
  have hset : ((s.intrSetStatus .off).modifyPcb s.running fun p =>
      { p with exitStatus := Int8.ofInt status }).Agrees place :=
    hagrees.congr (statusOf_modifyPcb_same fun p => rfl) (fun _ => rfl) rfl rfl rfl rfl rfl
  rw [sysExit]
  split
  · exact .error _
  · next child hchild =>
    split
    · exact .error _
    · next hparent =>
      obtain ⟨hparents, hrun', hidle'⟩ := changeParentToInit_agrees hset child.pid
      have hchild' : s.pcb s.running = some child := hchild
      have hstatus : child.status = .running := by
        have hs := hagrees.status_running hrun
        rw [statusOf, hchild'] at hs
        exact Option.some.inj hs
      refine (wakeParentAndHang_fine hparents ((congrArg place hrun').trans hrun)
        fun he => hidle (hrun'.symm.trans (he.trans hidle'))).mono fun s' hs' =>
        ⟨child, hchild', hparent, hs'.trans ?_⟩
      -- the child is in the list too, so that all three changes are made to it
      have hmem : s.running ∈ s.allList := (hagrees.mem_all _).mpr (by
        rw [hrun]
        exact ⟨by rintro ⟨⟩, by rintro ⟨⟩⟩)
      have htable := changeParentToInit_table hset child.pid
      have hpcb : (((s.intrSetStatus .off).modifyPcb s.running fun p => { p with
          exitStatus := Int8.ofInt status }).changeParentToInit child.pid).pcb s.running =
          some (if child.parentPid = child.pid then { child with
            exitStatus := Int8.ofInt status, parentPid := 1 }
            else { child with exitStatus := Int8.ofInt status }) := by
        rw [changeParentToInit, changeParent_pcb]
        refine (if_pos hmem).trans ?_
        simp only [modifyPcb, intrSetStatus, Function.update_self, hchild', Option.map_some]
      generalize ((s.intrSetStatus .off).modifyPcb s.running fun p => { p with
        exitStatus := Int8.ofInt status }).changeParentToInit child.pid = s₂ at *
      have hr₂ : s₂.running = s.running := hrun'
      rw [hr₂]
      refine congrArg₂ ProcTable.mk (funext fun u => ?_) (congrArg ProcTable.pids htable)
      by_cases hu : u = s.running
      · subst hu
        have hproc : s.table.proc s.running = some ⟨child.pid, child.parentPid, child.exitStatus,
            child.user, false⟩ := by
          simp [table, hchild', procOf, hstatus]
        rw [hproc]
        by_cases hself : child.parentPid = child.pid
        · simp [setStatus, modifyPcb, hpcb, procOf, Proc.adopt, hself]
        · simp [setStatus, modifyPcb, hpcb, procOf, Proc.adopt, hself]
      · have hproc := congrFun (congrArg ProcTable.proc htable) u
        have hother : (s₂.setStatus s.running .hanging).pcb u = s₂.pcb u := Function.update_of_ne hu ..
        rw [hother]
        refine hproc.trans ?_
        simp [table, modifyPcb, intrSetStatus, hu]

omit [DecidableEq S] [DecidableEq W] in
theorem threadExit_fine (h : s.Inv) (hidle : s.running ≠ s.idleThread) :
    Fine (fun s' => ∃ p mp, s.pcb s.running = some p ∧ releasePid s.pidBitmap p.pid = .ok mp ∧
      s'.table = s.table.remove s.running mp) (s.threadExit s.running true) := by
  obtain ⟨place, hagrees, hrun⟩ := h
  obtain ⟨f, hf⟩ | ⟨s', p, thread, mp, hs', -, hoff, hthread, hpid, htable, hok⟩ :=
    threadExit_cases hagrees (.inl hrun) hidle true
  · rw [hf]
    exact .error f
  · rw [hok, if_pos rfl]
    exact (schedule_keeps hs' hoff).mono fun s'' hs'' =>
      ⟨thread, mp, hthread, hpid, hs''.trans htable⟩

/-! ## Every transition -/

/-- What a transition does to the process table. -/
def Changes (s : Threads T S W) (op : Op T S W) (s' : Threads T S W) : Prop :=
  match op with
  | .start t _ _ => ∃ pid mp, allocPid s.pidBitmap = .ok (pid, mp) ∧
      s'.table = s.table.spawn t ⟨pid, -1, 0, false, false⟩ mp
  | .fork mem => s.Forked mem s'
  | .exit status => ∃ child, s.pcb s.running = some child ∧ child.parentPid ≠ -1 ∧
      s'.table = s.table.exit s.running child.pid status
  | .wait pid => ∃ r, s.sysWait pid = .ok (s', r) ∧ s.Reaped (fun p => p.pid = pid) s' r
  | .waitWithoutPid => ∃ parent r, s.pcb s.running = some parent ∧
      s.sysWaitWithoutPid = .ok (s', r) ∧ s.Reaped (fun p => p.parentPid = parent.pid) s' r
  | .threadExit => ∃ p mp, s.pcb s.running = some p ∧ releasePid s.pidBitmap p.pid = .ok mp ∧
      s'.table = s.table.remove s.running mp
  | _ => s'.table = s.table

/-- Every transition ends in a good state, or stops at a fault that is none of the
scheduler's. -/
theorem exec_fine (h : s.Inv) {op : Op T S W} (hop : s.Enabled op) :
    Fine (s.Changes op) (s.exec op) := by
  cases op with
  | tick => exact intrTimerHandler_keeps h
  | up i => exact semaUp_keeps h i
  | wakeup w => exact wakeup_keeps h w
  | intr status => exact .ok (h.intr status) rfl
  | idle => exact idle_keeps h
  | yield => exact threadYield_keeps h
  | semaInit i value => exact semaInit_keeps h i value
  | down i => exact semaDown_keeps h hop i
  | ioqWait w => exact ioqWait_keeps h hop w
  | start t name priority =>
    have hpage : s.pcb t = none := hop.2
    exact threadStart_fine h hpage name priority
  | fork mem =>
    refine sysFork_fine h fun t ht => ?_
    subst ht
    exact hop.2
  | exit status => exact sysExit_fine h hop status
  | wait pid =>
    rw [exec]
    obtain ⟨f, hf⟩ | ⟨s', r, hok, hinv, hr⟩ := waitRound_cases h hop fun p => p.pid = pid
    · rw [sysWait, hf]
      exact .error f
    · have hwait : s.sysWait pid = .ok (s', r) := hok
      rw [hwait]
      exact .ok hinv ⟨r, hwait, hr⟩
  | waitWithoutPid =>
    rw [exec]
    cases hp : s.pcb s.running with
    | none =>
      rw [sysWaitWithoutPid, hp]
      exact .error _
    | some parent =>
      obtain ⟨f, hf⟩ | ⟨s', r, hok, hinv, hr⟩ :=
        waitRound_cases h hop fun p => p.parentPid = parent.pid
      · rw [sysWaitWithoutPid, hp]
        simp only [hf]
        exact .error f
      · have hwait : s.sysWaitWithoutPid = .ok (s', r) := by
          rw [sysWaitWithoutPid, hp]
          exact hok
        rw [hwait]
        exact .ok hinv ⟨parent, r, hp, hwait, hr⟩
  | threadExit =>
    have hmain : s.running = s.mainThread := hop
    refine threadExit_fine h fun hidle => ?_
    obtain ⟨place, hagrees, -⟩ := h
    exact hagrees.distinct (hmain.symm.trans hidle)

/-- One transition that returns. -/
theorem exec_ok (h : s.Inv) {op : Op T S W} (hop : s.Enabled op) (hok : s.exec op = .ok s') :
    s'.Inv ∧ s.Changes op s' := by
  have hfine := exec_fine h hop
  rw [hok] at hfine
  cases hfine with
  | ok hinv hchanges => exact ⟨hinv, hchanges⟩

theorem Step.inv (h : s.Inv) (hstep : s.Step s') : s'.Inv := by
  obtain ⟨op, hop, hok⟩ := hstep
  exact (exec_ok h hop hok).1

/-! ## The first state -/

omit [DecidableEq S] [DecidableEq W] in
theorem initThread_eq_ok {name : String} {priority : UInt8}
    (h : s.initThread t name priority = .ok s') :
    ∃ pid mp, allocPid s.pidBitmap = .ok (pid, mp) ∧ s' = { s with
      pidBitmap := mp
      pcb := Function.update s.pcb t (some ⟨pid, if t = s.mainThread then .running else .ready, name,
        priority, priority, 0, false, -1, 0⟩) } := by
  obtain ⟨⟨pid, mp⟩, hlift, hok⟩ := bind_eq_ok.mp h
  cases hok
  refine ⟨pid, mp, ?_, rfl⟩
  generalize allocPid s.pidBitmap = x at hlift
  cases x with
  | error e => cases hlift
  | ok a =>
    cases hlift
    rfl

omit [DecidableEq S] [DecidableEq W] in
theorem enlist_eq_ok (h : s.enlist t = .ok s') :
    s' = { s with readyList := s.readyList ++ [t], allList := s.allList ++ [t] } := by
  rw [enlist] at h
  split at h
  · cases h
  · cases h
    rfl

/-- The thread `t` is new in `s'`, with the status `st`. -/
structure Spawned (s s' : Threads T S W) (t : T) (st : TaskStatus) (user : Bool) : Prop where
  table : ∃ pid mp, allocPid s.pidBitmap = .ok (pid, mp) ∧
    s'.table = s.table.spawn t ⟨pid, -1, 0, user, false⟩ mp
  status : ∀ u, s'.statusOf u = if u = t then some st else s.statusOf u
  all : s'.allList = s.allList ++ [t]
  ready : s'.readyList = if st = .ready then s.readyList ++ [t] else s.readyList
  running : s'.running = s.running
  main : s'.mainThread = s.mainThread
  idle : s'.idleThread = s.idleThread
  sema : s'.sema = s.sema
  waiter : s'.waiter = s.waiter

omit [DecidableEq S] [DecidableEq W] in
theorem threadStart_spawned {name : String} {priority : UInt8} (ht : t ≠ s.mainThread)
    (h : s.threadStart t name priority = .ok s') : Spawned s s' t .ready false := by
  obtain ⟨r, hr, hok⟩ := bind_eq_ok.mp h
  obtain ⟨pid, mp, hpid, rfl⟩ := initThread_eq_ok hr
  obtain rfl := enlist_eq_ok hok
  refine ⟨⟨pid, mp, hpid, congrArg (ProcTable.mk · mp) (funext fun u => ?_)⟩, fun u => ?_, rfl, rfl,
    rfl, rfl, rfl, rfl, rfl⟩
  · by_cases hu : u = t <;> simp [procOf, hu, ht, Threads.table]
  · by_cases hu : u = t <;> simp [statusOf, hu, ht]

omit [DecidableEq S] [DecidableEq W] in
theorem processExecute_spawned {name : String} (ht : t ≠ s.mainThread)
    (h : s.processExecute t name = .ok s') : Spawned s s' t .ready true := by
  obtain ⟨r, hr, hok⟩ := bind_eq_ok.mp h
  obtain ⟨pid, mp, hpid, rfl⟩ := initThread_eq_ok hr
  obtain rfl := enlist_eq_ok hok
  refine ⟨⟨pid, mp, hpid, congrArg (ProcTable.mk · mp) (funext fun u => ?_)⟩, fun u => ?_, rfl, rfl,
    rfl, rfl, rfl, rfl, rfl⟩
  · by_cases hu : u = t <;> simp [procOf, modifyPcb, hu, ht, Threads.table]
  · by_cases hu : u = t <;> simp [statusOf, modifyPcb, hu, ht]

omit [DecidableEq S] [DecidableEq W] in
theorem makeMainThread_spawned (h : s.makeMainThread = .ok s') :
    Spawned s s' s.mainThread .running false := by
  obtain ⟨r, hr, hok⟩ := bind_eq_ok.mp h
  obtain ⟨pid, mp, hpid, rfl⟩ := initThread_eq_ok hr
  by_cases hm : s.mainThread ∈ s.allList
  · rw [if_pos hm] at hok
    cases hok
  · rw [if_neg hm] at hok
    cases hok
    refine ⟨⟨pid, mp, hpid, congrArg (ProcTable.mk · mp) (funext fun u => ?_)⟩, fun u => ?_, rfl, rfl,
      rfl, rfl, rfl, rfl, rfl⟩
    · by_cases hu : u = s.mainThread <;> simp [procOf, hu, Threads.table]
    · by_cases hu : u = s.mainThread <;> simp [statusOf, hu]

omit [DecidableEq S] [DecidableEq W] in
/-- What `thread_init` leaves: the main thread runs, `init` and the idle thread are ready. -/
theorem threadInit_inv {init main idle : T} {value : S → UInt8}
    (hne : init ≠ main ∧ init ≠ idle ∧ main ≠ idle)
    (h : threadInit init main idle value = .ok s) : s.Inv := by
  obtain ⟨hinit, hinit', hidle⟩ := hne
  obtain ⟨s₁, h₁, h⟩ := bind_eq_ok.mp h
  obtain ⟨s₂, h₂, h₃⟩ := bind_eq_ok.mp h
  have h₁ := processExecute_spawned hinit h₁
  have h₂ := makeMainThread_spawned h₂
  have hm₁ : s₁.mainThread = main := h₁.main
  have hm₂ : s₂.mainThread = main := h₂.main.trans hm₁
  have h₃ := threadStart_spawned (by rw [hm₂]; exact hidle.symm) h₃
  rw [hm₁] at h₂
  have hready : s.readyList = [init, idle] := by
    rw [h₃.ready, h₂.ready, h₁.ready]
    rfl
  have hall : s.allList = [init, main, idle] := by
    rw [h₃.all, h₂.all, h₁.all]
    rfl
  have hmain : s.mainThread = main := h₃.main.trans hm₂
  have hidle' : s.idleThread = idle := h₃.idle.trans (h₂.idle.trans h₁.idle)
  have hrunning : s.running = main := h₃.running.trans (h₂.running.trans h₁.running)
  have hqueue : ∀ i, s.queue (.sema i) = [] := by
    intro i
    rw [queue, h₃.sema, h₂.sema, h₁.sema]
    rfl
  have hwaiter : ∀ w, s.waiter w = none := by
    intro w
    rw [h₃.waiter, h₂.waiter, h₁.waiter]
    rfl
  refine ⟨fun t => if t = init ∨ t = idle then .queued .ready else if t = main then .running
    else .absent, ⟨fun t => ?_, ?_, ?_, fun w t => ?_, ?_, fun t => ?_, fun t => ?_, ?_, ?_, ?_⟩, ?_⟩
  · rw [h₃.status, h₂.status, h₁.status]
    by_cases ht : t = idle
    · simp [ht, Place.status]
    · by_cases htm : t = main
      · simp [htm, hidle, hinit.symm, Place.status]
      · by_cases hti : t = init <;> simp [ht, htm, hti, Place.status, hinit, hinit', statusOf, beforeThreads]
  · rintro (_ | i)
    · simp [queue, hready, hinit']
    · simp [hqueue]
  · rintro (_ | i) t
    · rw [queue, hready]
      by_cases ht : t = init ∨ t = idle
      · simp [ht]
      · by_cases htm : t = main <;> simp_all
    · rw [hqueue]
      by_cases ht : t = init ∨ t = idle
      · simp [ht]
      · by_cases htm : t = main <;> simp_all
  · rw [hwaiter]
    by_cases ht : t = init ∨ t = idle
    · simp [ht]
    · by_cases htm : t = main <;> simp_all
  · simp [hall, hinit, hinit', hidle]
  · rw [hall]
    by_cases ht : t = init ∨ t = idle
    · rcases ht with rfl | rfl <;> simp [Place.Alive]
    · by_cases htm : t = main <;> simp_all [Place.Alive]
  · rw [hrunning]
    by_cases ht : t = init ∨ t = idle
    · simp [ht]
    · by_cases htm : t = main <;> simp_all
  · simp [hidle']
  · simp [hmain, hidle, hinit.symm]
  · rw [hmain, hidle']
    exact hidle
  · simp [hrunning, hidle, hinit.symm]

/-- The first three pids. -/
theorem allocPid_first : allocPid (bitmapInit 128) = .ok (1, ⟨1 :: List.replicate 127 0⟩) ∧
    allocPid ⟨1 :: List.replicate 127 0⟩ = .ok (2, ⟨3 :: List.replicate 127 0⟩) ∧
    allocPid ⟨3 :: List.replicate 127 0⟩ = .ok (3, ⟨7 :: List.replicate 127 0⟩) := by
  decide +kernel

omit [DecidableEq S] [DecidableEq W] in
theorem initThread_ok {pid : Int} {mp : Bitmap} (hpid : allocPid s.pidBitmap = .ok (pid, mp))
    (name : String) (priority : UInt8) :
    s.initThread t name priority = .ok { s with
      pidBitmap := mp
      pcb := Function.update s.pcb t (some ⟨pid, if t = s.mainThread then .running else .ready, name,
        priority, priority, 0, false, -1, 0⟩) } := by
  rw [initThread, hpid]
  rfl

omit [DecidableEq S] [DecidableEq W] in
theorem enlist_ok (hr : t ∉ s.readyList) (ha : t ∉ s.allList) :
    s.enlist t = .ok { s with readyList := s.readyList ++ [t], allList := s.allList ++ [t] } := by
  have hnot : ¬ (t ∈ s.readyList ∨ t ∈ s.allList) := by simp [hr, ha]
  rw [enlist, if_neg hnot]

omit [DecidableEq S] [DecidableEq W] in
/-- `thread_init` returns. -/
theorem threadInit_ok {init main idle : T} (value : S → UInt8)
    (hne : init ≠ main ∧ init ≠ idle ∧ main ≠ idle) :
    ∃ s : Threads T S W, threadInit init main idle value = .ok s := by
  obtain ⟨hinit, hinit', hidle⟩ := hne
  obtain ⟨hp₁, hp₂, hp₃⟩ := allocPid_first
  have hmp : (beforeThreads main idle value : Threads T S W).pidBitmap = bitmapInit 128 := rfl
  rw [← hmp] at hp₁
  obtain ⟨s₁, h₁, hmp₁⟩ : ∃ s₁, (beforeThreads main idle value : Threads T S W).processExecute init
      "init" = .ok s₁ ∧ s₁.pidBitmap = ⟨1 :: List.replicate 127 0⟩ :=
    ⟨_, bind_eq_ok.mpr ⟨_, initThread_ok hp₁ _ _, enlist_ok List.not_mem_nil List.not_mem_nil⟩, rfl⟩
  have hs₁ := processExecute_spawned hinit h₁
  have hm₁ : s₁.mainThread = main := hs₁.main
  have hnot₁ : s₁.mainThread ∉ s₁.allList := by
    rw [hm₁, hs₁.all]
    simp [beforeThreads, hinit.symm]
  rw [← hmp₁] at hp₂
  obtain ⟨s₂, h₂, hmp₂⟩ : ∃ s₂, s₁.makeMainThread = .ok s₂ ∧
      s₂.pidBitmap = ⟨3 :: List.replicate 127 0⟩ :=
    ⟨_, bind_eq_ok.mpr ⟨_, initThread_ok hp₂ _ _, if_neg hnot₁⟩, rfl⟩
  have hs₂ := makeMainThread_spawned h₂
  rw [← hmp₂] at hp₃
  refine ⟨_, bind_eq_ok.mpr ⟨s₁, h₁, bind_eq_ok.mpr ⟨s₂, h₂,
    bind_eq_ok.mpr ⟨_, initThread_ok hp₃ _ _, enlist_ok (?_ : idle ∉ s₂.readyList)
      (?_ : idle ∉ s₂.allList)⟩⟩⟩⟩
  · rw [hs₂.ready, hs₁.ready]
    simp [beforeThreads, hinit'.symm]
  · rw [hs₂.all, hs₁.all, hm₁]
    simp [beforeThreads, hinit'.symm, hidle.symm]

/-! ## Every reachable state -/

theorem Reachable.inv {init main idle : T} (hne : init ≠ main ∧ init ≠ idle ∧ main ≠ idle)
    (h : Reachable init main idle s) : s.Inv := by
  obtain ⟨value, s₀, h₀, hsteps⟩ := h
  induction hsteps with
  | refl => exact threadInit_inv hne h₀
  | tail _ hstep ih => exact hstep.inv ih

/-- **The queues of the scheduler.** In every state that the kernel reaches from `thread_init`,
between two transitions, one thread is running; the ready list holds the ready threads, each
once; no thread is in two lists, or twice in one; the list of all threads holds those that are
not dead, each once; and no transition fails an `ASSERT` of `schedule`, `thread_yield` or
`thread_unblock`. -/
theorem threads_queues {init main idle : T} (hne : init ≠ main ∧ init ≠ idle ∧ main ≠ idle)
    (h : Reachable init main idle s) :
    (∃! t, s.statusOf t = some .running) ∧
    (s.readyList.Nodup ∧ ∀ t, t ∈ s.readyList ↔ s.statusOf t = some .ready) ∧
    ((∀ i, (s.sema i).waiters.Nodup) ∧ (∀ t i, t ∈ s.readyList → t ∉ (s.sema i).waiters) ∧
      ∀ t i j, t ∈ (s.sema i).waiters → t ∈ (s.sema j).waiters → i = j) ∧
    (s.allList.Nodup ∧
      ∀ t, t ∈ s.allList ↔ ∃ status, s.statusOf t = some status ∧ status ≠ .died) ∧
    ∀ op e, s.Enabled op → s.exec op = .error e → ∃ f, e = .other f := by
  have hinv := h.inv hne
  obtain ⟨place, hagrees, hrun⟩ := hinv
  refine ⟨⟨s.running, ?_, fun t ht => ?_⟩, ⟨hagrees.nodup .ready, fun t => ?_⟩,
    ⟨fun i => hagrees.nodup (.sema i), fun t i hr hw => ?_, fun t i j hi hj => ?_⟩,
    ⟨hagrees.all_nodup, fun t => ?_⟩, fun op e hop he => ?_⟩
  · show s.statusOf s.running = some .running
    rw [hagrees.status, hrun]
    rfl
  · have hplace := (hagrees.status t).symm.trans ht
    exact hagrees.current t (Place.status_running.mp hplace)
  · rw [hagrees.status, Place.status_ready]
    exact hagrees.mem_queue .ready t
  · have hr := (hagrees.mem_queue .ready t).mp hr
    rw [(hagrees.mem_queue (.sema i) t).mp hw] at hr
    cases hr
  · have hi := (hagrees.mem_queue (.sema i) t).mp hi
    rw [(hagrees.mem_queue (.sema j) t).mp hj] at hi
    cases hi
    rfl
  · rw [hagrees.mem_all, Place.alive_iff, hagrees.status]
  · have hfine := exec_fine ⟨place, hagrees, hrun⟩ hop
    rw [he] at hfine
    cases hfine with
    | error f => exact ⟨f, rfl⟩

/-! ## A run -/

instance decidableEnabled (s : Threads T S W) : (op : Op T S W) → Decidable (s.Enabled op)
  | .tick => inferInstanceAs (Decidable (s.intr = .on))
  | .up _ | .wakeup _ | .intr _ => .isTrue trivial
  | .idle => inferInstanceAs (Decidable (s.running = s.idleThread))
  | .start t _ _ | .fork (.enough t) =>
    inferInstanceAs (Decidable (s.running ≠ s.idleThread ∧ s.pcb t = none))
  | .yield | .semaInit _ _ | .down _ | .ioqWait _ | .exit _ | .wait _ | .waitWithoutPid
  | .fork .noPcb | .fork .noTranPage | .fork .noVaddrBitmap | .fork .noPageDir =>
    inferInstanceAs (Decidable (s.running ≠ s.idleThread))
  | .threadExit => inferInstanceAs (Decidable (s.running = s.mainThread))

/-- The transitions one after the other, each of which can happen. -/
def runEnabled (s : Threads T S W) : List (Op T S W) → Except SchedFault (Threads T S W)
  | [] => .ok s
  | op :: ops =>
    if s.Enabled op then s.exec op >>= fun s => runEnabled s ops else .error (.other .assert)

theorem runEnabled_steps {ops : List (Op T S W)} (h : s.runEnabled ops = .ok s') :
    Relation.ReflTransGen Step s s' := by
  induction ops generalizing s with
  | nil =>
    cases h
    exact .refl
  | cons op ops ih =>
    rw [runEnabled] at h
    split at h
    · next hop =>
      obtain ⟨s1, hexec, hrest⟩ := bind_eq_ok.mp h
      exact .head ⟨op, hop, hexec⟩ (ih hrest)
    · cases h

/-- The main thread yields to `init`, which forks a child and waits for a semaphore, and then somebody
comes with an `up`. -/
def sampleOps {T : Type} (child : T) : List (Op T Unit Unit) :=
  [.yield, .fork (.enough child), .semaInit () 0, .down (), .up ()]

/-- The idle thread has the processor then, and `init` is the first that is ready. -/
theorem threads_queues_init : ∃ s : Threads (Fin 4) Unit Unit, Reachable 0 1 2 s ∧
    s.readyList = [0, 1, 3] ∧ ∃! t, s.statusOf t = some .running := by
  have hne : (0 : Fin 4) ≠ 1 ∧ (0 : Fin 4) ≠ 2 ∧ (1 : Fin 4) ≠ 2 := by decide
  have hcheck : returnsWith ((threadInit 0 1 2 (fun _ => 1) : Except _ (Threads (Fin 4) Unit Unit)) >>=
      fun s => s.runEnabled (sampleOps 3)) (fun s => decide (s.readyList = [0, 1, 3])) = true := by
    decide +kernel
  obtain ⟨s, hs, hready⟩ := returnsWith_iff.mp hcheck
  obtain ⟨s₀, hs₀, hrun⟩ := bind_eq_ok.mp hs
  have hr : Reachable 0 1 2 s := ⟨_, s₀, hs₀, runEnabled_steps hrun⟩
  exact ⟨s, hr, of_decide_eq_true hready, (threads_queues hne hr).1⟩

end Threads

end GwOS
