import GwOS.Thread.Thread

/-!
# The scheduler keeps its queues

Every thread is in one `Place` at a time: on the processor, in the ready list, among the
waiters of one semaphore, in one slot of an `ioqueue`, blocked without a list, and so on.
The fields of the kernel say it three times over: in the status, in the lists and in the
slots. `Agrees` is the statement that they tell the same story, and a transition of the
kernel is a move of one thread from place to place (`Agrees.move`).

- `schedule_inv`: from any state that agrees, also one in which the running thread has
  just blocked or died, `schedule` ends with one running thread.

What the life of a process depends on is the `table`: the pid, the parent and the exit
status of every thread that is not dead. Nothing in this file changes it.
-/

namespace GwOS

/-- The lists that a `general_node` can be in. -/
inductive Queue (S : Type) where
  | ready
  | sema (i : S)

/-- Where a thread is. -/
inductive Place (S W : Type) where
  /-- The page holds no thread. -/
  | absent
  | dead
  | running
  | queued (q : Queue S)
  /-- `producer` or `consumer` of an `ioqueue`. -/
  | slot (w : W)
  /-- Blocked without a list, as the idle thread is. -/
  | parked
  | waiting
  | hanging

/-- The status of a thread at a place. -/
def Place.status {S W : Type} : Place S W → Option TaskStatus
  | .absent => none
  | .dead => some .died
  | .running => some .running
  | .queued .ready => some .ready
  | .queued (.sema _) | .slot _ | .parked => some .blocked
  | .waiting => some .waiting
  | .hanging => some .hanging

/-- The thread belongs into `thread_all_list`. -/
def Place.Alive {S W : Type} (p : Place S W) : Prop := p ≠ .absent ∧ p ≠ .dead

namespace Place

variable {S W : Type} {p : Place S W}

theorem status_running : p.status = some .running ↔ p = .running := by
  rcases p with _ | _ | _ | ⟨_ | i⟩ | w | _ | _ | _ <;> simp [status]

theorem status_ready : p.status = some .ready ↔ p = .queued .ready := by
  rcases p with _ | _ | _ | ⟨_ | i⟩ | w | _ | _ | _ <;> simp [status]

theorem status_waiting : p.status = some .waiting ↔ p = .waiting := by
  rcases p with _ | _ | _ | ⟨_ | i⟩ | w | _ | _ | _ <;> simp [status]

theorem status_hanging : p.status = some .hanging ↔ p = .hanging := by
  rcases p with _ | _ | _ | ⟨_ | i⟩ | w | _ | _ | _ <;> simp [status]

theorem status_none : p.status = none ↔ p = .absent := by
  rcases p with _ | _ | _ | ⟨_ | i⟩ | w | _ | _ | _ <;> simp [status]

theorem alive_iff : p.Alive ↔ ∃ status, p.status = some status ∧ status ≠ .died := by
  rcases p with _ | _ | _ | ⟨_ | i⟩ | w | _ | _ | _ <;> simp [status, Alive]

/-- Alive, and in no list and no slot. -/
def Loose (p : Place S W) : Prop := p = .running ∨ p = .parked ∨ p = .waiting ∨ p = .hanging

theorem Loose.alive (h : p.Loose) : p.Alive := by
  rcases h with rfl | rfl | rfl | rfl <;> exact ⟨nofun, nofun⟩

theorem Loose.ne_queued (h : p.Loose) (q : Queue S) : p ≠ .queued q := by
  rcases h with rfl | rfl | rfl | rfl <;> exact nofun

theorem Loose.ne_slot (h : p.Loose) (w : W) : p ≠ .slot w := by
  rcases h with rfl | rfl | rfl | rfl <;> exact nofun

end Place

namespace Threads

variable {T S W : Type} [DecidableEq T] [DecidableEq S] [DecidableEq W]
variable {s s' : Threads T S W} {place : T → Place S W} {t : T}

/-- The list of a queue. -/
def queue (s : Threads T S W) : Queue S → List T
  | .ready => s.readyList
  | .sema i => (s.sema i).waiters

/-! ## The process table -/

/-- What other processes can see of a thread that is not dead. -/
structure Proc where
  pid : Int
  parentPid : Int
  exitStatus : Int8
  user : Bool
  hanging : Bool
  deriving DecidableEq

/-- The entry of a thread, `none` when it is dead. -/
def procOf (p : Pcb) : Option Proc :=
  if p.status = .died then none
  else some ⟨p.pid, p.parentPid, p.exitStatus, p.user, p.status = .hanging⟩

/-- The threads that are not dead, with the pids in use. -/
structure ProcTable (T : Type) where
  proc : T → Option Proc
  pids : Bitmap

def table (s : Threads T S W) : ProcTable T := ⟨fun t => (s.pcb t).bind procOf, s.pidBitmap⟩

/-! ## The invariant -/

/-- The status, the lists and the slots put every thread where `place` does. -/
structure Agrees (s : Threads T S W) (place : T → Place S W) : Prop where
  status : ∀ t, s.statusOf t = (place t).status
  nodup : ∀ q, (s.queue q).Nodup
  mem_queue : ∀ q t, t ∈ s.queue q ↔ place t = .queued q
  waiter : ∀ w t, s.waiter w = some t ↔ place t = .slot w
  all_nodup : s.allList.Nodup
  mem_all : ∀ t, t ∈ s.allList ↔ (place t).Alive
  current : ∀ t, place t = .running → t = s.running
  idle : place s.idleThread = .running ∨ place s.idleThread = .queued .ready ∨
    place s.idleThread = .parked
  main : place s.mainThread ≠ .absent
  distinct : s.mainThread ≠ s.idleThread

/-- What holds between two transitions. -/
def Inv (s : Threads T S W) : Prop := ∃ place, s.Agrees place ∧ place s.running = .running

/-! ## Fields after an update -/

omit [DecidableEq S] [DecidableEq W] in
theorem statusOf_modifyPcb (f : Pcb → Pcb) (u : T) :
    (s.modifyPcb t f).statusOf u =
      if u = t then (s.pcb t).map fun p => (f p).status else s.statusOf u := by
  by_cases h : u = t
  · subst h
    simp [statusOf, modifyPcb, Function.comp_def]
  · simp [statusOf, modifyPcb, h]

omit [DecidableEq S] [DecidableEq W] in
/-- A write to other fields leaves every status as it is. -/
theorem statusOf_modifyPcb_same {f : Pcb → Pcb} (hf : ∀ p, (f p).status = p.status) (u : T) :
    (s.modifyPcb t f).statusOf u = s.statusOf u := by
  rw [statusOf_modifyPcb]
  split
  · next h => simp only [hf, h, statusOf]
  · rfl

omit [DecidableEq S] [DecidableEq W] in
theorem statusOf_modifyPcb_set {f : Pcb → Pcb} {status : TaskStatus}
    (hf : ∀ p, (f p).status = status) (ht : s.statusOf t ≠ none) (u : T) :
    (s.modifyPcb t f).statusOf u = if u = t then some status else s.statusOf u := by
  rw [statusOf_modifyPcb]
  cases hp : s.pcb t with
  | none => exact absurd (by rw [statusOf, hp]; rfl) ht
  | some p => simp [hf]

omit [DecidableEq S] [DecidableEq W] in
theorem statusOf_setStatus (status : TaskStatus) (ht : s.statusOf t ≠ none) (u : T) :
    (s.setStatus t status).statusOf u = if u = t then some status else s.statusOf u := by
  exact statusOf_modifyPcb_set (f := fun p => { p with status }) (fun p => rfl) ht u

omit [DecidableEq S] [DecidableEq W] in
/-- A write that the table does not show. -/
theorem table_modifyPcb {f : Pcb → Pcb} (hf : ∀ p, s.pcb t = some p → procOf (f p) = procOf p) :
    (s.modifyPcb t f).table = s.table := by
  have hproc : (s.modifyPcb t f).table.proc = s.table.proc := by
    funext u
    by_cases hu : u = t
    · subst hu
      cases hp : s.pcb u with
      | none => simp [table, modifyPcb, hp]
      | some p => simp [table, modifyPcb, hp, hf p hp]
    · simp [table, modifyPcb, hu]
  exact congrArg (ProcTable.mk · s.pidBitmap) hproc

omit [DecidableEq S] [DecidableEq W] in
/-- A change of status between those of a thread that is neither dead nor hanging. -/
theorem table_setStatus {status status' : TaskStatus} (ht : s.statusOf t = some status)
    (h : status ≠ .died ∧ status ≠ .hanging) (h' : status' ≠ .died ∧ status' ≠ .hanging) :
    (s.setStatus t status').table = s.table := by
  refine table_modifyPcb fun p hp => ?_
  have hs : p.status = status := by
    rw [statusOf, hp] at ht
    exact Option.some.inj ht
  simp [procOf, hs, h, h']

/-! ## Moves -/

/-- The fields put the thread `t` at the place `p`. -/
structure At (s : Threads T S W) (t : T) (p : Place S W) : Prop where
  status : s.statusOf t = p.status
  queue : ∀ q, t ∈ s.queue q ↔ p = .queued q
  waiter : ∀ w, s.waiter w = some t ↔ p = .slot w
  all : t ∈ s.allList ↔ p.Alive

/-- The fields of `s'` put every thread but `t` where those of `s` do. -/
structure SameBut (t : T) (s s' : Threads T S W) : Prop where
  status : ∀ u, u ≠ t → s'.statusOf u = s.statusOf u
  queue : ∀ q u, u ≠ t → (u ∈ s'.queue q ↔ u ∈ s.queue q)
  waiter : ∀ w u, u ≠ t → (s'.waiter w = some u ↔ s.waiter w = some u)
  all : ∀ u, u ≠ t → (u ∈ s'.allList ↔ u ∈ s.allList)
  idle : s'.idleThread = s.idleThread
  main : s'.mainThread = s.mainThread

omit [DecidableEq T] [DecidableEq S] [DecidableEq W] in
theorem Agrees.at (h : s.Agrees place) (t : T) : s.At t (place t) :=
  ⟨h.status t, fun q => h.mem_queue q t, fun w => h.waiter w t, h.mem_all t⟩

omit [DecidableEq S] [DecidableEq W] in
/-- One thread goes to another place, and every field follows it. -/
theorem Agrees.move (h : s.Agrees place) {p : Place S W} (hsame : SameBut t s s') (ht : s'.At t p)
    (hnodup : ∀ q, (s'.queue q).Nodup) (hall : s'.allList.Nodup)
    (hcurrent : ∀ u, Function.update place t p u = .running → u = s'.running)
    (hidle : t = s.idleThread → p = .running ∨ p = .queued .ready ∨ p = .parked)
    (hmain : t = s.mainThread → p ≠ .absent) : s'.Agrees (Function.update place t p) := by
  have hat : ∀ u, s'.At u (Function.update place t p u) := by
    intro u
    by_cases hu : u = t
    · rw [hu, Function.update_self]
      exact ht
    · rw [Function.update_of_ne hu]
      refine ⟨?_, fun q => ?_, fun w => ?_, ?_⟩
      · rw [hsame.status u hu, h.status]
      · rw [hsame.queue q u hu, h.mem_queue]
      · rw [hsame.waiter w u hu, h.waiter]
      · rw [hsame.all u hu, h.mem_all]
  refine ⟨fun u => (hat u).status, hnodup, fun q u => (hat u).queue q, fun w u => (hat u).waiter w,
    hall, fun u => (hat u).all, hcurrent, ?_, ?_, ?_⟩
  · rw [hsame.idle, Function.update_apply]
    split
    · next he => exact hidle he.symm
    · exact h.idle
  · rw [hsame.main, Function.update_apply]
    split
    · next he => exact hmain he.symm
    · exact h.main
  · rw [hsame.idle, hsame.main]
    exact h.distinct

omit [DecidableEq T] [DecidableEq S] [DecidableEq W] in
/-- Nothing that the places depend on has changed. -/
theorem Agrees.congr (h : s.Agrees place) (hstatus : ∀ u, s'.statusOf u = s.statusOf u)
    (hqueue : ∀ q, s'.queue q = s.queue q) (hwaiter : s'.waiter = s.waiter)
    (hall : s'.allList = s.allList) (hrunning : s'.running = s.running)
    (hidle : s'.idleThread = s.idleThread) (hmain : s'.mainThread = s.mainThread) :
    s'.Agrees place := by
  refine ⟨fun u => ?_, fun q => ?_, fun q u => ?_, fun w u => ?_, ?_, fun u => ?_, fun u hu => ?_, ?_, ?_,
    ?_⟩
  · rw [hstatus, h.status]
  · rw [hqueue]
    exact h.nodup q
  · rw [hqueue]
    exact h.mem_queue q u
  · rw [hwaiter]
    exact h.waiter w u
  · rw [hall]
    exact h.all_nodup
  · rw [hall]
    exact h.mem_all u
  · rw [hrunning]
    exact h.current u hu
  · rw [hidle]
    exact h.idle
  · rw [hmain]
    exact h.main
  · rw [hidle, hmain]
    exact h.distinct

omit [DecidableEq T] [DecidableEq S] [DecidableEq W] in
theorem Agrees.intr (h : s.Agrees place) (status : IntrStatus) :
    (s.intrSetStatus status).Agrees place :=
  h.congr (fun _ => rfl) (fun _ => rfl) rfl rfl rfl rfl rfl

omit [DecidableEq T] [DecidableEq S] [DecidableEq W] in
theorem Agrees.status_ne_none (h : s.Agrees place) (ht : (place t).Alive) : s.statusOf t ≠ none := by
  rw [h.status, Ne, Place.status_none]
  exact ht.1

omit [DecidableEq S] [DecidableEq W] in
/-- No thread but `t` may be on the processor, and `t` leaves it. -/
theorem Agrees.current_update (h : s.Agrees place) {p : Place S W} (hp : p ≠ .running) (u : T)
    (hu : Function.update place t p u = .running) : u = s.running := by
  rw [Function.update_apply] at hu
  split at hu
  · exact absurd hu hp
  · exact h.current u hu

omit [DecidableEq S] [DecidableEq W] in
/-- A thread that is in no list joins the ready list. -/
theorem Agrees.toReady (h : s.Agrees place) (ht : (place t).Loose) {f : Pcb → Pcb}
    (hf : ∀ p, (f p).status = .ready) {l : List T} (hl : l.Perm (t :: s.readyList)) :
    { s.modifyPcb t f with readyList := l : Threads T S W }.Agrees
      (Function.update place t (.queued .ready)) := by
  have hnot : t ∉ s.readyList := fun hm => ht.ne_queued _ ((h.mem_queue .ready t).mp hm)
  have hstatus := statusOf_modifyPcb_set hf (h.status_ne_none ht.alive)
  refine h.move ⟨fun u hu => ?_, ?_, fun _ _ _ => .rfl, fun _ _ => .rfl, rfl, rfl⟩ ⟨?_, ?_, fun w => ?_, ?_⟩
    ?_ h.all_nodup (h.current_update nofun) (fun _ => .inr (.inl rfl)) fun _ => nofun
  · exact (hstatus u).trans (if_neg hu)
  · rintro (_ | i) u hu
    · show u ∈ l ↔ u ∈ s.readyList
      simp [hl.mem_iff, hu]
    · rfl
  · exact (hstatus t).trans (if_pos rfl)
  · rintro (_ | i)
    · show t ∈ l ↔ _
      simp [hl.mem_iff]
    · show t ∈ s.queue (.sema i) ↔ _
      simp [h.mem_queue, ht.ne_queued]
  · show s.waiter w = some t ↔ _
    simp [h.waiter, ht.ne_slot]
  · exact (h.mem_all t).trans ⟨fun _ => ⟨nofun, nofun⟩, fun _ => ht.alive⟩
  · rintro (_ | i)
    · exact hl.nodup_iff.mpr (List.nodup_cons.mpr ⟨hnot, h.nodup .ready⟩)
    · exact h.nodup (.sema i)

omit [DecidableEq S] [DecidableEq W] in
/-- The first thread of the ready list goes on the processor. -/
theorem Agrees.toRunning (h : s.Agrees place) (hnone : ∀ u, place u ≠ .running) {l : List T}
    (hl : s.readyList = t :: l) :
    { s.setStatus t .running with readyList := l, running := t : Threads T S W }.Agrees
      (Function.update place t .running) := by
  have hmem : t ∈ s.queue .ready := by
    rw [queue, hl]
    exact List.mem_cons_self
  have ht : place t = .queued .ready := (h.mem_queue .ready t).mp hmem
  have hnd : (t :: l).Nodup := hl ▸ h.nodup .ready
  have hstatus := statusOf_setStatus (s := s) (t := t) .running (by
    rw [h.status, ht]
    nofun)
  refine h.move ⟨fun u hu => ?_, ?_, fun _ _ _ => .rfl, fun _ _ => .rfl, rfl, rfl⟩ ⟨?_, ?_, fun w => ?_, ?_⟩
    ?_ h.all_nodup (fun u hu => ?_) (fun _ => .inl rfl) fun _ => nofun
  · exact (hstatus u).trans (if_neg hu)
  · rintro (_ | i) u hu
    · show u ∈ l ↔ u ∈ s.readyList
      simp [hl, hu]
    · rfl
  · exact (hstatus t).trans (if_pos rfl)
  · rintro (_ | i)
    · show t ∈ l ↔ _
      simp [(List.nodup_cons.mp hnd).1]
    · show t ∈ s.queue (.sema i) ↔ _
      simp [h.mem_queue, ht]
  · show s.waiter w = some t ↔ _
    simp [h.waiter, ht]
  · show t ∈ s.allList ↔ _
    simp [h.mem_all, ht, Place.Alive]
  · rintro (_ | i)
    · exact (List.nodup_cons.mp hnd).2
    · exact h.nodup (.sema i)
  · rw [Function.update_apply] at hu
    split at hu
    · next he => exact he
    · exact absurd hu (hnone u)

/-! ## `schedule` -/

omit [DecidableEq S] [DecidableEq W] in
/-- After the first half of `schedule` nobody is on the processor. -/
theorem requeueNow_agrees (h : s.Agrees place) :
    ∃ s' place', s.requeueNow = .ok s' ∧ s'.Agrees place' ∧ (∀ u, place' u ≠ .running) ∧
      s'.table = s.table := by
  by_cases hrun : s.statusOf s.running = some .running
  · have hplace : place s.running = .running := by
      rw [h.status] at hrun
      exact Place.status_running.mp hrun
    have hnot : s.running ∉ s.readyList := by
      intro hm
      rw [(h.mem_queue .ready s.running).mp hm] at hplace
      cases hplace
    refine ⟨_, _, ?_, h.toReady (t := s.running) (.inl hplace)
      (f := fun p => { p with ticks := p.priority, status := .ready }) (fun p => rfl)
      (List.perm_append_singleton _ _), fun u hu => ?_, ?_⟩
    · rw [requeueNow, if_pos hrun, if_neg hnot]
    · rw [Function.update_apply] at hu
      split at hu
      · cases hu
      · next hne => exact hne (h.current u hu)
    · refine table_modifyPcb fun p hp => ?_
      rw [statusOf, hp] at hrun
      simp [procOf, Option.some.inj hrun]
  · refine ⟨s, place, by rw [requeueNow, if_neg hrun], h, fun u hu => hrun ?_, rfl⟩
    rw [← h.current u hu, h.status, hu]
    rfl

omit [DecidableEq S] [DecidableEq W] in
theorem threadUnblock_ok (hnot : t ∉ s.readyList) (hblocked : s.statusOf t = some .blocked ∨
    s.statusOf t = some .waiting ∨ s.statusOf t = some .hanging) :
    s.threadUnblock t = .ok { s.setStatus t .ready with readyList := t :: s.readyList } := by
  have hne : s.statusOf t ≠ some .ready := by
    rcases hblocked with hb | hb | hb <;> rw [hb] <;> nofun
  rw [threadUnblock, if_pos hblocked, if_pos hne, if_neg hnot]

omit [DecidableEq S] [DecidableEq W] in
/-- `thread_unblock` of a thread that is blocked and in no list. -/
theorem threadUnblock_agrees (h : s.Agrees place) (ht : place t = .parked ∨ place t = .waiting) :
    s.threadUnblock t = .ok { s.setStatus t .ready with readyList := t :: s.readyList } ∧
      { s.setStatus t .ready with readyList := t :: s.readyList : Threads T S W }.Agrees
        (Function.update place t (.queued .ready)) ∧
      (s.setStatus t .ready).table = s.table := by
  have hnot : t ∉ s.readyList := by
    intro hm
    rw [(h.mem_queue .ready t).mp hm] at ht
    rcases ht with ht | ht <;> cases ht
  have hloose : (place t).Loose := by
    rcases ht with ht | ht
    · exact .inr (.inl ht)
    · exact .inr (.inr (.inl ht))
  have hblocked : s.statusOf t = some .blocked ∨ s.statusOf t = some .waiting := by
    rw [h.status]
    rcases ht with ht | ht
    · exact .inl (by rw [ht]; rfl)
    · exact .inr (by rw [ht]; rfl)
  refine ⟨?_, ?_, ?_⟩
  · exact threadUnblock_ok hnot (hblocked.imp_right .inl)
  · exact h.toReady hloose (f := fun p => { p with status := .ready }) (fun p => rfl) (.refl _)
  · rcases hblocked with hb | hb
    · exact table_setStatus hb ⟨nofun, nofun⟩ ⟨nofun, nofun⟩
    · exact table_setStatus hb ⟨nofun, nofun⟩ ⟨nofun, nofun⟩

omit [DecidableEq S] [DecidableEq W] in
/-- When the ready list is empty and nobody runs, the idle thread is blocked. -/
theorem reviveIdle_agrees (h : s.Agrees place) (hnone : ∀ u, place u ≠ .running) :
    ∃ s' place', s.reviveIdle = .ok s' ∧ s'.Agrees place' ∧ (∀ u, place' u ≠ .running) ∧
      s'.readyList ≠ [] ∧ s'.table = s.table := by
  by_cases hempty : s.readyList = []
  · have hidle : place s.idleThread = .parked := by
      rcases h.idle with hi | hi | hi
      · exact absurd hi (hnone _)
      · have hm := (h.mem_queue .ready s.idleThread).mpr hi
        rw [queue, hempty] at hm
        cases hm
      · exact hi
    obtain ⟨hok, hagrees, htable⟩ := threadUnblock_agrees h (.inl hidle)
    refine ⟨_, _, by rw [reviveIdle, if_pos hempty, hok], hagrees, fun u hu => ?_,
      List.cons_ne_nil _ _, htable⟩
    rw [Function.update_apply] at hu
    split at hu
    · cases hu
    · exact hnone u hu
  · exact ⟨s, place, by rw [reviveIdle, if_neg hempty], h, hnone, hempty, rfl⟩

omit [DecidableEq S] [DecidableEq W] in
/-- `schedule` always finds a thread, and switches to it. -/
theorem schedule_inv (h : s.Agrees place) (hoff : s.intr = .off) :
    ∃ s', s.schedule = .ok s' ∧ s'.Inv ∧ s'.table = s.table := by
  obtain ⟨s₁, place₁, h₁, hagrees₁, hnone₁, htable₁⟩ := requeueNow_agrees h
  obtain ⟨s₂, place₂, h₂, hagrees₂, hnone₂, hne, htable₂⟩ := reviveIdle_agrees hagrees₁ hnone₁
  obtain ⟨t, l, hl⟩ := List.exists_cons_of_ne_nil hne
  have hready : s₂.statusOf t = some .ready := by
    rw [hagrees₂.status, Place.status_ready, ← hagrees₂.mem_queue, queue, hl]
    exact List.mem_cons_self
  refine ⟨{ s₂.setStatus t .running with readyList := l, running := t }, ?_, ?_, ?_⟩
  · rw [schedule, if_pos hoff]
    simp only [bind, Except.bind, h₁, h₂, dispatch, hl]
  · exact ⟨Function.update place₂ t .running, hagrees₂.toRunning hnone₂ hl, Function.update_self ..⟩
  · calc (s₂.setStatus t .running).table
        = s₂.table := table_setStatus hready ⟨nofun, nofun⟩ ⟨nofun, nofun⟩
      _ = s₁.table := htable₂
      _ = s.table := htable₁

/-! ## The running thread blocks -/

omit [DecidableEq S] [DecidableEq W] in
/-- The running thread blocks without joining a list. -/
theorem Agrees.block (h : s.Agrees place) (hrun : place s.running = .running) {p : Place S W}
    (hp : p = .parked ∨ p = .waiting ∨ p = .hanging) {status : TaskStatus}
    (hs : p.status = some status) (hidle : s.running = s.idleThread → p = .parked) :
    (s.setStatus s.running status).Agrees (Function.update place s.running p) := by
  have hloose : p.Loose := .inr hp
  have hstatus := statusOf_setStatus (s := s) (t := s.running) status (by
    rw [h.status, hrun]
    nofun)
  refine h.move ⟨fun u hu => ?_, fun _ _ _ => .rfl, fun _ _ _ => .rfl, fun _ _ => .rfl, rfl, rfl⟩
    ⟨?_, fun q => ?_, fun w => ?_, ?_⟩ h.nodup h.all_nodup (h.current_update ?_)
    (fun hi => .inr (.inr (hidle hi))) fun _ => hloose.alive.1
  · exact (hstatus u).trans (if_neg hu)
  · rw [hs]
    exact (hstatus s.running).trans (if_pos rfl)
  · show s.running ∈ s.queue q ↔ _
    simp [h.mem_queue, hrun, hloose.ne_queued]
  · show s.waiter w = some s.running ↔ _
    simp [h.waiter, hrun, hloose.ne_slot]
  · show s.running ∈ s.allList ↔ _
    rw [h.mem_all, hrun]
    exact ⟨fun _ => hloose.alive, fun _ => ⟨nofun, nofun⟩⟩
  · rcases hp with rfl | rfl | rfl <;> nofun

omit [DecidableEq W] in
/-- The running thread joins the waiters of a semaphore. -/
theorem Agrees.joinSema (h : s.Agrees place) (hrun : place s.running = .running)
    (hidle : s.running ≠ s.idleThread) {i : S} {sema : Semaphore T}
    (hsema : sema.waiters = (s.sema i).waiters ++ [s.running]) :
    ((s.setSema i sema).setStatus s.running .blocked).Agrees
      (Function.update place s.running (.queued (.sema i))) := by
  have hstatus := statusOf_setStatus (s := s.setSema i sema) (t := s.running) .blocked
    (by
      rw [show (s.setSema i sema).statusOf s.running = s.statusOf s.running from rfl, h.status, hrun]
      nofun)
  have hqueue : ∀ j, ((s.setSema i sema).setStatus s.running .blocked).queue (.sema j) =
      if j = i then s.queue (.sema i) ++ [s.running] else s.queue (.sema j) := by
    intro j
    simp only [queue, setStatus, modifyPcb, setSema, Function.update_apply]
    split
    · exact hsema
    · rfl
  have hnot : ∀ q, s.running ∉ s.queue q := by
    intro q hm
    rw [(h.mem_queue q s.running).mp hm] at hrun
    cases hrun
  refine h.move ⟨fun u hu => ?_, ?_, fun _ _ _ => .rfl, fun _ _ => .rfl, rfl, rfl⟩
    ⟨?_, ?_, fun w => ?_, ?_⟩ ?_ h.all_nodup (h.current_update nofun) (fun hi => absurd hi hidle)
    fun _ => nofun
  · exact (hstatus u).trans (if_neg hu)
  · rintro (_ | j) u hu
    · rfl
    · rw [hqueue]
      split
      · next hj => simp [hj, hu]
      · rfl
  · exact (hstatus s.running).trans (if_pos rfl)
  · rintro (_ | j)
    · show s.running ∈ s.queue .ready ↔ _
      simp [hnot]
    · rw [hqueue]
      split
      · next hj => simp [hj]
      · next hj => simp [hnot, Ne.symm hj]
  · show s.waiter w = some s.running ↔ _
    simp [h.waiter, hrun]
  · show s.running ∈ s.allList ↔ _
    simp [h.mem_all, hrun, Place.Alive]
  · rintro (_ | j)
    · exact h.nodup .ready
    · rw [hqueue]
      split
      · exact (List.perm_append_singleton _ _).nodup_iff.mpr
          (List.nodup_cons.mpr ⟨hnot _, h.nodup _⟩)
      · exact h.nodup _

omit [DecidableEq S] in
/-- The running thread takes a free slot. -/
theorem Agrees.joinSlot (h : s.Agrees place) (hrun : place s.running = .running)
    (hidle : s.running ≠ s.idleThread) {w : W} (hw : s.waiter w = none) :
    ((s.setWaiter w (some s.running)).setStatus s.running .blocked).Agrees
      (Function.update place s.running (.slot w)) := by
  have hstatus := statusOf_setStatus (s := s.setWaiter w (some s.running)) (t := s.running)
    .blocked (by
      rw [show (s.setWaiter w (some s.running)).statusOf s.running = s.statusOf s.running from rfl,
        h.status, hrun]
      nofun)
  have hnot : ∀ v, s.waiter v ≠ some s.running := by
    intro v hv
    rw [(h.waiter v s.running).mp hv] at hrun
    cases hrun
  refine h.move ⟨fun u hu => ?_, fun _ _ _ => .rfl, fun v u hu => ?_, fun _ _ => .rfl, rfl, rfl⟩
    ⟨?_, fun q => ?_, fun v => ?_, ?_⟩ h.nodup h.all_nodup (h.current_update nofun)
    (fun hi => absurd hi hidle) fun _ => nofun
  · exact (hstatus u).trans (if_neg hu)
  · show Function.update s.waiter w (some s.running) v = some u ↔ _
    by_cases hv : v = w
    · simp [hv, hw, Ne.symm hu]
    · simp [hv]
  · exact (hstatus s.running).trans (if_pos rfl)
  · show s.running ∈ s.queue q ↔ _
    simp [h.mem_queue, hrun]
  · show Function.update s.waiter w (some s.running) v = some s.running ↔ _
    by_cases hv : v = w
    · simp [hv]
    · simp [hv, hnot, Ne.symm hv]
  · show s.running ∈ s.allList ↔ _
    simp [h.mem_all, hrun, Place.Alive]

/-! ## A blocked thread is unblocked -/

omit [DecidableEq W] in
/-- The first waiter leaves a semaphore. -/
theorem Agrees.popSema (h : s.Agrees place) {i : S} {l : List T}
    (hl : (s.sema i).waiters = t :: l) (value : UInt8) :
    (s.setSema i ⟨value, l⟩).Agrees (Function.update place t .parked) := by
  have hmem : t ∈ s.queue (.sema i) := by
    rw [queue, hl]
    exact List.mem_cons_self
  have ht : place t = .queued (.sema i) := (h.mem_queue (.sema i) t).mp hmem
  have hnd : (t :: l).Nodup := hl ▸ h.nodup (.sema i)
  have hqueue : ∀ j, (s.setSema i ⟨value, l⟩).queue (.sema j) =
      if j = i then l else s.queue (.sema j) := by
    intro j
    simp only [queue, setSema, Function.update_apply]
    split <;> rfl
  refine h.move ⟨fun _ _ => rfl, ?_, fun _ _ _ => .rfl, fun _ _ => .rfl, rfl, rfl⟩
    ⟨?_, ?_, fun w => ?_, ?_⟩ ?_ h.all_nodup (h.current_update nofun) (fun _ => .inr (.inr rfl))
    fun _ => nofun
  · rintro (_ | j) u hu
    · rfl
    · rw [hqueue]
      split
      · next hj => simp [queue, hj, hl, hu]
      · rfl
  · exact (h.status t).trans (by rw [ht]; rfl)
  · rintro (_ | j)
    · show t ∈ s.queue .ready ↔ _
      simp [h.mem_queue, ht]
    · rw [hqueue]
      split
      · simp [(List.nodup_cons.mp hnd).1]
      · next hj => simp [h.mem_queue, ht, Ne.symm hj]
  · show s.waiter w = some t ↔ _
    simp [h.waiter, ht]
  · show t ∈ s.allList ↔ _
    simp [h.mem_all, ht, Place.Alive]
  · rintro (_ | j)
    · exact h.nodup .ready
    · rw [hqueue]
      split
      · exact (List.nodup_cons.mp hnd).2
      · exact h.nodup _

omit [DecidableEq S] in
/-- The thread of a slot leaves it. -/
theorem Agrees.clearSlot (h : s.Agrees place) {w : W} (hw : s.waiter w = some t) :
    (s.setWaiter w none).Agrees (Function.update place t .parked) := by
  have ht : place t = .slot w := (h.waiter w t).mp hw
  refine h.move ⟨fun _ _ => rfl, fun _ _ _ => .rfl, fun v u hu => ?_, fun _ _ => .rfl, rfl, rfl⟩
    ⟨?_, fun q => ?_, fun v => ?_, ?_⟩ h.nodup h.all_nodup (h.current_update nofun)
    (fun _ => .inr (.inr rfl)) fun _ => nofun
  · show Function.update s.waiter w none v = some u ↔ _
    by_cases hv : v = w
    · simp [hv, hw, Ne.symm hu]
    · simp [hv]
  · exact (h.status t).trans (by rw [ht]; rfl)
  · show t ∈ s.queue q ↔ _
    simp [h.mem_queue, ht]
  · show Function.update s.waiter w none v = some t ↔ _
    by_cases hv : v = w
    · simp [hv]
    · simp [hv, h.waiter, ht, Ne.symm hv]
  · show t ∈ s.allList ↔ _
    simp [h.mem_all, ht, Place.Alive]

omit [DecidableEq T] [DecidableEq W] in
/-- The waiters of a semaphore that is initialised again are forgotten. -/
theorem Agrees.semaInit (h : s.Agrees place) (i : S) (value : UInt8) :
    ∃ place', (s.setSema i (semaphoreInit value)).Agrees place' ∧
      ∀ t, place t = .running → place' t = .running := by
  classical
  have hqueue : ∀ j, (s.setSema i (semaphoreInit value)).queue (.sema j) =
      if j = i then [] else s.queue (.sema j) := by
    intro j
    simp only [queue, setSema, Function.update_apply]
    split <;> rfl
  let place' : T → Place S W := fun t => if place t = .queued (.sema i) then .parked else place t
  have hplace : ∀ t p, p ≠ .parked → p ≠ .queued (.sema i) → (place' t = p ↔ place t = p) := by
    intro t p hp hq
    by_cases ht : place t = .queued (.sema i)
    · simp only [place', ht, if_true]
      exact ⟨fun he => absurd he.symm hp, fun he => absurd he.symm hq⟩
    · simp only [place', ht, if_false]
  have hleft : ∀ t, place' t ≠ .queued (.sema i) := by
    intro t he
    by_cases ht : place t = .queued (.sema i)
    · simp only [place', ht, if_true] at he
      cases he
    · simp only [place', ht, if_false] at he
  refine ⟨place', ⟨fun t => ?_, ?_, ?_, fun w t => ?_, h.all_nodup, fun t => ?_, fun t ht => ?_, ?_,
    ?_, h.distinct⟩, fun t ht => (hplace t .running nofun nofun).mpr ht⟩
  · refine (h.status t).trans ?_
    by_cases ht : place t = .queued (.sema i)
    · simp only [place', ht, if_true, Place.status]
    · simp only [place', ht, if_false]
  · rintro (_ | j)
    · exact h.nodup .ready
    · rw [hqueue]
      split
      · exact List.nodup_nil
      · exact h.nodup _
  · rintro (_ | j) t
    · rw [hplace t (.queued .ready) nofun nofun]
      exact h.mem_queue .ready t
    · rw [hqueue]
      split
      · next hj => simp [hj, hleft]
      · next hj => rw [hplace t (.queued (.sema j)) nofun (by simp [hj]), h.mem_queue]
  · rw [hplace t (.slot w) nofun nofun]
    exact h.waiter w t
  · refine (h.mem_all t).trans (Iff.symm (and_congr (not_congr ?_) (not_congr ?_)))
    · exact hplace t .absent nofun nofun
    · exact hplace t .dead nofun nofun
  · exact h.current t ((hplace t .running nofun nofun).mp ht)
  · rcases h.idle with hi | hi | hi
    · exact .inl ((hplace _ .running nofun nofun).mpr hi)
    · exact .inr (.inl ((hplace _ (.queued .ready) nofun nofun).mpr hi))
    · refine .inr (.inr ?_)
      show (if place s.idleThread = _ then _ else place s.idleThread) = _
      rw [hi, if_neg nofun]
  · rw [Ne, hplace _ .absent nofun nofun]
    exact h.main

/-! ## A thread begins or ends -/

omit [DecidableEq S] [DecidableEq W] in
/-- A new thread joins the ready list and the list of all threads. -/
theorem Agrees.born (h : s.Agrees place) (ht : s.pcb t = none) {p : Pcb} (hp : p.status = .ready)
    (mp : Bitmap) :
    { s with
      pcb := Function.update s.pcb t (some p)
      pidBitmap := mp
      readyList := s.readyList ++ [t]
      allList := s.allList ++ [t] : Threads T S W }.Agrees
      (Function.update place t (.queued .ready)) := by
  have hplace : place t = .absent := by
    rw [← Place.status_none, ← h.status, statusOf, ht]
    rfl
  have hready : t ∉ s.readyList := by
    intro hm
    rw [(h.mem_queue .ready t).mp hm] at hplace
    cases hplace
  have hall : t ∉ s.allList := fun hm => ((h.mem_all t).mp hm).1 hplace
  refine h.move ⟨fun u hu => ?_, ?_, fun _ _ _ => .rfl, fun u hu => ?_, rfl, rfl⟩
    ⟨?_, ?_, fun w => ?_, ?_⟩ ?_ ?_ (h.current_update nofun) (fun _ => .inr (.inl rfl)) fun _ => nofun
  · simp [statusOf, hu]
  · rintro (_ | i) u hu
    · simp [queue, hu]
    · rfl
  · simp [hu]
  · simp [statusOf, hp, Place.status]
  · rintro (_ | i)
    · simp [queue]
    · show t ∈ s.queue (.sema i) ↔ _
      simp [h.mem_queue, hplace]
  · show s.waiter w = some t ↔ _
    simp [h.waiter, hplace]
  · simp [Place.Alive]
  · rintro (_ | i)
    · exact (List.perm_append_singleton _ _).nodup_iff.mpr
        (List.nodup_cons.mpr ⟨hready, h.nodup .ready⟩)
    · exact h.nodup (.sema i)
  · exact (List.perm_append_singleton _ _).nodup_iff.mpr (List.nodup_cons.mpr ⟨hall, h.all_nodup⟩)

omit [DecidableEq S] [DecidableEq W] in
/-- A thread that is in no list dies: its page is freed, or keeps the status `TASK_DIED`. -/
theorem Agrees.die (h : s.Agrees place) (ht : (place t).Loose) (hidle : t ≠ s.idleThread)
    {p : Place S W} (hp : p = .absent ∧ t ≠ s.mainThread ∨ p = .dead) {f : T → Option Pcb}
    (hpcb : (f t).map Pcb.status = p.status) (hother : ∀ u, u ≠ t → f u = s.pcb u)
    (mp : Bitmap) (status : IntrStatus) :
    { s with
      pcb := f
      intr := status
      pidBitmap := mp
      readyList := s.readyList.erase t
      allList := s.allList.erase t : Threads T S W }.Agrees (Function.update place t p) := by
  have hready : t ∉ s.readyList := fun hm => ht.ne_queued _ ((h.mem_queue .ready t).mp hm)
  have hne : ∀ q, p ≠ .queued q := by rcases hp with ⟨rfl, -⟩ | rfl <;> nofun
  refine h.move ⟨fun u hu => ?_, ?_, fun _ _ _ => .rfl, fun u hu => ?_, rfl, rfl⟩
    ⟨hpcb, ?_, fun w => ?_, ?_⟩ ?_ ?_ (h.current_update ?_) (fun hi => absurd hi hidle) fun hm => ?_
  · simp [statusOf, hother u hu]
  · rintro (_ | i) u hu
    · simp [queue, List.mem_erase_of_ne hu]
    · rfl
  · exact List.mem_erase_of_ne hu
  · rintro (_ | i)
    · show t ∈ s.readyList.erase t ↔ _
      rw [List.erase_of_not_mem hready]
      simp [hready, hne]
    · show t ∈ s.queue (.sema i) ↔ _
      simp [h.mem_queue, ht.ne_queued, hne]
  · show s.waiter w = some t ↔ _
    rcases hp with ⟨rfl, -⟩ | rfl <;> simp [h.waiter, ht.ne_slot]
  · show t ∈ s.allList.erase t ↔ _
    rw [h.all_nodup.mem_erase_iff]
    rcases hp with ⟨rfl, -⟩ | rfl <;> simp [Place.Alive]
  · rintro (_ | i)
    · exact (h.nodup .ready).erase t
    · exact h.nodup (.sema i)
  · exact h.all_nodup.erase t
  · rcases hp with ⟨rfl, -⟩ | rfl <;> nofun
  · rcases hp with ⟨-, hne⟩ | rfl
    · exact absurd hm hne
    · nofun

end Threads

end GwOS
