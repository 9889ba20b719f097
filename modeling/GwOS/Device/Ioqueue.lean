import GwOS.Lib.Ring
import GwOS.Thread.Semaphore

/-!
# The input queue (`device/ioqueue.c`)

A queue of characters between the keyboard handler and the threads that read. Every call runs
with interrupts off, so it is atomic up to `thread_block`; a thread blocks in three places, at
`lock_acquire` and in `ioq_wait`, and goes on from there when it is switched to again.

`IoqSys` is one queue with all threads: where each of them is (`IoqPc`) and whether it sleeps.
A step is a call, an interrupt, or a thread that goes on.

- `Reachable.fifo`: in every run the characters returned are the characters put, in order.
-/

namespace GwOS

/-! ## The lock, with interrupts off -/

section Lock

variable {T : Type*} [DecidableEq T]

/-- `lock_acquire` from `semaphore_down` on: `true` when the thread has to block. -/
def lockDown (lock : Lock T) (running : T) : Except Fault (Lock T × Bool) := do
  let (sema, blocks) ← semaphoreDown lock.semaphore running
  let lock := { lock with semaphore := sema }
  if blocks then .ok (lock, true)
  else if lock.holderRepeatCnt = 0 then
    .ok ({ lock with holder := some running, holderRepeatCnt := 1 }, false)
  else .error .assert

/-- `lock_acquire`. -/
def lockAcquire (lock : Lock T) (running : T) : Except Fault (Lock T × Bool) :=
  if lock.holder ≠ some running then lockDown lock running
  else .ok ({ lock with holderRepeatCnt := lock.holderRepeatCnt + 1 }, false)

/-- `lock_release`, with the thread it unblocks. -/
def lockRelease (lock : Lock T) : Except Fault (Lock T × Option T) :=
  if lock.holderRepeatCnt > 1 then
    .ok ({ lock with holderRepeatCnt := lock.holderRepeatCnt - 1 }, none)
  else if lock.holderRepeatCnt = 1 then
    let (sema, w) := semaphoreUp lock.semaphore
    .ok ({ holder := none, holderRepeatCnt := 0, semaphore := sema }, w)
  else .error .assert

end Lock

/-! ## The queue -/

/-- `BUF_SIZE`. -/
def bufSize : Nat := 64

/-- `struct ioqueue`. -/
structure Ioqueue (T : Type*) where
  lock : Lock T
  producer : Option T
  consumer : Option T
  buf : Vector UInt8 bufSize
  head : Nat
  tail : Nat

/-- `get_next_pos`. -/
def getNextPos (pos : Nat) : Nat := (pos + 1) % bufSize

namespace Ioqueue

variable {T : Type*}

/-- `ioqueue_init`, which leaves the buffer as it is. -/
def init (buf : Vector UInt8 bufSize) : Ioqueue T := ⟨lockInit, none, none, buf, 0, 0⟩

/-- `is_ioq_full`. -/
def isIoqFull (q : Ioqueue T) : Bool := getNextPos q.head = q.tail

/-- `is_ioq_empty`. -/
def isIoqEmpty (q : Ioqueue T) : Bool := q.head = q.tail

/-- `q->buf[q->tail]` and the step of `tail`. -/
def read (q : Ioqueue T) : Except Fault (UInt8 × Ioqueue T) :=
  if h : q.tail < bufSize then .ok (q.buf.get ⟨q.tail, h⟩, { q with tail := getNextPos q.tail })
  else .error .outOfBounds

/-- `q->buf[q->head] = c` and the step of `head`. -/
def write (q : Ioqueue T) (c : UInt8) : Except Fault (Ioqueue T) :=
  if h : q.head < bufSize then
    .ok { q with buf := q.buf.set q.head c h, head := getNextPos q.head }
  else .error .outOfBounds

/-- The cell at a position, for `Ring.Holds`. -/
def cell (q : Ioqueue T) (pos : Nat) : UInt8 := if h : pos < bufSize then q.buf.get ⟨pos, h⟩ else 0

/-- The queue holds the characters of `l`, the oldest first. -/
def Holds (q : Ioqueue T) (l : List UInt8) : Prop := Ring.Holds bufSize q.cell q.tail q.head l

variable {q q' : Ioqueue T} {l : List UInt8} {c : UInt8}

theorem holds_init (buf : Vector UInt8 bufSize) : (init buf : Ioqueue T).Holds [] :=
  .nil (show 0 < 64 by decide)

/-- The lock and the waiting threads are no part of the ring. -/
theorem Holds.congr (h : q.Holds l) (hbuf : q'.buf = q.buf) (hhead : q'.head = q.head)
    (htail : q'.tail = q.tail) : q'.Holds l := by
  have hcell : q'.cell = q.cell := by
    funext pos
    rw [cell, cell, hbuf]
  rw [Holds, hcell, hhead, htail]
  exact h

theorem Holds.isIoqEmpty_iff (h : q.Holds l) : q.isIoqEmpty = true ↔ l = [] := by
  rw [isIoqEmpty, decide_eq_true_iff]
  exact h.empty_iff

theorem Holds.isIoqFull_iff (h : q.Holds l) : q.isIoqFull = true ↔ l.length = 63 := by
  rw [isIoqFull, decide_eq_true_iff, getNextPos]
  refine h.full_iff.trans ?_
  rw [bufSize]
  omega

theorem Holds.read (h : q.Holds (c :: l)) :
    q.read = .ok (c, { q with tail := getNextPos q.tail }) ∧
      Holds { q with tail := getNextPos q.tail } l := by
  obtain ⟨hc, hrest⟩ := Ring.Holds.pop h
  rw [cell, dif_pos h.tail_lt] at hc
  refine ⟨?_, hrest⟩
  rw [Ioqueue.read, dif_pos h.tail_lt, hc]

theorem Holds.write (h : q.Holds l) (hfull : q.isIoqFull = false) (c : UInt8) :
    ∃ buf, q.write c = .ok { q with buf, head := getNextPos q.head } ∧
      Holds { q with buf, head := getNextPos q.head } (l ++ [c]) := by
  have hlt : q.head < bufSize := h.head_lt
  refine ⟨q.buf.set q.head c hlt, by rw [Ioqueue.write, dif_pos hlt], ?_⟩
  have hroom : l.length + 1 < bufSize := by
    have hne : l.length ≠ 63 := fun he => by
      rw [h.isIoqFull_iff.mpr he] at hfull
      cases hfull
    have := h.length_lt
    rw [bufSize] at this ⊢
    omega
  refine Ring.Holds.push h hroom ?_ fun pos hpos => ?_
  · rw [cell, dif_pos hlt]
    exact Vector.getElem_set_self hlt
  · rw [cell, cell]
    split
    · next hp => exact Vector.getElem_set_ne hlt hp (Ne.symm hpos)
    · rfl

end Ioqueue

/-! ## Threads on one queue -/

/-- The places where a thread blocks in `ioq_getchar` and `ioq_putchar`. -/
inductive IoqPc where
  /-- At none of them. Between two steps such a thread is outside of both functions. -/
  | outside
  /-- `ioq_getchar`, in `lock_acquire`. -/
  | getLock
  /-- `ioq_getchar`, in `ioq_wait`. -/
  | getWait
  /-- `ioq_putchar`, in `lock_acquire` before `ioq_wait`. -/
  | putLock (c : UInt8)
  /-- `ioq_putchar`, in `ioq_wait`. -/
  | putWait (c : UInt8)
  /-- `ioq_putchar`, in `lock_acquire` after `ioq_wait`. -/
  | putRelock (c : UInt8)
  deriving DecidableEq

/-- One queue with all threads, and the characters that have been through it. -/
structure IoqSys (T : Type*) where
  q : Ioqueue T
  pc : T → IoqPc
  /-- The status of the thread is `TASK_BLOCKED`. -/
  asleep : T → Bool
  /-- The characters put so far, the oldest first. -/
  put : List UInt8
  /-- The characters that `ioq_getchar` has returned so far. -/
  got : List UInt8

namespace IoqSys

variable {T : Type*} [DecidableEq T]

/-- The queue as `ioqueue_init` leaves it, every thread outside. -/
def init (buf : Vector UInt8 bufSize) : IoqSys T :=
  ⟨Ioqueue.init buf, fun _ => .outside, fun _ => false, [], []⟩

def goto (s : IoqSys T) (t : T) (pc : IoqPc) (asleep : Bool) : IoqSys T :=
  { s with pc := Function.update s.pc t pc, asleep := Function.update s.asleep t asleep }

def setLock (s : IoqSys T) (lock : Lock T) : IoqSys T := { s with q := { s.q with lock } }

/-- `thread_unblock`. -/
def threadUnblock (s : IoqSys T) (t : T) : Except Fault (IoqSys T) :=
  if s.asleep t then .ok { s with asleep := Function.update s.asleep t false }
  else .error .assert

/-- What `lock_release` does with the thread it takes off the waiters. -/
def unblockWaiter (s : IoqSys T) (w : Option T) : Except Fault (IoqSys T) :=
  match w with
  | none => .ok s
  | some t => s.threadUnblock t

/-- `if (q->consumer != NULL) wakeup(&q->consumer)` -/
def wakeupConsumer (s : IoqSys T) : Except Fault (IoqSys T) :=
  match s.q.consumer with
  | none => .ok s
  | some t => do
    let s ← s.threadUnblock t
    .ok { s with q := { s.q with consumer := none } }

/-- `if (q->producer != NULL) wakeup(&q->producer)` -/
def wakeupProducer (s : IoqSys T) : Except Fault (IoqSys T) :=
  match s.q.producer with
  | none => .ok s
  | some t => do
    let s ← s.threadUnblock t
    .ok { s with q := { s.q with producer := none } }

/-- `ioq_wait(&q->consumer)` -/
def waitConsumer (s : IoqSys T) (t : T) : Except Fault (IoqSys T) :=
  match s.q.consumer with
  | some _ => .error .assert
  | none => .ok (goto { s with q := { s.q with consumer := some t } } t .getWait true)

/-- `ioq_wait(&q->producer)` -/
def waitProducer (s : IoqSys T) (t : T) (c : UInt8) : Except Fault (IoqSys T) :=
  match s.q.producer with
  | some _ => .error .assert
  | none => .ok (goto { s with q := { s.q with producer := some t } } t (.putWait c) true)

/-- `ioq_getchar` after its loop. -/
def take (s : IoqSys T) (t : T) : Except Fault (IoqSys T) := do
  let (c, q) ← s.q.read
  let s ← wakeupProducer { s with q }
  .ok (goto { s with got := s.got ++ [c] } t .outside false)

/-- The body of the loop of `ioq_getchar`, once `lock_acquire` has blocked or returned. -/
def getLocked (s : IoqSys T) (t : T) (lock : Lock T) (blocks : Bool) : Except Fault (IoqSys T) :=
  let s := s.setLock lock
  if blocks then .ok (s.goto t .getLock true) else s.waitConsumer t

/-- `ioq_getchar`, from the test of its loop. -/
def ioqGetchar (s : IoqSys T) (t : T) : Except Fault (IoqSys T) :=
  if s.q.isIoqEmpty then do
    let (lock, blocks) ← lockAcquire s.q.lock t
    s.getLocked t lock blocks
  else s.take t

/-- `ioq_putchar` after its loop. -/
def store (s : IoqSys T) (c : UInt8) : Except Fault (IoqSys T) := do
  let q ← s.q.write c
  wakeupConsumer { s with q, put := s.put ++ [c] }

/-- The body of the loop of `ioq_putchar`, once the first `lock_acquire` has blocked or
returned. -/
def putLocked (s : IoqSys T) (t : T) (c : UInt8) (lock : Lock T) (blocks : Bool) :
    Except Fault (IoqSys T) :=
  let s := s.setLock lock
  if blocks then .ok (s.goto t (.putLock c) true) else s.waitProducer t c

/-- `ioq_putchar`, from the test of its loop. -/
def ioqPutchar (s : IoqSys T) (t : T) (c : UInt8) : Except Fault (IoqSys T) :=
  if s.q.isIoqFull then do
    let (lock, blocks) ← lockAcquire s.q.lock t
    s.putLocked t c lock blocks
  else do
    let s ← s.store c
    .ok (s.goto t .outside false)

/-- The end of the loop of `ioq_putchar`, once its second `lock_acquire` has blocked or
returned. -/
def putRelocked (s : IoqSys T) (t : T) (c : UInt8) (lock : Lock T) (blocks : Bool) :
    Except Fault (IoqSys T) :=
  let s := s.setLock lock
  if blocks then .ok (s.goto t (.putRelock c) true) else s.ioqPutchar t c

/-- The thread is switched to again and leaves the place where it has blocked. -/
def resume (s : IoqSys T) (t : T) : Except Fault (IoqSys T) :=
  let s' := s.goto t .outside false
  match s.pc t with
  | .outside => .ok s'
  | .getLock => do
    let (lock, blocks) ← lockDown s.q.lock t
    s'.getLocked t lock blocks
  | .getWait => do
    let (lock, w) ← lockRelease s.q.lock
    let s' ← (s'.setLock lock).unblockWaiter w
    s'.ioqGetchar t
  | .putLock c => do
    let (lock, blocks) ← lockDown s.q.lock t
    s'.putLocked t c lock blocks
  | .putWait c => do
    -- the source calls `lock_acquire` a second time, and `lock_release` never
    let (lock, blocks) ← lockAcquire s.q.lock t
    s'.putRelocked t c lock blocks
  | .putRelock c => do
    let (lock, blocks) ← lockDown s.q.lock t
    s'.putRelocked t c lock blocks

/-- What can happen next. -/
inductive Act (T : Type*) where
  | getchar (t : T)
  | putchar (t : T) (c : UInt8)
  /-- The keyboard handler, which calls `ioq_putchar` when the queue is not full. -/
  | interrupt (c : UInt8)
  | resume (t : T)

/-- When it can happen. A thread that sleeps does nothing. -/
def Enabled (s : IoqSys T) : Act T → Prop
  | .getchar t | .putchar t _ => s.pc t = .outside
  | .interrupt _ => s.q.isIoqFull = false
  | .resume t => s.pc t ≠ .outside ∧ s.asleep t = false

def exec (s : IoqSys T) : Act T → Except Fault (IoqSys T)
  | .getchar t => s.ioqGetchar t
  | .putchar t c => s.ioqPutchar t c
  | .interrupt c => s.store c
  | .resume t => s.resume t

/-- One step of the system, as far as `Allowed` lets it happen. -/
def Step (Allowed : IoqSys T → Act T → Prop) (s s' : IoqSys T) : Prop :=
  ∃ a, s.Enabled a ∧ Allowed s a ∧ s.exec a = .ok s'

/-- The states of the runs whose steps are all allowed. -/
def Reachable (Allowed : IoqSys T → Act T → Prop) (buf : Vector UInt8 bufSize) (s : IoqSys T) :
    Prop :=
  Relation.ReflTransGen (Step Allowed) (init buf) s

instance (s : IoqSys T) : ∀ a : Act T, Decidable (s.Enabled a)
  | .getchar t | .putchar t _ => inferInstanceAs (Decidable (s.pc t = .outside))
  | .interrupt _ => inferInstanceAs (Decidable (s.q.isIoqFull = false))
  | .resume t => inferInstanceAs (Decidable (s.pc t ≠ .outside ∧ s.asleep t = false))

/-- Runs a list of steps, as long as each can happen and is allowed. -/
def runActs (allowed : IoqSys T → Act T → Bool) (s : IoqSys T) : List (Act T) →
    Except Fault (IoqSys T)
  | [] => .ok s
  | a :: l =>
    if s.Enabled a ∧ allowed s a = true then do
      let s' ← s.exec a
      runActs allowed s' l
    else .error .assert

theorem runActs_reachable {Allowed : IoqSys T → Act T → Prop} {allowed : IoqSys T → Act T → Bool}
    (hall : ∀ s a, allowed s a = true → Allowed s a) {buf : Vector UInt8 bufSize} {l : List (Act T)} :
    ∀ {s s' : IoqSys T}, Reachable Allowed buf s → s.runActs allowed l = .ok s' →
      Reachable Allowed buf s' := by
  induction l with
  | nil =>
    intro s s' hr hok
    cases hok
    exact hr
  | cons a l ih =>
    intro s s' hr hok
    rw [runActs] at hok
    split at hok
    · next ha =>
      obtain ⟨s₁, hexec, hrest⟩ := bind_eq_ok.mp hok
      exact ih (hr.tail ⟨a, ha.1, hall s a ha.2, hexec⟩) hrest
    · cases hok

/-! ## First in, first out -/

/-- The pending characters are those that have been put and not yet been returned. -/
def Fifo (s : IoqSys T) : Prop := ∃ l, s.q.Holds l ∧ s.put = s.got ++ l

section Fifo

variable {s s' : IoqSys T} {t : T} {c : UInt8}

omit [DecidableEq T] in
theorem Fifo.congr (h : s.Fifo) (hbuf : s'.q.buf = s.q.buf) (hhead : s'.q.head = s.q.head)
    (htail : s'.q.tail = s.q.tail) (hput : s'.put = s.put) (hgot : s'.got = s.got) : s'.Fifo := by
  obtain ⟨l, hl, hp⟩ := h
  exact ⟨l, hl.congr hbuf hhead htail, by rw [hput, hgot, hp]⟩

theorem Fifo.goto (h : s.Fifo) (t : T) (pc : IoqPc) (b : Bool) : (s.goto t pc b).Fifo :=
  h.congr rfl rfl rfl rfl rfl

omit [DecidableEq T] in
theorem Fifo.setLock (h : s.Fifo) (lock : Lock T) : (s.setLock lock).Fifo :=
  h.congr rfl rfl rfl rfl rfl

theorem Fifo.threadUnblock (h : s.Fifo) (t : T) : Returns (s.threadUnblock t) Fifo := by
  rw [IoqSys.threadUnblock]
  split
  · exact .ok (h.congr rfl rfl rfl rfl rfl)
  · exact .error _

theorem Fifo.unblockWaiter (h : s.Fifo) (w : Option T) : Returns (s.unblockWaiter w) Fifo := by
  cases w with
  | none => exact .ok h
  | some t => exact h.threadUnblock t

theorem Fifo.wakeupConsumer (h : s.Fifo) : Returns s.wakeupConsumer Fifo := by
  rw [IoqSys.wakeupConsumer]
  split
  · exact .ok h
  · exact (h.threadUnblock _).bind fun s₁ h₁ => .ok (h₁.congr rfl rfl rfl rfl rfl)

theorem Fifo.wakeupProducer (h : s.Fifo) : Returns s.wakeupProducer Fifo := by
  rw [IoqSys.wakeupProducer]
  split
  · exact .ok h
  · exact (h.threadUnblock _).bind fun s₁ h₁ => .ok (h₁.congr rfl rfl rfl rfl rfl)

theorem Fifo.waitConsumer (h : s.Fifo) (t : T) : Returns (s.waitConsumer t) Fifo := by
  rw [IoqSys.waitConsumer]
  split
  · exact .error _
  · exact .ok (h.congr rfl rfl rfl rfl rfl)

theorem Fifo.waitProducer (h : s.Fifo) (t : T) (c : UInt8) : Returns (s.waitProducer t c) Fifo := by
  rw [IoqSys.waitProducer]
  split
  · exact .error _
  · exact .ok (h.congr rfl rfl rfl rfl rfl)

/-- A character is returned: the oldest one that is pending. -/
theorem Fifo.take (h : s.Fifo) (hne : s.q.isIoqEmpty = false) (t : T) :
    Returns (s.take t) Fifo := by
  obtain ⟨l, hl, hput⟩ := h
  cases l with
  | nil =>
    rw [hl.isIoqEmpty_iff.mpr rfl] at hne
    cases hne
  | cons c l =>
    obtain ⟨hread, hrest⟩ := hl.read
    rw [IoqSys.take, hread]
    -- what the queue holds does not change while the producer is woken
    have hwake : Returns (IoqSys.wakeupProducer { s with q := { s.q with tail := getNextPos s.q.tail } })
        fun s₁ => s₁.q.Holds l ∧ s₁.put = s₁.got ++ c :: l := by
      rw [IoqSys.wakeupProducer]
      split
      · exact .ok ⟨hrest, hput⟩
      · rw [IoqSys.threadUnblock]
        split
        · exact .ok ⟨hrest.congr rfl rfl rfl, hput⟩
        · exact .error _
    refine hwake.bind fun s₁ ⟨hl₁, hp₁⟩ => .ok ⟨l, hl₁, ?_⟩
    rw [IoqSys.goto, hp₁, List.append_assoc]
    rfl

/-- A character is put: it becomes the newest one that is pending. -/
theorem Fifo.store (h : s.Fifo) (hfull : s.q.isIoqFull = false) (c : UInt8) :
    Returns (s.store c) Fifo := by
  obtain ⟨l, hl, hput⟩ := h
  obtain ⟨buf, hwrite, hl'⟩ := hl.write hfull c
  rw [IoqSys.store, hwrite]
  refine Fifo.wakeupConsumer ⟨l ++ [c], hl', ?_⟩
  rw [hput, List.append_assoc]

theorem store_put (s : IoqSys T) (c : UInt8) :
    Returns (s.store c) fun s' => s'.put = s.put ++ [c] := by
  rw [IoqSys.store]
  refine Returns.any.bind fun q _ => ?_
  rw [IoqSys.wakeupConsumer]
  split
  · exact .ok rfl
  · rw [IoqSys.threadUnblock]
    split
    · exact .ok rfl
    · exact .error _

theorem Fifo.getLocked (h : s.Fifo) (t : T) (lock : Lock T) (b : Bool) :
    Returns (s.getLocked t lock b) Fifo := by
  rw [IoqSys.getLocked]
  split
  · exact .ok ((h.setLock lock).goto t _ _)
  · exact (h.setLock lock).waitConsumer t

theorem Fifo.ioqGetchar (h : s.Fifo) (t : T) : Returns (s.ioqGetchar t) Fifo := by
  rw [IoqSys.ioqGetchar]
  split
  · exact Returns.any.bind fun r _ => h.getLocked t r.1 r.2
  · next hne => exact h.take (Bool.eq_false_iff.mpr hne) t

theorem Fifo.putLocked (h : s.Fifo) (t : T) (c : UInt8) (lock : Lock T) (b : Bool) :
    Returns (s.putLocked t c lock b) Fifo := by
  rw [IoqSys.putLocked]
  split
  · exact .ok ((h.setLock lock).goto t _ _)
  · exact (h.setLock lock).waitProducer t c

theorem Fifo.ioqPutchar (h : s.Fifo) (t : T) (c : UInt8) : Returns (s.ioqPutchar t c) Fifo := by
  rw [IoqSys.ioqPutchar]
  split
  · exact Returns.any.bind fun r _ => h.putLocked t c r.1 r.2
  · next hne =>
    exact (h.store (Bool.eq_false_iff.mpr hne) c).bind fun s₁ h₁ => .ok (h₁.goto t _ _)

theorem Fifo.putRelocked (h : s.Fifo) (t : T) (c : UInt8) (lock : Lock T) (b : Bool) :
    Returns (s.putRelocked t c lock b) Fifo := by
  rw [IoqSys.putRelocked]
  split
  · exact .ok ((h.setLock lock).goto t _ _)
  · exact (h.setLock lock).ioqPutchar t c

theorem Fifo.resume (h : s.Fifo) (t : T) : Returns (s.resume t) Fifo := by
  have h' := h.goto t .outside false
  rw [IoqSys.resume]
  cases s.pc t with
  | outside => exact .ok h'
  | getLock => exact Returns.any.bind fun r _ => h'.getLocked t r.1 r.2
  | getWait =>
    refine Returns.any.bind fun r _ => ?_
    exact ((h'.setLock r.1).unblockWaiter r.2).bind fun s₁ h₁ => h₁.ioqGetchar t
  | putLock c => exact Returns.any.bind fun r _ => h'.putLocked t c r.1 r.2
  | putWait c => exact Returns.any.bind fun r _ => h'.putRelocked t c r.1 r.2
  | putRelock c => exact Returns.any.bind fun r _ => h'.putRelocked t c r.1 r.2

/-- **One step** of any thread, with any queue before it, keeps the order. -/
theorem Fifo.exec (h : s.Fifo) {a : Act T} (ha : s.Enabled a) : Returns (s.exec a) Fifo := by
  cases a with
  | getchar t => exact h.ioqGetchar t
  | putchar t c => exact h.ioqPutchar t c
  | interrupt c => exact h.store ha c
  | resume t => exact h.resume t

theorem Reachable.fifo {Allowed : IoqSys T → Act T → Prop} {buf : Vector UInt8 bufSize}
    (hr : Reachable Allowed buf s) : s.Fifo := by
  induction hr with
  | refl => exact ⟨[], Ioqueue.holds_init buf, rfl⟩
  | tail _ hstep ih =>
    obtain ⟨a, ha, -, hok⟩ := hstep
    exact ih.exec ha _ hok

end Fifo

end IoqSys

end GwOS
