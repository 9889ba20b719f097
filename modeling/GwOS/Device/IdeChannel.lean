import GwOS.Lib.Trace
import GwOS.Device.Ide
import GwOS.Thread.LockCalls
import GwOS.Thread.Semaphore

/-!
# Commands and interrupts of an IDE channel (`device/ide.c`)

`ide_read` and `ide_write` hold the lock of the channel while they work. For each round they
set `expecting_intr`, give the command to the drive, and wait for `disk_done` (a read before
it moves the data, a write after it). `intr_hd_handler` answers an interrupt with one
`semaphore_up`, if `expecting_intr` is set, and clears the flag.

`IdeSys` is one channel with its two disks and all threads, one statement at a time; the
lock is the one of `LockSys`. An interrupt may come between any two statements, whether the
drive has a reason for it or not. The system calls that use the driver run with interrupts
off, up to `thread_block`, so an interrupt does not come in the middle of `cmd_out`: `Masked`
says so. The results do not need it, but for the order of the two events in the middle.

- `ideChannel_paired`: `disk_done` is zero or one, no semaphore fails its `ASSERT`, and each
  `semaphore_down` on it takes the one `semaphore_up` of the command it waits for.
-/

namespace GwOS

/-! ## The driver -/

/-- A call of `ide_read` or `ide_write`. -/
structure IdeReq where
  write : Bool
  /-- `hd->dev_no == 1` -/
  hd : Bool
  lba : UInt32
  secCnt : UInt32
  deriving DecidableEq

/-- The next statement of a thread in `ide_read` or `ide_write`, with `secs_done`. -/
inductive IdePc where
  | outside
  /-- In `lock_acquire`. -/
  | acquire (r : IdeReq)
  /-- `while (secs_done < sec_cnt)`, up to `select_sector`. -/
  | round (r : IdeReq) (secsDone : UInt32)
  /-- `channel->expecting_intr = true`, in `cmd_out`. -/
  | flag (r : IdeReq) (secsDone : UInt32)
  /-- `outb(reg_cmd(channel), cmd)`, in `cmd_out`. -/
  | out (r : IdeReq) (secsDone : UInt32)
  /-- `semaphore_down(&channel->disk_done)`, at its test. -/
  | down (r : IdeReq) (secsDone : UInt32)
  /-- In the `thread_block` of `semaphore_down`. -/
  | blocked (r : IdeReq) (secsDone : UInt32)
  /-- `busy_wait`, then `read_from_sector` or `write2sector`. -/
  | transfer (r : IdeReq) (secsDone : UInt32)
  /-- In `lock_release`. -/
  | release
  deriving DecidableEq

/-- What happens on a channel. -/
inductive IdeEvent (T : Type*) where
  /-- `cmd_out` of the thread sets `expecting_intr`. -/
  | flag (t : T)
  /-- `cmd_out` of the thread writes the command register. -/
  | out (t : T)
  /-- `intr_hd_handler` calls `semaphore_up(&channel->disk_done)`. -/
  | up
  /-- `semaphore_down(&channel->disk_done)` of the thread decrements the value. -/
  | down (t : T)
  deriving DecidableEq

/-- A channel and the threads that use it. -/
structure IdeSys (T : Type*) where
  /-- `channel->lock`, and where each thread is in its calls. -/
  locks : LockSys T Unit
  expectingIntr : Bool
  diskDone : Semaphore T
  pc : T → IdePc
  log : List (IdeEvent T)

namespace IdeSys

variable {T : Type*} [DecidableEq T]

/-- The channel as `ide_init` leaves it. -/
def init : IdeSys T := ⟨LockSys.init, false, semaphoreInit 0, fun _ => .outside, []⟩

def goto (s : IdeSys T) (t : T) (pc : IdePc) : IdeSys T :=
  { s with pc := Function.update s.pc t pc }

/-- A call of `ide_read` or `ide_write`, up to its `lock_acquire`. -/
def call (s : IdeSys T) (t : T) (r : IdeReq) : Except Fault (IdeSys T) :=
  if r.lba ≤ maxLba ∧ 0 < r.secCnt then
    .ok (goto { s with locks := s.locks.goto t (.testHolder ()) } t (.acquire r))
  else .error .assert

/-- The next statement of a thread in a call of the lock; `next` is where it goes on. -/
def lockStatement (s : IdeSys T) (t : T) (next : IdePc) : Option (Except Fault (IdeSys T)) :=
  if s.locks.pc t = .idle then some (.ok (s.goto t next))
  else
    match s.locks.exec t with
    | none => none
    | some (.error e) => some (.error e)
    | some (.ok locks) => some (.ok { s with locks })

/-- The round after the one at `secs_done`. -/
def nextRound (r : IdeReq) (secsDone : UInt32) : IdePc :=
  .round r (secsDone + Drive.secsOp secsDone r.secCnt)

/-- One round of the loop of `semaphore_down(&channel->disk_done)`. -/
def waitDone (s : IdeSys T) (t : T) (r : IdeReq) (secsDone : UInt32) : Except Fault (IdeSys T) :=
  match semaphoreDown s.diskDone t with
  | .error e => .error e
  | .ok (diskDone, true) => .ok (goto { s with diskDone } t (.blocked r secsDone))
  | .ok (diskDone, false) =>
    .ok (goto { s with diskDone, log := s.log ++ [.down t] } t
      (if r.write then nextRound r secsDone else .transfer r secsDone))

/-- The next statement of the thread `t`, `none` when it has none to make; `ready` is what
`busy_wait` returns. -/
def exec (s : IdeSys T) (t : T) (ready : Bool) : Option (Except Fault (IdeSys T)) :=
  match s.pc t with
  | .outside => none
  | .acquire r => s.lockStatement t (.round r 0)
  | .round r secsDone =>
    if secsDone < r.secCnt then
      if r.lba + secsDone ≤ maxLba then some (.ok (s.goto t (.flag r secsDone)))
      else some (.error .assert)
    else some (.ok (goto { s with locks := s.locks.goto t (.testCnt ()) } t .release))
  | .flag r secsDone =>
    some (.ok (goto { s with expectingIntr := true, log := s.log ++ [.flag t] } t (.out r secsDone)))
  | .out r secsDone =>
    some (.ok (goto { s with log := s.log ++ [.out t] } t
      (if r.write then .transfer r secsDone else .down r secsDone)))
  | .down r secsDone => some (s.waitDone t r secsDone)
  | .blocked _ _ => none
  | .transfer r secsDone =>
    if ready then
      some (.ok (s.goto t (if r.write then .down r secsDone else nextRound r secsDone)))
    else some (.error .assert)
  | .release => s.lockStatement t .outside

/-- `thread_unblock` of the thread that `semaphore_up` takes off the waiters. -/
def threadUnblock (s : IdeSys T) (w : Option T) : Except Fault (IdeSys T) :=
  match w with
  | none => .ok s
  | some t =>
    match s.pc t with
    | .blocked r secsDone => .ok (s.goto t (.down r secsDone))
    | _ => .error .assert

/-- `intr_hd_handler` -/
def intrHdHandler (s : IdeSys T) : Except Fault (IdeSys T) :=
  if s.expectingIntr then
    let (diskDone, w) := semaphoreUp s.diskDone
    threadUnblock { s with expectingIntr := false, diskDone, log := s.log ++ [.up] } w
  else .ok s

/-- One step: a thread calls the driver or makes its next statement, or an interrupt comes; when
interrupts are masked in the driver, not in the middle of `cmd_out`. -/
inductive Step (Masked : Prop) (s : IdeSys T) : IdeSys T → Prop
  | call (t : T) (r : IdeReq) (s' : IdeSys T) (hpc : s.pc t = .outside)
      (h : s.call t r = .ok s') : Step Masked s s'
  | exec (t : T) (ready : Bool) (s' : IdeSys T) (h : s.exec t ready = some (.ok s')) :
      Step Masked s s'
  | interrupt (s' : IdeSys T) (hm : Masked → ∀ t r secsDone, s.pc t ≠ .out r secsDone)
      (h : s.intrHdHandler = .ok s') : Step Masked s s'

/-- The states that the threads and the interrupts can bring about. -/
def Reachable (Masked : Prop) (s : IdeSys T) : Prop := Relation.ReflTransGen (Step Masked) init s

/-! ## The invariant -/

end IdeSys

namespace IdePc

/-- Where the thread can be with the lock of the channel. -/
def Allows : IdePc → LockSys.Stage → Prop
  | .outside, g => g = .outside
  | .acquire _, g => g = .acquiring ∨ g = .holding
  | .release, g => g = .releasing ∨ g = .outside
  | _, g => g = .holding

/-- The thread has given its command to the drive and has not yet taken the answer. -/
def Waiting : IdePc → Prop
  | .transfer r _ => r.write = true
  | .down _ _ | .blocked _ _ => True
  | _ => False

/-- The thread is in the middle of `cmd_out`. -/
def AtOut : IdePc → Prop
  | .out _ _ => True
  | _ => False

def Pending (p : IdePc) : Prop := p.AtOut ∨ p.Waiting

def Blocked : IdePc → Prop
  | .blocked _ _ => True
  | _ => False

/-- The thread has the lock. -/
def Inside (p : IdePc) : Prop := ∀ g, p.Allows g → g = .holding

theorem Pending.inside {p : IdePc} (h : p.Pending) : p.Inside := by
  rcases h with h | h <;> cases p <;> first | exact h.elim | exact fun _ hg => hg

end IdePc

namespace IdeSys

section Log

variable {T : Type*}

/-- The last command on the channel is one of the thread, and the handler has answered it. -/
def Answered (Masked : Prop) (t : T) (log : List (IdeEvent T)) : Prop :=
  (∃ p, log = p ++ [.flag t, .out t, .up]) ∨ (¬ Masked ∧ ∃ p, log = p ++ [.flag t, .up, .out t])

/-- Each `semaphore_down` comes right after the answer to the command of its thread. -/
def Paired (Masked : Prop) (log : List (IdeEvent T)) : Prop :=
  ∀ before t after, log = before ++ .down t :: after → Answered Masked t before

variable {Masked : Prop} {log : List (IdeEvent T)} {t : T}

/-- What one more event has to satisfy. -/
theorem Paired.snoc (h : Paired Masked log) {e : IdeEvent T}
    (he : ∀ t, e = .down t → Answered Masked t log) : Paired Masked (log ++ [e]) := by
  intro before t after heq
  rcases snoc_split heq with ⟨rfl, hd, -⟩ | ⟨after', -, hlog⟩
  · exact he t hd.symm
  · exact h before t after' hlog

end Log

variable {T : Type*} [DecidableEq T]

/-- What has become of the last command. -/
inductive Phase (Masked : Prop) (s : IdeSys T) : Prop
  /-- Its thread has taken the answer, or there has been none. -/
  | quiet (he : s.expectingIntr = false) (hv : s.diskDone.value = 0)
      (hn : ∀ t, ¬ (s.pc t).Pending)
  /-- The flag is set, and the command register not yet written. -/
  | flagged (t : T) (he : s.expectingIntr = true) (hv : s.diskDone.value = 0)
      (hp : (s.pc t).AtOut) (hlog : ∃ p, s.log = p ++ [.flag t])
  /-- The drive has the command. -/
  | issued (t : T) (he : s.expectingIntr = true) (hv : s.diskDone.value = 0)
      (hp : (s.pc t).Waiting) (hlog : ∃ p, s.log = p ++ [.flag t, .out t])
  /-- An interrupt has come between the two statements of `cmd_out`. -/
  | early (t : T) (he : s.expectingIntr = false) (hv : s.diskDone.value = 1)
      (hp : (s.pc t).AtOut) (hm : ¬ Masked) (hlog : ∃ p, s.log = p ++ [.flag t, .up])
  /-- The handler has answered the command. -/
  | signalled (t : T) (he : s.expectingIntr = false) (hv : s.diskDone.value = 1)
      (hp : (s.pc t).Waiting) (hlog : Answered Masked t s.log)

structure Inv (Masked : Prop) (s : IdeSys T) : Prop where
  locks : s.locks.Inv
  stage : ∀ t, ∃ g, (s.pc t).Allows g ∧ s.locks.At t () g
  waits : s.diskDone.Waits fun t => (s.pc t).Blocked
  phase : s.Phase Masked
  paired : Paired Masked s.log

section Inv

variable {Masked : Prop} {s s' : IdeSys T} {t u : T}

omit [DecidableEq T] in
theorem inv_init : (init : IdeSys T).Inv Masked where
  locks := LockSys.inv_init
  stage t := ⟨.outside, rfl, LockSys.at_init t ()⟩
  waits := ⟨fun _ => ⟨fun h => absurd h List.not_mem_nil, False.elim⟩, List.nodup_nil⟩
  phase := .quiet rfl rfl fun _ h => h.elim id id
  paired before t after h := by
    cases before <;> cases h

omit [DecidableEq T] in
theorem Inv.depth (h : s.Inv Masked) (ht : (s.pc t).Inside) : s.locks.depth t () = 1 := by
  obtain ⟨g, hg, hat⟩ := h.stage t
  cases ht g hg
  exact hat.2

omit [DecidableEq T] in
/-- One thread at most is inside. -/
theorem Inv.inside_unique (h : s.Inv Masked) (ht : (s.pc t).Inside) (hu : (s.pc u).Inside) :
    t = u := by
  classical
  exact h.locks.depth_unique (Nat.le_of_eq (h.depth ht).symm) (Nat.le_of_eq (h.depth hu).symm)

omit [DecidableEq T] in
/-- Between two commands nothing is under way. -/
theorem Inv.quiet (h : s.Inv Masked) (ht : (s.pc t).Inside) (hp : ¬ (s.pc t).Pending) :
    s.expectingIntr = false ∧ s.diskDone.value = 0 ∧ ∀ u, ¬ (s.pc u).Pending := by
  have hno : ∀ u, ¬ (s.pc u).Pending := by
    intro u hu
    cases h.inside_unique ht hu.inside
    exact hp hu
  cases h.phase with
  | quiet he hv hn => exact ⟨he, hv, hn⟩
  | flagged u _ _ hu | early u _ _ hu => exact absurd (.inl hu) (hno u)
  | issued u _ _ hu | signalled u _ _ hu => exact absurd (.inr hu) (hno u)

/-- The threads are where they can be, when one of them has moved on. -/
theorem Inv.stage_goto (h : s.Inv Masked) {p : IdePc} {locks : LockSys T Unit}
    (hself : ∃ g, p.Allows g ∧ locks.At t () g)
    (hother : ∀ u ≠ t, ∀ g, s.locks.At u () g → locks.At u () g) (u : T) :
    ∃ g, (Function.update s.pc t p u).Allows g ∧ locks.At u () g := by
  by_cases hu : u = t
  · subst hu
    rwa [Function.update_self]
  · rw [Function.update_of_ne hu]
    obtain ⟨g, hg, hat⟩ := h.stage u
    exact ⟨g, hg, hother u hu g hat⟩

/-- A thread that has the lock keeps it. -/
theorem Inv.stage_inside (h : s.Inv Masked) {p : IdePc} (ht : (s.pc t).Inside)
    (hp : p.Allows .holding) (u : T) :
    ∃ g, (Function.update s.pc t p u).Allows g ∧ s.locks.At u () g := by
  obtain ⟨g, hg, hat⟩ := h.stage t
  cases ht g hg
  exact h.stage_goto ⟨.holding, hp, hat⟩ (fun _ _ _ hat => hat) u

/-- Nobody starts or stops waiting for `disk_done`. -/
theorem Inv.waits_goto (h : s.Inv Masked) {p : IdePc} (ht : ¬ (s.pc t).Blocked) (hp : ¬ p.Blocked) :
    s.diskDone.Waits fun u => (Function.update s.pc t p u).Blocked := by
  refine h.waits.congr fun u => ?_
  by_cases hu : u = t
  · subst hu
    rw [Function.update_self]
    exact iff_of_false hp ht
  · rw [Function.update_of_ne hu]

/-- A step that has to do with neither `cmd_out` nor `disk_done`. -/
theorem Inv.move (h : s.Inv Masked) {p : IdePc} {locks : LockSys T Unit} (hlocks : locks.Inv)
    (hself : ∃ g, p.Allows g ∧ locks.At t () g)
    (hother : ∀ u ≠ t, ∀ g, s.locks.At u () g → locks.At u () g)
    (hb : ¬ (s.pc t).Blocked ∧ ¬ p.Blocked) (hout : ¬ (s.pc t).AtOut ∧ ¬ p.AtOut)
    (hwait : p.Waiting ↔ (s.pc t).Waiting) : Inv Masked (goto { s with locks } t p) := by
  have hto : ∀ u, (Function.update s.pc t p u).AtOut ↔ (s.pc u).AtOut := by
    intro u
    by_cases hu : u = t
    · subst hu
      rw [Function.update_self]
      exact iff_of_false hout.2 hout.1
    · rw [Function.update_of_ne hu]
  have htw : ∀ u, (Function.update s.pc t p u).Waiting ↔ (s.pc u).Waiting := by
    intro u
    by_cases hu : u = t
    · subst hu
      rwa [Function.update_self]
    · rw [Function.update_of_ne hu]
  refine ⟨hlocks, h.stage_goto hself hother, h.waits_goto hb.1 hb.2, ?_, h.paired⟩
  cases h.phase with
  | quiet he hv hn => exact .quiet he hv fun u hu => hn u (hu.imp (hto u).mp (htw u).mp)
  | flagged u he hv hu hlog => exact .flagged u he hv ((hto u).mpr hu) hlog
  | issued u he hv hu hlog => exact .issued u he hv ((htw u).mpr hu) hlog
  | early u he hv hu hm hlog => exact .early u he hv ((hto u).mpr hu) hm hlog
  | signalled u he hv hu hlog => exact .signalled u he hv ((htw u).mpr hu) hlog

/-- A thread that has the lock goes on. -/
theorem Inv.moveInside (h : s.Inv Masked) {p : IdePc} (ht : (s.pc t).Inside)
    (hp : p.Allows .holding) (hb : ¬ (s.pc t).Blocked ∧ ¬ p.Blocked)
    (hout : ¬ (s.pc t).AtOut ∧ ¬ p.AtOut) (hwait : p.Waiting ↔ (s.pc t).Waiting) :
    Inv Masked (s.goto t p) := by
  obtain ⟨g, hg, hat⟩ := h.stage t
  cases ht g hg
  exact h.move h.locks ⟨.holding, hp, hat⟩ (fun _ _ _ hat => hat) hb hout hwait

/-! ## Calls -/

theorem Inv.call (h : s.Inv Masked) (ht : s.pc t = .outside) (r : IdeReq) :
    Returns (s.call t r) (Inv Masked) := by
  rw [IdeSys.call]
  split
  · refine .ok ?_
    obtain ⟨g, hg, hat⟩ := h.stage t
    rw [ht] at hg
    cases hg
    have hstep : LockSys.Step (fun n => n + 1 < 2 ^ 32) s.locks (s.locks.goto t (.testHolder ())) :=
      .acquire t () hat.1 (by rw [hat.2]; decide)
    refine h.move (hstep.inv h.locks) ⟨.acquiring, .inl rfl, hat.acquire⟩
      (fun u hu g hat => hat.goto_other hu _) ?_ ?_ ?_
    · exact ⟨by rw [ht]; exact id, id⟩
    · exact ⟨by rw [ht]; exact id, id⟩
    · rw [ht]
      exact Iff.rfl
  · exact .error _

/-- The statements of `lock_acquire` and `lock_release`. -/
theorem Inv.lockStatement (h : s.Inv Masked) {next : IdePc}
    (hpc : ((∃ r, s.pc t = .acquire r) ∧ ∃ r, next = .round r 0) ∨
      (s.pc t = .release ∧ next = .outside)) {x : Except Fault (IdeSys T)}
    (he : s.lockStatement t next = some x) : ∃ s', x = .ok s' ∧ s'.Inv Masked := by
  have hnot : ¬ (s.pc t).Blocked ∧ ¬ (s.pc t).AtOut ∧ ¬ (s.pc t).Waiting := by
    rcases hpc with ⟨⟨r, ht⟩, -⟩ | ⟨ht, -⟩ <;> rw [ht] <;> exact ⟨id, id, id⟩
  have hnot' : ¬ next.Blocked ∧ ¬ next.AtOut ∧ ¬ next.Waiting := by
    rcases hpc with ⟨-, ⟨r, hn⟩⟩ | ⟨-, hn⟩ <;> rw [hn] <;> exact ⟨id, id, id⟩
  obtain ⟨g, hg, hat⟩ := h.stage t
  rw [IdeSys.lockStatement] at he
  split at he
  · -- the call has returned
    rename_i hidle
    cases he
    refine ⟨_, rfl, h.move h.locks ⟨g, ?_, hat⟩ (fun _ _ _ hat => hat) ⟨hnot.1, hnot'.1⟩
      ⟨hnot.2.1, hnot'.2.1⟩ (iff_of_false hnot'.2.2 hnot.2.2)⟩
    rcases hpc with ⟨⟨r, ht⟩, r', hn⟩ | ⟨ht, hn⟩ <;> rw [ht] at hg <;> rcases hg with rfl | rfl
    · exact absurd hidle (by rcases hat.1 with e | e | e | e | e | e <;> rw [e] <;> nofun)
    · rw [hn]
      rfl
    · exact absurd hidle (by rcases hat.1 with e | e | e | e | e <;> rw [e] <;> nofun)
    · rw [hn]
      rfl
  · rename_i hidle
    cases hx : s.locks.exec t with
    | none =>
      rw [hx] at he
      cases he
    | some y =>
      obtain ⟨locks, rfl, hinv⟩ := LockSys.exec_inv h.locks hx
      rw [hx] at he
      cases he
      have hself : ∃ g, (s.pc t).Allows g ∧ locks.At t () g := by
        rcases hpc with ⟨⟨r, ht⟩, -⟩ | ⟨ht, -⟩ <;> rw [ht] at hg ⊢ <;> rcases hg with rfl | rfl
        · rcases LockSys.exec_acquiring h.locks hat hx with hat' | hat'
          · exact ⟨_, .inl rfl, hat'⟩
          · exact ⟨_, .inr rfl, hat'⟩
        · exact absurd hat.1 hidle
        · rcases LockSys.exec_releasing h.locks hat hx with hat' | hat'
          · exact ⟨_, .inl rfl, hat'⟩
          · exact ⟨_, .inr rfl, hat'⟩
        · exact absurd hat.1 hidle
      have hgoto : ({ s with locks } : IdeSys T) = goto { s with locks } t (s.pc t) := by
        rw [goto, Function.update_eq_self]
      refine ⟨_, rfl, hgoto ▸ h.move hinv hself (fun u hu g => LockSys.exec_other hx hu)
        ⟨hnot.1, hnot.1⟩ ⟨hnot.2.1, hnot.2.1⟩ Iff.rfl⟩

/-! ## Commands -/

/-- `cmd_out` sets `expecting_intr`. -/
theorem Inv.flag (h : s.Inv Masked) {r : IdeReq} {d : UInt32} (ht : s.pc t = .flag r d) :
    Inv Masked (goto { s with expectingIntr := true, log := s.log ++ [.flag t] } t (.out r d)) := by
  have hin : (s.pc t).Inside := by rw [ht]; exact fun _ hg => hg
  obtain ⟨-, hv, -⟩ := h.quiet hin (by rw [ht]; exact fun hp => hp.elim id id)
  refine ⟨h.locks, h.stage_inside hin rfl, h.waits_goto (by rw [ht]; exact id) id, ?_,
    h.paired.snoc fun _ => nofun⟩
  refine .flagged t rfl hv ?_ ⟨s.log, rfl⟩
  simp only [goto, Function.update_self]
  trivial

/-- `cmd_out` writes the command register; the handler may have been there before. -/
theorem Inv.out (h : s.Inv Masked) {r : IdeReq} {d : UInt32} (ht : s.pc t = .out r d) {p : IdePc}
    (hp : p.Waiting) (hb : ¬ p.Blocked) :
    Inv Masked (goto { s with log := s.log ++ [.out t] } t p) := by
  have hout : (s.pc t).AtOut := by rw [ht]; trivial
  have hin := (IdePc.Pending.inside (.inl hout))
  have hp' : (Function.update s.pc t p t).Waiting := by rwa [Function.update_self]
  have hhold : p.Allows .holding := by
    cases p <;> first | exact hp.elim | rfl
  refine ⟨h.locks, h.stage_inside hin hhold, h.waits_goto (by rw [ht]; exact id) hb, ?_,
    h.paired.snoc fun _ => nofun⟩
  cases h.phase with
  | quiet _ _ hn => exact absurd (.inl hout) (hn t)
  | flagged u he hv hu hlog =>
    cases h.inside_unique hin (IdePc.Pending.inside (.inl hu))
    obtain ⟨l, hlog⟩ := hlog
    exact .issued t he hv hp' ⟨l, by simp [goto, hlog]⟩
  | early u he hv hu hm hlog =>
    cases h.inside_unique hin (IdePc.Pending.inside (.inl hu))
    obtain ⟨l, hlog⟩ := hlog
    exact .signalled t he hv hp' (.inr ⟨hm, l, by simp [goto, hlog]⟩)
  | issued u _ _ hu | signalled u _ _ hu =>
    cases h.inside_unique hin (IdePc.Pending.inside (.inr hu))
    rw [ht] at hu
    exact hu.elim

omit [DecidableEq T] in
/-- The thread that waits finds the answer, or `disk_done` at zero. -/
theorem Inv.answer (h : s.Inv Masked) {r : IdeReq} {d : UInt32} (ht : s.pc t = .down r d) :
    (s.expectingIntr = true ∧ s.diskDone.value = 0 ∧ ∃ p, s.log = p ++ [.flag t, .out t]) ∨
    (s.expectingIntr = false ∧ s.diskDone.value = 1 ∧ Answered Masked t s.log) := by
  have hwait : (s.pc t).Waiting := by rw [ht]; trivial
  have hin := IdePc.Pending.inside (.inr hwait)
  cases h.phase with
  | quiet _ _ hn => exact absurd (.inr hwait) (hn t)
  | flagged u _ _ hu | early u _ _ hu =>
    cases h.inside_unique hin (IdePc.Pending.inside (.inl hu))
    rw [ht] at hu
    exact hu.elim
  | issued u he hv hu hlog =>
    cases h.inside_unique hin (IdePc.Pending.inside (.inr hu))
    exact .inl ⟨he, hv, hlog⟩
  | signalled u he hv hu hlog =>
    cases h.inside_unique hin (IdePc.Pending.inside (.inr hu))
    exact .inr ⟨he, hv, hlog⟩

/-- `semaphore_down(&channel->disk_done)` does not fail, and takes the answer to the command of
its own thread. -/
theorem Inv.waitDone (h : s.Inv Masked) {r : IdeReq} {d : UInt32} (ht : s.pc t = .down r d) :
    ∃ s', s.waitDone t r d = .ok s' ∧ s'.Inv Masked := by
  have hin : (s.pc t).Inside := by rw [ht]; exact fun _ hg => hg
  have hnb : ¬ (s.pc t).Blocked := by rw [ht]; exact id
  have hnotin : t ∉ s.diskDone.waiters := fun hm => hnb ((h.waits.mem t).mp hm)
  rcases h.answer ht with ⟨he, hv, hlog⟩ | ⟨he, hv, hans⟩
  · -- no answer yet: the thread blocks
    rcases Semaphore.down_cases (.inl hv) hnotin with ⟨-, heq⟩ | ⟨hv', -⟩
    · have hs : s.waitDone t r d = .ok (goto { s with
          diskDone := { s.diskDone with waiters := s.diskDone.waiters ++ [t] } } t (.blocked r d)) := by
        rw [IdeSys.waitDone, heq]
      refine ⟨_, hs, h.locks, h.stage_inside hin rfl, ?_, .issued t he hv ?_ hlog, h.paired⟩
      · refine (h.waits.push hnb).congr fun u => ?_
        by_cases hu : u = t
        · subst hu
          simp [goto, IdePc.Blocked]
        · simp [goto, hu]
      · simp only [goto, Function.update_self]
        trivial
    · exact absurd (hv.symm.trans hv') (by decide)
  · rcases Semaphore.down_cases (.inr hv) hnotin with ⟨hv', -⟩ | ⟨-, heq⟩
    · exact absurd (hv.symm.trans hv') (by decide)
    · have hs : s.waitDone t r d = .ok (goto { s with
          diskDone := { s.diskDone with value := 0 }, log := s.log ++ [.down t] } t
          (if r.write then nextRound r d else .transfer r d)) := by
        rw [IdeSys.waitDone, heq]
      have hnext : ∀ p, p = (if r.write then nextRound r d else .transfer r d) →
          p.Allows .holding ∧ ¬ p.Blocked ∧ ¬ p.Pending := by
        rintro p rfl
        cases hw : r.write with
        | true => exact ⟨rfl, id, fun hp => hp.elim id id⟩
        | false => exact ⟨rfl, id, fun hp => hp.elim id fun hp => absurd (hp.symm.trans hw) nofun⟩
      obtain ⟨hhold, hnb', hnp⟩ := hnext _ rfl
      refine ⟨_, hs, h.locks, h.stage_inside hin hhold, (h.waits_goto hnb hnb').setValue 0, ?_, ?_⟩
      · refine .quiet he rfl fun u hu => ?_
        by_cases hut : u = t
        · subst hut
          simp only [goto, Function.update_self] at hu
          exact hnp hu
        · simp only [goto, Function.update_of_ne hut] at hu
          exact hut (h.inside_unique hu.inside hin)
      · refine h.paired.snoc fun u hu => ?_
        cases hu
        exact hans

/-- One statement keeps the invariant. -/
theorem Inv.exec (h : s.Inv Masked) {ready : Bool} (he : s.exec t ready = some (.ok s')) :
    s'.Inv Masked := by
  cases hpc : s.pc t with
  | outside | blocked r d => simp [IdeSys.exec, hpc] at he
  | acquire r =>
    simp only [IdeSys.exec, hpc] at he
    obtain ⟨s₁, hok, hinv⟩ := h.lockStatement (.inl ⟨⟨r, hpc⟩, r, rfl⟩) he
    cases hok
    exact hinv
  | release =>
    simp only [IdeSys.exec, hpc] at he
    obtain ⟨s₁, hok, hinv⟩ := h.lockStatement (.inr ⟨hpc, rfl⟩) he
    cases hok
    exact hinv
  | round r d =>
    have hin : (s.pc t).Inside := by rw [hpc]; exact fun _ hg => hg
    have hnot : ¬ (s.pc t).Blocked ∧ ¬ (s.pc t).AtOut ∧ ¬ (s.pc t).Waiting := by
      rw [hpc]
      exact ⟨id, id, id⟩
    simp only [IdeSys.exec, hpc] at he
    split at he
    · split at he
      · cases he
        exact h.moveInside hin rfl ⟨hnot.1, id⟩ ⟨hnot.2.1, id⟩ (iff_of_false id hnot.2.2)
      · cases he
    · -- the loop is done
      cases he
      obtain ⟨g, hg, hat⟩ := h.stage t
      cases hin g hg
      have hstep : LockSys.Step (fun n => n + 1 < 2 ^ 32) s.locks (s.locks.goto t (.testCnt ())) :=
        .release t () hat.1 (Nat.le_of_eq hat.2.symm)
      exact h.move (hstep.inv h.locks) ⟨.releasing, .inl rfl, hat.release⟩
        (fun u hu g hat => hat.goto_other hu _) ⟨hnot.1, id⟩ ⟨hnot.2.1, id⟩
        (iff_of_false id hnot.2.2)
  | flag r d =>
    simp only [IdeSys.exec, hpc] at he
    cases he
    exact h.flag hpc
  | out r d =>
    simp only [IdeSys.exec, hpc] at he
    cases he
    cases hw : r.write with
    | true => exact h.out hpc hw id
    | false => exact h.out hpc trivial id
  | down r d =>
    simp only [IdeSys.exec, hpc] at he
    obtain ⟨s₁, hok, hinv⟩ := h.waitDone hpc
    rw [hok] at he
    cases he
    exact hinv
  | transfer r d =>
    have hin : (s.pc t).Inside := by rw [hpc]; exact fun _ hg => hg
    have hnot : ¬ (s.pc t).Blocked ∧ ¬ (s.pc t).AtOut := by
      rw [hpc]
      exact ⟨id, id⟩
    simp only [IdeSys.exec, hpc] at he
    split at he
    · cases he
      cases hw : r.write with
      | true =>
        exact h.moveInside hin rfl ⟨hnot.1, id⟩ ⟨hnot.2, id⟩ (iff_of_true trivial (by rw [hpc]; exact hw))
      | false =>
        refine h.moveInside hin rfl ⟨hnot.1, id⟩ ⟨hnot.2, id⟩ (iff_of_false id ?_)
        rw [hpc]
        exact fun hp => absurd (hp.symm.trans hw) nofun
    · cases he

/-! ## Interrupts -/

omit [DecidableEq T] in
/-- What the handler makes of the command that is under way. -/
theorem Inv.phase_up (h : s.Inv Masked) (he : s.expectingIntr = true) {sema : Semaphore T}
    (hv : sema.value = s.diskDone.value + 1) {pc : T → IdePc}
    (hto : ∀ u, (s.pc u).AtOut → (pc u).AtOut) (htw : ∀ u, (s.pc u).Waiting → (pc u).Waiting)
    (hm : Masked → ∀ t r d, s.pc t ≠ .out r d) :
    Phase Masked { s with expectingIntr := false, diskDone := sema, pc, log := s.log ++ [.up] } := by
  have hone : s.diskDone.value = 0 → sema.value = 1 := by
    intro h0
    rw [hv, h0]
    rfl
  cases h.phase with
  | quiet hf _ _ | early _ hf _ _ _ | signalled _ hf _ _ => exact absurd (he.symm.trans hf) nofun
  | flagged u _ hv0 hu hlog =>
    obtain ⟨l, hlog⟩ := hlog
    refine .early u rfl (hone hv0) (hto u hu) (fun hmask => ?_) ⟨l, by simp [hlog]⟩
    cases hpc : s.pc u with
    | out r d => exact hm hmask u r d hpc
    | _ =>
      rw [hpc] at hu
      exact hu.elim
  | issued u _ hv0 hu hlog =>
    obtain ⟨l, hlog⟩ := hlog
    exact .signalled u rfl (hone hv0) (htw u hu) (.inl ⟨l, by simp [hlog]⟩)

/-- `intr_hd_handler` returns, whenever it is called. -/
theorem Inv.intrHdHandler (h : s.Inv Masked) : ∃ s', s.intrHdHandler = .ok s' ∧
    ((Masked → ∀ t r d, s.pc t ≠ .out r d) → s'.Inv Masked) := by
  by_cases he : s.expectingIntr = true
  · rcases s.diskDone.up_cases with ⟨hw, hup⟩ | ⟨t, ws, hw, hup⟩
    · have hs : s.intrHdHandler = .ok { s with
          expectingIntr := false
          diskDone := { s.diskDone with value := s.diskDone.value + 1 }
          log := s.log ++ [.up] } := by
        rw [IdeSys.intrHdHandler, if_pos he, hup]
        rfl
      refine ⟨_, hs, fun hm => ⟨h.locks, h.stage, h.waits.setValue _, ?_, h.paired.snoc fun _ => nofun⟩⟩
      exact h.phase_up he rfl (fun _ => id) (fun _ => id) hm
    · -- the thread that waits goes back to its test
      obtain ⟨hb, hpop⟩ := h.waits.pop hw (s.diskDone.value + 1)
      obtain ⟨r, d, hpc⟩ : ∃ r d, s.pc t = .blocked r d := by
        cases hpc : s.pc t with
        | blocked r d => exact ⟨r, d, rfl⟩
        | _ =>
          rw [hpc] at hb
          exact hb.elim
      have hs : s.intrHdHandler = .ok (goto { s with
          expectingIntr := false
          diskDone := ⟨s.diskDone.value + 1, ws⟩
          log := s.log ++ [.up] } t (.down r d)) := by
        rw [IdeSys.intrHdHandler, if_pos he, hup]
        simp only [IdeSys.threadUnblock, hpc]
      have hin : (s.pc t).Inside := by rw [hpc]; exact fun _ hg => hg
      refine ⟨_, hs, fun hm => ⟨h.locks, h.stage_inside hin rfl, hpop.congr fun u => ?_, ?_,
        h.paired.snoc fun _ => nofun⟩⟩
      · by_cases hu : u = t
        · subst hu
          simp [goto, IdePc.Blocked]
        · simp [goto, hu]
      · refine h.phase_up he rfl (fun u hu => ?_) (fun u hu => ?_) hm <;>
          simp only [Function.update_apply] <;> split
        · rename_i hut
          rw [hut, hpc] at hu
          exact hu.elim
        · exact hu
        · trivial
        · exact hu
  · refine ⟨s, ?_, fun _ => h⟩
    rw [IdeSys.intrHdHandler, if_neg he]

/-! ## Runs -/

theorem Step.inv (hs : Step Masked s s') (h : s.Inv Masked) : s'.Inv Masked := by
  cases hs with
  | call t r _ hpc hcall => exact h.call hpc r _ hcall
  | exec t ready _ he => exact h.exec he
  | interrupt _ hm hi =>
    obtain ⟨s₁, hok, hinv⟩ := h.intrHdHandler
    rw [hok] at hi
    cases hi
    exact hinv hm

theorem Reachable.inv (hr : Reachable Masked s) : s.Inv Masked := by
  induction hr with
  | refl => exact inv_init
  | tail _ hstep ih => exact hstep.inv ih

end Inv

/-- **Commands, interrupts and `disk_done`**: in every reachable state the value is zero or one;
each `semaphore_down` that has taken it took the `semaphore_up` that the handler made for the
command of that same thread, with nothing in between; the next `semaphore_down` of any thread and
the next call of the handler return; and so do the calls of the lock. -/
theorem ideChannel_paired {Masked : Prop} {s : IdeSys T} (hr : Reachable Masked s) :
    (s.diskDone.value = 0 ∨ s.diskDone.value = 1) ∧
    (∀ before t after, s.log = before ++ .down t :: after →
      (∃ p, before = p ++ [.flag t, .out t, .up]) ∨
      (¬ Masked ∧ ∃ p, before = p ++ [.flag t, .up, .out t])) ∧
    (∀ t r secsDone, s.pc t = .down r secsDone → ∃ s', s.waitDone t r secsDone = .ok s') ∧
    (∃ s', s.intrHdHandler = .ok s') ∧ s.locks.NoFault := by
  have h := hr.inv
  refine ⟨?_, h.paired, fun t r d ht => ?_, ?_, fun t e he => ?_⟩
  · cases h.phase with
    | quiet _ hv _ | flagged _ _ hv _ _ | issued _ _ hv _ _ => exact .inl hv
    | early _ _ hv _ _ _ | signalled _ _ hv _ _ => exact .inr hv
  · obtain ⟨s', hs, -⟩ := h.waitDone ht
    exact ⟨s', hs⟩
  · obtain ⟨s', hs, -⟩ := h.intrHdHandler
    exact ⟨s', hs⟩
  · obtain ⟨s', hok, -⟩ := LockSys.exec_inv h.locks he
    cases hok

/-- One thread reads a sector; an interrupt comes before its command, one while it is blocked, and
one more right after. -/
theorem ideChannel_paired_read :
    ∃ s : IdeSys Unit, Reachable True s ∧ s.log = [.flag (), .out (), .up, .down ()] ∧
      ∃ p, [.flag (), .out (), .up] = p ++ [.flag (), .out (), IdeEvent.up] := by
  have hmask : ∀ {s : IdeSys Unit}, (∀ r d, s.pc () ≠ .out r d) →
      True → ∀ t r d, s.pc t ≠ .out r d := fun h _ _ => h
  have h0 : Reachable True (init : IdeSys Unit) := .refl
  have h1 := h0.tail (.interrupt _ (hmask fun _ _ => nofun) rfl)
  have h2 := h1.tail (.call () ⟨false, true, 7, 1⟩ _ rfl rfl)
  have h3 := h2.tail (.exec () true _ rfl)
  have h4 := h3.tail (.exec () true _ rfl)
  have h5 := h4.tail (.exec () true _ rfl)
  have h6 := h5.tail (.exec () true _ rfl)
  have h7 := h6.tail (.exec () true _ rfl)
  have h8 := h7.tail (.exec () true _ rfl)
  have h9 := h8.tail (.exec () true _ rfl)
  have h10 := h9.tail (.exec () true _ rfl)
  have h11 := h10.tail (.exec () true _ rfl)
  have h12 := h11.tail (.exec () true _ rfl)
  have h13 := h12.tail (.interrupt _ (hmask fun _ _ => nofun) rfl)
  have h14 := h13.tail (.interrupt _ (hmask fun _ _ => nofun) rfl)
  have h15 := h14.tail (.exec () true _ rfl)
  refine ⟨_, h15, rfl, ?_⟩
  rcases (ideChannel_paired h15).2.1 [.flag (), .out (), .up] () [] rfl with hp | ⟨hm, -⟩
  · exact hp
  · exact absurd trivial hm

end IdeSys

end GwOS
