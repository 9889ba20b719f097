import GwOS.Kernel.Debug
import Mathlib.Logic.Relation
import Mathlib.Logic.Function.Basic
import Mathlib.Data.List.Nodup

/-!
# Semaphores and locks (`thread/sync.c`)

A semaphore runs with interrupts off, so a call is atomic up to `thread_block`:
`semaphoreDown` is one round of its loop, `semaphoreUp` the whole body. A lock
adds `holder` and `holder_repeat_cnt`, which are read and written with interrupts
on, one statement at a time.

`LockSys` is the system of all threads and all locks: a program counter for each
thread, the nesting depth of each lock in each thread, and one step for each
statement. Any thread that is not blocked may make the next step.

- `lockSys_mutualExclusion`: at most one thread is inside a lock, and the fields of
  the lock agree with that thread, in every reachable state, as long as no thread
  nests a lock `2^32` times.
- `nesting_overflow`: at that depth `holder_repeat_cnt` wraps to zero, and the next
  release fails its `ASSERT`.
-/

namespace GwOS

/-! ## The data -/

/-- `struct semaphore`; the waiters are in the order of `list_append`. -/
structure Semaphore (T : Type*) where
  value : UInt8
  waiters : List T

/-- `struct lock`. -/
structure Lock (T : Type*) where
  holder : Option T
  semaphore : Semaphore T
  holderRepeatCnt : UInt32

section Semaphore

variable {T : Type*} [DecidableEq T]

/-- `semaphore_init`. -/
def semaphoreInit (value : UInt8) : Semaphore T := ⟨value, []⟩

/-- One round of the loop of `semaphore_down` for the running thread: `true` when the
thread has to block, `false` when it has taken the semaphore. -/
def semaphoreDown (sema : Semaphore T) (running : T) : Except Fault (Semaphore T × Bool) :=
  if sema.value = 0 then
    if running ∈ sema.waiters then .error .assert
    else .ok ({ sema with waiters := sema.waiters ++ [running] }, true)
  else
    let sema := { sema with value := sema.value - 1 }
    if sema.value = 0 then .ok (sema, false) else .error .assert

/-- `semaphore_up`, with the thread it unblocks. -/
def semaphoreUp (sema : Semaphore T) : Semaphore T × Option T :=
  match sema.waiters with
  | [] => ({ sema with value := sema.value + 1 }, none)
  | t :: waiters => ({ sema with waiters := waiters, value := sema.value + 1 }, some t)

/-- `lock_init`. -/
def lockInit : Lock T := ⟨none, semaphoreInit 1, 0⟩

end Semaphore

/-! ## Threads on locks -/

/-- The next statement of a thread, in `lock_acquire` or `lock_release` of a lock. -/
inductive LockPc (L : Type*) where
  /-- Outside of both functions. -/
  | idle
  /-- `if (lock->holder != running_thread())` -/
  | testHolder (l : L)
  /-- `semaphore_down(&lock->semaphore)`, at its test. -/
  | down (l : L)
  /-- In `thread_block`. -/
  | blocked (l : L)
  /-- `lock->holder = running_thread()` -/
  | setHolder (l : L)
  /-- `ASSERT(lock->holder_repeat_cnt == 0)` -/
  | assertZero (l : L)
  /-- `lock->holder_repeat_cnt = 1` -/
  | setCnt (l : L)
  /-- `lock->holder_repeat_cnt++` -/
  | incCnt (l : L)
  /-- `if (lock->holder_repeat_cnt > 1)` -/
  | testCnt (l : L)
  /-- `lock->holder_repeat_cnt--` -/
  | decCnt (l : L)
  /-- `ASSERT(lock->holder_repeat_cnt == 1)` -/
  | assertOne (l : L)
  /-- `lock->holder = NULL` -/
  | clearHolder (l : L)
  /-- `lock->holder_repeat_cnt = 0` -/
  | clearCnt (l : L)
  /-- `semaphore_up(&lock->semaphore)` -/
  | up (l : L)
  deriving DecidableEq

/-- All threads and all locks. -/
structure LockSys (T L : Type*) where
  lock : L → Lock T
  pc : T → LockPc L
  /-- How often a thread has acquired a lock and not yet released it. -/
  depth : T → L → Nat

namespace LockSys

variable {T L : Type*} [DecidableEq T] [DecidableEq L]

/-- Every lock as `lock_init` leaves it, every thread outside. -/
def init : LockSys T L := ⟨fun _ => lockInit, fun _ => .idle, fun _ _ => 0⟩

def goto (s : LockSys T L) (t : T) (pc : LockPc L) : LockSys T L :=
  { s with pc := Function.update s.pc t pc }

def setLock (s : LockSys T L) (l : L) (k : Lock T) : LockSys T L :=
  { s with lock := Function.update s.lock l k }

def setDepth (s : LockSys T L) (t : T) (l : L) (n : Nat) : LockSys T L :=
  { s with depth := Function.update s.depth t (Function.update (s.depth t) l n) }

/-- `thread_unblock`: the thread goes on at the test of the loop it blocked in. -/
def wake (s : LockSys T L) (w : Option T) : LockSys T L :=
  match w with
  | none => s
  | some t =>
    match s.pc t with
    | .blocked l => s.goto t (.down l)
    | _ => s

/-- The next statement of the thread `t`; `none` when it has none to make. -/
def exec (s : LockSys T L) (t : T) : Option (Except Fault (LockSys T L)) :=
  match s.pc t with
  | .idle => none
  | .blocked _ => none
  | .testHolder l =>
    if (s.lock l).holder ≠ some t then some (.ok (s.goto t (.down l)))
    else some (.ok (s.goto t (.incCnt l)))
  | .down l =>
    match semaphoreDown (s.lock l).semaphore t with
    | .error e => some (.error e)
    | .ok (sema, blocks) =>
      some (.ok ((s.setLock l { s.lock l with semaphore := sema }).goto t
        (if blocks then .blocked l else .setHolder l)))
  | .setHolder l =>
    some (.ok ((s.setLock l { s.lock l with holder := some t }).goto t (.assertZero l)))
  | .assertZero l =>
    if (s.lock l).holderRepeatCnt = 0 then some (.ok (s.goto t (.setCnt l)))
    else some (.error .assert)
  | .setCnt l =>
    some (.ok (((s.setLock l { s.lock l with holderRepeatCnt := 1 }).setDepth t l
      (s.depth t l + 1)).goto t .idle))
  | .incCnt l =>
    some (.ok (((s.setLock l { s.lock l with
      holderRepeatCnt := (s.lock l).holderRepeatCnt + 1 }).setDepth t l
      (s.depth t l + 1)).goto t .idle))
  | .testCnt l =>
    if (s.lock l).holderRepeatCnt > 1 then some (.ok (s.goto t (.decCnt l)))
    else some (.ok (s.goto t (.assertOne l)))
  | .decCnt l =>
    some (.ok (((s.setLock l { s.lock l with
      holderRepeatCnt := (s.lock l).holderRepeatCnt - 1 }).setDepth t l
      (s.depth t l - 1)).goto t .idle))
  | .assertOne l =>
    if (s.lock l).holderRepeatCnt = 1 then some (.ok (s.goto t (.clearHolder l)))
    else some (.error .assert)
  | .clearHolder l =>
    some (.ok ((s.setLock l { s.lock l with holder := none }).goto t (.clearCnt l)))
  | .clearCnt l =>
    some (.ok ((s.setLock l { s.lock l with holderRepeatCnt := 0 }).goto t (.up l)))
  | .up l =>
    let (sema, w) := semaphoreUp (s.lock l).semaphore
    some (.ok ((((s.setLock l { s.lock l with semaphore := sema }).setDepth t l
      (s.depth t l - 1)).goto t .idle).wake w))

/-- One step of the system: a thread calls `lock_acquire`, at a depth that `Limit` allows, or
`lock_release` on a lock it holds, or makes its next statement. -/
inductive Step (Limit : Nat → Prop) (s : LockSys T L) : LockSys T L → Prop
  | acquire (t : T) (l : L) (hpc : s.pc t = .idle) (hd : Limit (s.depth t l)) :
      Step Limit s (s.goto t (.testHolder l))
  | release (t : T) (l : L) (hpc : s.pc t = .idle) (hd : 1 ≤ s.depth t l) :
      Step Limit s (s.goto t (.testCnt l))
  | exec (t : T) (s' : LockSys T L) (h : s.exec t = some (.ok s')) : Step Limit s s'

/-- The states that the threads can bring about. -/
def Reachable (Limit : Nat → Prop) (s : LockSys T L) : Prop :=
  Relation.ReflTransGen (Step Limit) init s

/-! ## The invariant -/

/-- The `holder` and `holder_repeat_cnt` that the thread `t`, at `pc` and with `n` open
acquisitions of `l`, stands for: `none` when it does not own `l`. A thread owns a lock from
the end of `semaphore_down` on, up to `semaphore_up`. -/
def view (pc : LockPc L) (l : L) (t : T) (n : Nat) : Option (Option T × Nat) :=
  let held := if n = 0 then none else some (some t, n)
  match pc with
  | .setHolder l' => if l' = l then some (none, 0) else held
  | .assertZero l' => if l' = l then some (some t, 0) else held
  | .setCnt l' => if l' = l then some (some t, 0) else held
  | .clearCnt l' => if l' = l then some (none, 1) else held
  | .up l' => if l' = l then some (none, 0) else held
  | _ => held

def viewOf (s : LockSys T L) (l : L) (t : T) : Option (Option T × Nat) :=
  view (s.pc t) l t (s.depth t l)

/-- How the program counter of a thread and its nesting depths fit. -/
def LocalOk (pc : LockPc L) (depth : L → Nat) : Prop :=
  match pc with
  | .idle => True
  | .testHolder l => depth l + 1 < 2 ^ 32
  | .down l | .blocked l | .setHolder l | .assertZero l | .setCnt l => depth l = 0
  | .incCnt l => 1 ≤ depth l ∧ depth l + 1 < 2 ^ 32
  | .testCnt l => 1 ≤ depth l
  | .decCnt l => 2 ≤ depth l
  | .assertOne l | .clearHolder l | .clearCnt l | .up l => depth l = 1

/-- Nobody owns the lock, or one thread does and the fields are what it stands for. -/
def LockOk (s : LockSys T L) (l : L) : Prop :=
  ((∀ t, s.viewOf l t = none) ∧ (s.lock l).holder = none ∧ (s.lock l).holderRepeatCnt = 0 ∧
      (s.lock l).semaphore.value = 1) ∨
    ∃ t h n, s.viewOf l t = some (h, n) ∧ (∀ t', t' ≠ t → s.viewOf l t' = none) ∧
      (s.lock l).holder = h ∧ (s.lock l).holderRepeatCnt.toNat = n ∧
      (s.lock l).semaphore.value = 0

/-- The waiters of a lock are the threads blocked on it. -/
def WaitersOk (s : LockSys T L) : Prop :=
  ∀ l, (∀ t, t ∈ (s.lock l).semaphore.waiters ↔ s.pc t = .blocked l) ∧
    (s.lock l).semaphore.waiters.Nodup

structure Inv (s : LockSys T L) : Prop where
  locals : ∀ t, LocalOk (s.pc t) (s.depth t)
  bound : ∀ t l, s.depth t l < 2 ^ 32
  locks : ∀ l, s.LockOk l
  waiters : s.WaitersOk

omit [DecidableEq T] in
theorem inv_init : Inv (init : LockSys T L) := by
  refine ⟨fun _ => trivial, fun _ _ => Nat.two_pow_pos 32, fun l => .inl ⟨fun t => rfl, rfl, rfl, rfl⟩,
    fun l => ⟨fun t => ?_, List.nodup_nil⟩⟩
  exact ⟨fun h => absurd h List.not_mem_nil, fun h => by cases h⟩

/-- A thread that owns the lock is the only one, and the fields are what it stands for. -/
theorem LockOk.of_view {s : LockSys T L} {l : L} (h : s.LockOk l) {t : T} {x : Option T} {n : Nat}
    (hv : s.viewOf l t = some (x, n)) :
    (∀ t', t' ≠ t → s.viewOf l t' = none) ∧ (s.lock l).holder = x ∧
      (s.lock l).holderRepeatCnt.toNat = n ∧ (s.lock l).semaphore.value = 0 := by
  rcases h with ⟨hnone, -⟩ | ⟨t₀, x₀, n₀, hv₀, hother, hh, hc, hval⟩
  · rw [hnone t] at hv
    cases hv
  · have ht : t = t₀ := by
      by_contra hne
      rw [hother t hne] at hv
      cases hv
    subst ht
    rw [hv] at hv₀
    cases hv₀
    exact ⟨hother, hh, hc, hval⟩

omit [DecidableEq T] in
/-- A thread that finds the semaphore positive finds the lock free. -/
theorem LockOk.of_value {s : LockSys T L} {l : L} (h : s.LockOk l)
    (hv : (s.lock l).semaphore.value ≠ 0) :
    (∀ t, s.viewOf l t = none) ∧ (s.lock l).holder = none ∧ (s.lock l).holderRepeatCnt = 0 ∧
      (s.lock l).semaphore.value = 1 := by
  rcases h with hfree | ⟨t, x, n, -, -, -, -, hval⟩
  · exact hfree
  · exact absurd hval hv

/-- What one step of a thread can do to a lock, together with what the thread stands for. -/
inductive LockMove (k k' : Lock T) (v v' : Option (Option T × Nat)) : Prop
  /-- Nothing, except for the waiters. -/
  | keep (hview : v' = v) (hh : k'.holder = k.holder)
      (hc : k'.holderRepeatCnt = k.holderRepeatCnt) (hv : k'.semaphore.value = k.semaphore.value)
  /-- The thread takes the semaphore. -/
  | take (hview : v' = some (none, 0)) (hpos : k.semaphore.value ≠ 0)
      (hh : k'.holder = k.holder) (hc : k'.holderRepeatCnt = k.holderRepeatCnt)
      (hv : k'.semaphore.value = k.semaphore.value - 1)
  /-- The owner changes the fields. -/
  | move {x x' : Option T} {n n' : Nat} (hold : v = some (x, n)) (hview : v' = some (x', n'))
      (hh : k'.holder = x') (hc : k'.holderRepeatCnt.toNat = n')
      (hv : k'.semaphore.value = k.semaphore.value)
  /-- The owner gives the semaphore back. -/
  | give (hold : v = some (none, 0)) (hview : v' = none) (hh : k'.holder = k.holder)
      (hc : k'.holderRepeatCnt = k.holderRepeatCnt)
      (hv : k'.semaphore.value = k.semaphore.value + 1)

theorem LockOk.step {s s' : LockSys T L} {l : L} {t : T} (h : s.LockOk l)
    (hother : ∀ t', t' ≠ t → s'.viewOf l t' = s.viewOf l t')
    (hm : LockMove (s.lock l) (s'.lock l) (s.viewOf l t) (s'.viewOf l t)) : s'.LockOk l := by
  cases hm with
  | keep hview hh hc hv =>
    have hall : ∀ t', s'.viewOf l t' = s.viewOf l t' := by
      intro t'
      by_cases ht : t' = t
      · rw [ht, hview]
      · exact hother t' ht
    simp only [LockOk, hall, hh, hc, hv]
    exact h
  | take hview hpos hh hc hv =>
    obtain ⟨hnone, hh₀, hc₀, hv₀⟩ := h.of_value hpos
    refine .inr ⟨t, none, 0, hview, fun t' ht => ?_, ?_, ?_, ?_⟩
    · rw [hother t' ht, hnone t']
    · rw [hh, hh₀]
    · rw [hc, hc₀]
      rfl
    · rw [hv, hv₀]
      rfl
  | move hold hview hh hc hv =>
    obtain ⟨hnone, -, -, hv₀⟩ := h.of_view hold
    refine .inr ⟨t, _, _, hview, fun t' ht => ?_, hh, hc, by rw [hv, hv₀]⟩
    rw [hother t' ht, hnone t' ht]
  | give hold hview hh hc hv =>
    obtain ⟨hnone, hh₀, hc₀, hv₀⟩ := h.of_view hold
    refine .inl ⟨fun t' => ?_, ?_, ?_, ?_⟩
    · by_cases ht : t' = t
      · rw [ht, hview]
      · rw [hother t' ht, hnone t' ht]
    · rw [hh, hh₀]
    · rw [hc]
      exact UInt32.toNat_inj.mp hc₀
    · rw [hv, hv₀]
      rfl

/-! ## Preservation -/

/-- The thread is outside of both functions, or in one of them for the lock `l`. -/
def On (l : L) : LockPc L → Prop
  | .idle => True
  | .testHolder l' | .down l' | .blocked l' | .setHolder l' | .assertZero l' | .setCnt l'
  | .incCnt l' | .testCnt l' | .decCnt l' | .assertOne l' | .clearHolder l' | .clearCnt l'
  | .up l' => l' = l

omit [DecidableEq T] in
/-- For another lock only the nesting depth counts. -/
theorem view_off {pc : LockPc L} {l l' : L} (h : On l pc) (hne : l' ≠ l) (t : T) (n : Nat) :
    view pc l' t n = if n = 0 then none else some (some t, n) := by
  cases pc <;> simp_all [On, view, Ne.symm hne]

/-- What a statement of the thread `t` on the lock `l` does to the state. -/
def put (s : LockSys T L) (t : T) (l : L) (pc : LockPc L) (n : Nat) (k : Lock T) : LockSys T L where
  lock := Function.update s.lock l k
  pc := Function.update s.pc t pc
  depth := Function.update s.depth t (Function.update (s.depth t) l n)

section Put

variable {s : LockSys T L} {t : T} {l : L} {pc : LockPc L} {n : Nat} {k : Lock T}

@[simp] theorem put_lock_self : (s.put t l pc n k).lock l = k := Function.update_self ..

@[simp] theorem put_pc_self : (s.put t l pc n k).pc t = pc := Function.update_self ..

@[simp] theorem put_depth_self : (s.put t l pc n k).depth t = Function.update (s.depth t) l n :=
  Function.update_self ..

theorem put_lock_ne {l' : L} (h : l' ≠ l) : (s.put t l pc n k).lock l' = s.lock l' :=
  Function.update_of_ne h ..

theorem put_pc_ne {t' : T} (h : t' ≠ t) : (s.put t l pc n k).pc t' = s.pc t' :=
  Function.update_of_ne h ..

theorem put_depth_ne {t' : T} (h : t' ≠ t) : (s.put t l pc n k).depth t' = s.depth t' :=
  Function.update_of_ne h ..

@[simp] theorem put_viewOf_self : (s.put t l pc n k).viewOf l t = view pc l t n := by
  rw [viewOf, put_pc_self, put_depth_self, Function.update_self]

/-- One statement on one lock. -/
theorem Inv.put (h : Inv s) (hon : On l (s.pc t)) (hon' : On l pc)
    (hlocal : LocalOk pc (Function.update (s.depth t) l n)) (hn : n < 2 ^ 32)
    (hmove : LockMove (s.lock l) k (s.viewOf l t) (view pc l t n))
    (hmem : ∀ t', t' ∈ k.semaphore.waiters ↔ Function.update s.pc t pc t' = .blocked l)
    (hnd : k.semaphore.waiters.Nodup) : Inv (s.put t l pc n k) := by
  refine ⟨fun t' => ?_, fun t' l' => ?_, fun l' => ?_, fun l' => ?_⟩
  · by_cases ht : t' = t
    · subst ht
      rw [put_pc_self, put_depth_self]
      exact hlocal
    · rw [put_pc_ne ht, put_depth_ne ht]
      exact h.locals t'
  · by_cases ht : t' = t
    · subst ht
      rw [put_depth_self]
      by_cases hl : l' = l
      · rw [hl, Function.update_self]
        exact hn
      · rw [Function.update_of_ne hl]
        exact h.bound t' l'
    · rw [put_depth_ne ht]
      exact h.bound t' l'
  · have hother : ∀ t', t' ≠ t → (s.put t l pc n k).viewOf l' t' = s.viewOf l' t' := by
      intro t' ht
      rw [viewOf, viewOf, put_pc_ne ht, put_depth_ne ht]
    refine (h.locks l').step hother ?_
    by_cases hl : l' = l
    · subst hl
      rw [put_lock_self, put_viewOf_self]
      exact hmove
    · rw [put_lock_ne hl]
      refine .keep ?_ rfl rfl rfl
      rw [viewOf, viewOf, put_pc_self, put_depth_self, Function.update_of_ne hl, view_off hon hl,
        view_off hon' hl]
  · by_cases hl : l' = l
    · subst hl
      rw [put_lock_self]
      exact ⟨hmem, hnd⟩
    · rw [put_lock_ne hl]
      refine ⟨fun t' => ?_, (h.waiters l').2⟩
      rw [(h.waiters l').1 t']
      by_cases ht : t' = t
      · subst ht
        rw [put_pc_self]
        -- neither before nor after does the thread wait for another lock
        constructor
        · intro hb
          rw [hb] at hon
          exact absurd hon hl
        · intro hb
          rw [hb] at hon'
          exact absurd hon' hl
      · rw [put_pc_ne ht]

/-- The waiters when the thread is and stays off the waiting list. -/
theorem Inv.waiters_keep (h : Inv s) (hb : ∀ l', s.pc t ≠ .blocked l')
    (hb' : ∀ l', pc ≠ .blocked l') (t' : T) :
    t' ∈ (s.lock l).semaphore.waiters ↔ Function.update s.pc t pc t' = .blocked l := by
  rw [(h.waiters l).1 t']
  by_cases ht : t' = t
  · subst ht
    rw [Function.update_self]
    exact ⟨fun he => absurd he (hb l), fun he => absurd he (hb' l)⟩
  · rw [Function.update_of_ne ht]

end Put

section Exec

variable {s : LockSys T L} {t : T} {l : L}

theorem goto_eq_put (s : LockSys T L) (t : T) (l : L) (pc : LockPc L) :
    s.goto t pc = s.put t l pc (s.depth t l) (s.lock l) := by
  simp [goto, put]

theorem setLock_goto_eq_put (s : LockSys T L) (t : T) (l : L) (pc : LockPc L) (k : Lock T) :
    (s.setLock l k).goto t pc = s.put t l pc (s.depth t l) k := by
  simp [goto, setLock, put]

theorem setDepth_goto_eq_put (s : LockSys T L) (t : T) (l : L) (pc : LockPc L) (n : Nat)
    (k : Lock T) : ((s.setLock l k).setDepth t l n).goto t pc = s.put t l pc n k := rfl

/-- Going on inside one of the functions, without a change to the lock. -/
theorem Inv.goto (h : Inv s) {pc : LockPc L} (hon : On l (s.pc t)) (hon' : On l pc)
    (hlocal : LocalOk pc (s.depth t)) (hview : view pc l t (s.depth t l) = s.viewOf l t)
    (hb : ∀ l', s.pc t ≠ .blocked l') (hb' : ∀ l', pc ≠ .blocked l') : Inv (s.goto t pc) := by
  rw [goto_eq_put s t l]
  refine h.put hon hon' ?_ (h.bound t l) (.keep hview rfl rfl rfl) (h.waiters_keep hb hb')
    (h.waiters l).2
  rwa [Function.update_eq_self]

/-- The owner changes the fields of the lock. -/
theorem Inv.setFields (h : Inv s) {pc : LockPc L} {n n' m : Nat} {x x' : Option T} {k : Lock T}
    (hon : On l (s.pc t)) (hon' : On l pc)
    (hlocal : LocalOk pc (Function.update (s.depth t) l n)) (hn : n < 2 ^ 32)
    (hold : s.viewOf l t = some (x, m)) (hview : view pc l t n = some (x', n'))
    (hh : k.holder = x') (hc : k.holderRepeatCnt.toNat = n')
    (hs : k.semaphore = (s.lock l).semaphore) (hb : ∀ l', s.pc t ≠ .blocked l')
    (hb' : ∀ l', pc ≠ .blocked l') : Inv (s.put t l pc n k) := by
  refine h.put hon hon' hlocal hn (.move hold hview hh hc (by rw [hs])) ?_ ?_
  · rw [hs]
    exact h.waiters_keep hb hb'
  · rw [hs]
    exact (h.waiters l).2

/-- `semaphore_down` takes the semaphore or appends the thread to the waiters. -/
theorem Inv.down (h : Inv s) (hpc : s.pc t = .down l) :
    ∃ sema b, semaphoreDown (s.lock l).semaphore t = .ok (sema, b) ∧
      Inv ((s.setLock l { s.lock l with semaphore := sema }).goto t
        (if b then .blocked l else .setHolder l)) := by
  have hd : s.depth t l = 0 := by
    have := h.locals t
    rwa [hpc] at this
  have hview : s.viewOf l t = none := by
    rw [viewOf, hpc, hd]
    rfl
  have hon : On l (s.pc t) := by rw [hpc]; rfl
  have hlocal : ∀ {pc}, LocalOk pc (s.depth t) →
      LocalOk pc (Function.update (s.depth t) l (s.depth t l)) := fun hl => by
    rwa [Function.update_eq_self]
  by_cases hv : (s.lock l).semaphore.value = 0
  · have hnot : t ∉ (s.lock l).semaphore.waiters := fun hm => by
      have := ((h.waiters l).1 t).mp hm
      rw [hpc] at this
      cases this
    refine ⟨_, true, by rw [semaphoreDown, if_pos hv, if_neg hnot], ?_⟩
    rw [setLock_goto_eq_put, if_pos rfl]
    refine h.put hon rfl (hlocal hd) (h.bound t l) (.keep ?_ rfl rfl rfl) (fun t' => ?_) ?_
    · rw [hview, hd]
      rfl
    · rw [List.mem_append, List.mem_singleton, (h.waiters l).1 t']
      by_cases ht : t' = t
      · subst ht
        rw [Function.update_self]
        exact ⟨fun _ => rfl, fun _ => .inr rfl⟩
      · rw [Function.update_of_ne ht]
        exact ⟨fun ho => ho.resolve_right ht, .inl⟩
    · rw [List.nodup_append']
      refine ⟨(h.waiters l).2, List.nodup_singleton t, fun t' ht' hm => ?_⟩
      rw [List.mem_singleton.mp hm] at ht'
      exact hnot ht'
  · obtain ⟨-, -, -, hone⟩ := (h.locks l).of_value hv
    have hzero : (s.lock l).semaphore.value - 1 = 0 := by rw [hone]; rfl
    refine ⟨_, false, by rw [semaphoreDown, if_neg hv]; exact if_pos hzero, ?_⟩
    rw [setLock_goto_eq_put, if_neg Bool.false_ne_true]
    refine h.put hon rfl (hlocal hd) (h.bound t l) (.take ?_ hv rfl rfl rfl) ?_ (h.waiters l).2
    · simp [view]
    · exact h.waiters_keep (fun _ => by rw [hpc]; nofun) fun _ => nofun

/-- `semaphore_up`: the first waiter is back at its test, then the owner gives the semaphore
back. -/
theorem Inv.up (h : Inv s) (hpc : s.pc t = .up l) :
    Inv ((((s.setLock l { s.lock l with
      semaphore := (semaphoreUp (s.lock l).semaphore).1 }).setDepth t l (s.depth t l - 1)).goto t
        .idle).wake (semaphoreUp (s.lock l).semaphore).2) := by
  have hd : s.depth t l = 1 := by
    have := h.locals t
    rwa [hpc] at this
  have hview : s.viewOf l t = some (none, 0) := by
    rw [viewOf, hpc]
    simp [view]
  -- the last part, from any state with the same view of `t`
  have hgive : ∀ {s₁ : LockSys T L}, Inv s₁ → s₁.pc t = .up l → s₁.depth t l = 1 →
      Inv (s₁.put t l .idle 0 { s₁.lock l with
        semaphore := { (s₁.lock l).semaphore with
          value := (s₁.lock l).semaphore.value + 1 } }) := by
    intro s₁ h₁ hpc₁ hd₁
    have hview₁ : s₁.viewOf l t = some (none, 0) := by
      rw [viewOf, hpc₁]
      simp [view]
    refine h₁.put (by rw [hpc₁]; rfl) trivial trivial (by decide) (.give hview₁ rfl rfl rfl rfl) ?_
      (h₁.waiters l).2
    exact h₁.waiters_keep (fun _ => by rw [hpc₁]; nofun) fun _ => nofun
  rw [setDepth_goto_eq_put, hd]
  cases hw : (s.lock l).semaphore.waiters with
  | nil =>
    rw [show semaphoreUp (s.lock l).semaphore = ({ (s.lock l).semaphore with
      value := (s.lock l).semaphore.value + 1 }, none) by simp [semaphoreUp, hw]]
    exact hgive h hpc hd
  | cons w ws =>
    rw [show semaphoreUp (s.lock l).semaphore = ({ (s.lock l).semaphore with
      waiters := ws, value := (s.lock l).semaphore.value + 1 }, some w) by simp [semaphoreUp, hw]]
    have hwb : s.pc w = .blocked l := ((h.waiters l).1 w).mp (by rw [hw]; exact List.mem_cons_self ..)
    have hwt : w ≠ t := by
      rintro rfl
      rw [hpc] at hwb
      cases hwb
    have hnd := (h.waiters l).2
    rw [hw] at hnd
    obtain ⟨hwws, hws⟩ := List.nodup_cons.mp hnd
    have hw0 : s.depth w l = 0 := by
      have := h.locals w
      rwa [hwb] at this
    -- the waiter is taken off the list
    have h₁ : Inv (s.put w l (.down l) (s.depth w l) { s.lock l with
        semaphore := { (s.lock l).semaphore with waiters := ws } }) := by
      refine h.put (by rw [hwb]; rfl) rfl ?_ (h.bound w l) (.keep ?_ rfl rfl rfl) (fun t' => ?_) hws
      · rw [Function.update_eq_self]
        exact hw0
      · rw [viewOf, hwb]
        rfl
      · have hm := (h.waiters l).1 t'
        rw [hw, List.mem_cons] at hm
        by_cases ht : t' = w
        · subst ht
          rw [Function.update_self]
          exact ⟨fun hin => absurd hin hwws, fun he => by cases he⟩
        · rw [Function.update_of_ne ht, ← hm]
          exact ⟨.inr, fun ho => ho.resolve_left ht⟩
    have h₂ := hgive h₁ (by rw [put_pc_ne hwt.symm, hpc]) (by rw [put_depth_ne hwt.symm, hd])
    have hsame : (s.put t l .idle 0 { s.lock l with
        semaphore := { value := (s.lock l).semaphore.value + 1, waiters := ws } }).wake (some w) =
      (s.put w l (.down l) (s.depth w l) { s.lock l with
        semaphore := { (s.lock l).semaphore with waiters := ws } }).put t l .idle 0
        { s.lock l with
          semaphore := { value := (s.lock l).semaphore.value + 1, waiters := ws } } := by
      have hwpc : (s.put t l .idle 0 { s.lock l with
          semaphore := { value := (s.lock l).semaphore.value + 1, waiters := ws } }).pc w =
          .blocked l := by rw [put_pc_ne hwt, hwb]
      simp only [wake, hwpc]
      simp [LockSys.goto, LockSys.put, Function.update_comm hwt]
    rw [hsame]
    simpa using h₂

omit [DecidableEq T] in
theorem view_idle {n : Nat} (hn : n ≠ 0) : view .idle l t n = some (some t, n) := if_neg hn

omit [DecidableEq T] in
/-- A thread stands for no other holder. -/
theorem view_holder {pc : LockPc L} {n m : Nat} {x : Option T} (h : view pc l t n = some (x, m)) :
    x = none ∨ x = some t := by
  have hheld : (if n = 0 then none else some (some t, n)) = some (x, m) → x = none ∨ x = some t := by
    intro hh
    split at hh
    · cases hh
    · cases hh
      exact .inr rfl
  cases pc <;> first
    | exact hheld h
    | (simp only [view] at h
       split at h
       · cases h
         first
           | exact .inl rfl
           | exact .inr rfl
       · exact hheld h)

/-- `lock->holder` tells a thread that is not in the middle of `lock_release` whether it is
inside. -/
theorem Inv.holder_iff (h : Inv s)
    (hv : s.viewOf l t = if s.depth t l = 0 then none else some (some t, s.depth t l)) :
    (s.lock l).holder = some t ↔ 1 ≤ s.depth t l := by
  constructor
  · intro hh
    by_contra hd
    have hd0 : s.depth t l = 0 := by omega
    rw [if_pos hd0] at hv
    rcases h.locks l with ⟨-, hnone, -⟩ | ⟨t₀, x, n, hv₀, hother, hx, -⟩
    · rw [hnone] at hh
      cases hh
    · rw [hx] at hh
      subst hh
      rcases view_holder hv₀ with hnone | hsome
      · cases hnone
      · cases hsome
        rw [hv] at hv₀
        cases hv₀
  · intro hd
    rw [if_neg (by omega)] at hv
    exact ((h.locks l).of_view hv).2.1

/-- **One statement**: no `ASSERT` fails, and the invariant is kept. -/
theorem exec_inv (h : Inv s) {r : Except Fault (LockSys T L)} (he : s.exec t = some r) :
    ∃ s', r = .ok s' ∧ Inv s' := by
  have hloc := h.locals t
  cases hpc : s.pc t with
  | idle => simp [LockSys.exec, hpc] at he
  | blocked l => simp [LockSys.exec, hpc] at he
  | testHolder l =>
    rw [hpc] at hloc
    have hv : s.viewOf l t = if s.depth t l = 0 then none else some (some t, s.depth t l) := by
      rw [viewOf, hpc]
      rfl
    have hiff := h.holder_iff hv
    simp only [LockSys.exec, hpc] at he
    by_cases hh : (s.lock l).holder = some t
    · rw [if_neg (not_not.mpr hh)] at he
      refine ⟨_, (Option.some.inj he).symm, h.goto (l := l) ?_ rfl ⟨hiff.mp hh, hloc⟩ hv.symm ?_
        fun _ => nofun⟩
      · rw [hpc]
        rfl
      · rw [hpc]
        exact fun _ => nofun
    · rw [if_pos hh] at he
      have hd : s.depth t l = 0 := by
        by_contra hd
        exact hh (hiff.mpr (by omega))
      refine ⟨_, (Option.some.inj he).symm, h.goto (l := l) ?_ rfl hd hv.symm ?_ fun _ => nofun⟩
      · rw [hpc]
        rfl
      · rw [hpc]
        exact fun _ => nofun
  | down l =>
    obtain ⟨sema, b, hdown, hinv⟩ := h.down hpc
    simp only [LockSys.exec, hpc, hdown, Option.some.injEq] at he
    exact ⟨_, he.symm, hinv⟩
  | up l =>
    simp only [LockSys.exec, hpc, Option.some.injEq] at he
    exact ⟨_, he.symm, h.up hpc⟩
  | setHolder l =>
    rw [hpc] at hloc
    have hv : s.viewOf l t = some (none, 0) := by
      rw [viewOf, hpc]
      simp [view]
    obtain ⟨-, -, hc, -⟩ := (h.locks l).of_view hv
    simp only [LockSys.exec, hpc, setLock_goto_eq_put, Option.some.injEq] at he
    refine ⟨_, he.symm, h.setFields (by rw [hpc]; rfl) rfl ?_ (h.bound t l) hv
      (by simp [view]) rfl hc rfl (by rw [hpc]; exact fun _ => nofun) fun _ => nofun⟩
    rw [Function.update_eq_self]
    exact hloc
  | assertZero l =>
    rw [hpc] at hloc
    have hv : s.viewOf l t = some (some t, 0) := by
      rw [viewOf, hpc]
      simp [view]
    obtain ⟨-, -, hc, -⟩ := (h.locks l).of_view hv
    have hc0 : (s.lock l).holderRepeatCnt = 0 := UInt32.toNat_inj.mp hc
    simp only [LockSys.exec, hpc, hc0, if_true, Option.some.injEq] at he
    refine ⟨_, he.symm, h.goto (l := l) (by rw [hpc]; rfl) rfl hloc ?_
      (by rw [hpc]; exact fun _ => nofun) fun _ => nofun⟩
    rw [hv]
    simp [view]
  | setCnt l =>
    rw [hpc] at hloc
    have hd : s.depth t l = 0 := hloc
    have hv : s.viewOf l t = some (some t, 0) := by
      rw [viewOf, hpc]
      simp [view]
    obtain ⟨-, hh, -, -⟩ := (h.locks l).of_view hv
    simp only [LockSys.exec, hpc, setDepth_goto_eq_put, Option.some.injEq, hd] at he
    exact ⟨_, he.symm, h.setFields (by rw [hpc]; rfl) trivial trivial (by decide) hv
      rfl hh rfl rfl (by rw [hpc]; exact fun _ => nofun) fun _ => nofun⟩
  | incCnt l =>
    rw [hpc] at hloc
    obtain ⟨hd, hlt⟩ : 1 ≤ s.depth t l ∧ s.depth t l + 1 < 2 ^ 32 := hloc
    have hv : s.viewOf l t = some (some t, s.depth t l) := by
      rw [viewOf, hpc]
      exact if_neg (by omega)
    obtain ⟨-, hh, hc, -⟩ := (h.locks l).of_view hv
    simp only [LockSys.exec, hpc, setDepth_goto_eq_put, Option.some.injEq] at he
    refine ⟨_, he.symm, h.setFields (by rw [hpc]; rfl) trivial trivial hlt hv
      (view_idle (by omega)) hh ?_ rfl (by rw [hpc]; exact fun _ => nofun)
      fun _ => nofun⟩
    show ((s.lock l).holderRepeatCnt + 1).toNat = _
    rw [UInt32.toNat_add, hc]
    exact Nat.mod_eq_of_lt hlt
  | testCnt l =>
    rw [hpc] at hloc
    have hd : 1 ≤ s.depth t l := hloc
    have hv : s.viewOf l t = some (some t, s.depth t l) := by
      rw [viewOf, hpc]
      exact if_neg (by omega)
    obtain ⟨-, -, hc, -⟩ := (h.locks l).of_view hv
    have hgt : (s.lock l).holderRepeatCnt > 1 ↔ 1 < s.depth t l := by
      rw [← hc]
      exact UInt32.lt_iff_toNat_lt
    simp only [LockSys.exec, hpc] at he
    by_cases hcnt : (s.lock l).holderRepeatCnt > 1
    · rw [if_pos hcnt] at he
      refine ⟨_, (Option.some.inj he).symm, h.goto (l := l) (by rw [hpc]; rfl) rfl (hgt.mp hcnt) ?_
        (by rw [hpc]; exact fun _ => nofun) fun _ => nofun⟩
      rw [viewOf, hpc]
      rfl
    · rw [if_neg hcnt] at he
      have hone : s.depth t l = 1 := by
        rw [hgt] at hcnt
        omega
      refine ⟨_, (Option.some.inj he).symm, h.goto (l := l) (by rw [hpc]; rfl) rfl hone ?_
        (by rw [hpc]; exact fun _ => nofun) fun _ => nofun⟩
      rw [viewOf, hpc]
      rfl
  | decCnt l =>
    rw [hpc] at hloc
    have hd : 2 ≤ s.depth t l := hloc
    have hv : s.viewOf l t = some (some t, s.depth t l) := by
      rw [viewOf, hpc]
      exact if_neg (by omega)
    obtain ⟨-, hh, hc, -⟩ := (h.locks l).of_view hv
    have hlt := h.bound t l
    simp only [LockSys.exec, hpc, setDepth_goto_eq_put, Option.some.injEq] at he
    refine ⟨_, he.symm, h.setFields (by rw [hpc]; rfl) trivial trivial (by omega) hv
      (view_idle (by omega)) hh ?_ rfl (by rw [hpc]; exact fun _ => nofun)
      fun _ => nofun⟩
    show ((s.lock l).holderRepeatCnt - 1).toNat = _
    have hle : (1 : UInt32) ≤ (s.lock l).holderRepeatCnt := by
      rw [UInt32.le_iff_toNat_le, hc]
      exact Nat.le_trans (by decide : (1 : UInt32).toNat ≤ 2) hd
    rw [UInt32.toNat_sub_of_le _ _ hle, hc]
    rfl
  | assertOne l =>
    rw [hpc] at hloc
    have hd : s.depth t l = 1 := hloc
    have hv : s.viewOf l t = some (some t, 1) := by
      rw [viewOf, hpc, hd]
      rfl
    obtain ⟨-, -, hc, -⟩ := (h.locks l).of_view hv
    have hc1 : (s.lock l).holderRepeatCnt = 1 := UInt32.toNat_inj.mp hc
    simp only [LockSys.exec, hpc, hc1, if_true, Option.some.injEq] at he
    refine ⟨_, he.symm, h.goto (l := l) (by rw [hpc]; rfl) rfl hloc ?_
      (by rw [hpc]; exact fun _ => nofun) fun _ => nofun⟩
    rw [hv, hd]
    rfl
  | clearHolder l =>
    rw [hpc] at hloc
    have hd : s.depth t l = 1 := hloc
    have hv : s.viewOf l t = some (some t, 1) := by
      rw [viewOf, hpc, hd]
      rfl
    obtain ⟨-, -, hc, -⟩ := (h.locks l).of_view hv
    simp only [LockSys.exec, hpc, setLock_goto_eq_put, Option.some.injEq] at he
    refine ⟨_, he.symm, h.setFields (by rw [hpc]; rfl) rfl ?_ (h.bound t l) hv
      (by simp [view]) rfl hc rfl (by rw [hpc]; exact fun _ => nofun) fun _ => nofun⟩
    rw [Function.update_eq_self]
    exact hloc
  | clearCnt l =>
    rw [hpc] at hloc
    have hv : s.viewOf l t = some (none, 1) := by
      rw [viewOf, hpc]
      simp [view]
    obtain ⟨-, hh, -, -⟩ := (h.locks l).of_view hv
    simp only [LockSys.exec, hpc, setLock_goto_eq_put, Option.some.injEq] at he
    refine ⟨_, he.symm, h.setFields (by rw [hpc]; rfl) rfl ?_ (h.bound t l) hv
      (by simp [view]) hh rfl rfl (by rw [hpc]; exact fun _ => nofun) fun _ => nofun⟩
    rw [Function.update_eq_self]
    exact hloc

/-- **One step** keeps the invariant, when no acquisition goes beyond the counter. -/
theorem Step.inv {s s' : LockSys T L} (hs : Step (fun n => n + 1 < 2 ^ 32) s s') (h : Inv s) :
    Inv s' := by
  cases hs with
  | acquire t l hpc hd =>
    refine h.goto (l := l) (by rw [hpc]; trivial) rfl hd ?_ (by rw [hpc]; exact fun _ => nofun)
      fun _ => nofun
    rw [viewOf, hpc]
    rfl
  | release t l hpc hd =>
    refine h.goto (l := l) (by rw [hpc]; trivial) rfl hd ?_ (by rw [hpc]; exact fun _ => nofun)
      fun _ => nofun
    rw [viewOf, hpc]
    rfl
  | exec t _ he =>
    obtain ⟨s1, hok, hinv⟩ := exec_inv h he
    cases hok
    exact hinv

theorem Reachable.inv {s : LockSys T L} (hr : Reachable (fun n => n + 1 < 2 ^ 32) s) : Inv s := by
  induction hr with
  | refl => exact inv_init
  | tail _ hstep ih => exact hstep.inv ih

end Exec

/-! ## Mutual exclusion -/

/-- The thread is between its outermost acquisition of the lock and the statements of the
matching release that take the lock from it. -/
def Inside (s : LockSys T L) (t : T) (l : L) : Prop :=
  1 ≤ s.depth t l ∧ s.pc t ≠ .clearCnt l ∧ s.pc t ≠ .up l

/-- No thread is about to fail an `ASSERT`. -/
def NoFault (s : LockSys T L) : Prop := ∀ t e, s.exec t ≠ some (.error e)

omit [DecidableEq T] in
/-- Inside, a thread stands for itself and its nesting depth. -/
theorem view_inside {s : LockSys T L} {t : T} {l : L} (h : Inv s) (hd : 1 ≤ s.depth t l) :
    ∃ x n, s.viewOf l t = some (x, n) ∧
      (s.Inside t l → x = some t ∧ n = s.depth t l) := by
  have hheld : (if s.depth t l = 0 then none else some (some t, s.depth t l)) =
      some (some t, s.depth t l) := if_neg (by omega)
  have hloc := h.locals t
  rw [viewOf]
  cases hpc : s.pc t with
  | clearCnt l' =>
    by_cases hl : l' = l
    · subst hl
      exact ⟨none, 1, by simp [view], fun hi => absurd hpc hi.2.1⟩
    · exact ⟨_, _, by simp [view, hl, hheld], fun _ => ⟨rfl, rfl⟩⟩
  | up l' =>
    by_cases hl : l' = l
    · subst hl
      exact ⟨none, 0, by simp [view], fun hi => absurd hpc hi.2.2⟩
    · exact ⟨_, _, by simp [view, hl, hheld], fun _ => ⟨rfl, rfl⟩⟩
  | setHolder l' | assertZero l' | setCnt l' =>
    have hl : l' ≠ l := by
      rintro rfl
      rw [hpc] at hloc
      have : s.depth t l' = 0 := hloc
      omega
    exact ⟨_, _, by simp [view, hl, hheld], fun _ => ⟨rfl, rfl⟩⟩
  | _ => exact ⟨_, _, hheld, fun _ => ⟨rfl, rfl⟩⟩

/-- One thread at most has the lock. -/
theorem Inv.depth_unique {s : LockSys T L} {t u : T} {l : L} (h : Inv s)
    (ht : 1 ≤ s.depth t l) (hu : 1 ≤ s.depth u l) : t = u := by
  obtain ⟨x, n, hv, -⟩ := view_inside h ht
  obtain ⟨x', n', hv', -⟩ := view_inside h hu
  by_contra hne
  rw [((h.locks l).of_view hv).1 u fun he => hne he.symm] at hv'
  cases hv'

/-- **Mutual exclusion of `struct lock`**, for nesting depths that fit the counter. -/
theorem lockSys_mutualExclusion {s : LockSys T L} (hr : Reachable (fun n => n + 1 < 2 ^ 32) s) :
    (∀ l t t', 1 ≤ s.depth t l → 1 ≤ s.depth t' l → t = t') ∧
    (∀ l, (s.lock l).semaphore.value = 0 ∨ (s.lock l).semaphore.value = 1) ∧
    (∀ l t, 1 ≤ s.depth t l → (s.lock l).semaphore.value = 0) ∧
    (∀ l t, s.Inside t l → (s.lock l).holder = some t ∧
      (s.lock l).holderRepeatCnt.toNat = s.depth t l) ∧
    s.NoFault := by
  have h := hr.inv
  refine ⟨fun l t t' ht ht' => ?_, fun l => ?_, fun l t ht => ?_, fun l t hi => ?_, fun t e he => ?_⟩
  · exact h.depth_unique ht ht'
  · rcases h.locks l with ⟨-, -, -, hval⟩ | ⟨t, x, n, -, -, -, -, hval⟩
    · exact .inr hval
    · exact .inl hval
  · obtain ⟨x, n, hv, -⟩ := view_inside h ht
    exact ((h.locks l).of_view hv).2.2.2
  · obtain ⟨x, n, hv, heq⟩ := view_inside h hi.1
    obtain ⟨rfl, rfl⟩ := heq hi
    exact ⟨((h.locks l).of_view hv).2.1, ((h.locks l).of_view hv).2.2.1⟩
  · obtain ⟨s', hok, -⟩ := exec_inv h he
    cases hok

/-! ## Two threads on one lock -/

/-- A schedule: a thread calls `lock_acquire` on a lock, or makes its next statement. -/
def runMoves (s : LockSys T L) : List (T × Option L) → Option (LockSys T L)
  | [] => some s
  | (t, some l) :: moves =>
    if s.pc t = .idle ∧ s.depth t l + 1 < 2 ^ 32 then runMoves (s.goto t (.testHolder l)) moves
    else none
  | (t, none) :: moves =>
    match s.exec t with
    | some (.ok s') => runMoves s' moves
    | _ => none

theorem runMoves_reachable {s s' : LockSys T L} {moves : List (T × Option L)}
    (h : s.runMoves moves = some s') (hr : Reachable (fun n => n + 1 < 2 ^ 32) s) :
    Reachable (fun n => n + 1 < 2 ^ 32) s' := by
  induction moves generalizing s with
  | nil =>
    cases h
    exact hr
  | cons move moves ih =>
    obtain ⟨t, call⟩ := move
    cases call with
    | some l =>
      rw [runMoves] at h
      split at h
      · next hidle => exact ih h (hr.tail (.acquire t l hidle.1 hidle.2))
      · cases h
    | none =>
      rw [runMoves] at h
      split at h
      · next s1 hexec => exact ih h (hr.tail (.exec t s1 hexec))
      · cases h

/-- The first thread acquires the lock twice, and the second waits for it. -/
def nestedMoves : List (Fin 2 × Option Unit) :=
  (0, some ()) :: List.replicate 5 (0, none) ++ (0, some ()) :: List.replicate 2 (0, none) ++
    (1, some ()) :: List.replicate 2 (1, none)

theorem lockSys_mutualExclusion_nested : ∃ s : LockSys (Fin 2) Unit, init.runMoves nestedMoves = some s ∧
    s.pc 1 = .blocked () ∧ s.Inside 0 () ∧ (s.lock ()).holder = some 0 ∧
    (s.lock ()).holderRepeatCnt.toNat = 2 := by
  have hcheck : ((init : LockSys (Fin 2) Unit).runMoves nestedMoves).any (fun s =>
      decide (s.pc 1 = .blocked ()) && decide (s.pc 0 = .idle) && decide (s.depth 0 () = 2)) = true := by
    decide +kernel
  obtain ⟨s, hs, htests⟩ := (Option.any_eq_true _ _).mp hcheck
  simp only [Bool.and_eq_true, decide_eq_true_eq] at htests
  obtain ⟨⟨hblocked, hidle⟩, hdepth⟩ := htests
  have hi : s.Inside 0 () := by
    refine ⟨by omega, ?_, ?_⟩
    · rw [hidle]
      decide
    · rw [hidle]
      decide
  obtain ⟨hholder, hcnt⟩ := (lockSys_mutualExclusion (runMoves_reachable hs .refl)).2.2.2.1 () 0 hi
  exact ⟨s, hs, hblocked, hi, hholder, hcnt.trans hdepth⟩

/-! ## One thread on one lock -/

/-- The system of one thread and one lock. -/
def single (k : Lock Unit) (pc : LockPc Unit) (n : Nat) : LockSys Unit Unit :=
  ⟨fun _ => k, fun _ => pc, fun _ _ => n⟩

@[simp] theorem single_goto (k : Lock Unit) (pc pc' : LockPc Unit) (n : Nat) :
    (single k pc n).goto () pc' = single k pc' n := by
  simp [single, LockSys.goto, Function.update, funext_iff]

@[simp] theorem single_setLock (k k' : Lock Unit) (pc : LockPc Unit) (n : Nat) :
    (single k pc n).setLock () k' = single k' pc n := by
  simp [single, LockSys.setLock, Function.update, funext_iff]

@[simp] theorem single_setDepth (k : Lock Unit) (pc : LockPc Unit) (n n' : Nat) :
    (single k pc n).setDepth () () n' = single k pc n' := by
  simp [single, LockSys.setDepth, Function.update, funext_iff]

/-- The lock after `n` nested acquisitions. -/
def nestedLock (n : Nat) : Lock Unit := ⟨some (), ⟨0, []⟩, UInt32.ofNat n⟩

/-- The thread can nest the lock as deep as it likes. -/
theorem reachable_nested {Limit : Nat → Prop} : ∀ {n : Nat}, (∀ m ≤ n, Limit m) →
    Reachable Limit (single (nestedLock (n + 1)) .idle (n + 1))
  | 0, h => by
    have h0 : Reachable Limit (single lockInit .idle 0) := .refl
    have h1 := h0.tail (.acquire () () rfl (h 0 (Nat.le_refl 0)))
    rw [single_goto] at h1
    have h2 := h1.tail (.exec () (single lockInit (.down ()) 0) (by
      simp [LockSys.exec, single, lockInit, LockSys.goto, Function.update, funext_iff]))
    have h3 := h2.tail (.exec () (single ⟨none, ⟨0, []⟩, 0⟩ (.setHolder ()) 0) (by
      simp [LockSys.exec, single, lockInit, semaphoreInit, semaphoreDown, LockSys.goto,
        LockSys.setLock, Function.update, funext_iff]))
    have h4 := h3.tail (.exec () (single ⟨some (), ⟨0, []⟩, 0⟩ (.assertZero ()) 0) (by
      simp [LockSys.exec, single, LockSys.goto, LockSys.setLock, Function.update, funext_iff]))
    have h5 := h4.tail (.exec () (single ⟨some (), ⟨0, []⟩, 0⟩ (.setCnt ()) 0) (by
      simp [LockSys.exec, single, LockSys.goto, Function.update, funext_iff]))
    exact h5.tail (.exec () (single (nestedLock 1) .idle 1) (by
      simp [LockSys.exec, single, nestedLock, LockSys.goto, LockSys.setLock, LockSys.setDepth,
        Function.update, funext_iff]))
  | n + 1, h => by
    have h0 := reachable_nested (n := n) fun m hm => h m (Nat.le_succ_of_le hm)
    have h1 := h0.tail (.acquire () () rfl (h (n + 1) (Nat.le_refl _)))
    rw [single_goto] at h1
    have h2 := h1.tail (.exec () (single (nestedLock (n + 1)) (.incCnt ()) (n + 1)) (by
      simp [LockSys.exec, single, nestedLock, LockSys.goto, Function.update, funext_iff]))
    refine h2.tail (.exec () (single (nestedLock (n + 2)) .idle (n + 2)) ?_)
    have hcnt : (nestedLock (n + 1)).holderRepeatCnt + 1 = (nestedLock (n + 2)).holderRepeatCnt := by
      rw [nestedLock, nestedLock]
      exact (UInt32.ofNat_add (n + 1) 1).symm
    simp [LockSys.exec, single, LockSys.goto, LockSys.setLock, LockSys.setDepth, Function.update,
      funext_iff, hcnt]
    rfl

/-- After `2^32` nested acquisitions the counter is zero, the thread is still inside, and its
next release fails the `ASSERT`. -/
theorem nesting_overflow :
    ∃ s : LockSys Unit Unit, Reachable (fun _ => True) s ∧ s.Inside () () ∧
      s.depth () () = 2 ^ 32 ∧ (s.lock ()).holderRepeatCnt = 0 ∧
      ∃ s' : LockSys Unit Unit, Reachable (fun _ => True) s' ∧ ¬ s'.NoFault := by
  have hr : Reachable (fun _ => True) (single (nestedLock (2 ^ 32)) .idle (2 ^ 32)) :=
    reachable_nested (n := 2 ^ 32 - 1) fun _ _ => trivial
  have hcnt : (nestedLock (2 ^ 32)).holderRepeatCnt = 0 := rfl
  refine ⟨_, hr, ⟨Nat.two_pow_pos 32, nofun, nofun⟩, rfl, hcnt, ?_⟩
  have h1 := hr.tail (.release () () rfl (Nat.two_pow_pos 32))
  rw [single_goto] at h1
  have h2 := h1.tail (.exec () (single (nestedLock (2 ^ 32)) (.assertOne ()) (2 ^ 32)) (by
    have hle : ¬ (nestedLock (2 ^ 32)).holderRepeatCnt > 1 := by
      rw [hcnt]
      decide
    simp only [LockSys.exec, single, hle, if_false, Option.some.injEq, Except.ok.injEq]
    exact single_goto ..))
  refine ⟨_, h2, fun hno => hno () .assert ?_⟩
  have hne : ¬ (nestedLock (2 ^ 32)).holderRepeatCnt = 1 := by
    rw [hcnt]
    decide
  simp only [LockSys.exec, single, hne, if_false]

end LockSys

end GwOS
