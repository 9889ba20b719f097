import GwOS.Device.Ioqueue

/-!
# The lock of the input queue

A reader that finds the queue empty takes `q->lock`, registers as `q->consumer` and sleeps
with the lock held; the next reader queues behind it at the lock. A producer that finds the
queue full does the same, but after it has slept it calls `lock_acquire` once more in the
place of `lock_release`.

`Inv` ties the lock, the two waiting threads and the places of all threads together. It holds
in every run in which no producer comes back from `ioq_wait` to a queue with room.

- `ioqueue_lockReleased`: in exactly these runs, a thread that is outside of the functions does
  not hold the lock.
- `ioqueue_fifo`: the queue is a FIFO queue, and with producers that do not block no call
  fails.
- `ioqueue_sleepsOnEmpty`: no reader sleeps on a queue with characters, in exactly the runs in
  which the reader that gets the lock finds the queue still empty.
-/

namespace GwOS

namespace IoqPc

/-- The thread is in `lock_acquire`, before `ioq_wait`. -/
def AtLock : IoqPc → Prop
  | .getLock | .putLock _ => True
  | _ => False

/-- The thread is in `ioq_wait`. -/
def Waits : IoqPc → Prop
  | .getWait | .putWait _ => True
  | _ => False

end IoqPc

/-- The queue knows the thread `t`, at the place `p` and asleep or not, for what it is. -/
structure Ioqueue.Knows {T : Type*} (q : Ioqueue T) (t : T) (p : IoqPc) (asleep : Bool) :
    Prop where
  waiter : t ∈ q.lock.semaphore.waiters ↔ asleep = true ∧ p.AtLock
  consumer : q.consumer = some t ↔ asleep = true ∧ p = .getWait
  producer : q.producer = some t ↔ asleep = true ∧ ∃ c, p = .putWait c
  holder : q.lock.holder = some t ↔ p.Waits
  /-- A reader holds the lock once; a producer may have acquired it again and again. -/
  cnt : p = .getWait → q.lock.holderRepeatCnt = 1
  awake : p = .outside → asleep = false
  relock : ∀ c, p ≠ .putRelock c

namespace Ioqueue.Knows

variable {T : Type*} {q : Ioqueue T} {t : T} {p : IoqPc} {b : Bool}

theorem not_waiter (h : q.Knows t p b) (hp : b = true → ¬ p.AtLock) :
    t ∉ q.lock.semaphore.waiters := fun hm =>
  hp (h.waiter.mp hm).1 (h.waiter.mp hm).2

theorem not_consumer (h : q.Knows t p b) (hp : b = true → p ≠ .getWait) : q.consumer ≠ some t :=
  fun hc => hp (h.consumer.mp hc).1 (h.consumer.mp hc).2

theorem not_producer (h : q.Knows t p b) (hp : b = true → ∀ c, p ≠ .putWait c) :
    q.producer ≠ some t := by
  intro hc
  obtain ⟨hb, c, he⟩ := h.producer.mp hc
  exact hp hb c he

/-- A thread that does not sleep is in no list and not registered. -/
theorem ofAwake (hw : t ∉ q.lock.semaphore.waiters) (hc : q.consumer ≠ some t)
    (hp : q.producer ≠ some t) (hh : q.lock.holder = some t ↔ p.Waits)
    (hcnt : p = .getWait → q.lock.holderRepeatCnt = 1) (hr : ∀ c, p ≠ .putRelock c) :
    q.Knows t p false where
  waiter := ⟨fun hm => absurd hm hw, fun hb => absurd hb.1 Bool.false_ne_true⟩
  consumer := ⟨fun hm => absurd hm hc, fun hb => absurd hb.1 Bool.false_ne_true⟩
  producer := ⟨fun hm => absurd hm hp, fun hb => absurd hb.1 Bool.false_ne_true⟩
  holder := hh
  cnt := hcnt
  awake := fun _ => rfl
  relock := hr

end Ioqueue.Knows

/-- The two queues know every thread but `t` for the same. -/
structure Ioqueue.SameBut {T : Type*} (t : T) (q q' : Ioqueue T) : Prop where
  waiter : ∀ u, u ≠ t → (u ∈ q'.lock.semaphore.waiters ↔ u ∈ q.lock.semaphore.waiters)
  consumer : ∀ u, u ≠ t → (q'.consumer = some u ↔ q.consumer = some u)
  producer : ∀ u, u ≠ t → (q'.producer = some u ↔ q.producer = some u)
  holder : ∀ u, u ≠ t → (q'.lock.holder = some u ↔ q.lock.holder = some u)
  cnt : ∀ u, u ≠ t → q.lock.holder = some u → q'.lock.holderRepeatCnt = q.lock.holderRepeatCnt

/-- The fields of the lock fit one another. -/
structure Lock.Ok {T : Type*} (lock : Lock T) : Prop where
  nodup : lock.semaphore.waiters.Nodup
  free : lock.holder = none → lock.semaphore.value = 1 ∧ lock.holderRepeatCnt = 0
  held : lock.holder ≠ none → lock.semaphore.value = 0

namespace IoqSys

variable {T : Type*} [DecidableEq T] {s s' : IoqSys T} {t u : T} {c : UInt8}

/-- What holds between two steps. -/
structure Inv (s : IoqSys T) : Prop where
  knows : ∀ t, s.q.Knows t (s.pc t) (s.asleep t)
  lock : s.q.lock.Ok

omit [DecidableEq T] in
theorem inv_init (buf : Vector UInt8 bufSize) : (init buf : IoqSys T).Inv where
  knows := fun _ =>
    { waiter := ⟨nofun, fun h => nomatch h.1⟩
      consumer := ⟨nofun, fun h => nomatch h.1⟩
      producer := ⟨nofun, fun h => nomatch h.1⟩
      holder := ⟨nofun, fun h => h.elim⟩
      cnt := nofun
      awake := fun _ => rfl
      relock := nofun }
  lock := ⟨List.nodup_nil, fun _ => ⟨rfl, rfl⟩, fun h => absurd rfl h⟩

/-- **One thread moves**, and the queue learns it. -/
theorem Inv.move (h : s.Inv) (t : T) (p : IoqPc) (b : Bool) (q : Ioqueue T)
    (hsame : s.q.SameBut t q) (ht : q.Knows t p b) (hlock : q.lock.Ok) :
    (goto { s with q } t p b).Inv := by
  refine ⟨fun u => ?_, hlock⟩
  by_cases hu : u = t
  · subst hu
    simp only [goto, Function.update_self]
    exact ht
  · simp only [goto, Function.update_of_ne hu]
    have hk := h.knows u
    refine ⟨(hsame.waiter u hu).trans hk.waiter, (hsame.consumer u hu).trans hk.consumer,
      (hsame.producer u hu).trans hk.producer, (hsame.holder u hu).trans hk.holder, fun hg => ?_,
      hk.awake, hk.relock⟩
    have hheld : s.q.lock.holder = some u := hk.holder.mpr (by rw [hg]; trivial)
    rw [hsame.cnt u hu hheld]
    exact hk.cnt hg

omit [DecidableEq T] in
/-- The ring is no part of the invariant. -/
theorem Inv.congr (h : s.Inv) (hlock : s'.q.lock = s.q.lock) (hc : s'.q.consumer = s.q.consumer)
    (hp : s'.q.producer = s.q.producer) (hpc : s'.pc = s.pc) (ha : s'.asleep = s.asleep) :
    s'.Inv := by
  refine ⟨fun u => ?_, hlock ▸ h.lock⟩
  have hk := h.knows u
  rw [hpc, ha]
  exact ⟨by rw [hlock]; exact hk.waiter, by rw [hc]; exact hk.consumer,
    by rw [hp]; exact hk.producer, by rw [hlock]; exact hk.holder, by rw [hlock]; exact hk.cnt,
    hk.awake, hk.relock⟩

theorem goto_self (hpc : s.pc t = .outside) (ha : s.asleep t = false) :
    s.goto t .outside false = s := by
  rw [goto, ← hpc, ← ha, Function.update_eq_self, Function.update_eq_self]

/-! ## The steps -/

section Steps

omit [DecidableEq T] in
/-- The queue does not know a thread that is outside. -/
theorem Inv.outside (h : s.Inv) (ht : s.pc t = .outside) :
    t ∉ s.q.lock.semaphore.waiters ∧ s.q.consumer ≠ some t ∧ s.q.producer ≠ some t ∧
      s.q.lock.holder ≠ some t ∧ s.asleep t = false := by
  have hk := h.knows t
  rw [ht] at hk
  exact ⟨hk.not_waiter fun _ => id, hk.not_consumer fun _ => nofun, hk.not_producer fun _ _ => nofun,
    fun hh => hk.holder.mp hh, hk.awake rfl⟩

omit [DecidableEq T] in
/-- While the lock is free nobody is registered. -/
theorem Inv.unregistered (h : s.Inv) (hfree : s.q.lock.holder = none) :
    s.q.consumer = none ∧ s.q.producer = none := by
  refine ⟨Option.eq_none_iff_forall_ne_some.mpr fun u hu => ?_,
    Option.eq_none_iff_forall_ne_some.mpr fun u hu => ?_⟩
  · have hh : s.q.lock.holder = some u :=
      (h.knows u).holder.mpr (by rw [((h.knows u).consumer.mp hu).2]; trivial)
    rw [hfree] at hh
    cases hh
  · obtain ⟨-, c, hc⟩ := (h.knows u).producer.mp hu
    have hh : s.q.lock.holder = some u := (h.knows u).holder.mpr (by rw [hc]; trivial)
    rw [hfree] at hh
    cases hh

/-- A thread that has been woken at the lock leaves its place. -/
theorem Inv.leave (h : s.Inv) (ht : (s.pc t).AtLock) (ha : s.asleep t = false) :
    (s.goto t .outside false).Inv := by
  have hk := h.knows t
  rw [ha] at hk
  have hw : ¬ (s.pc t).Waits := by
    cases hpc : s.pc t <;> rw [hpc] at ht <;> first | exact id | exact ht.elim
  refine h.move t .outside false s.q ⟨fun _ _ => .rfl, fun _ _ => .rfl, fun _ _ => .rfl,
    fun _ _ => .rfl, fun _ _ _ => rfl⟩ ?_ h.lock
  exact .ofAwake (hk.not_waiter nofun) (hk.not_consumer nofun) (hk.not_producer nofun)
    ⟨fun hh => hw (hk.holder.mp hh), fun hb => hb.elim⟩ nofun nofun

/-- What `lock_acquire` does for a thread that is outside: it blocks, or takes the free lock. -/
theorem Inv.lockDown_cases (h : s.Inv) (ht : s.pc t = .outside) :
    (s.q.lock.semaphore.value = 0 ∧ lockDown s.q.lock t = .ok ({ s.q.lock with
      semaphore := { s.q.lock.semaphore with waiters := s.q.lock.semaphore.waiters ++ [t] } }, true)) ∨
    (s.q.lock.semaphore.value = 1 ∧ s.q.lock.holder = none ∧
      lockDown s.q.lock t = .ok (⟨some t, ⟨0, s.q.lock.semaphore.waiters⟩, 1⟩, false)) := by
  obtain ⟨hnot, -⟩ := h.outside ht
  by_cases hh : s.q.lock.holder = none
  · obtain ⟨hv, hc⟩ := h.lock.free hh
    refine .inr ⟨hv, hh, ?_⟩
    rcases Semaphore.down_cases (.inr hv) hnot with ⟨hv', -⟩ | ⟨-, he⟩
    · exact absurd (hv.symm.trans hv') (by decide)
    · rw [lockDown, he]
      exact if_pos hc
  · have hv := h.lock.held hh
    refine .inl ⟨hv, ?_⟩
    rcases Semaphore.down_cases (.inl hv) hnot with ⟨-, he⟩ | ⟨hv', -⟩
    · rw [lockDown, he]
      rfl
    · exact absurd (hv.symm.trans hv') (by decide)

/-- A thread that is outside is not the holder. -/
theorem Inv.lockAcquire_eq (h : s.Inv) (ht : s.pc t = .outside) :
    lockAcquire s.q.lock t = lockDown s.q.lock t :=
  if_pos (h.outside ht).2.2.2.1

/-- A thread joins the waiters of the lock. -/
theorem Inv.block (h : s.Inv) (ht : s.pc t = .outside) {p : IoqPc} (hp : p.AtLock) :
    ((s.setLock { s.q.lock with semaphore := { s.q.lock.semaphore with
      waiters := s.q.lock.semaphore.waiters ++ [t] } }).goto t p true).Inv := by
  obtain ⟨hnot, hc, hpr, hh, -⟩ := h.outside ht
  refine h.move t p true _ ⟨fun u hu => ?_, fun _ _ => .rfl, fun _ _ => .rfl, fun _ _ => .rfl,
    fun _ _ _ => rfl⟩ ?_ ⟨?_, h.lock.free, h.lock.held⟩
  · simp [hu]
  · cases p with
    | getLock | putLock c =>
      exact
        { waiter := by simp [IoqPc.AtLock]
          consumer := ⟨fun he => absurd he hc, fun hb => nomatch hb.2⟩
          producer := ⟨fun he => absurd he hpr, fun hb => nomatch hb.2⟩
          holder := ⟨fun he => absurd he hh, fun hb => hb.elim⟩
          cnt := nofun
          awake := nofun
          relock := nofun }
    | outside | getWait | putWait c | putRelock c => exact hp.elim
  · refine List.nodup_append'.mpr ⟨h.lock.nodup, List.nodup_singleton t, fun u hu hm => hnot ?_⟩
    rwa [← List.mem_singleton.mp hm]

omit [DecidableEq T] in
/-- To another thread it is all one whether `t` is registered or nobody. -/
theorem some_eq_iff_none_eq {t u : T} (hu : u ≠ t) : some t = some u ↔ none = some u :=
  ⟨fun he => absurd (Option.some.inj he).symm hu, by rintro ⟨⟩⟩

/-- A thread that has taken the free lock registers as the consumer and sleeps. -/
theorem Inv.registerConsumer (h : s.Inv) (ht : s.pc t = .outside) (hfree : s.q.lock.holder = none) :
    (goto { s with q := { s.q with
      lock := ⟨some t, ⟨0, s.q.lock.semaphore.waiters⟩, 1⟩, consumer := some t } } t
      .getWait true).Inv := by
  obtain ⟨hnot, -, hpr, -, -⟩ := h.outside ht
  obtain ⟨hnc, -⟩ := h.unregistered hfree
  refine h.move t .getWait true _ ⟨fun _ _ => .rfl, fun u hu => ?_, fun _ _ => .rfl,
    fun u hu => ?_, fun u hu hh => ?_⟩ ?_ ⟨h.lock.nodup, nofun, fun _ => rfl⟩
  · rw [hnc]
    exact some_eq_iff_none_eq hu
  · rw [hfree]
    exact some_eq_iff_none_eq hu
  · rw [hfree] at hh
    cases hh
  · exact
      { waiter := ⟨fun hm => absurd hm hnot, fun hb => hb.2.elim⟩
        consumer := ⟨fun _ => ⟨rfl, rfl⟩, fun _ => rfl⟩
        producer := ⟨fun he => absurd he hpr, fun ⟨_, _, hb⟩ => nomatch hb⟩
        holder := ⟨fun _ => trivial, fun _ => rfl⟩
        cnt := fun _ => rfl
        awake := nofun
        relock := nofun }

/-- A thread that has taken the lock registers as the producer and sleeps. -/
theorem Inv.registerProducer (h : s.Inv) (ht : s.pc t = .outside) (hfree : s.q.lock.holder = none)
    (c : UInt8) :
    (goto { s with q := { s.q with
      lock := ⟨some t, ⟨0, s.q.lock.semaphore.waiters⟩, 1⟩, producer := some t } } t
      (.putWait c) true).Inv := by
  obtain ⟨hnot, hnc, -, -, -⟩ := h.outside ht
  obtain ⟨-, hnp⟩ := h.unregistered hfree
  refine h.move t (.putWait c) true _ ⟨fun _ _ => .rfl, fun _ _ => .rfl, fun u hu => ?_,
    fun u hu => ?_, fun u hu hh => ?_⟩ ?_ ⟨h.lock.nodup, nofun, fun _ => rfl⟩
  · rw [hnp]
    exact some_eq_iff_none_eq hu
  · rw [hfree]
    exact some_eq_iff_none_eq hu
  · rw [hfree] at hh
    cases hh
  · exact
      { waiter := ⟨fun hm => absurd hm hnot, fun hb => hb.2.elim⟩
        consumer := ⟨fun he => absurd he hnc, fun hb => nomatch hb.2⟩
        producer := ⟨fun _ => ⟨rfl, c, rfl⟩, fun _ => rfl⟩
        holder := ⟨fun _ => trivial, fun _ => rfl⟩
        cnt := nofun
        awake := nofun
        relock := nofun }

/-- `thread_unblock` of a thread that sleeps leaves it at its place. -/
theorem threadUnblock_eq (hu : s.asleep u = true) :
    s.threadUnblock u = .ok (s.goto u (s.pc u) false) := by
  rw [threadUnblock, if_pos hu, goto, Function.update_eq_self]

/-- The first waiter of the lock is unblocked. -/
theorem Inv.popWaiter (h : s.Inv) {ws : List T} (hw : s.q.lock.semaphore.waiters = u :: ws) :
    s.asleep u = true ∧
      ((s.setLock { s.q.lock with semaphore := { s.q.lock.semaphore with waiters := ws } }).goto u
        (s.pc u) false).Inv := by
  have hk := h.knows u
  obtain ⟨ha, hal⟩ := hk.waiter.mp (hw ▸ List.mem_cons_self ..)
  have hnd := h.lock.nodup
  rw [hw] at hnd
  obtain ⟨huws, hws⟩ := List.nodup_cons.mp hnd
  refine ⟨ha, h.move u _ false _ ⟨fun v hv => ?_, fun _ _ => .rfl, fun _ _ => .rfl, fun _ _ => .rfl,
    fun _ _ _ => rfl⟩ ?_ ⟨hws, h.lock.free, h.lock.held⟩⟩
  · rw [hw, List.mem_cons]
    exact ⟨.inr, fun hm => hm.resolve_left hv⟩
  · cases hpc : s.pc u with
    | getLock | putLock c =>
      rw [hpc] at hk
      exact .ofAwake huws (hk.not_consumer fun _ => nofun) (hk.not_producer fun _ _ => nofun)
        hk.holder nofun nofun
    | outside | getWait | putWait c | putRelock c =>
      rw [hpc] at hal
      exact hal.elim

/-- A reader that has been woken leaves `ioq_wait` and gives the lock back. -/
theorem Inv.release (h : s.Inv) (ht : s.pc t = .getWait) (ha : s.asleep t = false) :
    ∃ lock w s', lockRelease s.q.lock = .ok (lock, w) ∧
      ((s.goto t .outside false).setLock lock).unblockWaiter w = .ok s' ∧ s'.Inv ∧
      s'.pc = Function.update s.pc t .outside ∧ s'.q = { s.q with lock } := by
  have hk := h.knows t
  rw [ht, ha] at hk
  have hcnt : s.q.lock.holderRepeatCnt = 1 := hk.cnt rfl
  have hh : s.q.lock.holder = some t := hk.holder.mpr trivial
  have hv : s.q.lock.semaphore.value = 0 := h.lock.held (by rw [hh]; nofun)
  have hone : s.q.lock.semaphore.value + 1 = 1 := by rw [hv]; rfl
  have hrel : lockRelease s.q.lock = .ok (⟨none, (semaphoreUp s.q.lock.semaphore).1, 0⟩,
      (semaphoreUp s.q.lock.semaphore).2) := by
    rw [lockRelease, if_neg (by rw [hcnt]; decide), if_pos hcnt]
  -- the lock is free again, with the waiters that it had
  have h₁ : ((s.goto t .outside false).setLock
      ⟨none, { s.q.lock.semaphore with value := s.q.lock.semaphore.value + 1 }, 0⟩).Inv := by
    refine h.move t .outside false _ ⟨fun _ _ => .rfl, fun _ _ => .rfl, fun _ _ => .rfl,
      fun v hv => ?_, fun v hv hh' => ?_⟩ ?_ ⟨h.lock.nodup, fun _ => ⟨hone, rfl⟩, fun hne => ?_⟩
    · rw [hh]
      exact (some_eq_iff_none_eq hv).symm
    · rw [hh] at hh'
      exact absurd (Option.some.inj hh').symm hv
    · exact .ofAwake (hk.not_waiter nofun) (hk.not_consumer nofun) (hk.not_producer nofun)
        ⟨nofun, fun hb => hb.elim⟩ nofun nofun
    · exact absurd rfl hne
  rcases s.q.lock.semaphore.up_cases with ⟨hw, he⟩ | ⟨u, ws, hw, he⟩
  · rw [he] at hrel
    exact ⟨_, none, _, hrel, rfl, h₁, rfl, rfl⟩
  · rw [he] at hrel
    obtain ⟨hu, h₂⟩ := h₁.popWaiter hw
    refine ⟨_, some u, _, hrel, threadUnblock_eq hu, h₂, ?_, rfl⟩
    rw [goto, Function.update_eq_self]
    rfl

/-- A character wakes the consumer, if there is one. -/
theorem Inv.wakeupConsumer (h : s.Inv) :
    ∃ s', s.wakeupConsumer = .ok s' ∧ s'.Inv ∧ s'.pc = s.pc ∧
      s'.q = { s.q with consumer := none } := by
  cases hc : s.q.consumer with
  | none => exact ⟨s, by rw [IoqSys.wakeupConsumer, hc], h, rfl, by rw [← hc]⟩
  | some u =>
    have hk := h.knows u
    obtain ⟨ha, hg⟩ := hk.consumer.mp hc
    have hwake : s.wakeupConsumer =
        .ok (goto { s with q := { s.q with consumer := none } } u (s.pc u) false) := by
      rw [IoqSys.wakeupConsumer, hc]
      simp only [threadUnblock_eq ha]
      rfl
    refine ⟨_, hwake, h.move u _ false _ ⟨fun _ _ => .rfl, fun v hv => ?_, fun _ _ => .rfl,
      fun _ _ => .rfl, fun _ _ _ => rfl⟩ ?_ h.lock, Function.update_eq_self .., rfl⟩
    · rw [hc]
      exact (some_eq_iff_none_eq hv).symm
    · rw [hg] at hk ⊢
      exact .ofAwake (hk.not_waiter fun _ => id) (by rintro ⟨⟩) (hk.not_producer fun _ _ => by rintro ⟨⟩)
        hk.holder hk.cnt (by rintro _ ⟨⟩)

/-- A free cell wakes the producer, if there is one. -/
theorem Inv.wakeupProducer (h : s.Inv) :
    ∃ s', s.wakeupProducer = .ok s' ∧ s'.Inv ∧ s'.pc = s.pc ∧
      s'.q = { s.q with producer := none } := by
  cases hp : s.q.producer with
  | none => exact ⟨s, by rw [IoqSys.wakeupProducer, hp], h, rfl, by rw [← hp]⟩
  | some u =>
    have hk := h.knows u
    obtain ⟨ha, c, hc⟩ := hk.producer.mp hp
    have hwake : s.wakeupProducer =
        .ok (goto { s with q := { s.q with producer := none } } u (s.pc u) false) := by
      rw [IoqSys.wakeupProducer, hp]
      simp only [threadUnblock_eq ha]
      rfl
    refine ⟨_, hwake, h.move u _ false _ ⟨fun _ _ => .rfl, fun _ _ => .rfl, fun v hv => ?_,
      fun _ _ => .rfl, fun _ _ _ => rfl⟩ ?_ h.lock, Function.update_eq_self .., rfl⟩
    · rw [hp]
      exact (some_eq_iff_none_eq hv).symm
    · rw [hc] at hk ⊢
      exact .ofAwake (hk.not_waiter fun _ => id) (hk.not_consumer fun _ => by rintro ⟨⟩) (by rintro ⟨⟩)
        hk.holder hk.cnt (by rintro _ ⟨⟩)

/-- A reader at `lock_acquire` blocks there, or goes on to sleep in `ioq_wait`: the `ASSERT`
there holds. -/
theorem Inv.getDown (h : s.Inv) (ht : s.pc t = .outside) :
    ∃ lock b s', lockDown s.q.lock t = .ok (lock, b) ∧ s.getLocked t lock b = .ok s' ∧ s'.Inv := by
  rcases h.lockDown_cases ht with ⟨-, he⟩ | ⟨-, hfree, he⟩
  · exact ⟨_, true, _, he, rfl, h.block ht trivial⟩
  · refine ⟨_, false, _, he, ?_, h.registerConsumer ht hfree⟩
    simp only [getLocked, waitConsumer, setLock, (h.unregistered hfree).1]
    rfl

/-- A producer at its first `lock_acquire`. -/
theorem Inv.putDown (h : s.Inv) (ht : s.pc t = .outside) (c : UInt8) :
    ∃ lock b s', lockDown s.q.lock t = .ok (lock, b) ∧ s.putLocked t c lock b = .ok s' ∧
      s'.Inv := by
  rcases h.lockDown_cases ht with ⟨-, he⟩ | ⟨-, hfree, he⟩
  · exact ⟨_, true, _, he, rfl, h.block ht trivial⟩
  · refine ⟨_, false, _, he, ?_, h.registerProducer ht hfree c⟩
    simp only [putLocked, waitProducer, setLock, (h.unregistered hfree).2]
    rfl

/-- A reader takes a character and is done. -/
theorem Inv.take (h : s.Inv) (hl : s.Fifo) (hne : s.q.isIoqEmpty = false) (ht : s.pc t = .outside) :
    ∃ s', s.take t = .ok s' ∧ s'.Inv := by
  obtain ⟨l, hl, -⟩ := hl
  cases l with
  | nil =>
    rw [hl.isIoqEmpty_iff.mpr rfl] at hne
    cases hne
  | cons c l =>
    have h₁ : Inv { s with q := { s.q with tail := getNextPos s.q.tail } } :=
      h.congr rfl rfl rfl rfl rfl
    obtain ⟨s₂, hwake, h₂, hpc, -⟩ := h₁.wakeupProducer
    have ht₂ : s₂.pc t = .outside := by rw [hpc]; exact ht
    refine ⟨_, by rw [IoqSys.take, hl.read.1]; simp only [hwake, bind, Except.bind]; rfl, ?_⟩
    have h₃ : Inv { s₂ with got := s₂.got ++ [c] } := h₂.congr rfl rfl rfl rfl rfl
    rwa [goto_self (s := { s₂ with got := s₂.got ++ [c] }) ht₂ ((h₃.knows t).awake ht₂)]

/-- A character is put into a queue that is not full. -/
theorem Inv.store (h : s.Inv) (hl : s.Fifo) (hfull : s.q.isIoqFull = false) (c : UInt8) :
    ∃ s', s.store c = .ok s' ∧ s'.Inv ∧ s'.pc = s.pc ∧ s'.q.lock = s.q.lock ∧
      s'.q.consumer = none := by
  obtain ⟨l, hl, -⟩ := hl
  obtain ⟨buf, hwrite, -⟩ := hl.write hfull c
  have h₁ : Inv { s with q := { s.q with buf, head := getNextPos s.q.head }, put := s.put ++ [c] } :=
    h.congr rfl rfl rfl rfl rfl
  obtain ⟨s₂, hwake, h₂, hpc, hq⟩ := h₁.wakeupConsumer
  refine ⟨s₂, by rw [IoqSys.store, hwrite]; exact hwake, h₂, hpc, by rw [hq], by rw [hq]⟩

theorem Inv.ioqGetchar (h : s.Inv) (hl : s.Fifo) (ht : s.pc t = .outside) :
    ∃ s', s.ioqGetchar t = .ok s' ∧ s'.Inv := by
  cases hempty : s.q.isIoqEmpty with
  | true =>
    obtain ⟨lock, b, s', hdown, hgo, hinv⟩ := h.getDown ht
    refine ⟨s', ?_, hinv⟩
    rw [IoqSys.ioqGetchar, if_pos hempty, h.lockAcquire_eq ht, hdown]
    exact hgo
  | false =>
    obtain ⟨s', htake, hinv⟩ := h.take hl hempty ht
    refine ⟨s', ?_, hinv⟩
    rw [IoqSys.ioqGetchar, hempty]
    exact htake

theorem Inv.ioqPutchar (h : s.Inv) (hl : s.Fifo) (ht : s.pc t = .outside) (c : UInt8) :
    ∃ s', s.ioqPutchar t c = .ok s' ∧ s'.Inv := by
  cases hfull : s.q.isIoqFull with
  | true =>
    obtain ⟨lock, b, s', hdown, hgo, hinv⟩ := h.putDown ht c
    refine ⟨s', ?_, hinv⟩
    rw [IoqSys.ioqPutchar, if_pos hfull, h.lockAcquire_eq ht, hdown]
    exact hgo
  | false =>
    obtain ⟨s', hstore, hinv, hpc, -⟩ := h.store hl hfull c
    have ht' : s'.pc t = .outside := by rw [hpc, ht]
    refine ⟨s', ?_, hinv⟩
    rw [IoqSys.ioqPutchar, hfull]
    simp only [Bool.false_eq_true, if_false, hstore]
    exact congrArg Except.ok (goto_self ht' ((hinv.knows t).awake ht'))

/-- What `lock_acquire` does for a producer that has slept: it holds the lock already. -/
theorem Inv.reacquire (h : s.Inv) (ht : s.pc t = .putWait c) :
    lockAcquire s.q.lock t =
      .ok ({ s.q.lock with holderRepeatCnt := s.q.lock.holderRepeatCnt + 1 }, false) := by
  refine if_neg (not_not.mpr ((h.knows t).holder.mpr ?_))
  rw [ht]
  trivial

/-- A producer that has slept and finds the queue full again: it sleeps again, and has acquired
the lock twice more. -/
theorem Inv.putAgain (h : s.Inv) (ht : s.pc t = .putWait c) (ha : s.asleep t = false)
    (hfull : s.q.isIoqFull = true) : ∃ s', s.resume t = .ok s' ∧ s'.Inv := by
  have hk := h.knows t
  rw [ht, ha] at hk
  have hh : s.q.lock.holder = some t := hk.holder.mpr trivial
  have hnp : s.q.producer = none := by
    refine Option.eq_none_iff_forall_ne_some.mpr fun u hu => ?_
    obtain ⟨hau, d, hd⟩ := (h.knows u).producer.mp hu
    have hhu : s.q.lock.holder = some u := (h.knows u).holder.mpr (by rw [hd]; trivial)
    rw [hh] at hhu
    cases hhu
    rw [ha] at hau
    cases hau
  have hres : s.resume t = .ok (goto { s with q := { s.q with
      lock := { s.q.lock with holderRepeatCnt := s.q.lock.holderRepeatCnt + 1 + 1 }
      producer := some t } } t (.putWait c) true) := by
    simp only [resume, ht, h.reacquire ht, bind, Except.bind, putRelocked, Bool.false_eq_true,
      if_false, IoqSys.ioqPutchar]
    have hfull' : ((s.goto t .outside false).setLock { s.q.lock with
        holderRepeatCnt := s.q.lock.holderRepeatCnt + 1 }).q.isIoqFull = true := hfull
    rw [if_pos hfull']
    simp [lockAcquire, setLock, goto, hh, putLocked, waitProducer, hnp]
  refine ⟨_, hres, h.move t _ true _ ⟨fun _ _ => .rfl, fun _ _ => .rfl, fun u hu => ?_,
    fun _ _ => .rfl, fun u hu hhu => ?_⟩ ?_ ⟨h.lock.nodup, fun he => ?_, h.lock.held⟩⟩
  · rw [hnp]
    exact some_eq_iff_none_eq hu
  · rw [hh] at hhu
    exact absurd (Option.some.inj hhu).symm hu
  · exact
      { waiter := ⟨fun hm => absurd hm (hk.not_waiter (by rintro ⟨⟩)), fun hb => hb.2.elim⟩
        consumer := ⟨fun he => absurd he (hk.not_consumer (by rintro ⟨⟩)), by rintro ⟨-, ⟨⟩⟩⟩
        producer := ⟨fun _ => ⟨rfl, c, rfl⟩, fun _ => rfl⟩
        holder := hk.holder
        cnt := by rintro ⟨⟩
        awake := by rintro ⟨⟩
        relock := by rintro _ ⟨⟩ }
  · rw [hh] at he
    cases he

/-- No producer comes back from `ioq_wait` to a queue with room. -/
def ProducersStay (s : IoqSys T) (a : Act T) : Prop :=
  ∀ t c, a = .resume t → s.pc t = .putWait c → s.q.isIoqFull = true

/-- **One step** keeps the invariant and does not fail. -/
theorem Inv.exec (h : s.Inv) (hl : s.Fifo) {a : Act T} (ha : s.Enabled a)
    (hstay : s.ProducersStay a) : ∃ s', s.exec a = .ok s' ∧ s'.Inv := by
  cases a with
  | getchar t => exact h.ioqGetchar hl ha
  | putchar t c => exact h.ioqPutchar hl ha c
  | interrupt c =>
    obtain ⟨s', hstore, hinv, -⟩ := h.store hl ha c
    exact ⟨s', hstore, hinv⟩
  | resume t =>
    obtain ⟨hpc, hawake⟩ := ha
    have hout : (s.goto t .outside false).pc t = .outside := Function.update_self ..
    show ∃ s', s.resume t = .ok s' ∧ s'.Inv
    cases ht : s.pc t with
    | outside => exact absurd ht hpc
    | getLock =>
      have h₁ := h.leave (t := t) (by rw [ht]; trivial) hawake
      obtain ⟨lock, b, s', hdown, hgo, hinv⟩ := h₁.getDown hout
      refine ⟨s', ?_, hinv⟩
      rw [resume, ht]
      exact bind_eq_ok.mpr ⟨(lock, b), hdown, hgo⟩
    | getWait =>
      obtain ⟨lock, w, s₁, hrel, hun, h₁, hpc₁, hq₁⟩ := h.release ht hawake
      have hl₁ : s₁.Fifo := (hl.goto t .outside false).setLock lock |>.unblockWaiter w _ hun
      obtain ⟨s', hget, hinv⟩ := h₁.ioqGetchar hl₁ (t := t) (by rw [hpc₁, Function.update_self])
      refine ⟨s', ?_, hinv⟩
      rw [resume, ht]
      exact bind_eq_ok.mpr ⟨(lock, w), hrel, bind_eq_ok.mpr ⟨s₁, hun, hget⟩⟩
    | putLock c =>
      have h₁ := h.leave (t := t) (by rw [ht]; trivial) hawake
      obtain ⟨lock, b, s', hdown, hgo, hinv⟩ := h₁.putDown hout c
      refine ⟨s', ?_, hinv⟩
      rw [resume, ht]
      exact bind_eq_ok.mpr ⟨(lock, b), hdown, hgo⟩
    | putWait c => exact h.putAgain ht hawake (hstay t c rfl ht)
    | putRelock c => exact absurd ht ((h.knows t).relock c)

theorem Reachable.inv {Allowed : IoqSys T → Act T → Prop} {buf : Vector UInt8 bufSize}
    (hstay : ∀ s a, Reachable Allowed buf s → Allowed s a → ProducersStay s a)
    (hr : Reachable Allowed buf s) : s.Inv := by
  induction hr with
  | refl => exact inv_init buf
  | tail hprev hstep ih =>
    obtain ⟨a, ha, hallowed, hok⟩ := hstep
    obtain ⟨s₁, hok₁, hinv⟩ := ih.exec (Reachable.fifo hprev) ha (hstay _ a hprev hallowed)
    rw [hok] at hok₁
    cases hok₁
    exact hinv

end Steps

/-! ## Who holds the lock -/

/-- No thread that has returned holds the lock. -/
def Released (s : IoqSys T) : Prop := ∀ t, s.pc t = .outside → s.q.lock.holder ≠ some t

/-- A producer that comes back from `ioq_wait` to a queue with room returns with the lock. -/
theorem Inv.putReturns (h : s.Inv) (hl : s.Fifo) (ht : s.pc t = .putWait c)
    (hroom : s.q.isIoqFull = false) : ∃ s', s.resume t = .ok s' ∧ ¬ s'.Released := by
  have hh : s.q.lock.holder = some t := (h.knows t).holder.mpr (by rw [ht]; trivial)
  have hnc : s.q.consumer = none := by
    refine Option.eq_none_iff_forall_ne_some.mpr fun u hu => ?_
    obtain ⟨-, hg⟩ := (h.knows u).consumer.mp hu
    have hhu : s.q.lock.holder = some u := (h.knows u).holder.mpr (by rw [hg]; trivial)
    rw [hh] at hhu
    cases hhu
    rw [ht] at hg
    cases hg
  obtain ⟨l, hl, -⟩ := hl
  have hlt : s.q.head < bufSize := hl.head_lt
  have hres : s.resume t = .ok (goto { s with
      q := { s.q with
        lock := { s.q.lock with holderRepeatCnt := s.q.lock.holderRepeatCnt + 1 }
        buf := s.q.buf.set s.q.head c hlt
        head := getNextPos s.q.head }
      put := s.put ++ [c] } t .outside false) := by
    simp only [resume, ht, h.reacquire ht, bind, Except.bind, putRelocked, Bool.false_eq_true,
      if_false, IoqSys.ioqPutchar]
    have hroom' : ((s.goto t .outside false).setLock { s.q.lock with
        holderRepeatCnt := s.q.lock.holderRepeatCnt + 1 }).q.isIoqFull = false := hroom
    rw [if_neg (Bool.eq_false_iff.mp hroom')]
    simp [IoqSys.store, Ioqueue.write, setLock, goto, hlt, IoqSys.wakeupConsumer, hnc, bind, Except.bind]
  refine ⟨_, hres, fun hrel => hrel t (Function.update_self ..) hh⟩

/-- **The lock is given back**, in every state of the runs in which no producer comes back from
`ioq_wait` to a queue with room: a thread that has returned does not hold it, and when no thread
is in `ioq_wait` it is free. The first step that breaks the condition leaves a thread outside
with the lock. -/
theorem ioqueue_lockReleased {buf : Vector UInt8 bufSize} (hr : Reachable ProducersStay buf s) :
    s.Released ∧
    ((∀ t, ¬ (s.pc t).Waits) → s.q.lock.holder = none ∧ s.q.lock.holderRepeatCnt = 0 ∧
      s.q.lock.semaphore.value = 1) ∧
    (∀ a, s.Enabled a → (s.ProducersStay a ↔ ∃ s', s.exec a = .ok s' ∧ s'.Released)) := by
  have h := hr.inv fun _ _ _ ha => ha
  have hl := hr.fifo
  have hrel : ∀ {s : IoqSys T}, s.Inv → s.Released := fun h t ht => (h.outside ht).2.2.2.1
  refine ⟨hrel h, fun hno => ?_, fun a ha => ⟨fun hstay => ?_, ?_⟩⟩
  · have hfree : s.q.lock.holder = none := by
      refine Option.eq_none_iff_forall_ne_some.mpr fun u hu => hno u ?_
      exact (h.knows u).holder.mp hu
    obtain ⟨hv, hc⟩ := h.lock.free hfree
    exact ⟨hfree, hc, hv⟩
  · obtain ⟨s', hok, hinv⟩ := h.exec hl ha hstay
    exact ⟨s', hok, hrel hinv⟩
  · rintro ⟨s', hok, hrel'⟩ t c rfl ht
    by_contra hroom
    obtain ⟨s₁, hok₁, hnot⟩ := h.putReturns hl ht (Bool.eq_false_iff.mpr hroom)
    have hok' : s.resume t = .ok s' := hok
    rw [hok₁] at hok'
    cases hok'
    exact hnot hrel'

/-- Sixty-three characters fill the queue; the producer sleeps, a reader makes room, and the
producer returns. -/
def producerReturns : List (Act Bool) :=
  List.replicate 63 (.interrupt 0) ++ [.putchar true 1, .getchar false, .resume true]

/-- A producer that has waited for room has returned and holds the lock, twice. -/
theorem ioqueue_lockKept :
    ∃ s : IoqSys Bool, Reachable (fun _ _ => True) (Vector.replicate bufSize 0) s ∧
      s.q.lock.holderRepeatCnt = 2 ∧ ¬ s.Released := by
  have hrun : returnsWith ((init (Vector.replicate bufSize 0)).runActs (fun _ _ => true)
      producerReturns) (fun s => s.q.lock.holderRepeatCnt = 2 ∧ s.pc true = .outside ∧
        s.q.lock.holder = some true) = true := by
    decide +kernel
  obtain ⟨s, hs, htest⟩ := returnsWith_iff.mp hrun
  obtain ⟨hcnt, hpc, hh⟩ := of_decide_eq_true htest
  exact ⟨s, runActs_reachable (fun _ _ _ => trivial) .refl hs, hcnt, fun hrel => hrel true hpc hh⟩

/-- A reader has been woken and holds the lock, and another one has taken the character. -/
theorem ioqueue_lockReleased_reader :
    ∃ s : IoqSys Bool, Reachable ProducersStay (Vector.replicate bufSize 0) s ∧
      s.pc true = .getWait ∧ s.pc false = .outside ∧ s.Released := by
  have hrun : returnsWith ((init (Vector.replicate bufSize 0)).runActs
      (fun s a => match a with | .resume _ => s.q.isIoqFull | _ => true)
      [.getchar true, .interrupt 1, .getchar false])
      (fun s => s.pc true = .getWait ∧ s.pc false = .outside) = true := by
    decide +kernel
  obtain ⟨s, hs, htest⟩ := returnsWith_iff.mp hrun
  obtain ⟨hpc, hpc'⟩ := of_decide_eq_true htest
  have hr : Reachable ProducersStay (Vector.replicate bufSize 0) s := by
    refine runActs_reachable (fun s a ha t c he _ => ?_) .refl hs
    subst he
    exact ha
  exact ⟨s, hr, hpc, hpc', (ioqueue_lockReleased hr).1⟩

/-! ## Producers that do not block -/

/-- `ioq_putchar` is called when the queue is not full, as the keyboard handler does. -/
def PutsGuarded (s : IoqSys T) (a : Act T) : Prop :=
  ∀ t c, a = .putchar t c → s.q.isIoqFull = false

/-- No thread has blocked in `ioq_putchar`. -/
def GetsOnly (s : IoqSys T) : Prop :=
  ∀ t, s.pc t = .outside ∨ s.pc t = .getLock ∨ s.pc t = .getWait

section Guarded

theorem GetsOnly.goto (h : s.GetsOnly) {p : IoqPc}
    (hp : p = .outside ∨ p = .getLock ∨ p = .getWait) (b : Bool) : (s.goto t p b).GetsOnly := by
  intro u
  by_cases hu : u = t
  · subst hu
    simpa only [IoqSys.goto, Function.update_self] using hp
  · simpa only [IoqSys.goto, Function.update_of_ne hu] using h u

theorem GetsOnly.threadUnblock (h : s.GetsOnly) (t : T) : Returns (s.threadUnblock t) GetsOnly := by
  rw [IoqSys.threadUnblock]
  split
  · exact .ok h
  · exact .error _

theorem GetsOnly.unblockWaiter (h : s.GetsOnly) (w : Option T) :
    Returns (s.unblockWaiter w) GetsOnly := by
  cases w with
  | none => exact .ok h
  | some t => exact h.threadUnblock t

theorem GetsOnly.wakeupConsumer (h : s.GetsOnly) : Returns s.wakeupConsumer GetsOnly := by
  rw [IoqSys.wakeupConsumer]
  split
  · exact .ok h
  · exact (h.threadUnblock _).bind fun s₁ h₁ => .ok h₁

theorem GetsOnly.wakeupProducer (h : s.GetsOnly) : Returns s.wakeupProducer GetsOnly := by
  rw [IoqSys.wakeupProducer]
  split
  · exact .ok h
  · exact (h.threadUnblock _).bind fun s₁ h₁ => .ok h₁

theorem GetsOnly.getLocked (h : s.GetsOnly) (lock : Lock T) (b : Bool) :
    Returns (s.getLocked t lock b) GetsOnly := by
  rw [IoqSys.getLocked]
  split
  · exact .ok (GetsOnly.goto h (.inr (.inl rfl)) true)
  · rw [IoqSys.waitConsumer]
    split
    · exact .error _
    · exact .ok (GetsOnly.goto h (.inr (.inr rfl)) true)

theorem GetsOnly.ioqGetchar (h : s.GetsOnly) (t : T) : Returns (s.ioqGetchar t) GetsOnly := by
  rw [IoqSys.ioqGetchar]
  split
  · exact Returns.any.bind fun r _ => h.getLocked r.1 r.2
  · rw [IoqSys.take]
    refine Returns.any.bind fun r _ => ?_
    have h₁ : GetsOnly { s with q := r.2 } := h
    exact h₁.wakeupProducer.bind fun s₂ h₂ => .ok (GetsOnly.goto h₂ (.inl rfl) false)

theorem GetsOnly.store (h : s.GetsOnly) (c : UInt8) : Returns (s.store c) GetsOnly := by
  rw [IoqSys.store]
  refine Returns.any.bind fun q _ => ?_
  have h₁ : GetsOnly { s with q, put := s.put ++ [c] } := h
  exact h₁.wakeupConsumer

theorem GetsOnly.exec (h : s.GetsOnly) {a : Act T} (ha : s.PutsGuarded a) :
    Returns (s.exec a) GetsOnly := by
  cases a with
  | getchar t => exact h.ioqGetchar t
  | putchar t c =>
    show Returns (s.ioqPutchar t c) GetsOnly
    rw [IoqSys.ioqPutchar, ha t c rfl]
    exact (h.store c).bind fun s₁ h₁ => .ok (h₁.goto (.inl rfl) false)
  | interrupt c => exact h.store c
  | resume t =>
    have h' := h.goto (t := t) (.inl rfl) false
    show Returns (s.resume t) GetsOnly
    rw [resume]
    rcases h t with ht | ht | ht
    · rw [ht]
      exact .ok h'
    · rw [ht]
      exact Returns.any.bind fun r _ => h'.getLocked r.1 r.2
    · rw [ht]
      refine Returns.any.bind fun r _ => ?_
      have h₁ : ((s.goto t .outside false).setLock r.1).GetsOnly := h'
      exact (h₁.unblockWaiter r.2).bind fun s₂ h₂ => h₂.ioqGetchar t

variable {Allowed : IoqSys T → Act T → Prop} {buf : Vector UInt8 bufSize}

theorem Reachable.getsOnly (hall : ∀ s a, Allowed s a → PutsGuarded s a)
    (hr : Reachable Allowed buf s) : s.GetsOnly := by
  induction hr with
  | refl => exact fun _ => .inl rfl
  | tail _ hstep ih =>
    obtain ⟨a, -, ha, hok⟩ := hstep
    exact ih.exec (hall _ a ha) _ hok

omit [DecidableEq T] in
theorem GetsOnly.producersStay (h : s.GetsOnly) (a : Act T) : s.ProducersStay a := by
  intro t c _ ht
  rcases h t with he | he | he <;> rw [he] at ht <;> cases ht

theorem Reachable.invGuarded (hall : ∀ s a, Allowed s a → PutsGuarded s a)
    (hr : Reachable Allowed buf s) : s.Inv :=
  hr.inv fun _ a hr' _ => (Reachable.getsOnly hall hr').producersStay a

/-- No call fails. -/
theorem Reachable.execGuarded (hall : ∀ s a, Allowed s a → PutsGuarded s a)
    (hr : Reachable Allowed buf s) {a : Act T} (ha : s.Enabled a) :
    ∃ s', s.exec a = .ok s' := by
  obtain ⟨s', hok, -⟩ := (hr.invGuarded hall).exec hr.fifo ha ((hr.getsOnly hall).producersStay a)
  exact ⟨s', hok⟩

end Guarded

/-- **The queue is a FIFO queue**: in every run of readers and of calls of `ioq_putchar` on a
queue that is not full, the characters returned are the first of those put, in order; the two
positions are in range and say when nothing and when sixty-three characters are pending; and
no step fails. -/
theorem ioqueue_fifo {buf : Vector UInt8 bufSize} (hr : Reachable PutsGuarded buf s) :
    s.got <+: s.put ∧ s.q.head < 64 ∧ s.q.tail < 64 ∧
    (s.q.isIoqEmpty = true ↔ s.got = s.put) ∧
    (s.q.isIoqFull = true ↔ s.put.length = s.got.length + 63) ∧
    (∀ a, s.Enabled a → ∃ s', s.exec a = .ok s') := by
  obtain ⟨l, hl, hput⟩ := hr.fifo
  refine ⟨⟨l, hput.symm⟩, hl.head_lt, hl.tail_lt, ?_, ?_, fun a ha => ?_⟩
  · rw [hl.isIoqEmpty_iff, hput]
    exact List.self_eq_append_right.symm
  · rw [hl.isIoqFull_iff, hput, List.length_append]
    omega
  · exact hr.execGuarded (fun _ _ h => h) ha

/-- Only interrupts put characters. -/
def noPutchar (_ : IoqSys T) : Act T → Bool
  | .putchar _ _ => false
  | _ => true

theorem runActs_guarded {l : List (Act T)} {buf : Vector UInt8 bufSize}
    (h : (init buf).runActs noPutchar l = .ok s) : Reachable PutsGuarded buf s := by
  refine runActs_reachable (fun _ a ha t c he => ?_) .refl h
  subst he
  cases ha

/-- One character goes through the queue, then sixty-three fill it. -/
def fillsQueue : List (Act Unit) :=
  [.interrupt 7, .getchar ()] ++ List.replicate 63 (.interrupt 9)

/-- A full queue, after one character has been through it. -/
theorem ioqueue_fifo_full :
    ∃ s : IoqSys Unit, Reachable PutsGuarded (Vector.replicate bufSize 0) s ∧ s.got = [7] ∧
      s.q.isIoqFull = true ∧ s.put.length = s.got.length + 63 := by
  have hrun : returnsWith ((init (Vector.replicate bufSize 0)).runActs noPutchar fillsQueue)
      (fun s => s.got = [7] ∧ s.q.isIoqFull = true) = true := by
    decide +kernel
  obtain ⟨s, hs, htest⟩ := returnsWith_iff.mp hrun
  obtain ⟨hgot, hfull⟩ := of_decide_eq_true htest
  have hr := runActs_guarded hs
  exact ⟨s, hr, hgot, hfull, (ioqueue_fifo hr).2.2.2.2.1.mp hfull⟩

/-! ## Readers that sleep -/

/-- A reader that is registered and asleep finds nothing in the queue. -/
def SleepsOnEmpty (s : IoqSys T) : Prop := s.q.consumer ≠ none → s.q.isIoqEmpty = true

/-- A reader that has waited at the lock and gets it finds the queue still empty. -/
def ReadersFindEmpty (s : IoqSys T) (a : Act T) : Prop :=
  ∀ t, a = .resume t → s.pc t = .getLock → s.q.lock.semaphore.value = 0 ∨ s.q.isIoqEmpty = true

section Sleep

theorem store_consumer (s : IoqSys T) (c : UInt8) :
    Returns (s.store c) fun s' => s'.q.consumer = none := by
  rw [store]
  refine Returns.any.bind fun q _ => ?_
  rw [wakeupConsumer]
  split
  · next he => exact .ok he
  · exact Returns.any.bind fun s₁ _ => .ok rfl

/-- The body of the loop of `ioq_getchar` does not touch the ring. -/
theorem getLocked_empty (s : IoqSys T) (t : T) (lock : Lock T) (b : Bool) :
    Returns (s.getLocked t lock b) fun s' => s'.q.isIoqEmpty = s.q.isIoqEmpty := by
  rw [getLocked]
  split
  · exact .ok rfl
  · rw [waitConsumer]
    split
    · exact .error _
    · exact .ok rfl

theorem threadUnblock_q (s : IoqSys T) (t : T) :
    Returns (s.threadUnblock t) fun s' => s'.q = s.q := by
  rw [threadUnblock]
  split
  · exact .ok rfl
  · exact .error _

/-- A reader at its test sleeps when the queue is empty, and takes a character otherwise. -/
theorem SleepsOnEmpty.ioqGetchar (h : s.SleepsOnEmpty) (t : T) :
    Returns (s.ioqGetchar t) SleepsOnEmpty := by
  rw [IoqSys.ioqGetchar]
  split
  · next hempty =>
    refine Returns.any.bind fun r _ => (getLocked_empty s t r.1 r.2).mono fun s' hs' _ => ?_
    rw [hs', hempty]
  · next hne =>
    have hnc : s.q.consumer = none := by
      by_contra hc
      exact hne (h hc)
    rw [take, Ioqueue.read]
    split
    · have hwake : Returns (wakeupProducer { s with q := { s.q with tail := getNextPos s.q.tail } })
          fun s' => s'.q.consumer = none := by
        rw [wakeupProducer]
        split
        · exact .ok hnc
        · refine (threadUnblock_q _ _).bind fun s₁ h₁ => .ok ?_
          show s₁.q.consumer = none
          rw [h₁]
          exact hnc
      exact hwake.bind fun s₁ h₁ => .ok fun hc => absurd h₁ hc
    · exact .error _

theorem SleepsOnEmpty.exec (h : s.SleepsOnEmpty) (hinv : s.Inv) (hget : s.GetsOnly) {a : Act T}
    (hen : s.Enabled a) (ha : s.PutsGuarded a) (hf : s.ReadersFindEmpty a) :
    Returns (s.exec a) SleepsOnEmpty := by
  cases a with
  | getchar t => exact h.ioqGetchar t
  | putchar t c =>
    show Returns (s.ioqPutchar t c) SleepsOnEmpty
    rw [ioqPutchar, ha t c rfl]
    exact (store_consumer s c).bind fun s₁ h₁ => .ok fun hc => absurd h₁ hc
  | interrupt c => exact (store_consumer s c).mono fun s₁ h₁ hc => absurd h₁ hc
  | resume t =>
    obtain ⟨hpc, hawake⟩ := hen
    show Returns (s.resume t) SleepsOnEmpty
    rw [resume]
    rcases hget t with ht | ht | ht
    · exact absurd ht hpc
    · rw [ht]
      rcases hf t rfl ht with hv | hempty
      · -- the lock is taken again: the reader goes back to sleep at the lock
        have h₁ := hinv.leave (t := t) (by rw [ht]; trivial) hawake
        rcases h₁.lockDown_cases (t := t) (Function.update_self ..) with ⟨-, he⟩ | ⟨hv', -⟩
        · have he' : lockDown s.q.lock t = _ := he
          rw [he']
          exact .ok h
        · exact absurd (hv.symm.trans hv') (by decide)
      · refine Returns.any.bind fun r _ => (getLocked_empty _ t r.1 r.2).mono fun s' hs' _ => ?_
        rw [hs']
        exact hempty
    · rw [ht]
      refine Returns.any.bind fun r _ => ?_
      have hun : Returns (((s.goto t .outside false).setLock r.1).unblockWaiter r.2)
          SleepsOnEmpty := by
        cases r.2 with
        | none => exact .ok h
        | some w =>
          refine (threadUnblock_q _ w).mono fun s₁ h₁ hc => ?_
          rw [h₁] at hc ⊢
          exact h hc
      exact hun.bind fun s₁ h₁ => h₁.ioqGetchar t

/-- A reader that gets the lock with characters in the queue sleeps on them. -/
theorem Inv.sleepsOnFull (h : s.Inv) (ht : s.pc t = .getLock) (ha : s.asleep t = false)
    (hv : s.q.lock.semaphore.value ≠ 0) :
    ∃ s', s.resume t = .ok s' ∧ s'.q.consumer = some t ∧ s'.q.isIoqEmpty = s.q.isIoqEmpty := by
  have h₁ := h.leave (t := t) (by rw [ht]; trivial) ha
  rcases h₁.lockDown_cases (t := t) (Function.update_self ..) with ⟨hv', -⟩ | ⟨-, hfree, he⟩
  · exact absurd hv' hv
  · have hnc : s.q.consumer = none := (h₁.unregistered hfree).1
    have he' : lockDown s.q.lock t = .ok (⟨some t, ⟨0, s.q.lock.semaphore.waiters⟩, 1⟩, false) := he
    refine ⟨goto { s.goto t .outside false with q := { s.q with
      lock := ⟨some t, ⟨0, s.q.lock.semaphore.waiters⟩, 1⟩, consumer := some t } } t .getWait true,
      ?_, rfl, rfl⟩
    simp only [resume, ht, he', bind, Except.bind, getLocked, waitConsumer, setLock, goto, hnc]
    rfl

end Sleep

/-- **No reader sleeps on a queue with characters**, in every state of the runs in which every
reader that has waited at the lock and gets it finds the queue still empty; the first step that
breaks this condition puts a reader to sleep on characters. No `ASSERT` fails in any run. -/
theorem ioqueue_sleepsOnEmpty (buf : Vector UInt8 bufSize) :
    (∀ s : IoqSys T, Reachable (fun s a => PutsGuarded s a ∧ ReadersFindEmpty s a) buf s →
      s.SleepsOnEmpty ∧ ∀ a, s.Enabled a → s.PutsGuarded a →
        (s.ReadersFindEmpty a ↔ ∃ s', s.exec a = .ok s' ∧ s'.SleepsOnEmpty)) ∧
    (∀ s : IoqSys T, Reachable PutsGuarded buf s →
      ∀ a, s.Enabled a → ∃ s', s.exec a = .ok s') := by
  refine ⟨fun s hr => ?_, fun s hr a ha => hr.execGuarded (fun _ _ h => h) ha⟩
  have hall : ∀ (s : IoqSys T) (a : Act T), PutsGuarded s a ∧ ReadersFindEmpty s a →
    PutsGuarded s a := fun _ _ h => h.1
  have hsleep : s.SleepsOnEmpty := by
    induction hr with
    | refl => exact fun hc => absurd rfl hc
    | tail hprev hstep ih =>
      obtain ⟨a, hen, ⟨ha, hf⟩, hok⟩ := hstep
      exact ih.exec (Reachable.invGuarded hall hprev) (Reachable.getsOnly hall hprev) hen ha hf _ hok
  refine ⟨hsleep, fun a hen ha => ⟨fun hf => ?_, ?_⟩⟩
  · obtain ⟨s', hok⟩ := hr.execGuarded hall hen
    exact ⟨s', hok, hsleep.exec (hr.invGuarded hall) (hr.getsOnly hall) hen ha hf _ hok⟩
  · rintro ⟨s', hok, hs'⟩ t rfl ht
    by_contra hbad
    rw [not_or] at hbad
    obtain ⟨s₁, hok₁, hc, hempty⟩ := (hr.invGuarded hall).sleepsOnFull ht hen.2 hbad.1
    have hok' : s.resume t = .ok s' := hok
    rw [hok₁] at hok'
    cases hok'
    rw [← hempty] at hbad
    exact hbad.2 (hs' (by rw [hc]; nofun))

/-- The condition of the runs, as a test. -/
def findsEmpty (s : IoqSys T) : Act T → Bool
  | .putchar _ _ => false
  | .resume t => s.pc t ≠ .getLock ∨ s.q.lock.semaphore.value = 0 ∨ s.q.isIoqEmpty
  | _ => true

theorem runActs_findsEmpty {l : List (Act T)} {buf : Vector UInt8 bufSize}
    (h : (init buf).runActs findsEmpty l = .ok s) :
    Reachable (fun s a => PutsGuarded s a ∧ ReadersFindEmpty s a) buf s := by
  refine runActs_reachable (fun s a ha => ⟨fun t c he => ?_, fun t he hpc => ?_⟩) .refl h
  · subst he
    cases ha
  · subst he
    exact (of_decide_eq_true ha).resolve_left fun hne => hne hpc

/-- Two readers and one character: the first reader takes it, and the second one gets the lock
when the queue is empty again and sleeps. -/
theorem ioqueue_sleepsOnEmpty_readers :
    ∃ s : IoqSys Bool, Reachable (fun s a => PutsGuarded s a ∧ ReadersFindEmpty s a)
        (Vector.replicate bufSize 0) s ∧
      s.got = [1] ∧ s.q.consumer = some false ∧ s.q.isIoqEmpty = true := by
  have hrun : returnsWith ((init (Vector.replicate bufSize 0)).runActs findsEmpty
      [.getchar true, .getchar false, .interrupt 1, .resume true, .resume false])
      (fun s => s.got = [1] ∧ s.q.consumer = some false) = true := by
    decide +kernel
  obtain ⟨s, hs, htest⟩ := returnsWith_iff.mp hrun
  obtain ⟨hgot, hc⟩ := of_decide_eq_true htest
  have hr := runActs_findsEmpty hs
  exact ⟨s, hr, hgot, hc, ((ioqueue_sleepsOnEmpty _).1 s hr).1 (by rw [hc]; nofun)⟩

/-- Two readers and two characters: the second reader gets the lock from the first and goes to
sleep without another look at the queue. -/
def secondReader : List (Act Bool) :=
  [.getchar true, .getchar false, .interrupt 1, .interrupt 2, .resume true, .resume false]

/-- The second reader sleeps, and the second character is in the queue. -/
theorem ioqueue_sleepsOnCharacter :
    ∃ s : IoqSys Bool, Reachable PutsGuarded (Vector.replicate bufSize 0) s ∧
      s.q.consumer = some false ∧ s.put = [1, 2] ∧ s.got = [1] ∧ ¬ s.SleepsOnEmpty := by
  have hrun : returnsWith ((init (Vector.replicate bufSize 0)).runActs noPutchar secondReader)
      (fun s => s.q.consumer = some false ∧ s.put = [1, 2] ∧ s.got = [1] ∧
        s.q.isIoqEmpty = false) = true := by
    decide +kernel
  obtain ⟨s, hs, htest⟩ := returnsWith_iff.mp hrun
  obtain ⟨hc, hput, hgot, hne⟩ := of_decide_eq_true htest
  refine ⟨s, runActs_guarded hs, hc, hput, hgot, fun hs => ?_⟩
  rw [hs (by rw [hc]; nofun)] at hne
  cases hne

end IoqSys

end GwOS
