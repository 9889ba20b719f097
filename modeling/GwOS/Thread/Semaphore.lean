import GwOS.Thread.Thread

/-!
# A semaphore loses no wake-up (`thread/sync.c`)

`semaphore_up` takes one thread off the waiters and increments the value, but it does not
hand the value to that thread: the thread tests the value again when it runs, and until
then any other thread may take it. The thread that comes too late joins the waiters
again, at the end.

`SemaSys` is one semaphore with all threads. A thread is *blocked on* the semaphore or
*woken* by it (unblocked, and not yet back at its test) as its status says; the threads
outside of `semaphore_down` may do whatever they like.

- `Semaphore.Waits`: the waiters are the blocked threads, each once, with one lemma for
  each of the two functions.
- `semaphore_noLostWakeup`: whenever the value is one and threads wait, some thread is
  woken; no `ASSERT` fails.
-/

namespace GwOS

/-! ## The two functions -/

namespace Semaphore

variable {T : Type*} [DecidableEq T] {sema : Semaphore T} {t : T} {Blocked Blocked' : T → Prop}

/-- The waiters of the semaphore are the threads that are blocked on it, each once. -/
structure Waits (sema : Semaphore T) (Blocked : T → Prop) : Prop where
  mem : ∀ t, t ∈ sema.waiters ↔ Blocked t
  nodup : sema.waiters.Nodup

omit [DecidableEq T] in
theorem Waits.congr (h : sema.Waits Blocked) (hb : ∀ t, Blocked' t ↔ Blocked t) :
    sema.Waits Blocked' :=
  ⟨fun t => (h.mem t).trans (hb t).symm, h.nodup⟩

omit [DecidableEq T] in
/-- The waiters do not depend on the value. -/
theorem Waits.setValue (h : sema.Waits Blocked) (v : UInt8) :
    Waits { sema with value := v } Blocked := ⟨h.mem, h.nodup⟩

omit [DecidableEq T] in
/-- One more thread is blocked. -/
theorem Waits.push (h : sema.Waits Blocked) (ht : ¬ Blocked t) :
    Waits { sema with waiters := sema.waiters ++ [t] } fun u => Blocked u ∨ u = t := by
  constructor
  · intro u
    rw [List.mem_append, List.mem_singleton, h.mem u]
  · rw [List.nodup_append']
    refine ⟨h.nodup, List.nodup_singleton t, fun u hu hm => ht ?_⟩
    rw [← List.mem_singleton.mp hm]
    exact (h.mem u).mp hu

omit [DecidableEq T] in
/-- The first waiter is blocked no more. -/
theorem Waits.pop (h : sema.Waits Blocked) {ws : List T} (hw : sema.waiters = t :: ws) (v : UInt8) :
    Blocked t ∧ Waits ⟨v, ws⟩ fun u => Blocked u ∧ u ≠ t := by
  have hnd := h.nodup
  rw [hw] at hnd
  obtain ⟨htws, hws⟩ := List.nodup_cons.mp hnd
  refine ⟨(h.mem t).mp (hw ▸ List.mem_cons_self ..), fun u => ?_, hws⟩
  rw [← h.mem u, hw, List.mem_cons]
  constructor
  · intro hu
    exact ⟨.inr hu, fun he => htws (he ▸ hu)⟩
  · rintro ⟨he | hu, hne⟩
    · exact absurd he hne
    · exact hu

/-- What `semaphore_down` does for a thread that is not among the waiters of a binary
semaphore: it blocks, or takes the value. -/
theorem down_cases (hv : sema.value = 0 ∨ sema.value = 1) (ht : t ∉ sema.waiters) :
    (sema.value = 0 ∧ semaphoreDown sema t =
      .ok ({ sema with waiters := sema.waiters ++ [t] }, true)) ∨
    (sema.value = 1 ∧ semaphoreDown sema t = .ok ({ sema with value := 0 }, false)) := by
  rcases hv with h0 | h1
  · exact .inl ⟨h0, by rw [semaphoreDown, if_pos h0, if_neg ht]⟩
  · refine .inr ⟨h1, ?_⟩
    have hne : ¬ sema.value = 0 := by rw [h1]; decide
    have hsub : sema.value - 1 = 0 := by rw [h1]; rfl
    simp only [semaphoreDown, hne, if_false, hsub, if_true]

omit [DecidableEq T] in
/-- What `semaphore_up` does: it unblocks the first waiter, if there is one. -/
theorem up_cases (sema : Semaphore T) :
    (sema.waiters = [] ∧ semaphoreUp sema = ({ sema with value := sema.value + 1 }, none)) ∨
    ∃ t ws, sema.waiters = t :: ws ∧ semaphoreUp sema = (⟨sema.value + 1, ws⟩, some t) := by
  cases hw : sema.waiters with
  | nil => exact .inl ⟨rfl, by simp [semaphoreUp, hw]⟩
  | cons t ws => exact .inr ⟨t, ws, rfl, by simp [semaphoreUp, hw]⟩

end Semaphore

/-! ## Threads on one semaphore -/

/-- The thread is on the processor or in the ready list. -/
def TaskStatus.Runnable (st : TaskStatus) : Prop := st = .ready ∨ st = .running

theorem TaskStatus.Runnable.ne_blocked {st : TaskStatus} (h : st.Runnable) : st ≠ .blocked := by
  rcases h with rfl | rfl <;> nofun

/-- One semaphore and the threads that use it. -/
structure SemaSys (T : Type*) where
  sema : Semaphore T
  status : T → TaskStatus
  /-- The thread is in the loop of `semaphore_down`, at or after `thread_block`. -/
  inDown : T → Bool

namespace SemaSys

variable {T : Type*} [DecidableEq T]

/-- A new semaphore; nobody has called `semaphore_down`. -/
def init (value : UInt8) (status : T → TaskStatus) : SemaSys T :=
  ⟨semaphoreInit value, status, fun _ => false⟩

def setStatus (s : SemaSys T) (t : T) (st : TaskStatus) : SemaSys T :=
  { s with status := Function.update s.status t st }

/-- `thread_unblock`, as far as the status goes. -/
def threadUnblock (s : SemaSys T) (t : T) : Except Fault (SemaSys T) :=
  if s.status t = .blocked ∨ s.status t = .waiting ∨ s.status t = .hanging then
    .ok (s.setStatus t .ready)
  else .error .assert

/-- One round of `semaphore_down` in the thread `t`, with its `thread_block(TASK_BLOCKED)`. -/
def down (s : SemaSys T) (t : T) : Except Fault (SemaSys T) := do
  let (sema, blocks) ← semaphoreDown s.sema t
  let s := { s with sema, inDown := Function.update s.inDown t blocks }
  .ok (if blocks then s.setStatus t .blocked else s)

/-- `semaphore_up`. -/
def up (s : SemaSys T) : Except Fault (SemaSys T) :=
  let (sema, w) := semaphoreUp s.sema
  match w with
  | none => .ok { s with sema }
  | some t => threadUnblock { s with sema } t

/-- The thread is blocked on this semaphore. -/
def BlockedOn (s : SemaSys T) (t : T) : Prop := s.inDown t = true ∧ s.status t = .blocked

/-- `semaphore_up` has unblocked the thread, and it has not tested the value again. -/
def Woken (s : SemaSys T) (t : T) : Prop := s.inDown t = true ∧ (s.status t).Runnable

/-- One step of the system: a thread that can run calls `semaphore_down` or makes its next
round, somebody calls `semaphore_up` on the value zero, the scheduler moves a thread between
the processor and the ready list, or a thread outside changes its status. -/
inductive Step (s : SemaSys T) : SemaSys T → Prop
  | down (t : T) (s' : SemaSys T) (ht : (s.status t).Runnable) (h : s.down t = .ok s') : Step s s'
  | up (s' : SemaSys T) (hv : s.sema.value = 0) (h : s.up = .ok s') : Step s s'
  | sched (t : T) (st : TaskStatus) (ht : (s.status t).Runnable) (hst : st.Runnable) :
      Step s (s.setStatus t st)
  | outside (t : T) (st : TaskStatus) (ht : s.inDown t = false) : Step s (s.setStatus t st)

/-- The states that the threads can bring about. -/
def Reachable (value : UInt8) (status : T → TaskStatus) (s : SemaSys T) : Prop :=
  Relation.ReflTransGen Step (init value status) s

/-! ## The invariant -/

structure Inv (s : SemaSys T) : Prop where
  value : s.sema.value = 0 ∨ s.sema.value = 1
  waits : s.sema.Waits s.BlockedOn
  /-- A thread in the loop is blocked, or has been woken. -/
  inside : ∀ t, s.inDown t = true → s.BlockedOn t ∨ s.Woken t
  /-- A value that a waiter could take has somebody on the way to it. -/
  wake : s.sema.value = 1 → s.sema.waiters ≠ [] → ∃ t, s.Woken t

section Inv

variable {s s' : SemaSys T} {t : T}

omit [DecidableEq T] in
theorem inv_init {v : UInt8} (hv : v = 0 ∨ v = 1) (status : T → TaskStatus) :
    Inv (init v status) := by
  refine ⟨hv, ⟨fun t => ?_, List.nodup_nil⟩, fun t ht => ?_, fun _ hne => absurd rfl hne⟩
  · exact ⟨fun h => absurd h List.not_mem_nil, fun h => nomatch h.1⟩
  · cases ht

omit [DecidableEq T] in
theorem Inv.not_mem (h : Inv s) (ht : (s.status t).Runnable) : t ∉ s.sema.waiters := fun hm =>
  ht.ne_blocked ((h.waits.mem t).mp hm).2

/-- `semaphore_down` of a thread that can run returns, and keeps the invariant. -/
theorem Inv.down (h : Inv s) (ht : (s.status t).Runnable) : ∃ s', s.down t = .ok s' ∧ Inv s' := by
  rcases Semaphore.down_cases h.value (h.not_mem ht) with ⟨hv, he⟩ | ⟨hv, he⟩
  · -- the value is zero: the thread joins the waiters and blocks
    have hd : s.down t = .ok (SemaSys.setStatus
        { s with
          sema := { s.sema with waiters := s.sema.waiters ++ [t] }
          inDown := Function.update s.inDown t true } t .blocked) := by
      rw [SemaSys.down, he]
      rfl
    refine ⟨_, hd, .inl hv, ?_, fun u hu => ?_, fun h1 => ?_⟩
    · refine (h.waits.push fun hb => ht.ne_blocked hb.2).congr fun u => ?_
      by_cases hu : u = t
      · subst hu
        simp [BlockedOn, setStatus]
      · simp [BlockedOn, setStatus, hu]
    · by_cases hut : u = t
      · subst hut
        exact .inl ⟨hu, by simp [setStatus]⟩
      · simp only [BlockedOn, Woken, setStatus, Function.update_of_ne hut] at hu ⊢
        exact h.inside u hu
    · exact absurd (hv.symm.trans h1) (by decide)
  · -- the value is one: the thread takes it
    have hd : s.down t = .ok
        { s with
          sema := { s.sema with value := 0 }
          inDown := Function.update s.inDown t false } := by
      rw [SemaSys.down, he]
      rfl
    refine ⟨_, hd, .inl rfl, ?_, fun u hu => ?_, ?_⟩
    · refine (h.waits.setValue 0).congr fun u => ?_
      by_cases hu : u = t
      · subst hu
        simp [BlockedOn, ht.ne_blocked]
      · simp [BlockedOn, hu]
    · by_cases hut : u = t
      · subst hut
        simp at hu
      · simp only [BlockedOn, Woken, Function.update_of_ne hut] at hu ⊢
        exact h.inside u hu
    · intro h1
      exact absurd (show (0 : UInt8) = 1 from h1) (by decide)

/-- `semaphore_up` on the value zero returns, and the thread it takes off the list is woken. -/
theorem Inv.up (h : Inv s) (hv : s.sema.value = 0) : ∃ s', s.up = .ok s' ∧ Inv s' := by
  have hone : s.sema.value + 1 = 1 := by rw [hv]; rfl
  rcases s.sema.up_cases with ⟨hw, he⟩ | ⟨t, ws, hw, he⟩
  · have hun : s.up = .ok { s with sema := { s.sema with value := s.sema.value + 1 } } := by
      rw [SemaSys.up, he]
    refine ⟨_, hun, .inr hone, h.waits.setValue _, h.inside, fun _ hne => ?_⟩
    exact absurd hw hne
  · obtain ⟨hb, hpop⟩ := h.waits.pop hw (s.sema.value + 1)
    have hun : s.up = .ok (setStatus { s with sema := ⟨s.sema.value + 1, ws⟩ } t .ready) := by
      rw [SemaSys.up, he]
      exact if_pos (.inl hb.2)
    have hwoken : Woken (setStatus { s with sema := ⟨s.sema.value + 1, ws⟩ } t .ready) t :=
      ⟨hb.1, .inl (by simp [setStatus])⟩
    refine ⟨_, hun, .inr hone, ?_, fun u hu => ?_, fun _ _ => ⟨t, hwoken⟩⟩
    · refine Semaphore.Waits.congr hpop fun u => ?_
      by_cases hut : u = t
      · subst hut
        simp [BlockedOn, setStatus]
      · simp [BlockedOn, setStatus, hut]
    · by_cases hut : u = t
      · subst hut
        exact .inr hwoken
      · simp only [BlockedOn, Woken, setStatus, Function.update_of_ne hut]
        exact h.inside u hu

/-- A change of status that neither blocks a thread in the loop nor unblocks one. -/
theorem Inv.setStatus (h : Inv s) {st : TaskStatus}
    (hst : s.inDown t = true → (s.status t).Runnable ∧ st.Runnable) : Inv (s.setStatus t st) := by
  have hb : ∀ u, (s.setStatus t st).BlockedOn u ↔ s.BlockedOn u := by
    intro u
    by_cases hu : u = t
    · subst hu
      simp only [BlockedOn, SemaSys.setStatus, Function.update_self]
      refine and_congr_right fun hd => ?_
      exact iff_of_false (hst hd).2.ne_blocked (hst hd).1.ne_blocked
    · simp [BlockedOn, SemaSys.setStatus, hu]
  have hw : ∀ u, (s.setStatus t st).Woken u ↔ s.Woken u := by
    intro u
    by_cases hu : u = t
    · subst hu
      simp only [Woken, SemaSys.setStatus, Function.update_self]
      refine and_congr_right fun hd => ?_
      exact iff_of_true (hst hd).2 (hst hd).1
    · simp [Woken, SemaSys.setStatus, hu]
  refine ⟨h.value, h.waits.congr hb, fun u hu => ?_, fun h1 hne => ?_⟩
  · rw [hb, hw]
    exact h.inside u hu
  · obtain ⟨u, hu⟩ := h.wake h1 hne
    exact ⟨u, (hw u).mpr hu⟩

theorem Step.inv (hs : Step s s') (h : Inv s) : Inv s' := by
  cases hs with
  | down t _ ht he =>
    obtain ⟨s₁, hok, hinv⟩ := h.down ht
    rw [he] at hok
    cases hok
    exact hinv
  | up _ hv he =>
    obtain ⟨s₁, hok, hinv⟩ := h.up hv
    rw [he] at hok
    cases hok
    exact hinv
  | sched t st ht hst => exact h.setStatus fun _ => ⟨ht, hst⟩
  | outside t st ht => exact h.setStatus fun hd => absurd (ht.symm.trans hd) Bool.false_ne_true

theorem Reachable.inv {v : UInt8} {status : T → TaskStatus} (hv : v = 0 ∨ v = 1)
    (hr : Reachable v status s) : Inv s := by
  induction hr with
  | refl => exact inv_init hv status
  | tail _ hstep ih => exact hstep.inv ih

end Inv

/-- **No lost wake-up**: in every reachable state in which the value could be taken and
threads wait, some thread has been unblocked and has yet to test the value; the waiters are
the threads blocked on the semaphore, each once; and the next call does not fail. -/
theorem semaphore_noLostWakeup {v : UInt8} (hv : v = 0 ∨ v = 1) {status : T → TaskStatus}
    {s : SemaSys T} (hr : Reachable v status s) :
    (s.sema.value = 1 → s.sema.waiters ≠ [] → ∃ t, s.Woken t) ∧
    (∀ t, t ∈ s.sema.waiters ↔ s.BlockedOn t) ∧ s.sema.waiters.Nodup ∧
    (s.sema.value = 0 ∨ s.sema.value = 1) ∧
    (∀ t, (s.status t).Runnable → ∃ s', s.down t = .ok s') ∧
    (s.sema.value = 0 → ∃ s', s.up = .ok s') := by
  have h := hr.inv hv
  refine ⟨h.wake, h.waits.mem, h.waits.nodup, h.value, fun t ht => ?_, fun h0 => ?_⟩
  · obtain ⟨s', he, -⟩ := h.down ht
    exact ⟨s', he⟩
  · obtain ⟨s', he, -⟩ := h.up h0
    exact ⟨s', he⟩

/-- Two threads wait and one `semaphore_up` follows: the value is one, a thread still waits,
and the other one is on its way. -/
theorem semaphore_noLostWakeup_two :
    ∃ s : SemaSys Bool, Reachable 0 (fun _ => .ready) s ∧ s.sema.value = 1 ∧
      s.sema.waiters = [true] ∧ ∃ t, s.Woken t := by
  have h0 : Reachable 0 (fun _ : Bool => .ready) (init 0 fun _ => .ready) := .refl
  have h1 := h0.tail (.down false _ (.inl rfl) rfl)
  have h2 := h1.tail (.down true _ (.inl rfl) rfl)
  have h3 := h2.tail (.up _ rfl rfl)
  exact ⟨_, h3, rfl, rfl, (semaphore_noLostWakeup (.inl rfl) h3).1 rfl nofun⟩

end SemaSys

end GwOS
