import GwOS.Thread.Transitions
import Mathlib.Algebra.Order.BigOperators.Group.Finset

/-!
# How long a ready thread waits

A thread that becomes ready joins the end of the queue, but `thread_unblock` puts a thread in front of
it, and `schedule` takes the first one. So threads that wake each other may pass a ready thread any number
of times; but a thread that has used up its slice joins the end too, behind the ready one, and is not
woken there.

- `Waits`: the place of an element in a queue, in terms of what has been pushed and popped.
- `readyThread_place`: the law of the place of a ready thread, in every run.
- `readyThread_ticks`: how many ticks pass at most before a ready thread runs.
-/

namespace GwOS

/-! ## Places in a queue -/

section Queue

variable {α : Type*} [DecidableEq α] {t u : α} {l l' l'' : List α} {w d w' d' : Nat}

/-- The queue from an element on. -/
def upto (t : α) (l : List α) : List α := l.drop (l.idxOf t)

theorem upto_cons (hne : u ≠ t) : upto t (u :: l) = upto t l := by
  rw [upto, List.idxOf_cons_ne _ hne, List.drop_succ_cons, upto]

theorem upto_append (ht : t ∈ l) : upto t (l ++ l') = upto t l ++ l' := by
  have hlt : l.idxOf t < l.length := List.idxOf_lt_length_of_mem ht
  rw [upto, List.idxOf_append_of_mem ht, List.drop_append_of_le_length hlt.le, upto]

theorem mem_of_mem_upto (hu : u ∈ upto t l) : u ∈ l := List.mem_of_mem_drop hu

/-- The element is still in the queue after `w` elements have been put in front and `d` have been taken
from there, and what was behind it still is. -/
structure Waits (t : α) (w d : Nat) (l l' : List α) : Prop where
  mem : t ∈ l'
  place : l'.idxOf t + d = l.idxOf t + w
  behind : upto t l ⊆ upto t l'

theorem Waits.refl (ht : t ∈ l) : Waits t 0 0 l l := ⟨ht, rfl, List.Subset.refl _⟩

theorem Waits.trans (h : Waits t w d l l') (h' : Waits t w' d' l' l'') :
    Waits t (w + w') (d + d') l l'' := by
  have hplace := h.place
  have hplace' := h'.place
  exact ⟨h'.mem, by omega, List.Subset.trans h.behind h'.behind⟩

theorem Waits.append (ht : t ∈ l) (u : α) : Waits t 0 0 l (l ++ [u]) := by
  refine ⟨List.mem_append_left _ ht, by rw [List.idxOf_append_of_mem ht], ?_⟩
  rw [upto_append ht]
  exact List.subset_append_left _ _

theorem Waits.push (ht : t ∈ l) (hu : u ∉ l) : Waits t 1 0 l (u :: l) := by
  have hne : u ≠ t := fun he => hu (he ▸ ht)
  refine ⟨List.mem_cons_of_mem _ ht, by rw [List.idxOf_cons_ne _ hne], ?_⟩
  rw [upto_cons hne]
  exact List.Subset.refl _

theorem Waits.pop (ht : t ∈ u :: l) (hne : u ≠ t) : Waits t 0 1 (u :: l) l := by
  refine ⟨(List.mem_cons.mp ht).resolve_left hne.symm, by rw [List.idxOf_cons_ne _ hne], ?_⟩
  rw [upto_cons hne]
  exact List.Subset.refl _

end Queue

/-! ## What the threads have left -/

section Budget

variable {α : Type*} {A A' : Finset α} {f f' : α → Nat} {a : α}

theorem sum_le_of_spent (hsub : A' ⊆ A) (hle : ∀ a ∈ A', f' a ≤ f a) : ∑ a ∈ A', f' a ≤ ∑ a ∈ A, f a :=
  (Finset.sum_le_sum hle).trans (Finset.sum_le_sum_of_subset hsub)

/-- One of them has spent something, or has left. -/
theorem sum_lt_of_spent (hsub : A' ⊆ A) (hle : ∀ a ∈ A', f' a ≤ f a) (ha : a ∈ A) (hpos : 0 < f a)
    (hlt : a ∈ A' → f' a < f a) : ∑ a ∈ A', f' a < ∑ a ∈ A, f a := by
  by_cases ha' : a ∈ A'
  · exact (Finset.sum_lt_sum hle ⟨a, ha', hlt ha'⟩).trans_le (Finset.sum_le_sum_of_subset hsub)
  · exact (Finset.sum_le_sum hle).trans_lt
      (Finset.sum_lt_sum_of_subset hsub ha ha' hpos fun _ _ _ => Nat.zero_le _)

end Budget

namespace Threads

variable {T S W : Type} [DecidableEq T] [DecidableEq S] [DecidableEq W]
variable {s s' : Threads T S W} {place : T → Place S W} {t u : T} {op : Op T S W} {w d n : Nat}

/-- The ticks that a thread has left. -/
def ticks (s : Threads T S W) (u : T) : Nat := (s.pcb u).elim 0 fun p => p.ticks.toNat

/-- What becomes of a thread that stays in the queue: `w` threads are woken and `schedule` is called `d`
times; and each thread is behind it at the end, or has no more ticks left than before. -/
structure Stays (t : T) (w d : Nat) (s s' : Threads T S W) : Prop where
  waits : Waits t w d s.readyList s'.readyList
  spends : ∀ u ∈ s'.allList, u ∈ upto t s'.readyList ∨ u ∈ s.allList ∧ s'.ticks u ≤ s.ticks u

/-- A part of a call that does not call `schedule`. -/
def Quiet (t : T) (w : Nat) (s s' : Threads T S W) : Prop := t ∈ s.readyList → Stays t w 0 s s'

/-- What a call comes to. -/
def Passes (t : T) (w d : Nat) (s s' : Threads T S W) : Prop :=
  t ∈ s.readyList → s'.running = t ∨ Stays t w d s s'

omit [DecidableEq S] [DecidableEq W] in
/-- Only the queue changes. -/
theorem Stays.of_waits (h : Waits t w d s.readyList s'.readyList) (hall : s'.allList = s.allList)
    (hticks : ∀ u, s'.ticks u = s.ticks u) : Stays t w d s s' :=
  ⟨h, fun u hu => .inr ⟨hall ▸ hu, (hticks u).le⟩⟩

omit [DecidableEq S] [DecidableEq W] in
theorem Stays.trans {s'' : Threads T S W} {w' d' : Nat} (h : Stays t w d s s') (h' : Stays t w' d' s' s'') :
    Stays t (w + w') (d + d') s s'' := by
  refine ⟨h.waits.trans h'.waits, fun u hu => ?_⟩
  rcases h'.spends u hu with hbehind | ⟨hmem, hle⟩
  · exact .inl hbehind
  · rcases h.spends u hmem with hbehind | ⟨hmem', hle'⟩
    · exact .inl (h'.waits.behind hbehind)
    · exact .inr ⟨hmem', hle.trans hle'⟩

omit [DecidableEq S] [DecidableEq W] in
theorem Quiet.passes (h : Quiet t w s s') : Passes t w 0 s s' := fun ht => .inr (h ht)

omit [DecidableEq S] [DecidableEq W] in
/-- Nothing is done to the queue. -/
theorem Quiet.of_le (hq : s'.readyList = s.readyList) (hall : s'.allList ⊆ s.allList)
    (hticks : ∀ u, s'.ticks u ≤ s.ticks u) : Quiet t 0 s s' := by
  intro ht
  refine ⟨?_, fun u hu => .inr ⟨hall hu, hticks u⟩⟩
  rw [hq]
  exact .refl ht

omit [DecidableEq S] [DecidableEq W] in
theorem Quiet.same (hq : s'.readyList = s.readyList) (hall : s'.allList = s.allList)
    (hticks : ∀ u, s'.ticks u = s.ticks u) : Quiet t 0 s s' :=
  .of_le hq (hall ▸ List.Subset.refl _) fun u => (hticks u).le

omit [DecidableEq S] [DecidableEq W] in
theorem Quiet.trans {s'' : Threads T S W} {w' : Nat} (h : Quiet t w s s') (h' : Quiet t w' s' s'') :
    Quiet t (w + w') s s'' := by
  intro ht
  have hstays := h ht
  exact hstays.trans (h' hstays.waits.mem)

omit [DecidableEq S] [DecidableEq W] in
/-- A call goes on after a quiet part. -/
theorem Quiet.before {s₁ : Threads T S W} {w' : Nat} (h : Quiet t w s s₁) (h' : Passes t w' d s₁ s') :
    Passes t (w + w') d s s' := by
  intro ht
  have hstays := h ht
  rcases h' hstays.waits.mem with hrun | hnext
  · exact .inl hrun
  · exact .inr (by simpa only [Nat.zero_add] using hstays.trans hnext)

omit [DecidableEq S] [DecidableEq W] in
theorem ticks_modifyPcb {f : Pcb → Pcb} (hf : ∀ p, (f p).ticks = p.ticks) (u v : T) :
    (s.modifyPcb u f).ticks v = s.ticks v := by
  have hpcb : (s.modifyPcb u f).pcb = Function.update s.pcb u ((s.pcb u).map f) := rfl
  rw [ticks, ticks, hpcb]
  by_cases hv : v = u
  · rw [hv, Function.update_self]
    cases s.pcb u with
    | none => rfl
    | some p => exact congrArg UInt8.toNat (hf p)
  · rw [Function.update_of_ne hv]

omit [DecidableEq S] [DecidableEq W] in
theorem ticks_setStatus (u : T) (status : TaskStatus) (v : T) : (s.setStatus u status).ticks v = s.ticks v :=
  ticks_modifyPcb (f := fun p => { p with status }) (fun _ => rfl) u v

omit [DecidableEq S] [DecidableEq W] in
/-- The three parts of `schedule`. -/
theorem schedule_eq_ok (h : s.schedule = .ok s') :
    ∃ s₁ s₂, s.requeueNow = .ok s₁ ∧ s₁.reviveIdle = .ok s₂ ∧ s₂.dispatch = .ok s' := by
  rw [schedule] at h
  split at h
  · cases h₁ : s.requeueNow with
    | error e => simp [bind, Except.bind, h₁] at h
    | ok s₁ =>
      cases h₂ : s₁.reviveIdle with
      | error e => simp [bind, Except.bind, h₁, h₂] at h
      | ok s₂ =>
        simp only [bind, Except.bind, h₁, h₂] at h
        exact ⟨s₁, s₂, rfl, h₂, h⟩
  · cases h

omit [DecidableEq S] [DecidableEq W] in
/-- The running thread joins the end of the queue with a new slice, if it goes on. -/
theorem requeueNow_quiet (h : s.requeueNow = .ok s') (t : T) : Quiet t 0 s s' := by
  rw [requeueNow] at h
  split at h
  · split at h
    · cases h
    · cases h
      intro ht
      refine ⟨.append ht _, fun u hu => ?_⟩
      by_cases hrun : u = s.running
      · refine .inl ?_
        show u ∈ upto t (s.readyList ++ [s.running])
        rw [upto_append ht, hrun]
        exact List.mem_append_right _ List.mem_cons_self
      · refine .inr ⟨hu, ?_⟩
        show (Function.update s.pcb s.running _ u).elim 0 _ ≤ _
        rw [Function.update_of_ne hrun]
        exact Nat.le_refl _
  · cases h
    exact .same rfl rfl fun _ => rfl

omit [DecidableEq S] [DecidableEq W] in
/-- `schedule` takes the first thread of the queue. -/
theorem schedule_passes (h : s.schedule = .ok s') (t : T) : Passes t 0 1 s s' := by
  obtain ⟨s₁, s₂, h₁, h₂, h₃⟩ := schedule_eq_ok h
  suffices hrest : Passes t 0 1 s₁ s' from (requeueNow_quiet h₁ t).before hrest
  intro ht
  -- the idle thread is not needed
  have hsame : s₂ = s₁ := by
    rw [reviveIdle, if_neg (List.ne_nil_of_mem ht)] at h₂
    cases h₂
    rfl
  rw [hsame, dispatch] at h₃
  split at h₃
  · cases h₃
  · next u l hl =>
    cases h₃
    by_cases hu : u = t
    · exact .inl hu
    · rw [hl] at ht
      have hpop : Waits t 0 1 s₁.readyList l := hl ▸ .pop ht hu
      exact .inr (.of_waits hpop rfl (ticks_setStatus u .running))

omit [DecidableEq S] [DecidableEq W] in
theorem threadBlock_passes {s₁ : Threads T S W} {status : TaskStatus} (h : Quiet t w s s₁)
    (hok : s₁.threadBlock status = .ok s') : Passes t w 1 s s' := by
  rw [threadBlock] at hok
  split at hok
  · have hset : Quiet t 0 s₁ ((s₁.intrSetStatus .off).setStatus s₁.running status) :=
      .same rfl rfl (ticks_setStatus s₁.running status)
    exact (h.trans hset).before (schedule_passes hok t)
  · cases hok

omit [DecidableEq S] [DecidableEq W] in
/-- `thread_unblock` puts a thread in front of the queue. -/
theorem threadUnblock_quiet (h : s.threadUnblock u = .ok s') (t : T) : Quiet t 1 s s' := by
  by_cases hb : s.statusOf u = some .blocked ∨ s.statusOf u = some .waiting ∨ s.statusOf u = some .hanging
  · by_cases hnot : u ∈ s.readyList
    · have hne : s.statusOf u ≠ some .ready := by
        rcases hb with hb | hb | hb <;> rw [hb] <;> nofun
      rw [threadUnblock, if_pos hb, if_pos hne, if_pos hnot] at h
      cases h
    · rw [threadUnblock_ok hnot hb] at h
      cases h
      intro ht
      have hpush : Waits t 1 0 s.readyList (u :: s.readyList) := .push ht hnot
      exact .of_waits hpush rfl (ticks_setStatus u .ready)
  · rw [threadUnblock, if_neg hb] at h
    cases h

/-! ## The calls -/

/-- Whether a round of `sys_wait` blocks. -/
def waitBlocks (s : Threads T S W) (mine : Pcb → Bool) : Bool :=
  (s.findThread fun p => mine p && p.status = .hanging).isNone && (s.findThread mine).isSome

/-- Whether the parent of the running thread waits for a child. -/
def parentWaits (s : Threads T S W) : Bool :=
  ((s.pcb s.running).bind fun child => s.pid2pcb child.parentPid).any fun parent =>
    s.statusOf parent = some .waiting

/-- The state in which `sys_exit` looks for the parent. -/
def leaving (s : Threads T S W) (status : Int) : Threads T S W :=
  ((s.intrSetStatus .off).modifyPcb s.running fun p => { p with
    exitStatus := Int8.ofInt status }).changeParentToInit ((s.pcb s.running).elim 0 Pcb.pid)

/-- How many threads a call wakes. -/
def wakes (s : Threads T S W) : Op T S W → Nat
  | .up i => if (s.sema i).waiters = [] then 0 else 1
  | .wakeup _ => 1
  | .exit status => if (s.leaving status).parentWaits then 1 else 0
  | _ => 0

/-- How often a call calls `schedule`. -/
def schedules (s : Threads T S W) : Op T S W → Nat
  | .tick => if (s.pcb s.running).any (fun p => p.ticks = 0) then 1 else 0
  | .idle | .yield | .ioqWait _ | .exit _ | .threadExit => 1
  | .down i => if (s.sema i).value = 0 then 1 else 0
  | .wait pid => if s.waitBlocks (fun p => p.pid = pid) then 1 else 0
  | .waitWithoutPid => if (s.pcb s.running).any
      (fun parent => s.waitBlocks fun p => p.parentPid = parent.pid) then 1 else 0
  | _ => 0

/-- The timer interrupt counts the tick. -/
def elapse (s : Threads T S W) : Threads T S W :=
  (s.intrSetStatus .off).modifyPcb s.running fun p => { p with elapsedTicks := p.elapsedTicks + 1 }

section Calls

omit [DecidableEq T] [DecidableEq S] [DecidableEq W] in
theorem map_eq_ok {α : Type} {x : Except SchedFault (Threads T S W × α)} (h : x.map Prod.fst = .ok s') :
    ∃ r, x = .ok r ∧ r.1 = s' := by
  cases x with
  | error e => cases h
  | ok r =>
    cases h
    exact ⟨r, rfl, rfl⟩

omit [DecidableEq S] [DecidableEq W] in
theorem elapse_pcb (u : T) : s.elapse.pcb u = if u = s.running then (s.pcb u).map fun p => { p with
    elapsedTicks := p.elapsedTicks + 1 } else s.pcb u := by
  split
  · next hu =>
    subst hu
    exact Function.update_self ..
  · next hu => exact Function.update_of_ne hu ..

omit [DecidableEq S] [DecidableEq W] in
/-- The two outcomes of the timer interrupt. -/
theorem intrTimerHandler_cases (h : s.intrTimerHandler = .ok s') :
    ∃ now, s.pcb s.running = some now ∧ (now.ticks = 0 ∧ s.elapse.schedule = .ok s' ∨ now.ticks ≠ 0 ∧
      s' = (s.elapse.modifyPcb s.running fun p => { p with ticks := p.ticks - 1 }).intrSetStatus .on) := by
  have hpcb := elapse_pcb (s := s) s.running
  rw [if_pos rfl] at hpcb
  rw [intrTimerHandler] at h
  cases hnow : s.pcb s.running with
  | none =>
    have hnone : s.elapse.pcb s.elapse.running = none := by
      refine hpcb.trans ?_
      rw [hnow]
      rfl
    simp only [elapse] at hnone
    simp only [hnone] at h
    cases h
  | some now =>
    have hsome : s.elapse.pcb s.elapse.running = some { now with elapsedTicks := now.elapsedTicks + 1 } := by
      refine hpcb.trans ?_
      rw [hnow]
      rfl
    simp only [elapse] at hsome
    simp only [hsome] at h
    refine ⟨now, rfl, ?_⟩
    split at h
    · next hz => exact .inl ⟨hz, h⟩
    · next hz =>
      cases h
      exact .inr ⟨hz, rfl⟩

omit [DecidableEq S] [DecidableEq W] in
theorem elapse_quiet (t : T) : Quiet t 0 s s.elapse :=
  .same rfl rfl (ticks_modifyPcb (s := s.intrSetStatus .off)
    (f := fun p => { p with elapsedTicks := p.elapsedTicks + 1 }) (fun _ => rfl) s.running)

omit [DecidableEq S] [DecidableEq W] in
/-- A tick of the running thread, when it has any left. -/
theorem useTick_ticks {now : Pcb} (hnow : s.pcb s.running = some now) (hpos : now.ticks ≠ 0) (u : T) :
    (s.elapse.modifyPcb s.running fun p => { p with ticks := p.ticks - 1 }).ticks u =
      if u = s.running then s.ticks u - 1 else s.ticks u := by
  show (Function.update s.elapse.pcb s.running _ u).elim 0 _ = _
  by_cases hu : u = s.running
  · subst hu
    have hpos' : now.ticks.toNat ≠ 0 := fun he => hpos (UInt8.toNat_inj.mp he)
    have hsub : (now.ticks - 1).toNat = now.ticks.toNat - 1 :=
      UInt8.toNat_sub_of_le _ _ (UInt8.le_iff_toNat_le.mpr (Nat.pos_of_ne_zero hpos'))
    rw [if_pos rfl, Function.update_self, ticks, elapse_pcb, if_pos rfl, hnow]
    exact hsub
  · rw [if_neg hu, Function.update_of_ne hu, elapse_pcb, if_neg hu, ticks]

omit [DecidableEq S] [DecidableEq W] in
theorem intrTimerHandler_passes (h : s.intrTimerHandler = .ok s') (t : T) :
    Passes t 0 (s.schedules (.tick : Op T S W)) s s' := by
  obtain ⟨now, hnow, ⟨hz, hok⟩ | ⟨hz, rfl⟩⟩ := intrTimerHandler_cases h
  · have hsched : s.schedules (.tick : Op T S W) = 1 := by simp [schedules, hnow, hz]
    rw [hsched]
    exact (elapse_quiet t).before (schedule_passes hok t)
  · have hsched : s.schedules (.tick : Op T S W) = 0 := by simp [schedules, hnow, hz]
    rw [hsched]
    refine Quiet.passes fun ht => ⟨.refl ht, fun u hu => .inr ⟨hu, ?_⟩⟩
    refine (useTick_ticks hnow hz u).trans_le ?_
    split
    · exact Nat.sub_le ..
    · exact Nat.le_refl _

omit [DecidableEq S] [DecidableEq W] in
/-- A thread that goes on when `schedule` is called is behind the ready one afterwards. -/
theorem schedule_requeues (h : s.schedule = .ok s') (hstatus : s.statusOf s.running = some .running)
    (ht : t ∈ s.readyList) (hne : s'.running ≠ t) : s.running ∈ upto t s'.readyList := by
  obtain ⟨s₁, s₂, h₁, h₂, h₃⟩ := schedule_eq_ok h
  have hlist : s₁.readyList = s.readyList ++ [s.running] := by
    rw [requeueNow, if_pos hstatus] at h₁
    split at h₁
    · cases h₁
    · cases h₁
      rfl
  have hsame : s₂ = s₁ := by
    rw [reviveIdle, if_neg (by rw [hlist]; exact List.append_ne_nil_of_right_ne_nil _ (List.cons_ne_nil _ _))] at h₂
    cases h₂
    rfl
  rw [hsame, dispatch] at h₃
  split at h₃
  · cases h₃
  · next u l hl =>
    cases h₃
    show s.running ∈ upto t l
    have hne' : u ≠ t := hne
    have hbehind : s.running ∈ upto t (s.readyList ++ [s.running]) := by
      rw [upto_append ht]
      exact List.mem_append_right _ List.mem_cons_self
    rwa [← hlist, hl, upto_cons hne'] at hbehind

omit [DecidableEq S] [DecidableEq W] in
/-- After a tick, the thread that was running is behind the ready one, or it has a tick less. -/
theorem intrTimerHandler_spends (hstatus : s.statusOf s.running = some .running)
    (h : s.intrTimerHandler = .ok s') (ht : t ∈ s.readyList) (hne : s'.running ≠ t) :
    s.running ∈ upto t s'.readyList ∨ s'.ticks s.running < s.ticks s.running := by
  obtain ⟨now, hnow, ⟨-, hok⟩ | ⟨hz, rfl⟩⟩ := intrTimerHandler_cases h
  · have hstatus' : s.elapse.statusOf s.running = some .running :=
      (statusOf_modifyPcb_same (s := s.intrSetStatus .off)
        (f := fun p => { p with elapsedTicks := p.elapsedTicks + 1 }) (fun _ => rfl) _).trans hstatus
    exact .inl (schedule_requeues (s := s.elapse) hok hstatus' ht hne)
  · have hpos : s.ticks s.running ≠ 0 := by
      rw [ticks, hnow]
      exact fun he => hz (UInt8.toNat_inj.mp he)
    have hticks := useTick_ticks hnow hz s.running
    rw [if_pos rfl] at hticks
    exact .inr (hticks.trans_lt (Nat.sub_lt (Nat.pos_of_ne_zero hpos) Nat.one_pos))

omit [DecidableEq W] in
theorem semaUp_passes {i : S} (h : s.semaUp i = .ok s') (t : T) :
    Passes t (s.wakes (.up i : Op T S W)) 0 s s' := by
  rw [semaUp, semaphoreUp] at h
  cases hw : (s.sema i).waiters with
  | nil =>
    simp only [hw] at h
    cases h
    have hwakes : s.wakes (.up i : Op T S W) = 0 := if_pos hw
    have hset : Quiet t 0 s (s.setSema i { s.sema i with
        waiters := [], value := (s.sema i).value + 1 }) := .same rfl rfl fun _ => rfl
    rw [hwakes]
    exact hset.passes
  | cons u l =>
    simp only [hw] at h
    have hne : (s.sema i).waiters ≠ [] := by
      rw [hw]
      rintro ⟨⟩
    have hwakes : s.wakes (.up i : Op T S W) = 1 := if_neg hne
    rw [hwakes]
    have hset : Quiet t 0 s (s.setSema i { s.sema i with
        waiters := l, value := (s.sema i).value + 1 }) := .same rfl rfl fun _ => rfl
    exact (hset.trans (threadUnblock_quiet h t)).passes

omit [DecidableEq S] in
theorem wakeup_passes {i : W} (h : s.wakeup i = .ok s') (t : T) : Passes t 1 0 s s' := by
  rw [wakeup] at h
  cases hw : s.waiter i with
  | none =>
    simp only [hw] at h
    cases h
  | some u =>
    simp only [hw] at h
    cases hu : s.threadUnblock u with
    | error e => simp [bind, Except.bind, hu] at h
    | ok s₁ =>
      simp only [bind, Except.bind, hu] at h
      cases h
      have hset : Quiet t 0 s₁ (s₁.setWaiter i none) := .same rfl rfl fun _ => rfl
      exact ((threadUnblock_quiet hu t).trans hset).passes

omit [DecidableEq S] [DecidableEq W] in
theorem threadYield_passes (h : s.threadYield = .ok s') (t : T) : Passes t 0 1 s s' := by
  rw [threadYield] at h
  split at h
  · cases h
  · have hq : Quiet t 0 s { (s.intrSetStatus .off).setStatus s.running .ready with
        readyList := s.readyList ++ [s.running] } := by
      intro ht
      have happend : Waits t 0 0 s.readyList (s.readyList ++ [s.running]) := .append ht _
      exact .of_waits happend rfl (ticks_setStatus (s := s.intrSetStatus .off) s.running .ready)
    exact hq.before (schedule_passes h t)

omit [DecidableEq W] in
theorem semaDown_passes {i : S} (h : s.semaDown i = .ok s') (t : T) :
    Passes t 0 (s.schedules (.down i : Op T S W)) s s' := by
  have hset : ∀ sema, Quiet t 0 s (s.setSema i sema) := fun _ => .same rfl rfl fun _ => rfl
  obtain ⟨⟨sema, blocks⟩, hlift, hok⟩ := bind_eq_ok.mp h
  rw [semaphoreDown] at hlift
  by_cases hz : (s.sema i).value = 0
  · have hsched : s.schedules (.down i : Op T S W) = 1 := if_pos hz
    rw [if_pos hz] at hlift
    split at hlift
    · cases hlift
    · cases hlift
      have hblock : (s.setSema i { s.sema i with
          waiters := (s.sema i).waiters ++ [s.running] }).threadBlock .blocked = .ok s' := hok
      rw [hsched]
      exact threadBlock_passes (hset _) hblock
  · have hsched : s.schedules (.down i : Op T S W) = 0 := if_neg hz
    simp only [if_neg hz] at hlift
    split at hlift
    · cases hlift
      cases hok
      rw [hsched]
      exact (hset _).passes
    · cases hlift

omit [DecidableEq S] in
theorem ioqWait_passes {i : W} (h : s.ioqWait i = .ok s') (t : T) : Passes t 0 1 s s' := by
  rw [ioqWait] at h
  cases hw : s.waiter i with
  | some u =>
    simp only [hw] at h
    cases h
  | none =>
    simp only [hw] at h
    have hset : Quiet t 0 s (s.setWaiter i (some s.running)) := .same rfl rfl fun _ => rfl
    exact threadBlock_passes hset h

omit [DecidableEq S] [DecidableEq W] in
/-- A thread that is made joins the end of the queue. -/
theorem born_quiet {p : Option Pcb} {mp : Bitmap}
    (h : ({ s with pidBitmap := mp, pcb := Function.update s.pcb u p } : Threads T S W).enlist u = .ok s')
    (t : T) : Quiet t 0 s s' := by
  obtain rfl := enlist_eq_ok h
  intro ht
  refine ⟨.append ht u, fun v hv => ?_⟩
  by_cases hvu : v = u
  · refine .inl ?_
    show v ∈ upto t (s.readyList ++ [u])
    rw [upto_append ht, hvu]
    exact List.mem_append_right _ List.mem_cons_self
  · have hv : v ∈ s.allList ++ [u] := hv
    refine .inr ⟨(List.mem_append.mp hv).resolve_right fun hm => hvu (List.mem_singleton.mp hm), ?_⟩
    show (Function.update s.pcb u p v).elim 0 _ ≤ _
    rw [Function.update_of_ne hvu]
    exact Nat.le_refl _

omit [DecidableEq S] [DecidableEq W] in
theorem threadStart_passes {name : String} {priority : UInt8}
    (h : s.threadStart u name priority = .ok s') (t : T) : Passes t 0 0 s s' := by
  obtain ⟨s₁, hinit, hok⟩ := bind_eq_ok.mp h
  obtain ⟨pid, mp, -, rfl⟩ := initThread_eq_ok hinit
  exact (born_quiet hok t).passes

omit [DecidableEq S] [DecidableEq W] in
theorem sysFork_passes {mem : ForkMem T} {pid : Int}
    (h : s.sysFork mem = .ok (s', pid)) (t : T) : Passes t 0 0 s s' := by
  have hoff : Quiet t 0 s (s.intrSetStatus .off) := .same rfl rfl fun _ => rfl
  have hlost : ∀ mp, Quiet t 0 s { s.intrSetStatus .off with pidBitmap := mp } :=
    fun _ => .same rfl rfl fun _ => rfl
  rw [sysFork] at h
  split at h
  · cases h
  · split at h
    · cases h
      exact hoff.passes
    · split at h
      · cases h
      · split at h
        · cases h
          exact hoff.passes
        · obtain ⟨⟨pid', mp⟩, -, hok⟩ := bind_eq_ok.mp h
          cases mem with
          | enough u =>
            simp only at hok
            split at hok
            · obtain ⟨s₁, henlist, hend⟩ := bind_eq_ok.mp hok
              cases hend
              exact (hoff.trans (born_quiet henlist t)).passes
            · cases hok
          | noPageDir =>
            simp only at hok
            split at hok
            · cases hok
              exact (hlost mp).passes
            · cases hok
          | noPcb =>
            cases hok
            exact (hlost mp).passes
          | noTranPage =>
            cases hok
            exact (hlost mp).passes
          | noVaddrBitmap =>
            cases hok
            exact (hlost mp).passes

omit [DecidableEq S] [DecidableEq W] in
/-- `thread_exit` of a thread that is not in the queue, up to the call of `schedule`. -/
theorem threadExit_quiet {needSchedule : Bool} (hu : u ∉ s.readyList)
    (h : s.threadExit u needSchedule = .ok s') (t : T) :
    ∃ s₁, Quiet t 0 s s₁ ∧ (if needSchedule then s₁.schedule else .ok s₁) = .ok s' := by
  have hdied : ∀ v, (s.setStatus u .died).ticks v = s.ticks v := ticks_setStatus u .died
  rw [threadExit] at h
  split at h
  · cases h
  · obtain ⟨mp, -, hok⟩ := bind_eq_ok.mp h
    refine ⟨_, ?_, hok⟩
    split
    · refine .of_le (List.erase_of_not_mem hu) List.erase_subset fun v => ?_
      show (Function.update (s.setStatus u .died).pcb u none v).elim 0 _ ≤ _
      by_cases hvu : v = u
      · rw [hvu, Function.update_self]
        exact Nat.zero_le _
      · rw [Function.update_of_ne hvu]
        exact (hdied v).le
    · exact .of_le (List.erase_of_not_mem hu) List.erase_subset fun v => (hdied v).le

omit [DecidableEq S] [DecidableEq W] in
/-- A round of `sys_wait`. -/
theorem waitRound_passes {mine : Pcb → Bool} {r : WaitResult} (hinv : s.Inv)
    (h : s.waitRound mine = .ok (s', r)) (t : T) :
    Passes t 0 (if s.waitBlocks mine then 1 else 0) s s' := by
  obtain ⟨place, hagrees, hrun⟩ := hinv
  have hoff : Quiet t 0 s (s.intrSetStatus .off) := .same rfl rfl fun _ => rfl
  have hfind : ∀ p, (s.intrSetStatus .off).findThread p = s.findThread p := fun _ => rfl
  rw [waitRound] at h
  simp only [hfind] at h
  split at h
  · next child hchild =>
    have hblocks : s.waitBlocks mine = false := by rw [waitBlocks, hchild]; rfl
    rw [hblocks]
    obtain ⟨-, -, -, -, hplace, -⟩ := hagrees.hanging hchild
    have hnot : child ∉ s.readyList := by
      intro hm
      rw [(hagrees.mem_queue .ready child).mp hm] at hplace
      cases hplace
    have hne : child ≠ s.running := by
      rintro rfl
      rw [hplace] at hrun
      cases hrun
    split at h
    · cases h
    · obtain ⟨s₁, hexit, hend⟩ := bind_eq_ok.mp h
      cases hend
      obtain ⟨s₂, hq, hs₂⟩ := threadExit_quiet (s := s.intrSetStatus .off) hnot hexit t
      cases hs₂
      exact (hoff.trans hq).passes
  · next hchild =>
    split at h
    · next hnone =>
      cases h
      have hblocks : s.waitBlocks mine = false := by rw [waitBlocks, hnone, Bool.and_comm]; rfl
      rw [hblocks]
      exact hoff.passes
    · next u hu =>
      obtain ⟨s₁, hblock, hend⟩ := bind_eq_ok.mp h
      cases hend
      have hblocks : s.waitBlocks mine = true := by rw [waitBlocks, hchild, hu]; rfl
      rw [hblocks]
      exact threadBlock_passes hoff hblock

omit [DecidableEq S] [DecidableEq W] in
theorem changeParentToInit_quiet (ppid : Int) (t : T) : Quiet t 0 s (s.changeParentToInit ppid) := by
  rw [changeParentToInit]
  generalize s.allList = l
  induction l generalizing s with
  | nil => exact .same rfl rfl fun _ => rfl
  | cons u l ih =>
    have hone : Quiet t 0 s (s.modifyPcb u fun p =>
        if p.parentPid = ppid then { p with parentPid := 1 } else p) := by
      refine .same rfl rfl (ticks_modifyPcb (fun p => ?_) u)
      split <;> rfl
    exact hone.trans ih

omit [DecidableEq S] [DecidableEq W] in
theorem wakeParentAndHang_passes (h : s.wakeParentAndHang = .ok s') (t : T) :
    Passes t (if s.parentWaits then 1 else 0) 1 s s' := by
  have hsame : Quiet t 0 s s := .same rfl rfl fun _ => rfl
  rw [wakeParentAndHang] at h
  split at h
  · cases h
  · next child hchild =>
    split at h
    · next hnone =>
      have hwaits : s.parentWaits = false := by
        rw [parentWaits, hchild, Option.bind_some, hnone]
        rfl
      rw [hwaits]
      exact threadBlock_passes hsame h
    · next parent hparent =>
      have hwaits : s.parentWaits = decide (s.statusOf parent = some .waiting) := by
        rw [parentWaits, hchild, Option.bind_some, hparent]
        rfl
      rw [hwaits]
      by_cases hw : s.statusOf parent = some .waiting
      · rw [if_pos hw] at h
        rw [decide_eq_true hw]
        obtain ⟨s₁, hwake, hblock⟩ := bind_eq_ok.mp h
        exact threadBlock_passes (threadUnblock_quiet hwake t) hblock
      · rw [if_neg hw] at h
        rw [decide_eq_false hw]
        have hblock : s.threadBlock .hanging = .ok s' := h
        exact threadBlock_passes hsame hblock

omit [DecidableEq S] [DecidableEq W] in
theorem sysExit_passes {status : Int} (h : s.sysExit status = .ok s') (t : T) :
    Passes t (s.wakes (.exit status : Op T S W)) 1 s s' := by
  rw [sysExit] at h
  split at h
  · cases h
  · next child hchild =>
    split at h
    · cases h
    · have hpcb : s.pcb s.running = some child := hchild
      have hleaving : s.leaving status = ((s.intrSetStatus .off).modifyPcb s.running fun p => { p with
          exitStatus := Int8.ofInt status }).changeParentToInit child.pid := by
        rw [leaving, hpcb]
        rfl
      have hset : Quiet t 0 s ((s.intrSetStatus .off).modifyPcb s.running fun p => { p with
          exitStatus := Int8.ofInt status }) :=
        .same rfl rfl (ticks_modifyPcb (s := s.intrSetStatus .off)
          (f := fun p => { p with exitStatus := Int8.ofInt status }) (fun _ => rfl) s.running)
      have hq := hset.trans (changeParentToInit_quiet child.pid t)
      rw [← hleaving] at hq
      have hend : (s.leaving status).wakeParentAndHang = .ok s' := hleaving ▸ h
      have hwakes : s.wakes (.exit status : Op T S W) =
          if (s.leaving status).parentWaits then 1 else 0 := rfl
      rw [hwakes]
      simpa only [Nat.zero_add] using hq.before (wakeParentAndHang_passes hend t)

/-- Every transition. -/
theorem exec_passes (hinv : s.Inv) (hop : s.Enabled op) (h : s.exec op = .ok s') (t : T) :
    Passes t (s.wakes op) (s.schedules op) s s' := by
  have hsame : Quiet t 0 s s := .same rfl rfl fun _ => rfl
  cases op with
  | tick => exact intrTimerHandler_passes h t
  | up i => exact semaUp_passes h t
  | wakeup i => exact wakeup_passes h t
  | intr status =>
    cases h
    have hset : Quiet t 0 s (s.intrSetStatus status) := .same rfl rfl fun _ => rfl
    exact hset.passes
  | idle =>
    have hblock : s.threadBlock .blocked = .ok s' := h
    exact threadBlock_passes hsame hblock
  | yield => exact threadYield_passes h t
  | semaInit i value =>
    cases h
    have hset : Quiet t 0 s (s.setSema i (semaphoreInit value)) := .same rfl rfl fun _ => rfl
    exact hset.passes
  | down i => exact semaDown_passes h t
  | ioqWait i => exact ioqWait_passes h t
  | start u name priority => exact threadStart_passes h t
  | fork mem =>
    obtain ⟨⟨s₁, pid⟩, hfork, rfl⟩ := map_eq_ok h
    exact sysFork_passes hfork t
  | exit status => exact sysExit_passes h t
  | wait pid =>
    obtain ⟨⟨s₁, r⟩, hwait, rfl⟩ := map_eq_ok h
    exact waitRound_passes hinv hwait t
  | waitWithoutPid =>
    obtain ⟨⟨s₁, r⟩, hwait, rfl⟩ := map_eq_ok h
    rw [sysWaitWithoutPid] at hwait
    cases hp : s.pcb s.running with
    | none =>
      rw [hp] at hwait
      cases hwait
    | some parent =>
      simp only [hp] at hwait
      have hsched : s.schedules (.waitWithoutPid : Op T S W) =
          if s.waitBlocks (fun p => p.parentPid = parent.pid) then 1 else 0 := by
        rw [schedules, hp, Option.any_some]
      rw [hsched]
      exact waitRound_passes hinv hwait t
  | threadExit =>
    have hmain : s.running = s.mainThread := hop
    have hnot : s.running ∉ s.readyList := by
      obtain ⟨place, hagrees, hrun⟩ := hinv
      intro hm
      rw [(hagrees.mem_queue .ready s.running).mp hm] at hrun
      cases hrun
    obtain ⟨s₁, hq, hok⟩ := threadExit_quiet hnot h t
    exact hq.before (schedule_passes hok t)

end Calls

/-! ## Runs -/

/-- How often the timer ticks. -/
def Op.ticks : Op T S W → Nat
  | .tick => 1
  | _ => 0

/-- The runs in which the thread does not get the processor: `w` threads are woken, `schedule` is called
`d` times, and the timer ticks `n` times. -/
inductive Without (t : T) (s : Threads T S W) : Nat → Nat → Nat → Threads T S W → Prop
  | refl : Without t s 0 0 0 s
  | tail {w d n : Nat} {s₁ s₂ : Threads T S W} {op : Op T S W} (h : Without t s w d n s₁)
      (hop : s₁.Enabled op) (hok : s₁.exec op = .ok s₂) (hrun : s₂.running ≠ t) :
      Without t s (w + s₁.wakes op) (d + s₁.schedules op) (n + op.ticks) s₂

/-- The threads that are not behind this one in the queue. -/
def ahead (s : Threads T S W) (t : T) : Finset T := s.allList.toFinset.filter fun u => u ∉ upto t s.readyList

/-- What they have left together, with the tick at which each is scheduled. -/
def delay (s : Threads T S W) (t : T) : Nat := ∑ u ∈ s.ahead t, (s.ticks u + 1)

omit [DecidableEq S] [DecidableEq W] in
theorem mem_ahead : u ∈ s.ahead t ↔ u ∈ s.allList ∧ u ∉ upto t s.readyList := by
  rw [ahead, Finset.mem_filter, List.mem_toFinset]

omit [DecidableEq T] [DecidableEq S] [DecidableEq W] in
theorem ticks_lt (s : Threads T S W) (u : T) : s.ticks u < 256 := by
  rw [ticks]
  cases s.pcb u with
  | none => exact Nat.succ_pos 255
  | some p => exact p.ticks.toNat_lt

omit [DecidableEq S] [DecidableEq W] in
theorem delay_le (s : Threads T S W) (t : T) : s.delay t ≤ 256 * (s.ahead t).card := by
  calc s.delay t
      ≤ ∑ u ∈ s.ahead t, 256 := Finset.sum_le_sum fun u _ => s.ticks_lt u
    _ = 256 * (s.ahead t).card := by rw [Finset.sum_const_nat fun _ _ => rfl, Nat.mul_comm]

omit [DecidableEq S] [DecidableEq W] in
theorem Stays.ahead_subset (h : Stays t w d s s') (hu : u ∈ s'.ahead t) :
    u ∈ s.ahead t ∧ s'.ticks u ≤ s.ticks u := by
  obtain ⟨hall, hnot⟩ := mem_ahead.mp hu
  obtain ⟨hall', hle⟩ := (h.spends u hall).resolve_left hnot
  exact ⟨mem_ahead.mpr ⟨hall', fun hm => hnot (h.waits.behind hm)⟩, hle⟩

omit [DecidableEq S] [DecidableEq W] in
theorem Inv.running_ahead (h : s.Inv) (t : T) : s.running ∈ s.ahead t := by
  obtain ⟨place, hagrees, hrun⟩ := h
  refine mem_ahead.mpr ⟨(hagrees.mem_all _).mpr ?_, fun hm => ?_⟩
  · rw [hrun]
    exact ⟨by rintro ⟨⟩, by rintro ⟨⟩⟩
  · rw [(hagrees.mem_queue .ready s.running).mp (mem_of_mem_upto hm)] at hrun
    cases hrun

/-- Every tick is at the expense of a thread that is not behind the ready one. -/
theorem delay_exec (hinv : s.Inv) (hop : s.Enabled op) (hok : s.exec op = .ok s') (ht : t ∈ s.readyList)
    (hrun : s'.running ≠ t) : s'.delay t + op.ticks ≤ s.delay t := by
  have hstays := (exec_passes hinv hop hok t ht).resolve_left hrun
  have hsub : s'.ahead t ⊆ s.ahead t := fun u hu => (hstays.ahead_subset hu).1
  have hle : ∀ u ∈ s'.ahead t, s'.ticks u + 1 ≤ s.ticks u + 1 := fun u hu =>
    Nat.succ_le_succ (hstays.ahead_subset hu).2
  cases op with
  | tick =>
    obtain ⟨place, hagrees, hplace⟩ := hinv
    have hspent := intrTimerHandler_spends (hagrees.status_running hplace) hok ht hrun
    have hrunning := Inv.running_ahead ⟨place, hagrees, hplace⟩ t
    refine sum_lt_of_spent hsub hle hrunning (Nat.succ_pos _) fun hm => ?_
    exact Nat.succ_lt_succ (hspent.resolve_left (mem_ahead.mp hm).2)
  | _ => exact sum_le_of_spent hsub hle

theorem Without.inv (h : Without t s w d n s') (hinv : s.Inv) : s'.Inv := by
  induction h with
  | refl => exact hinv
  | tail _ hop hok _ ih => exact (exec_ok ih hop hok).1

/-- The thread stays in the queue. -/
theorem Without.waits (h : Without t s w d n s') (hinv : s.Inv) (ht : t ∈ s.readyList) :
    Waits t w d s.readyList s'.readyList := by
  induction h with
  | refl => exact .refl ht
  | tail hprev hop hok hrun ih =>
    have hnext := exec_passes (hprev.inv hinv) hop hok t ih.mem
    exact ih.trans (hnext.resolve_left hrun).waits

theorem Without.delay_le (h : Without t s w d n s') (hinv : s.Inv) (ht : t ∈ s.readyList) :
    s'.delay t + n ≤ s.delay t := by
  induction h with
  | refl => exact Nat.le_refl _
  | tail hprev hop hok hrun ih =>
    have hstep := delay_exec (hprev.inv hinv) hop hok (hprev.waits hinv ht).mem hrun
    omega

/-- **The place of a ready thread.** In a run in which a ready thread does not get the processor, its place
in the queue is what it was, plus one for each thread that is woken, minus one for each call of `schedule`.
So it is passed over no more often than there are threads in front of it at first and threads woken
later. -/
theorem readyThread_place {init main idle : T} (hne : init ≠ main ∧ init ≠ idle ∧ main ≠ idle)
    (h : Reachable init main idle s) (ht : t ∈ s.readyList) (hrun : Without t s w d n s') :
    t ∈ s'.readyList ∧ s'.readyList.idxOf t + d = s.readyList.idxOf t + w ∧
      d ≤ s.readyList.idxOf t + w := by
  have hwaits := hrun.waits (h.inv hne) ht
  have hplace := hwaits.place
  exact ⟨hwaits.mem, hplace, by omega⟩

/-- The main thread yields: the idle thread, the second of the queue, becomes the first. -/
theorem readyThread_place_boot : ∃ s s' : Threads (Fin 3) Unit Unit, Reachable 0 1 2 s ∧
    Without 2 s 0 1 0 s' ∧ s.readyList = [0, 2] ∧ s'.readyList.idxOf 2 + 1 = s.readyList.idxOf 2 + 0 := by
  have hne : (0 : Fin 3) ≠ 1 ∧ (0 : Fin 3) ≠ 2 ∧ (1 : Fin 3) ≠ 2 := by decide
  have hboot : (threadInit 0 1 2 (fun _ => 1) : Except _ (Threads (Fin 3) Unit Unit)).map
      (fun s => (s.running, s.idleThread, s.readyList)) = .ok (1, 2, [0, 2]) := by decide +kernel
  have hyield : ((threadInit 0 1 2 (fun _ => 1) : Except _ (Threads (Fin 3) Unit Unit)).bind
      threadYield).map running = .ok 0 := by decide +kernel
  obtain ⟨s, hs⟩ := threadInit_ok (S := Unit) (W := Unit) (fun _ => 1) hne
  rw [hs] at hboot hyield
  have hfields : (s.running, s.idleThread, s.readyList) = (1, 2, [0, 2]) := Except.ok.inj hboot
  simp only [Prod.mk.injEq] at hfields
  obtain ⟨hrun, hidle, hready⟩ := hfields
  have hreach : Reachable 0 1 2 s := ⟨_, s, hs, .refl⟩
  cases hs' : s.threadYield with
  | error e => simp [Except.bind, Except.map, hs'] at hyield
  | ok s' =>
    have hrun' : s'.running = 0 := by simpa [Except.bind, Except.map, hs'] using hyield
    have henabled : s.Enabled .yield := by
      rw [Enabled, hrun, hidle]
      decide
    have hpass : Without 2 s 0 1 0 s' := .tail .refl henabled hs' (by rw [hrun']; decide)
    have ht : 2 ∈ s.readyList := by rw [hready]; decide
    exact ⟨s, s', hreach, hpass, hready, (readyThread_place hne hreach ht hpass).2.1⟩

/-- **No ready thread starves.** However often the other threads wake each other, block, fork and exit, a
ready thread gets the processor before the threads that are not behind it in the queue have used up what
they have left: the timer ticks no more often than that before it runs, and no more than 256 times for each
of these threads. -/
theorem readyThread_ticks {init main idle : T} (hne : init ≠ main ∧ init ≠ idle ∧ main ≠ idle)
    (h : Reachable init main idle s) (ht : t ∈ s.readyList) (hrun : Without t s w d n s') :
    n ≤ ∑ u ∈ s.ahead t, (s.ticks u + 1) ∧ n ≤ 256 * (s.ahead t).card := by
  have hdelay := hrun.delay_le (h.inv hne) ht
  have hle := s.delay_le t
  have hn : n ≤ s.delay t := by omega
  exact ⟨hn, hn.trans hle⟩

/-- Interrupts are switched on, and the timer ticks in the main thread. -/
theorem readyThread_ticks_boot : ∃ (s s' : Threads (Fin 3) Unit Unit) (w d : Nat), Reachable 0 1 2 s ∧
    Without 2 s w d 1 s' ∧ 1 ≤ ∑ u ∈ s.ahead 2, (s.ticks u + 1) := by
  have hne : (0 : Fin 3) ≠ 1 ∧ (0 : Fin 3) ≠ 2 ∧ (1 : Fin 3) ≠ 2 := by decide
  have hboot : (threadInit 0 1 2 (fun _ => 1) : Except _ (Threads (Fin 3) Unit Unit)).map
      (fun s => (s.running, s.readyList)) = .ok (1, [0, 2]) := by decide +kernel
  have htick : ((threadInit 0 1 2 (fun _ => 1) : Except _ (Threads (Fin 3) Unit Unit)).bind
      fun s => (s.intrSetStatus .on).intrTimerHandler).map running = .ok 1 := by decide +kernel
  obtain ⟨s, hs⟩ := threadInit_ok (S := Unit) (W := Unit) (fun _ => 1) hne
  rw [hs] at hboot htick
  have hfields : (s.running, s.readyList) = (1, [0, 2]) := Except.ok.inj hboot
  obtain ⟨hrun, hready⟩ := Prod.mk.inj hfields
  have hreach : Reachable 0 1 2 s := ⟨_, s, hs, .refl⟩
  cases hs' : (s.intrSetStatus .on).intrTimerHandler with
  | error e => simp [Except.bind, Except.map, hs'] at htick
  | ok s' =>
    have hrun' : s'.running = 1 := by simpa [Except.bind, Except.map, hs'] using htick
    have hintr : s.Enabled (.intr .on) := trivial
    have hne' : (s.intrSetStatus .on).running ≠ 2 := by
      show s.running ≠ 2
      rw [hrun]
      decide
    have htick' : (s.intrSetStatus .on).Enabled .tick := rfl
    have hon : Without 2 s 0 0 0 (s.intrSetStatus .on) := .tail .refl hintr rfl hne'
    have hpass := hon.tail htick' hs' (by rw [hrun']; decide)
    have ht : 2 ∈ s.readyList := by rw [hready]; decide
    have hn := (readyThread_ticks hne hreach ht hpass).1
    exact ⟨s, s', _, _, hreach, hpass, hn⟩

end Threads

end GwOS
