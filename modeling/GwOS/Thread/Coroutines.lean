import GwOS.Thread.Switch

/-!
# The threads as coroutines

The threads take turns on the processor. `Coroutines` is the state of the processor with the thread
that runs, and for each thread that does not run, how it has come to wait: it has called `switch_to`,
or `thread_create` or `fork` has made it.

- `coroutines_inv`: every stack that waits stays as it has been left.
- `switch_resumes`: a switch to a thread is, for that thread, the return of its call, or its beginning.
-/

namespace GwOS

open Ia32

/-- How a thread has come to wait. `u` is the user program that the parent of a child has run. -/
inductive Origin where
  | called (s : Cpu) (rest : List Word)
  | created (func funcArg : Word)
  | forked (u : Cpu)

/-- The processor, the thread that runs, and those that wait. -/
structure Coroutines where
  cpu : Cpu
  running : Word
  waiting : Word → Option Origin

/-- `SELECTOR_KERNEL_STACK` -/
def selectorKernelStack : BitVec 16 := (2 <<< 3) + (0 <<< 2) + 0

/-- The processor runs the kernel. -/
def InKernel (s : Cpu) : Prop := s.seg .cs = selectorKernelCode ∧ s.seg .ss = selectorKernelStack

/-- The frame of a system call of the user program lies at the end of the page of the thread. -/
def UserFrame (m : Word → Word) (t : Word) (u : Cpu) : Prop :=
  ∃ v e d, Stacked m (above t 1005) ((IntrStack.of u v e d).words ++ outerWords u selectorKernelCode)

namespace Coroutines

/-- The code that runs touches no thread that waits. -/
def Leaves (st : Coroutines) (s : Cpu) : Prop :=
  ∀ t o, st.waiting t = some o → ∀ w, Held st.cpu.mem t w → s.mem w = st.cpu.mem w

/-- A page that no thread uses. -/
def Free (st : Coroutines) (t : Word) : Prop :=
  t.toNat % 4096 = 0 ∧ t ≠ st.running ∧ st.waiting t = none

/-- The threads that wait when the thread that runs has called `switch_to`. -/
def give (st : Coroutines) (rest : List Word) : Word → Option Origin :=
  Function.update st.waiting st.running (some (.called st.cpu rest))

/-- `switch_to` -/
def switch (st : Coroutines) (next : Word) (rest : List Word) : Coroutines where
  cpu := st.cpu.run switchTo
  running := next
  waiting := Function.update (st.give rest) next none

/-- `thread_start` -/
def start (st : Coroutines) (kernelThread t func funcArg : Word) : Coroutines where
  cpu := { st.cpu with mem := threadCreate kernelThread (initKstack st.cpu.mem t) t func funcArg }
  running := st.running
  waiting := Function.update st.waiting t (some (.created func funcArg))

/-- `sys_fork`, as far as the kernel stack of the child is concerned -/
def fork (st : Coroutines) (intrExitAddr t : Word) (u : Cpu) : Coroutines where
  cpu := { st.cpu with mem := buildChildStack intrExitAddr (copyPage st.cpu.mem t st.running) t }
  running := st.running
  waiting := Function.update st.waiting t (some (.forked u))

/-- One step: the thread that runs computes, gives the processor away, makes a thread or a child, or
frees a thread that waits. -/
inductive Step (kernelThread intrExitAddr : Word) (st : Coroutines) : Coroutines → Prop
  | work (s : Cpu) : st.Leaves s → Step kernelThread intrExitAddr st { st with cpu := s }
  | switch (next ret : Word) (rest : List Word) : Calls st.cpu st.running next ret rest →
      InKernel st.cpu → st.give rest next ≠ none →
      Step kernelThread intrExitAddr st (st.switch next rest)
  | start (t func funcArg : Word) : st.Free t →
      Step kernelThread intrExitAddr st (st.start kernelThread t func funcArg)
  | fork (t : Word) (u : Cpu) : st.Free t → rpl (u.seg .cs) = 3 → UserFrame st.cpu.mem st.running u →
      Step kernelThread intrExitAddr st (st.fork intrExitAddr t u)
  | reap (t : Word) : Step kernelThread intrExitAddr st
      { st with waiting := Function.update st.waiting t none }

/-- The states that are reached from `st`. -/
inductive Reaches (kernelThread intrExitAddr : Word) (st : Coroutines) : Coroutines → Prop
  | refl : Reaches kernelThread intrExitAddr st st
  | step {st1 st2 : Coroutines} : Reaches kernelThread intrExitAddr st st1 →
      Step kernelThread intrExitAddr st1 st2 → Reaches kernelThread intrExitAddr st st2

/-- The states that are reached from `st` while the thread waits. -/
inductive Away (kernelThread intrExitAddr t : Word) (st : Coroutines) : Coroutines → Prop
  | refl : Away kernelThread intrExitAddr t st st
  | step {st1 st2 : Coroutines} : Away kernelThread intrExitAddr t st st1 →
      Step kernelThread intrExitAddr st1 st2 → st2.waiting t ≠ none → Away kernelThread intrExitAddr t st st2

/-- The first thread alone. -/
def Alone (st : Coroutines) : Prop := st.running.toNat % 4096 = 0 ∧ ∀ t, st.waiting t = none

end Coroutines

/-- The stack of a thread that waits. -/
def Origin.Leaves (kernelThread intrExitAddr t : Word) (ws : List Word) : Origin → Prop
  | .called s rest => InKernel s ∧ ∃ next ret, Calls s t next ret rest ∧ ws = callWords s t next ret rest
  | .created func funcArg => ∃ unused tail, tail.length = 100 ∧
      ws = [0, 0, 0, 0, kernelThread] ++ ([unused, func, funcArg] ++ tail)
  | .forked u => rpl (u.seg .cs) = 3 ∧ ∃ v e d, ws = [0, 0, 0, 0, intrExitAddr] ++
      ((IntrStack.of (u.setReg .eax 0) v e d).words ++ outerWords u selectorKernelCode)

/-- What a thread finds when the processor is given to it: its call has returned, the function that it
has been created for is called, or the system call of its parent returns 0. -/
def Origin.Resumes (kernelThread intrExitAddr : Word) (s' : Cpu) : Origin → Prop
  | .called s rest => Cdecl s s' 2 rest.length
  | .created func funcArg => s'.eip = kernelThread ∧
      ∃ unused, Stacked s'.mem (s'.reg .esp) [unused, func, funcArg]
  | .forked u => s'.eip = intrExitAddr ∧ SameContext (u.setReg .eax 0) (s'.run intrExit)

namespace Coroutines

/-- The threads that wait can all be resumed. -/
def Waits (kernelThread intrExitAddr : Word) (m : Word → Word) (waiting : Word → Option Origin) : Prop :=
  ∀ t o, waiting t = some o → t.toNat % 4096 = 0 ∧
    ∃ ws, Parked m t ws ∧ o.Leaves kernelThread intrExitAddr t ws

/-- The invariant. -/
structure Inv (kernelThread intrExitAddr : Word) (st : Coroutines) : Prop where
  page : st.running.toNat % 4096 = 0
  running : st.waiting st.running = none
  waits : Waits kernelThread intrExitAddr st.cpu.mem st.waiting

section Runs

variable {kernelThread intrExitAddr next ret t func funcArg : Word} {st st' st0 : Coroutines}
  {rest ws : List Word} {o : Origin} {s : Cpu} {m m' : Word → Word} {waiting : Word → Option Origin}

/-- Code runs that touches no thread that waits. -/
theorem Waits.congr (h : Waits kernelThread intrExitAddr m waiting)
    (hm : ∀ t o, waiting t = some o → ∀ w, Held m t w → m' w = m w) :
    Waits kernelThread intrExitAddr m' waiting := by
  intro t o ho
  obtain ⟨hpage, ws, hp, hl⟩ := h t o ho
  exact ⟨hpage, ws, hp.congr hpage (hm t o ho), hl⟩

/-- A thread begins to wait; nothing outside its page has been written. -/
theorem Waits.insert (h : Waits kernelThread intrExitAddr m waiting) (ht : t.toNat % 4096 = 0)
    (hm : ∀ w, 4096 ≤ (w - t).toNat → m' w = m w) (hp : Parked m' t ws)
    (hl : o.Leaves kernelThread intrExitAddr t ws) :
    Waits kernelThread intrExitAddr m' (Function.update waiting t (some o)) := by
  intro t' o' ho'
  by_cases ht' : t' = t
  · subst ht'
    rw [Function.update_self] at ho'
    obtain rfl := Option.some.inj ho'
    exact ⟨ht, ws, hp, hl⟩
  · rw [Function.update_of_ne ht'] at ho'
    obtain ⟨hpage', ws', hp', hl'⟩ := h t' o' ho'
    exact ⟨hpage', ws', hp'.congr hpage' fun w hw => hm w (hp'.outside hpage' ht (Ne.symm ht') hw), hl'⟩

theorem Waits.remove (h : Waits kernelThread intrExitAddr m waiting) (t : Word) :
    Waits kernelThread intrExitAddr m (Function.update waiting t none) := by
  intro t' o ho
  by_cases ht : t' = t
  · rw [ht, Function.update_self] at ho
    cases ho
  · rw [Function.update_of_ne ht] at ho
    exact h t' o ho

/-- The threads that wait when the stack is changed. -/
theorem Inv.give (h : st.Inv kernelThread intrExitAddr) (hcall : Calls st.cpu st.running next ret rest)
    (hker : InKernel st.cpu) :
    Waits kernelThread intrExitAddr (parkedMem st.cpu st.running) (st.give rest) :=
  h.waits.insert h.page (fun _ hw => hcall.outside hw) hcall.parked ⟨hker, next, ret, hcall, rfl⟩

/-- For a thread that has called `switch_to`, the call returns. -/
theorem returns_called {next' ret' : Word} {rest' : List Word} (hs : InKernel s)
    (hs' : Calls s next next' ret' rest') (hcall : Calls st.cpu st.running next ret rest)
    (hker : InKernel st.cpu)
    (hp : Parked (parkedMem st.cpu st.running) next (callWords s next next' ret' rest')) :
    Cdecl s (st.cpu.run switchTo) 2 rest'.length := by
  have hroom := hs'.room
  have hp' : Parked (parkedMem st.cpu st.running) next
      ([s.reg .ebp, s.reg .ebx, s.reg .edi, s.reg .esi, ret'] ++ ([next, next'] ++ rest')) := hp
  obtain ⟨heip, hseg, hesp, hebp, hebx, hedi, hesi⟩ := hcall.run hp'
  have hafter := hcall.stack hp'
  have hbefore := hs'.args
  generalize st.cpu.run switchTo = s' at *
  have hup : s'.reg .esp = s.reg .esp + 4 := by
    rw [hesp, hs'.place, above_next]
    congr 1
    simp only [List.length_append, List.length_cons, List.length_nil]
    omega
  refine ⟨heip.trans hbefore.1.symm, hup, hebx, hebp, hesi, hedi, ?_, ?_, fun k hk => ?_⟩
  · rw [hseg, hker.1, hs.1]
  · rw [hseg, hker.2, hs.2]
  · have hget := stacked_iff.mp hafter (k + 2) (Nat.succ_lt_succ (Nat.succ_lt_succ hk))
    have hget' := stacked_iff.mp hbefore (k + 3)
      (Nat.succ_lt_succ (Nat.succ_lt_succ (Nat.succ_lt_succ hk)))
    rw [hup, above_succ] at hget
    rw [Nat.add_comm (2 + 1) k]
    exact hget.trans hget'.symm

/-- The thread that is switched to is resumed. -/
theorem Inv.resumes (h : st.Inv kernelThread intrExitAddr)
    (hcall : Calls st.cpu st.running next ret rest) (hker : InKernel st.cpu)
    (ho : st.give rest next = some o) :
    o.Resumes kernelThread intrExitAddr (st.cpu.run switchTo) := by
  obtain ⟨hpage, ws, hp, hl⟩ := h.give hcall hker next o ho
  cases o with
  | called s rest' =>
    obtain ⟨hs, next', ret', hs', rfl⟩ := hl
    exact returns_called hs hs' hcall hker hp
  | created func funcArg =>
    obtain ⟨unused, tail, htail, rfl⟩ := hl
    exact ⟨(hcall.run hp).1, unused, (stacked_append.mp (hcall.stack hp)).1⟩
  | forked u =>
    obtain ⟨huser, v, e, d, rfl⟩ := hl
    obtain ⟨heip, hseg, -⟩ := hcall.run hp
    have hout : rpl selectorKernelCode < rpl (u.seg .cs) := by
      rw [rpl_kernelCode, huser]
      decide
    exact ⟨heip, intrExit_restores (hseg ▸ hker.1) (fun hno => absurd hout hno) (hcall.stack hp)⟩

/-- A thread that begins has the place that `thread_create` has given it: `self_kstack` is where it has
been put, and what the thread pushes goes below the three words that it begins with. -/
theorem Inv.begins_place (h : st.Inv kernelThread intrExitAddr)
    (hcall : Calls st.cpu st.running next ret rest) (hker : InKernel st.cpu)
    (ho : st.give rest next = some (.created func funcArg)) :
    next.toNat % 4096 = 0 ∧ (st.cpu.run switchTo).mem next = above next 916 ∧
      (st.cpu.run switchTo).reg .esp = above next 921 := by
  obtain ⟨hpage, ws, hp, unused, tail, htail, rfl⟩ := h.give hcall hker next _ ho
  have hkstack := hp.kstack
  have hesp := (hcall.run hp).2.2.1
  simp only [List.length_append, List.length_cons, List.length_nil, htail] at hkstack hesp
  refine ⟨hpage, ?_, hesp⟩
  rw [(hcall.exec rfl).2.1]
  exact hkstack

/-- The invariant is preserved by a step. -/
theorem Inv.step (h : st.Inv kernelThread intrExitAddr) (hstep : Step kernelThread intrExitAddr st st') :
    st'.Inv kernelThread intrExitAddr := by
  cases hstep with
  | work s hleaves => exact ⟨h.page, h.running, h.waits.congr hleaves⟩
  | switch next ret rest hcall hker hnext =>
    have hgive := h.give hcall hker
    obtain ⟨o, ho⟩ := Option.ne_none_iff_exists'.mp hnext
    refine ⟨(hgive next o ho).1, Function.update_self .., ?_⟩
    rw [← (hcall.exec rfl).2.1] at hgive
    exact hgive.remove next
  | start t func funcArg ht =>
    obtain ⟨hpage, hrun, -⟩ := ht
    obtain ⟨unused, tail, htail, hp⟩ := threadCreate_parked st.cpu.mem kernelThread t func funcArg
    exact ⟨h.page, (Function.update_of_ne (Ne.symm hrun) ..).trans h.running, h.waits.insert hpage
      (fun _ hw => threadCreate_outside _ _ _ _ _ hw) hp ⟨unused, tail, htail, rfl⟩⟩
  | fork t u ht huser hframe =>
    obtain ⟨hpage, hrun, -⟩ := ht
    obtain ⟨v, e, d, hframe⟩ := hframe
    exact ⟨h.page, (Function.update_of_ne (Ne.symm hrun) ..).trans h.running, h.waits.insert hpage
      (fun _ hw => buildChildStack_outside _ _ _ _ hw) (buildChildStack_parked huser hframe)
      ⟨huser, v, e, d, rfl⟩⟩
  | reap t =>
    refine ⟨h.page, ?_, h.waits.remove t⟩
    by_cases ht : st.running = t
    · rw [ht]
      exact Function.update_self ..
    · exact (Function.update_of_ne ht ..).trans h.running

theorem Alone.inv (h : st.Alone) : st.Inv kernelThread intrExitAddr :=
  ⟨h.1, h.2 _, fun t _ ho => by rw [h.2 t] at ho; cases ho⟩

/-- The invariant holds in every run. -/
theorem Reaches.inv (h : Reaches kernelThread intrExitAddr st0 st) (h0 : st0.Alone) :
    st.Inv kernelThread intrExitAddr := by
  induction h with
  | refl => exact h0.inv
  | step _ hstep ih => exact ih.step hstep

/-- A thread that waits goes on waiting as it is, or it is resumed or freed. -/
theorem Inv.waiting_step (h : st.Inv kernelThread intrExitAddr)
    (hstep : Step kernelThread intrExitAddr st st') (ho : st.waiting t = some o)
    (hstill : st'.waiting t ≠ none) : st'.waiting t = some o := by
  have hrun : t ≠ st.running := by
    rintro rfl
    rw [h.running] at ho
    cases ho
  cases hstep with
  | work s hleaves => exact ho
  | switch next ret rest hcall hker hnext =>
    have ht : t ≠ next := fun he => hstill (by rw [he]; exact Function.update_self ..)
    have hgive : st.give rest t = some o := (Function.update_of_ne hrun ..).trans ho
    exact (Function.update_of_ne ht ..).trans hgive
  | start t' func funcArg ht' =>
    have ht : t ≠ t' := by
      rintro rfl
      rw [ht'.2.2] at ho
      cases ho
    exact (Function.update_of_ne ht ..).trans ho
  | fork t' u ht' huser hframe =>
    have ht : t ≠ t' := by
      rintro rfl
      rw [ht'.2.2] at ho
      cases ho
    exact (Function.update_of_ne ht ..).trans ho
  | reap t' =>
    have ht : t ≠ t' := fun he => hstill (by rw [he]; exact Function.update_self ..)
    exact (Function.update_of_ne ht ..).trans ho

theorem Away.stays (h : Away kernelThread intrExitAddr t st st') (hinv : st.Inv kernelThread intrExitAddr)
    (ho : st.waiting t = some o) : st'.Inv kernelThread intrExitAddr ∧ st'.waiting t = some o := by
  induction h with
  | refl => exact ⟨hinv, ho⟩
  | step _ hstep hstill ih => exact ⟨ih.1.step hstep, ih.1.waiting_step hstep ih.2 hstill⟩

/-- It is still among the threads that wait when the stack is changed. -/
theorem Away.give (h : Away kernelThread intrExitAddr t st st') (hinv : st.Inv kernelThread intrExitAddr)
    (ho : st.waiting t = some o) (rest : List Word) : st'.give rest t = some o := by
  obtain ⟨hinv', ho'⟩ := h.stays hinv ho
  refine (Function.update_of_ne ?_ ..).trans ho'
  rintro rfl
  rw [hinv'.running] at ho'
  cases ho'

/-- A thread that waits is resumed as it has come to wait, whatever has run in the meantime. -/
theorem Away.resumes (h : Away kernelThread intrExitAddr t st st') (hinv : st.Inv kernelThread intrExitAddr)
    (ho : st.waiting t = some o) (hcall : Calls st'.cpu st'.running t ret rest) (hker : InKernel st'.cpu) :
    o.Resumes kernelThread intrExitAddr (st'.cpu.run switchTo) :=
  (h.stays hinv ho).1.resumes hcall hker (h.give hinv ho rest)

end Runs

end Coroutines

section Threads

open Coroutines

variable {kernelThread intrExitAddr next ret ret' t func funcArg : Word} {st0 st st' st1 : Coroutines}
  {rest rest' : List Word} {u : Cpu}

/-- **`switch_to` returns** in the thread that has called it, when another thread switches back: for
the caller it is a function like any other, however many threads have run in the meantime. -/
theorem switchTo_returns (h0 : st0.Alone) (hst : Reaches kernelThread intrExitAddr st0 st)
    (hcall : Calls st.cpu st.running next ret rest) (hker : InKernel st.cpu) (hne : next ≠ st.running)
    (hnext : st.waiting next ≠ none)
    (haway : Away kernelThread intrExitAddr st.running (st.switch next rest) st')
    (hcall' : Calls st'.cpu st'.running st.running ret' rest') (hker' : InKernel st'.cpu) :
    Cdecl st.cpu (st'.cpu.run switchTo) 2 rest.length := by
  have hgive : st.give rest next ≠ none := by
    rw [give, Function.update_of_ne hne]
    exact hnext
  have hinv := (hst.inv h0).step (.switch next ret rest hcall hker hgive)
  refine haway.resumes hinv (o := .called st.cpu rest) ?_ hcall' hker'
  exact (Function.update_of_ne (Ne.symm hne) ..).trans (Function.update_self ..)

/-- The main thread alone, in a call of `switch_to` with the words above its stack pointer. -/
def mainThread (a : Word) (ws : List Word) : Coroutines where
  cpu :=
    { reg := fun r => if r = .esp then a else 0
      seg := fun g => if g = .cs then selectorKernelCode else selectorKernelStack
      eip := 0
      eflags := 0x2
      mem := fun w => ws.getD ((w - a).toNat / 4) 0
      esp0 := 0
      ss0 := selectorKernelStack
      outs := [] }
  running := 0xc009e000
  waiting _ := none

/-- It has made another thread, at whose beginning the stack is that of a call as well. -/
def twoThreads : Coroutines :=
  (mainThread 0xc009eff4 [0xc0001600, 0xc009e000, 0xc0120000]).start 0xc0001700 0xc0120000 0xc0120000
    0xc009e000

theorem twoThreads_reached : Reaches 0xc0001700 0xc0001540
    (mainThread 0xc009eff4 [0xc0001600, 0xc009e000, 0xc0120000]) twoThreads :=
  .step .refl (.start 0xc0120000 0xc0120000 0xc009e000 ⟨by decide, by decide, rfl⟩)

theorem twoThreads_calls : Calls twoThreads.cpu twoThreads.running 0xc0120000 0xc0001600 [] :=
  ⟨by decide, by decide, by decide, by decide⟩

theorem switchTo_returns_main :
    Cdecl twoThreads.cpu ((twoThreads.switch 0xc0120000 []).cpu.run switchTo) 2 0 := by
  have hesp : (twoThreads.switch 0xc0120000 []).cpu.reg .esp = above 0xc0120000 921 := by decide
  have hback : Calls (twoThreads.switch 0xc0120000 []).cpu 0xc0120000 twoThreads.running 0
      ((List.range 100).map fun k =>
        (twoThreads.switch 0xc0120000 []).cpu.mem (above (above 0xc0120000 924) k)) := by
    constructor
    · rw [hesp]
      exact .cons (by decide) (.cons (by decide) (.cons (by decide) (stacked_range _ _ 100)))
    · rw [hesp, List.length_map, List.length_range]
    · rw [List.length_map, List.length_range]
      decide
    · decide
  exact switchTo_returns ⟨by decide, fun _ => rfl⟩ twoThreads_reached twoThreads_calls ⟨rfl, rfl⟩ (by decide)
    (by decide) .refl hback ⟨rfl, rfl⟩

/-- **A thread begins** in `kernel_thread`, which finds the function and the argument that
`thread_create` has been called with. -/
theorem thread_begins (h0 : st0.Alone) (hst : Reaches kernelThread intrExitAddr st0 st) (ht : st.Free t)
    (haway : Away kernelThread intrExitAddr t (st.start kernelThread t func funcArg) st')
    (hcall : Calls st'.cpu st'.running t ret rest) (hker : InKernel st'.cpu) :
    (st'.cpu.run switchTo).eip = kernelThread ∧
      ∃ unused, Stacked (st'.cpu.run switchTo).mem ((st'.cpu.run switchTo).reg .esp)
        [unused, func, funcArg] :=
  haway.resumes ((hst.inv h0).step (.start t func funcArg ht)) (o := .created func funcArg)
    (Function.update_self ..) hcall hker

theorem thread_begins_second : (twoThreads.cpu.run switchTo).eip = 0xc0001700 := by
  have hfree : Free (mainThread 0xc009eff4 [0xc0001600, 0xc009e000, 0xc0120000]) 0xc0120000 :=
    ⟨by decide, by decide, rfl⟩
  have hst : Reaches 0xc0001700 0xc0001540 (mainThread 0xc009eff4 [0xc0001600, 0xc009e000, 0xc0120000])
      (mainThread 0xc009eff4 [0xc0001600, 0xc009e000, 0xc0120000]) := .refl
  exact (thread_begins ⟨by decide, fun _ => rfl⟩ hst hfree .refl twoThreads_calls ⟨rfl, rfl⟩).1

/-- The frame of a system call lies at the end of the page of the process, which `update_tss_esp` has
set the stack of ring 0 to. -/
theorem syscall_userFrame {s : Cpu} {entry table : Word} {attr : BitVec 8} (huser : rpl (u.seg .cs) = 3)
    (hesp0 : u.esp0 = above t 1024)
    (hs : s = ((makeIdtDesc entry attr).raise u none).run (syscallHandler table ret)) :
    UserFrame s.mem t u ∧ s.reg .esp = above t 1001 := by
  have hout : rpl selectorKernelCode < rpl (u.seg .cs) := by
    rw [rpl_kernelCode, huser]
    decide
  rw [makeIdtDesc_raise] at hs
  obtain ⟨d, hent⟩ := syscallHandler_enters (u.interrupt selectorKernelCode entry none) table ret
  rw [← hs] at hent
  have hstack := hent.stacked (e := 0) rfl (Nat.le_refl 4) 0x80
  have hbase := hent.base
  have htop := interrupt_esp0 u selectorKernelCode entry none hout
  have hesp : s.reg .esp = above t 1001 := by
    refine above_cancel (k := 23) ?_
    rw [← hbase, above_add, hesp0] at htop
    rw [above_add]
    exact htop
  refine ⟨⟨0x80, 0, d, ?_⟩, hesp⟩
  have hframe := hstack.drop 4
  rw [hesp, above_add] at hframe
  exact hframe

/-- **`fork` returns 0 in the child**: the program goes on where its parent has called it. -/
theorem fork_returns {s : Cpu} {entry table : Word} {attr : BitVec 8}
    (h0 : st0.Alone) (hst : Reaches kernelThread intrExitAddr st0 st) (ht : st.Free t)
    (huser : rpl (u.seg .cs) = 3) (hesp0 : u.esp0 = above st.running 1024)
    (hs : s = ((makeIdtDesc entry attr).raise u none).run (syscallHandler table ret'))
    (hkept : ∀ k < 19, st.cpu.mem (above st.running (1005 + k)) = s.mem (above st.running (1005 + k)))
    (haway : Away kernelThread intrExitAddr t (st.fork intrExitAddr t u) st')
    (hcall : Calls st'.cpu st'.running t ret rest) (hker : InKernel st'.cpu) :
    (st'.cpu.run switchTo).eip = intrExitAddr ∧
      SameContext (u.setReg .eax 0) ((st'.cpu.run switchTo).run intrExit) := by
  have hframe : UserFrame st.cpu.mem st.running u := by
    obtain ⟨⟨v, e, d, hframe⟩, -⟩ := syscall_userFrame huser hesp0 hs
    have hout := outerWords_length u selectorKernelCode
    refine ⟨v, e, d, hframe.congr fun k hk => ?_⟩
    rw [above_add]
    refine hkept k ?_
    simp only [IntrStack.words, List.length_append, List.length_cons, List.length_nil] at hk
    omega
  exact haway.resumes ((hst.inv h0).step (.fork t u ht huser hframe)) (o := .forked u)
    (Function.update_self ..) hcall hker

/-- A process in a system call. -/
def inSyscall : Cpu :=
  ((makeIdtDesc 0xc0001500 0xee).raise userAtRest none).run (syscallHandler 0xc0002000 0xc0001600)

/-- It gives the processor to its child. -/
def forking : Coroutines where
  cpu := inSyscall.pushAll [0xc0120000, 0xc0100000, 0xc0001620]
  running := 0xc0100000
  waiting _ := none

theorem fork_returns_user : SameContext (userAtRest.setReg .eax 0)
    (((forking.fork 0xc0001540 0xc0120000 userAtRest).cpu.run switchTo).run intrExit) := by
  have hkept : ∀ k < 19, forking.cpu.mem (above forking.running (1005 + k)) =
      inSyscall.mem (above forking.running (1005 + k)) := by decide
  have hcall : Calls (forking.fork 0xc0001540 0xc0120000 userAtRest).cpu forking.running 0xc0120000
      0xc0001620 ((List.range 23).map fun k => inSyscall.mem (above 0xc0100000 (1001 + k))) :=
    ⟨by decide, by decide, by decide, by decide⟩
  have hst : Reaches 0xc0001700 0xc0001540 forking forking := .refl
  have hfree : forking.Free 0xc0120000 := ⟨by decide, by decide, rfl⟩
  exact (fork_returns ⟨by decide, fun _ => rfl⟩ hst hfree (by decide) (by decide) rfl hkept .refl hcall
    ⟨rfl, rfl⟩).2

end Threads

end GwOS
