import GwOS.Thread.Coroutines

/-!
# The way to user mode (`userprog/process.c`, `userprog/exec.c`)

A program is entered by a return from an interrupt that has never happened: `start_process` makes up the
frame, and `sys_execv` changes the one of the system call that it serves. Both then jump to `intr_exit`.

`start_process` finds the place of its frame from `self_kstack`, which the next `switch_to` overwrites. The
frame is where `thread_create` has left room for it, above the stack that `start_process` itself runs on,
as long as the thread has not given the processor away before; otherwise it may lie over that stack.

- `startProcess_enters`: a process begins in ring 3, with the interrupts enabled.
- `execReturn_enters`: the caller of `execv` goes on as the new program.
-/

namespace GwOS

open Ia32

/-- `SELECTOR_USER_CODE` -/
def selectorUserCode : BitVec 16 := (5 <<< 3) + (0 <<< 2) + 3

/-- `SELECTOR_USER_DATA` -/
def selectorUserData : BitVec 16 := (6 <<< 3) + (0 <<< 2) + 3

/-- `EFLAGS_IOPL_0 | EFLAGS_MBS | EFLAGS_IF_1` -/
def userEflags : Word := (0 <<< 12) ||| (1 <<< 1) ||| (1 <<< 9)

/-- `movl procStack, %esp` -/
def atFrame (s : Cpu) (m : Word → Word) (procStack : Word) : Cpu :=
  { s with mem := m }.setReg .esp procStack

/-- `movl procStack, %esp; jmp intr_exit` -/
def leaveBy (s : Cpu) (m : Word → Word) (procStack : Word) : Cpu := (atFrame s m procStack).run intrExit

/-- The fields of `struct intr_stack` that `start_process` assigns, by their numbers. -/
def startFields (function stackPage : Word) : List (Nat × Word) :=
  [(4, 0), (3, 0), (2, 0), (1, 0), (8, 0), (7, 0), (6, 0), (5, 0), (9, 0), (10, ofSeg selectorUserData),
    (11, ofSeg selectorUserData), (12, ofSeg selectorUserData), (14, function),
    (15, ofSeg selectorUserCode), (16, userEflags), (17, stackPage + 4096), (18, ofSeg selectorUserData)]

/-- `start_process`, where `get_one_page` has returned `stackPage`. `self_kstack` is a pointer to words, so
that it moves by four bytes for each byte of the structure. -/
def startProcess (s : Cpu) (now function stackPage : Word) : Cpu :=
  let mem := Function.update s.mem now (s.mem now + 4 * threadStackSize)
  let procStack := mem now
  leaveBy s (writes mem procStack (startFields function stackPage)) procStack

/-- The fields that `sys_execv` assigns; `argc` is 0. -/
def execFields (argv entryPoint : Word) : List (Nat × Word) :=
  [(5, argv), (7, 0), (14, entryPoint), (17, 0xc0000000)]

/-- `sys_execv` after the program has been loaded. -/
def execReturn (s : Cpu) (cur argv entryPoint : Word) : Cpu :=
  let intr0Stack := cur + 4096 - intrStackSize
  leaveBy s (writes s.mem intr0Stack (execFields argv entryPoint)) intr0Stack

section UserMode

variable {s u : Cpu} {now cur function stackPage argv entryPoint t : Word} {m : Word → Word}

theorem atFrame_kernel (hker : InKernel s) : (atFrame s m t).seg .cs = selectorKernelCode ∧
    (atFrame s m t).mem = m ∧ (atFrame s m t).reg .esp = t := by
  refine ⟨hker.1, rfl, ?_⟩
  simp only [atFrame, Cpu.setReg, Function.update_self]

/-- `intr_exit` with a frame that leads out of the kernel. -/
theorem leaveBy_run (hker : InKernel s) (f : IntrStack) (esp : Word) (ss : BitVec 16)
    (hf : rpl (f.cs.truncate 16) = 3) (h : Stacked m t (f.words ++ [esp, ofSeg ss])) :
    (leaveBy s m t).reg = f.regs esp ∧ (leaveBy s m t).seg = f.segs ss ∧
      (leaveBy s m t).eip = f.eip ∧ (leaveBy s m t).eflags = f.eflags ∧ (leaveBy s m t).mem = m := by
  obtain ⟨hcs, hmem, hesp⟩ := atFrame_kernel (m := m) (t := t) hker
  obtain ⟨h17, h18, -⟩ := (stacked_append.mp h).2
  have h17' : m (above t 17) = esp := h17
  have h18' : m (above t 18) = ofSeg ss := by
    rw [← above_next]
    exact h18
  unfold leaveBy
  rw [intrExit_run f (by rw [hmem, hesp]; exact h), hesp, hcs, hmem, hf, rpl_kernelCode, if_pos (by decide),
    if_pos (by decide), h17', h18', ofSeg_truncate]
  exact ⟨rfl, rfl, rfl, rfl, rfl⟩

/-- The words of a frame that has been written. -/
theorem writes_words (l : List (Nat × Word)) (hl : (l.map Prod.fst).all (· < 1024) = true) {ws : List Word}
    (hlen : ws.length ≤ 1024)
    (h : ∀ k (hk : k < ws.length), (l.reverse.lookup k).getD (m (above t k)) = ws.get ⟨k, hk⟩) :
    Stacked (writes m t l) t ws := by
  refine stacked_iff.mpr fun k hk => ?_
  rw [(writes_page l hl).1 k (by omega)]
  exact h k hk

/-- The frame that `start_process` makes up. -/
def startFrame (vectorId errCode function : Word) : IntrStack where
  vectorId := vectorId
  edi := 0
  esi := 0
  ebp := 0
  espDummy := 0
  ebx := 0
  edx := 0
  ecx := 0
  eax := 0
  gs := 0
  fs := ofSeg selectorUserData
  es := ofSeg selectorUserData
  ds := ofSeg selectorUserData
  errCode := errCode
  eip := function
  cs := ofSeg selectorUserCode
  eflags := userEflags

theorem startFrame_stacked (m : Word → Word) (t function stackPage : Word) :
    Stacked (writes m t (startFields function stackPage)) t
      ((startFrame (m (above t 0)) (m (above t 13)) function).words ++
        [stackPage + 4096, ofSeg selectorUserData]) := by
  refine writes_words _ rfl (by simp [IntrStack.words]) fun k hk => ?_
  simp only [IntrStack.words, List.length_append, List.length_cons, List.length_nil] at hk
  interval_cases k <;> rfl

/-- The frame lies 948 words above the beginning of the page. -/
theorem startProcess_frame (hkstack : s.mem t = above t 916) :
    startProcess s t function stackPage =
      leaveBy s (writes (Function.update s.mem t (above t 948)) (above t 948)
        (startFields function stackPage)) (above t 948) := by
  have hmove : s.mem t + 4 * threadStackSize = above t 948 := by
    rw [hkstack, threadStackSize, above, above]
    bv_omega
  simp only [startProcess, hmove, Function.update_self]

/-- What is written: `self_kstack` and the frame. -/
theorem startFields_below (hpage : t.toNat % 4096 = 0) {k : Nat} (hk : 0 < k) (hk' : k < 948) :
    writes (Function.update m t (above t 948)) (above t 948) (startFields function stackPage) (above t k) =
      m (above t k) := by
  have hsmall : ∀ p ∈ startFields function stackPage, p.1 < 19 := by
    have hall : (startFields function stackPage).all (fun p => decide (p.1 < 19)) = true := rfl
    exact fun p hp => of_decide_eq_true (List.all_eq_true.mp hall p hp)
  rw [writes_outside, Function.update_of_ne]
  · exact above_page_ne_self hpage hpage hk (by omega)
  · intro p hp he
    have hlt := hsmall p hp
    rw [above_add] at he
    have := above_inj (by omega) (by omega) he
    omega

variable {kernelThread intrExitAddr func ret : Word} {st0 st st' : Coroutines} {rest : List Word}

/-- **A process begins** in ring 3, if it has not given the processor away between its first switch and
the statement in which `start_process` moves `self_kstack`: at its first instruction the registers are 0,
the stack is empty, the interrupts are enabled, and the ports are out of reach. The frame is written above
the words that the thread has begun with, and so over nothing that its functions use. -/
theorem startProcess_enters (h0 : st0.Alone) (hst : Coroutines.Reaches kernelThread intrExitAddr st0 st)
    (ht : st.Free t)
    (haway : Coroutines.Away kernelThread intrExitAddr t (st.start kernelThread t func function) st')
    (hcall : Calls st'.cpu st'.running t ret rest) (hker : InKernel st'.cpu) (hker' : InKernel s)
    (hkstack : s.mem t = (st'.cpu.run switchTo).mem t) :
    (startProcess s t function stackPage).reg = Function.update (fun _ => 0) .esp (stackPage + 4096) ∧
      (startProcess s t function stackPage).seg =
        Function.update (Function.update (fun _ => selectorUserData) .cs selectorUserCode) .gs 0 ∧
      (startProcess s t function stackPage).eip = function ∧
      (startProcess s t function stackPage).eflags = 0x202 ∧
      (st'.cpu.run switchTo).reg .esp = above t 921 ∧
      ∀ k, 0 < k → k < 948 → (startProcess s t function stackPage).mem (above t k) = s.mem (above t k) := by
  have hinv := (hst.inv h0).step (.start t func function ht)
  have ho : (st.start kernelThread t func function).waiting t = some (.created func function) :=
    Function.update_self ..
  obtain ⟨hpage, hplace, hesp⟩ := (haway.stays hinv ho).1.begins_place hcall hker (haway.give hinv ho rest)
  rw [startProcess_frame (hkstack.trans hplace)]
  generalize hm : writes (Function.update s.mem t (above t 948)) (above t 948)
    (startFields function stackPage) = m
  have hframe : Stacked m (above t 948) ((startFrame _ _ function).words ++
      [stackPage + 4096, ofSeg selectorUserData]) := hm ▸ startFrame_stacked _ _ function stackPage
  obtain ⟨hreg, hseg, heip, heflags, hmem⟩ := leaveBy_run hker' _ (stackPage + 4096) selectorUserData
    (by rw [startFrame, ofSeg_truncate]; rfl) hframe
  refine ⟨hreg.trans ?_, hseg.trans ?_, heip, heflags.trans rfl, hesp, fun k hk hk' => ?_⟩
  · funext r
    cases r <;> rfl
  · funext g
    cases g <;> rfl
  · rw [hmem, ← hm]
    exact startFields_below hpage hk hk'

/-- The first switch to a thread that has been made for `start_process`, which has been called. -/
theorem startProcess_enters_second : ∃ s,
    s = startProcess ((twoThreads.cpu.run switchTo).pushAll [0xc0120000, 0xc0001720]) 0xc0120000
      0xc009e000 0xbffff000 ∧
      s.eip = 0xc009e000 ∧ s.eflags = 0x202 ∧ s.reg .esp = 0xc0000000 ∧ s.reg .edi = 0 := by
  have hfree : (mainThread 0xc009eff4 [0xc0001600, 0xc009e000, 0xc0120000]).Free 0xc0120000 :=
    ⟨by decide, by decide, rfl⟩
  have hst : Coroutines.Reaches 0xc0001700 0xc0001540
      (mainThread 0xc009eff4 [0xc0001600, 0xc009e000, 0xc0120000])
      (mainThread 0xc009eff4 [0xc0001600, 0xc009e000, 0xc0120000]) := .refl
  have hkstack : ((twoThreads.cpu.run switchTo).pushAll [0xc0120000, 0xc0001720]).mem 0xc0120000 =
      (twoThreads.cpu.run switchTo).mem 0xc0120000 := by
    decide
  obtain ⟨hreg, -, heip, heflags, -⟩ := startProcess_enters ⟨by decide, fun _ => rfl⟩ hst hfree .refl
    twoThreads_calls ⟨rfl, rfl⟩ ⟨rfl, rfl⟩ hkstack
  exact ⟨_, rfl, heip, heflags, congrFun hreg .esp, congrFun hreg .edi⟩

/-- **`execv`**: the program that has called it goes on as the new one. -/
theorem execReturn_enters (hker : InKernel s) (huser : rpl (u.seg .cs) = 3) (h : UserFrame s.mem cur u) :
    SameContext
      { ((u.setReg .ebx argv).setReg .ecx 0).setReg .esp 0xc0000000 with eip := entryPoint }
      (execReturn s cur argv entryPoint) := by
  have hbase : cur + 4096 - intrStackSize = above cur 1005 := by
    rw [intrStackSize, above]
    bv_omega
  obtain ⟨v, e, d, hframe⟩ := h
  unfold execReturn leaveBy
  rw [hbase]
  have huser' : rpl selectorKernelCode < rpl (u.seg .cs) := by
    rw [rpl_kernelCode, huser]
    decide
  have hout : outerWords u selectorKernelCode = [u.reg .esp, ofSeg (u.seg .ss)] := by
    rw [outerWords, if_pos huser']
  rw [hout] at hframe
  generalize hu' : ({ ((u.setReg .ebx argv).setReg .ecx 0).setReg .esp 0xc0000000 with
    eip := entryPoint } : Cpu) = u'
  have hseg : u'.seg = u.seg := by rw [← hu']; rfl
  have hout' : outerWords u' selectorKernelCode = [u'.reg .esp, ofSeg (u'.seg .ss)] := by
    rw [outerWords, hseg, if_pos huser']
  have hnew : Stacked (writes s.mem (above cur 1005) (execFields argv entryPoint)) (above cur 1005)
      ((IntrStack.of u' v e d).words ++ [u'.reg .esp, ofSeg (u'.seg .ss)]) := by
    refine writes_words _ rfl (by simp [IntrStack.words]) fun k hk => ?_
    have hold := stacked_iff.mp hframe k hk
    subst hu'
    simp only [IntrStack.words, List.length_append, List.length_cons, List.length_nil] at hk
    interval_cases k <;> first | exact hold | rfl
  obtain ⟨hcs, hmem, hesp⟩ := atFrame_kernel (t := above cur 1005)
    (m := writes s.mem (above cur 1005) (execFields argv entryPoint)) hker
  have hall : Stacked (atFrame s (writes s.mem (above cur 1005) (execFields argv entryPoint))
      (above cur 1005)).mem ((atFrame s (writes s.mem (above cur 1005) (execFields argv entryPoint))
      (above cur 1005)).reg .esp) ((IntrStack.of u' v e d).words ++ outerWords u' selectorKernelCode) := by
    rw [hout', hmem, hesp]
    exact hnew
  exact intrExit_restores hcs (fun hno => absurd (hseg ▸ huser') hno) hall

theorem execReturn_enters_user :
    SameContext
      { ((userAtRest.setReg .ebx 8).setReg .ecx 0).setReg .esp 0xc0000000 with eip := 0x8048000 }
      (execReturn inSyscall 0xc0100000 8 0x8048000) :=
  execReturn_enters ⟨rfl, rfl⟩ (by decide) ⟨0x80, 0, 0xc0100fd8, by decide⟩

end UserMode

end GwOS
