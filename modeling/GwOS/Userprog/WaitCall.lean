import GwOS.Userprog.Pids

/-!
# The calls of `wait` from a user program (`lib/user/syscall.c`, `userprog/syscall-init.c`)

A user program puts the number of a call and its arguments into registers, and the handler of
`int 0x80` passes `ebx`, `ecx` and `edx` to the entry of `syscall_table`, however many of them the
call has set. `wait` has the arguments of `sys_wait`. `wait_without_pid` has one argument, but the
number of `sys_wait` as well: the kernel takes the address for a pid, and what is left in `ecx`
for the address.

- `sysWait_noThread`: no thread has an address for a pid, and the call answers `-1` at once.
- `sysWaitWithoutPid_reaps`: the routine of the kernel that the wrapper does not reach does what
  the wrapper is for.
-/

namespace GwOS

namespace Threads

variable {T S W : Type} [DecidableEq T]

/-! ## The call -/

/-- The numbers of `enum SYSCALL_FUNC` for waiting. -/
inductive WaitFunc where
  | sysWait
  | sysWaitWithoutPid
  deriving DecidableEq, Repr

/-- The registers that `int 0x80` passes on, `eax` as the number that it holds. -/
structure CallRegs where
  eax : WaitFunc
  ebx : UInt32
  ecx : UInt32
  edx : UInt32
  deriving DecidableEq, Repr

namespace CallRegs

/-- `_syscall1`, from the registers as they are left. -/
def syscall1 (regs : CallRegs) (number : WaitFunc) (arg1 : UInt32) : CallRegs :=
  { regs with eax := number, ebx := arg1 }

/-- `_syscall2`. -/
def syscall2 (regs : CallRegs) (number : WaitFunc) (arg1 arg2 : UInt32) : CallRegs :=
  { regs with eax := number, ebx := arg1, ecx := arg2 }

end CallRegs

/-- The `int32_t` objects of the program, by address; `none` where nothing is mapped. -/
abbrev Cells := UInt32 → Option Int

/-- `*child_exit_status = child->exit_status`, when a child is reaped. -/
def storeStatus (cells : Cells) (childExitStatus : UInt32)
    (x : Except SchedFault (Threads T S W × WaitResult)) :
    Except SchedFault (Threads T S W × Cells × WaitResult) := do
  let (s, r) ← x
  match r with
  | .reaped _ exitStatus =>
    match cells childExitStatus with
    | none => .error (.other .pageFault)
    | some _ =>
      .ok (s, Function.update cells childExitStatus (some exitStatus.toInt), r)
  | _ => .ok (s, cells, r)

/-- `syscall_handler`: the entry of `syscall_table` gets the registers for its arguments. -/
def syscallHandler (s : Threads T S W) (cells : Cells) (regs : CallRegs) :
    Except SchedFault (Threads T S W × Cells × WaitResult) :=
  match regs.eax with
  | .sysWait => storeStatus cells regs.ecx (s.sysWait regs.ebx.toInt32.toInt)
  | .sysWaitWithoutPid => storeStatus cells regs.ebx s.sysWaitWithoutPid

/-- `wait`. -/
def wait (s : Threads T S W) (cells : Cells) (regs : CallRegs) (pid childExitStatus : UInt32) :
    Except SchedFault (Threads T S W × Cells × WaitResult) :=
  s.syscallHandler cells (regs.syscall2 .sysWait pid childExitStatus)

/-- `wait_without_pid`. -/
def waitWithoutPid (s : Threads T S W) (cells : Cells) (regs : CallRegs)
    (childExitStatus : UInt32) : Except SchedFault (Threads T S W × Cells × WaitResult) :=
  s.syscallHandler cells (regs.syscall1 .sysWait childExitStatus)

/-! ## What it is for -/

/-- `t` is in the list of all threads as a child of the caller. -/
def IsChild (s : Threads T S W) (t : T) (p : Pcb) : Prop :=
  t ∈ s.allList ∧ s.pcb t = some p ∧ ∃ parent, s.pcb s.running = some parent ∧
    p.parentPid = parent.pid

/-- A call that waits for any child: if one hangs, such a child is reaped, its status stored and
its pid returned; and `-1` is returned only if there is no child. -/
structure Reaps (s : Threads T S W) (status : UInt32)
    (result : Except SchedFault (Threads T S W × Cells × WaitResult)) : Prop where
  hanging : (∃ t p, s.IsChild t p ∧ p.status = .hanging) →
    ∃ t p s' cells', s.IsChild t p ∧ p.status = .hanging ∧
      result = .ok (s', cells', .reaped p.pid p.exitStatus) ∧
      cells' status = some p.exitStatus.toInt ∧ t ∉ s'.allList
  noChild : ∀ s' cells', result = .ok (s', cells', .noChild) → ∀ t p, ¬ s.IsChild t p

variable {s : Threads T S W} {cells : Cells}

/-! ## The routine of the kernel -/

omit [DecidableEq T] in
theorem findThread_none {mine : Pcb → Bool} (h : s.findThread mine = none) {t : T} {p : Pcb}
    (ht : t ∈ s.allList) (hp : s.pcb t = some p) : mine p = false := by
  have hany := List.find?_eq_none.mp h t ht
  simpa [hp] using hany

theorem threadExit_reaps {t : T} {p : Pcb} (hp : s.pcb t = some p) (hlen : s.pidBitmap.len = 128)
    (hpid : ∃ i : Nat, i < 127 ∧ p.pid = i + 1) (hnodup : s.allList.Nodup) :
    ∃ s', s.threadExit t false = .ok s' ∧ t ∉ s'.allList := by
  obtain ⟨i, hi, hpid⟩ := hpid
  obtain ⟨mp, hrel⟩ := releasePid_ok hi hlen
  rw [← hpid] at hrel
  have hgone : t ∉ s.allList.erase t := fun h => (hnodup.mem_erase_iff.mp h).1 rfl
  by_cases hmain : t ≠ s.mainThread
  · refine ⟨{ (s.intrSetStatus .off).setStatus t .died with
      readyList := s.readyList.erase t, allList := s.allList.erase t
      pcb := Function.update ((s.intrSetStatus .off).setStatus t .died).pcb t none
      pidBitmap := mp }, ?_, hgone⟩
    simp only [threadExit, hp, intrSetStatus, setStatus, modifyPcb]
    rw [if_pos hmain, hrel]
    rfl
  · refine ⟨{ (s.intrSetStatus .off).setStatus t .died with
      readyList := s.readyList.erase t, allList := s.allList.erase t, pidBitmap := mp }, ?_, hgone⟩
    simp only [threadExit, hp, intrSetStatus, setStatus, modifyPcb]
    rw [if_neg hmain, hrel]
    rfl

/-- `sys_wait_without_pid`, called by its own number, does what it is for. -/
theorem sysWaitWithoutPid_reaps (hnodup : s.allList.Nodup) (hlen : s.pidBitmap.len = 128)
    (hpid : ∀ t p, s.pcb t = some p → ∃ i : Nat, i < 127 ∧ p.pid = i + 1) (regs : CallRegs)
    {status : UInt32} (hstatus : cells status ≠ none) :
    s.Reaps status (s.syscallHandler cells (regs.syscall1 .sysWaitWithoutPid status)) := by
  show s.Reaps status (storeStatus cells status s.sysWaitWithoutPid)
  obtain ⟨old, hold⟩ := Option.ne_none_iff_exists'.mp hstatus
  rw [sysWaitWithoutPid]
  cases hparent : s.pcb s.running with
  | none =>
    refine ⟨?_, by rintro _ _ ⟨⟩⟩
    rintro ⟨t, p, ⟨-, -, q, hq, -⟩, -⟩
    rw [hparent] at hq
    cases hq
  | some parent =>
    have hmine : ∀ {t p}, s.IsChild t p → p.parentPid = parent.pid := by
      rintro t p ⟨-, -, q, hq, heq⟩
      rw [hparent] at hq
      cases hq
      exact heq
    dsimp only
    rw [waitRound]
    split
    · next child hfind =>
      -- a hanging child is found, and reaped
      obtain ⟨p, hp, hboth⟩ := findThread_some hfind
      obtain ⟨hppid, hhang⟩ := Bool.and_eq_true_iff.mp hboth
      have hp' : s.pcb child = some p := hp
      obtain ⟨s', hexit, hgone⟩ := @threadExit_reaps _ _ _ _ (s.intrSetStatus .off) _ _ hp hlen
        (hpid child p hp') hnodup
      have hchild : s.IsChild child p := ⟨List.mem_of_find?_eq_some hfind, hp', parent, hparent,
        of_decide_eq_true hppid⟩
      have hresult : storeStatus cells status (do
            let s ← (s.intrSetStatus .off).threadExit child false
            .ok (s, .reaped p.pid p.exitStatus)) =
          .ok (s', Function.update cells status (some p.exitStatus.toInt),
            .reaped p.pid p.exitStatus) := by
        simp only [storeStatus, hexit, hold, bind, Except.bind]
      simp only [hp]
      rw [hresult]
      exact ⟨fun _ => ⟨child, p, s', _, hchild, of_decide_eq_true hhang, rfl,
        Function.update_self .., hgone⟩, by rintro _ _ ⟨⟩⟩
    · next hfind =>
      have hnone : ¬ ∃ t p, s.IsChild t p ∧ p.status = .hanging := by
        rintro ⟨t, p, hchild, hhang⟩
        have hfalse := findThread_none hfind hchild.1 hchild.2.1
        simp [hmine hchild, hhang] at hfalse
      split
      · next hno =>
        refine ⟨fun h => absurd h hnone, fun _ _ _ t p hchild => ?_⟩
        have hfalse := findThread_none hno hchild.1 hchild.2.1
        simp [hmine hchild] at hfalse
      · refine ⟨fun h => absurd h hnone, fun s₁ cells₁ h => ?_⟩
        obtain ⟨⟨s₂, r⟩, hblock, hok⟩ := bind_eq_ok.mp h
        obtain ⟨s₃, -, hr⟩ := bind_eq_ok.mp hblock
        cases hr
        cases hok

/-! ## The call as it is -/

/-- The addresses that `int16_t` has no value for, when they are read as an `int32_t`: all but the
first and the last 32 KiB, to which no object of a program belongs. -/
def IsUserObject (a : UInt32) : Prop := 2 ^ 15 ≤ a.toNat ∧ a.toNat < 2 ^ 32 - 2 ^ 15

theorem IsUserObject.not_pid {a : UInt32} (h : IsUserObject a) {pid : Int}
    (hpid : -2 ^ 15 ≤ pid ∧ pid < 2 ^ 15) : pid ≠ a.toInt32.toInt := by
  obtain ⟨hlow, hhigh⟩ := h
  have hint : a.toInt32.toInt = if 2 * a.toNat < 2 ^ 32 then (a.toNat : Int)
      else (a.toNat : Int) - (2 ^ 32 : Nat) := by
    rw [← Int32.toInt_toBitVec, UInt32.toBitVec_toInt32, BitVec.toInt_eq_toNat_cond,
      UInt32.toNat_toBitVec]
  rw [hint]
  split <;> omega

omit [DecidableEq T] in
theorem findThread_eq_none {mine : Pcb → Bool} (h : ∀ t p, s.pcb t = some p → mine p = false) :
    s.findThread mine = none := by
  refine List.find?_eq_none.mpr fun t _ => ?_
  cases hp : s.pcb t with
  | none => simp
  | some p => simp [h t p hp]

/-- No thread has the address for its pid. -/
theorem sysWait_noThread (hpid : ∀ t p, s.pcb t = some p → -2 ^ 15 ≤ p.pid ∧ p.pid < 2 ^ 15)
    {status : UInt32} (hstatus : IsUserObject status) :
    s.sysWait status.toInt32.toInt = .ok (s.intrSetStatus .off, .noChild) := by
  have hne : ∀ t p, s.pcb t = some p → decide (p.pid = status.toInt32.toInt) = false :=
    fun t p hp => decide_eq_false (hstatus.not_pid (hpid t p hp))
  have hhanging : (s.intrSetStatus .off).findThread (fun p =>
      decide (p.pid = status.toInt32.toInt) && p.status = .hanging) = none :=
    findThread_eq_none fun t p hp => by rw [hne t p hp, Bool.false_and]
  have hany : (s.intrSetStatus .off).findThread (fun p =>
      decide (p.pid = status.toInt32.toInt)) = none := findThread_eq_none hne
  rw [sysWait, waitRound]
  simp only [hhanging, hany]

theorem waitWithoutPid_noChild
    (hpid : ∀ t p, s.pcb t = some p → -2 ^ 15 ≤ p.pid ∧ p.pid < 2 ^ 15) (cells : Cells)
    (regs : CallRegs) {status : UInt32} (hstatus : IsUserObject status) :
    s.waitWithoutPid cells regs status = .ok (s.intrSetStatus .off, cells, .noChild) := by
  rw [waitWithoutPid, syscallHandler]
  show storeStatus cells regs.ecx (s.sysWait status.toInt32.toInt) = _
  rw [sysWait_noThread hpid hstatus]
  rfl

/-- **The wrapper**: for every process table and all that the registers may hold,
`wait_without_pid` does what it is for exactly when the caller has no child. -/
theorem waitWithoutPid_reaps_iff
    (hpid : ∀ t p, s.pcb t = some p → -2 ^ 15 ≤ p.pid ∧ p.pid < 2 ^ 15) (cells : Cells)
    (regs : CallRegs) {status : UInt32} (hstatus : IsUserObject status) :
    s.Reaps status (s.waitWithoutPid cells regs status) ↔ ∀ t p, ¬ s.IsChild t p := by
  rw [waitWithoutPid_noChild hpid cells regs hstatus]
  constructor
  · intro h
    exact h.noChild _ _ rfl
  · intro h
    constructor
    · rintro ⟨t, p, hchild, -⟩
      exact absurd hchild (h t p)
    · intro _ _ _
      exact h

/-- The process `init` (1) runs, its child (2) with the pid 2 has exited with the status 7, and the
idle thread (3) is blocked; the main thread (0) is gone. -/
def orphanTable : Threads (Fin 4) Empty Empty where
  pcb
    | 0 => none
    | 1 => some ⟨1, .running, "init", 31, 31, 0, true, -1, 0⟩
    | 2 => some ⟨2, .hanging, "init_fork", 31, 31, 0, true, 1, 7⟩
    | 3 => some ⟨3, .blocked, "idle", 10, 10, 0, false, -1, 0⟩
  running := 1
  intr := .on
  readyList := []
  allList := [1, 3, 2]
  mainThread := 0
  idleThread := 3
  sema := nofun
  waiter := nofun
  pidBitmap := ⟨7 :: List.replicate 127 0⟩

/-- The variable `status` of `init`, on its stack. -/
def statusCell : Cells := fun a => if a = 0xbfffffe0 then some 0 else none

theorem orphanTable_pids : ∀ t p, orphanTable.pcb t = some p → -2 ^ 15 ≤ p.pid ∧ p.pid < 2 ^ 15 := by
  intro t p hp
  have hall : ∀ t : Fin 4, (orphanTable.pcb t).all fun p => -2 ^ 15 ≤ p.pid ∧ p.pid < 2 ^ 15 := by
    decide
  simpa [hp] using hall t

theorem waitWithoutPid_reaps_iff_init :
    orphanTable.Reaps 0xbfffffe0 (orphanTable.waitWithoutPid statusCell ⟨.sysWait, 0, 0, 0⟩ 0xbfffffe0) ↔
      ∀ t p, ¬ orphanTable.IsChild t p :=
  waitWithoutPid_reaps_iff orphanTable_pids statusCell _ ⟨by decide, by decide⟩

/-- `init` does not get the child that hangs. -/
theorem waitWithoutPid_misses : ¬ orphanTable.Reaps 0xbfffffe0
    (orphanTable.waitWithoutPid statusCell ⟨.sysWait, 0, 0, 0⟩ 0xbfffffe0) := by
  intro h
  rw [waitWithoutPid_noChild orphanTable_pids statusCell _ ⟨by decide, by decide⟩] at h
  exact h.noChild _ _ rfl 2 _ ⟨by decide, rfl, _, rfl, rfl⟩

end Threads

end GwOS
