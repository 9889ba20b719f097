import GwOS.Lib.Ia32
import Mathlib.Tactic.IntervalCases

/-!
# Entry and exit of the kernel (`kernel/kernel.asm`)

An interrupt and a system call push the registers in the order of `struct intr_stack`, call a function
and leave by `intr_exit`. The functions are compiled C code, of which it is known that it keeps to the
calling convention; the code of the table of entries is one definition for all vectors.

- `Enters.stacked`: the frame on the stack when the function is entered.
- `intrExit_run`: what `intr_exit` loads from a frame.
- `interrupt_returns`: the interrupted code goes on as if nothing had happened.
- `syscall_returns`: a system call calls the function of its number and returns what that returns.
-/

namespace GwOS

open Ia32

/-! ## The frame -/

/-- `struct intr_stack`, without what the processor adds when an inner ring is entered. -/
structure IntrStack where
  vectorId : Word
  edi : Word
  esi : Word
  ebp : Word
  espDummy : Word
  ebx : Word
  edx : Word
  ecx : Word
  eax : Word
  gs : Word
  fs : Word
  es : Word
  ds : Word
  errCode : Word
  eip : Word
  cs : Word
  eflags : Word

namespace IntrStack

/-- The words of the frame, from the lowest address upwards. -/
def words (f : IntrStack) : List Word :=
  [f.vectorId, f.edi, f.esi, f.ebp, f.espDummy, f.ebx, f.edx, f.ecx, f.eax, f.gs, f.fs, f.es, f.ds,
    f.errCode, f.eip, f.cs, f.eflags]

/-- The frame of a processor that is interrupted. -/
def of (s : Cpu) (vectorId errCode espDummy : Word) : IntrStack where
  vectorId := vectorId
  edi := s.reg .edi
  esi := s.reg .esi
  ebp := s.reg .ebp
  espDummy := espDummy
  ebx := s.reg .ebx
  edx := s.reg .edx
  ecx := s.reg .ecx
  eax := s.reg .eax
  gs := ofSeg (s.seg .gs)
  fs := ofSeg (s.seg .fs)
  es := ofSeg (s.seg .es)
  ds := ofSeg (s.seg .ds)
  errCode := errCode
  eip := s.eip
  cs := ofSeg (s.seg .cs)
  eflags := s.eflags

/-- The registers after the frame has been popped. -/
def regs (f : IntrStack) (esp : Word) : Reg → Word
  | .eax => f.eax
  | .ecx => f.ecx
  | .edx => f.edx
  | .ebx => f.ebx
  | .esp => esp
  | .ebp => f.ebp
  | .esi => f.esi
  | .edi => f.edi

def segs (f : IntrStack) (ss : BitVec 16) : Seg → BitVec 16
  | .cs => f.cs.truncate 16
  | .ds => f.ds.truncate 16
  | .es => f.es.truncate 16
  | .fs => f.fs.truncate 16
  | .gs => f.gs.truncate 16
  | .ss => ss

end IntrStack

/-! ## The code -/

/-- `ERROR_CODE` or `ZERO`: the vectors for which the processor has pushed an error code. -/
def errorCode (n : BitVec 8) : Bool :=
  n ∈ ([0x08, 0x0a, 0x0b, 0x0d, 0x0e, 0x11, 0x18, 0x1a, 0x1b, 0x1d, 0x1e] : List (BitVec 8))

/-- The registers are pushed. -/
def saveRegisters : List Instr := [.pushSeg .ds, .pushSeg .es, .pushSeg .fs, .pushSeg .gs, .pushad]

/-- `intr%1entry`, up to the call. The interrupt is acknowledged before the handler runs. -/
def intrEntry (n : BitVec 8) (intrFunctionTable ret : Word) : List Instr :=
  (if errorCode n then [] else [.pushImm 0]) ++ saveRegisters ++
  [.movAl 0x20, .outAl 0xa0, .outAl 0x20,
    .pushImm (n.zeroExtend 32), .call (intrFunctionTable + n.zeroExtend 32 * 4) none ret]

/-- `intr_exit`. -/
def intrExit : List Instr :=
  [.add .esp 4, .popad, .popSeg .gs, .popSeg .fs, .popSeg .es, .popSeg .ds, .add .esp 4, .iretd]

/-- `syscall_handler`, up to the call. -/
def syscallHandler (syscallTable ret : Word) : List Instr :=
  [.pushImm 0] ++ saveRegisters ++
  [.pushImm 0x80, .pushReg .edx, .pushReg .ecx, .pushReg .ebx, .call syscallTable (some .eax) ret]

/-- `syscall_handler` from there on. -/
def syscallReturn : List Instr := [.add .esp 12, .store .esp 32 .eax] ++ intrExit

section Exit

variable {s u : Cpu} {cs : BitVec 16} {v e d : Word} {rest : List Word}

theorem ofSeg_truncate (g : BitVec 16) : (ofSeg g).truncate 16 = g := by
  apply BitVec.eq_of_toNat_eq
  have hg := g.isLt
  rw [ofSeg, BitVec.toNat_setWidth, BitVec.toNat_setWidth]
  omega

theorem IntrStack.of_regs (u : Cpu) (v e d : Word) : (IntrStack.of u v e d).regs (u.reg .esp) = u.reg := by
  funext r
  cases r <;> rfl

theorem IntrStack.of_segs (u : Cpu) (v e d : Word) : (IntrStack.of u v e d).segs (u.seg .ss) = u.seg := by
  funext g
  cases g <;> first | rfl | exact ofSeg_truncate _

/-- **`intr_exit`** loads the registers from the frame. -/
theorem intrExit_run (f : IntrStack) (h : Stacked s.mem (s.reg .esp) (f.words ++ rest)) :
    s.run intrExit = { s with
      reg := f.regs (if rpl (s.seg .cs) < rpl (f.cs.truncate 16) then s.mem (above (s.reg .esp) 17)
        else above (s.reg .esp) 17)
      seg := f.segs (if rpl (s.seg .cs) < rpl (f.cs.truncate 16) then
        (s.mem (above (s.reg .esp) 18)).truncate 16 else s.seg .ss)
      eip := f.eip
      eflags := f.eflags } := by
  have h17 : s.reg .esp + 4 + 4 + 4 + 4 + 4 + 4 + 4 + 4 + 4 + 4 + 4 + 4 + 4 + 4 + 4 + 4 + 4 =
      above (s.reg .esp) 17 := by
    simp only [above, BitVec.add_assoc]
    rfl
  have h18 : above (s.reg .esp) 17 + 4 = above (s.reg .esp) 18 := by
    simp only [above, BitVec.add_assoc]
    rfl
  simp only [IntrStack.words, List.cons_append, Stacked] at h
  obtain ⟨-, h1, h2, h3, -, h5, h6, h7, h8, h9, h10, h11, h12, -, h14, h15, h16, -⟩ := h
  simp only [Cpu.run, intrExit, List.foldl_cons, List.foldl_nil, Cpu.exec, Cpu.iretd, Cpu.popReg,
    Cpu.popSeg, Cpu.drop, Cpu.top, Cpu.setReg, Cpu.setSeg, Function.update_self, ne_eq, reduceCtorEq,
    not_false_eq_true, Function.update_of_ne]
  simp only [h14, h15, h16, h17, h18]
  by_cases hout : rpl (s.seg .cs) < rpl (f.cs.truncate 16)
  all_goals
    simp only [hout, if_true, if_false]
    refine Cpu.ext (funext fun r => ?_) (funext fun g => ?_) rfl rfl rfl rfl rfl rfl
    · cases r <;> simp only [IntrStack.regs, Function.update_self, ne_eq, reduceCtorEq,
        not_false_eq_true, Function.update_of_ne, h1, h2, h3, h5, h6, h7, h8]
    · cases g <;> simp only [IntrStack.segs, Function.update_self, ne_eq, reduceCtorEq,
        not_false_eq_true, Function.update_of_ne, h9, h10, h11, h12]

end Exit

/-! ## The way in -/

/-- The registers that both entries push, from the selectors on; `espDummy` is the stack pointer
before `pushad`. -/
def pushed (s : Cpu) (espDummy : Word) : List Word :=
  [ofSeg (s.seg .ds), ofSeg (s.seg .es), ofSeg (s.seg .fs), ofSeg (s.seg .gs), s.reg .eax, s.reg .ecx,
    s.reg .edx, s.reg .ebx, espDummy, s.reg .ebp, s.reg .esi, s.reg .edi]

section Entry

variable {s u : Cpu} {cs : BitVec 16} {v e d table ret : Word} {n : BitVec 8} {rest : List Word}

/-- The code of an entry as a row of pushes, the last of them by the call of the function that is
named at `slot`. -/
structure Enters (s s' : Cpu) (ws : List Word) (slot ret : Word) : Prop where
  mem : s'.mem = (s.pushAll (ws ++ [ret])).mem
  esp : s'.reg .esp = (s.pushAll (ws ++ [ret])).reg .esp
  eip : s'.eip = (s.pushAll ws).mem slot
  ebx : s'.reg .ebx = s.reg .ebx
  ebp : s'.reg .ebp = s.reg .ebp
  esi : s'.reg .esi = s.reg .esi
  edi : s'.reg .edi = s.reg .edi
  seg : s'.seg = s.seg

theorem saveRegisters_run (s : Cpu) :
    s.run saveRegisters = s.pushAll (pushed s (s.reg .esp - 4 - 4 - 4 - 4)) := by
  simp only [saveRegisters, Cpu.run, List.foldl_cons, List.foldl_nil, Cpu.exec, Cpu.pushAll, pushed,
    push_seg, push_esp, push_reg, ne_eq, reduceCtorEq, not_false_eq_true]

theorem pushed_pushAll (ws : List Word) (s : Cpu) (d : Word) : pushed (s.pushAll ws) d = pushed s d := by
  simp only [pushed, pushAll_seg, pushAll_reg, ne_eq, reduceCtorEq, not_false_eq_true]

/-- The entry of an interrupt. -/
theorem intrEntry_enters (s : Cpu) (n : BitVec 8) (table ret : Word) :
    ∃ d, Enters s (s.run (intrEntry n table ret))
      ((if errorCode n then [] else [0]) ++ pushed s d ++ [n.zeroExtend 32])
      (table + n.zeroExtend 32 * 4) ret := by
  generalize hz : (if errorCode n then [] else [0] : List Word) = zs
  have hzero : s.run (if errorCode n then [] else [.pushImm 0]) = s.pushAll zs := by
    rw [← hz]
    split <;> rfl
  refine ⟨(s.pushAll zs).reg .esp - 4 - 4 - 4 - 4, ?_⟩
  generalize hd : (s.pushAll zs).reg .esp - 4 - 4 - 4 - 4 = d
  generalize ht : s.pushAll (zs ++ pushed s d) = t
  have hrun : s.run (intrEntry n table ret) = t.run [.movAl 0x20, .outAl 0xa0, .outAl 0x20,
      .pushImm (n.zeroExtend 32), .call (table + n.zeroExtend 32 * 4) none ret] := by
    rw [intrEntry, run_append, run_append, hzero, saveRegisters_run, hd, pushed_pushAll, ← ht,
      pushAll_append]
  have hn : s.pushAll (zs ++ pushed s d ++ [n.zeroExtend 32]) = t.push (n.zeroExtend 32) := by
    rw [pushAll_append, ht]
    rfl
  have hret : s.pushAll (zs ++ pushed s d ++ [n.zeroExtend 32] ++ [ret]) =
      (t.push (n.zeroExtend 32)).push ret := by
    rw [pushAll_append, hn]
    rfl
  have hreg : ∀ r, r ≠ .esp → t.reg r = s.reg r := fun r hr => ht ▸ pushAll_reg _ s hr
  have hseg : t.seg = s.seg := ht ▸ pushAll_seg _ s
  rw [hrun]
  simp only [Cpu.run, List.foldl_cons, List.foldl_nil, Cpu.exec]
  refine ⟨?_, ?_, ?_, hreg .ebx nofun, hreg .ebp nofun, hreg .esi nofun, hreg .edi nofun, hseg⟩
  · rw [hret]
    rfl
  · rw [hret]
    rfl
  · rw [hn]
    exact congrArg (t.push (n.zeroExtend 32)).mem (BitVec.add_zero _)

/-- The entry of a system call: the arguments are pushed as a function expects them. -/
theorem syscallHandler_enters (s : Cpu) (table ret : Word) :
    ∃ d, Enters s (s.run (syscallHandler table ret))
      ([0] ++ pushed s d ++ [0x80, s.reg .edx, s.reg .ecx, s.reg .ebx]) (table + s.reg .eax * 4) ret := by
  refine ⟨(s.push 0).reg .esp - 4 - 4 - 4 - 4, ?_⟩
  generalize hd : (s.push 0).reg .esp - 4 - 4 - 4 - 4 = d
  generalize ht : s.pushAll ([0] ++ pushed s d) = t
  have hrun : s.run (syscallHandler table ret) = t.run [.pushImm 0x80, .pushReg .edx, .pushReg .ecx,
      .pushReg .ebx, .call table (some .eax) ret] := by
    have hzero : s.run [.pushImm 0] = s.pushAll [0] := rfl
    have hone : (s.pushAll [0]).reg .esp - 4 - 4 - 4 - 4 = d := hd
    rw [syscallHandler, run_append, run_append, hzero, saveRegisters_run, hone, pushed_pushAll, ← ht,
      pushAll_append]
  have hreg : ∀ r, r ≠ .esp → t.reg r = s.reg r := fun r hr => ht ▸ pushAll_reg _ s hr
  have hseg : t.seg = s.seg := ht ▸ pushAll_seg _ s
  have hargs : s.pushAll ([0] ++ pushed s d ++ [0x80, s.reg .edx, s.reg .ecx, s.reg .ebx]) =
      (((t.push 0x80).push (t.reg .edx)).push (t.reg .ecx)).push (t.reg .ebx) := by
    rw [pushAll_append, ht, hreg .edx nofun, hreg .ecx nofun, hreg .ebx nofun]
    rfl
  have hret : s.pushAll ([0] ++ pushed s d ++ [0x80, s.reg .edx, s.reg .ecx, s.reg .ebx] ++ [ret]) =
      ((((t.push 0x80).push (t.reg .edx)).push (t.reg .ecx)).push (t.reg .ebx)).push ret := by
    rw [pushAll_append, hargs]
    rfl
  rw [hrun]
  simp only [Cpu.run, List.foldl_cons, List.foldl_nil, Cpu.exec]
  refine ⟨?_, ?_, ?_, hreg .ebx nofun, hreg .ebp nofun, hreg .esi nofun, hreg .edi nofun, hseg⟩
  · rw [hret]
    rfl
  · rw [hret]
    rfl
  · rw [hargs, ← hreg .eax nofun]
    rfl

theorem pushed_interrupt (u : Cpu) (cs : BitVec 16) (handler : Word) (err : Option Word) (d : Word) :
    pushed (u.interrupt cs handler err) d = pushed u d := by
  simp only [pushed, interrupt_reg, interrupt_seg, ne_eq, reduceCtorEq, not_false_eq_true]

/-- **The frame on the stack** when the function is entered: the return address, what the entry has
pushed last, and the registers of the interrupted code. -/
theorem Enters.stacked {handler slot : Word} {err : Option Word} {zs tail : List Word} {s' : Cpu}
    (h : Enters (u.interrupt cs handler err) s' (zs ++ pushed (u.interrupt cs handler err) d ++ tail)
      slot ret) (hz : zs.reverse ++ err.toList = [e]) (htail : tail.length ≤ 4) (v : Word) :
    Stacked s'.mem (s'.reg .esp)
      (ret :: (tail.reverse ++ ((IntrStack.of u v e d).words.tail ++ outerWords u cs))) := by
  have hout := outerWords_length u cs
  have hzs : zs.length + err.toList.length = 1 := by
    have hlen := congrArg List.length hz
    rwa [List.length_append, List.length_reverse] at hlen
  rw [pushed_interrupt] at h
  have hall := pushAll_stacked (zs ++ pushed u d ++ tail ++ [ret]) _ (interrupt_stacked u cs handler err)
    (by simp only [pushed, List.length_append, List.length_cons, List.length_nil]; omega)
  rw [h.mem, h.esp]
  refine Eq.mp (congrArg _ ?_) hall
  have hcode : ∀ ws, zs.reverse ++ (err.toList ++ ws) = e :: ws := fun ws => by
    rw [← List.append_assoc, hz]
    rfl
  simp only [List.reverse_append, List.append_assoc, hcode, pushed, IntrStack.words, IntrStack.of,
    List.reverse_cons, List.reverse_nil, List.nil_append, List.cons_append, List.tail_cons]

/-- **`intr_exit` behind an entry**: the interrupted code goes on as if nothing had happened. -/
theorem intrExit_restores {s : Cpu} (hcs : s.seg .cs = cs)
    (hss : ¬ rpl cs < rpl (u.seg .cs) → above (s.reg .esp) 17 = u.reg .esp ∧ s.seg .ss = u.seg .ss)
    (h : Stacked s.mem (s.reg .esp) ((IntrStack.of u v e d).words ++ outerWords u cs)) :
    SameContext u (s.run intrExit) := by
  rw [intrExit_run _ h]
  have hf : (IntrStack.of u v e d).cs.truncate 16 = u.seg .cs := ofSeg_truncate _
  rw [hf, hcs]
  unfold outerWords at h
  by_cases hout : rpl cs < rpl (u.seg .cs)
  · rw [if_pos hout] at h
    obtain ⟨hesp, hsel, -⟩ := (stacked_append.mp h).2
    rw [above_next] at hsel
    have hesp' : s.mem (above (s.reg .esp) 17) = u.reg .esp := hesp
    have hsel' : s.mem (above (s.reg .esp) 18) = ofSeg (u.seg .ss) := hsel
    rw [if_pos hout, if_pos hout, hesp', hsel', ofSeg_truncate, IntrStack.of_regs, IntrStack.of_segs]
    exact ⟨rfl, rfl, rfl, rfl⟩
  · obtain ⟨hesp, hsel⟩ := hss hout
    rw [if_neg hout, if_neg hout, hesp, hsel, IntrStack.of_regs, IntrStack.of_segs]
    exact ⟨rfl, rfl, rfl, rfl⟩

/-- The stack that the entry has begun with. -/
theorem Enters.base {handler slot : Word} {err : Option Word} {ws : List Word} {s' : Cpu}
    (h : Enters (u.interrupt cs handler err) s' ws slot ret) :
    above (s'.reg .esp) (ws.length + 1) = (u.interrupt cs handler err).reg .esp := by
  have hall := pushAll_esp (ws ++ [ret]) (u.interrupt cs handler err)
  rw [List.length_append] at hall
  rw [h.esp]
  exact hall

/-- The function that is entered is the one in the table, unless the table lies on the stack. -/
theorem Enters.dispatch {handler slot : Word} {err : Option Word} {ws : List Word} {s' : Cpu}
    (h : Enters (u.interrupt cs handler err) s' ws slot ret) (hws : ws.length ≤ 17)
    (hslot : ∀ k < 24, slot ≠ above (s'.reg .esp) k) : s'.eip = u.mem slot := by
  have hret : ((u.interrupt cs handler err).pushAll ws).reg .esp = above (s'.reg .esp) 1 := by
    have hpush : (u.interrupt cs handler err).pushAll (ws ++ [ret]) =
        ((u.interrupt cs handler err).pushAll ws).push ret := pushAll_append _ ws [ret]
    rw [h.esp, hpush, push_esp, above_sub, above_zero]
  rw [h.eip, pushAll_outside ws _ fun k hk => ?_, interrupt_outside u cs handler err fun k hk => ?_]
  · rw [← h.base, above_add]
    exact hslot _ (by omega)
  · rw [hret, above_add]
    exact hslot _ (by omega)

/-- Where the stack of the interrupted code begins, when no other one is entered. -/
theorem Enters.origin {handler slot : Word} {err : Option Word} {ws : List Word} {s' : Cpu}
    (h : Enters (u.interrupt cs handler err) s' ws slot ret) (hsame : ¬ rpl cs < rpl (u.seg .cs)) :
    above (s'.reg .esp) (ws.length + 1 + (3 + err.toList.length)) = u.reg .esp := by
  rw [← above_add, h.base]
  exact (interrupt_above u cs handler err hsame).1

/-- The stack of the interrupted code stays as far as the function keeps it. -/
theorem Enters.keeps {handler slot : Word} {err : Option Word} {ws : List Word} {s' t : Cpu} {m : Nat}
    (h : Enters (u.interrupt cs handler err) s' ws slot ret) (args : Nat) (hsame : ¬ rpl cs < rpl (u.seg .cs))
    (hcall : Cdecl s' t args (ws.length - args + 3 + err.toList.length + m)) (hargs : args ≤ ws.length)
    (hm : 4 * (ws.length + 8 + m) ≤ 2 ^ 32) :
    ∀ k < m, t.mem (above (u.reg .esp) k) = u.mem (above (u.reg .esp) k) := by
  intro k hk
  have herr : err.toList.length ≤ 1 := by cases err <;> simp
  have habove := (interrupt_above u cs handler err hsame).1
  have hplace : above (u.reg .esp) k =
      above (s'.reg .esp) (args + 1 + (ws.length - args + 3 + err.toList.length + k)) := by
    rw [← h.origin hsame, above_add]
    congr 1
    omega
  calc t.mem (above (u.reg .esp) k)
      = s'.mem (above (u.reg .esp) k) := by
        rw [hplace]
        exact hcall.keeps _ (by omega)
    _ = (u.interrupt cs handler err).mem (above (u.reg .esp) k) := by
        rw [h.mem, ← habove, above_add]
        exact pushAll_above _ _ (by rw [List.length_append, List.length_singleton]; omega)
    _ = u.mem (above (u.reg .esp) k) := interrupt_keeps u cs handler err hsame (by omega)

/-- The selectors are those of the kernel until the frame is popped. -/
theorem Enters.segments {handler slot : Word} {err : Option Word} {ws : List Word} {s' : Cpu}
    (h : Enters (u.interrupt cs handler err) s' ws slot ret) :
    s'.seg .cs = cs ∧ (¬ rpl cs < rpl (u.seg .cs) → s'.seg .ss = u.seg .ss) := by
  rw [h.seg]
  exact ⟨interrupt_cs u cs handler err, fun hsame => (interrupt_above u cs handler err hsame).2⟩

end Entry

/-! ## The gates (`kernel/interrupt.c`) -/

/-- `struct gate_desc` -/
structure GateDesc where
  funcOffsetLow16bit : BitVec 16
  selector : BitVec 16
  dcount : BitVec 8
  attr : BitVec 8
  funcOffsetHigh16bit : BitVec 16

/-- `SELECTOR_KERNEL_CODE` -/
def selectorKernelCode : BitVec 16 := (1 <<< 3) + (0 <<< 2) + 0

/-- `make_idt_desc` -/
def makeIdtDesc (func : Word) (attr : BitVec 8) : GateDesc where
  funcOffsetLow16bit := (func &&& 0x0000ffff).truncate 16
  selector := selectorKernelCode
  dcount := 0
  attr := attr
  funcOffsetHigh16bit := ((func &&& 0xffff0000) >>> 16).truncate 16

/-- The address that the processor takes from the descriptor. -/
def GateDesc.offset (g : GateDesc) : Word := g.funcOffsetHigh16bit ++ g.funcOffsetLow16bit

theorem makeIdtDesc_offset (func : Word) (attr : BitVec 8) :
    (makeIdtDesc func attr).offset = func := by
  unfold GateDesc.offset makeIdtDesc
  ext i hi
  simp only [BitVec.getElem_append, BitVec.truncate_eq_setWidth, BitVec.getElem_setWidth,
    BitVec.getLsbD_and, BitVec.getLsbD_ushiftRight]
  interval_cases i <;> simp

/-- The processor is interrupted, or it executes `int`. -/
def GateDesc.raise (g : GateDesc) (u : Cpu) (err : Option Word) : Cpu :=
  u.interrupt g.selector g.offset err

theorem makeIdtDesc_raise (entry : Word) (attr : BitVec 8) (u : Cpu) (err : Option Word) :
    (makeIdtDesc entry attr).raise u err = u.interrupt selectorKernelCode entry err := by
  rw [GateDesc.raise, makeIdtDesc_offset]
  rfl

section Returns

variable {u s s' : Cpu} {entry table ret : Word} {n attr : BitVec 8} {err : Option Word} {m : Nat}

theorem rpl_kernelCode : rpl selectorKernelCode = 0 := by decide

theorem intrExit_mem (f : IntrStack) {rest : List Word}
    (h : Stacked s.mem (s.reg .esp) (f.words ++ rest)) : (s.run intrExit).mem = s.mem := by
  rw [intrExit_run f h]

theorem movAl_truncate (w : Word) (b : BitVec 8) :
    ((w &&& 0xffffff00) ||| b.zeroExtend 32).truncate 8 = b := by
  ext i hi
  simp only [BitVec.truncate_eq_setWidth, BitVec.getElem_setWidth, BitVec.getLsbD_or, BitVec.getLsbD_and,
    BitVec.getLsbD_setWidth]
  interval_cases i <;> simp

/-- The handler is called once the interrupt has been acknowledged at both controllers. -/
theorem intrEntry_outs (s : Cpu) (n : BitVec 8) (table ret : Word) :
    (s.run (intrEntry n table ret)).outs = s.outs ++ [(0xa0, 0x20), (0x20, 0x20)] := by
  have hzero : (s.run (if errorCode n then [] else [.pushImm 0])).outs = s.outs := by
    split <;> rfl
  rw [intrEntry, run_append, run_append, saveRegisters_run]
  simp only [Cpu.run, List.foldl_cons, List.foldl_nil, Cpu.exec, Cpu.setReg, Function.update_self,
    movAl_truncate]
  show (Cpu.pushAll _ _).outs ++ _ ++ _ = _
  rw [pushAll_outs, List.append_assoc]
  exact congrArg (· ++ _) hzero

/-- **An interrupt goes unnoticed.** The handler that has been registered for the vector is called with
the vector, and when it has returned the interrupted code goes on with its registers, its selectors and
its flags; in the kernel it also finds its stack. -/
theorem interrupt_returns (herr : err.isSome = errorCode n)
    (hs : s = ((makeIdtDesc entry attr).raise u err).run (intrEntry n table ret))
    (hslot : ∀ k < 24, table + n.zeroExtend 32 * 4 ≠ above (s.reg .esp) k)
    (hcall : Cdecl s s' 1 (18 + m)) (hm : 4 * (24 + m) ≤ 2 ^ 32) :
    s.eip = u.mem (table + n.zeroExtend 32 * 4) ∧ s.mem (above (s.reg .esp) 1) = n.zeroExtend 32 ∧
      s.outs = u.outs ++ [(0xa0, 0x20), (0x20, 0x20)] ∧ s'.eip = ret ∧
      SameContext u (s'.run intrExit) ∧
      (rpl (u.seg .cs) = 0 →
        ∀ k < m, (s'.run intrExit).mem (above (u.reg .esp) k) = u.mem (above (u.reg .esp) k)) := by
  rw [makeIdtDesc_raise] at hs
  obtain ⟨d, hent⟩ := intrEntry_enters (u.interrupt selectorKernelCode entry err) n table ret
  rw [← hs] at hent
  -- the entry pushes a zero where the processor has pushed no error code
  have hcode : ∃ e, (if errorCode n then [] else [0] : List Word).reverse ++ err.toList = [e] := by
    rw [← herr]
    cases err with
    | none => exact ⟨0, rfl⟩
    | some e => exact ⟨e, rfl⟩
  obtain ⟨e, he⟩ := hcode
  have hlen : (if errorCode n then [] else [0] : List Word).length + err.toList.length = 1 := by
    have hone := congrArg List.length he
    rwa [List.length_append, List.length_reverse] at hone
  generalize (if errorCode n then [] else [0] : List Word) = zs at hent he hlen
  have hws : (zs ++ pushed (u.interrupt selectorKernelCode entry err) d ++ [n.zeroExtend 32]).length =
      zs.length + 13 := by
    simp only [pushed, List.length_append, List.length_cons, List.length_nil]
  have hframe : ((IntrStack.of u 0 e d).words.tail ++ outerWords u selectorKernelCode).length ≤ 18 + m := by
    have hout := outerWords_length u selectorKernelCode
    simp only [IntrStack.words, List.tail_cons, List.length_append, List.length_cons, List.length_nil]
    omega
  have hstack := hent.stacked he (show [n.zeroExtend 32].length ≤ 4 by simp) 0
  have hcall' : Cdecl s s' [n.zeroExtend 32].length _ := hcall.mono hframe
  obtain ⟨hret, hafter⟩ := hcall'.stacked hstack
  have hexit : Stacked s'.mem (s'.reg .esp)
      ((IntrStack.of u s'.top e d).words ++ outerWords u selectorKernelCode) :=
    ⟨rfl, hafter⟩
  obtain ⟨hcs, hss⟩ := hent.segments
  rw [← hcall.cs] at hcs
  rw [← hcall.ss] at hss
  have hkeeps : ∀ k < m, ¬ rpl selectorKernelCode < rpl (u.seg .cs) →
      s'.mem (above (u.reg .esp) k) = u.mem (above (u.reg .esp) k) := fun k hk hsame =>
    hent.keeps 1 hsame (hcall.mono (by omega)) (by omega) (by omega) k hk
  refine ⟨hent.dispatch (by omega) hslot, hstack.2.1, ?_, hret, intrExit_restores hcs (fun hsame => ?_)
    hexit, fun hring k hk => ?_⟩
  · rw [hs, intrEntry_outs, interrupt_outs]
  · refine ⟨?_, hss hsame⟩
    have horigin := hent.origin hsame
    rw [hcall.esp, above_succ, ← horigin]
    congr 1
    omega
  · rw [intrExit_mem _ hexit]
    exact hkeeps k hk (by rw [hring]; exact Nat.not_lt_zero _)

/-- A user program in the middle of its work, with the stack of ring 0 in a page of its own. -/
def userAtRest : Cpu where
  reg
    | .eax => 1
    | .ecx => 2
    | .edx => 3
    | .ebx => 4
    | .esp => 0xbffffff0
    | .ebp => 0xbffffff8
    | .esi => 5
    | .edi => 6
  seg
    | .cs => 0x2b
    | .gs => 0
    | _ => 0x33
  eip := 0x8048010
  eflags := 0x246
  mem _ := 0
  esp0 := 0xc0101000
  ss0 := 0x10
  outs := []

/-- A handler that leaves 7 in `al`. -/
theorem leaveSeven_cdecl (s : Cpu) (args room : Nat) : Cdecl s (s.run [.movAl 7, .ret]) args room :=
  (ret_cdecl (s.exec (.movAl 7)) args room).of_eax

theorem interrupt_returns_timer :
    SameContext userAtRest
      (((((makeIdtDesc 0xc0001500 0x8e).raise userAtRest none).run
        (intrEntry 0x20 0xc0002000 0xc0001600)).run [.movAl 7, .ret]).run intrExit) := by
  have herr : (none : Option Word).isSome = errorCode 0x20 := by decide
  exact (interrupt_returns (m := 0) herr rfl (by decide) (leaveSeven_cdecl _ 1 18) (by decide)).2.2.2.2.1

/-- What the function has returned is stored where `intr_exit` loads `eax` from. -/
theorem setResult_run (s : Cpu) :
    (s.run [.add .esp 12, .store .esp 32 .eax]).reg =
        Function.update s.reg .esp (above (s.reg .esp) 3) ∧
      (s.run [.add .esp 12, .store .esp 32 .eax]).seg = s.seg ∧
      (s.run [.add .esp 12, .store .esp 32 .eax]).mem =
        Function.update s.mem (above (above (s.reg .esp) 3) 8) (s.reg .eax) := by
  refine ⟨rfl, rfl, ?_⟩
  simp only [Cpu.run, List.foldl_cons, List.foldl_nil, Cpu.exec, Cpu.setReg, Function.update_self, ne_eq,
    reduceCtorEq, not_false_eq_true, Function.update_of_ne]
  rfl

theorem setResult_stacked {v e d : Word} {rest : List Word}
    (h : Stacked s.mem (above (s.reg .esp) 3) ((IntrStack.of u v e d).words ++ rest))
    (hrest : rest.length ≤ 2) :
    Stacked (s.run [.add .esp 12, .store .esp 32 .eax]).mem
      ((s.run [.add .esp 12, .store .esp 32 .eax]).reg .esp)
      ((IntrStack.of (u.setReg .eax (s.reg .eax)) v e d).words ++ rest) := by
  obtain ⟨hreg, -, hmem⟩ := setResult_run s
  have hlen : ((IntrStack.of u v e d).words ++ rest).length ≤ 19 := by
    simp only [IntrStack.words, List.length_append, List.length_cons, List.length_nil]
    omega
  have hset := h.set (j := 8) (w := s.reg .eax)
    (by simp only [IntrStack.words, List.length_append, List.length_cons]; omega) (by omega)
  rw [hmem, hreg, Function.update_self]
  exact hset

/-- **A system call**: the function that `eax` selects is called with `ebx`, `ecx` and `edx`, and the
caller goes on with what it has returned in `eax`, and with everything else as it was. -/
theorem syscall_returns (hs : s = ((makeIdtDesc entry attr).raise u none).run (syscallHandler table ret))
    (hslot : ∀ k < 24, table + u.reg .eax * 4 ≠ above (s.reg .esp) k)
    (hcall : Cdecl s s' 3 (19 + m)) (hm : 4 * (28 + m) ≤ 2 ^ 32) :
    s.eip = u.mem (table + u.reg .eax * 4) ∧
      Stacked s.mem (s.reg .esp) [ret, u.reg .ebx, u.reg .ecx, u.reg .edx] ∧ s'.eip = ret ∧
      SameContext (u.setReg .eax (s'.reg .eax)) (s'.run syscallReturn) ∧
      (rpl (u.seg .cs) = 0 →
        ∀ k < m, (s'.run syscallReturn).mem (above (u.reg .esp) k) = u.mem (above (u.reg .esp) k)) := by
  rw [makeIdtDesc_raise] at hs
  obtain ⟨d, hent⟩ := syscallHandler_enters (u.interrupt selectorKernelCode entry none) table ret
  have hreg : ∀ r, r ≠ .esp → (u.interrupt selectorKernelCode entry none).reg r = u.reg r :=
    fun r hr => interrupt_reg u _ _ _ hr
  rw [← hs, hreg .eax nofun, hreg .ebx nofun, hreg .ecx nofun, hreg .edx nofun] at hent
  have hws : ([0] ++ pushed (u.interrupt selectorKernelCode entry none) d ++
      [0x80, u.reg .edx, u.reg .ecx, u.reg .ebx]).length = 17 := by
    simp only [pushed, List.length_append, List.length_cons, List.length_nil]
  have hout := outerWords_length u selectorKernelCode
  have hstack := hent.stacked (e := 0) rfl (Nat.le_refl 4) 0x80
  have hframe : ((IntrStack.of u 0x80 0 d).words ++ outerWords u selectorKernelCode).length ≤ 19 + m := by
    simp only [IntrStack.words, List.length_append, List.length_cons, List.length_nil]
    omega
  have hcall' : Cdecl s s' [u.reg .ebx, u.reg .ecx, u.reg .edx].length _ := hcall.mono hframe
  obtain ⟨hret, hafter⟩ := hcall'.stacked hstack
  have hargs : Stacked s.mem (s.reg .esp) [ret, u.reg .ebx, u.reg .ecx, u.reg .edx] :=
    ⟨hstack.1, hstack.2.1, hstack.2.2.1, hstack.2.2.2.1, trivial⟩
  have hexit := setResult_stacked hafter hout
  obtain ⟨hreg', hseg', hmem'⟩ := setResult_run s'
  have hrun : s'.run syscallReturn = (s'.run [.add .esp 12, .store .esp 32 .eax]).run intrExit :=
    run_append s' _ intrExit
  obtain ⟨hcs, hss⟩ := hent.segments
  rw [← hcall.cs] at hcs
  rw [← hcall.ss] at hss
  have horigin : ¬ rpl selectorKernelCode < rpl (u.seg .cs) →
      above (above (s'.reg .esp) 3) 17 = u.reg .esp := fun hsame => by
    rw [hcall.esp, above_add, above_succ, ← hent.origin hsame, hws]
    rfl
  have hsetReg : outerWords (u.setReg .eax (s'.reg .eax)) selectorKernelCode =
      outerWords u selectorKernelCode := rfl
  refine ⟨hent.dispatch (by omega) hslot, hargs, hret, ?_, fun hring k hk => ?_⟩
  · rw [hrun]
    rw [← hsetReg] at hexit
    refine intrExit_restores (hseg' ▸ hcs) (fun hsame => ⟨?_, ?_⟩) hexit
    · rw [hreg', Function.update_self, horigin hsame]
      rfl
    · rw [hseg']
      exact hss hsame
  · have hsame : ¬ rpl selectorKernelCode < rpl (u.seg .cs) := by
      rw [hring]
      exact Nat.not_lt_zero _
    have hkept := hent.keeps 3 hsame (hcall.mono (by rw [hws]; simp)) (by omega)
      (by omega) k hk
    rw [hrun, intrExit_mem _ hexit, hmem', Function.update_of_ne, hkept]
    rw [← horigin hsame, above_add, above_add, above_add]
    intro heq
    have := above_inj (by omega) (by omega) heq
    omega

theorem syscall_returns_user :
    SameContext (userAtRest.setReg .eax 7)
      (((((makeIdtDesc 0xc0001500 0xee).raise userAtRest none).run
        (syscallHandler 0xc0002000 0xc0001600)).run [.movAl 7, .ret]).run syscallReturn) :=
  (syscall_returns (u := userAtRest)
    (s := ((makeIdtDesc 0xc0001500 0xee).raise userAtRest none).run (syscallHandler 0xc0002000 0xc0001600))
    (m := 0) rfl (by decide) (leaveSeven_cdecl _ 3 19) (by decide)).2.2.2.1

end Returns

end GwOS
