import Mathlib.Algebra.Group.Int.Defs
import Mathlib.Algebra.GroupWithZero.Nat
import Mathlib.Logic.Function.Basic
import Mathlib.Tactic.Common

/-!
# A part of IA-32

The registers, the stack and the control transfers of a 32-bit processor, as far as the entry and the
exit of a kernel use them. The memory is read and written by words, at addresses that are multiples of
four. A block of instructions runs from its first to its last one; `eip` is what a control transfer
has put into it.

- `Stacked`: the words of a stack, from an address upwards.
- `pushAll_stacked`: what a row of pushes leaves behind, and what it leaves alone.
- `Cdecl`: what a function that has been compiled keeps to.
- `interrupt_stacked`: the frame that the processor pushes when it is interrupted.
-/

namespace Ia32

abbrev Word := BitVec 32

inductive Reg where
  | eax | ecx | edx | ebx | esp | ebp | esi | edi
  deriving DecidableEq

inductive Seg where
  | cs | ds | es | fs | gs | ss
  deriving DecidableEq

/-- The processor and the memory. `esp0` and `ss0` are the stack of ring 0 in the TSS, and `outs` is
what has been sent to the ports. -/
@[ext]
structure Cpu where
  reg : Reg → Word
  seg : Seg → BitVec 16
  eip : Word
  eflags : Word
  mem : Word → Word
  esp0 : Word
  ss0 : BitVec 16
  outs : List (BitVec 16 × BitVec 8)

inductive Instr where
  | pushReg (r : Reg)
  | pushSeg (g : Seg)
  | pushImm (w : Word)
  | pushad
  | popReg (r : Reg)
  | popSeg (g : Seg)
  | popad
  /-- `mov r, [base + disp]` -/
  | load (r base : Reg) (disp : Word)
  /-- `mov [base + disp], r` -/
  | store (base : Reg) (disp : Word) (r : Reg)
  | add (r : Reg) (w : Word)
  | movAl (b : BitVec 8)
  | outAl (port : BitVec 16)
  /-- `call [table + index * 4]`; the next instruction is at `ret`. -/
  | call (table : Word) (index : Option Reg) (ret : Word)
  | ret
  | iretd

/-! ## Execution -/

namespace Cpu

def setReg (s : Cpu) (r : Reg) (w : Word) : Cpu := { s with reg := Function.update s.reg r w }

def setSeg (s : Cpu) (g : Seg) (w : BitVec 16) : Cpu := { s with seg := Function.update s.seg g w }

def esp (s : Cpu) : Word := s.reg .esp

def push (s : Cpu) (w : Word) : Cpu :=
  { s with
    reg := Function.update s.reg .esp (s.reg .esp - 4)
    mem := Function.update s.mem (s.reg .esp - 4) w }

/-- The word on top of the stack. -/
def top (s : Cpu) : Word := s.mem (s.reg .esp)

def drop (s : Cpu) : Cpu := s.setReg .esp (s.reg .esp + 4)

def popReg (s : Cpu) (r : Reg) : Cpu := s.drop.setReg r s.top

def popSeg (s : Cpu) (g : Seg) : Cpu := s.drop.setSeg g (s.top.truncate 16)

/-- The words are pushed one by one. -/
def pushAll (s : Cpu) (ws : List Word) : Cpu := ws.foldl push s

end Cpu

def ofSeg (g : BitVec 16) : Word := g.zeroExtend 32

/-- The privilege level of a selector. -/
def rpl (g : BitVec 16) : Nat := g.toNat % 4

def withBit (w : Word) (i : Nat) (b : Bool) : Word :=
  if b then w ||| ((1 : Word) <<< i) else w &&& ~~~((1 : Word) <<< i)

/-- The flags after `x + y`: CF, PF, AF, ZF, SF and OF. -/
def addFlags (x y flags : Word) : Word :=
  let r := x + y
  let flags := withBit flags 0 (2 ^ 32 ≤ x.toNat + y.toNat)
  let flags := withBit flags 2 (((List.range 8).countP r.getLsbD) % 2 = 0)
  let flags := withBit flags 4 (16 ≤ x.toNat % 16 + y.toNat % 16)
  let flags := withBit flags 6 (r = 0)
  let flags := withBit flags 7 r.msb
  withBit flags 11 (x.msb = y.msb ∧ r.msb ≠ x.msb)

namespace Cpu

/-- `iretd`. The stack pointer is popped as well when the return is to an outer level. The check of the
data segments on such a return is left out. -/
def iretd (s : Cpu) : Cpu :=
  let cs := s.drop.top.truncate 16
  let outer := s.drop.drop.drop
  let s' := if rpl (s.seg .cs) < rpl cs then
      (outer.setReg .esp outer.top).setSeg .ss (outer.drop.top.truncate 16)
    else outer
  { s' with eip := s.top, eflags := s.drop.drop.top, seg := Function.update s'.seg .cs cs }

def exec (s : Cpu) : Instr → Cpu
  | .pushReg r => s.push (s.reg r)
  | .pushSeg g => s.push (ofSeg (s.seg g))
  | .pushImm w => s.push w
  | .pushad => s.pushAll [s.reg .eax, s.reg .ecx, s.reg .edx, s.reg .ebx, s.reg .esp, s.reg .ebp,
      s.reg .esi, s.reg .edi]
  | .popReg r => s.popReg r
  | .popSeg g => s.popSeg g
  -- the stack pointer is not loaded
  | .popad => (((((((s.popReg .edi).popReg .esi).popReg .ebp).drop.popReg .ebx).popReg .edx).popReg
      .ecx).popReg .eax)
  | .load r base disp => s.setReg r (s.mem (s.reg base + disp))
  | .store base disp r => { s with mem := Function.update s.mem (s.reg base + disp) (s.reg r) }
  | .add r w => { s.setReg r (s.reg r + w) with eflags := addFlags (s.reg r) w s.eflags }
  | .movAl b => s.setReg .eax ((s.reg .eax &&& 0xffffff00) ||| b.zeroExtend 32)
  | .outAl port => { s with outs := s.outs ++ [(port, (s.reg .eax).truncate 8)] }
  | .call table index ret =>
    let offset := match index with
      | none => 0
      | some r => s.reg r * 4
    { s.push ret with eip := s.mem (table + offset) }
  | .ret => { s.drop with eip := s.top }
  | .iretd => s.iretd

/-- A block of instructions. -/
def run (s : Cpu) (is : List Instr) : Cpu := is.foldl exec s

/-- The stack is changed when an inner ring is entered. -/
def enter (s : Cpu) (cs : BitVec 16) : Cpu :=
  if rpl cs < rpl (s.seg .cs) then
    ((s.setReg .esp s.esp0).setSeg .ss s.ss0).pushAll [ofSeg (s.seg .ss), s.reg .esp]
  else s

/-- What is saved, with an error code for some exceptions. -/
def saved (s : Cpu) (cs : BitVec 16) (err : Option Word) : Cpu :=
  (s.enter cs).pushAll ([s.eflags, ofSeg (s.seg .cs), s.eip] ++ err.toList)

/-- The processor is interrupted, or it executes `int`: the gate has the selector `cs` and the address
`handler`. VM, RF, NT, IF and TF are cleared. -/
def interrupt (s : Cpu) (cs : BitVec 16) (handler : Word) (err : Option Word) : Cpu :=
  { (s.saved cs err).setSeg .cs cs with
    eip := handler
    eflags := s.eflags &&& ~~~(0x34300 : Word) }

end Cpu

/-! ## Stacks -/

/-- The words of a stack, from the address upwards. -/
def Stacked (m : Word → Word) : Word → List Word → Prop
  | _, [] => True
  | a, w :: ws => m a = w ∧ Stacked m (a + 4) ws

section Stacks

variable {m m' : Word → Word} {a w : Word} {ws ws' : List Word} {s s' : Cpu} {n : Nat}

/-- The address of a word above another one. -/
def above (a : Word) (k : Nat) : Word := a + BitVec.ofNat 32 (4 * k)

@[simp] theorem above_zero (a : Word) : above a 0 = a := BitVec.add_zero a

theorem above_succ (a : Word) (k : Nat) : above (a + 4) k = above a (k + 1) := by
  rw [above, above, BitVec.add_assoc]
  congr 1
  rw [Nat.mul_succ, Nat.add_comm, BitVec.ofNat_add]
  rfl

theorem above_add (a : Word) (j k : Nat) : above (above a j) k = above a (j + k) := by
  rw [above, above, above, BitVec.add_assoc, ← BitVec.ofNat_add, Nat.mul_add]

theorem above_cancel {a b : Word} {k : Nat} (h : above a k = above b k) : a = b := by
  have hsub := congrArg (· - BitVec.ofNat 32 (4 * k)) h
  simpa only [above, BitVec.add_sub_cancel] using hsub

theorem above_next (a : Word) (k : Nat) : above a k + 4 = above a (k + 1) := by
  rw [← above_add]
  rfl

theorem above_sub (a : Word) (k : Nat) : above (a - 4) (k + 1) = above a k := by
  rw [← above_succ, BitVec.sub_add_cancel]

theorem above_toNat_sub (a : Word) {k : Nat} (hk : 4 * k < 2 ^ 32) : (above a k - a).toNat = 4 * k := by
  rw [above, BitVec.add_comm, BitVec.add_sub_cancel, BitVec.toNat_ofNat, Nat.mod_eq_of_lt hk]

theorem above_inj {j k : Nat} (hj : 4 * j < 2 ^ 32) (hk : 4 * k < 2 ^ 32) (h : above a j = above a k) :
    j = k := by
  have hsub := above_toNat_sub a hj
  rw [h, above_toNat_sub a hk] at hsub
  omega

/-- The words by their numbers. -/
theorem stacked_iff : Stacked m a ws ↔ ∀ k (hk : k < ws.length), m (above a k) = ws.get ⟨k, hk⟩ := by
  induction ws generalizing a with
  | nil => exact ⟨fun _ k hk => absurd hk (Nat.not_lt_zero k), fun _ => trivial⟩
  | cons w ws ih =>
    constructor
    · rintro ⟨hw, hws⟩ k hk
      cases k with
      | zero => rwa [above_zero]
      | succ k =>
        rw [← above_succ]
        exact ih.mp hws k (Nat.lt_of_succ_lt_succ hk)
    · intro h
      refine ⟨?_, ih.mpr fun k hk => ?_⟩
      · have h0 := h 0 (Nat.succ_pos _)
        rwa [above_zero] at h0
      · rw [above_succ]
        exact h (k + 1) (Nat.succ_lt_succ hk)

/-- A stack depends on its words only. -/
theorem Stacked.congr (h : Stacked m a ws) (heq : ∀ k < ws.length, m' (above a k) = m (above a k)) :
    Stacked m' a ws :=
  stacked_iff.mpr fun k hk => (heq k hk).trans (stacked_iff.mp h k hk)

/-- One word is written. -/
theorem Stacked.set (h : Stacked m a ws) {j : Nat} (hj : j < ws.length) (hlen : 4 * ws.length < 2 ^ 32) :
    Stacked (Function.update m (above a j) w) a (ws.set j w) := by
  refine stacked_iff.mpr fun k hk => ?_
  rw [List.length_set] at hk
  rw [List.get_eq_getElem, List.getElem_set]
  by_cases he : j = k
  · subst he
    rw [if_pos rfl]
    exact Function.update_self ..
  · rw [if_neg he, Function.update_of_ne fun hkj => he (above_inj (by omega) (by omega) hkj).symm]
    exact stacked_iff.mp h k hk

theorem Stacked.cons {k : Nat} (hw : m (above a k) = w) (hws : Stacked m (above a (k + 1)) ws) :
    Stacked m (above a k) (w :: ws) := by
  refine ⟨hw, ?_⟩
  rwa [above_next]

instance decidableStacked (m : Word → Word) : ∀ (a : Word) (ws : List Word), Decidable (Stacked m a ws)
  | _, [] => .isTrue trivial
  | a, w :: ws =>
    have := decidableStacked m (a + 4) ws
    inferInstanceAs (Decidable (m a = w ∧ Stacked m (a + 4) ws))

/-- What the memory holds. -/
theorem stacked_range (m : Word → Word) (a : Word) (n : Nat) :
    Stacked m a ((List.range n).map fun k => m (above a k)) := by
  refine stacked_iff.mpr fun k hk => ?_
  rw [List.get_eq_getElem, List.getElem_map, List.getElem_range]

/-- Words are written one by one, at their numbers from an address on. -/
def writes (m : Word → Word) (a : Word) (l : List (Nat × Word)) : Word → Word :=
  l.foldl (fun m p => Function.update m (above a p.1) p.2) m

/-- The last write counts. -/
theorem writes_above (l : List (Nat × Word)) (hl : ∀ p ∈ l, 4 * p.1 < 2 ^ 32) {k : Nat}
    (hk : 4 * k < 2 ^ 32) : writes m a l (above a k) = (l.reverse.lookup k).getD (m (above a k)) := by
  induction l generalizing m with
  | nil => rfl
  | cons p l ih =>
    obtain ⟨j, v⟩ := p
    have hrest := ih (m := Function.update m (above a j) v) fun q hq => hl q (List.mem_cons_of_mem _ hq)
    have hj : 4 * j < 2 ^ 32 := hl (j, v) List.mem_cons_self
    rw [List.reverse_cons, List.lookup_append]
    refine hrest.trans ?_
    cases l.reverse.lookup k with
    | some w => rfl
    | none =>
      rw [Option.getD_none, Option.none_or, List.lookup_cons, List.lookup_nil]
      by_cases he : k = j
      · rw [he, Function.update_self, beq_self_eq_true]
        rfl
      · rw [Function.update_of_ne fun heq => he (above_inj hk hj heq), beq_eq_false_iff_ne.mpr he]
        rfl

theorem writes_outside (l : List (Nat × Word)) (h : ∀ p ∈ l, w ≠ above a p.1) : writes m a l w = m w := by
  induction l generalizing m with
  | nil => rfl
  | cons p l ih =>
    refine (ih fun q hq => h q (List.mem_cons_of_mem _ hq)).trans ?_
    exact Function.update_of_ne (h p List.mem_cons_self) ..

theorem stacked_append : Stacked m a (ws ++ ws') ↔
    Stacked m a ws ∧ Stacked m (above a ws.length) ws' := by
  induction ws generalizing a with
  | nil => simp [Stacked]
  | cons w ws ih =>
    rw [List.cons_append, Stacked, Stacked, ih, above_succ, List.length_cons, and_assoc]

theorem Stacked.drop (h : Stacked m a ws) (n : Nat) : Stacked m (above a n) (ws.drop n) := by
  refine stacked_iff.mpr fun k hk => ?_
  rw [List.length_drop] at hk
  rw [above_add, List.get_eq_getElem, List.getElem_drop]
  exact stacked_iff.mp h (n + k) (by omega)

/-! ## Pushing -/

@[simp] theorem push_esp (s : Cpu) (w : Word) : (s.push w).reg .esp = s.reg .esp - 4 := by
  rw [Cpu.push]
  exact Function.update_self Reg.esp _ s.reg

theorem push_reg (s : Cpu) (w : Word) {r : Reg} (hr : r ≠ .esp) : (s.push w).reg r = s.reg r :=
  Function.update_of_ne hr ..

@[simp] theorem push_seg (s : Cpu) (w : Word) : (s.push w).seg = s.seg := rfl

theorem push_above (s : Cpu) (w : Word) {k : Nat} (hk : 4 * (k + 1) < 2 ^ 32) :
    (s.push w).mem (above (s.reg .esp) k) = s.mem (above (s.reg .esp) k) := by
  refine Function.update_of_ne (fun he => ?_) ..
  rw [← above_sub] at he
  have hzero := above_inj (j := k + 1) (k := 0) hk (by decide) (he.trans (above_zero _).symm)
  omega

/-- **What a row of pushes does**: the words lie on the stack in the other order, and what was there
lies above them. -/
theorem pushAll_stacked (ws : List Word) (s : Cpu) (h : Stacked s.mem (s.reg .esp) ws')
    (hlen : 4 * (ws.length + ws'.length) ≤ 2 ^ 32) :
    Stacked (s.pushAll ws).mem ((s.pushAll ws).reg .esp) (ws.reverse ++ ws') := by
  induction ws generalizing s ws' with
  | nil => exact h
  | cons w ws ih =>
    rw [List.length_cons] at hlen
    rw [List.reverse_cons, List.append_assoc]
    have hnew : Stacked (s.push w).mem ((s.push w).reg .esp) (w :: ws') := by
      refine ⟨Function.update_self .., ?_⟩
      rw [push_esp, BitVec.sub_add_cancel]
      exact h.congr fun k hk => push_above s w (by omega)
    have hlen' : 4 * (ws.length + (w :: ws').length) ≤ 2 ^ 32 := by
      rw [List.length_cons]
      omega
    exact ih (s.push w) hnew hlen'

theorem pushAll_esp (ws : List Word) (s : Cpu) :
    above ((s.pushAll ws).reg .esp) ws.length = s.reg .esp := by
  induction ws generalizing s with
  | nil => exact above_zero _
  | cons w ws ih =>
    have hrest := ih (s.push w)
    rw [push_esp] at hrest
    rw [List.length_cons, ← above_add, above, show 4 * 1 = 4 from rfl]
    show above ((s.push w).pushAll ws |>.reg .esp) ws.length + _ = _
    rw [hrest]
    exact BitVec.sub_add_cancel ..

/-- The words above the stack pointer stay. -/
theorem pushAll_above (ws : List Word) (s : Cpu) {k : Nat} (hk : 4 * (ws.length + k) < 2 ^ 32) :
    (s.pushAll ws).mem (above (s.reg .esp) k) = s.mem (above (s.reg .esp) k) := by
  induction ws generalizing s k with
  | nil => rfl
  | cons w ws ih =>
    rw [List.length_cons] at hk
    have hrest := ih (s.push w) (k := k + 1) (by omega)
    rw [push_esp, above_sub] at hrest
    exact hrest.trans (push_above s w (by omega))

/-- The memory beside the words stays. -/
theorem pushAll_outside (ws : List Word) (s : Cpu)
    (h : ∀ k < ws.length, w ≠ above ((s.pushAll ws).reg .esp) k) : (s.pushAll ws).mem w = s.mem w := by
  induction ws generalizing s with
  | nil => rfl
  | cons v ws ih =>
    refine (ih (s.push v) fun k hk => h k (Nat.lt_succ_of_lt hk)).trans ?_
    have hv := h ws.length (Nat.lt_succ_self _)
    have hesp : above ((s.pushAll (v :: ws)).reg .esp) ws.length = (s.push v).reg .esp :=
      pushAll_esp ws (s.push v)
    rw [hesp, push_esp] at hv
    exact Function.update_of_ne hv ..

end Stacks

/-! ## Functions and interrupts -/

/-- What a function that has been compiled keeps to. It has been called with `args` words of arguments,
which it may write, and above them lie `room` words of the functions that have called it. -/
structure Cdecl (s s' : Cpu) (args room : Nat) : Prop where
  eip : s'.eip = s.top
  esp : s'.reg .esp = s.reg .esp + 4
  ebx : s'.reg .ebx = s.reg .ebx
  ebp : s'.reg .ebp = s.reg .ebp
  esi : s'.reg .esi = s.reg .esi
  edi : s'.reg .edi = s.reg .edi
  cs : s'.seg .cs = s.seg .cs
  ss : s'.seg .ss = s.seg .ss
  keeps : ∀ k < room, s'.mem (above (s.reg .esp) (args + 1 + k)) = s.mem (above (s.reg .esp) (args + 1 + k))

/-- The code that runs notices no difference. -/
structure SameContext (s s' : Cpu) : Prop where
  reg : s'.reg = s.reg
  seg : s'.seg = s.seg
  eip : s'.eip = s.eip
  eflags : s'.eflags = s.eflags

section Frames

variable {s s' : Cpu} {a : Word} {args : List Word} {ws : List Word}

/-- The caller finds its frame as it has left it. -/
theorem Cdecl.stacked (h : Cdecl s s' args.length ws.length)
    (hs : Stacked s.mem (s.reg .esp) (a :: (args ++ ws))) :
    s'.eip = a ∧ Stacked s'.mem (above (s'.reg .esp) args.length) ws := by
  obtain ⟨htop, hrest⟩ := hs
  refine ⟨h.eip.trans htop, ?_⟩
  have hws := (stacked_append.mp hrest).2
  rw [h.esp]
  refine hws.congr fun k hk => ?_
  rw [above_add, above_succ, Nat.add_right_comm]
  exact h.keeps k hk

/-- What the processor saves when it enters an inner ring. -/
def outerWords (s : Cpu) (cs : BitVec 16) : List Word :=
  if rpl cs < rpl (s.seg .cs) then [s.reg .esp, ofSeg (s.seg .ss)] else []

theorem outerWords_length (s : Cpu) (cs : BitVec 16) : (outerWords s cs).length ≤ 2 := by
  unfold outerWords
  split <;> simp

theorem run_append (s : Cpu) (is js : List Instr) : s.run (is ++ js) = (s.run is).run js :=
  List.foldl_append ..

theorem pushAll_append (s : Cpu) (ws ws' : List Word) :
    s.pushAll (ws ++ ws') = (s.pushAll ws).pushAll ws' := List.foldl_append ..

@[simp] theorem pushAll_seg (ws : List Word) (s : Cpu) : (s.pushAll ws).seg = s.seg := by
  induction ws generalizing s with
  | nil => rfl
  | cons w ws ih => exact ih (s.push w)

theorem pushAll_reg (ws : List Word) (s : Cpu) {r : Reg} (hr : r ≠ .esp) :
    (s.pushAll ws).reg r = s.reg r := by
  induction ws generalizing s with
  | nil => rfl
  | cons w ws ih => exact (ih (s.push w)).trans (push_reg s w hr)

theorem enter_stacked (s : Cpu) (cs : BitVec 16) :
    Stacked (s.enter cs).mem ((s.enter cs).reg .esp) (outerWords s cs) := by
  unfold Cpu.enter outerWords
  split
  · generalize (s.setReg .esp s.esp0).setSeg .ss s.ss0 = t
    have hnil : Stacked t.mem (t.reg .esp) [] := trivial
    have hlen : 4 * ([ofSeg (s.seg .ss), s.reg .esp].length + 0) ≤ 2 ^ 32 := by
      rw [List.length_cons, List.length_singleton]
      decide
    exact pushAll_stacked [ofSeg (s.seg .ss), s.reg .esp] t hnil hlen
  · exact trivial

theorem interrupt_mem (s : Cpu) (cs : BitVec 16) (handler : Word) (err : Option Word) :
    (s.interrupt cs handler err).mem = (s.saved cs err).mem := by
  simp only [Cpu.interrupt, Cpu.setSeg]

theorem interrupt_regs (s : Cpu) (cs : BitVec 16) (handler : Word) (err : Option Word) :
    (s.interrupt cs handler err).reg = (s.saved cs err).reg := by
  simp only [Cpu.interrupt, Cpu.setSeg]

/-- How far the stack of the interrupted code is away. -/
theorem interrupt_above (s : Cpu) (cs : BitVec 16) (handler : Word) (err : Option Word)
    (h : ¬ rpl cs < rpl (s.seg .cs)) :
    above ((s.interrupt cs handler err).reg .esp) (3 + err.toList.length) = s.reg .esp ∧
      (s.interrupt cs handler err).seg .ss = s.seg .ss := by
  have henter : s.enter cs = s := by rw [Cpu.enter, if_neg h]
  constructor
  · have hesp := pushAll_esp ([s.eflags, ofSeg (s.seg .cs), s.eip] ++ err.toList) (s.enter cs)
    rw [List.length_append, henter] at hesp
    rw [interrupt_regs, Cpu.saved, henter]
    exact hesp
  · simp only [Cpu.interrupt, Cpu.setSeg, Cpu.saved, henter, pushAll_seg, ne_eq, reduceCtorEq,
      not_false_eq_true, Function.update_of_ne]

/-- The frame lies at the end of the stack of ring 0 when that is entered. -/
theorem interrupt_esp0 (s : Cpu) (cs : BitVec 16) (handler : Word) (err : Option Word)
    (h : rpl cs < rpl (s.seg .cs)) :
    above ((s.interrupt cs handler err).reg .esp) (5 + err.toList.length) = s.esp0 := by
  have hesp := pushAll_esp ([s.eflags, ofSeg (s.seg .cs), s.eip] ++ err.toList) (s.enter cs)
  have hesp' := pushAll_esp [ofSeg (s.seg .ss), s.reg .esp] ((s.setReg .esp s.esp0).setSeg .ss s.ss0)
  have henter : s.enter cs = ((s.setReg .esp s.esp0).setSeg .ss s.ss0).pushAll
      [ofSeg (s.seg .ss), s.reg .esp] := by rw [Cpu.enter, if_pos h]
  rw [← henter, ← hesp, above_add, List.length_append] at hesp'
  rw [interrupt_regs, Cpu.saved]
  have hzero : ((s.setReg .esp s.esp0).setSeg .ss s.ss0).reg .esp = s.esp0 := by
    simp only [Cpu.setReg, Cpu.setSeg, Function.update_self]
  refine Eq.trans ?_ (hesp'.trans hzero)
  congr 1
  simp only [List.length_cons, List.length_nil]
  omega

/-- The stack of the interrupted code stays when no other one is entered. -/
theorem interrupt_keeps (s : Cpu) (cs : BitVec 16) (handler : Word) (err : Option Word) {k : Nat}
    (h : ¬ rpl cs < rpl (s.seg .cs)) (hk : 4 * (4 + k) < 2 ^ 32) :
    (s.interrupt cs handler err).mem (above (s.reg .esp) k) = s.mem (above (s.reg .esp) k) := by
  have henter : s.enter cs = s := by rw [Cpu.enter, if_neg h]
  have hlen : ([s.eflags, ofSeg (s.seg .cs), s.eip] ++ err.toList).length ≤ 4 := by cases err <;> simp
  rw [interrupt_mem, Cpu.saved, henter]
  exact pushAll_above _ s (by omega)

/-- **The frame of an interrupt.** -/
theorem interrupt_stacked (s : Cpu) (cs : BitVec 16) (handler : Word) (err : Option Word) :
    Stacked (s.interrupt cs handler err).mem ((s.interrupt cs handler err).reg .esp)
      (err.toList ++ ([s.eip, ofSeg (s.seg .cs), s.eflags] ++ outerWords s cs)) := by
  have hlen : err.toList.length ≤ 1 := by cases err <;> simp
  have hout := outerWords_length s cs
  have hall := pushAll_stacked ([s.eflags, ofSeg (s.seg .cs), s.eip] ++ err.toList) (s.enter cs)
    (enter_stacked s cs) (by rw [List.length_append]; simp only [List.length_cons, List.length_nil]; omega)
  have hrev : ([s.eflags, ofSeg (s.seg .cs), s.eip] ++ err.toList).reverse =
      err.toList ++ [s.eip, ofSeg (s.seg .cs), s.eflags] := by
    cases err <;> rfl
  rw [hrev, List.append_assoc] at hall
  rw [interrupt_mem, interrupt_regs]
  exact hall

/-- The memory beside the frame stays. -/
theorem interrupt_outside (s : Cpu) (cs : BitVec 16) (handler : Word) (err : Option Word) {w : Word}
    (h : ∀ k < 6, w ≠ above ((s.interrupt cs handler err).reg .esp) k) :
    (s.interrupt cs handler err).mem w = s.mem w := by
  generalize hws : [s.eflags, ofSeg (s.seg .cs), s.eip] ++ err.toList = ws
  have hlen : ws.length ≤ 4 := by
    rw [← hws]
    cases err <;> simp
  have hsaved : s.saved cs err = (s.enter cs).pushAll ws := by rw [← hws]; rfl
  have hesp := pushAll_esp ws (s.enter cs)
  rw [interrupt_regs, hsaved] at h
  rw [interrupt_mem, hsaved, pushAll_outside ws _ fun k hk => h k (by omega)]
  revert hesp
  unfold Cpu.enter
  split
  · intro hesp
    refine pushAll_outside _ _ fun k hk => ?_
    rw [← hesp, above_add]
    rw [List.length_cons, List.length_singleton] at hk
    rw [Cpu.enter, if_pos ‹_›] at h
    exact h _ (by omega)
  · exact fun _ => rfl

theorem enter_reg (s : Cpu) (cs : BitVec 16) {r : Reg} (hr : r ≠ .esp) : (s.enter cs).reg r = s.reg r := by
  unfold Cpu.enter
  split
  · exact (pushAll_reg _ _ hr).trans (Function.update_of_ne hr _ s.reg)
  · rfl

theorem interrupt_reg (s : Cpu) (cs : BitVec 16) (handler : Word) (err : Option Word) {r : Reg}
    (hr : r ≠ .esp) : (s.interrupt cs handler err).reg r = s.reg r := by
  rw [interrupt_regs, Cpu.saved, pushAll_reg _ _ hr, enter_reg s cs hr]

/-- The selectors of the data stay. -/
theorem interrupt_seg (s : Cpu) (cs : BitVec 16) (handler : Word) (err : Option Word) {g : Seg}
    (hcs : g ≠ .cs) (hss : g ≠ .ss) : (s.interrupt cs handler err).seg g = s.seg g := by
  have henter : (s.enter cs).seg g = s.seg g := by
    unfold Cpu.enter
    split
    · rw [pushAll_seg]
      exact Function.update_of_ne hss _ s.seg
    · rfl
  have hsaved : (s.saved cs err).seg g = s.seg g := by rw [Cpu.saved, pushAll_seg, henter]
  simp only [Cpu.interrupt, Cpu.setSeg]
  rw [Function.update_of_ne hcs, hsaved]

theorem interrupt_cs (s : Cpu) (cs : BitVec 16) (handler : Word) (err : Option Word) :
    (s.interrupt cs handler err).seg .cs = cs := by
  simp only [Cpu.interrupt, Cpu.setSeg, Function.update_self]

theorem Cdecl.mono {args room room' : Nat} (h : Cdecl s s' args room) (hroom : room' ≤ room) :
    Cdecl s s' args room' :=
  { h with keeps := fun k hk => h.keeps k (Nat.lt_of_lt_of_le hk hroom) }

@[simp] theorem pushAll_outs (ws : List Word) (s : Cpu) : (s.pushAll ws).outs = s.outs := by
  induction ws generalizing s with
  | nil => rfl
  | cons w ws ih => exact ih (s.push w)

theorem interrupt_outs (s : Cpu) (cs : BitVec 16) (handler : Word) (err : Option Word) :
    (s.interrupt cs handler err).outs = s.outs := by
  have henter : (s.enter cs).outs = s.outs := by
    unfold Cpu.enter
    split
    · rw [pushAll_outs]
      rfl
    · rfl
  simp only [Cpu.interrupt, Cpu.setSeg, Cpu.saved, pushAll_outs, henter]

/-- A function that returns at once. -/
theorem ret_cdecl (s : Cpu) (args room : Nat) : Cdecl s (s.run [.ret]) args room := by
  have hreg : (s.run [.ret]).reg = Function.update s.reg .esp (s.reg .esp + 4) := rfl
  have hkept : ∀ r, r ≠ .esp → (s.run [.ret]).reg r = s.reg r := fun r hr => by
    rw [hreg, Function.update_of_ne hr]
  have hesp : (s.run [.ret]).reg .esp = s.reg .esp + 4 := by rw [hreg, Function.update_self]
  exact ⟨rfl, hesp, hkept .ebx nofun, hkept .ebp nofun, hkept .esi nofun, hkept .edi nofun, rfl, rfl,
    fun _ _ => rfl⟩

/-- A function may use `eax` as it likes. -/
theorem Cdecl.of_eax {args room : Nat} {w : Word} (h : Cdecl (s.setReg .eax w) s' args room) :
    Cdecl s s' args room := by
  have hkept : ∀ r, r ≠ .eax → (s.setReg .eax w).reg r = s.reg r := fun r hr =>
    Function.update_of_ne hr ..
  have hesp := hkept .esp (by decide)
  constructor
  · exact h.eip.trans (congrArg s.mem hesp)
  · rw [h.esp, hesp]
  · exact h.ebx.trans (hkept .ebx (by decide))
  · exact h.ebp.trans (hkept .ebp (by decide))
  · exact h.esi.trans (hkept .esi (by decide))
  · exact h.edi.trans (hkept .edi (by decide))
  · exact h.cs
  · exact h.ss
  · intro k hk
    have hmem := h.keeps k hk
    rw [hesp] at hmem
    exact hmem

end Frames

end Ia32
