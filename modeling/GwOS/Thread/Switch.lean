import GwOS.Kernel.Entry

/-!
# The switch of the stacks (`thread/switch.asm`)

A thread that does not run has its stack at the end of its page, and `self_kstack` names the top of it.
The first stack of a thread is made by `thread_create` or, for a child, by `fork`.

- `Parked`: such a stack. What is written in other pages leaves it as it is.
- `Calls.parked`: a thread that calls `switch_to` leaves one behind.
- `Calls.run`: what `switch_to` does on the stack of the next thread.
- `threadCreate_parked`, `buildChildStack_parked`: the first stacks.
-/

namespace GwOS

open Ia32

/-! ## The code -/

/-- `switch_to`: the function is called with the `struct pcb` of the thread that runs and that of the
next one. -/
def switchTo : List Instr :=
  [.pushReg .esi, .pushReg .edi, .pushReg .ebx, .pushReg .ebp,
    .load .eax .esp 20, .store .eax 0 .esp,
    .load .eax .esp 24, .load .esp .eax 0,
    .popReg .ebp, .popReg .ebx, .popReg .edi, .popReg .esi, .ret]

/-- `sizeof(struct intr_stack)` -/
def intrStackSize : Word := 76

/-- `sizeof(struct thread_stack)` -/
def threadStackSize : Word := 32

/-- `init_thread` sets `self_kstack` to the end of the page. -/
def initKstack (mem : Word → Word) (thread : Word) : Word → Word :=
  Function.update mem thread (thread + 4096)

/-- `thread_create`; `kernelThread` is the address of `kernel_thread`. `self_kstack` is a pointer to
words, so that it moves by four bytes for each byte of the two structures. -/
def threadCreate (kernelThread : Word) (mem : Word → Word) (thread func funcArg : Word) : Word → Word :=
  let mem := Function.update mem thread (mem thread - 4 * intrStackSize)
  let mem := Function.update mem thread (mem thread - 4 * threadStackSize)
  let ks := mem thread
  let mem := Function.update mem (ks + 16) kernelThread
  let mem := Function.update mem (ks + 24) func
  let mem := Function.update mem (ks + 28) funcArg
  let mem := Function.update mem ks 0
  let mem := Function.update mem (ks + 4) 0
  let mem := Function.update mem (ks + 12) 0
  Function.update mem (ks + 8) 0

/-- `memcpy(child, parent, PG_SIZE)` -/
def copyPage (mem : Word → Word) (child parent : Word) : Word → Word :=
  fun w => if (w - child).toNat < 4096 then mem (parent + (w - child)) else mem w

/-- `build_child_stack`; `intrExitAddr` is the address of `intr_exit`. -/
def buildChildStack (intrExitAddr : Word) (mem : Word → Word) (child : Word) : Word → Word :=
  let intrStack := child + 4096 - intrStackSize
  let mem := Function.update mem (intrStack + 32) 0
  let mem := Function.update mem (intrStack - 4) intrExitAddr
  let mem := Function.update mem (intrStack - 8) 0
  let mem := Function.update mem (intrStack - 12) 0
  let mem := Function.update mem (intrStack - 16) 0
  let mem := Function.update mem (intrStack - 20) 0
  Function.update mem child (intrStack - 20)

/-! ## Stacks in pages -/

section Pages

variable {m m' : Word → Word} {t t' w : Word} {ws : List Word} {j k : Nat}

/-- A thread that does not run: `self_kstack` is its stack pointer, and the words lie from there up to
the end of its page. -/
structure Parked (m : Word → Word) (t : Word) (ws : List Word) : Prop where
  pos : 0 < ws.length
  room : ws.length < 1024
  kstack : m t = above t (1024 - ws.length)
  words : Stacked m (above t (1024 - ws.length)) ws

/-- What a thread that does not run leaves in its page: `self_kstack` and the stack. -/
def Held (m : Word → Word) (t w : Word) : Prop :=
  w = t ∨ ((m t).toNat ≤ w.toNat ∧ w.toNat < t.toNat + 4096)

theorem above_page (ht : t.toNat % 4096 = 0) (hj : j < 1024) : (above t j).toNat = t.toNat + 4 * j := by
  have htlt := t.isLt
  rw [above, BitVec.toNat_add, BitVec.toNat_ofNat]
  omega

/-- The pages of two threads do not meet. -/
theorem above_page_inj (ht : t.toNat % 4096 = 0) (ht' : t'.toNat % 4096 = 0) (hj : j < 1024) (hk : k < 1024)
    (h : above t j = above t' k) : t = t' ∧ j = k := by
  have htoNat := congrArg BitVec.toNat h
  rw [above_page ht hj, above_page ht' hk] at htoNat
  exact ⟨BitVec.eq_of_toNat_eq (by omega), by omega⟩

theorem above_page_ne_self (ht : t.toNat % 4096 = 0) (ht' : t'.toNat % 4096 = 0) (hj : 0 < j)
    (hj' : j < 1024) : above t j ≠ t' := by
  intro h
  have hzero := (above_page_inj (k := 0) ht ht' hj' (by decide) (h.trans (above_zero t').symm)).2
  omega

/-- The words of a thread that does not run. -/
theorem Parked.held (h : Parked m t ws) (ht : t.toNat % 4096 = 0) {k : Nat} (hk : k < ws.length) :
    Held m t (above (above t (1024 - ws.length)) k) := by
  have hroom := h.room
  rw [above_add, Held, h.kstack, above_page ht (by omega), above_page ht (by omega)]
  exact .inr ⟨by omega, by omega⟩

theorem Parked.congr (h : Parked m t ws) (ht : t.toNat % 4096 = 0) (heq : ∀ w, Held m t w → m' w = m w) :
    Parked m' t ws where
  pos := h.pos
  room := h.room
  kstack := (heq t (.inl rfl)).trans h.kstack
  words := h.words.congr fun _ hk => heq _ (h.held ht hk)

/-- The words of a thread that does not run are in no other page. -/
theorem Parked.outside (h : Parked m t ws) (ht : t.toNat % 4096 = 0) (ht' : t'.toNat % 4096 = 0)
    (hne : t' ≠ t) (hw : Held m t w) : 4096 ≤ (w - t').toNat := by
  have hpos := h.pos
  have hroom := h.room
  have hne' : t'.toNat ≠ t.toNat := fun he => hne (BitVec.eq_of_toNat_eq he)
  have htlt := t.isLt
  have htlt' := t'.isLt
  have hwlt := w.isLt
  have hpage : t.toNat ≤ w.toNat ∧ w.toNat < t.toNat + 4096 := by
    obtain rfl | ⟨hlow, hhigh⟩ := hw
    · omega
    · rw [h.kstack, above_page ht (Nat.sub_lt (by decide) hpos)] at hlow
      omega
  rw [BitVec.toNat_sub]
  omega

theorem ne_above_page (hw : 4096 ≤ (w - t).toNat) (hj : j < 1024) : w ≠ above t j := by
  intro he
  rw [he, above_toNat_sub t (by omega)] at hw
  omega

end Pages

/-! ## `switch_to` -/

section Switch

variable {s : Cpu} {now next ret t w ebp ebx edi esi eip : Word} {ws rest : List Word}

/-- `switch_to(now, next)` has been called on the stack of the thread `now`; above the arguments lie
the words of the functions that have called it. -/
structure Calls (s : Cpu) (now next ret : Word) (rest : List Word) : Prop where
  args : Stacked s.mem (s.reg .esp) (ret :: now :: next :: rest)
  place : s.reg .esp = above now (1021 - rest.length)
  room : rest.length ≤ 1016
  page : now.toNat % 4096 = 0

/-- The four registers are pushed. -/
def pushSaved (s : Cpu) : Cpu := s.pushAll [s.reg .esi, s.reg .edi, s.reg .ebx, s.reg .ebp]

/-- The memory when the stack is changed. -/
def parkedMem (s : Cpu) (now : Word) : Word → Word :=
  Function.update (pushSaved s).mem now ((pushSaved s).reg .esp)

/-- The words that a thread has on its stack after it has given the processor away. -/
def callWords (s : Cpu) (now next ret : Word) (rest : List Word) : List Word :=
  [s.reg .ebp, s.reg .ebx, s.reg .edi, s.reg .esi, ret, now, next] ++ rest

theorem Calls.esp (h : Calls s now next ret rest) :
    (pushSaved s).reg .esp = above now (1017 - rest.length) := by
  have hroom := h.room
  have hesp := pushAll_esp [s.reg .esi, s.reg .edi, s.reg .ebx, s.reg .ebp] s
  refine above_cancel (k := 4) (hesp.trans ?_)
  rw [h.place, above_add]
  congr 1
  omega

theorem Calls.pushed (h : Calls s now next ret rest) :
    Stacked (pushSaved s).mem (above now (1017 - rest.length)) (callWords s now next ret rest) := by
  have hroom := h.room
  have hall := pushAll_stacked [s.reg .esi, s.reg .edi, s.reg .ebx, s.reg .ebp] s h.args
    (by simp only [List.length_cons, List.length_nil]; omega)
  rw [← h.esp]
  exact hall

/-- What is written lies in the page of the thread. -/
theorem Calls.outside (h : Calls s now next ret rest) (hw : 4096 ≤ (w - now).toNat) :
    parkedMem s now w = s.mem w := by
  have hroom := h.room
  have hnow := ne_above_page (j := 0) hw (by decide)
  rw [above_zero] at hnow
  rw [parkedMem, Function.update_of_ne hnow]
  refine pushAll_outside _ s fun k hk => ?_
  have hesp : (s.pushAll [s.reg .esi, s.reg .edi, s.reg .ebx, s.reg .ebp]).reg .esp = _ := h.esp
  rw [hesp, above_add]
  simp only [List.length_cons, List.length_nil] at hk
  exact ne_above_page hw (by omega)

/-- The thread that gives the processor away can be resumed. -/
theorem Calls.parked (h : Calls s now next ret rest) :
    Parked (parkedMem s now) now (callWords s now next ret rest) := by
  have hroom := h.room
  have hlen : (callWords s now next ret rest).length = rest.length + 7 := by
    simp only [callWords, List.length_append, List.length_cons, List.length_nil]
    omega
  have hplace : 1024 - (rest.length + 7) = 1017 - rest.length := by omega
  constructor
  · omega
  · omega
  · rw [hlen, hplace, ← h.esp]
    exact Function.update_self ..
  · rw [hlen, hplace]
    refine h.pushed.congr fun k hk => Function.update_of_ne ?_ ..
    rw [above_add]
    exact above_page_ne_self h.page h.page (by omega) (by omega)

/-- The other threads stay as they are. -/
theorem Calls.others (h : Calls s now next ret rest) (ht : t.toNat % 4096 = 0) (hne : now ≠ t)
    (hp : Parked s.mem t ws) : Parked (parkedMem s now) t ws :=
  hp.congr ht fun _ hw => h.outside (hp.outside ht h.page hne hw)

/-- The code of `switch_to` as a whole: the registers are loaded from the stack of the next thread. -/
theorem Calls.exec (h : Calls s now next ret rest) {m : Word → Word} (hm : parkedMem s now = m) :
    (s.run switchTo).eip = m (m next + 4 + 4 + 4 + 4) ∧ (s.run switchTo).mem = m ∧
      (s.run switchTo).seg = s.seg ∧ (s.run switchTo).reg .esp = m next + 4 + 4 + 4 + 4 + 4 ∧
      (s.run switchTo).reg .ebp = m (m next) ∧ (s.run switchTo).reg .ebx = m (m next + 4) ∧
      (s.run switchTo).reg .edi = m (m next + 4 + 4) ∧
      (s.run switchTo).reg .esi = m (m next + 4 + 4 + 4) := by
  obtain ⟨-, -, -, -, -, hnow, hnext, -⟩ := h.pushed
  rw [← h.esp] at hnow hnext
  unfold parkedMem at hm
  have hrun : s.run switchTo = (pushSaved s).run [.load .eax .esp 20, .store .eax 0 .esp,
      .load .eax .esp 24, .load .esp .eax 0,
      .popReg .ebp, .popReg .ebx, .popReg .edi, .popReg .esi, .ret] := by
    simp only [switchTo, pushSaved, Cpu.run, List.foldl_cons, List.foldl_nil, Cpu.exec, Cpu.pushAll,
      push_reg, ne_eq, reduceCtorEq, not_false_eq_true]
  have hseg : (pushSaved s).seg = s.seg := pushAll_seg _ s
  -- the second argument lies above the word that has been written
  have hne : (pushSaved s).reg .esp + 24 ≠ now := by
    have hroom := h.room
    rw [h.esp]
    exact fun he => above_page_ne_self (j := 1017 - rest.length + 6) h.page h.page (by omega) (by omega)
      ((above_add now _ 6).symm.trans he)
  have hnext' : m ((pushSaved s).reg .esp + 24) = next := by
    rw [← hm, Function.update_of_ne hne, ← hnext]
    simp only [BitVec.add_assoc]
    rfl
  have hnow' : (pushSaved s).mem ((pushSaved s).reg .esp + 20) = now := by
    rw [← hnow]
    simp only [BitVec.add_assoc]
    rfl
  have hzero : ∀ w : Word, w + 0 = w := BitVec.add_zero
  rw [hrun]
  generalize pushSaved s = t at *
  simp only [Cpu.run, List.foldl_cons, List.foldl_nil, Cpu.exec, Cpu.popReg, Cpu.drop, Cpu.top,
    Cpu.setReg, Function.update_self, ne_eq, reduceCtorEq, not_false_eq_true, Function.update_of_ne,
    hnow', hzero, hm, hnext']
  exact ⟨trivial, trivial, hseg, trivial, trivial, trivial, trivial, trivial⟩

/-- **`switch_to`** goes on where the next thread has left off. -/
theorem Calls.run (h : Calls s now next ret rest)
    (hp : Parked (parkedMem s now) next ([ebp, ebx, edi, esi, eip] ++ ws)) :
    (s.run switchTo).eip = eip ∧ (s.run switchTo).seg = s.seg ∧
      (s.run switchTo).reg .esp = above next (1024 - ws.length) ∧ (s.run switchTo).reg .ebp = ebp ∧
      (s.run switchTo).reg .ebx = ebx ∧ (s.run switchTo).reg .edi = edi ∧
      (s.run switchTo).reg .esi = esi := by
  have hlen : 1024 - ([ebp, ebx, edi, esi, eip] ++ ws).length + 5 = 1024 - ws.length := by
    have hroom := hp.room
    simp only [List.length_append, List.length_cons, List.length_nil] at hroom ⊢
    omega
  obtain ⟨heip, -, hseg, hesp, hebp, hebx, hedi, hesi⟩ := h.exec rfl
  have hwords := hp.words
  rw [← hp.kstack] at hwords
  obtain ⟨h1, h2, h3, h4, h5, -⟩ := hwords
  refine ⟨heip.trans h5, hseg, ?_, hebp.trans h1, hebx.trans h2, hedi.trans h3, hesi.trans h4⟩
  rw [hesp, hp.kstack, ← hlen, ← above_add]
  simp only [BitVec.add_assoc]
  rfl

/-- The rest of the stack of the next thread. -/
theorem Calls.stack (h : Calls s now next ret rest)
    (hp : Parked (parkedMem s now) next ([ebp, ebx, edi, esi, eip] ++ ws)) :
    Stacked (s.run switchTo).mem ((s.run switchTo).reg .esp) ws := by
  obtain ⟨-, hmem, -⟩ := h.exec rfl
  obtain ⟨-, -, hesp, -⟩ := h.run hp
  have hafter := (stacked_append.mp hp.words).2
  have hroom := hp.room
  have hplace : 1024 - ([ebp, ebx, edi, esi, eip] ++ ws).length + [ebp, ebx, edi, esi, eip].length =
      1024 - ws.length := by
    simp only [List.length_append, List.length_cons, List.length_nil] at hroom ⊢
    omega
  rw [above_add, hplace] at hafter
  rwa [hmem, hesp]

end Switch

/-! ## The first switch to a thread -/

section First

variable {m : Word → Word} {t p w : Word} {ws : List Word} {j : Nat}

/-- Where `thread_create` writes. -/
theorem threadCreate_eq (m : Word → Word) (kernelThread t func arg : Word) :
    threadCreate kernelThread (initKstack m t) t func arg =
      writes m t [(0, above t 916), (920, kernelThread), (922, func), (923, arg), (916, 0), (917, 0),
        (919, 0), (918, 0)] := by
  have hks : t + 4096 - 4 * intrStackSize - 4 * threadStackSize = above t 916 := by
    rw [intrStackSize, threadStackSize, above]
    bv_omega
  have h4 : above t 916 + 4 = above t 917 := above_add t 916 1
  have h8 : above t 916 + 8 = above t 918 := above_add t 916 2
  have h12 : above t 916 + 12 = above t 919 := above_add t 916 3
  have h16 : above t 916 + 16 = above t 920 := above_add t 916 4
  have h24 : above t 916 + 24 = above t 922 := above_add t 916 6
  have h28 : above t 916 + 28 = above t 923 := above_add t 916 7
  simp only [threadCreate, initKstack, Function.update_self, Function.update_idem, hks, h4, h8,
    h12, h16, h24, h28, writes, List.foldl_cons, List.foldl_nil, above_zero]

/-- A page is written, and the other ones are not. -/
theorem writes_page (l : List (Nat × Word)) (hl : (l.map Prod.fst).all (· < 1024) = true) :
    (∀ k < 1024, writes m t l (above t k) = (l.reverse.lookup k).getD (m (above t k))) ∧
      ∀ w, 4096 ≤ (w - t).toNat → writes m t l w = m w := by
  have hsmall : ∀ p ∈ l, p.1 < 1024 := fun p hp =>
    of_decide_eq_true (List.all_eq_true.mp hl p.1 (List.mem_map_of_mem hp))
  constructor
  · intro k hk
    refine writes_above l (fun p hp => ?_) (by omega)
    have hp' := hsmall p hp
    omega
  · exact fun w hw => writes_outside l fun p hp => ne_above_page hw (hsmall p hp)

theorem threadCreate_outside (m : Word → Word) (kernelThread t func arg : Word)
    (hw : 4096 ≤ (w - t).toNat) : threadCreate kernelThread (initKstack m t) t func arg w = m w := by
  rw [threadCreate_eq]
  exact (writes_page _ rfl).2 w hw

/-- A thread that has been created returns to `kernel_thread`, which finds its arguments. -/
theorem threadCreate_parked (m : Word → Word) (kernelThread t func arg : Word) :
    ∃ unused tail, tail.length = 100 ∧
      Parked (threadCreate kernelThread (initKstack m t) t func arg) t
        ([0, 0, 0, 0, kernelThread] ++ ([unused, func, arg] ++ tail)) := by
  rw [threadCreate_eq]
  generalize hm' : writes m t _ = m'
  have hword := (writes_page (m := m) (t := t) [(0, above t 916), (920, kernelThread), (922, func),
    (923, arg), (916, 0), (917, 0), (919, 0), (918, 0)] rfl).1
  rw [hm'] at hword
  have hself := hword 0 (by decide)
  rw [above_zero] at hself
  refine ⟨m' (above t 921), (List.range 100).map fun k => m' (above (above (above t 916) 8) k), ?_, ?_⟩
  · rw [List.length_map, List.length_range]
  · constructor
    · exact Nat.succ_pos _
    · simp only [List.length_append, List.length_cons, List.length_map, List.length_range]
      decide
    · exact hself
    · rw [← List.append_assoc, List.length_append, List.length_map, List.length_range]
      refine stacked_append.mpr ⟨?_, stacked_range m' _ 100⟩
      show Stacked m' (above t 916) _
      refine .cons (hword 916 (by decide)) (.cons (hword 917 (by decide)) ?_)
      refine .cons (hword 918 (by decide)) (.cons (hword 919 (by decide)) ?_)
      refine .cons (hword 920 (by decide)) (.cons rfl ?_)
      exact .cons (hword 922 (by decide)) (.cons (hword 923 (by decide)) trivial)

/-- Where `build_child_stack` writes. -/
theorem buildChildStack_eq (m : Word → Word) (intrExitAddr t : Word) :
    buildChildStack intrExitAddr m t =
      writes m t [(1013, 0), (1004, intrExitAddr), (1003, 0), (1002, 0), (1001, 0), (1000, 0),
        (0, above t 1000)] := by
  have hbase : t + 4096 - intrStackSize = above t 1005 := by
    rw [intrStackSize, above]
    bv_omega
  have h32 : above t 1005 + 32 = above t 1013 := above_add t 1005 8
  have h4 : above t 1005 - 4 = above t 1004 := by rw [above, above]; bv_omega
  have h8 : above t 1005 - 8 = above t 1003 := by rw [above, above]; bv_omega
  have h12 : above t 1005 - 12 = above t 1002 := by rw [above, above]; bv_omega
  have h16 : above t 1005 - 16 = above t 1001 := by rw [above, above]; bv_omega
  have h20 : above t 1005 - 20 = above t 1000 := by rw [above, above]; bv_omega
  simp only [buildChildStack, hbase, h32, h4, h8, h12, h16, h20, writes, List.foldl_cons, List.foldl_nil,
    above_zero]

theorem copyPage_above (m : Word → Word) (t p : Word) (hj : j < 1024) :
    copyPage m t p (above t j) = m (above p j) := by
  have hoff : above t j - t = BitVec.ofNat 32 (4 * j) := by
    rw [above, BitVec.add_comm, BitVec.add_sub_cancel]
  have hlt : (BitVec.ofNat 32 (4 * j)).toNat < 4096 := by
    rw [BitVec.toNat_ofNat, Nat.mod_eq_of_lt (by omega)]
    omega
  rw [copyPage, hoff, if_pos hlt, above]

theorem buildChildStack_outside (m : Word → Word) (intrExitAddr t p : Word)
    (hw : 4096 ≤ (w - t).toNat) : buildChildStack intrExitAddr (copyPage m t p) t w = m w := by
  rw [buildChildStack_eq]
  refine ((writes_page _ rfl).2 w hw).trans ?_
  rw [copyPage, if_neg (Nat.not_lt.mpr hw)]

/-- The child of `fork` returns to `intr_exit`, which finds the frame of its parent with 0 in `eax`. -/
theorem buildChildStack_parked {u : Cpu} {v e d intrExitAddr p : Word} (huser : rpl (u.seg .cs) = 3)
    (h : Stacked m (above p 1005) ((IntrStack.of u v e d).words ++ outerWords u selectorKernelCode)) :
    Parked (buildChildStack intrExitAddr (copyPage m t p) t) t
      ([0, 0, 0, 0, intrExitAddr] ++
        ((IntrStack.of (u.setReg .eax 0) v e d).words ++ outerWords u selectorKernelCode)) := by
  have hout : (outerWords u selectorKernelCode).length = 2 := by
    rw [outerWords, rpl_kernelCode, huser]
    rfl
  rw [buildChildStack_eq]
  generalize hm' : writes (copyPage m t p) t _ = m'
  have hword := (writes_page (m := copyPage m t p) (t := t) [(1013, 0), (1004, intrExitAddr), (1003, 0),
    (1002, 0), (1001, 0), (1000, 0), (0, above t 1000)] rfl).1
  rw [hm'] at hword
  have hself := hword 0 (by decide)
  rw [above_zero] at hself
  have hlen : ([0, 0, 0, 0, intrExitAddr] ++ ((IntrStack.of (u.setReg .eax 0) v e d).words ++
      outerWords u selectorKernelCode)).length = 24 := by
    rw [List.length_append, List.length_append, hout]
    rfl
  have hframe : Stacked m' (above t 1005)
      ((IntrStack.of (u.setReg .eax 0) v e d).words ++ outerWords u selectorKernelCode) := by
    have hset : (IntrStack.of (u.setReg .eax 0) v e d).words ++ outerWords u selectorKernelCode =
        ((IntrStack.of u v e d).words ++ outerWords u selectorKernelCode).set 8 0 := rfl
    have hlen : ((IntrStack.of u v e d).words ++ outerWords u selectorKernelCode).length = 19 := by
      rw [List.length_append, hout]
      rfl
    -- the frame is a copy of that of the parent but for the word that is written in it
    have hcopy : Stacked (copyPage m t p) (above t 1005)
        ((IntrStack.of u v e d).words ++ outerWords u selectorKernelCode) := by
      refine stacked_iff.mpr fun k hk => ?_
      rw [above_add, copyPage_above m t p (by omega), ← above_add]
      exact stacked_iff.mp h k hk
    have hlookup : ∀ k < 19, k ≠ 8 → List.lookup (1005 + k) [(1013, 0), (1004, intrExitAddr), (1003, 0),
        (1002, 0), (1001, 0), (1000, 0), (0, above t 1000)].reverse = none := by
      intro k hk hne
      interval_cases k <;> first | rfl | exact absurd rfl hne
    rw [hset]
    refine Stacked.congr (hcopy.set (by omega) (by omega)) fun k hk => ?_
    rw [List.length_set, hlen] at hk
    rw [above_add, above_add, hword _ (by omega)]
    by_cases he : k = 8
    · rw [he, Function.update_self]
      rfl
    · rw [hlookup k hk he, Option.getD_none, Function.update_of_ne]
      exact fun heq => he (by have := above_inj (by omega) (by omega) heq; omega)
  constructor
  · rw [hlen]
    decide
  · rw [hlen]
    decide
  · rw [hlen]
    exact hself
  · rw [hlen]
    refine stacked_append.mpr ⟨?_, ?_⟩
    · refine .cons (hword 1000 (by decide)) (.cons (hword 1001 (by decide)) ?_)
      refine .cons (hword 1002 (by decide)) (.cons (hword 1003 (by decide)) ?_)
      exact .cons (hword 1004 (by decide)) trivial
    · rw [above_add]
      exact hframe

end First

end GwOS
