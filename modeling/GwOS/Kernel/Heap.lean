import Mathlib.Data.List.FinRange
import GwOS.Kernel.Frames

/-!
# The heap (`kernel/memory.c`)

`sys_malloc` takes whole pages for more than 1024 bytes. Smaller blocks come from seven lists, one
for each power of two from 16 on; an empty list is filled with the blocks of a new page. A page of
the heap begins with its `struct arena`.

- A list of free blocks is kept as the list of their addresses, and an arena under its page.
- `block_size` and `blocks_per_arena` are never written after `block_desc_init`.
- `NoAssert`: the call may end in a page fault, but not in a failed `ASSERT`.
- `appendBlocks_ok`: the `ASSERT` of the loop over the blocks of a new page cannot fail.
-/

namespace GwOS

/-! ## The descriptors -/

/-- `DESC_CNT`. -/
abbrev descCnt : Nat := 7

/-- `sizeof(struct arena)`. -/
def arenaSize : Nat := 12

/-- The loop of `block_desc_init`: `block_size` and `blocks_per_arena`. -/
def blockDescs : (cnt : Nat) → UInt16 → List (Nat × Nat)
  | 0, _ => []
  | cnt + 1, blockSize =>
    (blockSize.toNat, (pgSize - arenaSize) / blockSize.toNat) :: blockDescs cnt (blockSize * 2)

/-- `block_desc_init`. -/
def blockDescInit : List (Nat × Nat) := blockDescs descCnt 16

/-- `descs[i].block_size`. -/
def blockSize (i : Fin descCnt) : Nat := (blockDescInit.getD i (0, 0)).1

/-- `descs[i].blocks_per_arena`. -/
def blocksPerArena (i : Fin descCnt) : Nat := (blockDescInit.getD i (0, 0)).2

/-- The loop of `sys_malloc` over the descriptors. The last one is left when none is large
enough. -/
def findDesc (size : BitVec 32) : Fin descCnt :=
  ((List.finRange descCnt).find? fun i => size.toNat ≤ blockSize i).getD 6

/-- `struct arena`; the descriptor by its index. -/
structure Arena where
  desc : Option (Fin descCnt)
  cnt : BitVec 32
  large : Bool

/-- The free blocks of the kernel, those of the process at an address, and the arenas. -/
structure Heap where
  kernelBlockDescs : Fin descCnt → List Addr
  userBlockDescs : Addr → Fin descCnt → List Addr
  arena : VPage → Arena

namespace Heap

/-- `descs[i].free_list`. -/
def freeList (h : Heap) (s : Memory) (pf : PoolFlag) (i : Fin descCnt) : List Addr :=
  match pf with
  | .kernel => h.kernelBlockDescs i
  | .user => h.userBlockDescs s.running i

def setFreeList (h : Heap) (s : Memory) (pf : PoolFlag) (i : Fin descCnt) (l : List Addr) : Heap :=
  match pf with
  | .kernel => { h with kernelBlockDescs := Function.update h.kernelBlockDescs i l }
  | .user => { h with
      userBlockDescs := Function.update h.userBlockDescs s.running
        (Function.update (h.userBlockDescs s.running) i l) }

def setArena (h : Heap) (k : VPage) (a : Arena) : Heap :=
  { h with arena := Function.update h.arena k a }

/-- The lists as `block_desc_init` leaves them. -/
def init : Heap := ⟨fun _ => [], fun _ _ => [], fun _ => ⟨none, 0, false⟩⟩

end Heap

/-! ## `sys_malloc` -/

/-- `arena2block`. -/
def arena2block (a : Addr) (i : Fin descCnt) (idx : Nat) : Addr :=
  a + BitVec.ofNat 32 arenaSize + BitVec.ofNat 32 (idx * blockSize i)

/-- `block2arena`. -/
def block2arena (b : Addr) : Addr := b &&& 0xfffff000

/-- The loop that appends the blocks of a new arena to the list. -/
def appendBlocks (a : Addr) (i : Fin descCnt) :
    (cnt blockIdx : Nat) → List Addr → Except Fault (List Addr)
  | 0, _, l => .ok l
  | cnt + 1, blockIdx, l =>
    if arena2block a i blockIdx ∈ l then .error .assert
    else appendBlocks a i cnt (blockIdx + 1) (l ++ [arena2block a i blockIdx])

/-- `memset` of `cnt` words from `v` on to zero. -/
def clearWords : (cnt : Nat) → Addr → Machine → Except Fault Machine
  | 0, _, m => .ok m
  | cnt + 1, v, m => do
    let m ← m.store v 0
    clearWords cnt (v + 4) m

/-- `DIV_ROUND_UP(size + sizeof(struct arena), PG_SIZE)`. -/
def pageCnt (size : BitVec 32) : BitVec 32 :=
  (size + BitVec.ofNat 32 arenaSize + 0x1000 - 1) / 0x1000

/-- `sys_malloc` of more than 1024 bytes. -/
def mallocLarge (s : Memory) (h : Heap) (pf : PoolFlag) (size : BitVec 32) :
    Except Fault (Option Addr × Memory × Heap) := do
  match ← mallocPage s pf (pageCnt size).toNat with
  | (none, s) => .ok (none, s, h)
  | (some a, s) =>
    let m ← clearPages (pageCnt size).toNat a s.toMachine
    .ok (some (a + BitVec.ofNat 32 arenaSize), { s with toMachine := m },
      h.setArena (vpage s.cr3 a) ⟨none, pageCnt size, true⟩)

/-- An empty list is filled; `false` when there is no page. -/
def newArena (s : Memory) (h : Heap) (pf : PoolFlag) (i : Fin descCnt) :
    Except Fault (Bool × Memory × Heap) := do
  match ← mallocPage s pf 1 with
  | (none, s) => .ok (false, s, h)
  | (some a, s) =>
    let m ← clearPages 1 a s.toMachine
    let l ← appendBlocks a i (blocksPerArena i) 0 (h.freeList s pf i)
    .ok (true, { s with toMachine := m },
      (h.setArena (vpage s.cr3 a) ⟨some i, BitVec.ofNat 32 (blocksPerArena i), false⟩).setFreeList
        s pf i l)

/-- The first free block is taken. `list_pop` on an empty list goes through the null pointer
behind its tail. -/
def takeBlock (s : Memory) (h : Heap) (pf : PoolFlag) (i : Fin descCnt) :
    Except Fault (Option Addr × Memory × Heap) :=
  match h.freeList s pf i with
  | [] => .error .nullDeref
  | b :: rest => do
    let m ← clearWords (blockSize i / 4) b s.toMachine
    let k := vpage s.cr3 (block2arena b)
    let a := h.arena k
    .ok (some b, { s with toMachine := m },
      (h.setFreeList s pf i rest).setArena k { a with cnt := a.cnt - 1 })

/-- `sys_malloc` of 1024 bytes or less. -/
def mallocSmall (s : Memory) (h : Heap) (pf : PoolFlag) (i : Fin descCnt) :
    Except Fault (Option Addr × Memory × Heap) :=
  if h.freeList s pf i = [] then do
    match ← newArena s h pf i with
    | (false, s, h) => .ok (none, s, h)
    | (true, s, h) => takeBlock s h pf i
  else takeBlock s h pf i

/-- The pool that the running thread takes its heap from. -/
def Memory.heapFlag (s : Memory) : PoolFlag :=
  match (s.pcb s.running).pgDir with
  | none => .kernel
  | some _ => .user

/-- `sys_malloc`. -/
def sysMalloc (s : Memory) (h : Heap) (size : BitVec 32) :
    Except Fault (Option Addr × Memory × Heap) :=
  if ¬ (0 < size ∧ size < (s.pool s.heapFlag).poolSize) then .ok (none, s, h)
  else if 1024 < size then mallocLarge s h s.heapFlag size
  else mallocSmall s h s.heapFlag (findDesc size)

/-! ## `sys_free` -/

/-- The loop that takes the blocks of an arena off the list. -/
def removeBlocks (a : Addr) (i : Fin descCnt) :
    (cnt blockIdx : Nat) → List Addr → Except Fault (List Addr)
  | 0, _, l => .ok l
  | cnt + 1, blockIdx, l =>
    if arena2block a i blockIdx ∈ l then
      removeBlocks a i cnt (blockIdx + 1) (l.erase (arena2block a i blockIdx))
    else .error .assert

/-- `sys_free` of a block of the arena at `a`. -/
def freeSmall (s : Memory) (h : Heap) (pf : PoolFlag) (i : Fin descCnt) (a b : Addr) :
    Except Fault (Memory × Heap) := do
  let h := h.setFreeList s pf i (h.freeList s pf i ++ [b])
  let k := vpage s.cr3 a
  let cnt := (h.arena k).cnt + 1
  let h := h.setArena k { h.arena k with cnt }
  if cnt.toNat = blocksPerArena i then
    let l ← removeBlocks a i (blocksPerArena i) 0 (h.freeList s pf i)
    let s ← mfreePage s pf a 1
    .ok (s, h.setFreeList s pf i l)
  else .ok (s, h)

/-- `sys_free`. The descriptor of an arena is one of the caller's own. -/
def sysFree (s : Memory) (h : Heap) (ptr : Addr) : Except Fault (Memory × Heap) := do
  if ptr = 0 then .error .assert
  else if s.heapFlag = .kernel ∧ ¬ kernelHeapStart ≤ ptr then .error .assert
  else
    let a := block2arena ptr
    -- the page of the header may be missing
    let _ ← s.load a
    let arena := h.arena (vpage s.cr3 a)
    match arena.desc with
    | none =>
      if arena.large then
        let s ← mfreePage s s.heapFlag a arena.cnt.toNat
        .ok (s, h)
      else .error .nullDeref
    | some i => freeSmall s h s.heapFlag i a ptr

/-! ## Sizes and counts -/

theorem blockSize_eq (i : Fin descCnt) : blockSize i = 16 * 2 ^ i.val := by
  revert i
  decide

/-- The blocks lie behind the `struct arena` of their page. -/
theorem blocks_fit (i : Fin descCnt) : arenaSize + blocksPerArena i * blockSize i ≤ pgSize := by
  revert i
  decide

/-- The block is large enough. -/
theorem findDesc_fits {size : BitVec 32} (h : size ≤ 1024) : size.toNat ≤ blockSize (findDesc size) := by
  have hle : size.toNat ≤ 1024 := h
  rw [findDesc]
  cases hfind : (List.finRange descCnt).find? fun i => size.toNat ≤ blockSize i with
  | some i =>
    have hi := List.find?_some hfind
    simpa using hi
  | none =>
    have hlast := List.find?_eq_none.mp hfind 6 (List.mem_finRange 6)
    have hsize : blockSize 6 = 1024 := by decide
    rw [hsize] at hlast
    exact absurd (by simpa using hle) hlast

/-- The sum in `DIV_ROUND_UP` does not wrap for a size below that of a pool. -/
theorem pageCnt_toNat {size : BitVec 32} (h : size.toNat < 2 ^ 32 - 0x2000) :
    (pageCnt size).toNat = (size.toNat + 4107) / 4096 := by
  have h12 : (BitVec.ofNat 32 arenaSize).toNat = 12 := rfl
  have hpg : (0x1000 : BitVec 32).toNat = 4096 := rfl
  have hone : (1 : BitVec 32).toNat = 1 := rfl
  have hsum : (size + BitVec.ofNat 32 arenaSize + 0x1000 - 1).toNat = size.toNat + 4107 := by
    rw [BitVec.toNat_sub, BitVec.toNat_add, BitVec.toNat_add, h12, hpg, hone]
    omega
  rw [pageCnt, BitVec.toNat_udiv, hsum, hpg]

/-! ## No `ASSERT` fails -/

/-- No `ASSERT` fails in the call. -/
def NoAssert {α : Type} (x : Except Fault α) : Prop := x ≠ .error .assert

section NoAssert

variable {α β : Type} {x : Except Fault α} {f : α → Except Fault β} {a : Addr} {i : Fin descCnt}
  {cnt idx : Nat} {l : List Addr}

theorem NoAssert.ok (a : α) : NoAssert (.ok a : Except Fault α) := nofun

theorem NoAssert.bind (hx : NoAssert x) (hf : ∀ a, x = .ok a → NoAssert (f a)) : NoAssert (x >>= f) := by
  cases x with
  | error e =>
    intro he
    cases (Except.error.inj he : e = .assert)
    exact hx rfl
  | ok a => exact hf a rfl

theorem clearPages_noAssert (cnt : Nat) (v : Addr) (m : Machine) : NoAssert (clearPages cnt v m) := by
  induction cnt generalizing v m with
  | zero => exact .ok m
  | succ cnt ih =>
    unfold clearPages
    refine .bind ?_ fun m' _ => ih _ m'
    unfold Machine.clearPage
    split <;> nofun

theorem clearWords_noAssert (cnt : Nat) (v : Addr) (m : Machine) : NoAssert (clearWords cnt v m) := by
  induction cnt generalizing v m with
  | zero => exact .ok m
  | succ cnt ih =>
    unfold clearWords
    refine .bind ?_ fun m' _ => ih _ m'
    unfold Machine.store
    split <;> nofun

theorem takeBlock_noAssert (s : Memory) (h : Heap) (pf : PoolFlag) (i : Fin descCnt) :
    NoAssert (takeBlock s h pf i) := by
  unfold takeBlock
  split
  · nofun
  · exact .bind (clearWords_noAssert _ _ _) fun m _ => .ok _

/-- The blocks of an arena are different ones. -/
theorem arena2block_inj {j : Nat} (hidx : idx < blocksPerArena i) (hj : j < blocksPerArena i)
    (h : arena2block a i idx = arena2block a i j) : idx = j := by
  have hfit := blocks_fit i
  have hpos : 0 < blockSize i := by
    rw [blockSize_eq]
    exact Nat.mul_pos (by decide) (Nat.two_pow_pos _)
  have hlt : ∀ k < blocksPerArena i, k * blockSize i < 2 ^ 32 := by
    intro k hk
    have hmul := Nat.mul_le_mul_right (blockSize i) (Nat.le_of_lt hk)
    unfold pgSize arenaSize at hfit
    omega
  have hoff := BitVec.toNat_inj.mpr ((BitVec.add_right_inj _).mp h)
  rw [BitVec.toNat_ofNat, BitVec.toNat_ofNat, Nat.mod_eq_of_lt (hlt idx hidx),
    Nat.mod_eq_of_lt (hlt j hj)] at hoff
  exact Nat.eq_of_mul_eq_mul_right hpos hoff

/-- **The loop over the blocks** runs through when only blocks before the first one are in the
list. -/
theorem appendBlocks_ok (hcnt : idx + cnt ≤ blocksPerArena i)
    (hl : ∀ b ∈ l, ∃ j < idx, b = arena2block a i j) :
    ∃ l', appendBlocks a i cnt idx l = .ok l' := by
  induction cnt generalizing idx l with
  | zero => exact ⟨l, rfl⟩
  | succ cnt ih =>
    have hnew : arena2block a i idx ∉ l := by
      intro hmem
      obtain ⟨j, hj, he⟩ := hl _ hmem
      have hij := arena2block_inj (by omega) (by omega) he
      omega
    rw [appendBlocks, if_neg hnew]
    refine ih (by omega) fun b hb => ?_
    rcases List.mem_append.mp hb with hold | hlast
    · obtain ⟨j, hj, he⟩ := hl b hold
      exact ⟨j, Nat.lt_succ_of_lt hj, he⟩
    · exact ⟨idx, Nat.lt_succ_self idx, List.mem_singleton.mp hlast⟩

end NoAssert

end GwOS
