import GwOS.Kernel.Bitmap
import GwOS.Kernel.Mmu

/-!
# Pages and page tables (`kernel/memory.c`)

Physical frames come from two pools, virtual pages from one bitmap for the kernel and one
for each process, and the page tables connect the two. The tables are reached through the
last entry of the page directory, which names the directory itself: `pte_ptr` and `pde_ptr`
compute the addresses at which the entries for another address appear, and every access of
the kernel to a table goes through the processor like any other.

- A pointer is an `Addr`, and a result that can be `NULL` is an `Option`.
- A call runs to its end: `lock_acquire` and `lock_release` keep others out of the pool.
- An index behind the bitmap of the virtual pages is reported as a fault. `Kernel.Overrun` has the
  functions that go on there.
- The `struct pcb`s and the bitmaps of the processes lie in pages of the kernel, which all
  directories map alike. They are kept as values under their kernel addresses.
-/

namespace GwOS

/-- `PG_SIZE`. -/
def pgSize : Nat := 4096

/-- `enum pool_flag`. -/
inductive PoolFlag where
  | kernel
  | user
  deriving DecidableEq, Repr

/-- `struct pool`. -/
structure Pool where
  poolBitmap : Bitmap
  phyAddrStart : Addr
  poolSize : Addr

/-- `struct virtual_addr`. -/
structure VirtualAddr where
  vaddrBitmap : Bitmap
  vaddrStart : Addr

/-- `struct pcb`, as far as pages are concerned. -/
structure ProcPages where
  /-- The page directory; `NULL` for a thread of the kernel. -/
  pgDir : Option Addr
  /-- `userprog_vaddr.vaddr_bitmap.bits`. -/
  bits : Addr
  /-- `userprog_vaddr.vaddr_start`. -/
  vaddrStart : Addr
  name : String

/-- The state that `memory.c` works on. -/
structure Memory extends Machine where
  kernelPool : Pool
  userPool : Pool
  kernelVaddr : VirtualAddr
  /-- The `struct pcb` at an address. -/
  pcb : Addr → ProcPages
  /-- The bitmap at an address. -/
  btmp : Addr → Bitmap
  /-- `running_thread`. -/
  running : Addr

namespace Memory

/-- The pool that a flag stands for. -/
def pool (s : Memory) : PoolFlag → Pool
  | .kernel => s.kernelPool
  | .user => s.userPool

def setPool (s : Memory) (pf : PoolFlag) (p : Pool) : Memory :=
  match pf with
  | .kernel => { s with kernelPool := p }
  | .user => { s with userPool := p }

/-- The bitmap of the virtual pages that a flag stands for, in the running thread. -/
def vaddrBitmap (s : Memory) : PoolFlag → Bitmap
  | .kernel => s.kernelVaddr.vaddrBitmap
  | .user => s.btmp (s.pcb s.running).bits

def setVaddrBitmap (s : Memory) (pf : PoolFlag) (mp : Bitmap) : Memory :=
  match pf with
  | .kernel => { s with kernelVaddr := { s.kernelVaddr with vaddrBitmap := mp } }
  | .user => { s with btmp := Function.update s.btmp (s.pcb s.running).bits mp }

/-- The first virtual page that a flag stands for. -/
def vaddrStart (s : Memory) : PoolFlag → Addr
  | .kernel => s.kernelVaddr.vaddrStart
  | .user => (s.pcb s.running).vaddrStart

end Memory

/-! ## Virtual pages -/

/-- The loops that set or clear the `cnt` bits from `idx` on. -/
def setBits (mp : Bitmap) (value : UInt8) : (cnt idx : Nat) → Except Fault Bitmap
  | 0, _ => .ok mp
  | cnt + 1, idx => do
    let mp ← bitmapSetIdx mp idx value
    setBits mp value cnt (idx + 1)

/-- `vaddr_get`. -/
def vaddrGet (s : Memory) (pf : PoolFlag) (cnt : Nat) : Except Fault (Option Addr × Memory) := do
  match ← bitmapApplyCnt (s.vaddrBitmap pf) cnt with
  | none => .ok (none, s)
  | some idx =>
    let mp ← setBits (s.vaddrBitmap pf) 1 cnt idx
    let vaddr := s.vaddrStart pf + BitVec.ofNat 32 (idx * pgSize)
    -- only the branch of the user pool has the `ASSERT`
    if pf = .user ∧ ¬ vaddr < 0xc0000000 - 0x1000 then .error .assert
    else .ok (some vaddr, s.setVaddrBitmap pf mp)

/-- The index of a virtual page in its bitmap. -/
def pageIdx (vaddr start : Addr) : Nat := (vaddr - start).toNat / pgSize

/-- `vaddr_remove`. An index behind the bitmap is reported, where the code goes on. -/
def vaddrRemove (s : Memory) (pf : PoolFlag) (vaddr : Addr) (cnt : Nat) :
    Except Fault Memory := do
  let mp ← setBits (s.vaddrBitmap pf) 0 cnt (pageIdx vaddr (s.vaddrStart pf))
  .ok (s.setVaddrBitmap pf mp)

/-! ## Page tables -/

/-- `PDE_IDX`. -/
def pdeIdx (addr : Addr) : Addr := (addr &&& 0xffc00000) >>> 22

/-- `PTE_IDX`. -/
def pteIdx (addr : Addr) : Addr := (addr &&& 0x003ff000) >>> 12

/-- `pte_ptr`. -/
def ptePtr (vaddr : Addr) : Addr :=
  0xffc00000 + ((vaddr &&& 0xffc00000) >>> 10) + pteIdx vaddr * 4

/-- `pde_ptr`. -/
def pdePtr (vaddr : Addr) : Addr := 0xfffff000 + pdeIdx vaddr * 4

/-- `addr_vir2phy`. The entry is read whether it is present or not. -/
def addrVir2phy (s : Machine) (vaddr : Addr) : Except Fault Addr := do
  let pte ← s.load (ptePtr vaddr)
  .ok ((pte &&& 0xfffff000) + (vaddr &&& 0x00000fff))

/-- The value `addr | PG_US_U | PG_RW_W | PG_P_1` of an entry. -/
def tableEntry (addr : Addr) : Addr := addr ||| 4 ||| 2 ||| 1

/-- `palloc`: the frame and the pool that remains. -/
def palloc (p : Pool) : Except Fault (Option Addr × Pool) := do
  match ← bitmapApplyCnt p.poolBitmap 1 with
  | none => .ok (none, p)
  | some idx =>
    let mp ← bitmapSetIdx p.poolBitmap idx 1
    .ok (some (BitVec.ofNat 32 (idx * pgSize) + p.phyAddrStart), { p with poolBitmap := mp })

/-- The two lines at the end of both branches of `page_table_add`. -/
def setPte (s : Memory) (pte pagePhyaddr : Addr) : Except Fault Memory := do
  if Present (← s.load pte) then .error .assert
  else
    let m ← s.store pte (tableEntry pagePhyaddr)
    .ok { s with toMachine := m }

/-- `page_table_add`. That `palloc` has failed is not noticed, and the entry then names the
frame 0. -/
def pageTableAdd (s : Memory) (vaddr pagePhyaddr : Addr) : Except Fault Memory := do
  let pde := pdePtr vaddr
  let pte := ptePtr vaddr
  if Present (← s.load pde) then setPte s pte pagePhyaddr
  else
    let (pdePhyaddr, p) ← palloc s.kernelPool
    let m ← s.store pde (tableEntry (pdePhyaddr.getD 0))
    let m ← m.clearPage (pte &&& 0xfffff000)
    setPte { s with toMachine := m, kernelPool := p } pte pagePhyaddr

/-- `page_table_pte_remove`. The `invlpg` at its end has no counterpart: there is no TLB. -/
def pageTablePteRemove (s : Memory) (vaddr : Addr) : Except Fault Memory := do
  let pte := ptePtr vaddr
  let entry ← s.load pte
  let m ← s.store pte (entry &&& ~~~1)
  .ok { s with toMachine := m }

/-! ## Allocation -/

/-- The loop of `malloc_page`; `false` is the `return NULL`. -/
def mallocLoop (pf : PoolFlag) : (cnt : Nat) → Addr → Memory → Except Fault (Bool × Memory)
  | 0, _, s => .ok (true, s)
  | cnt + 1, vaddr, s => do
    let (pagePhyaddr, p) ← palloc (s.pool pf)
    match pagePhyaddr with
    | none => .ok (false, s.setPool pf p)
    | some page =>
      let s ← pageTableAdd (s.setPool pf p) vaddr page
      mallocLoop pf cnt (vaddr + 0x1000) s

/-- `malloc_page`. What has been taken when a frame is missing is not given back. -/
def mallocPage (s : Memory) (pf : PoolFlag) (cnt : Nat) : Except Fault (Option Addr × Memory) := do
  if 0 < cnt ∧ cnt < 3840 then
    match ← vaddrGet s pf cnt with
    | (none, s) => .ok (none, s)
    | (some vaddr, s) =>
      let (done, s) ← mallocLoop pf cnt vaddr s
      .ok (if done then some vaddr else none, s)
  else .error .assert

/-- `memset` of `cnt` pages to zero. -/
def clearPages : (cnt : Nat) → Addr → Machine → Except Fault Machine
  | 0, _, s => .ok s
  | cnt + 1, vaddr, s => do
    let s ← s.clearPage vaddr
    clearPages cnt (vaddr + 0x1000) s

/-- `get_kernel_pages` and `get_user_pages`. -/
def getPages (s : Memory) (pf : PoolFlag) (cnt : Nat) : Except Fault (Option Addr × Memory) := do
  match ← mallocPage s pf cnt with
  | (none, s) => .ok (none, s)
  | (some vaddr, s) =>
    let m ← clearPages cnt vaddr s.toMachine
    .ok (some vaddr, { s with toMachine := m })

/-- `get_kernel_pages`. -/
def getKernelPages (s : Memory) (cnt : Nat) : Except Fault (Option Addr × Memory) :=
  getPages s .kernel cnt

/-- `get_user_pages`. -/
def getUserPages (s : Memory) (cnt : Nat) : Except Fault (Option Addr × Memory) :=
  getPages s .user cnt

/-- `get_one_page_no_bitmap`. -/
def getOnePageNoBitmap (s : Memory) (pf : PoolFlag) (vaddr : Addr) :
    Except Fault (Option Addr × Memory) := do
  let (pagePhyaddr, p) ← palloc (s.pool pf)
  match pagePhyaddr with
  | none => .ok (none, s.setPool pf p)
  | some page =>
    let s ← pageTableAdd (s.setPool pf p) vaddr page
    .ok (some vaddr, s)

/-- The first part of `get_one_page`: the bit of the page is set. An index behind the bitmap is reported,
where the code goes on. -/
def markPage (s : Memory) (pf : PoolFlag) (vaddr : Addr) : Except Fault Memory := do
  let mp ← bitmapSetIdx (s.vaddrBitmap pf) (pageIdx vaddr (s.vaddrStart pf)) 1
  .ok (s.setVaddrBitmap pf mp)

/-- `get_one_page`. -/
def getOnePage (s : Memory) (pf : PoolFlag) (vaddr : Addr) :
    Except Fault (Option Addr × Memory) := do
  match (s.pcb s.running).pgDir, pf with
  | some _, .user =>
    if s.vaddrStart .user ≤ vaddr then
      let s ← markPage s .user vaddr
      getOnePageNoBitmap s .user vaddr
    else .error .assert
  | none, .kernel =>
    if s.vaddrStart .kernel < vaddr then
      let s ← markPage s .kernel vaddr
      getOnePageNoBitmap s .kernel vaddr
    else .error .assert
  | _, _ => .error .assert

/-! ## Release -/

/-- `pfree`. The pool is found by the address. -/
def pfree (s : Memory) (pgPhyAddr : Addr) : Except Fault Memory := do
  let pf : PoolFlag := if s.userPool.phyAddrStart ≤ pgPhyAddr then .user else .kernel
  let idx := (pgPhyAddr - (s.pool pf).phyAddrStart).toNat / pgSize
  let mp ← bitmapSetIdx (s.pool pf).poolBitmap idx 0
  .ok (s.setPool pf { s.pool pf with poolBitmap := mp })

/-- `free_one_phy_page`. -/
def freeOnePhyPage (s : Memory) (pgPhyAddr : Addr) : Except Fault Memory := pfree s pgPhyAddr

/-- The loops of `mfree_page`; `pf` is the pool that the `ASSERT` of the loop wants. -/
def mfreeLoop (pf : PoolFlag) : (cnt : Nat) → Addr → Memory → Except Fault Memory
  | 0, _, s => .ok s
  | cnt + 1, vaddr, s => do
    let pgPhyAddr ← addrVir2phy s.toMachine vaddr
    if pgPhyAddr.toNat % pgSize = 0 ∧ (s.pool pf).phyAddrStart ≤ pgPhyAddr ∧
        (pf = .kernel → pgPhyAddr < s.userPool.phyAddrStart) then
      let s ← pfree s pgPhyAddr
      let s ← pageTablePteRemove s vaddr
      mfreeLoop pf cnt (vaddr + 0x1000) s
    else .error .assert

/-- `mfree_page`. -/
def mfreePage (s : Memory) (pf : PoolFlag) (vaddr : Addr) (cnt : Nat) : Except Fault Memory := do
  if 1 ≤ cnt ∧ vaddr.toNat % pgSize = 0 then
    let pgPhyAddr ← addrVir2phy s.toMachine vaddr
    if pgPhyAddr.toNat % pgSize = 0 ∧ 0x102000 ≤ pgPhyAddr then
      let s ← mfreeLoop (if s.userPool.phyAddrStart ≤ pgPhyAddr then .user else .kernel) cnt vaddr s
      vaddrRemove s pf vaddr cnt
    else .error .assert
  else .error .assert

/-! ## Boot -/

/-- `KERNEL_HEAP_START`. -/
def kernelHeapStart : Addr := 0xc0100000

/-- What `setup_page` of `boot/loader.asm` leaves in memory: the directory in frame 0x100, the
page tables of the kernel behind it, and the first megabyte mapped twice. -/
def setupPage : Frame → Page := fun f i =>
  if f = 0x100 then
    if i = 0 then tableEntry 0x101000
    else if i = 1023 then tableEntry 0x100000
    else if 768 ≤ i then tableEntry (0x101000 + (i.zeroExtend 32 - 768) * 0x1000)
    else 0
  else if f = 0x101 ∧ i < 256 then tableEntry (i.zeroExtend 32 * 0x1000)
  else 0

/-- `mem_pool_init`, on the machine that the loader has set up, with the thread that runs. -/
def memPoolInit (allMem : Nat) (main : Addr) : Memory :=
  let memUsed := 256 * pgSize + 0x100000
  let freePageAll := (allMem - memUsed) / pgSize % 2 ^ 16
  let freePageKernel := freePageAll / 2
  let freePageUser := freePageAll - freePageKernel
  { mem := setupPage
    cr3 := 0x100
    kernelPool :=
      { poolBitmap := bitmapInit (freePageKernel / 8)
        phyAddrStart := BitVec.ofNat 32 memUsed
        poolSize := BitVec.ofNat 32 (freePageKernel * pgSize) }
    userPool :=
      { poolBitmap := bitmapInit (freePageUser / 8)
        phyAddrStart := BitVec.ofNat 32 (memUsed + freePageKernel * pgSize)
        poolSize := BitVec.ofNat 32 (freePageUser * pgSize) }
    kernelVaddr :=
      { vaddrBitmap := bitmapInit (freePageKernel / 8), vaddrStart := kernelHeapStart }
    pcb := fun _ => { pgDir := none, bits := 0, vaddrStart := 0, name := "main" }
    btmp := fun _ => bitmapInit 0
    running := main }

/-- `mem_init`: 32 MB of memory. -/
def memInit (main : Addr) : Memory := memPoolInit 0x2000000 main

end GwOS
