import GwOS.Kernel.Memory

/-!
# Address spaces of processes (`userprog/process.c`)

A process has a page directory of its own, in a page of the kernel. Its upper quarter is a
copy of the directory that was active at its creation, so that all processes see the same
kernel, and its last entry names itself.
-/

namespace GwOS

/-- `USER_VADDR_START`. -/
def userVaddrStart : Addr := 0x8048000

/-- `USER_STACK3_VADDR`. -/
def userStack3Vaddr : Addr := 0xc0000000 - 0x1000

/-- The number of pages below the kernel, eight to a byte. -/
def userBitmapLen : Nat := (0xc0000000 - userVaddrStart).toNat / pgSize / 8

/-- `DIV_ROUND_UP`. -/
def divRoundUp (x step : Nat) : Nat := (x + step - 1) / step

/-- The pages that the bitmap of a process takes. -/
def userBitmapPages : Nat := divRoundUp userBitmapLen pgSize

/-- `memcpy` of a whole page. -/
def Machine.copyPage (s : Machine) (dst src : Addr) : Except Fault Machine :=
  match s.walk src, s.walk dst with
  | some f, some g => .ok (s.setFrame g (s.mem f))
  | _, _ => .error .pageFault

/-- The `memcpy` of `create_page_dir`: the entries of the kernel, from the active directory. -/
def Machine.copyKernelEntries (s : Machine) (dst : Addr) : Except Fault Machine :=
  match s.walk 0xfffff000, s.walk dst with
  | some f, some g => .ok (s.setFrame g fun i => if 768 ≤ i then s.mem f i else s.mem g i)
  | _, _ => .error .pageFault

/-- `page_dir_activate`. -/
def pageDirActivate (s : Memory) (thread : Addr) : Except Fault Memory :=
  match (s.pcb thread).pgDir with
  | none => .ok { s with cr3 := 0x100 }
  | some pgDir => do
    let pagedirPhyAddr ← addrVir2phy s.toMachine pgDir
    .ok { s with cr3 := pageOf pagedirPhyAddr }

/-- `create_page_dir`. -/
def createPageDir (s : Memory) : Except Fault (Option Addr × Memory) := do
  match ← getKernelPages s 1 with
  | (none, s) => .ok (none, s)
  | (some pageDirVaddr, s) =>
    let m ← s.copyKernelEntries pageDirVaddr
    let newPageDirPhyAddr ← addrVir2phy m pageDirVaddr
    let m ← m.store (pageDirVaddr + 1023 * 4) (tableEntry newPageDirPhyAddr)
    .ok (some pageDirVaddr, { s with toMachine := m })

/-- `create_user_vaddr_bitmap`. `bitmap_init` writes through the pointer that it is given. -/
def createUserVaddrBitmap (s : Memory) (userProg : Addr) : Except Fault Memory := do
  match ← getKernelPages s userBitmapPages with
  | (none, _) => .error .nullDeref
  | (some bits, s) =>
    let pages := { s.pcb userProg with bits, vaddrStart := userVaddrStart }
    .ok { s with
      pcb := Function.update s.pcb userProg pages
      btmp := Function.update s.btmp bits (bitmapInit userBitmapLen) }

/-- `process_execute`, up to the queues of the scheduler: the new process. -/
def processExecute (s : Memory) (name : String) : Except Fault (Addr × Memory) := do
  match ← getKernelPages s 1 with
  | (none, _) => .error .assert
  | (some thread, s) =>
    let s ← createUserVaddrBitmap s thread
    let (pgDir, s) ← createPageDir s
    .ok (thread, { s with pcb := Function.update s.pcb thread { s.pcb thread with pgDir, name } })

end GwOS
