import GwOS.Kernel.ByteStore
import GwOS.Userprog.Exec
import GwOS.Userprog.NewProcess

/-!
# Loading a program (`userprog/exec.c`)

`load` reads the header of an ELF file and then its program headers, one at a time. For each
segment it maps the pages that are missing, and `sys_read_file` copies the bytes of the segment
into them.

- `LoadState` is the memory with a list of what has been written.
- `loadOps` is what the bytes of a file make `load` do: pages that are needed and bytes that are
  copied, in their order. `load_eq`: `load` is the run of that list.
-/

namespace GwOS

/-! ## The file format -/

/-- An `Elf32_Half` of a structure in a file. -/
def elfHalf (b : List UInt8) (o : Nat) : UInt16 :=
  ⟨(b.getD (o + 1) 0).toBitVec ++ (b.getD o 0).toBitVec⟩

/-- An `Elf32_Word`, `Elf32_Addr` or `Elf32_Off`. -/
def elfWord (b : List UInt8) (o : Nat) : UInt32 :=
  ⟨(elfHalf b (o + 2)).toBitVec ++ (elfHalf b o).toBitVec⟩

/-- `struct Elf32_Ehdr`, as far as `load` looks at it. -/
structure Elf32Ehdr where
  eIdent : List UInt8
  eType : UInt16
  eMachine : UInt16
  eVersion : UInt32
  eEntry : Addr
  ePhoff : UInt32
  ePhentsize : UInt16
  ePhnum : UInt16

/-- `struct Elf32_Phdr`. Nothing reads `p_memsz`. -/
structure Elf32Phdr where
  pType : UInt32
  pOffset : UInt32
  pVaddr : Addr
  pFilesz : UInt32
  pMemsz : UInt32

/-- `sizeof(struct Elf32_Ehdr)`. -/
def ehdrSize : UInt32 := 52

/-- The structure that the bytes `b` make up. -/
def Elf32Ehdr.ofBytes (b : List UInt8) : Elf32Ehdr where
  eIdent := b.take 16
  eType := elfHalf b 16
  eMachine := elfHalf b 18
  eVersion := elfWord b 20
  eEntry := (elfWord b 24).toBitVec
  ePhoff := elfWord b 28
  ePhentsize := elfHalf b 42
  ePhnum := elfHalf b 44

/-- The structure that the bytes `b` make up. -/
def Elf32Phdr.ofBytes (b : List UInt8) : Elf32Phdr where
  pType := elfWord b 0
  pOffset := elfWord b 4
  pVaddr := (elfWord b 8).toBitVec
  pFilesz := elfWord b 16
  pMemsz := elfWord b 20

/-- The checks of `load` on the header; the last one is against `sizeof(struct Elf32_Phdr)`. -/
def Elf32Ehdr.Accepted (e : Elf32Ehdr) : Prop :=
  e.eIdent.take 7 = [0x7f, 0x45, 0x4c, 0x46, 1, 1, 1] ∧ e.eType = 2 ∧ e.eMachine = 3 ∧
    e.eVersion = 1 ∧ e.ePhnum ≤ 1024 ∧ e.ePhentsize = 32

instance (e : Elf32Ehdr) : Decidable e.Accepted := inferInstanceAs (Decidable (_ ∧ _))

/-! ## What is written -/

/-- Something that `load` writes. -/
inductive LoadWrite where
  /-- A byte of the program. -/
  | byte (a : Addr)
  /-- The entry of a page, in a page table. -/
  | entry (table : Frame)
  deriving DecidableEq

/-- The memory, and the record of what has been written. The source keeps no such record. -/
structure LoadState extends Memory where
  writes : List LoadWrite

/-! ## `segment_load` -/

/-- The test of `segment_load`: whether both entries for a page are present. The second one is
read only if there is a table. -/
def pageThere (s : Machine) (vaddrPage : Addr) : Except Fault Bool := do
  if Present (← s.load (pdePtr vaddrPage)) then
    let pte ← s.load (ptePtr vaddrPage)
    .ok (decide (Present pte))
  else .ok false

/-- One round of the loop of `segment_load`; `false` is the `return false`. -/
def mapPage (s : LoadState) (vaddrPage : Addr) : Except Fault (Bool × LoadState) := do
  if ← pageThere s.toMachine vaddrPage then .ok (true, s)
  else
    let (page, m) ← getOnePage s.toMemory .user vaddrPage
    -- a page at the address 0 would look like a failure
    if page.getD 0 = 0 then .ok (false, { s with toMemory := m })
    else .ok (true, ⟨m, s.writes ++ [.entry (m.tableOf vaddrPage)]⟩)

/-- The loop of `segment_load`, with `n` pages to go. -/
def mapPages : (n : Nat) → Addr → LoadState → Except Fault (Bool × LoadState)
  | 0, _, s => .ok (true, s)
  | n + 1, vaddrPage, s => do
    let (ok, s) ← mapPage s vaddrPage
    if ok then mapPages n (vaddrPage + 0x1000) s else .ok (false, s)

/-- `occupy_pages`. The sum of `DIV_ROUND_UP` can wrap. -/
def occupyPages (filesz : UInt32) (vaddr : Addr) : UInt32 :=
  let sizeInFirstPage : UInt32 := 4096 - ⟨vaddr &&& 0x00000fff⟩
  if filesz > sizeInFirstPage then (filesz - sizeInFirstPage + 4096 - 1) / 4096 + 1 else 1

/-- The stores of `sys_read_file` through `dst`. -/
def storeProgram (s : LoadState) (dst : Addr) (bytes : List UInt8) : Except Fault LoadState := do
  let m ← s.storeBytes dst bytes
  .ok ⟨{ s with toMachine := m },
    s.writes ++ (List.range bytes.length).map fun p => .byte (dst + BitVec.ofNat 32 p)⟩

/-- `segment_load`. The result of `sys_read_file` is not looked at. -/
def segmentLoad (fs : Fs) (acfile : Fin 10) (s : LoadState) (offset filesz : UInt32) (vaddr : Addr) :
    Except Fault (Bool × LoadState) := do
  let (ok, s) ← mapPages (occupyPages filesz vaddr).toNat (vaddr &&& 0xfffff000) s
  if ok then
    let (_, bytes) ← sysReadFile fs acfile offset filesz
    let s ← storeProgram s vaddr bytes
    .ok (true, s)
  else .ok (false, s)

/-! ## `load` -/

/-- `PT_LOAD`. -/
def ptLoad : UInt32 := 1

/-- The loop of `load`, with `n` program headers to go; `false` is the `return -1`. -/
def loadHeaders (fs : Fs) (acfile : Fin 10) (progHeaderSize : UInt32) :
    (n : Nat) → UInt32 → LoadState → Except Fault (Bool × LoadState)
  | 0, _, s => .ok (true, s)
  | n + 1, progHeaderOffset, s => do
    let (ret, buff) ← sysReadFile fs acfile progHeaderOffset progHeaderSize
    if ret ≠ progHeaderSize.toInt32 then .ok (false, s)
    else
      let progHeader := Elf32Phdr.ofBytes buff
      if progHeader.pType = ptLoad then
        let (ok, s) ←
          segmentLoad fs acfile s progHeader.pOffset progHeader.pFilesz progHeader.pVaddr
        if ok then loadHeaders fs acfile progHeaderSize n (progHeaderOffset + progHeaderSize) s
        else .ok (false, s)
      else loadHeaders fs acfile progHeaderSize n (progHeaderOffset + progHeaderSize) s

/-- `load`: the entry point, or `none` for the `-1`. -/
def load (fs : Fs) (acfile : Fin 10) (s : LoadState) : Except Fault (Option Addr × LoadState) := do
  let (ret, buff) ← sysReadFile fs acfile 0 ehdrSize
  if ret ≠ ehdrSize.toInt32 then .ok (none, s)
  else
    let elfHeader := Elf32Ehdr.ofBytes buff
    if elfHeader.Accepted then
      let (ok, s) ← loadHeaders fs acfile elfHeader.ePhentsize.toUInt32 elfHeader.ePhnum.toNat
        elfHeader.ePhoff s
      .ok (if ok then some elfHeader.eEntry else none, s)
    else .ok (none, s)

/-! ## The work that a file asks for -/

/-- A step of `load`. -/
inductive LoadOp where
  /-- A page is needed. -/
  | page (v : Addr)
  /-- The bytes are copied. -/
  | copy (dst : Addr) (bytes : List UInt8)

/-- The addresses of `n` pages in a row. -/
def pagesFrom : (n : Nat) → Addr → List Addr
  | 0, _ => []
  | n + 1, v => v :: pagesFrom n (v + 0x1000)

/-- The pages of a segment. -/
def Elf32Phdr.pages (h : Elf32Phdr) : List Addr :=
  pagesFrom (occupyPages h.pFilesz h.pVaddr).toNat (h.pVaddr &&& 0xfffff000)

/-- The bytes that are copied for a segment of a file with the bytes `C`. -/
def Elf32Phdr.copied (C : List UInt8) (h : Elf32Phdr) : List UInt8 :=
  (C.drop h.pOffset.toNat).take (stopAt h.pFilesz)

/-- What is done for a segment. -/
def Elf32Phdr.ops (C : List UInt8) (h : Elf32Phdr) : List LoadOp :=
  h.pages.map .page ++ [.copy h.pVaddr (h.copied C)]

/-- The header of a file. -/
def elfHeader (C : List UInt8) : Elf32Ehdr := Elf32Ehdr.ofBytes (C.take 52)

/-- The file has a header, and it is accepted. -/
def IsElf (C : List UInt8) : Prop := 52 ≤ C.length ∧ (elfHeader C).Accepted

instance (C : List UInt8) : Decidable (IsElf C) := inferInstanceAs (Decidable (_ ∧ _))

/-- The program headers of a file from a position on, up to the first one that is not there. -/
def headersFrom (C : List UInt8) : (n : Nat) → UInt32 → List Elf32Phdr
  | 0, _ => []
  | n + 1, off =>
    if off.toNat + 32 ≤ C.length then
      Elf32Phdr.ofBytes ((C.drop off.toNat).take 32) :: headersFrom C n (off + 32)
    else []

/-- The program headers of a file. -/
def programHeaders (C : List UInt8) : List Elf32Phdr :=
  headersFrom C (elfHeader C).ePhnum.toNat (elfHeader C).ePhoff

/-- The headers with `PT_LOAD`. -/
def loadSegments (C : List UInt8) : List Elf32Phdr :=
  if IsElf C then (programHeaders C).filter fun h => h.pType = ptLoad else []

/-- What the bytes of a file make `load` do. -/
def loadOps (C : List UInt8) : List LoadOp := (loadSegments C).flatMap (Elf32Phdr.ops C)

/-- The header is accepted, and all program headers are there. -/
def HasHeaders (C : List UInt8) : Prop :=
  IsElf C ∧ (programHeaders C).length = (elfHeader C).ePhnum.toNat

instance (C : List UInt8) : Decidable (HasHeaders C) := inferInstanceAs (Decidable (_ ∧ _))

/-- One step. -/
def LoadOp.run (s : LoadState) : LoadOp → Except Fault (Bool × LoadState)
  | .page v => mapPage s v
  | .copy dst bytes => do
    let s ← storeProgram s dst bytes
    .ok (true, s)

/-- Steps in a row, up to the first one that fails. -/
def runLoad : List LoadOp → LoadState → Except Fault (Bool × LoadState)
  | [], s => .ok (true, s)
  | op :: ops, s => do
    let (ok, s) ← op.run s
    if ok then runLoad ops s else .ok (false, s)

section Plan

variable {fs : Fs} {acfile : Fin 10} {r : FileRef} {K : List Nat} {C : List UInt8} {s : LoadState}

theorem runLoad_append (l l' : List LoadOp) (s : LoadState) : runLoad (l ++ l') s = (do
    let (ok, s) ← runLoad l s
    if ok then runLoad l' s else .ok (false, s)) := by
  induction l generalizing s with
  | nil => rfl
  | cons op l ih =>
    rw [List.cons_append, runLoad, runLoad]
    cases op.run s with
    | error e => rfl
    | ok r =>
      obtain ⟨ok, s1⟩ := r
      cases ok with
      | false => rfl
      | true => exact ih s1

theorem mapPages_eq (n : Nat) (v : Addr) (s : LoadState) :
    mapPages n v s = runLoad ((pagesFrom n v).map .page) s := by
  induction n generalizing v s with
  | zero => rfl
  | succ n ih =>
    rw [mapPages, pagesFrom, List.map_cons, runLoad]
    refine congrArg _ (funext fun r => ?_)
    obtain ⟨ok, s1⟩ := r
    dsimp only
    rw [ih]

theorem segmentLoad_eq (hfile : (fs.activelist acfile).file = some r)
    (hK : FileChain fs.sdb (fs.file r).fstClus.toNat K)
    (hC : C = content fs.sdb K (512 * K.length)) (h : Elf32Phdr) (s : LoadState) :
    segmentLoad fs acfile s h.pOffset h.pFilesz h.pVaddr = runLoad (h.ops C) s := by
  rw [segmentLoad, mapPages_eq, Elf32Phdr.ops, runLoad_append]
  refine congrArg _ (funext fun r => ?_)
  rw [sysReadFile_eq _ hfile hK hC]
  obtain ⟨ok, s1⟩ := r
  cases ok with
  | false => rfl
  | true =>
    show (storeProgram s1 h.pVaddr (h.copied C) >>= fun s => .ok (true, s)) =
      runLoad [.copy h.pVaddr (h.copied C)] s1
    rw [runLoad, LoadOp.run, bind_assoc]
    rfl

/-- The loop over the program headers. -/
theorem loadHeaders_eq (hfile : (fs.activelist acfile).file = some r)
    (hK : FileChain fs.sdb (fs.file r).fstClus.toNat K)
    (hC : C = content fs.sdb K (512 * K.length)) (n : Nat) (off : UInt32) (s : LoadState) :
    loadHeaders fs acfile 32 n off s = (do
      let segments := (headersFrom C n off).filter fun h => h.pType = ptLoad
      let (ok, s) ← runLoad (segments.flatMap (Elf32Phdr.ops C)) s
      .ok (ok && decide ((headersFrom C n off).length = n), s)) := by
  have hstop : stopAt 32 = 32 := by decide
  induction n generalizing off s with
  | zero => rfl
  | succ n ih =>
    rw [loadHeaders, headersFrom, sysReadFile_eq _ hfile hK hC, hstop, List.length_drop]
    by_cases hin : off.toNat + 32 ≤ C.length
    · rw [if_pos hin, if_pos (show 32 ≤ C.length - off.toNat by omega)]
      simp only [bind, Except.bind, ne_eq, not_true_eq_false, if_false]
      generalize Elf32Phdr.ofBytes ((C.drop off.toNat).take 32) = h
      by_cases hload : h.pType = ptLoad
      · have hop := segmentLoad_eq hfile hK hC h s
        rw [if_pos hload, hop, List.filter_cons_of_pos (by simpa using hload), List.flatMap_cons,
          runLoad_append]
        cases runLoad (h.ops C) s with
        | error e => rfl
        | ok r =>
          obtain ⟨ok, s1⟩ := r
          cases ok with
          | false => simp [bind, Except.bind]
          | true => simp [ih, bind, Except.bind]
      · rw [if_neg hload, List.filter_cons_of_neg (by simpa using hload), ih]
        simp [bind, Except.bind]
    · rw [if_neg hin, if_neg (show ¬ 32 ≤ C.length - off.toNat by omega)]
      rfl

/-- **`load`** does what the bytes of the file ask for. -/
theorem load_eq (hfile : (fs.activelist acfile).file = some r)
    (hK : FileChain fs.sdb (fs.file r).fstClus.toNat K)
    (hC : C = content fs.sdb K (512 * K.length)) (s : LoadState) :
    load fs acfile s = (do
      let (ok, s) ← runLoad (loadOps C) s
      .ok (if ok = true ∧ HasHeaders C then some (elfHeader C).eEntry else none, s)) := by
  have hstop : stopAt ehdrSize = 52 := by decide
  have hzero : (0 : UInt32).toNat = 0 := rfl
  rw [load, sysReadFile_eq _ hfile hK hC, hstop, hzero, List.drop_zero, loadOps, loadSegments]
  by_cases hin : 52 ≤ C.length
  · rw [if_pos hin]
    simp only [bind, Except.bind, ne_eq, not_true_eq_false, if_false]
    rw [show Elf32Ehdr.ofBytes (C.take 52) = elfHeader C from rfl]
    by_cases hacc : (elfHeader C).Accepted
    · have hsize : (elfHeader C).ePhentsize.toUInt32 = 32 := by
        rw [hacc.2.2.2.2.2]
        rfl
      rw [if_pos hacc, if_pos ⟨hin, hacc⟩]
      change (loadHeaders fs acfile (elfHeader C).ePhentsize.toUInt32 _ _ s >>= _) = _
      rw [hsize, loadHeaders_eq hfile hK hC, bind_assoc]
      refine congrArg _ (funext fun r => ?_)
      obtain ⟨ok, s1⟩ := r
      have hiff : HasHeaders C ↔ (headersFrom C (elfHeader C).ePhnum.toNat (elfHeader C).ePhoff).length =
          (elfHeader C).ePhnum.toNat := ⟨fun h => h.2, fun h => ⟨⟨hin, hacc⟩, h⟩⟩
      simp [hiff, bind, Except.bind]
    · have hno : ¬ HasHeaders C := fun h => hacc h.1.2
      rw [if_neg hacc, if_neg fun h => hacc h.2]
      simp [hno, runLoad]
  · have hno : ¬ HasHeaders C := fun h => hin h.1.1
    rw [if_neg hin, if_neg fun h => hin h.1]
    simp [hno, runLoad, bind, Except.bind, show (-1 : Int32) ≠ ehdrSize.toInt32 by decide]

end Plan

end GwOS
