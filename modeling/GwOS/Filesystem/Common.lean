import GwOS.Lib.Bytes
import GwOS.Kernel.Debug

/-!
# Data model of the file system (`filesystem/common.h`)

The FAT12 volume on disk `sdb`, the in-memory tree of `struct File` nodes and the
table of open files, as the C globals hold them. A C pointer to a `struct File`
is either null or names `rootfile` or one of the 100 slots of `filelist`, hence
`Option FileRef`; the intrusive `Fa`/`FstSon`/`NextSib` links stay links.

`Fault.outOfFuel` stands for a loop that the source never leaves: every
`while (true)` walks a structure that is bounded (a FAT has fewer than 4096
entries, the file table 100 slots), so a walk longer than that bound has met a
cycle.
-/

namespace GwOS

/-! ## Constants -/

def secCnt : Nat := 2880
def bytePerSec : Nat := 512
def bytePerDirEntry : Nat := 32
def clusToSec : Nat := 31
def maxFileCnt : Nat := 100
def maxNodeCnt : Nat := 100
def maxActiveCnt : Nat := 10

/-- Value of a C expression stored in a `uint16_t`. -/
def u16 (n : Nat) : Nat := n % 65536

/-- One disk sector (`uint8_t buff[512]`). -/
abbrev Sector := Bytes 512

/-- The content of a disk, by sector number. -/
abbrev Disk := Nat → Sector

/-- The 11-byte `Filename` of a directory entry. -/
abbrev Name := Bytes 11

/-! ## Strings -/

/-- A C string, without its end mark. -/
abbrev Str := List UInt8

/-- Copies a string into an array of `cap` bytes. -/
def store (cap : Nat) (str : Str) : Except Fault Str :=
  if str.length < cap then .ok str else .error .outOfBounds

theorem store_ok {cap : Nat} {str : Str} (h : str.length < cap) : store cap str = .ok str := if_pos h

/-- What has been stored is the string, and fits. -/
theorem store_eq {cap : Nat} {u v : Str} (h : store cap u = .ok v) : v = u ∧ u.length < cap := by
  rw [store] at h
  split at h
  · next hlt => exact ⟨(Except.ok.inj h).symm, hlt⟩
  · cases h

/-! ## Nodes of the in-memory tree -/

/-- The target of a non-null `struct File*`. -/
inductive FileRef where
  | rootfile
  | slot (i : Fin 100)
  deriving DecidableEq, Repr

/-- `struct File`. -/
structure File where
  filename : Name
  attr : UInt8
  reserved : Bytes 10
  wrtTime : UInt16
  wrtDate : UInt16
  fstClus : UInt16
  fileSize : UInt32
  fa : Option FileRef
  fstSon : Option FileRef
  nextSib : Option FileRef
  used : Bool
  deriving DecidableEq

/-- `enum FileOpenType`. -/
inductive FileOpenType where
  | readOnly
  | writeOnly
  | readWrite
  deriving DecidableEq, Repr

/-- `struct AFBLNode`: one staged sector of an open file. -/
structure AFBLNode where
  buff : Sector
  next : Option (Fin 100)
  used : Bool
  deriving DecidableEq

/-- `struct ActiveFile`: one entry of the open-file table. -/
structure ActiveFile where
  file : Option FileRef
  refCnt : Int
  type : FileOpenType
  head : Option (Fin 100)
  buffsize : UInt32
  used : Bool
  deriving DecidableEq

/-! ## The whole state -/

/-- The numerals of `Fin 100` rest on this. -/
instance slotsNeZero : NeZero 100 := ⟨by decide⟩

/-- The disks, the globals of `file.c` and the console. -/
structure Fs where
  sda : Disk
  sdb : Disk
  rootfile : File
  filelist : Fin 100 → File
  activeCnt : Int
  activelist : Fin 10 → ActiveFile
  afblNodelist : Fin 100 → AFBLNode
  /-- Everything `printf` has written, oldest first. -/
  console : List String

namespace Fs

/-- `*p` for a non-null `struct File* p`. -/
def file (s : Fs) : FileRef → File
  | .rootfile => s.rootfile
  | .slot i => s.filelist i

/-- `*p = f` for a non-null `struct File* p`. -/
def setFile (s : Fs) (r : FileRef) (f : File) : Fs :=
  match r with
  | .rootfile => { s with rootfile := f }
  | .slot i => { s with filelist := Function.update s.filelist i f }

/-- `AFBLNodelist[j] = node`. -/
def setNode (s : Fs) (j : Fin 100) (node : AFBLNode) : Fs :=
  { s with afblNodelist := Function.update s.afblNodelist j node }

/-- `activelist[k] = acfile`. -/
def setActive (s : Fs) (k : Fin 10) (acfile : ActiveFile) : Fs :=
  { s with activelist := Function.update s.activelist k acfile }

def printf (s : Fs) (msg : String) : Fs := { s with console := s.console ++ [msg] }

/-! Reading a state back after one of these updates. -/

theorem file_slot (s : Fs) (i : Fin 100) : s.file (.slot i) = s.filelist i := rfl

@[simp] theorem file_setFile_self (s : Fs) (r : FileRef) (f : File) :
    (s.setFile r f).file r = f := by
  cases r <;> simp [setFile, file]

theorem file_setFile_ne (s : Fs) {r q : FileRef} (f : File) (h : q ≠ r) :
    (s.setFile r f).file q = s.file q := by
  cases r <;> cases q <;> simp_all [setFile, file, Function.update_of_ne]

@[simp] theorem filelist_setFile_rootfile (s : Fs) (f : File) :
    (s.setFile .rootfile f).filelist = s.filelist := rfl

@[simp] theorem filelist_setFile_slot (s : Fs) (i : Fin 100) (f : File) :
    (s.setFile (.slot i) f).filelist = Function.update s.filelist i f := rfl

@[simp] theorem rootfile_setFile_slot (s : Fs) (i : Fin 100) (f : File) :
    (s.setFile (.slot i) f).rootfile = s.rootfile := rfl

@[simp] theorem sdb_setFile (s : Fs) (r : FileRef) (f : File) :
    (s.setFile r f).sdb = s.sdb := by cases r <;> rfl

@[simp] theorem sda_setFile (s : Fs) (r : FileRef) (f : File) :
    (s.setFile r f).sda = s.sda := by cases r <;> rfl

@[simp] theorem activelist_setFile (s : Fs) (r : FileRef) (f : File) :
    (s.setFile r f).activelist = s.activelist := by cases r <;> rfl

@[simp] theorem afblNodelist_setFile (s : Fs) (r : FileRef) (f : File) :
    (s.setFile r f).afblNodelist = s.afblNodelist := by cases r <;> rfl

@[simp] theorem file_printf (s : Fs) (msg : String) (r : FileRef) :
    (s.printf msg).file r = s.file r := by cases r <;> rfl

@[simp] theorem sdb_printf (s : Fs) (msg : String) : (s.printf msg).sdb = s.sdb := rfl

@[simp] theorem file_setNode (s : Fs) (j : Fin 100) (node : AFBLNode) (r : FileRef) :
    (s.setNode j node).file r = s.file r := by cases r <;> rfl

@[simp] theorem file_setActive (s : Fs) (k : Fin 10) (a : ActiveFile) (r : FileRef) :
    (s.setActive k a).file r = s.file r := by cases r <;> rfl

@[simp] theorem file_setSdb (s : Fs) (d : Disk) (r : FileRef) :
    ({ s with sdb := d } : Fs).file r = s.file r := by cases r <;> rfl

end Fs

end GwOS
