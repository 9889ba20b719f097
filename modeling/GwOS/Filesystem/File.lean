import GwOS.Filesystem.Disk

/-!
# Nodes, directory entries and open files (`filesystem/file.c`)

The slot allocators, the decoder of directory entries, the writer of directory
entries, the open-file table with its staged sectors and the release of a
cluster chain.
-/

namespace GwOS

/-- Steps after which a walk along the FAT has met a cycle. -/
def walkFuel : Nat := 5000

/-- `clusID` is an end-of-chain mark. -/
def isEndMark (clusID : Nat) : Bool := 0xFF8 ≤ clusID && clusID ≤ 0xFFF

/-! ## File slots -/

/-- `init_new_file`; the `Reserved` bytes keep their old content. -/
def initNewFile (file : File) : File :=
  { file with
    used := true
    filename := Bytes.zero 11
    fa := none
    attr := 0
    wrtTime := 0
    wrtDate := 0
    fstClus := 0
    fileSize := 0
    fstSon := none
    nextSib := none }

/-- `file_init`. -/
def fileInit (s : Fs) : Fs :=
  { s with
    rootfile := initNewFile s.rootfile
    filelist := fun i => { s.filelist i with used := false }
    activeCnt := 0
    afblNodelist := fun j => { s.afblNodelist j with used := false }
    activelist := fun k => { s.activelist k with used := false } }

/-- The first slot of `filelist` that is not in use. -/
def emptySlot (s : Fs) : Option (Fin 100) :=
  (List.finRange 100).find? fun i => !(s.filelist i).used

/-- `get_empty_file`. -/
def getEmptyFile (s : Fs) : Option FileRef × Fs :=
  match emptySlot s with
  | some i => (some (.slot i), s.setFile (.slot i) (initNewFile (s.filelist i)))
  | none => (none, s)

/-- `init_file`. -/
def initFile (s : Fs) (file fa : FileRef) (filename : Name) (attr : UInt8)
    (wrtTime wrtDate fstClus : UInt16) (fileSize : UInt32) : Fs :=
  s.setFile file
    { s.file file with
      fa := some fa
      filename := filename
      attr := attr
      wrtTime := wrtTime
      wrtDate := wrtDate
      fstClus := fstClus
      fileSize := fileSize
      fstSon := none
      nextSib := none }

/-- The fields `make_file_from_sector` decodes from the entry at offset `st`. -/
def decodeFile (file : File) (fa : FileRef) (buff : Sector) (st : Nat) : File :=
  { file with
    fa := some fa
    filename := Bytes.ofFn fun i => buff.get (st + i)
    attr := buff.get (st + 11)
    reserved := Bytes.ofFn fun i => buff.get (st + 12 + i)
    wrtTime := getU16 buff (st + 22)
    wrtDate := getU16 buff (st + 24)
    fstClus := getU16 buff (st + 26)
    fileSize := getU32 buff (st + 28) }

/-- `make_file_from_sector`. -/
def makeFileFromSector (s : Fs) (fa : FileRef) (buff : Sector) (st : Nat) :
    Option FileRef × Fs :=
  match getEmptyFile s with
  | (none, s) => (none, s)
  | (some r, s) => (some r, s.setFile r (decodeFile (s.file r) fa buff st))

/-! ## Writing directory entries -/

/-- The loop of `create_dir_entry`: through the root directory when `clusID` is
zero, else along the chain. Returns whether the entry was stored and the value
of `clusID` the loop ended with. -/
def createDirEntryLoop (file : File) :
    Nat → Disk → Nat → Nat → Except Fault (Bool × Nat × Disk)
  | 0, _, _, _ => .error .outOfFuel
  | n + 1, d, clusID, secID =>
    if clusID = 0 ∧ secID = 33 then .ok (false, clusID, d)
    else if clusID ≠ 0 ∧ isEndMark clusID then .ok (false, clusID, d)
    else do
      let (done, d) ← createDirEntryInSector d secID file
      if done then pure (true, clusID, d)
      else if clusID = 0 then createDirEntryLoop file n d clusID (u16 (secID + 1))
      else
        let clusID := getFatNextCluster d clusID
        createDirEntryLoop file n d clusID (u16 (clusID + clusToSec))

/-- `create_dir_entry`. The cluster appended to a full directory is linked
behind `clusID`, which at that point holds the end mark of the chain. -/
def createDirEntry (s : Fs) (dir file : FileRef) : Except Fault (Bool × Fs) := do
  let clusID := if dir = .rootfile then 0 else (s.file dir).fstClus.toNat
  let secID := if dir = .rootfile then 19 else u16 (clusID + clusToSec)
  let (done, clusID, d) ← createDirEntryLoop (s.file file) walkFuel s.sdb clusID secID
  if done then pure (true, { s with sdb := d })
  else if clusID = 0 then pure (false, { s with sdb := d })
  else
    let (newClus, d) ← appendACluster d clusID
    let (done, d) ← createDirEntryInSector d (u16 (newClus + clusToSec)) (s.file file)
    pure (done, { s with sdb := d })

/-- The padded name `".          "` or `"..         "`. -/
def dotName (dots : Nat) : Name := Bytes.ofFn fun i => if i < dots then 0x2E else 0x20

/-- `file->used = false`. -/
def markUnused (s : Fs) (r : FileRef) : Fs := s.setFile r { s.file r with used := false }

/-- `write_empty_directory`. `init_file` dereferences the slot it is given
without a test, so running out of slots is a null dereference. -/
def writeEmptyDirectory (s : Fs) (fa dir : FileRef) : Except Fault (Bool × Fs) :=
  match getEmptyFile s with
  | (none, _) => .error .nullDeref
  | (some dot, s) => do
    let s := initFile s dot dir (dotName 1) (s.file dir).attr (s.file dir).wrtTime
      (s.file dir).wrtDate (s.file dir).fstClus (s.file dir).fileSize
    let (done, s) ← createDirEntry s dir dot
    if !done then pure (false, markUnused s dot)
    else
      match getEmptyFile s with
      | (none, _) => .error .nullDeref
      | (some dotdot, s) => do
        let s := initFile s dotdot dir (dotName 2) (s.file fa).attr (s.file fa).wrtTime
          (s.file fa).wrtDate (s.file fa).fstClus (s.file fa).fileSize
        let (done, s) ← createDirEntry s dir dotdot
        if !done then pure (false, markUnused s dotdot)
        else
          let s := s.setFile dir { s.file dir with fstSon := some dot }
          pure (true, s.setFile dot { s.file dot with nextSib := some dotdot })

/-! ## Staged sectors -/

/-- The first node of `AFBLNodelist` that is not in use. -/
def emptyNode (s : Fs) : Option (Fin 100) :=
  (List.finRange 100).find? fun j => !(s.afblNodelist j).used

/-- `get_empty_AFBLNode`, with `init_new_AFBLNode`. -/
def getEmptyAFBLNode (s : Fs) : Option (Fin 100) × Fs :=
  match emptyNode s with
  | some j => (some j, s.setNode j { buff := Bytes.zero 512, next := none, used := true })
  | none => (none, s)

/-- `init_AFBLNode`. -/
def initAFBLNode (s : Fs) (node : Option (Fin 100)) (writeBuff : Sector)
    (next : Option (Fin 100)) : Except Fault Fs :=
  match node with
  | none => .error .nullDeref
  | some j => .ok (s.setNode j { s.afblNodelist j with next := next, buff := writeBuff })

/-! ## Open files -/

/-- `active_file_open`. -/
def activeFileOpen (s : Fs) (k : Fin 10) (file : FileRef) (type : FileOpenType) : Fs :=
  let s := { s with activeCnt := s.activeCnt + 1 }
  s.setActive k
    { s.activelist k with
      file := some file
      refCnt := 1
      type := type
      head := none
      buffsize := 0 }

/-- The loop of `active_file_close`: one staged sector after the other goes to
the next cluster of the file. -/
def flushNodes : Nat → Fs → Nat → Option (Fin 100) → Except Fault Fs
  | 0, _, _, _ => .error .outOfFuel
  | _ + 1, s, _, none => .ok s
  | n + 1, s, clusID, some now => do
    let d ← writeSector s.sdb (u16 (clusID + clusToSec)) (s.afblNodelist now).buff
    let next := (s.afblNodelist now).next
    let s := { s with sdb := d }.setNode now { s.afblNodelist now with used := false }
    flushNodes n s (getFatNextCluster d clusID) next

/-- `active_file_close`. -/
def activeFileClose (s : Fs) (k : Fin 10) : Except Fault Fs := do
  let s := { s with activeCnt := s.activeCnt - 1 }
  match (s.activelist k).file with
  | none => .error .nullDeref
  | some r =>
    let s := s.setFile r { s.file r with fileSize := (s.activelist k).buffsize }
    let s ← flushNodes 101 s (s.file r).fstClus.toNat (s.activelist k).head
    pure (s.setActive k
      { s.activelist k with
        file := none
        refCnt := 0
        type := .readOnly
        head := none
        buffsize := 0 })

/-- `open_file`: share an entry for the same file and type, else take a free one. -/
def openFile (s : Fs) (file : FileRef) (type : FileOpenType) : Option (Fin 10) × Fs :=
  match (List.finRange 10).find? fun k =>
      (s.activelist k).file = some file ∧ (s.activelist k).type = type with
  | some k =>
    (some k, s.setActive k { s.activelist k with refCnt := (s.activelist k).refCnt + 1 })
  | none =>
    match (List.finRange 10).find? fun k => (s.activelist k).refCnt = 0 with
    | some k => (some k, activeFileOpen s k file type)
    | none => (none, s)

/-- `close_file`. -/
def closeFile (s : Fs) (k : Fin 10) : Except Fault Fs :=
  let s := s.setActive k { s.activelist k with refCnt := (s.activelist k).refCnt - 1 }
  if (s.activelist k).refCnt = 0 then activeFileClose s k else .ok s

/-! ## Releasing a chain -/

/-- The loop of `clear_file`. -/
def clearChain : Nat → Disk → Nat → Nat → Except Fault Disk
  | 0, _, _, _ => .error .outOfFuel
  | n + 1, d, clusID, nextClus =>
    if isEndMark clusID then .ok d
    else do
      let d ← clearCluster d clusID
      let d ← writeFatNextCluster d clusID 0x000
      clearChain n d nextClus (getFatNextCluster d nextClus)

/-- `clear_file`. -/
def clearFile (s : Fs) (file : FileRef) : Except Fault Fs := do
  let clusID := (s.file file).fstClus.toNat
  let d ← clearChain walkFuel s.sdb clusID (getFatNextCluster s.sdb clusID)
  pure { s with sdb := d }

end GwOS
