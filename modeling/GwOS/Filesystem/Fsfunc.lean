import GwOS.Filesystem.File

/-!
# File-system operations (`filesystem/fsfunc.c`)

Mounting (`build_all_tree`), lookup, creation, writing, appending and deletion,
over the in-memory tree and the disk together. The sibling lists and the tree
recursion run on fuel: the file table has 100 slots, so a sibling list or a
nesting longer than that does not end. The stack of the machine, 4 KiB on which every
`build_tree` and `delete_directory` that is under way has its frame, is not modelled.
-/

namespace GwOS

/-- Steps after which a walk along sibling links has met a cycle. -/
def sibFuel : Nat := 101

/-! ## Mounting -/

section BuildTree

variable (recur : Fs → FileRef → Nat → Except Fault (Option FileRef × Fs)) (fa : FileRef)

/-- Append the new node to the sibling list: `head` and `now` are the first and the last
node of the list built so far. -/
def linkLast (s : Fs) (head now : Option FileRef) (node : FileRef) : Option FileRef × Fs :=
  match now with
  | none => (some node, s)
  | some last => (head, s.setFile last { s.file last with nextSib := some node })

/-- The body of the `for` loop of `build_tree` for a used entry. A subdirectory other
than `.` and `..` is read by the recursive call `recur`. -/
def buildEntry (buff : Sector) (i : Nat) (head now : Option FileRef) (s : Fs) :
    Except Fault (Option FileRef × Option FileRef × Fs) :=
  match makeFileFromSector s fa buff i with
  | (none, _) => .error .nullDeref
  | (some node, s) =>
    let (head, s) := linkLast s head now node
    if (s.file node).attr = 0x10 ∧ (s.file node).filename.get 0 ≠ 0x2E then do
      let (son, s) ← recur s node (s.file node).fstClus.toNat
      pure (head, some node, s.setFile node { s.file node with fstSon := son })
    else .ok (head, some node, s)

/-- The `for` loop of `build_tree` over the entries of one sector. -/
def buildEntries (buff : Sector) :
    List Nat → Option FileRef → Option FileRef → Fs →
      Except Fault (Option FileRef × Option FileRef × Fs)
  | [], head, now, s => .ok (head, now, s)
  | i :: rest, head, now, s =>
    if buff.get i = 0xE5 ∨ buff.get i = 0 then buildEntries buff rest head now s
    else do
      let (head, now, s) ← buildEntry recur fa buff i head now s
      buildEntries buff rest head now s

/-- The `while` loop of `build_tree` over the sectors of a directory. -/
def buildSectors :
    Nat → Nat → Nat → Option FileRef → Option FileRef → Fs →
      Except Fault (Option FileRef × Fs)
  | 0, _, _, _, _, _ => .error .outOfFuel
  | n + 1, clusID, secID, head, now, s =>
    if clusID = 0 ∧ secID = 33 then .ok (head, s)
    else if clusID ≠ 0 ∧ isEndMark clusID then .ok (head, s)
    else do
      let buff ← readSector s.sdb secID
      let (head, now, s) ← buildEntries recur fa buff dirEntryOffsets head now s
      if clusID = 0 then buildSectors n clusID (u16 (secID + 1)) head now s
      else
        let clusID := getFatNextCluster s.sdb clusID
        buildSectors n clusID (u16 (clusID + clusToSec)) head now s

end BuildTree

/-- `build_tree`; `clusID = 0` is the root directory. -/
def buildTree : Nat → Fs → FileRef → Nat → Except Fault (Option FileRef × Fs)
  | 0, _, _, _ => .error .outOfFuel
  | n + 1, s, fa, clusID =>
    let secID := if clusID = 0 then 19 else u16 (clusID + clusToSec)
    buildSectors (buildTree n) fa walkFuel clusID secID none none s

/-- `build_all_tree`. -/
def buildAllTree (s : Fs) : Except Fault Fs := do
  let (son, s) ← buildTree sibFuel s .rootfile 0
  pure (s.setFile .rootfile { s.rootfile with fstSon := son })

/-- `filesystem_init`: what the next boot does. -/
def filesystemInit (s : Fs) : Except Fault Fs := buildAllTree (fileInit s)

/-! ## Lookup -/

/-- The loop of `is_file_exist`. -/
def findSib (s : Fs) (filename : Name) : Nat → Option FileRef → Except Fault (Option FileRef)
  | 0, _ => .error .outOfFuel
  | _ + 1, none => .ok none
  | n + 1, some now =>
    if (s.file now).filename = filename then .ok (some now)
    else findSib s filename n (s.file now).nextSib

/-- `is_file_exist`. -/
def isFileExist (s : Fs) (dir : FileRef) (filename : Name) : Except Fault (Option FileRef) :=
  findSib s filename sibFuel (s.file dir).fstSon

/-! ## Creation -/

/-- What both creation functions print when the name is taken. -/
def nameTakenMsg (attr : UInt8) : String :=
  if attr = 0x20 then "There is a directory with the same name in this path.\n"
  else "There is a file with the same name in this path\n"

/-- `create_empty_file`. -/
def createEmptyFile (s : Fs) (dir : FileRef) (filename : Name) (attr : UInt8)
    (wrtTime wrtDate : UInt16) : Except Fault (Bool × Fs) := do
  match ← isFileExist s dir filename with
  | some p => pure (false, s.printf (nameTakenMsg (s.file p).attr))
  | none =>
    let (clusID, d) ← findEmptyCluster s.sdb
    let s := { s with sdb := d }
    if (clusID : Int) = -1 then pure (false, s)
    else
      match getEmptyFile s with
      | (none, _) => .error .nullDeref
      | (some file, s) => do
        let s := initFile s file dir filename attr wrtTime wrtDate (UInt16.ofNat clusID) 0
        let (done, s) ← createDirEntry s dir file
        if !done then pure (false, markUnused s file)
        else
          let d ← writeFatNextCluster s.sdb clusID 0xFFF
          let s := { s with sdb := d }
          let s := s.setFile file { s.file file with nextSib := (s.file dir).fstSon }
          pure (true, s.setFile dir { s.file dir with fstSon := some file })

/-- `create_empty_directory`. -/
def createEmptyDirectory (s : Fs) (dir : FileRef) (filename : Name)
    (wrtTime wrtDate : UInt16) : Except Fault (Bool × Fs) := do
  match ← isFileExist s dir filename with
  | some p => pure (false, s.printf (nameTakenMsg (s.file p).attr))
  | none =>
    let (clusID, d) ← findEmptyCluster s.sdb
    let s := { s with sdb := d }
    if (clusID : Int) = -1 then pure (false, s)
    else
      match getEmptyFile s with
      | (none, _) => .error .nullDeref
      | (some subdir, s) => do
        let s := initFile s subdir dir filename 0x10 wrtTime wrtDate (UInt16.ofNat clusID) 0
        let (done, s) ← createDirEntry s dir subdir
        if !done then pure (false, markUnused s subdir)
        else
          let d ← writeFatNextCluster s.sdb clusID 0xFFF
          let s := { s with sdb := d }
          let (done, s) ← writeEmptyDirectory s dir subdir
          if !done then pure (false, markUnused s subdir)
          else
            let s := s.setFile subdir { s.file subdir with nextSib := (s.file dir).fstSon }
            pure (true, s.setFile dir { s.file dir with fstSon := some subdir })

/-! ## Writing -/

/-- The end of the block below: give up when no cluster was found, else link a new
node behind `now`. `false` is the `return false` of the callers. -/
def linkNext (s : Fs) (clusID newClusID : Nat) (now : Option (Fin 100)) :
    Except Fault (Bool × Nat × Option (Fin 100) × Fs) :=
  if (newClusID : Int) = -1 then .ok (false, clusID, now, s)
  else
    match now with
    | none => .error .nullDeref
    | some j =>
      let (next, s) := getEmptyAFBLNode s
      let s := s.setNode j { s.afblNodelist j with next := next }
      match next with
      | none => .ok (false, newClusID, now, s)
      | some _ => .ok (true, newClusID, next, s)

/-- The block that `write_file` (twice) and `write_file_from_sda` run before
they stage another sector: step to the next cluster, growing the chain at its
end, and link a new node. -/
def nextStage (s : Fs) (clusID : Nat) (now : Option (Fin 100)) :
    Except Fault (Bool × Nat × Option (Fin 100) × Fs) :=
  let newClusID := getFatNextCluster s.sdb clusID
  if isEndMark newClusID then do
    let (newClusID, d) ← appendACluster s.sdb clusID
    linkNext { s with sdb := d } clusID newClusID now
  else linkNext s clusID newClusID now

/-- The local variables of `write_file`. -/
structure WriteLocals where
  size : Nat
  id : Nat
  cnt : Nat
  buff : Sector
  now : Option (Fin 100)
  clusID : Nat

/-- Stage the full buffer: the body shared by the loop of `write_file` and its
last, partial sector. -/
def stageBuff (s : Fs) (w : WriteLocals) : Except Fault (Bool × WriteLocals × Fs) := do
  let w := { w with cnt := w.cnt + 1 }
  let (ok, w, s) ←
    if w.cnt > 1 then do
      let (ok, clusID, now, s) ← nextStage s w.clusID w.now
      pure (ok, { w with clusID := clusID, now := now }, s)
    else pure (true, w, s)
  if !ok then pure (false, w, s)
  else
    let s ← initAFBLNode s w.now w.buff none
    pure (true, w, s)

/-- The `for` loop of `write_file` over the typed characters. The store `buff[id + 1] = 0` is one
behind the buffer and hits nothing here. In the object file of the repository it clears the low
byte of `s_len`, so that of a text of 512 characters or more the loop stages a prefix. -/
def writeChars : List UInt8 → Fs → WriteLocals → Except Fault (Bool × WriteLocals × Fs)
  | [], s, w => .ok (true, w, s)
  | c :: rest, s, w => do
    let w := if w.id < bytePerSec then { w with buff := w.buff.set w.id c } else w
    let (ok, w, s) ←
      if w.id = bytePerSec - 1 then
        stageBuff s { w with buff := w.buff.set (w.id + 1) 0 }
      else pure (true, w, s)
    if !ok then pure (false, w, s)
    else writeChars rest s { w with id := (w.id + 1) % bytePerSec, size := w.size + 1 }

/-- `write_file`, with the text that is typed. `vscanf` reads it into `value[1000]` and copies it
from there into `s`. -/
def writeFile (s : Fs) (k : Fin 10) (content : List UInt8) : Except Fault (Bool × Fs) :=
  if (s.activelist k).type = .readOnly then .ok (false, s)
  else
    let (now, s) := getEmptyAFBLNode s
    let s := s.setActive k { s.activelist k with head := now }
    match (s.activelist k).file with
    | none => .error .nullDeref
    | some file => do
      let s := s.printf "Please enter content: \n"
      let content ← store 1000 content
      let w : WriteLocals := ⟨0, 0, 0, Bytes.zero 512, now, (s.file file).fstClus.toNat⟩
      let (ok, w, s) ← writeChars content s w
      if !ok then pure (false, s)
      else
        let (ok, w, s) ←
          if w.id > 0 then
            stageBuff s
              { w with buff := Bytes.ofFn fun i => if w.id ≤ i then 0x00 else w.buff.get i }
          else pure (true, w, s)
        if !ok then pure (false, s)
        else
          let d ← writeFatNextCluster s.sdb w.clusID 0xFFF
          let s := { s with sdb := d }
          pure (true, s.setActive k { s.activelist k with buffsize := UInt32.ofNat w.size })

/-- The loop of `write_file_from_sda`: `n` sectors are left, the next is `i`. -/
def copyFromSda : Nat → Nat → Fs → Nat → Option (Fin 100) → Except Fault (Bool × Fs)
  | 0, _, s, _, _ => .ok (true, s)
  | n + 1, i, s, clusID, now => do
    let (ok, clusID, now, s) ←
      if i ≥ 1 then nextStage s clusID now else pure (true, clusID, now, s)
    if !ok then pure (false, s)
    else
      let s ← initAFBLNode s now (s.sda (300 + i)) none
      copyFromSda n (i + 1) s clusID now

/-- `DIV_ROUND_UP(filesize, 512)` in `uint32_t` arithmetic. -/
def divRoundUp512 (filesize : UInt32) : Nat := (filesize.toNat + 511) % 2 ^ 32 / 512

/-- `write_file_from_sda`. -/
def writeFileFromSda (s : Fs) (k : Fin 10) (filesize : UInt32) : Except Fault (Bool × Fs) :=
  if (s.activelist k).type = .readOnly then .ok (false, s)
  else
    let (now, s) := getEmptyAFBLNode s
    let s := s.setActive k { s.activelist k with head := now }
    match (s.activelist k).file with
    | none => .error .nullDeref
    | some file => do
      let (ok, s) ← copyFromSda (divRoundUp512 filesize) 0 s (s.file file).fstClus.toNat now
      if !ok then pure (false, s)
      else pure (true, s.setActive k { s.activelist k with buffsize := filesize })

/-! ## Deletion -/

/-- Make `next` follow the predecessor `pre`, or be the first son of `fa`. -/
def relink (s : Fs) (fa : FileRef) (pre next : Option FileRef) : Fs :=
  match pre with
  | some p => s.setFile p { s.file p with nextSib := next }
  | none => s.setFile fa { s.file fa with fstSon := next }

/-- The loop of `delete_file_from_fa`. It goes on after the removal, with the
removed node as `pre`. -/
def unlinkSib (fa file : FileRef) :
    Nat → Fs → Option FileRef → Option FileRef → Bool → Except Fault (Bool × Fs)
  | 0, _, _, _, _ => .error .outOfFuel
  | _ + 1, s, none, _, found => .ok (found, s)
  | n + 1, s, some now, pre, found =>
    if now = file then
      let s := relink s fa pre (s.file now).nextSib
      unlinkSib fa file n s (s.file now).nextSib (some now) true
    else unlinkSib fa file n s (s.file now).nextSib (some now) found

/-- `delete_file_from_fa`. -/
def deleteFileFromFa (s : Fs) (fa file : FileRef) : Except Fault (Bool × Fs) := do
  let (found, s) ← unlinkSib fa file sibFuel s (s.file fa).fstSon none false
  if !found then
    if (s.file file).attr = 0x10 then
      pure (false, s.printf "No such directory in this path.\n")
    else pure (false, s.printf "No such file in this directory.\n")
  else pure (true, s)

/-- `delete_file`. -/
def deleteFile (s : Fs) (dir file : FileRef) : Except Fault (Bool × Fs) := do
  let (found, s) ← deleteFileFromFa s dir file
  if !found then pure (false, s)
  else
    let s ← clearFile s file
    pure (true, markUnused s file)

/-- The loop of `is_dir_empty`. Both of its exits return `false`. -/
def emptyLoop (s : Fs) : Nat → Option FileRef → Except Fault Bool
  | 0, _ => .error .outOfFuel
  | _ + 1, none => .ok false
  | n + 1, some son =>
    if (s.file son).filename.get 0 ≠ 0x2E then .ok false
    else emptyLoop s n (s.file son).nextSib

/-- `is_dir_empty`. -/
def isDirEmpty (s : Fs) (dir : FileRef) : Except Fault Bool :=
  emptyLoop s sibFuel (s.file dir).fstSon

/-- The body of the loop of `delete_directory` for one child; `recur` is the recursive
call with `rc = true`. The results of both calls are ignored. -/
def deleteSon (recur : Fs → FileRef → FileRef → Except Fault (Bool × Fs)) (dir : FileRef)
    (s : Fs) (son : FileRef) : Except Fault Fs :=
  if (s.file son).filename.get 0 ≠ 0x2E then
    Prod.snd <$> (if (s.file son).attr = 0x10 then recur s dir son else deleteFile s dir son)
  else .ok s

/-- The loop of `delete_directory` over the children. The link to the next child is
read from the child after it has been deleted. -/
def deleteSons (recur : Fs → FileRef → FileRef → Except Fault (Bool × Fs)) (dir : FileRef) :
    Nat → Fs → Option FileRef → Except Fault Fs
  | 0, _, _ => .error .outOfFuel
  | _ + 1, s, none => .ok s
  | n + 1, s, some son => do
    let s ← deleteSon recur dir s son
    deleteSons recur dir n s (s.file son).nextSib

/-- `delete_directory`. -/
def deleteDirectory : Nat → Fs → FileRef → FileRef → Bool → Except Fault (Bool × Fs)
  | 0, _, _, _, _ => .error .outOfFuel
  | n + 1, s, fa, dir, rc => do
    let blocked ← if rc then pure false else isDirEmpty s dir
    if blocked then pure (false, s.printf "Error: This directory is not empty.\n")
    else
      let (found, s) ← deleteFileFromFa s fa dir
      if !found then pure (false, s)
      else
        let s ←
          if rc then
            deleteSons (fun s fa dir => deleteDirectory n s fa dir true) dir sibFuel s
              (s.file dir).fstSon
          else pure s
        let s ← clearFile s dir
        pure (true, markUnused s dir)

/-! ## Appending -/

/-- The first loop of `append_file`: the last cluster of the chain. -/
def lastCluster (d : Disk) : Nat → Nat → Except Fault Nat
  | 0, _ => .error .outOfFuel
  | n + 1, clusID =>
    let next := getFatNextCluster d clusID
    if isEndMark next then .ok clusID else lastCluster d n next

/-- The copy loop of `append_file`. -/
def appendLoop : Nat → Disk → Nat → Nat → Nat → Sector → Except Fault (Bool × Disk)
  | 0, _, _, _, _, _ => .error .outOfFuel
  | n + 1, d, clusID1, clusID2, id, buff2 =>
    if isEndMark clusID1 then do
      let d ← writeSector d (u16 (clusID2 + clusToSec)) buff2
      pure (true, d)
    else do
      let buff1 ← readSector d (u16 (clusID1 + clusToSec))
      let buff2 : Sector :=
        Bytes.ofFn fun i => if id ≤ i then buff1.get (i - id) else buff2.get i
      let d ← writeSector d (u16 (clusID2 + clusToSec)) buff2
      let (ok, clusID2, buff2, d) ←
        if id < bytePerSec - 1 then do
          let (clusID2, d) ← appendACluster d clusID2
          if (clusID2 : Int) = -1 then pure (false, clusID2, buff2, d)
          else
            let buff2 ← readSector d (u16 (clusID2 + clusToSec))
            pure (true, clusID2, buff2, d)
        else pure (true, clusID2, buff2, d)
      if !ok then pure (false, d)
      else
        let st := bytePerSec - id
        let buff2 : Sector :=
          Bytes.ofFn fun i => if i < bytePerSec - st then buff1.get (st + i) else buff2.get i
        appendLoop n d (getFatNextCluster d clusID1) clusID2 (bytePerSec - st) buff2

/-- `append_file`. -/
def appendFile (s : Fs) (file1 file2 : FileRef) : Except Fault (Bool × Fs) := do
  let clusID1 := (s.file file1).fstClus.toNat
  let clusID2 ← lastCluster s.sdb walkFuel (s.file file2).fstClus.toNat
  let buff2 ← readSector s.sdb (u16 (clusID2 + clusToSec))
  let id := (s.file file2).fileSize.toNat % bytePerSec
  let (ok, clusID2, buff2, d) ←
    if id = 0 then do
      let (clusID2, d) ← appendACluster s.sdb clusID2
      if (clusID2 : Int) = -1 then pure (false, clusID2, buff2, d)
      else
        let buff2 ← readSector d (u16 (clusID2 + clusToSec))
        pure (true, clusID2, buff2, d)
    else pure (true, clusID2, buff2, s.sdb)
  if !ok then pure (false, { s with sdb := d })
  else
    let (ok, d) ← appendLoop walkFuel d clusID1 clusID2 id buff2
    let s := { s with sdb := d }
    if !ok then pure (false, s)
    else
      pure (true, s.setFile file2
        { s.file file2 with fileSize := (s.file file2).fileSize + (s.file file1).fileSize })

end GwOS
