import GwOS.Filesystem.Fsfunc

/-!
# The shell (`kernel/shell.c` and the commands of `filesystem/fsfunc.c`)

The commands that walk a path and then change the directory, the tree or the table of
open files. A path is the text that `scanf` has read, an arbitrary sequence of bytes; it
is copied into arrays of 50 bytes, of which `generate_filename` copies the two parts of a
component into arrays of 30, and a text that does not fit is a `Fault.outOfBounds`.

`try_cd` hands the directory it has found back through the pointer it is given, and the
path through a string. After a leading `/` it passes the address of a local variable on,
so that what the rest of the path leads to is stored there. It calls itself for every
component; the 4 KiB of stack that its calls share with `shell` are not modelled.
-/

namespace GwOS

/-- The byte `'/'`. -/
def slash : UInt8 := 0x2F

/-- The strings `"."` and `".."`. -/
def dots (n : Nat) : Str := List.replicate n 0x2E

/-! ## Paths -/

/-- `to_upper`. -/
def toUpper (c : UInt8) : UInt8 := if 0x61 ≤ c ∧ c ≤ 0x7A then c - 0x61 + 0x41 else c

/-- `standard_dir_path`: capital letters, and no `/` at the end. -/
def standardDirPath (dirPath : Str) : Str :=
  if dirPath = [slash] then dirPath
  else if dirPath.getLast? = some slash then dirPath.dropLast.map toUpper
  else dirPath.map toUpper

/-- `divede_path`: the first component and what stands behind its `/`. -/
def dividePath (dirPath : Str) : Str × Str :=
  (dirPath.takeWhile (· ≠ slash), (dirPath.dropWhile (· ≠ slash)).drop 1)

/-- What stands before the last `/`. -/
def beforeLast (path : Str) : Str := ((path.reverse.dropWhile (· ≠ slash)).drop 1).reverse

/-- What stands behind the last `/`. -/
def behindLast (path : Str) : Str := (path.reverse.takeWhile (· ≠ slash)).reverse

/-- `fa_dir_path`. -/
def faDirPath (dirPath : Str) : Str :=
  if beforeLast dirPath = [] then [slash] else beforeLast dirPath

/-- The character at `i`, or the blank that a name is filled up with. -/
def charOrBlank (str : Str) (i : Nat) : UInt8 := (str[i]?).getD 0x20

/-- `generate_filename`. The name is also changed to capital letters in place. -/
def generateFilename (name : Str) : Except Fault Name :=
  if name = dots 1 then .ok (dotName 1)
  else if name = dots 2 then .ok (dotName 2)
  else do
    let fst := (name.takeWhile (· ≠ 0x2E)).map toUpper
    let ext := ((name.dropWhile (· ≠ 0x2E)).filter (· ≠ 0x2E)).map toUpper
    -- `char fst[30]` and `char ext[30]` have no end mark
    let fst ← store 31 fst
    let ext ← store 31 ext
    .ok (Bytes.ofFn fun i => if i < 8 then charOrBlank fst i else charOrBlank ext (i - 8))

/-- `change_directory`. -/
def changeDirectory (s : Fs) (dir : FileRef) (subdirname : Name) : Except Fault (Option FileRef) :=
  if subdirname = dotName 1 then .ok (some dir)
  else if subdirname = dotName 2 then .ok (s.file dir).fa
  else findSib s subdirname sibFuel (s.file dir).fstSon

/-- What `try_cd` does to the path for one component. -/
def enterPath (nowPath fstDir : Str) : Except Fault Str :=
  if fstDir = dots 2 then .ok (faDirPath nowPath)
  else if fstDir = dots 1 then .ok nowPath
  else store 50 ((if nowPath = [slash] then nowPath else nowPath ++ [slash]) ++ fstDir)

/-- The recursion of `try_cd`, on the length of the path: the result, `*ptr_to_nowDir` and
`nowPath`. -/
def tryCdLoop (s : Fs) : Nat → Str → FileRef → Str → Except Fault (Bool × FileRef × Str)
  | 0, _, _, _ => .error .outOfFuel
  | _ + 1, [], nowDir, nowPath => .ok (true, nowDir, nowPath)
  | n + 1, c :: dirPath, nowDir, nowPath =>
    if c = slash then do
      -- the rest of the path is walked with a pointer to a local variable
      let (ok, _, nowPath) ← tryCdLoop s n dirPath .rootfile [slash]
      .ok (ok, .rootfile, nowPath)
    else do
      let (fstDir, resPath) := dividePath (c :: dirPath)
      let filename ← generateFilename fstDir
      match ← changeDirectory s nowDir filename with
      | none => .ok (false, nowDir, nowPath)
      | some nowDir => do
        let nowPath ← enterPath nowPath (fstDir.map toUpper)
        tryCdLoop s n resPath nowDir nowPath

/-- `try_cd`. -/
def tryCd (s : Fs) (dirPath : Str) (nowDir : FileRef) (nowPath : Str) :
    Except Fault (Bool × FileRef × Str) :=
  tryCdLoop s (dirPath.length + 1) dirPath nowDir nowPath

/-- `file_path_to_dir_path`. -/
def filePathToDirPath (filePath : Str) : Except Fault (Str × Name) := do
  let filename ← generateFilename (behindLast filePath)
  .ok (standardDirPath (beforeLast filePath), filename)

/-- What every command below starts with: the path is read and the directory before its
last `/` is walked to. `none` when `try_cd` fails. -/
def locateDir (s : Fs) (nowDir : FileRef) (filePath : Str) :
    Except Fault (Option (FileRef × Name)) := do
  let filePath ← store 50 filePath
  let (dirPath, filename) ← filePathToDirPath filePath
  let (ok, nowDir, _) ← tryCd s dirPath nowDir []
  .ok (if ok then some (nowDir, filename) else none)

/-! ## Reading -/

/-- What `printf("%c", c)` puts on the console: nothing for the end mark of a string. -/
def charText (c : UInt8) : String :=
  if c = 0x00 then "" else String.singleton (Char.ofNat c.toNat)

/-- The inner loop of `read_file`: the bytes of one sector, with the value of `size`. -/
def printBytes (fileSize : UInt32) : List UInt8 → Fs → Nat → Fs × Nat
  | [], s, size => (s, size)
  | b :: bytes, s, size =>
    let s := s.printf (charText b)
    if size + 1 = fileSize.toNat then (s, size + 1) else printBytes fileSize bytes s (size + 1)

/-- The loop of `read_file`. -/
def readLoop (fileSize : UInt32) : Nat → Fs → Nat → Nat → Except Fault Fs
  | 0, _, _, _ => .error .outOfFuel
  | n + 1, s, clusID, size =>
    if isEndMark clusID then .ok s
    else do
      let buff ← readSector s.sdb (u16 (clusID + clusToSec))
      let (s, size) := printBytes fileSize (List.ofFn buff) s size
      readLoop fileSize n s (getFatNextCluster s.sdb clusID) size

/-- `read_file`. -/
def readFile (s : Fs) (k : Fin 10) : Except Fault Fs :=
  match (s.activelist k).file with
  | none => .error .nullDeref
  | some file => do
    let s ← readLoop (s.file file).fileSize walkFuel s (s.file file).fstClus.toNat 0
    .ok (s.printf "\n")

/-! ## Commands -/

/-- `generate_date`. -/
def generateDate (year month day : Int) : UInt16 :=
  UInt16.ofNat (((year - 1980) * 2 ^ 9 + month * 2 ^ 5 + day) % 2 ^ 16).toNat

/-- `generate_time`. -/
def generateTime (hour minute : Int) : UInt16 :=
  UInt16.ofNat ((hour * 2 ^ 11 + minute * 2 ^ 5) % 2 ^ 16).toNat

/-- `shell_touch`. -/
def shellTouch (s : Fs) (nowDir : FileRef) (filePath : Str) : Except Fault Fs := do
  match ← locateDir s nowDir filePath with
  | none => .ok (s.printf "Failed to create empty file.\n")
  | some (nowDir, filename) =>
    let (done, s) ← createEmptyFile s nowDir filename 0x20 (generateTime 0 0)
      (generateDate (0 + 1900) 1 0)
    .ok (s.printf (if done then "Successfully created empty file.\n"
      else "Failed to create empty file.\n"))

/-- `shell_mkdir`. -/
def shellMkdir (s : Fs) (nowDir : FileRef) (filePath : Str) : Except Fault Fs := do
  match ← locateDir s nowDir filePath with
  | none => .ok (s.printf "Failed to create empty directory.\n")
  | some (nowDir, filename) =>
    let (done, s) ← createEmptyDirectory s nowDir filename (generateTime 0 0)
      (generateDate (0 + 1900) 1 0)
    .ok (s.printf (if done then "Successfully created empty directory.\n"
      else "Failed to create empty directory.\n"))

/-- The lookup of `shell_cat`, `shell_write` and `shell_rm`: a file that is no directory, with
the directory it is in, or the message that is printed. -/
def locateFile (s : Fs) (nowDir : FileRef) (filePath : Str) :
    Except Fault ((FileRef × FileRef) ⊕ String) := do
  match ← locateDir s nowDir filePath with
  | none => .ok (.inr "Failed to open and print the file.\n")
  | some (nowDir, filename) =>
    match ← isFileExist s nowDir filename with
    | none => .ok (.inr "Error: No such a file.\n")
    | some file =>
      if (s.file file).attr = 0x10 then .ok (.inr "Error: It's a directory.\n")
      else .ok (.inl (nowDir, file))

/-- `shell_cat`. -/
def shellCat (s : Fs) (nowDir : FileRef) (filePath : Str) : Except Fault Fs := do
  match ← locateFile s nowDir filePath with
  | .inr msg => .ok (s.printf msg)
  | .inl (_, file) =>
    match openFile s file .readOnly with
    | (none, s) =>
      .ok (s.printf "The active file list is full. Failed to open and print the file.\n")
    | (some k, s) => do
      let s ← readFile s k
      closeFile s k

/-- `shell_write`; `writer` is `write_file` or `write_file_from_sda`. -/
def shellWrite (s : Fs) (nowDir : FileRef) (filePath : Str)
    (writer : Fs → Fin 10 → Except Fault (Bool × Fs)) : Except Fault Fs := do
  match ← locateFile s nowDir filePath with
  | .inr msg => .ok (s.printf msg)
  | .inl (_, file) =>
    match openFile s file .readWrite with
    | (none, s) =>
      .ok (s.printf "The active file list is full. Failed to open and print the file.\n")
    | (some k, s) => do
      let (done, s) ← writer s k
      let s := s.printf (if done then "Successfully wroted the file\n"
        else "Failed to write the file\n")
      closeFile s k

/-- The lookups of `shell_append`, up to `open_file`: both files, or the message that is
printed. The second path is walked only when the first leads to a directory. -/
def locateFiles (s : Fs) (nowDir : FileRef) (filePath1 filePath2 : Str) :
    Except Fault ((FileRef × FileRef) ⊕ String) := do
  let filePath1 ← store 50 filePath1
  let filePath2 ← store 50 filePath2
  let (dirPath1, filename1) ← filePathToDirPath filePath1
  let (dirPath2, filename2) ← filePathToDirPath filePath2
  let (ok1, nowDir1, _) ← tryCd s dirPath1 nowDir []
  if !ok1 then .ok (.inr "Failed to open and print the file.\n")
  else do
    let (ok2, nowDir2, _) ← tryCd s dirPath2 nowDir []
    if !ok2 then .ok (.inr "Failed to open and print the file.\n")
    else do
      let file1 ← isFileExist s nowDir1 filename1
      let file2 ← isFileExist s nowDir2 filename2
      match file1, file2 with
      | some file1, some file2 =>
        if (s.file file1).attr = 0x10 ∨ (s.file file2).attr = 0x10 then
          .ok (.inr "Error: Can't append a directory\n")
        else .ok (.inl (file1, file2))
      | _, _ => .ok (.inr "Error: Both files should exist.\n")

/-- `shell_append`. -/
def shellAppend (s : Fs) (nowDir : FileRef) (filePath1 filePath2 : Str) : Except Fault Fs := do
  match ← locateFiles s nowDir filePath1 filePath2 with
  | .inr msg => .ok (s.printf msg)
  | .inl (file1, file2) =>
    let (acfile1, s) := openFile s file1 .readOnly
    let (acfile2, s) := openFile s file2 .readWrite
    match acfile1, acfile2 with
    | some k1, some k2 =>
      match (s.activelist k1).file, (s.activelist k2).file with
      | some file1, some file2 => do
        let (done, s) ← appendFile s file1 file2
        .ok (s.printf (if done then "Successfullly appended file.\n"
          else "Failed to append file. \n"))
      | _, _ => .error .nullDeref
    | _, _ => .error .nullDeref

/-- `shell_rm`, with the second argument that `-r` takes. -/
def shellRm (s : Fs) (nowDir : FileRef) (arg filePath : Str) : Except Fault Fs := do
  let arg ← store 10 arg
  if arg = [0x2D, 0x72] then
    match ← locateDir s nowDir filePath with
    | none => .ok (s.printf "Failed to open and print the file.\n")
    | some (nowDir, filename) =>
      match ← isFileExist s nowDir filename with
      | none => .ok (s.printf "Error: No such a file.\n")
      | some file =>
        let (done, s) ← deleteDirectory sibFuel s nowDir file true
        .ok (s.printf (if done then "Successfully deleted the directory recursively.\n"
          else "Failed to delete the directory recursively.\n"))
  else
    match ← locateFile s nowDir arg with
    | .inr msg => .ok (s.printf msg)
    | .inl (nowDir, file) =>
      let (done, s) ← deleteFile s nowDir file
      .ok (s.printf (if done then "Successfully deleted the file.\n"
        else "Failed to delete the file.\n"))

/-- `shell_rmdir`. The file is not tested before its children are looked at. -/
def shellRmdir (s : Fs) (nowDir : FileRef) (filePath : Str) : Except Fault Fs := do
  match ← locateDir s nowDir filePath with
  | none => .ok (s.printf "Failed to open and print the file.\n")
  | some (nowDir, filename) =>
    match ← isFileExist s nowDir filename with
    | none => .error .nullDeref
    | some file =>
      let (done, s) ← deleteDirectory sibFuel s nowDir file false
      .ok (s.printf (if done then "Successfully deleted the directory.\n"
        else "Failed to delete the directory.\n"))

/-- The text of a string on the console. -/
def Str.text (str : Str) : String := String.ofList (str.map fun c => Char.ofNat c.toNat)

/-- The variables of `shell`, with what its commands work on. -/
structure Shell where
  fs : Fs
  nowDir : FileRef
  nowPath : Str

/-- The commands, with the words that `scanf` reads for them. -/
inductive Cmd where
  | cd (path : Str)
  | touch (path : Str)
  | mkdir (path : Str)
  | cat (path : Str)
  | write (path : Str) (content : List UInt8)
  | append (path1 path2 : Str)
  | rm (arg path : Str)
  | rmdir (path : Str)
  | sdb (path : Str) (filesize : UInt32) (path' : Str)

namespace Shell

/-- `shell_cd`. -/
def cd (sh : Shell) (path : Str) : Except Fault Shell := do
  let path ← store 50 path
  let (ok, nextDir, nextPath) ← tryCd sh.fs (standardDirPath path) sh.nowDir sh.nowPath
  if ok then .ok ⟨sh.fs.printf "Successfully changed directory.\n", nextDir, nextPath⟩
  else .ok { sh with fs := sh.fs.printf "Failed to change directory.\n" }

/-- `shell_write_program_to_sdb`. -/
def writeProgramToSdb (s : Fs) (path : Str) (filesize : UInt32) (path' : Str) : Except Fault Fs := do
  let s ← shellTouch s .rootfile path
  shellWrite s .rootfile path' fun s k => writeFileFromSda s k filesize

/-- The commands that leave `nowDir` and `nowPath` alone. -/
def onFs (s : Fs) (nowDir : FileRef) : Cmd → Except Fault Fs
  | .cd _ => .ok s
  | .touch path => shellTouch s nowDir path
  | .mkdir path => shellMkdir s nowDir path
  | .cat path => shellCat s nowDir path
  | .write path content => shellWrite s nowDir path fun s k => writeFile s k content
  | .append path1 path2 => shellAppend s nowDir path1 path2
  | .rm arg path => shellRm s nowDir arg path
  | .rmdir path => shellRmdir s nowDir path
  | .sdb path filesize path' => writeProgramToSdb s path filesize path'

/-- One round of the loop of `shell`, up to the next prompt. -/
def step (sh : Shell) (cmd : Cmd) : Except Fault Shell := do
  let sh ← match cmd with
    | .cd path => sh.cd path
    | _ => (onFs sh.fs sh.nowDir cmd).map fun fs => { sh with fs }
  .ok { sh with fs := sh.fs.printf ("\n" ++ sh.nowPath.text ++ ":") }

/-- A round is a command and the printing of the prompt. -/
theorem step_eq (sh : Shell) (cmd : Cmd) :
    sh.step cmd = (match cmd with
      | .cd path => sh.cd path
      | _ => (onFs sh.fs sh.nowDir cmd).map fun fs => { sh with fs }) >>=
    fun sh => .ok { sh with fs := sh.fs.printf ("\n" ++ sh.nowPath.text ++ ":") } := by
  cases cmd <;> rfl

/-- The rounds of the loop, as long as each of them ends. -/
def run : List Cmd → Shell → Except Fault Shell
  | [], sh => .ok sh
  | cmd :: cmds, sh => sh.step cmd >>= run cmds

end Shell

end GwOS
