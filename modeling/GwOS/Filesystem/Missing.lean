import GwOS.Filesystem.Prompt
import GwOS.Filesystem.WorkingDir

/-!
# Commands on missing paths

`cat`, `write`, `append`, `rm`, `rm -r`, `rmdir` and `exec` each walk a path by hand and look up
its last component. When the walk and the look-up find no file, six of them print a message and
change nothing else. `rmdir` does not test what `is_file_exist` returns: it goes on to the first
son of the null pointer. And what the walk finds need not be what the path names: `/E` is looked
up in the current directory, and `/D/E` in the root.

- `missing_harmless_iff`: when a command whose path names no file comes back to the prompt with
  everything as it was.
- `NamesFile.named`: a path that nowhere starts from the root is walked as it is written.
- `locateDir_returns`: a path of at most 30 characters fits the arrays it is copied to.
-/

namespace GwOS

/-- `shell_exec`; `launch` is what `fork`, `wait` and `execv` do with the open file. -/
def shellExec (s : Fs) (nowDir : FileRef) (filePath : Str)
    (launch : Fs → Fin 10 → Except Fault Fs) : Except Fault Fs := do
  match ← locateFile s nowDir filePath with
  | .inr msg => .ok (s.printf msg)
  | .inl (_, file) =>
    match openFile s file .readOnly with
    | (none, s) =>
      .ok (s.printf "The active file list is full. Failed to open and print the file.\n")
    | (some k, s) => do
      let s ← launch s k
      closeFile s k

/-- The commands that look for files. -/
inductive PathCmd where
  | cat (path : Str)
  | write (path : Str)
  | append (path1 path2 : Str)
  | rm (path : Str)
  | rmR (path : Str)
  | rmdir (path : Str)
  | exec (path : Str)

namespace PathCmd

/-- The command, with `write_file` or `write_file_from_sda` as `writer`. -/
def run (writer : Fs → Fin 10 → Except Fault (Bool × Fs)) (launch : Fs → Fin 10 → Except Fault Fs)
    (s : Fs) (nowDir : FileRef) : PathCmd → Except Fault Fs
  | cat path => shellCat s nowDir path
  | write path => shellWrite s nowDir path writer
  | append path1 path2 => shellAppend s nowDir path1 path2
  | rm path => shellRm s nowDir path []
  | rmR path => shellRm s nowDir [0x2D, 0x72] path
  | rmdir path => shellRmdir s nowDir path
  | exec path => shellExec s nowDir path launch

end PathCmd

/-- Where a path starts: at the root, when it has a leading `/`. -/
def startDir (nowDir : FileRef) (path : Str) : FileRef :=
  if path.head? = some slash then .rootfile else nowDir

/-- The file that the path stands for: the components of its directory part are followed one after
the other, and its last component is looked up where they lead. -/
def PathNames (s : Fs) (nowDir : FileRef) (path : Str) (file : FileRef) : Prop :=
  ∃ dir name,
    follow s (startDir nowDir path) (Pathname.components slash (beforeLast path)) =
      .ok (some dir) ∧
    generateFilename (behindLast path) = .ok name ∧ isFileExist s dir name = .ok (some file)

/-- The path leads to no file: its directory part does not resolve, or its last component does
not exist there. -/
def LeadsNowhere (s : Fs) (nowDir : FileRef) (path : Str) : Prop :=
  ∀ file, ¬ PathNames s nowDir path file

/-- Somewhere the path starts from the root: with a `/` in front, or with two in a row in its
directory part. -/
def Restarts (path : Str) : Prop :=
  path.head? = some slash ∨ lastAbsolute true (standardDirPath (beforeLast path)) ≠ none

/-- The text of the path fits the arrays that the walk copies its parts to. -/
def Fits (s : Fs) (nowDir : FileRef) (path : Str) : Prop := ∃ r, locateDir s nowDir path = .ok r

/-- **What the walk finds** along a path that nowhere starts from the root is what the path names.
Behind a `/` that starts again from the root, the walk ends in the root instead (`prompt_lies`). -/
theorem NamesFile.named {s : Fs} {f : Forest (Fin 100)} {nowDir file : FileRef} {path : Str}
    (hn : NamesFile s nowDir path file) (h : MemTree s f) (hroot : s.rootfile.fa = none)
    (hrel : ¬ Restarts path) : PathNames s nowDir path file := by
  obtain ⟨hhead, hlast⟩ := not_or.mp hrel
  obtain ⟨dir, name, hloc, hex⟩ := hn
  rw [locateDir] at hloc
  obtain ⟨path', hstore, hwalk⟩ := bind_eq_ok.mp hloc
  obtain ⟨rfl, -⟩ := store_eq hstore
  obtain ⟨⟨dirPath, filename⟩, hpath, hfound⟩ := bind_eq_ok.mp hwalk
  obtain ⟨filename', hname, hpair⟩ := bind_eq_ok.mp hpath
  cases hpair
  obtain ⟨⟨ok, d, now⟩, hcd, hend⟩ := bind_eq_ok.mp hfound
  cases ok with
  | false => cases hend
  | true =>
    cases hend
    obtain ⟨w, hends, -⟩ := tryCdLoop_ends h hroot hcd
    rw [Ends, not_not.mp hlast] at hends
    obtain ⟨rfl, hfollow⟩ := hends
    rw [follow_standardDirPath] at hfollow
    refine ⟨_, _, ?_, hname, hex⟩
    rwa [startDir, if_neg hhead]

namespace PathCmd

/-- `P` holds of a path that the command looks a file up by; `append` needs both of its files. The
word `-r` behind `rm` is no path. -/
def Lacks (P : Str → Prop) : PathCmd → Prop
  | append path1 path2 => P path1 ∨ P path2
  | rm path => path ≠ [0x2D, 0x72] ∧ P path
  | cat path | write path | rmR path | rmdir path | exec path => P path

/-- What the command takes for its file: `rm -r` and `rmdir` any file, the others none that is a
directory. -/
def Takes (s : Fs) (file : FileRef) : PathCmd → Prop
  | rmR _ | rmdir _ => True
  | _ => (s.file file).attr ≠ 0x10

/-- A file that the command looks for is missing. -/
def Missing (s : Fs) (nowDir : FileRef) : PathCmd → Prop := Lacks (LeadsNowhere s nowDir)

/-- A file that the command looks for is missing, and no other is taken for it where the walk ends
when the path starts again from the root. -/
def Misses (s : Fs) (nowDir : FileRef) (cmd : PathCmd) : Prop :=
  cmd.Lacks fun path => LeadsNowhere s nowDir path ∧
    (Restarts path → ∀ file, NamesFile s nowDir path file → ¬ cmd.Takes s file)

/-- The words of the command fit their arrays, and for `rmdir` the directory part of the path
does not resolve. -/
def Harmless (s : Fs) (nowDir : FileRef) : PathCmd → Prop
  | cat path | write path | rmR path | exec path => Fits s nowDir path
  | rm path => path.length < 10 ∧ Fits s nowDir path
  | append path1 path2 => ∃ r, locateFiles s nowDir path1 path2 = .ok r
  | rmdir path => locateDir s nowDir path = .ok none

end PathCmd

/-- The call returns to the prompt, and only the console has changed. -/
def OnlyPrints (s : Fs) (x : Except Fault Fs) : Prop := ∃ msg, x = .ok (s.printf msg)

theorem OnlyPrints.not_error {s : Fs} {e : Fault} : ¬ OnlyPrints s (.error e) := by
  rintro ⟨msg, h⟩
  cases h

section LookUp

variable {s : Fs} {f : Forest (Fin 100)} {nowDir : FileRef} {path : Str}

/-- Nothing is taken for a file that is missing. -/
theorem not_taken (h : MemTree s f) (hroot : s.rootfile.fa = none) {T : FileRef → Prop}
    (hmiss : LeadsNowhere s nowDir path ∧
      (Restarts path → ∀ file, NamesFile s nowDir path file → ¬ T file)) {file : FileRef}
    (hn : NamesFile s nowDir path file) : ¬ T file := by
  by_cases hr : Restarts path
  · exact hmiss.2 hr file hn
  · exact absurd (hn.named h hroot hr) (hmiss.1 file)

/-- In the directory that the walk ends in, the file is not found. -/
theorem isFileExist_missing (h : MemTree s f) (hroot : s.rootfile.fa = none)
    (hdir : HasRef f nowDir) (hmiss : ∀ file, ¬ NamesFile s nowDir path file) {dir : FileRef} {name : Name}
    (hloc : locateDir s nowDir path = .ok (some (dir, name))) :
    isFileExist s dir name = .ok none := by
  have hex := h.isFileExist_ok (h.locateDir_hasRef hroot hdir hloc) name
  cases hfind : (childrenOf f dir).tops.find? fun i => (s.filelist i).filename = name with
  | none =>
    rw [hfind] at hex
    exact hex
  | some i =>
    rw [hfind] at hex
    exact absurd ⟨dir, name, hloc, hex⟩ (hmiss (.slot i))

/-- A command that walks to the directory and looks the file up there, with a message for a
directory that is not found; `absent` is what it does without the file. -/
theorem locateDir_onlyPrints (h : MemTree s f) (hroot : s.rootfile.fa = none)
    (hdir : HasRef f nowDir) (hmiss : ∀ file, ¬ NamesFile s nowDir path file)
    {k : Option (FileRef × Name) → Except Fault Fs} (absent : Except Fault Fs)
    (hnone : ∃ msg, k none = .ok (s.printf msg))
    (hsome : ∀ dir name, isFileExist s dir name = .ok none → k (some (dir, name)) = absent) :
    OnlyPrints s (locateDir s nowDir path >>= k) ↔
      locateDir s nowDir path = .ok none ∨ (Fits s nowDir path ∧ OnlyPrints s absent) := by
  cases hloc : locateDir s nowDir path with
  | error e =>
    constructor
    · exact fun hp => absurd hp OnlyPrints.not_error
    · rintro (hnone | ⟨⟨r, hr⟩, -⟩)
      · cases hnone
      · cases hloc.symm.trans hr
  | ok r =>
    have hfits : Fits s nowDir path := ⟨r, hloc⟩
    cases r with
    | none => exact ⟨fun _ => .inl rfl, fun _ => hnone⟩
    | some found =>
      obtain ⟨dir, name⟩ := found
      show OnlyPrints s (k (some (dir, name))) ↔ _
      rw [hsome dir name (isFileExist_missing h hroot hdir hmiss hloc)]
      constructor
      · exact fun hp => .inr ⟨hfits, hp⟩
      · rintro (hnone | ⟨-, hp⟩)
        · cases hnone
        · exact hp

/-- A command that starts with `locateFile`, where the walk finds nothing but directories. -/
theorem locateFile_onlyPrints (h : MemTree s f) (hroot : s.rootfile.fa = none)
    (hdir : HasRef f nowDir)
    (hmiss : ∀ file, NamesFile s nowDir path file → ¬ (s.file file).attr ≠ 0x10)
    {k : (FileRef × FileRef) ⊕ String → Except Fault Fs}
    (hmsg : ∀ msg, k (.inr msg) = .ok (s.printf msg)) :
    OnlyPrints s (locateFile s nowDir path >>= k) ↔ Fits s nowDir path := by
  rw [locateFile]
  cases hloc : locateDir s nowDir path with
  | error e =>
    refine iff_of_false OnlyPrints.not_error ?_
    rintro ⟨r, hr⟩
    cases hloc.symm.trans hr
  | ok r =>
    refine iff_of_true ?_ ⟨r, hloc⟩
    cases r with
    | none => exact ⟨_, hmsg _⟩
    | some r =>
      obtain ⟨dir, name⟩ := r
      show OnlyPrints s ((isFileExist s dir name >>= _) >>= k)
      have hex := h.isFileExist_ok (h.locateDir_hasRef hroot hdir hloc) name
      generalize ((childrenOf f dir).tops.find? fun i => (s.filelist i).filename = name).map
        FileRef.slot = found at hex
      cases found with
      | none =>
        refine ⟨"Error: No such a file.\n", ?_⟩
        rw [hex]
        exact hmsg _
      | some file =>
        refine ⟨"Error: It's a directory.\n", ?_⟩
        have hdirectory := not_not.mp (hmiss file ⟨dir, name, hloc, hex⟩)
        rw [hex]
        show ((if (s.file file).attr = 0x10 then _ else _) >>= k) = _
        rw [if_pos hdirectory]
        exact hmsg _

theorem locateFiles_inl {path1 path2 : Str} {files : FileRef × FileRef}
    (hrun : locateFiles s nowDir path1 path2 = .ok (.inl files)) :
    (NamesFile s nowDir path1 files.1 ∧ (s.file files.1).attr ≠ 0x10) ∧
      NamesFile s nowDir path2 files.2 ∧ (s.file files.2).attr ≠ 0x10 := by
  rw [locateFiles] at hrun
  obtain ⟨path1', hstore1, hrun⟩ := bind_eq_ok.mp hrun
  obtain ⟨path2', hstore2, hrun⟩ := bind_eq_ok.mp hrun
  obtain ⟨⟨dir1, name1⟩, hpath1, hrun⟩ := bind_eq_ok.mp hrun
  obtain ⟨⟨dir2, name2⟩, hpath2, hrun⟩ := bind_eq_ok.mp hrun
  obtain ⟨⟨ok1, nowDir1, now1⟩, hcd1, hrun⟩ := bind_eq_ok.mp hrun
  cases ok1 with
  | false => cases hrun
  | true =>
    obtain ⟨⟨ok2, nowDir2, now2⟩, hcd2, hrun⟩ := bind_eq_ok.mp hrun
    cases ok2 with
    | false => cases hrun
    | true =>
      obtain ⟨file1, hex1, hrun⟩ := bind_eq_ok.mp hrun
      obtain ⟨file2, hex2, hrun⟩ := bind_eq_ok.mp hrun
      have hloc1 : locateDir s nowDir path1 = .ok (some (nowDir1, name1)) := by
        rw [locateDir]
        exact bind_eq_ok.mpr ⟨_, hstore1, bind_eq_ok.mpr ⟨_, hpath1, bind_eq_ok.mpr ⟨_, hcd1, rfl⟩⟩⟩
      have hloc2 : locateDir s nowDir path2 = .ok (some (nowDir2, name2)) := by
        rw [locateDir]
        exact bind_eq_ok.mpr ⟨_, hstore2, bind_eq_ok.mpr ⟨_, hpath2, bind_eq_ok.mpr ⟨_, hcd2, rfl⟩⟩⟩
      cases file1 with
      | none => cases hrun
      | some file1 =>
        cases file2 with
        | none => cases hrun
        | some file2 =>
          dsimp only at hrun
          split at hrun
          · cases hrun
          · next hplain =>
            obtain ⟨hplain1, hplain2⟩ := not_or.mp hplain
            cases hrun
            exact ⟨⟨⟨_, _, hloc1, hex1⟩, hplain1⟩, ⟨_, _, hloc2, hex2⟩, hplain2⟩

/-- `append` looks for both files before it opens one. -/
theorem shellAppend_missing {path1 path2 : Str}
    (hmiss : (∀ file, NamesFile s nowDir path1 file → ¬ (s.file file).attr ≠ 0x10) ∨
      ∀ file, NamesFile s nowDir path2 file → ¬ (s.file file).attr ≠ 0x10) :
    OnlyPrints s (shellAppend s nowDir path1 path2) ↔
      ∃ r, locateFiles s nowDir path1 path2 = .ok r := by
  rw [shellAppend]
  cases hloc : locateFiles s nowDir path1 path2 with
  | error e =>
    refine iff_of_false OnlyPrints.not_error ?_
    rintro ⟨r, hr⟩
    cases hr
  | ok r =>
    refine iff_of_true ?_ ⟨r, rfl⟩
    cases r with
    | inr msg => exact ⟨msg, rfl⟩
    | inl files =>
      obtain ⟨⟨h1, hplain1⟩, h2, hplain2⟩ := locateFiles_inl hloc
      exact hmiss.elim (fun hm => absurd hplain1 (hm _ h1)) fun hm => absurd hplain2 (hm _ h2)

/-- **Commands on missing files.** A command whose path leads to no file, and that takes no other
for it, returns to the prompt with nothing but the console changed exactly when its words fit their
arrays and it is not a `rmdir` whose directory part resolves. -/
theorem missing_harmless_iff (h : MemTree s f) (hroot : s.rootfile.fa = none)
    (hdir : HasRef f nowDir) (writer : Fs → Fin 10 → Except Fault (Bool × Fs))
    (launch : Fs → Fin 10 → Except Fault Fs) {cmd : PathCmd} (hmiss : cmd.Misses s nowDir) :
    OnlyPrints s (cmd.run writer launch s nowDir) ↔ cmd.Harmless s nowDir := by
  cases cmd with
  | cat path =>
    exact locateFile_onlyPrints h hroot hdir (fun _ => not_taken h hroot hmiss) fun _ => rfl
  | write path =>
    exact locateFile_onlyPrints h hroot hdir (fun _ => not_taken h hroot hmiss) fun _ => rfl
  | exec path =>
    exact locateFile_onlyPrints h hroot hdir (fun _ => not_taken h hroot hmiss) fun _ => rfl
  | append path1 path2 =>
    exact shellAppend_missing (hmiss.imp (fun hm _ => not_taken h hroot hm) fun hm _ => not_taken h hroot hm)
  | rm path =>
    obtain ⟨hopt, hmiss⟩ := hmiss
    show OnlyPrints s (shellRm s nowDir path []) ↔ path.length < 10 ∧ Fits s nowDir path
    rw [shellRm, store]
    by_cases hlen : path.length < 10
    · rw [if_pos hlen]
      show OnlyPrints s (if path = _ then _ else _) ↔ _
      rw [if_neg hopt]
      refine (locateFile_onlyPrints h hroot hdir (fun _ => not_taken h hroot hmiss) fun _ => rfl).trans ?_
      exact ⟨fun hf => ⟨hlen, hf⟩, And.right⟩
    · rw [if_neg hlen]
      exact iff_of_false OnlyPrints.not_error fun hsafe => hlen hsafe.1
  | rmR path =>
    have hnone : ∀ file, ¬ NamesFile s nowDir path file := fun _ hn =>
      not_taken h hroot hmiss hn trivial
    refine (locateDir_onlyPrints h hroot hdir hnone (.ok (s.printf "Error: No such a file.\n"))
      ⟨_, rfl⟩ ?_).trans ⟨?_, ?_⟩
    · intro dir name hex
      show (isFileExist s dir name >>= _) = _
      rw [hex]
      rfl
    · rintro (hnone | hf)
      · exact ⟨_, hnone⟩
      · exact hf.1
    · exact fun hf => .inr ⟨hf, _, rfl⟩
  | rmdir path =>
    have hnone : ∀ file, ¬ NamesFile s nowDir path file := fun _ hn =>
      not_taken h hroot hmiss hn trivial
    -- without a test of `file`, the null pointer is dereferenced
    refine (locateDir_onlyPrints h hroot hdir hnone (.error .nullDeref) ⟨_, rfl⟩ ?_).trans ⟨?_, .inl⟩
    · intro dir name hex
      show (isFileExist s dir name >>= _) = _
      rw [hex]
      rfl
    · rintro (hnone | ⟨-, hp⟩)
      · exact hnone
      · exact absurd hp OnlyPrints.not_error

end LookUp

/-! ## Paths that fit -/

section Fits

variable {s : Fs} {f : Forest (Fin 100)} {nowDir dir : FileRef}

theorem beforeLast_length (path : Str) : (beforeLast path).length ≤ path.length := by
  have hdrop := (List.dropWhile_sublist (· ≠ slash) (l := path.reverse)).length_le
  rw [List.length_reverse] at hdrop
  rw [beforeLast, List.length_reverse, List.length_drop]
  omega

/-- A component makes the path longer by its own length and a `/`. -/
theorem enterPath_returns {nowPath fst : Str} (h : nowPath.length + fst.length < 49) :
    ∃ nowPath', enterPath nowPath fst = .ok nowPath' ∧
      nowPath'.length ≤ max 1 (nowPath.length + fst.length + 1) := by
  rw [enterPath]
  split
  · refine ⟨_, rfl, ?_⟩
    have hbefore := beforeLast_length nowPath
    rw [faDirPath]
    split
    · exact le_max_left ..
    · exact le_max_of_le_right (by omega)
  · split
    · exact ⟨_, rfl, le_max_of_le_right (by omega)⟩
    · have hlen : ((if nowPath = [slash] then nowPath else nowPath ++ [slash]) ++ fst).length ≤
          nowPath.length + fst.length + 1 := by
        rw [List.length_append]
        split
        · omega
        · rw [List.length_append, List.length_singleton]
          omega
      exact ⟨_, store_ok (by omega), hlen.trans (le_max_right ..)⟩

/-- The induction of `try_cd`, on its fuel: what is left of the path and what has been written
of the new one fit together. -/
theorem MemTree.tryCdLoop_returns (h : MemTree s f) (hroot : s.rootfile.fa = none) {n : Nat}
    {p nowPath : Str} (hdir : HasRef f dir) (hn : p.length < n) (hp : p.length ≤ 30)
    (hlen : nowPath.length + p.length ≤ 48) :
    ∃ r, tryCdLoop s n p dir nowPath = .ok r := by
  induction n generalizing p nowPath dir with
  | zero => omega
  | succ n ih =>
    cases p with
    | nil => exact ⟨_, rfl⟩
    | cons c p =>
      rw [List.length_cons] at hn hp hlen
      rw [tryCdLoop]
      by_cases hc : c = slash
      · rw [if_pos hc]
        have hstart : [slash].length + p.length ≤ 48 := by
          rw [List.length_singleton]
          omega
        have hroot' : HasRef f .rootfile := trivial
        obtain ⟨r, hr⟩ := ih hroot' (by omega) (by omega) hstart
        exact ⟨_, bind_eq_ok.mpr ⟨r, hr, rfl⟩⟩
      · rw [if_neg hc]
        obtain ⟨fst, hfst⟩ : ∃ fst, (c :: p).takeWhile (· ≠ slash) = fst := ⟨_, rfl⟩
        obtain ⟨rest, hrest⟩ : ∃ rest, (c :: p).dropWhile (· ≠ slash) = rest := ⟨_, rfl⟩
        have hsplit : fst.length + rest.length = p.length + 1 := by
          have happ := congrArg List.length
            (List.takeWhile_append_dropWhile (p := (· ≠ slash)) (l := c :: p))
          rw [List.length_append, hfst, hrest, List.length_cons] at happ
          exact happ
        have hpos : 0 < fst.length := by
          rw [← hfst, List.takeWhile_cons, if_pos (decide_eq_true hc), List.length_cons]
          omega
        have hdiv : dividePath (c :: p) = (fst, rest.drop 1) := by
          rw [dividePath, hfst, hrest]
        rw [hdiv]
        obtain ⟨name, hname⟩ := (nameFits_iff fst).mp (.of_length (by omega))
        obtain ⟨next, hnext⟩ := h.changeDirectory_returns hdir name
        have hafter : ∀ next', next = some next' →
            ∃ r, (enterPath nowPath (fst.map toUpper) >>= fun nowPath =>
              tryCdLoop s n (rest.drop 1) next' nowPath) = .ok r := by
          rintro next' rfl
          have henter : nowPath.length + (fst.map toUpper).length < 49 := by
            rw [List.length_map]
            omega
          obtain ⟨nowPath', hpath, hlen'⟩ := enterPath_returns henter
          rw [List.length_map] at hlen'
          have hhas := h.changeDirectory_hasRef hroot hdir hnext
          have hdrop : (rest.drop 1).length = rest.length - 1 := List.length_drop
          cases hres : rest.drop 1 with
          | nil =>
            obtain ⟨m, rfl⟩ : ∃ m, n = m + 1 := ⟨n - 1, by omega⟩
            exact ⟨_, bind_eq_ok.mpr ⟨_, hpath, rfl⟩⟩
          | cons b res =>
            rw [hres, List.length_cons] at hdrop
            have hmax : nowPath'.length + (b :: res).length ≤ 48 := by
              rw [List.length_cons]
              rcases le_max_iff.mp hlen' with hone | hlong <;> omega
            have hres30 : (b :: res).length ≤ 30 ∧ (b :: res).length < n := by
              rw [List.length_cons]
              omega
            obtain ⟨r, hr⟩ := ih hhas hres30.2 hres30.1 hmax
            exact ⟨r, bind_eq_ok.mpr ⟨_, hpath, hr⟩⟩
        cases next with
        | none => exact ⟨_, bind_eq_ok.mpr ⟨_, hname, bind_eq_ok.mpr ⟨_, hnext, rfl⟩⟩⟩
        | some next' =>
          obtain ⟨r, hr⟩ := hafter next' rfl
          exact ⟨r, bind_eq_ok.mpr ⟨_, hname, bind_eq_ok.mpr ⟨_, hnext, hr⟩⟩⟩

theorem standardDirPath_length (path : Str) : (standardDirPath path).length ≤ path.length := by
  rw [standardDirPath]
  split
  · exact le_refl _
  · split
    · rw [List.length_map, List.length_dropLast]
      omega
    · rw [List.length_map]

/-- **A path of at most 30 characters fits.** -/
theorem MemTree.locateDir_returns (h : MemTree s f) (hroot : s.rootfile.fa = none)
    (hdir : HasRef f nowDir) {path : Str} (hlen : path.length ≤ 30) : Fits s nowDir path := by
  have hbehind : (behindLast path).length ≤ 30 := by
    have htake := (List.takeWhile_sublist (· ≠ slash) (l := path.reverse)).length_le
    rw [List.length_reverse] at htake
    rw [behindLast, List.length_reverse]
    omega
  have hdirPath := (standardDirPath_length (beforeLast path)).trans (beforeLast_length path)
  obtain ⟨name, hname⟩ := (nameFits_iff _).mp (.of_length hbehind)
  have hnow : ([] : Str).length + (standardDirPath (beforeLast path)).length ≤ 48 := by
    rw [List.length_nil]
    omega
  obtain ⟨r, hr⟩ := h.tryCdLoop_returns hroot hdir (Nat.lt_succ_self _) (hdirPath.trans hlen) hnow
  refine ⟨_, bind_eq_ok.mpr ⟨path, store_ok (by omega), bind_eq_ok.mpr
    ⟨(standardDirPath (beforeLast path), name), ?_, bind_eq_ok.mpr ⟨r, hr, rfl⟩⟩⟩⟩
  exact bind_eq_ok.mpr ⟨name, hname, rfl⟩

end Fits

/-- The walk of the path `E` on the volume with the one file `EEEEEEEE.EEE`. -/
theorem oneFileFs_locateDir : locateDir oneFileFs .rootfile [0x45] =
    .ok (some (.rootfile, Bytes.ofFn fun i => if i = 0 then 0x45 else 0x20)) := by
  have hcheck : returnsWith (locateDir oneFileFs .rootfile [0x45]) (fun r =>
    r == some (.rootfile, Bytes.ofFn fun i => if i = 0 then 0x45 else 0x20)) = true := by
      decide +kernel
  obtain ⟨r, hrun, hr⟩ := returnsWith_iff.mp hcheck
  rw [hrun, beq_iff_eq.mp hr]

/-- A check of what the path stands for. -/
theorem leadsNowhere_of_lookUp {s : Fs} {nowDir : FileRef} {path : Str}
    (hcheck : returnsWith (do
      match ← follow s (startDir nowDir path) (Pathname.components slash (beforeLast path)) with
      | none => .ok none
      | some dir => isFileExist s dir (← generateFilename (behindLast path)))
      (fun r => r == none) = true) : LeadsNowhere s nowDir path := by
  rintro file ⟨dir, name, hfollow, hname, hex⟩
  obtain ⟨r, hrun, hr⟩ := returnsWith_iff.mp hcheck
  rw [hfollow, hname] at hrun
  have hrun' : isFileExist s dir name = .ok r := hrun
  rw [hex] at hrun'
  rw [← Except.ok.inj hrun'] at hr
  cases hr

theorem oneFileFs_leadsNowhere : LeadsNowhere oneFileFs .rootfile [0x45] :=
  leadsNowhere_of_lookUp (by decide +kernel)

/-- `cat E` -/
theorem missing_harmless_cat : OnlyPrints oneFileFs (shellCat oneFileFs .rootfile [0x45]) := by
  have hroot : oneFileFs.rootfile.fa = none := rfl
  have hdir : HasRef (.cons 0 .nil .nil) .rootfile := trivial
  have hrel : ¬ Restarts [0x45] := by
    rintro (hhead | hlast)
    · exact absurd hhead (by decide)
    · exact hlast (by decide)
  have hmiss : PathCmd.Misses oneFileFs .rootfile (.cat [0x45]) :=
    ⟨oneFileFs_leadsNowhere, fun hr => absurd hr hrel⟩
  exact (missing_harmless_iff oneFileFs_mounted.tree hroot hdir (fun s _ => .ok (true, s))
    (fun s _ => .ok s) hmiss).mpr ⟨_, oneFileFs_locateDir⟩

/-- `rmdir E` dereferences the null pointer; and after `mkdir D` and `touch E`, `rm /D/E` removes the
file of the root. -/
theorem missing_harms_rmdir :
    (PathCmd.Missing oneFileFs .rootfile (.rmdir [0x45]) ∧
      ¬ OnlyPrints oneFileFs (shellRmdir oneFileFs .rootfile [0x45])) ∧
    ∃ sh, bootedShell.run [.mkdir [0x44], .touch [0x45]] = .ok sh ∧
      PathCmd.Missing sh.fs sh.nowDir (.rm [slash, 0x44, slash, 0x45]) ∧
      ¬ OnlyPrints sh.fs (shellRm sh.fs sh.nowDir [slash, 0x44, slash, 0x45] []) := by
  refine ⟨⟨oneFileFs_leadsNowhere, ?_⟩, ?_⟩
  · rintro ⟨msg, hrun⟩
    have hcheck : returnsWith (shellRmdir oneFileFs .rootfile [0x45]) (fun _ => true) = false := by
      decide +kernel
    rw [hrun] at hcheck
    cases hcheck
  · have hcheck : returnsWith (bootedShell.run [.mkdir [0x44], .touch [0x45]]) (fun sh =>
        returnsWith (do
          match ← follow sh.fs (startDir sh.nowDir [slash, 0x44, slash, 0x45])
            (Pathname.components slash (beforeLast [slash, 0x44, slash, 0x45])) with
          | none => .ok none
          | some dir =>
            isFileExist sh.fs dir (← generateFilename (behindLast [slash, 0x44, slash, 0x45])))
          (fun r => r == none) &&
        returnsWith (shellRm sh.fs sh.nowDir [slash, 0x44, slash, 0x45] []) fun s' =>
          (sh.fs.filelist 3).used && !(s'.filelist 3).used) = true := by decide +kernel
    obtain ⟨sh, hsh, htests⟩ := returnsWith_iff.mp hcheck
    obtain ⟨hmiss, hrm⟩ := (Bool.and_eq_true _ _).mp htests
    obtain ⟨s', hs', hused⟩ := returnsWith_iff.mp hrm
    refine ⟨sh, hsh, ⟨by decide, leadsNowhere_of_lookUp hmiss⟩, ?_⟩
    rintro ⟨msg, hprints⟩
    -- the file of the root is not in use any more
    obtain rfl : s' = sh.fs.printf msg := Except.ok.inj (hs'.symm.trans hprints)
    simp [Fs.printf] at hused

end GwOS
