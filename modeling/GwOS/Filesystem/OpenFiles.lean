import GwOS.Filesystem.Frame
import GwOS.Filesystem.Integrity

/-!
# The table of open files across commands

`open_file` and `close_file` count the references to an entry of `activelist`, and
`active_cnt` the entries in use. A command that opens and closes leaves the table as it
has found it, whatever the file and the disk hold, provided that the entries without
references name no file (`Tidy`).

- `openFiles_balanced`: every run of commands in which no `append` gets as far as
  `open_file` keeps the count of every entry.
- `append_keeps_open`: `append` opens two files and closes none.
-/

namespace GwOS

/-! ## The table -/

/-- The entries that are in use. -/
def openEntries (s : Fs) : Finset (Fin 10) := Finset.univ.filter fun k => 0 < (s.activelist k).refCnt

/-- No entry has a negative count, those without references name no file, and `active_cnt`
counts the others. -/
structure Tidy (s : Fs) : Prop where
  nonneg : ∀ k, 0 ≤ (s.activelist k).refCnt
  file : ∀ k, (s.activelist k).refCnt = 0 → (s.activelist k).file = none
  count : s.activeCnt = (openEntries s).card

/-- The table `s'` is in order, with the same counts as `s`. -/
structure Balanced (s s' : Fs) : Prop where
  tidy : Tidy s'
  cnt : s'.activeCnt = s.activeCnt
  refCnt : ∀ k, (s'.activelist k).refCnt = (s.activelist k).refCnt

theorem openEntries_congr {s s' : Fs}
    (h : ∀ k, (s'.activelist k).refCnt = (s.activelist k).refCnt) : openEntries s' = openEntries s := by
  ext k
  simp only [openEntries, Finset.mem_filter, Finset.mem_univ, true_and, h]

namespace Balanced

theorem refl {s : Fs} (h : Tidy s) : Balanced s s := ⟨h, rfl, fun _ => rfl⟩

theorem trans {s s' s'' : Fs} (h : Balanced s s') (h' : Balanced s' s'') : Balanced s s'' := by
  refine ⟨h'.tidy, ?_, fun k => ?_⟩
  · rw [h'.cnt, h.cnt]
  · rw [h'.refCnt, h.refCnt]

/-- Every entry names what it has named, or nothing where there is no reference. -/
theorem of_refs {s s' : Fs} (h : Tidy s) (hcnt : s'.activeCnt = s.activeCnt)
    (href : ∀ k, (s'.activelist k).refCnt = (s.activelist k).refCnt)
    (hfile : ∀ k, (s'.activelist k).file = (s.activelist k).file ∨ (s'.activelist k).file = none) :
    Balanced s s' := by
  refine ⟨⟨fun k => ?_, fun k hk => ?_, ?_⟩, hcnt, href⟩
  · rw [href]
    exact h.nonneg k
  · rw [href] at hk
    rcases hfile k with hf | hf
    · rw [hf]
      exact h.file k hk
    · exact hf
  · rw [hcnt, openEntries_congr href]
    exact h.count

/-- Calls that leave the table alone. -/
theorem of_eq {s s' : Fs} (h : Tidy s) (hcnt : s'.activeCnt = s.activeCnt)
    (ha : s'.activelist = s.activelist) : Balanced s s' := by
  refine of_refs h hcnt (fun k => ?_) fun k => .inl ?_ <;> rw [ha]

theorem printf {s s' : Fs} (h : Balanced s s') (msg : String) : Balanced s (s'.printf msg) :=
  h.trans (of_eq h.tidy rfl rfl)

end Balanced

/-! ## Opening and closing -/

theorem activeCnt_setFile (s : Fs) (r : FileRef) (f : File) :
    (s.setFile r f).activeCnt = s.activeCnt := by cases r <;> rfl

/-- `active_file_close` gives the entry back. -/
theorem activeFileClose_refs (s : Fs) (k : Fin 10) :
    Returns (activeFileClose s k) fun s' => s'.activeCnt = s.activeCnt - 1 ∧
      (∀ k', k' ≠ k → (s'.activelist k').refCnt = (s.activelist k').refCnt ∧
        (s'.activelist k').file = (s.activelist k').file) ∧
      (s'.activelist k).refCnt = 0 ∧ (s'.activelist k).file = none := by
  unfold activeFileClose
  dsimp only
  split
  · exact .error _
  · refine .bind (flushNodes_onlyStages _ _ _ _) fun s' hs' => .ok ⟨?_, fun k' hk => ?_, ?_, ?_⟩
    · have hcnt := hs'.cnt
      rw [activeCnt_setFile] at hcnt
      exact hcnt
    · have hrefs := hs'.refCnt k'
      have hfile := hs'.file k'
      rw [Fs.activelist_setFile] at hrefs hfile
      simp only [Fs.setActive, Function.update_of_ne hk]
      exact ⟨hrefs, hfile⟩
    · simp [Fs.setActive]
    · simp [Fs.setActive]

/-- A file is opened, read or written, and closed. -/
theorem openFile_closeFile {s s1 s2 : Fs} (h : Tidy s) {r : FileRef} {type : FileOpenType}
    {k : Fin 10} (hopen : openFile s r type = (some k, s1)) (h12 : OnlyStages s1 s2) :
    Returns (closeFile s2 k) (Balanced s) := by
  unfold openFile at hopen
  split at hopen
  · next k' hfind =>
    -- the entry is shared, so that it is not closed
    obtain ⟨rfl, rfl⟩ : k' = k ∧ _ = s1 := by simpa using hopen
    have hk : (s.activelist k').file = some r ∧ (s.activelist k').type = type := by
      simpa using List.find?_some hfind
    have hpos : (s.activelist k').refCnt ≠ 0 := by
      intro h0
      rw [h.file k' h0] at hk
      cases hk.1
    have hnonneg := h.nonneg k'
    have href : (s2.activelist k').refCnt = (s.activelist k').refCnt + 1 := by
      rw [h12.refCnt]
      simp [Fs.setActive]
    have hmore : ¬ (s2.activelist k').refCnt - 1 = 0 := by omega
    unfold closeFile
    simp only [Fs.setActive, Function.update_self, hmore, if_false]
    refine .ok (.of_refs h h12.cnt (fun j => ?_) fun j => .inl ?_)
    · by_cases hj : j = k'
      · subst hj
        simp only [Function.update_self]
        omega
      · simp only [Function.update_of_ne hj]
        rw [h12.refCnt]
        simp [Fs.setActive, hj]
    · by_cases hj : j = k'
      · subst hj
        simp only [Function.update_self]
        rw [h12.file]
        simp [Fs.setActive]
      · simp only [Function.update_of_ne hj]
        rw [h12.file]
        simp [Fs.setActive, hj]
  · split at hopen
    · next k' hfind =>
      -- the entry was free
      obtain ⟨rfl, rfl⟩ : k' = k ∧ _ = s1 := by simpa using hopen
      have h0 : (s.activelist k').refCnt = 0 := by simpa using List.find?_some hfind
      have href : (s2.activelist k').refCnt - 1 = 0 := by
        rw [h12.refCnt]
        simp [activeFileOpen, Fs.setActive]
      have hcnt : s2.activeCnt = s.activeCnt + 1 := h12.cnt
      unfold closeFile
      simp only [Fs.setActive, Function.update_self, href, if_true]
      refine (activeFileClose_refs _ _).mono fun s3 h3 => ?_
      obtain ⟨hc, hother, hr, hf⟩ := h3
      have hcnt3 : s3.activeCnt = s2.activeCnt - 1 := hc
      refine .of_refs h (by omega) (fun j => ?_) fun j => ?_
      · by_cases hj : j = k'
        · rw [hj, hr, h0]
        · rw [(hother j hj).1]
          simp only [Function.update_of_ne hj]
          rw [h12.refCnt]
          simp [activeFileOpen, Fs.setActive, hj]
      · by_cases hj : j = k'
        · rw [hj]
          exact .inr hf
        · refine .inl ?_
          rw [(hother j hj).2]
          simp only [Function.update_of_ne hj]
          rw [h12.file]
          simp [activeFileOpen, Fs.setActive, hj]
    · cases hopen

theorem openFile_none {s s1 : Fs} {r : FileRef} {type : FileOpenType}
    (hopen : openFile s r type = (none, s1)) : s1 = s := by
  unfold openFile at hopen
  split at hopen
  · cases hopen
  · split at hopen
    · cases hopen
    · cases hopen
      rfl

/-! ## Commands -/

theorem shellCat_balanced {s : Fs} (h : Tidy s) (nowDir : FileRef) (path : Str) :
    Returns (shellCat s nowDir path) (Balanced s) := by
  unfold shellCat
  refine .bind .any fun x _ => ?_
  split
  · exact .ok ((Balanced.refl h).printf _)
  · split
    · next s1 hopen =>
      rw [openFile_none hopen]
      exact .ok ((Balanced.refl h).printf _)
    · next k s1 hopen =>
      exact .bind (readFile_onlyStages s1 k) fun s2 h2 => openFile_closeFile h hopen h2

theorem shellWrite_balanced {s : Fs} (h : Tidy s) (nowDir : FileRef) (path : Str)
    {writer : Fs → Fin 10 → Except Fault (Bool × Fs)}
    (hwriter : ∀ s k, Returns (writer s k) fun r => OnlyStages s r.2) :
    Returns (shellWrite s nowDir path writer) (Balanced s) := by
  unfold shellWrite
  refine .bind .any fun x _ => ?_
  split
  · exact .ok ((Balanced.refl h).printf _)
  · split
    · next s1 hopen =>
      rw [openFile_none hopen]
      exact .ok ((Balanced.refl h).printf _)
    · next k s1 hopen =>
      refine .bind (hwriter s1 k) fun y hy => ?_
      exact openFile_closeFile h hopen (hy.trans (.printf _ _))

theorem createEmptyFile_balanced {s : Fs} (h : Tidy s) (dir : FileRef) (filename : Name)
    (attr : UInt8) (wrtTime wrtDate : UInt16) :
    Returns (createEmptyFile s dir filename attr wrtTime wrtDate) fun r => Balanced s r.2 := by
  unfold createEmptyFile
  refine .bind .any fun p _ => ?_
  split
  · exact .ok ((Balanced.refl h).printf _)
  · refine .bind .any fun x _ => ?_
    dsimp only
    split
    · exact .ok (.of_eq h rfl rfl)
    · unfold getEmptyFile
      cases emptySlot { s with sdb := x.2 } with
      | none => exact .error _
      | some i =>
        refine .bind (createDirEntry_disk _ _ _) fun y hy => ?_
        have hy' : y.2.activeCnt = s.activeCnt ∧ y.2.activelist = s.activelist := by
          obtain ⟨d, hd⟩ := hy
          rw [hd]
          simp only [initFile, activeCnt_setFile, Fs.activelist_setFile, and_self]
        split
        · refine .ok (.of_eq h ?_ ?_)
          · rw [markUnused, activeCnt_setFile]
            exact hy'.1
          · rw [markUnused, Fs.activelist_setFile]
            exact hy'.2
        · refine .bind .any fun d _ => .ok (.of_eq h ?_ ?_)
          · rw [activeCnt_setFile, activeCnt_setFile]
            exact hy'.1
          · rw [Fs.activelist_setFile, Fs.activelist_setFile]
            exact hy'.2

theorem shellTouch_balanced {s : Fs} (h : Tidy s) (nowDir : FileRef) (path : Str) :
    Returns (shellTouch s nowDir path) (Balanced s) := by
  unfold shellTouch
  refine .bind .any fun x _ => ?_
  split
  · exact .ok ((Balanced.refl h).printf _)
  · exact .bind (createEmptyFile_balanced h _ _ _ _ _) fun y hy => .ok (hy.printf _)

/-! ## Runs -/

/-- The commands of this section. An `append` is let through when it gives up before
`open_file`: one of the two is not found, or is a directory. -/
def Cmd.Closes (s : Fs) (nowDir : FileRef) : Cmd → Prop
  | .cat _ | .write _ _ | .sdb _ _ _ => True
  | .append path1 path2 => ∀ files, locateFiles s nowDir path1 path2 ≠ .ok (.inl files)
  | _ => False

/-- Every command of the run closes what it opens. -/
def ClosingRun : List Cmd → Shell → Prop
  | [], _ => True
  | cmd :: cmds, sh => cmd.Closes sh.fs sh.nowDir ∧ ∀ sh', sh.step cmd = .ok sh' → ClosingRun cmds sh'

theorem Cmd.Closes.balanced {s : Fs} {nowDir : FileRef} {cmd : Cmd} (h : Tidy s)
    (hcmd : cmd.Closes s nowDir) : Returns (Shell.onFs s nowDir cmd) (Balanced s) := by
  cases cmd with
  | cat path => exact shellCat_balanced h nowDir path
  | write path content =>
    exact shellWrite_balanced h nowDir path fun s k => writeFile_onlyStages s k content
  | sdb path filesize path' =>
    refine .bind (shellTouch_balanced h .rootfile path) fun s' hs' => ?_
    exact (shellWrite_balanced hs'.tidy .rootfile path' fun s k =>
      writeFileFromSda_onlyStages s k filesize).mono fun s'' hs'' => hs'.trans hs''
  | append path1 path2 =>
    show Returns (shellAppend s nowDir path1 path2) (Balanced s)
    unfold shellAppend
    refine .bind .any fun x hx => ?_
    cases x with
    | inr msg => exact .ok ((Balanced.refl h).printf msg)
    | inl files => exact absurd hx (hcmd files)
  | cd path => exact hcmd.elim
  | touch path => exact hcmd.elim
  | mkdir path => exact hcmd.elim
  | rm arg path => exact hcmd.elim
  | rmdir path => exact hcmd.elim

theorem Cmd.Closes.step {sh : Shell} {cmd : Cmd} (h : Tidy sh.fs) (hcmd : cmd.Closes sh.fs sh.nowDir) :
    Returns (sh.step cmd) fun sh' => Balanced sh.fs sh'.fs := by
  have hfs := hcmd.balanced h
  have hstep : sh.step cmd = ((Shell.onFs sh.fs sh.nowDir cmd).map fun fs => { sh with fs }) >>=
      fun sh => .ok { sh with fs := sh.fs.printf ("\n" ++ sh.nowPath.text ++ ":") } := by
    cases cmd <;> first | rfl | exact hcmd.elim
  rw [hstep]
  cases hr : Shell.onFs sh.fs sh.nowDir cmd with
  | error e => exact .error _
  | ok fs => exact .ok ((hfs fs hr).printf _)

/-- **The table is balanced.** At every prompt of a run of `cat`, `write`, `sdb` and `append`
commands in which no `append` opens its files, `active_cnt` is the number of entries in use,
and both, and the count of every entry, are the same as at the first prompt. -/
theorem openFiles_balanced {cmds pre : List Cmd} {sh sh' : Shell} (h : Tidy sh.fs)
    (hrun : ClosingRun cmds sh) (hpre : pre <+: cmds) (hok : sh.run pre = .ok sh') :
    sh'.fs.activeCnt = (openEntries sh'.fs).card ∧ sh'.fs.activeCnt = sh.fs.activeCnt ∧
      openEntries sh'.fs = openEntries sh.fs ∧
      ∀ k, (sh'.fs.activelist k).refCnt = (sh.fs.activelist k).refCnt := by
  suffices hbal : Balanced sh.fs sh'.fs from
    ⟨hbal.tidy.count, hbal.cnt, openEntries_congr hbal.refCnt, hbal.refCnt⟩
  induction pre generalizing cmds sh with
  | nil =>
    cases hok
    exact .refl h
  | cons cmd pre ih =>
    cases cmds with
    | nil => exact absurd hpre.length_le (by simp)
    | cons cmd' cmds =>
      obtain ⟨rfl, htail⟩ := List.cons_prefix_cons.mp hpre
      obtain ⟨sh1, hstep, hrest⟩ := bind_eq_ok.mp hok
      have hbal := hrun.1.step h sh1 hstep
      exact hbal.trans (ih hbal.tidy (hrun.2 sh1 hstep) htail hrest)

/-- The shell at its first prompt, on an empty volume. -/
def bootedShell : Shell := ⟨emptyFs, .rootfile, [slash]⟩

theorem bootedShell_tidy : Tidy bootedShell.fs :=
  ⟨fun _ => le_refl _, fun _ _ => rfl, by decide⟩

/-- A program is installed as the file `A`, and the file is printed. -/
theorem openFiles_balanced_cat :
    ∃ sh', bootedShell.run [.sdb [0x41] 1 [0x41], .cat [0x41]] = .ok sh' ∧
      sh'.fs.activeCnt = (openEntries sh'.fs).card ∧ sh'.fs.activeCnt = 0 := by
  have hreturns : (bootedShell.run [.sdb [0x41] 1 [0x41], .cat [0x41]]).isOk = true := by
    decide +kernel
  cases hrun : bootedShell.run [.sdb [0x41] 1 [0x41], .cat [0x41]] with
  | error e =>
    rw [hrun] at hreturns
    cases hreturns
  | ok sh' =>
    have hcloses : ClosingRun [.sdb [0x41] 1 [0x41], .cat [0x41]] bootedShell :=
      ⟨trivial, fun _ _ => ⟨trivial, fun _ _ => trivial⟩⟩
    obtain ⟨hcount, hsame, -⟩ :=
      openFiles_balanced bootedShell_tidy hcloses (List.prefix_refl _) hrun
    exact ⟨sh', rfl, hcount, hsame⟩

/-- `append` leaves both of its files open: two entries are in use at the last prompt, and
none was at the first. -/
theorem append_keeps_open :
    ∃ sh', bootedShell.run [.sdb [0x41] 1 [0x41], .sdb [0x42] 1 [0x42], .append [0x41] [0x42]] =
        .ok sh' ∧ sh'.fs.activeCnt = 2 ∧ bootedShell.fs.activeCnt = 0 ∧
      (openEntries sh'.fs).card = 2 ∧ (openEntries bootedShell.fs).card = 0 := by
  have hcheck : (match bootedShell.run [.sdb [0x41] 1 [0x41], .sdb [0x42] 1 [0x42],
      .append [0x41] [0x42]] with
    | .ok sh' => decide (sh'.fs.activeCnt = 2 ∧ (openEntries sh'.fs).card = 2)
    | .error _ => false) = true := by decide +kernel
  generalize bootedShell.run [.sdb [0x41] 1 [0x41], .sdb [0x42] 1 [0x42], .append [0x41] [0x42]] = x
    at hcheck
  cases x with
  | error e => cases hcheck
  | ok sh' =>
    obtain ⟨hcnt, hcard⟩ := of_decide_eq_true hcheck
    exact ⟨sh', rfl, hcnt, rfl, hcard, by decide⟩

end GwOS
