import GwOS.Filesystem.Delete
import GwOS.Filesystem.Frame
import GwOS.Filesystem.OpenFiles
import GwOS.Filesystem.Prompt

/-!
# The current directory of the shell

`nowDir` is a pointer into the table of files that every later command uses. The claim of
this module is that it stays a live directory (`LiveDir`), whatever is on the disk, as long
as no `cd` ends at a plain file and no deletion takes the current directory or one of its
ancestors away (`nowDir_live`). The shell tests neither: `nowDir_plainFile` is a `cd` to a
file, after which `touch` would write directory entries into the data of the file.

- `Spares` and `SameNodes` say which nodes a call leaves alone.
- `Keeps` is what the commands have in common: the tree of the new state has all nodes of
  the old one, up to those of a deleted subtree.
-/

namespace GwOS

/-! ## Nodes that stay as they are -/

/-- The nodes are the same, up to the sizes of files. -/
def SameNodes (s s' : Fs) : Prop :=
  ∀ r, s'.file r = { s.file r with fileSize := (s'.file r).fileSize }

theorem SameNodes.of_eq {s s' : Fs} (h : ∀ r, s'.file r = s.file r) : SameNodes s s' := by
  intro r
  rw [h r]

theorem SameNodes.trans {s s1 s2 : Fs} (h : SameNodes s s1) (h' : SameNodes s1 s2) :
    SameNodes s s2 := by
  intro r
  rw [h' r, h r]

theorem OnlyStages.sameNodes {s s' : Fs} (h : OnlyStages s s') : SameNodes s s' :=
  .of_eq h.file_eq

theorem SameNodes.setSize (s : Fs) (r : FileRef) (size : UInt32) :
    SameNodes s (s.setFile r { s.file r with fileSize := size }) := by
  intro q
  by_cases hq : q = r
  · subst hq
    rw [Fs.file_setFile_self]
  · rw [Fs.file_setFile_ne _ _ hq]

theorem openFile_sameNodes (s : Fs) (r : FileRef) (type : FileOpenType) :
    SameNodes s (openFile s r type).2 := by
  unfold openFile
  split
  · exact .of_eq fun q => Fs.file_setActive _ _ _ q
  · split
    · refine .of_eq fun q => ?_
      cases q <;> rfl
    · exact .of_eq fun _ => rfl

theorem SameNodes.setActive (s : Fs) (k : Fin 10) (a : ActiveFile) :
    SameNodes s (s.setActive k a) := .of_eq fun q => Fs.file_setActive s k a q

theorem activeFileClose_sameNodes (s : Fs) (k : Fin 10) :
    Returns (activeFileClose s k) (SameNodes s) := by
  have hcnt : SameNodes s { s with activeCnt := s.activeCnt - 1 } := by
    refine .of_eq fun q => ?_
    cases q <;> rfl
  unfold activeFileClose
  dsimp only
  split
  · exact .error _
  · next r hr =>
    refine .bind (flushNodes_onlyStages _ _ _ _) fun s' hs' => .ok ?_
    have hsize := hcnt.trans (.setSize _ r (s.activelist k).buffsize)
    exact (hsize.trans hs'.sameNodes).trans (.setActive s' k _)

theorem closeFile_sameNodes (s : Fs) (k : Fin 10) : Returns (closeFile s k) (SameNodes s) := by
  have href := SameNodes.setActive s k { s.activelist k with refCnt := (s.activelist k).refCnt - 1 }
  unfold closeFile
  dsimp only
  split
  · exact (activeFileClose_sameNodes _ k).mono fun s' hs' => href.trans hs'
  · exact .ok href

theorem appendFile_sameNodes (s : Fs) (file1 file2 : FileRef) :
    Returns (appendFile s file1 file2) fun r => SameNodes s r.2 := by
  have hdisk : ∀ d : Disk, SameNodes s { s with sdb := d } := fun d =>
    .of_eq fun q => Fs.file_setSdb s d q
  have hend : ∀ d : Disk, SameNodes s (Fs.setFile { s with sdb := d } file2
      { ({ s with sdb := d } : Fs).file file2 with fileSize :=
        (({ s with sdb := d } : Fs).file file2).fileSize +
          (({ s with sdb := d } : Fs).file file1).fileSize }) := fun d =>
    (hdisk d).trans (.setSize _ file2 _)
  -- the copy loop, from any disk
  have htail : ∀ (d : Disk) (c1 c2 id : Nat) (buff : Sector),
      Returns (appendLoop walkFuel d c1 c2 id buff >>= fun x =>
        if !x.1 then pure (false, { s with sdb := x.2 })
        else pure (true, Fs.setFile { s with sdb := x.2 } file2
          { ({ s with sdb := x.2 } : Fs).file file2 with fileSize :=
            (({ s with sdb := x.2 } : Fs).file file2).fileSize +
              (({ s with sdb := x.2 } : Fs).file file1).fileSize }))
        fun r : Bool × Fs => SameNodes s r.2 := by
    intro d c1 c2 id buff
    refine .bind .any fun x _ => ?_
    split
    · exact .ok (hdisk _)
    · exact .ok (hend _)
  unfold appendFile
  dsimp only
  refine .bind .any fun c2 _ => .bind .any fun buff _ => ?_
  split
  · refine .bind .any fun x _ => ?_
    split
    · exact .ok (hdisk _)
    · exact .bind .any fun b _ => htail _ _ _ _ _
  · exact htail _ _ _ _ _

/-! ## Creation -/

/-- The root, or a slot in use. -/
def InUse (s : Fs) : FileRef → Prop
  | .rootfile => True
  | .slot i => (s.filelist i).used = true

theorem MemTree.inUse {s : Fs} {f : Forest (Fin 100)} (h : MemTree s f) {r : FileRef}
    (hr : HasRef f r) : InUse s r := by
  cases r with
  | rootfile => trivial
  | slot i => exact h.linked.used i hr

/-- The nodes in use are untouched. -/
def Spares (s s' : Fs) : Prop := ∀ q, InUse s q → s'.file q = s.file q

namespace Spares

variable {s s' s'' : Fs}

theorem refl (s : Fs) : Spares s s := fun _ _ => rfl

theorem inUse (h : Spares s s') {q : FileRef} (hq : InUse s q) : InUse s' q := by
  cases q with
  | rootfile => trivial
  | slot i =>
    have hsame := h (.slot i) hq
    rw [Fs.file_slot, Fs.file_slot] at hsame
    rw [InUse, hsame]
    exact hq

theorem disk (h : Spares s s') (d : Disk) : Spares s { s' with sdb := d } := fun q hq =>
  (Fs.file_setSdb s' d q).trans (h q hq)

theorem setFile (h : Spares s s') {r : FileRef} (hr : ¬ InUse s r) (x : File) :
    Spares s (s'.setFile r x) := by
  intro q hq
  have hne : q ≠ r := fun he => hr (he ▸ hq)
  rw [Fs.file_setFile_ne _ _ hne]
  exact h q hq

end Spares

/-- The slot `k` has been taken in `s'` for a new node in `fa`, which is in no list yet. -/
structure NewSlot (s s' s'' : Fs) (k : Fin 100) (fa : FileRef) : Prop where
  fresh : ¬ InUse s (.slot k)
  free : ¬ InUse s' (.slot k)
  used : (s''.filelist k).used = true
  fa : (s''.filelist k).fa = some fa
  son : (s''.filelist k).fstSon = none
  sib : (s''.filelist k).nextSib = none
  other : ∀ q, q ≠ .slot k → s''.file q = s'.file q

theorem NewSlot.spares {s s' s'' : Fs} {k : Fin 100} {fa : FileRef} (h : NewSlot s s' s'' k fa)
    (hs : Spares s s') : Spares s s'' := by
  intro q hq
  rw [h.other q fun he => h.fresh (he ▸ hq)]
  exact hs q hq

theorem NewSlot.disk {s s' s'' : Fs} {k : Fin 100} {fa : FileRef} (h : NewSlot s s' s'' k fa)
    (d : Disk) : NewSlot s s' { s'' with sdb := d } k fa :=
  ⟨h.fresh, h.free, h.used, h.fa, h.son, h.sib, fun q hq =>
    (Fs.file_setSdb s'' d q).trans (h.other q hq)⟩

/-- `get_empty_file` and `init_file`. -/
theorem Spares.newSlot {s s' s1 : Fs} (h : Spares s s') {r : FileRef}
    (hget : getEmptyFile s' = (some r, s1)) :
    ∃ k, r = .slot k ∧ ∀ fa filename attr wrtTime wrtDate fstClus fileSize,
      NewSlot s s' (initFile s1 (.slot k) fa filename attr wrtTime wrtDate fstClus fileSize) k
        fa := by
  unfold getEmptyFile at hget
  split at hget
  · next k hk =>
    obtain ⟨rfl, rfl⟩ : .slot k = r ∧ _ = s1 := by simpa using hget
    have hfree : ¬ InUse s' (.slot k) := by
      have hsome := List.find?_some hk
      simpa [InUse] using hsome
    refine ⟨k, rfl, fun fa filename attr wrtTime wrtDate fstClus fileSize => ?_⟩
    have hself : (initFile (s'.setFile (.slot k) (initNewFile (s'.filelist k))) (.slot k) fa
        filename attr wrtTime wrtDate fstClus fileSize).filelist k =
        { initNewFile (s'.filelist k) with
          fa := some fa, filename, attr, wrtTime, wrtDate, fstClus, fileSize, fstSon := none,
          nextSib := none } := by
      simp [initFile, Fs.file]
    refine ⟨fun hu => hfree (h.inUse hu), hfree, ?_, ?_, ?_, ?_, fun q hq => ?_⟩
    · rw [hself]
      rfl
    · rw [hself]
    · rw [hself]
    · rw [hself]
    · rw [initFile, Fs.file_setFile_ne _ _ hq, Fs.file_setFile_ne _ _ hq]
  · cases hget

theorem initFile_filename (s : Fs) (k : Fin 100) (fa : FileRef) (filename : Name) (attr : UInt8)
    (wrtTime wrtDate fstClus : UInt16) (fileSize : UInt32) :
    ((initFile s (.slot k) fa filename attr wrtTime wrtDate fstClus fileSize).filelist k).filename =
      filename := by
  simp [initFile]

/-- The slots in use are those of before and the ones of `l`. -/
def TookSlots (s s' : Fs) (l : List (Fin 100)) : Prop :=
  ∀ j, InUse s' (.slot j) ↔ InUse s (.slot j) ∨ j ∈ l

section TookSlots

variable {s s' s'' : Fs} {k : Fin 100} {l l' : List (Fin 100)}

theorem TookSlots.trans (h : TookSlots s s' l) (h' : TookSlots s' s'' l') :
    TookSlots s s'' (l ++ l') := by
  intro j
  rw [h' j, h j, List.mem_append, or_assoc]

/-- The flags of the slots are the same. -/
theorem TookSlots.congr (h : TookSlots s s' l)
    (hused : ∀ j, (s''.filelist j).used = (s'.filelist j).used) : TookSlots s s'' l := by
  intro j
  rw [← h j, InUse, InUse, hused j]

theorem NewSlot.took {fa : FileRef} (h : NewSlot s s' s'' k fa) : TookSlots s' s'' [k] := by
  intro j
  by_cases hj : j = k
  · subst hj
    exact iff_of_true h.used (.inr (List.mem_singleton_self j))
  · have hsame := h.other (.slot j) (by simpa using hj)
    rw [Fs.file_slot, Fs.file_slot] at hsame
    simp [InUse, hsame, hj]

theorem setFile_used (s : Fs) (r : FileRef) {x : File} (hx : x.used = (s.file r).used) (j : Fin 100) :
    ((s.setFile r x).filelist j).used = (s.filelist j).used := by
  cases r with
  | rootfile => rfl
  | slot i =>
    by_cases hj : j = i
    · subst hj
      rw [Fs.filelist_setFile_slot, Function.update_self, hx, Fs.file_slot]
    · rw [Fs.filelist_setFile_slot, Function.update_of_ne hj]

theorem linkFirst_used (s : Fs) (dir file : FileRef) (j : Fin 100) :
    ((linkFirst s dir file).filelist j).used = (s.filelist j).used := by
  rw [linkFirst, setFile_used, setFile_used] <;> rfl

end TookSlots

/-- The node `i` with the children `kids` is the new first child of `dir`. -/
structure Inserted (s s' : Fs) (dir : FileRef) (i : Fin 100) (kids : Forest (Fin 100)) :
    Prop where
  fresh : ¬ InUse s (.slot i)
  kidsFresh : ∀ j ∈ kids.labels, ¬ InUse s (.slot j) ∧ j ≠ i
  kidsNodup : kids.labels.Nodup
  used : (s'.filelist i).used = true
  fa : (s'.filelist i).fa = some dir
  sib : (s'.filelist i).nextSib = (s.file dir).fstSon
  kidsLinked : Linked s'.filelist (.slot i) (s'.filelist i).fstSon kids
  dirNode : s'.file dir = { s.file dir with fstSon := some (.slot i) }
  other : ∀ q, InUse s q → q ≠ dir → s'.file q = s.file q

/-- The last two stores of both creation functions, on a state that has spared the nodes in
use and holds the new node. -/
theorem Spares.inserted {s s' : Fs} {dir : FileRef} {i : Fin 100} {kids : Forest (Fin 100)}
    (h : Spares s s') (hdir : InUse s dir) (hi : ¬ InUse s (.slot i))
    (hused : (s'.filelist i).used = true) (hfa : (s'.filelist i).fa = some dir)
    (hkids : Linked s'.filelist (.slot i) (s'.filelist i).fstSon kids)
    (hnodup : kids.labels.Nodup)
    (hfresh : ∀ j ∈ kids.labels, ¬ InUse s (.slot j) ∧ j ≠ i) :
    Inserted s (linkFirst s' dir (.slot i)) dir i kids := by
  have hne : dir ≠ .slot i := fun he => hi (he ▸ hdir)
  have hnode := linkFirst_node (s := s') hne
  refine ⟨hi, hfresh, hnodup, ?_, ?_, ?_, ?_, ?_, ?_⟩
  · rw [hnode]
    exact hused
  · rw [hnode]
    exact hfa
  · rw [hnode]
    show (s'.file dir).fstSon = _
    rw [h dir hdir]
  · rw [hnode]
    refine hkids.congr fun j hj => ?_
    have hjd : FileRef.slot j ≠ dir := fun he => (hfresh j hj).1 (he ▸ hdir)
    have hji : FileRef.slot j ≠ .slot i := by simpa using (hfresh j hj).2
    have hkeep := linkFirst_ne (s := s') hjd hji
    rw [Fs.file_slot, Fs.file_slot] at hkeep
    rw [hkeep]
    exact SameLinks.refl _
  · rw [linkFirst_dir hne, h dir hdir]
  · intro q hq hqd
    have hqi : q ≠ .slot i := fun he => hi (he ▸ hq)
    rw [linkFirst_ne hqd hqi]
    exact h q hq

/-- The node is inserted under a name that was not taken, its children have different names,
and no other slot has been taken. -/
structure Made (s s' : Fs) (dir : FileRef) (filename : Name) (i : Fin 100)
    (kids : Forest (Fin 100)) : Prop extends Inserted s s' dir i kids where
  nameFree : isFileExist s dir filename = .ok none
  name : (s'.filelist i).filename = filename
  kidNames : kids.SibDistinct fun j => (s'.filelist j).filename
  took : TookSlots s s' (i :: kids.labels)

/-- The last two stores again, with the names and the slots. -/
theorem Inserted.made {s s' : Fs} {dir : FileRef} {filename : Name} {i : Fin 100}
    {kids : Forest (Fin 100)} (h : Inserted s (linkFirst s' dir (.slot i)) dir i kids)
    (hdir : InUse s dir) (hfree : isFileExist s dir filename = .ok none)
    (hname : (s'.filelist i).filename = filename)
    (hkids : kids.SibDistinct fun j => (s'.filelist j).filename)
    (htook : TookSlots s s' (i :: kids.labels)) :
    Made s (linkFirst s' dir (.slot i)) dir filename i kids := by
  have hne : dir ≠ .slot i := fun he => h.fresh (he ▸ hdir)
  refine ⟨h, hfree, ?_, hkids.congr fun j hj => ?_, htook.congr (linkFirst_used s' dir _)⟩
  · rw [linkFirst_node hne]
    exact hname
  · have hjd : FileRef.slot j ≠ dir := fun he => (h.kidsFresh j hj).1 (he ▸ hdir)
    have hji : FileRef.slot j ≠ .slot i := by simpa using (h.kidsFresh j hj).2
    have hkeep := linkFirst_ne (s := s') hjd hji
    rw [Fs.file_slot, Fs.file_slot] at hkeep
    rw [hkeep]

/-- What a creation returns: it fails and leaves all nodes in use as they are, or it makes the
node. -/
def Makes (s : Fs) (dir : FileRef) (filename : Name) (r : Bool × Fs) : Prop :=
  (r.1 = false ∧ Spares s r.2) ∨ (r.1 = true ∧ ∃ i kids, Made s r.2 dir filename i kids)

theorem createEmptyFile_makes (s : Fs) {dir : FileRef} (hdir : InUse s dir) (filename : Name)
    (attr : UInt8) (wrtTime wrtDate : UInt16) :
    Returns (createEmptyFile s dir filename attr wrtTime wrtDate) (Makes s dir filename) := by
  unfold createEmptyFile
  refine .bind .any fun p hp => ?_
  split
  · exact .ok (.inl ⟨rfl, fun q _ => Fs.file_printf _ _ q⟩)
  · refine .bind .any fun x _ => ?_
    have h0 := (Spares.refl s).disk x.2
    dsimp only
    split
    · exact .ok (.inl ⟨rfl, h0⟩)
    · cases hget : getEmptyFile { s with sdb := x.2 } with
      | mk slot s1 =>
        cases slot with
        | none => exact .error _
        | some r =>
          obtain ⟨i, rfl, hnew⟩ := h0.newSlot hget
          refine .bind (createDirEntry_disk _ _ _) fun y hy => ?_
          obtain ⟨d, hd⟩ := hy
          have hi := (hnew dir filename attr wrtTime wrtDate (UInt16.ofNat x.1) 0).disk d
          have hname := initFile_filename s1 i dir filename attr wrtTime wrtDate (UInt16.ofNat x.1) 0
          rw [← hd] at hi
          have h2 := hi.spares h0
          split
          · exact .ok (.inl ⟨rfl, h2.setFile hi.fresh _⟩)
          · refine .bind .any fun d' _ => .ok (.inr ⟨rfl, i, .nil, ?_⟩)
            have hi' := hi.disk d'
            have hins : Inserted s (linkFirst { y.2 with sdb := d' } dir (.slot i)) dir i .nil :=
              (h2.disk d').inserted hdir hi.fresh hi'.used hi'.fa hi'.son List.nodup_nil
                fun j hj => absurd hj List.not_mem_nil
            refine hins.made hdir hp ?_ trivial hi'.took
            show (y.2.filelist i).filename = filename
            rw [hd]
            exact hname

/-- `write_empty_directory` on the new node `i`, in a state that has spared the nodes of `s`:
it makes two nodes the children of `i`, or fails. -/
theorem writeEmptyDirectory_spares {s s' : Fs} (h : Spares s s') (fa : FileRef) {i : Fin 100}
    (hi : ¬ InUse s (.slot i)) (hused : (s'.filelist i).used = true) :
    Returns (writeEmptyDirectory s' fa (.slot i)) fun r => Spares s r.2 ∧
      (r.1 = true → ∃ kids, kids.labels.Nodup ∧
        (∀ j ∈ kids.labels, ¬ InUse s (.slot j) ∧ j ≠ i) ∧
        (r.2.filelist i).used = true ∧ (r.2.filelist i).fa = (s'.filelist i).fa ∧
        (r.2.filelist i).filename = (s'.filelist i).filename ∧
        Linked r.2.filelist (.slot i) (r.2.filelist i).fstSon kids ∧
        kids.SibDistinct (fun j => (r.2.filelist j).filename) ∧ TookSlots s' r.2 kids.labels) := by
  unfold writeEmptyDirectory
  cases hget : getEmptyFile s' with
  | mk slot s1 =>
    cases slot with
    | none => exact .error _
    | some r =>
      obtain ⟨j, rfl, hnew⟩ := h.newSlot hget
      refine .bind (createDirEntry_disk _ _ _) fun y hy => ?_
      obtain ⟨d, hd⟩ := hy
      have hj := (hnew (.slot i) (dotName 1) (s1.file (.slot i)).attr (s1.file (.slot i)).wrtTime
        (s1.file (.slot i)).wrtDate (s1.file (.slot i)).fstClus
        (s1.file (.slot i)).fileSize).disk d
      rw [← hd] at hj
      have hji : j ≠ i := by
        rintro rfl
        exact hj.free hused
      have h1 := hj.spares h
      dsimp only
      split
      · refine .ok ?_
        exact ⟨h1.setFile hj.fresh _, fun hf => absurd hf Bool.false_ne_true⟩
      · cases hget2 : getEmptyFile y.2 with
        | mk slot2 s2 =>
          cases slot2 with
          | none => exact .error _
          | some r2 =>
            obtain ⟨k, rfl, hnew2⟩ := h1.newSlot hget2
            refine .bind (createDirEntry_disk _ _ _) fun z hz => ?_
            obtain ⟨d2, hd2⟩ := hz
            have hk := (hnew2 (.slot i) (dotName 2) (s2.file fa).attr (s2.file fa).wrtTime
              (s2.file fa).wrtDate (s2.file fa).fstClus (s2.file fa).fileSize).disk d2
            rw [← hd2] at hk
            have hkj : k ≠ j := by
              rintro rfl
              exact hk.free hj.used
            have hki : k ≠ i := by
              rintro rfl
              refine hk.free ?_
              have hsame := hj.other (.slot k) (by simpa using hji.symm)
              rw [Fs.file_slot, Fs.file_slot] at hsame
              rw [InUse, hsame]
              exact hused
            have h2 := hk.spares h1
            split
            · refine .ok ?_
              exact ⟨h2.setFile hk.fresh _, fun hf => absurd hf Bool.false_ne_true⟩
            · refine .ok ⟨(h2.setFile hi _).setFile hj.fresh _, fun _ =>
                ⟨.cons j .nil (.cons k .nil .nil), ?_⟩⟩
              have hjz : z.2.filelist j = y.2.filelist j := by
                have hsame := hk.other (.slot j) (by simpa using hkj.symm)
                rwa [Fs.file_slot, Fs.file_slot] at hsame
              have hiz : z.2.filelist i = s'.filelist i := by
                have hsame := hk.other (.slot i) (by simpa using hki.symm)
                rw [hj.other (.slot i) (by simpa using hji.symm)] at hsame
                rwa [Fs.file_slot, Fs.file_slot] at hsame
              have hjname : (y.2.filelist j).filename = dotName 1 := by
                rw [hd]
                exact initFile_filename ..
              have hkname : (z.2.filelist k).filename = dotName 2 := by
                rw [hd2]
                exact initFile_filename ..
              refine ⟨?_, ?_, ?_, ?_, ?_, ?_, ?_, ?_⟩
              · simpa [Forest.labels] using hkj.symm
              · intro x hx
                have hx' : x = j ∨ x = k := by simpa [Forest.labels] using hx
                rcases hx' with rfl | rfl
                · exact ⟨hj.fresh, hji⟩
                · exact ⟨hk.fresh, hki⟩
              · simp [Function.update_of_ne hji.symm, Fs.file, hiz, hused]
              · simp [Function.update_of_ne hji.symm, Fs.file, hiz]
              · simp [Function.update_of_ne hji.symm, Fs.file, hiz]
              · simp [Linked, Function.update_of_ne hji, Function.update_of_ne hji.symm,
                  Function.update_of_ne hkj, Function.update_of_ne hki, Fs.file, hjz, hj.used,
                  hj.fa, hj.son, hk.used, hk.fa, hk.son, hk.sib]
              · have hdots : dotName 2 ≠ dotName 1 := by decide
                simp [Forest.SibDistinct, Forest.tops, Function.update_of_ne hji,
                  Function.update_of_ne hkj, Function.update_of_ne hki, Fs.file, hjz, hjname, hkname,
                  hdots]
              · refine (hj.took.trans hk.took).congr fun x => ?_
                dsimp only
                rw [setFile_used, setFile_used] <;> rfl

theorem createEmptyDirectory_makes (s : Fs) {dir : FileRef} (hdir : InUse s dir)
    (filename : Name) (wrtTime wrtDate : UInt16) :
    Returns (createEmptyDirectory s dir filename wrtTime wrtDate) (Makes s dir filename) := by
  unfold createEmptyDirectory
  refine .bind .any fun p hp => ?_
  split
  · exact .ok (.inl ⟨rfl, fun q _ => Fs.file_printf _ _ q⟩)
  · refine .bind .any fun x _ => ?_
    have h0 := (Spares.refl s).disk x.2
    dsimp only
    split
    · exact .ok (.inl ⟨rfl, h0⟩)
    · cases hget : getEmptyFile { s with sdb := x.2 } with
      | mk slot s1 =>
        cases slot with
        | none => exact .error _
        | some r =>
          obtain ⟨i, rfl, hnew⟩ := h0.newSlot hget
          refine .bind (createDirEntry_disk _ _ _) fun y hy => ?_
          obtain ⟨d, hd⟩ := hy
          have hi := (hnew dir filename 0x10 wrtTime wrtDate (UInt16.ofNat x.1) 0).disk d
          have hname := initFile_filename s1 i dir filename 0x10 wrtTime wrtDate (UInt16.ofNat x.1) 0
          rw [← hd] at hi
          have h2 := hi.spares h0
          split
          · exact .ok (.inl ⟨rfl, h2.setFile hi.fresh _⟩)
          · refine .bind .any fun d' _ => ?_
            have hi' := hi.disk d'
            refine .bind (writeEmptyDirectory_spares (h2.disk d') dir hi.fresh hi'.used)
              fun z hz => ?_
            obtain ⟨h3, hdone⟩ := hz
            split
            · exact .ok (.inl ⟨rfl, h3.setFile hi.fresh _⟩)
            · next hz1 =>
              obtain ⟨kids, hnodup, hfresh, hused, hfa, hname', hkids, hdistinct, htook⟩ :=
                hdone (by simpa using hz1)
              have hins := h3.inserted hdir hi.fresh hused (hfa.trans hi'.fa) hkids hnodup hfresh
              refine .ok (.inr ⟨rfl, i, kids, hins.made hdir hp (hname'.trans ?_) hdistinct ?_⟩)
              · show (y.2.filelist i).filename = filename
                rw [hd]
                exact hname
              · exact hi'.took.trans htook

/-- A creation inserts a node, or leaves all nodes in use as they are. -/
def CreatesNode (s s' : Fs) (dir : FileRef) : Prop :=
  Spares s s' ∨ ∃ i kids, Inserted s s' dir i kids

theorem Makes.creates {s : Fs} {dir : FileRef} {filename : Name} {r : Bool × Fs}
    (h : Makes s dir filename r) : CreatesNode s r.2 dir := by
  rcases h with ⟨-, h⟩ | ⟨-, i, kids, h⟩
  · exact .inl h
  · exact .inr ⟨i, kids, h.toInserted⟩

/-! ## What the commands keep -/

/-- The tree `f` of `s` is still there in `s'`, up to the nodes that are gone. -/
structure Keeps (s s' : Fs) (f : Forest (Fin 100)) (gone : Fin 100 → Prop) : Prop where
  root : s'.rootfile.fa = s.rootfile.fa
  tree : ∃ f', MemTree s' f' ∧ ∀ j ∈ f.labels, ¬ gone j →
    j ∈ f'.labels ∧ (s'.filelist j).attr = (s.filelist j).attr

/-- No node is gone. -/
abbrev KeepsAll (s s' : Fs) (f : Forest (Fin 100)) : Prop := Keeps s s' f fun _ => False

section Keeps

variable {s s' s'' : Fs} {f : Forest (Fin 100)} {gone : Fin 100 → Prop} {dir : FileRef}
  {i : Fin 100}

theorem Keeps.mono {gone' : Fin 100 → Prop} (h : Keeps s s' f gone)
    (hgone : ∀ j, gone j → gone' j) : Keeps s s' f gone' := by
  obtain ⟨hroot, f', ht, hkeep⟩ := h
  exact ⟨hroot, f', ht, fun j hj hng => hkeep j hj fun hg => hng (hgone j hg)⟩

theorem SameNodes.keeps (h : SameNodes s s') (ht : MemTree s f) : KeepsAll s s' f := by
  have hroot : s'.rootfile = { s.rootfile with fileSize := s'.rootfile.fileSize } := h .rootfile
  have hslot : ∀ j, s'.filelist j =
      { s.filelist j with fileSize := (s'.filelist j).fileSize } := fun j => h (.slot j)
  refine ⟨by rw [hroot], f, ht.congr (by rw [hroot]) fun j _ => ?_, fun j hj _ => ⟨hj, ?_⟩⟩
  · rw [hslot j]
    exact ⟨rfl, rfl, rfl, rfl⟩
  · rw [hslot j]

theorem Keeps.sameNodes (h : Keeps s s' f gone) (hs : SameNodes s' s'') : Keeps s s'' f gone := by
  obtain ⟨hroot, f', ht, hkeep⟩ := h
  obtain ⟨hroot', f'', ht', hkeep'⟩ := hs.keeps ht
  refine ⟨hroot'.trans hroot, f'', ht', fun j hj hng => ?_⟩
  obtain ⟨hj', hattr⟩ := hkeep j hj hng
  obtain ⟨hj'', hattr'⟩ := hkeep' j hj' id
  exact ⟨hj'', hattr'.trans hattr⟩

theorem Keeps.printf (h : Keeps s s' f gone) (msg : String) : Keeps s (s'.printf msg) f gone :=
  h.sameNodes (OnlyStages.printf s' msg).sameNodes

theorem KeepsAll.refl (ht : MemTree s f) : KeepsAll s s f :=
  ⟨rfl, f, ht, fun _ hj _ => ⟨hj, rfl⟩⟩

/-- A call that only prints a message. -/
theorem Keeps.message (ht : MemTree s f) (msg : String) : Keeps s (s.printf msg) f gone :=
  ((KeepsAll.refl ht).mono fun _ => False.elim).printf msg

theorem Spares.slot (h : Spares s s') (ht : MemTree s f) {j : Fin 100} (hj : j ∈ f.labels) :
    s'.filelist j = s.filelist j :=
  h (.slot j) (ht.inUse (r := .slot j) hj)

theorem Spares.memTree (h : Spares s s') (ht : MemTree s f) : MemTree s' f := by
  have hroot : s'.rootfile = s.rootfile := h .rootfile trivial
  refine ht.congr (by rw [hroot]) fun j hj => ?_
  rw [h.slot ht hj]
  exact .refl _

theorem Spares.keeps (h : Spares s s') (ht : MemTree s f) : KeepsAll s s' f := by
  have hroot : s'.rootfile = s.rootfile := h .rootfile trivial
  refine ⟨by rw [hroot], f, h.memTree ht, fun j hj _ => ⟨hj, ?_⟩⟩
  rw [h.slot ht hj]

theorem Inserted.memTree {kids : Forest (Fin 100)} (h : Inserted s s' dir i kids)
    (ht : MemTree s f) (hdir : HasRef f dir) :
    MemTree s' (replaceChildren f dir (.cons i kids (childrenOf f dir))) := by
  have hfresh : ∀ j, ¬ InUse s (.slot j) → j ∉ f.labels := fun j hj hm =>
    hj (ht.inUse (r := .slot j) hm)
  exact ht.insert hdir (hfresh i h.fresh) (fun hm => (h.kidsFresh i hm).2 rfl) h.kidsNodup
    (fun j hj => hfresh j (h.kidsFresh j hj).1) h.used h.fa h.sib h.kidsLinked h.dirNode
    fun q hq => h.other q (ht.inUse hq)

/-- A node of the old tree keeps all but the first son, which changes in the directory. -/
theorem Inserted.node {kids : Forest (Fin 100)} (h : Inserted s s' dir i kids)
    (ht : MemTree s f) {q : FileRef} (hq : HasRef f q) :
    ∃ son, s'.file q = { s.file q with fstSon := son } := by
  by_cases hqd : q = dir
  · exact ⟨_, hqd ▸ h.dirNode⟩
  · exact ⟨_, h.other q (ht.inUse hq) hqd⟩

theorem Inserted.keeps {kids : Forest (Fin 100)} (h : Inserted s s' dir i kids)
    (ht : MemTree s f) (hdir : HasRef f dir) : KeepsAll s s' f := by
  refine ⟨?_, _, h.memTree ht hdir, fun j hj _ => ⟨?_, ?_⟩⟩
  · obtain ⟨son, hson⟩ := h.node ht (q := .rootfile) trivial
    have hsame := congrArg File.fa hson
    exact hsame
  · rw [mem_replaceChildren ht hdir]
    by_cases hjc : j ∈ (childrenOf f dir).labels
    · exact .inl (List.mem_cons_of_mem _ (List.mem_append_right _ hjc))
    · exact .inr ⟨hj, hjc⟩
  · obtain ⟨son, hson⟩ := h.node ht (q := .slot j) hj
    have hsame := congrArg File.attr hson
    exact hsame

theorem CreatesNode.keeps (h : CreatesNode s s' dir) (ht : MemTree s f) (hdir : HasRef f dir) :
    KeepsAll s s' f := by
  rcases h with h | ⟨i, kids, h⟩
  · exact h.keeps ht
  · exact h.keeps ht hdir

/-- A deletion takes the node and what is below it. -/
theorem Unlinked.keeps (h : Unlinked s s' dir (childrenOf f dir) i) (ht : MemTree s f)
    (hdir : HasRef f dir) (hi : i ∈ (childrenOf f dir).tops) :
    Keeps s s' f (· ∈ i :: (f.kidsAt i).labels) := by
  have hkids := ht.kidsAt_child (Forest.tops_subset_labels hi)
  have hnode : ∀ q, (∀ x ∈ i :: (f.kidsAt i).labels, q ≠ .slot x) →
      ∃ son sib, s'.file q = { s.file q with fstSon := son, nextSib := sib } := by
    intro q hq
    rw [← hkids] at hq
    exact h.relink hq
  refine ⟨?_, _, h.memTree ht hdir hi, fun j hj hng => ⟨?_, ?_⟩⟩
  · obtain ⟨son, sib, hq⟩ := hnode .rootfile fun _ _ => by simp
    have hsame := congrArg File.fa hq
    exact hsame
  · rw [Unlinked.mem_labels ht hdir hi, hkids]
    exact ⟨hj, hng⟩
  · obtain ⟨son, sib, hq⟩ := hnode (.slot j) fun x hx => by
      rintro ⟨⟩
      exact hng hx
    have hsame := congrArg File.attr hq
    exact hsame

end Keeps

/-! ## The commands -/

/-- The way up from a node, by `Fa`: the node itself and its ancestors. -/
def Upward (s : Fs) : FileRef → FileRef → Prop :=
  Relation.ReflTransGen fun r q => (s.file r).fa = some q

theorem Linked.upward {s : Fs} {f : Forest (Fin 100)} {fa : FileRef} {p : Option FileRef}
    (h : Linked s.filelist fa p f) {j : Fin 100} (hj : j ∈ f.labels) : Upward s (.slot j) fa := by
  induction f generalizing p fa with
  | nil => exact absurd hj List.not_mem_nil
  | cons i kids sibs ihk ihs =>
    obtain ⟨-, -, hfa, hk, hs⟩ := h
    rcases List.mem_cons.mp hj with rfl | hj
    · exact .single hfa
    · rcases List.mem_append.mp hj with hj | hj
      · exact (ihk hk hj).tail hfa
      · exact ihs hs hj

/-- The file that a path names, if there is one. -/
def NamesFile (s : Fs) (nowDir : FileRef) (path : Str) (file : FileRef) : Prop :=
  ∃ dir name, locateDir s nowDir path = .ok (some (dir, name)) ∧
    isFileExist s dir name = .ok (some file)

/-- The file that a command deletes. -/
def Cmd.Removes (s : Fs) (nowDir : FileRef) (file : FileRef) : Cmd → Prop
  | .rm arg path =>
    if arg = [0x2D, 0x72] then NamesFile s nowDir path file
    else NamesFile s nowDir arg file ∧ (s.file file).attr ≠ 0x10
  | .rmdir path => NamesFile s nowDir path file
  | _ => False

section Commands

variable {s : Fs} {f : Forest (Fin 100)} {nowDir : FileRef}

/-- A command that creates a node in the directory it has found. -/
theorem MemTree.create_keeps (h : MemTree s f) (hroot : s.rootfile.fa = none)
    (hdir : HasRef f nowDir) (path : Str) (msg : String) (done failed : String)
    {create : FileRef → Name → Except Fault (Bool × Fs)}
    (hcreate : ∀ dir name, InUse s dir → Returns (create dir name) fun r => CreatesNode s r.2 dir) :
    Returns (do
      match ← locateDir s nowDir path with
      | none => .ok (s.printf msg)
      | some (nowDir, filename) =>
        let (ok, s) ← create nowDir filename
        .ok (s.printf (if ok then done else failed))) fun s' => KeepsAll s s' f := by
  refine .bind .any fun x hx => ?_
  split
  · exact .ok ((KeepsAll.refl h).printf _)
  · next dir filename =>
    have hd := h.locateDir_hasRef hroot hdir hx
    exact .bind (hcreate dir filename (h.inUse hd)) fun y hy => .ok ((hy.keeps h hd).printf _)

theorem shellTouch_keeps (h : MemTree s f) (hroot : s.rootfile.fa = none)
    (hdir : HasRef f nowDir) (path : Str) :
    Returns (shellTouch s nowDir path) fun s' => KeepsAll s s' f :=
  h.create_keeps hroot hdir path _ _ _ fun _ _ hd =>
    (createEmptyFile_makes s hd _ _ _ _).mono fun _ => Makes.creates

theorem shellMkdir_keeps (h : MemTree s f) (hroot : s.rootfile.fa = none)
    (hdir : HasRef f nowDir) (path : Str) :
    Returns (shellMkdir s nowDir path) fun s' => KeepsAll s s' f :=
  h.create_keeps hroot hdir path _ _ _ fun _ _ hd =>
    (createEmptyDirectory_makes s hd _ _ _).mono fun _ => Makes.creates

theorem shellCat_sameNodes (s : Fs) (nowDir : FileRef) (path : Str) :
    Returns (shellCat s nowDir path) (SameNodes s) := by
  unfold shellCat
  refine .bind .any fun x _ => ?_
  cases x with
  | inr msg => exact .ok (OnlyStages.printf s msg).sameNodes
  | inl file =>
    have hopen := openFile_sameNodes s file.2 .readOnly
    dsimp only
    generalize openFile s file.2 .readOnly = y at hopen ⊢
    cases y with
    | mk acfile s0 =>
      cases acfile with
      | none => exact .ok (hopen.trans (OnlyStages.printf _ _).sameNodes)
      | some k =>
        refine .bind (readFile_onlyStages _ _) fun s1 hs1 => ?_
        exact (closeFile_sameNodes s1 _).mono fun s2 hs2 => (hopen.trans hs1.sameNodes).trans hs2

theorem shellWrite_sameNodes (s : Fs) (nowDir : FileRef) (path : Str)
    {writer : Fs → Fin 10 → Except Fault (Bool × Fs)}
    (hw : ∀ s k, Returns (writer s k) fun r => OnlyStages s r.2) :
    Returns (shellWrite s nowDir path writer) (SameNodes s) := by
  unfold shellWrite
  refine .bind .any fun x _ => ?_
  cases x with
  | inr msg => exact .ok (OnlyStages.printf s msg).sameNodes
  | inl file =>
    have hopen := openFile_sameNodes s file.2 .readWrite
    dsimp only
    generalize openFile s file.2 .readWrite = y at hopen ⊢
    cases y with
    | mk acfile s0 =>
      cases acfile with
      | none => exact .ok (hopen.trans (OnlyStages.printf _ _).sameNodes)
      | some k =>
        refine .bind (hw _ _) fun z hz => ?_
        exact (closeFile_sameNodes _ _).mono fun s2 hs2 =>
          (hopen.trans (hz.trans (.printf z.2 _)).sameNodes).trans hs2

theorem shellAppend_sameNodes (s : Fs) (nowDir : FileRef) (path1 path2 : Str) :
    Returns (shellAppend s nowDir path1 path2) (SameNodes s) := by
  unfold shellAppend
  refine .bind .any fun x _ => ?_
  cases x with
  | inr msg => exact .ok (OnlyStages.printf s msg).sameNodes
  | inl files =>
    have hopen1 := openFile_sameNodes s files.1 .readOnly
    dsimp only
    generalize openFile s files.1 .readOnly = y1 at hopen1 ⊢
    have hopen2 := openFile_sameNodes y1.2 files.2 .readWrite
    generalize openFile y1.2 files.2 .readWrite = y2 at hopen2 ⊢
    split
    · split
      · refine .bind (appendFile_sameNodes _ _ _) fun z hz => .ok ?_
        exact ((hopen1.trans hopen2).trans hz).trans (OnlyStages.printf _ _).sameNodes
      · exact .error _
    · exact .error _

theorem locateFile_inl {path : Str} {found : FileRef × FileRef}
    (h : locateFile s nowDir path = .ok (.inl found)) :
    ∃ name, locateDir s nowDir path = .ok (some (found.1, name)) ∧
      isFileExist s found.1 name = .ok (some found.2) ∧ (s.file found.2).attr ≠ 0x10 := by
  rw [locateFile] at h
  obtain ⟨x, hloc, h⟩ := bind_eq_ok.mp h
  cases x with
  | none => cases h
  | some x =>
    obtain ⟨p, hex, h⟩ := bind_eq_ok.mp h
    cases p with
    | none => cases h
    | some file =>
      dsimp only at h
      split at h
      · cases h
      · next hattr =>
        cases h
        exact ⟨x.2, hloc, hex, hattr⟩

theorem MemTree.upward_of_below (h : MemTree s f) {i : Fin 100} (hi : i ∈ f.labels) (j : Fin 100)
    (hj : j ∈ i :: (f.kidsAt i).labels) : Upward s (.slot j) (.slot i) := by
  rcases List.mem_cons.mp hj with rfl | hj
  · exact .refl
  · exact (h.children (r := .slot i) hi).upward hj

/-- `delete_directory`, with or without `rc`, on a file that has been looked up. -/
theorem MemTree.deleteDirectory_keeps (h : MemTree s f) {dir file : FileRef} {name : Name}
    (hdir : HasRef f dir) (hex : isFileExist s dir name = .ok (some file)) (rc : Bool) :
    Returns (deleteDirectory sibFuel s dir file rc) fun r =>
      Keeps s r.2 f fun j => Upward s (.slot j) file := by
  obtain ⟨i, rfl, hi⟩ := h.isFileExist_child hdir hex
  have hchild := h.children hdir
  have hnodup := h.children_nodup dir
  have hlab := childrenOf_subset (Forest.tops_subset_labels hi)
  refine Returns.mono (P := fun r => Unlinked s r.2 dir (childrenOf f dir) i) ?_ fun r hr => ?_
  · cases rc with
    | true => exact deleteDirectory_unlinks hchild hnodup (h.tops_lt dir) (h.child_ne hdir) hi
    | false =>
      rw [show sibFuel = sibFuel - 1 + 1 from rfl, deleteDirectory_false h hlab]
      exact deleteFile_unlinks hchild hnodup (h.tops_lt dir) (h.child_ne hdir) hi
  · exact (hr.keeps h hdir hi).mono (h.upward_of_below hlab)

theorem MemTree.deleteFile_keeps (h : MemTree s f) {dir file : FileRef} {name : Name}
    (hdir : HasRef f dir) (hex : isFileExist s dir name = .ok (some file)) :
    Returns (deleteFile s dir file) fun r => Keeps s r.2 f fun j => Upward s (.slot j) file := by
  obtain ⟨i, rfl, hi⟩ := h.isFileExist_child hdir hex
  have hlab := childrenOf_subset (Forest.tops_subset_labels hi)
  exact (deleteFile_unlinks (h.children hdir) (h.children_nodup dir) (h.tops_lt dir)
    (h.child_ne hdir) hi).mono fun r hr => (hr.keeps h hdir hi).mono (h.upward_of_below hlab)

/-- What a deletion takes away lies below the file that the command names. -/
theorem shellRm_keeps (h : MemTree s f) (hroot : s.rootfile.fa = none) (hdir : HasRef f nowDir)
    (arg path : Str) : Returns (shellRm s nowDir arg path) fun s' =>
      Keeps s s' f fun j => ∃ file, (Cmd.rm arg path).Removes s nowDir file ∧
        Upward s (.slot j) file := by
  unfold shellRm
  refine .bind .any fun arg' harg => ?_
  obtain ⟨rfl, -⟩ := store_eq harg
  split
  case isTrue hr =>
    refine .bind .any fun x hx => ?_
    split
    · exact .ok (.message h _)
    · next dir filename =>
      have hd := h.locateDir_hasRef hroot hdir hx
      refine .bind .any fun p hp => ?_
      cases p with
      | none => exact .ok (.message h _)
      | some file =>
        refine .bind (h.deleteDirectory_keeps hd hp true) fun y hy => .ok (.printf (hy.mono ?_) _)
        intro j hj
        refine ⟨file, ?_, hj⟩
        rw [Cmd.Removes, if_pos hr]
        exact ⟨dir, filename, hx, hp⟩
  case isFalse hr =>
    refine .bind .any fun x hx => ?_
    cases x with
    | inr msg => exact .ok (.message h _)
    | inl found =>
      obtain ⟨name, hloc, hex, hattr⟩ := locateFile_inl hx
      have hd := h.locateDir_hasRef hroot hdir hloc
      refine .bind (h.deleteFile_keeps hd hex) fun y hy => .ok (.printf (hy.mono ?_) _)
      intro j hj
      refine ⟨found.2, ?_, hj⟩
      rw [Cmd.Removes, if_neg hr]
      exact ⟨⟨found.1, name, hloc, hex⟩, hattr⟩

theorem shellRmdir_keeps (h : MemTree s f) (hroot : s.rootfile.fa = none) (hdir : HasRef f nowDir)
    (path : Str) : Returns (shellRmdir s nowDir path) fun s' =>
      Keeps s s' f fun j => ∃ file, (Cmd.rmdir path).Removes s nowDir file ∧
        Upward s (.slot j) file := by
  unfold shellRmdir
  refine .bind .any fun x hx => ?_
  split
  · exact .ok (.message h _)
  · next dir filename =>
    have hd := h.locateDir_hasRef hroot hdir hx
    refine .bind .any fun p hp => ?_
    cases p with
    | none => exact .error _
    | some file =>
      refine .bind (h.deleteDirectory_keeps hd hp false) fun y hy => .ok (.printf (hy.mono ?_) _)
      intro j hj
      exact ⟨file, ⟨dir, filename, hx, hp⟩, hj⟩

end Commands

/-! ## Runs -/

/-- What is reached from the root by `FstSon` and `NextSib`. -/
inductive Reachable (s : Fs) : FileRef → Prop where
  | root : Reachable s .rootfile
  | son {r q : FileRef} : Reachable s r → (s.file r).fstSon = some q → Reachable s q
  | sib {r q : FileRef} : Reachable s r → (s.file r).nextSib = some q → Reachable s q

/-- What is closed under the two links has all nodes of a forest if it has the first. -/
theorem Linked.closed {s : Fs} {f : Forest (Fin 100)} {fa : FileRef} {p : Option FileRef}
    (h : Linked s.filelist fa p f) {C : FileRef → Prop}
    (hson : ∀ r q, C r → (s.file r).fstSon = some q → C q)
    (hsib : ∀ r q, C r → (s.file r).nextSib = some q → C q) (hp : ∀ q, p = some q → C q)
    {j : Fin 100} (hj : j ∈ f.labels) : C (.slot j) := by
  induction f generalizing p fa with
  | nil => exact absurd hj List.not_mem_nil
  | cons i kids sibs ihk ihs =>
    obtain ⟨hpi, -, -, hk, hs⟩ := h
    have hi := hp (.slot i) hpi
    rcases List.mem_cons.mp hj with rfl | hj
    · exact hi
    · rcases List.mem_append.mp hj with hj | hj
      · exact ihk hk (fun q hq => hson _ _ hi hq) hj
      · exact ihs hs (fun q hq => hsib _ _ hi hq) hj

theorem MemTree.reachable {s : Fs} {f : Forest (Fin 100)} (h : MemTree s f) {j : Fin 100}
    (hj : j ∈ f.labels) : Reachable s (.slot j) :=
  h.linked.closed (fun _ _ hr hq => .son hr hq) (fun _ _ hr hq => .sib hr hq)
    (fun _ hq => .son .root hq) hj

/-- The root, or a file with the attribute of a directory. -/
def IsDirectory (s : Fs) : FileRef → Prop
  | .rootfile => True
  | .slot i => (s.filelist i).attr = 0x10

/-- A directory that is in use and can be reached. -/
def LiveDir (s : Fs) : FileRef → Prop
  | .rootfile => True
  | .slot i => (s.filelist i).used = true ∧ (s.filelist i).attr = 0x10 ∧ Reachable s (.slot i)

/-- What holds at every prompt. -/
structure AtLiveDir (sh : Shell) (f : Forest (Fin 100)) : Prop where
  tree : MemTree sh.fs f
  root : sh.fs.rootfile.fa = none
  inTree : HasRef f sh.nowDir
  isDir : IsDirectory sh.fs sh.nowDir

theorem AtLiveDir.liveDir {sh : Shell} {f : Forest (Fin 100)} (h : AtLiveDir sh f) :
    LiveDir sh.fs sh.nowDir := by
  have hin := h.inTree
  have hdir := h.isDir
  cases hd : sh.nowDir with
  | rootfile => trivial
  | slot i =>
    rw [hd] at hin hdir
    exact ⟨h.tree.linked.used i hin, hdir, h.tree.reachable hin⟩

/-- The commands that the current directory survives: a `cd` whose path does not lead to a
plain file, and a deletion that takes neither the current directory nor an ancestor of it. -/
def Cmd.SparesDir (s : Fs) (nowDir : FileRef) : Cmd → Prop
  | .cd path => lastAbsolute true (standardDirPath path) = none →
      ∀ d, follow s nowDir (Pathname.components slash (standardDirPath path)) = .ok (some d) →
        IsDirectory s d
  | cmd => ∀ file, cmd.Removes s nowDir file → ¬ Upward s nowDir file

/-- The condition at every command of the run. -/
def SparingRun : List Cmd → Shell → Prop
  | [], _ => True
  | cmd :: cmds, sh =>
    cmd.SparesDir sh.fs sh.nowDir ∧ ∀ sh', sh.step cmd = .ok sh' → SparingRun cmds sh'

/-- One command on the files. -/
theorem onFs_keeps {s : Fs} {f : Forest (Fin 100)} {nowDir : FileRef} (h : MemTree s f)
    (hroot : s.rootfile.fa = none) (hdir : HasRef f nowDir) (cmd : Cmd) :
    Returns (Shell.onFs s nowDir cmd) fun s' =>
      Keeps s s' f fun j => ∃ file, cmd.Removes s nowDir file ∧ Upward s (.slot j) file := by
  have hall : ∀ s', KeepsAll s s' f →
      Keeps s s' f fun j => ∃ file, cmd.Removes s nowDir file ∧ Upward s (.slot j) file :=
    fun s' hs' => hs'.mono fun _ => False.elim
  have hsame : ∀ s', SameNodes s s' →
      Keeps s s' f fun j => ∃ file, cmd.Removes s nowDir file ∧ Upward s (.slot j) file :=
    fun s' hs' => hall s' (hs'.keeps h)
  cases cmd with
  | cd path => exact .ok (hall s (.refl h))
  | touch path => exact (shellTouch_keeps h hroot hdir path).mono hall
  | mkdir path => exact (shellMkdir_keeps h hroot hdir path).mono hall
  | cat path => exact (shellCat_sameNodes s nowDir path).mono hsame
  | write path content =>
    exact (shellWrite_sameNodes s nowDir path fun s k => writeFile_onlyStages s k content).mono
      hsame
  | append path1 path2 => exact (shellAppend_sameNodes s nowDir path1 path2).mono hsame
  | rm arg path => exact shellRm_keeps h hroot hdir arg path
  | rmdir path => exact shellRmdir_keeps h hroot hdir path
  | sdb path filesize path' =>
    have hin : HasRef f .rootfile := trivial
    refine .bind (shellTouch_keeps h hroot hin path) fun s1 h1 => ?_
    exact (shellWrite_sameNodes s1 .rootfile path' fun s k =>
      writeFileFromSda_onlyStages s k filesize).mono fun s2 h2 => hall s2 (h1.sameNodes h2)

/-- The current directory after a command on the files. -/
theorem AtLiveDir.onFs {sh : Shell} {f : Forest (Fin 100)} (h : AtLiveDir sh f) {cmd : Cmd}
    (hcmd : ∀ file, cmd.Removes sh.fs sh.nowDir file → ¬ Upward sh.fs sh.nowDir file) {s' : Fs}
    (hok : Shell.onFs sh.fs sh.nowDir cmd = .ok s') : ∃ f', AtLiveDir { sh with fs := s' } f' := by
  obtain ⟨hroot, f', ht, hkeep⟩ := onFs_keeps h.tree h.root h.inTree cmd s' hok
  have hstay : HasRef f' sh.nowDir ∧ IsDirectory s' sh.nowDir := by
    have hin := h.inTree
    have hdir := h.isDir
    cases hd : sh.nowDir with
    | rootfile => exact ⟨trivial, trivial⟩
    | slot j =>
      rw [hd] at hin hdir hcmd hkeep
      obtain ⟨hj, hattr⟩ := hkeep j hin fun ⟨file, hfile, hup⟩ => hcmd file hfile hup
      exact ⟨hj, hattr.trans hdir⟩
  exact ⟨f', ht, hroot.trans h.root, hstay.1, hstay.2⟩

/-- The current directory after `cd`. -/
theorem AtLiveDir.cd {sh sh' : Shell} {f : Forest (Fin 100)} (h : AtLiveDir sh f) {path : Str}
    (hcmd : (Cmd.cd path).SparesDir sh.fs sh.nowDir) (hok : sh.cd path = .ok sh') :
    AtLiveDir sh' f := by
  have hprint : ∀ msg, MemTree (sh.fs.printf msg) f := fun msg =>
    h.tree.congr rfl fun _ _ => .refl _
  rw [Shell.cd] at hok
  obtain ⟨path0, hstore, hcd⟩ := bind_eq_ok.mp hok
  obtain ⟨rfl, -⟩ := store_eq hstore
  obtain ⟨⟨ok, d, path'⟩, htry, hend⟩ := bind_eq_ok.mp hcd
  cases ok with
  | false =>
    cases hend
    exact ⟨hprint _, h.root, h.inTree, h.isDir⟩
  | true =>
    cases hend
    refine ⟨hprint _, h.root, h.tree.tryCdLoop_hasRef h.root h.inTree htry, ?_⟩
    obtain ⟨w, hends, -⟩ := tryCdLoop_ends h.tree h.root htry
    rw [Ends] at hends
    show IsDirectory sh.fs d
    split at hends
    · next hrel => exact hcmd hrel d (hends.1 ▸ hends.2)
    · rw [hends.1]
      trivial

/-- One round of the loop. -/
theorem AtLiveDir.step {sh sh' : Shell} {f : Forest (Fin 100)} (h : AtLiveDir sh f) {cmd : Cmd}
    (hcmd : cmd.SparesDir sh.fs sh.nowDir) (hok : sh.step cmd = .ok sh') :
    ∃ f', AtLiveDir sh' f' := by
  rw [Shell.step_eq] at hok
  obtain ⟨sh1, hok1, hok⟩ := bind_eq_ok.mp hok
  cases hok
  suffices hsh1 : ∃ f', AtLiveDir sh1 f' by
    obtain ⟨f', h1⟩ := hsh1
    exact ⟨f', h1.tree.congr rfl fun _ _ => .refl _, h1.root, h1.inTree, h1.isDir⟩
  by_cases hcd : ∃ path, cmd = .cd path
  · obtain ⟨path, rfl⟩ := hcd
    exact ⟨f, h.cd hcmd hok1⟩
  · have hfs : (Shell.onFs sh.fs sh.nowDir cmd).map (fun fs => { sh with fs }) = .ok sh1 ∧
        ∀ file, cmd.Removes sh.fs sh.nowDir file → ¬ Upward sh.fs sh.nowDir file := by
      cases cmd with
      | cd path => exact absurd ⟨path, rfl⟩ hcd
      | _ => exact ⟨hok1, hcmd⟩
    cases hs : Shell.onFs sh.fs sh.nowDir cmd with
    | error e =>
      rw [hs] at hfs
      cases hfs.1
    | ok s' =>
      rw [hs] at hfs
      cases hfs.1
      exact h.onFs hfs.2 hs

/-- **The current directory is live.** At every prompt of a run from the root in which no
`cd` leads to a plain file and no deletion takes the current directory or an ancestor of it,
the current directory is the root, or a slot in use with the attribute of a directory that
is reached from the root. -/
theorem nowDir_live {f : Forest (Fin 100)} {cmds pre : List Cmd} {sh sh' : Shell}
    (h : MemTree sh.fs f) (hroot : sh.fs.rootfile.fa = none) (hdir : sh.nowDir = .rootfile)
    (hrun : SparingRun cmds sh) (hpre : pre <+: cmds) (hok : sh.run pre = .ok sh') :
    LiveDir sh'.fs sh'.nowDir := by
  have hstart : AtLiveDir sh f := by
    refine ⟨h, hroot, ?_, ?_⟩
    · rw [hdir]
      trivial
    · rw [hdir]
      trivial
  clear h hroot hdir
  induction pre generalizing cmds sh f with
  | nil =>
    cases hok
    exact hstart.liveDir
  | cons cmd pre ih =>
    cases cmds with
    | nil => exact absurd hpre.length_le (by simp)
    | cons cmd' cmds =>
      obtain ⟨rfl, htail⟩ := List.cons_prefix_cons.mp hpre
      obtain ⟨sh1, hstep, hrest⟩ := bind_eq_ok.mp hok
      obtain ⟨f', hnext⟩ := hstart.step hrun.1 hstep
      exact ih (hrun.2 sh1 hstep) htail hrest hnext

/-- `mkdir D` and `cd D`: the current directory is the slot of the new directory. -/
theorem nowDir_live_mkdir : ∃ sh', bootedShell.run [.mkdir [0x44], .cd [0x44]] = .ok sh' ∧
    sh'.nowDir = .slot 0 ∧ LiveDir sh'.fs sh'.nowDir := by
  have hmade : (match bootedShell.step (.mkdir [0x44]) with
    | .ok sh' => decide (follow sh'.fs sh'.nowDir [[0x44]] = .ok (some (.slot 0)) ∧
        (sh'.fs.filelist 0).attr = 0x10)
    | .error _ => false) = true := by decide +kernel
  have hend : (match bootedShell.run [.mkdir [0x44], .cd [0x44]] with
    | .ok sh' => decide (sh'.nowDir = .slot 0)
    | .error _ => false) = true := by decide +kernel
  have hspares : SparingRun [.mkdir [0x44], .cd [0x44]] bootedShell := by
    refine ⟨fun _ hfile => hfile.elim, fun sh1 hstep => ⟨fun _ d hd => ?_, fun _ _ => trivial⟩⟩
    rw [hstep] at hmade
    obtain ⟨hleads, hattr⟩ := of_decide_eq_true hmade
    have hparts : Pathname.components slash (standardDirPath [0x44]) = [[0x44]] :=
      Pathname.components_single ⟨by decide, by decide⟩
    rw [hparts, hleads] at hd
    cases hd
    exact hattr
  cases hrun : bootedShell.run [.mkdir [0x44], .cd [0x44]] with
  | error e =>
    rw [hrun] at hend
    cases hend
  | ok sh' =>
    rw [hrun] at hend
    refine ⟨sh', rfl, of_decide_eq_true hend, ?_⟩
    have htree : MemTree bootedShell.fs .nil := ⟨rfl, List.nodup_nil⟩
    exact nowDir_live htree rfl rfl hspares (List.prefix_refl _) hrun

/-- `touch A` and `cd A`: the current directory is a plain file. -/
theorem nowDir_plainFile : ∃ sh', bootedShell.run [.touch [0x41], .cd [0x41]] = .ok sh' ∧
    sh'.nowDir = .slot 0 ∧ (sh'.fs.filelist 0).attr = 0x20 ∧ ¬ LiveDir sh'.fs sh'.nowDir := by
  have hcheck : (match bootedShell.run [.touch [0x41], .cd [0x41]] with
    | .ok sh' => decide (sh'.nowDir = .slot 0 ∧ (sh'.fs.filelist 0).attr = 0x20)
    | .error _ => false) = true := by decide +kernel
  generalize bootedShell.run [.touch [0x41], .cd [0x41]] = x at hcheck
  cases x with
  | error e => cases hcheck
  | ok sh' =>
    obtain ⟨hdir, hattr⟩ := of_decide_eq_true hcheck
    refine ⟨sh', rfl, hdir, hattr, fun hlive => ?_⟩
    rw [hdir] at hlive
    exact absurd (hattr.symm.trans hlive.2.1) (by decide)

end GwOS
