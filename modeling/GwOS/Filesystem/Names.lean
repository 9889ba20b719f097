import GwOS.Filesystem.Integrity
import GwOS.Filesystem.WorkingDir

/-!
# Names within a directory

`is_file_exist`, `rm` and `cd` act on the first node of a name, so a directory with two nodes
of one name has a node that no path leads to. The creation functions look the name up before
they link a new node in front of the list; `write_empty_directory` links `.` and `..` without a
look, into a list that was empty. Deletions unlink nodes and never link one.

- `Son` is the list that `FstSon` of a directory starts, as the pointers give it, and
  `TreeShaped` says that all these lists together are a tree.
- `TreeStep` is what one operation does to the tree, whether it succeeds or fails.
- `uniqueNames_run`: over all runs, names stay unique and `is_file_exist` finds the one node.
-/

namespace GwOS

/-! ## The tree by its pointers -/

/-- The node is in the list that `FstSon` of `dir` starts. -/
inductive Son (s : Fs) (dir : FileRef) : FileRef → Prop where
  | first {q : FileRef} : (s.file dir).fstSon = some q → Son s dir q
  | next {r q : FileRef} : Son s dir r → (s.file r).nextSib = some q → Son s dir q

/-- The nodes under `rootfile` are a tree, and the root is in no list. -/
structure TreeShaped (s : Fs) : Prop where
  nextSib : s.rootfile.nextSib = none
  tree : ∃ f, MemTree s f

section Pointers

variable {s : Fs} {f : Forest (Fin 100)} {fa r q : FileRef} {p : Option FileRef}

/-- The link to the next sibling stays on the level. -/
theorem Linked.nextSib_tops (h : Linked s.filelist fa p f) {i : Fin 100} (hi : i ∈ f.tops)
    (hq : (s.filelist i).nextSib = some q) : ∃ j ∈ f.tops, q = .slot j := by
  induction f generalizing p with
  | nil => exact absurd hi List.not_mem_nil
  | cons a kids sibs _ ihs =>
    obtain ⟨-, -, -, -, hs⟩ := h
    rcases List.mem_cons.mp hi with rfl | hi
    · cases sibs with
      | nil =>
        rw [show (s.filelist i).nextSib = none from hs] at hq
        cases hq
      | cons b kids' sibs' =>
        rw [hs.1] at hq
        exact ⟨b, List.mem_cons_of_mem _ (List.mem_cons_self ..), (Option.some.inj hq).symm⟩
    · obtain ⟨j, hj, hqj⟩ := ihs hs hi
      exact ⟨j, List.mem_cons_of_mem _ hj, hqj⟩

theorem Linked.nextSib_mem (h : Linked s.filelist fa p f) {i : Fin 100} (hi : i ∈ f.labels)
    (hq : (s.filelist i).nextSib = some q) : ∃ j ∈ f.labels, q = .slot j := by
  induction f generalizing fa p with
  | nil => exact absurd hi List.not_mem_nil
  | cons a kids sibs ihk ihs =>
    have hlevel := h.nextSib_tops (i := i) (q := q)
    obtain ⟨-, -, -, hk, hs⟩ := h
    rcases List.mem_cons.mp hi with rfl | hi
    · obtain ⟨j, hj, hqj⟩ := hlevel (List.mem_cons_self ..) hq
      exact ⟨j, Forest.tops_subset_labels hj, hqj⟩
    · rcases List.mem_append.mp hi with hi | hi
      · obtain ⟨j, hj, hqj⟩ := ihk hk hi
        exact ⟨j, List.mem_cons_of_mem _ (List.mem_append_left _ hj), hqj⟩
      · obtain ⟨j, hj, hqj⟩ := ihs hs hi
        exact ⟨j, List.mem_cons_of_mem _ (List.mem_append_right _ hj), hqj⟩

theorem Linked.first_tops (h : Linked s.filelist fa p f) (hq : p = some q) :
    ∃ j ∈ f.tops, q = .slot j := by
  cases f with
  | nil =>
    rw [show p = none from h] at hq
    cases hq
  | cons a kids sibs =>
    rw [h.1] at hq
    exact ⟨a, List.mem_cons_self .., (Option.some.inj hq).symm⟩

/-- Every node of the level is in the list. -/
theorem Linked.sons {dir : FileRef} (h : Linked s.filelist fa p f)
    (hp : ∀ q, p = some q → Son s dir q) {i : Fin 100} (hi : i ∈ f.tops) : Son s dir (.slot i) := by
  induction f generalizing p with
  | nil => exact absurd hi List.not_mem_nil
  | cons a kids sibs _ ihs =>
    have ha := hp (.slot a) h.1
    rcases List.mem_cons.mp hi with rfl | hi
    · exact ha
    · exact ihs h.2.2.2.2 (fun q hq => .next ha hq) hi

theorem MemTree.son_iff (h : MemTree s f) (hr : HasRef f r) :
    Son s r q ↔ ∃ i ∈ (childrenOf f r).tops, q = .slot i := by
  constructor
  · intro hson
    induction hson with
    | first hq => exact (h.children hr).first_tops hq
    | next _ hq ih =>
      obtain ⟨i, hi, rfl⟩ := ih
      exact (h.children hr).nextSib_tops hi hq
  · rintro ⟨i, hi, rfl⟩
    exact (h.children hr).sons (fun q hq => .first hq) hi

/-- What the links reach is the forest. -/
theorem MemTree.reachable_iff (h : MemTree s f) (hroot : s.rootfile.nextSib = none) :
    Reachable s r ↔ HasRef f r := by
  constructor
  · intro hr
    induction hr with
    | root => trivial
    | son _ hq ih =>
      obtain ⟨i, hi, rfl⟩ := (h.children ih).first_tops hq
      exact childrenOf_subset (Forest.tops_subset_labels hi)
    | @sib r q _ hq ih =>
      cases r with
      | rootfile =>
        rw [show (s.file .rootfile).nextSib = none from hroot] at hq
        cases hq
      | slot j =>
        obtain ⟨k, hk, rfl⟩ := h.linked.nextSib_mem ih hq
        exact hk
  · intro hr
    cases r with
    | rootfile => exact .root
    | slot j => exact h.reachable hr

end Pointers

/-! ## Unique names -/

/-- No two nodes of a directory have the same name. -/
def UniqueNames (s : Fs) : Prop :=
  ∀ dir, Reachable s dir → ∀ q q', Son s dir q → Son s dir q' →
    (s.file q).filename = (s.file q').filename → q = q'

/-- The names of the slots. -/
def slotName (s : Fs) (i : Fin 100) : Name := (s.filelist i).filename

section Unique

variable {s : Fs} {f : Forest (Fin 100)}

theorem MemTree.uniqueNames_iff (h : MemTree s f) (hroot : s.rootfile.nextSib = none) :
    UniqueNames s ↔ f.SibDistinct (slotName s) := by
  constructor
  · intro hu
    have hlevel : ∀ r, HasRef f r → ((childrenOf f r).tops.map (slotName s)).Nodup := by
      intro r hr
      refine List.Nodup.map_on (fun i hi j hj hij => ?_) ?_
      · have heq := hu r ((h.reachable_iff hroot).mpr hr) (.slot i) (.slot j)
          ((h.son_iff hr).mpr ⟨i, hi, rfl⟩) ((h.son_iff hr).mpr ⟨j, hj, rfl⟩) hij
        exact FileRef.slot.inj heq
      · exact Forest.tops_nodup (h.children_nodup r)
    exact .of_levels h.nodup (hlevel .rootfile trivial) fun j hj => hlevel (.slot j) hj
  · intro hd dir hdir q q' hq hq' hname
    rw [h.reachable_iff hroot] at hdir
    obtain ⟨i, hi, rfl⟩ := (h.son_iff hdir).mp hq
    obtain ⟨j, hj, rfl⟩ := (h.son_iff hdir).mp hq'
    have hkids : (childrenOf f dir).SibDistinct (slotName s) := by
      cases dir with
      | rootfile => exact hd
      | slot k => exact hd.kidsAt
    rw [List.inj_on_of_nodup_map hkids.nodup_tops hi hj hname]

/-- With unique names, `is_file_exist` finds the one node of the name. -/
theorem UniqueNames.isFileExist (hu : UniqueNames s) (h : TreeShaped s) {dir : FileRef}
    (hdir : Reachable s dir) (filename : Name) :
    ∃ found, isFileExist s dir filename = .ok found ∧
      ∀ q, found = some q ↔ Son s dir q ∧ (s.file q).filename = filename := by
  obtain ⟨hroot, f, ht⟩ := h
  have hr := (ht.reachable_iff hroot).mp hdir
  refine ⟨_, ht.isFileExist_ok hr filename, fun q => ?_⟩
  constructor
  · intro hq
    obtain ⟨i, hi, rfl⟩ := Option.map_eq_some_iff.mp hq
    refine ⟨(ht.son_iff hr).mpr ⟨i, List.mem_of_find?_eq_some hi, rfl⟩, ?_⟩
    rw [Fs.file_slot]
    simpa using List.find?_some hi
  · rintro ⟨hson, hname⟩
    obtain ⟨i, hi, rfl⟩ := (ht.son_iff hr).mp hson
    rw [Fs.file_slot] at hname
    -- some node is found, and there is no other of that name
    cases hfind : (childrenOf f dir).tops.find? fun i => (s.filelist i).filename = filename with
    | none =>
      have hno := List.find?_eq_none.mp hfind i hi
      exact absurd hname (by simpa using hno)
    | some j =>
      have hj : (s.filelist j).filename = filename := by simpa using List.find?_some hfind
      have hsonj := (ht.son_iff hr).mpr ⟨j, List.mem_of_find?_eq_some hfind, rfl⟩
      have heq := hu dir hdir (.slot j) (.slot i) hsonj hson (hj.trans hname.symm)
      rw [Option.map_some, heq]

end Unique

/-! ## One operation -/

namespace FsOp

/-- One of the operations that create and delete, in a directory of the tree. The node to
delete is any slot of the table. -/
def InTree (s : Fs) : FsOp → Prop
  | createEmptyFile dir _ _ _ _ | createEmptyDirectory dir _ _ _ => Reachable s dir
  | deleteFile dir _ => Reachable s dir
  | deleteDirectory fa _ _ => Reachable s fa
  | _ => False

end FsOp

/-- What one operation does to the tree `f`: all nodes stay, or one is made, or one is taken out
of its directory. -/
inductive TreeStep (s s' : Fs) (f : Forest (Fin 100)) : Prop where
  | spares (h : Spares s s')
  | made {dir : FileRef} {filename : Name} {i : Fin 100} {kids : Forest (Fin 100)}
      (hdir : HasRef f dir) (h : Made s s' dir filename i kids)
  | unlinked {dir : FileRef} {i : Fin 100} (hdir : HasRef f dir)
      (hi : i ∈ (childrenOf f dir).tops) (h : Unlinked s s' dir (childrenOf f dir) i)

section Step

variable {s s' : Fs} {f : Forest (Fin 100)} {dir : FileRef} {i : Fin 100}

theorem Makes.treeStep {filename : Name} {r : Bool × Fs} (h : Makes s dir filename r)
    (hdir : HasRef f dir) : TreeStep s r.2 f := by
  rcases h with ⟨-, h⟩ | ⟨-, i, kids, h⟩
  · exact .spares h
  · exact .made hdir h

theorem Spares.printf (s : Fs) (msg : String) : Spares s (s.printf msg) := fun q _ =>
  Fs.file_printf s msg q

/-- A node that is not in the directory. -/
theorem deleteFile_absent (ht : MemTree s f) (hdir : HasRef f dir)
    (hi : i ∉ (childrenOf f dir).tops) :
    ∃ msg, deleteFile s dir (.slot i) = .ok (false, s.printf msg) ∧
      deleteDirectory sibFuel s dir (.slot i) true = .ok (false, s.printf msg) := by
  obtain ⟨msg, habs⟩ := deleteFileFromFa_absent (r := .slot i) (ht.children hdir)
    (ht.tops_lt dir) fun x hx => by
      rintro ⟨⟩
      exact hi hx
  refine ⟨msg, ?_, deleteDirectory_absent 100 habs⟩
  rw [deleteFile, habs]
  rfl

theorem deleteFile_treeStep (ht : MemTree s f) (hdir : HasRef f dir) (i : Fin 100) :
    Returns (deleteFile s dir (.slot i)) fun r => TreeStep s r.2 f := by
  by_cases hi : i ∈ (childrenOf f dir).tops
  · exact (deleteFile_unlinks (ht.children hdir) (ht.children_nodup dir) (ht.tops_lt dir)
      (ht.child_ne hdir) hi).mono fun r hr => .unlinked hdir hi hr
  · obtain ⟨msg, habs, -⟩ := deleteFile_absent ht hdir hi
    rw [habs]
    exact .ok (.spares (.printf s msg))

/-- Without `rc`, the directory is deleted like a file, if `is_dir_empty` returns. -/
theorem deleteDirectory_false_eq (n : Nat) (fa dir : FileRef) :
    deleteDirectory (n + 1) s fa dir false = isDirEmpty s dir >>= fun b =>
      if b then .ok (false, s.printf "Error: This directory is not empty.\n")
      else deleteFile s fa dir := by
  cases hempty : isDirEmpty s dir with
  | error e =>
    simp only [deleteDirectory, Bool.false_eq_true, if_false, hempty, bind, Except.bind]
  | ok b =>
    cases b <;>
      simp only [deleteDirectory, deleteFile, Bool.false_eq_true, if_false, if_true, hempty, bind,
        Except.bind, pure, Except.pure]

theorem deleteDirectory_treeStep (ht : MemTree s f) (hdir : HasRef f dir) (i : Fin 100)
    (rc : Bool) : Returns (deleteDirectory sibFuel s dir (.slot i) rc) fun r => TreeStep s r.2 f := by
  cases rc with
  | false =>
    rw [show sibFuel = 100 + 1 from rfl, deleteDirectory_false_eq]
    refine .bind .any fun b _ => ?_
    split
    · exact .ok (.spares (.printf s _))
    · exact deleteFile_treeStep ht hdir i
  | true =>
    by_cases hi : i ∈ (childrenOf f dir).tops
    · exact (deleteDirectory_unlinks (ht.children hdir) (ht.children_nodup dir) (ht.tops_lt dir)
        (ht.child_ne hdir) hi).mono fun r hr => .unlinked hdir hi hr
    · obtain ⟨msg, -, habs⟩ := deleteFile_absent ht hdir hi
      rw [habs]
      exact .ok (.spares (.printf s msg))

/-- **One operation**, whatever it returns. -/
theorem FsOp.treeStep {op : FsOp} (ht : MemTree s f) (hroot : s.rootfile.nextSib = none)
    (hop : op.InTree s) : Returns (op.run s) fun r => TreeStep s r.2 f := by
  have hin : ∀ dir, Reachable s dir → HasRef f dir := fun dir hdir =>
    (ht.reachable_iff hroot).mp hdir
  cases op with
  | createEmptyFile dir filename attr wrtTime wrtDate =>
    have hdir := hin dir hop
    exact (createEmptyFile_makes s (ht.inUse hdir) filename attr wrtTime wrtDate).mono
      fun r hr => hr.treeStep hdir
  | createEmptyDirectory dir filename wrtTime wrtDate =>
    have hdir := hin dir hop
    exact (createEmptyDirectory_makes s (ht.inUse hdir) filename wrtTime wrtDate).mono
      fun r hr => hr.treeStep hdir
  | deleteFile dir file => exact deleteFile_treeStep ht (hin dir hop) file
  | deleteDirectory fa dir rc => exact deleteDirectory_treeStep ht (hin fa hop) dir rc
  | writeFile file type content => exact hop.elim
  | writeFileFromSda file type filesize => exact hop.elim
  | appendFile file1 file2 => exact hop.elim

theorem sibDistinct_replaceChildren {g : Fin 100 → Name} {K : Forest (Fin 100)}
    (hf : f.SibDistinct g) (hK : K.SibDistinct g) (r : FileRef) :
    (replaceChildren f r K).SibDistinct g := by
  cases r with
  | rootfile => exact hK
  | slot j => exact Forest.SibDistinct.setKids hK hf

/-- The names of the nodes that were in the tree. -/
theorem Made.names {filename : Name} {kids : Forest (Fin 100)} (h : Made s s' dir filename i kids)
    (ht : MemTree s f) : ∀ j ∈ f.labels, slotName s' j = slotName s j := by
  intro j hj
  obtain ⟨son, hson⟩ := h.node ht (q := .slot j) hj
  rw [Fs.file_slot, Fs.file_slot] at hson
  rw [slotName, slotName, hson]

/-- A new node has a new name, and its children have names of their own. -/
theorem Made.distinct {filename : Name} {kids : Forest (Fin 100)}
    (h : Made s s' dir filename i kids) (ht : MemTree s f) (hdir : HasRef f dir)
    (hd : f.SibDistinct (slotName s)) :
    (replaceChildren f dir (.cons i kids (childrenOf f dir))).SibDistinct (slotName s') := by
  have hf : f.SibDistinct (slotName s') := hd.congr (h.names ht)
  have hsibs : (childrenOf f dir).SibDistinct (slotName s') := by
    cases dir with
    | rootfile => exact hf
    | slot j => exact hf.kidsAt
  -- the name was looked up before
  have hfind : (childrenOf f dir).tops.find? (fun x => (s.filelist x).filename = filename) = none := by
    simpa using (ht.isFileExist_ok hdir filename).symm.trans h.nameFree
  have hfree : ∀ b ∈ (childrenOf f dir).tops, slotName s' b ≠ slotName s' i := by
    intro b hb hname
    have hne := List.find?_eq_none.mp hfind b hb
    rw [h.names ht b (childrenOf_subset (Forest.tops_subset_labels hb))] at hname
    exact hne (decide_eq_true (hname.trans h.name))
  exact sibDistinct_replaceChildren (K := .cons i kids (childrenOf f dir)) hf
    ⟨hfree, h.kidNames, hsibs⟩ dir

/-- What is left of the tree has the old names. -/
theorem Unlinked.distinct (h : Unlinked s s' dir (childrenOf f dir) i) (ht : MemTree s f)
    (hdir : HasRef f dir) (hi : i ∈ (childrenOf f dir).tops)
    (hd : f.SibDistinct (slotName s)) :
    (replaceChildren f dir ((childrenOf f dir).removeTop i)).SibDistinct (slotName s') := by
  have hsibs : (childrenOf f dir).SibDistinct (slotName s) := by
    cases dir with
    | rootfile => exact hd
    | slot j => exact hd.kidsAt
  refine (sibDistinct_replaceChildren hd hsibs.removeTop dir).congr fun j hj => ?_
  obtain ⟨-, hout⟩ := (Unlinked.mem_labels ht hdir hi).mp hj
  obtain ⟨son, sib, hre⟩ := h.relink (q := .slot j) fun x hx => by
    rintro ⟨⟩
    exact hout hx
  rw [Fs.file_slot, Fs.file_slot] at hre
  rw [slotName, slotName, hre]

/-- The tree and the names after one operation. -/
theorem TreeStep.distinct (h : TreeStep s s' f) (ht : MemTree s f)
    (hroot : s.rootfile.nextSib = none) :
    s'.rootfile.nextSib = none ∧ ∃ f', MemTree s' f' ∧
      (f.SibDistinct (slotName s) → f'.SibDistinct (slotName s')) := by
  cases h with
  | spares h =>
    have hsame : s'.rootfile = s.rootfile := h .rootfile trivial
    refine ⟨by rw [hsame, hroot], f, h.memTree ht, fun hd => hd.congr fun j hj => ?_⟩
    rw [slotName, slotName, h.slot ht hj]
  | made hdir h =>
    obtain ⟨son, hson⟩ := h.node ht (q := .rootfile) trivial
    refine ⟨?_, _, h.memTree ht hdir, h.distinct ht hdir⟩
    exact (congrArg File.nextSib hson).trans hroot
  | @unlinked dir i hdir hi h =>
    refine ⟨?_, _, h.memTree ht hdir hi, h.distinct ht hdir hi⟩
    -- the redirected link is not the one of the root, which precedes nothing
    have hout := h.outside .rootfile fun x _ => by simp
    have hpre : predTop (childrenOf f dir) i none ≠ some .rootfile := by
      rcases predTop_cases i (childrenOf f dir) none with he | ⟨y, -, he⟩ <;> simp [he]
    have hsib := (relink_file s dir (predTop (childrenOf f dir) i none) (s.filelist i).nextSib
      .rootfile).2.2 hpre
    rw [← hout] at hsib
    exact hsib.trans hroot

end Step

/-! ## Runs -/

/-- Every step of the run is such an operation, in a directory of the tree as it is then. -/
def InTreeRun : List FsOp → Fs → Prop
  | [], _ => True
  | op :: ops, s => op.InTree s ∧ ∀ r, op.run s = .ok r → InTreeRun ops r.2

/-- One step. -/
theorem FsOp.uniqueNames {s : Fs} {op : FsOp} (h : TreeShaped s) (hu : UniqueNames s)
    (hop : op.InTree s) : Returns (op.run s) fun r => TreeShaped r.2 ∧ UniqueNames r.2 := by
  obtain ⟨hroot, f, ht⟩ := h
  refine (op.treeStep ht hroot hop).mono fun r hr => ?_
  obtain ⟨hroot', f', ht', hd⟩ := hr.distinct ht hroot
  have hd' := hd ((ht.uniqueNames_iff hroot).mp hu)
  exact ⟨⟨hroot', f', ht'⟩, (ht'.uniqueNames_iff hroot').mpr hd'⟩

theorem InTreeRun.uniqueNames {ops : List FsOp} {s : Fs} (h : TreeShaped s) (hu : UniqueNames s)
    (hops : InTreeRun ops s) : Returns (runOps ops s) fun s' => TreeShaped s' ∧ UniqueNames s' := by
  induction ops generalizing s with
  | nil => exact .ok ⟨h, hu⟩
  | cons op ops ih =>
    rw [runOps]
    refine .bind .any fun r hr => ?_
    obtain ⟨h', hu'⟩ := op.uniqueNames h hu hops.1 r hr
    exact ih h' hu' (hops.2 r hr)

/-- **Names are unique within a directory**, after every run of creations and deletions, with
any names and whatever the calls return: no two nodes of one list have the same name, and
`is_file_exist` returns the one node of the name it is asked for, or none. -/
theorem uniqueNames_run {ops : List FsOp} {s s' : Fs} (h : TreeShaped s) (hu : UniqueNames s)
    (hops : InTreeRun ops s) (hrun : runOps ops s = .ok s') :
    UniqueNames s' ∧ ∀ dir, Reachable s' dir → ∀ filename, ∃ found,
      isFileExist s' dir filename = .ok found ∧
        ∀ q, found = some q ↔ Son s' dir q ∧ (s'.file q).filename = filename := by
  obtain ⟨h', hu'⟩ := hops.uniqueNames h hu s' hrun
  exact ⟨hu', fun dir hdir filename => hu'.isFileExist h' hdir filename⟩

theorem emptyFs_memTree : MemTree emptyFs .nil := ⟨rfl, List.nodup_nil⟩

theorem emptyFs_treeShaped : TreeShaped emptyFs := ⟨rfl, .nil, emptyFs_memTree⟩

theorem emptyFs_uniqueNames : UniqueNames emptyFs :=
  (emptyFs_memTree.uniqueNames_iff rfl).mpr trivial

/-- A directory is made, a file of the same name is refused, and the directory is deleted. -/
def takenNameOps : List FsOp :=
  [.createEmptyDirectory .rootfile sampleName 0 0, .createEmptyFile .rootfile sampleName 0x20 0 0,
    .deleteDirectory .rootfile 0 true]

theorem uniqueNames_run_taken : ∃ s', runOps takenNameOps emptyFs = .ok s' ∧ UniqueNames s' ∧
    ∀ dir, Reachable s' dir → ∀ filename, ∃ found, isFileExist s' dir filename = .ok found ∧
      ∀ q, found = some q ↔ Son s' dir q ∧ (s'.file q).filename = filename := by
  have hrun : returnsWith (runOps takenNameOps emptyFs) (fun _ => true) = true := by decide +kernel
  obtain ⟨s', hs', -⟩ := returnsWith_iff.mp hrun
  have hops : InTreeRun takenNameOps emptyFs :=
    ⟨.root, fun _ _ => ⟨.root, fun _ _ => ⟨.root, fun _ _ => trivial⟩⟩⟩
  exact ⟨s', hs', uniqueNames_run emptyFs_treeShaped emptyFs_uniqueNames hops hs'⟩

end GwOS
