import GwOS.Filesystem.Directory

/-!
# Creating files and directories

`create_empty_file` and `create_empty_directory` in a directory with a free slot:
the path each of them takes, the state it leaves, and that tree and volume still
fit (`Created.mounted`). The same state is the starting point for the agreement
of disk and memory after a remount.
-/

namespace GwOS

/-! ## File slots -/

/-- The slots of `filelist` that are not in use. -/
def freeSlots (s : Fs) : Finset (Fin 100) := Finset.univ.filter fun i => (s.filelist i).used = false

theorem mem_freeSlots {s : Fs} {i : Fin 100} : i ∈ freeSlots s ↔ (s.filelist i).used = false := by
  simp [freeSlots]

/-- `get_empty_file` takes a free slot when there is one. -/
theorem getEmptyFile_ok {s : Fs} (h : 0 < (freeSlots s).card) :
    ∃ i, (s.filelist i).used = false ∧
      getEmptyFile s = (some (.slot i), s.setFile (.slot i) (initNewFile (s.filelist i))) := by
  obtain ⟨j, hj⟩ := Finset.card_pos.mp h
  have hj' := mem_freeSlots.mp hj
  obtain ⟨i, hi⟩ := Option.isSome_iff_exists.mp
    ((List.find?_isSome (p := fun i => !(s.filelist i).used)).mpr
      ⟨j, List.mem_finRange j, by simp [hj']⟩)
  have hu := List.find?_some hi
  refine ⟨i, by simpa using hu, ?_⟩
  simp only [getEmptyFile, emptySlot, hi]

/-- Taking one slot leaves the other free slots. -/
theorem card_freeSlots_le {s s' : Fs} {i : Fin 100}
    (h : ∀ j, j ≠ i → (s.filelist j).used = false → (s'.filelist j).used = false) :
    (freeSlots s).card ≤ (freeSlots s').card + 1 := by
  have hsub : freeSlots s ⊆ insert i (freeSlots s') := by
    intro j hj
    by_cases hji : j = i
    · exact hji ▸ Finset.mem_insert_self ..
    · exact Finset.mem_insert_of_mem (mem_freeSlots.mpr (h j hji (mem_freeSlots.mp hj)))
  exact (Finset.card_le_card hsub).trans (Finset.card_insert_le ..)

/-! ## The paths -/

/-- The node `init_file` makes of a fresh slot. -/
def initedFile (old : File) (fa : FileRef) (filename : Name) (attr : UInt8)
    (wrtTime wrtDate fstClus : UInt16) (fileSize : UInt32) : File :=
  { initNewFile old with
    fa := some fa
    filename := filename
    attr := attr
    wrtTime := wrtTime
    wrtDate := wrtDate
    fstClus := fstClus
    fileSize := fileSize }

theorem initFile_getEmpty (s : Fs) (i : Fin 100) (fa : FileRef) (filename : Name) (attr : UInt8)
    (wrtTime wrtDate fstClus : UInt16) (fileSize : UInt32) :
    initFile (s.setFile (.slot i) (initNewFile (s.filelist i))) (.slot i) fa filename attr
        wrtTime wrtDate fstClus fileSize =
      s.setFile (.slot i)
        (initedFile (s.filelist i) fa filename attr wrtTime wrtDate fstClus fileSize) := by
  simp only [initFile, Fs.setFile, Fs.file, Function.update_self, Function.update_idem, initedFile,
    initNewFile]

/-- The straight path through `create_empty_file`. -/
theorem createEmptyFile_path {s s2 s4 : Fs} {dir file : FileRef} {filename : Name} {attr : UInt8}
    {wrtTime wrtDate : UInt16} {c : Nat} {d d5 : Disk}
    (hexist : isFileExist s dir filename = .ok none)
    (hclus : findEmptyCluster s.sdb = .ok (c, d))
    (hslot : getEmptyFile { s with sdb := d } = (some file, s2))
    (hentry : createDirEntry (initFile s2 file dir filename attr wrtTime wrtDate
      (UInt16.ofNat c) 0) dir file = .ok (true, s4))
    (hfat : writeFatNextCluster s4.sdb c 0xFFF = .ok d5) :
    createEmptyFile s dir filename attr wrtTime wrtDate =
      let s := { s4 with sdb := d5 }
      let s := s.setFile file { s.file file with nextSib := (s.file dir).fstSon }
      .ok (true, s.setFile dir { s.file dir with fstSon := some file }) := by
  have hneg : ¬ ((c : Int) = -1) := by omega
  simp only [createEmptyFile, hexist, hclus, hslot, hentry, hfat, bind, Except.bind, hneg,
    if_false, Bool.not_true, Bool.false_eq_true, pure, Except.pure]

/-- When the entry cannot be written, `create_empty_file` gives the slot back. -/
theorem createEmptyFile_failPath {s s2 s4 : Fs} {dir file : FileRef} {filename : Name}
    {attr : UInt8} {wrtTime wrtDate : UInt16} {c : Nat} {d : Disk}
    (hexist : isFileExist s dir filename = .ok none)
    (hclus : findEmptyCluster s.sdb = .ok (c, d))
    (hslot : getEmptyFile { s with sdb := d } = (some file, s2))
    (hentry : createDirEntry (initFile s2 file dir filename attr wrtTime wrtDate
      (UInt16.ofNat c) 0) dir file = .ok (false, s4)) :
    createEmptyFile s dir filename attr wrtTime wrtDate = .ok (false, markUnused s4 file) := by
  have hneg : ¬ ((c : Int) = -1) := by omega
  simp only [createEmptyFile, hexist, hclus, hslot, hentry, bind, Except.bind, hneg,
    if_false, Bool.not_false, if_true, pure, Except.pure]

/-- The straight path through `create_empty_directory`. -/
theorem createEmptyDirectory_path {s s2 s4 s6 : Fs} {dir subdir : FileRef} {filename : Name}
    {wrtTime wrtDate : UInt16} {c : Nat} {d d5 : Disk}
    (hexist : isFileExist s dir filename = .ok none)
    (hclus : findEmptyCluster s.sdb = .ok (c, d))
    (hslot : getEmptyFile { s with sdb := d } = (some subdir, s2))
    (hentry : createDirEntry (initFile s2 subdir dir filename 0x10 wrtTime wrtDate
      (UInt16.ofNat c) 0) dir subdir = .ok (true, s4))
    (hfat : writeFatNextCluster s4.sdb c 0xFFF = .ok d5)
    (hdots : writeEmptyDirectory { s4 with sdb := d5 } dir subdir = .ok (true, s6)) :
    createEmptyDirectory s dir filename wrtTime wrtDate =
      let s := s6.setFile subdir { s6.file subdir with nextSib := (s6.file dir).fstSon }
      .ok (true, s.setFile dir { s.file dir with fstSon := some subdir }) := by
  have hneg : ¬ ((c : Int) = -1) := by omega
  simp only [createEmptyDirectory, hexist, hclus, hslot, hentry, hfat, hdots, bind, Except.bind,
    hneg, if_false, Bool.not_true, Bool.false_eq_true, pure, Except.pure]

theorem createEmptyDirectory_failPath {s s2 s4 : Fs} {dir subdir : FileRef} {filename : Name}
    {wrtTime wrtDate : UInt16} {c : Nat} {d : Disk}
    (hexist : isFileExist s dir filename = .ok none)
    (hclus : findEmptyCluster s.sdb = .ok (c, d))
    (hslot : getEmptyFile { s with sdb := d } = (some subdir, s2))
    (hentry : createDirEntry (initFile s2 subdir dir filename 0x10 wrtTime wrtDate
      (UInt16.ofNat c) 0) dir subdir = .ok (false, s4)) :
    createEmptyDirectory s dir filename wrtTime wrtDate = .ok (false, markUnused s4 subdir) := by
  have hneg : ¬ ((c : Int) = -1) := by omega
  simp only [createEmptyDirectory, hexist, hclus, hslot, hentry, bind, Except.bind, hneg,
    if_false, Bool.not_false, if_true, pure, Except.pure]

/-- The straight path through `write_empty_directory`. -/
theorem writeEmptyDirectory_path {s s1 s2 s3 s4 : Fs} {fa dir dot dotdot : FileRef}
    (hdot : getEmptyFile s = (some dot, s1))
    (hentry : createDirEntry (initFile s1 dot dir (dotName 1) (s1.file dir).attr
      (s1.file dir).wrtTime (s1.file dir).wrtDate (s1.file dir).fstClus (s1.file dir).fileSize)
      dir dot = .ok (true, s2))
    (hdotdot : getEmptyFile s2 = (some dotdot, s3))
    (hentry' : createDirEntry (initFile s3 dotdot dir (dotName 2) (s3.file fa).attr
      (s3.file fa).wrtTime (s3.file fa).wrtDate (s3.file fa).fstClus (s3.file fa).fileSize)
      dir dotdot = .ok (true, s4)) :
    writeEmptyDirectory s fa dir =
      let s := s4.setFile dir { s4.file dir with fstSon := some dot }
      .ok (true, s.setFile dot { s.file dot with nextSib := some dotdot }) := by
  simp only [writeEmptyDirectory, hdot, hentry, hdotdot, hentry', bind, Except.bind,
    Bool.not_true, Bool.false_eq_true, if_false, pure, Except.pure]

/-! ## Up to the directory entry -/

/-- The state in which `create_dir_entry` is called: the free cluster `c` has been
zeroed and the slot `i` filled. -/
def freshState (s : Fs) (c : Nat) (i : Fin 100) (node : File) : Fs :=
  Fs.setFile { s with sdb := Function.update s.sdb (c + 31) (Bytes.zero 512) } (.slot i) node

section Prefix

variable {s : Fs} {f : Forest (Fin 100)} {chain : Fin 100 → List Nat} {dir : FileRef}

/-- An unused slot is not in the tree. -/
theorem MemTree.not_mem_of_unused (h : MemTree s f) {i : Fin 100}
    (hi : (s.filelist i).used = false) : i ∉ f.labels := by
  intro hm
  have := h.linked.used i hm
  rw [hi] at this
  cases this

theorem MemTree.ne_of_unused (h : MemTree s f) {r : FileRef} (hr : HasRef f r) {i : Fin 100}
    (hi : (s.filelist i).used = false) : r ≠ .slot i := by
  rintro rfl
  exact h.not_mem_of_unused hi hr

theorem freshState_file_ne {c : Nat} {i : Fin 100} {n : File} {q : FileRef}
    (hq : q ≠ .slot i) : (freshState s c i n).file q = s.file q := by
  rw [freshState, Fs.file_setFile_ne _ _ hq, Fs.file_setSdb]

theorem freshState_self {c : Nat} {i : Fin 100} {node : File} :
    (freshState s c i node).filelist i = node := by
  simp [freshState]

theorem freshState_touches {c : Nat} {i : Fin 100} {n : File} (hc : IsFree s.sdb c) :
    Touches s.sdb (freshState s c i n).sdb ∅ {c + 31} :=
  Touches.update _ _ (by have := hc.1; omega) rfl

theorem freshState_mounted (h : Mounted s f chain) {c : Nat} {i : Fin 100} (node : File)
    (hc : IsFree s.sdb c) (hi : (s.filelist i).used = false) :
    Mounted (freshState s c i node) f chain := by
  refine h.congr rfl (fun j hj => ?_) (freshState_touches hc)
  have hji : FileRef.slot j ≠ .slot i := h.tree.ne_of_unused (r := .slot j) hj hi
  have hfile := freshState_file_ne (s := s) (c := c) (n := node) hji
  rw [Fs.file_slot, Fs.file_slot] at hfile
  rw [hfile]
  exact SameNode.refl _

/-- The calls before the directory entry. -/
theorem create_prefix (h : Mounted s f chain) (hfree : ∃ c, IsFree s.sdb c)
    (hslot : 0 < (freeSlots s).card) :
    ∃ c i, IsFree s.sdb c ∧ (s.filelist i).used = false ∧
      findEmptyCluster s.sdb = .ok (c, Function.update s.sdb (c + 31) (Bytes.zero 512)) ∧
      ∃ s2, getEmptyFile { s with sdb := Function.update s.sdb (c + 31) (Bytes.zero 512) } =
          (some (.slot i), s2) ∧
        ∀ (filename : Name) (attr : UInt8) (wrtTime wrtDate : UInt16),
          initFile s2 (.slot i) dir filename attr wrtTime wrtDate (UInt16.ofNat c) 0 =
            freshState s c i (initedFile (s.filelist i) dir filename attr wrtTime wrtDate
              (UInt16.ofNat c) 0) := by
  obtain ⟨c, he, hc, -⟩ := findEmptyCluster_ok h.volume.entry0 h.volume.entry1 hfree
  obtain ⟨i, hi, hg⟩ := getEmptyFile_ok
    (s := { s with sdb := Function.update s.sdb (c + 31) (Bytes.zero 512) }) hslot
  exact ⟨c, i, hc, hi, he, _, hg, fun _ _ _ _ => initFile_getEmpty ..⟩

/-- The entry goes into a sector of the directory. -/
theorem create_entry (h : Mounted s f chain) (hdir : LiveRef s f dir) {c : Nat} {i : Fin 100}
    (node : File) (hc : IsFree s.sdb c) (hi : (s.filelist i).used = false)
    (hroom : ∃ x ∈ dirSectors chain dir, HasFreeSlot (s.sdb x)) :
    ∃ x off, x ∈ dirSectors chain dir ∧ dirEntryOffsets.find? (slotFree (s.sdb x)) = some off ∧
      createDirEntry (freshState s c i node) dir (.slot i) =
        .ok (true, { freshState s c i node with
          sdb := Function.update (Function.update s.sdb (c + 31) (Bytes.zero 512)) x
            (putDirEntry (s.sdb x) off node) }) := by
  have hm := freshState_mounted h node hc hi
  have hdir' : LiveRef (freshState s c i node) f dir := by
    cases dir with
    | rootfile => trivial
    | slot j =>
      have hji : FileRef.slot j ≠ .slot i := h.tree.ne_of_unused (r := .slot j) hdir.1 hi
      have hfile := freshState_file_ne (s := s) (c := c) (n := node) hji
      rw [Fs.file_slot, Fs.file_slot] at hfile
      exact ⟨hdir.1, hfile ▸ hdir.2⟩
  have hsame : ∀ x ∈ dirSectors chain dir, (freshState s c i node).sdb x = s.sdb x := by
    intro x hx
    show Function.update s.sdb (c + 31) (Bytes.zero 512) x = s.sdb x
    have hne := dirSectors_ne_free h hdir hx hc
    rw [Function.update_of_ne hne]
  obtain ⟨y, hy, hyf⟩ := hroom
  obtain ⟨x, off, hx, hoff, he⟩ := createDirEntry_ok (hm.dirOn hdir') (.slot i)
    ⟨y, hy, by rwa [hsame y hy]⟩
  rw [hsame x hx] at hoff he
  refine ⟨x, off, hx, hoff, ?_⟩
  rw [he, Fs.file_slot, freshState_self]
  rfl

/-- The state after the new chain has been closed in the FAT. -/
def markedState (s : Fs) (c : Nat) (i : Fin 100) (node : File) (x off : Nat) : Fs :=
  { freshState s c i node with
    sdb := putFat (Function.update (Function.update s.sdb (c + 31) (Bytes.zero 512)) x
      (putDirEntry (s.sdb x) off node)) c 0xFFF }

section Marked

variable {c x off : Nat} {i : Fin 100} {node : File}

theorem markedState_ne {q : FileRef} (hq : q ≠ .slot i) :
    (markedState s c i node x off).file q = s.file q := by
  rw [markedState, Fs.file_setSdb, freshState_file_ne hq]

theorem markedState_self : (markedState s c i node x off).filelist i = node := by
  simp [markedState, freshState]

theorem markedState_fat (hc : IsFree s.sdb c) :
    getFatNextCluster (markedState s c i node x off).sdb c = 0xFFF :=
  getFat_putFat_self _ _ hc.lt

theorem markedState_touches (hc : IsFree s.sdb c) (hx : 19 ≤ x) :
    Touches s.sdb (markedState s c i node x off).sdb {c} {x, c + 31} :=
  ((Touches.update _ _ (by omega) (by simp)).trans (Touches.update _ _ hx (by simp))).trans
    (Touches.put _ _ hc.lt rfl)

theorem markedState_entry (hc : IsFree s.sdb c) (hx : 19 ≤ x) :
    (markedState s c i node x off).sdb x = putDirEntry (s.sdb x) off node := by
  show putFat _ _ _ _ = _
  rw [putFat_outside _ _ hc.lt (.inr hx), Function.update_self]

theorem markedState_cluster (hc : IsFree s.sdb c) (hx : x ≠ c + 31) :
    (markedState s c i node x off).sdb (c + 31) = Bytes.zero 512 := by
  show putFat _ _ _ _ = _
  rw [putFat_outside _ _ hc.lt (.inr (by omega)), Function.update_of_ne hx.symm,
    Function.update_self]

end Marked

end Prefix

/-! ## The state after a creation -/

/-- `s'` is `s` with the new node `i` in `dir`: `node` is stored in the entry at
`off` of sector `x`, the node owns the cluster `c` with content `b`, and `kids` are
its children. -/
structure Created (s s' : Fs) (chain : Fin 100 → List Nat) (dir : FileRef) (i : Fin 100)
    (node : File) (kids : Forest (Fin 100)) (c x off : Nat) (b : Sector) : Prop where
  unused : (s.filelist i).used = false
  free : IsFree s.sdb c
  sector : x ∈ dirSectors chain dir
  slot : dirEntryOffsets.find? (slotFree (s.sdb x)) = some off
  rest : s' = { s with sdb := s'.sdb, rootfile := s'.rootfile, filelist := s'.filelist }
  touches : Touches s.sdb s'.sdb {c} {x, c + 31}
  fat : getFatNextCluster s'.sdb c = 0xFFF
  entry : s'.sdb x = putDirEntry (s.sdb x) off node
  cluster : s'.sdb (c + 31) = b
  dirNode : s'.file dir = { s.file dir with fstSon := some (.slot i) }
  newNode : Relink node (s'.filelist i)
  newSib : (s'.filelist i).nextSib = (s.file dir).fstSon
  kidsLinked : Linked s'.filelist (.slot i) (s'.filelist i).fstSon kids
  kidsNodup : kids.labels.Nodup
  kidsFresh : ∀ j ∈ kids.labels, (s.filelist j).used = false ∧ j ≠ i
  kidsDot : ∀ j ∈ kids.labels, IsDot (s'.filelist j)
  other : ∀ q, q ≠ dir → q ≠ .slot i → (∀ j ∈ kids.labels, q ≠ .slot j) → s'.file q = s.file q

section Created

variable {s s' : Fs} {f kids : Forest (Fin 100)} {chain : Fin 100 → List Nat} {dir : FileRef}
  {i : Fin 100} {node : File} {c x off : Nat} {b : Sector}

/-- Nodes of the tree other than `dir` are untouched. -/
theorem Created.keep (hcr : Created s s' chain dir i node kids c x off b) (h : Mounted s f chain)
    {q : FileRef} (hq : HasRef f q) (hne : q ≠ dir) : s'.file q = s.file q :=
  hcr.other q hne (h.tree.ne_of_unused hq hcr.unused)
    fun j hj => h.tree.ne_of_unused hq (hcr.kidsFresh j hj).1

theorem Created.sameNode (hcr : Created s s' chain dir i node kids c x off b)
    (h : Mounted s f chain) {j : Fin 100} (hj : j ∈ f.labels) :
    (s'.filelist j).filename = (s.filelist j).filename ∧
      (s'.filelist j).fstClus = (s.filelist j).fstClus := by
  by_cases hjd : FileRef.slot j = dir
  · subst hjd
    have hd := hcr.dirNode
    rw [Fs.file_slot, Fs.file_slot] at hd
    rw [hd]
    exact ⟨rfl, rfl⟩
  · have hk := hcr.keep h (q := .slot j) hj hjd
    rw [Fs.file_slot, Fs.file_slot] at hk
    rw [hk]
    exact ⟨rfl, rfl⟩

/-- The new tree. -/
theorem Created.memTree (hcr : Created s s' chain dir i node kids c x off b)
    (h : Mounted s f chain) (hdir : LiveRef s f dir) (hused : node.used = true)
    (hfa : node.fa = some dir) :
    MemTree s' (replaceChildren f dir (.cons i kids (childrenOf f dir))) := by
  obtain ⟨son, sib, hnode⟩ := hcr.newNode
  refine h.tree.insert hdir.hasRef (h.tree.not_mem_of_unused hcr.unused) ?_ hcr.kidsNodup ?_ ?_ ?_
    hcr.newSib hcr.kidsLinked hcr.dirNode fun q hq hne => hcr.keep h hq hne
  · exact fun hm => (hcr.kidsFresh i hm).2 rfl
  · exact fun j hj => h.tree.not_mem_of_unused (hcr.kidsFresh j hj).1
  · rw [hnode]
    exact hused
  · rw [hnode]
    exact hfa

/-- The nodes of the new tree. -/
theorem Created.mem_labels (h : Mounted s f chain) (hdir : LiveRef s f dir) {j : Fin 100} :
    j ∈ (replaceChildren f dir (.cons i kids (childrenOf f dir))).labels ↔
      j = i ∨ j ∈ kids.labels ∨ j ∈ f.labels := by
  rw [mem_replaceChildren h.tree hdir.hasRef, Forest.labels, List.mem_cons, List.mem_append]
  constructor
  · rintro ((hj | hj | hj) | hj)
    · exact .inl hj
    · exact .inr (.inl hj)
    · exact .inr (.inr (childrenOf_subset hj))
    · exact .inr (.inr hj.1)
  · rintro (hj | hj | hj)
    · exact .inl (.inl hj)
    · exact .inl (.inr (.inl hj))
    · by_cases hc : j ∈ (childrenOf f dir).labels
      · exact .inl (.inr (.inr hc))
      · exact .inr ⟨hj, hc⟩

/-- **Tree and volume fit after a creation**, with the chain `[c]` for the new node. -/
theorem Created.mounted (hcr : Created s s' chain dir i node kids c x off b)
    (h : Mounted s f chain) (hdir : LiveRef s f dir) (hused : node.used = true)
    (hfa : node.fa = some dir) (hclus : node.fstClus = UInt16.ofNat c) :
    Mounted s' (replaceChildren f dir (.cons i kids (childrenOf f dir)))
      (Function.update chain i [c]) := by
  refine ⟨hcr.memTree h hdir hused hfa, ?_⟩
  refine h.volume.alloc hcr.free hcr.touches hcr.fat ?_ ?_
  · obtain ⟨son, sib, hnode⟩ := hcr.newNode
    have hle := hcr.free.2.1
    rw [firstClus, hnode]
    show node.fstClus.toNat = c
    rw [hclus, UInt16.toNat_ofNat']
    omega
  · rintro j ⟨hj, hdot⟩ hji
    rcases (Created.mem_labels h hdir).mp hj with hj | hj | hj
    · exact absurd hj hji
    · exact absurd (hcr.kidsDot j hj) hdot
    · obtain ⟨hn, hf⟩ := hcr.sameNode h hj
      refine ⟨⟨hj, ?_⟩, ?_⟩
      · rwa [IsDot, hn] at hdot
      · rw [firstClus, firstClus, hf]

end Created

/-! ## The functions -/

/-- The last two stores of both functions: the new node becomes the first son. -/
def linkFirst (s : Fs) (dir file : FileRef) : Fs :=
  let s := s.setFile file { s.file file with nextSib := (s.file dir).fstSon }
  s.setFile dir { s.file dir with fstSon := some file }

section LinkFirst

variable {s : Fs} {dir : FileRef} {i : Fin 100} (hne : dir ≠ .slot i)

include hne

theorem linkFirst_dir :
    (linkFirst s dir (.slot i)).file dir = { s.file dir with fstSon := some (.slot i) } := by
  rw [linkFirst, Fs.file_setFile_self, Fs.file_setFile_ne _ _ hne]

theorem linkFirst_node : (linkFirst s dir (.slot i)).filelist i =
    { s.filelist i with nextSib := (s.file dir).fstSon } := by
  rw [← Fs.file_slot, linkFirst, Fs.file_setFile_ne _ _ hne.symm, Fs.file_setFile_self, Fs.file_slot]

omit hne in
theorem linkFirst_ne {q : FileRef} (hd : q ≠ dir) (hi : q ≠ .slot i) :
    (linkFirst s dir (.slot i)).file q = s.file q := by
  rw [linkFirst, Fs.file_setFile_ne _ _ hd, Fs.file_setFile_ne _ _ hi]

omit hne in
theorem linkFirst_rest : linkFirst s dir (.slot i) =
    { s with
      rootfile := (linkFirst s dir (.slot i)).rootfile
      filelist := (linkFirst s dir (.slot i)).filelist } := by
  cases dir <;> rfl

end LinkFirst

section Functions

variable {s : Fs} {f : Forest (Fin 100)} {chain : Fin 100 → List Nat} {dir : FileRef}
  {filename : Name} {wrtTime wrtDate : UInt16}

/-- No child of `dir` has the name. -/
def NameUnused (s : Fs) (f : Forest (Fin 100)) (dir : FileRef) (filename : Name) : Prop :=
  ∀ i ∈ (childrenOf f dir).tops, (s.filelist i).filename ≠ filename

theorem isFileExist_none (h : MemTree s f) (hdir : HasRef f dir)
    (hname : NameUnused s f dir filename) : isFileExist s dir filename = .ok none := by
  rw [h.isFileExist_ok hdir]
  have hnone : (childrenOf f dir).tops.find? (fun i => (s.filelist i).filename = filename) = none :=
    List.find?_eq_none.mpr fun i hi he => hname i hi (by simpa using he)
  rw [hnone]
  rfl

theorem isFileExist_some (h : MemTree s f) (hdir : HasRef f dir)
    (hname : ¬ NameUnused s f dir filename) : ∃ p, isFileExist s dir filename = .ok (some p) := by
  obtain ⟨i, hi, he⟩ : ∃ i ∈ (childrenOf f dir).tops, (s.filelist i).filename = filename := by
    by_contra hno
    exact hname fun i hi he => hno ⟨i, hi, he⟩
  obtain ⟨j, hj⟩ := Option.isSome_iff_exists.mp
    ((List.find?_isSome (p := fun i => decide ((s.filelist i).filename = filename))).mpr
      ⟨i, hi, by simpa using he⟩)
  exact ⟨.slot j, by rw [h.isFileExist_ok hdir, hj]; rfl⟩

/-- The node of `.` or `..`: a copy of what it stands for, under its own name. -/
def dotFile (old : File) (dir : FileRef) (dots : Nat) (src : File) : File :=
  initedFile old dir (dotName dots) src.attr src.wrtTime src.wrtDate src.fstClus src.fileSize

/-- The sector of a new directory. -/
def dotSector (dot dotdot : File) : Sector :=
  putDirEntry (putDirEntry (Bytes.zero 512) 0 dot) 32 dotdot

theorem dirEntryOffsets_eq :
    ∃ rest, dirEntryOffsets = 0 :: 32 :: rest := ⟨_, rfl⟩

theorem find_zero : dirEntryOffsets.find? (slotFree (Bytes.zero 512)) = some 0 := by
  obtain ⟨rest, hrest⟩ := dirEntryOffsets_eq
  have hfree : slotFree (Bytes.zero 512) 0 = true := by simp [slotFree]
  rw [hrest, List.find?_cons_of_pos hfree]

theorem find_dot {dot : File} (hdot : dot.filename.get 0 = 0x2E) :
    dirEntryOffsets.find? (slotFree (putDirEntry (Bytes.zero 512) 0 dot)) = some 32 := by
  obtain ⟨rest, hrest⟩ := dirEntryOffsets_eq
  have h0 : (putDirEntry (Bytes.zero 512) 0 dot).get 0 = 0x2E := by
    have := get_putDirEntry_name (Bytes.zero 512) (o := 0) (i := 0) dot (by decide) (by decide)
    rw [Nat.add_zero] at this
    rw [this, hdot]
  have h32 : (putDirEntry (Bytes.zero 512) 0 dot).get 32 = 0 := by
    rw [get_putDirEntry_ne _ _ (by omega), Bytes.get_zero]
  have hf : ¬ slotFree (putDirEntry (Bytes.zero 512) 0 dot) 0 = true := by
    simp [slotFree, h0]
  have ht : slotFree (putDirEntry (Bytes.zero 512) 0 dot) 32 = true := by
    simp [slotFree, h32]
  rw [hrest, List.find?_cons_of_neg hf, List.find?_cons_of_pos ht]

theorem hasFreeSlot_of_find {b : Sector} {off : Nat}
    (h : dirEntryOffsets.find? (slotFree b) = some off) : HasFreeSlot b :=
  ⟨off, List.mem_of_find?_eq_some h, List.find?_some h⟩

/-- One entry in a directory that consists of the cluster `c`. -/
theorem createDirEntry_single {s : Fs} {i : Fin 100} {c off : Nat} {r : FileRef}
    (hK : FileChain s.sdb (firstClus s i) [c])
    (hoff : dirEntryOffsets.find? (slotFree (s.sdb (c + 31))) = some off) :
    createDirEntry s (.slot i) r =
      .ok (true, { s with
        sdb := Function.update s.sdb (c + 31)
          (putDirEntry (s.sdb (c + 31)) off (s.file r)) }) := by
  have hon : DirOn s (.slot i) [c + 31] := ⟨[c], hK, rfl⟩
  obtain ⟨x, off', hx, hoff', he⟩ := createDirEntry_ok hon r
    ⟨c + 31, List.mem_singleton_self _, hasFreeSlot_of_find hoff⟩
  rw [List.mem_singleton.mp hx] at hoff' he
  rw [hoff] at hoff'
  rw [he, Option.some.inj hoff']

/-- The state after one of the two entries: `j` is the new node, a copy of `src`. -/
def dotState (s : Fs) (i j : Fin 100) (c off dots : Nat) (src : FileRef) : Fs :=
  { s.setFile (.slot j) (dotFile (s.filelist j) (.slot i) dots (s.file src)) with
    sdb := Function.update s.sdb (c + 31) (putDirEntry (s.sdb (c + 31)) off
      (dotFile (s.filelist j) (.slot i) dots (s.file src))) }

section Dots

variable {s : Fs} {i j : Fin 100} {c off dots : Nat} {src : FileRef}

theorem dotState_ne {q : FileRef} (hq : q ≠ .slot j) :
    (dotState s i j c off dots src).file q = s.file q := by
  rw [dotState, Fs.file_setSdb, Fs.file_setFile_ne _ _ hq]

theorem dotState_filelist_ne {k : Fin 100} (hk : k ≠ j) :
    (dotState s i j c off dots src).filelist k = s.filelist k := by
  have hfile : (dotState s i j c off dots src).file (.slot k) = s.file (.slot k) :=
    dotState_ne (by simpa using hk)
  rwa [Fs.file_slot, Fs.file_slot] at hfile

theorem dotState_self : (dotState s i j c off dots src).filelist j =
    dotFile (s.filelist j) (.slot i) dots (s.file src) := by
  simp [dotState]

theorem ne_of_used {k : Fin 100} (hj : (s.filelist j).used = false)
    (hk : (s.filelist k).used = true) : k ≠ j := by
  rintro rfl
  rw [hj] at hk
  cases hk

variable (src) in
/-- One of the two entries of a new directory. -/
theorem dotState_ok (dots : Nat) (hK : FileChain s.sdb (firstClus s i) [c])
    (hoff : dirEntryOffsets.find? (slotFree (s.sdb (c + 31))) = some off)
    (hused : (s.filelist i).used = true) (hsrc : ∀ k, src = .slot k → (s.filelist k).used = true)
    (hslots : 0 < (freeSlots s).card) :
    ∃ j s1, (s.filelist j).used = false ∧ getEmptyFile s = (some (.slot j), s1) ∧
      createDirEntry (initFile s1 (.slot j) (.slot i) (dotName dots) (s1.file src).attr
        (s1.file src).wrtTime (s1.file src).wrtDate (s1.file src).fstClus (s1.file src).fileSize)
        (.slot i) (.slot j) = .ok (true, dotState s i j c off dots src) := by
  obtain ⟨j, hj, hget⟩ := getEmptyFile_ok hslots
  refine ⟨j, _, hj, hget, ?_⟩
  have hsj : src ≠ .slot j := fun he => ne_of_used hj (hsrc j he) rfl
  have hij : FileRef.slot i ≠ .slot j := by simpa using ne_of_used hj hused
  rw [Fs.file_setFile_ne _ _ hsj, initFile_getEmpty]
  have hclus : firstClus (s.setFile (.slot j) (dotFile (s.filelist j) (.slot i) dots
      (s.file src))) i = firstClus s i := by
    have := Fs.file_setFile_ne s (dotFile (s.filelist j) (.slot i) dots (s.file src)) hij
    rw [Fs.file_slot, Fs.file_slot] at this
    rw [firstClus, this, firstClus]
  have he := createDirEntry_single (s := s.setFile (.slot j) (dotFile (s.filelist j) (.slot i) dots
    (s.file src))) (i := i) (r := .slot j) (by rw [hclus, Fs.sdb_setFile]; exact hK)
    (by rw [Fs.sdb_setFile]; exact hoff)
  rw [Fs.sdb_setFile, Fs.file_setFile_self] at he
  exact he

end Dots

/-- What `write_empty_directory` leaves, for the directory `i` on cluster `c`. -/
structure DotsWritten (s s' : Fs) (fa : FileRef) (i j₁ j₂ : Fin 100) (c : Nat) : Prop where
  unused₁ : (s.filelist j₁).used = false
  unused₂ : (s.filelist j₂).used = false
  ne : j₁ ≠ j₂
  rest : s' = { s with sdb := s'.sdb, rootfile := s'.rootfile, filelist := s'.filelist }
  sdb : s'.sdb = Function.update s.sdb (c + 31)
    (dotSector (dotFile (s.filelist j₁) (.slot i) 1 (s.filelist i))
      (dotFile (s.filelist j₂) (.slot i) 2 (s.file fa)))
  dir : s'.filelist i = { s.filelist i with fstSon := some (.slot j₁) }
  dot : s'.filelist j₁ = { dotFile (s.filelist j₁) (.slot i) 1 (s.filelist i) with
    nextSib := some (.slot j₂) }
  dotdot : s'.filelist j₂ = dotFile (s.filelist j₂) (.slot i) 2 (s.file fa)
  other : ∀ q, q ≠ .slot i → q ≠ .slot j₁ → q ≠ .slot j₂ → s'.file q = s.file q

/-- **`write_empty_directory` succeeds** on a zeroed cluster with two free slots. -/
theorem writeEmptyDirectory_ok {s : Fs} {fa : FileRef} {i : Fin 100} {c : Nat}
    (hK : FileChain s.sdb (firstClus s i) [c]) (hzero : s.sdb (c + 31) = Bytes.zero 512)
    (hused : (s.filelist i).used = true) (hfa : ∀ j, fa = .slot j → (s.filelist j).used = true)
    (hslots : 2 ≤ (freeSlots s).card) :
    ∃ s' j₁ j₂, writeEmptyDirectory s fa (.slot i) = .ok (true, s') ∧
      DotsWritten s s' fa i j₁ j₂ c := by
  -- `.`
  obtain ⟨j₁, s1, hj₁, hget₁, he₁⟩ := dotState_ok (.slot i) 1 hK
    (by rw [hzero]; exact find_zero) hused (by rintro k ⟨⟩; exact hused) (by omega)
  have hi₁ : i ≠ j₁ := ne_of_used hj₁ hused
  generalize hs2 : dotState s i j₁ c 0 1 (.slot i) = s2 at he₁
  have hother₁ : ∀ k, k ≠ j₁ → s2.filelist k = s.filelist k := fun k hk => by
    rw [← hs2, dotState_filelist_ne hk]
  have hsdb₁ : s2.sdb = Function.update s.sdb (c + 31) (putDirEntry (Bytes.zero 512) 0
      (dotFile (s.filelist j₁) (.slot i) 1 (s.filelist i))) := by
    rw [← hs2, dotState, hzero]
    rfl
  have hself₁ : s2.filelist j₁ = dotFile (s.filelist j₁) (.slot i) 1 (s.filelist i) := by
    rw [← hs2, dotState_self, Fs.file_slot]
  have hsec : 19 ≤ c + 31 := by omega
  have hK₂ : FileChain s2.sdb (firstClus s2 i) [c] := by
    rw [firstClus, hother₁ i hi₁]
    refine hK.congr fun k hk => ?_
    rw [hsdb₁, getFat_update _ _ hsec (hK.lt_fatEntries hk)]
  have hcard : (freeSlots s).card ≤ (freeSlots s2).card + 1 :=
    card_freeSlots_le (i := j₁) fun k hk hu => by rw [hother₁ k hk]; exact hu
  -- `..`
  have hfa₁ : fa ≠ .slot j₁ := fun he => ne_of_used hj₁ (hfa j₁ he) rfl
  obtain ⟨j₂, s3, hj₂', hget₂, he₂⟩ := dotState_ok fa 2 hK₂
    (by rw [hsdb₁, Function.update_self]; exact find_dot (by rfl))
    (by rw [hother₁ i hi₁]; exact hused)
    (by
      rintro k rfl
      rw [hother₁ k (by simpa using hfa₁)]
      exact hfa k rfl) (by omega)
  have h₂₁ : j₂ ≠ j₁ := by
    rintro rfl
    rw [hself₁] at hj₂'
    cases hj₂'
  have hj₂ : (s.filelist j₂).used = false := by rwa [hother₁ j₂ h₂₁] at hj₂'
  have hi₂ : i ≠ j₂ := ne_of_used hj₂ hused
  have hfaf : s2.file fa = s.file fa := by rw [← hs2, dotState_ne hfa₁]
  have hpath := writeEmptyDirectory_path hget₁ he₁ hget₂ he₂
  generalize hs4 : dotState s2 i j₂ c 32 2 fa = s4 at hpath he₂
  have hother₂ : ∀ k, k ≠ j₂ → s4.filelist k = s2.filelist k := fun k hk => by
    rw [← hs4, dotState_filelist_ne hk]
  have hself₂ : s4.filelist j₂ = dotFile (s.filelist j₂) (.slot i) 2 (s.file fa) := by
    rw [← hs4, dotState_self, hother₁ j₂ h₂₁, hfaf]
  have hsdb₂ : s4.sdb = Function.update s.sdb (c + 31)
      (dotSector (dotFile (s.filelist j₁) (.slot i) 1 (s.filelist i))
        (dotFile (s.filelist j₂) (.slot i) 2 (s.file fa))) := by
    rw [← hs4, dotState, hother₁ j₂ h₂₁, hfaf, hsdb₁, Function.update_self, Function.update_idem]
    rfl
  have hrest : s4 = { s with sdb := s4.sdb, rootfile := s4.rootfile, filelist := s4.filelist } := by
    rw [← hs4, ← hs2]
    rfl
  refine ⟨_, j₁, j₂, hpath, hj₁, hj₂, h₂₁.symm, ?_, ?_, ?_, ?_, ?_, ?_⟩
  · rw [hrest]
    rfl
  · exact hsdb₂
  · simp only [Fs.filelist_setFile_slot, Function.update_of_ne hi₁, Function.update_self,
      Fs.file_slot, hother₂ i hi₂, hother₁ i hi₁]
  · simp only [Fs.filelist_setFile_slot, Function.update_of_ne hi₁.symm, Function.update_self,
      Fs.file_slot, hother₂ j₁ h₂₁.symm, hself₁]
  · simp only [Fs.filelist_setFile_slot, Function.update_of_ne hi₂.symm,
      Function.update_of_ne h₂₁, hself₂]
  · intro q hqi hq₁ hq₂
    rw [Fs.file_setFile_ne _ _ hq₁, Fs.file_setFile_ne _ _ hqi, ← hs4, dotState_ne hq₂, ← hs2,
      dotState_ne hq₁]

/-- **`create_empty_file` succeeds** in a directory with a free slot. -/
theorem createEmptyFile_ok (h : Mounted s f chain) (hdir : LiveRef s f dir)
    (hname : NameUnused s f dir filename) (attr : UInt8) (hfree : ∃ c, IsFree s.sdb c)
    (hslot : 0 < (freeSlots s).card)
    (hroom : ∃ x ∈ dirSectors chain dir, HasFreeSlot (s.sdb x)) :
    ∃ s' i c x off, createEmptyFile s dir filename attr wrtTime wrtDate = .ok (true, s') ∧
      Created s s' chain dir i (initedFile (s.filelist i) dir filename attr wrtTime wrtDate
        (UInt16.ofNat c) 0) .nil c x off (Bytes.zero 512) := by
  obtain ⟨c, i, hc, hi, hclus, s2, hget, hinit⟩ := create_prefix h hfree hslot
  have hnode := hinit filename attr wrtTime wrtDate
  generalize hn : initedFile (s.filelist i) dir filename attr wrtTime wrtDate (UInt16.ofNat c) 0 =
    node at hnode
  obtain ⟨x, off, hx, hoff, hentry⟩ := create_entry h hdir node hc hi hroom
  rw [← hnode] at hentry
  have hx19 := (dirSectors_range h hdir hx).1
  have hxc := dirSectors_ne_free h hdir hx hc
  have hdi : dir ≠ .slot i := h.tree.ne_of_unused hdir.hasRef hi
  have hpath := createEmptyFile_path (isFileExist_none h.tree hdir.hasRef hname) hclus hget hentry
    (writeFat_ok _ 0xFFF (lt_trans hc.lt (by decide)))
  rw [hnode] at hpath
  have hsdb : (linkFirst (markedState s c i node x off) dir (.slot i)).sdb =
      (markedState s c i node x off).sdb := by rw [linkFirst_rest]
  refine ⟨linkFirst (markedState s c i node x off) dir (.slot i), i, c, x, off, hpath, ?_⟩
  rw [hn]
  refine ⟨hi, hc, hx, hoff, ?_, ?_, ?_, ?_, ?_, ?_, ?_, ?_, ?_, List.nodup_nil,
    fun j hj => absurd hj List.not_mem_nil, fun j hj => absurd hj List.not_mem_nil, ?_⟩
  · rw [linkFirst_rest]
    rfl
  · rw [hsdb]
    exact markedState_touches hc hx19
  · rw [hsdb, markedState_fat hc]
  · rw [hsdb, markedState_entry hc hx19]
  · rw [hsdb, markedState_cluster hc hxc]
  · rw [linkFirst_dir hdi, markedState_ne hdi]
  · rw [linkFirst_node hdi, markedState_self]
    exact ⟨node.fstSon, _, rfl⟩
  · rw [linkFirst_node hdi, markedState_ne hdi]
  · rw [linkFirst_node hdi, markedState_self, ← hn]
    rfl
  · intro q hd hqi _
    rw [linkFirst_ne hd hqi, markedState_ne hqi]

/-- **`create_empty_directory` succeeds** in a directory with a free slot. -/
theorem createEmptyDirectory_ok (h : Mounted s f chain) (hdir : LiveRef s f dir)
    (hname : NameUnused s f dir filename) (hfree : ∃ c, IsFree s.sdb c)
    (hslot : 3 ≤ (freeSlots s).card)
    (hroom : ∃ x ∈ dirSectors chain dir, HasFreeSlot (s.sdb x)) :
    ∃ s' i j₁ j₂ c x off node dot dotdot,
      createEmptyDirectory s dir filename wrtTime wrtDate = .ok (true, s') ∧
      node = initedFile (s.filelist i) dir filename 0x10 wrtTime wrtDate (UInt16.ofNat c) 0 ∧
      dot = dotFile (s.filelist j₁) (.slot i) 1 node ∧
      dotdot = dotFile (s.filelist j₂) (.slot i) 2 (s.file dir) ∧
      Relink dot (s'.filelist j₁) ∧ Relink dotdot (s'.filelist j₂) ∧
      Created s s' chain dir i node (.cons j₁ .nil (.cons j₂ .nil .nil)) c x off
        (dotSector dot dotdot) := by
  obtain ⟨c, i, hc, hi, hclus, s2, hget, hinit⟩ := create_prefix h hfree (by omega)
  have hnode := hinit filename 0x10 wrtTime wrtDate
  generalize hn : initedFile (s.filelist i) dir filename 0x10 wrtTime wrtDate (UInt16.ofNat c) 0 =
    node at hnode
  obtain ⟨x, off, hx, hoff, hentry⟩ := create_entry h hdir node hc hi hroom
  rw [← hnode] at hentry
  have hx19 := (dirSectors_range h hdir hx).1
  have hxc := dirSectors_ne_free h hdir hx hc
  have hdi : dir ≠ .slot i := h.tree.ne_of_unused hdir.hasRef hi
  -- the new directory, on its zeroed cluster
  generalize hs5 : markedState s c i node x off = s5
  have hself : s5.filelist i = node := by rw [← hs5, markedState_self]
  have hne : ∀ q, q ≠ .slot i → s5.file q = s.file q := fun q hq => by rw [← hs5, markedState_ne hq]
  have hne' : ∀ k, k ≠ i → s5.filelist k = s.filelist k := fun k hk => by
    have := hne (.slot k) (by simpa using hk)
    rwa [Fs.file_slot, Fs.file_slot] at this
  have hfst : firstClus s5 i = c := by
    have hle := hc.2.1
    rw [firstClus, hself, ← hn]
    show (UInt16.ofNat c).toNat = c
    rw [UInt16.toNat_ofNat']
    omega
  have hK : FileChain s5.sdb (firstClus s5 i) [c] := by
    have hle := hc.2.1
    have hfat : getFatNextCluster s5.sdb c = 0xFFF := by rw [← hs5, markedState_fat hc]
    rw [hfst]
    refine ⟨⟨rfl, ?_, ?_⟩, List.cons_ne_nil _ _, fun k hk => ?_⟩
    · unfold IsEnd
      omega
    · show IsEnd (getFatNextCluster s5.sdb c)
      rw [hfat]
      decide
    · rw [List.mem_singleton.mp hk]
      exact ⟨hc.1, hc.2.1⟩
  have hcard : (freeSlots s).card ≤ (freeSlots s5).card + 1 :=
    card_freeSlots_le (i := i) fun k hk hu => by rw [hne' k hk]; exact hu
  have hdused : ∀ k, dir = .slot k → (s5.filelist k).used = true := by
    rintro k rfl
    rw [hne' k (by simpa using hdi)]
    exact h.tree.linked.used k hdir.1
  obtain ⟨s6, j₁, j₂, hdots, hw⟩ := writeEmptyDirectory_ok hK
    (by rw [← hs5, markedState_cluster hc hxc]) (by rw [hself, ← hn]; rfl) hdused (by omega)
  have hpath := createEmptyDirectory_path (isFileExist_none h.tree hdir.hasRef hname) hclus hget
    hentry (writeFat_ok _ 0xFFF (lt_trans hc.lt (by decide))) (by
      rw [hnode]
      exact hs5 ▸ hdots)
  have hiu : (s5.filelist i).used = true := by
    rw [hself, ← hn]
    rfl
  have hi₁ : i ≠ j₁ := ne_of_used hw.unused₁ hiu
  have hi₂ : i ≠ j₂ := ne_of_used hw.unused₂ hiu
  have hd₁ : dir ≠ .slot j₁ := fun he => ne_of_used hw.unused₁ (hdused j₁ he) rfl
  have hd₂ : dir ≠ .slot j₂ := fun he => ne_of_used hw.unused₂ (hdused j₂ he) rfl
  obtain ⟨hu₁, hu₂, h₁₂, hrest, hsdb, hdirn, hdot, hdotdot, hother⟩ := hw
  rw [hne' j₁ hi₁.symm] at hu₁ hsdb hdot
  rw [hne' j₂ hi₂.symm] at hu₂ hsdb hdotdot
  rw [hself] at hsdb hdot hdirn
  rw [hne dir hdi] at hsdb hdotdot
  have hdir6 : s6.file dir = s.file dir := by rw [hother dir hdi hd₁ hd₂, hne dir hdi]
  have hsdb' : (linkFirst s6 dir (.slot i)).sdb = s6.sdb := by rw [linkFirst_rest]
  have hkid : ∀ k, k ≠ i → dir ≠ .slot k →
      (linkFirst s6 dir (.slot i)).filelist k = s6.filelist k := fun k hk hd => by
    have := linkFirst_ne (s := s6) (i := i) (q := .slot k) hd.symm (by simpa using hk)
    rwa [Fs.file_slot, Fs.file_slot] at this
  refine ⟨linkFirst s6 dir (.slot i), i, j₁, j₂, c, x, off, node, _, _, hpath, hn.symm, rfl, rfl,
    ?_, ?_, ?_⟩
  · rw [hkid j₁ hi₁.symm hd₁, hdot]
    exact ⟨_, _, rfl⟩
  · rw [hkid j₂ hi₂.symm hd₂, hdotdot]
    exact Relink.refl _
  refine ⟨hi, hc, hx, hoff, ?_, ?_, ?_, ?_, ?_, ?_, ?_, ?_, ?_, ?_, ?_, ?_, ?_⟩
  · rw [linkFirst_rest, hrest, ← hs5]
    rfl
  · rw [hsdb', hsdb, ← hs5]
    exact (markedState_touches hc hx19).trans (Touches.update _ _ (by omega) (by simp))
  · rw [hsdb', hsdb, getFat_update _ _ (by omega) hc.lt, ← hs5, markedState_fat hc]
  · rw [hsdb', hsdb, Function.update_of_ne hxc, ← hs5, markedState_entry hc hx19]
  · rw [hsdb', hsdb, Function.update_self]
  · rw [linkFirst_dir hdi, hdir6]
  · rw [linkFirst_node hdi, hdirn]
    exact ⟨_, _, rfl⟩
  · rw [linkFirst_node hdi, hdir6]
  · rw [linkFirst_node hdi, hdirn]
    refine ⟨rfl, ?_⟩
    rw [hkid j₁ hi₁.symm hd₁, hdot]
    refine ⟨rfl, rfl, rfl, rfl, ?_⟩
    rw [hkid j₂ hi₂.symm hd₂, hdotdot]
    exact ⟨rfl, rfl, rfl, rfl⟩
  · simpa [Forest.labels] using h₁₂
  · intro j hj
    simp only [Forest.labels, List.nil_append, List.mem_cons, List.not_mem_nil, or_false] at hj
    rcases hj with rfl | rfl
    · exact ⟨hu₁, hi₁.symm⟩
    · exact ⟨hu₂, hi₂.symm⟩
  · intro j hj
    simp only [Forest.labels, List.nil_append, List.mem_cons, List.not_mem_nil, or_false] at hj
    rcases hj with rfl | rfl
    · rw [hkid j hi₁.symm hd₁, hdot]
      exact .inl rfl
    · rw [hkid j hi₂.symm hd₂, hdotdot]
      exact .inr rfl
  · intro q hd hqi hq
    rw [linkFirst_ne hd hqi, hother q hqi (hq j₁ (by simp [Forest.labels]))
      (hq j₂ (by simp [Forest.labels])), hne q hqi]

end Functions

end GwOS
