import GwOS.Filesystem.Integrity
import GwOS.Filesystem.OpenFiles

/-!
# What `delete_directory` removes

With `rc`, everything below the directory goes: the chains of all its descendants are released
and their sectors cleared, and nothing else on the disk changes. The recursion only goes into
directories, so this takes a volume on which nothing else has sons; `touch` can make others. Without
`rc` the directory should stay when it is not empty, but `is_dir_empty` returns `false` from both of
its exits, and `delete_directory` takes this for "nothing stands in the way".

- `deleteDirectory_clears`: the clusters of a regular subtree are freed, and no others.
- `deleteDirectory_leaves`: what is below a plain file stays.
- `rmdir_protects_iff`: `rmdir` does the right thing exactly for directories that are empty.
-/

namespace GwOS

/-! ## Without `rc` -/

/-- The directory has no son apart from `.` and `..`. -/
def OnlyDots (s : Fs) (f : Forest (Fin 100)) (dir : Fin 100) : Prop :=
  ∀ x ∈ (f.kidsAt dir).tops, IsDot (s.filelist x)

/-- `delete_directory` without `rc` succeeds for empty directories, and for others it fails and
only prints. -/
def Protects (s : Fs) (f : Forest (Fin 100)) (fa : FileRef) (dir : Fin 100) : Prop :=
  ((∃ s', deleteDirectory sibFuel s fa (.slot dir) false = .ok (true, s')) ↔ OnlyDots s f dir) ∧
    (¬ OnlyDots s f dir →
      ∃ msg, deleteDirectory sibFuel s fa (.slot dir) false = .ok (false, s.printf msg))

section Rmdir

variable {s : Fs} {f : Forest (Fin 100)} {fa : FileRef} {dir : Fin 100} {K : List Nat}

/-- The call succeeds, whatever is in the directory. -/
theorem rmdir_succeeds (h : MemTree s f) (hr : HasRef f fa) (hd : dir ∈ (childrenOf f fa).tops)
    (hK : FileChain s.sdb (firstClus s dir) K) :
    ∃ s', deleteDirectory sibFuel s fa (.slot dir) false = .ok (true, s') := by
  have hn := h.children_nodup fa
  have hself := relink_below (s := s) hn (h.child_ne hr) hd (List.mem_cons_self ..)
  have hsame : deleteDirectory sibFuel s fa (.slot dir) false = deleteFile s fa (.slot dir) :=
    deleteDirectory_false h (childrenOf_subset (Forest.tops_subset_labels hd)) 100 fa
  have hdel := deleteFileFromFa_ok (h.children hr) hn (h.tops_lt fa) (h.child_ne hr) hd
  generalize hs1 : relink s fa (predTop (childrenOf f fa) dir none) (s.filelist dir).nextSib = s1
    at hself hdel
  -- the chain is still that of the directory
  have hK1 : FileChain s1.sdb (firstClus s1 dir) K := by
    rw [firstClus, hself, ← hs1, relink_rest]
    exact hK
  obtain ⟨d', hclear, -⟩ := clearFile_ok hK1
  refine ⟨markUnused { s1 with sdb := d' } (.slot dir), hsame.trans ?_⟩
  rw [deleteFile, hdel]
  show (clearFile s1 (.slot dir) >>= _) = _
  rw [hclear]
  rfl

/-- **Which directories `rmdir` protects.** -/
theorem rmdir_protects_iff (h : MemTree s f) (hr : HasRef f fa)
    (hd : dir ∈ (childrenOf f fa).tops) (hK : ∃ K, FileChain s.sdb (firstClus s dir) K) :
    Protects s f fa dir ↔ OnlyDots s f dir := by
  obtain ⟨K, hK⟩ := hK
  have hsucc := rmdir_succeeds h hr hd hK
  constructor
  · rintro ⟨hiff, -⟩
    exact hiff.mp hsucc
  · intro hempty
    exact ⟨⟨fun _ => hempty, fun _ => hsucc⟩, fun hfull => absurd hempty hfull⟩

end Rmdir

/-! ## With `rc` -/

/-- Below a directory of a volume, a name has a leading dot only if it is `.` or `..`, and only
directories with a name have sons. -/
def Regular (s : Fs) : Forest (Fin 100) → Prop
  | .nil => True
  | .cons x kids sibs =>
    (IsDot (s.filelist x) ∨ Named (s.filelist x)) ∧
      (kids = .nil ∨ (Named (s.filelist x) ∧ (s.filelist x).attr = 0x10)) ∧
      Regular s kids ∧ Regular s sibs

theorem Regular.swept {s : Fs} {F : Forest (Fin 100)} (h : Regular s F) : Swept s F := by
  induction F with
  | nil => trivial
  | cons x kids sibs ihk ihs =>
    obtain ⟨-, hkids, hk, hs⟩ := h
    refine ⟨?_, ihs hs⟩
    rcases hkids with rfl | ⟨hn, ha⟩
    · exact .inr fun y hy => absurd hy List.not_mem_nil
    · exact .inl ⟨hn, ha, ihk hk⟩

theorem Regular.named {s : Fs} {F : Forest (Fin 100)} (h : Regular s F) {x : Fin 100}
    (hx : x ∈ F.labels) : IsDot (s.filelist x) ∨ Named (s.filelist x) := by
  induction F with
  | nil => exact absurd hx List.not_mem_nil
  | cons y kids sibs ihk ihs =>
    obtain ⟨hy, -, hk, hs⟩ := h
    rcases List.mem_cons.mp hx with rfl | hx
    · exact hy
    · rcases List.mem_append.mp hx with hx | hx
      · exact ihk hk hx
      · exact ihs hs hx

/-- The clusters of a node and its descendants. -/
def subtreeClusters (s : Fs) (f : Forest (Fin 100)) (chain : Fin 100 → List Nat) (i : Fin 100) :
    Set Nat := clustersOf (Live s f) chain (i :: (f.kidsAt i).labels)

/-- The subtree of `dir` has been removed from the sons of `fa`, and its clusters are free. -/
structure SubtreeFreed (s s' : Fs) (f : Forest (Fin 100)) (chain : Fin 100 → List Nat)
    (fa : FileRef) (dir : Fin 100) : Prop where
  cleared : Cleared s'.sdb (subtreeClusters s f chain dir)
  touches : Touches s.sdb s'.sdb (subtreeClusters s f chain dir)
    (clusterSectors (subtreeClusters s f chain dir))
  tree : MemTree s' (replaceChildren f fa ((childrenOf f fa).removeTop dir))
  sons : Linked s'.filelist fa (s'.file fa).fstSon ((childrenOf f fa).removeTop dir) ∧
    ((childrenOf f fa).removeTop dir).tops = (childrenOf f fa).tops.erase dir

section Recursive

variable {s : Fs} {f : Forest (Fin 100)} {chain : Fin 100 → List Nat} {fa : FileRef}
  {dir : Fin 100}

/-- In a regular subtree the recursion comes to all that have a chain. -/
theorem Regular.doomed (hreg : Regular s (f.kidsAt dir)) (hdir : Live s f dir) :
    doomed s chain dir (f.kidsAt dir).labels = subtreeClusters s f chain dir := by
  ext c
  constructor
  · rintro ⟨x, hx, hnx, hc⟩
    refine ⟨x, hx, ?_, hc⟩
    rcases hnx with rfl | hnx
    · exact hdir
    · refine ⟨?_, hnx.not_isDot⟩
      rcases List.mem_cons.mp hx with rfl | hx
      · exact hdir.1
      · exact Forest.kidsAt_labels_subset hx
  · rintro ⟨x, hx, hlive, hc⟩
    refine ⟨x, hx, ?_, hc⟩
    rcases List.mem_cons.mp hx with rfl | hx
    · exact .inl rfl
    · exact .inr ((hreg.named hx).resolve_left hlive.2)

/-- **`delete_directory` with `rc`** frees the clusters of the subtree, and no others. -/
theorem deleteDirectory_clears (h : Mounted s f chain) (hr : HasRef f fa)
    (hd : dir ∈ (childrenOf f fa).tops) (hdot : ¬ IsDot (s.filelist dir))
    (hreg : Regular s (f.kidsAt dir)) :
    ∃ s', deleteDirectory sibFuel s fa (.slot dir) true = .ok (true, s') ∧
      SubtreeFreed s s' f chain fa dir := by
  have hlab := Forest.tops_subset_labels hd
  have hlive : Live s f dir := ⟨childrenOf_subset hlab, hdot⟩
  have hkids := h.tree.kidsAt_child hlab
  obtain ⟨ok, s', hrun, hrem, hcleared⟩ := deleteDirectory_removed h hr hlive true
  cases hrem with
  | absent msg hd' => exact absurd hd hd'
  | gone hd' hg =>
    have htouches := hg.touches
    rw [hkids, hreg.doomed hlive] at htouches
    rw [hkids, hreg.doomed hlive] at hcleared
    refine ⟨s', hrun, hcleared hreg.swept rfl, htouches, hg.unlinked.memTree h.tree hr hd, ?_, ?_⟩
    · exact hg.unlinked.linked (h.tree.children hr) (h.tree.children_nodup fa) (h.tree.child_ne hr) hd
    · exact Forest.tops_removeTop dir _

end Recursive

/-! ## A directory with a file -/

/-- A directory `D` with its `.` and `..` and a file `E`. -/
def dirTreeNodes (i : Fin 100) : File :=
  if i = 0 then
    { blankFile with
      used := true, filename := Bytes.ofFn fun _ => 0x44, attr := 0x10, fstClus := 2,
      fa := some .rootfile, fstSon := some (.slot 1) }
  else if i = 1 then
    { blankFile with
      used := true, filename := dotName 1, attr := 0x10, fstClus := 2, fa := some (.slot 0),
      nextSib := some (.slot 2) }
  else if i = 2 then
    { blankFile with
      used := true, filename := dotName 2, attr := 0x10, fstClus := 0, fa := some (.slot 0),
      nextSib := some (.slot 3) }
  else if i = 3 then
    { blankFile with
      used := true, filename := sampleName, attr := 0x20, fstClus := 3, fa := some (.slot 0) }
  else blankFile

/-- A FAT sector with end marks for the clusters 2 and 3. -/
def twoEnds : Sector := Bytes.ofFn fun i => if i = 0 then 0xF0 else if i < 6 then 0xFF else 0

def dirTreeFs : Fs :=
  bootedFs (smallVolume twoEnds (putDirEntry (Bytes.zero 512) 0 (dirTreeNodes 0))
    (putDirEntry (putDirEntry (putDirEntry (Bytes.zero 512) 0 (dirTreeNodes 1)) 32 (dirTreeNodes 2))
      64 (dirTreeNodes 3))) (some (.slot 0)) dirTreeNodes

def dirTree : Forest (Fin 100) := .cons 0 (.cons 1 .nil (.cons 2 .nil (.cons 3 .nil .nil))) .nil

def dirTreeChain (i : Fin 100) : List Nat := if i = 0 then [2] else [3]

/-- A volume on which every file and every directory has a single cluster. -/
theorem mounted_singles {s : Fs} {f : Forest (Fin 100)} {chain : Fin 100 → List Nat}
    (hlinked : Linked s.filelist .rootfile s.rootfile.fstSon f) (hnodup : f.labels.Nodup)
    (h0 : getFatNextCluster s.sdb 0 ≠ 0) (h1 : getFatNextCluster s.sdb 1 ≠ 0)
    (hends : ∀ i ∈ f.labels, IsDot (s.filelist i) ∨ (chain i = [firstClus s i] ∧
      2 ≤ firstClus s i ∧ firstClus s i ≤ 2848 ∧ IsEnd (getFatNextCluster s.sdb (firstClus s i))))
    (hdiff : ∀ i ∈ f.labels, ∀ j ∈ f.labels, IsDot (s.filelist i) ∨ IsDot (s.filelist j) ∨ i = j ∨
      firstClus s i ≠ firstClus s j) : Mounted s f chain := by
  have hlive : ∀ i, Live s f i → chain i = [firstClus s i] ∧
      2 ≤ firstClus s i ∧ firstClus s i ≤ 2848 ∧ IsEnd (getFatNextCluster s.sdb (firstClus s i)) :=
    fun i hi => (hends i hi.1).resolve_left hi.2
  refine ⟨⟨hlinked, hnodup⟩, h0, h1, fun i hi => ?_, fun i j hi hj hij => ?_⟩
  · obtain ⟨hchain, h2, hmax, hend⟩ := hlive i hi
    have hnotEnd : ¬ IsEnd (firstClus s i) := by
      unfold IsEnd
      omega
    rw [hchain]
    exact ⟨⟨rfl, hnotEnd, hend⟩, List.cons_ne_nil _ _, fun k hk => List.mem_singleton.mp hk ▸ ⟨h2, hmax⟩⟩
  · rw [(hlive i hi).1, (hlive j hj).1]
    refine List.disjoint_singleton.mpr ?_
    rw [List.mem_singleton]
    rcases hdiff i hi.1 j hj.1 with hdot | hdot | heq | hne
    · exact absurd hdot hi.2
    · exact absurd hdot hj.2
    · exact absurd heq hij
    · exact hne.symm

theorem dirTreeFs_mounted : Mounted dirTreeFs dirTree dirTreeChain :=
  mounted_singles (by decide +kernel) (by decide) (by decide) (by decide) (by decide +kernel)
    (by decide +kernel)

theorem rootfile_hasRef {f : Forest (Fin 100)} : HasRef f .rootfile := trivial

/-- `rm -r D`. -/
theorem deleteDirectory_clears_sample :
    ∃ s', deleteDirectory sibFuel dirTreeFs .rootfile (.slot 0) true = .ok (true, s') ∧
      SubtreeFreed dirTreeFs s' dirTree dirTreeChain .rootfile 0 := by
  have hnamed : (dirTreeFs.filelist 3).filename.get 0 ≠ 0x2E := by decide
  have hreg : Regular dirTreeFs (dirTree.kidsAt 0) :=
    ⟨.inl (.inl rfl), .inl rfl, trivial, .inl (.inr rfl), .inl rfl, trivial, .inr hnamed, .inl rfl,
      trivial, trivial⟩
  exact deleteDirectory_clears dirTreeFs_mounted rootfile_hasRef (by decide) (by decide) hreg

/-- The directory `D` with `.`, `..` and the file `A`, which has the file `B` below it. -/
def fileBelowFile : Forest (Fin 100) :=
  .cons 0 (.cons 3 (.cons 4 .nil .nil) (.cons 1 .nil (.cons 2 .nil .nil))) .nil

def fileBelowChain (i : Fin 100) : List Nat := if i = 0 then [2] else if i = 3 then [3] else [4]

/-- `mkdir D`, `touch D/A` and `touch D/A/B`: the volume is well formed, and `rm -r D` leaves the
cluster of `B` in use. -/
theorem deleteDirectory_leaves :
    ∃ sh, bootedShell.run [.mkdir [0x44], .touch [0x44, slash, 0x41],
        .touch [0x44, slash, 0x41, slash, 0x42]] = .ok sh ∧
      Mounted sh.fs fileBelowFile fileBelowChain ∧ Live sh.fs fileBelowFile 0 ∧
      0 ∈ (childrenOf fileBelowFile .rootfile).tops ∧
      ∃ s', deleteDirectory sibFuel sh.fs .rootfile (.slot 0) true = .ok (true, s') ∧
        getFatNextCluster s'.sdb 4 = 0xFFF ∧
        ¬ SubtreeFreed sh.fs s' fileBelowFile fileBelowChain .rootfile 0 := by
  have hcheck : returnsWith (bootedShell.run [.mkdir [0x44], .touch [0x44, slash, 0x41],
      .touch [0x44, slash, 0x41, slash, 0x42]]) (fun sh =>
      decide (Linked sh.fs.filelist .rootfile sh.fs.rootfile.fstSon fileBelowFile) &&
      decide (getFatNextCluster sh.fs.sdb 0 ≠ 0) && decide (getFatNextCluster sh.fs.sdb 1 ≠ 0) &&
      decide (∀ i ∈ fileBelowFile.labels, IsDot (sh.fs.filelist i) ∨
        (fileBelowChain i = [firstClus sh.fs i] ∧ 2 ≤ firstClus sh.fs i ∧ firstClus sh.fs i ≤ 2848 ∧
          IsEnd (getFatNextCluster sh.fs.sdb (firstClus sh.fs i)))) &&
      decide (∀ i ∈ fileBelowFile.labels, ∀ j ∈ fileBelowFile.labels, IsDot (sh.fs.filelist i) ∨
        IsDot (sh.fs.filelist j) ∨ i = j ∨ firstClus sh.fs i ≠ firstClus sh.fs j) &&
      decide (¬ IsDot (sh.fs.filelist 0)) && decide (¬ IsDot (sh.fs.filelist 4)) &&
      returnsWith (deleteDirectory sibFuel sh.fs .rootfile (.slot 0) true) fun r =>
        r.1 && decide (getFatNextCluster r.2.sdb 4 = 0xFFF)) = true := by
    decide +kernel
  obtain ⟨sh, hsh, htests⟩ := returnsWith_iff.mp hcheck
  simp only [Bool.and_eq_true, decide_eq_true_eq] at htests
  obtain ⟨⟨⟨⟨⟨⟨⟨hlinked, h0⟩, h1⟩, hends⟩, hdiff⟩, hdot0⟩, hdot4⟩, hdelete⟩ := htests
  obtain ⟨⟨ok, s'⟩, hs', hend⟩ := returnsWith_iff.mp hdelete
  obtain ⟨rfl, hused⟩ := (Bool.and_eq_true _ _).mp hend
  have hused' := of_decide_eq_true hused
  refine ⟨sh, hsh, mounted_singles hlinked (by decide) h0 h1 hends hdiff, ⟨by decide, hdot0⟩, by decide,
    s', hs', hused', fun hfreed => ?_⟩
  have hmem : 4 ∈ subtreeClusters sh.fs fileBelowFile fileBelowChain 0 :=
    ⟨4, by decide, ⟨by decide, hdot4⟩, by decide⟩
  rw [(hfreed.cleared 4 hmem).1] at hused'
  cases hused'

/-- An empty directory is removed. -/
theorem rmdir_protects_empty : Protects fullDirFs
    (.cons 0 (.cons 1 .nil (.cons 2 .nil .nil)) .nil) .rootfile 0 :=
  (rmdir_protects_iff fullDirFs_mounted.tree rootfile_hasRef (by decide)
    ⟨[2], fullDirFs_mounted.volume.chains 0 ⟨by decide, by decide⟩⟩).mpr (by
      intro x hx
      have hx' : x ∈ [(1 : Fin 100), 2] := hx
      simp only [List.mem_cons, List.not_mem_nil, or_false] at hx'
      rcases hx' with rfl | rfl
      · exact .inl rfl
      · exact .inr rfl)

/-- `rmdir D` removes the directory with the file in it. -/
theorem rmdir_removes_full : MemTree dirTreeFs dirTree ∧
    ¬ Protects dirTreeFs dirTree .rootfile 0 := by
  refine ⟨dirTreeFs_mounted.tree, ?_⟩
  rintro ⟨hiff, -⟩
  have hK := dirTreeFs_mounted.volume.chains 0 ⟨by decide, by decide⟩
  have hempty := hiff.mp (rmdir_succeeds dirTreeFs_mounted.tree rootfile_hasRef (by decide) hK)
  rcases hempty 3 (by decide) with hdot | hdot
  · exact absurd hdot (by decide)
  · exact absurd hdot (by decide)

end GwOS
