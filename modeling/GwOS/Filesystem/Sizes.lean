import GwOS.Filesystem.Integrity

/-!
# File sizes on the disk

`write_file`, `write_file_from_sda` and `append_file` change the size of a file in memory.
The directory entry of the file is written by `create_dir_entry_in_sector` alone, when the
file is created, so the size on the disk stays what it was then.

- `Resized` is what the three operations have in common: one file gets a new size and a new
  chain, and no sector of a directory changes.
- `writtenSizes_stored`: the sizes on the disk and in memory agree all along a run of writes, of
  texts that leave `buff` with room, exactly when no write of the run changes a size.
- `writtenSize_lost`: a write of one byte to an empty file.
-/

namespace GwOS

/-! ## Entries -/

/-- A file of the tree: a live node that is no directory. -/
def IsFile (s : Fs) (f : Forest (Fin 100)) (i : Fin 100) : Prop :=
  Live s f i ∧ (s.filelist i).attr ≠ 0x10

/-- The entry of the file `i` is at offset `loc.2` of the sector `loc.1`, in the directory the
file is in. -/
structure EntryAt (s : Fs) (f : Forest (Fin 100)) (chain : Fin 100 → List Nat) (i : Fin 100)
    (loc : Nat × Nat) : Prop where
  dir : ∃ r, (s.filelist i).fa = some r ∧ LiveRef s f r ∧
    (∀ j, r = .slot j → (s.filelist j).attr = 0x10) ∧ loc.1 ∈ dirSectors chain r
  offset : loc.2 ∈ dirEntryOffsets
  filename : (entryAt (s.sdb loc.1) loc.2).filename = (s.filelist i).filename
  fstClus : (entryAt (s.sdb loc.1) loc.2).fstClus = (s.filelist i).fstClus

/-- The size that `make_file_from_sector` decodes from an entry. -/
def storedSize (s : Fs) (loc : Nat × Nat) : UInt32 :=
  (decodeFile blankFile .rootfile (s.sdb loc.1) loc.2).fileSize

/-- Every file has the same size on the disk and in memory. -/
def SizesStored (s : Fs) (f : Forest (Fin 100)) (loc : Fin 100 → Nat × Nat) : Prop :=
  ∀ i, IsFile s f i → storedSize s (loc i) = (s.filelist i).fileSize

/-! ## One write -/

namespace FsOp

/-- A write to a file, or an append of one file to another. -/
def OnFiles (s : Fs) (f : Forest (Fin 100)) : FsOp → Prop
  | writeFile file _ _ | writeFileFromSda file _ _ => IsFile s f file
  | appendFile file1 file2 => IsFile s f file1 ∧ IsFile s f file2
  | _ => False

/-- The file that gets a new size, and the size. -/
def resizes (s : Fs) : FsOp → Option (Fin 100 × UInt32)
  | writeFile file _ content => some (file, UInt32.ofNat content.length)
  | writeFileFromSda file _ filesize => some (file, filesize)
  | appendFile file1 file2 =>
    some (file2, (s.filelist file2).fileSize + (s.filelist file1).fileSize)
  | _ => none

/-- The new size is the old one. -/
def KeepsSize (s : Fs) (op : FsOp) : Prop :=
  ∀ i size, op.resizes s = some (i, size) → size = (s.filelist i).fileSize

end FsOp

/-- The file `i` has a new size and a new chain; the directories are as before. -/
structure Resized (s s' : Fs) (f : Forest (Fin 100)) (chain chain' : Fin 100 → List Nat)
    (i : Fin 100) (size : UInt32) : Prop where
  mounted : Mounted s' f chain'
  mirrored : FatMirrored s'.sdb
  closed : Closed s'
  file : s'.filelist = Function.update s.filelist i { s.filelist i with fileSize := size }
  sectors : ∀ r, LiveRef s f r → r ≠ .slot i → dirSectors chain' r = dirSectors chain r ∧
    ∀ x ∈ dirSectors chain r, s'.sdb x = s.sdb x

section Step

variable {s s' : Fs} {f : Forest (Fin 100)} {chain chain' : Fin 100 → List Nat} {i : Fin 100}
  {size : UInt32}

theorem dirSectors_update {r : FileRef} (K : List Nat) (hne : r ≠ .slot i) :
    dirSectors (Function.update chain i K) r = dirSectors chain r := by
  cases r with
  | rootfile => rfl
  | slot j =>
    have hji : j ≠ i := fun he => hne (by rw [he])
    rw [dirSectors, dirSectors, Function.update_of_ne hji]

/-- The sectors of the clusters of one file and of free clusters are in no other directory. -/
theorem Mounted.sectors_untouched (h : Mounted s f chain) (hi : Live s f i) {d' : Disk}
    {F S : Set Nat} (ht : Touches s.sdb d' F S)
    (hS : ∀ x ∈ S, ∃ c, x = c + 31 ∧ (c ∈ chain i ∨ IsFree s.sdb c)) {r : FileRef}
    (hr : LiveRef s f r) (hne : r ≠ .slot i) {x : Nat} (hx : x ∈ dirSectors chain r) :
    d' x = s.sdb x := by
  refine ht.data x (.inr (dirSectors_range h hr hx).1) fun hxS => ?_
  obtain ⟨c, rfl, hc | hc⟩ := hS x hxS
  · have hi' : LiveRef s f (.slot i) := hi
    refine dirSectors_disjoint h hr hi' hne hx ?_
    exact List.mem_map.mpr ⟨c, hc, rfl⟩
  · exact dirSectors_ne_free h hr hx hc rfl

theorem Through.resized {k : Fin 10} {K' : List Nat} {B : List Sector}
    (ht : Through s s' k i (chain i) K' B size) (h : Mounted s f chain) (hm : FatMirrored s.sdb)
    (hcl : Closed s) (hi : Live s f i) :
    Resized s s' f chain (Function.update chain i K') i size := by
  obtain ⟨⟨hmir, -⟩, hclosed⟩ := ht.keeps h hm hcl hi
  refine ⟨ht.mounted h hi, hmir, hclosed, ht.file, fun r hr hne => ⟨dirSectors_update K' hne, ?_⟩⟩
  intro x hx
  refine h.sectors_untouched hi ht.touches ?_ hr hne hx
  rintro y (⟨c, hc, rfl⟩ | ⟨c, hc, rfl⟩)
  · exact ⟨c, rfl, .inr hc⟩
  · exact ⟨c, rfl, ht.clusters c hc⟩

theorem Extended.resized {d' : Disk} {E : List Nat}
    (hx : Extended s.sdb d' (firstClus s i) (chain i) E) (h : Mounted s f chain)
    (hm : FatMirrored s.sdb) (hcl : Closed s) (hi : Live s f i) (size : UInt32) :
    Resized s (Fs.setFile { s with sdb := d' } (.slot i) { s.filelist i with fileSize := size }) f
      chain (Function.update chain i (chain i ++ E)) i size := by
  refine ⟨hx.mounted size h hi, hx.touches.mirrored hm, hcl.of_rest rfl rfl, rfl,
    fun r hr hne => ⟨dirSectors_update _ hne, ?_⟩⟩
  intro x hxr
  refine h.sectors_untouched hi hx.touches ?_ hr hne hxr
  rintro y ⟨c, hc, rfl⟩
  exact ⟨c, rfl, (List.mem_append.mp hc).imp id (hx.free c)⟩

/-- **One write** resizes its file, and to the expected size when it succeeds. -/
theorem FsOp.resized (h : Mounted s f chain) (hm : FatMirrored s.sdb) (hcl : Closed s) {op : FsOp}
    (hon : op.OnFiles s f) (hsup : op.Supplied s chain) :
    ∃ ok s' chain' i size, op.run s = .ok (ok, s') ∧ IsFile s f i ∧
      Resized s s' f chain chain' i size ∧ (ok = true → op.resizes s = some (i, size)) := by
  cases op with
  | writeFile file type content =>
    obtain ⟨ok, s', k, K', B, size, hrun, ht, hpost⟩ := writeFile_through h hcl hon.1 hsup
    refine ⟨ok, s', _, file, size, hrun, hon, ht.resized h hm hcl hon.1, fun hok => ?_⟩
    rw [(hpost hok).1]
    rfl
  | writeFileFromSda file type filesize =>
    obtain ⟨ok, s', k, K', B, size, hrun, ht, hpost⟩ := writeFileFromSda_through h hcl hon.1 hsup
    refine ⟨ok, s', _, file, size, hrun, hon, ht.resized h hm hcl hon.1, fun hok => ?_⟩
    rw [hpost hok]
    rfl
  | appendFile file1 file2 =>
    obtain ⟨d', E, hrun, hx⟩ := appendFile_ok h hon.1.1 hon.2.1 hsup.2 hsup.1
    exact ⟨true, _, _, file2, _, hrun, hon.2, hx.resized h hm hcl hon.2.1 _, fun _ => rfl⟩
  | createEmptyFile => exact hon.elim
  | createEmptyDirectory => exact hon.elim
  | deleteFile => exact hon.elim
  | deleteDirectory => exact hon.elim

/-! ## What a write does to the entries -/

namespace Resized

theorem node (h : Resized s s' f chain chain' i size) (j : Fin 100) :
    s'.filelist j = { s.filelist j with
      fileSize := if j = i then size else (s.filelist j).fileSize } := by
  rw [h.file]
  by_cases hji : j = i
  · subst hji
    rw [Function.update_self, if_pos rfl]
  · rw [Function.update_of_ne hji, if_neg hji]

theorem live (h : Resized s s' f chain chain' i size) {j : Fin 100} (hj : Live s f j) :
    Live s' f j := by
  refine ⟨hj.1, ?_⟩
  rw [h.node j]
  exact hj.2

theorem isFile_iff (h : Resized s s' f chain chain' i size) {j : Fin 100} :
    IsFile s' f j ↔ IsFile s f j := by
  rw [IsFile, IsFile, Live, Live, h.node j]
  exact Iff.rfl

/-- The entry of a file is where it was, and holds what it held. -/
theorem entry_same (h : Resized s s' f chain chain' i size) (hi : IsFile s f i) {j : Fin 100}
    {loc : Nat × Nat} (hent : EntryAt s f chain j loc) :
    EntryAt s' f chain' j loc ∧ s'.sdb loc.1 = s.sdb loc.1 := by
  obtain ⟨⟨r, hfa, hr, hdir, hloc⟩, hoff, hname, hclus⟩ := hent
  have hne : r ≠ .slot i := fun he => hi.2 (hdir i he)
  obtain ⟨hsecs, hsame⟩ := h.sectors r hr hne
  have hsec := hsame loc.1 hloc
  refine ⟨⟨⟨r, ?_, ?_, fun k hk => ?_, ?_⟩, hoff, ?_, ?_⟩, hsec⟩
  · rw [h.node j]
    exact hfa
  · cases r with
    | rootfile => trivial
    | slot k => exact h.live hr
  · rw [h.node k]
    exact hdir k hk
  · rw [hsecs]
    exact hloc
  · rw [hsec, h.node j]
    exact hname
  · rw [hsec, h.node j]
    exact hclus

/-- The sizes still agree exactly when the new size is the old one. -/
theorem stored_iff (h : Resized s s' f chain chain' i size) (hi : IsFile s f i)
    {loc : Fin 100 → Nat × Nat} (hent : ∀ j, IsFile s f j → EntryAt s f chain j (loc j))
    (hstored : SizesStored s f loc) :
    SizesStored s' f loc ↔ size = (s.filelist i).fileSize := by
  have hsame : ∀ j, IsFile s f j → storedSize s' (loc j) = (s.filelist j).fileSize := by
    intro j hj
    rw [← hstored j hj, storedSize, storedSize, (h.entry_same hi (hent j hj)).2]
  constructor
  · intro hs'
    have hown := hs' i (h.isFile_iff.mpr hi)
    rw [hsame i hi, h.node i] at hown
    simpa using hown.symm
  · intro hsize j hj
    have hj' := h.isFile_iff.mp hj
    rw [hsame j hj', h.node j]
    by_cases hji : j = i
    · subst hji
      simp [hsize]
    · simp [hji]

end Resized

end Step

/-! ## Runs -/

/-- A run of writes and appends on files, each of which has the clusters it needs, stores nothing
behind `buff` and succeeds. -/
def WritingRun : List FsOp → Fs → Prop
  | [], _ => True
  | op :: ops, s =>
    (∀ f chain, Mounted s f chain → op.OnFiles s f ∧ op.Supplied s chain) ∧
    op.InBuffer ∧ ∀ r, op.run s = .ok r → r.1 = true ∧ WritingRun ops r.2

/-- Every step of the run keeps the size of the file it writes to. -/
def SizesKept : List FsOp → Fs → Prop
  | [], _ => True
  | op :: ops, s => op.KeepsSize s ∧ ∀ r, op.run s = .ok r → SizesKept ops r.2

/-- **Sizes on the disk.** Along a run of successful writes, with every file's entry where it
is at the start and the sizes there in agreement: every state of the run has the same sizes on
the disk and in memory if and only if no step changes the size of its file. -/
theorem writtenSizes_stored {ops : List FsOp} {s : Fs} {f : Forest (Fin 100)}
    {chain : Fin 100 → List Nat} {loc : Fin 100 → Nat × Nat} (h : Mounted s f chain)
    (hm : FatMirrored s.sdb) (hcl : Closed s)
    (hent : ∀ i, IsFile s f i → EntryAt s f chain i (loc i)) (hstored : SizesStored s f loc)
    (hrun : WritingRun ops s) :
    (∀ pre, pre <+: ops → ∃ s', runOps pre s = .ok s' ∧ SizesStored s' f loc) ↔
      SizesKept ops s := by
  induction ops generalizing s chain with
  | nil =>
    refine ⟨fun _ => trivial, fun _ pre hpre => ⟨s, ?_, hstored⟩⟩
    rw [List.prefix_nil.mp hpre]
    rfl
  | cons op ops ih =>
    obtain ⟨hon, hsup⟩ := hrun.1 f chain h
    obtain ⟨ok, s1, chain1, i, size, hop, hi, hre, hsize⟩ := op.resized h hm hcl hon hsup
    obtain ⟨rfl, hrest⟩ := hrun.2.2 _ hop
    have hent1 : ∀ j, IsFile s1 f j → EntryAt s1 f chain1 j (loc j) := fun j hj =>
      (hre.entry_same hi (hent j (hre.isFile_iff.mp hj))).1
    have hstep : ∀ pre, runOps (op :: pre) s = runOps pre s1 := by
      intro pre
      rw [runOps, hop]
      rfl
    have hkeep : op.KeepsSize s ↔ SizesStored s1 f loc := by
      rw [hre.stored_iff hi hent hstored]
      constructor
      · intro hk
        exact hk i size (hsize rfl)
      · intro he j n hn
        cases (hsize rfl).symm.trans hn
        exact he
    constructor
    · intro hall
      have hone : SizesStored s1 f loc := by
        obtain ⟨s', hs', hst⟩ := hall [op] (List.prefix_append _ _)
        rw [hstep] at hs'
        cases hs'
        exact hst
      refine ⟨hkeep.mpr hone, fun r hr => ?_⟩
      cases hop.symm.trans hr
      refine (ih hre.mounted hre.mirrored hre.closed hent1 hone hrest).mp fun pre hpre => ?_
      obtain ⟨s', hs', hst⟩ := hall (op :: pre) (List.cons_prefix_cons.mpr ⟨rfl, hpre⟩)
      exact ⟨s', (hstep pre).symm.trans hs', hst⟩
    · rintro ⟨hk, htail⟩ pre hpre
      cases pre with
      | nil => exact ⟨s, rfl, hstored⟩
      | cons op' pre =>
        obtain ⟨rfl, hpre'⟩ := List.cons_prefix_cons.mp hpre
        have hmore := (ih hre.mounted hre.mirrored hre.closed hent1 (hkeep.mp hk) hrest).mpr
          (htail _ hop) pre hpre'
        rwa [hstep]

/-! ## An empty file gets its first byte -/

theorem oneFileFs_isFile {i : Fin 100} (hi : IsFile oneFileFs (.cons 0 .nil .nil) i) : i = 0 :=
  List.mem_singleton.mp hi.1.1

theorem oneFileFs_entryAt : ∀ i, IsFile oneFileFs (.cons 0 .nil .nil) i →
    EntryAt oneFileFs (.cons 0 .nil .nil) (fun _ => [2]) i (19, 0) := by
  intro i hi
  obtain rfl := oneFileFs_isFile hi
  refine ⟨⟨.rootfile, rfl, trivial, nofun, by decide⟩, by decide, ?_, ?_⟩
  · decide
  · decide

theorem oneFileFs_stored : SizesStored oneFileFs (.cons 0 .nil .nil) fun _ => (19, 0) := by
  intro i hi
  obtain rfl := oneFileFs_isFile hi
  decide

/-- A write of at most one byte to the file of the volume succeeds. -/
theorem oneFileFs_writingRun {content : List UInt8} (hlen : content.length ≤ 1)
    (hok : ((FsOp.writeFile 0 .readWrite content).run oneFileFs).toOption.map Prod.fst =
      some true) : WritingRun [.writeFile 0 .readWrite content] oneFileFs := by
  refine ⟨fun f chain h => ⟨?_, ?_⟩, hlen.trans_lt (by decide), fun r hr => ⟨?_, trivial⟩⟩
  · rw [h.tree.unique oneFileFs_mounted.tree]
    exact ⟨⟨List.mem_cons_self .., by decide⟩, by decide⟩
  · have hf := h.tree.unique oneFileFs_mounted.tree
    subst hf
    have hK := h.volume.chains 0 ⟨List.mem_cons_self .., by decide⟩
    have hpos := List.length_pos_iff.mpr hK.nonempty
    refine ⟨hlen.trans_lt (by decide), ?_⟩
    omega
  · rw [hr] at hok
    exact Option.some.inj hok

/-- Writing no byte to the empty file keeps its size. -/
theorem writtenSizes_stored_empty :
    ∃ s', runOps [.writeFile 0 .readWrite []] oneFileFs = .ok s' ∧
      SizesStored s' (.cons 0 .nil .nil) fun _ => (19, 0) := by
  refine (writtenSizes_stored oneFileFs_mounted (smallVolume_mirrored _ _ _) (bootedFs_closed _ _ _)
    oneFileFs_entryAt oneFileFs_stored (oneFileFs_writingRun (by decide) (by decide +kernel))).mpr
    ⟨?_, fun _ _ => trivial⟩ _ (List.prefix_refl _)
  rintro i size ⟨⟩
  rfl

/-- The size of the file is 1 in memory and still 0 on the disk. -/
theorem writtenSize_lost :
    SizesStored oneFileFs (.cons 0 .nil .nil) (fun _ => (19, 0)) ∧
      WritingRun [.writeFile 0 .readWrite [0x41]] oneFileFs ∧
      ∃ s', runOps [.writeFile 0 .readWrite [0x41]] oneFileFs = .ok s' ∧
        IsFile s' (.cons 0 .nil .nil) 0 ∧ (s'.filelist 0).fileSize = 1 ∧
        EntryAt s' (.cons 0 .nil .nil) (fun _ => [2]) 0 (19, 0) ∧ storedSize s' (19, 0) = 0 := by
  refine ⟨oneFileFs_stored, oneFileFs_writingRun (by decide) (by decide +kernel), ?_⟩
  have hcheck : (match runOps [.writeFile 0 .readWrite [0x41]] oneFileFs with
    | .ok s' => decide ((s'.filelist 0).fileSize = 1 ∧ storedSize s' (19, 0) = 0 ∧
        (s'.filelist 0).filename = sampleName ∧ (s'.filelist 0).attr = 0x20 ∧
        (s'.filelist 0).fa = some .rootfile ∧ (s'.filelist 0).fstClus = 2 ∧
        (entryAt (s'.sdb 19) 0).filename = sampleName ∧ (entryAt (s'.sdb 19) 0).fstClus = 2)
    | .error _ => false) = true := by decide +kernel
  generalize runOps [.writeFile 0 .readWrite [0x41]] oneFileFs = x at hcheck
  cases x with
  | error e => cases hcheck
  | ok s' =>
    obtain ⟨hsize, hstored, hname, hattr, hfa, hclus, hname', hclus'⟩ := of_decide_eq_true hcheck
    refine ⟨s', rfl, ⟨⟨List.mem_cons_self .., ?_⟩, ?_⟩, hsize, ⟨⟨.rootfile, hfa, trivial, nofun,
      by decide⟩, by decide, ?_, ?_⟩, hstored⟩
    · rw [IsDot, hname]
      decide
    · rw [hattr]
      decide
    · rw [hname]
      exact hname'
    · rw [hclus]
      exact hclus'

end GwOS
