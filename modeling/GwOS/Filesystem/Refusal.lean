import GwOS.Filesystem.Growth

/-!
# Creations that cannot succeed

Two things can run out: the clusters of the volume and the slots of `filelist`.

- `find_empty_cluster` answers `(uint16_t)-1` when it finds nothing, and its callers compare that
  with `-1`, which an unsigned 16-bit value never equals. It also clears "its" cluster, which then
  is sector 30, a sector of the root directory: `fullVolume_unreported`.
- `get_empty_file` answers `NULL`, which `init_file` dereferences: `creation_atomic_iff`.
-/

namespace GwOS

/-! ## A full volume -/

/-- No data cluster is free. The table goes on behind the last data cluster. -/
def FullVolume (d : Disk) : Prop := ∀ c, 2 ≤ c → c ≤ 2848 → getFatNextCluster d c ≠ 0

/-- `find_empty_cluster` leaves the disk alone and returns what its callers test for. -/
def FindReports (d : Disk) : Prop := ∃ v : Nat, findEmptyCluster d = .ok (v, d) ∧ (v : Int) = -1

/-- `append_a_cluster` leaves the FAT alone and returns what its callers test for. -/
def AppendReports (d : Disk) (clusID : Nat) : Prop :=
  ∃ (v : Nat) (d' : Disk), appendACluster d clusID = .ok (v, d') ∧ (v : Int) = -1 ∧
    ∀ k, k < fatEntries → getFatNextCluster d' k = getFatNextCluster d k

/-- A creation returns `false` with disk and tree unchanged. -/
def Refused (s : Fs) (x : Except Fault (Bool × Fs)) : Prop :=
  ∃ s', x = .ok (false, s') ∧ s'.sdb = s.sdb ∧ ∀ r, s'.file r = s.file r

/-- A full volume is reported by everything that looks for a cluster. -/
structure FullReported (s : Fs) : Prop where
  find : FindReports s.sdb
  append : ∀ clusID, clusID < 65536 → AppendReports s.sdb clusID
  file : ∀ dir filename attr wrtTime wrtDate, (∃ p, isFileExist s dir filename = .ok p) →
    Refused s (createEmptyFile s dir filename attr wrtTime wrtDate)
  directory : ∀ dir filename wrtTime wrtDate, (∃ p, isFileExist s dir filename = .ok p) →
    Refused s (createEmptyDirectory s dir filename wrtTime wrtDate)

/-- Why no caller sees the failure: a value of type `uint16_t` is compared as an `int`. -/
theorem clusID_ne_failure (v : Nat) : (v : Int) ≠ -1 := by omega

section Full

variable {d : Disk}

/-- What the search returns: nothing, or a zero entry without a data cluster. -/
theorem scanFat_full (hfull : FullVolume d) :
    scanFat (updateImg d) 1536 512 = 0xFFFF ∨ scanFat (updateImg d) 1536 512 < 2 ∨
      (2849 ≤ scanFat (updateImg d) 1536 512 ∧ scanFat (updateImg d) 1536 512 < fatEntries) := by
  obtain ⟨he, -⟩ | ⟨c, he, -, hlt, hz, -⟩ := scanFat_spec d 1536 0 rfl
  · exact .inl he
  · rw [Nat.mul_zero, Nat.add_zero] at he
    rw [he]
    by_cases h2 : c < 2
    · exact .inr (.inl h2)
    · refine .inr (.inr ⟨?_, hlt⟩)
      by_contra hle
      exact hfull c (by omega) (by omega) hz

/-- **`find_empty_cluster` on a full volume** clears a sector of the root directory or the sector
behind the last one, or stops at the assertion of `write_sector`. -/
theorem findEmptyCluster_full (hfull : FullVolume d) :
    (∃ v sec, (sec = 30 ∨ sec = 31 ∨ sec = 32 ∨ sec = 2880) ∧
      findEmptyCluster d = .ok (v, Function.update d sec (Bytes.zero 512))) ∨
    findEmptyCluster d = .error .assert := by
  have hscan := scanFat_full hfull
  unfold findEmptyCluster
  generalize scanFat (updateImg d) 1536 512 = v at hscan ⊢
  by_cases hsec : u16 (v + clusToSec) ≤ secCnt
  · left
    refine ⟨v, u16 (v + clusToSec), ?_, ?_⟩
    · unfold secCnt at hsec
      unfold fatEntries at hscan
      unfold u16 clusToSec at hsec ⊢
      omega
    · simp only [clearCluster, writeSector_ok _ _ hsec, bind, Except.bind, pure, Except.pure]
  · right
    simp only [clearCluster, writeSector, if_neg hsec, bind, Except.bind]

/-- **A full volume is never reported.** -/
theorem fullVolume_unreported {s : Fs} (hfull : FullVolume s.sdb) :
    ((∃ v sec, (sec = 30 ∨ sec = 31 ∨ sec = 32 ∨ sec = 2880) ∧
        findEmptyCluster s.sdb = .ok (v, Function.update s.sdb sec (Bytes.zero 512))) ∨
      findEmptyCluster s.sdb = .error .assert) ∧
    ¬ FindReports s.sdb ∧ (∀ clusID, ¬ AppendReports s.sdb clusID) ∧ ¬ FullReported s := by
  have hfind : ¬ FindReports s.sdb := fun ⟨v, _, hv⟩ => clusID_ne_failure v hv
  refine ⟨findEmptyCluster_full hfull, hfind, ?_, fun hrep => hfind hrep.find⟩
  rintro clusID ⟨v, d', _, hv, _⟩
  exact clusID_ne_failure v hv

/-! ### What a creation does instead -/

/-- The search of a table without any zero entry. -/
theorem findEmptyCluster_none (h : ∀ c, c < fatEntries → getFatNextCluster d c ≠ 0) :
    findEmptyCluster d = .ok (0xFFFF, Function.update d 30 (Bytes.zero 512)) := by
  have hscan : scanFat (updateImg d) 1536 512 = 0xFFFF := by
    obtain ⟨he, -⟩ | ⟨c, -, -, hlt, hz, -⟩ := scanFat_spec d 1536 0 rfl
    · exact he
    · exact absurd hz (h c hlt)
  rw [findEmptyCluster, hscan]
  rfl

/-- The "entry" of the failure value lies in two data sectors. -/
theorem putFat_failure (d : Disk) (data : Nat) {sec : Nat} (h192 : sec ≠ 192) (h201 : sec ≠ 201) :
    putFat d 0xFFFF data sec = d sec := by
  have hpos : fatPos 0xFFFF / 512 = 191 ∧ (fatPos 0xFFFF + 1) / 512 = 191 := by decide
  rw [putFat, pokeFat_other _ _ (by omega) (by omega), pokeFat_other _ _ (by omega) (by omega)]

/-- `append_a_cluster` links the failure value like a cluster. -/
theorem appendACluster_none (h : ∀ c, c < fatEntries → getFatNextCluster d c ≠ 0) {e : Nat}
    (he : e < 65536) :
    appendACluster d e = .ok (0xFFFF,
      putFat (putFat (Function.update d 30 (Bytes.zero 512)) e 0xFFFF) 0xFFFF 0xFFF) := by
  have hneg : ¬ (((0xFFFF : Nat) : Int) = -1) := clusID_ne_failure _
  simp only [appendACluster, findEmptyCluster_none h, bind, Except.bind, hneg, if_false,
    writeFat_ok _ _ he, writeFat_ok _ _ (by decide : 0xFFFF < 65536), pure, Except.pure]

end Full

section FullTable

variable {s : Fs} {f : Forest (Fin 100)} {chain : Fin 100 → List Nat} {dir : FileRef}
  {filename : Name} {wrtTime wrtDate : UInt16}

/-- Sector 30 has lost all its entries. -/
def Wiped (b : Sector) : Prop :=
  b = Bytes.zero 512 ∨ ∃ file, b = putDirEntry (Bytes.zero 512) 0 file

/-- The state in which `create_dir_entry` is called on a volume without a zero entry in the
table. -/
def wipedState (s : Fs) (i : Fin 100) (node : File) : Fs :=
  Fs.setFile { s with sdb := Function.update s.sdb 30 (Bytes.zero 512) } (.slot i) node

theorem wipedState_mounted (h : Mounted s f chain) {i : Fin 100} (node : File)
    (hi : (s.filelist i).used = false) : Mounted (wipedState s i node) f chain := by
  refine h.congr rfl (fun j hj => ?_)
    (Touches.update (S := {30}) _ _ (by decide) (Set.mem_singleton _))
  have hji : j ≠ i := fun he => h.tree.not_mem_of_unused hi (he ▸ hj)
  rw [wipedState, Fs.filelist_setFile_slot, Function.update_of_ne hji]
  exact SameNode.refl _

/-- The entry is written: in the root there is room in sector 30 now, and a full subdirectory gets
"cluster" 65535, which is the same sector. -/
theorem createDirEntry_wiped (h : Mounted s f chain) (hdir : LiveRef s f dir)
    (hnone : ∀ c, c < fatEntries → getFatNextCluster s.sdb c ≠ 0) {i : Fin 100} (node : File)
    (hi : (s.filelist i).used = false) :
    ∃ d', createDirEntry (wipedState s i node) dir (.slot i) =
        .ok (true, { wipedState s i node with sdb := d' }) ∧ Wiped (d' 30) := by
  have hm := wipedState_mounted h node hi
  have hnode : (wipedState s i node).file (.slot i) = node := by simp [wipedState]
  have hwiped : (wipedState s i node).sdb 30 = Bytes.zero 512 := by simp [wipedState]
  have hdir' : LiveRef (wipedState s i node) f dir := by
    cases dir with
    | rootfile => trivial
    | slot j =>
      have hji : j ≠ i := fun he => h.tree.not_mem_of_unused hi (he ▸ hdir.1)
      refine ⟨hdir.1, ?_⟩
      rw [wipedState, Fs.filelist_setFile_slot, Function.update_of_ne hji]
      exact hdir.2
  have hzero : HasFreeSlot (Bytes.zero 512) := ⟨0, by decide, by decide⟩
  by_cases hroom : ∃ x ∈ dirSectors chain dir, HasFreeSlot ((wipedState s i node).sdb x)
  · obtain ⟨x, off, -, hoff, hrun⟩ := createDirEntry_ok (hm.dirOn hdir') (.slot i) hroom
    refine ⟨_, hrun, ?_⟩
    by_cases hx : x = 30
    · subst hx
      rw [hwiped] at hoff ⊢
      obtain rfl : 0 = off := Option.some.inj (find_zero.symm.trans hoff)
      rw [Function.update_self]
      exact .inr ⟨_, rfl⟩
    · rw [Function.update_of_ne (Ne.symm hx), hwiped]
      exact .inl rfl
  · have hfull : ∀ x ∈ dirSectors chain dir, ¬ HasFreeSlot ((wipedState s i node).sdb x) :=
      fun x hx hfs => hroom ⟨x, hx, hfs⟩
    obtain ⟨hroot, -⟩ | ⟨-, e, he, hrun⟩ := createDirEntry_full (hm.dirOn hdir') (.slot i) hfull
    · subst hroot
      exact absurd (hwiped ▸ hzero) (hfull 30 (by decide : 30 ∈ rootSectors))
    · have hlt : e < 65536 := by
        unfold IsEnd at he
        omega
      have hnone' : ∀ c, c < fatEntries →
          getFatNextCluster (wipedState s i node).sdb c ≠ 0 := fun c hc => by
        rw [wipedState, Fs.sdb_setFile, getFat_update _ _ (by decide) hc]
        exact hnone c hc
      generalize hd2 : putFat (putFat (Function.update (wipedState s i node).sdb 30 (Bytes.zero 512))
        e 0xFFFF) 0xFFFF 0xFFF = d2 at *
      have happ := appendACluster_none hnone' hlt
      rw [hd2] at happ
      have hd30 : d2 30 = Bytes.zero 512 := by
        rw [← hd2, putFat_failure _ _ (by decide) (by decide),
          putFat_endMark _ _ he (by decide) (by decide), Function.update_self]
      have hfree : HasFreeSlot (d2 30) := by rwa [hd30]
      obtain ⟨off, hoff, hput⟩ := createDirEntryInSector_ok node (by decide : 30 ≤ secCnt) hfree
      rw [hd30] at hoff hput
      obtain rfl : 0 = off := Option.some.inj (find_zero.symm.trans hoff)
      refine ⟨Function.update d2 30 (putDirEntry (Bytes.zero 512) 0 node), ?_, ?_⟩
      · rw [hrun, happ, hnode]
        have hsec : u16 (0xFFFF + clusToSec) = 30 := by decide
        show (createDirEntryInSector d2 (u16 (0xFFFF + clusToSec)) node >>= _) = _
        rw [hsec, hput]
        rfl
      · rw [Function.update_self]
        exact .inr ⟨_, rfl⟩

/-- **`create_empty_file` on a volume without any zero entry in the FAT** succeeds, and a sector
of the root directory is lost. -/
theorem createEmptyFile_wipes (h : Mounted s f chain) (hdir : LiveRef s f dir)
    (hnone : ∀ c, c < fatEntries → getFatNextCluster s.sdb c ≠ 0)
    (hname : NameUnused s f dir filename) (hslot : 0 < (freeSlots s).card) (attr : UInt8) :
    ∃ s', createEmptyFile s dir filename attr wrtTime wrtDate = .ok (true, s') ∧
      Wiped (s'.sdb 30) := by
  obtain ⟨i, hi, hget⟩ := getEmptyFile_ok
    (s := { s with sdb := Function.update s.sdb 30 (Bytes.zero 512) }) hslot
  generalize hn : initedFile (s.filelist i) dir filename attr wrtTime wrtDate
    (UInt16.ofNat 0xFFFF) 0 = node
  obtain ⟨d', hentry, hwiped⟩ := createDirEntry_wiped h hdir hnone node hi
  have hinit : initFile (Fs.setFile { s with sdb := Function.update s.sdb 30 (Bytes.zero 512) }
      (.slot i) (initNewFile (s.filelist i))) (.slot i) dir filename attr wrtTime wrtDate
      (UInt16.ofNat 0xFFFF) 0 = wipedState s i node := by
    rw [wipedState, ← hn]
    exact initFile_getEmpty ..
  rw [← hinit] at hentry
  have hpath := createEmptyFile_path (isFileExist_none h.tree hdir.hasRef hname)
    (findEmptyCluster_none hnone) hget hentry
    (writeFat_ok _ 0xFFF (by decide : 0xFFFF < 65536))
  refine ⟨_, hpath, ?_⟩
  simp only [Fs.sdb_setFile]
  rwa [putFat_failure _ _ (by decide) (by decide)]

end FullTable

/-! ### A full disk -/

/-- Every cluster is in use, and the entry of the one file is in sector 30. -/
def fullDisk : Disk := fun sec =>
  if 1 ≤ sec ∧ sec ≤ 18 then Bytes.ofFn fun _ => 0xFF
  else if sec = 30 then putDirEntry (Bytes.zero 512) 0 oneFile
  else Bytes.zero 512

theorem fullDisk_fat {c : Nat} (hc : c < fatEntries) : getFatNextCluster fullDisk c = 0xFFF := by
  have hpos := fatPos_lt hc
  have hbyte : ∀ k, k < 4608 → fatByte fullDisk k = 0xFF := fun k hk => by
    have hsec : 1 ≤ 1 + k / 512 ∧ 1 + k / 512 ≤ 18 := by omega
    rw [fatByte, fullDisk, if_pos hsec, Bytes.get_ofFn _ (Nat.mod_lt _ (by decide))]
  rw [getFat_eq _ (lt_trans hc (by decide)), hbyte _ hpos, hbyte (fatPos c) (by omega)]
  split <;> rfl

theorem fullDisk_full : FullVolume fullDisk := fun c _ hc => by
  rw [fullDisk_fat (lt_of_le_of_lt hc (by decide))]
  decide

/-- The system booted from it. -/
def fullFs : Fs := bootedFs fullDisk (some (.slot 0)) fun i => if i = 0 then oneFile else blankFile

theorem fullFs_mounted : Mounted fullFs (.cons 0 .nil .nil) fun _ => [2] := by
  have hlive : ∀ i, Live fullFs (.cons 0 .nil .nil) i → i = 0 := fun i hi =>
    List.mem_singleton.mp hi.1
  refine ⟨⟨⟨rfl, rfl, rfl, rfl, rfl⟩, by decide⟩, by decide, by decide, ?_, ?_⟩
  · intro i hi
    obtain rfl := hlive i hi
    have hend : IsEnd (getFatNextCluster fullFs.sdb 2) := by decide
    exact ⟨⟨rfl, by decide, hend⟩, by decide, by decide⟩
  · intro i j hi hj hij
    exact absurd ((hlive i hi).trans (hlive j hj).symm) hij

/-- On this disk nothing is reported. -/
theorem fullVolume_unreported_sample :
    FullVolume fullFs.sdb ∧ ¬ FindReports fullFs.sdb ∧ ¬ FullReported fullFs :=
  ⟨fullDisk_full, (fullVolume_unreported (s := fullFs) fullDisk_full).2.1,
    (fullVolume_unreported (s := fullFs) fullDisk_full).2.2.2⟩

/-- The search clears the sector with the file's entry, and a new file is created. -/
theorem fullVolume_damaged :
    FullVolume fullFs.sdb ∧ ¬ FullReported fullFs ∧ fullFs.sdb 30 ≠ Bytes.zero 512 ∧
      findEmptyCluster fullFs.sdb =
        .ok (0xFFFF, Function.update fullFs.sdb 30 (Bytes.zero 512)) ∧
      ∃ s', createEmptyFile fullFs .rootfile (dotName 3) 0x20 0 0 = .ok (true, s') ∧
        Wiped (s'.sdb 30) := by
  have hnone : ∀ c, c < fatEntries → getFatNextCluster fullFs.sdb c ≠ 0 := fun c hc => by
    show getFatNextCluster fullDisk c ≠ 0
    rw [fullDisk_fat hc]
    decide
  have hfind := findEmptyCluster_none hnone
  have hsec : fullFs.sdb 30 ≠ Bytes.zero 512 := fun h => by
    have hbyte := congrArg (fun b => b.get 0) h
    revert hbyte
    decide
  refine ⟨fullDisk_full, fun hrep => ?_, hsec, hfind, ?_⟩
  · obtain ⟨v, hrun, -⟩ := hrep.find
    rw [hfind] at hrun
    injection hrun with hpair
    have h30 := congrFun (Prod.mk.inj hpair).2 30
    rw [Function.update_self] at h30
    exact hsec h30.symm
  · have hroot : LiveRef fullFs (.cons 0 .nil .nil) .rootfile := trivial
    have hname : NameUnused fullFs (.cons 0 .nil .nil) .rootfile (dotName 3) := by
      intro i hi
      rw [List.mem_singleton.mp hi]
      decide
    exact createEmptyFile_wipes fullFs_mounted hroot hnone hname
      (Finset.card_pos.mpr ⟨1, mem_freeSlots.mpr rfl⟩) 0x20

/-! ## Creation with too few slots -/

/-- `get_empty_file` without a free slot. -/
theorem getEmptyFile_none {s : Fs} (h : (freeSlots s).card = 0) : getEmptyFile s = (none, s) := by
  have hnone : emptySlot s = none := by
    refine List.find?_eq_none.mpr fun i _ hi => ?_
    have hmem : i ∈ freeSlots s := mem_freeSlots.mpr (by simpa using hi)
    rw [Finset.card_eq_zero.mp h] at hmem
    exact absurd hmem (Finset.notMem_empty i)
  rw [getEmptyFile, hnone]

/-- Taking a slot leaves exactly the other free slots. -/
theorem card_freeSlots_take {s s' : Fs} {i : Fin 100} (hi : (s.filelist i).used = false)
    (hi' : (s'.filelist i).used = true) (h : ∀ j, j ≠ i → s'.filelist j = s.filelist j) :
    (freeSlots s').card + 1 = (freeSlots s).card := by
  have herase : freeSlots s' = (freeSlots s).erase i := by
    ext j
    rw [Finset.mem_erase, mem_freeSlots, mem_freeSlots]
    by_cases hj : j = i
    · subst hj
      simp [hi']
    · rw [h j hj]
      exact ⟨fun hu => ⟨hj, hu⟩, And.right⟩
  rw [herase]
  exact Finset.card_erase_add_one (mem_freeSlots.mpr hi)

theorem HasFreeSlot.find {b : Sector} (h : HasFreeSlot b) :
    ∃ off, dirEntryOffsets.find? (slotFree b) = some off :=
  Option.isSome_iff_exists.mp (List.find?_isSome.mpr h)

/-- The last two entries of the sector are free. -/
def TwoFree (b : Sector) : Prop := slotFree b 448 = true ∧ slotFree b 480 = true

theorem TwoFree.hasFreeSlot {b : Sector} (h : TwoFree b) : HasFreeSlot b := ⟨448, by decide, h.1⟩

/-- There is room for two entries. -/
theorem TwoFree.put {b : Sector} (h : TwoFree b) {off : Nat} (hoff : off ∈ dirEntryOffsets)
    (file : File) : HasFreeSlot (putDirEntry b off file) := by
  obtain ⟨k, -, rfl⟩ := List.mem_map.mp hoff
  by_cases hk : k = 14
  · refine ⟨480, by decide, ?_⟩
    rw [slotFree, get_putDirEntry_ne _ _ (by unfold bytePerDirEntry; omega)]
    exact h.2
  · refine ⟨448, by decide, ?_⟩
    rw [slotFree, get_putDirEntry_ne _ _ (by unfold bytePerDirEntry; omega)]
    exact h.1

theorem twoFree_zero : TwoFree (Bytes.zero 512) := ⟨by decide, by decide⟩

theorem twoFree_put (file : File) : TwoFree (putDirEntry (Bytes.zero 512) 0 file) := by
  constructor
  · rw [slotFree, get_putDirEntry_ne _ _ (by decide)]
    exact twoFree_zero.1
  · rw [slotFree, get_putDirEntry_ne _ _ (by decide)]
    exact twoFree_zero.2

section Dots

variable {s : Fs} {fa : FileRef} {i : Fin 100} {c : Nat}

/-- **`write_empty_directory` by its supply of slots.** -/
theorem writeEmptyDirectory_slots (hK : FileChain s.sdb (firstClus s i) [c])
    (htwo : TwoFree (s.sdb (c + 31))) (hused : (s.filelist i).used = true)
    (hfa : ∀ j, fa = .slot j → (s.filelist j).used = true) :
    (2 ≤ (freeSlots s).card → ∃ s', writeEmptyDirectory s fa (.slot i) = .ok (true, s')) ∧
      ((freeSlots s).card < 2 → writeEmptyDirectory s fa (.slot i) = .error .nullDeref) := by
  by_cases h0 : (freeSlots s).card = 0
  · refine ⟨by omega, fun _ => ?_⟩
    rw [writeEmptyDirectory, getEmptyFile_none h0]
  -- `.`
  obtain ⟨off, hoff⟩ := htwo.hasFreeSlot.find
  obtain ⟨j₁, s1, hj₁, hget₁, he₁⟩ := dotState_ok (.slot i) 1 hK hoff hused
    (by rintro k ⟨⟩; exact hused) (by omega)
  have hi₁ : i ≠ j₁ := ne_of_used hj₁ hused
  generalize hs2 : dotState s i j₁ c off 1 (.slot i) = s2 at he₁
  have hother₁ : ∀ k, k ≠ j₁ → s2.filelist k = s.filelist k := fun k hk => by
    rw [← hs2, dotState_filelist_ne hk]
  have hself₁ : (s2.filelist j₁).used = true := by
    rw [← hs2, dotState_self]
    rfl
  have hcard := card_freeSlots_take hj₁ hself₁ hother₁
  by_cases h1 : (freeSlots s2).card = 0
  · refine ⟨by omega, fun _ => ?_⟩
    simp only [writeEmptyDirectory, hget₁, he₁, bind, Except.bind, Bool.not_true,
      Bool.false_eq_true, if_false, getEmptyFile_none h1]
  -- `..`
  refine ⟨fun _ => ?_, by omega⟩
  have hsec : s2.sdb (c + 31) = putDirEntry (s.sdb (c + 31)) off
      (dotFile (s.filelist j₁) (.slot i) 1 (s.filelist i)) := by
    rw [← hs2, dotState]
    exact Function.update_self ..
  have hK₂ : FileChain s2.sdb (firstClus s2 i) [c] := by
    rw [firstClus, hother₁ i hi₁]
    refine hK.congr fun k hk => ?_
    rw [← hs2]
    exact getFat_update _ _ (by omega) (hK.lt_fatEntries hk)
  have hroom : HasFreeSlot (s2.sdb (c + 31)) := by
    rw [hsec]
    exact htwo.put (List.mem_of_find?_eq_some hoff) _
  obtain ⟨off₂, hoff₂⟩ := hroom.find
  have hused₂ : ∀ k, (s.filelist k).used = true → (s2.filelist k).used = true := fun k hk => by
    rwa [hother₁ k (ne_of_used hj₁ hk)]
  obtain ⟨j₂, s3, -, hget₂, he₂⟩ := dotState_ok fa 2 hK₂ hoff₂ (hused₂ i hused)
    (fun k hk => hused₂ k (hfa k hk)) (by omega)
  exact ⟨_, writeEmptyDirectory_path hget₁ he₁ hget₂ he₂⟩

end Dots

/-- What a failed creation has to leave as it was: the nodes of the tree, the used flags, the FAT,
the root directory and the sectors of the live files and directories. -/
structure Unchanged (s s' : Fs) (f : Forest (Fin 100)) (chain : Fin 100 → List Nat) : Prop where
  node : ∀ r, HasRef f r → s'.file r = s.file r
  used : ∀ i, (s'.filelist i).used = (s.filelist i).used
  reserved : ∀ sec, sec < 33 → s'.sdb sec = s.sdb sec
  data : ∀ i, Live s f i → ∀ k ∈ chain i, s'.sdb (k + 31) = s.sdb (k + 31)

/-- A creation succeeds, or returns `false` with everything as before. -/
def CreationAtomic (s : Fs) (f : Forest (Fin 100)) (chain : Fin 100 → List Nat)
    (x : Except Fault (Bool × Fs)) : Prop :=
  (∃ s', x = .ok (true, s')) ∨ ∃ s', x = .ok (false, s') ∧ Unchanged s s' f chain

/-- All entries of the root directory are in use. -/
def RootFull (s : Fs) (dir : FileRef) : Prop :=
  dir = .rootfile ∧ ∀ x ∈ rootSectors, ¬ HasFreeSlot (s.sdb x)

section Creation

variable {s : Fs} {f : Forest (Fin 100)} {chain : Fin 100 → List Nat} {dir : FileRef}
  {filename : Name} {attr : UInt8} {wrtTime wrtDate : UInt16}

theorem CreationAtomic.succeeded {s' : Fs} {x : Except Fault (Bool × Fs)}
    (h : x = .ok (true, s')) : CreationAtomic s f chain x := .inl ⟨s', h⟩

theorem not_creationAtomic {x : Except Fault (Bool × Fs)} (h : x = .error .nullDeref) :
    ¬ CreationAtomic s f chain x := by
  rintro (⟨s', hx⟩ | ⟨s', hx, -⟩)
  · cases h.symm.trans hx
  · cases h.symm.trans hx

theorem Unchanged.printf (msg : String) : Unchanged s (s.printf msg) f chain :=
  ⟨fun r _ => Fs.file_printf s msg r, fun _ => rfl, fun _ _ => rfl, fun _ _ _ _ => rfl⟩

/-- A slot taken and given back, and a free cluster cleared. -/
theorem Unchanged.returned (h : Mounted s f chain) {c : Nat} {i : Fin 100} (node : File)
    (hc : IsFree s.sdb c) (hi : (s.filelist i).used = false) :
    Unchanged s (markUnused (freshState s c i node) (.slot i)) f chain := by
  have hc2 := hc.1
  refine ⟨fun r hr => ?_, fun j => ?_, fun sec hsec => ?_, fun j hj k hk => ?_⟩
  · have hne := h.tree.ne_of_unused hr hi
    rw [markUnused, Fs.file_setFile_ne _ _ hne, freshState_file_ne hne]
  · by_cases hj : j = i
    · subst hj
      rw [hi]
      simp [markUnused]
    · simp [markUnused, freshState, Function.update_of_ne hj]
  · rw [markUnused, Fs.sdb_setFile, freshState, Fs.sdb_setFile]
    exact Function.update_of_ne (by omega) _ _
  · have hne : k ≠ c := by
      rintro rfl
      exact (h.volume.chains j hj).not_free hk hc
    rw [markUnused, Fs.sdb_setFile, freshState, Fs.sdb_setFile]
    exact Function.update_of_ne (by omega) _ _

/-- Without a free slot, both functions dereference the null pointer of `get_empty_file`. -/
theorem create_noSlot (h : Mounted s f chain) (hdir : LiveRef s f dir)
    (hfree : ∃ c, IsFree s.sdb c) (hname : NameUnused s f dir filename)
    (h0 : (freeSlots s).card = 0) (attr : UInt8) :
    createEmptyFile s dir filename attr wrtTime wrtDate = .error .nullDeref ∧
      createEmptyDirectory s dir filename wrtTime wrtDate = .error .nullDeref := by
  obtain ⟨c, hclus, -, -⟩ := findEmptyCluster_ok h.volume.entry0 h.volume.entry1 hfree
  have hexist := isFileExist_none h.tree hdir.hasRef hname
  have hneg : ¬ ((c : Int) = -1) := clusID_ne_failure c
  have hget := getEmptyFile_none
    (s := { s with sdb := Function.update s.sdb (c + 31) (Bytes.zero 512) }) h0
  constructor
  · simp only [createEmptyFile, hexist, hclus, hget, bind, Except.bind, hneg, if_false]
  · simp only [createEmptyDirectory, hexist, hclus, hget, bind, Except.bind, hneg, if_false]

/-- The live references of the state before the entry. -/
theorem freshState_liveRef (h : Mounted s f chain) (hdir : LiveRef s f dir) {c : Nat}
    {i : Fin 100} (node : File) (hi : (s.filelist i).used = false) :
    LiveRef (freshState s c i node) f dir := by
  cases dir with
  | rootfile => trivial
  | slot j =>
    have hji : j ≠ i := fun he => h.tree.not_mem_of_unused hi (he ▸ hdir.1)
    refine ⟨hdir.1, ?_⟩
    rw [freshState, Fs.filelist_setFile_slot, Function.update_of_ne hji]
    exact hdir.2

/-- The entry is written, unless the directory is the full root. In a full subdirectory it goes
into a cluster that is not linked, which can be the new node's own. -/
theorem create_entry_any (h : Mounted s f chain) (hdir : LiveRef s f dir) {c : Nat} {i : Fin 100}
    (node : File) (hc : IsFree s.sdb c) (hi : (s.filelist i).used = false)
    (hroot : ¬ RootFull s dir) :
    ∃ d', createDirEntry (freshState s c i node) dir (.slot i) =
        .ok (true, { freshState s c i node with sdb := d' }) ∧ TwoFree (d' (c + 31)) := by
  have hzero : (freshState s c i node).sdb (c + 31) = Bytes.zero 512 := by simp [freshState]
  by_cases hroom : ∃ x ∈ dirSectors chain dir, HasFreeSlot (s.sdb x)
  · obtain ⟨x, off, hx, -, hrun⟩ := create_entry h hdir node hc hi hroom
    refine ⟨_, hrun, ?_⟩
    rw [Function.update_of_ne (dirSectors_ne_free h hdir hx hc).symm, Function.update_self]
    exact twoFree_zero
  · have hm := freshState_mounted h node hc hi
    have hdir' := freshState_liveRef (c := c) h hdir node hi
    have hfull : ∀ x ∈ dirSectors chain dir, ¬ HasFreeSlot ((freshState s c i node).sdb x) := by
      intro x hx hfs
      have hne := dirSectors_ne_free h hdir hx hc
      have hsame : (freshState s c i node).sdb x = s.sdb x := Function.update_of_ne hne _ _
      exact hroom ⟨x, hx, hsame ▸ hfs⟩
    cases dir with
    | rootfile => exact absurd ⟨rfl, fun x hx hfs => hroom ⟨x, hx, hfs⟩⟩ hroot
    | slot j =>
      have hc' : IsFree (freshState s c i node).sdb c := by
        refine ⟨hc.1, hc.2.1, ?_⟩
        rw [freshState, Fs.sdb_setFile, getFat_update _ _ (by omega) hc.lt]
        exact hc.2.2
      obtain ⟨k, d', -, hrun, -, hdata, hput⟩ :=
        createDirEntry_overflow hm hdir' ⟨c, hc'⟩ hfull (.slot i)
      refine ⟨d', hrun, ?_⟩
      have hc2 := hc.1
      by_cases hk : c = k
      · subst hk
        rw [hput]
        exact twoFree_put _
      · rw [hdata _ (by omega) (by omega) (by omega), hzero]
        exact twoFree_zero

/-- **`create_empty_file` is atomic** unless a slot is missing. -/
theorem createEmptyFile_atomic (h : Mounted s f chain) (hdir : LiveRef s f dir)
    (hfree : ∃ c, IsFree s.sdb c) (hname : NameUnused s f dir filename)
    (hslot : 1 ≤ (freeSlots s).card) :
    CreationAtomic s f chain (createEmptyFile s dir filename attr wrtTime wrtDate) := by
  obtain ⟨c, i, hc, hi, hclus, s2, hget, hinit⟩ := create_prefix h hfree hslot
  have hnode := hinit filename attr wrtTime wrtDate
  generalize initedFile (s.filelist i) dir filename attr wrtTime wrtDate (UInt16.ofNat c) 0 =
    node at hnode
  have hexist := isFileExist_none h.tree hdir.hasRef hname
  by_cases hroot : RootFull s dir
  · obtain ⟨rfl, hfull⟩ := hroot
    have hentry := create_rootFull h node hc hi fun ⟨x, hx, hfs⟩ => hfull x hx hfs
    rw [← hnode] at hentry
    have hpath := createEmptyFile_failPath hexist hclus hget hentry
    rw [hnode] at hpath
    exact .inr ⟨_, hpath, .returned h node hc hi⟩
  · obtain ⟨d', hentry, -⟩ := create_entry_any h hdir node hc hi hroot
    rw [← hnode] at hentry
    exact .succeeded (createEmptyFile_path hexist hclus hget hentry
      (writeFat_ok _ 0xFFF (lt_trans hc.lt (by decide))))

/-- The full root rejects a directory like a file. -/
theorem createEmptyDirectory_rootFull (h : Mounted s f chain) (hdir : LiveRef s f dir)
    (hfree : ∃ c, IsFree s.sdb c) (hname : NameUnused s f dir filename) (hroot : RootFull s dir)
    (hslot : 1 ≤ (freeSlots s).card) :
    CreationAtomic s f chain (createEmptyDirectory s dir filename wrtTime wrtDate) := by
  obtain ⟨c, i, hc, hi, hclus, s2, hget, hinit⟩ := create_prefix h hfree hslot
  have hnode := hinit filename 0x10 wrtTime wrtDate
  generalize initedFile (s.filelist i) dir filename 0x10 wrtTime wrtDate (UInt16.ofNat c) 0 =
    node at hnode
  obtain ⟨rfl, hfull⟩ := hroot
  have hentry := create_rootFull h node hc hi fun ⟨x, hx, hfs⟩ => hfull x hx hfs
  rw [← hnode] at hentry
  have hpath := createEmptyDirectory_failPath (isFileExist_none h.tree hdir.hasRef hname) hclus
    hget hentry
  rw [hnode] at hpath
  exact .inr ⟨_, hpath, .returned h node hc hi⟩

/-- **`create_empty_directory`, by its supply of slots**, when the entry can be written. -/
theorem createEmptyDirectory_slots (h : Mounted s f chain) (hdir : LiveRef s f dir)
    (hfree : ∃ c, IsFree s.sdb c) (hname : NameUnused s f dir filename)
    (hroot : ¬ RootFull s dir) (hslot : 1 ≤ (freeSlots s).card) :
    (3 ≤ (freeSlots s).card →
        ∃ s', createEmptyDirectory s dir filename wrtTime wrtDate = .ok (true, s')) ∧
      ((freeSlots s).card < 3 →
        createEmptyDirectory s dir filename wrtTime wrtDate = .error .nullDeref) := by
  obtain ⟨c, i, hc, hi, hclus, s2, hget, hinit⟩ := create_prefix h hfree hslot
  have hnode := hinit filename 0x10 wrtTime wrtDate
  generalize hn : initedFile (s.filelist i) dir filename 0x10 wrtTime wrtDate (UInt16.ofNat c) 0 =
    node at hnode
  have hexist := isFileExist_none h.tree hdir.hasRef hname
  obtain ⟨d', hentry, htwo⟩ := create_entry_any h hdir node hc hi hroot
  have hle := hc.2.1
  have hge := hc.1
  have hfat := writeFat_ok d' 0xFFF (lt_trans hc.lt (by decide))
  -- the state in which the new directory gets `.` and `..`
  generalize hs5 : { freshState s c i node with sdb := putFat d' c 0xFFF } = s5
  have hself : s5.filelist i = node := by
    rw [← hs5]
    exact freshState_self
  have hother : ∀ j, j ≠ i → s5.filelist j = s.filelist j := fun j hj => by
    rw [← hs5]
    show (freshState s c i node).filelist j = _
    rw [freshState, Fs.filelist_setFile_slot, Function.update_of_ne hj]
  have hused : (s5.filelist i).used = true := by
    rw [hself, ← hn]
    rfl
  have hfst : firstClus s5 i = c := by
    rw [firstClus, hself, ← hn]
    show (UInt16.ofNat c).toNat = c
    rw [UInt16.toNat_ofNat']
    omega
  have hK : FileChain s5.sdb (firstClus s5 i) [c] := by
    have hmark : getFatNextCluster s5.sdb c = 0xFFF := by
      rw [← hs5]
      exact getFat_putFat_self _ _ hc.lt
    rw [hfst]
    refine ⟨⟨rfl, ?_, ?_⟩, List.cons_ne_nil _ _, fun k hk => ?_⟩
    · unfold IsEnd
      omega
    · show IsEnd (getFatNextCluster s5.sdb c)
      rw [hmark]
      decide
    · rw [List.mem_singleton.mp hk]
      exact ⟨hge, hle⟩
  have htwo' : TwoFree (s5.sdb (c + 31)) := by
    rw [← hs5]
    show TwoFree (putFat d' c 0xFFF (c + 31))
    rwa [putFat_outside _ _ hc.lt (.inr (by omega))]
  have hfa : ∀ j, dir = .slot j → (s5.filelist j).used = true := by
    rintro j rfl
    have hju := h.tree.linked.used j hdir.1
    rwa [hother j (ne_of_used hi hju)]
  have hcard := card_freeSlots_take hi hused hother
  obtain ⟨hok, herr⟩ := writeEmptyDirectory_slots hK htwo' hused hfa
  constructor
  · intro h3
    obtain ⟨s6, hdots⟩ := hok (by omega)
    rw [← hs5] at hdots
    rw [← hnode] at hentry hdots
    exact ⟨_, createEmptyDirectory_path hexist hclus hget hentry hfat hdots⟩
  · intro h3
    have hnull := herr (by omega)
    have hneg : ¬ ((c : Int) = -1) := clusID_ne_failure c
    rw [← hs5] at hnull
    simp only [createEmptyDirectory, hexist, hclus, hget, hnode, hentry, hfat, hnull, bind,
      Except.bind, hneg, if_false, Bool.not_true, Bool.false_eq_true]

/-- **When a creation is all-or-nothing.** -/
theorem creation_atomic_iff (h : Mounted s f chain) (hdir : LiveRef s f dir)
    (hfree : ∃ c, IsFree s.sdb c) (filename : Name) (attr : UInt8) (wrtTime wrtDate : UInt16) :
    (CreationAtomic s f chain (createEmptyFile s dir filename attr wrtTime wrtDate) ↔
      (NameUnused s f dir filename → 1 ≤ (freeSlots s).card)) ∧
    (CreationAtomic s f chain (createEmptyDirectory s dir filename wrtTime wrtDate) ↔
      (NameUnused s f dir filename →
        3 ≤ (freeSlots s).card ∨ (RootFull s dir ∧ 1 ≤ (freeSlots s).card))) := by
  by_cases hname : NameUnused s f dir filename
  · refine ⟨⟨fun hat _ => ?_, fun hslot => ?_⟩, fun hat _ => ?_, fun hslot => ?_⟩
    · by_contra h0
      exact not_creationAtomic (create_noSlot h hdir hfree hname (by omega) attr).1 hat
    · exact createEmptyFile_atomic h hdir hfree hname (hslot hname)
    · by_contra hfew
      by_cases h0 : (freeSlots s).card = 0
      · exact not_creationAtomic (create_noSlot h hdir hfree hname h0 0x10).2 hat
      · have hroot : ¬ RootFull s dir := fun hr => hfew (.inr ⟨hr, by omega⟩)
        refine not_creationAtomic ?_ hat
        exact (createEmptyDirectory_slots h hdir hfree hname hroot (by omega)).2 (by omega)
    · by_cases hroot : RootFull s dir
      · have h1 : 1 ≤ (freeSlots s).card := (hslot hname).elim (fun h3 => by omega) And.right
        exact createEmptyDirectory_rootFull h hdir hfree hname hroot h1
      · have h3 : 3 ≤ (freeSlots s).card :=
          (hslot hname).resolve_right fun hr => hroot hr.1
        obtain ⟨s', hrun⟩ :=
          (createEmptyDirectory_slots h hdir hfree hname hroot (by omega)).1 h3
        exact .succeeded hrun
  · -- the name is taken: nothing but a message
    obtain ⟨p, hp⟩ := isFileExist_some h.tree hdir.hasRef hname
    have hfile : createEmptyFile s dir filename attr wrtTime wrtDate =
        .ok (false, s.printf (nameTakenMsg (s.file p).attr)) := by
      rw [createEmptyFile, hp]
      rfl
    have hdirectory : createEmptyDirectory s dir filename wrtTime wrtDate =
        .ok (false, s.printf (nameTakenMsg (s.file p).attr)) := by
      rw [createEmptyDirectory, hp]
      rfl
    constructor
    · exact iff_of_true (.inr ⟨_, hfile, .printf _⟩) fun hn => absurd hn hname
    · exact iff_of_true (.inr ⟨_, hdirectory, .printf _⟩) fun hn => absurd hn hname

end Creation

/-- An empty volume after 49 directories have been made and removed: each has left the slots of
its `.` and `..` behind. -/
def leakedFs : Fs :=
  bootedFs (smallVolume (fatHead 0 0) (Bytes.zero 512) (Bytes.zero 512)) none fun i =>
    if 1 ≤ i.val ∧ i.val ≤ 98 then { blankFile with used := true, filename := dotName 1 }
    else blankFile

theorem leakedFs_mounted : Mounted leakedFs .nil fun _ => [] :=
  ⟨⟨rfl, List.nodup_nil⟩, by decide, by decide, fun _ hi => absurd hi.1 List.not_mem_nil,
    fun _ _ hi => absurd hi.1 List.not_mem_nil⟩

/-- A new file in a directory with a file. -/
theorem creation_atomic_sample : CreationAtomic oneFileFs (.cons 0 .nil .nil) (fun _ => [2])
    (createEmptyFile oneFileFs .rootfile (dotName 3) 0x20 0 0) :=
  (creation_atomic_iff oneFileFs_mounted (show LiveRef _ _ .rootfile from trivial)
    ⟨4, by decide⟩ (dotName 3) 0x20 0 0).1.mpr
      fun _ => Finset.card_pos.mpr ⟨1, mem_freeSlots.mpr rfl⟩

/-- With two free slots, a new directory has no slot for its `..`. -/
theorem creation_dereferences_null :
    Mounted leakedFs .nil (fun _ => []) ∧ (∃ c, IsFree leakedFs.sdb c) ∧
      createEmptyDirectory leakedFs .rootfile sampleName 0 0 = .error .nullDeref ∧
      ¬ CreationAtomic leakedFs .nil (fun _ => [])
        (createEmptyDirectory leakedFs .rootfile sampleName 0 0) := by
  have hfree : ∃ c, IsFree leakedFs.sdb c := ⟨4, by decide⟩
  have hname : NameUnused leakedFs .nil .rootfile sampleName :=
    fun i hi => absurd hi List.not_mem_nil
  have hroot : ¬ RootFull leakedFs .rootfile := fun hr => hr.2 19 (by decide) (by decide)
  have hcard : (freeSlots leakedFs).card = 2 := by decide +kernel
  have hnull : createEmptyDirectory leakedFs .rootfile sampleName 0 0 = .error .nullDeref :=
    (createEmptyDirectory_slots leakedFs_mounted (show LiveRef _ _ .rootfile from trivial) hfree
      hname hroot (by omega)).2 (by omega)
  exact ⟨leakedFs_mounted, hfree, hnull, not_creationAtomic hnull⟩

end GwOS
