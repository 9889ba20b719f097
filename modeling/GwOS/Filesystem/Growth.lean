import GwOS.Filesystem.Agreement
import GwOS.Filesystem.Removal

/-!
# A directory that has to grow

`create_dir_entry` walks over the clusters of a directory to a free slot. When there is none it
appends a cluster, but by then the variable `clusID` holds the end mark of the chain instead of
its last cluster: the number of the new cluster is written to an entry that is not in the table,
into the second copy of the FAT and into the root directory, and the chain stays as it is.

- `createDirEntry_overflow`: what the call leaves when every slot is in use.
- `createDirEntry_added_iff`: the directory gets its entry exactly when it has a free slot.
-/

namespace GwOS

/-- The directory `dir` reads as before, with one entry more. Its chain is the old one, perhaps
with one cluster more that was free, and nothing outside of this chain has changed. -/
def EntryAdded (s s' : Fs) (chain : Fin 100 → List Nat) (dir : Fin 100) (e : Entry) : Prop :=
  ∃ K', FileChain s'.sdb (firstClus s dir) K' ∧
    (K' = chain dir ∨ ∃ c, IsFree s.sdb c ∧ K' = chain dir ++ [c]) ∧
    (∃ l₁ l₂, dirEntries s.sdb ((chain dir).map (· + 31)) = l₁ ++ l₂ ∧
      dirEntries s'.sdb (K'.map (· + 31)) = l₁ ++ e :: l₂) ∧
    Touches s.sdb s'.sdb {k | k ∈ K'} (sectorsOf K')

/-- An entry for an end mark is in the second copy of the FAT, and its copy in the root
directory. -/
theorem putFat_endMark (d : Disk) {e : Nat} (data : Nat) (he : IsEnd e) {sec : Nat} (h12 : sec ≠ 12)
    (h21 : sec ≠ 21) : putFat d e data sec = d sec := by
  have hpos : fatPos e / 512 = 11 ∧ (fatPos e + 1) / 512 = 11 := by
    unfold IsEnd at he
    unfold fatPos
    omega
  rw [putFat, pokeFat_other _ _ (by omega) (by omega), pokeFat_other _ _ (by omega) (by omega)]

section Growth

variable {s : Fs} {f : Forest (Fin 100)} {chain : Fin 100 → List Nat} {dir : Fin 100}

/-- **`create_dir_entry` without a free slot.** The call succeeds; the table has got an entry for
the new cluster, but none that leads to it. -/
theorem createDirEntry_overflow (h : Mounted s f chain) (hd : Live s f dir)
    (hfree : ∃ c, IsFree s.sdb c)
    (hfull : ∀ x ∈ dirSectors chain (.slot dir), ¬ HasFreeSlot (s.sdb x)) (file : FileRef) :
    ∃ c d', IsFree s.sdb c ∧ createDirEntry s (.slot dir) file = .ok (true, { s with sdb := d' }) ∧
      (∀ k, k < fatEntries → k ≠ c → getFatNextCluster d' k = getFatNextCluster s.sdb k) ∧
      (∀ sec, 19 ≤ sec → sec ≠ 21 → sec ≠ c + 31 → d' sec = s.sdb sec) ∧
      d' (c + 31) = putDirEntry (Bytes.zero 512) 0 (s.file file) := by
  have hdir : LiveRef s f (.slot dir) := hd
  have hon : DirOn s (.slot dir) (dirSectors chain (.slot dir)) := h.dirOn hdir
  obtain ⟨hroot, -⟩ | ⟨-, e, he, hrun⟩ := createDirEntry_full hon file hfull
  · cases hroot
  have hlt : e < 65536 := by
    unfold IsEnd at he
    omega
  obtain ⟨c, happ, hc, -⟩ := appendACluster_ok hlt h.volume.entry0 h.volume.entry1 hfree
  have hle := hc.2.1
  have hge := hc.1
  generalize hd2 : putFat (putFat (Function.update s.sdb (c + 31) (Bytes.zero 512)) e c) c 0xFFF = d2
    at happ
  -- the sectors behind the FAT
  have hout : ∀ sec, 19 ≤ sec → sec ≠ 21 →
      d2 sec = Function.update s.sdb (c + 31) (Bytes.zero 512) sec := by
    intro sec hsec h21
    rw [← hd2, putFat_outside _ _ hc.lt (.inr hsec), putFat_endMark _ _ he (by omega) h21]
  have hzero : d2 (c + 31) = Bytes.zero 512 := by
    rw [hout _ (by omega) (by omega), Function.update_self]
  have hslot : HasFreeSlot (d2 (c + 31)) := by
    rw [hzero]
    exact ⟨0, by decide, by decide⟩
  obtain ⟨off, hoff, hput⟩ := createDirEntryInSector_ok (s.file file) (sec_le hle) hslot
  rw [hzero] at hoff hput
  obtain rfl : 0 = off := Option.some.inj (find_zero.symm.trans hoff)
  refine ⟨c, Function.update d2 (c + 31) (putDirEntry (Bytes.zero 512) 0 (s.file file)), hc, ?_,
    fun k hk hkc => ?_, fun sec hsec h21 hne => ?_, Function.update_self ..⟩
  · rw [hrun, happ]
    show (createDirEntryInSector d2 (u16 (c + clusToSec)) (s.file file) >>= _) = _
    rw [u16_sec hle, hput]
    rfl
  · rw [getFat_update _ _ (by omega) hk, ← hd2, getFat_putFat_ne _ _ hc.lt hk hkc,
      getFat_of_copy1 (fun sec h1 h9 => putFat_endMark _ _ he (by omega) (by omega)) hk,
      getFat_update _ _ (by omega) hk]
  · rw [Function.update_of_ne hne, hout sec hsec h21, Function.update_of_ne hne]

/-- So a walk of the chain does not find the new entry. -/
theorem createDirEntry_not_added (h : Mounted s f chain) (hd : Live s f dir)
    (hfree : ∃ c, IsFree s.sdb c)
    (hfull : ∀ x ∈ dirSectors chain (.slot dir), ¬ HasFreeSlot (s.sdb x)) (file : FileRef) :
    ¬ ∃ s', createDirEntry s (.slot dir) file = .ok (true, s') ∧
      EntryAdded s s' chain dir (s.file file).entry := by
  have hK := h.volume.chains dir hd
  obtain ⟨c, d', hc, hrun, hfat, hdata, -⟩ := createDirEntry_overflow h hd hfree hfull file
  rintro ⟨s', hrun', K', hK', -, ⟨l₁, l₂, hold, hnew⟩, -⟩
  cases hrun.symm.trans hrun'
  have hne : ∀ k ∈ chain dir, k ≠ c := by
    rintro k hk rfl
    exact hK.not_free hk hc
  have hsame : FileChain d' (firstClus s dir) (chain dir) :=
    hK.congr fun k hk => hfat k (hK.lt_fatEntries hk) (hne k hk)
  obtain rfl : chain dir = K' := hsame.unique hK'
  have hreads : dirEntries d' ((chain dir).map (· + 31)) =
      dirEntries s.sdb ((chain dir).map (· + 31)) := by
    refine dirEntries_congr fun x hx => ?_
    obtain ⟨k, hk, rfl⟩ := List.mem_map.mp hx
    have hk2 := (hK.range k hk).1
    have hkc := hne k hk
    exact hdata _ (by omega) (by omega) (by omega)
  have hlen := congrArg List.length (hnew.symm.trans (hreads.trans hold))
  rw [List.length_append, List.length_append, List.length_cons] at hlen
  omega

/-- **When a directory gets its entry.** The name is one that a slot in use can have. -/
theorem createDirEntry_added_iff (h : Mounted s f chain) (hd : Live s f dir)
    (hfree : ∃ c, IsFree s.sdb c) (file : FileRef) (h0 : (s.file file).filename.get 0 ≠ 0x00)
    (hE5 : (s.file file).filename.get 0 ≠ 0xE5) :
    (∃ s', createDirEntry s (.slot dir) file = .ok (true, s') ∧
        EntryAdded s s' chain dir (s.file file).entry) ↔
      ∃ x ∈ dirSectors chain (.slot dir), HasFreeSlot (s.sdb x) := by
  have hK := h.volume.chains dir hd
  have hdir : LiveRef s f (.slot dir) := hd
  constructor
  · intro hadded
    by_contra hnone
    have hfull : ∀ x ∈ dirSectors chain (.slot dir), ¬ HasFreeSlot (s.sdb x) :=
      fun x hx hfs => hnone ⟨x, hx, hfs⟩
    exact createDirEntry_not_added h hd hfree hfull file hadded
  · intro hslot
    obtain ⟨x, off, hx, hoff, hrun⟩ := createDirEntry_ok (h.dirOn hdir) file hslot
    have hx' := hx
    obtain ⟨k, hk, rfl⟩ := List.mem_map.mp hx'
    have hk2 := (hK.range k hk).1
    refine ⟨_, hrun, chain dir, hK.congr fun y hy => ?_, .inl rfl, ?_, ?_⟩
    · exact getFat_update _ _ (by omega) (hK.lt_fatEntries hy)
    · refine dirEntries_put (dirSectors_nodup h hdir) hx (fun y _ hne => ?_) ?_
        (List.mem_of_find?_eq_some hoff) (List.find?_some hoff) h0 hE5
      · exact Function.update_of_ne hne _ _
      · exact Function.update_self ..
    · exact Touches.update _ _ (by omega) ⟨k, hk, rfl⟩

end Growth

/-- An entry in a directory with 13 free slots. -/
theorem createDirEntry_added_sample :
    ∃ s', createDirEntry dirTreeFs (.slot 0) (.slot 3) = .ok (true, s') ∧
      EntryAdded dirTreeFs s' dirTreeChain 0 (dirTreeNodes 3).entry :=
  (createDirEntry_added_iff dirTreeFs_mounted ⟨by decide, by decide⟩ ⟨4, by decide⟩ (.slot 3)
    (by decide) (by decide)).mpr ⟨33, by decide, by decide⟩

/-- The 17th entry of a directory is in no cluster of it. -/
theorem createDirEntry_lost : ¬ ∃ s', createDirEntry fullDirFs (.slot 0) (.slot 0) = .ok (true, s') ∧
    EntryAdded fullDirFs s' (fun _ => [2]) 0 (fullDirNodes 0).entry :=
  createDirEntry_not_added fullDirFs_mounted ⟨by decide, by decide⟩ ⟨3, by decide⟩ (by decide) _

end GwOS
