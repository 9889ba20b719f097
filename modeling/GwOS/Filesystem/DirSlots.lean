import GwOS.Filesystem.Directory

/-!
# The 16 entries of a directory sector

`create_dir_entry_in_sector` takes the first slot that starts with `0x00` or `0xE5`. As long as no
name starts with one of these bytes, a filled slot is found full the next time, and the calls go
through the free slots in their order.

- `freeEntries_put`: one call takes the first slot off the list of free ones.
- `createEntries_ok`: several calls fill as many slots as there are.
-/

namespace GwOS

/-- The offsets of the free slots of a sector. -/
def freeEntries (buff : Sector) : List Nat := dirEntryOffsets.filter (slotFree buff)

/-- The name cannot be taken for that of a free slot. -/
def NameTaken (file : File) : Prop := file.filename.get 0 ≠ 0x00 ∧ file.filename.get 0 ≠ 0xE5

instance (file : File) : Decidable (NameTaken file) := inferInstanceAs (Decidable (_ ∧ _))

/-- Calls of `create_dir_entry_in_sector` one after the other, with what they return. -/
def createEntries (sec : Nat) : Disk → List File → Except Fault (List Bool × Disk)
  | d, [] => .ok ([], d)
  | d, file :: files => do
    let (done, d) ← createDirEntryInSector d sec file
    let (rest, d) ← createEntries sec d files
    .ok (done :: rest, d)

/-! ## Slots -/

theorem dirEntryOffsets_nodup : dirEntryOffsets.Nodup := by decide

theorem freeEntries_nodup (buff : Sector) : (freeEntries buff).Nodup := dirEntryOffsets_nodup.filter _

theorem freeEntries_length_le (buff : Sector) : (freeEntries buff).length ≤ 16 :=
  (List.length_filter_le ..).trans_eq (by decide)

theorem mem_freeEntries {buff : Sector} {off : Nat} :
    off ∈ freeEntries buff ↔ off ∈ dirEntryOffsets ∧ slotFree buff off = true := List.mem_filter

theorem offset_fits {off : Nat} (h : off ∈ dirEntryOffsets) : off + 32 ≤ 512 := by
  obtain ⟨i, hi, rfl⟩ := mem_dirEntryOffsets.mp h
  omega

/-- Two slots do not overlap. -/
theorem offsets_apart {off off' : Nat} (h : off ∈ dirEntryOffsets) (h' : off' ∈ dirEntryOffsets)
    (hne : off' ≠ off) : off' + 32 ≤ off ∨ off + 32 ≤ off' := by
  obtain ⟨i, hi, rfl⟩ := mem_dirEntryOffsets.mp h
  obtain ⟨j, hj, rfl⟩ := mem_dirEntryOffsets.mp h'
  omega

theorem hasFreeSlot_iff {buff : Sector} : HasFreeSlot buff ↔ freeEntries buff ≠ [] := by
  rw [ne_eq, freeEntries, List.filter_eq_nil_iff, HasFreeSlot]
  push Not
  rfl

/-- The slot the search finds is the first free one. -/
theorem find_freeEntries {buff : Sector} {off : Nat} {rest : List Nat}
    (h : freeEntries buff = off :: rest) : dirEntryOffsets.find? (slotFree buff) = some off := by
  rw [← List.head?_filter]
  exact congrArg List.head? h

section Put

variable {buff : Sector} {file : File} {off : Nat}

/-- A slot with an entry is not free. -/
theorem slotFree_put_self (hname : NameTaken file) (hoff : off ∈ dirEntryOffsets) :
    slotFree (putDirEntry buff off file) off = false := by
  have hfirst := get_putDirEntry_name buff file (offset_fits hoff) (by decide : 0 < 11)
  rw [Nat.add_zero] at hfirst
  rw [slotFree, hfirst, Bool.or_eq_false_iff]
  exact ⟨beq_eq_false_iff_ne.mpr hname.1, beq_eq_false_iff_ne.mpr hname.2⟩

theorem slotFree_put_ne (hoff : off ∈ dirEntryOffsets) {off' : Nat} (hoff' : off' ∈ dirEntryOffsets)
    (hne : off' ≠ off) : slotFree (putDirEntry buff off file) off' = slotFree buff off' := by
  have hapart := offsets_apart hoff hoff' hne
  rw [slotFree, slotFree, get_putDirEntry_ne _ _ (by omega)]

/-- **One call takes the first slot** off the list of free ones. -/
theorem freeEntries_put (hname : NameTaken file) {rest : List Nat} (h : freeEntries buff = off :: rest) :
    freeEntries (putDirEntry buff off file) = rest := by
  have hoff : off ∈ dirEntryOffsets := (mem_freeEntries.mp (h ▸ List.mem_cons_self)).1
  have hnot : off ∉ rest := by
    have hnodup := freeEntries_nodup buff
    rw [h] at hnodup
    exact (List.nodup_cons.mp hnodup).1
  have hsplit : freeEntries (putDirEntry buff off file) = (freeEntries buff).filter (· ≠ off) := by
    rw [freeEntries, freeEntries, List.filter_filter]
    refine List.filter_congr fun off' hoff' => ?_
    by_cases hne : off' = off
    · rw [hne, slotFree_put_self hname hoff]
      simp
    · rw [slotFree_put_ne hoff hoff' hne]
      simp [hne]
  rw [hsplit, h, List.filter_cons_of_neg (by simp), List.filter_eq_self]
  intro x hx
  simpa using fun he : x = off => hnot (he ▸ hx)

end Put

/-! ## Reading an entry back -/

/-- What `make_file_from_sector` decodes is the entry at the offset; it returns a null pointer only
if all slots of `filelist` are in use. -/
theorem makeFileFromSector_entry (s : Fs) (fa : FileRef) (buff : Sector) (off : Nat) :
    (∀ r s', makeFileFromSector s fa buff off = (some r, s') → (s'.file r).entry = entryAt buff off) ∧
      ((makeFileFromSector s fa buff off).1 = none ↔ ∀ i, (s.filelist i).used = true) := by
  unfold makeFileFromSector getEmptyFile
  cases hslot : emptySlot s with
  | none =>
    constructor
    · intro r s' h
      cases h
    · refine iff_of_true rfl fun i => ?_
      simpa using List.find?_eq_none.mp hslot i (List.mem_finRange i)
  | some i =>
    constructor
    · intro r s' h
      simp only [Prod.mk.injEq, Option.some.injEq] at h
      obtain ⟨rfl, rfl⟩ := h
      rw [Fs.file_setFile_self]
      rfl
    · refine iff_of_false (by simp) fun hall => ?_
      have hfree := List.find?_some hslot
      simp [hall i] at hfree

/-- One call, by the list of free slots. -/
theorem createDirEntryInSector_slots {d : Disk} {sec : Nat} (hsec : sec ≤ secCnt) (file : File) :
    createDirEntryInSector d sec file = .ok (match freeEntries (d sec) with
      | [] => (false, d)
      | off :: _ => (true, Function.update d sec (putDirEntry (d sec) off file))) := by
  cases hfree : freeEntries (d sec) with
  | nil => exact createDirEntryInSector_full file hsec fun h => hasFreeSlot_iff.mp h hfree
  | cons off rest =>
    obtain ⟨off', hfind, hrun⟩ := createDirEntryInSector_ok file hsec
      (hasFreeSlot_iff.mpr (by rw [hfree]; exact List.cons_ne_nil _ _))
    rw [find_freeEntries hfree] at hfind
    rw [hrun, ← Option.some.inj hfind]

/-- The slots filled by several calls, each with its entry, and everything beside them as before. -/
structure Filled (before after : Sector) (files : List File) : Prop where
  entries : ∀ p ∈ (freeEntries before).zip files, entryAt after p.1 = p.2.entry
  other : ∀ k, (∀ off ∈ (freeEntries before).take files.length, k < off ∨ off + 32 ≤ k) →
    after.get k = before.get k
  left : freeEntries after = (freeEntries before).drop files.length

/-- No slot is free, so another file changes nothing. -/
theorem Filled.full {before after : Sector} {files : List File} (h : Filled before after files)
    (hfree : freeEntries before = []) (file : File) : Filled before after (file :: files) := by
  refine ⟨by simp [hfree], fun k _ => h.other k (by simp [hfree]), ?_⟩
  rw [h.left, hfree, List.drop_nil, List.drop_nil]

/-- The first free slot is filled, and the later calls do not come back to it. -/
theorem Filled.cons {before after : Sector} {file : File} {files : List File} {off : Nat}
    {rest : List Nat} (hname : NameTaken file) (hfree : freeEntries before = off :: rest)
    (h : Filled (putDirEntry before off file) after files) : Filled before after (file :: files) := by
  have hfree1 : freeEntries (putDirEntry before off file) = rest := freeEntries_put hname hfree
  have hoff : off ∈ dirEntryOffsets := (mem_freeEntries.mp (hfree ▸ List.mem_cons_self)).1
  have hnodup := freeEntries_nodup before
  rw [hfree] at hnodup
  have hlater : ∀ k, off ≤ k → k < off + 32 → after.get k = (putDirEntry before off file).get k := by
    intro k hlow hhigh
    refine h.other k fun off' hoff' => ?_
    rw [hfree1] at hoff'
    have hmem := List.mem_of_mem_take hoff'
    have hin : off' ∈ dirEntryOffsets := by
      have hm : off' ∈ freeEntries before := by
        rw [hfree]
        exact List.mem_cons_of_mem _ hmem
      exact (mem_freeEntries.mp hm).1
    have hne : off' ≠ off := fun he => (List.nodup_cons.mp hnodup).1 (he ▸ hmem)
    have := offsets_apart hoff hin hne
    omega
  refine ⟨fun p hp => ?_, fun k hk => ?_, ?_⟩
  · rw [hfree, List.zip_cons_cons] at hp
    rcases List.mem_cons.mp hp with rfl | hp
    · rw [entryAt_congr hlater, entryAt_putDirEntry _ _ (offset_fits hoff)]
    · exact h.entries p (by rwa [hfree1])
  · rw [hfree, List.length_cons, List.take_succ_cons] at hk
    have hhead := hk off List.mem_cons_self
    rw [h.other k fun off' hoff' => hk off' (List.mem_cons_of_mem _ (by rwa [hfree1] at hoff')),
      get_putDirEntry_ne _ _ hhead]
  · rw [h.left, hfree1, hfree, List.length_cons, List.drop_succ_cons]

/-- **Several calls** fill the free slots in their order, as many as there are. The induction is on
the files. -/
theorem createEntries_ok {sec : Nat} (hsec : sec ≤ secCnt) {files : List File}
    (hnames : ∀ file ∈ files, NameTaken file) (d : Disk) :
    ∃ d', createEntries sec d files =
        .ok ((List.range files.length).map fun j => decide (j < (freeEntries (d sec)).length), d') ∧
      Filled (d sec) (d' sec) files ∧ ∀ sec', sec' ≠ sec → d' sec' = d sec' := by
  induction files generalizing d with
  | nil =>
    exact ⟨d, rfl, ⟨by simp, fun _ _ => rfl, rfl⟩, fun _ _ => rfl⟩
  | cons file files ih =>
    have hfile := hnames file List.mem_cons_self
    have hrest := fun f hf => hnames f (List.mem_cons_of_mem _ hf)
    have hcall := createDirEntryInSector_slots (d := d) hsec file
    have hrange : ∀ f : Nat → Bool, (List.range (file :: files).length).map f =
        f 0 :: (List.range files.length).map fun j => f (j + 1) := by
      intro f
      rw [List.length_cons, List.range_succ_eq_map, List.map_cons, List.map_map]
      rfl
    cases hfree : freeEntries (d sec) with
    | nil =>
      rw [hfree] at hcall
      obtain ⟨d', hrun, hfilled, hother⟩ := ih hrest d
      rw [hfree] at hrun
      refine ⟨d', ?_, hfilled.full hfree file, hother⟩
      rw [createEntries, hcall, hrange]
      show (createEntries sec d files >>= _) = _
      rw [hrun]
      rfl
    | cons off rest =>
      rw [hfree] at hcall
      set d1 := Function.update d sec (putDirEntry (d sec) off file) with hd1
      have hd1sec : d1 sec = putDirEntry (d sec) off file := Function.update_self ..
      obtain ⟨d', hrun, hfilled, hother⟩ := ih hrest d1
      rw [hd1sec] at hrun hfilled
      rw [freeEntries_put hfile hfree] at hrun
      refine ⟨d', ?_, hfilled.cons hfile hfree, fun sec' hsec' => ?_⟩
      · rw [createEntries, hcall, hrange]
        show (createEntries sec d1 files >>= _) = _
        rw [hrun]
        simp only [bind, Except.bind, List.length_cons, Nat.succ_lt_succ_iff, Nat.succ_pos, decide_true]
      · rw [hother sec' hsec', hd1, Function.update_of_ne hsec']

/-- **Directory entries.** A call returns true exactly if a slot is free, and fills the first one with
an entry that `make_file_from_sector` decodes, without touching the others; else it leaves the sector
alone. Several calls fill that many different slots, until none is free. -/
theorem dirEntry_codec {sec : Nat} (hsec : sec ≤ secCnt) (d : Disk) :
    (∀ file, NameTaken file → ∃ done d', createDirEntryInSector d sec file = .ok (done, d') ∧
      (done = true ↔ ∃ off ∈ dirEntryOffsets, slotFree (d sec) off = true) ∧
      (done = true → ∃ off, dirEntryOffsets.find? (slotFree (d sec)) = some off ∧
        (∀ s fa, ((makeFileFromSector s fa (d' sec) off).1 = none ↔ ∀ i, (s.filelist i).used = true) ∧
          ∀ r s', makeFileFromSector s fa (d' sec) off = (some r, s') →
            (s'.file r).entry = file.entry) ∧
        ∀ k, (k < off ∨ off + 32 ≤ k) → (d' sec).get k = (d sec).get k) ∧
      (done = false → d' sec = d sec) ∧ ∀ sec', sec' ≠ sec → d' sec' = d sec') ∧
    ∀ files, (∀ file ∈ files, NameTaken file) →
      (freeEntries (d sec)).Nodup ∧ (freeEntries (d sec)).length ≤ 16 ∧
      ∃ d', createEntries sec d files =
          .ok ((List.range files.length).map fun j => decide (j < (freeEntries (d sec)).length), d') ∧
        Filled (d sec) (d' sec) files ∧ ∀ sec', sec' ≠ sec → d' sec' = d sec' := by
  refine ⟨fun file hname => ?_, fun files hnames => ⟨freeEntries_nodup _, freeEntries_length_le _,
    createEntries_ok hsec hnames d⟩⟩
  have hcall := createDirEntryInSector_slots (d := d) hsec file
  cases hfree : freeEntries (d sec) with
  | nil =>
    rw [hfree] at hcall
    have hnone : ¬ HasFreeSlot (d sec) := fun h => hasFreeSlot_iff.mp h hfree
    exact ⟨false, d, hcall, iff_of_false Bool.false_ne_true hnone,
      fun h => absurd h Bool.false_ne_true, fun _ => rfl, fun _ _ => rfl⟩
  | cons off rest =>
    rw [hfree] at hcall
    have hsome : HasFreeSlot (d sec) := hasFreeSlot_iff.mpr (by rw [hfree]; exact List.cons_ne_nil _ _)
    have hoff : off ∈ dirEntryOffsets := (mem_freeEntries.mp (hfree ▸ List.mem_cons_self)).1
    have hput : Function.update d sec (putDirEntry (d sec) off file) sec =
        putDirEntry (d sec) off file := Function.update_self ..
    refine ⟨true, _, hcall, iff_of_true rfl hsome, fun _ => ⟨off, find_freeEntries hfree, fun s fa => ?_,
      fun k hk => ?_⟩, fun h => absurd h (by decide), fun sec' hsec' => Function.update_of_ne hsec' ..⟩
    · obtain ⟨hdecode, hnull⟩ := makeFileFromSector_entry s fa (putDirEntry (d sec) off file) off
      rw [hput]
      refine ⟨hnull, fun r s' h => ?_⟩
      rw [hdecode r s' h, entryAt_putDirEntry _ _ (offset_fits hoff)]
    · rw [hput, get_putDirEntry_ne _ _ hk]

/-- The entry of one file in an empty sector of the root directory, twice. -/
theorem dirEntry_codec_twice : ∃ d', createEntries 19 (fun _ => Bytes.zero 512) [oneFile, oneFile] =
    .ok ([true, true], d') ∧ entryAt (d' 19) 0 = oneFile.entry ∧ entryAt (d' 19) 32 = oneFile.entry := by
  obtain ⟨-, hmany⟩ := dirEntry_codec (by decide : 19 ≤ secCnt) fun _ => Bytes.zero 512
  obtain ⟨-, -, d', hrun, hfilled, -⟩ := hmany [oneFile, oneFile] (by decide)
  have hfree : freeEntries (Bytes.zero 512) = dirEntryOffsets :=
    List.filter_eq_self.mpr fun off _ => by simp [slotFree]
  have hentries := hfilled.entries
  rw [hfree] at hrun hentries
  exact ⟨d', hrun, hentries (0, oneFile) (by decide), hentries (32, oneFile) (by decide)⟩

end GwOS
