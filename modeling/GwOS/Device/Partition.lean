import GwOS.Device.Ide
import Mathlib.Data.List.Basic

/-!
# The partition scan (`device/ide.c`)

`partition_scan` reads the boot record at an address, records its partitions and calls itself
on the boot records that the extended entries lead to. What it records is counted in the global
variables `p_no` and `l_no`, and the first extended entry that it meets sets `ext_lba_base`,
which no call resets.

`BootTree` is what a disk says: the partitions of a boot record and, for each extended entry,
the tree of the record there. A disk whose extended entries run in a cycle has no tree. The calls nest
as deep as the tree; the machine's stack of 4 KiB, which holds their frames, is not modelled.

- `Describes.run`: a scan of a disk with a tree, when the counters and the heap suffice.
- `describes_of_scan`: a scan that returns every buffer has seen a tree.
- `partitionScan_copes_iff`: the disks that the scan copes with.
-/

namespace GwOS

open Window

/-- `struct partition_table_entry`, the fields that are read. -/
structure PartitionTableEntry where
  fsType : UInt8
  startLba : UInt32
  secCnt : UInt32
  deriving DecidableEq, Repr

/-- A little-endian `uint32_t` of a buffer. -/
def uint32At (buf : Buffer) (off : Nat) : UInt32 :=
  UInt32.ofNat ((buf off).toNat + (buf (off + 1)).toNat * 2 ^ 8 + (buf (off + 2)).toNat * 2 ^ 16 +
    (buf (off + 3)).toNat * 2 ^ 24)

/-- `partition_table` of a `struct boot_sector`: four entries of 16 bytes. -/
def partitionTable (bs : Buffer) : List PartitionTableEntry :=
  (List.range 4).map fun i => ⟨bs (446 + 16 * i + 4), uint32At bs (446 + 16 * i + 8),
    uint32At bs (446 + 16 * i + 12)⟩

/-- `struct disk`, less the arrays of its partitions. -/
structure IdeDisk where
  name : String
  /-- `dev_no`, whether the disk is the slave. -/
  devNo : Bool
  deriving DecidableEq, Repr

/-- `struct partition`, the fields that the scan writes. -/
structure Partition where
  startLba : UInt32
  secCnt : UInt32
  myDisk : IdeDisk
  name : String
  deriving DecidableEq, Repr

/-- The node `part_tag` of `prim_parts[idx]` or `logic_parts[idx]` of a disk. -/
structure PartTag where
  disk : IdeDisk
  logic : Bool
  idx : Nat
  deriving DecidableEq, Repr

/-- The variables of the scan of one disk. -/
structure ScanState where
  drive : Drive
  extLbaBase : UInt32
  pNo : UInt8
  lNo : UInt8
  primParts : Fin 4 → Partition
  logicParts : Fin 8 → Partition
  partitionList : List PartTag
  /-- How many buffers of the size of a sector `sys_malloc` can still give. -/
  heap : Nat

namespace ScanState

/-- `sys_malloc(sizeof(struct boot_sector))`. The result is not checked, and `ide_read` writes
through it. -/
def mallocSector (s : ScanState) : Except Fault ScanState :=
  if s.heap = 0 then .error .nullDeref else .ok { s with heap := s.heap - 1 }

/-- `sys_free(bs)`. -/
def freeSector (s : ScanState) : ScanState := { s with heap := s.heap + 1 }

/-- What is written to `prim_parts[i]`. -/
def primPart (hd : IdeDisk) (extLba : UInt32) (i : Nat) (p : PartitionTableEntry) : Partition where
  startLba := extLba + p.startLba
  secCnt := p.secCnt
  myDisk := hd
  name := hd.name ++ toString (i + 1)

/-- `prim_parts[p_no]` is written, its node appended to the list, and `p_no` incremented. -/
def putPrim (s : ScanState) (hd : IdeDisk) (extLba : UInt32) (p : PartitionTableEntry)
    (h : s.pNo.toNat < 4) : ScanState :=
  { s with
    primParts := Function.update s.primParts ⟨s.pNo.toNat, h⟩ (primPart hd extLba s.pNo.toNat p)
    partitionList := s.partitionList ++ [⟨hd, false, s.pNo.toNat⟩]
    pNo := s.pNo + 1 }

/-- The branch of the primary partitions. -/
def recordPrim (s : ScanState) (hd : IdeDisk) (extLba : UInt32) (p : PartitionTableEntry) :
    Except Fault ScanState :=
  if h : s.pNo.toNat < 4 then
    if (s.putPrim hd extLba p h).pNo < 4 then .ok (s.putPrim hd extLba p h) else .error .assert
  else .error .outOfBounds

/-- The same for `logic_parts[l_no]`. -/
def putLogic (s : ScanState) (hd : IdeDisk) (extLba : UInt32) (p : PartitionTableEntry)
    (h : s.lNo.toNat < 8) : ScanState :=
  { s with
    logicParts := Function.update s.logicParts ⟨s.lNo.toNat, h⟩
      ⟨extLba + p.startLba, p.secCnt, hd, hd.name ++ toString (s.lNo.toNat + 5)⟩
    partitionList := s.partitionList ++ [⟨hd, true, s.lNo.toNat⟩]
    lNo := s.lNo + 1 }

/-- The branch of the logical partitions, up to the test of `l_no`. -/
def recordLogic (s : ScanState) (hd : IdeDisk) (extLba : UInt32) (p : PartitionTableEntry) :
    Except Fault ScanState :=
  if h : s.lNo.toNat < 8 then .ok (s.putLogic hd extLba p h) else .error .outOfBounds

end ScanState

/-- The loop of `partition_scan` over the entries of a boot record, and whether it has left the
function by its `return`. `scan` is the call of `partition_scan` on another record. -/
def scanEntries (scan : ScanState → UInt32 → Except Fault ScanState) (hd : IdeDisk)
    (extLba : UInt32) : List PartitionTableEntry → ScanState → Except Fault (Bool × ScanState)
  | [], s => .ok (false, s)
  | p :: ps, s =>
    if p.fsType = 0x5 then
      if s.extLbaBase ≠ 0 then do
        let s ← scan s (p.startLba + s.extLbaBase)
        scanEntries scan hd extLba ps s
      else do
        let s ← scan { s with extLbaBase := p.startLba } p.startLba
        scanEntries scan hd extLba ps s
    else if p.fsType ≠ 0 then
      if extLba = 0 then do
        let s ← s.recordPrim hd extLba p
        scanEntries scan hd extLba ps s
      else do
        let s ← s.recordLogic hd extLba p
        if 8 ≤ s.lNo then .ok (true, s) else scanEntries scan hd extLba ps s
    else scanEntries scan hd extLba ps s

/-- `partition_scan`, for calls that nest at most `fuel` deep. -/
def partitionScan (hd : IdeDisk) : Nat → ScanState → UInt32 → Except Fault ScanState
  | 0, _, _ => .error .outOfFuel
  | fuel + 1, s, extLba => do
    let s ← s.mallocSector
    let (drive, bs) ← s.drive.ideRead hd.devNo extLba (fun _ => 0) 1
    let (returned, s) ← scanEntries (partitionScan hd fuel) hd extLba (partitionTable bs)
      { s with drive }
    .ok (if returned then s else s.freeSector)

/-! ## What a disk says -/

/-- The entries of a boot record: its partitions, and the trees of the records that its extended
entries lead to. -/
inductive BootTree where
  | done
  | partition (lba : UInt32) (p : PartitionTableEntry) (rest : BootTree)
  | extended (lba : UInt32) (sub rest : BootTree)

namespace BootTree

/-- The partitions of records at address 0, the primary ones. -/
def prims : BootTree → List PartitionTableEntry
  | done => []
  | partition lba p rest => if lba = 0 then p :: rest.prims else rest.prims
  | extended _ sub rest => sub.prims ++ rest.prims

/-- How many partitions the other records have. -/
def logics : BootTree → Nat
  | done => 0
  | partition lba _ rest => if lba = 0 then rest.logics else rest.logics + 1
  | extended _ sub rest => sub.logics + rest.logics

/-- The addresses that extended entries lead to. -/
def records : BootTree → List UInt32
  | done => []
  | partition _ _ rest => rest.records
  | extended lba sub rest => lba :: (sub.records ++ rest.records)

/-- How deep the records are nested. -/
def depth : BootTree → Nat
  | done => 0
  | partition _ _ rest => rest.depth
  | extended _ sub rest => max (sub.depth + 1) rest.depth

end BootTree

/-- The entry describes a partition. -/
def PartitionTableEntry.isPart (p : PartitionTableEntry) : Bool := p.fsType ≠ 0x5 ∧ p.fsType ≠ 0

/-- Where an extended entry leads to, and the base of the addresses from then on: they are
relative to the first extended entry of all. -/
def PartitionTableEntry.link (p : PartitionTableEntry) (base : UInt32) : UInt32 × UInt32 :=
  if base ≠ 0 then (p.startLba + base, base) else (p.startLba, p.startLba)

/-- The table of the boot record at `lba`. -/
def bootTable (disk : Nat → UInt8) (lba : UInt32) : List PartitionTableEntry :=
  partitionTable fun i => disk (lba.toNat * 512 + i)

/-- The entries `ps` of the record at `lba` are those of the tree. `base` is the base of the
extended partition before these entries (0 if there was no extended entry), `base'` the one after
them. -/
inductive Describes (disk : Nat → UInt8) : (base lba : UInt32) → List PartitionTableEntry →
    BootTree → (base' : UInt32) → Prop where
  | done {base lba : UInt32} : Describes disk base lba [] .done base
  | unused {base lba base' : UInt32} {p ps t} (hp : p.fsType = 0)
      (hrest : Describes disk base lba ps t base') : Describes disk base lba (p :: ps) t base'
  | partition {base lba base' : UInt32} {p ps t} (hp : p.isPart)
      (hrest : Describes disk base lba ps t base') :
      Describes disk base lba (p :: ps) (.partition lba p t) base'
  | extended {base lba base₁ base' : UInt32} {p ps sub rest} (hp : p.fsType = 0x5)
      (hlba : (p.link base).1 ≤ maxLba)
      (hsub : Describes disk (p.link base).2 (p.link base).1 (bootTable disk (p.link base).1) sub
        base₁)
      (hrest : Describes disk base₁ lba ps rest base') :
      Describes disk base lba (p :: ps) (.extended (p.link base).1 sub rest) base'

/-- What the scan of a disk should leave: the primary partitions of the boot record are recorded
once each, in the order of the table, and all buffers are free again. -/
structure ScanState.Scanned (hd : IdeDisk) (s s' : ScanState) : Prop where
  freed : s'.heap = s.heap
  count : s'.pNo.toNat = ((bootTable (s.drive.disk hd.devNo) 0).filter (·.isPart)).length
  prims : ∀ i (h : i < 4) p, ((bootTable (s.drive.disk hd.devNo) 0).filter (·.isPart))[i]? = some p →
    s'.primParts ⟨i, h⟩ = ⟨p.startLba, p.secCnt, hd, hd.name ++ toString (i + 1)⟩
  listed : s'.partitionList.filter (fun tag => !tag.logic) =
    s.partitionList.filter (fun tag => !tag.logic) ++
      (List.range s'.pNo.toNat).map fun i => ⟨hd, false, i⟩

/-- The disks that the scan copes with: the extended entries lead to finitely many records, all
at addresses that the driver reads, nested no deeper than there are buffers; there are at most
three primary and seven logical partitions; and no extended entry leads back to a first record
that has partitions. -/
def Copes (disk : Nat → UInt8) (base : UInt32) (heap : Nat) : Prop :=
  ∃ t base', Describes disk base 0 (bootTable disk 0) t base' ∧ t.depth < heap ∧
    t.prims.length ≤ 3 ∧ t.logics ≤ 7 ∧
    (0 ∈ t.records → ∀ p ∈ bootTable disk 0, ¬ p.isPart)

/-! ## Recording -/

section Recording

variable {hd : IdeDisk} {s s₁ s' : ScanState} {p : PartitionTableEntry}

/-- What a stretch of the scan leaves: the primary partitions `ps` and `n` logical ones are
recorded, and the base is `base'`. -/
structure Recorded (hd : IdeDisk) (base' : UInt32) (ps : List PartitionTableEntry) (n : Nat)
    (s s' : ScanState) : Prop where
  disk : s'.drive.disk = s.drive.disk
  prompt : s'.drive.Prompt
  base : s'.extLbaBase = base'
  heap : s'.heap = s.heap
  pNo : s'.pNo.toNat = s.pNo.toNat + ps.length
  lNo : s'.lNo.toNat = s.lNo.toNat + n
  old : ∀ i (h : i < 4), i < s.pNo.toNat → s'.primParts ⟨i, h⟩ = s.primParts ⟨i, h⟩
  new : ∀ i (h : i < 4) k p, i = s.pNo.toNat + k → ps[k]? = some p →
    s'.primParts ⟨i, h⟩ = ScanState.primPart hd 0 i p
  tags : s'.partitionList.filter (fun tag => !tag.logic) =
    s.partitionList.filter (fun tag => !tag.logic) ++
      (List.range' s.pNo.toNat ps.length).map fun i => ⟨hd, false, i⟩

theorem Recorded.refl (hp : s.drive.Prompt) : Recorded hd s.extLbaBase [] 0 s s where
  disk := rfl
  prompt := hp
  base := rfl
  heap := rfl
  pNo := rfl
  lNo := rfl
  old _ _ _ := rfl
  new _ _ _ _ _ h := by cases h
  tags := by simp

theorem Recorded.trans {base₁ base' : UInt32} {ps ps' : List PartitionTableEntry} {n n' : Nat}
    (h : Recorded hd base₁ ps n s s₁) (h' : Recorded hd base' ps' n' s₁ s') :
    Recorded hd base' (ps ++ ps') (n + n') s s' where
  disk := h'.disk.trans h.disk
  prompt := h'.prompt
  base := h'.base
  heap := h'.heap.trans h.heap
  pNo := by rw [h'.pNo, h.pNo, List.length_append, Nat.add_assoc]
  lNo := by rw [h'.lNo, h.lNo, Nat.add_assoc]
  old i hi hlt := by
    have hlt₁ : i < s₁.pNo.toNat := by
      rw [h.pNo]
      omega
    rw [h'.old i hi hlt₁, h.old i hi hlt]
  new i hi k p hk hp := by
    have h₁ := h.pNo
    rcases Nat.lt_or_ge k ps.length with hlt | hge
    · rw [List.getElem?_append_left hlt] at hp
      rw [h'.old i hi (by omega), h.new i hi k p hk hp]
    · rw [List.getElem?_append_right hge] at hp
      exact h'.new i hi (k - ps.length) p (by omega) hp
  tags := by
    rw [h'.tags, h.tags, h.pNo, List.append_assoc, ← List.map_append, List.range'_append_1,
      List.length_append]

theorem Recorded.putPrim (hp : s.drive.Prompt) (h : s.pNo.toNat < 4) :
    Recorded hd s.extLbaBase [p] 0 s (s.putPrim hd 0 p h) where
  disk := rfl
  prompt := hp
  base := rfl
  heap := rfl
  pNo := by
    refine (UInt8.toNat_add _ _).trans (Nat.mod_eq_of_lt ?_)
    exact show s.pNo.toNat + 1 < 2 ^ 8 by omega
  lNo := rfl
  old i hi hlt := by
    have hne : (⟨i, hi⟩ : Fin 4) ≠ ⟨s.pNo.toNat, h⟩ := fun he => by
      have hval : i = s.pNo.toNat := congrArg Fin.val he
      omega
    exact Function.update_of_ne hne _ _
  new i hi k q hk hq := by
    cases k with
    | zero =>
      cases hq
      subst hk
      exact Function.update_self ..
    | succ k => cases hq
  tags := by simp [ScanState.putPrim]

theorem Recorded.putLogic {extLba : UInt32} (hp : s.drive.Prompt) (h : s.lNo.toNat < 8) :
    Recorded hd s.extLbaBase [] 1 s (s.putLogic hd extLba p h) where
  disk := rfl
  prompt := hp
  base := rfl
  heap := rfl
  pNo := rfl
  lNo := by
    refine (UInt8.toNat_add _ _).trans (Nat.mod_eq_of_lt ?_)
    exact show s.lNo.toNat + 1 < 2 ^ 8 by omega
  old _ _ _ := rfl
  new _ _ _ _ _ h := by cases h
  tags := by simp [ScanState.putLogic]

/-- A primary partition is recorded as long as `p_no` stays below 4. -/
theorem recordPrim_ok_iff (hp : s.drive.Prompt) :
    s.recordPrim hd 0 p = .ok s' ↔ ∃ h : s.pNo.toNat < 4, s.pNo.toNat < 3 ∧
      s' = s.putPrim hd 0 p h := by
  rw [ScanState.recordPrim]
  by_cases h : s.pNo.toNat < 4
  · have hnext : (s.putPrim hd 0 p h).pNo < 4 ↔ s.pNo.toNat < 3 := by
      rw [UInt8.lt_iff_toNat_lt, (Recorded.putPrim hp h).pNo]
      exact show s.pNo.toNat + 1 < 4 ↔ s.pNo.toNat < 3 by omega
    rw [dif_pos h]
    by_cases hlt : s.pNo.toNat < 3
    · rw [if_pos (hnext.mpr hlt)]
      exact ⟨fun hok => ⟨h, hlt, (Except.ok.inj hok).symm⟩, fun ⟨_, _, heq⟩ => congrArg _ heq.symm⟩
    · rw [if_neg (mt hnext.mp hlt)]
      exact ⟨nofun, fun ⟨_, hlt', _⟩ => absurd hlt' hlt⟩
  · rw [dif_neg h]
    exact ⟨nofun, fun ⟨h', _, _⟩ => absurd h' h⟩

theorem recordLogic_ok_iff {extLba : UInt32} :
    s.recordLogic hd extLba p = .ok s' ↔
      ∃ h : s.lNo.toNat < 8, s' = s.putLogic hd extLba p h := by
  rw [ScanState.recordLogic]
  by_cases h : s.lNo.toNat < 8
  · rw [dif_pos h]
    exact ⟨fun hok => ⟨h, (Except.ok.inj hok).symm⟩, fun ⟨_, heq⟩ => congrArg _ heq.symm⟩
  · rw [dif_neg h]
    exact ⟨nofun, fun ⟨h', _⟩ => absurd h' h⟩

end Recording

/-! ## The loop and the call -/

section Scan

variable {hd : IdeDisk} {s s' : ScanState} {p : PartitionTableEntry} {ps : List PartitionTableEntry}
  {scan : ScanState → UInt32 → Except Fault ScanState} {lba : UInt32} {fuel : Nat}

theorem scanEntries_unused (hp : p.fsType = 0) :
    scanEntries scan hd lba (p :: ps) s = scanEntries scan hd lba ps s := by
  have hext : ¬ p.fsType = 0x5 := by
    rw [hp]
    decide
  rw [scanEntries, if_neg hext, if_neg (not_not.mpr hp)]

/-- The call for an extended entry, with the base set before it. -/
theorem scanEntries_extended (hp : p.fsType = 0x5) :
    scanEntries scan hd lba (p :: ps) s =
      scan { s with extLbaBase := (p.link s.extLbaBase).2 } (p.link s.extLbaBase).1 >>=
        scanEntries scan hd lba ps := by
  rw [scanEntries, if_pos hp, PartitionTableEntry.link]
  by_cases hbase : s.extLbaBase ≠ 0
  · rw [if_pos hbase, if_pos hbase]
  · rw [if_neg hbase, if_neg hbase]

theorem scanEntries_part (hp : p.isPart) :
    scanEntries scan hd lba (p :: ps) s =
      if lba = 0 then s.recordPrim hd lba p >>= scanEntries scan hd lba ps
      else s.recordLogic hd lba p >>= fun s =>
        if 8 ≤ s.lNo then .ok (true, s) else scanEntries scan hd lba ps s := by
  have hp' : ¬ p.fsType = 0x5 ∧ p.fsType ≠ 0 := of_decide_eq_true hp
  rw [scanEntries, if_neg hp'.1, if_pos hp'.2]

/-- The buffer of `ide_read` has the table of the boot record. -/
theorem partitionTable_overwrite (disk : Nat → UInt8) (lba : UInt32) (buf : Buffer) :
    partitionTable (overwrite buf 0 ((1 : UInt32).toNat * 512) fun i => disk (lba.toNat * 512 + i)) =
      bootTable disk lba := by
  rw [bootTable, partitionTable, partitionTable]
  refine List.map_congr_left fun i hi => ?_
  have hi' : i < 4 := List.mem_range.mp hi
  have hin : ∀ k, k < 512 → overwrite buf 0 ((1 : UInt32).toNat * 512)
      (fun i => disk (lba.toNat * 512 + i)) k = disk (lba.toNat * 512 + k) := fun k hk =>
    overwrite_of_mem (Nat.zero_le k) (by exact show k < 0 + 1 * 512 by omega)
  rw [uint32At, uint32At, uint32At, uint32At, hin _ (by omega), hin _ (by omega), hin _ (by omega),
    hin _ (by omega), hin _ (by omega), hin _ (by omega), hin _ (by omega), hin _ (by omega),
    hin _ (by omega)]

/-- The state in which the entries of a boot record are scanned. -/
structure Opened (s s₁ : ScanState) : Prop where
  disk : s₁.drive.disk = s.drive.disk
  prompt : s₁.drive.Prompt
  same : s₁ = { s with heap := s.heap - 1, drive := s₁.drive }

/-- `partition_scan` reads the record, when there is a buffer and the address is in the range of
the driver. -/
theorem partitionScan_open (hp : s.drive.Prompt) (hheap : s.heap ≠ 0) (hlba : lba ≤ maxLba) :
    ∃ s₁, Opened s s₁ ∧ partitionScan hd (fuel + 1) s lba =
      scanEntries (partitionScan hd fuel) hd lba (bootTable (s.drive.disk hd.devNo) lba) s₁ >>=
        fun r => .ok (if r.1 then r.2 else r.2.freeSector) := by
  have hrange : lba.toNat + (1 : UInt32).toNat ≤ 163840 := by
    rw [UInt32.le_iff_toNat_le, Drive.maxLba_toNat] at hlba
    exact show lba.toNat + 1 ≤ 163840 by omega
  obtain ⟨d', hread, hdisk, hp', -⟩ :=
    Drive.ideRead_spec hp hd.devNo (by decide) hrange fun _ => 0
  refine ⟨{ s with heap := s.heap - 1, drive := d' }, ⟨hdisk, hp', rfl⟩, ?_⟩
  have hmalloc : s.mallocSector = .ok { s with heap := s.heap - 1 } := if_neg hheap
  simp only [partitionScan, hmalloc, hread, partitionTable_overwrite, bind, Except.bind]

theorem partitionScan_returns :
    Returns (partitionScan hd (fuel + 1) s lba) fun _ => s.heap ≠ 0 ∧ lba ≤ maxLba := by
  intro s' h
  obtain ⟨s₁, hmalloc, h⟩ := bind_eq_ok.mp h
  obtain ⟨⟨d', bs⟩, hread, -⟩ := bind_eq_ok.mp h
  constructor
  · intro h0
    rw [ScanState.mallocSector, if_pos h0] at hmalloc
    cases hmalloc
  · by_contra hlba
    rw [Drive.ideRead, if_neg fun h => hlba h.1] at hread
    cases hread

end Scan

/-! ## A disk with a tree -/

section Tree

variable {hd : IdeDisk} {disk : Nat → UInt8}

/-- What the scan needs of the counters and of the disk. -/
structure Fit (hd : IdeDisk) (disk : Nat → UInt8) (s : ScanState) : Prop where
  disk : s.drive.disk hd.devNo = disk
  prompt : s.drive.Prompt
  pNo : s.pNo.toNat ≤ 3
  lNo : s.lNo.toNat ≤ 7

theorem Recorded.fit {base : UInt32} {ps : List PartitionTableEntry} {n : Nat} {s s' : ScanState}
    (h : Recorded hd base ps n s s') (hs : s.drive.disk hd.devNo = disk) (hp : s'.pNo.toNat ≤ 3)
    (hl : s'.lNo.toNat ≤ 7) : Fit hd disk s' :=
  ⟨by rw [h.disk, hs], h.prompt, hp, hl⟩

/-- A record that is opened, scanned and closed. -/
theorem Opened.closed {base : UInt32} {ps : List PartitionTableEntry} {n : Nat}
    {s s₁ s₂ : ScanState} (h : Opened s s₁) (hheap : s.heap ≠ 0) (hr : Recorded hd base ps n s₁ s₂) :
    Recorded hd base ps n s s₂.freeSector := by
  have hsame := h.same
  generalize s₁.drive = d at hsame hr h
  subst hsame
  exact {
    disk := hr.disk.trans h.disk
    prompt := hr.prompt
    base := hr.base
    heap := by
      show s₂.heap + 1 = s.heap
      rw [hr.heap]
      exact Nat.succ_pred_eq_of_ne_zero hheap
    pNo := hr.pNo
    lNo := hr.lNo
    old := hr.old
    new := hr.new
    tags := hr.tags }

/-- **The scan of a tree**: the loop over the entries returns, and records the partitions of the
tree, when the counters stay in their range and the heap has a buffer for each level. -/
theorem Describes.run {base lba base' : UInt32} {ps : List PartitionTableEntry} {t : BootTree}
    (h : Describes disk base lba ps t base') : ∀ {s : ScanState} {fuel : Nat}, Fit hd disk s →
      s.extLbaBase = base → t.depth ≤ s.heap → t.depth ≤ fuel → s.pNo.toNat + t.prims.length ≤ 3 →
      s.lNo.toNat + t.logics ≤ 7 →
      ∃ s', scanEntries (partitionScan hd fuel) hd lba ps s = .ok (false, s') ∧
        Recorded hd base' t.prims t.logics s s' := by
  induction h with
  | done =>
    intro s fuel hs hbase _ _ _ _
    subst hbase
    exact ⟨s, rfl, .refl hs.prompt⟩
  | unused hp _ ih =>
    intro s fuel hs hbase hheap hfuel hprims hlogics
    rw [scanEntries_unused hp]
    exact ih hs hbase hheap hfuel hprims hlogics
  | @partition base lba base' p ps t hp _ ih =>
    intro s fuel hs hbase hheap hfuel hprims hlogics
    subst hbase
    rw [scanEntries_part hp]
    by_cases hlba : lba = 0
    · subst hlba
      simp only [BootTree.prims, BootTree.logics, if_true, List.length_cons] at hprims hlogics ⊢
      have hlt : s.pNo.toNat < 4 := by omega
      have hput : Recorded hd s.extLbaBase [p] 0 s (s.putPrim hd 0 p hlt) := .putPrim hs.prompt hlt
      have hok : s.recordPrim hd 0 p = .ok (s.putPrim hd 0 p hlt) :=
        (recordPrim_ok_iff hs.prompt).mpr ⟨hlt, by omega, rfl⟩
      have hpNo : (s.putPrim hd 0 p hlt).pNo.toNat = s.pNo.toNat + 1 := hput.pNo
      obtain ⟨s', hscan, hr⟩ := @ih _ fuel (hput.fit hs.disk (by omega) (by exact hs.lNo)) rfl
        hheap hfuel (by omega) hlogics
      refine ⟨s', ?_, ?_⟩
      · rw [hok]
        exact hscan
      · have htrans := hput.trans hr
        rwa [Nat.zero_add] at htrans
    · simp only [BootTree.prims, BootTree.logics, if_neg hlba] at hprims hlogics ⊢
      have hlt : s.lNo.toNat < 8 := by omega
      have hput : Recorded hd s.extLbaBase [] 1 s (s.putLogic hd lba p hlt) :=
        .putLogic hs.prompt hlt
      have hok : s.recordLogic hd lba p = .ok (s.putLogic hd lba p hlt) :=
        recordLogic_ok_iff.mpr ⟨hlt, rfl⟩
      have hlNo : (s.putLogic hd lba p hlt).lNo.toNat = s.lNo.toNat + 1 := hput.lNo
      have hstay : ¬ 8 ≤ (s.putLogic hd lba p hlt).lNo := by
        rw [UInt8.le_iff_toNat_le, hlNo]
        exact show ¬ 8 ≤ s.lNo.toNat + 1 by omega
      obtain ⟨s', hscan, hr⟩ := @ih _ fuel (hput.fit hs.disk (by exact hs.pNo) (by omega)) rfl
        hheap hfuel hprims (by omega)
      refine ⟨s', ?_, ?_⟩
      · rw [hok]
        exact (if_neg hstay).trans hscan
      · have htrans := hput.trans hr
        rwa [List.nil_append, Nat.add_comm] at htrans
  | @extended base lba base₁ base' p ps sub rest hp hlba _ _ ihsub ihrest =>
    intro s fuel hs hbase hheap hfuel hprims hlogics
    subst hbase
    simp only [BootTree.prims, BootTree.logics, BootTree.depth, List.length_append]
      at hheap hfuel hprims hlogics ⊢
    obtain ⟨fuel, rfl⟩ : ∃ k, fuel = k + 1 := ⟨fuel - 1, by omega⟩
    have hheap' : s.heap ≠ 0 := by omega
    -- the record that the entry leads to
    obtain ⟨s₁, hopen, hcall⟩ := @partitionScan_open hd
      { s with extLbaBase := (p.link s.extLbaBase).2 } (p.link s.extLbaBase).1 fuel hs.prompt
      hheap' hlba
    have hs₁ : Fit hd disk s₁ ∧ s₁.extLbaBase = (p.link s.extLbaBase).2 ∧
        s₁.heap = s.heap - 1 ∧ s₁.pNo = s.pNo ∧ s₁.lNo = s.lNo := by
      have hsame := hopen.same
      refine ⟨⟨by rw [hopen.disk]; exact hs.disk, hopen.prompt, ?_, ?_⟩, ?_, ?_, ?_, ?_⟩ <;>
        rw [hsame]
      · exact hs.pNo
      · exact hs.lNo
    obtain ⟨hfit₁, hbase₁, hheap₁, hpNo₁, hlNo₁⟩ := hs₁
    obtain ⟨s₂, hscan, hr⟩ := @ihsub _ fuel hfit₁ hbase₁ (by omega) (by omega)
      (by rw [hpNo₁]; omega) (by rw [hlNo₁]; omega)
    have hclosed := hopen.closed hheap' hr
    have hpNo₂ : s₂.freeSector.pNo.toNat = s.pNo.toNat + sub.prims.length := hclosed.pNo
    have hlNo₂ : s₂.freeSector.lNo.toNat = s.lNo.toNat + sub.logics := hclosed.lNo
    have hheap₂ : s₂.freeSector.heap = s.heap := hclosed.heap
    -- the rest of the table
    obtain ⟨s', hscan', hr'⟩ := @ihrest _ (fuel + 1)
      (hclosed.fit hs.disk (by omega) (by omega)) hclosed.base (by omega) (by omega) (by omega)
      (by omega)
    refine ⟨s', ?_, ?_⟩
    · have hdisk : s.drive.disk hd.devNo = disk := hs.disk
      rw [scanEntries_extended hp, hcall]
      show (scanEntries _ hd _ (bootTable (s.drive.disk hd.devNo) _) s₁ >>= _) >>= _ = _
      rw [hdisk, hscan]
      exact hscan'
    · have htrans := hclosed.trans hr'
      exact { htrans with }

/-! ## A scan that returns its buffers -/

section Heap

variable {s : ScanState} {lba : UInt32} {scan : ScanState → UInt32 → Except Fault ScanState}

theorem scanEntries_heap (hscan : ∀ s lba, Returns (scan s lba) fun s' => s'.heap ≤ s.heap)
    (ps : List PartitionTableEntry) (s : ScanState) :
    Returns (scanEntries scan hd lba ps s) fun r => r.2.heap ≤ s.heap := by
  induction ps generalizing s with
  | nil => exact .ok (Nat.le_refl _)
  | cons p ps ih =>
    by_cases hext : p.fsType = 0x5
    · rw [scanEntries_extended hext]
      refine (hscan _ _).bind fun s₁ hs₁ => (ih s₁).mono fun r hr => ?_
      have hheap : s₁.heap ≤ s.heap := hs₁
      omega
    · by_cases hpart : p.fsType = 0
      · rw [scanEntries_unused hpart]
        exact ih s
      · rw [scanEntries_part (decide_eq_true ⟨hext, hpart⟩)]
        split
        · have hrec : Returns (s.recordPrim hd lba p) fun s₁ => s₁.heap = s.heap := by
            intro s₁ h₁
            rw [ScanState.recordPrim] at h₁
            split at h₁
            · split at h₁ <;> cases h₁
              rfl
            · cases h₁
          refine hrec.bind fun s₁ hs₁ => ?_
          rw [← hs₁]
          exact ih s₁
        · have hrec : Returns (s.recordLogic hd lba p) fun s₁ => s₁.heap = s.heap := by
            intro s₁ h₁
            obtain ⟨_, rfl⟩ := recordLogic_ok_iff.mp h₁
            rfl
          refine hrec.bind fun s₁ hs₁ => ?_
          rw [← hs₁]
          split
          · exact .ok (Nat.le_refl _)
          · exact ih s₁

/-- No call gives back more buffers than it has taken. -/
theorem partitionScan_heap (fuel : Nat) (s : ScanState) (lba : UInt32) :
    Returns (partitionScan hd fuel s lba) fun s' => s'.heap ≤ s.heap := by
  induction fuel generalizing s lba with
  | zero => exact .error _
  | succ fuel ih =>
    intro s' h
    obtain ⟨hheap, -⟩ := partitionScan_returns s' h
    obtain ⟨s₁, hmalloc, h⟩ := bind_eq_ok.mp h
    obtain ⟨⟨d', bs⟩, -, h⟩ := bind_eq_ok.mp h
    obtain ⟨⟨returned, s₂⟩, hscan, h⟩ := bind_eq_ok.mp h
    cases h
    rw [ScanState.mallocSector, if_neg hheap] at hmalloc
    cases hmalloc
    have hle : s₂.heap ≤ s.heap - 1 := scanEntries_heap ih _ _ _ hscan
    split
    · omega
    · show s₂.heap + 1 ≤ s.heap
      omega

end Heap

/-- The stretch of the scan from `s` to `s'` has seen a tree of at most `room` levels. -/
def Seen (hd : IdeDisk) (disk : Nat → UInt8) (lba : UInt32) (ps : List PartitionTableEntry)
    (room : Nat) (s s' : ScanState) : Prop :=
  ∃ t base', Describes disk s.extLbaBase lba ps t base' ∧ t.depth ≤ room ∧
    Recorded hd base' t.prims t.logics s s' ∧ s'.pNo.toNat ≤ 3 ∧ s'.lNo.toNat ≤ 7

section Entries

variable {lba : UInt32} {scan : ScanState → UInt32 → Except Fault ScanState}

theorem seen_of_entries (hmono : ∀ s lba, Returns (scan s lba) fun s' => s'.heap ≤ s.heap)
    (hscan : ∀ s lba s', Fit hd disk s → scan s lba = .ok s' → s'.heap = s.heap →
      lba ≤ maxLba ∧ s.heap ≠ 0 ∧ Seen hd disk lba (bootTable disk lba) (s.heap - 1) s s')
    (ps : List PartitionTableEntry) {s s' : ScanState} (hs : Fit hd disk s)
    (h : scanEntries scan hd lba ps s = .ok (false, s')) (hheap : s'.heap = s.heap) :
    Seen hd disk lba ps s.heap s s' := by
  induction ps generalizing s with
  | nil =>
    cases h
    exact ⟨.done, _, .done, Nat.zero_le _, .refl hs.prompt, hs.pNo, hs.lNo⟩
  | cons p ps ih =>
    by_cases hext : p.fsType = 0x5
    · rw [scanEntries_extended hext] at h
      obtain ⟨s₁, hcall, hrest⟩ := bind_eq_ok.mp h
      -- no buffer is lost in the call and in the rest of the loop
      have hle₁ : s₁.heap ≤ s.heap :=
        hmono { s with extLbaBase := (p.link s.extLbaBase).2 } _ _ hcall
      have hle₂ : s'.heap ≤ s₁.heap := scanEntries_heap hmono ps s₁ _ hrest
      have hfit : Fit hd disk { s with extLbaBase := (p.link s.extLbaBase).2 } :=
        ⟨hs.disk, hs.prompt, hs.pNo, hs.lNo⟩
      obtain ⟨hlba, hne, t, base₁, ht, hdepth, hr, hpNo, hlNo⟩ := hscan _ _ _ hfit hcall
        (show s₁.heap = s.heap by omega)
      have hdepth' : t.depth ≤ s.heap - 1 := hdepth
      have hne' : s.heap ≠ 0 := hne
      obtain ⟨t', base', ht', hdepth'', hr', hbounds⟩ := ih (hr.fit hs.disk hpNo hlNo) hrest
        (by omega)
      rw [hr.base] at ht'
      have hmax : max (t.depth + 1) t'.depth ≤ s.heap := by omega
      exact ⟨.extended (p.link s.extLbaBase).1 t t', base', .extended hext hlba ht ht', hmax,
        { hr.trans hr' with }, hbounds⟩
    · by_cases hpart : p.fsType = 0
      · rw [scanEntries_unused hpart] at h
        obtain ⟨t, base', ht, hrest⟩ := ih hs h hheap
        exact ⟨t, base', .unused hpart ht, hrest⟩
      · have hp : p.isPart := decide_eq_true ⟨hext, hpart⟩
        rw [scanEntries_part hp] at h
        by_cases hlba : lba = 0
        · subst hlba
          rw [if_pos rfl] at h
          obtain ⟨s₁, hrec, hrest⟩ := bind_eq_ok.mp h
          obtain ⟨hlt, hlt', rfl⟩ := (recordPrim_ok_iff hs.prompt).mp hrec
          have hput : Recorded hd s.extLbaBase [p] 0 s (s.putPrim hd 0 p hlt) :=
            .putPrim hs.prompt hlt
          have hpNo : (s.putPrim hd 0 p hlt).pNo.toNat ≤ 3 := by
            rw [hput.pNo]
            exact hlt'
          obtain ⟨t, base', ht, hdepth, hr, hbounds⟩ :=
            ih (hput.fit hs.disk hpNo (by exact hs.lNo)) hrest hheap
          refine ⟨.partition 0 p t, base', .partition hp ht, hdepth, ?_, hbounds⟩
          have htrans := hput.trans hr
          rw [Nat.zero_add] at htrans
          exact htrans
        · rw [if_neg hlba] at h
          obtain ⟨s₁, hrec, hrest⟩ := bind_eq_ok.mp h
          obtain ⟨hlt, rfl⟩ := recordLogic_ok_iff.mp hrec
          have hput : Recorded hd s.extLbaBase [] 1 s (s.putLogic hd lba p hlt) :=
            .putLogic hs.prompt hlt
          by_cases hfull : 8 ≤ (s.putLogic hd lba p hlt).lNo
          · rw [if_pos hfull] at hrest
            cases hrest
          · rw [if_neg hfull] at hrest
            have hlNo : (s.putLogic hd lba p hlt).lNo.toNat ≤ 7 := by
              rw [UInt8.le_iff_toNat_le] at hfull
              have hnot : ¬ 8 ≤ (s.putLogic hd lba p hlt).lNo.toNat := hfull
              omega
            obtain ⟨t, base', ht, hdepth, hr, hbounds⟩ :=
              ih (hput.fit hs.disk (by exact hs.pNo) hlNo) hrest hheap
            refine ⟨.partition lba p t, base', .partition hp ht, hdepth, ?_, hbounds⟩
            have htrans := hput.trans hr
            rw [List.nil_append, Nat.add_comm] at htrans
            simpa only [BootTree.prims, BootTree.logics, if_neg hlba] using htrans

/-- **A scan that gives all its buffers back** has seen a tree. -/
theorem seen_of_scan (fuel : Nat) {s s' : ScanState} (hs : Fit hd disk s)
    (h : partitionScan hd fuel s lba = .ok s') (hheap : s'.heap = s.heap) :
    lba ≤ maxLba ∧ s.heap ≠ 0 ∧ Seen hd disk lba (bootTable disk lba) (s.heap - 1) s s' := by
  induction fuel generalizing s s' lba with
  | zero => cases h
  | succ fuel ih =>
    obtain ⟨hne, hlba⟩ := partitionScan_returns s' h
    obtain ⟨s₁, hopen, hcall⟩ := @partitionScan_open hd s lba fuel hs.prompt hne hlba
    rw [hcall, hs.disk] at h
    obtain ⟨⟨returned, s₂⟩, hscan, hok⟩ := bind_eq_ok.mp h
    have hsame := hopen.same
    have hheap₁ : s₁.heap = s.heap - 1 := by rw [hsame]
    have hle : s₂.heap ≤ s₁.heap := scanEntries_heap (partitionScan_heap fuel) _ _ _ hscan
    cases returned with
    | true =>
      -- the buffer is lost for good
      cases hok
      have hheap₂ : s₂.heap = s.heap := hheap
      omega
    | false =>
      cases hok
      have hheap₂ : s₂.heap + 1 = s.heap := hheap
      have hfit : Fit hd disk s₁ := by
        refine ⟨by rw [hopen.disk]; exact hs.disk, hopen.prompt, ?_, ?_⟩ <;> rw [hsame]
        · exact hs.pNo
        · exact hs.lNo
      obtain ⟨t, base', ht, hdepth, hr, hbounds⟩ := seen_of_entries (partitionScan_heap fuel)
        (fun _ _ _ hs h hheap => ih hs h hheap) _ hfit hscan (by omega)
      have hbase : s₁.extLbaBase = s.extLbaBase := by rw [hsame]
      rw [hbase] at ht
      exact ⟨hlba, hne, t, base', ht, by omega, hopen.closed hne hr, hbounds⟩

end Entries

end Tree

/-! ## The first boot record -/

section First

variable {disk : Nat → UInt8} {base lba base' : UInt32} {ps : List PartitionTableEntry}
  {t : BootTree}

/-- The partitions among the entries `ps` of the record at `lba`, when they are primary ones. -/
def ownPrims (lba : UInt32) (ps : List PartitionTableEntry) : List PartitionTableEntry :=
  if lba = 0 then ps.filter (·.isPart) else []

theorem ownPrims_cons (p : PartitionTableEntry) :
    ownPrims lba (p :: ps) = if lba = 0 ∧ p.isPart then p :: ownPrims lba ps else ownPrims lba ps := by
  by_cases hlba : lba = 0
  · simp only [ownPrims, List.filter_cons, hlba, true_and, if_true]
  · simp only [ownPrims, hlba, false_and, if_false]

theorem isPart_eq_false {p : PartitionTableEntry} (hp : p.fsType = 0x5 ∨ p.fsType = 0) :
    p.isPart = false := by
  rcases hp with hp | hp <;> simp [PartitionTableEntry.isPart, hp]

/-- The primary partitions of a tree, when no entry leads back to a first record that has
partitions. -/
theorem Describes.prims_eq (h : Describes disk base lba ps t base')
    (hback : 0 ∈ t.records → ∀ p ∈ bootTable disk 0, ¬ p.isPart) :
    t.prims = ownPrims lba ps := by
  induction h with
  | done => simp [BootTree.prims, ownPrims]
  | unused hp _ ih => simpa [ownPrims_cons, isPart_eq_false (.inr hp)] using ih hback
  | @partition base lba base' p ps t hp _ ih =>
    rw [BootTree.prims, ownPrims_cons, ih hback]
    simp [hp]
  | @extended base lba base₁ base' p ps sub rest hp _ _ _ ihsub ihrest =>
    have hsub : sub.prims = ownPrims (p.link base).1 (bootTable disk (p.link base).1) :=
      ihsub fun h => hback (by simp [BootTree.records, h])
    have hrest : rest.prims = ownPrims lba ps :=
      ihrest fun h => hback (by simp [BootTree.records, h])
    have hnone : sub.prims = [] := by
      rw [hsub, ownPrims]
      split
      · next h0 =>
        have hno := hback (by simp [BootTree.records, h0])
        rw [h0, List.filter_eq_nil_iff]
        exact hno
      · rfl
    rw [BootTree.prims, hnone, List.nil_append, hrest, ownPrims_cons,
      isPart_eq_false (.inl hp)]
    simp

/-- Each link back to the first record has its partitions recorded once more. -/
theorem Describes.prims_length (h : Describes disk base lba ps t base') :
    (ownPrims lba ps).length + (if 0 ∈ t.records then ((bootTable disk 0).filter (·.isPart)).length
      else 0) ≤ t.prims.length := by
  induction h with
  | done => simp [BootTree.prims, BootTree.records, ownPrims]
  | unused hp _ ih => simpa [ownPrims_cons, isPart_eq_false (.inr hp)] using ih
  | @partition base lba base' p ps t hp _ ih =>
    rw [BootTree.prims, ownPrims_cons, BootTree.records]
    by_cases hlba : lba = 0
    · simp only [hlba, hp, and_self, if_true, List.length_cons] at ih ⊢
      omega
    · simpa [hlba] using ih
  | @extended base lba base₁ base' p ps sub rest hp _ _ _ ihsub ihrest =>
    rw [BootTree.prims, ownPrims_cons, BootTree.records, isPart_eq_false (.inl hp), List.length_append]
    simp only [Bool.false_eq_true, and_false, if_false, List.mem_cons, List.mem_append]
    by_cases h0 : 0 = (p.link base).1
    · rw [← h0] at ihsub
      simp only [ownPrims, if_true] at ihsub
      rw [if_pos (.inl h0)]
      split at ihsub <;> split at ihrest <;> omega
    · simp only [h0, false_or]
      split
      · next hin =>
        rcases hin with hin | hin
        · rw [if_pos hin] at ihsub
          split at ihrest <;> omega
        · rw [if_pos hin] at ihrest
          omega
      · omega

end First

/-! ## Every disk -/

/-- **The scan of a disk** returns, within the arrays and past every `ASSERT`, with the primary
partitions recorded once in the order of the table and all its buffers freed, exactly on the
disks that it copes with. -/
theorem partitionScan_copes_iff {s : ScanState} (hp : s.drive.Prompt) (hd : IdeDisk)
    (hpNo : s.pNo = 0) (hlNo : s.lNo = 0) :
    (∃ fuel s', partitionScan hd fuel s 0 = .ok s' ∧ s.Scanned hd s') ↔
      Copes (s.drive.disk hd.devNo) s.extLbaBase s.heap := by
  have hzero : s.pNo.toNat = 0 ∧ s.lNo.toNat = 0 := by
    rw [hpNo, hlNo]
    exact ⟨rfl, rfl⟩
  have hfit : Fit hd (s.drive.disk hd.devNo) s := ⟨rfl, hp, by omega, by omega⟩
  constructor
  · rintro ⟨fuel, s', hscan, hs'⟩
    obtain ⟨-, hne, t, base', ht, hdepth, hr, hp', hl'⟩ := seen_of_scan fuel hfit hscan hs'.freed
    have hprims := hr.pNo
    have hlogics := hr.lNo
    refine ⟨t, base', ht, by omega, by omega, by omega, fun hin => ?_⟩
    -- with a link back the partitions of the first record are counted twice
    have hlen := ht.prims_length
    rw [if_pos hin, ownPrims, if_pos rfl, ← hs'.count] at hlen
    have hnil : (bootTable (s.drive.disk hd.devNo) 0).filter (·.isPart) = [] := by
      refine List.length_eq_zero_iff.mp ?_
      rw [← hs'.count]
      omega
    exact List.filter_eq_nil_iff.mp hnil
  · rintro ⟨t, base', ht, hdepth, hprims, hlogics, hback⟩
    have hne : s.heap ≠ 0 := by omega
    obtain ⟨s₁, hopen, hcall⟩ := @partitionScan_open hd s 0 t.depth hp hne (by decide)
    have hsame := hopen.same
    have hfit₁ : Fit hd (s.drive.disk hd.devNo) s₁ ∧ s₁.extLbaBase = s.extLbaBase ∧
        s₁.heap = s.heap - 1 ∧ s₁.pNo = s.pNo ∧ s₁.lNo = s.lNo := by
      refine ⟨⟨by rw [hopen.disk], hopen.prompt, ?_, ?_⟩, ?_, ?_, ?_, ?_⟩ <;> rw [hsame]
      · exact hfit.pNo
      · exact hfit.lNo
    obtain ⟨hfit₁, hbase₁, hheap₁, hpNo₁, hlNo₁⟩ := hfit₁
    obtain ⟨s₂, hscan, hr⟩ := ht.run hfit₁ hbase₁ (by omega)
      (Nat.le_refl t.depth) (by rw [hpNo₁]; omega) (by rw [hlNo₁]; omega)
    have hclosed := hopen.closed hne hr
    have hown : t.prims = (bootTable (s.drive.disk hd.devNo) 0).filter (·.isPart) := by
      rw [ht.prims_eq hback, ownPrims, if_pos rfl]
    refine ⟨t.depth + 1, s₂.freeSector, ?_, ?_⟩
    · rw [hcall, hscan]
      rfl
    · rw [hown] at hclosed
      have hcount := hclosed.pNo
      rw [hzero.1, Nat.zero_add] at hcount
      refine ⟨hclosed.heap, hcount, fun i hi p hp => ?_, ?_⟩
      · have hnew := hclosed.new i hi i p (by omega) hp
        rw [hnew, ScanState.primPart, UInt32.zero_add]
      · rw [hclosed.tags, hzero.1, hcount, List.range_eq_range']

/-- The variables as `ide_init` has them for the first disk that it scans. -/
def scanStart (drive : Drive) (heap : Nat) : ScanState where
  drive := drive
  extLbaBase := 0
  pNo := 0
  lNo := 0
  primParts _ := ⟨0, 0, ⟨"", false⟩, ""⟩
  logicParts _ := ⟨0, 0, ⟨"", false⟩, ""⟩
  partitionList := []
  heap := heap

/-- A slave with a primary partition and an extended one. The record of the latter, at 200, has a
logical partition and leads to the record at 250, which has another. -/
def extendedDisk : Drive :=
  { Drive.idleDrive with
    disk := fun _ a =>
      if a = 450 ∨ a = 102850 ∨ a = 128450 then 0x83 else if a = 466 ∨ a = 102866 then 0x5
      else if a = 470 then 200 else if a = 102870 then 50 else if a = 454 ∨ a = 102854 then 1
      else 0 }

/-- The tables of its three records. -/
theorem extendedDisk_tables :
    bootTable (extendedDisk.disk true) 0 = [⟨0x83, 1, 0⟩, ⟨0x5, 200, 0⟩, ⟨0, 0, 0⟩, ⟨0, 0, 0⟩] ∧
      bootTable (extendedDisk.disk true) 200 =
        [⟨0x83, 1, 0⟩, ⟨0x5, 50, 0⟩, ⟨0, 0, 0⟩, ⟨0, 0, 0⟩] ∧
      bootTable (extendedDisk.disk true) 250 =
        [⟨0x83, 0, 0⟩, ⟨0, 0, 0⟩, ⟨0, 0, 0⟩, ⟨0, 0, 0⟩] := by
  decide +kernel

theorem partitionScan_copes_iff_extended : ∃ fuel s',
    partitionScan ⟨"sdb", true⟩ fuel (scanStart extendedDisk 3) 0 = .ok s' ∧
      (scanStart extendedDisk 3).Scanned ⟨"sdb", true⟩ s' := by
  have hp : (scanStart extendedDisk 3).drive.Prompt := fun n => show 0 < 29999 by decide
  obtain ⟨hboot, houter, hinner⟩ := extendedDisk_tables
  have hlast : Describes (extendedDisk.disk true) 200 250 (bootTable (extendedDisk.disk true) 250)
      (.partition 250 ⟨0x83, 0, 0⟩ .done) 200 := by
    rw [hinner]
    exact .partition rfl (.unused rfl (.unused rfl (.unused rfl .done)))
  have hnext : Describes (extendedDisk.disk true) 200 200 (bootTable (extendedDisk.disk true) 200)
      (.partition 200 ⟨0x83, 1, 0⟩ (.extended 250 (.partition 250 ⟨0x83, 0, 0⟩ .done) .done))
      200 := by
    rw [houter]
    exact .partition rfl (.extended rfl (by decide) hlast (.unused rfl (.unused rfl .done)))
  have hfirst : Describes (extendedDisk.disk true) 0 0 (bootTable (extendedDisk.disk true) 0)
      (.partition 0 ⟨0x83, 1, 0⟩ (.extended 200 (.partition 200 ⟨0x83, 1, 0⟩
        (.extended 250 (.partition 250 ⟨0x83, 0, 0⟩ .done) .done)) .done)) 200 := by
    rw [hboot]
    exact .partition rfl (.extended rfl (by decide) hnext (.unused rfl (.unused rfl .done)))
  exact (partitionScan_copes_iff hp ⟨"sdb", true⟩ rfl rfl).mpr
    ⟨_, _, hfirst, by decide, by decide, by decide, fun h => absurd h (by decide)⟩

/-- A slave with four primary partitions. -/
def fourPrims : Drive :=
  { Drive.idleDrive with
    disk := fun _ a => if a = 450 ∨ a = 466 ∨ a = 482 ∨ a = 498 then 0x83 else 0 }

/-- The scan of a disk with four primary partitions does not get past `ASSERT(p_no < 4)`. -/
theorem partitionScan_fails : ¬ ∃ fuel s',
    partitionScan ⟨"sdb", true⟩ fuel (scanStart fourPrims 1) 0 = .ok s' ∧
      (scanStart fourPrims 1).Scanned ⟨"sdb", true⟩ s' := by
  rintro ⟨fuel, s', hscan, hs'⟩
  have hp : (scanStart fourPrims 1).drive.Prompt := fun n => show 0 < 29999 by decide
  obtain ⟨-, -, t, base', ht, -, hr, hpNo, -⟩ := seen_of_scan fuel
    ⟨rfl, hp, by decide, by decide⟩ hscan hs'.freed
  have hown : (ownPrims 0 (bootTable (fourPrims.disk true) 0)).length = 4 := by decide
  have hlen := ht.prims_length
  have hcount : s'.pNo.toNat = 0 + t.prims.length := hr.pNo
  have hle : (ownPrims 0 (bootTable (fourPrims.disk true) 0)).length ≤ t.prims.length :=
    Nat.le_trans (Nat.le_add_right _ _) hlen
  omega

end GwOS
