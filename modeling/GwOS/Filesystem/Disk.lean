import GwOS.Filesystem.Common

/-!
# Disk access and the FAT (`filesystem/disk.c`)

Sector reads and writes with their `ASSERT`, the little-endian field accessors,
the 12-bit FAT entry codec, cluster allocation and the directory-entry writer.

Cluster and sector numbers are natural numbers, reduced by `u16` wherever the C
code stores them in a `uint16_t`; comparisons of such a value with `-1` are made
in `int`, as C's promotions do.
-/

namespace GwOS

/-! ## Sectors -/

/-- `read_sector`. -/
def readSector (d : Disk) (secID : Nat) : Except Fault Sector :=
  if secID ≤ secCnt then .ok (d secID) else .error .assert

/-- `write_sector`. -/
def writeSector (d : Disk) (secID : Nat) (buff : Sector) : Except Fault Disk :=
  if secID ≤ secCnt then .ok (Function.update d secID buff) else .error .assert

/-- `update_img`: the copy of sectors 0 to 19 in the array `img[512 * 20]`.
Indices past the end of the array read `0`; they are reached only from cluster
numbers that no 12-bit FAT entry can hold. -/
def updateImg (d : Disk) (k : Nat) : UInt8 :=
  if k < 512 * 20 then (d (k / 512)).get (k % 512) else 0

/-! ## Little-endian fields -/

/-- `get_u16`. -/
def getU16 (buff : Sector) (st : Nat) : UInt16 :=
  UInt16.ofNat ((buff.get st).toNat + ((buff.get (st + 1)).toNat <<< 8))

/-- `get_u32`. -/
def getU32 (buff : Sector) (st : Nat) : UInt32 :=
  UInt32.ofNat ((buff.get st).toNat + ((buff.get (st + 1)).toNat <<< 8) +
    ((buff.get (st + 2)).toNat <<< 16) + ((buff.get (st + 3)).toNat <<< 24))

/-- `write_u8`. -/
def writeU8 (buff : Sector) (st : Nat) (data : UInt8) : Sector :=
  buff.set st data

/-- `write_u16`. -/
def writeU16 (buff : Sector) (st : Nat) (data : UInt16) : Sector :=
  (buff.set st (UInt8.ofNat data.toNat)).set (st + 1) (UInt8.ofNat (data.toNat >>> 8))

/-- `write_u32`. -/
def writeU32 (buff : Sector) (st : Nat) (data : UInt32) : Sector :=
  (((buff.set st (UInt8.ofNat data.toNat)).set (st + 1) (UInt8.ofNat (data.toNat >>> 8))).set
    (st + 2) (UInt8.ofNat (data.toNat >>> 16))).set (st + 3) (UInt8.ofNat (data.toNat >>> 24))

/-! ## The FAT -/

/-- `clear_cluster`. -/
def clearCluster (d : Disk) (clusID : Nat) : Except Fault Disk :=
  writeSector d (u16 (clusID + clusToSec)) (Bytes.zero 512)

/-- `write_fat_sector`: both copies of the FAT. -/
def writeFatSector (d : Disk) (secID : Nat) (buff : Sector) : Except Fault Disk := do
  let d ← writeSector d secID buff
  writeSector d (secID + 9) buff

/-- `get_fat_next_cluster`. -/
def getFatNextCluster (d : Disk) (clusID : Nat) : Nat :=
  let img := updateImg d
  let pos := clusID / 2 * 3 + clusID % 2
  if clusID % 2 = 0 then
    (((img (512 + pos + 1)).toNat &&& 0b00001111) <<< 8) + (img (512 + pos)).toNat
  else
    (((img (512 + pos)).toNat &&& 0b11110000) >>> 4) + ((img (512 + pos + 1)).toNat <<< 4)

/-- First half of `write_fat_next_cluster`: the byte at `pos`. -/
def fatLowByte (clusID data : Nat) (old : UInt8) : UInt8 :=
  if clusID % 2 = 0 then UInt8.ofNat data
  else
    let x := old.toNat &&& 0b00001111
    let y := data &&& 0b000000001111
    UInt8.ofNat (x + (y <<< 4))

/-- Second half of `write_fat_next_cluster`: the byte at `pos + 1`. -/
def fatHighByte (clusID data : Nat) (old : UInt8) : UInt8 :=
  if clusID % 2 = 0 then
    let x := old.toNat &&& 0b11110000
    let y := (UInt8.ofNat (data >>> 8)).toNat &&& 0b00001111
    UInt8.ofNat (x + y)
  else UInt8.ofNat (data >>> 4)

/-- `write_fat_next_cluster`. An entry that straddles two sectors takes two
read-modify-write cycles, the second one on the disk the first one left. -/
def writeFatNextCluster (d : Disk) (clusID data : Nat) : Except Fault Disk := do
  let pos := clusID / 2 * 3 + clusID % 2
  let buff ← readSector d (1 + pos / 512)
  let secpos := pos % 512
  let buff := buff.set secpos (fatLowByte clusID data (buff.get secpos))
  let (d, buff) ←
    if 1 + pos / 512 ≠ 1 + (pos + 1) / 512 then do
      let d ← writeFatSector d (1 + pos / 512) buff
      let buff ← readSector d (1 + (pos + 1) / 512)
      pure (d, buff)
    else pure (d, buff)
  let secpos := (pos + 1) % 512
  let buff := buff.set secpos (fatHighByte clusID data (buff.get secpos))
  writeFatSector d (1 + (pos + 1) / 512) buff

/-! ## Cluster allocation -/

/-- The search loop of `find_empty_cluster`: `n` more triples of bytes from
offset `i` of the image, two FAT entries each; `0xFFFF` when none is free. -/
def scanFat (img : Nat → UInt8) : Nat → Nat → Nat
  | 0, _ => 0xFFFF
  | n + 1, i =>
    let x := (((img (i + 1)).toNat &&& 0b00001111) <<< 8) + (img i).toNat
    let y := (((img (i + 1)).toNat &&& 0b11110000) >>> 4) + ((img (i + 2)).toNat <<< 4)
    if x = 0x00 then (i - 512) / 3 * 2
    else if y = 0x00 then (i - 512) / 3 * 2 + 1
    else scanFat img n (i + 3)

/-- `find_empty_cluster`. The cluster found is cleared even when the search
failed and left `clusID = -1`. -/
def findEmptyCluster (d : Disk) : Except Fault (Nat × Disk) := do
  let clusID := scanFat (updateImg d) 1536 512
  let d ← clearCluster d clusID
  pure (clusID, d)

/-- `append_a_cluster`. -/
def appendACluster (d : Disk) (clusID : Nat) : Except Fault (Nat × Disk) := do
  let (newClus, d) ← findEmptyCluster d
  if (newClus : Int) = -1 then pure (u16 0xFFFF, d)
  else
    let d ← writeFatNextCluster d clusID newClus
    let d ← writeFatNextCluster d newClus 0xFFF
    pure (newClus, d)

/-! ## Directory entries -/

/-- The offsets of the 16 directory entries of a sector. -/
def dirEntryOffsets : List Nat := (List.range 16).map (· * bytePerDirEntry)

/-- A directory entry is free when it was never used or has been deleted. -/
def slotFree (buff : Sector) (i : Nat) : Bool :=
  buff.get i == 0x00 || buff.get i == 0xE5

/-- The fields `create_dir_entry_in_sector` stores at offset `i`. -/
def putDirEntry (buff : Sector) (i : Nat) (file : File) : Sector :=
  let buff := buff.setRange i file.filename.get 11
  let buff := writeU8 buff (i + 11) file.attr
  let buff := writeU16 buff (i + 22) file.wrtTime
  let buff := writeU16 buff (i + 24) file.wrtDate
  let buff := writeU16 buff (i + 26) file.fstClus
  writeU32 buff (i + 28) file.fileSize

/-- `create_dir_entry_in_sector`: fill the first free entry of the sector. -/
def createDirEntryInSector (d : Disk) (secID : Nat) (file : File) :
    Except Fault (Bool × Disk) := do
  let buff ← readSector d secID
  match dirEntryOffsets.find? (slotFree buff) with
  | some i =>
    let d ← writeSector d secID (putDirEntry buff i file)
    pure (true, d)
  | none => pure (false, d)

end GwOS
