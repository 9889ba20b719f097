import GwOS.Kernel.Debug
import GwOS.Lib.Window

/-!
# Disk transfers (`device/ide.c`)

`ide_read` and `ide_write` split a range of sectors into chunks of at most 256, write the
count, the LBA and the disk into the registers of the channel, and move the data word by word
through the data port. The count is an 8-bit value in the register and in the driver: 256
becomes 0, which both sides read as 256.

`Drive` is the channel with its two disks as the claim of the hardware has it: the registers are
latched, a READ or WRITE command starts a transfer of the decoded count from the decoded 28-bit
LBA of the selected disk, and each word at the data port is the next one of the transfer. The
status register answers "busy" a while after every command. Waiting for the interrupt and the
lock of the channel are in `GwOS.Device.IdeChannel`.

- `ide_roundTrip`: what is written to a range is read back from it, each word of the range is
  moved once in each direction, at its own offset, and no other byte of either disk changes.
-/

namespace GwOS

open Window

/-! ## The hardware -/

/-- A word that has gone through the data port. -/
structure Moved where
  write : Bool
  disk : Bool
  /-- Byte address on the disk. -/
  addr : Nat
  /-- Offset in the buffer of the driver. -/
  offset : Nat
  deriving DecidableEq

/-- A transfer that a command has started. -/
structure Transfer where
  write : Bool
  disk : Bool
  /-- Byte address of the first sector. -/
  base : Nat
  /-- In bytes. -/
  size : Nat
  pos : Nat

/-- The two disks of a channel, `false` the master and `true` the slave, behind one set of
registers. -/
structure Drive where
  sectCnt : UInt8
  lbaL : UInt8
  lbaM : UInt8
  lbaH : UInt8
  dev : UInt8
  disk : Bool → Nat → UInt8
  xfer : Option Transfer
  /-- How many reads of the status register still say "busy". -/
  busy : Nat
  /-- How long the drive is busy after each command. -/
  latency : Nat → Nat
  cmds : Nat
  /-- The words moved so far. -/
  moved : List Moved

/-- `CMD_READ_SECTOR` -/
def cmdReadSector : UInt8 := 0x20

/-- `CMD_WRITE_SECTOR` -/
def cmdWriteSector : UInt8 := 0x30

namespace Drive

/-- The number of sectors that the count register stands for. -/
def count (d : Drive) : Nat := if d.sectCnt = 0 then 256 else d.sectCnt.toNat

/-- The 28-bit LBA of the registers. -/
def lba (d : Drive) : Nat :=
  d.lbaL.toNat + d.lbaM.toNat * 2 ^ 8 + d.lbaH.toNat * 2 ^ 16 + d.dev.toNat % 16 * 2 ^ 24

/-- Bit 4 of the device register selects the slave. -/
def slave (d : Drive) : Bool := d.dev.toNat / 16 % 2 = 1

/-- A byte in the command register: a READ or WRITE command starts a transfer. -/
def outCmd (d : Drive) (cmd : UInt8) : Drive :=
  { d with
    xfer :=
      if cmd = cmdReadSector then some ⟨false, d.slave, d.lba * 512, d.count * 512, 0⟩
      else if cmd = cmdWriteSector then some ⟨true, d.slave, d.lba * 512, d.count * 512, 0⟩
      else none
    busy := d.latency d.cmds
    cmds := d.cmds + 1 }

/-- A read of the status register: `BIT_STAT_BSY` while the drive is busy, then `BIT_STAT_DRQ`
if there is a transfer. -/
def inStatus (d : Drive) : UInt8 × Drive :=
  if d.busy ≠ 0 then (0x80, { d with busy := d.busy - 1 })
  else (if d.xfer.isSome then 0x48 else 0x40, d)

/-- One word from the data port, for the offset `off` of the buffer. -/
def inWord (d : Drive) (off : Nat) : Except Fault (UInt8 × UInt8 × Drive) :=
  match d.xfer with
  | none => .error .outOfBounds
  | some x =>
    if x.write = false ∧ x.pos + 2 ≤ x.size then
      .ok (d.disk x.disk (x.base + x.pos), d.disk x.disk (x.base + x.pos + 1),
        { d with
          xfer := some { x with pos := x.pos + 2 }
          moved := d.moved ++ [⟨false, x.disk, x.base + x.pos, off⟩] })
    else .error .outOfBounds

/-- One word to the data port, from the offset `off` of the buffer. -/
def outWord (d : Drive) (lo hi : UInt8) (off : Nat) : Except Fault Drive :=
  match d.xfer with
  | none => .error .outOfBounds
  | some x =>
    if x.write = true ∧ x.pos + 2 ≤ x.size then
      .ok { d with
        disk := Function.update d.disk x.disk
          (Function.update (Function.update (d.disk x.disk) (x.base + x.pos) lo)
            (x.base + x.pos + 1) hi)
        xfer := some { x with pos := x.pos + 2 }
        moved := d.moved ++ [⟨true, x.disk, x.base + x.pos, off⟩] }
    else .error .outOfBounds

end Drive

/-! ## The driver -/

/-- `max_lba` -/
def maxLba : UInt32 := 80 * 1024 * 1024 / 512 - 1

/-- A buffer of the caller, by offset. -/
abbrev Buffer := Nat → UInt8

namespace Drive

/-- `BIT_DEV_MBS | BIT_DEV_LBA`, with `BIT_DEV_DEV` for the slave. -/
def regDevice (hd : Bool) : UInt8 := 0xa0 ||| 0x40 ||| (if hd then 0x10 else 0)

/-- `select_disk` -/
def selectDisk (d : Drive) (hd : Bool) : Drive := { d with dev := regDevice hd }

/-- `select_sector` -/
def selectSector (d : Drive) (hd : Bool) (lba : UInt32) (secCnt : UInt8) : Except Fault Drive :=
  if lba ≤ maxLba then
    .ok { d with
      sectCnt := secCnt
      lbaL := lba.toUInt8
      lbaM := (lba >>> 8).toUInt8
      lbaH := (lba >>> 16).toUInt8
      dev := regDevice hd ||| (lba >>> 24).toUInt8 }
  else .error .assert

/-- `insw`, `cnt` words into the buffer from `off` on. -/
def insw (d : Drive) (buf : Buffer) (off : Nat) : Nat → Except Fault (Drive × Buffer)
  | 0 => .ok (d, buf)
  | cnt + 1 => do
    let (lo, hi, d) ← d.inWord off
    insw d (Function.update (Function.update buf off lo) (off + 1) hi) (off + 2) cnt

/-- `outsw`, `cnt` words of the buffer from `off` on. -/
def outsw (d : Drive) (buf : Buffer) (off : Nat) : Nat → Except Fault Drive
  | 0 => .ok d
  | cnt + 1 => do
    let d ← d.outWord (buf off) (buf (off + 1)) off
    outsw d buf (off + 2) cnt

/-- `size_in_byte` of `read_from_sector` and `write2sector`. -/
def sizeInByte (secCnt : UInt8) : Nat := if secCnt = 0 then 256 * 512 else secCnt.toNat * 512

/-- `read_from_sector` -/
def readFromSector (d : Drive) (buf : Buffer) (off : Nat) (secCnt : UInt8) :
    Except Fault (Drive × Buffer) :=
  d.insw buf off (sizeInByte secCnt / 2)

/-- `write2sector` -/
def write2sector (d : Drive) (buf : Buffer) (off : Nat) (secCnt : UInt8) : Except Fault Drive :=
  d.outsw buf off (sizeInByte secCnt / 2)

/-- The rounds of the loop of `busy_wait`: whether the drive is ready for data. -/
def busyRounds (d : Drive) : Nat → Bool × Drive
  | 0 => (false, d)
  | n + 1 =>
    let (status, d) := d.inStatus
    if status &&& 0x80 = 0 then
      let (status, d) := d.inStatus
      (status &&& 0x8 ≠ 0, d)
    else busyRounds d n

/-- `busy_wait`. The test `time_limit -= 10 >= 0` subtracts `10 >= 0`, which is one, from 30000
and ends the loop at zero. -/
def busyWait (d : Drive) : Bool × Drive := d.busyRounds 29999

/-- `secs_op` of one round. -/
def secsOp (secsDone secCnt : UInt32) : UInt32 :=
  if secsDone + 256 ≤ secCnt then 256 else secCnt - secsDone

/-- The loop of `ide_read`. -/
def readLoop (hd : Bool) (lba secCnt : UInt32) : Nat → UInt32 → Drive → Buffer →
    Except Fault (Drive × Buffer)
  | 0, _, _, _ => .error .outOfFuel
  | fuel + 1, secsDone, d, buf =>
    if secsDone < secCnt then do
      let op := secsOp secsDone secCnt
      let d ← d.selectSector hd (lba + secsDone) op.toUInt8
      let (ready, d) := (d.outCmd cmdReadSector).busyWait
      if ready then do
        let (d, buf) ← d.readFromSector buf (secsDone * 512).toNat op.toUInt8
        readLoop hd lba secCnt fuel (secsDone + op) d buf
      else .error .assert
    else .ok (d, buf)

/-- `ide_read`, into the buffer. -/
def ideRead (d : Drive) (hd : Bool) (lba : UInt32) (buf : Buffer) (secCnt : UInt32) :
    Except Fault (Drive × Buffer) :=
  if lba ≤ maxLba ∧ 0 < secCnt then
    readLoop hd lba secCnt (secCnt.toNat + 1) 0 (d.selectDisk hd) buf
  else .error .assert

/-- The loop of `ide_write`. -/
def writeLoop (hd : Bool) (lba secCnt : UInt32) (buf : Buffer) : Nat → UInt32 → Drive →
    Except Fault Drive
  | 0, _, _ => .error .outOfFuel
  | fuel + 1, secsDone, d =>
    if secsDone < secCnt then do
      let op := secsOp secsDone secCnt
      let d ← d.selectSector hd (lba + secsDone) op.toUInt8
      let (ready, d) := (d.outCmd cmdWriteSector).busyWait
      if ready then do
        let d ← d.write2sector buf (secsDone * 512).toNat op.toUInt8
        writeLoop hd lba secCnt buf fuel (secsDone + op) d
      else .error .assert
    else .ok d

/-- `ide_write`, from the buffer. -/
def ideWrite (d : Drive) (hd : Bool) (lba : UInt32) (buf : Buffer) (secCnt : UInt32) :
    Except Fault Drive :=
  if lba ≤ maxLba ∧ 0 < secCnt then
    writeLoop hd lba secCnt buf (secCnt.toNat + 1) 0 (d.selectDisk hd)
  else .error .assert

/-! ## The data port -/

section Port

variable {d : Drive} {x : Transfer}

/-- The words of a stretch of a transfer, from the offset `off` of the buffer on. -/
def words (x : Transfer) (off cnt : Nat) : List Moved :=
  (List.range cnt).map fun i => ⟨x.write, x.disk, x.base + x.pos + 2 * i, off + 2 * i⟩

theorem words_succ (x : Transfer) (off cnt : Nat) :
    words x off (cnt + 1) =
      ⟨x.write, x.disk, x.base + x.pos, off⟩ :: words { x with pos := x.pos + 2 } (off + 2) cnt := by
  rw [words, List.range_succ_eq_map, List.map_cons, List.map_map]
  refine congrArg _ (List.map_congr_left fun i _ => ?_)
  simp only [Function.comp, Moved.mk.injEq, true_and]
  omega

/-- `insw` moves the next bytes of the transfer into the buffer. -/
theorem insw_spec {cnt : Nat} : ∀ {d : Drive} {x : Transfer} {buf : Buffer} {off : Nat},
    d.xfer = some x → x.write = false → x.pos + 2 * cnt ≤ x.size →
    d.insw buf off cnt = .ok
      ({ d with xfer := some { x with pos := x.pos + 2 * cnt }, moved := d.moved ++ words x off cnt },
        overwrite buf off (2 * cnt) fun i => d.disk x.disk (x.base + x.pos + i)) := by
  induction cnt with
  | zero =>
    intro d x buf off hx _ _
    simp [insw, words, ← hx]
  | succ cnt ih =>
    intro d x buf off hx hr hsize
    have hin : d.inWord off = .ok (d.disk x.disk (x.base + x.pos), d.disk x.disk (x.base + x.pos + 1),
        { d with
          xfer := some { x with pos := x.pos + 2 }
          moved := d.moved ++ [⟨false, x.disk, x.base + x.pos, off⟩] }) := by
      rw [inWord, hx]
      exact if_pos ⟨hr, by omega⟩
    have hrest := @ih { d with
          xfer := some { x with pos := x.pos + 2 }
          moved := d.moved ++ [⟨false, x.disk, x.base + x.pos, off⟩] }
        { x with pos := x.pos + 2 }
        (Function.update (Function.update buf off (d.disk x.disk (x.base + x.pos))) (off + 1)
          (d.disk x.disk (x.base + x.pos + 1))) (off + 2) rfl hr (by show x.pos + 2 + 2 * cnt ≤ x.size; omega)
    rw [insw, hin]
    refine hrest.trans ?_
    have hwin : ∀ i, i < 2 → (if i = 0 then d.disk x.disk (x.base + x.pos)
        else d.disk x.disk (x.base + x.pos + 1)) = d.disk x.disk (x.base + x.pos + i) := by
      intro i hi
      rcases Nat.lt_or_ge i 1 with h0 | h1
      · rw [if_pos (by omega), Nat.lt_one_iff.mp h0]
        rfl
      · rw [if_neg (by omega), show i = 1 by omega]
    rw [update_update, overwrite_congr hwin, words_succ, hr]
    have happ := @overwrite_append _ buf (fun i => d.disk x.disk (x.base + x.pos + i)) off 2 (2 * cnt)
    have hpos : ∀ i, x.base + (x.pos + 2) + i = x.base + x.pos + (2 + i) := fun i => by omega
    have hsize : 2 + 2 * cnt = 2 * (cnt + 1) := by omega
    have hend : x.pos + 2 + 2 * cnt = x.pos + 2 * (cnt + 1) := by omega
    simp only [hpos, happ, hsize, hend, List.append_assoc, List.singleton_append]

/-- `outsw` moves bytes of the buffer to the next places of the transfer. -/
theorem outsw_spec {buf : Buffer} {cnt : Nat} : ∀ {d : Drive} {x : Transfer} {off : Nat},
    d.xfer = some x → x.write = true → x.pos + 2 * cnt ≤ x.size →
    d.outsw buf off cnt = .ok { d with
      disk := Function.update d.disk x.disk
        (overwrite (d.disk x.disk) (x.base + x.pos) (2 * cnt) fun i => buf (off + i))
      xfer := some { x with pos := x.pos + 2 * cnt }
      moved := d.moved ++ words x off cnt } := by
  induction cnt with
  | zero =>
    intro d x off hx _ _
    simp [outsw, words, ← hx]
  | succ cnt ih =>
    intro d x off hx hw hsize
    have hwin : ∀ i, i < 2 → (if i = 0 then buf off else buf (off + 1)) = buf (off + i) := by
      intro i hi
      rcases Nat.lt_or_ge i 1 with h0 | h1
      · rw [if_pos (by omega), Nat.lt_one_iff.mp h0]
        rfl
      · rw [if_neg (by omega), show i = 1 by omega]
    have hout : d.outWord (buf off) (buf (off + 1)) off = .ok { d with
        disk := Function.update d.disk x.disk
          (overwrite (d.disk x.disk) (x.base + x.pos) 2 fun i => buf (off + i))
        xfer := some { x with pos := x.pos + 2 }
        moved := d.moved ++ [⟨true, x.disk, x.base + x.pos, off⟩] } := by
      rw [outWord, hx]
      refine (if_pos ⟨hw, by omega⟩).trans ?_
      rw [update_update, overwrite_congr hwin]
    have hrest := @ih { d with
        disk := Function.update d.disk x.disk
          (overwrite (d.disk x.disk) (x.base + x.pos) 2 fun i => buf (off + i))
        xfer := some { x with pos := x.pos + 2 }
        moved := d.moved ++ [⟨true, x.disk, x.base + x.pos, off⟩] }
      { x with pos := x.pos + 2 } (off + 2) rfl hw (by show x.pos + 2 + 2 * cnt ≤ x.size; omega)
    rw [outsw, hout]
    refine hrest.trans ?_
    have happ := @overwrite_append _ (d.disk x.disk) (fun i => buf (off + i)) (x.base + x.pos) 2
      (2 * cnt)
    have hpos : ∀ i, off + 2 + i = off + (2 + i) := fun i => by omega
    have hbase : x.base + (x.pos + 2) = x.base + x.pos + 2 := by omega
    have hsize : 2 + 2 * cnt = 2 * (cnt + 1) := by omega
    have hend : x.pos + 2 + 2 * cnt = x.pos + 2 * (cnt + 1) := by omega
    simp only [Function.update_self, Function.update_idem, hpos, hbase, happ, hsize, hend,
      words_succ, List.append_assoc, List.singleton_append, hw]

/-- `busy_wait` sees the end of the busy time, when that comes soon enough. -/
theorem busyRounds_spec {n : Nat} : ∀ {d : Drive}, d.busy < n → d.xfer.isSome = true →
    d.busyRounds n = (true, { d with busy := 0 }) := by
  induction n with
  | zero => exact fun h => absurd h (Nat.not_lt_zero _)
  | succ n ih =>
    intro d hbusy hx
    by_cases h0 : d.busy = 0
    · have hst : d.inStatus = (0x48, d) := by simp [inStatus, h0, hx]
      have hd : { d with busy := 0 } = d := by rw [← h0]
      simp only [busyRounds, hst, hd]
      rfl
    · have hst : d.inStatus = (0x80, { d with busy := d.busy - 1 }) := by simp [inStatus, h0]
      simp only [busyRounds, hst]
      exact ih (by show d.busy - 1 < n; omega) hx

end Port

/-! ## One chunk -/

section Chunk

variable {d : Drive} {hd : Bool} {lba op : UInt32}

/-- The drive is never busy longer than `busy_wait` waits. -/
def Prompt (d : Drive) : Prop := ∀ n, d.latency n < 29999

theorem maxLba_toNat : maxLba.toNat = 163839 := by decide

/-- The count in the register stands for 256 when the driver has cut it off to 0. -/
theorem count8 (h1 : 1 ≤ op.toNat) (h2 : op.toNat ≤ 256) :
    (if op.toUInt8 = 0 then 256 else op.toUInt8.toNat) = op.toNat := by
  have hmod : op.toUInt8.toNat = op.toNat % 256 := UInt32.toNat_toUInt8 op
  by_cases h256 : op.toNat = 256
  · have h0 : op.toUInt8 = 0 := UInt8.toNat_inj.mp (by rw [hmod, h256]; rfl)
    rw [if_pos h0, h256]
  · have hne : op.toUInt8 ≠ 0 := by
      intro h0
      rw [h0] at hmod
      have : (0 : UInt8).toNat = 0 := rfl
      omega
    rw [if_neg hne, hmod]
    omega

theorem sizeInByte_eq (h1 : 1 ≤ op.toNat) (h2 : op.toNat ≤ 256) :
    sizeInByte op.toUInt8 / 2 = op.toNat * 256 := by
  have h := count8 h1 h2
  rw [sizeInByte]
  split at h
  · next h0 =>
    rw [if_pos h0]
    omega
  · next h0 =>
    rw [if_neg h0]
    omega

/-- The registers, read back: the LBA, the disk and the count are those of the driver. -/
theorem selectSector_spec (hlba : lba.toNat ≤ 163839) (h1 : 1 ≤ op.toNat) (h2 : op.toNat ≤ 256) :
    ∃ d', d.selectSector hd lba op.toUInt8 = .ok d' ∧ d'.lba = lba.toNat ∧ d'.slave = hd ∧
      d'.count = op.toNat ∧ d'.disk = d.disk ∧ d'.latency = d.latency ∧ d'.moved = d.moved := by
  have hle : lba ≤ maxLba := by rw [UInt32.le_iff_toNat_le, maxLba_toNat]; exact hlba
  have hhigh : (lba >>> 24).toUInt8 = 0 := by
    refine UInt8.toNat_inj.mp ?_
    simp [UInt32.toNat_shiftRight, Nat.shiftRight_eq_div_pow]
    omega
  refine ⟨_, if_pos hle, ?_, ?_, count8 h1 h2, rfl, rfl, rfl⟩
  · have hl : lba.toUInt8.toNat = lba.toNat % 256 := UInt32.toNat_toUInt8 lba
    have hm : (lba >>> 8).toUInt8.toNat = lba.toNat / 256 % 256 := by
      simp [UInt32.toNat_shiftRight, Nat.shiftRight_eq_div_pow]
    have hh : (lba >>> 16).toUInt8.toNat = lba.toNat / 65536 % 256 := by
      simp [UInt32.toNat_shiftRight, Nat.shiftRight_eq_div_pow]
    have hdev : (regDevice hd ||| (lba >>> 24).toUInt8).toNat % 16 = 0 := by
      rw [hhigh]
      cases hd <;> rfl
    show lba.toUInt8.toNat + (lba >>> 8).toUInt8.toNat * 2 ^ 8 + (lba >>> 16).toUInt8.toNat * 2 ^ 16 +
      (regDevice hd ||| (lba >>> 24).toUInt8).toNat % 16 * 2 ^ 24 = lba.toNat
    rw [hl, hm, hh, hdev]
    omega
  · show decide ((regDevice hd ||| (lba >>> 24).toUInt8).toNat / 16 % 2 = 1) = hd
    rw [hhigh]
    cases hd <;> decide

/-- What the command of one round leaves: a transfer of the chunk, ready for its data. -/
structure Ready (d d' : Drive) (write hd : Bool) (lba secs : Nat) : Prop where
  xfer : d'.xfer = some ⟨write, hd, lba * 512, secs * 512, 0⟩
  disk : d'.disk = d.disk
  latency : d'.latency = d.latency
  moved : d'.moved = d.moved

/-- The registers, the command and the wait of one round. -/
theorem command_spec (hp : d.Prompt) (hlba : lba.toNat ≤ 163839) (h1 : 1 ≤ op.toNat)
    (h2 : op.toNat ≤ 256) (write : Bool) :
    ∃ d₁ d₂, d.selectSector hd lba op.toUInt8 = .ok d₁ ∧
      (d₁.outCmd (if write then cmdWriteSector else cmdReadSector)).busyWait = (true, d₂) ∧
      Ready d d₂ write hd lba.toNat op.toNat := by
  obtain ⟨d₁, hsel, hl, hs, hc, hdisk, hlat, hmoved⟩ := @selectSector_spec d hd lba op hlba h1 h2
  have hx : (d₁.outCmd (if write then cmdWriteSector else cmdReadSector)).xfer =
      some ⟨write, hd, lba.toNat * 512, op.toNat * 512, 0⟩ := by
    cases write
    · simp [outCmd, hl, hs, hc]
    · simp [outCmd, cmdReadSector, cmdWriteSector, hl, hs, hc]
  have hbusy : (d₁.outCmd (if write then cmdWriteSector else cmdReadSector)).busy < 29999 := by
    show d₁.latency d₁.cmds < 29999
    rw [hlat]
    exact hp _
  refine ⟨d₁, _, hsel, busyRounds_spec hbusy (by rw [hx]; rfl), hx, hdisk, hlat, hmoved⟩

/-- The words of the sectors `k` to `k + m` of a range. -/
def sectorWords (write hd : Bool) (lba k m : Nat) : List Moved :=
  (List.range' (k * 256) (m * 256)).map fun i => ⟨write, hd, lba * 512 + 2 * i, 2 * i⟩

theorem sectorWords_append (write hd : Bool) (lba k m m' : Nat) :
    sectorWords write hd lba k m ++ sectorWords write hd lba (k + m) m' =
      sectorWords write hd lba k (m + m') := by
  rw [sectorWords, sectorWords, sectorWords, ← List.map_append, Nat.add_mul, Nat.add_mul,
    List.range'_append_1]

/-- The words of a chunk of a range. -/
theorem words_eq (write hd : Bool) (lba k m : Nat) :
    words ⟨write, hd, (lba + k) * 512, m * 512, 0⟩ (k * 512) (m * 256) =
      sectorWords write hd lba k m := by
  rw [words, sectorWords, List.range'_eq_map_range, List.map_map]
  refine List.map_congr_left fun i _ => ?_
  simp only [Function.comp, Moved.mk.injEq, true_and]
  omega

end Chunk

/-! ## The loops -/

section Loops

variable {hd : Bool} {lba secCnt : UInt32}

/-- The numbers of one round: nothing overflows, and a chunk has 1 to 256 sectors. -/
theorem round_numbers (hrange : lba.toNat + secCnt.toNat ≤ 163840) {secsDone : UInt32}
    (hlt : secsDone.toNat < secCnt.toNat) :
    1 ≤ (secsOp secsDone secCnt).toNat ∧ (secsOp secsDone secCnt).toNat ≤ 256 ∧
    secsDone.toNat + (secsOp secsDone secCnt).toNat ≤ secCnt.toNat ∧
    (secsDone + secsOp secsDone secCnt).toNat = secsDone.toNat + (secsOp secsDone secCnt).toNat ∧
    (lba + secsDone).toNat = lba.toNat + secsDone.toNat ∧
    (secsDone * 512).toNat = secsDone.toNat * 512 := by
  have h256 : (secsDone + 256).toNat = secsDone.toNat + 256 := by
    rw [UInt32.toNat_add]
    exact Nat.mod_eq_of_lt (by have : (256 : UInt32).toNat = 256 := rfl; omega)
  have hop : (secsOp secsDone secCnt).toNat =
      if secsDone.toNat + 256 ≤ secCnt.toNat then 256 else secCnt.toNat - secsDone.toNat := by
    rw [secsOp]
    have hiff : secsDone + 256 ≤ secCnt ↔ secsDone.toNat + 256 ≤ secCnt.toNat := by
      rw [UInt32.le_iff_toNat_le, h256]
    by_cases hc : secsDone + 256 ≤ secCnt
    · rw [if_pos hc, if_pos (hiff.mp hc)]
      rfl
    · rw [if_neg hc, if_neg (mt hiff.mpr hc),
        UInt32.toNat_sub_of_le _ _ (UInt32.le_iff_toNat_le.mpr (Nat.le_of_lt hlt))]
  have hbounds : 1 ≤ (secsOp secsDone secCnt).toNat ∧ (secsOp secsDone secCnt).toNat ≤ 256 ∧
      secsDone.toNat + (secsOp secsDone secCnt).toNat ≤ secCnt.toNat := by
    rw [hop]
    split <;> omega
  refine ⟨hbounds.1, hbounds.2.1, hbounds.2.2, ?_, ?_, ?_⟩
  · rw [UInt32.toNat_add]
    exact Nat.mod_eq_of_lt (by omega)
  · rw [UInt32.toNat_add]
    exact Nat.mod_eq_of_lt (by omega)
  · rw [UInt32.toNat_mul]
    exact Nat.mod_eq_of_lt (show secsDone.toNat * 512 < 2 ^ 32 by omega)

/-- One round of `ide_read`. -/
theorem readRound (hrange : lba.toNat + secCnt.toNat ≤ 163840) {secsDone : UInt32}
    (hlt : secsDone.toNat < secCnt.toNat) {d : Drive} (hp : d.Prompt) (buf : Buffer) :
    ∃ d₁ d₂ d₃, d.selectSector hd (lba + secsDone) (secsOp secsDone secCnt).toUInt8 = .ok d₁ ∧
      (d₁.outCmd cmdReadSector).busyWait = (true, d₂) ∧
      d₂.readFromSector buf (secsDone * 512).toNat (secsOp secsDone secCnt).toUInt8 = .ok (d₃,
        overwrite buf (secsDone.toNat * 512) ((secsOp secsDone secCnt).toNat * 512)
          fun i => d.disk hd ((lba.toNat + secsDone.toNat) * 512 + i)) ∧
      d₃.disk = d.disk ∧ d₃.Prompt ∧
      d₃.moved = d.moved ++ sectorWords false hd lba.toNat secsDone.toNat
        (secsOp secsDone secCnt).toNat := by
  obtain ⟨h1, h2, h3, -, hlba, hoff⟩ := round_numbers hrange hlt
  obtain ⟨d₁, d₂, hsel, hwait, hready⟩ := @command_spec d hd (lba + secsDone)
    (secsOp secsDone secCnt) hp (by omega) h1 h2 false
  rw [hlba] at hready
  have hbytes : 2 * ((secsOp secsDone secCnt).toNat * 256) = (secsOp secsDone secCnt).toNat * 512 := by
    omega
  have hfits : 0 + 2 * ((secsOp secsDone secCnt).toNat * 256) ≤
      (secsOp secsDone secCnt).toNat * 512 := by omega
  obtain ⟨d₃, hin, hdisk, hlat, hmoved⟩ :
      ∃ d₃, d₂.insw buf (secsDone.toNat * 512) ((secsOp secsDone secCnt).toNat * 256) = .ok (d₃,
          overwrite buf (secsDone.toNat * 512) (2 * ((secsOp secsDone secCnt).toNat * 256))
            fun i => d₂.disk hd ((lba.toNat + secsDone.toNat) * 512 + 0 + i)) ∧
        d₃.disk = d₂.disk ∧ d₃.latency = d₂.latency ∧ d₃.moved = d₂.moved ++ words
          ⟨false, hd, (lba.toNat + secsDone.toNat) * 512, (secsOp secsDone secCnt).toNat * 512, 0⟩
          (secsDone.toNat * 512) ((secsOp secsDone secCnt).toNat * 256) :=
    ⟨_, insw_spec hready.xfer rfl hfits, rfl, rfl, rfl⟩
  refine ⟨d₁, d₂, d₃, hsel, hwait, ?_, hdisk.trans hready.disk, fun n => ?_, ?_⟩
  · rw [readFromSector, hoff, sizeInByte_eq h1 h2, hin, hbytes, hready.disk]
    simp only [Nat.add_zero]
  · rw [hlat, hready.latency]
    exact hp n
  · rw [hmoved, words_eq, hready.moved]

/-- **The loop of `ide_read`** from any round on: the rest of the range goes to the rest of the
buffer, and the disks stay as they are. -/
theorem readLoop_spec (hrange : lba.toNat + secCnt.toNat ≤ 163840) {fuel : Nat} :
    ∀ {secsDone : UInt32} {d : Drive} {buf : Buffer}, secsDone.toNat ≤ secCnt.toNat →
      secCnt.toNat - secsDone.toNat < fuel → d.Prompt →
      ∃ d', readLoop hd lba secCnt fuel secsDone d buf = .ok (d',
          overwrite buf (secsDone.toNat * 512) ((secCnt.toNat - secsDone.toNat) * 512)
            fun i => d.disk hd ((lba.toNat + secsDone.toNat) * 512 + i)) ∧
        d'.disk = d.disk ∧ d'.Prompt ∧
        d'.moved = d.moved ++ sectorWords false hd lba.toNat secsDone.toNat
          (secCnt.toNat - secsDone.toNat) := by
  induction fuel with
  | zero => exact fun _ h => absurd h (Nat.not_lt_zero _)
  | succ fuel ih =>
    intro secsDone d buf hle hfuel hp
    by_cases hlt : secsDone.toNat < secCnt.toNat
    · obtain ⟨h1, -, h3, hdone, -, -⟩ := round_numbers hrange hlt
      have hrest : (secsOp secsDone secCnt).toNat +
          (secCnt.toNat - (secsDone.toNat + (secsOp secsDone secCnt).toNat)) =
          secCnt.toNat - secsDone.toNat := by omega
      obtain ⟨d₁, d₂, d₃, hsel, hwait, hread, hdisk₃, hp₃, hmoved₃⟩ :=
        @readRound hd _ _ hrange _ hlt d hp buf
      obtain ⟨d', hloop, hdisk, hp', hmoved⟩ := @ih (secsDone + secsOp secsDone secCnt) d₃ _
        (by omega) (by omega) hp₃
      refine ⟨d', ?_, hdisk.trans hdisk₃, hp', ?_⟩
      · rw [readLoop, if_pos (UInt32.lt_iff_toNat_lt.mpr hlt)]
        simp only [hsel, hwait, hread, bind, Except.bind, if_true]
        rw [hloop, hdisk₃, hdone]
        -- the window of the round and the window of the rest meet
        have happ := @overwrite_append _ buf
          (fun i => d.disk hd ((lba.toNat + secsDone.toNat) * 512 + i)) (secsDone.toNat * 512)
          ((secsOp secsDone secCnt).toNat * 512)
          ((secCnt.toNat - (secsDone.toNat + (secsOp secsDone secCnt).toNat)) * 512)
        rw [← Nat.add_mul (secsOp secsDone secCnt).toNat, hrest] at happ
        rw [← happ]
        simp only [Nat.add_mul, Nat.add_assoc]
      · rw [hmoved, hmoved₃, hdone, List.append_assoc, sectorWords_append, hrest]
    · have heq : secsDone.toNat = secCnt.toNat := by omega
      refine ⟨d, ?_, rfl, hp, ?_⟩
      · rw [readLoop, if_neg (by rw [UInt32.lt_iff_toNat_lt]; exact hlt), heq, Nat.sub_self,
          Nat.zero_mul, overwrite_zero]
      · rw [heq, Nat.sub_self, sectorWords, Nat.zero_mul]
        exact (List.append_nil _).symm

/-- One round of `ide_write`. -/
theorem writeRound (hrange : lba.toNat + secCnt.toNat ≤ 163840) {secsDone : UInt32}
    (hlt : secsDone.toNat < secCnt.toNat) {d : Drive} (hp : d.Prompt) (buf : Buffer) :
    ∃ d₁ d₂ d₃, d.selectSector hd (lba + secsDone) (secsOp secsDone secCnt).toUInt8 = .ok d₁ ∧
      (d₁.outCmd cmdWriteSector).busyWait = (true, d₂) ∧
      d₂.write2sector buf (secsDone * 512).toNat (secsOp secsDone secCnt).toUInt8 = .ok d₃ ∧
      d₃.disk = Function.update d.disk hd (overwrite (d.disk hd)
        ((lba.toNat + secsDone.toNat) * 512) ((secsOp secsDone secCnt).toNat * 512)
        fun i => buf (secsDone.toNat * 512 + i)) ∧ d₃.Prompt ∧
      d₃.moved = d.moved ++ sectorWords true hd lba.toNat secsDone.toNat
        (secsOp secsDone secCnt).toNat := by
  obtain ⟨h1, h2, h3, -, hlba, hoff⟩ := round_numbers hrange hlt
  obtain ⟨d₁, d₂, hsel, hwait, hready⟩ := @command_spec d hd (lba + secsDone)
    (secsOp secsDone secCnt) hp (by omega) h1 h2 true
  rw [hlba] at hready
  have hbytes : 2 * ((secsOp secsDone secCnt).toNat * 256) = (secsOp secsDone secCnt).toNat * 512 := by
    omega
  have hfits : 0 + 2 * ((secsOp secsDone secCnt).toNat * 256) ≤
      (secsOp secsDone secCnt).toNat * 512 := by omega
  obtain ⟨d₃, hout, hdisk, hlat, hmoved⟩ :
      ∃ d₃, d₂.outsw buf (secsDone.toNat * 512) ((secsOp secsDone secCnt).toNat * 256) = .ok d₃ ∧
        d₃.disk = Function.update d₂.disk hd (overwrite (d₂.disk hd)
          ((lba.toNat + secsDone.toNat) * 512 + 0) (2 * ((secsOp secsDone secCnt).toNat * 256))
          fun i => buf (secsDone.toNat * 512 + i)) ∧
        d₃.latency = d₂.latency ∧ d₃.moved = d₂.moved ++ words
          ⟨true, hd, (lba.toNat + secsDone.toNat) * 512, (secsOp secsDone secCnt).toNat * 512, 0⟩
          (secsDone.toNat * 512) ((secsOp secsDone secCnt).toNat * 256) :=
    ⟨_, outsw_spec hready.xfer rfl hfits, rfl, rfl, rfl⟩
  refine ⟨d₁, d₂, d₃, hsel, hwait, ?_, ?_, fun n => ?_, ?_⟩
  · rw [write2sector, hoff, sizeInByte_eq h1 h2, hout]
  · rw [hdisk, hbytes, hready.disk]
    simp only [Nat.add_zero]
  · rw [hlat, hready.latency]
    exact hp n
  · rw [hmoved, words_eq, hready.moved]

/-- **The loop of `ide_write`** from any round on: the rest of the buffer goes to the rest of the
range. -/
theorem writeLoop_spec (hrange : lba.toNat + secCnt.toNat ≤ 163840) {buf : Buffer} {fuel : Nat} :
    ∀ {secsDone : UInt32} {d : Drive}, secsDone.toNat ≤ secCnt.toNat →
      secCnt.toNat - secsDone.toNat < fuel → d.Prompt →
      ∃ d', writeLoop hd lba secCnt buf fuel secsDone d = .ok d' ∧
        d'.disk = Function.update d.disk hd (overwrite (d.disk hd)
          ((lba.toNat + secsDone.toNat) * 512) ((secCnt.toNat - secsDone.toNat) * 512)
          fun i => buf (secsDone.toNat * 512 + i)) ∧ d'.Prompt ∧
        d'.moved = d.moved ++ sectorWords true hd lba.toNat secsDone.toNat
          (secCnt.toNat - secsDone.toNat) := by
  induction fuel with
  | zero => exact fun _ h => absurd h (Nat.not_lt_zero _)
  | succ fuel ih =>
    intro secsDone d hle hfuel hp
    by_cases hlt : secsDone.toNat < secCnt.toNat
    · obtain ⟨h1, -, h3, hdone, -, -⟩ := round_numbers hrange hlt
      have hrest : (secsOp secsDone secCnt).toNat +
          (secCnt.toNat - (secsDone.toNat + (secsOp secsDone secCnt).toNat)) =
          secCnt.toNat - secsDone.toNat := by omega
      obtain ⟨d₁, d₂, d₃, hsel, hwait, hwrite, hdisk₃, hp₃, hmoved₃⟩ :=
        @writeRound hd _ _ hrange _ hlt d hp buf
      obtain ⟨d', hloop, hdisk, hp', hmoved⟩ := @ih (secsDone + secsOp secsDone secCnt) d₃
        (by omega) (by omega) hp₃
      refine ⟨d', ?_, ?_, hp', ?_⟩
      · rw [writeLoop, if_pos (UInt32.lt_iff_toNat_lt.mpr hlt)]
        simp only [hsel, hwait, hwrite, bind, Except.bind, if_true]
        exact hloop
      · -- the window of the round and the window of the rest meet
        have happ := @overwrite_append _ (d.disk hd) (fun i => buf (secsDone.toNat * 512 + i))
          ((lba.toNat + secsDone.toNat) * 512) ((secsOp secsDone secCnt).toNat * 512)
          ((secCnt.toNat - (secsDone.toNat + (secsOp secsDone secCnt).toNat)) * 512)
        rw [← Nat.add_mul (secsOp secsDone secCnt).toNat, hrest] at happ
        rw [hdisk, hdisk₃, hdone, Function.update_self, Function.update_idem, ← happ]
        simp only [Nat.add_mul, Nat.add_assoc]
      · rw [hmoved, hmoved₃, hdone, List.append_assoc, sectorWords_append, hrest]
    · have heq : secsDone.toNat = secCnt.toNat := by omega
      refine ⟨d, ?_, ?_, hp, ?_⟩
      · rw [writeLoop, if_neg (by rw [UInt32.lt_iff_toNat_lt]; exact hlt)]
      · rw [heq, Nat.sub_self, Nat.zero_mul, overwrite_zero, Function.update_eq_self]
      · rw [heq, Nat.sub_self, sectorWords, Nat.zero_mul]
        exact (List.append_nil _).symm

end Loops

/-! ## The two calls -/

section Calls

variable {d : Drive} {lba secCnt : UInt32}

/-- `ide_write` puts the buffer into the range. -/
theorem ideWrite_spec (hp : d.Prompt) (hd : Bool) (hpos : 0 < secCnt.toNat)
    (hrange : lba.toNat + secCnt.toNat ≤ 163840) (buf : Buffer) :
    ∃ d', d.ideWrite hd lba buf secCnt = .ok d' ∧
      d'.disk = Function.update d.disk hd
        (overwrite (d.disk hd) (lba.toNat * 512) (secCnt.toNat * 512) buf) ∧ d'.Prompt ∧
      d'.moved = d.moved ++ sectorWords true hd lba.toNat 0 secCnt.toNat := by
  have hassert : lba ≤ maxLba ∧ 0 < secCnt := by
    rw [UInt32.le_iff_toNat_le, UInt32.lt_iff_toNat_lt, maxLba_toNat]
    exact ⟨by omega, hpos⟩
  obtain ⟨d', hloop, hdisk, hp', hmoved⟩ := @writeLoop_spec hd lba secCnt hrange buf
    (secCnt.toNat + 1) 0 (d.selectDisk hd) (Nat.zero_le _) (Nat.lt_succ_of_le (Nat.sub_le _ _)) hp
  refine ⟨d', ?_, ?_, hp', hmoved⟩
  · rw [ideWrite, if_pos hassert, hloop]
  · rw [hdisk]
    simp [selectDisk]

/-- `ide_read` puts the range into the buffer. -/
theorem ideRead_spec (hp : d.Prompt) (hd : Bool) (hpos : 0 < secCnt.toNat)
    (hrange : lba.toNat + secCnt.toNat ≤ 163840) (buf : Buffer) :
    ∃ d', d.ideRead hd lba buf secCnt = .ok (d',
        overwrite buf 0 (secCnt.toNat * 512) fun i => d.disk hd (lba.toNat * 512 + i)) ∧
      d'.disk = d.disk ∧ d'.Prompt ∧
      d'.moved = d.moved ++ sectorWords false hd lba.toNat 0 secCnt.toNat := by
  have hassert : lba ≤ maxLba ∧ 0 < secCnt := by
    rw [UInt32.le_iff_toNat_le, UInt32.lt_iff_toNat_lt, maxLba_toNat]
    exact ⟨by omega, hpos⟩
  obtain ⟨d', hloop, hdisk, hp', hmoved⟩ := @readLoop_spec hd lba secCnt hrange (secCnt.toNat + 1) 0
    (d.selectDisk hd) buf (Nat.zero_le _) (Nat.lt_succ_of_le (Nat.sub_le _ _)) hp
  refine ⟨d', ?_, hdisk, hp', hmoved⟩
  rw [ideRead, if_pos hassert, hloop]
  simp [selectDisk]

end Calls

/-- **The round trip of a transfer**: for every disk, every range of the disk and every buffer,
`ide_write` and then `ide_read` of the range return, the buffer comes back, every word of the
range goes through the data port once in each direction, between its place on the disk and its
own offset, and no other byte of either disk and of the buffer changes. -/
theorem ide_roundTrip {d : Drive} (hp : d.Prompt) (hd : Bool) {lba secCnt : UInt32}
    (hpos : 0 < secCnt.toNat) (hrange : lba.toNat + secCnt.toNat ≤ maxLba.toNat + 1)
    (buf buf' : Buffer) :
    ∃ d₁ d₂ out, d.ideWrite hd lba buf secCnt = .ok d₁ ∧ d₁.ideRead hd lba buf' secCnt = .ok (d₂, out) ∧
      (∀ p, p < secCnt.toNat * 512 → out p = buf p) ∧
      (∀ p, secCnt.toNat * 512 ≤ p → out p = buf' p) ∧
      (∀ h a, h ≠ hd ∨ a / 512 < lba.toNat ∨ lba.toNat + secCnt.toNat ≤ a / 512 →
        d₂.disk h a = d.disk h a) ∧
      d₁.moved = d.moved ++ (List.range (secCnt.toNat * 256)).map
        (fun i => ⟨true, hd, lba.toNat * 512 + 2 * i, 2 * i⟩) ∧
      d₂.moved = d₁.moved ++ (List.range (secCnt.toNat * 256)).map
        (fun i => ⟨false, hd, lba.toNat * 512 + 2 * i, 2 * i⟩) := by
  have hrange' : lba.toNat + secCnt.toNat ≤ 163840 := by
    rw [maxLba_toNat] at hrange
    omega
  obtain ⟨d₁, hw, hdisk₁, hp₁, hmoved₁⟩ := ideWrite_spec hp hd hpos hrange' buf
  obtain ⟨d₂, hr, hdisk₂, -, hmoved₂⟩ := ideRead_spec hp₁ hd hpos hrange' buf'
  refine ⟨d₁, d₂, _, hw, hr, fun p hlt => ?_, fun p hge => ?_, fun h a ha => ?_, ?_, ?_⟩
  · rw [overwrite_of_mem (Nat.zero_le p) (by omega), hdisk₁, Function.update_self,
      overwrite_of_mem (by omega) (by omega)]
    congr 1
    omega
  · exact overwrite_of_not_mem (by omega)
  · rw [hdisk₂, hdisk₁]
    rcases ha with hne | hout
    · rw [Function.update_of_ne hne]
    · by_cases hh : h = hd
      · subst hh
        rw [Function.update_self]
        exact overwrite_of_not_mem (by omega)
      · rw [Function.update_of_ne hh]
  · rw [hmoved₁, sectorWords, Nat.zero_mul, List.range_eq_range']
  · rw [hmoved₂, sectorWords, Nat.zero_mul, List.range_eq_range']

/-- Two empty disks that are never busy. -/
def idleDrive : Drive := ⟨0, 0, 0, 0, 0, fun _ _ => 0, none, 0, fun _ => 0, 0, []⟩

/-- A range of 257 sectors, which takes a chunk with the count 0 and a chunk with the count 1. -/
theorem ide_roundTrip_twoChunks :
    ∃ d₁ d₂ out, idleDrive.ideWrite true 5 (fun i => i.toUInt8) 257 = .ok d₁ ∧
      d₁.ideRead true 5 (fun _ => 0) 257 = .ok (d₂, out) ∧ out 131073 = 1 := by
  have hp : idleDrive.Prompt := fun n => show 0 < 29999 by decide
  obtain ⟨d₁, d₂, out, hw, hr, hout, -⟩ := @ide_roundTrip idleDrive hp true 5 257
    (by decide) (by decide) (fun i => i.toUInt8) (fun _ => 0)
  refine ⟨d₁, d₂, out, hw, hr, ?_⟩
  rw [hout 131073 (by decide)]
  decide

end Drive

end GwOS
