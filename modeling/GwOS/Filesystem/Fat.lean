import GwOS.Filesystem.Disk
import GwOS.Lib.Chain
import Mathlib.Tactic.Common

/-!
# The FAT as an array of 12-bit entries

`disk.c` packs two 12-bit entries into three bytes and keeps two copies of the
table, in sectors 1 to 9 and 10 to 18. This file shows that the packing is an
array: `write_fat_next_cluster` updates one entry modulo 4096 and no other,
touches no sector outside the two copies and keeps equal copies equal
(`writeFatNextCluster_codec`).

The bytes are handled through `fatByte`, the flat view of copy 1: an entry at
`fatPos c` and `fatPos c + 1` may straddle a sector boundary, and in the flat
view it does not matter whether it does. The codec lemmas below are the only
place where the packing is unfolded; later files see `getFatNextCluster` and
`putFat` only.
-/

namespace GwOS

/-- Number of FAT entries that fit in the nine sectors of one copy. -/
def fatEntries : Nat := 3072

/-- Byte `k` of FAT copy 1. -/
def fatByte (d : Disk) (k : Nat) : UInt8 := (d (1 + k / 512)).get (k % 512)

/-- Offset in the FAT of the first byte of entry `c`. -/
def fatPos (c : Nat) : Nat := c / 2 * 3 + c % 2

/-- FAT copy 1 (sectors 1..9) equals FAT copy 2 (sectors 10..18). -/
def FatMirrored (d : Disk) : Prop := ∀ k, 1 ≤ k → k ≤ 9 → d k = d (k + 9)

/-! ## Reading an entry -/

theorem updateImg_fat (d : Disk) {k : Nat} (h : k < 9728) :
    updateImg d (512 + k) = fatByte d k := by
  have h1 : 512 + k < 512 * 20 := by omega
  have h2 : (512 + k) / 512 = 1 + k / 512 := by omega
  have h3 : (512 + k) % 512 = k % 512 := by omega
  rw [updateImg, if_pos h1, h2, h3, fatByte]

/-- An entry in terms of its two bytes. -/
theorem getFat_eq (d : Disk) {c : Nat} (hc : c < 4096) :
    getFatNextCluster d c =
      if c % 2 = 0 then
        (fatByte d (fatPos c + 1)).toNat % 16 * 256 + (fatByte d (fatPos c)).toNat
      else
        (fatByte d (fatPos c)).toNat / 16 + (fatByte d (fatPos c + 1)).toNat * 16 := by
  have hpos : c / 2 * 3 + c % 2 = fatPos c := rfl
  have hlt : fatPos c + 1 < 9728 := by
    unfold fatPos
    omega
  have h0 : updateImg d (512 + fatPos c) = fatByte d (fatPos c) :=
    updateImg_fat d (by omega)
  have h1 : updateImg d (512 + fatPos c + 1) = fatByte d (fatPos c + 1) := by
    rw [Nat.add_assoc]
    exact updateImg_fat d hlt
  simp only [getFatNextCluster, hpos, h0, h1]
  rw [Nibble.and_low, Nibble.and_high, Nibble.shiftLeft_eight, Nibble.shiftLeft_four,
    Nibble.shiftRight_four, Nat.mul_div_cancel _ (by decide : 0 < 16)]

/-- Every entry is a 12-bit value. -/
theorem getFat_lt (d : Disk) {c : Nat} (hc : c < 4096) : getFatNextCluster d c < 4096 := by
  rw [getFat_eq d hc]
  have h0 := (fatByte d (fatPos c)).toNat_lt
  have h1 := (fatByte d (fatPos c + 1)).toNat_lt
  split <;> omega

/-- An entry depends on the bytes of copy 1 only. -/
theorem getFat_congr {d d' : Disk} {c : Nat} (hc : c < 4096)
    (h : ∀ k, k = fatPos c ∨ k = fatPos c + 1 → fatByte d' k = fatByte d k) :
    getFatNextCluster d' c = getFatNextCluster d c := by
  rw [getFat_eq d hc, getFat_eq d' hc, h _ (.inl rfl), h _ (.inr rfl)]

/-! ## Writing an entry -/

/-- Store one byte of the FAT through its sector of copy 1, and that sector in
copy 2: the effect of one read-modify-write cycle. -/
def pokeFat (d : Disk) (k : Nat) (v : UInt8) : Disk :=
  let buff := (d (1 + k / 512)).set (k % 512) v
  Function.update (Function.update d (1 + k / 512) buff) (1 + k / 512 + 9) buff

/-- A poke writes one sector of each copy. -/
theorem pokeFat_other (d : Disk) {k : Nat} (v : UInt8) {sec : Nat}
    (h : sec ≠ 1 + k / 512) (h' : sec ≠ 1 + k / 512 + 9) : pokeFat d k v sec = d sec := by
  rw [pokeFat, Function.update_of_ne h', Function.update_of_ne h]

theorem pokeFat_first (d : Disk) (k : Nat) (v : UInt8) :
    pokeFat d k v (1 + k / 512) = (d (1 + k / 512)).set (k % 512) v := by
  rw [pokeFat, Function.update_of_ne (by omega), Function.update_self]

theorem pokeFat_second (d : Disk) (k : Nat) (v : UInt8) :
    pokeFat d k v (1 + k / 512 + 9) = (d (1 + k / 512)).set (k % 512) v := by
  rw [pokeFat, Function.update_self]

/-- In the flat view of copy 1 a poke is an array store. -/
theorem fatByte_pokeFat (d : Disk) {k j : Nat} (v : UInt8) (hj : j < 4608) :
    fatByte (pokeFat d k v) j = if j = k then v else fatByte d j := by
  by_cases hs : 1 + j / 512 = 1 + k / 512
  · rw [fatByte, hs, pokeFat_first, Bytes.get_set _ _ (Nat.mod_lt _ (by decide))]
    by_cases hjk : j = k
    · rw [if_pos (by rw [hjk]), if_pos hjk]
    · rw [if_neg (by omega), if_neg hjk, fatByte, hs]
  · rw [fatByte, pokeFat_other d v hs (by omega), if_neg (by rintro rfl; exact hs rfl), fatByte]

theorem FatMirrored.poke {d : Disk} (h : FatMirrored d) {k : Nat} (v : UInt8)
    (hk : k < 4608) : FatMirrored (pokeFat d k v) := by
  intro sec h1 h9
  by_cases hs : sec = 1 + k / 512
  · rw [hs, pokeFat_first, pokeFat_second]
  · rw [pokeFat_other d v hs (by omega), pokeFat_other d v (by omega) (by omega), h sec h1 h9]

/-- The disk `write_fat_next_cluster` leaves: its two bytes stored one after the
other. When both lie in one sector the source makes one cycle of the two. -/
def putFat (d : Disk) (c data : Nat) : Disk :=
  let d := pokeFat d (fatPos c) (fatLowByte c data (fatByte d (fatPos c)))
  pokeFat d (fatPos c + 1) (fatHighByte c data (fatByte d (fatPos c + 1)))

theorem writeFatSector_ok (d : Disk) {sec : Nat} (buff : Sector) (h : sec + 9 ≤ secCnt) :
    writeFatSector d sec buff =
      .ok (Function.update (Function.update d sec buff) (sec + 9) buff) := by
  have h' : sec ≤ secCnt := by omega
  simp [writeFatSector, writeSector, h, h', bind, Except.bind]

/-- Storing into two bytes of one sector in one cycle or in two is the same. -/
theorem pokeFat_pokeFat_same (d : Disk) {k : Nat} (v w : UInt8)
    (hs : 1 + (k + 1) / 512 = 1 + k / 512) :
    pokeFat (pokeFat d k v) (k + 1) w =
      Function.update (Function.update d (1 + k / 512)
          (((d (1 + k / 512)).set (k % 512) v).set ((k + 1) % 512) w)) (1 + k / 512 + 9)
        (((d (1 + k / 512)).set (k % 512) v).set ((k + 1) % 512) w) := by
  funext sec
  by_cases h1 : sec = 1 + k / 512
  · have h1' : sec = 1 + (k + 1) / 512 := by omega
    rw [h1', pokeFat_first, hs, pokeFat_first, Function.update_of_ne (by omega),
      Function.update_self]
  · by_cases h2 : sec = 1 + k / 512 + 9
    · have h2' : sec = 1 + (k + 1) / 512 + 9 := by omega
      rw [h2', pokeFat_second, hs, pokeFat_first, Function.update_self]
    · rw [pokeFat_other _ _ (by omega) (by omega), pokeFat_other _ _ h1 h2,
        Function.update_of_ne h2, Function.update_of_ne h1]

/-- `write_fat_next_cluster` never trips an `ASSERT`: a 16-bit cluster number
stays below sector 203. -/
theorem writeFat_ok (d : Disk) {c : Nat} (data : Nat) (hc : c < 65536) :
    writeFatNextCluster d c data = .ok (putFat d c data) := by
  have hpos : c / 2 * 3 + c % 2 = fatPos c := rfl
  have hlt : fatPos c < 98304 := by
    unfold fatPos
    omega
  have h1 : 1 + fatPos c / 512 + 9 ≤ secCnt := by
    unfold secCnt
    omega
  have h2 : 1 + (fatPos c + 1) / 512 + 9 ≤ secCnt := by
    unfold secCnt
    omega
  have r1 : readSector d (1 + fatPos c / 512) = .ok (d (1 + fatPos c / 512)) :=
    if_pos (by omega)
  have r2 : ∀ d' : Disk, readSector d' (1 + (fatPos c + 1) / 512) =
      .ok (d' (1 + (fatPos c + 1) / 512)) := fun d' => if_pos (by omega)
  unfold writeFatNextCluster putFat
  simp only [hpos, r1, bind, Except.bind]
  by_cases hs : 1 + fatPos c / 512 = 1 + (fatPos c + 1) / 512
  · have hne : (fatPos c + 1) % 512 ≠ fatPos c % 512 := by omega
    have hb : ∀ v, fatByte (pokeFat d (fatPos c) v) (fatPos c + 1) =
        (d (1 + fatPos c / 512)).get ((fatPos c + 1) % 512) := by
      intro v
      rw [fatByte, ← hs, pokeFat_first, Bytes.get_set_ne _ _ hne]
    rw [if_neg (not_not.mpr hs), pokeFat_pokeFat_same _ _ _ hs.symm, hb]
    simp only [pure, Except.pure, writeFatSector_ok _ _ h2, Bytes.get_set_ne _ _ hne, fatByte, hs]
  · rw [if_pos hs]
    simp only [writeFatSector_ok _ _ h1, r2, pure, Except.pure, writeFatSector_ok _ _ h2]
    rfl

/-! ## One entry of the array changes -/

theorem fatPos_lt {c : Nat} (hc : c < fatEntries) : fatPos c + 1 < 4608 := by
  unfold fatPos
  unfold fatEntries at hc
  omega

/-- No sector outside the two FAT copies changes. -/
theorem putFat_outside (d : Disk) {c : Nat} (data : Nat) (hc : c < fatEntries) {sec : Nat}
    (hsec : sec = 0 ∨ 19 ≤ sec) : putFat d c data sec = d sec := by
  have hpos := fatPos_lt hc
  rw [putFat, pokeFat_other _ _ (by omega) (by omega), pokeFat_other _ _ (by omega) (by omega)]

theorem FatMirrored.put {d : Disk} (h : FatMirrored d) {c : Nat} (data : Nat)
    (hc : c < fatEntries) : FatMirrored (putFat d c data) := by
  have hpos := fatPos_lt hc
  exact (h.poke _ (by omega)).poke _ hpos

/-- The bytes of copy 1 after a write: two new ones, the others as before. -/
theorem fatByte_putFat (d : Disk) {c : Nat} (data : Nat) {k : Nat} (hk : k < 4608)
    (hp : fatPos c + 1 < 4608) :
    fatByte (putFat d c data) k =
      if k = fatPos c + 1 then fatHighByte c data (fatByte d (fatPos c + 1))
      else if k = fatPos c then fatLowByte c data (fatByte d (fatPos c))
      else fatByte d k := by
  have hb : ∀ v, fatByte (pokeFat d (fatPos c) v) (fatPos c + 1) = fatByte d (fatPos c + 1) := by
    intro v
    rw [fatByte_pokeFat _ _ hp, if_neg (by omega)]
  rw [putFat, hb, fatByte_pokeFat _ _ hk, fatByte_pokeFat _ _ hk]

/-! The four byte formulas, in the arithmetic `omega` understands. -/

theorem fatLowByte_even {c : Nat} (data : Nat) (b : UInt8) (h : c % 2 = 0) :
    (fatLowByte c data b).toNat = data % 256 := by
  simp [fatLowByte, h]

theorem fatLowByte_odd {c : Nat} (data : Nat) (b : UInt8) (h : c % 2 ≠ 0) :
    (fatLowByte c data b).toNat = b.toNat % 16 + data % 16 * 16 := by
  have hb := b.toNat_lt
  simp only [fatLowByte, h, if_false, Nibble.and_low, Nibble.shiftLeft_four, UInt8.toNat_ofNat']
  omega

theorem fatHighByte_even {c : Nat} (data : Nat) (b : UInt8) (h : c % 2 = 0) :
    (fatHighByte c data b).toNat = b.toNat / 16 * 16 + data / 256 % 16 := by
  have hb := b.toNat_lt
  simp only [fatHighByte, h, if_true, Nibble.and_low, Nibble.and_high, Nibble.shiftRight_eight,
    UInt8.toNat_ofNat']
  omega

theorem fatHighByte_odd {c : Nat} (data : Nat) (b : UInt8) (h : c % 2 ≠ 0) :
    (fatHighByte c data b).toNat = data / 16 % 256 := by
  simp [fatHighByte, h, Nibble.shiftRight_four]

theorem getFat_putFat_self (d : Disk) {c : Nat} (data : Nat) (hc : c < fatEntries) :
    getFatNextCluster (putFat d c data) c = data % 4096 := by
  have hp := fatPos_lt hc
  have hc4 : c < 4096 := lt_trans hc (by decide)
  have b0 : fatByte (putFat d c data) (fatPos c) =
      fatLowByte c data (fatByte d (fatPos c)) := by
    rw [fatByte_putFat d data (by omega) hp, if_neg (by omega), if_pos rfl]
  have b1 : fatByte (putFat d c data) (fatPos c + 1) =
      fatHighByte c data (fatByte d (fatPos c + 1)) := by
    rw [fatByte_putFat d data hp hp, if_pos rfl]
  rw [getFat_eq _ hc4, b0, b1]
  by_cases he : c % 2 = 0
  · rw [if_pos he, fatLowByte_even data _ he, fatHighByte_even data _ he]
    omega
  · rw [if_neg he, fatLowByte_odd data _ he, fatHighByte_odd data _ he]
    omega

/-- Two entries share at most the middle byte of a pair, and there each half of
the codec leaves the other nibble alone. -/
theorem getFat_putFat_ne (d : Disk) {c c' : Nat} (data : Nat) (hc : c < fatEntries)
    (hc' : c' < fatEntries) (hne : c' ≠ c) :
    getFatNextCluster (putFat d c data) c' = getFatNextCluster d c' := by
  have hp := fatPos_lt hc
  have hp' := fatPos_lt hc'
  have hc4 : c' < 4096 := lt_trans hc' (by decide)
  have keep : ∀ k, k < 4608 → k ≠ fatPos c → k ≠ fatPos c + 1 →
      fatByte (putFat d c data) k = fatByte d k := by
    intro k hk h0 h1
    rw [fatByte_putFat d data hk hp, if_neg h1, if_neg h0]
  by_cases hup : c' % 2 = 0 ∧ c = c' + 1
  · -- the neighbour above writes the high nibble of the shared byte
    obtain ⟨he, rfl⟩ := hup
    have e1 : fatPos (c' + 1) = fatPos c' + 1 := by
      unfold fatPos
      omega
    have b1 : fatByte (putFat d (c' + 1) data) (fatPos c' + 1) =
        fatLowByte (c' + 1) data (fatByte d (fatPos c' + 1)) := by
      rw [fatByte_putFat d data hp' hp, e1, if_neg (by omega), if_pos rfl]
    rw [getFat_eq _ hc4, getFat_eq d hc4, if_pos he, if_pos he, b1,
      keep _ (by omega) (by omega) (by omega), fatLowByte_odd data _ (by omega)]
    omega
  · by_cases hdown : c % 2 = 0 ∧ c' = c + 1
    · -- the neighbour below writes the low nibble of the shared byte
      obtain ⟨he, rfl⟩ := hdown
      have e1 : fatPos (c + 1) = fatPos c + 1 := by
        unfold fatPos
        omega
      have b0 : fatByte (putFat d c data) (fatPos (c + 1)) =
          fatHighByte c data (fatByte d (fatPos (c + 1))) := by
        rw [e1, fatByte_putFat d data hp hp, if_pos rfl]
      rw [getFat_eq _ hc4, getFat_eq d hc4, if_neg (by omega), if_neg (by omega), b0,
        keep _ hp' (by omega) (by omega), fatHighByte_even data _ he]
      omega
    · have hpos : fatPos c' + 1 ≠ fatPos c ∧ fatPos c' + 1 ≠ fatPos c + 1 ∧
          fatPos c' ≠ fatPos c ∧ fatPos c' ≠ fatPos c + 1 := by
        unfold fatPos
        omega
      refine getFat_congr hc4 ?_
      rintro k (rfl | rfl)
      · exact keep _ (by omega) hpos.2.2.1 hpos.2.2.2
      · exact keep _ hp' hpos.1 hpos.2.1

/-- **FAT12 entry codec.** For every disk, every entry `c` of the table and every
16-bit `data`, the write returns, the entry reads back as `data` modulo 4096,
every other entry is unchanged, no sector outside the two copies changes and
equal copies stay equal. -/
theorem writeFatNextCluster_codec (d : Disk) (c : Fin fatEntries) (data : UInt16) :
    ∃ d', writeFatNextCluster d c data.toNat = .ok d' ∧
      getFatNextCluster d' c = data.toNat % 4096 ∧
      (∀ c' : Fin fatEntries, c' ≠ c → getFatNextCluster d' c' = getFatNextCluster d c') ∧
      (∀ sec, sec = 0 ∨ 19 ≤ sec → d' sec = d sec) ∧
      (FatMirrored d → FatMirrored d') := by
  have hc : c.val < 65536 := lt_of_lt_of_le c.isLt (by decide)
  refine ⟨putFat d c data.toNat, writeFat_ok d _ hc, ?_, ?_, ?_, ?_⟩
  · exact getFat_putFat_self d _ c.isLt
  · intro c' hne
    exact getFat_putFat_ne d _ c.isLt c'.isLt (fun h => hne (Fin.ext h))
  · intro sec hsec
    exact putFat_outside d _ c.isLt hsec
  · intro h
    exact h.put _ c.isLt

/-! ## Allocation: the first free entry -/

/-- The data cluster `c` is marked free. -/
def IsFree (d : Disk) (c : Nat) : Prop :=
  2 ≤ c ∧ c ≤ 2848 ∧ getFatNextCluster d c = 0

instance (d : Disk) (c : Nat) : Decidable (IsFree d c) := by
  unfold IsFree
  infer_instance

/-- The search returns the first zero entry from the pair it starts at. -/
theorem scanFat_spec (d : Disk) : ∀ (n k : Nat), k + n = 1536 →
    (scanFat (updateImg d) n (512 + 3 * k) = 0xFFFF ∧
      ∀ c, 2 * k ≤ c → c < fatEntries → getFatNextCluster d c ≠ 0) ∨
    (∃ c, scanFat (updateImg d) n (512 + 3 * k) = c ∧ 2 * k ≤ c ∧ c < fatEntries ∧
      getFatNextCluster d c = 0 ∧ ∀ c', 2 * k ≤ c' → c' < c → getFatNextCluster d c' ≠ 0)
  | 0, k, hk => .inl ⟨rfl, fun c h1 h2 => by
      unfold fatEntries at h2
      omega⟩
  | n + 1, k, hk => by
    have hx : (((updateImg d (512 + 3 * k + 1)).toNat &&& 0b00001111) <<< 8) +
        (updateImg d (512 + 3 * k)).toNat = getFatNextCluster d (2 * k) := by
      have hp : 2 * k / 2 * 3 + 2 * k % 2 = 3 * k := by omega
      simp only [getFatNextCluster, hp]
      rw [if_pos (Nat.mul_mod_right 2 k)]
    have hy : (((updateImg d (512 + 3 * k + 1)).toNat &&& 0b11110000) >>> 4) +
        ((updateImg d (512 + 3 * k + 2)).toNat <<< 4) = getFatNextCluster d (2 * k + 1) := by
      have hp : (2 * k + 1) / 2 * 3 + (2 * k + 1) % 2 = 3 * k + 1 := by omega
      have ho : ¬ (2 * k + 1) % 2 = 0 := by omega
      simp only [getFatNextCluster, hp, ho, if_false, Nat.add_assoc]
    have hdiv : (512 + 3 * k - 512) / 3 * 2 = 2 * k := by omega
    have hnext : 512 + 3 * k + 3 = 512 + 3 * (k + 1) := by omega
    unfold scanFat
    simp only [hx, hy, hdiv, hnext]
    by_cases h0 : getFatNextCluster d (2 * k) = 0
    · rw [if_pos h0]
      exact .inr ⟨2 * k, rfl, by omega, by unfold fatEntries; omega, h0, by omega⟩
    · rw [if_neg h0]
      by_cases h1 : getFatNextCluster d (2 * k + 1) = 0
      · rw [if_pos h1]
        refine .inr ⟨2 * k + 1, rfl, by omega, by unfold fatEntries; omega, h1, ?_⟩
        intro c' hge hlt
        have : c' = 2 * k := by omega
        exact this ▸ h0
      · rw [if_neg h1]
        -- neither entry of this pair is free
        have hpair : ∀ c', 2 * k ≤ c' → c' < 2 * (k + 1) → getFatNextCluster d c' ≠ 0 := by
          intro c' hge hlt
          rcases (by omega : c' = 2 * k ∨ c' = 2 * k + 1) with rfl | rfl
          · exact h0
          · exact h1
        rcases scanFat_spec d n (k + 1) (by omega) with ⟨he, hall⟩ | ⟨c, he, hge, hlt, hz, hmin⟩
        · refine .inl ⟨he, fun c hc hc' => ?_⟩
          by_cases hlt : c < 2 * (k + 1)
          · exact hpair c hc hlt
          · exact hall c (by omega) hc'
        · refine .inr ⟨c, he, by omega, hlt, hz, fun c' hc hc' => ?_⟩
          by_cases hlt' : c' < 2 * (k + 1)
          · exact hpair c' hc hlt'
          · exact hmin c' (by omega) hc'

/-- An entry depends on FAT copy 1 only. -/
theorem getFat_of_copy1 {d d' : Disk} (h : ∀ sec, 1 ≤ sec → sec ≤ 9 → d' sec = d sec)
    {c : Nat} (hc : c < fatEntries) : getFatNextCluster d' c = getFatNextCluster d c := by
  have hp := fatPos_lt hc
  refine getFat_congr (lt_trans hc (by decide)) fun k hk => ?_
  have hk' : k < 4608 := by omega
  rw [fatByte, fatByte, h _ (by omega) (by omega)]

/-- Writing a sector behind the FAT changes no entry. -/
theorem getFat_update (d : Disk) {sec : Nat} (buff : Sector) (hsec : 19 ≤ sec) {c : Nat}
    (hc : c < fatEntries) :
    getFatNextCluster (Function.update d sec buff) c = getFatNextCluster d c := by
  refine getFat_of_copy1 (fun sec' _ h9 => ?_) hc
  rw [Function.update_of_ne (by omega)]

/-- The first zero entry of a table with a free data cluster is that of a data
cluster, and the search finds it. -/
theorem scanFat_ok {d : Disk} (h0 : getFatNextCluster d 0 ≠ 0)
    (h1 : getFatNextCluster d 1 ≠ 0) (hfree : ∃ c, IsFree d c) :
    IsFree d (scanFat (updateImg d) 1536 512) ∧
      ∀ c' < scanFat (updateImg d) 1536 512, getFatNextCluster d c' ≠ 0 := by
  obtain ⟨c₀, hge, hle, hz⟩ := hfree
  have hspec := scanFat_spec d 1536 0 rfl
  rw [Nat.mul_zero, Nat.add_zero] at hspec
  generalize scanFat (updateImg d) 1536 512 = c at hspec ⊢
  rcases hspec with ⟨-, hall⟩ | ⟨_, rfl, -, hlt, hc, hmin⟩
  · exact absurd hz (hall c₀ (by omega) (by unfold fatEntries; omega))
  · have hc0 : c ≤ c₀ := by
      by_contra hgt
      exact hmin c₀ (by omega) (by omega) hz
    have hc2 : 2 ≤ c := by
      by_contra hlt2
      rcases (by omega : c = 0 ∨ c = 1) with rfl | rfl
      · exact h0 hc
      · exact h1 hc
    exact ⟨⟨hc2, by omega, hc⟩, fun c' hc' => hmin c' (by omega) hc'⟩

/-- `find_empty_cluster` on a volume with a free data cluster: it returns the
first one, having zeroed its sector. -/
theorem findEmptyCluster_ok {d : Disk} (h0 : getFatNextCluster d 0 ≠ 0)
    (h1 : getFatNextCluster d 1 ≠ 0) (hfree : ∃ c, IsFree d c) :
    ∃ c, findEmptyCluster d = .ok (c, Function.update d (c + 31) (Bytes.zero 512)) ∧
      IsFree d c ∧ ∀ c' < c, getFatNextCluster d c' ≠ 0 := by
  obtain ⟨hc, hmin⟩ := scanFat_ok h0 h1 hfree
  refine ⟨_, ?_, hc, hmin⟩
  unfold findEmptyCluster
  generalize scanFat (updateImg d) 1536 512 = c at hc ⊢
  have hle := hc.2.1
  have hu : u16 (c + clusToSec) = c + 31 := by
    unfold u16 clusToSec
    omega
  have hs : c + 31 ≤ secCnt := by
    unfold secCnt
    omega
  simp only [clearCluster, hu, writeSector, if_pos hs, bind, Except.bind, pure, Except.pure]

/-- `append_a_cluster` behind any cluster number, also one that is no entry of the table. -/
theorem appendACluster_ok {d : Disk} {l : Nat} (hl : l < 65536)
    (h0 : getFatNextCluster d 0 ≠ 0) (h1 : getFatNextCluster d 1 ≠ 0)
    (hfree : ∃ c, IsFree d c) :
    ∃ c, appendACluster d l = .ok (c,
        putFat (putFat (Function.update d (c + 31) (Bytes.zero 512)) l c) c 0xFFF) ∧
      IsFree d c ∧ ∀ c' < c, getFatNextCluster d c' ≠ 0 := by
  obtain ⟨c, he, hc, hmin⟩ := findEmptyCluster_ok h0 h1 hfree
  refine ⟨c, ?_, hc, hmin⟩
  have hc' : c < 65536 := by
    have := hc.2.1
    omega
  have hneg : ¬ ((c : Int) = -1) := by omega
  simp only [appendACluster, he, bind, Except.bind, hneg, if_false, writeFat_ok _ _ hl,
    writeFat_ok _ _ hc', pure, Except.pure]

/-! ## Cluster chains -/

/-- The end-of-chain marks `0xFF8..0xFFF`. -/
def IsEnd (c : Nat) : Prop := 0xFF8 ≤ c ∧ c ≤ 0xFFF

instance (c : Nat) : Decidable (IsEnd c) := by
  unfold IsEnd
  infer_instance

/-- The FAT chain that starts at `c`: finite, inside the data clusters
`2..2848`, closed by an end mark. It is acyclic by `Chain.Visits.nodup`. -/
structure FileChain (d : Disk) (c : Nat) (K : List Nat) : Prop where
  visits : Chain.Visits (getFatNextCluster d) IsEnd c K
  nonempty : K ≠ []
  range : ∀ k ∈ K, 2 ≤ k ∧ k ≤ 2848

namespace FileChain

variable {d d' : Disk} {c : Nat} {K : List Nat}

theorem unique {K' : List Nat} (h : FileChain d c K) (h' : FileChain d c K') : K = K' :=
  h.visits.unique h'.visits

theorem lt_fatEntries (h : FileChain d c K) {k : Nat} (hk : k ∈ K) : k < fatEntries := by
  have := (h.range k hk).2
  unfold fatEntries
  omega

/-- The FAT entry of a cluster in use is not zero. -/
theorem entry_ne_zero (h : FileChain d c K) {k : Nat} (hk : k ∈ K) :
    getFatNextCluster d k ≠ 0 := by
  obtain ⟨A, B, rfl⟩ := List.append_of_mem hk
  cases B with
  | nil =>
    have := h.visits.next_last
    unfold IsEnd at this
    omega
  | cons k' B =>
    have := h.range k' (by simp)
    have hn : getFatNextCluster d k = k' := h.visits.next_mem
    omega

theorem not_free (h : FileChain d c K) {k : Nat} (hk : k ∈ K) : ¬ IsFree d k :=
  fun hf => h.entry_ne_zero hk hf.2.2

/-- A chain survives every change of the FAT outside it. -/
theorem congr (h : FileChain d c K)
    (hk : ∀ k ∈ K, getFatNextCluster d' k = getFatNextCluster d k) : FileChain d' c K :=
  ⟨h.visits.congr hk, h.nonempty, h.range⟩

end FileChain

end GwOS
