import GwOS.Kernel.ByteStore
import GwOS.Kernel.Exhaustion
import GwOS.Kernel.Vaddr

/-!
# Writes behind a bitmap (`bitmap_set_idx`)

`bitmap_set_idx` does not look at the length of its bitmap, and neither do `get_one_page` and
`vaddr_remove`, which compute the index from an address. `markPage` and `vaddrRemove` report an index behind
the bitmap as `outOfBounds`. The functions of this module go on as the code does: the bit is then one of the
byte of memory that lies there.

The records of the threads and the bitmaps are kept as values, so that a byte that is written over one of
them changes the memory only. A page directory is a page like any other, and sees the write.

- `getOnePage_inside`, `mfreePage_inside`: for pages that the bitmap covers nothing is different.
- `getOnePage_unchecked`, `mfreePage_unchecked`: where nothing is reported, the code does the same.
- `markPage_overrun`: behind the bitmap one byte of the memory changes.
-/

namespace GwOS

/-- The `cnt` pages from `vaddr` on belong to the bitmap. -/
def Memory.Covers (s : Memory) (pf : PoolFlag) (vaddr : Addr) (cnt : Nat) : Prop :=
  pageIdx vaddr (s.vaddrStart pf) + cnt ≤ 8 * (s.vaddrBitmap pf).len

instance (s : Memory) (pf : PoolFlag) (vaddr : Addr) (cnt : Nat) : Decidable (s.Covers pf vaddr cnt) :=
  inferInstanceAs (Decidable (_ ≤ _))

/-- Where the bits of the virtual pages lie. `mem_pool_init` has put those of the kernel behind the bitmaps
of the two pools, at `MEM_BITMAP_BASE`. -/
def Memory.bits (s : Memory) : PoolFlag → Addr
  | .kernel => 0xc009a000 + BitVec.ofNat 32 (s.kernelPool.poolBitmap.len + s.userPool.poolBitmap.len)
  | .user => (s.pcb s.running).bits

namespace Unchecked

/-- The byte with one bit set or cleared. -/
def withBit (b : UInt8) (idx : Nat) (value : UInt8) : UInt8 :=
  if value = 0 then b &&& ~~~bitMask idx else b ||| bitMask idx

/-- `bitmap_set_idx` on the bitmap of the virtual pages. -/
def bitmapSetIdx (s : Memory) (pf : PoolFlag) (idx : Nat) (value : UInt8) : Except Fault Memory :=
  if idx < 8 * (s.vaddrBitmap pf).len then do
    let mp ← GwOS.bitmapSetIdx (s.vaddrBitmap pf) idx value
    .ok (s.setVaddrBitmap pf mp)
  else if value = 0 ∨ value = 1 then
    match s.byteAt (s.bits pf + BitVec.ofNat 32 (idx / 8)) with
    | none => .error .pageFault
    | some b => do
      let m ← s.storeByte (s.bits pf + BitVec.ofNat 32 (idx / 8)) (withBit b idx value)
      .ok { s with toMachine := m }
  else .error .assert

/-- The first part of `get_one_page`. -/
def markPage (s : Memory) (pf : PoolFlag) (vaddr : Addr) : Except Fault Memory :=
  bitmapSetIdx s pf (pageIdx vaddr (s.vaddrStart pf)) 1

/-- `get_one_page`. -/
def getOnePage (s : Memory) (pf : PoolFlag) (vaddr : Addr) :
    Except Fault (Option Addr × Memory) := do
  match (s.pcb s.running).pgDir, pf with
  | some _, .user =>
    if s.vaddrStart .user ≤ vaddr then
      let s ← markPage s .user vaddr
      getOnePageNoBitmap s .user vaddr
    else .error .assert
  | none, .kernel =>
    if s.vaddrStart .kernel < vaddr then
      let s ← markPage s .kernel vaddr
      getOnePageNoBitmap s .kernel vaddr
    else .error .assert
  | _, _ => .error .assert

/-- The loops of `vaddr_remove`. -/
def clearBits (pf : PoolFlag) : (cnt idx : Nat) → Memory → Except Fault Memory
  | 0, _, s => .ok s
  | cnt + 1, idx, s => do
    let s ← bitmapSetIdx s pf idx 0
    clearBits pf cnt (idx + 1) s

/-- `vaddr_remove`. -/
def vaddrRemove (s : Memory) (pf : PoolFlag) (vaddr : Addr) (cnt : Nat) : Except Fault Memory :=
  clearBits pf cnt (pageIdx vaddr (s.vaddrStart pf)) s

/-- `mfree_page`. -/
def mfreePage (s : Memory) (pf : PoolFlag) (vaddr : Addr) (cnt : Nat) : Except Fault Memory := do
  if 1 ≤ cnt ∧ vaddr.toNat % pgSize = 0 then
    let pgPhyAddr ← addrVir2phy s.toMachine vaddr
    if pgPhyAddr.toNat % pgSize = 0 ∧ 0x102000 ≤ pgPhyAddr then
      let s ← mfreeLoop (if s.userPool.phyAddrStart ≤ pgPhyAddr then .user else .kernel) cnt vaddr s
      vaddrRemove s pf vaddr cnt
    else .error .assert
  else .error .assert

end Unchecked

section Inside

variable {s s' : Memory} {pf : PoolFlag} {v : Addr} {cnt idx : Nat} {value : UInt8} {mp mp' : Bitmap}

theorem Memory.setVaddrBitmap_idem (s : Memory) (pf : PoolFlag) (mp mp' : Bitmap) :
    (s.setVaddrBitmap pf mp).setVaddrBitmap pf mp' = s.setVaddrBitmap pf mp' := by
  cases pf with
  | kernel => rfl
  | user =>
    have hidem := Function.update_idem (f := s.btmp) (a := (s.pcb s.running).bits) mp mp'
    exact congrArg (fun btmp => ({ s with btmp } : Memory)) hidem

/-- The covered pages depend on the records only. -/
theorem SameRecords.covers (h : SameRecords s s') (hcov : s.Covers pf v cnt) : s'.Covers pf v cnt := by
  rw [Memory.Covers, h.vaddrStart, h.vaddrBitmap]
  exact hcov

/-- The checked loops report every index that is not in the bitmap. -/
theorem setBits_inside (hcnt : 1 ≤ cnt) (h : setBits mp 0 cnt idx = .ok mp') : idx + cnt ≤ 8 * mp.len := by
  induction cnt generalizing mp idx with
  | zero => exact absurd hcnt (by decide)
  | succ cnt ih =>
    obtain ⟨mp1, h1, h2⟩ := bind_eq_ok.mp h
    obtain ⟨hidx, hlen, -⟩ := bitmapSetIdx_returns mp idx false mp1 h1
    by_cases hzero : cnt = 0
    · omega
    · have hrest := ih (by omega) h2
      omega

namespace Unchecked

/-- Inside of the bitmap. -/
theorem bitmapSetIdx_inside (h : idx < 8 * (s.vaddrBitmap pf).len) :
    bitmapSetIdx s pf idx value =
      (GwOS.bitmapSetIdx (s.vaddrBitmap pf) idx value).map (s.setVaddrBitmap pf) := by
  rw [bitmapSetIdx, if_pos h]
  cases GwOS.bitmapSetIdx (s.vaddrBitmap pf) idx value <;> rfl

theorem markPage_inside (h : s.Covers pf v 1) : markPage s pf v = GwOS.markPage s pf v := by
  rw [markPage, bitmapSetIdx_inside h, GwOS.markPage]
  cases GwOS.bitmapSetIdx (s.vaddrBitmap pf) (pageIdx v (s.vaddrStart pf)) 1 <;> rfl

/-- `get_one_page` of a page that the bitmap covers. -/
theorem getOnePage_inside (h : s.Covers pf v 1) : getOnePage s pf v = GwOS.getOnePage s pf v := by
  unfold getOnePage GwOS.getOnePage
  cases (s.pcb s.running).pgDir with
  | none =>
    cases pf with
    | kernel => simp only [markPage_inside h]
    | user => rfl
  | some p =>
    cases pf with
    | kernel => rfl
    | user => simp only [markPage_inside h]

/-- The loops of `vaddr_remove`, inside of the bitmap. -/
theorem clearBits_inside (h : idx + cnt ≤ 8 * (s.vaddrBitmap pf).len) :
    clearBits pf cnt idx s = (setBits (s.vaddrBitmap pf) 0 cnt idx).map (s.setVaddrBitmap pf) := by
  induction cnt generalizing s idx with
  | zero => exact congrArg Except.ok (s.setVaddrBitmap_self pf).symm
  | succ cnt ih =>
    obtain ⟨mp, hmp, hlen, -⟩ := bitmapSetIdx_ok (by omega : idx < 8 * (s.vaddrBitmap pf).len) false
    have hset : GwOS.bitmapSetIdx (s.vaddrBitmap pf) idx 0 = .ok mp := hmp
    have hroom : idx + 1 + cnt ≤ 8 * ((s.setVaddrBitmap pf mp).vaddrBitmap pf).len := by
      rw [s.vaddrBitmap_set]
      omega
    have hrest := ih hroom
    rw [s.vaddrBitmap_set] at hrest
    rw [clearBits, bitmapSetIdx_inside (by omega), setBits, hset]
    show clearBits pf cnt (idx + 1) (s.setVaddrBitmap pf mp) = (setBits mp 0 cnt (idx + 1)).map _
    rw [hrest]
    cases setBits mp 0 cnt (idx + 1) with
    | error e => rfl
    | ok mp' => exact congrArg Except.ok (s.setVaddrBitmap_idem pf mp mp')

theorem vaddrRemove_inside (h : s.Covers pf v cnt) : vaddrRemove s pf v cnt = GwOS.vaddrRemove s pf v cnt := by
  rw [vaddrRemove, clearBits_inside h, GwOS.vaddrRemove]
  cases setBits (s.vaddrBitmap pf) 0 cnt (pageIdx v (s.vaddrStart pf)) <;> rfl

/-- `mfree_page` of pages that the bitmap covers. -/
theorem mfreePage_inside (h : s.Covers pf v cnt) : mfreePage s pf v cnt = GwOS.mfreePage s pf v cnt := by
  unfold mfreePage GwOS.mfreePage
  have hloop : ∀ pf', (mfreeLoop pf' cnt v s >>= fun s => vaddrRemove s pf v cnt) =
      (mfreeLoop pf' cnt v s >>= fun s => GwOS.vaddrRemove s pf v cnt) := by
    intro pf'
    cases hfree : mfreeLoop pf' cnt v s with
    | error e => rfl
    | ok s1 => exact vaddrRemove_inside ((mfreeLoop_same s pf' cnt v s1 hfree).covers h)
  simp only [hloop]

/-! ## Where nothing is reported -/

theorem getOnePage_unchecked {r : Option Addr × Memory} (h : GwOS.getOnePage s pf v = .ok r) :
    getOnePage s pf v = .ok r := by
  have hcov : ∀ {low : Prop} [Decidable low], (if low then
      GwOS.markPage s pf v >>= fun s => getOnePageNoBitmap s pf v else .error .assert) = .ok r →
      s.Covers pf v 1 := by
    intro low _ h
    by_cases hlow : low
    · rw [if_pos hlow] at h
      obtain ⟨s1, hs1, -⟩ := bind_eq_ok.mp h
      exact (markPage_returns s pf v s1 hs1).2
    · rw [if_neg hlow] at h
      cases h
  refine (getOnePage_inside ?_).trans h
  unfold GwOS.getOnePage at h
  cases hdir : (s.pcb s.running).pgDir with
  | none =>
    rw [hdir] at h
    cases pf with
    | kernel => exact hcov h
    | user => cases h
  | some p =>
    rw [hdir] at h
    cases pf with
    | kernel => cases h
    | user => exact hcov h

theorem mfreePage_unchecked (h : GwOS.mfreePage s pf v cnt = .ok s') : mfreePage s pf v cnt = .ok s' := by
  refine (mfreePage_inside ?_).trans h
  unfold GwOS.mfreePage at h
  split at h
  · rename_i hcnt
    obtain ⟨a, -, h⟩ := bind_eq_ok.mp h
    split at h
    · obtain ⟨s1, hs1, h⟩ := bind_eq_ok.mp h
      obtain ⟨mp, hmp, -⟩ := bind_eq_ok.mp h
      have hsame := mfreeLoop_same s _ cnt v s1 hs1
      have hrange := setBits_inside hcnt.1 hmp
      rw [hsame.vaddrStart, hsame.vaddrBitmap] at hrange
      exact hrange
    · cases h
  · cases h

/-! ## Behind the bitmap -/

/-- In a process the page is marked, and the frame is taken. -/
theorem getOnePage_user {p : Addr} (hdir : (s.pcb s.running).pgDir = some p) (hlow : s.vaddrStart .user ≤ v)
    (hmark : markPage s .user v = .ok s') : getOnePage s .user v = getOnePageNoBitmap s' .user v := by
  unfold getOnePage
  rw [hdir]
  show (if s.vaddrStart .user ≤ v then
    markPage s .user v >>= fun s => getOnePageNoBitmap s .user v else .error .assert) = _
  simp only [if_pos hlow, hmark, bind, Except.bind]

/-- **`get_one_page` behind the bitmap**: the bit of some other byte is set, and the page is mapped. -/
theorem markPage_overrun {b : UInt8} (h : ¬ s.Covers pf v 1)
    (hb : s.byteAt (s.bits pf + BitVec.ofNat 32 (pageIdx v (s.vaddrStart pf) / 8)) = some b) :
    markPage s pf v = (s.storeByte (s.bits pf + BitVec.ofNat 32 (pageIdx v (s.vaddrStart pf) / 8))
      (b ||| bitMask (pageIdx v (s.vaddrStart pf)))).map fun m => { s with toMachine := m } := by
  have hout : ¬ pageIdx v (s.vaddrStart pf) < 8 * (s.vaddrBitmap pf).len := h
  rw [markPage, bitmapSetIdx, if_neg hout, if_pos (.inr rfl), hb]
  have hbyte : withBit b (pageIdx v (s.vaddrStart pf)) 1 = b ||| bitMask (pageIdx v (s.vaddrStart pf)) :=
    if_neg (by decide)
  show (s.storeByte _ (withBit b _ 1) >>= _) = _
  rw [hbyte]
  cases s.storeByte (s.bits pf + BitVec.ofNat 32 (pageIdx v (s.vaddrStart pf) / 8))
    (b ||| bitMask (pageIdx v (s.vaddrStart pf))) <;> rfl

end Unchecked

end Inside

end GwOS
