import GwOS.Kernel.Memory

/-!
# The recursive mapping

The last entry of a page directory names the directory itself, so the directory and its
page tables appear in the last four megabytes of the address space. `pdePtr_translate` and
`ptePtr_translate` say that the pointers that the kernel computes hit the entries that the
processor uses. `pageTableAdd_table` and `pageTableAdd_newTable` are what `page_table_add`
does to physical memory in its two branches, and `pageTableAdd_maps` what that means for
addresses.

Two entries of a directory may name the same table: the loader maps the first megabyte both
at 0 and at 0xc0000000. A page that is added through one of them then appears through the
other as well (`lowAlias_changes`), and this is the only way in which another page changes.
-/

namespace GwOS

/-! ## Addresses -/

theorem addrOf_toNat (p : BitVec 20) (o : BitVec 12) :
    (addrOf p o).toNat = p.toNat * 4096 + o.toNat := by
  have happ : (addrOf p o).toNat = p.toNat <<< 12 ||| o.toNat := BitVec.toNat_append ..
  rw [happ, ← Nat.shiftLeft_add_eq_or_of_lt (by omega), Nat.shiftLeft_eq]

/-- The physical address of a word. -/
def wordAddr (f : Frame) (i : BitVec 10) : Addr := addrOf f (i ++ 0#2)

theorem wordAddr_toNat (f : Frame) (i : BitVec 10) :
    (wordAddr f i).toNat = f.toNat * 4096 + i.toNat * 4 := by
  have happ : (i ++ 0#2 : BitVec 12).toNat = i.toNat <<< 2 ||| 0 := BitVec.toNat_append ..
  rw [wordAddr, addrOf_toNat, happ, Nat.or_zero, Nat.shiftLeft_eq]

theorem pageOf_wordAddr (f : Frame) (i : BitVec 10) : pageOf (wordAddr f i) = f :=
  pageOf_addrOf ..

theorem wordIdx_wordAddr (f : Frame) (i : BitVec 10) : wordIdx (wordAddr f i) = i := by
  apply BitVec.eq_of_toNat_eq
  have hi := i.isLt
  rw [wordIdx, BitVec.extractLsb'_toNat, Nat.shiftRight_eq_div_pow, wordAddr_toNat]
  omega

/-- A mask that keeps the bits from `lo` up to `hi`. -/
theorem getLsbD_and_mask (lo hi : Nat) {mask : Addr}
    (hmask : ∀ k < 32, mask.getLsbD k = decide (lo ≤ k ∧ k < hi)) (v : Addr) (k : Nat) :
    (v &&& mask).getLsbD k = (decide (lo ≤ k ∧ k < hi) && v.getLsbD k) := by
  rw [BitVec.getLsbD_and, Bool.and_comm]
  by_cases hk : k < 32
  · rw [hmask k hk]
  · rw [BitVec.getLsbD_of_ge v k (by omega), Bool.and_false, Bool.and_false]

theorem pdeIdx_eq (v : Addr) : pdeIdx v = (dirIdx v).zeroExtend 32 := by
  apply BitVec.eq_of_getLsbD_eq
  intro i hi
  rw [pdeIdx, BitVec.getLsbD_ushiftRight, getLsbD_and_mask 22 32 (by decide)]
  by_cases h : i < 10
  · simp [dirIdx, h, hi]
    omega
  · have hout : v.getLsbD (22 + i) = false := BitVec.getLsbD_of_ge v _ (by omega)
    simp [dirIdx, h, hout]

theorem pteIdx_eq (v : Addr) : pteIdx v = (tabIdx v).zeroExtend 32 := by
  apply BitVec.eq_of_getLsbD_eq
  intro i hi
  rw [pteIdx, BitVec.getLsbD_ushiftRight, getLsbD_and_mask 12 22 (by decide)]
  by_cases h : i < 10
  · have hin : 12 + i < 22 := by omega
    simp [tabIdx, h, hi, hin]
  · have hin : ¬ 12 + i < 22 := by omega
    simp [tabIdx, h, hin]

/-- The upper ten bits, moved to where the middle ten are. -/
theorem dirBits_eq (v : Addr) :
    (v &&& 0xffc00000) >>> 10 = (dirIdx v).zeroExtend 32 <<< 12 := by
  apply BitVec.eq_of_getLsbD_eq
  intro i hi
  rw [BitVec.getLsbD_ushiftRight, getLsbD_and_mask 22 32 (by decide)]
  by_cases h : i < 12
  · have hin : ¬ 22 ≤ 10 + i := by omega
    simp [h, hin]
  · by_cases h2 : i < 22
    · have h3 : i - 12 < 10 := by omega
      have h4 : 22 + (i - 12) = 10 + i := by omega
      have h5 : 22 ≤ 10 + i ∧ 10 + i < 32 := by omega
      simp [dirIdx, h, h3, h4, h5, hi]
    · have h3 : ¬ i - 12 < 10 := by omega
      have hout : v.getLsbD (10 + i) = false := BitVec.getLsbD_of_ge v _ (by omega)
      simp [dirIdx, h3, hout]

/-- `pde_ptr` points into the last page of the address space. -/
theorem pdePtr_eq (v : Addr) : pdePtr v = wordAddr 0xfffff (dirIdx v) := by
  apply BitVec.eq_of_toNat_eq
  rw [wordAddr_toNat, pdePtr, pdeIdx_eq]
  simp
  omega

/-- `pte_ptr` points into the page at the index of the directory in the last four megabytes. -/
theorem ptePtr_eq (v : Addr) : ptePtr v = wordAddr (0x3ff#10 ++ dirIdx v) (tabIdx v) := by
  apply BitVec.eq_of_toNat_eq
  have happ : (0x3ff#10 ++ dirIdx v : BitVec 20).toNat =
      (0x3ff#10).toNat <<< 10 ||| (dirIdx v).toNat := BitVec.toNat_append ..
  rw [← Nat.shiftLeft_add_eq_or_of_lt (by omega), Nat.shiftLeft_eq] at happ
  rw [wordAddr_toNat, happ, ptePtr, pteIdx_eq, dirBits_eq]
  simp [Nat.shiftLeft_eq]
  omega

theorem dirIdx_window (i j : BitVec 10) : dirIdx (wordAddr (0x3ff#10 ++ i) j) = 1023 := by
  rw [dirIdx_eq, pageOf_wordAddr]
  apply BitVec.eq_of_getLsbD_eq
  intro k hk
  rw [BitVec.getLsbD_extractLsb', BitVec.getLsbD_append, if_neg (by omega)]
  simp [hk]

theorem tabIdx_window (i j : BitVec 10) : tabIdx (wordAddr (0x3ff#10 ++ i) j) = i := by
  rw [tabIdx_eq, pageOf_wordAddr]
  apply BitVec.eq_of_getLsbD_eq
  intro k hk
  rw [BitVec.getLsbD_extractLsb', BitVec.getLsbD_append, if_pos (by omega)]
  simp [hk]

theorem dirIdx_pdePtr (v : Addr) : dirIdx (pdePtr v) = 1023 := by
  rw [pdePtr_eq]
  exact dirIdx_window 1023 (dirIdx v)

theorem tabIdx_pdePtr (v : Addr) : tabIdx (pdePtr v) = 1023 := by
  rw [pdePtr_eq]
  exact tabIdx_window 1023 (dirIdx v)

theorem wordIdx_pdePtr (v : Addr) : wordIdx (pdePtr v) = dirIdx v := by
  rw [pdePtr_eq, wordIdx_wordAddr]

theorem dirIdx_ptePtr (v : Addr) : dirIdx (ptePtr v) = 1023 := by
  rw [ptePtr_eq, dirIdx_window]

theorem tabIdx_ptePtr (v : Addr) : tabIdx (ptePtr v) = dirIdx v := by
  rw [ptePtr_eq, tabIdx_window]

theorem wordIdx_ptePtr (v : Addr) : wordIdx (ptePtr v) = tabIdx v := by
  rw [ptePtr_eq, wordIdx_wordAddr]

/-- The page that an address is in, as `memset` is given it. -/
theorem pageOf_and_mask (v : Addr) : pageOf (v &&& 0xfffff000) = pageOf v := by
  apply BitVec.eq_of_getLsbD_eq
  intro i hi
  rw [pageOf, BitVec.getLsbD_extractLsb', getLsbD_and_mask 12 32 (by decide)]
  simp [pageOf, hi]
  omega

/-- What `addr_vir2phy` computes from an entry. -/
theorem entryAddr_eq (e v : Addr) :
    (e &&& 0xfffff000) + (v &&& 0x00000fff) = addrOf (pageOf e) (offsetOf v) := by
  have hhigh : e &&& 0xfffff000 = addrOf (pageOf e) 0 := by
    apply BitVec.eq_of_getLsbD_eq
    intro i hi
    rw [getLsbD_and_mask 12 32 (by decide), getLsbD_addrOf]
    by_cases h : i < 12
    · have h' : ¬ 12 ≤ i := by omega
      simp [h, h']
    · have h1 : 12 ≤ i := by omega
      have h2 : 12 + (i - 12) = i := by omega
      have h3 : i - 12 < 20 := by omega
      simp [pageOf, h, h1, h2, h3, hi]
  have hlow : v &&& 0x00000fff = (offsetOf v).zeroExtend 32 := by
    apply BitVec.eq_of_getLsbD_eq
    intro i hi
    rw [getLsbD_and_mask 0 12 (by decide)]
    by_cases h : i < 12
    · simp [offsetOf, h, hi]
    · simp [offsetOf, h]
  have ho := (offsetOf v).isLt
  have hp := (pageOf e).isLt
  rw [hhigh, hlow]
  apply BitVec.eq_of_toNat_eq
  rw [BitVec.toNat_add, addrOf_toNat, addrOf_toNat]
  simp
  omega

/-- The addresses of a page that starts at `p`. -/
theorem addrOf_aligned {p : Addr} (hp : offsetOf p = 0) (o : BitVec 12) :
    addrOf (pageOf p) o = p + o.zeroExtend 32 := by
  have hsum := addrOf_pageOf p
  rw [hp] at hsum
  have hnat := addrOf_toNat (pageOf p) 0
  rw [hsum] at hnat
  have ho := o.isLt
  have hpage := (pageOf p).isLt
  apply BitVec.eq_of_toNat_eq
  rw [addrOf_toNat, BitVec.toNat_add, hnat]
  simp
  omega

/-! ## Entries -/

theorem tableEntry_present (a : Addr) : Present (tableEntry a) := by
  simp [Present, tableEntry]

theorem pageOf_tableEntry (a : Addr) : pageOf (tableEntry a) = pageOf a := by
  apply BitVec.eq_of_getLsbD_eq
  intro i hi
  have h4 : (4#32).getLsbD (12 + i) = false := by
    have hall : ∀ k < 20, (4#32).getLsbD (12 + k) = false := by decide
    exact hall i hi
  have h2 : (2#32).getLsbD (12 + i) = false := by
    have hall : ∀ k < 20, (2#32).getLsbD (12 + k) = false := by decide
    exact hall i hi
  have h1 : (1#32).getLsbD (12 + i) = false := by
    have hall : ∀ k < 20, (1#32).getLsbD (12 + k) = false := by decide
    exact hall i hi
  simp only [pageOf, tableEntry, BitVec.getLsbD_extractLsb', BitVec.getLsbD_or, BitVec.ofNat_eq_ofNat,
    h4, h2, h1, Bool.or_false]

/-! ## The pointers -/

/-- The last entry of the active directory names the directory. -/
def SelfMapped (s : Machine) : Prop := Present (s.mem s.cr3 1023) ∧ pageOf (s.mem s.cr3 1023) = s.cr3

namespace SelfMapped

variable {s : Machine} {v : Addr}

/-- In the last four megabytes the directory is its own table. -/
theorem walk_window (h : SelfMapped s) (hv : dirIdx v = 1023) : s.walk v =
    if Present (s.mem s.cr3 (tabIdx v)) then some (pageOf (s.mem s.cr3 (tabIdx v))) else none := by
  have hpde : s.pde v = s.mem s.cr3 1023 := by rw [Machine.pde, hv]
  have hpte : s.pte v = s.mem s.cr3 (tabIdx v) := by rw [Machine.pte, Machine.tableOf, hpde, h.2]
  rw [Machine.walk, hpde, hpte]
  by_cases hp : Present (s.mem s.cr3 (tabIdx v))
  · rw [if_pos ⟨h.1, hp⟩, if_pos hp]
  · rw [if_neg fun hb => hp hb.2, if_neg hp]

theorem walk_pdePtr (h : SelfMapped s) (v : Addr) : s.walk (pdePtr v) = some s.cr3 := by
  rw [h.walk_window (dirIdx_pdePtr v), tabIdx_pdePtr, if_pos h.1, h.2]

theorem walk_ptePtr (h : SelfMapped s) (hp : Present (s.pde v)) :
    s.walk (ptePtr v) = some (s.tableOf v) := by
  rw [h.walk_window (dirIdx_ptePtr v), tabIdx_ptePtr]
  exact if_pos hp

theorem load_pdePtr (h : SelfMapped s) (v : Addr) : s.load (pdePtr v) = .ok (s.pde v) := by
  rw [Machine.load, h.walk_pdePtr, wordIdx_pdePtr]
  rfl

theorem load_ptePtr (h : SelfMapped s) (hp : Present (s.pde v)) :
    s.load (ptePtr v) = .ok (s.pte v) := by
  rw [Machine.load, h.walk_ptePtr hp, wordIdx_ptePtr]
  rfl

theorem store_pdePtr (h : SelfMapped s) (v w : Addr) :
    s.store (pdePtr v) w = .ok (s.setWord s.cr3 (dirIdx v) w) := by
  rw [Machine.store, h.walk_pdePtr, wordIdx_pdePtr]

theorem store_ptePtr (h : SelfMapped s) (hp : Present (s.pde v)) (w : Addr) :
    s.store (ptePtr v) w = .ok (s.setWord (s.tableOf v) (tabIdx v) w) := by
  rw [Machine.store, h.walk_ptePtr hp, wordIdx_ptePtr]

theorem clearPage_ptePtr (h : SelfMapped s) (hp : Present (s.pde v)) :
    s.clearPage (ptePtr v &&& 0xfffff000) = .ok (s.setFrame (s.tableOf v) fun _ => 0) := by
  rw [Machine.clearPage, s.walk_eq_of_pageOf (pageOf_and_mask _), h.walk_ptePtr hp]

/-- `addr_vir2phy` agrees with the processor. -/
theorem addrVir2phy_eq (h : SelfMapped s) {a : Addr} (ha : s.translate v = some a) :
    addrVir2phy s v = .ok a := by
  rw [Machine.translate, Machine.walk] at ha
  by_cases hp : Present (s.pde v) ∧ Present (s.pte v)
  · rw [if_pos hp] at ha
    cases ha
    rw [addrVir2phy, h.load_ptePtr hp.1]
    show Except.ok _ = _
    rw [entryAddr_eq]
  · rw [if_neg hp] at ha
    cases ha

theorem dirIdx_ne (h : SelfMapped s) (hp : ¬ Present (s.pde v)) : dirIdx v ≠ 1023 := by
  intro he
  rw [Machine.pde, he] at hp
  exact hp h.1

theorem setWord_table (h : SelfMapped s) {f : Frame} {i : BitVec 10} (w : Addr)
    (hf : f ≠ s.cr3 ∨ i ≠ 1023) : SelfMapped (s.setWord f i w) := by
  have hkeep : (s.setWord f i w).mem s.cr3 1023 = s.mem s.cr3 1023 :=
    s.setWord_mem_ne w (hf.imp Ne.symm Ne.symm)
  rw [SelfMapped, Machine.setWord_cr3, hkeep]
  exact h

theorem setFrame_ne (h : SelfMapped s) {f : Frame} (page : Page) (hf : f ≠ s.cr3) :
    SelfMapped (s.setFrame f page) := by
  rw [SelfMapped, Machine.setFrame_cr3, s.setFrame_mem_ne page hf.symm]
  exact h

end SelfMapped

/-! ## What `page_table_add` does to physical memory -/

/-- The directory with an empty page table for `v` in the frame of `pt`. -/
def Machine.withTable (s : Machine) (v pt : Addr) : Machine :=
  (s.setWord s.cr3 (dirIdx v) (tableEntry pt)).setFrame (pageOf pt) fun _ => 0

section Add

variable {s : Memory} {v : Addr}

theorem setPte_eq (h : SelfMapped s.toMachine) (hp : Present (s.pde v)) (p : Addr) :
    setPte s (ptePtr v) p = if Present (s.pte v) then .error .assert
      else .ok { s with toMachine := s.setWord (s.tableOf v) (tabIdx v) (tableEntry p) } := by
  rw [setPte, h.load_ptePtr hp]
  show (if Present (s.pte v) then _ else _) = _
  rw [h.store_ptePtr hp]
  rfl

/-- The branch of a page table that is there. -/
theorem pageTableAdd_table (h : SelfMapped s.toMachine) (hp : Present (s.pde v)) (p : Addr) :
    pageTableAdd s v p = if Present (s.pte v) then .error .assert
      else .ok { s with toMachine := s.setWord (s.tableOf v) (tabIdx v) (tableEntry p) } := by
  rw [pageTableAdd, h.load_pdePtr]
  show (if Present (s.pde v) then _ else _) = _
  rw [if_pos hp, setPte_eq h hp]

/-- The branch of a new page table, in a frame that is not the directory. -/
theorem pageTableAdd_newTable (h : SelfMapped s.toMachine) (hp : ¬ Present (s.pde v))
    {pt : Option Addr} {pool : Pool} (hpt : palloc s.kernelPool = .ok (pt, pool))
    (hne : pageOf (pt.getD 0) ≠ s.cr3) (p : Addr) :
    pageTableAdd s v p = .ok
      { s with
        kernelPool := pool
        toMachine := (s.withTable v (pt.getD 0)).setWord (pageOf (pt.getD 0)) (tabIdx v)
          (tableEntry p) } := by
  have hidx := h.dirIdx_ne hp
  generalize hm1 : s.setWord s.cr3 (dirIdx v) (tableEntry (pt.getD 0)) = m1
  have hself1 : SelfMapped m1 := hm1 ▸ h.setWord_table _ (.inr hidx)
  have hpde1 : m1.pde v = tableEntry (pt.getD 0) := by
    rw [← hm1]
    exact s.setWord_mem_self ..
  have htab1 : m1.tableOf v = pageOf (pt.getD 0) := by
    rw [Machine.tableOf, hpde1, pageOf_tableEntry]
  have hcr3 : m1.cr3 = s.cr3 := by rw [← hm1]; rfl
  generalize hm2 : m1.setFrame (pageOf (pt.getD 0)) (fun _ => 0) = m2
  have hself2 : SelfMapped m2 := hm2 ▸ hself1.setFrame_ne _ (hcr3 ▸ hne)
  have hpde2 : m2.pde v = tableEntry (pt.getD 0) := by
    rw [← hm2, ← hpde1, Machine.pde, Machine.setFrame_cr3,
      m1.setFrame_mem_ne _ (hcr3 ▸ hne.symm)]
    rfl
  have hp2 : Present (m2.pde v) := hpde2 ▸ tableEntry_present _
  have htab2 : m2.tableOf v = pageOf (pt.getD 0) := by
    rw [Machine.tableOf, hpde2, pageOf_tableEntry]
  -- the new table is empty
  have hpte2 : ¬ Present (m2.pte v) := by
    rw [Machine.pte, htab2, ← hm2, m1.setFrame_mem_self]
    simp [Present]
  have hwith : s.withTable v (pt.getD 0) = m2 := by rw [Machine.withTable, hm1, hm2]
  rw [pageTableAdd, h.load_pdePtr]
  show (if Present (s.pde v) then _ else _) = _
  rw [if_neg hp, hpt]
  show (s.store (pdePtr v) (tableEntry (pt.getD 0)) >>= _) = _
  rw [h.store_pdePtr, hm1]
  show (m1.clearPage (ptePtr v &&& 0xfffff000) >>= _) = _
  rw [hself1.clearPage_ptePtr (hpde1 ▸ tableEntry_present _), htab1, hm2]
  show setPte { s with toMachine := m2, kernelPool := pool } (ptePtr v) p = _
  rw [setPte_eq (s := { s with toMachine := m2, kernelPool := pool }) hself2 hp2, if_neg hpte2,
    htab2, hwith]

end Add

/-! ## What it means for addresses -/

/-- No other entry of the directory names the page table of `v`. -/
def OwnTable (s : Machine) (v : Addr) : Prop :=
  ∀ i, Present (s.mem s.cr3 i) → pageOf (s.mem s.cr3 i) = s.tableOf v → i = dirIdx v

section Walk

variable {s : Machine} {v : Addr}

theorem OwnTable.ne_cr3 (ho : OwnTable s v) (h : SelfMapped s) (hv : dirIdx v ≠ 1023) :
    s.tableOf v ≠ s.cr3 := fun he => hv (ho 1023 h.1 (h.2.trans he.symm)).symm

/-- Writing the entry of `v` changes the page of `v` only. -/
theorem OwnTable.walk_setWord (ho : OwnTable s v) (hne : s.tableOf v ≠ s.cr3)
    (hp : Present (s.pde v)) (e a : Addr) :
    (s.setWord (s.tableOf v) (tabIdx v) e).walk a =
      if pageOf a = pageOf v then if Present e then some (pageOf e) else none else s.walk a := by
  have hpde : ∀ a, (s.setWord (s.tableOf v) (tabIdx v) e).pde a = s.pde a := fun a =>
    s.setWord_mem_ne e (.inl hne.symm)
  have hpte : ∀ a, (s.setWord (s.tableOf v) (tabIdx v) e).pte a =
      (s.setWord (s.tableOf v) (tabIdx v) e).mem (s.tableOf a) (tabIdx a) := fun a => by
    have htab : (s.setWord (s.tableOf v) (tabIdx v) e).tableOf a = s.tableOf a :=
      congrArg pageOf (hpde a)
    rw [Machine.pte, htab]
  split
  · next ha =>
    rw [Machine.walk_eq_of_pageOf _ ha, Machine.walk, hpde, hpte, Machine.setWord_mem_self]
    by_cases he : Present e
    · rw [if_pos ⟨hp, he⟩, if_pos he]
    · rw [if_neg fun hb => he hb.2, if_neg he]
  · next ha =>
    refine Machine.walk_congr (hpde a) fun hpa => ?_
    rw [hpte]
    refine s.setWord_mem_ne e ?_
    -- otherwise both indices agree
    by_contra hsame
    obtain ⟨htab, hidx⟩ := not_or.mp hsame
    have hdir : dirIdx a = dirIdx v := ho (dirIdx a) hpa (not_not.mp htab)
    exact ha (pageOf_inj hdir (not_not.mp hidx))

/-- An empty table changes nothing below the last four megabytes: its pages were not mapped
before. -/
theorem walk_withTable (hp : ¬ Present (s.pde v)) {pt : Addr} (hne : pageOf pt ≠ s.cr3)
    (hfresh : ∀ i, Present (s.mem s.cr3 i) → pageOf (s.mem s.cr3 i) ≠ pageOf pt) {a : Addr}
    (hcr : Present (s.pde a) → s.tableOf a ≠ s.cr3) :
    (s.withTable v pt).walk a = s.walk a := by
  have hdir : ∀ i, (s.withTable v pt).mem s.cr3 i =
      if i = dirIdx v then tableEntry pt else s.mem s.cr3 i := by
    intro i
    rw [Machine.withTable, Machine.setFrame_mem_ne _ _ hne.symm]
    split
    · next hi => rw [hi, s.setWord_mem_self]
    · next hi => exact s.setWord_mem_ne _ (.inr hi)
  have hpde : (s.withTable v pt).pde a =
      if dirIdx a = dirIdx v then tableEntry pt else s.pde a := hdir (dirIdx a)
  by_cases ha : dirIdx a = dirIdx v
  · rw [if_pos ha] at hpde
    have hold : ¬ Present (s.pde a) := by
      rw [Machine.pde, ha]
      exact hp
    have hpte : ¬ Present ((s.withTable v pt).pte a) := by
      rw [Machine.pte, Machine.tableOf, hpde, pageOf_tableEntry, Machine.withTable,
        Machine.setFrame_mem_self]
      simp [Present]
    rw [Machine.walk, Machine.walk, if_neg fun hb => hpte hb.2, if_neg fun hb => hold hb.1]
  · rw [if_neg ha] at hpde
    refine Machine.walk_congr hpde fun hpa => ?_
    have htab : s.tableOf a ≠ pageOf pt := hfresh (dirIdx a) hpa
    have htab' : (s.withTable v pt).tableOf a = s.tableOf a := congrArg pageOf hpde
    rw [Machine.pte, htab', Machine.withTable, Machine.setFrame_mem_ne _ _ htab]
    exact s.setWord_mem_ne _ (.inl (hcr hpa))

theorem SelfMapped.withTable (h : SelfMapped s) (hp : ¬ Present (s.pde v)) {pt : Addr}
    (hne : pageOf pt ≠ s.cr3) : SelfMapped (s.withTable v pt) :=
  (h.setWord_table _ (.inr (h.dirIdx_ne hp))).setFrame_ne _ hne

/-- The new table is named by its own entry only. -/
theorem ownTable_withTable {pt : Addr} (hne : pageOf pt ≠ s.cr3)
    (hfresh : ∀ i, Present (s.mem s.cr3 i) → pageOf (s.mem s.cr3 i) ≠ pageOf pt) :
    (s.withTable v pt).pde v = tableEntry pt ∧ OwnTable (s.withTable v pt) v := by
  have hdir : ∀ i, i ≠ dirIdx v → (s.withTable v pt).mem s.cr3 i = s.mem s.cr3 i := by
    intro i hi
    rw [Machine.withTable, Machine.setFrame_mem_ne _ _ hne.symm]
    exact s.setWord_mem_ne _ (.inr hi)
  have hpde : (s.withTable v pt).pde v = tableEntry pt := by
    show (s.withTable v pt).mem s.cr3 (dirIdx v) = _
    rw [Machine.withTable, Machine.setFrame_mem_ne _ _ hne.symm, s.setWord_mem_self]
  refine ⟨hpde, fun i hi hpage => ?_⟩
  by_contra hne'
  have hcr : (s.withTable v pt).cr3 = s.cr3 := rfl
  rw [hcr, hdir i hne'] at hi hpage
  rw [Machine.tableOf, hpde, pageOf_tableEntry] at hpage
  exact hfresh i hi hpage

end Walk

theorem dirIdx_toNat (v : Addr) : (dirIdx v).toNat = v.toNat / 2 ^ 22 := by
  have hv := v.isLt
  rw [dirIdx, BitVec.extractLsb'_toNat, Nat.shiftRight_eq_div_pow]
  omega

/-- The addresses below the last four megabytes. -/
theorem dirIdx_ne_window {v : Addr} (hv : v < 0xffc00000) : dirIdx v ≠ 1023 := by
  intro he
  have hnat := congrArg BitVec.toNat he
  rw [dirIdx_toNat] at hnat
  have hlt : v.toNat < 0xffc00000 := hv
  have h1023 : (1023 : BitVec 10).toNat = 1023 := rfl
  omega

/-- The tables that `page_table_add` goes through for `v` serve `v` alone: the page table, if
it is there, is named by no other entry; else `palloc` gives a frame that is no table of the
directory, and the directory is named by its last entry only. -/
structure Separate (s : Memory) (v : Addr) : Prop where
  own : Present (s.pde v) → OwnTable s.toMachine v
  fresh : ¬ Present (s.pde v) → ∃ pt pool, palloc s.kernelPool = .ok (some pt, pool) ∧
    ∀ i, Present (s.mem s.cr3 i) → pageOf (s.mem s.cr3 i) ≠ pageOf pt
  dir : ¬ Present (s.pde v) → ∀ i, Present (s.mem s.cr3 i) → pageOf (s.mem s.cr3 i) = s.cr3 →
    i = 1023

/-- `page_table_add` on a page that is not mapped. -/
theorem Separate.walk_add {s : Memory} {v : Addr} (hs : Separate s v)
    (h : SelfMapped s.toMachine) (hv : dirIdx v ≠ 1023) (hnone : s.walk v = none) (p : Addr) :
    ∃ s', pageTableAdd s v p = .ok s' ∧ SelfMapped s'.toMachine ∧ s'.cr3 = s.cr3 ∧
      ∀ a, dirIdx a ≠ 1023 →
        s'.walk a = if pageOf a = pageOf v then some (pageOf p) else s.walk a := by
  have hentry : ∀ w : Option Frame, (if Present (tableEntry p) then some (pageOf (tableEntry p))
      else w) = some (pageOf p) := fun w => by
    rw [if_pos (tableEntry_present p), pageOf_tableEntry]
  by_cases hp : Present (s.pde v)
  · have ho := hs.own hp
    have hne := ho.ne_cr3 h hv
    have hpte : ¬ Present (s.pte v) := fun hpte => by
      rw [Machine.walk, if_pos ⟨hp, hpte⟩] at hnone
      cases hnone
    refine ⟨_, (pageTableAdd_table h hp p).trans (if_neg hpte), h.setWord_table _ (.inl hne), rfl,
      fun a _ => ?_⟩
    rw [ho.walk_setWord hne hp, hentry]
  · obtain ⟨pt, pool, hpt, hfresh⟩ := hs.fresh hp
    have hne : pageOf pt ≠ s.cr3 := fun he => hfresh 1023 h.1 (h.2.trans he.symm)
    obtain ⟨hpde, ho⟩ := ownTable_withTable hne hfresh
    have htab : (s.withTable v pt).tableOf v = pageOf pt := by
      rw [Machine.tableOf, hpde, pageOf_tableEntry]
    have hself := h.withTable hp hne
    refine ⟨_, pageTableAdd_newTable h hp hpt hne p, hself.setWord_table _ (.inl hne), rfl,
      fun a ha => ?_⟩
    have hset := ho.walk_setWord (htab ▸ hne) (hpde ▸ tableEntry_present pt) (tableEntry p) a
    rw [htab] at hset
    have hold : (s.withTable v pt).walk a = s.walk a :=
      walk_withTable hp hne hfresh fun hpa hcr => ha (hs.dir hp (dirIdx a) hpa hcr)
    show ((s.withTable v pt).setWord (pageOf pt) (tabIdx v) (tableEntry p)).walk a = _
    rw [hset, hentry, hold]

/-- **The recursive mapping.** In a directory whose last entry names itself, `pde_ptr` and
`pte_ptr` lead to the entries that the processor uses. Adding a page that is not mapped,
through tables that serve it alone, makes every address of the page translate to the frame,
leaves `addr_vir2phy` in agreement with the processor, and changes the translation of no
other address below the window. -/
theorem pageTable_recursive {s : Memory} (h : SelfMapped s.toMachine) {v : Addr}
    (hv : v < 0xffc00000) :
    s.translate (pdePtr v) = some (wordAddr s.cr3 (dirIdx v)) ∧
    (Present (s.pde v) → s.translate (ptePtr v) = some (wordAddr (s.tableOf v) (tabIdx v))) ∧
    ∀ p, offsetOf p = 0 → s.translate v = none → Separate s v →
      ∃ s', pageTableAdd s v p = .ok s' ∧
        (∀ a, pageOf a = pageOf v → s'.translate a = some (p + (offsetOf a).zeroExtend 32)) ∧
        (∀ a b, s'.translate a = some b → addrVir2phy s'.toMachine a = .ok b) ∧
        ∀ a < 0xffc00000, pageOf a ≠ pageOf v → s'.translate a = s.translate a := by
  have hidx := dirIdx_ne_window hv
  refine ⟨?_, fun hp => ?_, fun p hoff hnone hs => ?_⟩
  · rw [Machine.translate, h.walk_pdePtr, pdePtr_eq, wordAddr, offsetOf_addrOf]
    rfl
  · rw [Machine.translate, h.walk_ptePtr hp, ptePtr_eq, wordAddr, offsetOf_addrOf]
    rfl
  · obtain ⟨s', hadd, hself, -, hwalk⟩ := hs.walk_add h hidx (Option.map_eq_none_iff.mp hnone) p
    refine ⟨s', hadd, fun a ha => ?_, fun a b hb => hself.addrVir2phy_eq hb, fun a ha hpage => ?_⟩
    · have hdir : dirIdx a ≠ 1023 := by
        rw [dirIdx_eq, ha, ← dirIdx_eq]
        exact hidx
      rw [Machine.translate, hwalk a hdir, if_pos ha, Option.map_some, addrOf_aligned hoff]
    · rw [Machine.translate, hwalk a (dirIdx_ne_window ha), if_neg hpage]
      rfl

/-- The kernel at boot, with the main thread. -/
def bootMemory : Memory := memInit 0xc009e000

theorem bootMemory_selfMapped : SelfMapped bootMemory.toMachine := by
  refine ⟨?_, ?_⟩ <;> decide

/-- The first frame that the kernel gives out. -/
theorem bootMemory_palloc : ∃ pool, palloc bootMemory.kernelPool = .ok (some 0x200000, pool) := by
  have hcheck : (match palloc bootMemory.kernelPool with
    | .ok (some a, _) => decide (a = 0x200000)
    | _ => false) = true := by decide +kernel
  generalize palloc bootMemory.kernelPool = x at hcheck
  match x with
  | .ok (some a, pool) =>
    have ha : a = 0x200000 := of_decide_eq_true hcheck
    exact ⟨pool, ha ▸ rfl⟩

/-- The stack page of the first process, in the directory of the kernel: a new page table is
installed. -/
theorem pageTable_recursive_stack : ∃ s', pageTableAdd bootMemory 0xbffff000 0x1100000 = .ok s' ∧
    s'.translate 0xbffff004 = some 0x1100004 ∧ s'.translate 0xc00b8000 = some 0xb8000 := by
  have hsep : Separate bootMemory 0xbffff000 := by
    refine ⟨fun hp => absurd hp (by decide), fun _ => ?_, fun _ => ?_⟩
    · obtain ⟨pool, hpool⟩ := bootMemory_palloc
      exact ⟨0x200000, pool, hpool, by decide +kernel⟩
    · decide +kernel
  obtain ⟨-, -, hadd⟩ := pageTable_recursive bootMemory_selfMapped (v := 0xbffff000) (by decide)
  obtain ⟨s', hs', hpage, -, hother⟩ := hadd 0x1100000 (by decide) (by decide) hsep
  refine ⟨s', hs', ?_, ?_⟩
  · exact hpage 0xbffff004 (by decide)
  · rw [hother 0xc00b8000 (by decide) (by decide)]
    decide

/-- The first page of the kernel heap is added, and appears at 0x100000 as well: the loader has
mapped the first page table twice. -/
theorem lowAlias_changes : SelfMapped bootMemory.toMachine ∧
    ∃ s', pageTableAdd bootMemory 0xc0100000 0x200000 = .ok s' ∧
      bootMemory.translate 0xc0100000 = none ∧ bootMemory.translate 0x100000 = none ∧
      s'.translate 0x100000 = some 0x200000 := by
  have hadd := pageTableAdd_table bootMemory_selfMapped (v := 0xc0100000) (by decide) 0x200000
  rw [if_neg (by decide)] at hadd
  exact ⟨bootMemory_selfMapped, _, hadd, by decide, by decide, by decide⟩

end GwOS
