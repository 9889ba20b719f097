import GwOS.Kernel.PageTable

/-!
# Frames and their owners
-/

namespace GwOS

theorem pageOf_toNat (v : Addr) : (pageOf v).toNat = v.toNat / 4096 := by
  have hv := v.isLt
  rw [pageOf, BitVec.extractLsb'_toNat, Nat.shiftRight_eq_div_pow]
  omega

theorem offsetOf_toNat (v : Addr) : (offsetOf v).toNat = v.toNat % 4096 := by
  rw [offsetOf, BitVec.extractLsb'_toNat, Nat.shiftRight_eq_div_pow]
  omega

/-- A word of a page. -/
theorem word_of_page {v : Addr} (hal : v.toNat % pgSize = 0) {i : Nat} (hi : i < 1024) :
    pageOf (v + BitVec.ofNat 32 (i * 4)) = pageOf v ∧
      wordIdx (v + BitVec.ofNat 32 (i * 4)) = BitVec.ofNat 10 i := by
  unfold pgSize at hal
  have hv := v.isLt
  have hnat : (v + BitVec.ofNat 32 (i * 4)).toNat = v.toNat + i * 4 := by
    rw [BitVec.toNat_add, BitVec.toNat_ofNat]
    omega
  refine ⟨?_, ?_⟩
  · apply BitVec.eq_of_toNat_eq
    rw [pageOf_toNat, pageOf_toNat, hnat]
    omega
  · apply BitVec.eq_of_toNat_eq
    rw [wordIdx, BitVec.extractLsb'_toNat, Nat.shiftRight_eq_div_pow, hnat, BitVec.toNat_ofNat]
    omega

theorem load_word {m : Machine} {v : Addr} {f : Frame} (hal : v.toNat % pgSize = 0)
    (hw : m.walk v = some f) {i : Nat} (hi : i < 1024) :
    m.load (v + BitVec.ofNat 32 (i * 4)) = .ok (m.mem f (BitVec.ofNat 10 i)) := by
  obtain ⟨hpage, hword⟩ := word_of_page hal hi
  rw [Machine.load, m.walk_eq_of_pageOf hpage, hw, hword]

/-! ## Pools -/

namespace Pool

/-- The number of the first frame. -/
def first (p : Pool) : Nat := p.phyAddrStart.toNat / pgSize

/-- The frame lies in the range that the pool describes. -/
def Contains (p : Pool) (f : Frame) : Prop :=
  p.phyAddrStart.toNat ≤ f.toNat * pgSize ∧ f.toNat * pgSize < p.phyAddrStart.toNat + p.poolSize.toNat

/-- The frame has been given out. -/
def Taken (p : Pool) (f : Frame) : Prop :=
  p.Contains f ∧ p.poolBitmap.bit (f.toNat - p.first) = true

/-- The pool lies on page boundaries and inside of the address space, and the bitmap has no
bits for frames outside of it. -/
structure Ok (p : Pool) : Prop where
  aligned : p.phyAddrStart.toNat % pgSize = 0
  size : 8 * p.poolBitmap.len * pgSize ≤ p.poolSize.toNat
  fits : p.phyAddrStart.toNat + p.poolSize.toNat ≤ 2 ^ 32
  len : 1 ≤ p.poolBitmap.len

/-- The two pools describe the same frames. -/
structure SameRange (p p' : Pool) : Prop where
  start : p'.phyAddrStart = p.phyAddrStart
  size : p'.poolSize = p.poolSize
  len : p'.poolBitmap.len = p.poolBitmap.len

theorem SameRange.ok {p p' : Pool} (h : SameRange p p') (hp : p.Ok) : p'.Ok := by
  obtain ⟨ha, hs, hf, hl⟩ := hp
  refine ⟨?_, ?_, ?_, ?_⟩
  · rw [h.start]
    exact ha
  · rw [h.len, h.size]
    exact hs
  · rw [h.start, h.size]
    exact hf
  · rw [h.len]
    exact hl

theorem SameRange.contains {p p' : Pool} (h : SameRange p p') (f : Frame) :
    p'.Contains f ↔ p.Contains f := by
  rw [Contains, Contains, h.start, h.size]

theorem SameRange.first {p p' : Pool} (h : SameRange p p') : p'.first = p.first := by
  rw [Pool.first, Pool.first, h.start]

/-- The pool `p'` is `p` with one more frame given out. -/
structure Took (p p' : Pool) (f : Frame) : Prop extends SameRange p p' where
  contains : p.Contains f
  free : ¬ p.Taken f
  taken : ∀ g, p'.Taken g ↔ p.Taken g ∨ g = f

/-- The pool `p'` is `p` with one frame given back. -/
structure Gave (p p' : Pool) (f : Frame) : Prop extends SameRange p p' where
  taken : ∀ g, p'.Taken g ↔ p.Taken g ∧ g ≠ f

/-- The frame lies in the range of the pool, and the bitmap has a bit for it. -/
def Covers (p : Pool) (f : Frame) : Prop :=
  p.Contains f ∧ f.toNat - p.first < 8 * p.poolBitmap.len

theorem Taken.covers {p : Pool} {f : Frame} (h : p.Taken f) : p.Covers f := by
  refine ⟨h.1, ?_⟩
  by_contra hge
  have hbit := h.2
  rw [Bitmap.bit_of_ge (by omega)] at hbit
  cases hbit

theorem SameRange.covers {p p' : Pool} (h : SameRange p p') (f : Frame) : p'.Covers f ↔ p.Covers f := by
  rw [Covers, Covers, h.contains, h.first, h.len]

/-- Within a pool, the index determines the frame. -/
theorem Contains.idx_inj {p : Pool} (hp : p.Ok) {f g : Frame} (hf : p.Contains f)
    (hg : p.Contains g) (h : g.toNat - p.first = f.toNat - p.first) : g = f := by
  have ha := hp.aligned
  have h1 := hf.1
  have h2 := hg.1
  unfold first at h
  unfold pgSize at *
  apply BitVec.eq_of_toNat_eq
  omega

end Pool

/-- `palloc` gives out a frame of the pool that was free, or none. -/
theorem palloc_ok {p : Pool} (hp : p.Ok) : ∃ r p', palloc p = .ok (r, p') ∧
    ((r = none ∧ p' = p) ∨ ∃ a, r = some a ∧ offsetOf a = 0 ∧ p.Took p' (pageOf a)) := by
  have hsize := hp.size
  have hfits := hp.fits
  have hlen := hp.len
  have hal := hp.aligned
  unfold pgSize at *
  obtain ⟨r, hr, hfound⟩ := bitmapApplyCnt_ok (Nat.le_refl 1) hlen (by omega)
  cases r with
  | none =>
    refine ⟨none, p, ?_, .inl ⟨rfl, rfl⟩⟩
    rw [palloc, hr]
    rfl
  | some idx =>
    obtain ⟨-, hlt, hfree⟩ := hfound
    have hidx : idx < 8 * p.poolBitmap.len := by omega
    obtain ⟨mp, hmp, hmplen, hbit⟩ := bitmapSetIdx_ok hidx true
    generalize ha : BitVec.ofNat 32 (idx * 4096) + p.phyAddrStart = a
    have hnat : a.toNat = idx * 4096 + p.phyAddrStart.toNat := by
      rw [← ha, BitVec.toNat_add, BitVec.toNat_ofNat]
      omega
    have hpage : (pageOf a).toNat = idx + p.first := by
      rw [pageOf_toNat, hnat, Pool.first, pgSize]
      omega
    have hidx : (pageOf a).toNat - p.first = idx := by omega
    have hcon : p.Contains (pageOf a) := by
      rw [Pool.Contains, hpage, Pool.first, pgSize]
      omega
    have hrange : p.SameRange { p with poolBitmap := mp } := ⟨rfl, rfl, hmplen⟩
    refine ⟨some a, { p with poolBitmap := mp }, ?_, .inr ⟨a, rfl, ?_, hrange, hcon, ?_, ?_⟩⟩
    · rw [palloc, hr]
      show (bitmapSetIdx p.poolBitmap idx 1 >>= _) = _
      rw [show bitmapSetIdx p.poolBitmap idx 1 = .ok mp from hmp, ← ha]
      rfl
    · apply BitVec.eq_of_toNat_eq
      rw [offsetOf_toNat, hnat]
      show _ = 0
      omega
    · rintro ⟨-, hb⟩
      have hfree0 := hfree 0 (by omega)
      rw [hidx] at hb
      rw [Nat.add_zero, hb] at hfree0
      cases hfree0
    · intro g
      rw [Pool.Taken, Pool.Taken, hrange.contains, hrange.first]
      show _ ∧ mp.bit _ = true ↔ _
      rw [hbit]
      constructor
      · rintro ⟨hg, hb⟩
        by_cases he : g.toNat - p.first = idx
        · exact .inr (hcon.idx_inj hp hg (he.trans hidx.symm))
        · rw [if_neg he] at hb
          exact .inl ⟨hg, hb⟩
      · rintro (⟨hg, hb⟩ | rfl)
        · refine ⟨hg, ?_⟩
          split
          · rfl
          · exact hb
        · rw [if_pos hidx]
          exact ⟨hcon, rfl⟩

/-! ## The layout of the address spaces -/

/-- The directory of the kernel threads. -/
def kernelDir : Frame := 0x100

/-- The page tables of the kernel, which the loader has laid out behind its directory. -/
def kernelTable (i : BitVec 10) : Frame := 0x101 + (i.zeroExtend 20 - 768)

/-- The frame has been given out by one of the pools. -/
def Memory.Taken (s : Memory) (f : Frame) : Prop := s.kernelPool.Taken f ∨ s.userPool.Taken f

/-- A frame that is used as a page table of one of the directories `D`. -/
def IsTable (s : Machine) (D : Frame → Prop) (f : Frame) : Prop :=
  ∃ d, D d ∧ ∃ i, i ≠ 1023 ∧ Present (s.mem d i) ∧ pageOf (s.mem d i) = f

/-- The directories `D` share the upper quarter, name themselves at the end, and have page
tables of their own below; only the first table of the kernel appears twice. All of it lies
in frames that no pool can give out again. -/
structure Layout (s : Memory) (D : Frame → Prop) : Prop where
  kernelOk : s.kernelPool.Ok
  userOk : s.userPool.Ok
  low : 0x200 ≤ s.kernelPool.first
  order : s.kernelPool.phyAddrStart.toNat + s.kernelPool.poolSize.toNat ≤
    s.userPool.phyAddrStart.toNat
  root : D kernelDir
  dirs : ∀ d, D d → d = kernelDir ∨ s.Taken d
  self : ∀ d, D d → Present (s.mem d 1023) ∧ pageOf (s.mem d 1023) = d
  shared : ∀ d, D d → ∀ i : BitVec 10, 768 ≤ i → i ≠ 1023 →
    Present (s.mem d i) ∧ pageOf (s.mem d i) = kernelTable i
  tables : ∀ d, D d → ∀ i : BitVec 10, i < 768 → Present (s.mem d i) →
    (d = kernelDir ∧ i = 0 ∧ pageOf (s.mem d i) = kernelTable 768) ∨
      (s.kernelPool.Taken (pageOf (s.mem d i)) ∧ ¬ D (pageOf (s.mem d i)))
  inj : ∀ d d', D d → D d' → ∀ i i' : BitVec 10, i < 768 → i' < 768 → Present (s.mem d i) →
    Present (s.mem d' i') → s.kernelPool.Taken (pageOf (s.mem d i)) →
    pageOf (s.mem d i) = pageOf (s.mem d' i') → d = d' ∧ i = i'

section Layout

variable {s s' : Memory} {D : Frame → Prop} {f : Frame}

theorem kernelTable_toNat {i : BitVec 10} (hi : 768 ≤ i) :
    (kernelTable i).toNat = 0x101 + (i.toNat - 768) := by
  have hlt := i.isLt
  have hle : 768 ≤ i.toNat := hi
  rw [kernelTable]
  simp
  omega

theorem Pool.Taken.first_le {p : Pool} (h : p.Taken f) : p.first ≤ f.toNat := by
  have h1 := h.1.1
  unfold Pool.first
  unfold pgSize at *
  omega

/-- The two pools have no frame in common. -/
theorem Layout.not_both (h : Layout s D) (hk : s.kernelPool.Contains f) :
    ¬ s.userPool.Contains f := by
  rintro ⟨hu, -⟩
  have hk2 := hk.2
  have ho := h.order
  omega

theorem Layout.taken_ge (h : Layout s D) (hf : s.Taken f) : 0x200 ≤ f.toNat := by
  have hlow := h.low
  rcases hf with hf | hf
  · have := hf.first_le
    omega
  · have h1 := hf.1.1
    have ho := h.order
    unfold Pool.first at hlow
    unfold pgSize at *
    omega

/-- A table of a directory has been given out, or belongs to the loader. -/
theorem Layout.isTable (h : Layout s D) (hf : IsTable s.toMachine D f) :
    (s.kernelPool.Taken f ∨ f.toNat < 0x200) ∧ ¬ D f := by
  obtain ⟨d, hd, i, hi, hp, rfl⟩ := hf
  -- a table of the kernel is no directory
  have hkernel : ∀ i : BitVec 10, 768 ≤ i → i ≠ 1023 →
      (kernelTable i).toNat < 0x200 ∧ ¬ D (kernelTable i) := by
    intro i hi hne
    have hnat := kernelTable_toNat hi
    have hlt := i.isLt
    have hne' : i.toNat ≠ 1023 := fun he => hne (BitVec.eq_of_toNat_eq he)
    refine ⟨by omega, fun hD => ?_⟩
    rcases h.dirs _ hD with he | ht
    · have hroot : (kernelTable i).toNat = 0x100 := by rw [he]; rfl
      omega
    · have := h.taken_ge ht
      omega
  by_cases hlow : i < 768
  · rcases h.tables d hd i hlow hp with ⟨-, -, he⟩ | ⟨ht, hD⟩
    · rw [he]
      have hk := hkernel 768 (by decide) (by decide)
      exact ⟨.inr hk.1, hk.2⟩
    · exact ⟨.inl ht, hD⟩
  · have hhigh : 768 ≤ i := BitVec.not_lt.mp hlow
    rw [(h.shared d hd i hhigh hi).2]
    have hk := hkernel i hhigh hi
    exact ⟨.inr hk.1, hk.2⟩

/-- A frame that a pool can still give out is neither a directory nor a table. -/
theorem Layout.spare (h : Layout s D) (hf : ¬ s.Taken f) (hge : 0x200 ≤ f.toNat) :
    ¬ D f ∧ ¬ IsTable s.toMachine D f := by
  refine ⟨fun hD => ?_, fun ht => ?_⟩
  · rcases h.dirs f hD with rfl | ht
    · exact absurd hge (by decide)
    · exact hf ht
  · rcases (h.isTable ht).1 with ht | hlt
    · exact hf (.inl ht)
    · omega

theorem Layout.selfMapped (h : Layout s D) (hd : D s.cr3) : SelfMapped s.toMachine := h.self _ hd

/-- The layout depends on the pools and on the contents of the directories. -/
theorem Layout.congr (h : Layout s D) (hmem : ∀ d, D d → s'.mem d = s.mem d)
    (hk : s'.kernelPool = s.kernelPool) (hu : s'.userPool = s.userPool) : Layout s' D := by
  refine ⟨?_, ?_, ?_, ?_, h.root, ?_, ?_, ?_, ?_, ?_⟩
  · rw [hk]
    exact h.kernelOk
  · rw [hu]
    exact h.userOk
  · rw [hk]
    exact h.low
  · rw [hk, hu]
    exact h.order
  · intro d hd
    rw [Memory.Taken, hk, hu]
    exact h.dirs d hd
  · intro d hd
    rw [hmem d hd]
    exact h.self d hd
  · intro d hd
    rw [hmem d hd]
    exact h.shared d hd
  · intro d hd
    rw [hmem d hd, hk]
    exact h.tables d hd
  · intro d d' hd hd'
    rw [hmem d hd, hmem d' hd', hk]
    exact h.inj d d' hd hd'

/-- A change of the pools that keeps the frames of the layout. -/
theorem Layout.pools (h : Layout s D) (hmem : s'.mem = s.mem)
    (hk : s.kernelPool.SameRange s'.kernelPool) (hu : s.userPool.SameRange s'.userPool)
    (hdirs : ∀ d, D d → s.Taken d → s'.Taken d)
    (htables : ∀ f, IsTable s.toMachine D f → (s'.kernelPool.Taken f ↔ s.kernelPool.Taken f)) :
    Layout s' D := by
  have htable : ∀ d, D d → ∀ i : BitVec 10, i < 768 → Present (s.mem d i) →
      IsTable s.toMachine D (pageOf (s.mem d i)) := fun d hd i hi hp =>
    ⟨d, hd, i, fun he => absurd (he ▸ hi) (by decide), hp, rfl⟩
  refine ⟨hk.ok h.kernelOk, hu.ok h.userOk, ?_, ?_, h.root, ?_, ?_, ?_, ?_, ?_⟩
  · rw [hk.first]
    exact h.low
  · rw [hk.start, hk.size, hu.start]
    exact h.order
  · intro d hd
    exact (h.dirs d hd).imp id (hdirs d hd)
  · rw [hmem]
    exact h.self
  · rw [hmem]
    exact h.shared
  · intro d hd i hi hp
    rw [hmem] at hp ⊢
    exact (h.tables d hd i hi hp).imp id fun ⟨ht, hD⟩ =>
      ⟨(htables _ (htable d hd i hi hp)).mpr ht, hD⟩
  · intro d d' hd hd' i i' hi hi' hp hp' ht he
    rw [hmem] at hp hp' ht he
    exact h.inj d d' hd hd' i i' hi hi' hp hp' ((htables _ (htable d hd i hi hp)).mp ht) he

end Layout

/-! ## Pages and their frames -/

/-- A virtual page: the directory it belongs to and its number. Pages of the kernel belong to
`kernelDir`. -/
abbrev VPage := Frame × BitVec 20

/-- The page that `v` is in while the directory `d` is active. -/
def vpage (d : Frame) (v : Addr) : VPage := (if 768 ≤ dirIdx v then kernelDir else d, pageOf v)

/-- Physical memory under another directory. -/
def Machine.under (s : Machine) (d : Frame) : Machine := { s with cr3 := d }

namespace Memory

/-- The frame that a page is mapped to. -/
def frameAt (s : Memory) (k : VPage) : Option Frame := (s.under k.1).walk (addrOf k.2 0)

/-- The entry of the directory for a page. -/
def pdeAt (s : Memory) (k : VPage) : Addr := s.mem k.1 (dirIdx (addrOf k.2 0))

/-- The place of the entry of the page table for a page. -/
def slotAt (s : Memory) (k : VPage) : Frame × BitVec 10 :=
  (pageOf (s.pdeAt k), tabIdx (addrOf k.2 0))

theorem frameAt_eq (s : Memory) (k : VPage) : s.frameAt k =
    if Present (s.pdeAt k) ∧ Present (s.mem (s.slotAt k).1 (s.slotAt k).2) then
      some (pageOf (s.mem (s.slotAt k).1 (s.slotAt k).2)) else none := rfl

/-- A page is mapped as before when its two entries are as before. -/
theorem frameAt_congr {s s' : Memory} {k : VPage} (hpde : s'.pdeAt k = s.pdeAt k)
    (hpte : Present (s.pdeAt k) →
      s'.mem (s.slotAt k).1 (s.slotAt k).2 = s.mem (s.slotAt k).1 (s.slotAt k).2) :
    s'.frameAt k = s.frameAt k := by
  have hslot : s'.slotAt k = s.slotAt k := by rw [slotAt, slotAt, hpde]
  rw [frameAt_eq, frameAt_eq, hpde, hslot]
  by_cases hp : Present (s.pdeAt k)
  · rw [hpte hp]
  · rw [if_neg fun h => hp h.1, if_neg fun h => hp h.1]

theorem present_of_frameAt {s : Memory} {k : VPage} {f : Frame} (h : s.frameAt k = some f) :
    Present (s.pdeAt k) ∧ Present (s.mem (s.slotAt k).1 (s.slotAt k).2) ∧
      pageOf (s.mem (s.slotAt k).1 (s.slotAt k).2) = f := by
  rw [frameAt_eq] at h
  split at h
  · next hp =>
    cases h
    exact ⟨hp.1, hp.2, rfl⟩
  · cases h

end Memory

section Pages

variable {s s' : Memory} {D : Frame → Prop} {d f : Frame} {v : Addr}

theorem dirIdx_vpage (d : Frame) (v : Addr) : dirIdx (addrOf (vpage d v).2 0) = dirIdx v := by
  rw [dirIdx_eq, pageOf_addrOf, dirIdx_eq]
  rfl

theorem tabIdx_vpage (d : Frame) (v : Addr) : tabIdx (addrOf (vpage d v).2 0) = tabIdx v := by
  rw [tabIdx_eq, pageOf_addrOf, tabIdx_eq]
  rfl

/-- The entries that the processor uses under `d` for `v` are those of the page of `v`. -/
theorem Layout.pdeAt (h : Layout s D) (hd : D d) (hv : dirIdx v ≠ 1023) :
    (Present (s.pdeAt (vpage d v)) ↔ Present (s.mem d (dirIdx v))) ∧
      pageOf (s.pdeAt (vpage d v)) = pageOf (s.mem d (dirIdx v)) := by
  rw [Memory.pdeAt, dirIdx_vpage, vpage]
  split
  · next hk =>
    obtain ⟨hp, ht⟩ := h.shared d hd _ hk hv
    obtain ⟨hp', ht'⟩ := h.shared kernelDir h.root _ hk hv
    exact ⟨⟨fun _ => hp, fun _ => hp'⟩, ht'.trans ht.symm⟩
  · exact ⟨Iff.rfl, rfl⟩

/-- So the page of `v` is mapped as the processor sees it under `d`. -/
theorem Layout.frameAt_vpage (h : Layout s D) (hd : D d) (hv : dirIdx v ≠ 1023) :
    s.frameAt (vpage d v) = (s.under d).walk v := by
  obtain ⟨hp, ht⟩ := h.pdeAt hd hv
  have hslot : s.slotAt (vpage d v) = ((s.under d).tableOf v, tabIdx v) := by
    rw [Memory.slotAt, ht, tabIdx_vpage]
    rfl
  have hiff : (Present (s.pdeAt (vpage d v)) ∧ Present (s.mem ((s.under d).tableOf v) (tabIdx v))) ↔
      (Present ((s.under d).pde v) ∧ Present ((s.under d).pte v)) := and_congr hp Iff.rfl
  rw [Memory.frameAt_eq, hslot, Machine.walk]
  exact if_congr hiff rfl rfl

theorem Layout.walk_eq {v : Addr} (hl : Layout s D) (hcr : D s.cr3) (hv : dirIdx v ≠ 1023) :
    s.walk v = s.frameAt (vpage s.cr3 v) := (hl.frameAt_vpage hcr hv).symm

theorem Layout.vpage_mem (h : Layout s D) (hd : D d) : D (vpage d v).1 := by
  rw [vpage]
  split
  · exact h.root
  · exact hd

/-- The pages `L` and `H` are mapped to frames of their own that have been given out and are
no tables. The frames of `L` are no directories either, and those of `H` are known. -/
structure Owned (s : Memory) (D : Frame → Prop) (g : VPage → Frame) (L H : List VPage) : Prop where
  page : ∀ k ∈ L ++ H, D k.1 ∧ dirIdx (addrOf k.2 0) ≠ 1023
  mapped : ∀ k ∈ L ++ H, ∃ f, s.frameAt k = some f ∧ s.Taken f ∧ ¬ IsTable s.toMachine D f
  inj : ∀ k ∈ L ++ H, ∀ k' ∈ L ++ H, s.frameAt k = s.frameAt k' → k = k'
  nodup : (L ++ H).Nodup
  loose : ∀ k ∈ L, ∀ f, s.frameAt k = some f → ¬ D f
  held : ∀ k ∈ H, s.frameAt k = some (g k)

/-- The frame has been given out, and nothing uses it. -/
structure Spare (s : Memory) (D : Frame → Prop) (K : List VPage) (f : Frame) : Prop where
  taken : s.Taken f
  dir : ¬ D f
  table : ¬ IsTable s.toMachine D f
  unmapped : ∀ k ∈ K, s.frameAt k ≠ some f

variable {L H L' : List VPage} {k : VPage} {g : VPage → Frame}

theorem Owned.mono (h : Owned s D g L H) (hsub : L'.Sublist L) : Owned s D g L' H := by
  have happ : (L' ++ H).Sublist (L ++ H) := hsub.append_right H
  exact ⟨fun k hk => h.page k (happ.subset hk), fun k hk => h.mapped k (happ.subset hk),
    fun k hk k' hk' => h.inj k (happ.subset hk) k' (happ.subset hk'), h.nodup.sublist happ,
    fun k hk => h.loose k (hsub.subset hk), h.held⟩

/-- The slot of a page is in a table. -/
theorem isTable_slotAt (hk : D k.1) (hne : dirIdx (addrOf k.2 0) ≠ 1023)
    (hp : Present (s.pdeAt k)) : IsTable s.toMachine D (s.slotAt k).1 :=
  ⟨k.1, hk, _, hne, hp, rfl⟩

/-- Nothing changes for a page when the directories and its slot do not. -/
theorem frameAt_eq_of_dirs (hdir : ∀ d, D d → s'.mem d = s.mem d) (hk : D k.1)
    (hslot : Present (s.pdeAt k) →
      s'.mem (s.slotAt k).1 (s.slotAt k).2 = s.mem (s.slotAt k).1 (s.slotAt k).2) :
    s'.frameAt k = s.frameAt k := by
  refine Memory.frameAt_congr ?_ hslot
  rw [Memory.pdeAt, Memory.pdeAt, hdir _ hk]

theorem isTable_congr (hdir : ∀ d, D d → s'.mem d = s.mem d) :
    IsTable s'.toMachine D f ↔ IsTable s.toMachine D f := by
  constructor
  · rintro ⟨d, hd, i, hi, hp, he⟩
    rw [hdir d hd] at hp he
    exact ⟨d, hd, i, hi, hp, he⟩
  · rintro ⟨d, hd, i, hi, hp, he⟩
    rw [← hdir d hd] at hp he
    exact ⟨d, hd, i, hi, hp, he⟩

/-- The pages stay owned when they are mapped as before and their frames stay given out. -/
theorem Owned.congr (h : Owned s D g L H) (hdir : ∀ d, D d → s'.mem d = s.mem d)
    (hframe : ∀ k ∈ L ++ H, s'.frameAt k = s.frameAt k)
    (htaken : ∀ k ∈ L ++ H, ∀ f, s.frameAt k = some f → s.Taken f → s'.Taken f) :
    Owned s' D g L H := by
  refine ⟨h.page, fun k hk => ?_, fun k hk k' hk' he => ?_, h.nodup, fun k hk f hf => ?_,
    fun k hk => ?_⟩
  · obtain ⟨f, hf, ht, htab⟩ := h.mapped k hk
    refine ⟨f, (hframe k hk).trans hf, htaken k hk f hf ht, ?_⟩
    rw [isTable_congr hdir]
    exact htab
  · rw [hframe k hk, hframe k' hk'] at he
    exact h.inj k hk k' hk' he
  · rw [hframe k (List.mem_append_left _ hk)] at hf
    exact h.loose k hk f hf
  · rw [hframe k (List.mem_append_right _ hk)]
    exact h.held k hk

end Pages

/-! ## The steps -/

section Steps

variable {s s' : Memory} {D : Frame → Prop} {f t : Frame} {v : Addr} {L H : List VPage}
  {k : VPage} {g : VPage → Frame} {pf : PoolFlag} {p' : Pool}

theorem Layout.poolOk (h : Layout s D) (pf : PoolFlag) : (s.pool pf).Ok := by
  cases pf with
  | kernel => exact h.kernelOk
  | user => exact h.userOk

/-- A frame that a pool has just given out was not given out before. -/
theorem Layout.not_taken (h : Layout s D) (ht : (s.pool pf).Took p' f) : ¬ s.Taken f := by
  cases pf with
  | kernel =>
    rintro (hk | hu)
    · exact ht.free hk
    · exact h.not_both ht.contains hu.1
  | user =>
    rintro (hk | hu)
    · exact h.not_both hk.1 ht.contains
    · exact ht.free hu

theorem Layout.contains_ge (h : Layout s D) (hc : (s.pool pf).Contains f) : 0x200 ≤ f.toNat := by
  have hlow := h.low
  have ho := h.order
  have hc1 := hc.1
  unfold Pool.first at hlow
  unfold pgSize at *
  cases pf with
  | kernel =>
    have hk : s.kernelPool.phyAddrStart.toNat ≤ f.toNat * 4096 := hc1
    omega
  | user =>
    have hu : s.userPool.phyAddrStart.toNat ≤ f.toNat * 4096 := hc1
    omega

/-- `palloc`: the layout stays, and the frame is spare. -/
theorem Layout.took (h : Layout s D) (ho : Owned s D g L H) (ht : (s.pool pf).Took p' f) :
    Layout (s.setPool pf p') D ∧ Owned (s.setPool pf p') D g L H ∧
      Spare (s.setPool pf p') D (L ++ H) f := by
  have hnot := h.not_taken ht
  obtain ⟨hD, htab⟩ := h.spare hnot (h.contains_ge ht.contains)
  have hmem : (s.setPool pf p').toMachine = s.toMachine := by cases pf <;> rfl
  have hmono : ∀ g, s.Taken g → (s.setPool pf p').Taken g := by
    intro g hg
    cases pf with
    | kernel => exact hg.imp_left fun hk => (ht.taken g).mpr (.inl hk)
    | user => exact hg.imp_right fun hu => (ht.taken g).mpr (.inl hu)
  have hnew : (s.setPool pf p').Taken f := by
    cases pf with
    | kernel => exact .inl ((ht.taken f).mpr (.inr rfl))
    | user => exact .inr ((ht.taken f).mpr (.inr rfl))
  have hframe : ∀ k, (s.setPool pf p').frameAt k = s.frameAt k := fun k => by
    rw [Memory.frameAt, hmem]
    rfl
  refine ⟨?_, ho.congr (fun d _ => by rw [hmem]) (fun k _ => hframe k) fun _ _ f _ => hmono f,
    ⟨hnew, hD, hmem ▸ htab, fun k hk hf => ?_⟩⟩
  · refine h.pools (by rw [hmem]) ?_ ?_ ?_ ?_
    · cases pf with
      | kernel => exact ht.toSameRange
      | user => exact ⟨rfl, rfl, rfl⟩
    · cases pf with
      | kernel => exact ⟨rfl, rfl, rfl⟩
      | user => exact ht.toSameRange
    · exact fun d _ => hmono d
    · intro g hg
      cases pf with
      | kernel =>
        refine ⟨fun hk => ((ht.taken g).mp hk).resolve_right ?_, fun hk => (ht.taken g).mpr (.inl hk)⟩
        rintro rfl
        exact htab hg
      | user => exact Iff.rfl
  · rw [hframe] at hf
    obtain ⟨g, hg, hgt, -⟩ := ho.mapped k hk
    rw [hg] at hf
    cases hf
    exact hnot hgt

/-- Writing a word of a table. -/
theorem Layout.setWord (h : Layout s D) (ht : ¬ D t) (j : BitVec 10) (e : Addr) :
    Layout { s with toMachine := s.setWord t j e } D ∧
      ∀ k, D k.1 → (Present (s.pdeAt k) → s.slotAt k ≠ (t, j)) →
        ({ s with toMachine := s.setWord t j e } : Memory).frameAt k = s.frameAt k := by
  have hdir : ∀ d, D d → (s.setWord t j e).mem d = s.mem d := fun d hd =>
    s.setFrame_mem_ne _ fun he => ht (he ▸ hd)
  refine ⟨h.congr hdir rfl rfl, fun k hk hslot => ?_⟩
  have hdir' : ∀ d, D d → ({ s with toMachine := s.setWord t j e } : Memory).mem d = s.mem d := hdir
  refine frameAt_eq_of_dirs hdir' hk fun hp => ?_
  refine s.setWord_mem_ne e ?_
  by_contra hboth
  obtain ⟨h1, h2⟩ := not_or.mp hboth
  exact hslot hp (Prod.ext (not_not.mp h1) (not_not.mp h2))

/-- The last step of `page_table_add`: a spare frame is entered in a free slot. -/
theorem Owned.enter (hl : Layout s D) (ho : Owned s D g L H) (hcr : D s.cr3) (hv : dirIdx v ≠ 1023)
    (hp : Present (s.pde v)) (hfree : ¬ Present (s.pte v)) {page : Addr}
    (hsp : Spare s D (L ++ H) (pageOf page)) :
    Layout { s with toMachine := s.setWord (s.tableOf v) (tabIdx v) (tableEntry page) } D ∧
      Owned { s with toMachine := s.setWord (s.tableOf v) (tabIdx v) (tableEntry page) } D g
        (vpage s.cr3 v :: L) H := by
  obtain ⟨hpde, htab⟩ := hl.pdeAt hcr hv
  have hslot : s.slotAt (vpage s.cr3 v) = (s.tableOf v, tabIdx v) := by
    rw [Memory.slotAt, htab, tabIdx_vpage]
    rfl
  have hkey : D (vpage s.cr3 v).1 := hl.vpage_mem hcr
  have hne : dirIdx (addrOf (vpage s.cr3 v).2 0) ≠ 1023 := by
    rw [dirIdx_vpage]
    exact hv
  have hpkey : Present (s.pdeAt (vpage s.cr3 v)) := hpde.mpr hp
  have htable : IsTable s.toMachine D (s.tableOf v) := by
    have hT := isTable_slotAt hkey hne hpkey
    rwa [hslot] at hT
  have hnotD := (hl.isTable htable).2
  obtain ⟨hl', hkeep⟩ := hl.setWord hnotD (tabIdx v) (tableEntry page)
  generalize hs' : ({ s with
    toMachine := s.setWord (s.tableOf v) (tabIdx v) (tableEntry page) } : Memory) = s' at hl' hkeep
  have hdir : ∀ d, D d → s'.mem d = s.mem d := fun d hd => by
    rw [← hs']
    exact s.setFrame_mem_ne _ fun he => hnotD (he ▸ hd)
  -- the pages that are mapped have other slots
  have hold : ∀ k ∈ L ++ H, s'.frameAt k = s.frameAt k := by
    intro k hk
    refine hkeep k (ho.page k hk).1 fun _ he => hfree ?_
    obtain ⟨f, hf, -⟩ := ho.mapped k hk
    obtain ⟨-, hpte, -⟩ := Memory.present_of_frameAt hf
    rw [he] at hpte
    exact hpte
  have hnew : s'.frameAt (vpage s.cr3 v) = some (pageOf page) := by
    rw [hl'.frameAt_vpage hcr hv]
    have hpde' : (s'.under s.cr3).pde v = s.pde v := congrFun (hdir _ hcr) _
    have hpte' : (s'.under s.cr3).pte v = tableEntry page := by
      rw [Machine.pte, Machine.tableOf, hpde', ← hs']
      exact s.setWord_mem_self ..
    rw [Machine.walk, hpde', hpte', if_pos ⟨hp, tableEntry_present _⟩, pageOf_tableEntry]
  have hnone : ∀ k ∈ L ++ H, s'.frameAt k ≠ some (pageOf page) := fun k hk => by
    rw [hold k hk]
    exact hsp.unmapped k hk
  have htaken : s'.Taken = s.Taken := by rw [← hs']; rfl
  have htabs : ∀ f, IsTable s'.toMachine D f ↔ IsTable s.toMachine D f := fun f =>
    isTable_congr hdir
  refine ⟨hl', ?_, ?_, ?_, ?_, ?_, ?_⟩
  · intro k hk
    rcases List.mem_cons.mp hk with rfl | hk
    · exact ⟨hkey, hne⟩
    · exact ho.page k hk
  · intro k hk
    rcases List.mem_cons.mp hk with rfl | hk
    · refine ⟨pageOf page, hnew, htaken ▸ hsp.taken, ?_⟩
      rw [htabs]
      exact hsp.table
    · obtain ⟨f, hf, hft, hftab⟩ := ho.mapped k hk
      refine ⟨f, (hold k hk).trans hf, htaken ▸ hft, ?_⟩
      rw [htabs]
      exact hftab
  · intro k hk k' hk' he
    rcases List.mem_cons.mp hk with rfl | hk
    · rcases List.mem_cons.mp hk' with rfl | hk'
      · rfl
      · rw [hnew] at he
        exact absurd he.symm (hnone k' hk')
    · rcases List.mem_cons.mp hk' with rfl | hk'
      · rw [hnew] at he
        exact absurd he (hnone k hk)
      · rw [hold k hk, hold k' hk'] at he
        exact ho.inj k hk k' hk' he
  · refine List.nodup_cons.mpr ⟨fun hk => ?_, ho.nodup⟩
    exact hnone _ hk hnew
  · intro k hk f hf
    rcases List.mem_cons.mp hk with rfl | hk
    · rw [hnew] at hf
      cases hf
      exact hsp.dir
    · rw [hold k (List.mem_append_left _ hk)] at hf
      exact ho.loose k hk f hf
  · intro k hk
    rw [hold k (List.mem_append_right _ hk)]
    exact ho.held k hk

/-- A directory has got an entry for the table in `pt`: in `s'`, the entry `i` of the directory
`c` is the only entry of a directory that is not as in `s`, where it was not present. -/
structure NewEntry (s s' : Memory) (D : Frame → Prop) (c : Frame) (i : BitVec 10) (pt : Addr) :
    Prop where
  mem : ∀ d, D d → ∀ j, s'.mem d j = if d = c ∧ j = i then tableEntry pt else s.mem d j
  kernelPool : s'.kernelPool = s.kernelPool
  userPool : s'.userPool = s.userPool
  isDir : D c
  low : i < 768
  absent : ¬ Present (s.mem c i)
  taken : s.kernelPool.Taken (pageOf pt)

namespace NewEntry

variable {c : Frame} {i : BitVec 10} {pt : Addr}

theorem self (h : NewEntry s s' D c i pt) : s'.mem c i = tableEntry pt := by
  rw [h.mem c h.isDir, if_pos ⟨rfl, rfl⟩]

theorem other (h : NewEntry s s' D c i pt) {d : Frame} (hd : D d) {j : BitVec 10}
    (hne : ¬ (d = c ∧ j = i)) : s'.mem d j = s.mem d j := by
  rw [h.mem d hd, if_neg hne]

/-- An entry that was present is another one. -/
theorem ne_of_present (h : NewEntry s s' D c i pt) {d : Frame} {j : BitVec 10}
    (hp : Present (s.mem d j)) : ¬ (d = c ∧ j = i) := by
  rintro ⟨rfl, rfl⟩
  exact h.absent hp

theorem taken_eq (h : NewEntry s s' D c i pt) : s'.Taken = s.Taken := by
  funext f
  rw [Memory.Taken, Memory.Taken, h.kernelPool, h.userPool]

theorem isTable_iff (h : NewEntry s s' D c i pt) :
    IsTable s'.toMachine D f ↔ IsTable s.toMachine D f ∨ f = pageOf pt := by
  constructor
  · rintro ⟨d, hd, j, hj, hp, he⟩
    by_cases hdj : d = c ∧ j = i
    · rw [h.mem d hd j, if_pos hdj, pageOf_tableEntry] at he
      exact .inr he.symm
    · rw [h.other hd hdj] at hp he
      exact .inl ⟨d, hd, j, hj, hp, he⟩
  · rintro (⟨d, hd, j, hj, hp, he⟩ | rfl)
    · have hkeep := h.other hd (h.ne_of_present hp)
      rw [← hkeep] at hp he
      exact ⟨d, hd, j, hj, hp, he⟩
    · have hi : i ≠ 1023 := fun he => absurd (he ▸ h.low) (by decide)
      refine ⟨c, h.isDir, i, hi, ?_, ?_⟩
      · rw [h.self]
        exact tableEntry_present pt
      · rw [h.self, pageOf_tableEntry]

theorem layout (h : NewEntry s s' D c i pt) (hl : Layout s D) (hdir : ¬ D (pageOf pt))
    (htab : ¬ IsTable s.toMachine D (pageOf pt)) : Layout s' D := by
  have hhigh : ∀ d, D d → ∀ j : BitVec 10, 768 ≤ j → s'.mem d j = s.mem d j := fun d hd j hj =>
    h.other hd fun he => absurd h.low (BitVec.not_lt.mpr (he.2 ▸ hj))
  refine ⟨?_, ?_, ?_, ?_, hl.root, ?_, ?_, ?_, ?_, ?_⟩
  · rw [h.kernelPool]
    exact hl.kernelOk
  · rw [h.userPool]
    exact hl.userOk
  · rw [h.kernelPool]
    exact hl.low
  · rw [h.kernelPool, h.userPool]
    exact hl.order
  · rw [h.taken_eq]
    exact hl.dirs
  · intro d hd
    rw [hhigh d hd 1023 (by decide)]
    exact hl.self d hd
  · intro d hd j hj hj'
    rw [hhigh d hd j hj]
    exact hl.shared d hd j hj hj'
  · intro d hd j hj hp
    rw [h.kernelPool]
    by_cases hdj : d = c ∧ j = i
    · rw [h.mem d hd j, if_pos hdj, pageOf_tableEntry]
      exact .inr ⟨h.taken, hdir⟩
    · rw [h.other hd hdj] at hp ⊢
      exact hl.tables d hd j hj hp
  · intro d d' hd hd' j j' hj hj' hp hp' hta he
    -- no old entry names the new table
    have hold : ∀ d, D d → ∀ j : BitVec 10, j < 768 → Present (s.mem d j) →
        pageOf (s.mem d j) ≠ pageOf pt := fun d hd j hj hp he =>
      htab ⟨d, hd, j, fun he => absurd (he ▸ hj) (by decide), hp, he⟩
    rw [h.kernelPool] at hta
    rw [h.mem d hd j] at hp hta he
    rw [h.mem d' hd' j'] at hp' he
    by_cases h1 : d = c ∧ j = i
    · by_cases h2 : d' = c ∧ j' = i
      · exact ⟨h1.1.trans h2.1.symm, h1.2.trans h2.2.symm⟩
      · rw [if_neg h2] at hp'
        rw [if_pos h1, if_neg h2, pageOf_tableEntry] at he
        exact absurd he.symm (hold d' hd' j' hj' hp')
    · rw [if_neg h1] at hp hta
      by_cases h2 : d' = c ∧ j' = i
      · rw [if_neg h1, if_pos h2, pageOf_tableEntry] at he
        exact absurd he (hold d hd j hj hp)
      · rw [if_neg h2] at hp'
        rw [if_neg h1, if_neg h2] at he
        exact hl.inj d d' hd hd' j j' hj hj' hp hp' hta he

/-- The pages stay where they are, if the old tables are as before. -/
theorem frameAt_eq (h : NewEntry s s' D c i pt) (hl : Layout s D) (ho : Owned s D g L H)
    (htables : ∀ t, IsTable s.toMachine D t → t ≠ pageOf pt → ¬ D t → s'.mem t = s.mem t)
    (htab : ¬ IsTable s.toMachine D (pageOf pt)) (hk : k ∈ L ++ H) :
    s'.frameAt k = s.frameAt k := by
  obtain ⟨hkD, hkne⟩ := ho.page k hk
  obtain ⟨f, hf, -⟩ := ho.mapped k hk
  obtain ⟨hpde, -⟩ := Memory.present_of_frameAt hf
  refine Memory.frameAt_congr (h.other hkD (h.ne_of_present hpde)) fun _ => ?_
  have hslot := isTable_slotAt hkD hkne hpde
  rw [htables _ hslot (fun he => htab (he ▸ hslot)) (hl.isTable hslot).2]

theorem owned (h : NewEntry s s' D c i pt) (ho : Owned s D g L H)
    (hframe : ∀ k ∈ L ++ H, s'.frameAt k = s.frameAt k)
    (hfree : ∀ k ∈ L ++ H, s.frameAt k ≠ some (pageOf pt)) : Owned s' D g L H := by
  refine ⟨ho.page, fun k hk => ?_, fun k hk k' hk' he => ?_, ho.nodup, fun k hk f hf => ?_,
    fun k hk => ?_⟩
  · obtain ⟨f, hf, hft, hftab⟩ := ho.mapped k hk
    refine ⟨f, (hframe k hk).trans hf, h.taken_eq ▸ hft, ?_⟩
    rw [h.isTable_iff]
    rintro (htab | rfl)
    · exact hftab htab
    · exact hfree k hk hf
  · rw [hframe k hk, hframe k' hk'] at he
    exact ho.inj k hk k' hk' he
  · rw [hframe k (List.mem_append_left _ hk)] at hf
    exact ho.loose k hk f hf
  · rw [hframe k (List.mem_append_right _ hk)]
    exact ho.held k hk

end NewEntry

/-- The frames that a new table does not touch. -/
theorem withTable_mem_ne {s : Machine} {pt : Addr} {t : Frame} (hpt : t ≠ pageOf pt) (hcr : t ≠ s.cr3) :
    (s.withTable v pt).mem t = s.mem t := by
  rw [Machine.withTable, Machine.setFrame_mem_ne _ _ hpt]
  exact s.setFrame_mem_ne _ hcr

/-- The directory gets an entry for the table. -/
theorem Layout.newEntry (h : Layout s D) (hcr : D s.cr3) (hv : dirIdx v ≠ 1023)
    (hp : ¬ Present (s.pde v)) {pt : Addr} (ht : s.kernelPool.Took p' (pageOf pt))
    (hdir : ¬ D (pageOf pt)) :
    NewEntry (s.setPool .kernel p') { s with kernelPool := p', toMachine := s.withTable v pt } D
      s.cr3 (dirIdx v) pt := by
  have hlow : dirIdx v < 768 := by
    by_contra hge
    exact hp (h.shared _ hcr _ (BitVec.not_lt.mp hge) hv).1
  refine ⟨fun d hd j => ?_, rfl, rfl, hcr, hlow, hp, (ht.taken _).mpr (.inr rfl)⟩
  have hne : d ≠ pageOf pt := fun he => hdir (he ▸ hd)
  show (s.withTable v pt).mem d j = if d = s.cr3 ∧ j = dirIdx v then tableEntry pt else s.mem d j
  rw [Machine.withTable, Machine.setFrame_mem_ne _ _ hne]
  split
  · next he =>
    rw [he.1, he.2]
    exact s.setWord_mem_self ..
  · next he => exact s.setWord_mem_ne _ (not_and_or.mp he)

/-- An empty table is installed in a frame that the kernel pool has just given out. -/
theorem Layout.newTable (h : Layout s D) (ho : Owned s D g L H) (hcr : D s.cr3)
    (hv : dirIdx v ≠ 1023) (hp : ¬ Present (s.pde v)) {pt : Addr}
    (ht : s.kernelPool.Took p' (pageOf pt)) :
    Layout { s with kernelPool := p', toMachine := s.withTable v pt } D ∧
      Owned { s with kernelPool := p', toMachine := s.withTable v pt } D g L H ∧
      ∀ f, Spare s D (L ++ H) f →
        Spare { s with kernelPool := p', toMachine := s.withTable v pt } D (L ++ H) f := by
  have htook : (s.pool .kernel).Took p' (pageOf pt) := ht
  have hnot : ¬ s.Taken (pageOf pt) := h.not_taken htook
  -- first the frame is taken from the pool, then the entry is written
  obtain ⟨hl1, ho1, hsp1⟩ := h.took ho htook
  have hentry := h.newEntry hcr hv hp ht hsp1.dir
  generalize hs1 : s.setPool .kernel p' = s1 at hl1 ho1 hsp1 hentry
  generalize hs' : ({ s with kernelPool := p', toMachine := s.withTable v pt } : Memory) = s' at hentry
  have hframe : ∀ k ∈ L ++ H, s'.frameAt k = s1.frameAt k := by
    intro k hk
    refine hentry.frameAt_eq hl1 ho1 (fun t _ hpt hD => ?_) hsp1.table hk
    have hne : t ≠ s.cr3 := fun he => hD (he ▸ hcr)
    rw [← hs', ← hs1]
    exact withTable_mem_ne hpt hne
  refine ⟨hentry.layout hl1 hsp1.dir hsp1.table, hentry.owned ho1 hframe hsp1.unmapped, ?_⟩
  intro f hf
  refine ⟨?_, hf.dir, ?_, fun k hk hkf => ?_⟩
  · rw [hentry.taken_eq, ← hs1]
    exact hf.taken.imp_left fun hk => (ht.taken f).mpr (.inl hk)
  · rw [hentry.isTable_iff]
    rintro (htab | he)
    · rw [← hs1] at htab
      exact hf.table htab
    · exact hnot (he ▸ hf.taken)
  · rw [hframe k hk, ← hs1] at hkf
    exact hf.unmapped k hk hkf

/-- The page table of `v` is there, or the kernel pool has a frame for it. -/
def TableFound (s : Memory) (v : Addr) : Prop :=
  Present (s.pde v) ∨ ∃ pt p', palloc s.kernelPool = .ok (some pt, p')

/-- What an allocation leaves alone: the thread that runs, its directory, the records of all
threads, and the sizes of the bitmaps. -/
structure Steady (s s' : Memory) : Prop where
  cr3 : s'.cr3 = s.cr3
  pcb : s'.pcb = s.pcb
  running : s'.running = s.running
  start : s'.kernelVaddr.vaddrStart = s.kernelVaddr.vaddrStart
  len : s'.kernelVaddr.vaddrBitmap.len = s.kernelVaddr.vaddrBitmap.len
  btmp : ∀ a, (s'.btmp a).len = (s.btmp a).len

theorem Steady.refl (s : Memory) : Steady s s := ⟨rfl, rfl, rfl, rfl, rfl, fun _ => rfl⟩

theorem Steady.trans {s1 s2 s3 : Memory} (h : Steady s1 s2) (h' : Steady s2 s3) : Steady s1 s3 :=
  ⟨h'.cr3.trans h.cr3, h'.pcb.trans h.pcb, h'.running.trans h.running, h'.start.trans h.start,
    h'.len.trans h.len, fun a => (h'.btmp a).trans (h.btmp a)⟩

theorem Steady.setPool (s : Memory) (pf : PoolFlag) (p : Pool) : Steady s (s.setPool pf p) := by
  cases pf <;> exact ⟨rfl, rfl, rfl, rfl, rfl, fun _ => rfl⟩

theorem palloc_took {p p' : Pool} (hp : p.Ok) {a : Addr} (h : palloc p = .ok (some a, p')) :
    offsetOf a = 0 ∧ p.Took p' (pageOf a) := by
  obtain ⟨r, p1, h1, hr⟩ := palloc_ok hp
  cases h1.symm.trans h
  rcases hr with ⟨hr, -⟩ | ⟨b, hr, hoff, htook⟩
  · cases hr
  · cases hr
    exact ⟨hoff, htook⟩

/-- **`page_table_add`** with a spare frame. -/
theorem Owned.pageTableAdd (hl : Layout s D) (ho : Owned s D g L H) (hcr : D s.cr3)
    (hv : dirIdx v ≠ 1023) {page : Addr} (hsp : Spare s D (L ++ H) (pageOf page))
    (htab : TableFound s v) :
    Returns (GwOS.pageTableAdd s v page) fun s' =>
      Layout s' D ∧ Owned s' D g (vpage s.cr3 v :: L) H ∧ Steady s s' := by
  have hself := hl.selfMapped hcr
  by_cases hp : Present (s.pde v)
  · rw [pageTableAdd_table hself hp]
    split
    · exact .error _
    · next hfree =>
      obtain ⟨hl', ho'⟩ := Owned.enter hl ho hcr hv hp hfree hsp
      exact .ok ⟨hl', ho', ⟨rfl, rfl, rfl, rfl, rfl, fun _ => rfl⟩⟩
  · obtain ⟨pt, p', hpt⟩ := htab.resolve_left hp
    obtain ⟨-, ht⟩ := palloc_took hl.kernelOk hpt
    have htook : (s.pool .kernel).Took p' (pageOf pt) := ht
    have hspare := hl.spare (hl.not_taken htook) (hl.contains_ge htook.contains)
    have hne : pageOf pt ≠ s.cr3 := fun he => hspare.1 (he ▸ hcr)
    rw [pageTableAdd_newTable hself hp hpt hne]
    obtain ⟨hl2, ho2, hsp2⟩ := hl.newTable ho hcr hv hp ht
    -- the table that has been installed is empty
    have hpde : (s.withTable v pt).pde v = tableEntry pt := by
      show (s.withTable v pt).mem s.cr3 (dirIdx v) = _
      rw [Machine.withTable, Machine.setFrame_mem_ne _ _ hne.symm, s.setWord_mem_self]
    have htab2 : (s.withTable v pt).tableOf v = pageOf pt := by
      rw [Machine.tableOf, hpde, pageOf_tableEntry]
    have hfree : ¬ Present ((s.withTable v pt).pte v) := by
      rw [Machine.pte, htab2, Machine.withTable, Machine.setFrame_mem_self]
      simp [Present]
    obtain ⟨hl3, ho3⟩ := Owned.enter hl2 ho2 hcr hv (hpde ▸ tableEntry_present pt) hfree (hsp2 _ hsp)
    rw [htab2] at hl3 ho3
    exact .ok ⟨hl3, ho3, ⟨rfl, rfl, rfl, rfl, rfl, fun _ => rfl⟩⟩

/-- `pfree` finds the pool by the address. -/
theorem pfree_covered (hk : s.kernelPool.Ok) (hu : s.userPool.Ok)
    (horder : s.kernelPool.phyAddrStart.toNat + s.kernelPool.poolSize.toNat ≤
      s.userPool.phyAddrStart.toNat) {a : Addr} (hoff : offsetOf a = 0)
    (hcov : (s.pool pf).Covers (pageOf a)) :
    ∃ p', pfree s a = .ok (s.setPool pf p') ∧ (s.pool pf).Gave p' (pageOf a) := by
  have hnat : a.toNat = (pageOf a).toNat * 4096 := by
    have h0 := offsetOf_toNat a
    rw [hoff] at h0
    have hzero : (0 : BitVec 12).toNat = 0 := rfl
    rw [pageOf_toNat]
    omega
  -- the pool that the address is compared with
  obtain ⟨hpf, hok⟩ : (if s.userPool.phyAddrStart ≤ a then PoolFlag.user else .kernel) = pf ∧
      (s.pool pf).Ok := by
    cases pf with
    | kernel =>
      refine ⟨if_neg ?_, hk⟩
      have h2 : (pageOf a).toNat * pgSize <
        s.kernelPool.phyAddrStart.toNat + s.kernelPool.poolSize.toNat := hcov.1.2
      unfold pgSize at h2
      show ¬ s.userPool.phyAddrStart.toNat ≤ a.toNat
      omega
    | user =>
      refine ⟨if_pos ?_, hu⟩
      have h1 : s.userPool.phyAddrStart.toNat ≤ (pageOf a).toNat * pgSize := hcov.1.1
      unfold pgSize at h1
      show s.userPool.phyAddrStart.toNat ≤ a.toNat
      omega
  have hidx : (a - (s.pool pf).phyAddrStart).toNat / pgSize =
      (pageOf a).toNat - (s.pool pf).first := by
    have h1 := hcov.1.1
    have hal := hok.aligned
    have hlt := a.isLt
    unfold Pool.first
    unfold pgSize at *
    rw [BitVec.toNat_sub_of_le (BitVec.le_def.mpr (by omega)), hnat]
    omega
  obtain ⟨mp, hmp, hlen, hbit⟩ := bitmapSetIdx_ok hcov.2 false
  have hrange : (s.pool pf).SameRange { s.pool pf with poolBitmap := mp } := ⟨rfl, rfl, hlen⟩
  refine ⟨{ s.pool pf with poolBitmap := mp }, ?_, hrange, fun g => ?_⟩
  · rw [pfree, hpf]
    simp only [hidx]
    rw [show bitmapSetIdx (s.pool pf).poolBitmap _ 0 = .ok mp from hmp]
    rfl
  · rw [Pool.Taken, Pool.Taken, hrange.contains, hrange.first]
    show _ ∧ mp.bit _ = true ↔ _
    rw [hbit]
    constructor
    · rintro ⟨hg, hb⟩
      split at hb
      · cases hb
      · next hne =>
        refine ⟨⟨hg, hb⟩, ?_⟩
        rintro rfl
        exact hne rfl
    · rintro ⟨⟨hg, hb⟩, hne⟩
      rw [if_neg fun he => hne (hcov.1.idx_inj hok hg he)]
      exact ⟨hg, hb⟩

theorem pfree_gave (hk : s.kernelPool.Ok) (hu : s.userPool.Ok)
    (horder : s.kernelPool.phyAddrStart.toNat + s.kernelPool.poolSize.toNat ≤
      s.userPool.phyAddrStart.toNat) {a : Addr} (hoff : offsetOf a = 0)
    (hc : s.kernelPool.Covers (pageOf a) ∨ s.userPool.Covers (pageOf a)) :
    ∃ pf p', pfree s a = .ok (s.setPool pf p') ∧ (s.pool pf).Gave p' (pageOf a) := by
  rcases hc with hc | hc
  · have hcov : (s.pool .kernel).Covers (pageOf a) := hc
    exact ⟨.kernel, pfree_covered hk hu horder hoff hcov⟩
  · have hcov : (s.pool .user).Covers (pageOf a) := hc
    exact ⟨.user, pfree_covered hk hu horder hoff hcov⟩

/-- `pfree` of a frame that has been given out. -/
theorem Layout.pfree_ok (hl : Layout s D) {a : Addr} (hoff : offsetOf a = 0)
    (ht : s.Taken (pageOf a)) :
    ∃ pf p', pfree s a = .ok (s.setPool pf p') ∧ (s.pool pf).Gave p' (pageOf a) :=
  pfree_gave hl.kernelOk hl.userOk hl.order hoff (ht.imp Pool.Taken.covers Pool.Taken.covers)

/-- A frame that nothing else uses is given back. -/
theorem Layout.gave (h : Layout s D) (ho : Owned s D g L H) (hg : (s.pool pf).Gave p' f)
    (hD : ¬ D f) (htab : ¬ IsTable s.toMachine D f) (hun : ∀ k ∈ L ++ H, s.frameAt k ≠ some f) :
    Layout (s.setPool pf p') D ∧ Owned (s.setPool pf p') D g L H := by
  have hmem : (s.setPool pf p').toMachine = s.toMachine := by cases pf <;> rfl
  have hkeep : ∀ g, g ≠ f → s.Taken g → (s.setPool pf p').Taken g := by
    intro g hne ht
    cases pf with
    | kernel => exact ht.imp_left fun hk => (hg.taken g).mpr ⟨hk, hne⟩
    | user => exact ht.imp_right fun hu => (hg.taken g).mpr ⟨hu, hne⟩
  refine ⟨h.pools (by rw [hmem]) ?_ ?_ ?_ ?_, ho.congr (fun d _ => by rw [hmem]) ?_ ?_⟩
  · cases pf with
    | kernel => exact hg.toSameRange
    | user => exact ⟨rfl, rfl, rfl⟩
  · cases pf with
    | kernel => exact ⟨rfl, rfl, rfl⟩
    | user => exact hg.toSameRange
  · intro d hd
    refine hkeep d ?_
    rintro rfl
    exact hD hd
  · intro g hgt
    cases pf with
    | kernel =>
      refine ⟨fun ht => ((hg.taken g).mp ht).1, fun ht => (hg.taken g).mpr ⟨ht, ?_⟩⟩
      rintro rfl
      exact htab hgt
    | user => exact Iff.rfl
  · intro k _
    rw [Memory.frameAt, hmem]
    rfl
  · intro k hk g hf
    refine hkeep g ?_
    rintro rfl
    exact hun k hk hf

end Steps

end GwOS
