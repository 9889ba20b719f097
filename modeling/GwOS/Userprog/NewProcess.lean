import GwOS.Userprog.Fork

/-!
# A new process

`process_execute` with enough memory, and the first pages of the process when it runs.

- `Tracked`: the bitmap of the running process marks exactly what it has mapped.
- `processExecute_ok`: the new directory has no page of a user, and the bitmap marks none.
- `Started.tracked`, `Tracked.getOnePage`: the process that starts is tracked, and stays so when
  it gets a page.
-/

namespace GwOS

/-- The bitmap of the running process marks exactly its mapped pages below the kernel. -/
def Memory.MarksMapped (s : Memory) : Prop :=
  ∀ v : Addr, v < 0xc0000000 → (s.walk v ≠ none ↔
    ∃ i, (s.vaddrBitmap .user).bit i = true ∧ pageOf v = pageOf (progVaddr (s.vaddrStart .user) i))

/-- Every page of the running process that is mapped is owned. -/
def Memory.Covered (s : Memory) (L : List VPage) : Prop :=
  ∀ v, dirIdx v < 768 → s.walk v ≠ none → vpage s.cr3 v ∈ L

section Space

variable {s : Memory} {threads : List Addr} {D : Frame → Prop} {g : VPage → Frame}
  {L H : List VPage} {v : Addr}

theorem progVaddr_toNat {start : Addr} {i : Nat} (h : start.toNat + i * pgSize < 2 ^ 32) :
    (progVaddr start i).toNat = start.toNat + i * pgSize := by
  rw [progVaddr, BitVec.toNat_add, BitVec.toNat_ofNat]
  omega

/-- The addresses that the bitmap of a process stands for. -/
theorem Memory.UserRange.progVaddr_toNat {t : Addr} (h : s.UserRange t) {i : Nat}
    (hi : i < 8 * (s.btmp (s.pcb t).bits).len) :
    (progVaddr (s.pcb t).vaddrStart i).toNat = (s.pcb t).vaddrStart.toNat + i * pgSize ∧
      (s.pcb t).vaddrStart.toNat + i * pgSize < 0xc0000000 := by
  have hstart := h.start
  have hlen := h.len
  have h1 : userVaddrStart.toNat = 0x8048000 := rfl
  have h2 : userBitmapLen = 94199 := by decide
  have hlt : (s.pcb t).vaddrStart.toNat + i * pgSize < 0xc0000000 := by
    unfold pgSize
    omega
  exact ⟨GwOS.progVaddr_toNat (by omega), hlt⟩

/-- The directory of a process is not that of the kernel. -/
theorem Managed.parentDir (h : Managed s threads D g L H) (hp : (s.pcb s.running).pgDir ≠ none) :
    s.cr3 ≠ kernelDir := by
  obtain ⟨p, hpg⟩ := Option.ne_none_iff_exists'.mp hp
  have hproc := h.records.procs _ h.running p hpg
  obtain ⟨f, hf, ht, -⟩ := h.owned.mapped _ (List.mem_append_right L hproc.dir)
  cases hf.symm.trans (h.owned.held _ hproc.dir)
  have hge := h.layout.taken_ge ht
  rw [h.records.current, Memory.dirFrame, hpg]
  intro he
  dsimp only at he
  rw [he] at hge
  exact absurd hge (by decide)

theorem dirIdx_lt_of_low (h : v < 0xc0000000) : dirIdx v < 768 := by
  have h' : v.toNat < (0xc0000000 : Addr).toNat := h
  have h0 : (0xc0000000 : Addr).toNat = 0xc0000000 := rfl
  show (dirIdx v).toNat < 768
  rw [dirIdx_toNat]
  omega

theorem lt_of_dirIdx_lt (h : dirIdx v < 768) : v < 0xc0000000 := by
  have h' : (dirIdx v).toNat < 768 := h
  have h0 : (0xc0000000 : Addr).toNat = 0xc0000000 := rfl
  rw [dirIdx_toNat] at h'
  show v.toNat < (0xc0000000 : Addr).toNat
  omega

/-- A page of a process is none of the kernel. -/
theorem vpage_ne_kernel {d : Frame} (hd : d ≠ kernelDir) (hv : v < 0xc0000000) {k : VPage}
    (hk : k.1 = kernelDir) : vpage d v ≠ k := by
  rintro rfl
  rw [vpage_low d (dirIdx_lt_of_low hv)] at hk
  exact hd hk

theorem fst_vpage_kernel (w : Addr) : (vpage kernelDir w).1 = kernelDir := by
  rw [vpage]
  split <;> rfl

theorem fst_of_mem_vpages {k : VPage} {cnt : Nat} {w : Addr} (hk : k ∈ vpages kernelDir cnt w) :
    k.1 = kernelDir := by
  obtain ⟨i, -, rfl⟩ := mem_vpages hk
  exact fst_vpage_kernel _

end Space

/-- A process runs, and its bitmap marks what it has mapped. -/
structure Tracked (s : Memory) (threads : List Addr) (D : Frame → Prop) (g : VPage → Frame)
    (L H : List VPage) : Prop where
  managed : Managed s threads D g L H
  clear : s.Clear
  covered : s.Covered L
  process : (s.pcb s.running).pgDir ≠ none
  marks : s.MarksMapped

/-! ## `process_execute` -/

section Start

variable {s s' : Memory} {threads : List Addr} {D : Frame → Prop} {g : VPage → Frame}
  {K L H : List VPage} {thread bits p v : Addr} {f : Frame} {name : String}

/-- What is left of a free run after the first pages that were free have been taken. -/
theorem Bitmap.FreeAt.rest {mp mp' : Bitmap} {i j cnt rest : Nat} (hfree : mp.FreeAt j (cnt + rest))
    (hset : mp.SetRange mp' true i cnt) (hfirst : ∀ j < i, ¬ mp.FreeAt j cnt) :
    mp'.FreeAt (j + cnt) rest := by
  have hle : i ≤ j := by
    by_contra hgt
    exact hfirst j (by omega) fun k hk => hfree k (by omega)
  intro k hk
  rw [hset.2, if_neg (by omega), Nat.add_assoc]
  exact hfree (cnt + k) (by omega)

/-- Pages of the kernel are put aside. -/
theorem Managed.hold (h : Managed s threads D g (K ++ L) H) :
    ∃ g', (∀ k ∈ H, g' k = g k) ∧ Managed s threads D g' L (K ++ H) := by
  obtain ⟨g', hsame, ho⟩ := h.owned.hold
  refine ⟨g', hsame, h.layout, ho, ?_⟩
  exact h.records.grow (fun k hk => List.mem_append_right K hk) hsame fun _ hd => hd

/-- A page that has just been added is no record of a thread yet. -/
theorem Managed.newThread (h : Managed s threads D g L H) {idx : Nat}
    (hgot : KernelGot s s' D g L H 1 idx thread) : thread ∉ threads := by
  intro ht
  have hhead : vpage kernelDir thread ∈ vpages kernelDir 1 thread := List.mem_cons_self ..
  rcases h.records.pcbs thread ht with hlt | hheld
  · exact absurd hgot.low (Nat.not_le.mpr hlt)
  · have hnd := hgot.added.owned.nodup
    exact (List.nodup_append'.mp hnd).2.2 (List.mem_append_left _ hhead) hheld

/-- What `create_user_vaddr_bitmap` has done. -/
structure BitmapCreated (s s' : Memory) (threads : List Addr) (D : Frame → Prop) (L H : List VPage)
    (thread bits : Addr) : Prop where
  managed : ∃ g, Managed s' threads D g L (vpages kernelDir userBitmapPages bits ++ H)
  record : s'.pcb thread = { s.pcb thread with bits, vaddrStart := userVaddrStart }
  btmp : s'.btmp bits = bitmapInit userBitmapLen
  clear : s'.Clear
  userPool : s'.userPool = s.userPool
  kernelPool : s.kernelPool.spare.card ≤ s'.kernelPool.spare.card + userBitmapPages
  marked : ∃ idx, s.kernelVaddr.vaddrBitmap.SetRange s'.kernelVaddr.vaddrBitmap true idx userBitmapPages ∧
    ∀ j < idx, ¬ s.kernelVaddr.vaddrBitmap.FreeAt j userBitmapPages

/-- **`create_user_vaddr_bitmap`** with enough memory. -/
theorem Managed.createUserVaddrBitmap (h : Managed s threads D g L H) (hnew : thread ∉ threads)
    (hc : s.Clear) {j : Nat} (hj : j < s.kernelVaddr.vaddrBitmap.len - userBitmapPages)
    (hfree : s.kernelVaddr.vaddrBitmap.FreeAt j userBitmapPages)
    (hsupply : userBitmapPages ≤ s.kernelPool.spare.card) :
    ∃ s' bits, GwOS.createUserVaddrBitmap s thread = .ok s' ∧
      BitmapCreated s s' threads D L H thread bits := by
  obtain ⟨bits, s1, idx, hget, hgot, huser, hcard⟩ := h.kernelPages hc (by decide) (by decide) hj hfree
    hsupply
  obtain ⟨g', -, hm⟩ := (h.added hgot.added).hold
  have hrec := hm.record hnew { s1.pcb thread with bits, vaddrStart := userVaddrStart }
    (Function.update s1.btmp bits (bitmapInit userBitmapLen)) fun a ha => by
      by_cases he : a = bits
      · rw [he, Function.update_self, Bitmap.len_init]
      · rw [Function.update_of_ne he]
        exact ha
  refine ⟨_, bits, ?_, ⟨g', hrec⟩, ?_, Function.update_self .., hgot.clear hc, huser, hcard, idx,
    hgot.marked, hgot.first⟩
  · rw [GwOS.createUserVaddrBitmap, hget]
    rfl
  · show Function.update s1.pcb thread _ thread = _
    rw [Function.update_self, hgot.pcb]

/-- What `process_execute` has done: the record `thread`, the bitmap at `bits` and the directory
`f` at `p`. -/
structure Started (s s' : Memory) (threads : List Addr) (D : Frame → Prop) (L H : List VPage)
    (thread bits p : Addr) (f : Frame) (name : String) : Prop where
  managed : ∃ g, g (vpage kernelDir p) = f ∧
    Managed s' (thread :: threads) (fun d => D d ∨ d = f) g L
      (vpage kernelDir p :: (vpages kernelDir userBitmapPages bits ++ (vpages kernelDir 1 thread ++ H)))
  record : s'.pcb thread = { pgDir := some p, bits, vaddrStart := userVaddrStart, name }
  btmp : s'.btmp bits = bitmapInit userBitmapLen
  isNew : ¬ D f
  empty : ∀ i : BitVec 10, i < 768 → s'.mem f i = 0
  clear : s'.Clear
  userPool : s'.userPool = s.userPool
  kernelPool : s.kernelPool.spare.card ≤ s'.kernelPool.spare.card + 25
  len : s'.kernelVaddr.vaddrBitmap.len = s.kernelVaddr.vaddrBitmap.len
  rest : ∀ j cnt, s.kernelVaddr.vaddrBitmap.FreeAt j (25 + cnt) →
    s'.kernelVaddr.vaddrBitmap.FreeAt (j + 25) cnt

/-- **`process_execute`** with enough memory. -/
theorem Managed.processExecute (h : Managed s threads D g L H) (hc : s.Clear) {j : Nat}
    (hj : j + 25 < s.kernelVaddr.vaddrBitmap.len) (hfree : s.kernelVaddr.vaddrBitmap.FreeAt j 25)
    (hsupply : 25 ≤ s.kernelPool.spare.card) (name : String) :
    ∃ thread s' bits p f, GwOS.processExecute s name = .ok (thread, s') ∧
      Started s s' threads D L H thread bits p f name := by
  have hpages : userBitmapPages = 23 := by decide
  -- the record
  have hrun1 : s.kernelVaddr.vaddrBitmap.FreeAt j 1 := fun k hk => hfree k (by omega)
  obtain ⟨thread, s1, i1, hget1, hgot1, huser1, hcard1⟩ := h.kernelPages hc (Nat.le_refl 1)
    (by decide) (by omega) hrun1 (by omega)
  have hnew := h.newThread hgot1
  obtain ⟨g1, -, hm1⟩ := (h.added hgot1.added).hold
  have hlen1 := hgot1.added.steady.len
  -- the bitmap
  have hrun24 : s1.kernelVaddr.vaddrBitmap.FreeAt (j + 1) (23 + 1) := hfree.rest hgot1.marked hgot1.first
  have hrun2 : s1.kernelVaddr.vaddrBitmap.FreeAt (j + 1) userBitmapPages := fun k hk =>
    hrun24 k (by omega)
  obtain ⟨s2, bits, hbits, hmade⟩ := hm1.createUserVaddrBitmap hnew (hgot1.clear hc) (by omega) hrun2
    (by omega)
  obtain ⟨i2, hmark2, hfirst2⟩ := hmade.marked
  obtain ⟨g2, hm2⟩ := hmade.managed
  have hlen2 : s2.kernelVaddr.vaddrBitmap.len = s1.kernelVaddr.vaddrBitmap.len := hmark2.1
  have hcard2 := hmade.kernelPool
  rw [hpages] at hmark2 hfirst2
  -- the directory
  have hrun3 := hrun24.rest hmark2 hfirst2
  obtain ⟨p, s3, f, hdir, hnewDir⟩ := hm2.createPageDir hmade.clear (by omega) hrun3 (by omega)
  have hcard3 := hnewDir.kernelPool
  obtain ⟨i3, hmark3, hfirst3⟩ := hnewDir.bits
  have hlen3 : s3.kernelVaddr.vaddrBitmap.len = s2.kernelVaddr.vaddrBitmap.len := hmark3.1
  have hrec3 : s3.pcb thread = { s.pcb thread with bits, vaddrStart := userVaddrStart } := by
    rw [hnewDir.pcb, hmade.record, hgot1.pcb]
  have hbtmp3 : s3.btmp bits = bitmapInit userBitmapLen := by
    rw [hnewDir.btmp, hmade.btmp]
  have hm3 := hnewDir.managed.record hnew { s3.pcb thread with pgDir := some p, name } s3.btmp
    fun _ ha => ha
  have hself : Function.update s3.pcb thread { s3.pcb thread with pgDir := some p, name } thread =
      { pgDir := some p, bits, vaddrStart := userVaddrStart, name } := by
    rw [Function.update_self, hrec3]
  have hrange : Memory.UserRange { s3 with
      pcb := Function.update s3.pcb thread { s3.pcb thread with pgDir := some p, name } } thread := by
    refine ⟨?_, ?_, ?_⟩
    · show (Function.update s3.pcb thread _ thread).vaddrStart.toNat ≤ _
      rw [hself]
    · show (Function.update s3.pcb thread _ thread).vaddrStart.toNat % pgSize = 0
      rw [hself]
      show userVaddrStart.toNat % pgSize = 0
      decide
    · show (s3.btmp (Function.update s3.pcb thread _ thread).bits).len ≤ _
      rw [hself]
      dsimp only
      rw [hbtmp3, Bitmap.len_init]
  have hadd := hm3.records.add hrange ?_ fun q hq => ?_
  · refine ⟨thread, _, bits, p, f, ?_, ⟨_, Function.update_self .., hm3.layout, hm3.owned, hadd⟩, hself,
      hbtmp3, hnewDir.isNew, hnewDir.empty, hnewDir.clear, ?_, ?_, ?_, fun j cnt hrun => ?_⟩
    · unfold GwOS.processExecute
      refine bind_eq_ok.mpr ⟨_, hget1, bind_eq_ok.mpr ⟨_, hbits, bind_eq_ok.mpr ⟨_, hdir, rfl⟩⟩⟩
    · exact hnewDir.userPool.trans (hmade.userPool.trans huser1)
    · show s.kernelPool.spare.card ≤ s3.kernelPool.spare.card + 25
      omega
    · show s3.kernelVaddr.vaddrBitmap.len = s.kernelVaddr.vaddrBitmap.len
      omega
    · have hrun' : s.kernelVaddr.vaddrBitmap.FreeAt j (1 + (23 + (1 + cnt))) := fun k hk =>
        hrun k (by omega)
      exact ((hrun'.rest hgot1.marked hgot1.first).rest hmark2 hfirst2).rest hmark3 hfirst3
  · exact List.mem_cons_of_mem _ (List.mem_append_right _ (List.mem_cons_self ..))
  · have hq' : (Function.update s3.pcb thread _ thread).pgDir = some q := hq
    rw [hself] at hq'
    cases hq'
    refine ⟨hnewDir.high, hnewDir.low, List.mem_cons_self .., ?_, fun k hk => ?_⟩
    · rw [Function.update_self]
      exact .inr rfl
    · have hk' : k ∈ vpages kernelDir userBitmapPages (Function.update s3.pcb thread _ thread).bits := hk
      rw [hself] at hk'
      exact List.mem_cons_of_mem _ (List.mem_append_left _ hk')

/-! ## The switch to the process -/

/-- The scheduler switches to another thread. -/
def Memory.switchTo (s : Memory) (thread : Addr) : Except Fault Memory := do
  let s ← pageDirActivate s thread
  .ok { s with running := thread }

/-- A thread is switched to. -/
theorem Managed.switch (h : Managed s threads D g L H) (ht : thread ∈ threads) :
    s.switchTo thread = .ok { s with cr3 := s.dirFrame g thread, running := thread } ∧
      Managed { s with cr3 := s.dirFrame g thread, running := thread } threads D g L H := by
  have hd := Records.pageDirActivate_ok h.layout h.owned.held h.active (t := thread) fun p hp =>
    have hproc := h.records.procs thread ht p hp
    ⟨hproc.high, hproc.low, hproc.dir⟩
  refine ⟨?_, h.layout.congr (fun _ _ => rfl) rfl rfl, h.owned.congr (fun _ _ => rfl)
    (fun _ _ => rfl) (fun _ _ _ _ h => h), ht, rfl, h.records.high, h.records.aligned,
    h.records.kernel, fun t ht => (h.records.user t ht).congr rfl rfl, h.records.pcbs, fun t ht p hp => ?_⟩
  · rw [Memory.switchTo, hd]
    rfl
  · obtain ⟨hhigh, hlow, hdir, hframe, hbits⟩ := h.records.procs t ht p hp
    exact ⟨hhigh, hlow, hdir, hframe, hbits⟩

/-- No page is reached through an entry that is zero. -/
theorem Machine.walk_empty {m : Machine} (h : m.mem m.cr3 (dirIdx v) = 0) : m.walk v = none := by
  rw [Machine.walk, if_neg]
  rintro ⟨hp, -⟩
  rw [Machine.pde, h] at hp
  exact absurd hp (by decide)

/-- **The process that starts has no pages**, and its bitmap marks none. -/
theorem Started.tracked (h : Started s s' threads D L H thread bits p f name) : ∃ g,
    s'.switchTo thread = .ok { s' with cr3 := f, running := thread } ∧
      Tracked { s' with cr3 := f, running := thread } (thread :: threads) (fun d => D d ∨ d = f) g L
        (vpage kernelDir p ::
          (vpages kernelDir userBitmapPages bits ++ (vpages kernelDir 1 thread ++ H))) := by
  obtain ⟨g, hg, hm⟩ := h.managed
  obtain ⟨hact, hm'⟩ := hm.switch (List.mem_cons_self ..)
  have hdir : s'.dirFrame g thread = f := by
    rw [Memory.dirFrame, h.record]
    exact hg
  rw [hdir] at hact hm'
  have hnone : ∀ v, dirIdx v < 768 → Machine.walk { s'.toMachine with cr3 := f } v = none := fun v hv =>
    Machine.walk_empty (h.empty _ hv)
  refine ⟨g, hact, hm', h.clear, fun v hv hw => absurd (hnone v hv) hw, ?_, fun v hv => ?_⟩
  · show (s'.pcb thread).pgDir ≠ none
    rw [h.record]
    exact Option.some_ne_none p
  · refine ⟨fun hw => absurd (hnone v (dirIdx_lt_of_low hv)) hw, ?_⟩
    rintro ⟨i, hi, -⟩
    have hbit : (s'.btmp (s'.pcb thread).bits).bit i = true := hi
    rw [h.record] at hbit
    dsimp only at hbit
    rw [h.btmp, Bitmap.bit_init] at hbit
    cases hbit

/-! ## A page of the process -/

/-- The page of an address is that of the bit for it. -/
theorem pageOf_progVaddr {start : Addr} (hal : start.toNat % pgSize = 0) (hle : start ≤ v) :
    pageOf (progVaddr start (pageIdx v start)) = pageOf v := by
  have hle' : start.toNat ≤ v.toNat := hle
  have hidx : pageIdx v start = (v.toNat - start.toNat) / pgSize := by
    rw [pageIdx, BitVec.toNat_sub_of_le hle]
  have hlt := v.isLt
  apply BitVec.eq_of_toNat_eq
  rw [pageOf_toNat, pageOf_toNat, progVaddr_toNat, hidx]
  · unfold pgSize at *
    omega
  · rw [hidx]
    unfold pgSize at *
    omega

/-- What `get_one_page` has done when it has given the page of `v` to the running process. -/
structure PageGiven (s s' : Memory) (v : Addr) : Prop where
  pcb : s'.pcb = s.pcb
  running : s'.running = s.running
  cr3 : s'.cr3 = s.cr3
  kernelVaddr : s'.kernelVaddr = s.kernelVaddr
  len : (s'.vaddrBitmap .user).len = (s.vaddrBitmap .user).len
  bit : ∀ i, (s'.vaddrBitmap .user).bit i =
    if i = pageIdx v (s.vaddrStart .user) then true else (s.vaddrBitmap .user).bit i
  userPool : s.userPool.spare.card ≤ s'.userPool.spare.card + 1
  kernelPool : s.kernelPool.spare.card ≤ s'.kernelPool.spare.card + 1
  walk : ∀ w : Addr, w < 0xc0000000 → (s'.walk w ≠ none ↔ s.walk w ≠ none ∨ pageOf w = pageOf v)

/-- **`get_one_page`** for the running process, with enough memory. -/
theorem Tracked.getOnePage (h : Tracked s threads D g L H) (hle : s.vaddrStart .user ≤ v)
    (hv : v < 0xc0000000) (hidx : pageIdx v (s.vaddrStart .user) < 8 * (s.vaddrBitmap .user).len)
    (hnone : s.walk v = none) (huser : 0 < s.userPool.spare.card)
    (hkernel : ¬ Present (s.pde v) → 0 < s.kernelPool.spare.card) :
    ∃ s', GwOS.getOnePage s .user v = .ok (some v, s') ∧
      Tracked s' threads D g (vpage s.cr3 v :: L) H ∧ PageGiven s s' v := by
  have hlow := dirIdx_lt_of_low hv
  have hwin := dirIdx_ne_of_low hlow
  have hdir := h.managed.parentDir h.process
  obtain ⟨p, hp⟩ := Option.ne_none_iff_exists'.mp h.process
  -- the bit
  obtain ⟨mp, hset, hlen, hbit⟩ := bitmapSetIdx_ok hidx true
  have hmark : markPage s .user v = .ok (s.setVaddrBitmap .user mp) := by
    rw [markPage, show bitmapSetIdx _ _ 1 = _ from hset]
    rfl
  have hb := onlyBitmaps_set s .user hlen
  have hmp : (s.setVaddrBitmap .user mp).vaddrBitmap .user = mp := Function.update_self ..
  have hva : (s.setVaddrBitmap .user mp).kernelVaddr = s.kernelVaddr := rfl
  generalize s.setVaddrBitmap .user mp = s1 at hmark hb hmp hva
  have hadd1 := hb.added h.managed.layout h.managed.owned
  have hm1 := h.managed.added hadd1
  -- the page
  have hcr1 : s1.cr3 = s.cr3 := hb.cr3
  have hnone1 : s1.frameAt (vpage s1.cr3 v) = none := by
    rw [← hm1.layout.walk_eq hm1.active hwin, hb.machine]
    exact hnone
  obtain ⟨s', hcall, hadd2, hsame, hu, hhere, hnew⟩ := getOnePageNoBitmap_ok hm1.layout hm1.owned
    hm1.active hlow (hcr1 ▸ hdir) hnone1 (hb.userPool ▸ huser) fun hp => by
      rw [hb.kernelPool]
      exact hkernel fun hp' => hp (hb.machine ▸ hp')
  have hadd := hadd1.trans hadd2
  rw [hcr1, List.append_nil] at hadd
  have hm := h.managed.added hadd
  have hcr : s'.cr3 = s.cr3 := hadd.steady.cr3
  have hkvaddr : s'.kernelVaddr = s.kernelVaddr := hsame.kernelVaddr.trans hva
  have hpcb : s'.pcb = s.pcb := hadd.steady.pcb
  have hrunning : s'.running = s.running := hadd.steady.running
  have hbits : s'.vaddrBitmap .user = mp := by
    rw [← hmp]
    show s'.btmp (s'.pcb s'.running).bits = s1.btmp (s1.pcb s1.running).bits
    rw [hsame.btmp, hsame.pcb, hsame.running]
  have hstart : s'.vaddrStart .user = s.vaddrStart .user := by
    show (s'.pcb s'.running).vaddrStart = (s.pcb s.running).vaddrStart
    rw [hpcb, hrunning]
  have hwalk : ∀ w : Addr, dirIdx w < 768 → pageOf w ≠ pageOf v → s'.walk w = s.walk w := by
    intro w hw hne
    have hwin' := dirIdx_ne_of_low hw
    rw [hm.layout.walk_eq hm.active hwin', hcr, h.managed.layout.walk_eq h.managed.active hwin']
    refine hadd.grew.proper _ (h.managed.layout.proper_vpage h.managed.active hwin' fun _ => hdir) ?_
    rw [List.mem_singleton, vpage_low _ hw, vpage_low _ hlow]
    exact fun he => hne (congrArg Prod.snd he)
  have hself : ∀ w : Addr, dirIdx w < 768 → pageOf w = pageOf v → s'.walk w ≠ none := by
    intro w hw he
    obtain ⟨f, hf, -⟩ := hm.owned.mapped (vpage s.cr3 v) (List.mem_cons_self ..)
    rw [hm.layout.walk_eq hm.active (dirIdx_ne_of_low hw), hcr, vpage_low _ hw, he, ← vpage_low _ hlow, hf]
    exact Option.some_ne_none f
  have hiff : ∀ w : Addr, w < 0xc0000000 → (s'.walk w ≠ none ↔ s.walk w ≠ none ∨ pageOf w = pageOf v) := by
    intro w hw
    by_cases he : pageOf w = pageOf v
    · exact ⟨fun _ => .inr he, fun _ => hself w (dirIdx_lt_of_low hw) he⟩
    · rw [hwalk w (dirIdx_lt_of_low hw) he]
      exact ⟨.inl, fun h => h.resolve_right he⟩
  have hpage : pageOf (progVaddr (s.vaddrStart .user) (pageIdx v (s.vaddrStart .user))) = pageOf v :=
    pageOf_progVaddr (h.managed.records.user _ h.managed.running).aligned hle
  refine ⟨s', ?_, ⟨hm, ?_, fun w hw hmap => ?_, ?_, fun w hw => ?_⟩, hpcb, hrunning, hcr, hkvaddr, ?_, ?_, ?_,
    ?_, hiff⟩
  · unfold GwOS.getOnePage
    rw [hp]
    show (if s.vaddrStart .user ≤ v then markPage s .user v >>= fun s => getOnePageNoBitmap s .user v
      else .error .assert) = _
    rw [if_pos hle]
    exact bind_eq_ok.mpr ⟨s1, hmark, hcall⟩
  · -- the new page is none of the kernel
    refine h.clear.added h.managed.layout h.managed.vaddrsOk hadd (by rw [hkvaddr]) fun i _ hi => ?_
    rw [hkvaddr] at hi
    refine ⟨hi, fun hmem => ?_⟩
    exact vpage_ne_kernel hdir hv (fst_vpage_kernel _) (List.mem_singleton.mp hmem).symm
  · rw [hcr]
    by_cases he : pageOf w = pageOf v
    · rw [vpage_low _ hw, he, ← vpage_low _ hlow]
      exact List.mem_cons_self ..
    · exact List.mem_cons_of_mem _ (h.covered w hw (hwalk w hw he ▸ hmap))
  · rw [hpcb, hrunning]
    exact h.process
  · rw [hiff w hw, h.marks w hw, hbits, hstart]
    constructor
    · rintro (⟨i, hi, hpi⟩ | he)
      · refine ⟨i, ?_, hpi⟩
        rw [hbit, hi, ite_self]
      · refine ⟨_, ?_, he.trans hpage.symm⟩
        rw [hbit, if_pos rfl]
    · rintro ⟨i, hi, hpi⟩
      rw [hbit] at hi
      split at hi
      · next he =>
        rw [he] at hpi
        exact .inr (hpi.trans hpage)
      · exact .inl ⟨i, hi, hpi⟩
  · rw [hbits, hlen]
  · rw [hbits]
    exact hbit
  · exact hb.userPool ▸ hu
  · rw [← hb.kernelPool]
    by_cases hpr : Present (s1.pde v)
    · rw [(hhere hpr).1]
      exact Nat.le_succ _
    · exact (hnew hpr).1

/-- The kernel has taken pages of its own. -/
theorem Tracked.grow {N : List VPage} (h : Tracked s threads D g L H) (hadd : PagesAdded s s' D g L H N)
    (hN : ∀ k ∈ N, k.1 = kernelDir) (hbtmp : s'.btmp = s.btmp) (hclear : s'.Clear) :
    Tracked s' threads D g (N ++ L) H ∧ ∀ v : Addr, v < 0xc0000000 → s'.walk v = s.walk v := by
  have hst := hadd.steady
  have hm := h.managed.added hadd
  have hdir := h.managed.parentDir h.process
  have hwalk : ∀ w : Addr, w < 0xc0000000 → s'.walk w = s.walk w := by
    intro w hw
    have hwin := dirIdx_ne_of_low (dirIdx_lt_of_low hw)
    rw [hm.layout.walk_eq hm.active hwin, hst.cr3, h.managed.layout.walk_eq h.managed.active hwin]
    refine hadd.grew.proper _ (h.managed.layout.proper_vpage h.managed.active hwin fun _ => hdir) ?_
    exact fun hk => vpage_ne_kernel hdir hw (hN _ hk) rfl
  refine ⟨⟨hm, hclear, fun w hw hmap => ?_, ?_, fun w hw => ?_⟩, hwalk⟩
  · have hlow : w < 0xc0000000 := lt_of_dirIdx_lt hw
    rw [hwalk w hlow] at hmap
    rw [hst.cr3]
    exact List.mem_append_right _ (h.covered w hw hmap)
  · rw [hst.pcb, hst.running]
    exact h.process
  · rw [hwalk w hw, h.marks w hw]
    show (∃ i, (s.btmp (s.pcb s.running).bits).bit i = true ∧ _) ↔
      ∃ i, (s'.btmp (s'.pcb s'.running).bits).bit i = true ∧
        pageOf w = pageOf (progVaddr (s'.pcb s'.running).vaddrStart i)
    rw [hbtmp, hst.pcb, hst.running]
    rfl

end Start

/-! ## Boot -/

/-- A new bitmap has every index to give out. -/
theorem Pool.card_spare_init (len : Nat) (a size : Addr) :
    (Pool.mk (bitmapInit len) a size).spare.card = len - 1 := by
  have hall : (Pool.mk (bitmapInit len) a size).spare = Finset.range ((bitmapInit len).len - 1) :=
    Finset.filter_true_of_mem fun i _ => Bitmap.bit_init len i
  rw [hall, Finset.card_range, Bitmap.len_init]

/-- At boot, the kernel has mapped the first megabyte and no page of its heap. -/
theorem boot_clear : bootMemory.Clear := by
  intro idx hidx _
  have hlen : 8 * bootMemory.kernelVaddr.vaddrBitmap.len = 3840 := by
    rw [PageState.boot_pools.2.2, Bitmap.len_init]
  have hstart : bootMemory.kernelVaddr.vaddrStart = 0xc0100000 := rfl
  rw [hlen] at hidx
  rw [Memory.kernelPage, hstart]
  have hnat : ((0xc0100000 : Addr) + BitVec.ofNat 32 (idx * pgSize)).toNat = 0xc0100000 + idx * pgSize := by
    rw [nextPage_toNat]
    · rfl
    · show 0xc0100000 + idx * pgSize < 2 ^ 32
      unfold pgSize
      omega
  generalize (0xc0100000 : Addr) + BitVec.ofNat 32 (idx * pgSize) = v at hnat
  unfold pgSize at hnat
  have hdir := dirIdx_toNat v
  have hhigh : (768 : BitVec 10) ≤ dirIdx v := by
    show 768 ≤ (dirIdx v).toNat
    omega
  have hwin : dirIdx v ≠ 1023 := by
    intro he
    have hval : (dirIdx v).toNat = 1023 := congrArg BitVec.toNat he
    omega
  have hlayout := PageState.boot_layout
  rw [hlayout.frameAt_vpage rfl hwin, Machine.walk, if_neg]
  rintro ⟨-, hp⟩
  have htable := (hlayout.shared kernelDir rfl _ hhigh hwin).2
  have htnat := kernelTable_toNat hhigh
  -- an entry of a table of the kernel
  have hpte : (bootMemory.under kernelDir).pte v =
      setupPage (kernelTable (dirIdx v)) (tabIdx v) := by
    rw [← htable]
    rfl
  rw [hpte, setupPage, if_neg, if_neg] at hp
  · exact absurd hp (by decide)
  · rintro ⟨he, hlt⟩
    have htab : (kernelTable (dirIdx v)).toNat = 0x101 := congrArg BitVec.toNat he
    have hlt' : (tabIdx v).toNat < 256 := hlt
    rw [tabIdx, BitVec.extractLsb'_toNat, Nat.shiftRight_eq_div_pow] at hlt'
    omega
  · intro he
    have htab : (kernelTable (dirIdx v)).toNat = 0x100 := congrArg BitVec.toNat he
    omega

/-- `init` has been made at boot, and has got its stack when it runs for the first time. -/
def Memory.InitStarted (s : Memory) : Prop := ∃ thread s1 s2,
  processExecute bootMemory "init" = .ok (thread, s1) ∧ s1.switchTo thread = .ok s2 ∧
    getOnePage s2 .user 0xbffff000 = .ok (some 0xbffff000, s)

/-- What `init` has then, and what is left. -/
structure InitTracked (s : Memory) (threads : List Addr) (D : Frame → Prop) (g : VPage → Frame)
    (L H : List VPage) : Prop extends Tracked s threads D g L H where
  stack : s.walk 0xbffff000 ≠ none
  name : (s.pcb s.running).name = "init"
  bits : (s.vaddrBitmap .user).len = userBitmapLen
  marked : (markedFrom (s.vaddrBitmap .user) 0).card ≤ 1
  len : s.kernelVaddr.vaddrBitmap.len = 480
  rest : ∀ cnt, s.kernelVaddr.vaddrBitmap.FreeAt 25 cnt
  kernelPool : 453 ≤ s.kernelPool.spare.card
  userPool : 478 ≤ s.userPool.spare.card

theorem init_tracked : ∃ s, s.InitStarted ∧ ∃ threads D g L H, InitTracked s threads D g L H := by
  obtain ⟨D, g, hboot⟩ := PageState.boot_valid
  obtain ⟨hkpool, hupool, hvaddr⟩ := PageState.boot_pools
  have hm : Managed bootMemory [bootMemory.running] D g [] [] :=
    ⟨hboot.layout, hboot.owned, hboot.records⟩
  have hkcard : bootMemory.kernelPool.spare.card = 479 := by rw [hkpool, Pool.card_spare_init]
  have hucard : bootMemory.userPool.spare.card = 479 := by rw [hupool, Pool.card_spare_init]
  have hlen : bootMemory.kernelVaddr.vaddrBitmap.len = 480 := by rw [hvaddr, Bitmap.len_init]
  have hfree : ∀ cnt, bootMemory.kernelVaddr.vaddrBitmap.FreeAt 0 cnt := fun cnt k _ => by
    rw [hvaddr, Bitmap.bit_init]
  -- the process
  obtain ⟨thread, s1, bits1, p1, f, hexec, hs1⟩ := hm.processExecute boot_clear (by omega) (hfree 25)
    (by omega) "init"
  have hk1 := hs1.kernelPool
  have hlen1 := hs1.len
  obtain ⟨g2, hswitch, ht2⟩ := hs1.tracked
  have hrec2 := hs1.record
  have hu2 : s1.userPool.spare.card = 479 := by rw [hs1.userPool, hucard]
  have hstart2 : ({ s1 with cr3 := f, running := thread } : Memory).vaddrStart .user = userVaddrStart := by
    show (s1.pcb thread).vaddrStart = _
    rw [hrec2]
  have hbits2 : ({ s1 with cr3 := f, running := thread } : Memory).vaddrBitmap .user =
      bitmapInit userBitmapLen := by
    show s1.btmp (s1.pcb thread).bits = _
    rw [hrec2, hs1.btmp]
  have hname2 : (({ s1 with cr3 := f, running := thread } : Memory).pcb thread).name = "init" := by
    show (s1.pcb thread).name = _
    rw [hrec2]
  generalize hs2 : ({ s1 with cr3 := f, running := thread } : Memory) = s2
    at hswitch ht2 hstart2 hbits2 hname2
  have hkpool2 : s2.kernelPool = s1.kernelPool := by rw [← hs2]
  have hupool2 : s2.userPool = s1.userPool := by rw [← hs2]
  have hkvaddr2 : s2.kernelVaddr = s1.kernelVaddr := by rw [← hs2]
  have hrunning2 : s2.running = thread := by rw [← hs2]
  -- its stack
  have hnone2 : s2.walk 0xbffff000 = none := by
    by_contra hw
    obtain ⟨i, hi, -⟩ := (ht2.marks 0xbffff000 (by decide)).mp hw
    rw [hbits2, Bitmap.bit_init] at hi
    cases hi
  have hidx : pageIdx 0xbffff000 (s2.vaddrStart .user) < 8 * (s2.vaddrBitmap .user).len := by
    rw [hstart2, hbits2, Bitmap.len_init]
    decide
  obtain ⟨s3, hpage, ht3, hgiven⟩ := ht2.getOnePage (hstart2 ▸ by decide) (by decide) hidx hnone2
    (by rw [hupool2]; omega) fun _ => by rw [hkpool2]; omega
  have hk3 := hgiven.kernelPool
  have hu3 := hgiven.userPool
  rw [hkpool2] at hk3
  rw [hupool2, hu2] at hu3
  have hkvaddr3 : s3.kernelVaddr = s1.kernelVaddr := hgiven.kernelVaddr.trans hkvaddr2
  refine ⟨s3, ⟨thread, s1, s2, hexec, hswitch, hpage⟩, _, _, _, _, _, ht3, ?_, ?_, ?_, ?_, ?_, fun cnt => ?_,
    by omega, by omega⟩
  · exact (hgiven.walk _ (by decide)).mpr (.inr rfl)
  · rw [hgiven.pcb, hgiven.running, hrunning2, hname2]
  · rw [hgiven.len, hbits2, Bitmap.len_init]
  · have hsub : markedFrom (s3.vaddrBitmap .user) 0 ⊆ {pageIdx 0xbffff000 (s2.vaddrStart .user)} := by
      intro i hi
      obtain ⟨-, -, hbit⟩ := Finset.mem_filter.mp hi
      rw [hgiven.bit, hbits2, Bitmap.bit_init] at hbit
      exact Finset.mem_singleton.mpr (by_contra fun hne => by rw [if_neg hne] at hbit; cases hbit)
    exact Finset.card_le_card hsub
  · rw [hkvaddr3, hlen1, hlen]
  · rw [hkvaddr3]
    simpa using hs1.rest 0 cnt (hfree (25 + cnt))

end GwOS
