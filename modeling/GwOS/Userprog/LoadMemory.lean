import GwOS.Userprog.Load

/-!
# The memory of a process while a program is loaded

The two things that `load` does to the memory of the running process, and what stays: a page
that is missing is mapped (`Tracked.getOnePage_cases`), and a byte is stored in a page that is
there (`Tracked.storeBytes`).
-/

namespace GwOS

/-- The part of the address space that `create_user_vaddr_bitmap` gives to a process: all that
is below the kernel, from `USER_VADDR_START` on. -/
structure Memory.WholeSpace (s : Memory) : Prop where
  start : s.vaddrStart .user = userVaddrStart
  len : (s.vaddrBitmap .user).len = userBitmapLen

/-- The page belongs to that part. -/
def UserPage (v : Addr) : Prop := userVaddrStart ≤ v ∧ v < 0xc0000000

instance (v : Addr) : Decidable (UserPage v) := inferInstanceAs (Decidable (_ ∧ _))

section Page

variable {s s' : Memory} {threads : List Addr} {D : Frame → Prop} {g : VPage → Frame}
  {L H : List VPage} {v w a : Addr} {f : Frame}

/-- The bitmap has a bit for the pages of the process and for no others. -/
theorem pageIdx_lt_iff (h : userVaddrStart ≤ v) :
    pageIdx v userVaddrStart < 8 * userBitmapLen ↔ v < 0xc0000000 := by
  have hle : userVaddrStart.toNat ≤ v.toNat := h
  have h1 : userVaddrStart.toNat = 0x8048000 := rfl
  have h2 : userBitmapLen = 94199 := by decide
  have h3 : v < 0xc0000000 ↔ v.toNat < 0xc0000000 := Iff.rfl
  rw [pageIdx, BitVec.toNat_sub_of_le h, h3]
  unfold pgSize
  omega

/-- What `get_one_page` has done when it has mapped the page of `v` to the frame of `a`, with
a table that was there or with one of the kernel pool. -/
structure PageMapped (s s' : Memory) (v a : Addr) : Prop where
  cr3 : s'.cr3 = s.cr3
  walk : s'.walk v = some (pageOf a)
  other : ∀ w, dirIdx w ≠ 1023 → pageOf w ≠ pageOf v → s'.walk w = s.walk w
  dir : ∀ i, Present (s'.mem s'.cr3 i) ↔ Present (s.mem s.cr3 i) ∨ i = dirIdx v
  here : Present (s.pde v) → s'.kernelPool = s.kernelPool
  new : ¬ Present (s.pde v) → s'.kernelPool.spare.card + 1 = s.kernelPool.spare.card
  table : s.kernelPool.Contains (s'.tableOf v)
  taken : ∀ f, s.Taken f → s'.Taken f
  userRange : s.userPool.SameRange s'.userPool
  kernelRange : s.kernelPool.SameRange s'.kernelPool
  data : ∀ w f, w < 0xc0000000 → s.walk w = some f → s'.mem f = s.mem f
  free : ∀ f, s.userPool.Contains f → ¬ s.Taken f → s'.mem f = s.mem f

/-- The frames that `page_table_add` writes are none of the user. -/
theorem pageTableAdd_free (hl : Layout s D) (hcr : D s.cr3) (hv : dirIdx v ≠ 1023) (page : Addr)
    (htab : TableFound s v) : Returns (pageTableAdd s v page) fun s' =>
      ∀ f, s.userPool.Contains f → ¬ D f → s'.mem f = s.mem f := by
  have hself := hl.selfMapped hcr
  by_cases hp : Present (s.pde v)
  · rw [pageTableAdd_table hself hp]
    split
    · exact .error _
    · have htable : IsTable s.toMachine D (s.tableOf v) := ⟨s.cr3, hcr, dirIdx v, hv, hp, rfl⟩
      refine .ok fun f hf _ => s.setFrame_mem_ne _ ?_
      rintro rfl
      rcases (hl.isTable htable).1 with ht | hlt
      · exact hl.not_both ht.1 hf
      · exact absurd (hl.contains_ge (show (s.pool .user).Contains _ from hf)) (Nat.not_le.mpr hlt)
  · obtain ⟨pt, p', hpt⟩ := htab.resolve_left hp
    obtain ⟨-, ht⟩ := palloc_took hl.kernelOk hpt
    have htook : (s.pool .kernel).Took p' (pageOf pt) := ht
    have hspare := hl.spare (hl.not_taken htook) (hl.contains_ge htook.contains)
    have hne : pageOf pt ≠ s.cr3 := fun he => hspare.1 (he ▸ hcr)
    rw [pageTableAdd_newTable hself hp hpt hne]
    refine .ok fun f hf hD => ?_
    have hpt' : f ≠ pageOf pt := fun he => hl.not_both ht.contains (he ▸ hf)
    have hcr' : f ≠ s.cr3 := fun he => hD (he ▸ hcr)
    show ((s.withTable v pt).setWord (pageOf pt) (tabIdx v) (tableEntry page)).mem f = s.mem f
    rw [Machine.setWord, Machine.setFrame_mem_ne _ _ hpt']
    exact withTable_mem_ne hpt' hcr'

/-- Without a frame for the table, the entry of the directory names frame 0. -/
theorem pageTableAdd_exhausted (h : SelfMapped s.toMachine) (hp : ¬ Present (s.pde v)) {pool : Pool}
    (hpt : palloc s.kernelPool = .ok (none, pool)) (hne : s.cr3 ≠ 0) (page : Addr) :
    ∃ s', pageTableAdd s v page = .ok s' ∧ s'.tableOf v = 0 := by
  have hzero : pageOf ((none : Option Addr).getD 0) = 0 := rfl
  refine ⟨_, pageTableAdd_newTable h hp hpt (hzero ▸ hne.symm) page, ?_⟩
  have hentry : ((s.withTable v 0).setWord 0 (tabIdx v) (tableEntry page)).mem s.cr3 (dirIdx v) =
      tableEntry 0 := by
    rw [Machine.setWord_mem_ne _ _ (.inl hne), Machine.withTable]
    exact (congrFun (Machine.setFrame_mem_ne _ _ hne) _).trans (Machine.setWord_mem_self ..)
  show pageOf (((s.withTable v 0).setWord 0 (tabIdx v) (tableEntry page)).mem s.cr3 (dirIdx v)) = 0
  rw [hentry, pageOf_tableEntry]
  rfl

/-- The page that `page_table_add` enters for a frame of the user pool. -/
theorem Managed.pageMapped (hm : Managed s threads D g L H) (hdir : s.cr3 ≠ kernelDir)
    (hcov : s.Covered L) (hv : v < 0xc0000000) {p' : Pool}
    (hpage : palloc (s.pool .user) = .ok (some a, p')) (hfound : TableFound (s.setPool .user p') v)
    (hs' : pageTableAdd (s.setPool .user p') v a = .ok s') :
    PageMapped s s' v a ∧ s'.userPool = p' := by
  have hlow := dirIdx_lt_of_low hv
  have hwin := dirIdx_ne_of_low hlow
  have hcr := hm.active
  obtain ⟨-, ht⟩ := palloc_took hm.layout.userOk hpage
  have htook : (s.pool .user).Took p' (pageOf a) := ht
  obtain ⟨hl2, -, -⟩ := hm.layout.took hm.owned htook
  obtain ⟨hadded, htabled, hframe⟩ :=
    Owned.addPage_added hm.layout hm.owned hcr hwin (fun _ => hdir) hpage hfound s' hs'
  have hfree := pageTableAdd_free hl2 hcr hwin a hfound s' hs'
  -- in the running directory a walk is a frame of the page map
  have hm' := hm.added hadded
  have hcr' : s'.cr3 = s.cr3 := hadded.steady.cr3
  have huser : s'.userPool = p' := htabled.userPool
  have hwalk : ∀ w, dirIdx w ≠ 1023 → s'.walk w = s'.frameAt (vpage s.cr3 w) := fun w hw => by
    rw [hm'.layout.walk_eq hm'.active hw, hcr']
  have hkrange : s.kernelPool.SameRange s'.kernelPool := by
    by_cases hp : Present (s.pde v)
    · rw [(htabled.here hp).1]
      exact ⟨rfl, rfl, rfl⟩
    · obtain ⟨pt, htab, -⟩ := htabled.new hp
      exact htab.toSameRange
  refine ⟨⟨hcr', ?_, fun w hw hne => ?_, fun i => ?_, fun hp => (htabled.here hp).1, fun hp => ?_, ?_,
    hadded.grew.taken, ?_, ?_, fun w f hw hf => ?_, fun f hf hnf => ?_⟩, huser⟩
  · rw [hwalk v hwin]
    exact hframe
  · rw [hwalk w hw, hm.layout.walk_eq hcr hw]
    refine hadded.grew.proper _ (hm.layout.proper_vpage hcr hw fun _ => hdir) fun hmem => hne ?_
    exact congrArg Prod.snd (List.mem_singleton.mp hmem)
  · -- the directory gets one entry at most
    rw [hcr']
    by_cases hp : Present (s.pde v)
    · rw [(htabled.here hp).2 _ hcr]
      exact ⟨.inl, fun h => h.elim id fun he => he ▸ hp⟩
    · obtain ⟨pt, -, hdirs⟩ := htabled.new hp
      rw [hdirs _ hcr]
      by_cases hi : i = dirIdx v
      · rw [if_pos ⟨rfl, hi⟩]
        exact ⟨fun _ => .inr hi, fun _ => tableEntry_present pt⟩
      · rw [if_neg fun hb => hi hb.2]
        exact ⟨.inl, fun h => h.resolve_right hi⟩
  · -- the frame of the table
    have hself := hl2.selfMapped hcr
    obtain ⟨pt, pool, hpt⟩ := hfound.resolve_left hp
    obtain ⟨-, htab⟩ := palloc_took hl2.kernelOk hpt
    have htab' : ((s.setPool .user p').pool .kernel).Took pool (pageOf pt) := htab
    have hne : pageOf pt ≠ s.cr3 := fun he =>
      (hl2.spare (hl2.not_taken htab') (hl2.contains_ge htab'.contains)).1 (he ▸ hcr)
    have hs := pageTableAdd_newTable hself hp hpt hne a
    cases hs'.symm.trans hs
    exact palloc_card hm.layout.kernelOk hpt
  · -- below the kernel, every table is a frame of the kernel pool
    have hp' : Present (s'.pde v) := by
      obtain ⟨hpk, -, -⟩ := Memory.present_of_frameAt hframe
      rw [← hcr'] at hpk
      exact (hm'.layout.pdeAt hm'.active hwin).1.mp hpk
    rcases hm'.layout.tables _ hm'.active _ hlow hp' with ⟨hroot, -⟩ | ⟨ht', -⟩
    · exact absurd (hcr'.symm.trans hroot) hdir
    · exact (hkrange.contains _).mp ht'.1
  · rw [huser]
    exact ht.toSameRange
  · exact hkrange
  · have hwin' := dirIdx_ne_of_low (dirIdx_lt_of_low hw)
    have hmem := hcov w (dirIdx_lt_of_low hw) (hf ▸ Option.some_ne_none f)
    rw [hm.layout.walk_eq hcr hwin'] at hf
    exact hadded.grew.data _ (List.mem_append_left H hmem) f hf (hm.owned.loose _ hmem f hf)
  · have hge := hm.layout.contains_ge (show (s.pool .user).Contains f from hf)
    exact hfree f ((ht.toSameRange.contains f).mpr hf) (hm.layout.spare hnf hge).1

/-- A change of the bitmaps before does not matter. -/
theorem OnlyBitmaps.pageMapped {s1 : Memory} (h : OnlyBitmaps s s1) (hp : PageMapped s1 s' v a) :
    PageMapped s s' v a := by
  have hmach : s1.toMachine = s.toMachine := h.machine
  obtain ⟨hcr3, hwalk, hother, hdir, hhere, hnew, htable, htaken, huser, hkernel, hdata, hfree⟩ := hp
  have htk : s1.Taken = s.Taken := by
    funext f
    rw [Memory.Taken, Memory.Taken, h.kernelPool, h.userPool]
  rw [hmach] at hcr3 hother hdir hhere hnew hdata hfree
  rw [h.kernelPool] at hhere hnew htable hkernel
  rw [h.userPool] at huser hfree
  rw [htk] at htaken hfree
  exact ⟨hcr3, hwalk, hother, hdir, hhere, hnew, htable, htaken, huser, hkernel, hdata, hfree⟩

/-- **`get_one_page`** for a page that the process does not have yet. When the kernel pool has
nothing left for a page table, the table is in frame 0. -/
theorem Tracked.getOnePage_cases (h : Tracked s threads D g L H) (hw : s.WholeSpace)
    (hv : UserPage v) (hnone : s.walk v = none) :
    (s.userPool.spare.card = 0 ∧ ∃ s', GwOS.getOnePage s .user v = .ok (none, s')) ∨
    (0 < s.userPool.spare.card ∧ ¬ Present (s.pde v) ∧ s.kernelPool.spare.card = 0 ∧
      ∃ s', GwOS.getOnePage s .user v = .ok (some v, s') ∧ s'.tableOf v = 0) ∨
    ((Present (s.pde v) ∨ 0 < s.kernelPool.spare.card) ∧ ∃ a s',
      GwOS.getOnePage s .user v = .ok (some v, s') ∧ palloc s.userPool = .ok (some a, s'.userPool) ∧
        Tracked s' threads D g (vpage s.cr3 v :: L) H ∧ s'.WholeSpace ∧ PageMapped s s' v a) := by
  have hwin := dirIdx_ne_of_low (dirIdx_lt_of_low hv.2)
  have hdir := h.managed.parentDir h.process
  obtain ⟨p, hp⟩ := Option.ne_none_iff_exists'.mp h.process
  have hle : s.vaddrStart .user ≤ v := hw.start ▸ hv.1
  have hidx := (pageIdx_lt_iff hv.1).mpr hv.2
  rw [← hw.start, ← hw.len] at hidx
  -- the bit
  obtain ⟨mp, hset, hlen, -⟩ := bitmapSetIdx_ok hidx true
  have hmark : markPage s .user v = .ok (s.setVaddrBitmap .user mp) := by
    rw [markPage, show bitmapSetIdx _ _ 1 = _ from hset]
    rfl
  have hb := onlyBitmaps_set s .user hlen
  have hcall : GwOS.getOnePage s .user v = getOnePageNoBitmap (s.setVaddrBitmap .user mp) .user v := by
    unfold GwOS.getOnePage
    rw [hp]
    show (if s.vaddrStart .user ≤ v then markPage s .user v >>= fun s => getOnePageNoBitmap s .user v
      else .error .assert) = _
    simp only [if_pos hle, hmark, bind, Except.bind]
  have hm1 := h.managed.added (hb.added h.managed.layout h.managed.owned)
  generalize s.setVaddrBitmap .user mp = s1 at hb hcall hm1
  rw [List.nil_append] at hm1
  have hmach : s1.toMachine = s.toMachine := hb.machine
  have hk1 : s1.kernelPool = s.kernelPool := hb.kernelPool
  have hu1 : s1.userPool = s.userPool := hb.userPool
  have hcr1 : s1.cr3 = s.cr3 := hb.cr3
  rcases Nat.eq_zero_or_pos s.userPool.spare.card with hzero | hpos
  · -- no frame
    refine .inl ⟨hzero, s1.setPool .user s1.userPool, ?_⟩
    have hpal : palloc (s1.pool .user) = .ok (none, s1.userPool) := by
      rw [← hu1] at hzero
      exact palloc_none hm1.layout.userOk hzero
    rw [hcall, getOnePageNoBitmap, hpal]
    rfl
  -- a frame for the page, then its table
  obtain ⟨a, p', hpal, -⟩ := palloc_supply h.managed.layout.userOk hpos
  have hpage : palloc (s1.pool .user) = .ok (some a, p') := by
    rw [← hu1] at hpal
    exact hpal
  have hpageadd : GwOS.getOnePage s .user v = (pageTableAdd (s1.setPool .user p') v a >>= fun s =>
      .ok (some v, s)) := by
    rw [hcall, getOnePageNoBitmap, hpage]
    rfl
  have hm2 : (s1.setPool .user p').toMachine = s.toMachine := hmach
  have hpde : (s1.setPool .user p').pde v = s.pde v := by
    rw [hm2]
  by_cases htable : Present (s.pde v) ∨ 0 < s.kernelPool.spare.card
  · obtain ⟨s', hcall', htracked, hgiven⟩ := h.getOnePage hle hv.2 hidx hnone hpos htable.resolve_left
    obtain ⟨s2, hs2, he⟩ := bind_eq_ok.mp (hpageadd ▸ hcall')
    obtain rfl : s2 = s' := by
      cases he
      rfl
    have hfound : TableFound (s1.setPool .user p') v := by
      rcases htable with hp0 | hk0
      · exact .inl (hpde ▸ hp0)
      · rw [← hk1] at hk0
        exact (tableFound_of_spare hm1.layout hk0).imp_left fun hp0 => hp0
    obtain ⟨hmapped, huser⟩ := hm1.pageMapped (hcr1 ▸ hdir)
      (fun w hw hmap => hcr1 ▸ h.covered w hw (hmach ▸ hmap)) hv.2 hpage hfound hs2
    refine .inr (.inr ⟨htable, a, s2, hcall', huser ▸ hpal, htracked, ⟨?_, ?_⟩, ?_⟩)
    · show (s2.pcb s2.running).vaddrStart = _
      rw [hgiven.pcb, hgiven.running]
      exact hw.start
    · rw [hgiven.len]
      exact hw.len
    · exact hb.pageMapped hmapped
  · -- the entry of the directory names frame 0
    obtain ⟨hp0, hk0⟩ := not_or.mp htable
    have hk0 := Nat.eq_zero_of_not_pos hk0
    have hself : SelfMapped (s1.setPool .user p').toMachine := by
      rw [hm2]
      exact h.managed.layout.selfMapped h.managed.active
    have hpt : palloc (s1.setPool .user p').kernelPool = .ok (none, s.kernelPool) := by
      show palloc s1.kernelPool = _
      rw [hk1]
      exact palloc_none h.managed.layout.kernelOk hk0
    have hne : (s1.setPool .user p').cr3 ≠ 0 := by
      intro he
      have hcr : D 0 := by
        rw [← show s.cr3 = 0 from (congrArg Machine.cr3 hm2).symm.trans he]
        exact h.managed.active
      rcases h.managed.layout.dirs _ hcr with hroot | htaken
      · exact absurd hroot (by decide)
      · exact absurd (h.managed.layout.taken_ge htaken) (by decide)
    obtain ⟨s3, hs3, htab3⟩ := pageTableAdd_exhausted hself (hpde ▸ hp0) hpt hne a
    refine .inr (.inl ⟨hpos, hp0, hk0, s3, ?_, htab3⟩)
    rw [hpageadd, hs3]
    rfl

end Page

/-! ## Bytes -/

section Store

variable {s : Memory} {threads : List Addr} {D : Frame → Prop} {g : VPage → Frame}
  {L H : List VPage} {v w dst : Addr} {f : Frame} {b : UInt8} {m : Machine}

/-- What a write to the page of `v` leaves as it is. -/
structure PageWritten (s : Memory) (threads : List Addr) (D : Frame → Prop) (g : VPage → Frame)
    (L H : List VPage) (m : Machine) : Prop where
  tracked : Tracked { s with toMachine := m } threads D g L H
  cr3 : m.cr3 = s.cr3
  walk : ∀ w, m.walk w = s.walk w
  dir : m.mem s.cr3 = s.mem s.cr3
  unmapped : ∀ f, (∀ w, w < 0xc0000000 → s.walk w ≠ some f) → m.mem f = s.mem f

/-- A page of the process is mapped to a frame of its own. -/
theorem Tracked.walk_inj (h : Tracked s threads D g L H) (hv : v < 0xc0000000) (hw : w < 0xc0000000)
    (hf : s.walk v = some f) (hf' : s.walk w = some f) : pageOf w = pageOf v := by
  have hv' := dirIdx_lt_of_low hv
  have hw' := dirIdx_lt_of_low hw
  have hkv := h.covered v hv' (hf ▸ Option.some_ne_none f)
  have hkw := h.covered w hw' (hf' ▸ Option.some_ne_none f)
  rw [h.managed.layout.walk_eq h.managed.active (dirIdx_ne_of_low hv')] at hf
  rw [h.managed.layout.walk_eq h.managed.active (dirIdx_ne_of_low hw')] at hf'
  have he := h.managed.owned.inj _ (List.mem_append_left H hkw) _ (List.mem_append_left H hkv)
    (hf'.trans hf.symm)
  exact congrArg Prod.snd he

/-- A page of the process is written. -/
theorem Tracked.write (h : Tracked s threads D g L H) (hv : v < 0xc0000000) (hf : s.walk v = some f)
    (page : Page) : PageWritten s threads D g L H (s.setFrame f page) := by
  have hlow := dirIdx_lt_of_low hv
  have hwin := dirIdx_ne_of_low hlow
  have hl := h.managed.layout
  have hcr := h.managed.active
  have hk := h.covered v hlow (hf ▸ Option.some_ne_none f)
  have hfk := hf
  rw [hl.walk_eq hcr hwin] at hfk
  have hD : ¬ D f := h.managed.owned.loose _ hk f hfk
  have hN : [vpage s.cr3 v] ⊆ L := fun k hk' => List.mem_singleton.mp hk' ▸ hk
  obtain ⟨hl', ho', hframe⟩ := Owned.write hl h.managed.owned hN (m := s.setFrame f page)
    fun f' hf' => s.setFrame_mem_ne _ fun he => hf' _ (List.mem_singleton.mpr rfl) (he ▸ hfk)
  have hm' := h.managed.steady hl' ho' ⟨rfl, rfl, rfl, rfl, rfl, fun _ => rfl⟩
  have hdir : (s.setFrame f page).mem s.cr3 = s.mem s.cr3 := s.setFrame_mem_ne _ fun he => hD (he ▸ hcr)
  -- the frame is neither the directory nor a table
  have hwalk : ∀ w, (s.setFrame f page).walk w = s.walk w := by
    intro w
    by_cases hw : dirIdx w = 1023
    · rw [(hl'.selfMapped hcr).walk_window hw, (hl.selfMapped hcr).walk_window hw]
      show (if Present ((s.setFrame f page).mem s.cr3 (tabIdx w)) then
        some (pageOf ((s.setFrame f page).mem s.cr3 (tabIdx w))) else none) = _
      rw [hdir]
    · have hleft := hl'.walk_eq hcr hw
      have hright := hframe (vpage s.cr3 w) (hl.vpage_mem hcr) (by rw [dirIdx_vpage]; exact hw)
      rw [hl.walk_eq hcr hw]
      exact hleft.trans hright
  refine ⟨⟨hm', fun idx hidx hbit => ?_, fun w hw hmap => ?_, h.process, fun w hw => ?_⟩, rfl, hwalk, hdir,
    fun f' hf' => ?_⟩
  · have hproper := h.managed.vaddrsOk.proper_kernelPage hl hidx
    exact (hframe _ hproper.dir hproper.window).trans (h.clear idx hidx hbit)
  · exact h.covered w hw ((hwalk w) ▸ hmap)
  · rw [show ({ s with toMachine := s.setFrame f page } : Memory).walk w = s.walk w from hwalk w]
    exact h.marks w hw
  · refine s.setFrame_mem_ne _ ?_
    rintro rfl
    exact hf' v hv hf

theorem PageWritten.refl (h : Tracked s threads D g L H) :
    PageWritten s threads D g L H s.toMachine :=
  ⟨h, rfl, fun _ => rfl, rfl, fun _ _ => rfl⟩

theorem PageWritten.trans {m' : Machine} (h : PageWritten s threads D g L H m)
    (h' : PageWritten { s with toMachine := m } threads D g L H m') :
    PageWritten s threads D g L H m' := by
  refine ⟨h'.tracked, h'.cr3.trans h.cr3, fun w => (h'.walk w).trans (h.walk w), ?_, fun f hf => ?_⟩
  · have hdir := h'.dir
    rw [show ({ s with toMachine := m } : Memory).cr3 = s.cr3 from h.cr3] at hdir
    exact hdir.trans h.dir
  · refine (h'.unmapped f fun w hw => ?_).trans (h.unmapped f hf)
    rw [show ({ s with toMachine := m } : Memory).walk w = s.walk w from h.walk w]
    exact hf w hw

/-- One byte of a page that the process has. -/
theorem Tracked.storeByte (h : Tracked s threads D g L H) (hv : v < 0xc0000000)
    (hmap : s.walk v ≠ none) (b : UInt8) :
    ∃ m, s.toMachine.storeByte v b = .ok m ∧ PageWritten s threads D g L H m ∧
      ∀ w, w < 0xc0000000 → ∀ c, s.byteAt w = some c → m.byteAt w = some (if w = v then b else c) := by
  obtain ⟨f, hf⟩ := Option.ne_none_iff_exists'.mp hmap
  have hwritten := h.write hv hf (setPageByte (s.mem f) v b)
  refine ⟨_, by rw [Machine.storeByte, hf], hwritten, fun w hw c hc => ?_⟩
  obtain ⟨f', hf', rfl⟩ := Option.map_eq_some_iff.mp hc
  rw [Machine.byteAt, hwritten.walk, hf', Option.map_some]
  refine congrArg some ?_
  by_cases he : f' = f
  · subst he
    have hpage := h.walk_inj hv hw hf hf'
    rw [Machine.setFrame_mem_self, pageByte_setPageByte]
    exact if_congr ⟨addr_ext hpage, fun h => h ▸ rfl⟩ rfl rfl
  · rw [s.setFrame_mem_ne _ he, if_neg]
    rintro rfl
    exact he (Option.some_inj.mp (hf'.symm.trans hf))

/-- The index of an address behind the first byte. -/
theorem sub_next_toNat (hne : w ≠ dst) : (w - dst).toNat = (w - (dst + 1)).toNat + 1 := by
  have hpos : (w - dst).toNat ≠ 0 := by
    intro he
    have hzero : w - dst = 0#32 := BitVec.eq_of_toNat_eq he
    have hcancel := BitVec.sub_add_cancel w dst
    rw [hzero, BitVec.zero_add] at hcancel
    exact hne hcancel.symm
  have hsub : w - (dst + 1) = w - dst - 1 := (BitVec.sub_sub w dst 1).symm
  have h1 : (1 : Addr).toNat = 1 := rfl
  have hle : (1 : Addr) ≤ w - dst := by
    show (1 : Addr).toNat ≤ (w - dst).toNat
    omega
  rw [hsub, BitVec.toNat_sub_of_le hle, h1]
  omega

/-- The address of byte `p + 1`. -/
theorem next_ofNat (dst : Addr) (p : Nat) :
    dst + BitVec.ofNat 32 (p + 1) = dst + 1 + BitVec.ofNat 32 p := by
  apply BitVec.eq_of_toNat_eq
  have h1 : (1 : Addr).toNat = 1 := rfl
  simp only [BitVec.toNat_add, BitVec.toNat_ofNat, h1]
  omega

/-- **Several bytes** in pages that the process has. -/
theorem Tracked.storeBytes (bytes : List UInt8) (h : Tracked s threads D g L H)
    (hlen : bytes.length ≤ 2 ^ 32)
    (hlow : ∀ p < bytes.length, dst + BitVec.ofNat 32 p < 0xc0000000)
    (hmap : ∀ p < bytes.length, s.walk (dst + BitVec.ofNat 32 p) ≠ none) :
    ∃ m, s.toMachine.storeBytes dst bytes = .ok m ∧ PageWritten s threads D g L H m ∧
      ∀ w, w < 0xc0000000 → ∀ c, s.byteAt w = some c →
        m.byteAt w = some ((bytes[(w - dst).toNat]?).getD c) := by
  induction bytes generalizing s dst with
  | nil => exact ⟨_, rfl, .refl h, fun w _ c hc => hc⟩
  | cons b bytes ih =>
    rw [List.length_cons] at hlen hlow hmap
    have hlow0 := hlow 0 (Nat.succ_pos _)
    have hmap0 := hmap 0 (Nat.succ_pos _)
    rw [BitVec.add_zero] at hlow0 hmap0
    obtain ⟨m1, hm1, hwritten, hbyte⟩ := h.storeByte hlow0 hmap0 b
    obtain ⟨m, hm, hwritten', hbytes⟩ := @ih { s with toMachine := m1 } (dst + 1) hwritten.tracked
      (by omega) (fun p hp => next_ofNat dst p ▸ hlow (p + 1) (by omega)) fun p hp => by
        rw [show ({ s with toMachine := m1 } : Memory).walk _ = s.walk _ from hwritten.walk _,
          ← next_ofNat]
        exact hmap (p + 1) (by omega)
    refine ⟨m, ?_, hwritten.trans hwritten', fun w hw c hc => ?_⟩
    · rw [Machine.storeBytes, hm1]
      exact hm
    · rw [hbytes w hw _ (hbyte w hw c hc)]
      by_cases he : w = dst
      · -- the bytes that follow do not come back to the first one
        have hlast : (w - (dst + 1)).toNat = 2 ^ 32 - 1 := by
          rw [he, ← BitVec.sub_sub, BitVec.sub_self]
          rfl
        rw [if_pos he, hlast, List.getElem?_eq_none (by omega), he, BitVec.sub_self]
        rfl
      · rw [if_neg he, sub_next_toNat he, List.getElem?_cons_succ]

/-- A byte of a page that is not there is not stored. -/
theorem Tracked.storeBytes_mapped (bytes : List UInt8) (h : Tracked s threads D g L H)
    (hlow : ∀ p < bytes.length, dst + BitVec.ofNat 32 p < 0xc0000000)
    (hok : s.toMachine.storeBytes dst bytes = .ok m) :
    ∀ p < bytes.length, s.walk (dst + BitVec.ofNat 32 p) ≠ none := by
  induction bytes generalizing s dst with
  | nil => exact fun p hp => absurd hp (Nat.not_lt_zero p)
  | cons b bytes ih =>
    rw [List.length_cons] at hlow ⊢
    have hlow0 := hlow 0 (Nat.succ_pos _)
    rw [BitVec.add_zero] at hlow0
    have hmap0 : s.walk dst ≠ none := by
      intro hnone
      rw [Machine.storeBytes, Machine.storeByte, hnone] at hok
      cases hok
    obtain ⟨m1, hm1, hwritten, -⟩ := h.storeByte hlow0 hmap0 b
    rw [Machine.storeBytes, hm1] at hok
    intro p hp
    cases p with
    | zero =>
      rw [BitVec.add_zero]
      exact hmap0
    | succ p =>
      rw [next_ofNat, ← hwritten.walk]
      exact @ih { s with toMachine := m1 } (dst + 1) hwritten.tracked
        (fun p hp => next_ofNat dst p ▸ hlow (p + 1) (by omega)) hok p (by omega)

end Store

end GwOS
