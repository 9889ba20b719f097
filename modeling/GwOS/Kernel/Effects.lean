import GwOS.Kernel.Vaddr
import Mathlib.Data.List.Nodup

/-!
# What an allocation changes

`KeepsPages` says that a step leaves the pages that are owned where they are, with their
contents, and enters or removes no page but those of a list. `Grew` adds that the frames
of the new pages were free. Both follow from where the entries lie: two pages have the same
slot only if they are the same page (`Layout.slotAt_inj`).
-/

namespace GwOS

/-- A page under the directory that it belongs to: the pages of the kernel under `kernelDir`,
the others under the directory of a process. -/
structure ProperPage (D : Frame → Prop) (k : VPage) : Prop where
  dir : D k.1
  window : dirIdx (addrOf k.2 0) ≠ 1023
  kernel : k.1 = kernelDir ↔ 768 ≤ dirIdx (addrOf k.2 0)

/-- The pages `K` are as before, and so is every page that is not among `N`. -/
structure KeepsPages (s s' : Memory) (D : Frame → Prop) (K N : List VPage) : Prop where
  frame : ∀ k ∈ K, s'.frameAt k = s.frameAt k
  data : ∀ k ∈ K, ∀ f, s.frameAt k = some f → ¬ D f → s'.mem f = s.mem f
  proper : ∀ k, ProperPage D k → k ∉ N → s'.frameAt k = s.frameAt k

/-- The pages `N` are new, and their frames were free. -/
structure Grew (s s' : Memory) (D : Frame → Prop) (K N : List VPage) : Prop
    extends KeepsPages s s' D K N where
  taken : ∀ f, s.Taken f → s'.Taken f
  fresh : ∀ k ∈ N, ∀ f, s'.frameAt k = some f → ¬ s.Taken f

section KeepsPages

variable {s s' s1 s2 : Memory} {D : Frame → Prop} {K K' N N' : List VPage} {k k' : VPage}
  {d f : Frame} {v : Addr}

theorem KeepsPages.refl (s : Memory) (D : Frame → Prop) (K : List VPage) : KeepsPages s s D K [] :=
  ⟨fun _ _ => rfl, fun _ _ _ _ _ => rfl, fun _ _ _ => rfl⟩

theorem KeepsPages.trans (h : KeepsPages s s1 D K N) (h' : KeepsPages s1 s2 D K' N') (hsub : K ⊆ K') :
    KeepsPages s s2 D K (N' ++ N) := by
  refine ⟨fun k hk => (h'.frame k (hsub hk)).trans (h.frame k hk), fun k hk f hf hD => ?_,
    fun k hp hk => ?_⟩
  · have hf1 : s1.frameAt k = some f := (h.frame k hk).trans hf
    exact (h'.data k (hsub hk) f hf1 hD).trans (h.data k hk f hf hD)
  · have hN' : k ∉ N' := fun hmem => hk (List.mem_append_left _ hmem)
    have hN : k ∉ N := fun hmem => hk (List.mem_append_right _ hmem)
    exact (h'.proper k hp hN').trans (h.proper k hp hN)

theorem KeepsPages.mono (h : KeepsPages s s' D K' N) (hsub : K ⊆ K') : KeepsPages s s' D K N :=
  ⟨fun k hk => h.frame k (hsub hk), fun k hk => h.data k (hsub hk), h.proper⟩

theorem Grew.refl (s : Memory) (D : Frame → Prop) (K : List VPage) : Grew s s D K [] :=
  ⟨.refl s D K, fun _ h => h, nofun⟩

theorem Grew.trans (h : Grew s s1 D K N) (h' : Grew s1 s2 D (N ++ K) N') :
    Grew s s2 D K (N' ++ N) := by
  refine ⟨h.toKeepsPages.trans h'.toKeepsPages (List.subset_append_right _ _),
    fun f hf => h'.taken f (h.taken f hf), fun k hk f hf => ?_⟩
  rcases List.mem_append.mp hk with hk | hk
  · exact fun ht => h'.fresh k hk f hf (h.taken f ht)
  · rw [h'.frame k (List.mem_append_left _ hk)] at hf
    exact h.fresh k hk f hf

/-! ## Slots -/

theorem addrOf_dirIdx (hne : dirIdx (addrOf k.2 0) = dirIdx v) (htab : tabIdx (addrOf k.2 0) = tabIdx v) :
    k.2 = pageOf v := by
  rw [← pageOf_inj hne htab, pageOf_addrOf]

theorem Layout.proper_vpage (h : Layout s D) (hd : D d) (hv : dirIdx v ≠ 1023)
    (hlow : dirIdx v < 768 → d ≠ kernelDir) : ProperPage D (vpage d v) := by
  refine ⟨h.vpage_mem hd, ?_, ?_⟩
  · rw [dirIdx_vpage]
    exact hv
  · rw [dirIdx_vpage, vpage]
    split
    · next hhigh => exact ⟨fun _ => hhigh, fun _ => rfl⟩
    · next hhigh =>
      exact ⟨fun he => absurd he (hlow (BitVec.not_le.mp hhigh)), fun hge => absurd hge hhigh⟩

/-- The table of a page of the kernel is one of the loader, that of another page comes from
the pool. -/
theorem Layout.slot_table (h : Layout s D) (hk : ProperPage D k) (hp : Present (s.pdeAt k)) :
    (768 ≤ dirIdx (addrOf k.2 0) ∧ (s.slotAt k).1 = kernelTable (dirIdx (addrOf k.2 0))) ∨
      (dirIdx (addrOf k.2 0) < 768 ∧ s.kernelPool.Taken (s.slotAt k).1) := by
  by_cases hhigh : 768 ≤ dirIdx (addrOf k.2 0)
  · exact .inl ⟨hhigh, (h.shared _ hk.dir _ hhigh hk.window).2⟩
  · have hlow : dirIdx (addrOf k.2 0) < 768 := BitVec.not_le.mp hhigh
    rcases h.tables _ hk.dir _ hlow hp with ⟨hroot, -, -⟩ | ⟨ht, -⟩
    · exact absurd (hk.kernel.mp hroot) hhigh
    · exact .inr ⟨hlow, ht⟩

theorem kernelTable_inj {i j : BitVec 10} (hi : 768 ≤ i) (hj : 768 ≤ j)
    (h : kernelTable i = kernelTable j) : i = j := by
  have hnat := congrArg BitVec.toNat h
  rw [kernelTable_toNat hi, kernelTable_toNat hj] at hnat
  have hi' : 768 ≤ i.toNat := hi
  have hj' : 768 ≤ j.toNat := hj
  exact BitVec.eq_of_toNat_eq (by omega)

theorem Layout.kernelTable_not_taken (h : Layout s D) {i : BitVec 10} (hi : 768 ≤ i)
    (hne : i ≠ 1023) : ¬ s.kernelPool.Taken (kernelTable i) := by
  intro ht
  have hge := h.taken_ge (.inl ht)
  rw [kernelTable_toNat hi] at hge
  have hlt := i.isLt
  have hne' : i.toNat ≠ 1023 := fun he => hne (BitVec.eq_of_toNat_eq he)
  omega

/-- **Slots.** Two pages whose entries are in the same place are the same page. -/
theorem Layout.slotAt_inj (h : Layout s D) (hk : ProperPage D k) (hk' : ProperPage D k')
    (hp : Present (s.pdeAt k)) (hp' : Present (s.pdeAt k')) (he : s.slotAt k = s.slotAt k') :
    k = k' := by
  have htable : (s.slotAt k).1 = (s.slotAt k').1 := congrArg Prod.fst he
  have htab : tabIdx (addrOf k.2 0) = tabIdx (addrOf k'.2 0) := congrArg Prod.snd he
  have hpage : dirIdx (addrOf k.2 0) = dirIdx (addrOf k'.2 0) → k.2 = k'.2 := fun hidx => by
    rw [addrOf_dirIdx hidx htab, pageOf_addrOf]
  rcases h.slot_table hk hp with ⟨hhigh, ht⟩ | ⟨hlow, ht⟩
  · rcases h.slot_table hk' hp' with ⟨hhigh', ht'⟩ | ⟨-, ht'⟩
    · have hidx := kernelTable_inj hhigh hhigh' (ht.symm.trans (htable.trans ht'))
      exact Prod.ext ((hk.kernel.mpr hhigh).trans (hk'.kernel.mpr hhigh').symm) (hpage hidx)
    · rw [← htable, ht] at ht'
      exact absurd ht' (h.kernelTable_not_taken hhigh hk.window)
  · rcases h.slot_table hk' hp' with ⟨hhigh', ht'⟩ | ⟨hlow', -⟩
    · rw [htable, ht'] at ht
      exact absurd ht (h.kernelTable_not_taken hhigh' hk'.window)
    · obtain ⟨hdir, hidx⟩ := h.inj _ _ hk.dir hk'.dir _ _ hlow hlow' hp hp' ht htable
      exact Prod.ext hdir (hpage hidx)

/-- The contents of other frames than the directories and the tables say nothing about where
a page is mapped. -/
theorem frameAt_eq_of_tables (hmem : ∀ d, D d → s'.mem d = s.mem d)
    (htables : ∀ t, IsTable s.toMachine D t → s'.mem t = s.mem t) (hk : D k.1)
    (hne : dirIdx (addrOf k.2 0) ≠ 1023) : s'.frameAt k = s.frameAt k :=
  frameAt_eq_of_dirs hmem hk fun hp => congrFun (htables _ (isTable_slotAt hk hne hp)) _

end KeepsPages

/-! ## One page -/

section Add

variable {s s' : Memory} {D : Frame → Prop} {g : VPage → Frame} {L H : List VPage} {v : Addr}
  {pf : PoolFlag} {k : VPage} {f : Frame} {p' : Pool}

/-- The slot of the page that an address is in. -/
theorem Layout.slotAt_vpage (h : Layout s D) (hcr : D s.cr3) (hv : dirIdx v ≠ 1023) :
    s.slotAt (vpage s.cr3 v) = (s.tableOf v, tabIdx v) := by
  rw [Memory.slotAt, (h.pdeAt hcr hv).2, tabIdx_vpage]
  rfl

/-- An entry of a table that is there is written. -/
theorem Owned.enter_keeps (hl : Layout s D) (ho : Owned s D g L H) (hcr : D s.cr3)
    (hv : dirIdx v ≠ 1023) (hlow : dirIdx v < 768 → s.cr3 ≠ kernelDir) (hp : Present (s.pde v))
    (hfree : ¬ Present (s.pte v)) (page : Addr) :
    KeepsPages s { s with toMachine := s.setWord (s.tableOf v) (tabIdx v) (tableEntry page) } D (L ++ H)
      [vpage s.cr3 v] := by
  have hslot := hl.slotAt_vpage hcr hv
  have hproper := hl.proper_vpage hcr hv hlow
  have hpkey : Present (s.pdeAt (vpage s.cr3 v)) := (hl.pdeAt hcr hv).1.mpr hp
  have htable : IsTable s.toMachine D (s.tableOf v) := by
    have hT := isTable_slotAt hproper.dir hproper.window hpkey
    rwa [hslot] at hT
  obtain ⟨-, hkeep⟩ := hl.setWord (hl.isTable htable).2 (tabIdx v) (tableEntry page)
  refine ⟨fun k hk => ?_, fun k hk f hf _ => ?_, fun k hk hN => ?_⟩
  · refine hkeep k (ho.page k hk).1 fun _ he => hfree ?_
    obtain ⟨f, hf, -⟩ := ho.mapped k hk
    obtain ⟨-, hpte, -⟩ := Memory.present_of_frameAt hf
    rw [he] at hpte
    exact hpte
  · obtain ⟨f0, hf0, -, hntab⟩ := ho.mapped k hk
    cases hf.symm.trans hf0
    exact s.setFrame_mem_ne _ fun he => hntab (he ▸ htable)
  · refine hkeep k hk.dir fun hpk he => hN ?_
    rw [hl.slotAt_inj hk hproper hpk hpkey (he.trans hslot.symm)]
    exact List.mem_singleton.mpr rfl

/-- An empty table that is installed maps nothing. -/
theorem Layout.newTable_frameAt (hl : Layout s D) (hcr : D s.cr3) (hv : dirIdx v ≠ 1023)
    (hp : ¬ Present (s.pde v)) {pt : Addr} (ht : s.kernelPool.Took p' (pageOf pt)) (hk : D k.1)
    (hne : dirIdx (addrOf k.2 0) ≠ 1023) :
    ({ s with kernelPool := p', toMachine := s.withTable v pt } : Memory).frameAt k = s.frameAt k := by
  have htook : (s.pool .kernel).Took p' (pageOf pt) := ht
  obtain ⟨hdir, htab⟩ := hl.spare (hl.not_taken htook) (hl.contains_ge htook.contains)
  have hentry := hl.newEntry hcr hv hp ht hdir
  by_cases hpk : Present (s.pdeAt k)
  · -- a table that was there is neither the new one nor the directory
    have hT := isTable_slotAt hk hne hpk
    refine Memory.frameAt_congr (hentry.other hk (hentry.ne_of_present hpk)) fun _ => congrFun ?_ _
    exact withTable_mem_ne (fun he => htab (he ▸ hT)) fun he => (hl.isTable hT).2 (he ▸ hcr)
  · -- the page was not mapped, and the new table is empty
    have hnone : ∀ s0 : Memory, ¬ (Present (s0.pdeAt k) ∧
        Present (s0.mem (s0.slotAt k).1 (s0.slotAt k).2)) → s0.frameAt k = none := by
      intro s0 hno
      rw [Memory.frameAt_eq, if_neg hno]
    rw [hnone s fun hb => hpk hb.1]
    refine hnone _ fun hb => ?_
    by_cases he : k.1 = s.cr3 ∧ dirIdx (addrOf k.2 0) = dirIdx v
    · have hpde : ({ s with kernelPool := p', toMachine := s.withTable v pt } : Memory).pdeAt k =
          tableEntry pt := by
        rw [Memory.pdeAt, he.1, he.2]
        exact hentry.self
      have hzero := hb.2
      rw [Memory.slotAt, hpde, pageOf_tableEntry] at hzero
      have hempty : (s.withTable v pt).mem (pageOf pt) = fun _ => 0 := Machine.setFrame_mem_self ..
      rw [show ({ s with kernelPool := p', toMachine := s.withTable v pt } : Memory).mem (pageOf pt) =
        fun _ => 0 from hempty] at hzero
      exact absurd hzero (by simp [Present])
    · have hother := hentry.other hk he
      rw [Memory.pdeAt, hother] at hb
      exact hpk hb.1

/-- An empty table is installed. -/
theorem Layout.newTable_keeps (hl : Layout s D) (ho : Owned s D g L H) (hcr : D s.cr3)
    (hv : dirIdx v ≠ 1023) (hp : ¬ Present (s.pde v)) {pt : Addr}
    (ht : s.kernelPool.Took p' (pageOf pt)) :
    KeepsPages s { s with kernelPool := p', toMachine := s.withTable v pt } D (L ++ H) [] := by
  have htook : (s.pool .kernel).Took p' (pageOf pt) := ht
  refine ⟨fun k hk => ?_, fun k hk f hf hD => ?_, fun k hk _ => ?_⟩
  · exact hl.newTable_frameAt hcr hv hp ht (ho.page k hk).1 (ho.page k hk).2
  · obtain ⟨f0, hf0, hft, -⟩ := ho.mapped k hk
    cases hf.symm.trans hf0
    refine withTable_mem_ne (fun he => hl.not_taken htook (he ▸ hft)) fun he => ?_
    exact hD (he ▸ hcr)
  · exact hl.newTable_frameAt hcr hv hp ht hk.dir hk.window

/-- The page table of `v` after `page_table_add`, and where its frame came from. -/
structure Tabled (s s' : Memory) (D : Frame → Prop) (v : Addr) : Prop where
  userPool : s'.userPool = s.userPool
  here : Present (s.pde v) → s'.kernelPool = s.kernelPool ∧ ∀ d, D d → s'.mem d = s.mem d
  new : ¬ Present (s.pde v) → ∃ pt, s.kernelPool.Took s'.kernelPool (pageOf pt) ∧
    ∀ d, D d → ∀ j, s'.mem d j = if d = s.cr3 ∧ j = dirIdx v then tableEntry pt else s.mem d j

/-- The first step of `page_table_add`: there is a page table for `v`, or an empty one is
installed. -/
inductive TableInstalled (s : Memory) (v : Addr) : Memory → Prop
  | here : Present (s.pde v) → TableInstalled s v s
  | fresh (pt : Addr) (p' : Pool) : ¬ Present (s.pde v) → s.kernelPool.Took p' (pageOf pt) →
      TableInstalled s v { s with kernelPool := p', toMachine := s.withTable v pt }

/-- **`page_table_add`**: the entry of the page is free, and it is written. -/
theorem Layout.pageTableAdd_cases (hl : Layout s D) (hcr : D s.cr3) (page : Addr)
    (htab : TableFound s v) :
    Returns (GwOS.pageTableAdd s v page) fun s' => ∃ s2, TableInstalled s v s2 ∧
      ¬ Present (s2.pte v) ∧
      s' = { s2 with toMachine := s2.setWord (s2.tableOf v) (tabIdx v) (tableEntry page) } := by
  have hself := hl.selfMapped hcr
  by_cases hp : Present (s.pde v)
  · rw [pageTableAdd_table hself hp]
    split
    · exact .error _
    · next hfree => exact .ok ⟨s, .here hp, hfree, rfl⟩
  · obtain ⟨pt, p', hpt⟩ := htab.resolve_left hp
    obtain ⟨-, ht⟩ := palloc_took hl.kernelOk hpt
    have htook : (s.pool .kernel).Took p' (pageOf pt) := ht
    have hspare := hl.spare (hl.not_taken htook) (hl.contains_ge htook.contains)
    have hne : pageOf pt ≠ s.cr3 := fun he => hspare.1 (he ▸ hcr)
    rw [pageTableAdd_newTable hself hp hpt hne]
    -- the table that has been installed is empty
    have htab2 : (s.withTable v pt).tableOf v = pageOf pt := by
      rw [Machine.tableOf, Machine.pde]
      show pageOf ((s.withTable v pt).mem s.cr3 (dirIdx v)) = _
      rw [Machine.withTable, Machine.setFrame_mem_ne _ _ hne.symm, s.setWord_mem_self, pageOf_tableEntry]
    refine .ok ⟨_, .fresh pt p' hp ht, ?_, ?_⟩
    · rw [Machine.pte, htab2]
      show ¬ Present ((s.withTable v pt).mem (pageOf pt) (tabIdx v))
      rw [Machine.withTable, Machine.setFrame_mem_self]
      simp [Present]
    · rw [htab2]
      rfl

/-- What the installation of a table leaves. -/
structure TableReady (s s2 : Memory) (D : Frame → Prop) (g : VPage → Frame) (L H : List VPage) (v : Addr) :
    Prop where
  layout : Layout s2 D
  owned : Owned s2 D g L H
  cr3 : s2.cr3 = s.cr3
  present : Present (s2.pde v)
  keeps : KeepsPages s s2 D (L ++ H) []
  frame : ∀ k, D k.1 → dirIdx (addrOf k.2 0) ≠ 1023 → s2.frameAt k = s.frameAt k
  pde : ∀ k, D k.1 → Present (s.pdeAt k) → s2.pdeAt k = s.pdeAt k
  tabled : Tabled s s2 D v

theorem TableInstalled.ready {s2 : Memory} (h : TableInstalled s v s2) (hl : Layout s D)
    (ho : Owned s D g L H) (hcr : D s.cr3) (hv : dirIdx v ≠ 1023) : TableReady s s2 D g L H v := by
  cases h with
  | here hp =>
    exact ⟨hl, ho, rfl, hp, ⟨fun _ _ => rfl, fun _ _ _ _ _ => rfl, fun _ _ _ => rfl⟩,
      fun _ _ _ => rfl, fun _ _ _ => rfl, rfl, fun _ => ⟨rfl, fun _ _ => rfl⟩, fun h => absurd hp h⟩
  | fresh pt p' hp ht =>
    have htook : (s.pool .kernel).Took p' (pageOf pt) := ht
    have hspare := hl.spare (hl.not_taken htook) (hl.contains_ge htook.contains)
    have hentry := hl.newEntry hcr hv hp ht hspare.1
    obtain ⟨hl2, ho2, -⟩ := hl.newTable ho hcr hv hp ht
    refine ⟨hl2, ho2, rfl, ?_, hl.newTable_keeps ho hcr hv hp ht,
      fun k hk hne => hl.newTable_frameAt hcr hv hp ht hk hne,
      fun k hk hpk => hentry.other hk (hentry.ne_of_present hpk), rfl, fun h => absurd h hp,
      fun _ => ⟨pt, ht, hentry.mem⟩⟩
    show Present ((s.withTable v pt).mem s.cr3 (dirIdx v))
    rw [hentry.self]
    exact tableEntry_present pt

/-- The entry that is written maps the page. -/
theorem Layout.entered_frameAt (hl : Layout s D) (hcr : D s.cr3) (hv : dirIdx v ≠ 1023)
    (hp : Present (s.pde v)) (page : Addr) :
    ({ s with toMachine := s.setWord (s.tableOf v) (tabIdx v) (tableEntry page) } : Memory).frameAt
      (vpage s.cr3 v) = some (pageOf page) := by
  have hnotD : ¬ D (s.tableOf v) := (hl.isTable ⟨s.cr3, hcr, dirIdx v, hv, hp, rfl⟩).2
  obtain ⟨hl2, -⟩ := hl.setWord hnotD (tabIdx v) (tableEntry page)
  generalize hs2 : ({ s with
    toMachine := s.setWord (s.tableOf v) (tabIdx v) (tableEntry page) } : Memory) = s2 at hl2
  have hpde : (s2.under s.cr3).pde v = s.pde v := by
    rw [← hs2]
    exact congrFun (s.setFrame_mem_ne _ fun he : s.cr3 = s.tableOf v => hnotD (he ▸ hcr)) _
  have hpte : (s2.under s.cr3).pte v = tableEntry page := by
    rw [Machine.pte, Machine.tableOf, hpde, ← hs2]
    exact s.setWord_mem_self ..
  rw [hl2.frameAt_vpage hcr hv, Machine.walk, hpde, hpte, if_pos ⟨hp, tableEntry_present _⟩,
    pageOf_tableEntry]

/-- The entry is in a table, so the pools and the directories are as before. -/
theorem Tabled.setWord {s2 : Memory} (h : Tabled s s2 D v) {t : Frame} (ht : ¬ D t) (j : BitVec 10)
    (e : Addr) : Tabled s { s2 with toMachine := s2.setWord t j e } D v := by
  have hdir : ∀ d, D d → (s2.setWord t j e).mem d = s2.mem d := fun d hd =>
    s2.setFrame_mem_ne _ fun he => ht (he ▸ hd)
  refine ⟨h.userPool, fun hp => ⟨(h.here hp).1, fun d hd => (hdir d hd).trans ((h.here hp).2 d hd)⟩,
    fun hp => ?_⟩
  obtain ⟨pt, htook, hmem⟩ := h.new hp
  refine ⟨pt, htook, fun d hd i => ?_⟩
  rw [← hmem d hd i]
  exact congrFun (hdir d hd) i

/-- **`page_table_add`** enters one page. -/
theorem Owned.pageTableAdd_keeps (hl : Layout s D) (ho : Owned s D g L H) (hcr : D s.cr3)
    (hv : dirIdx v ≠ 1023) (hlow : dirIdx v < 768 → s.cr3 ≠ kernelDir) (page : Addr)
    (htab : TableFound s v) :
    Returns (GwOS.pageTableAdd s v page) fun s' => KeepsPages s s' D (L ++ H) [vpage s.cr3 v] ∧
      s'.frameAt (vpage s.cr3 v) = some (pageOf page) ∧ Tabled s s' D v := by
  refine (hl.pageTableAdd_cases hcr page htab).mono fun s' h => ?_
  obtain ⟨s2, hinst, hfree, rfl⟩ := h
  have hr := hinst.ready hl ho hcr hv
  have hcr2 : D s2.cr3 := hr.cr3 ▸ hcr
  have hnotD : ¬ D (s2.tableOf v) :=
    (hr.layout.isTable ⟨s2.cr3, hcr2, dirIdx v, hv, hr.present, rfl⟩).2
  have henter := hr.owned.enter_keeps hr.layout hcr2 hv (hr.cr3 ▸ hlow) hr.present hfree page
  have hframe := hr.layout.entered_frameAt hcr2 hv hr.present page
  rw [hr.cr3] at henter hframe
  exact ⟨hr.keeps.trans henter fun _ h => h, hframe, hr.tabled.setWord hnotD _ _⟩

end Add

/-- The pages `N` have been added to those that are owned. -/
structure PagesAdded (s s' : Memory) (D : Frame → Prop) (g : VPage → Frame) (L H N : List VPage) : Prop where
  layout : Layout s' D
  owned : Owned s' D g (N ++ L) H
  steady : Steady s s'
  grew : Grew s s' D (L ++ H) N

section Pages

variable {s s1 s2 s' : Memory} {D : Frame → Prop} {g : VPage → Frame} {L H N N' : List VPage}
  {v : Addr} {pf : PoolFlag} {p' : Pool} {cnt : Nat} {P : Addr → Prop}

theorem PagesAdded.refl (hl : Layout s D) (ho : Owned s D g L H) : PagesAdded s s D g L H [] :=
  ⟨hl, ho, .refl s, .refl s D _⟩

theorem PagesAdded.trans (h : PagesAdded s s1 D g L H N) (h' : PagesAdded s1 s2 D g (N ++ L) H N') :
    PagesAdded s s2 D g L H (N' ++ N) := by
  have hg := h'.grew
  rw [List.append_assoc N L H] at hg
  refine ⟨h'.layout, ?_, h.steady.trans h'.steady, h.grew.trans hg⟩
  rw [List.append_assoc]
  exact h'.owned

theorem PagesAdded.perm (h : PagesAdded s s' D g L H N) (hp : N.Perm N') : PagesAdded s s' D g L H N' := by
  obtain ⟨hl, ho, hst, ⟨hframe, hdata, hproper⟩, htaken, hfresh⟩ := h
  refine ⟨hl, ho.perm (hp.append_right L), hst, ⟨hframe, hdata, fun k hk hN => ?_⟩, htaken,
    fun k hk => hfresh k (hp.mem_iff.mpr hk)⟩
  exact hproper k hk fun hmem => hN (hp.mem_iff.mp hmem)

/-- Nothing is mapped by a change of the bitmaps. -/
theorem OnlyBitmaps.added (h : OnlyBitmaps s s') (hl : Layout s D) (ho : Owned s D g L H) :
    PagesAdded s s' D g L H [] := by
  have hframe : ∀ k, s'.frameAt k = s.frameAt k := fun k => by
    rw [Memory.frameAt, h.machine]
    rfl
  refine ⟨h.layout hl, h.owned ho, h.toSteady, ⟨fun k _ => hframe k, fun _ _ _ _ _ => ?_,
    fun k _ _ => hframe k⟩, fun f hf => ?_, fun _ hm => absurd hm List.not_mem_nil⟩
  · rw [h.machine]
  · rw [Memory.Taken, h.kernelPool, h.userPool]
    exact hf

/-- One page: a frame is taken and entered for `v`. -/
theorem Owned.addPage_added (hl : Layout s D) (ho : Owned s D g L H) (hcr : D s.cr3)
    (hv : dirIdx v ≠ 1023) (hlow : dirIdx v < 768 → s.cr3 ≠ kernelDir) {page : Addr}
    (hpage : palloc (s.pool pf) = .ok (some page, p')) (htab : TableFound (s.setPool pf p') v) :
    Returns (GwOS.pageTableAdd (s.setPool pf p') v page) fun s' =>
      PagesAdded s s' D g L H [vpage s.cr3 v] ∧ Tabled (s.setPool pf p') s' D v ∧
        s'.frameAt (vpage s.cr3 v) = some (pageOf page) := by
  obtain ⟨-, ht⟩ := palloc_took (hl.poolOk pf) hpage
  obtain ⟨hl1, ho1, hsp⟩ := hl.took ho ht
  have hm1 : (s.setPool pf p').toMachine = s.toMachine := by cases pf <;> rfl
  have hsteady := Steady.setPool s pf p'
  intro s' h'
  obtain ⟨hl', ho', hst'⟩ := Owned.addPage hl ho hcr hv hpage htab s' h'
  have hmono : ∀ f, s.Taken f → (s.setPool pf p').Taken f := by
    intro f hf
    cases pf with
    | kernel => exact hf.imp_left fun hk => (ht.taken f).mpr (.inl hk)
    | user => exact hf.imp_right fun hu => (ht.taken f).mpr (.inl hu)
  generalize s.setPool pf p' = s1 at *
  obtain ⟨hkeeps, hnew, htabled⟩ := Owned.pageTableAdd_keeps hl1 ho1 (hsteady.cr3 ▸ hcr) hv
    (hsteady.cr3 ▸ hlow) page htab s' h'
  rw [hsteady.cr3] at hkeeps hnew
  have hframe1 : ∀ k, s1.frameAt k = s.frameAt k := fun k => by
    rw [Memory.frameAt, hm1]
    rfl
  refine ⟨⟨hl', ho', hst', ⟨fun k hk => ?_, fun k hk f hf hD => ?_, fun k hk hN => ?_⟩,
    fun f hf => ?_, fun k hk f hf => ?_⟩, htabled, hnew⟩
  · exact (hkeeps.frame k hk).trans (hframe1 k)
  · have hmem := hkeeps.data k hk f ((hframe1 k).trans hf) hD
    rw [hmem, hm1]
  · exact (hkeeps.proper k hk hN).trans (hframe1 k)
  · -- a new table takes a frame more
    have hf1 := hmono f hf
    by_cases hp : Present (s1.pde v)
    · rw [Memory.Taken, htabled.userPool, (htabled.here hp).1]
      exact hf1
    · obtain ⟨t, htook, -⟩ := htabled.new hp
      rw [Memory.Taken, htabled.userPool]
      exact hf1.imp_left fun hk => (htook.taken f).mpr (.inl hk)
  · rw [List.mem_singleton.mp hk, hnew] at hf
    cases hf
    exact hl.not_taken ht

/-- **The loop of `malloc_page`**, also when it stops. -/
theorem mallocLoop_added (cnt : Nat) (hl : Layout s D) (ho : Owned s D g L H) (hcr : D s.cr3)
    (hend : v.toNat + cnt * pgSize ≤ 0xffc00000) (hlow : s.cr3 = kernelDir → 0xc0000000 ≤ v.toNat)
    (htab : LoopTablesFound pf cnt v s) :
    Returns (mallocLoop pf cnt v s) fun r => ∃ N, PagesAdded s r.2 D g L H N ∧ N ⊆ vpages s.cr3 cnt v ∧
      (r.1 = true → N = vpages s.cr3 cnt v) := by
  induction cnt generalizing s L v with
  | zero => exact .ok ⟨[], .refl hl ho, List.Subset.refl _, fun _ => rfl⟩
  | succ cnt ih =>
    unfold mallocLoop
    obtain ⟨r, p', hpal, hr⟩ := palloc_ok (hl.poolOk pf)
    rw [hpal]
    rcases hr with ⟨rfl, rfl⟩ | ⟨page, rfl, -, ht⟩
    · have hsame : s.setPool pf (s.pool pf) = s := by cases pf <;> rfl
      show Returns (.ok (false, s.setPool pf (s.pool pf))) _
      rw [hsame]
      exact .ok ⟨[], .refl hl ho, List.nil_subset _, by rintro ⟨⟩⟩
    · obtain ⟨htab1, hrest⟩ := htab page p' hpal
      have hlt : v.toNat < 0xffc00000 := by
        unfold pgSize at hend
        omega
      have hlow1 : dirIdx v < 768 → s.cr3 ≠ kernelDir := fun hidx he => by
        have hidx' : (dirIdx v).toNat < 768 := hidx
        rw [dirIdx_toNat] at hidx'
        have hge := hlow he
        omega
      show Returns (GwOS.pageTableAdd (s.setPool pf p') v page >>= fun s => _) _
      refine .bind (P := fun s1 => GwOS.pageTableAdd (s.setPool pf p') v page = .ok s1 ∧
        PagesAdded s s1 D g L H [vpage s.cr3 v])
        (fun s1 h1 => ⟨h1, (Owned.addPage_added hl ho hcr (dirIdx_ne_of_le hlt) hlow1 hpal htab1 s1 h1).1⟩)
        fun s1 h1 => ?_
      obtain ⟨hadd, hadded⟩ := h1
      have hcr1 := hadded.steady.cr3
      have hnext : s1.cr3 = kernelDir → 0xc0000000 ≤ (v + 0x1000).toNat := fun he => by
        have hge := hlow (hcr1 ▸ he)
        rw [BitVec.toNat_add]
        have h1 : (0x1000 : Addr).toNat = 0x1000 := rfl
        unfold pgSize at hend
        omega
      refine (ih hadded.layout hadded.owned (hcr1 ▸ hcr) (next_toNat hend) hnext (hrest s1 hadd)).mono
        fun r2 h2 => ?_
      obtain ⟨N, hN, hsub, hdone⟩ := h2
      rw [hcr1] at hsub hdone
      refine ⟨vpage s.cr3 v :: N, (hadded.trans hN).perm ?_, ?_, fun hr => ?_⟩
      · exact List.perm_append_comm
      · exact List.cons_subset_cons _ hsub
      · rw [hdone hr]
        rfl

/-! ## Contents -/

/-- Some of the pages that hold data are written. -/
theorem Owned.write (hl : Layout s D) (ho : Owned s D g L H) (hN : N ⊆ L) {m : Machine}
    (hm : ∀ f, (∀ k ∈ N, s.frameAt k ≠ some f) → m.mem f = s.mem f) :
    Layout { s with toMachine := m } D ∧ Owned { s with toMachine := m } D g L H ∧
      ∀ k, D k.1 → dirIdx (addrOf k.2 0) ≠ 1023 →
        ({ s with toMachine := m } : Memory).frameAt k = s.frameAt k := by
  have hdir : ∀ d, D d → ({ s with toMachine := m } : Memory).mem d = s.mem d := fun d hd =>
    hm d fun k hk hf => ho.loose k (hN hk) d hf hd
  have htables : ∀ t, IsTable s.toMachine D t →
      ({ s with toMachine := m } : Memory).mem t = s.mem t := by
    intro t hT
    refine hm t fun k hk hf => ?_
    obtain ⟨f, hf', -, htab⟩ := ho.mapped k (List.mem_append_left _ (hN hk))
    cases hf.symm.trans hf'
    exact htab hT
  have hframe : ∀ k, D k.1 → dirIdx (addrOf k.2 0) ≠ 1023 →
      ({ s with toMachine := m } : Memory).frameAt k = s.frameAt k := fun k hk hne =>
    frameAt_eq_of_tables hdir htables hk hne
  exact ⟨hl.congr hdir rfl rfl, ho.congr hdir (fun k hk => hframe k (ho.page k hk).1 (ho.page k hk).2)
    fun _ _ _ _ h => h, hframe⟩

theorem PagesAdded.write (h : PagesAdded s s1 D g L H N) {m : Machine} (hcr : m.cr3 = s1.cr3)
    (hm : ∀ f, (∀ k ∈ N, s1.frameAt k ≠ some f) → m.mem f = s1.mem f) :
    PagesAdded s { s1 with toMachine := m } D g L H N := by
  obtain ⟨hl, ho, hframe⟩ := Owned.write h.layout h.owned (List.subset_append_left N L) hm
  have hpage : ∀ k ∈ L ++ H, k ∈ (N ++ L) ++ H := fun k hk => by
    rw [List.append_assoc]
    exact List.mem_append_right _ hk
  have hsame : ∀ k ∈ (N ++ L) ++ H, ({ s1 with toMachine := m } : Memory).frameAt k = s1.frameAt k :=
    fun k hk => hframe k (h.owned.page k hk).1 (h.owned.page k hk).2
  refine ⟨hl, ho, h.steady.trans ⟨hcr, rfl, rfl, rfl, rfl, fun _ => rfl⟩, ⟨fun k hk => ?_,
    fun k hk f hf hD => ?_, fun k hk hN => ?_⟩, h.grew.taken, fun k hk f hf => ?_⟩
  · exact (hsame k (hpage k hk)).trans (h.grew.frame k hk)
  · rw [← h.grew.data k hk f hf hD]
    refine hm f fun k' hk' hf' => ?_
    -- the frames of the new pages are others
    have hf1 := (h.grew.frame k hk).trans hf
    have hk'' := List.mem_append_left H (List.mem_append_left L hk')
    cases h.owned.inj k' hk'' k (hpage k hk) (hf'.trans hf1.symm)
    have hnd := h.owned.nodup
    rw [List.append_assoc] at hnd
    exact (List.nodup_append'.mp hnd).2.2 hk' hk
  · exact (hframe k hk.dir hk.window).trans (h.grew.proper k hk hN)
  · rw [hsame k (List.mem_append_left H (List.mem_append_left L hk))] at hf
    exact h.grew.fresh k hk f hf

/-! ## The operations -/

/-- A page is among those from `v` on when it is one of `cnt`. -/
theorem mem_vpages {d : Frame} {k : VPage} : ∀ {cnt : Nat} {v : Addr}, k ∈ vpages d cnt v →
    ∃ i < cnt, k = vpage d (v + BitVec.ofNat 32 (i * pgSize))
  | 0, _, h => absurd h List.not_mem_nil
  | cnt + 1, v, h => by
    rcases List.mem_cons.mp h with rfl | h
    · refine ⟨0, Nat.succ_pos cnt, ?_⟩
      rw [Nat.zero_mul]
      exact congrArg _ (BitVec.add_zero v).symm
    · obtain ⟨i, hi, rfl⟩ := mem_vpages h
      refine ⟨i + 1, Nat.succ_lt_succ hi, congrArg _ ?_⟩
      apply BitVec.eq_of_toNat_eq
      have h1 : (0x1000 : Addr).toNat = 0x1000 := rfl
      unfold pgSize
      simp only [BitVec.toNat_add, BitVec.toNat_ofNat, h1]
      omega

/-- **`malloc_page`**, also when it fails in the middle: the pages that it has entered are
among those that `vaddr_get` has found. -/
theorem mallocPage_added (hl : Layout s D) (ho : Owned s D g L H) (hcr : D s.cr3)
    (hva : VaddrsOk s P) (hrun : P s.running) (hcnt : 1 ≤ cnt) (hlt : cnt < (s.vaddrBitmap pf).len)
    (htab : MallocTablesFound s pf cnt) (huser : pf = .user → s.cr3 ≠ kernelDir) :
    Returns (mallocPage s pf cnt) fun r => ∃ N, PagesAdded s r.2 D g L H N ∧
      ((vaddrGet s pf cnt = .ok (none, r.2) ∧ N = []) ∨ ∃ v s1, vaddrGet s pf cnt = .ok (some v, s1) ∧
        N ⊆ vpages s.cr3 cnt v ∧ SameRecords s1 r.2) ∧
      ∀ v, r.1 = some v → N = vpages s.cr3 cnt v := by
  have hrange := hva.range hrun pf
  have hlen : (s.vaddrBitmap pf).len < 2 ^ 32 := by
    unfold pgSize at hrange
    omega
  intro r hr
  rcases mallocPage_cases s pf cnt r hr with ⟨hget, hnone⟩ | ⟨v, s1, done, hget, hloop, hv⟩
  · obtain ⟨hb, -⟩ := vaddrGet_returns hcnt hlt hlen _ hget
    refine ⟨[], hb.added hl ho, .inl ⟨hget, rfl⟩, fun v hv => ?_⟩
    rw [hnone] at hv
    cases hv
  · obtain ⟨hb, hpos⟩ := vaddrGet_returns hcnt hlt hlen _ hget
    obtain ⟨idx, hidx, hvaddr⟩ := hpos v rfl
    have hnat : v.toNat = (s.vaddrStart pf).toNat + idx * pgSize := by
      rw [hvaddr, BitVec.toNat_add, BitVec.toNat_ofNat]
      unfold pgSize at *
      omega
    have hwin : v.toNat + cnt * pgSize ≤ 0xffc00000 := by
      unfold pgSize at *
      omega
    have hlow : s1.cr3 = kernelDir → 0xc0000000 ≤ v.toNat := by
      intro he
      cases pf with
      | kernel =>
        have hhigh : 0xc0000000 ≤ (s.vaddrStart .kernel).toNat := hva.high
        omega
      | user => exact absurd (hb.cr3 ▸ he) (huser rfl)
    have hadd := hb.added hl ho
    obtain ⟨N, hN, hsub, hdone⟩ := mallocLoop_added cnt hadd.layout hadd.owned (hb.cr3 ▸ hcr) hwin
      hlow (htab v s1 hget) _ hloop
    rw [hb.cr3] at hsub hdone
    refine ⟨N ++ [], hadd.trans hN, .inr ⟨v, s1, hget, ?_, mallocLoop_same s1 pf cnt v _ hloop⟩,
      fun w hw => ?_⟩
    · rw [List.append_nil]
      exact hsub
    · rw [List.append_nil]
      cases done with
      | false =>
        rw [hv] at hw
        cases hw
      | true =>
        rw [hv] at hw
        cases hw
        exact hdone rfl

/-- **`get_kernel_pages`** when it succeeds. -/
theorem getKernelPages_added (hl : Layout s D) (ho : Owned s D g L H) (hcr : D s.cr3)
    (hva : VaddrsOk s P) (hrun : P s.running) (hcnt : 1 ≤ cnt)
    (hlt : cnt < s.kernelVaddr.vaddrBitmap.len) :
    Returns (getKernelPages s cnt) fun r => ∀ v, r.1 = some v →
      PagesAdded s r.2 D g L H (vpages kernelDir cnt v) := by
  unfold getKernelPages getPages
  have hlt' : cnt < (s.vaddrBitmap .kernel).len := hlt
  have htab := mallocTablesFound_kernel hl ho hcr hva hcnt hlt
  refine .bind (P := fun r => mallocPage s .kernel cnt = .ok r) .any fun r hr => ?_
  obtain ⟨N, hadd, -, hN⟩ := mallocPage_added hl ho hcr hva hrun hcnt hlt' htab nofun r hr
  obtain ⟨-, -, hrange⟩ := mallocPage_keeps hl ho hcr hva hrun hcnt hlt' htab r hr
  obtain ⟨v, s1⟩ := r
  cases v with
  | none => exact .ok nofun
  | some v =>
    obtain ⟨-, hlow, -, hend⟩ := hrange
    rw [hN v rfl] at hadd
    have hkernel := hva.kernel
    have hhigh : 0xc0000000 ≤ v.toNat := Nat.le_trans hva.high hlow
    have hwin : v.toNat + cnt * pgSize ≤ 0xffc00000 := by
      have hend' : v.toNat + cnt * pgSize ≤
        s.kernelVaddr.vaddrStart.toNat + s.kernelVaddr.vaddrBitmap.len * pgSize := hend
      unfold pgSize at *
      omega
    have hmem : ∀ k ∈ vpages s1.cr3 cnt v, k ∈ vpages s.cr3 cnt v ++ L := fun k hk =>
      List.mem_append_left _ (hadd.steady.cr3 ▸ hk)
    obtain ⟨m, hm, hcr3, -, -, -, -, -, hother⟩ := clearPages_ok cnt hadd.layout hadd.owned
      (hadd.steady.cr3 ▸ hcr) hmem
    show Returns (clearPages cnt v s1.toMachine >>= fun m => .ok (some v, { s1 with toMachine := m })) _
    rw [hm]
    refine .ok fun w hw => ?_
    cases hw
    rw [← vpages_kernel s.cr3 cnt hhigh hwin]
    refine hadd.write hcr3 fun f hf => hother f fun k hk => ?_
    exact hf k (hadd.steady.cr3 ▸ hk)

/-- **`get_one_page_no_bitmap`** when it succeeds. -/
theorem getOnePageNoBitmap_added (hl : Layout s D) (ho : Owned s D g L H) (hcr : D s.cr3)
    (hv : dirIdx v ≠ 1023) (hlow : dirIdx v < 768 → s.cr3 ≠ kernelDir)
    (htab : LoopTablesFound pf 1 v s) :
    Returns (getOnePageNoBitmap s pf v) fun r =>
      (r.1 = none ∧ r.2 = s) ∨ (r.1 = some v ∧ PagesAdded s r.2 D g L H [vpage s.cr3 v]) := by
  unfold getOnePageNoBitmap
  obtain ⟨r, p', hpal, hr⟩ := palloc_ok (hl.poolOk pf)
  rw [hpal]
  rcases hr with ⟨rfl, rfl⟩ | ⟨page, rfl, -, ht⟩
  · have hsame : s.setPool pf (s.pool pf) = s := by cases pf <;> rfl
    exact .ok (.inl ⟨rfl, hsame⟩)
  · show Returns (GwOS.pageTableAdd (s.setPool pf p') v page >>= fun s => .ok (some v, s)) _
    refine .bind (Owned.addPage_added hl ho hcr hv hlow hpal (htab page p' hpal).1) fun s1 h1 => ?_
    exact .ok (.inr ⟨rfl, h1.1⟩)

/-! ## Release -/

/-- The entry of a page of a live allocation is cleared. -/
theorem Owned.removePage_keeps (hl : Layout s D) (ho : Owned s D g (vpage s.cr3 v :: L) H)
    (hcr : D s.cr3) (hv : dirIdx v ≠ 1023) (hlow : dirIdx v < 768 → s.cr3 ≠ kernelDir) (a : Addr) :
    Returns (pfree s a >>= fun s => pageTablePteRemove s v) fun s' =>
      KeepsPages s s' D (L ++ H) [vpage s.cr3 v] ∧ s'.frameAt (vpage s.cr3 v) = none ∧
        ∀ d, D d → s'.mem d = s.mem d := by
  unfold pfree
  dsimp only
  rw [bind_assoc]
  refine .bind .any fun mp _ => ?_
  generalize hpf : (if s.userPool.phyAddrStart ≤ a then PoolFlag.user else .kernel) = pf
  have hm1 : (s.setPool pf { s.pool pf with poolBitmap := mp }).toMachine = s.toMachine := by
    cases pf <;> rfl
  show Returns (pageTablePteRemove (s.setPool pf { s.pool pf with poolBitmap := mp }) v) _
  generalize s.setPool pf { s.pool pf with poolBitmap := mp } = s1 at hm1
  have hmem : vpage s.cr3 v ∈ (vpage s.cr3 v :: L) ++ H := List.mem_cons_self ..
  obtain ⟨f, hf, -⟩ := ho.mapped _ hmem
  have hself : SelfMapped s1.toMachine := hm1 ▸ hl.selfMapped hcr
  have hproper := hl.proper_vpage hcr hv hlow
  have hslot := hl.slotAt_vpage hcr hv
  obtain ⟨hpkey, hpte, -⟩ := Memory.present_of_frameAt hf
  have hp : Present (s.pde v) := (hl.pdeAt hcr hv).1.mp hpkey
  have htable : IsTable s.toMachine D (s.tableOf v) := ⟨s.cr3, hcr, dirIdx v, hv, hp, rfl⟩
  have hnotD : ¬ D (s.tableOf v) := (hl.isTable htable).2
  have hp1 : Present (s1.pde v) := by
    rw [hm1]
    exact hp
  rw [pageTablePteRemove]
  simp only [hself.load_ptePtr hp1, hself.store_ptePtr hp1, bind, Except.bind]
  have hwrite : s1.setWord (s1.tableOf v) (tabIdx v) (s1.pte v &&& ~~~1) =
      s.setWord (s.tableOf v) (tabIdx v) (s.pte v &&& ~~~1) := by rw [hm1]
  rw [hwrite]
  -- the word that is written is the slot of the page
  have hframe : ∀ k, (Present (s.pdeAt k) → D k.1 ∧ s.slotAt k ≠ s.slotAt (vpage s.cr3 v)) → D k.1 →
      ({ s1 with toMachine := s.setWord (s.tableOf v) (tabIdx v) (s.pte v &&& ~~~1) } :
        Memory).frameAt k = s.frameAt k := by
    intro k hk hkD
    obtain ⟨-, hkeep⟩ := hl.setWord hnotD (tabIdx v) (s.pte v &&& ~~~1)
    refine (hkeep k hkD fun hpk => ?_)
    rw [← hslot]
    exact (hk hpk).2
  refine .ok ⟨⟨fun k hk => ?_, fun k hk f' hf' _ => ?_, fun k hk hN => ?_⟩, ?_,
    fun d hd => s.setFrame_mem_ne _ fun he => hnotD (he ▸ hd)⟩
  · refine hframe k (fun hpk => ⟨(ho.page k (List.mem_cons_of_mem _ hk)).1, fun he => ?_⟩)
      (ho.page k (List.mem_cons_of_mem _ hk)).1
    obtain ⟨f', hf', -⟩ := ho.mapped k (List.mem_cons_of_mem _ hk)
    obtain ⟨-, -, hpage'⟩ := Memory.present_of_frameAt hf'
    obtain ⟨-, -, hpage⟩ := Memory.present_of_frameAt hf
    rw [he, hpage] at hpage'
    have hkv := ho.inj k (List.mem_cons_of_mem _ hk) _ hmem (by rw [hf', hf, hpage'])
    exact (List.nodup_cons.mp ho.nodup).1 (hkv ▸ hk)
  · obtain ⟨f0, hf0, -, hntab⟩ := ho.mapped k (List.mem_cons_of_mem _ hk)
    cases hf'.symm.trans hf0
    exact s.setFrame_mem_ne _ fun he => hntab (he ▸ htable)
  · refine hframe k (fun hpk => ⟨hk.dir, fun he => hN ?_⟩) hk.dir
    rw [hl.slotAt_inj hk hproper hpk hpkey he]
    exact List.mem_singleton.mpr rfl
  · generalize hs2 : ({ s1 with
      toMachine := s.setWord (s.tableOf v) (tabIdx v) (s.pte v &&& ~~~1) } : Memory) = s2
    have hpde2 : s2.pdeAt (vpage s.cr3 v) = s.pdeAt (vpage s.cr3 v) := by
      rw [← hs2]
      refine congrFun (s.setFrame_mem_ne _ fun he : (vpage s.cr3 v).1 = s.tableOf v => ?_) _
      exact hnotD (he ▸ hproper.dir)
    have hslot2 : s2.slotAt (vpage s.cr3 v) = (s.tableOf v, tabIdx v) := by
      rw [Memory.slotAt, hpde2]
      exact hslot
    have hword : s2.mem (s.tableOf v) (tabIdx v) = s.pte v &&& ~~~1 := by
      rw [← hs2]
      exact s.setWord_mem_self ..
    rw [Memory.frameAt_eq, hslot2, hword, if_neg]
    rintro ⟨-, hpres⟩
    rw [Present, BitVec.getLsbD_and] at hpres
    simp at hpres

/-- The pages `N`, which were owned, are mapped no more. -/
structure PagesRemoved (s s' : Memory) (D : Frame → Prop) (g : VPage → Frame) (L H N : List VPage) :
    Prop where
  layout : Layout s' D
  owned : Owned s' D g L H
  steady : Steady s s'
  keeps : KeepsPages s s' D (L ++ H) N
  gone : ∀ k ∈ N, s'.frameAt k = none
  dirs : ∀ d, D d → s'.mem d = s.mem d

/-- **The loops of `mfree_page`.** -/
theorem mfreeLoop_removed (cnt : Nat) (hl : Layout s D)
    (ho : Owned s D g (vpages s.cr3 cnt v ++ L) H) (hcr : D s.cr3)
    (hend : v.toNat + cnt * pgSize ≤ 0xffc00000) (hlow : s.cr3 = kernelDir → 0xc0000000 ≤ v.toNat) :
    Returns (mfreeLoop pf cnt v s) fun s' => PagesRemoved s s' D g L H (vpages s.cr3 cnt v) := by
  induction cnt generalizing s v with
  | zero => exact .ok ⟨hl, ho, .refl s, .refl s D _, nofun, fun _ _ => rfl⟩
  | succ cnt ih =>
    have hlt : v.toNat < 0xffc00000 := by
      unfold pgSize at hend
      omega
    have hv := dirIdx_ne_of_le hlt
    have hlow1 : dirIdx v < 768 → s.cr3 ≠ kernelDir := fun hidx he => by
      have hidx' : (dirIdx v).toNat < 768 := hidx
      rw [dirIdx_toNat] at hidx'
      have hge := hlow he
      omega
    have hproper := hl.proper_vpage hcr hv hlow1
    unfold mfreeLoop
    refine .bind .any fun a ha => ?_
    split
    · next hcheck =>
      rw [← bind_assoc]
      refine .bind (P := fun s1 => Layout s1 D ∧ Owned s1 D g (vpages s.cr3 cnt (v + 0x1000) ++ L) H ∧
          Steady s s1 ∧ KeepsPages s s1 D ((vpages s.cr3 cnt (v + 0x1000) ++ L) ++ H) [vpage s.cr3 v] ∧
          s1.frameAt (vpage s.cr3 v) = none ∧ ∀ d, D d → s1.mem d = s.mem d) (fun s1 h1 => ?_)
        fun s1 h1 => ?_
      · obtain ⟨hl1, ho1, hst1⟩ := Owned.removePage hl ho hcr hv ha hcheck.1 s1 h1
        obtain ⟨hk1, hnone, hdirs⟩ := Owned.removePage_keeps hl ho hcr hv hlow1 a s1 h1
        exact ⟨hl1, ho1, hst1, hk1, hnone, hdirs⟩
      · obtain ⟨hl1, ho1, hst1, hk1, hnone, hdirs⟩ := h1
        have hcr1 := hst1.cr3
        have hnext : s1.cr3 = kernelDir → 0xc0000000 ≤ (v + 0x1000).toNat := fun he => by
          have hge := hlow (hcr1 ▸ he)
          rw [BitVec.toNat_add]
          have h1 : (0x1000 : Addr).toNat = 0x1000 := rfl
          unfold pgSize at hend
          omega
        rw [← hcr1] at ho1
        refine (ih hl1 ho1 (hcr1 ▸ hcr) (next_toNat hend) hnext).mono fun s2 h2 => ?_
        have hgone := h2.gone
        have hkeeps := h2.keeps
        rw [hcr1] at hgone hkeeps
        have hsub : L ++ H ⊆ (vpages s.cr3 cnt (v + 0x1000) ++ L) ++ H := fun k hk => by
          rw [List.append_assoc]
          exact List.mem_append_right _ hk
        have hall := (hk1.mono hsub).trans hkeeps (List.Subset.refl _)
        refine ⟨h2.layout, h2.owned, hst1.trans h2.steady, ⟨hall.frame, hall.data,
          fun k hk hN => hall.proper k hk fun hmem => hN ?_⟩, fun k hk => ?_,
          fun d hd => (h2.dirs d hd).trans (hdirs d hd)⟩
        · exact (List.perm_append_comm.mem_iff (a := k)).mp hmem
        · by_cases hrest : k ∈ vpages s.cr3 cnt (v + 0x1000)
          · exact hgone k hrest
          · rcases List.mem_cons.mp hk with rfl | hk
            · rw [hkeeps.proper _ hproper hrest]
              exact hnone
            · exact absurd hk hrest
    · exact .error _

theorem mfreePage_removed (hl : Layout s D) (ho : Owned s D g (vpages s.cr3 cnt v ++ L) H)
    (hcr : D s.cr3) (hend : v.toNat + cnt * pgSize ≤ 0xffc00000)
    (hlow : s.cr3 = kernelDir → 0xc0000000 ≤ v.toNat) :
    Returns (mfreePage s pf v cnt) fun s' => PagesRemoved s s' D g L H (vpages s.cr3 cnt v) := by
  unfold mfreePage
  split
  · refine .bind .any fun a _ => ?_
    split
    · refine .bind (mfreeLoop_removed cnt hl ho hcr hend hlow) fun s1 h1 => ?_
      refine (vaddrRemove_returns s1 pf v cnt).mono fun s2 hb => ?_
      have hframe : ∀ k, s2.frameAt k = s1.frameAt k := fun k => by
        rw [Memory.frameAt, hb.machine]
        rfl
      refine ⟨hb.layout h1.layout, hb.owned h1.owned, h1.steady.trans hb.toSteady, ⟨fun k hk => ?_,
        fun k hk f hf hD => ?_, fun k hk hN => ?_⟩, fun k hk => ?_, fun d hd => ?_⟩
      · exact (hframe k).trans (h1.keeps.frame k hk)
      · rw [hb.machine]
        exact h1.keeps.data k hk f hf hD
      · exact (hframe k).trans (h1.keeps.proper k hk hN)
      · exact (hframe k).trans (h1.gone k hk)
      · rw [hb.machine]
        exact h1.dirs d hd
    · exact .error _
  · exact .error _

end Pages

end GwOS
