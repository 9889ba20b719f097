import GwOS.Kernel.Effects

/-!
# Entries of page tables

Two pages of different directories, and in the directory of the kernel even two addresses, may be
mapped through one entry of a page table. What a loop over pages does to *all* translations is
therefore said in terms of entries: `Entered` says which pages have got a frame, `Emptied` which
have lost it, and `Entered.emptied` that the one undoes the other. `mallocLoop_entered` and
`mfreeLoop_emptied` follow the frames through the two loops of `memory.c` as sets.
-/

namespace GwOS

/-! ## Pages with one entry -/

/-- The page lies below the window of the page tables, and belongs to one of the directories. -/
def Mappable (D : Frame → Prop) (k : VPage) : Prop := D k.1 ∧ dirIdx (addrOf k.2 0) ≠ 1023

/-- The two pages are mapped through one entry of a page table. -/
def Memory.SameSlot (s : Memory) (k n : VPage) : Prop :=
  Present (s.pdeAt k) ∧ s.slotAt k = s.slotAt n

/-- The entries of the pages `N` have been filled in: what is mapped through one of them was not
mapped before, and nothing else has changed. -/
structure Entered (s s' : Memory) (D : Frame → Prop) (N : List VPage) : Prop where
  pde : ∀ k, Mappable D k → Present (s.pdeAt k) → s'.pdeAt k = s.pdeAt k
  absent : ∀ k, Mappable D k → (∃ n ∈ N, s'.SameSlot k n) → s.frameAt k = none
  other : ∀ k, Mappable D k → (¬ ∃ n ∈ N, s'.SameSlot k n) → s'.frameAt k = s.frameAt k

/-- The entries of the pages `N` have been cleared. -/
structure Emptied (s s' : Memory) (D : Frame → Prop) (N : List VPage) : Prop where
  dirs : ∀ d, D d → s'.mem d = s.mem d
  gone : ∀ k, Mappable D k → (∃ n ∈ N, s.SameSlot k n) → s'.frameAt k = none
  other : ∀ k, Mappable D k → (¬ ∃ n ∈ N, s.SameSlot k n) → s'.frameAt k = s.frameAt k

section Slots

variable {s s' s1 s2 : Memory} {D : Frame → Prop} {g : VPage → Frame} {L H N N' : List VPage}
  {k n : VPage} {v : Addr} {f : Frame} {pf : PoolFlag} {p' : Pool}

theorem Memory.none_of_pdeAt (h : ¬ Present (s.pdeAt k)) : s.frameAt k = none := by
  rw [Memory.frameAt_eq, if_neg fun hb => h hb.1]

theorem Memory.SameSlot.congr (hk : s'.pdeAt k = s.pdeAt k) (hn : s'.pdeAt n = s.pdeAt n) :
    s'.SameSlot k n ↔ s.SameSlot k n := by
  rw [SameSlot, SameSlot, slotAt, slotAt, slotAt, slotAt, hk, hn]

theorem Entered.refl (s : Memory) (D : Frame → Prop) : Entered s s D [] :=
  ⟨fun _ _ _ => rfl, fun _ _ h => absurd h.choose_spec.1 List.not_mem_nil, fun _ _ _ => rfl⟩

theorem Entered.trans (h : Entered s s1 D N) (h' : Entered s1 s2 D N')
    (hN : ∀ n ∈ N, Mappable D n ∧ Present (s1.pdeAt n)) : Entered s s2 D (N ++ N') := by
  -- a page that shares an entry with one of `N` does so before the second step
  have hback : ∀ k, Mappable D k → Present (s1.pdeAt k) → ∀ n ∈ N,
      (s2.SameSlot k n ↔ s1.SameSlot k n) := fun k hk hp n hn =>
    Memory.SameSlot.congr (h'.pde k hk hp) (h'.pde n (hN n hn).1 (hN n hn).2)
  refine ⟨fun k hk hp => ?_, fun k hk hslot => ?_, fun k hk hno => ?_⟩
  · have h1 := h.pde k hk hp
    exact (h'.pde k hk (h1 ▸ hp)).trans h1
  · obtain ⟨n, hn, hsame⟩ := hslot
    by_cases hall : s1.frameAt k = none
    · by_cases hold : ∃ n ∈ N, s1.SameSlot k n
      · exact h.absent k hk hold
      · rw [← h.other k hk hold, hall]
    · rcases List.mem_append.mp hn with hn | hn
      · have hp : Present (s1.pdeAt k) := by
          by_contra hno
          exact hall (Memory.none_of_pdeAt hno)
        exact h.absent k hk ⟨n, hn, (hback k hk hp n hn).mp hsame⟩
      · exact absurd (h'.absent k hk ⟨n, hn, hsame⟩) hall
  · have hno2 : ¬ ∃ n ∈ N', s2.SameSlot k n := fun ⟨n, hn, hsame⟩ =>
      hno ⟨n, List.mem_append_right _ hn, hsame⟩
    have hno1 : ¬ ∃ n ∈ N, s1.SameSlot k n := fun ⟨n, hn, hsame⟩ =>
      hno ⟨n, List.mem_append_left _ hn, (hback k hk hsame.1 n hn).mpr hsame⟩
    exact (h'.other k hk hno2).trans (h.other k hk hno1)

/-- A page that was mapped stays where it is. -/
theorem Entered.keeps (h : Entered s s' D N) (hk : Mappable D k) (hf : s.frameAt k = some f) :
    s'.frameAt k = some f := by
  rw [h.other k hk fun hslot => ?_, hf]
  rw [h.absent k hk hslot] at hf
  cases hf

theorem Emptied.refl (s : Memory) (D : Frame → Prop) : Emptied s s D [] :=
  ⟨fun _ _ => rfl, fun _ _ h => absurd h.choose_spec.1 List.not_mem_nil, fun _ _ _ => rfl⟩

theorem Emptied.sameSlot (h : Emptied s s' D N) (hk : Mappable D k) (hn : Mappable D n) :
    s'.SameSlot k n ↔ s.SameSlot k n :=
  Memory.SameSlot.congr (congrFun (h.dirs _ hk.1) _) (congrFun (h.dirs _ hn.1) _)

theorem Emptied.trans (h : Emptied s s1 D N) (h' : Emptied s1 s2 D N') (hN' : ∀ n ∈ N', Mappable D n) :
    Emptied s s2 D (N ++ N') := by
  refine ⟨fun d hd => (h'.dirs d hd).trans (h.dirs d hd), fun k hk hslot => ?_, fun k hk hno => ?_⟩
  · by_cases hlater : ∃ n ∈ N', s1.SameSlot k n
    · exact h'.gone k hk hlater
    · obtain ⟨n, hn, hsame⟩ := hslot
      rw [h'.other k hk hlater]
      rcases List.mem_append.mp hn with hn | hn
      · exact h.gone k hk ⟨n, hn, hsame⟩
      · exact absurd ⟨n, hn, (h.sameSlot hk (hN' n hn)).mpr hsame⟩ hlater
  · have hno1 : ¬ ∃ n ∈ N, s.SameSlot k n := fun ⟨n, hn, hsame⟩ =>
      hno ⟨n, List.mem_append_left _ hn, hsame⟩
    have hno2 : ¬ ∃ n ∈ N', s1.SameSlot k n := fun ⟨n, hn, hsame⟩ =>
      hno ⟨n, List.mem_append_right _ hn, (h.sameSlot hk (hN' n hn)).mp hsame⟩
    exact (h'.other k hk hno2).trans (h.other k hk hno1)

/-- **Filling in and clearing** the same entries leaves every page as it was. -/
theorem Entered.emptied (h : Entered s s1 D N) (h' : Emptied s1 s2 D N) (hk : Mappable D k) :
    s2.frameAt k = s.frameAt k := by
  by_cases hslot : ∃ n ∈ N, s1.SameSlot k n
  · rw [h'.gone k hk hslot, h.absent k hk hslot]
  · rw [h'.other k hk hslot, h.other k hk hslot]

/-! ## One page -/

theorem Layout.mappable_vpage (h : Layout s D) (hd : D f) (hv : dirIdx v ≠ 1023) :
    Mappable D (vpage f v) := by
  refine ⟨h.vpage_mem hd, ?_⟩
  rw [dirIdx_vpage]
  exact hv

/-- A word of the table of `v` is written. -/
theorem Layout.setSlot (hl : Layout s D) (hcr : D s.cr3) (hv : dirIdx v ≠ 1023)
    (hp : Present (s.pde v)) (e : Addr) :
    (∀ d, D d → ({ s with toMachine := s.setWord (s.tableOf v) (tabIdx v) e } : Memory).mem d = s.mem d) ∧
      (∀ k, Mappable D k → ¬ s.SameSlot k (vpage s.cr3 v) →
        ({ s with toMachine := s.setWord (s.tableOf v) (tabIdx v) e } : Memory).frameAt k =
          s.frameAt k) ∧
      ∀ k, Mappable D k → s.SameSlot k (vpage s.cr3 v) →
        ({ s with toMachine := s.setWord (s.tableOf v) (tabIdx v) e } : Memory).frameAt k =
          if Present e then some (pageOf e) else none := by
  have hslot := hl.slotAt_vpage hcr hv
  have hnotD : ¬ D (s.tableOf v) := (hl.isTable ⟨s.cr3, hcr, dirIdx v, hv, hp, rfl⟩).2
  obtain ⟨-, hkeep⟩ := hl.setWord hnotD (tabIdx v) e
  have hdirs : ∀ d, D d → (s.setWord (s.tableOf v) (tabIdx v) e).mem d = s.mem d := fun d hd =>
    s.setFrame_mem_ne _ fun he => hnotD (he ▸ hd)
  refine ⟨hdirs, fun k hk hno => hkeep k hk.1 fun hpk he => hno ⟨hpk, he.trans hslot.symm⟩,
    fun k hk hsame => ?_⟩
  obtain ⟨hpk, he⟩ := hsame
  have hpde : ({ s with toMachine := s.setWord (s.tableOf v) (tabIdx v) e } : Memory).pdeAt k =
      s.pdeAt k := congrFun (hdirs _ hk.1) _
  have hword : (s.setWord (s.tableOf v) (tabIdx v) e).mem (s.tableOf v) (tabIdx v) = e :=
    s.setWord_mem_self ..
  rw [Memory.frameAt_eq, Memory.slotAt, hpde, show (pageOf (s.pdeAt k), tabIdx (addrOf k.2 0)) =
    (s.tableOf v, tabIdx v) from he.trans hslot]
  show (if Present (s.pdeAt k) ∧ Present ((s.setWord (s.tableOf v) (tabIdx v) e).mem _ _) then _ else _) = _
  rw [hword]
  simp only [hpk, true_and]

/-- **`page_table_add`** fills in the entry of the page. -/
theorem Owned.pageTableAdd_entered (hl : Layout s D) (ho : Owned s D g L H) (hcr : D s.cr3)
    (hv : dirIdx v ≠ 1023) (page : Addr) (htab : TableFound s v) :
    Returns (GwOS.pageTableAdd s v page) fun s' => Entered s s' D [vpage s.cr3 v] ∧
      s'.frameAt (vpage s.cr3 v) = some (pageOf page) ∧ Tabled s s' D v := by
  refine (hl.pageTableAdd_cases hcr page htab).mono fun s' h => ?_
  obtain ⟨s2, hinst, hfree, rfl⟩ := h
  have hr := hinst.ready hl ho hcr hv
  have hcr2 : D s2.cr3 := hr.cr3 ▸ hcr
  have hnotD : ¬ D (s2.tableOf v) :=
    (hr.layout.isTable ⟨s2.cr3, hcr2, dirIdx v, hv, hr.present, rfl⟩).2
  have hframe := hr.layout.entered_frameAt hcr2 hv hr.present page
  obtain ⟨hdirs, hother, -⟩ := hr.layout.setSlot hcr2 hv hr.present (tableEntry page)
  have hslot := hr.layout.slotAt_vpage hcr2 hv
  have htabled := hr.tabled.setWord hnotD (tabIdx v) (tableEntry page)
  generalize ({ s2 with
    toMachine := s2.setWord (s2.tableOf v) (tabIdx v) (tableEntry page) } : Memory) = s'
    at hframe hdirs hother htabled ⊢
  rw [← hr.cr3]
  have hpde : ∀ k, Mappable D k → s'.pdeAt k = s2.pdeAt k := fun k hk => congrFun (hdirs _ hk.1) _
  have hself := hr.layout.mappable_vpage hcr2 hv
  have hsame : ∀ k, Mappable D k → (s'.SameSlot k (vpage s2.cr3 v) ↔ s2.SameSlot k (vpage s2.cr3 v)) :=
    fun k hk => Memory.SameSlot.congr (hpde k hk) (hpde _ hself)
  refine ⟨⟨fun k hk hp => (hpde k hk).trans (hr.pde k hk.1 hp), fun k hk hk' => ?_,
    fun k hk hno => ?_⟩, hframe, htabled⟩
  · -- the entry was free
    obtain ⟨n, hn, hkn⟩ := hk'
    rw [List.mem_singleton.mp hn, hsame k hk] at hkn
    rw [← hr.frame k hk.1 hk.2, Memory.frameAt_eq, hkn.2, hslot, if_neg fun hb => hfree hb.2]
  · rw [hother k hk fun hkn => hno ⟨_, List.mem_singleton.mpr rfl, (hsame k hk).mpr hkn⟩]
    exact hr.frame k hk.1 hk.2

theorem Entered.of_machine (h : Entered s1 s' D N) (hm : s1.toMachine = s.toMachine) :
    Entered s s' D N := by
  have hframe : ∀ k, s1.frameAt k = s.frameAt k := fun k => by
    rw [Memory.frameAt, hm]
    rfl
  have hpde : ∀ k, s1.pdeAt k = s.pdeAt k := fun k => by
    rw [Memory.pdeAt, hm]
    rfl
  refine ⟨fun k hk hp => ?_, fun k hk hslot => ?_, fun k hk hno => ?_⟩
  · rw [← hpde k] at hp ⊢
    exact h.pde k hk hp
  · rw [← hframe k]
    exact h.absent k hk hslot
  · rw [← hframe k]
    exact h.other k hk hno

/-- The first page of four megabytes. -/
theorem dirIdx_area (i : BitVec 10) : dirIdx (addrOf (i ++ 0#10) 0) = i := by
  rw [dirIdx_eq, pageOf_addrOf]
  apply BitVec.eq_of_getLsbD_eq
  intro j hj
  rw [BitVec.getLsbD_extractLsb', BitVec.getLsbD_append, if_neg (by omega)]
  simp [hj]

/-- The tables that there were are tables still. -/
theorem Entered.isTable {C : Frame → Prop} (h : Entered s s' D N) (hC : ∀ d, C d → D d)
    (ht : IsTable s.toMachine C f) : IsTable s'.toMachine C f := by
  obtain ⟨d, hd, i, hi, hp, he⟩ := ht
  have hk : Mappable D (d, i ++ 0#10) := ⟨hC d hd, fun he => hi ((dirIdx_area i).symm.trans he)⟩
  have hpde : ∀ s0 : Memory, s0.pdeAt (d, i ++ 0#10) = s0.mem d i := fun s0 => by
    rw [Memory.pdeAt]
    exact congrArg _ (dirIdx_area i)
  have hsame := h.pde _ hk (hpde s ▸ hp)
  rw [hpde, hpde] at hsame
  exact ⟨d, hd, i, hi, hsame.symm ▸ hp, hsame.symm ▸ he⟩

/-! ## The loop of `malloc_page` -/

/-- The pages `N` have been filled in with frames of the pool. -/
structure PagesFilled (s s' : Memory) (pf : PoolFlag) (D : Frame → Prop) (g : VPage → Frame)
    (L H N : List VPage) : Prop where
  layout : Layout s' D
  owned : Owned s' D g (N ++ L) H
  steady : Steady s s'
  entered : Entered s s' D N
  range : (s.pool pf).SameRange (s'.pool pf)
  frames : ∀ f, (s'.pool pf).Taken f ↔ (s.pool pf).Taken f ∨ ∃ k ∈ N, s'.frameAt k = some f
  fresh : ∀ k ∈ N, ∀ f, s'.frameAt k = some f → ¬ (s.pool pf).Taken f
  tables : pf = .user → ∀ f, (s.kernelPool.Taken f → s'.kernelPool.Taken f) ∧
    (s'.kernelPool.Taken f → s.kernelPool.Taken f ∨ IsTable s'.toMachine (fun d => d = s.cr3) f)

theorem Pool.SameRange.refl (p : Pool) : p.SameRange p := ⟨rfl, rfl, rfl⟩

theorem PagesFilled.refl (hl : Layout s D) (ho : Owned s D g L H) : PagesFilled s s pf D g L H [] := by
  refine ⟨hl, ho, .refl s, .refl s D, .refl _, fun f => ⟨.inl, ?_⟩, nofun, fun _ f => ⟨id, .inl⟩⟩
  rintro (h | ⟨k, hk, -⟩)
  · exact h
  · exact absurd hk List.not_mem_nil

/-- One page: a frame is taken and entered for `v`. -/
theorem Owned.addPage_filled (hl : Layout s D) (ho : Owned s D g L H) (hcr : D s.cr3)
    (hv : dirIdx v ≠ 1023) (hhigh : pf = .kernel → 768 ≤ dirIdx v) {page : Addr}
    (hpage : palloc (s.pool pf) = .ok (some page, p')) (htab : TableFound (s.setPool pf p') v) :
    Returns (GwOS.pageTableAdd (s.setPool pf p') v page) fun s' =>
      PagesFilled s s' pf D g L H [vpage s.cr3 v] := by
  obtain ⟨-, ht⟩ := palloc_took (hl.poolOk pf) hpage
  obtain ⟨hl1, ho1, -⟩ := hl.took ho ht
  have hm1 : (s.setPool pf p').toMachine = s.toMachine := by cases pf <;> rfl
  have hsteady := Steady.setPool s pf p'
  intro s' h'
  obtain ⟨hl', ho', hst'⟩ := Owned.addPage hl ho hcr hv hpage htab s' h'
  obtain ⟨hent, hframe, htabled⟩ := Owned.pageTableAdd_entered hl1 ho1 (hsteady.cr3 ▸ hcr) hv page htab
    s' h'
  rw [hsteady.cr3] at hent hframe
  -- the pool that the frame comes from is used for nothing else
  have hpool : s'.pool pf = p' := by
    cases pf with
    | kernel =>
      have hp : Present ((s.setPool .kernel p').pde v) := (hl.shared _ hcr _ (hhigh rfl) hv).1
      exact (htabled.here hp).1
    | user => exact htabled.userPool
  refine ⟨hl', ho', hst', hent.of_machine hm1, ?_, fun f => ?_, fun k hk f hf => ?_, ?_⟩
  · rw [hpool]
    exact ht.toSameRange
  · rw [hpool, ht.taken f]
    refine or_congr Iff.rfl ⟨?_, ?_⟩
    · rintro rfl
      exact ⟨_, List.mem_singleton.mpr rfl, hframe⟩
    · rintro ⟨k, hk, hf⟩
      rw [List.mem_singleton.mp hk, hframe] at hf
      exact (Option.some.inj hf).symm
  · rw [List.mem_singleton.mp hk, hframe] at hf
    cases hf
    exact ht.free
  · rintro rfl f
    have hk1 : (s.setPool .user p').kernelPool = s.kernelPool := rfl
    by_cases hp : Present ((s.setPool .user p').pde v)
    · rw [(htabled.here hp).1, hk1]
      exact ⟨id, .inl⟩
    · obtain ⟨pt, htook, hmem⟩ := htabled.new hp
      rw [hk1] at htook
      rw [htook.taken f]
      refine ⟨.inl, fun hf => hf.imp_right ?_⟩
      rintro rfl
      have hentry := hmem _ (hsteady.cr3 ▸ hcr) (dirIdx v)
      rw [if_pos ⟨rfl, rfl⟩] at hentry
      refine ⟨s.cr3, rfl, dirIdx v, hv, ?_, ?_⟩
      · rw [hentry]
        exact tableEntry_present pt
      · rw [hentry, pageOf_tableEntry]

theorem PagesFilled.trans (hcr : D s.cr3) (h : PagesFilled s s1 pf D g L H N)
    (h' : PagesFilled s1 s2 pf D g (N ++ L) H N') : PagesFilled s s2 pf D g L H (N ++ N') := by
  have hmap : ∀ n ∈ N, Mappable D n ∧ Present (s1.pdeAt n) := by
    intro n hn
    have hmem := List.mem_append_left H (List.mem_append_left L hn)
    obtain ⟨f, hf, -⟩ := h.owned.mapped n hmem
    exact ⟨h.owned.page n hmem, (Memory.present_of_frameAt hf).1⟩
  -- the pages of the first part stay where they are
  have hkeep : ∀ n ∈ N, s2.frameAt n = s1.frameAt n := by
    intro n hn
    obtain ⟨f, hf, -⟩ := h.owned.mapped n (List.mem_append_left H (List.mem_append_left L hn))
    rw [hf]
    exact h'.entered.keeps (hmap n hn).1 hf
  have howned : (N' ++ (N ++ L)).Perm ((N ++ N') ++ L) := by
    rw [← List.append_assoc]
    exact List.perm_append_comm.append_right L
  have hrange : (s.pool pf).SameRange (s2.pool pf) := ⟨h'.range.start.trans h.range.start,
    h'.range.size.trans h.range.size, h'.range.len.trans h.range.len⟩
  refine ⟨h'.layout, h'.owned.perm howned, h.steady.trans h'.steady, h.entered.trans h'.entered hmap,
    hrange, fun f => ?_, fun k hk f hf => ?_, fun hpf f => ?_⟩
  · rw [h'.frames f, h.frames f, or_assoc]
    refine or_congr Iff.rfl ⟨?_, ?_⟩
    · rintro (⟨k, hk, hf⟩ | ⟨k, hk, hf⟩)
      · exact ⟨k, List.mem_append_left _ hk, (hkeep k hk).trans hf⟩
      · exact ⟨k, List.mem_append_right _ hk, hf⟩
    · rintro ⟨k, hk, hf⟩
      rcases List.mem_append.mp hk with hk | hk
      · exact .inl ⟨k, hk, (hkeep k hk).symm.trans hf⟩
      · exact .inr ⟨k, hk, hf⟩
  · rcases List.mem_append.mp hk with hk | hk
    · exact h.fresh k hk f ((hkeep k hk).symm.trans hf)
    · exact fun ht => h'.fresh k hk f hf ((h.frames f).mpr (.inl ht))
  · obtain ⟨hmono, htab⟩ := h.tables hpf f
    obtain ⟨hmono', htab'⟩ := h'.tables hpf f
    refine ⟨fun ht => hmono' (hmono ht), fun ht => ?_⟩
    rcases htab' ht with ht | ht
    · exact (htab ht).imp_right (h'.entered.isTable fun d hd => hd ▸ hcr)
    · rw [h.steady.cr3] at ht
      exact .inr ht

theorem dirIdx_high (h : 0xc0000000 ≤ v.toNat) : 768 ≤ dirIdx v := by
  show 768 ≤ (dirIdx v).toNat
  rw [dirIdx_toNat]
  omega

/-- The address of the page behind. -/
theorem nextPage_step {cnt : Nat} (hend : v.toNat + (cnt + 1) * pgSize ≤ 0xffc00000) :
    (v + 0x1000).toNat = v.toNat + pgSize := by
  have h1 : (0x1000 : Addr).toNat = 0x1000 := rfl
  unfold pgSize at *
  rw [BitVec.toNat_add, h1]
  omega

/-- **The loop of `malloc_page`** when it comes to its end. -/
theorem mallocLoop_filled (cnt : Nat) (hl : Layout s D) (ho : Owned s D g L H) (hcr : D s.cr3)
    (hend : v.toNat + cnt * pgSize ≤ 0xffc00000) (hhigh : pf = .kernel → 0xc0000000 ≤ v.toNat)
    (htab : LoopTablesFound pf cnt v s) :
    Returns (mallocLoop pf cnt v s) fun r => r.1 = true →
      PagesFilled s r.2 pf D g L H (vpages s.cr3 cnt v) := by
  induction cnt generalizing s L v with
  | zero => exact .ok fun _ => .refl hl ho
  | succ cnt ih =>
    unfold mallocLoop
    obtain ⟨r, p', hpal, hr⟩ := palloc_ok (hl.poolOk pf)
    rw [hpal]
    rcases hr with ⟨rfl, rfl⟩ | ⟨page, rfl, -, -⟩
    · exact .ok (by rintro ⟨⟩)
    · obtain ⟨htab1, hrest⟩ := htab page p' hpal
      have hlt : v.toNat < 0xffc00000 := by
        unfold pgSize at hend
        omega
      have hidx : pf = .kernel → 768 ≤ dirIdx v := fun hpf => dirIdx_high (hhigh hpf)
      have hstep := nextPage_step hend
      show Returns (GwOS.pageTableAdd (s.setPool pf p') v page >>= fun s => _) _
      refine .bind (P := fun s1 => GwOS.pageTableAdd (s.setPool pf p') v page = .ok s1 ∧
        PagesFilled s s1 pf D g L H [vpage s.cr3 v]) (fun s1 h1 => ⟨h1,
          Owned.addPage_filled hl ho hcr (dirIdx_ne_of_le hlt) hidx hpal htab1 s1 h1⟩) fun s1 h1 => ?_
      obtain ⟨hadd, h1⟩ := h1
      have hcr1 := h1.steady.cr3
      have hnext : pf = .kernel → 0xc0000000 ≤ (v + 0x1000).toNat := fun hpf => by
        have hge := hhigh hpf
        omega
      refine (ih h1.layout h1.owned (hcr1 ▸ hcr) (next_toNat hend) hnext (hrest s1 hadd)).mono
        fun r2 h2 hdone => ?_
      have hall := h2 hdone
      rw [hcr1] at hall
      exact h1.trans hcr hall

/-! ## The loops of `mfree_page` -/

/-- A frame in the range of a pool has been given out by that pool. -/
theorem Layout.taken_pool (h : Layout s D) (ht : s.Taken f) (hc : (s.pool pf).Contains f) :
    (s.pool pf).Taken f := by
  cases pf with
  | kernel => exact ht.resolve_right fun hu => h.not_both hc hu.1
  | user => exact ht.resolve_left fun hk => h.not_both hk.1 hc

/-- The address that the loops of `mfree_page` find for a page. -/
theorem Owned.addrVir2phy_page (hl : Layout s D) (ho : Owned s D g (vpage s.cr3 v :: L) H)
    (hcr : D s.cr3) (hv : dirIdx v ≠ 1023) (hal : v.toNat % pgSize = 0)
    (hpool : ∀ f, s.frameAt (vpage s.cr3 v) = some f → (s.pool pf).Contains f) :
    ∃ a, addrVir2phy s.toMachine v = .ok a ∧ s.frameAt (vpage s.cr3 v) = some (pageOf a) ∧
      offsetOf a = 0 ∧ (s.pool pf).Taken (pageOf a) ∧ a.toNat % pgSize = 0 ∧ 0x102000 ≤ a ∧
      (s.pool pf).phyAddrStart ≤ a ∧ (pf = .kernel ↔ a < s.userPool.phyAddrStart) := by
  obtain ⟨f, hf, ht, -⟩ := ho.mapped _ (List.mem_cons_self ..)
  have hc := hpool f hf
  have hge := hl.taken_ge ht
  have horder := hl.order
  have hwalk : s.walk v = some f := by
    rw [← hf, hl.frameAt_vpage hcr hv]
    rfl
  have hoff : offsetOf v = 0 := by
    apply BitVec.eq_of_toNat_eq
    rw [offsetOf_toNat]
    exact hal
  have htr : s.translate v = some (addrOf f 0) := by
    rw [Machine.translate, hwalk, hoff]
    rfl
  have hphy : addrVir2phy s.toMachine v = .ok (addrOf f 0) := (hl.selfMapped hcr).addrVir2phy_eq htr
  have hnat : (addrOf f 0).toNat = f.toNat * 4096 := by
    have hzero : (0 : BitVec 12).toNat = 0 := rfl
    rw [addrOf_toNat, hzero, Nat.add_zero]
  have h1 := hc.1
  have h2 := hc.2
  unfold pgSize at *
  refine ⟨addrOf f 0, hphy, ?_, offsetOf_addrOf f 0, ?_, ?_, ?_, ?_, ?_⟩
  · rw [pageOf_addrOf]
    exact hf
  · rw [pageOf_addrOf]
    exact hl.taken_pool ht hc
  · omega
  · show (0x102000 : Addr).toNat ≤ (addrOf f 0).toNat
    have h0 : (0x102000 : Addr).toNat = 0x102000 := rfl
    omega
  · show (s.pool pf).phyAddrStart.toNat ≤ (addrOf f 0).toNat
    omega
  · cases pf with
    | kernel =>
      have h2' : f.toNat * 4096 < s.kernelPool.phyAddrStart.toNat + s.kernelPool.poolSize.toNat := h2
      refine ⟨fun _ => ?_, fun _ => rfl⟩
      show (addrOf f 0).toNat < s.userPool.phyAddrStart.toNat
      omega
    | user =>
      have h1' : s.userPool.phyAddrStart.toNat ≤ f.toNat * 4096 := h1
      refine ⟨by rintro ⟨⟩, fun hlt => ?_⟩
      have hlt' : (addrOf f 0).toNat < s.userPool.phyAddrStart.toNat := hlt
      omega

/-- The entries of the pages `N`, which were owned, are cleared, and their frames have been given
back to the pool. -/
structure PagesEmptied (s s' : Memory) (pf : PoolFlag) (D : Frame → Prop) (g : VPage → Frame)
    (L H N : List VPage) : Prop where
  layout : Layout s' D
  owned : Owned s' D g L H
  steady : Steady s s'
  emptied : Emptied s s' D N
  range : (s.pool pf).SameRange (s'.pool pf)
  frames : ∀ f, (s'.pool pf).Taken f ↔ (s.pool pf).Taken f ∧ ∀ k ∈ N, s.frameAt k ≠ some f
  kernel : pf = .user → s'.kernelPool = s.kernelPool

/-- One page of the loops of `mfree_page`. -/
theorem Owned.removePage_emptied (hl : Layout s D) (ho : Owned s D g (vpage s.cr3 v :: L) H)
    (hcr : D s.cr3) (hv : dirIdx v ≠ 1023) {a : Addr} (ha : addrVir2phy s.toMachine v = .ok a)
    (hf : s.frameAt (vpage s.cr3 v) = some (pageOf a)) (hoff : offsetOf a = 0)
    (hal : a.toNat % pgSize = 0) (ht : (s.pool pf).Taken (pageOf a)) :
    ∃ s1 s2, pfree s a = .ok s1 ∧ pageTablePteRemove s1 v = .ok s2 ∧
      PagesEmptied s s2 pf D g L H [vpage s.cr3 v] := by
  obtain ⟨p', hfree, hgave⟩ := pfree_covered hl.kernelOk hl.userOk hl.order hoff ht.covers
  have hm1 : (s.setPool pf p').toMachine = s.toMachine := by cases pf <;> rfl
  have hpresent := (hl.pdeAt hcr hv).1.mp (Memory.present_of_frameAt hf).1
  have hp : Present ((s.setPool pf p').pde v) := by
    rw [hm1]
    exact hpresent
  have hself : SelfMapped (s.setPool pf p').toMachine := by
    rw [hm1]
    exact hl.selfMapped hcr
  generalize hm : s.setWord (s.tableOf v) (tabIdx v) (s.pte v &&& ~~~1) = m
  have hremove : pageTablePteRemove (s.setPool pf p') v =
      .ok { s.setPool pf p' with toMachine := m } := by
    rw [pageTablePteRemove]
    simp only [hself.load_ptePtr hp, hself.store_ptePtr hp, bind, Except.bind]
    rw [hm1, hm]
  obtain ⟨hl2, ho2, hst2⟩ := Owned.removePage hl ho hcr hv ha hal _ (by
    rw [hfree]
    exact hremove)
  obtain ⟨hdirs, hother, hsame⟩ := hl.setSlot hcr hv hpresent (s.pte v &&& ~~~1)
  have habsent : ¬ Present (s.pte v &&& ~~~1) := by
    rw [Present, BitVec.getLsbD_and]
    simp
  rw [if_neg habsent, hm] at hsame
  rw [hm] at hdirs hother
  refine ⟨_, _, hfree, hremove, hl2, ho2, hst2, ⟨hdirs, fun k hk hk' => ?_, fun k hk hno => ?_⟩, ?_,
    fun f => ?_, fun hpf => ?_⟩
  · obtain ⟨n, hn, hkn⟩ := hk'
    exact hsame k hk (List.mem_singleton.mp hn ▸ hkn)
  · exact hother k hk fun hkn => hno ⟨_, List.mem_singleton.mpr rfl, hkn⟩
  · cases pf <;> exact hgave.toSameRange
  · have hpool : ({ s.setPool pf p' with toMachine := m } : Memory).pool pf = p' := by
      cases pf <;> rfl
    rw [hpool, hgave.taken f]
    refine and_congr Iff.rfl ⟨fun hne k hk hkf => ?_, fun hall he => ?_⟩
    · rw [List.mem_singleton.mp hk, hf] at hkf
      exact hne (Option.some.inj hkf).symm
    · exact hall _ (List.mem_singleton.mpr rfl) (he ▸ hf)
  · subst hpf
    rfl

theorem PagesEmptied.trans (h : PagesEmptied s s1 pf D g (N' ++ L) H N)
    (h' : PagesEmptied s1 s2 pf D g L H N') (hkeep : ∀ n ∈ N', s1.frameAt n = s.frameAt n) :
    PagesEmptied s s2 pf D g L H (N ++ N') := by
  have hmap : ∀ n ∈ N', Mappable D n := fun n hn =>
    h.owned.page n (List.mem_append_left H (List.mem_append_left L hn))
  have hrange : (s.pool pf).SameRange (s2.pool pf) := ⟨h'.range.start.trans h.range.start,
    h'.range.size.trans h.range.size, h'.range.len.trans h.range.len⟩
  refine ⟨h'.layout, h'.owned, h.steady.trans h'.steady, h.emptied.trans h'.emptied hmap, hrange,
    fun f => ?_, fun hpf => (h'.kernel hpf).trans (h.kernel hpf)⟩
  rw [h'.frames f, h.frames f, and_assoc]
  refine and_congr Iff.rfl ⟨fun ⟨h1, h2⟩ k hk => ?_, fun hall => ⟨fun k hk => ?_, fun k hk => ?_⟩⟩
  · rcases List.mem_append.mp hk with hk | hk
    · exact h1 k hk
    · rw [← hkeep k hk]
      exact h2 k hk
  · exact hall k (List.mem_append_left _ hk)
  · rw [hkeep k hk]
    exact hall k (List.mem_append_right _ hk)

/-- **The loops of `mfree_page`** over pages of one pool. -/
theorem mfreeLoop_emptied (cnt : Nat) (hl : Layout s D) (ho : Owned s D g (vpages s.cr3 cnt v ++ L) H)
    (hcr : D s.cr3) (hend : v.toNat + cnt * pgSize ≤ 0xffc00000) (hal : v.toNat % pgSize = 0)
    (hpool : ∀ k ∈ vpages s.cr3 cnt v, ∀ f, s.frameAt k = some f → (s.pool pf).Contains f) :
    ∃ s', mfreeLoop pf cnt v s = .ok s' ∧ PagesEmptied s s' pf D g L H (vpages s.cr3 cnt v) := by
  induction cnt generalizing s v with
  | zero =>
    refine ⟨s, rfl, hl, ho, .refl s, .refl s D, .refl _, fun f => ⟨fun h => ⟨h, nofun⟩, And.left⟩,
      fun _ => rfl⟩
  | succ cnt ih =>
    have hlt : v.toNat < 0xffc00000 := by
      unfold pgSize at hend
      omega
    have hv := dirIdx_ne_of_le hlt
    obtain ⟨a, ha, hf, hoff, ht, hal', -, hge, hltu⟩ := Owned.addrVir2phy_page hl ho hcr hv hal
      (hpool _ (List.mem_cons_self ..))
    obtain ⟨s1, s2, hfree, hremove, h2⟩ := Owned.removePage_emptied hl ho hcr hv ha hf hoff hal' ht
    have hstep := nextPage_step hend
    have hcr2 := h2.steady.cr3
    -- the pages behind have other entries
    have hkeep : ∀ k ∈ vpages s.cr3 cnt (v + 0x1000), s2.frameAt k = s.frameAt k := by
      intro k hk
      have hmem := List.mem_append_left H (List.mem_append_left L hk)
      refine h2.emptied.other k (h2.owned.page k hmem) fun hslot => ?_
      obtain ⟨f, hf2, -⟩ := h2.owned.mapped k hmem
      rw [h2.emptied.gone k (h2.owned.page k hmem) hslot] at hf2
      cases hf2
    have hpool2 : ∀ k ∈ vpages s2.cr3 cnt (v + 0x1000), ∀ f, s2.frameAt k = some f →
        (s2.pool pf).Contains f := by
      intro k hk f hkf
      rw [hcr2] at hk
      rw [hkeep k hk] at hkf
      exact (h2.range.contains f).mpr (hpool k (List.mem_cons_of_mem _ hk) f hkf)
    have ho2 := h2.owned
    rw [← hcr2] at ho2
    obtain ⟨s', hloop, hrest⟩ := ih h2.layout ho2 (hcr2 ▸ hcr) (next_toNat hend)
      (by unfold pgSize at *; omega) hpool2
    rw [hcr2] at hrest
    refine ⟨s', ?_, h2.trans hrest hkeep⟩
    rw [mfreeLoop, ha]
    show (if a.toNat % pgSize = 0 ∧ (s.pool pf).phyAddrStart ≤ a ∧
      (pf = .kernel → a < s.userPool.phyAddrStart) then _ else _) = _
    rw [if_pos ⟨hal', hge, hltu.mp⟩, hfree]
    show (pageTablePteRemove s1 v >>= _) = _
    rw [hremove]
    exact hloop

/-- **`mfree_page`** of pages of one pool. -/
theorem mfreePage_emptied {cnt idx : Nat} (hl : Layout s D)
    (ho : Owned s D g (vpages s.cr3 cnt v ++ L) H) (hcr : D s.cr3)
    (hrange : (s.vaddrStart pf).toNat + 8 * (s.vaddrBitmap pf).len * pgSize ≤ 0xffc00000)
    (halign : (s.vaddrStart pf).toNat % pgSize = 0) (hcnt : 1 ≤ cnt)
    (hidx : idx + cnt ≤ 8 * (s.vaddrBitmap pf).len)
    (hv : v = s.vaddrStart pf + BitVec.ofNat 32 (idx * pgSize))
    (hpool : ∀ k ∈ vpages s.cr3 cnt v, ∀ f, s.frameAt k = some f → (s.pool pf).Contains f) :
    ∃ s', mfreePage s pf v cnt = .ok s' ∧ ∃ s1 mp, SameRecords s s1 ∧
      PagesEmptied s s1 pf D g L H (vpages s.cr3 cnt v) ∧
      (s.vaddrBitmap pf).SetRange mp false idx cnt ∧ s' = s1.setVaddrBitmap pf mp := by
  obtain ⟨c, rfl⟩ : ∃ c, cnt = c + 1 := ⟨cnt - 1, by omega⟩
  have hnat : v.toNat = (s.vaddrStart pf).toNat + idx * pgSize := by
    rw [hv, BitVec.toNat_add, BitVec.toNat_ofNat]
    unfold pgSize at *
    omega
  have hal : v.toNat % pgSize = 0 := by
    rw [hnat]
    unfold pgSize at *
    omega
  have hend : v.toNat + (c + 1) * pgSize ≤ 0xffc00000 := by
    unfold pgSize at *
    omega
  have hdir : dirIdx v ≠ 1023 := dirIdx_ne_of_le (by unfold pgSize at hend; omega)
  obtain ⟨a, ha, -, -, -, hal', hbase, -, hltu⟩ := Owned.addrVir2phy_page hl ho hcr hdir hal
    (hpool _ (List.mem_cons_self ..))
  obtain ⟨s1, hloop, hemptied⟩ := mfreeLoop_emptied (c + 1) hl ho hcr hend hal hpool
  have hsame := mfreeLoop_same s pf (c + 1) v s1 hloop
  -- the index of the page in the bitmap
  have hpage : pageIdx v (s1.vaddrStart pf) = idx := by
    rw [pageIdx, hsame.vaddrStart, BitVec.toNat_sub_of_le (BitVec.le_def.mpr (by omega)), hnat]
    unfold pgSize
    omega
  obtain ⟨mp, hmp⟩ := setBits_ok false (c + 1) (s1.vaddrBitmap pf) (pageIdx v (s1.vaddrStart pf))
    (by rw [hpage, hsame.vaddrBitmap]; exact hidx)
  have hset : setBits (s1.vaddrBitmap pf) 0 (c + 1) (pageIdx v (s1.vaddrStart pf)) = .ok mp := hmp
  have hrangeSet := setBits_returns false (c + 1) _ _ mp hmp
  rw [hpage, hsame.vaddrBitmap] at hrangeSet
  refine ⟨s1.setVaddrBitmap pf mp, ?_, s1, mp, hsame, hemptied, hrangeSet, rfl⟩
  rw [mfreePage, if_pos ⟨hcnt, hal⟩, ha]
  show (if a.toNat % pgSize = 0 ∧ 0x102000 ≤ a then _ else _) = _
  have hflag : (if s.userPool.phyAddrStart ≤ a then PoolFlag.user else .kernel) = pf := by
    cases pf with
    | kernel => exact if_neg (BitVec.not_le.mpr (hltu.mp rfl))
    | user =>
      refine if_pos (BitVec.not_lt.mp fun hlt => ?_)
      cases hltu.mpr hlt
  rw [if_pos ⟨hal', hbase⟩, hflag]
  show (mfreeLoop pf (c + 1) v s >>= _) = _
  rw [hloop]
  show vaddrRemove s1 pf v (c + 1) = _
  rw [vaddrRemove, hset]
  rfl

end Slots

end GwOS
