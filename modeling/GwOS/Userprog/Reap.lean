import GwOS.Userprog.Release

/-!
# The whole life of a child (`userprog/fork.c`, `userprog/wait.c`)

A parent that has enough memory forks, the child exits and the parent reaps it: none of these steps
fails.

- `Exiting` is a process with its directory and its pages in the midst of the others; what
  `release_prog_resource` gives back belongs to nobody else (`Exiting.gave`).
- The child still runs on its directory when the tables in it have been given back. What `mfree_page`
  does to pages of the kernel does not depend on the directory (`ShowsKernel`), so the invariants are
  those of the memory seen through `kernelDir`.
- `forkExitWait_never_conserves`: the bitmaps are never what they were before the fork.
-/

namespace GwOS

/-! ## The loops of `release_prog_resource` -/

section Loops

variable {s s0 s1 s2 : Memory} {F : Frame → Prop} {a v pgdirVaddr firstPteVaddrInPde : Addr} {f : Frame}

/-- Frames among `F` have been given back, and nothing else has happened. -/
structure FramesGave (s s1 : Memory) (F : Frame → Prop) : Prop where
  machine : s1.toMachine = s.toMachine
  same : SameRecords s s1
  kernelRange : s.kernelPool.SameRange s1.kernelPool
  userRange : s.userPool.SameRange s1.userPool
  kernel : ∀ f, ¬ F f → (s1.kernelPool.Taken f ↔ s.kernelPool.Taken f)
  user : ∀ f, ¬ F f → (s1.userPool.Taken f ↔ s.userPool.Taken f)

theorem FramesGave.refl (s : Memory) (F : Frame → Prop) : FramesGave s s F :=
  ⟨rfl, .refl s, ⟨rfl, rfl, rfl⟩, ⟨rfl, rfl, rfl⟩, fun _ _ => Iff.rfl, fun _ _ => Iff.rfl⟩

theorem Pool.SameRange.trans {p p1 p2 : Pool} (h : p.SameRange p1) (h' : p1.SameRange p2) :
    p.SameRange p2 := ⟨h'.start.trans h.start, h'.size.trans h.size, h'.len.trans h.len⟩

theorem FramesGave.trans (h : FramesGave s s1 F) (h' : FramesGave s1 s2 F) : FramesGave s s2 F :=
  ⟨h'.machine.trans h.machine, h.same.trans h'.same, h.kernelRange.trans h'.kernelRange,
    h.userRange.trans h'.userRange, fun f hf => (h'.kernel f hf).trans (h.kernel f hf),
    fun f hf => (h'.user f hf).trans (h.user f hf)⟩

/-- Every frame among `F` is one of a pool. -/
structure Pooled (s : Memory) (F : Frame → Prop) : Prop where
  kernelOk : s.kernelPool.Ok
  userOk : s.userPool.Ok
  order : s.kernelPool.phyAddrStart.toNat + s.kernelPool.poolSize.toNat ≤ s.userPool.phyAddrStart.toNat
  covers : ∀ f, F f → s.kernelPool.Covers f ∨ s.userPool.Covers f

theorem Pooled.gave (hp : Pooled s F) (h : FramesGave s s1 F) : Pooled s1 F := by
  refine ⟨h.kernelRange.ok hp.kernelOk, h.userRange.ok hp.userOk, ?_, fun f hf => ?_⟩
  · rw [h.kernelRange.start, h.kernelRange.size, h.userRange.start]
    exact hp.order
  · rw [h.kernelRange.covers, h.userRange.covers]
    exact hp.covers f hf

theorem Pooled.pfree (hp : Pooled s F) (hoff : offsetOf a = 0) (hF : F (pageOf a)) :
    ∃ s1, freeOnePhyPage s a = .ok s1 ∧ FramesGave s s1 F := by
  obtain ⟨pf, p', hfree, hgave⟩ := pfree_gave hp.kernelOk hp.userOk hp.order hoff (hp.covers _ hF)
  have hne : ∀ f, ¬ F f → f ≠ pageOf a := fun f hf he => hf (he ▸ hF)
  refine ⟨_, hfree, ?_⟩
  cases pf with
  | kernel => exact ⟨rfl, .setPool s _ _, hgave.toSameRange, ⟨rfl, rfl, rfl⟩, fun f hf =>
      ⟨fun h => ((hgave.taken f).mp h).1, fun h => (hgave.taken f).mpr ⟨h, hne f hf⟩⟩, fun _ _ => Iff.rfl⟩
  | user => exact ⟨rfl, .setPool s _ _, ⟨rfl, rfl, rfl⟩, hgave.toSameRange, fun _ _ => Iff.rfl, fun f hf =>
      ⟨fun h => ((hgave.taken f).mp h).1, fun h => (hgave.taken f).mpr ⟨h, hne f hf⟩⟩⟩

theorem offsetOf_and_mask (v : Addr) : offsetOf (v &&& 0xfffff000) = 0 := by
  apply BitVec.eq_of_getLsbD_eq
  intro i hi
  rw [offsetOf, BitVec.getLsbD_extractLsb', getLsbD_and_mask 12 32 (by decide)]
  simp [hi]

/-- The entry that is given back. -/
theorem Pooled.freeEntry (hp : Pooled s F) (e : Addr) (hF : F (pageOf e)) :
    ∃ s1, freeOnePhyPage s (e &&& 0xfffff000) = .ok s1 ∧ FramesGave s s1 F :=
  hp.pfree (offsetOf_and_mask e) (by rw [pageOf_and_mask]; exact hF)

theorem releasePtes_ok {pt : Nat → Addr} (hp : Pooled s F)
    (hload : ∀ j < 1024, s.load (firstPteVaddrInPde + BitVec.ofNat 32 (j * 4)) = .ok (pt j))
    (hF : ∀ j < 1024, Present (pt j) → F (pageOf (pt j))) (n pteIdx : Nat) (hn : pteIdx + n = 1024) :
    ∃ s1, releasePtes firstPteVaddrInPde n pteIdx s = .ok s1 ∧ FramesGave s s1 F := by
  induction n generalizing pteIdx s with
  | zero => exact ⟨s, rfl, .refl s F⟩
  | succ n ih =>
    have hl := hload pteIdx (by omega)
    by_cases hpr : Present (pt pteIdx)
    · obtain ⟨s1, hfree, hgave⟩ := hp.freeEntry _ (hF pteIdx (by omega) hpr)
      obtain ⟨s2, hrest, hgave2⟩ := ih (hp.gave hgave)
        (fun j hj => by rw [hgave.machine]; exact hload j hj) (pteIdx + 1) (by omega)
      refine ⟨s2, ?_, hgave.trans hgave2⟩
      rw [releasePtes, hl]
      show (if Present (pt pteIdx) then _ else _) = _
      rw [if_pos hpr]
      exact bind_eq_ok.mpr ⟨s1, hfree, hrest⟩
    · obtain ⟨s2, hrest, hgave2⟩ := ih hp hload (pteIdx + 1) (by omega)
      refine ⟨s2, ?_, hgave2⟩
      rw [releasePtes, hl]
      show (if Present (pt pteIdx) then _ else _) = _
      rw [if_neg hpr]
      exact hrest

theorem releasePdes_ok (pd : Nat → Addr) (pt : Nat → Nat → Addr) (hp : Pooled s F)
    (hload : ∀ i < 768, s.load (pgdirVaddr + BitVec.ofNat 32 (i * 4)) = .ok (pd i))
    (htab : ∀ i < 768, Present (pd i) → ∀ j < 1024,
      s.load (ptePtr (BitVec.ofNat 32 (i * 0x400000)) + BitVec.ofNat 32 (j * 4)) = .ok (pt i j))
    (hpd : ∀ i < 768, Present (pd i) → F (pageOf (pd i)))
    (hpt : ∀ i < 768, Present (pd i) → ∀ j < 1024, Present (pt i j) → F (pageOf (pt i j)))
    (n pdeIdx : Nat) (hn : pdeIdx + n = 768) :
    ∃ s1, releasePdes pgdirVaddr n pdeIdx s = .ok s1 ∧ FramesGave s s1 F := by
  induction n generalizing pdeIdx s with
  | zero => exact ⟨s, rfl, .refl s F⟩
  | succ n ih =>
    have hlt : pdeIdx < 768 := by omega
    have hl := hload pdeIdx hlt
    by_cases hpr : Present (pd pdeIdx)
    · obtain ⟨s1, hptes, hgave1⟩ := releasePtes_ok hp (htab pdeIdx hlt hpr) (hpt pdeIdx hlt hpr) 1024 0 rfl
      have hp1 := hp.gave hgave1
      obtain ⟨s2, hfree, hgave2⟩ := hp1.freeEntry _ (hpd pdeIdx hlt hpr)
      have hgave12 := hgave1.trans hgave2
      obtain ⟨s3, hrest, hgave3⟩ := ih (hp.gave hgave12)
        (fun i hi => by rw [hgave12.machine]; exact hload i hi)
        (fun i hi h j hj => by rw [hgave12.machine]; exact htab i hi h j hj) (pdeIdx + 1) (by omega)
      refine ⟨s3, ?_, hgave12.trans hgave3⟩
      rw [releasePdes, hl]
      show (if Present (pd pdeIdx) then _ else _) = _
      rw [if_pos hpr]
      exact bind_eq_ok.mpr ⟨s1, hptes, bind_eq_ok.mpr ⟨s2, hfree, hrest⟩⟩
    · obtain ⟨s2, hrest, hgave2⟩ := ih hp hload htab (pdeIdx + 1) (by omega)
      refine ⟨s2, ?_, hgave2⟩
      rw [releasePdes, hl]
      show (if Present (pd pdeIdx) then _ else _) = _
      rw [if_neg hpr]
      exact hrest

end Loops

/-! ## The pages of a process that exits -/

section Exit

variable {s s1 : Memory} {D D' : Frame → Prop} {g : VPage → Frame} {K L H : List VPage} {dc f : Frame}
  {p v : Addr}

/-- A directory fewer. -/
theorem Layout.narrow (hl : Layout s D') (hsub : ∀ d, D d → D' d) (hroot : D kernelDir) : Layout s D :=
  ⟨hl.kernelOk, hl.userOk, hl.low, hl.order, hroot, fun d hd => hl.dirs d (hsub d hd),
    fun d hd => hl.self d (hsub d hd), fun d hd => hl.shared d (hsub d hd),
    fun d hd i hi hp => (hl.tables d (hsub d hd) i hi hp).imp id fun ⟨ht, hD⟩ => ⟨ht, fun h => hD (hsub _ h)⟩,
    fun d d' hd hd' => hl.inj d d' (hsub d hd) (hsub d' hd')⟩

theorem Owned.narrow (ho : Owned s D' g L H) (hsub : ∀ d, D d → D' d) (hdir : ∀ k ∈ L ++ H, D k.1) :
    Owned s D g L H := by
  refine ⟨fun k hk => ⟨hdir k hk, (ho.page k hk).2⟩, fun k hk => ?_, ho.inj, ho.nodup,
    fun k hk f hf hD => ho.loose k hk f hf (hsub f hD), ho.held⟩
  obtain ⟨f, hf, ht, htab⟩ := ho.mapped k hk
  refine ⟨f, hf, ht, ?_⟩
  rintro ⟨d, hd, i, hi, hp, he⟩
  exact htab ⟨d, hsub d hd, i, hi, hp, he⟩

/-- A process with the directory `dc` and the pages `K` exits. -/
structure Exiting (s : Memory) (D : Frame → Prop) (g : VPage → Frame) (K L H : List VPage) (dc : Frame) :
    Prop where
  layout : Layout s (fun d => D d ∨ d = dc)
  owned : Owned s (fun d => D d ∨ d = dc) g (K ++ L) H
  root : D kernelDir
  new : ¬ D dc
  others : ∀ k ∈ L ++ H, D k.1
  covered : ∀ v, dirIdx v < 768 → s.frameAt (vpage dc v) ≠ none → vpage dc v ∈ K

/-- What `release_prog_resource` gives back to the pools itself: the pages and their tables. -/
def ProcessFrame (s : Memory) (K : List VPage) (dc f : Frame) : Prop :=
  (∃ k ∈ K, s.frameAt k = some f) ∨ ∃ i : BitVec 10, i < 768 ∧ Present (s.mem dc i) ∧ pageOf (s.mem dc i) = f

namespace Exiting

variable (h : Exiting s D g K L H dc)

include h

theorem dc_ne : dc ≠ kernelDir := fun he => h.new (he ▸ h.root)

/-- A table of the process has been given out by the kernel's pool. -/
theorem table_taken {i : BitVec 10} (hi : i < 768) (hp : Present (s.mem dc i)) :
    s.kernelPool.Taken (pageOf (s.mem dc i)) := by
  rcases h.layout.tables dc (.inr rfl) i hi hp with ⟨he, -⟩ | ⟨ht, -⟩
  · exact absurd he h.dc_ne
  · exact ht

theorem taken (hf : ProcessFrame s K dc f) : s.Taken f := by
  rcases hf with ⟨k, hk, hkf⟩ | ⟨i, hi, hp, rfl⟩
  · obtain ⟨f', hf', ht, -⟩ := h.owned.mapped k (List.mem_append_left _ (List.mem_append_left _ hk))
    cases hf'.symm.trans hkf
    exact ht
  · exact .inl (h.table_taken hi hp)

theorem pooled : Pooled s (ProcessFrame s K dc) :=
  ⟨h.layout.kernelOk, h.layout.userOk, h.layout.order, fun _ hf =>
    (h.taken hf).imp Pool.Taken.covers Pool.Taken.covers⟩

/-- No other process uses these frames as tables. -/
theorem not_table (hf : ProcessFrame s K dc f) : ¬ IsTable s.toMachine D f := by
  rintro ⟨d, hd, i, hi, hp, he⟩
  rcases hf with ⟨k, hk, hkf⟩ | ⟨j, hj, hpj, rfl⟩
  · obtain ⟨f', hf', -, htab⟩ := h.owned.mapped k (List.mem_append_left _ (List.mem_append_left _ hk))
    cases hf'.symm.trans hkf
    exact htab ⟨d, .inl hd, i, hi, hp, he⟩
  · have ht := h.table_taken hj hpj
    have hkernel : ∀ i : BitVec 10, 768 ≤ i → i ≠ 1023 → kernelTable i ≠ pageOf (s.mem dc j) :=
      fun i hi hne he => h.layout.kernelTable_not_taken hi hne (he ▸ ht)
    by_cases hlow : i < 768
    · rcases h.layout.tables d (.inl hd) i hlow hp with ⟨-, -, hk⟩ | ⟨ht', -⟩
      · exact hkernel 768 (by decide) (by decide) (hk.symm.trans he)
      · obtain ⟨rfl, -⟩ := h.layout.inj d dc (.inl hd) (.inr rfl) i j hlow hj hp hpj ht' he
        exact h.new hd
    · have hge : 768 ≤ i := BitVec.not_lt.mp hlow
      exact hkernel i hge hi ((h.layout.shared d (.inl hd) i hge hi).2.symm.trans he)

/-- No directory is among these frames. -/
theorem not_dir (hf : ProcessFrame s K dc f) : ¬ D f := by
  rcases hf with ⟨k, hk, hkf⟩ | ⟨i, hi, hp, rfl⟩
  · exact fun hD => h.owned.loose k (List.mem_append_left _ hk) f hkf (.inl hD)
  · rcases h.layout.tables dc (.inr rfl) i hi hp with ⟨he, -⟩ | ⟨-, hD⟩
    · exact absurd he h.dc_ne
    · exact fun h' => hD (.inl h')

/-- No page that is left has such a frame. -/
theorem not_page (hf : ProcessFrame s K dc f) {k : VPage} (hk : k ∈ L ++ H) : s.frameAt k ≠ some f := by
  intro hkf
  have hk' : k ∈ (K ++ L) ++ H := by
    rw [List.append_assoc]
    exact List.mem_append_right K hk
  rcases hf with ⟨k0, hk0, hk0f⟩ | ⟨i, hi, hp, rfl⟩
  · have hmem := List.mem_append_left H (List.mem_append_left L hk0)
    have he := h.owned.inj k0 hmem k hk' (hk0f.trans hkf.symm)
    have hnd := h.owned.nodup
    rw [List.append_assoc] at hnd
    exact (List.nodup_append'.mp hnd).2.2 hk0 (he ▸ hk)
  · obtain ⟨f', hf', -, htab⟩ := h.owned.mapped k hk'
    cases hf'.symm.trans hkf
    exact htab ⟨dc, .inr rfl, i, fun he => absurd (he ▸ hi) (by decide), hp, rfl⟩

/-- **The rest is as it was** when the frames of the process have been given back. -/
theorem gave (hg : FramesGave s s1 (ProcessFrame s K dc)) : Layout s1 D ∧ Owned s1 D g L H := by
  have hmem : s1.mem = s.mem := by rw [hg.machine]
  have hl := h.layout.narrow (fun _ => .inl) h.root
  have ho := (h.owned.mono (List.sublist_append_right K L)).narrow (fun _ => .inl) h.others
  have hkeep : ∀ f, ¬ ProcessFrame s K dc f → s.Taken f → s1.Taken f := fun f hf ht =>
    ht.imp (hg.kernel f hf).mpr (hg.user f hf).mpr
  refine ⟨hl.pools hmem hg.kernelRange hg.userRange (fun d hd => hkeep d fun hf => h.not_dir hf hd)
    fun f htab => hg.kernel f fun hf => h.not_table hf htab, ho.congr (fun d _ => by rw [hmem])
    (fun k _ => ?_) fun k hk f hkf => hkeep f fun hf => h.not_page hf hk hkf⟩
  rw [Memory.frameAt, hg.machine]
  rfl

/-- The page of the `j`-th entry of the `i`-th table. -/
theorem entryFrame (hcr : s.cr3 = dc) {i j : Nat} (hi : i < 768) (hj : j < 1024)
    (hpde : Present (s.mem dc (BitVec.ofNat 10 i)))
    (hpte : Present (s.mem (pageOf (s.mem dc (BitVec.ofNat 10 i))) (BitVec.ofNat 10 j))) :
    ProcessFrame s K dc (pageOf (s.mem (pageOf (s.mem dc (BitVec.ofNat 10 i))) (BitVec.ofNat 10 j))) := by
  have hv : (BitVec.ofNat 32 (i * 0x400000 + j * 0x1000)).toNat = i * 0x400000 + j * 0x1000 := by
    rw [BitVec.toNat_ofNat]
    omega
  generalize BitVec.ofNat 32 (i * 0x400000 + j * 0x1000) = v at hv
  have hdir : dirIdx v = BitVec.ofNat 10 i := by
    apply BitVec.eq_of_toNat_eq
    rw [dirIdx_toNat, hv, BitVec.toNat_ofNat]
    omega
  have htab : tabIdx v = BitVec.ofNat 10 j := by
    apply BitVec.eq_of_toNat_eq
    rw [tabIdx, BitVec.extractLsb'_toNat, Nat.shiftRight_eq_div_pow, hv, BitVec.toNat_ofNat]
    omega
  have hlow : dirIdx v < 768 := by
    show (dirIdx v).toNat < 768
    rw [dirIdx_toNat, hv]
    omega
  rw [← hdir] at hpde hpte ⊢
  rw [← htab] at hpte ⊢
  have hframe : s.frameAt (vpage dc v) = some (pageOf (s.mem (pageOf (s.mem dc (dirIdx v))) (tabIdx v))) := by
    rw [h.layout.frameAt_vpage (.inr rfl) (dirIdx_ne_of_low hlow), ← hcr, Machine.walk, if_pos]
    · rfl
    · rw [← hcr] at hpde hpte
      exact ⟨hpde, hpte⟩
  exact .inl ⟨_, h.covered v hlow (by rw [hframe]; exact Option.some_ne_none _), hframe⟩

/-- **The loops of `release_prog_resource`** when the process itself runs. -/
theorem releasePdes (hcr : s.cr3 = dc) (hhigh : 0xc0000000 ≤ p.toNat) (hlow : p.toNat < 0xffc00000)
    (hal : p.toNat % pgSize = 0) (hp : s.frameAt (vpage kernelDir p) = some dc) :
    ∃ s1, GwOS.releasePdes p 768 0 s = .ok s1 ∧ FramesGave s s1 (ProcessFrame s K dc) := by
  have hD : D s.cr3 ∨ s.cr3 = dc := .inr hcr
  have hself := h.layout.selfMapped hD
  have hwalk : s.walk p = some dc := by
    rw [h.layout.walk_eq hD (dirIdx_ne_of_le hlow), vpage_kernel hhigh, hp]
  refine GwOS.releasePdes_ok (fun i => s.mem dc (BitVec.ofNat 10 i))
    (fun i j => s.mem (pageOf (s.mem dc (BitVec.ofNat 10 i))) (BitVec.ofNat 10 j)) h.pooled
    (fun i hi => load_word hal hwalk (by omega)) (fun i hi hpr j hj => ?_) (fun i hi hpr => .inr ⟨_, ?_, hpr, rfl⟩)
    (fun i hi hpr j hj hpr' => h.entryFrame hcr hi hj hpr hpr') 768 0 rfl
  · -- the table is seen through the last entry of the directory
    have hv : (BitVec.ofNat 32 (i * 0x400000)).toNat = i * 0x400000 := by
      rw [BitVec.toNat_ofNat]
      omega
    generalize BitVec.ofNat 32 (i * 0x400000) = v at hv
    have hdir : dirIdx v = BitVec.ofNat 10 i := by
      apply BitVec.eq_of_toNat_eq
      rw [dirIdx_toNat, hv, BitVec.toNat_ofNat]
      omega
    have hpde : s.pde v = s.mem dc (BitVec.ofNat 10 i) := by rw [Machine.pde, hcr, hdir]
    have htab : (tabIdx v).toNat = 0 := by
      rw [tabIdx, BitVec.extractLsb'_toNat, Nat.shiftRight_eq_div_pow, hv]
      omega
    have hal' : (ptePtr v).toNat % pgSize = 0 := by
      rw [ptePtr_eq, wordAddr_toNat, htab]
      unfold pgSize
      omega
    rw [load_word hal' (hself.walk_ptePtr (hpde ▸ hpr)) hj, Machine.tableOf, hpde]
  · show (BitVec.ofNat 10 i).toNat < 768
    rw [BitVec.toNat_ofNat]
    omega

end Exiting

end Exit

/-! ## The kernel under another directory -/

section Under

variable {s s1 : Memory} {D : Frame → Prop} {d d' : Frame} {v a : Addr} {cnt : Nat} {pf : PoolFlag}

/-- The same memory with another directory. -/
def Memory.withCr3 (s : Memory) (d : Frame) : Memory := { s with cr3 := d }

/-- The directory shows itself and the kernel. -/
structure ShowsKernel (mem : Frame → Page) (d : Frame) : Prop where
  self : Present (mem d 1023) ∧ pageOf (mem d 1023) = d
  shared : ∀ i : BitVec 10, 768 ≤ i → i ≠ 1023 → Present (mem d i) ∧ pageOf (mem d i) = kernelTable i
  other : ∀ i : BitVec 10, 768 ≤ i → i ≠ 1023 → kernelTable i ≠ d

theorem Layout.showsKernel (hl : Layout s D) (hd : D d) : ShowsKernel s.mem d := by
  refine ⟨hl.self d hd, hl.shared d hd, fun i hi hne he => ?_⟩
  obtain ⟨hp, hpage⟩ := hl.shared d hd i hi hne
  exact (hl.isTable ⟨d, hd, i, hne, hp, hpage⟩).2 (he ▸ hd)

/-- `pfree` does not look at the directory. -/
theorem pfree_withCr3 (s : Memory) (d : Frame) (a : Addr) :
    pfree (s.withCr3 d) a = (pfree s a >>= fun s => .ok (s.withCr3 d)) := by
  rw [pfree, pfree]
  have hpool : ∀ pf, (s.withCr3 d).pool pf = s.pool pf := fun pf => by cases pf <;> rfl
  have hset : ∀ pf p, (s.withCr3 d).setPool pf p = (s.setPool pf p).withCr3 d := fun pf p => by
    cases pf <;> rfl
  simp only [hpool, hset, bind_assoc]
  rfl

theorem pfree_machine (s : Memory) (a : Addr) :
    Returns (pfree s a) fun s1 => s1.toMachine = s.toMachine := by
  unfold pfree
  refine .bind .any fun mp _ => .ok ?_
  dsimp only
  split <;> rfl

namespace ShowsKernel

theorem selfMapped (h : ShowsKernel s.mem d) : SelfMapped (s.withCr3 d).toMachine := h.self

/-- An entry of a table of the kernel. -/
theorem pte (h : ShowsKernel s.mem d) (hhigh : 0xc0000000 ≤ v.toNat) (hlow : v.toNat < 0xffc00000) :
    Present ((s.withCr3 d).pde v) ∧ (s.withCr3 d).tableOf v = kernelTable (dirIdx v) := by
  have hge : 768 ≤ dirIdx v := by
    show 768 ≤ (dirIdx v).toNat
    rw [dirIdx_toNat]
    omega
  exact h.shared _ hge (dirIdx_ne_of_le hlow)

theorem load (h : ShowsKernel s.mem d) (hhigh : 0xc0000000 ≤ v.toNat) (hlow : v.toNat < 0xffc00000) :
    (s.withCr3 d).load (ptePtr v) = .ok (s.mem (kernelTable (dirIdx v)) (tabIdx v)) := by
  obtain ⟨hp, ht⟩ := h.pte hhigh hlow
  rw [h.selfMapped.load_ptePtr hp, Machine.pte, ht]
  rfl

theorem store (h : ShowsKernel s.mem d) (hhigh : 0xc0000000 ≤ v.toNat) (hlow : v.toNat < 0xffc00000)
    (w : Addr) : (s.withCr3 d).store (ptePtr v) w =
      .ok ((s.withCr3 d).setWord (kernelTable (dirIdx v)) (tabIdx v) w) := by
  obtain ⟨hp, ht⟩ := h.pte hhigh hlow
  rw [h.selfMapped.store_ptePtr hp, ht]

theorem addrVir2phy (h : ShowsKernel s.mem d) (h' : ShowsKernel s.mem d') (hhigh : 0xc0000000 ≤ v.toNat)
    (hlow : v.toNat < 0xffc00000) :
    GwOS.addrVir2phy (s.withCr3 d).toMachine v = GwOS.addrVir2phy (s.withCr3 d').toMachine v := by
  rw [GwOS.addrVir2phy, GwOS.addrVir2phy, h.load hhigh hlow, h'.load hhigh hlow]

/-- `page_table_pte_remove` of a page of the kernel. -/
theorem remove (h : ShowsKernel s.mem d) (hhigh : 0xc0000000 ≤ v.toNat) (hlow : v.toNat < 0xffc00000) :
    pageTablePteRemove (s.withCr3 d) v = .ok (Memory.withCr3 { s with
      toMachine := s.setWord (kernelTable (dirIdx v)) (tabIdx v)
        (s.mem (kernelTable (dirIdx v)) (tabIdx v) &&& ~~~1) } d) := by
  rw [pageTablePteRemove]
  simp only [h.load hhigh hlow, h.store hhigh hlow, bind, Except.bind]
  rfl

/-- A table of the kernel is no directory. -/
theorem setWord (h : ShowsKernel s.mem d) (hhigh : 0xc0000000 ≤ v.toNat) (hlow : v.toNat < 0xffc00000)
    (i : BitVec 10) (w : Addr) : ShowsKernel (s.setWord (kernelTable (dirIdx v)) i w).mem d := by
  have hge : 768 ≤ dirIdx v := by
    show 768 ≤ (dirIdx v).toNat
    rw [dirIdx_toNat]
    omega
  have hmem : (s.setWord (kernelTable (dirIdx v)) i w).mem d = s.mem d :=
    s.setFrame_mem_ne _ fun he => h.other _ hge (dirIdx_ne_of_le hlow) he.symm
  refine ⟨?_, fun j hj hne => ?_, h.other⟩
  · rw [hmem]
    exact h.self
  · rw [hmem]
    exact h.shared j hj hne

/-- **The loops of `mfree_page`** do the same to pages of the kernel under each directory. -/
theorem mfreeLoop (h : ShowsKernel s.mem d) (h' : ShowsKernel s.mem d') (hhigh : 0xc0000000 ≤ v.toNat)
    (hend : v.toNat + cnt * pgSize ≤ 0xffc00000)
    (hloop : GwOS.mfreeLoop pf cnt v (s.withCr3 d') = .ok s1) :
    GwOS.mfreeLoop pf cnt v (s.withCr3 d) = .ok (s1.withCr3 d) := by
  induction cnt generalizing s v with
  | zero =>
    cases hloop
    rfl
  | succ cnt ih =>
    have hlow : v.toNat < 0xffc00000 := by
      unfold pgSize at hend
      omega
    rw [GwOS.mfreeLoop] at hloop ⊢
    obtain ⟨a, ha, hloop⟩ := bind_eq_ok.mp hloop
    refine bind_eq_ok.mpr ⟨a, (h.addrVir2phy h' hhigh hlow).trans ha, ?_⟩
    split at hloop
    · next hcond =>
      obtain ⟨s2, hfree, hloop⟩ := bind_eq_ok.mp hloop
      obtain ⟨s3, hrem, hloop⟩ := bind_eq_ok.mp hloop
      rw [pfree_withCr3] at hfree
      obtain ⟨s2', hfree', he2⟩ := bind_eq_ok.mp hfree
      cases he2
      have hm : s2'.toMachine = s.toMachine := pfree_machine s a s2' hfree'
      have h2 : ShowsKernel s2'.mem d := by rw [hm]; exact h
      have h2' : ShowsKernel s2'.mem d' := by rw [hm]; exact h'
      rw [h2'.remove hhigh hlow] at hrem
      cases hrem
      have hstep : (v + 0x1000).toNat = v.toNat + 0x1000 := by
        have h1 : (0x1000 : Addr).toNat = 0x1000 := rfl
        unfold pgSize at hend
        rw [BitVec.toNat_add, h1]
        omega
      have hrest := ih (h2.setWord hhigh hlow _ _) (h2'.setWord hhigh hlow _ _) (by omega)
        (next_toNat hend) hloop
      have hcond' : a.toNat % pgSize = 0 ∧ ((s.withCr3 d).pool pf).phyAddrStart ≤ a ∧
          (pf = .kernel → a < (s.withCr3 d).userPool.phyAddrStart) := by
        cases pf <;> exact hcond
      rw [if_pos hcond', pfree_withCr3]
      exact bind_eq_ok.mpr ⟨_, bind_eq_ok.mpr ⟨s2', hfree', rfl⟩,
        bind_eq_ok.mpr ⟨_, h2.remove hhigh hlow, hrest⟩⟩
    · cases hloop

/-- **`mfree_page`** of pages of the kernel. -/
theorem mfreePage (h : ShowsKernel s.mem d) (h' : ShowsKernel s.mem d') (hhigh : 0xc0000000 ≤ v.toNat)
    (hend : v.toNat + cnt * pgSize ≤ 0xffc00000)
    (hfree : GwOS.mfreePage (s.withCr3 d') .kernel v cnt = .ok s1) :
    GwOS.mfreePage (s.withCr3 d) .kernel v cnt = .ok (s1.withCr3 d) := by
  rw [GwOS.mfreePage] at hfree ⊢
  split at hfree
  · next hcnt =>
    have hlow : v.toNat < 0xffc00000 := by
      unfold pgSize at hend
      omega
    obtain ⟨a, ha, hfree⟩ := bind_eq_ok.mp hfree
    rw [if_pos hcnt]
    refine bind_eq_ok.mpr ⟨a, (h.addrVir2phy h' hhigh hlow).trans ha, ?_⟩
    split at hfree
    · next hcond =>
      obtain ⟨s2, hloop, hfree⟩ := bind_eq_ok.mp hfree
      rw [if_pos hcond]
      refine bind_eq_ok.mpr ⟨_, h.mfreeLoop h' hhigh hend hloop, ?_⟩
      rw [vaddrRemove] at hfree ⊢
      obtain ⟨mp, hmp, hs1⟩ := bind_eq_ok.mp hfree
      cases hs1
      exact bind_eq_ok.mpr ⟨mp, hmp, rfl⟩
    · cases hfree
  · cases hfree

end ShowsKernel

end Under

/-! ## `sys_exit` -/

section SysExit

variable {s s1 : Memory} {D : Frame → Prop} {g : VPage → Frame} {K L H : List VPage} {dc : Frame}
  {P : Addr → Prop} {t p bits v : Addr} {cnt n : Nat}

theorem vpages_sublist (d : Frame) (hn : n ≤ cnt) (v : Addr) :
    (vpages d n v).Sublist (vpages d cnt v) := by
  induction n generalizing cnt v with
  | zero => exact List.nil_sublist _
  | succ n ih =>
    obtain ⟨c, rfl⟩ : ∃ c, cnt = c + 1 := ⟨cnt - 1, by omega⟩
    exact (ih (by omega) (v + 0x1000)).cons_cons _

/-- The first pages of a run. -/
theorem Memory.OwnRun.first (h : s.OwnRun cnt v) (hn : n ≤ cnt) : s.OwnRun n v := by
  obtain ⟨idx, hidx, hv⟩ := h.place
  exact ⟨⟨idx, by omega, hv⟩, fun k hk => h.pool k ((vpages_sublist kernelDir hn v).subset hk)⟩

theorem SameRecords.vaddrsOk (h : SameRecords s s1) (hva : VaddrsOk s P) : VaddrsOk s1 P := by
  refine ⟨?_, ?_, ?_, fun t ht => ?_⟩
  · rw [h.kernelVaddr]
    exact hva.high
  · rw [h.kernelVaddr]
    exact hva.aligned
  · rw [h.kernelVaddr]
    exact hva.kernel
  · rw [h.pcb, h.btmp]
    exact hva.user t ht

theorem FramesGave.ranges {F : Frame → Prop} (h : FramesGave s s1 F) : SameRanges s s1 :=
  ⟨h.kernelRange.start, h.kernelRange.size, h.userRange.start, h.userRange.size⟩

/-- A page that is put aside may be released, unless it holds a directory. -/
theorem Owned.unhold {k : VPage} (h : Owned s D g L (k :: H)) (hD : ¬ D (g k)) :
    Owned s D g (k :: L) H := by
  have hperm : (L ++ k :: H).Perm ((k :: L) ++ H) := List.perm_middle
  have hmem : ∀ k', k' ∈ (k :: L) ++ H ↔ k' ∈ L ++ k :: H := fun k' => hperm.symm.mem_iff
  refine ⟨fun k' hk' => h.page k' ((hmem k').mp hk'), fun k' hk' => h.mapped k' ((hmem k').mp hk'),
    fun k' hk' k'' hk'' => h.inj k' ((hmem k').mp hk') k'' ((hmem k'').mp hk''),
    hperm.nodup_iff.mp h.nodup, fun k' hk' f hf => ?_, fun k' hk' => h.held k' (List.mem_cons_of_mem k hk')⟩
  rcases List.mem_cons.mp hk' with rfl | hk'
  · cases (h.held _ (List.mem_cons_self ..)).symm.trans hf
    exact hD
  · exact h.loose k' hk' f hf

/-- What `sys_exit` has left: the process has given back its pages and its bitmap, but for the
last page. The memory is seen through the directory of the kernel. -/
structure Exited (s s1 : Memory) (D : Frame → Prop) (g : VPage → Frame) (L H : List VPage) (dc : Frame) :
    Prop where
  layout : Layout s1 D
  owned : Owned s1 D g L H
  cr3 : s1.cr3 = kernelDir
  shows : ShowsKernel s1.mem dc
  ranges : SameRanges s s1
  start : s1.kernelVaddr.vaddrStart = s.kernelVaddr.vaddrStart
  len : s1.kernelVaddr.vaddrBitmap.len = s.kernelVaddr.vaddrBitmap.len
  pcb : s1.pcb = s.pcb
  frame : ∀ k ∈ L ++ H, s1.frameAt k = s.frameAt k
  vaddrs : ∀ P, VaddrsOk s P → VaddrsOk s1 P

/-- **`release_prog_resource`** when the process itself runs. -/
theorem Exiting.releaseProgResource (h : Exiting s D g K (vpages kernelDir cnt bits ++ L) H dc)
    (hcr : s.cr3 = dc) (hpg : (s.pcb t).pgDir = some p) (hbits : (s.pcb t).bits = bits)
    (hlen : (s.btmp bits).len = userBitmapLen) (hcnt : 22 ≤ cnt) (hrun : s.OwnRun cnt bits)
    (hdir : s.OwnRun 1 p) (hp : vpage kernelDir p ∈ H) (hpf : s.frameAt (vpage kernelDir p) = some dc)
    (hva : VaddrsOk s P) :
    ∃ s1, GwOS.releaseProgResource s t = .ok (s1.withCr3 dc) ∧ Exited s s1 D g L H dc := by
  obtain ⟨hhigh, hend, hal⟩ := hdir.bounds hva (Nat.le_refl 1)
  have hlow : p.toNat < 0xffc00000 := by
    unfold pgSize at hend
    omega
  obtain ⟨hhighb, hendb, -⟩ := (hrun.first hcnt).bounds hva (by decide)
  obtain ⟨s1, hloops, hgave⟩ := h.releasePdes hcr hhigh hlow hal hpf
  obtain ⟨hl1, ho1⟩ := h.gave hgave
  have hmem1 : s1.mem = s.mem := by rw [hgave.machine]
  have hcr1 : s1.cr3 = dc := by rw [hgave.machine, hcr]
  have hframe1 : ∀ k, s1.frameAt k = s.frameAt k := fun k => by
    rw [Memory.frameAt, hgave.machine]
    rfl
  have hkvaddr1 := hgave.same.kernelVaddr
  -- the same memory through the directory of the kernel
  have hl2 : Layout (s1.withCr3 kernelDir) D := hl1.congr (fun _ _ => rfl) rfl rfl
  have ho2 : Owned (s1.withCr3 kernelDir) D g (vpages kernelDir 22 bits ++ L) H := by
    refine (ho1.mono ?_).congr (fun _ _ => rfl) (fun _ _ => rfl) fun _ _ _ _ ht => ht
    exact (vpages_sublist kernelDir hcnt bits).append_right L
  have hsame2 : SameRecords s (s1.withCr3 kernelDir) := hgave.same.trans ⟨rfl, rfl, rfl, rfl⟩
  have hrun2 : (s1.withCr3 kernelDir).OwnRun 22 bits := (hrun.first hcnt).congr
    (hgave.ranges.trans ⟨rfl, rfl, rfl, rfl⟩) (congrArg VirtualAddr.vaddrStart hkvaddr1)
    (congrArg (fun va => va.vaddrBitmap.len) hkvaddr1) fun k _ => hframe1 k
  obtain ⟨s3, hfree, hranges, hrem⟩ := hrun2.mfreePage hl2 ho2 h.root (hsame2.vaddrsOk hva) (by decide)
  have hshows1 : ShowsKernel s1.mem dc := hmem1 ▸ h.layout.showsKernel (.inr rfl)
  have hshowsk : ShowsKernel s1.mem kernelDir := hmem1 ▸ h.layout.showsKernel (.inl h.root)
  have hfree' := hshows1.mfreePage hshowsk hhighb hendb hfree
  have hsame : s1.withCr3 dc = s1 := by
    rw [← hcr1]
    rfl
  rw [hsame] at hfree'
  have hdata : s3.mem dc = s1.mem dc :=
    hrem.keeps.data _ (List.mem_append_right _ hp) dc ((hframe1 _).trans hpf) h.new
  refine ⟨s3, ?_, hrem.layout, hrem.owned, hrem.steady.cr3, ?_, ?_, ?_, ?_, ?_, fun k hk => ?_, fun Q hQ => ?_⟩
  · rw [GwOS.releaseProgResource, hpg]
    refine bind_eq_ok.mpr ⟨s1, hloops, ?_⟩
    have hcount : (s1.btmp (s1.pcb t).bits).len / pgSize = 22 := by
      rw [hgave.same.btmp, hgave.same.pcb, hbits, hlen]
      decide
    dsimp only
    rw [hcount, hgave.same.pcb, hbits]
    exact hfree'
  · exact ⟨hdata ▸ hshows1.self, hdata ▸ hshows1.shared, hshows1.other⟩
  · exact hgave.ranges.trans ⟨hranges.kernelStart, hranges.kernelSize, hranges.userStart, hranges.userSize⟩
  · exact hrem.steady.start.trans (congrArg VirtualAddr.vaddrStart hkvaddr1)
  · exact hrem.steady.len.trans (congrArg (fun va => va.vaddrBitmap.len) hkvaddr1)
  · exact hrem.steady.pcb.trans hgave.same.pcb
  · exact (hrem.keeps.frame k hk).trans (hframe1 k)
  · exact hrem.steady.vaddrsOk (hsame2.vaddrsOk hQ)

end SysExit

/-! ## The child after the fork -/

section Child

variable {s base s5 s6 : Memory} {threads : List Addr} {D : Frame → Prop} {g : VPage → Frame}
  {L H : List VPage} {child tran bits p v : Addr} {dc : Frame} {cnt : Nat}

namespace ForkSteps

variable (hf : ForkSteps s base s5 s6 threads D g L H child tran bits p dc)

include hf

/-- The new process could exit at once. -/
theorem exiting : Exiting s6 D (Function.update g (vpage kernelDir p) dc) (s.userPages.map (vpage dc))
    (vpages kernelDir userBitmapPages bits ++ L) (vpage kernelDir p :: H) dc := by
  have hroot := hf.ready.managed.layout.root
  have ho := hf.removed.owned
  rw [List.append_assoc] at ho
  refine ⟨hf.removed.layout, ho, hroot, hf.start.isNew, fun k hk => ?_, fun v hv hne => ?_⟩
  · have hold : k ∈ L ++ H → D k.1 := fun h => (hf.ready.managed.owned.page k h).1
    rcases List.mem_append.mp hk with hk | hk
    · rcases List.mem_append.mp hk with hk | hk
      · rw [fst_of_mem_vpages hk]
        exact hroot
      · exact hold (List.mem_append_left H hk)
    · rcases List.mem_cons.mp hk with rfl | hk
      · rw [fst_vpage_kernel]
        exact hroot
      · exact hold (List.mem_append_right L hk)
  · have hlow := lt_of_dirIdx_lt hv
    have hw : s.walk v ≠ none := fun hw => hne ((hf.childWalk hlow).symm.trans (hf.child_unmapped hlow hw))
    obtain ⟨w, hw, hkey⟩ := hf.ready.mem_done hlow hw
    rw [← hkey]
    exact List.mem_map_of_mem hw

theorem sameStart : s6.kernelVaddr.vaddrStart = s.kernelVaddr.vaddrStart := by
  rw [hf.removed.steady.start, hf.copied.same.kernelVaddr, hf.start.start]

theorem sameLen : s6.kernelVaddr.vaddrBitmap.len = s.kernelVaddr.vaddrBitmap.len := by
  rw [hf.removed.steady.len, hf.copied.same.kernelVaddr, hf.start.len]

/-- A run that is owned before the loops start is owned at the end. -/
theorem runOf (hrun : base.OwnRun cnt v) (hbase : ∀ k ∈ vpages kernelDir cnt v,
      k ∈ (vpages kernelDir userBitmapPages bits ++ (vpages kernelDir 1 tran ++ L)) ++ vpage kernelDir p :: H)
    (hend : ∀ k ∈ vpages kernelDir cnt v,
      k ∈ ((s.userPages.map (vpage dc) ++ vpages kernelDir userBitmapPages bits) ++ L) ++
        vpage kernelDir p :: H) : s6.OwnRun cnt v := by
  have h5 : s5.OwnRun cnt v := hrun.congr hf.copied.ranges (by rw [hf.copied.same.kernelVaddr])
    (by rw [hf.copied.same.kernelVaddr]) fun k hk => hf.copied.frame k (hbase k hk)
  exact h5.congr hf.ranges hf.removed.steady.start hf.removed.steady.len fun k hk =>
    hf.removed.keeps.frame k (hend k hk)

theorem bitsRun : s6.OwnRun userBitmapPages bits :=
  hf.runOf hf.start.bitsRun (fun _ hk => List.mem_append_left _ (List.mem_append_left _ hk)) fun _ hk =>
    List.mem_append_left _ (List.mem_append_left _ (List.mem_append_right _ hk))

theorem dirRun : s6.OwnRun 1 p :=
  hf.runOf hf.start.dirRun (fun _ hk => List.mem_append_right _ (List.mem_singleton.mp hk ▸ List.mem_cons_self ..))
    fun _ hk => List.mem_append_right _ (List.mem_singleton.mp hk ▸ List.mem_cons_self ..)

/-- A run that the parent has owned. -/
theorem oldRun (hrun : s.OwnRun cnt v) (hL : ∀ k ∈ vpages kernelDir cnt v, k ∈ L) : s6.OwnRun cnt v := by
  have hb : base.OwnRun cnt v := hrun.congr hf.start.ranges hf.start.start hf.start.len fun k hk =>
    hf.start.grew.frame k (List.mem_append_left H (hL k hk))
  exact hf.runOf hb (fun k hk => List.mem_append_left _ (List.mem_append_right _ (List.mem_append_right _ (hL k hk))))
    fun k hk => List.mem_append_left _ (List.mem_append_right _ (hL k hk))

theorem dirFrame : s6.frameAt (vpage kernelDir p) = some dc := by
  have h := hf.removed.owned.held _ (List.mem_cons_self ..)
  rwa [Function.update_self] at h

theorem childRecord : (s6.pcb child).pgDir = some p ∧ (s6.pcb child).bits = bits := by
  rw [hf.pcb, hf.start.record]
  exact ⟨rfl, rfl⟩

/-- **The switch to the child.** -/
theorem switchTo : s6.switchTo child = .ok { s6 with cr3 := dc, running := child } := by
  obtain ⟨q, hq, hhigh, hlow, hmem, hg⟩ := hf.start.copy.child
  rw [← hf.pcb] at hq
  have hd := Records.pageDirActivate_ok hf.removed.layout hf.removed.owned.held
    (by rw [hf.cr3]; exact .inl hf.active) (t := child) fun w hw => by
      cases hq.symm.trans hw
      exact ⟨hhigh, hlow, hmem⟩
  have hdc : s6.dirFrame (Function.update g (vpage kernelDir p) dc) child = dc := by
    rw [Memory.dirFrame, hq]
    exact hg
  rw [Memory.switchTo, hd, hdc]
  rfl

end ForkSteps

end Child

/-! ## `sys_wait` -/

section Wait

variable {s s1 : Memory} {D : Frame → Prop} {g : VPage → Frame} {L H : List VPage} {dc d : Frame}
  {P : Addr → Prop} {t p q child : Addr}

/-- Another process is switched to when one has exited. -/
theorem Exited.switchTo (h : Exited s s1 D g L H dc) (hroot : D kernelDir) (hq : (s.pcb t).pgDir = some q)
    (hhigh : 0xc0000000 ≤ q.toNat) (hlow : q.toNat < 0xffc00000) (hmem : vpage kernelDir q ∈ H) :
    (s1.withCr3 dc).switchTo t = .ok { s1 with cr3 := g (vpage kernelDir q), running := t } := by
  have hq1 : (s1.pcb t).pgDir = some q := by rw [h.pcb, hq]
  have hd := Records.pageDirActivate_ok h.layout h.owned.held (by rw [h.cr3]; exact hroot) (t := t)
    fun w hw => by
      cases hq1.symm.trans hw
      exact ⟨hhigh, hlow, hmem⟩
  have hdir : s1.dirFrame g t = g (vpage kernelDir q) := by rw [Memory.dirFrame, hq1]
  rw [hdir, pageDirActivate, hq1] at hd
  obtain ⟨a, ha, hs⟩ := bind_eq_ok.mp hd
  have ha' : addrVir2phy (s1.withCr3 dc).toMachine q = .ok a := by
    rw [h.shows.addrVir2phy (h.layout.showsKernel hroot) hhigh hlow, ← ha, ← h.cr3]
    rfl
  rw [Memory.switchTo, pageDirActivate, show ((s1.withCr3 dc).pcb t).pgDir = some q from hq1]
  refine bind_eq_ok.mpr ⟨{ s1 with cr3 := g (vpage kernelDir q) }, bind_eq_ok.mpr ⟨a, ha', ?_⟩, rfl⟩
  exact hs

/-- **`thread_exit`** of a process that has exited. -/
theorem Exited.threadExit (h : Exited s s1 D g (vpages kernelDir 1 child ++ L) (vpage kernelDir p :: H) dc)
    (hd : D d) (hnew : ¬ D (g (vpage kernelDir p))) (hpg : (s.pcb child).pgDir = some p)
    (hva : VaddrsOk s P) (hdir : s.OwnRun 1 p) (hchild : s.OwnRun 1 child) (main : Addr) :
    ∃ s2, Memory.threadExit { s1 with cr3 := d, running := t } main child = .ok s2 := by
  have hva1 := h.vaddrs P hva
  generalize hs3 : ({ s1 with cr3 := d, running := t } : Memory) = s3
  have hframe : ∀ k, s3.frameAt k = s1.frameAt k := fun k => by rw [← hs3]; rfl
  have hl3 : Layout s3 D := by
    rw [← hs3]
    exact h.layout.congr (fun _ _ => rfl) rfl rfl
  have ho3 : Owned s3 D g (vpages kernelDir 1 p ++ (vpages kernelDir 1 child ++ L)) H := by
    rw [← hs3]
    exact (h.owned.unhold hnew).congr (fun _ _ => rfl) (fun _ _ => rfl) fun _ _ _ _ ht => ht
  have hcr3 : D s3.cr3 := by
    rw [← hs3]
    exact hd
  have hva3 : VaddrsOk s3 P := by
    rw [← hs3]
    exact ⟨hva1.high, hva1.aligned, hva1.kernel, hva1.user⟩
  have hrun : ∀ v, s.OwnRun 1 v → vpage kernelDir v ∈
      (vpages kernelDir 1 child ++ L) ++ vpage kernelDir p :: H → s3.OwnRun 1 v := by
    intro v hv hmem
    have hv1 := hv.congr h.ranges h.start h.len fun k hk => h.frame k (List.mem_singleton.mp hk ▸ hmem)
    rw [← hs3]
    exact hv1.congr ⟨rfl, rfl, rfl, rfl⟩ rfl rfl fun _ _ => rfl
  obtain ⟨s4, h4, hranges, hrem⟩ := (hrun p hdir (List.mem_append_right _ (List.mem_cons_self ..))).mfreePage
    hl3 ho3 hcr3 hva3 (Nat.le_refl 1)
  have hchild4 : s4.OwnRun 1 child := by
    have hmem : vpage kernelDir child ∈ vpages kernelDir 1 child ++ L := List.mem_cons_self ..
    refine (hrun child hchild (List.mem_append_left _ hmem)).congr hranges hrem.steady.start hrem.steady.len
      fun k hk => hrem.keeps.frame k (List.mem_append_left _ ?_)
    rw [List.mem_singleton.mp hk]
    exact hmem
  obtain ⟨s5, h5, -, -⟩ := hchild4.mfreePage hrem.layout hrem.owned (by rw [hrem.steady.cr3]; exact hcr3)
    (hrem.steady.vaddrsOk hva3) (Nat.le_refl 1)
  have hpg3 : (s3.pcb child).pgDir = some p := by
    rw [← hs3]
    show (s1.pcb child).pgDir = some p
    rw [h.pcb, hpg]
  rw [Memory.threadExit, hpg3]
  by_cases hmain : child = main
  · refine ⟨s4, bind_eq_ok.mpr ⟨s4, h4, ?_⟩⟩
    dsimp only
    rw [if_neg (not_not_intro hmain)]
  · refine ⟨s5, bind_eq_ok.mpr ⟨s4, h4, ?_⟩⟩
    dsimp only
    rw [if_pos hmain]
    exact h5

/-- **The child exits** as soon as it runs. -/
theorem ForkSteps.exits {threads : List Addr} {s5 s6 base : Memory} {tran bits : Addr}
    (hf : ForkSteps s base s5 s6 threads D g L H child tran bits p dc)
    (hlen : (s.vaddrBitmap .user).len = userBitmapLen) :
    ∃ s8, releaseProgResource { s6 with cr3 := dc, running := child } child = .ok (s8.withCr3 dc) ∧
      Exited s6 s8 D (Function.update g (vpage kernelDir p) dc) L (vpage kernelDir p :: H) dc := by
  obtain ⟨hpg, hbits⟩ := hf.childRecord
  have hex := hf.exiting
  have hva := hf.removed.steady.vaddrsOk hf.copied.managed.vaddrsOk
  have hlen6 : (s6.btmp bits).len = userBitmapLen := by rw [hf.duplicated.bitmap.2, hlen]
  have hframe := hf.dirFrame
  have hbitsRun := hf.bitsRun
  have hdirRun := hf.dirRun
  generalize hs7 : ({ s6 with cr3 := dc, running := child } : Memory) = s7
  have hex7 : Exiting s7 D (Function.update g (vpage kernelDir p) dc) (s.userPages.map (vpage dc))
      (vpages kernelDir userBitmapPages bits ++ L) (vpage kernelDir p :: H) dc := by
    rw [← hs7]
    exact ⟨hex.layout.congr (fun _ _ => rfl) rfl rfl, hex.owned.congr (fun _ _ => rfl) (fun _ _ => rfl)
      (fun _ _ _ _ ht => ht), hex.root, hex.new, hex.others, hex.covered⟩
  have hrun7 : ∀ cnt v, s6.OwnRun cnt v → s7.OwnRun cnt v := fun cnt v hv => by
    rw [← hs7]
    exact hv.congr ⟨rfl, rfl, rfl, rfl⟩ rfl rfl fun _ _ => rfl
  have hva7 : ∀ P, VaddrsOk s6 P → VaddrsOk s7 P := fun P hP => by
    rw [← hs7]
    exact ⟨hP.high, hP.aligned, hP.kernel, hP.user⟩
  have hpcb7 : s7.pcb = s6.pcb := by rw [← hs7]
  obtain ⟨s8, hrel, hexited⟩ := hex7.releaseProgResource (by rw [← hs7]) (by rw [hpcb7, hpg])
    (by rw [hpcb7, hbits]) (by rw [← hs7]; exact hlen6) (by decide) (hrun7 _ _ hbitsRun)
    (hrun7 _ _ hdirRun) (List.mem_cons_self ..) (by rw [← hs7]; exact hframe) (hva7 _ hva)
  have hranges := hexited.ranges
  have hstart := hexited.start
  have hlen8 := hexited.len
  have hkeep := hexited.frame
  subst hs7
  exact ⟨s8, hrel, hexited.layout, hexited.owned, hexited.cr3, hexited.shows,
    ⟨hranges.kernelStart, hranges.kernelSize, hranges.userStart, hranges.userSize⟩, hstart, hlen8,
    hpcb7 ▸ hexited.pcb, fun k hk => hkeep k hk, fun P hP => hexited.vaddrs P (hva7 P hP)⟩

/-- **The life of a child** runs to its end when the parent has enough memory. -/
theorem Tracked.forkExitWait {threads : List Addr} (h : Tracked s threads D g L H)
    (hname : (s.pcb s.running).name.length < 11)
    (hlen : (s.vaddrBitmap .user).len = userBitmapLen) {j : Nat}
    (hj : j + 26 < s.kernelVaddr.vaddrBitmap.len) (hfree : s.kernelVaddr.vaddrBitmap.FreeAt j 26)
    (hkernel : 26 + (tablesFrom (s.vaddrBitmap .user) (s.vaddrStart .user) 0).card ≤ s.kernelPool.spare.card)
    (huser : (markedFrom (s.vaddrBitmap .user) 0).card ≤ s.userPool.spare.card) (main : Addr) :
    ∃ s', s.forkExitWait main = .ok (some s') := by
  obtain ⟨child, s1, c, hget, hgot, hu1, hbits1, -, hready⟩ := h.readyToFork hname hj hfree hkernel huser
  have hpcb1 : s1.pcb s1.running = s.pcb s.running := by rw [hgot.pcb, hgot.running]
  -- the fork
  obtain ⟨base, s5, s6, tran, bits, p, dc, hcopy, hf⟩ := hready.steps
  have hfork : s.sysFork = .ok (some child, s6) := by
    have hproc : (s1.pcb s.running).pgDir ≠ none := by
      rw [← hgot.running]
      exact hready.process
    rw [hgot.running] at hcopy
    unfold Memory.sysFork
    refine bind_eq_ok.mpr ⟨_, hget, ?_⟩
    dsimp only
    rw [if_neg hproc]
    exact bind_eq_ok.mpr ⟨_, hcopy, rfl⟩
  -- the exit
  obtain ⟨hpg, -⟩ := hf.childRecord
  have hva := hf.removed.steady.vaddrsOk hf.copied.managed.vaddrsOk
  have hchild := hf.oldRun (hgot.ownRun hu1) fun k hk => List.mem_append_left L hk
  have hparent : s6.pcb s.running = s.pcb s.running := by
    have hp := hf.duplicated.parent
    rwa [hpcb1, hgot.running] at hp
  obtain ⟨s8, hrel, hexited⟩ := hf.exits (by rw [hbits1, hlen])
  -- the parent again
  obtain ⟨q, hq⟩ := Option.ne_none_iff_exists'.mp h.process
  obtain ⟨hhigh, hlow, hmem, hD, -⟩ := h.managed.records.procs _ h.managed.running q hq
  have hback := hexited.switchTo hf.exiting.root (by rw [hparent, hq]) hhigh hlow
    (List.mem_cons_of_mem _ hmem)
  have hne : vpage kernelDir q ≠ vpage kernelDir p := by
    intro he
    have hnd := (List.nodup_append'.mp hf.exiting.owned.nodup).2.1
    exact (List.nodup_cons.mp hnd).1 (he ▸ hmem)
  rw [Function.update_of_ne hne] at hback
  have hnew : ¬ D (Function.update g (vpage kernelDir p) dc (vpage kernelDir p)) := by
    rw [Function.update_self]
    exact hf.exiting.new
  obtain ⟨s9, hexit⟩ := hexited.threadExit (t := s.running) hD hnew hpg hva hf.dirRun hchild main
  refine ⟨s9, ?_⟩
  unfold Memory.forkExitWait
  refine bind_eq_ok.mpr ⟨_, hfork, bind_eq_ok.mpr ⟨_, hf.switchTo, bind_eq_ok.mpr ⟨_, hrel,
    bind_eq_ok.mpr ⟨_, hback, bind_eq_ok.mpr ⟨_, hexit, rfl⟩⟩⟩⟩⟩

end Wait

/-! ## What is left -/

section Conserved

variable {s s' : Memory}

/-- The bitmaps of the pools and of the virtual pages of the kernel are the same. -/
def Memory.Conserved (s s' : Memory) : Prop :=
  s'.kernelPool.poolBitmap = s.kernelPool.poolBitmap ∧ s'.userPool.poolBitmap = s.userPool.poolBitmap ∧
    s'.kernelVaddr.vaddrBitmap = s.kernelVaddr.vaddrBitmap

/-- There is memory for a child of the running process: 26 pages of the kernel, the tables and a frame
for each page. -/
def Memory.RoomForChild (s : Memory) : Prop := ∃ threads D g L H, Tracked s threads D g L H ∧
  (s.pcb s.running).name.length < 11 ∧ (s.vaddrBitmap .user).len = userBitmapLen ∧
  (∃ j, j + 26 < s.kernelVaddr.vaddrBitmap.len ∧ s.kernelVaddr.vaddrBitmap.FreeAt j 26) ∧
  26 + (tablesFrom (s.vaddrBitmap .user) (s.vaddrStart .user) 0).card ≤ s.kernelPool.spare.card ∧
  (markedFrom (s.vaddrBitmap .user) 0).card ≤ s.userPool.spare.card

theorem Memory.RoomForChild.completes (h : s.RoomForChild) (main : Addr) :
    ∃ s', s.forkExitWait main = .ok (some s') := by
  obtain ⟨threads, D, g, L, H, ht, hname, hlen, ⟨j, hj, hfree⟩, hkernel, huser⟩ := h
  exact ht.forkExitWait hname hlen hj hfree hkernel huser main

theorem not_conserved (hk : s.KernelSpace) (hu : (s.btmp (s.pcb s.running).bits).len ≤ userBitmapLen)
    {main : Addr} (h : s.forkExitWait main = .ok (some s')) : ¬ s.Conserved s' := by
  rintro ⟨-, -, hbits⟩
  obtain ⟨idx, hclear, hset⟩ := forkExitWait_keepsLast hk hu main _ h s' rfl
  rw [hbits, hclear] at hset
  cases hset

/-- `init` with its page of stack. -/
theorem InitTracked.room {threads : List Addr} {D : Frame → Prop} {g : VPage → Frame} {L H : List VPage}
    (h : InitTracked s threads D g L H) :
    s.KernelSpace ∧ (s.btmp (s.pcb s.running).bits).len ≤ userBitmapLen ∧ s.RoomForChild := by
  have hlen := h.len
  have hk := h.kernelPool
  have hu := h.userPool
  have hmarked := h.marked
  have htables : (tablesFrom (s.vaddrBitmap .user) (s.vaddrStart .user) 0).card ≤ 1 :=
    Nat.le_trans Finset.card_image_le hmarked
  refine ⟨⟨h.managed.vaddrsOk.kernel, ?_⟩, Nat.le_of_eq h.bits, threads, D, g, L, H, h.toTracked, ?_,
    h.bits, ⟨25, by omega, h.rest 26⟩, by omega, by omega⟩
  · rw [hlen]
    decide
  · rw [h.name]
    decide

/-- **A process costs a page.** Whenever a child has been forked, has exited and has been reaped, the
bitmaps are not what they were; and the parent gets so far if there is memory for the child. -/
theorem forkExitWait_never_conserves (hk : s.KernelSpace)
    (hu : (s.btmp (s.pcb s.running).bits).len ≤ userBitmapLen) (main : Addr) :
    (∀ s', s.forkExitWait main = .ok (some s') → ¬ s.Conserved s') ∧
      (s.RoomForChild → ∃ s', s.forkExitWait main = .ok (some s')) :=
  ⟨fun _ h => not_conserved hk hu h, fun h => h.completes main⟩

/-- `init` forks a child, which exits and is reaped. -/
theorem forkExitWait_never_conserves_init : ∃ s s' : Memory, s.InitStarted ∧
    s.forkExitWait bootMemory.running = .ok (some s') ∧ ¬ s.Conserved s' := by
  obtain ⟨s, hstarted, threads, D, g, L, H, h⟩ := init_tracked
  obtain ⟨hk, hu, hroom⟩ := h.room
  obtain ⟨hleft, hcompletes⟩ := forkExitWait_never_conserves hk hu bootMemory.running
  obtain ⟨s', hs'⟩ := hcompletes hroom
  exact ⟨s, s', hstarted, hs', hleft s' hs'⟩

/-- The memory is not conserved. -/
theorem forkExitWait_loses : ¬ ∀ s s' : Memory, s.InitStarted → s.RoomForChild →
    s.forkExitWait bootMemory.running = .ok (some s') → s.Conserved s' := by
  intro hall
  obtain ⟨s, hstarted, threads, D, g, L, H, h⟩ := init_tracked
  obtain ⟨hk, hu, hroom⟩ := h.room
  obtain ⟨s', hs'⟩ := hroom.completes bootMemory.running
  exact not_conserved hk hu hs' (hall s s' hstarted hroom hs')

end Conserved

end GwOS
