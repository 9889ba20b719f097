import GwOS.Userprog.RoundTrip

/-!
# The bitmaps of the processes and their pages

`page_table_add` stops at an `ASSERT` when the page that it is given is mapped. It is given the
pages whose bits in the bitmap of the process are not set, so what is needed is that no such page
is mapped: `Marked`, of all processes at once, since any of them may run next.

- `Marked.keep`: what a step on pages has to do with the bitmaps.
- `Orderly` is what the callers see to: a process takes and gives back its own pages with its own
  bitmap, and the kernel its own.
- `Tidy.move`, `Runs.tidy`: every orderly run keeps `Marked`.
-/

namespace GwOS

namespace Memory

/-- The thread is a process. -/
def IsProcess (s : Memory) (t : Addr) : Prop := (s.pcb t).pgDir ≠ none

/-- The bitmap of a process. -/
def progBitmap (s : Memory) (t : Addr) : Bitmap := s.btmp (s.pcb t).bits

/-- The page that a bit of it stands for. -/
def progPage (s : Memory) (g : VPage → Frame) (t : Addr) (i : Nat) : VPage :=
  vpage (s.dirFrame g t) (progVaddr (s.pcb t).vaddrStart i)

end Memory

/-- Each process has a directory and a bitmap of its own, and a page is mapped only if its bit is
set. -/
structure Marked (s : Memory) (threads : List Addr) (g : VPage → Frame) : Prop where
  dirs : ∀ t ∈ threads, ∀ u ∈ threads, s.IsProcess t → s.IsProcess u → t ≠ u →
    s.dirFrame g t ≠ s.dirFrame g u
  bits : ∀ t ∈ threads, ∀ u ∈ threads, s.IsProcess t → s.IsProcess u → t ≠ u →
    (s.pcb t).bits ≠ (s.pcb u).bits
  clean : ∀ t ∈ threads, s.IsProcess t → ∀ i < 8 * (s.progBitmap t).len,
    (s.progBitmap t).bit i = false → s.frameAt (s.progPage g t i) = none

/-- The pages of the processes are mapped as before, except those of `N`. -/
def UserSame (D : Frame → Prop) (N : List VPage) (s s' : Memory) : Prop :=
  ∀ k, ProperPage D k → k.1 ≠ kernelDir → k ∉ N → s'.frameAt k = s.frameAt k

section Marks

variable {s s' s1 : Memory} {threads : List Addr} {D : Frame → Prop} {g : VPage → Frame}
  {L L' H N : List VPage} {t u v : Addr} {i cnt : Nat} {pf : PoolFlag}

theorem UserSame.trans (h : UserSame D N s s1) (h' : UserSame D N s1 s') : UserSame D N s s' :=
  fun k hk hne hN => (h' k hk hne hN).trans (h k hk hne hN)

theorem UserSame.mono {N' : List VPage} (h : UserSame D N s s') (hsub : N ⊆ N') :
    UserSame D N' s s' := fun k hk hne hN => h k hk hne fun hmem => hN (hsub hmem)

theorem PagesAdded.userSame (h : PagesAdded s s' D g L H N) : UserSame D N s s' :=
  fun k hk _ hN => h.grew.proper k hk hN

theorem PagesRemoved.userSame (h : PagesRemoved s s' D g L H N) : UserSame D N s s' :=
  fun k hk _ hN => h.keeps.proper k hk hN

/-- Pages of the kernel do not count. -/
theorem UserSame.kernel (h : UserSame D N s s') (hN : ∀ k ∈ N, k.1 = kernelDir) :
    UserSame D [] s s' := fun k hk hne _ => h k hk hne fun hmem => hne (hN k hmem)

/-! ## The pages of a process -/

/-- The directory of a process is not that of the kernel. -/
theorem Managed.dirFrame_ne (h : Managed s threads D g L H) (ht : t ∈ threads)
    (hp : s.IsProcess t) : s.dirFrame g t ≠ kernelDir := by
  obtain ⟨p, hpg⟩ := Option.ne_none_iff_exists'.mp hp
  have hproc := h.records.procs t ht p hpg
  obtain ⟨f, hf, htaken, -⟩ := h.owned.mapped _ (List.mem_append_right L hproc.dir)
  cases hf.symm.trans (h.owned.held _ hproc.dir)
  have hge := h.layout.taken_ge htaken
  rw [Memory.dirFrame, hpg]
  intro he
  dsimp only at he
  rw [he] at hge
  exact absurd hge (by decide)

theorem Managed.progVaddr_low (h : Managed s threads D g L H) (ht : t ∈ threads)
    (hi : i < 8 * (s.progBitmap t).len) : progVaddr (s.pcb t).vaddrStart i < 0xc0000000 := by
  obtain ⟨heq, hlt⟩ := (h.records.user t ht).progVaddr_toNat hi
  show (progVaddr (s.pcb t).vaddrStart i).toNat < (0xc0000000 : Addr).toNat
  rw [heq]
  exact hlt

/-- It is a page under the directory of the process. -/
theorem Managed.progPage_eq (h : Managed s threads D g L H) (ht : t ∈ threads)
    (hi : i < 8 * (s.progBitmap t).len) :
    s.progPage g t i = (s.dirFrame g t, pageOf (progVaddr (s.pcb t).vaddrStart i)) :=
  vpage_low _ (dirIdx_lt_of_low (h.progVaddr_low ht hi))

theorem Managed.progPage_proper (h : Managed s threads D g L H) (ht : t ∈ threads)
    (hp : s.IsProcess t) (hi : i < 8 * (s.progBitmap t).len) : ProperPage D (s.progPage g t i) := by
  have hlow := dirIdx_lt_of_low (h.progVaddr_low ht hi)
  exact h.layout.proper_vpage (h.records.dirFrame_mem h.layout.root ht) (dirIdx_ne_of_low hlow)
    fun _ => h.dirFrame_ne ht hp

/-- A page that is entered or removed in the running directory is none of another process. -/
theorem Managed.progPage_other (h : Managed s threads D g L H) (hm : Marked s threads g)
    (hrun : s.IsProcess s.running) (ht : t ∈ threads) (hp : s.IsProcess t) (hne : t ≠ s.running)
    (hi : i < 8 * (s.progBitmap t).len) : s.progPage g t i ∉ vpages s.cr3 cnt v := by
  intro hmem
  obtain ⟨j, -, hj⟩ := mem_vpages hmem
  have hfst := congrArg Prod.fst hj
  rw [h.progPage_eq ht hi, vpage] at hfst
  dsimp only at hfst
  split at hfst
  · exact h.dirFrame_ne ht hp hfst
  · rw [h.records.current] at hfst
    exact hm.dirs t ht _ h.running hp hrun hne hfst

/-- Different bits stand for different pages. -/
theorem Managed.progPage_inj (h : Managed s threads D g L H) (ht : t ∈ threads) {j : Nat}
    (hi : i < 8 * (s.progBitmap t).len) (hj : j < 8 * (s.progBitmap t).len)
    (he : s.progPage g t i = s.progPage g t j) : i = j := by
  obtain ⟨hi', -⟩ := (h.records.user t ht).progVaddr_toNat hi
  obtain ⟨hj', -⟩ := (h.records.user t ht).progVaddr_toNat hj
  have hal := (h.records.user t ht).aligned
  rw [h.progPage_eq ht hi, h.progPage_eq ht hj] at he
  have hpage : (pageOf (progVaddr (s.pcb t).vaddrStart i)).toNat =
    (pageOf (progVaddr (s.pcb t).vaddrStart j)).toNat := congrArg (fun k : VPage => k.2.toNat) he
  rw [pageOf_toNat, pageOf_toNat, hi', hj'] at hpage
  unfold pgSize at *
  omega

/-- An address whose bit is in the bitmap. -/
theorem Managed.pageAfter_toNat (h : Managed s threads D g L H) {j : Nat}
    (hj : pageIdx v (s.vaddrStart .user) + j < 8 * (s.progBitmap s.running).len) :
    (v + BitVec.ofNat 32 (j * pgSize)).toNat =
      (s.pcb s.running).vaddrStart.toNat + (v - (s.pcb s.running).vaddrStart).toNat + j * pgSize ∧
    v + BitVec.ofNat 32 (j * pgSize) < 0xc0000000 := by
  obtain ⟨heq, hlt⟩ := (h.records.user _ h.running).progVaddr_toNat hj
  have hal := (h.records.user _ h.running).aligned
  have hidx : pageIdx v (s.vaddrStart .user) = (v - (s.pcb s.running).vaddrStart).toNat / pgSize := rfl
  rw [hidx] at heq hlt hj
  have hv : (v + BitVec.ofNat 32 (j * pgSize)).toNat =
      (s.pcb s.running).vaddrStart.toNat + (v - (s.pcb s.running).vaddrStart).toNat + j * pgSize := by
    have hsub := BitVec.toNat_sub v (s.pcb s.running).vaddrStart
    rw [BitVec.toNat_add, BitVec.toNat_ofNat]
    unfold pgSize at *
    omega
  refine ⟨hv, ?_⟩
  show (v + BitVec.ofNat 32 (j * pgSize)).toNat < (0xc0000000 : Addr).toNat
  have h0 : (0xc0000000 : Addr).toNat = 0xc0000000 := rfl
  rw [hv]
  unfold pgSize at *
  omega

/-- The pages from `v` on and their bits. -/
theorem Managed.vpage_progPage (h : Managed s threads D g L H) {j : Nat}
    (hj : pageIdx v (s.vaddrStart .user) + j < 8 * (s.progBitmap s.running).len) :
    vpage s.cr3 (v + BitVec.ofNat 32 (j * pgSize)) =
      s.progPage g s.running (pageIdx v (s.vaddrStart .user) + j) := by
  obtain ⟨heq, -⟩ := (h.records.user _ h.running).progVaddr_toNat hj
  have hal := (h.records.user _ h.running).aligned
  have hidx : pageIdx v (s.vaddrStart .user) = (v - (s.pcb s.running).vaddrStart).toNat / pgSize := rfl
  obtain ⟨hv, hlow⟩ := h.pageAfter_toNat hj
  rw [hidx] at heq hj ⊢
  rw [h.progPage_eq h.running hj, vpage_low _ (dirIdx_lt_of_low hlow), h.records.current]
  refine congrArg _ (BitVec.eq_of_toNat_eq ?_)
  rw [pageOf_toNat, pageOf_toNat, heq, hv]
  unfold pgSize at *
  omega

theorem Managed.pageIdx_start (h : Managed s threads D g L H)
    (hi : i < 8 * (s.progBitmap s.running).len) :
    pageIdx (s.vaddrStart .user + BitVec.ofNat 32 (i * pgSize)) (s.vaddrStart .user) = i := by
  have hrange := h.vaddrsOk.range h.running .user
  have hlen : (s.vaddrBitmap .user).len = (s.progBitmap s.running).len := rfl
  rw [pageIdx, BitVec.add_comm, BitVec.add_sub_cancel, BitVec.toNat_ofNat]
  unfold pgSize at *
  omega

theorem Managed.progPage_mem (h : Managed s threads D g L H)
    (hi : i < 8 * (s.progBitmap s.running).len)
    (hrange : pageIdx v (s.vaddrStart .user) ≤ i ∧ i < pageIdx v (s.vaddrStart .user) + cnt) :
    s.progPage g s.running i ∈ vpages s.cr3 cnt v := by
  obtain ⟨j, rfl⟩ := Nat.exists_eq_add_of_le hrange.1
  rw [← h.vpage_progPage hi]
  exact vpage_mem_vpages _ (by omega)

theorem Managed.idx_of_mem (h : Managed s threads D g L H)
    (hi : i < 8 * (s.progBitmap s.running).len)
    (hlen : pageIdx v (s.vaddrStart .user) + cnt ≤ 8 * (s.progBitmap s.running).len)
    (hmem : s.progPage g s.running i ∈ vpages s.cr3 cnt v) :
    pageIdx v (s.vaddrStart .user) ≤ i ∧ i < pageIdx v (s.vaddrStart .user) + cnt := by
  obtain ⟨j, hj, he⟩ := mem_vpages hmem
  have hlt : pageIdx v (s.vaddrStart .user) + j < 8 * (s.progBitmap s.running).len := by omega
  rw [h.vpage_progPage hlt] at he
  have hij := h.progPage_inj h.running hi hlt he
  omega

/-! ## What a step has to do with the bitmaps -/

/-- **Pages and bitmaps together**: the pages of `N` whose bits are not set are not mapped any
more, and no other bit has been cleared. -/
theorem Marked.keep (hm : Marked s threads g) (h : Managed s threads D g L H) (hst : Steady s s')
    (hsame : UserSame D N s s')
    (hbits : ∀ t ∈ threads, s.IsProcess t → ∀ i < 8 * (s.progBitmap t).len,
      (s'.progBitmap t).bit i = false → if s.progPage g t i ∈ N then
        s'.frameAt (s.progPage g t i) = none else (s.progBitmap t).bit i = false) :
    Marked s' threads g := by
  have hdir : s'.dirFrame g = s.dirFrame g := by
    funext t
    rw [Memory.dirFrame, Memory.dirFrame, hst.pcb]
  have hproc : ∀ t, s'.IsProcess t ↔ s.IsProcess t := fun t => by
    rw [Memory.IsProcess, Memory.IsProcess, hst.pcb]
  refine ⟨fun t ht u hu hp hq => ?_, fun t ht u hu hp hq => ?_, fun t ht hp i hi hbit => ?_⟩
  · rw [hdir]
    exact hm.dirs t ht u hu ((hproc t).mp hp) ((hproc u).mp hq)
  · rw [hst.pcb]
    exact hm.bits t ht u hu ((hproc t).mp hp) ((hproc u).mp hq)
  · have hp' := (hproc t).mp hp
    have hlen : (s'.progBitmap t).len = (s.progBitmap t).len := by
      rw [Memory.progBitmap, hst.pcb]
      exact hst.btmp _
    have hpage : s'.progPage g t i = s.progPage g t i := by
      rw [Memory.progPage, Memory.progPage, hdir, hst.pcb]
    rw [hlen] at hi
    have hcase := hbits t ht hp' i hi hbit
    rw [hpage]
    split at hcase
    · exact hcase
    · next hN =>
      rw [hsame _ (h.progPage_proper ht hp' hi) ?_ hN]
      · exact hm.clean t ht hp' i hi hcase
      · rw [h.progPage_eq ht hi]
        exact h.dirFrame_ne ht hp'

/-- A step that leaves the bitmaps of the processes alone. -/
theorem Marked.keep_same (hm : Marked s threads g) (h : Managed s threads D g L H)
    (hst : Steady s s') (hsame : UserSame D [] s s') (hbtmp : s'.btmp = s.btmp) :
    Marked s' threads g := by
  refine hm.keep h hst hsame fun t _ _ i _ hbit => ?_
  rw [if_neg List.not_mem_nil]
  rw [Memory.progBitmap, hst.pcb, hbtmp] at hbit
  exact hbit

/-! ## The operations -/

theorem fst_of_kernel_page {d : Frame} (hv : 0xc0000000 ≤ v.toNat)
    (hend : v.toNat + cnt * pgSize ≤ 0xffc00000) {k : VPage} (hk : k ∈ vpages d cnt v) :
    k.1 = kernelDir := by
  rw [vpages_kernel d cnt hv hend] at hk
  exact fst_of_mem_vpages hk

/-- A step in which the running process writes its bitmap, for pages that it gets or gives
back. -/
theorem Marked.keep_running (hm : Marked s threads g) (h : Managed s threads D g L H)
    (hproc : s.IsProcess s.running) (hst : Steady s s') (hsame : UserSame D N s s')
    (hN : N ⊆ vpages s.cr3 cnt v) {mp : Bitmap}
    (hbtmp : s'.btmp = Function.update s.btmp (s.pcb s.running).bits mp)
    (hbits : ∀ i < 8 * (s.progBitmap s.running).len, mp.bit i = false →
      if s.progPage g s.running i ∈ N then s'.frameAt (s.progPage g s.running i) = none
      else (s.progBitmap s.running).bit i = false) : Marked s' threads g := by
  refine hm.keep h hst hsame fun t ht hp i hi hbit => ?_
  rw [Memory.progBitmap, hst.pcb, hbtmp] at hbit
  by_cases he : t = s.running
  · subst he
    rw [Function.update_self] at hbit
    exact hbits i hi hbit
  · rw [Function.update_of_ne (hm.bits t ht _ h.running hp hproc he)] at hbit
    rw [if_neg fun hmem => h.progPage_other hm hproc ht hp he hi (hN hmem)]
    exact hbit

/-- `malloc_page`, also when it stops in the middle. -/
theorem Marked.mallocPage (hm : Marked s threads g) (h : Managed s threads D g L H)
    (hcnt : 0 < cnt ∧ cnt < 3840) (htab : MallocTablesFound s pf cnt)
    (huser : pf = .user → s.IsProcess s.running) :
    Returns (mallocPage s pf cnt) fun r => Marked r.2 threads g := by
  intro r hr
  rcases mallocPage_cases s pf cnt r hr with ⟨hget, -⟩ | ⟨v, s1, done, hget, hloop, -⟩
  · rw [vaddrGet_none hget]
    exact hm
  · obtain ⟨hb, hlow, hend, idx, mp, hrunAt, hv, hset, rfl⟩ :=
      vaddrGet_window h.vaddrsOk h.running hcnt.1 hcnt.2 hget
    have hkernel : s.cr3 = kernelDir → 0xc0000000 ≤ v.toNat := by
      intro he
      cases pf with
      | kernel =>
        have hhigh : 0xc0000000 ≤ (s.vaddrStart .kernel).toNat := h.records.high
        omega
      | user =>
        rw [h.records.current] at he
        exact absurd he (h.dirFrame_ne h.running (huser rfl))
    have hadd := hb.added h.layout h.owned
    obtain ⟨N, hN, hsub, -⟩ := mallocLoop_added cnt hadd.layout hadd.owned (hb.cr3 ▸ h.active) hend
      (fun he => hkernel (hb.cr3 ▸ he)) (htab v _ hget) _ hloop
    have hsame := mallocLoop_same _ pf cnt v _ hloop
    rw [hb.cr3] at hsub
    have hst := hb.toSteady.trans hN.steady
    have hpages : UserSame D N s r.2 := (hadd.userSame.mono (List.nil_subset N)).trans hN.userSame
    cases pf with
    | kernel =>
      have hhigh : 0xc0000000 ≤ (s.vaddrStart .kernel).toNat := h.records.high
      refine hm.keep_same h hst (hpages.kernel fun k hk => ?_) hsame.btmp
      exact fst_of_kernel_page (by omega) hend (hsub hk)
    | user =>
      have hlen : idx + cnt ≤ 8 * (s.progBitmap s.running).len := by
        have hrange := hrunAt.1
        have hlen' : (s.vaddrBitmap .user).len = (s.progBitmap s.running).len := rfl
        omega
      have hidx : pageIdx v (s.vaddrStart .user) = idx := by
        rw [hv]
        exact h.pageIdx_start (by omega)
      refine hm.keep_running h (huser rfl) hst hpages hsub hsame.btmp fun i hi hbit => ?_
      rw [hset.2] at hbit
      split at hbit
      · cases hbit
      · next hout =>
        -- the pages that have been entered are those whose bits have been set
        rw [if_neg, show (s.progBitmap s.running).bit i = _ from hbit]
        intro hmem
        rw [← hidx] at hout
        exact hout (h.idx_of_mem hi (hidx ▸ hlen) (hsub hmem))

/-- `get_one_page_no_bitmap`, for a page whose bit is set. -/
theorem Marked.getOnePageNoBitmap (hm : Marked s threads g) (h : Managed s threads D g L H)
    (hproc : s.IsProcess s.running)
    (hbit : (s.progBitmap s.running).bit (pageIdx v (s.vaddrStart .user)) = true)
    (htab : LoopTablesFound .user 1 v s) :
    Returns (getOnePageNoBitmap s .user v) fun r => Marked r.2 threads g := by
  intro r hr
  have hidx : pageIdx v (s.vaddrStart .user) < 8 * (s.progBitmap s.running).len := by
    by_contra hge
    rw [Bitmap.bit_of_ge (Nat.le_of_not_lt hge)] at hbit
    cases hbit
  have hpage := h.vpage_progPage (j := 0) hidx
  obtain ⟨-, hlow⟩ := h.pageAfter_toNat (j := 0) hidx
  rw [pageAfter_zero, Nat.add_zero] at hpage
  rw [pageAfter_zero] at hlow
  have hdir := dirIdx_lt_of_low hlow
  have hne : s.cr3 ≠ kernelDir := h.records.current ▸ h.dirFrame_ne h.running hproc
  rcases getOnePageNoBitmap_added h.layout h.owned h.active (dirIdx_ne_of_low hdir) (fun _ => hne) htab
    r hr with ⟨-, he⟩ | ⟨-, hadd⟩
  · rw [he]
    exact hm
  · have hbtmp := (getOnePageNoBitmap_same s .user v r hr).btmp
    have hsub : [vpage s.cr3 v] ⊆ vpages s.cr3 1 v := fun _ hk => hk
    refine hm.keep_running h hproc hadd.steady hadd.userSame hsub
      (hbtmp.trans (Function.update_eq_self (s.pcb s.running).bits s.btmp).symm) fun i hi hclear => ?_
    have hclear' : (s.progBitmap s.running).bit i = false := hclear
    rw [if_neg, hclear']
    intro hmem
    rw [List.mem_singleton, hpage] at hmem
    rw [h.progPage_inj h.running hi hidx hmem, hbit] at hclear'
    cases hclear'

/-- The bit of a page is set. -/
theorem Marked.markPage (hm : Marked s threads g) (h : Managed s threads D g L H)
    (huser : pf = .user → s.IsProcess s.running) :
    Returns (markPage s pf v) fun s' => Managed s' threads D g L H ∧ Marked s' threads g ∧
      (pf = .user → (s'.progBitmap s'.running).bit (pageIdx v (s'.vaddrStart .user)) = true) := by
  intro s' hs'
  obtain ⟨hb, -⟩ := markPage_returns s pf v s' hs'
  have hsame : UserSame D [] s s' := (hb.added h.layout h.owned).userSame
  refine ⟨h.steady (hb.layout h.layout) (hb.owned h.owned) hb.toSteady, ?_⟩
  unfold GwOS.markPage at hs'
  obtain ⟨mp, hmp, hs'⟩ := bind_eq_ok.mp hs'
  obtain ⟨-, -, hbit⟩ := bitmapSetIdx_returns _ _ true mp hmp
  cases hs'
  cases pf with
  | kernel => exact ⟨hm.keep_same h hb.toSteady hsame rfl, nofun⟩
  | user =>
    refine ⟨hm.keep_running h (huser rfl) hb.toSteady hsame (List.nil_subset (vpages s.cr3 0 v)) rfl
      fun i _ hclear => ?_, fun _ => ?_⟩
    · rw [if_neg List.not_mem_nil]
      rw [hbit] at hclear
      split at hclear
      · cases hclear
      · exact hclear
    · have hself : (s.setVaddrBitmap .user mp).progBitmap s.running = mp := Function.update_self ..
      show ((s.setVaddrBitmap .user mp).progBitmap s.running).bit (pageIdx v (s.vaddrStart .user)) = true
      rw [hself, hbit, if_pos rfl]

/-- `get_one_page`. -/
theorem Marked.getOnePage (hm : Marked s threads g) (h : Managed s threads D g L H)
    (htab : ∀ s1, GwOS.markPage s pf v = .ok s1 → LoopTablesFound pf 1 v s1) :
    Returns (getOnePage s pf v) fun r => Marked r.2 threads g := by
  unfold GwOS.getOnePage
  cases hdir : (s.pcb s.running).pgDir with
  | none =>
    cases pf with
    | user => exact .error _
    | kernel =>
      dsimp only
      split
      · next hlt =>
        refine .bind (P := fun s1 => GwOS.markPage s .kernel v = .ok s1) .any fun s1 hs1 => ?_
        obtain ⟨h1, hm1, -⟩ := hm.markPage h (fun he => absurd he (by decide)) s1 hs1
        obtain ⟨hb, hidx⟩ := markPage_returns s .kernel v s1 hs1
        have hle : (s.vaddrStart .kernel).toNat ≤ v.toNat := Nat.le_of_lt (BitVec.lt_def.mp hlt)
        have hhigh : 0xc0000000 ≤ (s.vaddrStart .kernel).toNat := h.records.high
        have hend : v.toNat < 0xffc00000 := by
          have hrange := h.vaddrsOk.range h.running .kernel
          rw [pageIdx, BitVec.toNat_sub_of_le (BitVec.le_def.mpr hle)] at hidx
          unfold pgSize at *
          omega
        have hdirs : ¬ dirIdx v < 768 := by
          have hdiv := dirIdx_toNat v
          intro hlow
          have hlow' : (dirIdx v).toNat < 768 := hlow
          omega
        intro r hr
        rcases getOnePageNoBitmap_added h1.layout h1.owned h1.active (dirIdx_ne_of_le hend)
          (fun hlow => absurd hlow hdirs) (htab s1 hs1) r hr with ⟨-, he⟩ | ⟨-, hadd⟩
        · rw [he]
          exact hm1
        · refine hm1.keep_same h1 hadd.steady (hadd.userSame.kernel fun k hk => ?_)
            (getOnePageNoBitmap_same s1 .kernel v r hr).btmp
          rw [List.mem_singleton.mp hk, vpage_kernel (Nat.le_trans hhigh hle)]
          exact fst_vpage_kernel _
      · exact .error _
  | some p =>
    cases pf with
    | kernel => exact .error _
    | user =>
      dsimp only
      split
      · refine .bind (P := fun s1 => GwOS.markPage s .user v = .ok s1) .any fun s1 hs1 => ?_
        have hproc : s.IsProcess s.running := fun hno => Option.some_ne_none p (hdir.symm.trans hno)
        obtain ⟨h1, hm1, hbit⟩ := hm.markPage h (fun _ => hproc) s1 hs1
        obtain ⟨hb, -⟩ := markPage_returns s .user v s1 hs1
        have hproc1 : s1.IsProcess s1.running := by
          rw [Memory.IsProcess, hb.pcb, hb.running]
          exact hproc
        exact hm1.getOnePageNoBitmap h1 hproc1 (hbit rfl) (htab s1 hs1)
      · exact .error _

theorem lt_window_of_dirIdx (h : dirIdx v ≠ 1023) : v.toNat < 0xffc00000 := by
  by_contra hge
  refine h (BitVec.eq_of_toNat_eq ?_)
  have hv := v.isLt
  have hmax : (1023 : BitVec 10).toNat = 1023 := rfl
  rw [dirIdx_toNat, hmax]
  omega

/-- Pages that are owned end below the window. -/
theorem Owned.end_le (ho : Owned s D g (vpages s.cr3 cnt v ++ L) H) (hal : v.toNat % pgSize = 0)
    (hcnt : 0 < cnt) : v.toNat + cnt * pgSize ≤ 0xffc00000 := by
  have hpage : ∀ j < cnt, dirIdx (v + BitVec.ofNat 32 (j * pgSize)) ≠ 1023 := by
    intro j hj
    have hk := (ho.page _ (List.mem_append_left H (List.mem_append_left L
      (vpage_mem_vpages (v := v) s.cr3 hj)))).2
    rwa [dirIdx_vpage] at hk
  have hstep : ∀ j ≤ cnt, v.toNat + j * pgSize ≤ 0xffc00000 := by
    intro j
    induction j with
    | zero =>
      intro _
      have hlt := lt_window_of_dirIdx (hpage 0 hcnt)
      rw [pageAfter_zero] at hlt
      omega
    | succ j ih =>
      intro hj
      have hle := ih (by omega)
      have hlt : v.toNat + j * pgSize < 0xffc00000 := by
        have hne := lt_window_of_dirIdx (hpage j (by omega))
        rw [BitVec.toNat_add, BitVec.toNat_ofNat] at hne
        omega
      rw [Nat.add_mul, Nat.one_mul]
      unfold pgSize at hal hlt ⊢
      clear hpage
      omega
  exact hstep cnt (Nat.le_refl cnt)

/-- `mfree_page`. -/
theorem Marked.mfreePage (hm : Marked s threads g)
    (h : Managed s threads D g (vpages s.cr3 cnt v ++ L) H)
    (huser : pf = .user → s.IsProcess s.running) (hkernel : pf = .kernel → 0xc0000000 ≤ v.toNat) :
    Returns (mfreePage s pf v cnt) fun s' => Marked s' threads g := by
  intro s' hs'
  have hargs : 1 ≤ cnt ∧ v.toNat % pgSize = 0 := by
    by_contra hno
    rw [GwOS.mfreePage, if_neg hno] at hs'
    cases hs'
  have hend := h.owned.end_le hargs.2 hargs.1
  have hlow : s.cr3 = kernelDir → 0xc0000000 ≤ v.toNat := by
    intro he
    cases pf with
    | kernel => exact hkernel rfl
    | user =>
      rw [h.records.current] at he
      exact absurd he (h.dirFrame_ne h.running (huser rfl))
  have hrem := mfreePage_removed h.layout h.owned h.active hend hlow s' hs'
  obtain ⟨s1, mp, hsame, hset, rfl⟩ := mfreePage_vaddr s pf v cnt s' hs'
  cases pf with
  | kernel =>
    refine hm.keep_same h hrem.steady (hrem.userSame.kernel fun k hk => ?_) hsame.btmp
    exact fst_of_kernel_page (hkernel rfl) hend hk
  | user =>
    have hbtmp : (s1.setVaddrBitmap .user mp).btmp =
        Function.update s.btmp (s.pcb s.running).bits mp := by
      rw [← hsame.btmp, ← hsame.pcb, ← hsame.running]
      rfl
    refine hm.keep_running h (huser rfl) hrem.steady hrem.userSame (List.Subset.refl _) hbtmp
      fun i hi hclear => ?_
    rw [hset.2] at hclear
    split
    · next hmem => exact hrem.gone _ hmem
    · next hmem =>
      rw [if_neg fun hrange => hmem (h.progPage_mem hi hrange)] at hclear
      exact hclear

/-! ## A new process -/

theorem Records.dirFrame_regrow {g' : VPage → Frame} (h : Records s threads H D g)
    (hg : ∀ k ∈ H, g' k = g k) (ht : t ∈ threads) : s.dirFrame g' t = s.dirFrame g t := by
  rw [Memory.dirFrame, Memory.dirFrame]
  cases hp : (s.pcb t).pgDir with
  | none => rfl
  | some p => exact hg _ (h.procs t ht p hp).dir

/-- The directories are in pages that are held. -/
theorem Marked.regrow {g' : VPage → Frame} (hm : Marked s threads g) (h : Records s threads H D g)
    (hg : ∀ k ∈ H, g' k = g k) : Marked s threads g' := by
  have hdir : ∀ t ∈ threads, s.dirFrame g' t = s.dirFrame g t := fun t ht => h.dirFrame_regrow hg ht
  refine ⟨fun t ht u hu => ?_, hm.bits, fun t ht => ?_⟩
  · rw [hdir t ht, hdir u hu]
    exact hm.dirs t ht u hu
  · rw [show s.progPage g' t = s.progPage g t from funext fun i => by
      rw [Memory.progPage, Memory.progPage, hdir t ht]]
    exact hm.clean t ht

/-- The record of a thread that is none of them, and its bitmap. -/
theorem Marked.record (hm : Marked s threads g) (hnew : t ∉ threads) (r : ProcPages)
    (btmp : Addr → Bitmap) (hbtmp : ∀ u ∈ threads, s.IsProcess u → btmp (s.pcb u).bits =
      s.btmp (s.pcb u).bits) :
    Marked { s with pcb := Function.update s.pcb t r, btmp } threads g := by
  generalize hs' : ({ s with pcb := Function.update s.pcb t r, btmp } : Memory) = s'
  have hpcb : ∀ u ∈ threads, s'.pcb u = s.pcb u := by
    intro u hu
    rw [← hs']
    exact Function.update_of_ne (fun he : u = t => hnew (he ▸ hu)) ..
  have hproc : ∀ u ∈ threads, s'.IsProcess u → s.IsProcess u := fun u hu hp => by
    rwa [Memory.IsProcess, hpcb u hu] at hp
  have hdir : ∀ u ∈ threads, s'.dirFrame g u = s.dirFrame g u := fun u hu => by
    rw [Memory.dirFrame, Memory.dirFrame, hpcb u hu]
  refine ⟨fun u hu w hw hp hq => ?_, fun u hu w hw hp hq => ?_, fun u hu hp => ?_⟩
  · rw [hdir u hu, hdir w hw]
    exact hm.dirs u hu w hw (hproc u hu hp) (hproc w hw hq)
  · rw [hpcb u hu, hpcb w hw]
    exact hm.bits u hu w hw (hproc u hu hp) (hproc w hw hq)
  · have hmp : s'.progBitmap u = s.progBitmap u := by
      rw [Memory.progBitmap, Memory.progBitmap, hpcb u hu, ← hbtmp u hu (hproc u hu hp), ← hs']
    have hpage : s'.progPage g u = s.progPage g u := by
      funext i
      rw [Memory.progPage, Memory.progPage, hdir u hu, hpcb u hu]
    rw [hmp, hpage, ← hs']
    exact hm.clean u hu (hproc u hu hp)

/-- A process more: its directory and its bitmap are new, and it has no pages. -/
theorem Marked.add (hm : Marked s threads g)
    (hdirs : ∀ u ∈ threads, s.IsProcess u → s.IsProcess t → s.dirFrame g u ≠ s.dirFrame g t)
    (hbits : ∀ u ∈ threads, s.IsProcess u → s.IsProcess t → (s.pcb u).bits ≠ (s.pcb t).bits)
    (hclean : s.IsProcess t → ∀ i < 8 * (s.progBitmap t).len, s.frameAt (s.progPage g t i) = none) :
    Marked s (t :: threads) g := by
  refine ⟨fun u hu w hw hp hq hne => ?_, fun u hu w hw hp hq hne => ?_, fun u hu hp i hi hbit => ?_⟩
  · rcases List.mem_cons.mp hu with rfl | hu'
    · exact (hdirs w ((List.mem_cons.mp hw).resolve_left hne.symm) hq hp).symm
    · rcases List.mem_cons.mp hw with rfl | hw'
      · exact hdirs u hu' hp hq
      · exact hm.dirs u hu' w hw' hp hq hne
  · rcases List.mem_cons.mp hu with rfl | hu'
    · exact (hbits w ((List.mem_cons.mp hw).resolve_left hne.symm) hq hp).symm
    · rcases List.mem_cons.mp hw with rfl | hw'
      · exact hbits u hu' hp hq
      · exact hm.bits u hu' w hw' hp hq hne
  · rcases List.mem_cons.mp hu with rfl | hu'
    · exact hclean hp i hi
    · exact hm.clean u hu' hp i hi hbit

/-- The record of a thread gets the directory, and the thread is one of the threads. -/
theorem Marked.addThread (hm : Marked s threads g) (hnew : t ∉ threads) {pgDir : Option Addr}
    {name : String}
    (hdirs : ∀ p, pgDir = some p → ∀ u ∈ threads, s.dirFrame g u ≠ g (vpage kernelDir p))
    (hbits : ∀ u ∈ threads, s.IsProcess u → (s.pcb u).bits ≠ (s.pcb t).bits)
    (hclean : ∀ p, pgDir = some p → ∀ i < 8 * (s.progBitmap t).len,
      s.frameAt (vpage (g (vpage kernelDir p)) (progVaddr (s.pcb t).vaddrStart i)) = none) :
    Marked { s with pcb := Function.update s.pcb t { s.pcb t with pgDir, name } } (t :: threads) g := by
  have hm1 := hm.record hnew { s.pcb t with pgDir, name } s.btmp fun _ _ _ => rfl
  generalize hs' : ({ s with
    pcb := Function.update s.pcb t { s.pcb t with pgDir, name } } : Memory) = s' at hm1 ⊢
  have hpcb : ∀ u ∈ threads, s'.pcb u = s.pcb u := by
    intro u hu
    rw [← hs']
    exact Function.update_of_ne (fun he : u = t => hnew (he ▸ hu)) ..
  have hself : s'.pcb t = { s.pcb t with pgDir, name } := by
    rw [← hs']
    exact Function.update_self ..
  have hpg : s'.IsProcess t → ∃ p, pgDir = some p ∧ s'.dirFrame g t = g (vpage kernelDir p) := by
    intro hp
    rw [Memory.IsProcess, hself] at hp
    obtain ⟨p, hpg⟩ := Option.ne_none_iff_exists'.mp hp
    refine ⟨p, hpg, ?_⟩
    dsimp only at hpg
    rw [Memory.dirFrame, hself, hpg]
  refine hm1.add (fun u hu _ ht => ?_) (fun u hu hp _ => ?_) fun ht i hi => ?_
  · obtain ⟨p, hp, hdir⟩ := hpg ht
    rw [hdir, Memory.dirFrame, hpcb u hu]
    exact hdirs p hp u hu
  · rw [Memory.IsProcess, hpcb u hu] at hp
    rw [hpcb u hu, hself]
    exact hbits u hu hp
  · obtain ⟨p, hp, hdir⟩ := hpg ht
    have hmp : s'.progBitmap t = s.progBitmap t := by
      rw [Memory.progBitmap, hself, ← hs']
      rfl
    rw [hmp] at hi
    rw [Memory.progPage, hdir, hself, ← hs']
    exact hclean p hp i hi

/-- `get_kernel_pages`. -/
theorem Marked.getKernelPages (hm : Marked s threads g) (h : Managed s threads D g L H)
    (hcnt : 1 ≤ cnt) (hmax : cnt < 3840) (hlt : cnt < s.kernelVaddr.vaddrBitmap.len) :
    Returns (getKernelPages s cnt) fun r => Marked r.2 threads g := by
  intro r hr
  obtain ⟨v, s2⟩ := r
  cases v with
  | none =>
    unfold GwOS.getKernelPages getPages at hr
    obtain ⟨⟨v, s1⟩, hmalloc, hr⟩ := bind_eq_ok.mp hr
    have htab := mallocTablesFound_kernel h.layout h.owned h.active h.vaddrsOk hcnt hlt
    have h1 := hm.mallocPage h ⟨hcnt, hmax⟩ htab (fun he => absurd he (by decide)) _ hmalloc
    cases v with
    | none =>
      cases hr
      exact h1
    | some v =>
      obtain ⟨m, -, hr⟩ := bind_eq_ok.mp hr
      cases hr
  | some v =>
    obtain ⟨idx, hgot⟩ := getKernelPages_got h.layout h.owned h.active h.vaddrsOk h.running hcnt hlt _ hr
      v rfl
    exact hm.keep_same h hgot.added.steady (hgot.added.userSame.kernel fun k hk => fst_of_mem_vpages hk)
      hgot.btmp

/-- `create_page_dir`: the new directory is none of the others. -/
theorem Marked.createPageDir (hm : Marked s threads g) (h : Managed s threads D g L H)
    (hlt : 1 < s.kernelVaddr.vaddrBitmap.len) :
    Returns (createPageDir s) fun r => Marked r.2 threads g ∧
      ∀ v f, r.1 = some v → r.2.frameAt (vpage kernelDir v) = some f → ¬ D f := by
  intro r hr
  unfold GwOS.createPageDir at hr
  obtain ⟨⟨v, s1⟩, hget, hr⟩ := bind_eq_ok.mp hr
  cases v with
  | none =>
    cases hr
    exact ⟨hm.getKernelPages h (Nat.le_refl 1) (by decide) hlt _ hget, nofun⟩
  | some v =>
    obtain ⟨idx, hgot⟩ := getKernelPages_got h.layout h.owned h.active h.vaddrsOk h.running
      (Nat.le_refl 1) hlt _ hget v rfl
    have hm1 := h.added hgot.added
    have hlow : v.toNat < 0xffc00000 := by
      have hfits := hgot.fits
      unfold pgSize at hfits
      omega
    have hkey : vpage s1.cr3 v = vpage kernelDir v :=
      vpage_kernel (Nat.le_trans h.records.high hgot.low) _
    obtain ⟨f, hf, -⟩ := hm1.owned.mapped (vpage kernelDir v) (List.mem_cons_self ..)
    have hz := hgot.zero _ (List.mem_cons_self ..) f hf
    have hfill := fillDir_ok hm1.layout hm1.owned hm1.active (hkey ▸ List.mem_cons_self ..) hgot.aligned
      hlow (hkey ▸ hf) hz
    generalize dirPage (s1.mem s1.cr3) f = page at hfill
    have hwrite := hgot.added.write (m := s1.setFrame f page) rfl fun f' hf' => by
      refine s1.setFrame_mem_ne _ ?_
      rintro rfl
      exact hf' _ (List.mem_cons_self ..) hf
    cases hfill.symm.trans hr
    refine ⟨hm.keep_same h hwrite.steady (hwrite.userSame.kernel fun k hk => fst_of_mem_vpages hk)
      hgot.btmp, fun w f' hw hf' => ?_⟩
    cases hw
    exact hwrite.owned.loose _ (List.mem_cons_self ..) f' hf'

end Marks

/-! ## Runs -/

namespace PageState

section Run

variable {st st' : PageState} {D : Frame → Prop} {g : VPage → Frame} {pf : PoolFlag} {v : Addr}
  {cnt : Nat} {m : PageMove}

theorem Valid.managed (h : st.Valid D g) :
    Managed st.mem st.threads D g st.livePages st.heldPages := ⟨h.layout, h.owned, h.records⟩

/-- `create_user_vaddr_bitmap`: the new bitmap is none of the others. -/
theorem Valid.createUserVaddrBitmap_marked (h : st.Valid D g) (hm : Marked st.mem st.threads g)
    (hlt : userBitmapPages < st.mem.kernelVaddr.vaddrBitmap.len) {thread : Addr}
    (hnew : thread ∉ st.threads) {g' : VPage → Frame} (hg : ∀ k ∈ st.heldPages, g' k = g k) :
    Returns (GwOS.createUserVaddrBitmap st.mem thread) fun s => Marked s st.threads g' ∧
      ∀ t ∈ st.threads, s.IsProcess t → (s.pcb t).bits ≠ (s.pcb thread).bits := by
  have hpages : 1 ≤ userBitmapPages ∧ userBitmapPages < 3840 := by decide
  intro s hs
  unfold GwOS.createUserVaddrBitmap at hs
  obtain ⟨⟨bits, s1⟩, hget, hs⟩ := bind_eq_ok.mp hs
  obtain ⟨hst, hr⟩ := h.getKernelPages hpages.1 hlt _ hget
  have hm1 := (hm.getKernelPages h.managed hpages.1 hpages.2 hlt _ hget).regrow (h.records.steady hst) hg
  cases bits with
  | none => cases hs
  | some bits =>
    obtain ⟨-, -, hfresh, -⟩ := hr bits rfl
    cases hs
    -- the pages of the others are held, and these have been free
    have hne : ∀ t ∈ st.threads, s1.IsProcess t → (s1.pcb t).bits ≠ bits := by
      intro t ht hp he
      obtain ⟨p, hpg⟩ := Option.ne_none_iff_exists'.mp hp
      rw [hst.pcb] at hpg he
      have hmem := vpage_mem_vpages (v := bits) kernelDir hpages.1
      exact hfresh _ hmem ((h.records.procs t ht p hpg).bits _ (he ▸ hmem))
    refine ⟨hm1.record hnew _ _ fun t ht hp => Function.update_of_ne (hne t ht hp) .., fun t ht hp => ?_⟩
    have hpcb : ∀ r, Function.update s1.pcb thread r t = s1.pcb t := fun r =>
      Function.update_of_ne (fun he : t = thread => hnew (he ▸ ht)) ..
    rw [Memory.IsProcess] at hp
    dsimp only at hp ⊢
    rw [hpcb] at hp ⊢
    rw [Function.update_self]
    exact hne t ht hp

/-- `process_execute`. -/
theorem Valid.processExecute_marked (h : st.Valid D g) (hm : Marked st.mem st.threads g)
    {name : String} (hlt : st.Allowed (.processExecute name)) :
    Returns (st.step (.processExecute name)) fun st' =>
      st'.mem.kernelVaddr.vaddrBitmap.len = st.mem.kernelVaddr.vaddrBitmap.len ∧
        ∃ D g, st'.Valid D g ∧ Marked st'.mem st'.threads g := by
  have hone : 1 < st.mem.kernelVaddr.vaddrBitmap.len := Nat.lt_trans (by decide) hlt
  unfold PageState.step
  dsimp only
  unfold GwOS.processExecute
  rw [bind_assoc]
  refine .bind .any fun r hr => ?_
  obtain ⟨thread, s1⟩ := r
  have hm1 := hm.getKernelPages h.managed (Nat.le_refl 1) (by decide) hone _ hr
  obtain ⟨hst1, hv⟩ := h.getKernelPages (Nat.le_refl 1) hone _ hr
  cases thread with
  | none => exact .error _
  | some thread =>
    obtain ⟨hlow, -, hfresh, g1, hg1, h1⟩ := hv thread rfl
    have hm1 := hm1.regrow (h.records.steady hst1) hg1
    have hnew : thread ∉ st.threads := h.notMem_threads hlow hfresh
    dsimp only
    rw [bind_assoc]
    refine .bind .any fun s2 hs2 => ?_
    obtain ⟨hlen2, hrange, g2, hg2, h2⟩ := h1.createUserVaddrBitmap (hst1.len ▸ hlt) hnew s2 hs2
    obtain ⟨hm2, hbits⟩ := h1.createUserVaddrBitmap_marked hm1 (hst1.len ▸ hlt) hnew hg2 s2 hs2
    rw [bind_assoc]
    refine .bind .any fun r hr => ?_
    obtain ⟨pgDir, s3⟩ := r
    have hone2 : 1 < s2.kernelVaddr.vaddrBitmap.len := hlen2 ▸ hst1.len ▸ hone
    obtain ⟨hst3, h3⟩ := h2.createPageDir hone2 _ hr
    obtain ⟨hm3, hisNew⟩ := hm2.createPageDir h2.managed hone2 _ hr
    have hrange3 : s3.UserRange thread := hst3.userRange hrange
    have hbits3 : ∀ u ∈ st.threads, s3.IsProcess u → (s3.pcb u).bits ≠ (s3.pcb thread).bits := by
      intro u hu hp
      rw [hst3.pcb]
      rw [Memory.IsProcess, hst3.pcb] at hp
      exact hbits u hu hp
    refine .ok ⟨hst3.len.trans (hlen2.trans hst1.len), ?_⟩
    rw [processAllocs_update hst3.pcb]
    cases pgDir with
    | none =>
      refine ⟨D, g2, h3.addThread hnew hrange3 ?_ (by rintro _ ⟨⟩),
        hm3.addThread hnew (by rintro _ ⟨⟩) hbits3 (by rintro _ ⟨⟩)⟩
      exact List.mem_append_right _ (List.mem_append_left _ (List.mem_cons_self ..))
    | some pgDir =>
      obtain ⟨hhigh, hlow, f, hpage, h3⟩ := h3
      have hself : Function.update g2 (vpage kernelDir pgDir) f (vpage kernelDir pgDir) = f :=
        Function.update_self ..
      have hrec := h2.records.steady hst3
      have hheld : s3.frameAt (vpage kernelDir pgDir) = some f :=
        (h3.owned.held _ (List.mem_cons_self ..)).trans (congrArg some hself)
      -- the page of the directory is a new one, and so is its frame
      have hgrow : ∀ k ∈ heldPages { st with
          mem := s2
          held := kernelAlloc (s2.pcb thread).bits userBitmapPages :: kernelAlloc thread 1 :: st.held },
          Function.update g2 (vpage kernelDir pgDir) f k = g2 k := by
        intro k hk
        refine Function.update_of_ne ?_ ..
        rintro rfl
        exact (List.nodup_cons.mp (List.nodup_append'.mp h3.owned.nodup).2.1).1 hk
      have hfnew := hisNew pgDir f rfl hheld
      refine ⟨_, _, h3.addThread hnew hrange3 ?_ fun p hp => ?_,
        (hm3.regrow hrec hgrow).addThread hnew (fun p hp u hu => ?_) hbits3
          fun p hp i hi => ?_⟩
      · refine List.mem_append_right _ (List.mem_append_right _ (List.mem_append_left _ ?_))
        exact List.mem_cons_self ..
      · cases hp
        refine ⟨hhigh, hlow, List.mem_cons_self .., ?_, fun k hk => ?_⟩
        · rw [hself]
          exact .inr rfl
        · rw [hst3.pcb] at hk
          exact List.mem_append_right _ (List.mem_append_left _ hk)
      · cases hp
        rw [hself, hrec.dirFrame_regrow hgrow hu]
        exact fun he => hfnew (he ▸ hrec.dirFrame_mem h2.layout.root hu)
      · cases hp
        obtain ⟨hnat, hlt⟩ := hrange3.progVaddr_toNat hi
        have hidx : dirIdx (progVaddr (s3.pcb thread).vaddrStart i) < 768 := by
          refine dirIdx_lt_of_low ?_
          show (progVaddr (s3.pcb thread).vaddrStart i).toNat < (0xc0000000 : Addr).toNat
          rw [hnat]
          exact hlt
        rw [hself, vpage_low _ hidx]
        refine Memory.none_of_pdeAt ?_
        have hpde : s3.pdeAt (f, pageOf (progVaddr (s3.pcb thread).vaddrStart i)) = 0 := by
          have hd := dirIdx_vpage f (progVaddr (s3.pcb thread).vaddrStart i)
          have hzero : s3.mem f (dirIdx (progVaddr (s3.pcb thread).vaddrStart i)) = 0 :=
            (congrFun hpage _).trans ((dirPage_spec _ f).2.2 _ hidx)
          exact (congrArg (s3.mem f) hd).trans hzero
        rw [hpde]
        decide

/-- Pages are given back to the bitmap that they are from: that of the process that runs, or
that of the kernel. -/
def GivesBack (st : PageState) : PoolFlag → Addr → Prop
  | .user, _ => st.mem.IsProcess st.mem.running
  | .kernel, vaddr => 0xc0000000 ≤ vaddr.toNat

/-- What the callers see to: only a process uses the bitmap of a process, and a bitmap is
replaced by one that marks all that it marks. -/
def Orderly (st : PageState) : PageMove → Prop
  | .op (.mallocPage pf _) => pf = .user → st.mem.IsProcess st.mem.running
  -- the only caller takes the page from the bitmap of the process
  | .op (.getOnePageNoBitmap pf vaddr) => pf = .user ∧ st.mem.IsProcess st.mem.running ∧
      (st.mem.progBitmap st.mem.running).bit (pageIdx vaddr (st.mem.vaddrStart .user)) = true
  | .op (.mfreePage a) => st.GivesBack a.pf a.vaddr
  | .op _ => True
  | .release pf vaddr _ _ => st.GivesBack pf vaddr
  | .store _ _ => True
  | .setBitmap thread mp => thread ∈ st.threads ∧ st.mem.IsProcess thread ∧
      ∀ i, (st.mem.progBitmap thread).bit i = true → mp.bit i = true

/-- The invariant of runs, with the bitmaps. -/
def Tidy (st : PageState) : Prop :=
  st.mem.kernelVaddr.vaddrBitmap.len = 480 ∧
    ∃ D g, st.Valid D g ∧ Marked st.mem st.threads g

theorem Valid.release_marked (h : st.Valid D g) (hm : Marked st.mem st.threads g) {rest : List Alloc}
    (hperm : st.livePages.Perm (vpages st.mem.cr3 cnt v ++ rest.flatMap Alloc.pages))
    (hback : st.GivesBack pf v) :
    Returns (GwOS.mfreePage st.mem pf v cnt) fun s => Marked s st.threads g := by
  have hman : Managed st.mem st.threads D g (vpages st.mem.cr3 cnt v ++ rest.flatMap Alloc.pages)
    st.heldPages := ⟨h.layout, h.owned.perm hperm, h.records⟩
  refine hm.mfreePage hman (fun he => ?_) fun he => ?_
  · subst he
    exact hback
  · subst he
    exact hback

theorem Valid.store_marked (h : st.Valid D g) (hm : Marked st.mem st.threads g) {w : Addr}
    (hv : vpage st.mem.cr3 v ∈ st.livePages) :
    Returns (st.mem.store v w) fun m => Marked { st.mem with toMachine := m } st.threads g := by
  have hmem := List.mem_append_left st.heldPages hv
  obtain ⟨f, hf, -, htab⟩ := h.owned.mapped _ hmem
  have hidx : dirIdx v ≠ 1023 := by
    have hpage := (h.owned.page _ hmem).2
    rwa [dirIdx_vpage] at hpage
  have hwalk : st.mem.walk v = some f := by
    rw [h.layout.walk_eq h.active hidx]
    exact hf
  obtain ⟨-, hframe⟩ := h.layout.setData (h.owned.loose _ hv f hf) htab
    (Function.update (st.mem.mem f) (wordIdx v) w)
  rw [Machine.store, hwalk]
  refine .ok (hm.keep_same h.managed ⟨rfl, rfl, rfl, rfl, rfl, fun _ => rfl⟩ (fun k hk _ _ => ?_) rfl)
  exact hframe k hk.1 hk.2

theorem Valid.setBitmap_marked (h : st.Valid D g) (hm : Marked st.mem st.threads g) {t : Addr}
    {mp : Bitmap} (hlen : mp.len = (st.mem.btmp (st.mem.pcb t).bits).len) (ht : t ∈ st.threads)
    (hproc : st.mem.IsProcess t) (hbits : ∀ i, (st.mem.progBitmap t).bit i = true → mp.bit i = true) :
    Marked { st.mem with btmp := Function.update st.mem.btmp (st.mem.pcb t).bits mp } st.threads g := by
  refine hm.keep (N := []) h.managed ⟨rfl, rfl, rfl, rfl, rfl, fun a => ?_⟩ (fun _ _ _ _ => rfl)
    fun u hu hp i _ hclear => ?_
  · by_cases he : a = (st.mem.pcb t).bits
    · rw [he]
      exact (congrArg Bitmap.len (Function.update_self ..)).trans hlen
    · exact congrArg Bitmap.len (Function.update_of_ne he ..)
  · rw [if_neg List.not_mem_nil]
    by_cases he : u = t
    · subst he
      by_contra hset
      have hself : Function.update st.mem.btmp (st.mem.pcb u).bits mp (st.mem.pcb u).bits = mp :=
        Function.update_self ..
      have hclear' : (Function.update st.mem.btmp (st.mem.pcb u).bits mp (st.mem.pcb u).bits).bit i =
        false := hclear
      rw [hself, hbits i (Bool.eq_true_of_not_eq_false hset)] at hclear'
      cases hclear'
    · have hother : Function.update st.mem.btmp (st.mem.pcb t).bits mp (st.mem.pcb u).bits =
        st.mem.btmp (st.mem.pcb u).bits := Function.update_of_ne (hm.bits u hu t ht hp hproc he) ..
      have hclear' : (Function.update st.mem.btmp (st.mem.pcb t).bits mp (st.mem.pcb u).bits).bit i =
        false := hclear
      rwa [hother] at hclear'

theorem enter_threads (st : PageState) (pf : PoolFlag) (cnt : Nat) (r : Option Addr × Memory) :
    (st.enter pf cnt r).threads = st.threads := by
  obtain ⟨v, s⟩ := r
  cases v <;> rfl

/-- **One move** keeps the invariant. -/
theorem Tidy.move (h : st.Tidy) (hm : st.Proper m) (hfound : st.Supplied m) (hord : st.Orderly m) :
    Returns (st.move m) Tidy := by
  obtain ⟨hlen, D, g, hv, hmk⟩ := h
  cases m with
  | op op =>
    cases op with
    | mallocPage pf cnt =>
      refine fun st' hst' => ⟨((hv.malloc hfound) st' hst').1.trans hlen, D, g,
        (hv.malloc hfound st' hst').2, ?_⟩
      obtain ⟨r, hr, hst'⟩ := bind_eq_ok.mp hst'
      cases hst'
      have hcnt : 0 < cnt ∧ cnt < 3840 := by
        by_contra hno
        rw [GwOS.mallocPage, if_neg hno] at hr
        cases hr
      have hsup : st.mem.MallocSupplied pf cnt := hfound
      have htab := hsup.found hv.layout hv.owned hv.active hv.vaddrsOk hv.running hcnt
      rw [st.enter_mem, st.enter_threads]
      exact hmk.mallocPage hv.managed hcnt htab hord r hr
    | getOnePage pf v =>
      have htab : st.Allowed (.getOnePage pf v) := fun s hs => Memory.PageSupplied.marked hfound hs
      refine fun st' hst' => ⟨((hv.getOnePage htab) st' hst').1.trans hlen, D, g,
        (hv.getOnePage htab st' hst').2, ?_⟩
      obtain ⟨r, hr, hst'⟩ := bind_eq_ok.mp hst'
      cases hst'
      rw [st.enter_mem, st.enter_threads]
      exact hmk.getOnePage hv.managed htab r hr
    | getOnePageNoBitmap pf v =>
      obtain ⟨rfl, hproc, hbit⟩ := hord
      have hop : st.Allowed (.getOnePageNoBitmap .user v) :=
        ⟨hm, fun page p' hpal => ⟨hfound page p' hpal, fun _ _ => trivial⟩⟩
      refine fun st' hst' => ⟨((hv.getOnePageNoBitmap hop) st' hst').1.trans hlen, D, g,
        (hv.getOnePageNoBitmap hop st' hst').2, ?_⟩
      obtain ⟨r, hr, hst'⟩ := bind_eq_ok.mp hst'
      cases hst'
      rw [st.enter_mem, st.enter_threads]
      exact hmk.getOnePageNoBitmap hv.managed hproc hbit hop.2 r hr
    | mfreePage a =>
      refine fun st' hst' => ⟨((hv.mfreePage hm) st' hst').1.trans hlen, D, g,
        (hv.mfreePage hm st' hst').2, ?_⟩
      obtain ⟨s, hs, hst'⟩ := bind_eq_ok.mp hst'
      cases hst'
      have hperm : st.livePages.Perm (vpages st.mem.cr3 a.cnt a.vaddr ++
          (st.live.erase a).flatMap Alloc.pages) := by
        rw [hm.2]
        exact (List.perm_cons_erase hm.1).flatMap_right Alloc.pages
      exact hv.release_marked hmk hperm hord s hs
    | activate t =>
      refine fun st' hst' => ⟨((hv.activate hm) st' hst').1.trans hlen, D, g,
        (hv.activate hm st' hst').2, ?_⟩
      obtain ⟨s, hs, hst'⟩ := bind_eq_ok.mp hst'
      cases hst'
      have hd := Records.pageDirActivate_ok hv.layout hv.owned.held hv.active (t := t) fun p hp =>
        have hproc := hv.records.procs t hm p hp
        ⟨hproc.high, hproc.low, hproc.dir⟩
      cases hd.symm.trans hs
      exact ⟨hmk.dirs, hmk.bits, hmk.clean⟩
    | processExecute name =>
      have hlt : st.Allowed (.processExecute name) := by
        show userBitmapPages < st.mem.kernelVaddr.vaddrBitmap.len
        rw [hlen]
        decide
      exact (hv.processExecute_marked hmk hlt).mono fun st' h' => ⟨h'.1.trans hlen, h'.2⟩
  | release pf vaddr cnt rest =>
    exact .bind .any fun s hs => .ok ⟨(hv.release hm s hs).1.trans hlen, D, g, (hv.release hm s hs).2,
      hv.release_marked hmk hm hord s hs⟩
  | store vaddr w =>
    exact .bind .any fun m' h' => .ok ⟨hlen, D, g, (hv.store hm m' h').2, hv.store_marked hmk hm m' h'⟩
  | setBitmap thread mp =>
    obtain ⟨ht, hproc, hbits⟩ := hord
    exact .ok ⟨hlen, D, g, hv.setBitmap hm, hv.setBitmap_marked hmk hm ht hproc hbits⟩

/-- The thread that runs is a process. -/
theorem Filling.isProcess {n : Nat} (h : st.Filling D g n) : st.mem.IsProcess st.mem.running := by
  intro hno
  refine h.dir ?_
  rw [h.valid.records.current, Memory.dirFrame, hno]

/-- A whole run. -/
theorem Runs.tidy {C : PageState → PageMove → Prop} (h : Runs C st)
    (hC : ∀ st m, C st m → st.Supplied m ∧ st.Orderly m) : st.Tidy := by
  induction h with
  | boot =>
    obtain ⟨D, g, hv⟩ := boot_valid
    obtain ⟨hlen, -⟩ := (Runs.boot (C := Supplied)).sound
    refine ⟨hlen, D, g, hv, fun t _ u _ hp => ?_, fun t _ u _ hp => ?_, fun t _ hp => ?_⟩
    · exact absurd rfl hp
    · exact absurd rfl hp
    · exact absurd rfl hp
  | move m _ hm hcond hmove ih => exact ih.move hm (hC _ m hcond).1 (hC _ m hcond).2 _ hmove

end Run

end PageState

end GwOS
