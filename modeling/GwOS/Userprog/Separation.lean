import GwOS.Kernel.Overrun
import GwOS.Userprog.AddressSpace

/-!
# No frame has two uses

Runs from boot of the operations as the code has them: whatever pages the kernel and the processes take
and give back, in any order. An address that is not one of the bitmap makes `bitmap_set_idx` write behind
it, and there the frames can get mixed up.

- `step_unchecked`: the operations of `PageState.step` are those of the code.
- `frames_separate`: with addresses that the bitmaps cover, no frame has two uses.
- `frames_shared`: without, a page and a page table share one.
-/

namespace GwOS

namespace PageState

/-- One operation, as the code has it. -/
def stepUnchecked (st : PageState) : PageOp → Except Fault PageState
  | .getOnePage pf vaddr => do .ok (st.enter pf 1 (← Unchecked.getOnePage st.mem pf vaddr))
  | .mfreePage a => do
    let s ← Unchecked.mfreePage st.mem a.pf a.vaddr a.cnt
    .ok { st with mem := s, live := st.live.erase a }
  | op => st.step op

/-- What is presupposed of an operation: the number of pages is smaller than the length of the bitmap in
bytes, what is released is live and visible, and the kernel pool has a frame whenever a page table is
needed. -/
def Premise (st : PageState) : PageOp → Prop
  | .mallocPage pf cnt => 1 ≤ cnt ∧ cnt < (st.mem.vaddrBitmap pf).len ∧
      MallocTablesFound st.mem pf cnt
  | .getOnePage pf vaddr => ∀ s, Unchecked.markPage st.mem pf vaddr = .ok s →
      LoopTablesFound pf 1 vaddr s
  | .getOnePageNoBitmap pf vaddr => LoopTablesFound pf 1 vaddr st.mem
  | .mfreePage a => a ∈ st.live ∧ vpages st.mem.cr3 a.cnt a.vaddr = a.pages
  | .activate thread => thread ∈ st.threads
  | .processExecute _ => userBitmapPages < st.mem.kernelVaddr.vaddrBitmap.len

/-- A page that is taken without a bitmap is none of the page tables. -/
def BelowTables : PageOp → Prop
  | .getOnePageNoBitmap _ vaddr => vaddr < 0xffc00000
  | _ => True

/-- The addresses belong to the bitmap that is used, and none names a page table. -/
def InRange (st : PageState) : PageOp → Prop
  | .getOnePage pf vaddr => st.mem.Covers pf vaddr 1
  | .mfreePage a => st.mem.Covers a.pf a.vaddr a.cnt
  | op => BelowTables op

/-- The states that are reached from boot by operations that satisfy `C`. -/
inductive Reaches (C : PageState → PageOp → Prop) : List PageOp → PageState → Prop
  | boot : Reaches C [] boot
  | step {ops : List PageOp} {st st' : PageState} (op : PageOp) : Reaches C ops st → C st op →
      st.stepUnchecked op = .ok st' → Reaches C (ops ++ [op]) st'

/-! ## What the frames are used for -/

/-- What a frame is used for: a page of a live allocation, or the page table that a directory
names for four megabytes. -/
inductive FrameUse where
  | page (k : VPage)
  | table (d : Frame) (i : BitVec 10)

/-- The frames in use. The loader has put one table of the kernel into the directory of the
kernel a second time; it comes from no pool. -/
def Uses (st : PageState) (f : Frame) : FrameUse → Prop
  | .page k => k ∈ st.livePages ++ st.heldPages ∧ st.mem.frameAt k = some f
  | .table d i => st.Directory d ∧ i < 768 ∧ (d, i) ≠ (kernelDir, 0) ∧ Present (st.mem.mem d i) ∧
      pageOf (st.mem.mem d i) = f

section Separate

variable {st st' : PageState} {D : Frame → Prop} {g : VPage → Frame} {f : Frame}

/-- A table is one of the layout, and its frame has been given out by the kernel pool. -/
theorem Valid.table (h : st.Valid D g) {d : Frame} {i : BitVec 10} (hu : st.Uses f (.table d i)) :
    D d ∧ IsTable st.mem.toMachine D f ∧ st.mem.kernelPool.Taken f := by
  obtain ⟨hd, hi, hne, hp, rfl⟩ := hu
  have hD := h.directory hd
  refine ⟨hD, ⟨d, hD, i, fun he => absurd (he ▸ hi) (by decide), hp, rfl⟩, ?_⟩
  rcases h.layout.tables d hD i hi hp with ⟨hd', hi', -⟩ | ⟨ht, -⟩
  · exact absurd (Prod.ext hd' hi') hne
  · exact ht

theorem Valid.uses_taken (h : st.Valid D g) {u : FrameUse} (hu : st.Uses f u) : st.mem.Taken f := by
  cases u with
  | page k =>
    obtain ⟨f', hf', ht, -⟩ := h.owned.mapped k hu.1
    cases hf'.symm.trans hu.2
    exact ht
  | table d i => exact .inl (h.table hu).2.2

theorem Valid.uses_inj (h : st.Valid D g) {u u' : FrameUse} (hu : st.Uses f u) (hu' : st.Uses f u') :
    u = u' := by
  -- the frame of a page is no table
  have hmixed : ∀ k d i, st.Uses f (.page k) → ¬ st.Uses f (.table d i) := by
    rintro k d i ⟨hk, hf⟩ ht
    obtain ⟨f', hf', -, htab⟩ := h.owned.mapped k hk
    cases hf'.symm.trans hf
    exact htab (h.table ht).2.1
  cases u with
  | page k =>
    cases u' with
    | page k' => exact congrArg _ (h.owned.inj k hu.1 k' hu'.1 (hu.2.trans hu'.2.symm))
    | table d i => exact absurd hu' (hmixed k d i hu)
  | table d i =>
    cases u' with
    | page k => exact absurd hu (hmixed k d i hu')
    | table d' i' =>
      obtain ⟨hD, -, ht⟩ := h.table hu
      obtain ⟨hD', -, -⟩ := h.table hu'
      obtain ⟨-, hi, -, hp, he⟩ := hu
      obtain ⟨-, hi', -, hp', he'⟩ := hu'
      obtain ⟨rfl, rfl⟩ := h.layout.inj d d' hD hD' i i' hi hi' hp hp' (he ▸ ht) (he.trans he'.symm)
      rfl

/-- No frame has two uses: every page of an allocation is mapped, a frame in use has one use only and has
been given out by the one pool that it lies in, and no virtual page belongs to two allocations. -/
def Separate (st : PageState) : Prop :=
  (∀ k ∈ st.livePages ++ st.heldPages, ∃ f, st.Uses f (.page k)) ∧
    (∀ f u u', st.Uses f u → st.Uses f u' → u = u') ∧
    (∀ f u, st.Uses f u → ∃ pf, (st.mem.pool pf).Taken f ∧
      ∀ pf', (st.mem.pool pf').Contains f → pf' = pf) ∧
    (st.livePages ++ st.heldPages).Nodup

theorem Valid.separate (hv : st.Valid D g) : st.Separate := by
  refine ⟨fun k hk => ?_, fun f u u' hu hu' => hv.uses_inj hu hu', fun f u hu => ?_, hv.owned.nodup⟩
  · obtain ⟨f, hf, -⟩ := hv.owned.mapped k hk
    exact ⟨f, hk, hf⟩
  · rcases hv.uses_taken hu with ht | ht
    · refine ⟨.kernel, ht, fun pf' hc => ?_⟩
      cases pf' with
      | kernel => rfl
      | user => exact absurd hc (hv.layout.not_both ht.1)
    · refine ⟨.user, ht, fun pf' hc => ?_⟩
      cases pf' with
      | kernel => exact absurd ht.1 (hv.layout.not_both hc)
      | user => rfl

/-! ## Runs -/

theorem stepUnchecked_getOnePage {pf : PoolFlag} {v : Addr} {r : Option Addr × Memory}
    (h : Unchecked.getOnePage st.mem pf v = .ok r) :
    st.stepUnchecked (.getOnePage pf v) = .ok (st.enter pf 1 r) :=
  bind_eq_ok.mpr ⟨r, h, rfl⟩

/-- Where nothing is reported, the code does the same. -/
theorem step_unchecked {op : PageOp} (h : st.step op = .ok st') : st.stepUnchecked op = .ok st' := by
  cases op with
  | getOnePage pf vaddr =>
    obtain ⟨r, hr, h⟩ := bind_eq_ok.mp h
    exact (stepUnchecked_getOnePage (Unchecked.getOnePage_unchecked hr)).trans h
  | mfreePage a =>
    obtain ⟨s, hs, h⟩ := bind_eq_ok.mp h
    exact bind_eq_ok.mpr ⟨s, Unchecked.mfreePage_unchecked hs, h⟩
  | mallocPage pf cnt => exact h
  | getOnePageNoBitmap pf vaddr => exact h
  | activate thread => exact h
  | processExecute name => exact h

/-- With addresses in range nothing is different. -/
theorem InRange.step_eq {op : PageOp} (h : st.InRange op) : st.stepUnchecked op = st.step op := by
  cases op with
  | getOnePage pf vaddr =>
    rw [stepUnchecked, Unchecked.getOnePage_inside h]
    rfl
  | mfreePage a =>
    rw [stepUnchecked, Unchecked.mfreePage_inside h]
    rfl
  | mallocPage pf cnt => rfl
  | getOnePageNoBitmap pf vaddr => rfl
  | activate thread => rfl
  | processExecute name => rfl

/-- The next frame of the kernel pool can be a page table. -/
theorem Premise.of_palloc {v pt : Addr} {q : Pool}
    (h : palloc st.mem.kernelPool = .ok (some pt, q)) : st.Premise (.getOnePage .user v) := by
  intro s hs page p' _
  refine ⟨.inr ⟨pt, q, ?_⟩, fun _ _ => trivial⟩
  have hpool : Returns (Unchecked.markPage st.mem .user v) fun s => s.kernelPool = st.mem.kernelPool := by
    unfold Unchecked.markPage Unchecked.bitmapSetIdx
    split
    · exact .bind .any fun mp _ => .ok rfl
    · split
      · split
        · exact .error _
        · exact .bind .any fun m _ => .ok rfl
      · exact .error _
  show palloc s.kernelPool = _
  rw [hpool s hs, h]

theorem Premise.allowed {op : PageOp} (h : st.Premise op) (hbelow : BelowTables op) : st.Allowed op := by
  cases op with
  | getOnePage pf vaddr =>
    intro s hs
    exact h s ((Unchecked.markPage_inside (markPage_returns _ _ _ s hs).2).trans hs)
  | getOnePageNoBitmap pf vaddr => exact ⟨hbelow, h⟩
  | mallocPage pf cnt => exact h
  | mfreePage a => exact h
  | activate thread => exact h
  | processExecute name => exact h

theorem InRange.belowTables {op : PageOp} (h : st.InRange op) : BelowTables op := by
  cases op with
  | getOnePage pf vaddr => trivial
  | mfreePage a => trivial
  | getOnePageNoBitmap pf vaddr => exact h
  | mallocPage pf cnt => trivial
  | activate thread => trivial
  | processExecute name => trivial

/-- A whole run. -/
theorem Reaches.valid {ops : List PageOp} (h : Reaches (fun st op => st.Premise op ∧ st.InRange op) ops st) :
    ∃ D g, st.Valid D g := by
  induction h with
  | boot => exact boot_valid
  | step op _ hop hstep ih =>
    obtain ⟨D, g, hv⟩ := ih
    exact hv.step (hop.1.allowed hop.2.belowTables) _ (hop.2.step_eq.symm.trans hstep)

/-- **No frame is given out twice.** After any sequence of allocations and releases by the
kernel and by any number of processes, with addresses in range, no frame has two uses. -/
theorem frames_separate {ops : List PageOp}
    (h : Reaches (fun st op => st.Premise op ∧ st.InRange op) ops st) : st.Separate := by
  obtain ⟨D, g, hv⟩ := h.valid
  exact hv.separate

/-! ## Runs on given operations -/

/-- `cnt` frames from `first` on are cleared at once. -/
def clearFrames (s : Machine) (first cnt : Nat) : Machine :=
  { s with mem := fun f i => if first ≤ f.toNat ∧ f.toNat < first + cnt then 0 else s.mem f i }

/-- The pages from `v` on are the frames from `first` on, and no table is one of the frames from `lo`
to `hi`. -/
def mapsTo (s : Machine) (lo hi : Nat) : (cnt : Nat) → Addr → (first : Nat) → Bool
  | 0, _, _ => true
  | cnt + 1, v, first =>
    decide (s.walk v = some (BitVec.ofNat 20 first)) &&
      decide (¬ (lo ≤ (s.tableOf v).toNat ∧ (s.tableOf v).toNat < hi)) &&
      mapsTo s lo hi cnt (v + 0x1000) (first + 1)

section ClearFrames

variable {m : Machine} {lo hi cnt first : Nat} {v : Addr}

/-- Another content of one of the frames changes no walk. -/
theorem mapsTo_setFrame {k : Frame} (hk : lo ≤ k.toNat ∧ k.toNat < hi) (page : Page)
    (hcr : ¬ (lo ≤ m.cr3.toNat ∧ m.cr3.toNat < hi)) (h : mapsTo m lo hi cnt v first = true) :
    mapsTo (m.setFrame k page) lo hi cnt v first = true := by
  induction cnt generalizing v first with
  | zero => rfl
  | succ cnt ih =>
    obtain ⟨hwalk, hrest⟩ := Bool.and_eq_true_iff.mp h
    obtain ⟨hwalk, htable⟩ := Bool.and_eq_true_iff.mp hwalk
    have hwalk := of_decide_eq_true hwalk
    have htable := of_decide_eq_true htable
    have hpde : (m.setFrame k page).pde v = m.pde v := by
      have hne : m.cr3 ≠ k := fun he => hcr (he ▸ hk)
      exact congrFun (m.setFrame_mem_ne page hne) _
    have htab : (m.setFrame k page).tableOf v = m.tableOf v := congrArg pageOf hpde
    have hpte : (m.setFrame k page).pte v = m.pte v := by
      have hne : m.tableOf v ≠ k := fun he => htable (he ▸ hk)
      rw [Machine.pte, htab]
      exact congrFun (m.setFrame_mem_ne page hne) _
    rw [mapsTo, Machine.walk_congr hpde fun _ => hpte, htab, ih hrest]
    simp only [hwalk, htable, not_false_eq_true, decide_true, Bool.and_true]

/-- Page by page, or all frames at once. -/
theorem clearPages_eq (hlo : lo ≤ first) (hhi : first + cnt ≤ hi) (hmax : hi ≤ 2 ^ 20)
    (hcr : ¬ (lo ≤ m.cr3.toNat ∧ m.cr3.toNat < hi)) (h : mapsTo m lo hi cnt v first = true) :
    clearPages cnt v m = .ok (clearFrames m first cnt) := by
  induction cnt generalizing m v first with
  | zero =>
    refine congrArg Except.ok ?_
    have hmem : (clearFrames m first 0).mem = m.mem := by
      funext f i
      exact if_neg (by omega)
    exact (congrArg (fun mem => ({ m with mem } : Machine)) hmem).symm
  | succ cnt ih =>
    obtain ⟨hwalk, hrest⟩ := Bool.and_eq_true_iff.mp h
    have hwalk := of_decide_eq_true (Bool.and_eq_true_iff.mp hwalk).1
    have hval : (BitVec.ofNat 20 first).toNat = first := by
      rw [BitVec.toNat_ofNat]
      exact Nat.mod_eq_of_lt (by omega)
    have hfirst : lo ≤ (BitVec.ofNat 20 first).toNat ∧ (BitVec.ofNat 20 first).toNat < hi := by omega
    have hclear : m.clearPage v = .ok (m.setFrame (BitVec.ofNat 20 first) fun _ => 0) := by
      rw [Machine.clearPage, hwalk]
    rw [clearPages, hclear]
    refine (ih (m := m.setFrame _ _) (by omega) (by omega) hcr (mapsTo_setFrame hfirst _ hcr hrest)).trans ?_
    -- the frame that has been cleared is the first one
    refine congrArg Except.ok ?_
    rw [clearFrames, clearFrames]
    congr 1
    funext f i
    by_cases hf : f = BitVec.ofNat 20 first
    · subst hf
      rw [if_neg (by omega), if_pos (by omega), m.setFrame_mem_self]
    · have hne : f.toNat ≠ first := fun he => hf (BitVec.eq_of_toNat_eq (he.trans hval.symm))
      rw [m.setFrame_mem_ne _ hf]
      by_cases hin : first + 1 ≤ f.toNat ∧ f.toNat < first + 1 + cnt
      · rw [if_pos hin, if_pos (by omega)]
      · rw [if_neg hin, if_neg (by omega)]

end ClearFrames

/-- `get_kernel_pages` that gets the frames from `first` on. -/
def getFrames (s : Memory) (first cnt : Nat) : Except Fault (Option Addr × Memory) := do
  match ← GwOS.mallocPage s .kernel cnt with
  | (none, s) => .ok (none, s)
  | (some vaddr, s) =>
    if first + cnt ≤ 2 ^ 20 ∧ ¬ (first ≤ s.cr3.toNat ∧ s.cr3.toNat < first + cnt) ∧
        mapsTo s.toMachine first (first + cnt) cnt vaddr first then
      .ok (some vaddr, { s with toMachine := clearFrames s.toMachine first cnt })
    else .error .assert

theorem getKernelPages_eq {s : Memory} {first cnt : Nat} {r : Option Addr × Memory}
    (h : getFrames s first cnt = .ok r) : getKernelPages s cnt = .ok r := by
  obtain ⟨⟨v, s1⟩, hmalloc, h⟩ := bind_eq_ok.mp h
  refine bind_eq_ok.mpr ⟨(v, s1), hmalloc, ?_⟩
  cases v with
  | none => exact h
  | some v =>
    simp only at h
    split at h
    · rename_i htest
      obtain ⟨hmax, hcr, hmaps⟩ := htest
      rw [← h]
      exact bind_eq_ok.mpr ⟨_, clearPages_eq (Nat.le_refl _) (Nat.le_refl _) hmax hcr hmaps, rfl⟩
    · cases h

/-- `process_execute` when the bitmap gets the frames from `first` on. -/
def executeFrames (s : Memory) (name : String) (first : Nat) : Except Fault (Addr × Memory) := do
  match ← getKernelPages s 1 with
  | (none, _) => .error .assert
  | (some thread, s) =>
    match ← getFrames s first userBitmapPages with
    | (none, _) => .error .nullDeref
    | (some bits, s) =>
      let pages := { s.pcb thread with bits, vaddrStart := userVaddrStart }
      let (pgDir, s) ← createPageDir { s with
        pcb := Function.update s.pcb thread pages
        btmp := Function.update s.btmp bits (bitmapInit userBitmapLen) }
      .ok (thread, { s with pcb := Function.update s.pcb thread { s.pcb thread with pgDir, name } })

theorem processExecute_eq {s : Memory} {name : String} {first : Nat} {r : Addr × Memory}
    (h : executeFrames s name first = .ok r) : GwOS.processExecute s name = .ok r := by
  obtain ⟨⟨thread, s1⟩, hthread, h⟩ := bind_eq_ok.mp h
  refine bind_eq_ok.mpr ⟨(thread, s1), hthread, ?_⟩
  cases thread with
  | none => exact h
  | some thread =>
    obtain ⟨⟨bits, s2⟩, hbits, h⟩ := bind_eq_ok.mp h
    have hpages := getKernelPages_eq hbits
    cases bits with
    | none => cases h
    | some bits =>
      refine bind_eq_ok.mpr ⟨_, bind_eq_ok.mpr ⟨_, hpages, rfl⟩, h⟩

/-- One operation; the bitmap of a new process gets the frames from `first` on. -/
def stepFrames (first : Nat) (st : PageState) : PageOp → Except Fault PageState
  | .processExecute name => do
    let (thread, s) ← executeFrames st.mem name first
    .ok { st with
      mem := s
      threads := thread :: st.threads
      held := processAllocs s thread ++ st.held }
  | op => st.step op

theorem step_eq {first : Nat} {op : PageOp} (h : stepFrames first st op = .ok st') :
    st.step op = .ok st' := by
  cases op with
  | processExecute name =>
    obtain ⟨r, hr, h⟩ := bind_eq_ok.mp h
    exact bind_eq_ok.mpr ⟨r, processExecute_eq hr, h⟩
  | mallocPage | getOnePage | getOnePageNoBitmap | mfreePage | activate => exact h

/-- What can be looked up of the premise of an operation. -/
def premiseTest (st : PageState) : PageOp → Bool
  | .mallocPage .kernel cnt => decide (1 ≤ cnt) && decide (cnt < st.mem.kernelVaddr.vaddrBitmap.len)
  | .mallocPage .user _ => false
  | .getOnePage .user _ => returnsWith (palloc st.mem.kernelPool) fun r => r.1.isSome
  | .getOnePage .kernel _ => false
  | .getOnePageNoBitmap .user vaddr =>
    decide (vaddr < 0xffc00000) && returnsWith (palloc st.mem.kernelPool) fun r => r.1.isSome
  | .getOnePageNoBitmap .kernel _ => false
  | .mfreePage a => decide (a ∈ st.live) && decide (vpages st.mem.cr3 a.cnt a.vaddr = a.pages)
  | .activate thread => decide (thread ∈ st.threads)
  | .processExecute _ => decide (userBitmapPages < st.mem.kernelVaddr.vaddrBitmap.len)

/-- What can be looked up of the range of an operation. -/
def rangeTest (st : PageState) : PageOp → Bool
  | .getOnePage _ _ => false
  | .getOnePageNoBitmap _ vaddr => decide (vaddr < 0xffc00000)
  | .mfreePage a => decide (st.mem.Covers a.pf a.vaddr a.cnt)
  | _ => true

/-- The operations one after the other, each of which passes the test. -/
def testRun (test : PageState → PageOp → Bool) (first : Nat) (st : PageState) :
    List PageOp → Except Fault PageState
  | [] => .ok st
  | op :: ops => do
    if test st op then testRun test first (← stepFrames first st op) ops
    else .error .assert

theorem palloc_of_test {p : Pool} (h : (returnsWith (palloc p) fun r => r.1.isSome) = true) :
    ∃ pt q, palloc p = .ok (some pt, q) := by
  obtain ⟨⟨pt, q⟩, hpal, hsome⟩ := returnsWith_iff.mp h
  obtain ⟨pt, rfl⟩ := Option.isSome_iff_exists.mp hsome
  exact ⟨pt, q, hpal⟩

theorem Valid.premise_of_test (hv : st.Valid D g) {op : PageOp} (h : st.premiseTest op = true) :
    st.Premise op ∧ BelowTables op := by
  cases op with
  | mallocPage pf cnt =>
    cases pf with
    | user => cases h
    | kernel =>
      obtain ⟨hcnt, hlt⟩ := Bool.and_eq_true_iff.mp h
      have hcnt := of_decide_eq_true hcnt
      have hlt := of_decide_eq_true hlt
      exact ⟨⟨hcnt, hlt, mallocTablesFound_kernel hv.layout hv.owned hv.active hv.vaddrsOk hcnt hlt⟩,
        trivial⟩
  | getOnePage pf vaddr =>
    cases pf with
    | kernel => cases h
    | user =>
      unfold premiseTest at h
      obtain ⟨pt, q, hpal⟩ := palloc_of_test h
      exact ⟨Premise.of_palloc hpal, trivial⟩
  | getOnePageNoBitmap pf vaddr =>
    cases pf with
    | kernel => cases h
    | user =>
      obtain ⟨hlt, h⟩ := Bool.and_eq_true_iff.mp h
      obtain ⟨pt, q, hpal⟩ := palloc_of_test h
      refine ⟨fun page p' _ => ⟨.inr ⟨pt, q, hpal⟩, fun _ _ => trivial⟩, ?_⟩
      exact of_decide_eq_true (p := vaddr < 0xffc00000) hlt
  | mfreePage a =>
    obtain ⟨hlive, hvis⟩ := Bool.and_eq_true_iff.mp h
    exact ⟨⟨of_decide_eq_true hlive, of_decide_eq_true hvis⟩, trivial⟩
  | activate thread =>
    have hop : thread ∈ st.threads := of_decide_eq_true h
    exact ⟨hop, trivial⟩
  | processExecute name =>
    exact ⟨of_decide_eq_true (p := userBitmapPages < st.mem.kernelVaddr.vaddrBitmap.len) h, trivial⟩

theorem inRange_of_test {op : PageOp} (h : st.rangeTest op = true) : st.InRange op := by
  cases op with
  | getOnePage pf vaddr => cases h
  | getOnePageNoBitmap pf vaddr =>
    exact of_decide_eq_true (p := vaddr < 0xffc00000) h
  | mfreePage a =>
    have hcov : st.mem.Covers a.pf a.vaddr a.cnt := of_decide_eq_true h
    exact hcov
  | mallocPage pf cnt => trivial
  | activate thread => trivial
  | processExecute name => trivial

/-- A run that passes the tests is a run. -/
theorem testRun_reaches {test : PageState → PageOp → Bool} {C : PageState → PageOp → Prop}
    (hC : ∀ st op, (∃ D g, st.Valid D g) → test st op = true → C st op ∧ st.Allowed op)
    {first : Nat} {ops pre : List PageOp} (hpre : Reaches C pre st) (hv : ∃ D g, st.Valid D g)
    (h : testRun test first st ops = .ok st') : Reaches C (pre ++ ops) st' ∧ ∃ D g, st'.Valid D g := by
  induction ops generalizing st pre with
  | nil =>
    cases h
    rw [List.append_nil]
    exact ⟨hpre, hv⟩
  | cons op ops ih =>
    unfold testRun at h
    split at h
    · rename_i htest
      obtain ⟨st1, hstep, h⟩ := bind_eq_ok.mp h
      have hstep := step_eq hstep
      obtain ⟨hop, hallowed⟩ := hC st op hv htest
      obtain ⟨D, g, hvalid⟩ := hv
      have hrun := ih (.step op hpre hop (step_unchecked hstep)) (hvalid.step hallowed st1 hstep) h
      rw [List.append_assoc] at hrun
      exact hrun
    · cases h

/-- A page without a bitmap, for which a table is needed, and two allocations of the kernel, of which one
is released. -/
theorem frames_separate_heap : ∃ st, Reaches (fun st op => st.Premise op ∧ st.InRange op)
      [.getOnePageNoBitmap .user 0xbffff000, .mallocPage .kernel 2, .mallocPage .kernel 1,
        .mfreePage ⟨kernelDir, .kernel, 0xc0100000, 2⟩] st ∧
    st.live = [⟨kernelDir, .kernel, 0xc0102000, 1⟩, ⟨kernelDir, .user, 0xbffff000, 1⟩] ∧
    st.Separate := by
  have hcheck : returnsWith (testRun (fun st op => st.premiseTest op && st.rangeTest op) 0 boot
        [.getOnePageNoBitmap .user 0xbffff000, .mallocPage .kernel 2, .mallocPage .kernel 1,
          .mfreePage ⟨kernelDir, .kernel, 0xc0100000, 2⟩])
      (fun st => decide (st.live = [⟨kernelDir, .kernel, 0xc0102000, 1⟩, ⟨kernelDir, .user, 0xbffff000, 1⟩])) =
      true := by
    decide +kernel
  have htests : ∀ (st : PageState) op, (∃ D g, st.Valid D g) → (st.premiseTest op && st.rangeTest op) = true →
      (st.Premise op ∧ st.InRange op) ∧ st.Allowed op := by
    rintro st op ⟨D, g, hv⟩ htest
    obtain ⟨hpremise, hrange⟩ := Bool.and_eq_true_iff.mp htest
    obtain ⟨hop, hbelow⟩ := hv.premise_of_test hpremise
    exact ⟨⟨hop, inRange_of_test hrange⟩, hop.allowed hbelow⟩
  obtain ⟨st, hrun, hlive⟩ := returnsWith_iff.mp hcheck
  have hreach := (testRun_reaches htests .boot boot_valid hrun).1
  exact ⟨st, hreach, of_decide_eq_true hlive, frames_separate hreach⟩

/-- Before the call that goes wrong: `init` has a page, whose table is frame 0x21a, and the next frame is a
page of the kernel. The byte behind its bitmap is in the entry 32 of its directory. -/
theorem sharedRun : ∃ st m s,
    testRun premiseTest 0x201 boot [.processExecute "init", .mallocPage .kernel 1, .activate 0xc0100000,
      .getOnePage .user 0x8048000, .mallocPage .kernel 1] = .ok st ∧
    (st.mem.running ∈ st.threads ∧ st.premiseTest (.getOnePage .user 0xc0454000) = true ∧
      (st.mem.pcb st.mem.running).pgDir = some 0xc0118000 ∧ st.mem.bits .user = 0xc0101000 ∧
      st.mem.vaddrStart .user = 0x8048000 ∧ st.mem.byteAt 0xc0118081 = some 0xa0 ∧
      vpage kernelDir 0xc011a000 ∈ st.livePages) ∧
    st.mem.storeByte 0xc0118081 0xb0 = .ok m ∧
    getOnePageNoBitmap { st.mem with toMachine := m } .user 0xc0454000 = .ok (some 0xc0454000, s) ∧
    s.frameAt (vpage kernelDir 0xc011a000) = some 0x21b ∧
    (s.pcb st.mem.running).pgDir = some 0xc0118000 ∧
    s.frameAt (vpage kernelDir 0xc0118000) = some 0x218 ∧ Present (s.mem 0x218 32) ∧
    pageOf (s.mem 0x218 32) = 0x21b := by
  have hcheck : returnsWith (testRun premiseTest 0x201 boot
      [.processExecute "init", .mallocPage .kernel 1, .activate 0xc0100000, .getOnePage .user 0x8048000,
        .mallocPage .kernel 1]) (fun st =>
      decide (st.mem.running ∈ st.threads ∧ st.premiseTest (.getOnePage .user 0xc0454000) = true ∧
        (st.mem.pcb st.mem.running).pgDir = some 0xc0118000 ∧ st.mem.bits .user = 0xc0101000 ∧
        st.mem.vaddrStart .user = 0x8048000 ∧ st.mem.byteAt 0xc0118081 = some 0xa0 ∧
        vpage kernelDir 0xc011a000 ∈ st.livePages) &&
      returnsWith (st.mem.storeByte 0xc0118081 0xb0) fun m =>
        returnsWith (getOnePageNoBitmap { st.mem with toMachine := m } .user 0xc0454000) fun r =>
          decide (r.1 = some 0xc0454000 ∧ r.2.frameAt (vpage kernelDir 0xc011a000) = some 0x21b ∧
            (r.2.pcb st.mem.running).pgDir = some 0xc0118000 ∧
            r.2.frameAt (vpage kernelDir 0xc0118000) = some 0x218 ∧ Present (r.2.mem 0x218 32) ∧
            pageOf (r.2.mem 0x218 32) = 0x21b)) = true := by
    decide +kernel
  obtain ⟨st, hrun, htests⟩ := returnsWith_iff.mp hcheck
  obtain ⟨hbefore, hstore⟩ := Bool.and_eq_true_iff.mp htests
  obtain ⟨m, hm, hrest⟩ := returnsWith_iff.mp hstore
  obtain ⟨⟨v, s⟩, hs, hafter⟩ := returnsWith_iff.mp hrest
  obtain ⟨rfl, hafter⟩ := of_decide_eq_true hafter
  exact ⟨st, m, s, hrun, of_decide_eq_true hbefore, hm, hs, hafter⟩

/-- **A frame has two uses**: the bit for 0xc0454000 lies behind the bitmap of `init`, in its page
directory, and turns the table of its page into a frame of the kernel. -/
theorem frames_shared : ∃ st, Reaches Premise
      [.processExecute "init", .mallocPage .kernel 1, .activate 0xc0100000, .getOnePage .user 0x8048000,
        .mallocPage .kernel 1, .getOnePage .user 0xc0454000] st ∧
    st.Uses 0x21b (.page (vpage kernelDir 0xc011a000)) ∧ st.Uses 0x21b (.table 0x218 32) ∧
    ¬ st.Separate := by
  obtain ⟨st, m, s, hrun, ⟨hrunning, hpremise, hdir, hbits, hstart, hbyte, hlive⟩, hm, hs, hframe, hdir',
    hdirFrame, hpresent, htable⟩ := sharedRun
  have htests : ∀ (st : PageState) op, (∃ D g, st.Valid D g) → st.premiseTest op = true →
      st.Premise op ∧ st.Allowed op := by
    rintro st op ⟨D, g, hv⟩ htest
    obtain ⟨hop, hbelow⟩ := hv.premise_of_test htest
    exact ⟨hop, hop.allowed hbelow⟩
  obtain ⟨hreach, D, g, hv⟩ := testRun_reaches htests .boot boot_valid hrun
  -- the address lies behind the bitmap, however long that is
  have hidx : pageIdx 0xc0454000 (st.mem.vaddrStart .user) = 754700 := by
    rw [hstart]
    decide
  have hout : ¬ st.mem.Covers .user 0xc0454000 1 := by
    have hlen : (st.mem.vaddrBitmap .user).len ≤ userBitmapLen := (hv.records.user _ hrunning).len
    have hmax : userBitmapLen = 94199 := by decide
    rw [Memory.Covers, hidx]
    omega
  have hplace : st.mem.bits .user + BitVec.ofNat 32 (pageIdx 0xc0454000 (st.mem.vaddrStart .user) / 8) =
      0xc0118081 := by
    rw [hbits, hidx]
    decide
  have hmark : Unchecked.markPage st.mem .user 0xc0454000 = .ok { st.mem with toMachine := m } := by
    rw [Unchecked.markPage_overrun hout (by rw [hplace]; exact hbyte), hplace, hidx]
    exact congrArg (Except.map _) hm
  have hget : Unchecked.getOnePage st.mem .user 0xc0454000 = .ok (some 0xc0454000, s) :=
    (Unchecked.getOnePage_user hdir (by rw [hstart]; decide) hmark).trans hs
  have hstep : st.stepUnchecked (.getOnePage .user 0xc0454000) =
      .ok (st.enter .user 1 (some 0xc0454000, s)) := stepUnchecked_getOnePage hget
  have hpage : (st.enter .user 1 (some 0xc0454000, s)).Uses 0x21b (.page (vpage kernelDir 0xc011a000)) :=
    ⟨List.mem_append_left _ (List.mem_append_right _ hlive), hframe⟩
  have htab : (st.enter .user 1 (some 0xc0454000, s)).Uses 0x21b (.table 0x218 32) :=
    ⟨.inr ⟨_, hrunning, _, hdir', hdirFrame⟩, by decide, by decide, hpresent, htable⟩
  have hreach' := Reaches.step (.getOnePage .user 0xc0454000) hreach (hv.premise_of_test hpremise).1 hstep
  refine ⟨_, hreach', hpage, htab, fun hsep => ?_⟩
  cases hsep.2.1 _ _ _ hpage htab

end Separate

end PageState

end GwOS
