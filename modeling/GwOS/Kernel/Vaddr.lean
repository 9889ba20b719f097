import GwOS.Kernel.Allocation

/-!
# The bitmaps of the virtual pages

Which virtual pages an allocation takes and a release gives back. The search takes the first
run that is free, and nothing but `vaddr_get`, `vaddr_remove` and the first lines of
`get_one_page` writes to a bitmap: the loops over the page tables leave all of them, and the
records of the threads, as they are (`SameRecords`).
-/

namespace GwOS

/-! ## The search -/

/-- `bitmap_apply_cnt` answers the first free run. -/
theorem bitmapApplyFrom_first (mp : Bitmap) {cnt : Nat} (hcnt : 1 ≤ cnt) (n i : Nat)
    (hle : i + n + cnt ≤ 8 * mp.len + 1) :
    Returns (bitmapApplyFrom mp cnt n i) fun r => ∀ j, r = some j →
      ∀ j', i ≤ j' → j' < j → ¬ mp.FreeAt j' cnt := by
  induction n generalizing i with
  | zero => exact .ok nofun
  | succ n ih =>
    obtain ⟨c, rfl⟩ : ∃ c, cnt = c + 1 := ⟨cnt - 1, by omega⟩
    have hcheck : bitmapCheckIdx mp i = .ok (mp.bit i) := bitmapCheckIdx_ok (by omega)
    -- the run at `i` is not free when the search goes on
    have hnext : ¬ mp.FreeAt i (c + 1) → Returns (bitmapApplyFrom mp (c + 1) n (i + 1)) fun r =>
        ∀ j, r = some j → ∀ j', i ≤ j' → j' < j → ¬ mp.FreeAt j' (c + 1) := by
      intro hi
      refine (ih (i + 1) (by omega)).mono fun r hr j hj j' hle' hlt => ?_
      by_cases he : j' = i
      · rw [he]
        exact hi
      · exact hr j hj j' (by omega) hlt
    rw [bitmapApplyFrom, hcheck]
    cases hb : mp.bit i with
    | true =>
      refine hnext fun hfree => ?_
      rw [Bitmap.freeAt_succ, hb] at hfree
      exact absurd hfree.1 (by decide)
    | false =>
      obtain ⟨f, hf, hiff⟩ : ∃ f, bitmapFreeRun mp c (i + 1) = .ok f ∧
          (f = true ↔ mp.FreeAt (i + 1) c) := bitmapFreeRun_ok (by omega)
      show Returns (bitmapFreeRun mp c (i + 1) >>= _) _
      rw [hf]
      cases f with
      | true =>
        refine .ok fun j hj j' hle' hlt => ?_
        cases hj
        omega
      | false =>
        refine hnext fun hfree => ?_
        rw [Bitmap.freeAt_succ] at hfree
        exact absurd (hiff.mpr hfree.2) (by decide)

/-- The loops over a bitmap do not fail inside of it. -/
theorem setBits_ok (v : Bool) (cnt : Nat) (mp : Bitmap) (idx : Nat) (h : idx + cnt ≤ 8 * mp.len) :
    ∃ mp', setBits mp (if v then 1 else 0) cnt idx = .ok mp' := by
  induction cnt generalizing mp idx with
  | zero => exact ⟨mp, rfl⟩
  | succ cnt ih =>
    obtain ⟨mp1, h1, hlen, -⟩ := bitmapSetIdx_ok (by omega : idx < 8 * mp.len) v
    obtain ⟨mp', h'⟩ := ih mp1 (idx + 1) (by omega)
    refine ⟨mp', ?_⟩
    rw [setBits, h1]
    exact h'

/-- The bits of `[idx, idx + cnt)` have the value `v`, and the others are as in `mp`. -/
def Bitmap.SetRange (mp mp' : Bitmap) (v : Bool) (idx cnt : Nat) : Prop :=
  mp'.len = mp.len ∧ ∀ j, mp'.bit j = if idx ≤ j ∧ j < idx + cnt then v else mp.bit j

/-! ## `vaddr_get` and `vaddr_remove` -/

section Vaddr

variable {s s' : Memory} {pf : PoolFlag} {cnt idx : Nat} {v : Addr}

/-- The run at `idx` is taken. -/
structure VaddrGot (s s' : Memory) (pf : PoolFlag) (cnt idx : Nat) (v : Addr) : Prop where
  range : idx + cnt ≤ (s.vaddrBitmap pf).len
  vaddr : v = s.vaddrStart pf + BitVec.ofNat 32 (idx * pgSize)
  free : (s.vaddrBitmap pf).FreeAt idx cnt
  first : ∀ j < idx, ¬ (s.vaddrBitmap pf).FreeAt j cnt
  marked : ∃ mp, (s.vaddrBitmap pf).SetRange mp true idx cnt ∧ s' = s.setVaddrBitmap pf mp

theorem vaddrGet_spec (hcnt : 1 ≤ cnt) (hlt : cnt < (s.vaddrBitmap pf).len)
    (hlen : (s.vaddrBitmap pf).len < 2 ^ 32) :
    Returns (vaddrGet s pf cnt) fun r => match r.1 with
      | none => r.2 = s ∧ ∀ j < (s.vaddrBitmap pf).len - cnt, ¬ (s.vaddrBitmap pf).FreeAt j cnt
      | some v => ∃ idx, VaddrGot s r.2 pf cnt idx v := by
  have hbound : (s.vaddrBitmap pf).len + 2 ^ 32 - cnt = ((s.vaddrBitmap pf).len - cnt) + 2 ^ 32 := by
    omega
  have hfirst := bitmapApplyFrom_first (s.vaddrBitmap pf) hcnt
    ((s.vaddrBitmap pf).len - cnt) 0 (by omega)
  obtain ⟨found, hfound, hspec⟩ := bitmapApplyCnt_ok hcnt (Nat.le_of_lt hlt) hlen
  have happly : bitmapApplyFrom (s.vaddrBitmap pf) cnt ((s.vaddrBitmap pf).len - cnt) 0 = .ok found := by
    rw [← hfound, bitmapApplyCnt, hbound, Nat.add_mod_right, Nat.mod_eq_of_lt (by omega)]
  unfold vaddrGet
  rw [hfound]
  cases found with
  | none => exact .ok ⟨rfl, fun j hj => hspec j (Nat.zero_le j) (by omega)⟩
  | some idx =>
    obtain ⟨-, hidx, hfree⟩ := hspec
    show Returns (setBits (s.vaddrBitmap pf) (if true then 1 else 0) cnt idx >>= _) _
    refine .bind (setBits_returns true cnt _ idx) fun mp hmp => ?_
    dsimp only
    split
    · exact .error _
    · exact .ok ⟨idx, by omega, rfl, hfree, fun j hj => hfirst _ happly idx rfl j (Nat.zero_le j) hj,
        mp, hmp, rfl⟩

/-- In the kernel the search succeeds whenever there is a free run. -/
theorem vaddrGet_ok (pf : PoolFlag) (hpf : pf ≠ .user) (hcnt : 1 ≤ cnt) (hlt : cnt < (s.vaddrBitmap pf).len)
    (hlen : (s.vaddrBitmap pf).len < 2 ^ 32) {j : Nat} (hj : j < (s.vaddrBitmap pf).len - cnt)
    (hfree : (s.vaddrBitmap pf).FreeAt j cnt) : ∃ v s', vaddrGet s pf cnt = .ok (some v, s') := by
  obtain ⟨found, hfound, hspec⟩ := bitmapApplyCnt_ok hcnt (Nat.le_of_lt hlt) hlen
  cases found with
  | none => exact absurd hfree (hspec j (Nat.zero_le j) (by omega))
  | some idx =>
    obtain ⟨-, hidx, -⟩ := hspec
    obtain ⟨mp, hmp⟩ := setBits_ok true cnt (s.vaddrBitmap pf) idx (by omega)
    refine ⟨s.vaddrStart pf + BitVec.ofNat 32 (idx * pgSize), s.setVaddrBitmap pf mp, ?_⟩
    rw [if_pos rfl] at hmp
    unfold vaddrGet
    rw [hfound]
    simp only [hmp, bind, Except.bind]
    rw [if_neg fun h => hpf h.1]

theorem vaddrRemove_spec (s : Memory) (pf : PoolFlag) (v : Addr) (cnt : Nat) :
    Returns (vaddrRemove s pf v cnt) fun s' =>
      ∃ mp, (s.vaddrBitmap pf).SetRange mp false (pageIdx v (s.vaddrStart pf)) cnt ∧
        s' = s.setVaddrBitmap pf mp := by
  unfold vaddrRemove
  exact .bind (setBits_returns false cnt _ _) fun mp hmp => .ok ⟨mp, hmp, rfl⟩

/-! ## The records -/

/-- The bitmaps of the virtual pages and the records of the threads are the same. -/
structure SameRecords (s s' : Memory) : Prop where
  kernelVaddr : s'.kernelVaddr = s.kernelVaddr
  pcb : s'.pcb = s.pcb
  btmp : s'.btmp = s.btmp
  running : s'.running = s.running

theorem SameRecords.refl (s : Memory) : SameRecords s s := ⟨rfl, rfl, rfl, rfl⟩

theorem SameRecords.trans {s1 s2 s3 : Memory} (h : SameRecords s1 s2) (h' : SameRecords s2 s3) :
    SameRecords s1 s3 :=
  ⟨h'.kernelVaddr.trans h.kernelVaddr, h'.pcb.trans h.pcb, h'.btmp.trans h.btmp,
    h'.running.trans h.running⟩

theorem SameRecords.vaddrBitmap {s s' : Memory} (h : SameRecords s s') (pf : PoolFlag) :
    s'.vaddrBitmap pf = s.vaddrBitmap pf := by
  cases pf with
  | kernel => exact congrArg VirtualAddr.vaddrBitmap h.kernelVaddr
  | user =>
    show s'.btmp (s'.pcb s'.running).bits = s.btmp (s.pcb s.running).bits
    rw [h.btmp, h.pcb, h.running]

theorem SameRecords.vaddrStart {s s' : Memory} (h : SameRecords s s') (pf : PoolFlag) :
    s'.vaddrStart pf = s.vaddrStart pf := by
  cases pf with
  | kernel => exact congrArg VirtualAddr.vaddrStart h.kernelVaddr
  | user =>
    show (s'.pcb s'.running).vaddrStart = (s.pcb s.running).vaddrStart
    rw [h.pcb, h.running]

theorem SameRecords.setPool (s : Memory) (pf : PoolFlag) (p : Pool) : SameRecords s (s.setPool pf p) := by
  cases pf <;> exact ⟨rfl, rfl, rfl, rfl⟩

theorem SameRecords.machine (s : Memory) (m : Machine) (p : Pool) :
    SameRecords s { s with toMachine := m, kernelPool := p } := ⟨rfl, rfl, rfl, rfl⟩

theorem setPte_same (s : Memory) (pte page : Addr) : Returns (setPte s pte page) (SameRecords s) := by
  unfold setPte
  refine .bind .any fun entry _ => ?_
  split
  · exact .error _
  · exact .bind .any fun m _ => .ok (.machine s m s.kernelPool)

theorem pageTableAdd_same (s : Memory) (v page : Addr) :
    Returns (pageTableAdd s v page) (SameRecords s) := by
  unfold pageTableAdd
  refine .bind .any fun entry _ => ?_
  split
  · exact setPte_same _ _ _
  · refine .bind .any fun r _ => ?_
    obtain ⟨pt, p⟩ := r
    refine .bind .any fun m1 _ => .bind .any fun m2 _ => ?_
    exact (setPte_same _ _ _).mono fun s' h' => (SameRecords.machine s m2 p).trans h'

theorem mallocLoop_same (s : Memory) (pf : PoolFlag) (cnt : Nat) (v : Addr) :
    Returns (mallocLoop pf cnt v s) fun r => SameRecords s r.2 := by
  induction cnt generalizing s v with
  | zero => exact .ok (.refl s)
  | succ cnt ih =>
    unfold mallocLoop
    refine .bind .any fun r _ => ?_
    obtain ⟨page, p⟩ := r
    have hpool := SameRecords.setPool s pf p
    cases page with
    | none => exact .ok hpool
    | some page =>
      refine .bind (pageTableAdd_same _ v page) fun s1 h1 => ?_
      exact (ih s1 _).mono fun r h => (hpool.trans h1).trans h

theorem getOnePageNoBitmap_same (s : Memory) (pf : PoolFlag) (v : Addr) :
    Returns (getOnePageNoBitmap s pf v) fun r => SameRecords s r.2 := by
  unfold getOnePageNoBitmap
  refine .bind .any fun r _ => ?_
  obtain ⟨page, p⟩ := r
  have hpool := SameRecords.setPool s pf p
  cases page with
  | none => exact .ok hpool
  | some page => exact .bind (pageTableAdd_same _ v page) fun s1 h1 => .ok (hpool.trans h1)

theorem pfree_same (s : Memory) (a : Addr) : Returns (pfree s a) (SameRecords s) := by
  unfold pfree
  exact .bind .any fun mp _ => .ok (.setPool s _ _)

theorem pageTablePteRemove_same (s : Memory) (v : Addr) :
    Returns (pageTablePteRemove s v) (SameRecords s) := by
  unfold pageTablePteRemove
  exact .bind .any fun entry _ => .bind .any fun m _ => .ok (.machine s m s.kernelPool)

theorem mfreeLoop_same (s : Memory) (pf : PoolFlag) (cnt : Nat) (v : Addr) :
    Returns (mfreeLoop pf cnt v s) (SameRecords s) := by
  induction cnt generalizing s v with
  | zero => exact .ok (.refl s)
  | succ cnt ih =>
    unfold mfreeLoop
    refine .bind .any fun a _ => ?_
    split
    · refine .bind (pfree_same s a) fun s1 h1 => .bind (pageTablePteRemove_same s1 v) fun s2 h2 => ?_
      exact (ih s2 _).mono fun s3 h3 => (h1.trans h2).trans h3
    · exact .error _

/-! ## What a call does to the bitmap -/

/-- **`malloc_page`**: no virtual pages are found, or the loop runs over those that are. -/
theorem mallocPage_cases (s : Memory) (pf : PoolFlag) (cnt : Nat) :
    Returns (mallocPage s pf cnt) fun r =>
      (vaddrGet s pf cnt = .ok (none, r.2) ∧ r.1 = none) ∨
      ∃ v s1 done, vaddrGet s pf cnt = .ok (some v, s1) ∧ mallocLoop pf cnt v s1 = .ok (done, r.2) ∧
        r.1 = if done then some v else none := by
  unfold mallocPage
  split
  · refine .bind .any fun r1 h1 => ?_
    obtain ⟨v, s1⟩ := r1
    cases v with
    | none => exact .ok (.inl ⟨h1, rfl⟩)
    | some v =>
      refine .bind .any fun r2 h2 => .ok (.inr ⟨v, s1, r2.1, h1, h2, rfl⟩)
  · exact .error _

/-- **`get_kernel_pages`** marks a run of virtual pages that was free, and nothing else. -/
theorem getKernelPages_vaddr (hcnt : 1 ≤ cnt) (hlt : cnt < s.kernelVaddr.vaddrBitmap.len)
    (hlen : s.kernelVaddr.vaddrBitmap.len < 2 ^ 32) :
    Returns (getKernelPages s cnt) fun r => ∀ v, r.1 = some v →
      ∃ idx s1, VaddrGot s s1 .kernel cnt idx v ∧ SameRecords s1 r.2 := by
  unfold getKernelPages getPages
  refine .bind (mallocPage_cases s .kernel cnt) fun r1 h1 => ?_
  obtain ⟨v, s2⟩ := r1
  cases v with
  | none => exact .ok nofun
  | some v =>
    refine .bind .any fun m _ => .ok fun w hw => ?_
    cases hw
    rcases h1 with ⟨-, hno⟩ | ⟨v', s1, done, hget, hloop, hv⟩
    · cases hno
    · cases done with
      | false => cases hv
      | true =>
        cases hv
        have hlt' : cnt < (s.vaddrBitmap .kernel).len := hlt
        obtain ⟨idx, hgot⟩ := vaddrGet_spec hcnt hlt' hlen _ hget
        exact ⟨idx, s1, hgot, (mallocLoop_same s1 .kernel cnt v _ hloop).trans
          (.machine s2 m s2.kernelPool)⟩

/-- **`mfree_page`** clears the bits of the pages, and nothing else. -/
theorem mfreePage_vaddr (s : Memory) (pf : PoolFlag) (v : Addr) (cnt : Nat) :
    Returns (mfreePage s pf v cnt) fun s' => ∃ s1 mp, SameRecords s s1 ∧
      (s.vaddrBitmap pf).SetRange mp false (pageIdx v (s.vaddrStart pf)) cnt ∧
      s' = s1.setVaddrBitmap pf mp := by
  unfold mfreePage
  split
  · refine .bind .any fun a _ => ?_
    split
    · refine .bind (mfreeLoop_same s _ cnt v) fun s1 h1 => ?_
      refine (vaddrRemove_spec s1 pf v cnt).mono fun s' h' => ?_
      obtain ⟨mp, hmp, rfl⟩ := h'
      have hbm : s1.vaddrBitmap pf = s.vaddrBitmap pf := by
        cases pf with
        | kernel => exact congrArg VirtualAddr.vaddrBitmap h1.kernelVaddr
        | user => rw [Memory.vaddrBitmap, Memory.vaddrBitmap, h1.btmp, h1.pcb, h1.running]
      have hst : s1.vaddrStart pf = s.vaddrStart pf := by
        cases pf with
        | kernel => exact congrArg VirtualAddr.vaddrStart h1.kernelVaddr
        | user => rw [Memory.vaddrStart, Memory.vaddrStart, h1.pcb, h1.running]
      rw [hbm, hst] at hmp
      exact ⟨s1, mp, h1, hmp, rfl⟩
    · exact .error _
  · exact .error _

end Vaddr

end GwOS
